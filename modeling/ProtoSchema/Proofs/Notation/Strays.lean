import ProtoSchema.Proofs.Classification
import ProtoSchema.Proofs.Notation.Tracking

/-
  Stray semicolons. Where a statement may begin, any number of semicolons may stand or not: the
  lexemes make up the same file either way (`ofLexemes_strewn`). Such a place is behind every
  semicolon and every brace, except within the values in braces that options have, where a semicolon
  is a separator.
-/

namespace ProtoSchema

/-- The second list has the lexemes of the first one, and also semicolons where statements may
begin. The first list starts at the place `s`. -/
inductive Strewn : Spot → List Lexeme → List Lexeme → Prop
  | nil {s : Spot} : Strewn s [] []
  | kept {s : Spot} {l l' : Lexeme} {ls ls' : List Lexeme}
      (noAggregate : s = .value → l.token ≠ .punct .leftBrace) (same : l.SameText l')
      (rest : Strewn (.behind l.token) ls ls') : Strewn s (l :: ls) (l' :: ls')
  | aggregate {l l' : Lexeme} {inner inner' ls ls' : List Lexeme}
      (token : l.token = .punct .leftBrace) (same : l.SameText l') (closed : Closed inner)
      (sameInner : List.Forall₂ Lexeme.SameText inner inner') (rest : Strewn .inside ls ls') :
      Strewn .value (l :: (inner ++ ls)) (l' :: (inner' ++ ls'))
  | added {l : Lexeme} {ls ls' : List Lexeme} (token : l.token = .punct .semicolon)
      (rest : Strewn .boundary ls ls') : Strewn .boundary ls (l :: ls')

/-! ## Strewn lexemes are a variation -/

theorem Varies.of_kept {s : Spot} {l : Lexeme} {ls ls' : List Lexeme}
    (noComment : l.token.isComment = false)
    (noAggregate : s = .value → l.token ≠ .punct .leftBrace)
    (rest : Varies (.behind l.token) ls ls') : Varies s (l :: ls) (l :: ls') := by
  have hinside : Varies .inside (l :: ls) (l :: ls') := .token noComment rest
  cases s with
  | inside => exact hinside
  | boundary => exact .statement hinside
  | value => exact .constant (fun m hm => Option.some.inj hm ▸ noAggregate rfl) hinside

theorem Varies.empty (s : Spot) : Varies s [] [] := by
  cases s with
  | inside => exact .nil
  | boundary => exact .statement .nil
  | value => exact .constant nofun .nil

/-- An aggregate with its braces is the same before all lexemes. -/
theorem Varies.of_aggregate {l : Lexeme} {inner ls ls' : List Lexeme}
    (hl : l.token = .punct .leftBrace) (hclosed : Closed inner) (rest : Varies .inside ls ls') :
    Varies .value (l :: (inner ++ ls)) (l :: (inner ++ ls')) := by
  have hyield (more : List Lexeme) : Production.aggregate.yield (l :: (inner ++ more)) =
      (Production.aggregate.yield (l :: inner)).map fun found => (found.1, more) :=
    Production.yield_aggregate_of_closed (List.forall_mem_nil _) hl hclosed more
  cases h : Production.aggregate.yield (l :: inner) with
  | none => exact .unread hl hl (by rw [hyield, h]; rfl) (by rw [hyield, h]; rfl)
  | some found => exact .aggregate hl hl (by rw [hyield, h]; rfl) (by rw [hyield, h]; rfl) rest

/-- Between lexemes and the strewn ones stand those that keep the first ones and take over the
strays. -/
theorem Strewn.varies {s : Spot} {ls ls' : List Lexeme} (h : Strewn s ls ls')
    (hcomment : ∀ l ∈ ls, l.token.isComment = false) :
    ∃ ms, List.Forall₂ Lexeme.SameText ms ls' ∧ (∀ l ∈ ms, l ∈ ls ∨ l ∈ ls') ∧
      Varies s ls ms := by
  induction h with
  | nil => exact ⟨[], .nil, nofun, .empty _⟩
  | @kept s l l' ls ls' noAggregate same rest ih =>
    obtain ⟨hl, hls⟩ := List.forall_mem_cons.1 hcomment
    obtain ⟨ms, hsame, hmem, hms⟩ := ih hls
    refine ⟨l :: ms, .cons same hsame, ?_, .of_kept hl noAggregate hms⟩
    grind
  | @aggregate l l' inner inner' ls ls' token same closed sameInner rest ih =>
    obtain ⟨ms, hsame, hmem, hms⟩ := ih fun m hm => hcomment m (by simp [hm])
    refine ⟨l :: (inner ++ ms), .cons same (List.rel_append sameInner hsame), ?_,
      .of_aggregate token closed hms⟩
    grind
  | @added l ls ls' token rest ih =>
    obtain ⟨ms, hsame, hmem, hms⟩ := ih hcomment
    have hself : l.SameText l := .other (by rw [token]; nofun) rfl
    refine ⟨l :: ms, .cons hself hsame, ?_, .strayRight token hms⟩
    grind

/-! ## The same file -/

namespace File

/-- Stray semicolons mean nothing: with or without any of them, lexemes make up the same file. -/
theorem ofLexemes_strewn {ls ls' : List Lexeme} (hw : ∀ l ∈ ls, l.WellRead)
    (hw' : ∀ l ∈ ls', l.WellRead) (hcomment : ∀ l ∈ ls, l.token.isComment = false)
    (h : Strewn .inside ls ls') (m n : Nat) (f : File) :
    ofLexemes ls m = .ok f ↔ ofLexemes ls' n = .ok f := by
  obtain ⟨ms, hsame, hmem, hvaries⟩ := h.varies hcomment
  have hwell : ∀ l ∈ ms, l.WellRead := fun l hl => (hmem l hl).elim (hw l) (hw' l)
  rw [ofLexemes_of_varies hvaries m n f]
  have houtcome := ofLexemes_sameText hwell hw' hsame n n
  generalize ofLexemes ms n = x, ofLexemes ls' n = y at houtcome
  cases houtcome <;> simp

/-- Strays at the boundaries of a file and of an enum; the semicolon within the braces of the option
is no stray. -/
theorem ofLexemes_strewn_enum : ∃ ls ls' f,
    tokenize "syntax = 'a'; enum E \x7b option o = \x7b k: 1; \x7d; \x7d".toList = .ok ls ∧
      tokenize "syntax = 'a';; enum E \x7b; option o = \x7b k: 1; \x7d;; \x7d;".toList = .ok ls' ∧
      ofLexemes ls 0 = .ok f ∧ ofLexemes ls' 0 = .ok f := by
  have hs : tokenize "syntax = 'a'; enum E \x7b option o = \x7b k: 1; \x7d; \x7d".toList = .ok
      [⟨.word (.keyword .syntaxKw), "syntax", ⟨0, 6⟩⟩, ⟨.punct .equals, "=", ⟨7, 8⟩⟩,
        ⟨.string "a", "'a'", ⟨9, 12⟩⟩, ⟨.punct .semicolon, ";", ⟨12, 13⟩⟩,
        ⟨.word (.keyword .enumKw), "enum", ⟨14, 18⟩⟩, ⟨.word (.ident "E"), "E", ⟨19, 20⟩⟩,
        ⟨.punct .leftBrace, "\x7b", ⟨21, 22⟩⟩, ⟨.word (.keyword .optionKw), "option", ⟨23, 29⟩⟩,
        ⟨.word (.ident "o"), "o", ⟨30, 31⟩⟩, ⟨.punct .equals, "=", ⟨32, 33⟩⟩,
        ⟨.punct .leftBrace, "\x7b", ⟨34, 35⟩⟩, ⟨.word (.ident "k"), "k", ⟨36, 37⟩⟩,
        ⟨.punct .colon, ":", ⟨37, 38⟩⟩, ⟨.int 1, "1", ⟨39, 40⟩⟩,
        ⟨.punct .semicolon, ";", ⟨40, 41⟩⟩, ⟨.punct .rightBrace, "\x7d", ⟨42, 43⟩⟩,
        ⟨.punct .semicolon, ";", ⟨43, 44⟩⟩, ⟨.punct .rightBrace, "\x7d", ⟨45, 46⟩⟩] := by
    decide +kernel
  have ht : tokenize "syntax = 'a';; enum E \x7b; option o = \x7b k: 1; \x7d;; \x7d;".toList = .ok
      [⟨.word (.keyword .syntaxKw), "syntax", ⟨0, 6⟩⟩, ⟨.punct .equals, "=", ⟨7, 8⟩⟩,
        ⟨.string "a", "'a'", ⟨9, 12⟩⟩, ⟨.punct .semicolon, ";", ⟨12, 13⟩⟩,
        ⟨.punct .semicolon, ";", ⟨13, 14⟩⟩, ⟨.word (.keyword .enumKw), "enum", ⟨15, 19⟩⟩,
        ⟨.word (.ident "E"), "E", ⟨20, 21⟩⟩, ⟨.punct .leftBrace, "\x7b", ⟨22, 23⟩⟩,
        ⟨.punct .semicolon, ";", ⟨23, 24⟩⟩, ⟨.word (.keyword .optionKw), "option", ⟨25, 31⟩⟩,
        ⟨.word (.ident "o"), "o", ⟨32, 33⟩⟩, ⟨.punct .equals, "=", ⟨34, 35⟩⟩,
        ⟨.punct .leftBrace, "\x7b", ⟨36, 37⟩⟩, ⟨.word (.ident "k"), "k", ⟨38, 39⟩⟩,
        ⟨.punct .colon, ":", ⟨39, 40⟩⟩, ⟨.int 1, "1", ⟨41, 42⟩⟩,
        ⟨.punct .semicolon, ";", ⟨42, 43⟩⟩, ⟨.punct .rightBrace, "\x7d", ⟨44, 45⟩⟩,
        ⟨.punct .semicolon, ";", ⟨45, 46⟩⟩, ⟨.punct .semicolon, ";", ⟨46, 47⟩⟩,
        ⟨.punct .rightBrace, "\x7d", ⟨48, 49⟩⟩, ⟨.punct .semicolon, ";", ⟨49, 50⟩⟩] := by
    decide +kernel
  let o : OptionDecl := .ofValue "o" (.aggregate ⟨[⟨"k", .int 1, []⟩], []⟩) []
  let f : File := ⟨⟨"a", []⟩, none, [], [], [.enum ⟨"E", [.option o], []⟩], [], []⟩
  refine ⟨_, _, f, hs, ht, by decide +kernel, ?_⟩
  refine (ofLexemes_strewn (wellRead_of_tokenize hs) (wellRead_of_tokenize ht)
    (by decide +kernel) ?_ 0 0 f).1 (by decide +kernel)
  -- The statement with the language version and a stray, up to the brace of the enum and another.
  refine .kept nofun (.word rfl rfl rfl) (.kept nofun (.other nofun rfl) ?_)
  refine .kept nofun (.other nofun rfl) (.kept nofun (.other nofun rfl) (.added rfl ?_))
  refine .kept nofun (.word rfl rfl rfl) (.kept nofun (.word rfl rfl rfl) ?_)
  refine .kept nofun (.other nofun rfl) (.added rfl ?_)
  -- The option, whose value is kept as a whole.
  refine .kept nofun (.word rfl rfl rfl) (.kept nofun (.word rfl rfl rfl) ?_)
  refine .kept nofun (.other nofun rfl) ?_
  refine @Strewn.aggregate _ _ [_, _, _, _, _] [_, _, _, _, _] _ _ rfl (.other nofun rfl) ?_ ?_ ?_
  · refine .other nofun nofun (.other nofun nofun (.other nofun nofun (.other nofun nofun ?_)))
    exact .brace rfl
  · refine .cons (.word rfl rfl rfl) (.cons (.other nofun rfl) (.cons (.other nofun rfl) ?_))
    exact .cons (.other nofun rfl) (.cons (.other nofun rfl) .nil)
  -- The ends of both statements, with strays behind them.
  · refine .kept nofun (.other nofun rfl) (.added rfl (.kept nofun (.other nofun rfl) ?_))
    exact .added rfl .nil

end File

end ProtoSchema
