import ProtoSchema.Proofs.Lexing.Lines
import ProtoSchema.Proofs.Notation.OptionNames

/-
  Paths of imports. A path is the text of all its literals with every run of backslashes in it made
  a single one, also a run that starts in one literal and ends in the next. `SplitAtRuns` says what
  the runs of a text are, without reference to how they are found; what is left of a text are the
  pieces between its runs, joined by one backslash each, and these pieces are all that a path tells
  of the text (`importPath_collapsed`).
-/

namespace ProtoSchema

namespace Text

/-! ## Runs of backslashes -/

/-- A text split at its runs of backslashes, into pieces with a run between any two. A run is
whole: no further backslash stands behind it. -/
inductive SplitAtRuns : List Char → List (List Char) → Prop
  | last {piece} (plain : '\\' ∉ piece) : SplitAtRuns piece [piece]
  | run {piece rest pieces} (more : Nat) (plain : '\\' ∉ piece) (whole : rest.head? ≠ some '\\')
      (others : SplitAtRuns rest pieces) :
      SplitAtRuns (piece ++ List.replicate (more + 1) '\\' ++ rest) (piece :: pieces)

namespace SplitAtRuns

variable {text : List Char} {pieces : List (List Char)}

theorem ne_nil (h : SplitAtRuns text pieces) : pieces ≠ [] := by
  cases h <;> exact List.cons_ne_nil _ _

theorem plain_pieces (h : SplitAtRuns text pieces) : ∀ piece ∈ pieces, '\\' ∉ piece := by
  induction h with
  | last plain => exact List.forall_mem_singleton.2 plain
  | run more plain whole others ih => exact List.forall_mem_cons.2 ⟨plain, ih⟩

/-- Another character in front is part of the first piece. -/
theorem cons_plain {c : Char} (hc : c ≠ '\\') (h : SplitAtRuns text pieces) :
    ∃ pieces', SplitAtRuns (c :: text) pieces' := by
  have hplain {piece : List Char} (hpiece : '\\' ∉ piece) : '\\' ∉ c :: piece :=
    List.not_mem_cons_of_ne_of_not_mem hc.symm hpiece
  cases h with
  | last plain => exact ⟨_, .last (hplain plain)⟩
  | run more plain whole others => exact ⟨_, .run more (hplain plain) whole others⟩

/-- Another backslash in front is part of the run that starts there, or a run of its own. -/
theorem cons_backslash (h : SplitAtRuns text pieces) :
    ∃ pieces', SplitAtRuns ('\\' :: text) pieces' := by
  by_cases hhead : text.head? = some '\\'
  · cases h with
    | last plain => exact absurd (List.mem_of_head? hhead) plain
    | @run piece rest pieces more plain whole others =>
      cases piece with
      | nil => exact ⟨_, .run (more + 1) plain whole others⟩
      | cons c piece =>
        obtain rfl : c = '\\' := Option.some.inj hhead
        exact absurd List.mem_cons_self plain
  · exact ⟨_, .run 0 List.not_mem_nil hhead h⟩

end SplitAtRuns

theorem exists_splitAtRuns (text : List Char) : ∃ pieces, SplitAtRuns text pieces := by
  induction text with
  | nil => exact ⟨_, .last List.not_mem_nil⟩
  | cons c text ih =>
    obtain ⟨pieces, h⟩ := ih
    by_cases hc : c = '\\'
    · exact hc ▸ h.cons_backslash
    · exact h.cons_plain hc

/-! ## What collapsing leaves -/

theorem collapse_append_of_notMem {piece : List Char} (h : '\\' ∉ piece) (rest : List Char) :
    collapse (piece ++ rest) = piece ++ collapse rest := by
  induction piece with
  | nil => rfl
  | cons c piece ih =>
    rw [List.mem_cons, not_or] at h
    rw [List.cons_append, collapse, if_neg fun hrun => h.1 hrun.1.symm, ih h.2, List.cons_append]

/-- Of a run one backslash is left. -/
theorem collapse_run (more : Nat) {rest : List Char} (h : rest.head? ≠ some '\\') :
    collapse (List.replicate (more + 1) '\\' ++ rest) = '\\' :: collapse rest := by
  induction more with
  | zero =>
    change collapse ('\\' :: rest) = _
    rw [collapse, if_neg fun hrun => h hrun.2]
  | succ more ih =>
    rw [List.replicate_succ, List.cons_append, collapse, if_pos ⟨rfl, rfl⟩, ih]

theorem SplitAtRuns.collapse_eq {text : List Char} {pieces : List (List Char)}
    (h : SplitAtRuns text pieces) : collapse text = ['\\'].intercalate pieces := by
  induction h with
  | @last piece plain =>
    have hself := collapse_append_of_notMem plain []
    rw [List.append_nil] at hself
    rw [hself]
    simp [collapse]
  | run more plain whole others ih =>
    rw [List.append_assoc, collapse_append_of_notMem plain, collapse_run more whole, ih]
    obtain ⟨second, pieces, rfl⟩ := List.exists_cons_of_ne_nil others.ne_nil
    simp [List.intercalate]

/-- What is left tells the pieces, since no backslash is in them. -/
theorem SplitAtRuns.splitOn_collapse {text : List Char} {pieces : List (List Char)}
    (h : SplitAtRuns text pieces) : (collapse text).splitOn '\\' = pieces := by
  rw [h.collapse_eq]
  exact List.splitOn_intercalate '\\' h.plain_pieces h.ne_nil

theorem SplitAtRuns.unique {text : List Char} {ps qs : List (List Char)}
    (hp : SplitAtRuns text ps) (hq : SplitAtRuns text qs) : ps = qs :=
  hp.splitOn_collapse.symm.trans hq.splitOn_collapse

/-- The same is left of two texts exactly if they have the same pieces. -/
theorem collapse_eq_collapse_iff {a b : List Char} :
    collapse a = collapse b ↔ ∃ pieces, SplitAtRuns a pieces ∧ SplitAtRuns b pieces := by
  constructor
  · intro h
    obtain ⟨ps, hp⟩ := exists_splitAtRuns a
    obtain ⟨qs, hq⟩ := exists_splitAtRuns b
    have hsame : ps = qs := by
      rw [← hp.splitOn_collapse, h, hq.splitOn_collapse]
    exact ⟨ps, hp, hsame ▸ hq⟩
  · rintro ⟨pieces, ha, hb⟩
    rw [ha.collapse_eq, hb.collapse_eq]

theorem no_run_collapse (text : List Char) : ¬['\\', '\\'] <:+: collapse text := by
  induction text with
  | nil => simp [collapse]
  | cons c text ih =>
    rw [collapse]
    split
    · exact ih
    · next h =>
      rw [List.infix_cons_iff, not_or]
      refine ⟨fun hstart => h ?_, ih⟩
      obtain ⟨rfl, hrest⟩ := List.cons_prefix_cons.1 hstart
      obtain ⟨rest, hrest⟩ := hrest
      refine ⟨rfl, ?_⟩
      rw [← head?_collapse, ← hrest]
      rfl

theorem collapse_eq_self_iff {text : List Char} :
    collapse text = text ↔ ¬['\\', '\\'] <:+: text :=
  ⟨fun h => h ▸ no_run_collapse text, collapse_of_no_run⟩

/-! ## Collapsing texts behind one another -/

theorem collapse_append_collapse (a b : List Char) :
    collapse (a ++ collapse b) = collapse (a ++ b) := by
  induction a with
  | nil => exact collapse_collapse b
  | cons c a ih =>
    have hhead : (a ++ collapse b).head? = (a ++ b).head? := by
      rw [List.head?_append, List.head?_append, head?_collapse]
    rw [List.cons_append, List.cons_append, collapse, collapse, hhead, ih]

theorem collapse_collapse_append (a b : List Char) :
    collapse (collapse a ++ b) = collapse (a ++ b) := by
  induction a with
  | nil => rfl
  | cons c a ih =>
    have hhead : (collapse a ++ b).head? = (a ++ b).head? := by
      rw [List.head?_append, List.head?_append, head?_collapse]
    rw [collapse]
    split
    · next h =>
      have hrun : (a ++ b).head? = some '\\' := by
        rw [List.head?_append, h.2]
        rfl
      rw [ih, List.cons_append, collapse, if_pos ⟨h.1, hrun⟩]
    · rw [List.cons_append, List.cons_append, collapse, collapse, hhead, ih]

/-- The seam of two texts may lie in a run. -/
theorem collapse_append (a b : List Char) :
    collapse (a ++ b) = collapse (collapse a ++ collapse b) := by
  rw [collapse_append_collapse, collapse_collapse_append]

/-! ## Collapsing from left to right -/

/-- What is left of a text and one more character, given what is left of the text. -/
def collapseOnto (left : List Char) (c : Char) : List Char :=
  if c = '\\' ∧ left.getLast? = some '\\' then left else left ++ [c]

theorem getLast?_collapse (text : List Char) : (collapse text).getLast? = text.getLast? := by
  induction text with
  | nil => rfl
  | cons c text ih =>
    rw [collapse]
    split
    · next h =>
      rw [ih, List.getLast?_cons_of_ne_nil]
      rintro rfl
      cases h.2
    · rw [List.getLast?_cons, List.getLast?_cons, ih]

/-- One more character adds to what is left, unless it goes on with a run. -/
theorem collapse_concat (text : List Char) (c : Char) :
    collapse (text ++ [c]) = collapseOnto (collapse text) c := by
  rw [collapseOnto, getLast?_collapse]
  induction text with
  | nil => simp [collapse]
  | cons d text ih =>
    cases text with
    | nil => by_cases hd : d = '\\' <;> by_cases hc : c = '\\' <;> simp [collapse, hd, hc]
    | cons e text =>
      have hhead : (e :: text ++ [c]).head? = (e :: text).head? := rfl
      rw [List.getLast?_cons_cons, List.cons_append, collapse.eq_2 d, collapse.eq_2 d, hhead, ih]
      by_cases hrun : d = '\\' ∧ (e :: text).head? = some '\\'
      · rw [if_pos hrun, if_pos hrun]
      · rw [if_neg hrun, if_neg hrun]
        split <;> rfl

/-- The last character that is left tells whether the next one goes on with a run, so a text may be
collapsed from left to right. -/
theorem collapse_eq_foldl (text : List Char) : collapse text = text.foldl collapseOnto [] := by
  suffices h : ∀ reversed : List Char,
      collapse reversed.reverse = reversed.reverse.foldl collapseOnto [] by
    have := h text.reverse
    rwa [List.reverse_reverse] at this
  intro reversed
  induction reversed with
  | nil => rfl
  | cons c reversed ih =>
    rw [List.reverse_cons, collapse_concat, ih, List.foldl_append]
    rfl

theorem toList_collapseBackslashes (text : String) :
    (collapseBackslashes text).toList = collapse text.toList := String.toList_ofList

end Text

/-! ## Imports of several literals -/

/-- How an import is written whose path is given by the literals. -/
def Import.written (modifier : Option ImportModifier) (literals : List String) : List Symbol :=
  .word "import" :: (ImportModifier.symbols modifier ++
    (literals.map .string ++ [.punct .semicolon]))

namespace Terminal

theorem read?_string_of_symbol? {l : Lexeme} {s : String} (h : l.symbol? = some (.string s)) :
    string.read? l = some s := by
  rw [Lexeme.symbol?] at h
  split at h <;> cases h
  exact read?_string.2 (by assumption)

/-- A word of a source counts as the keyword that it is spelled like, however it was read. -/
theorem take?_keyword {k : Keyword} {cs : List Lexeme} {l : Lexeme}
    (hcs : ∀ c ∈ cs, c.token.isComment = true) (hl : l.symbol? = some (.word k.text))
    (hread : l.WellRead) (ls : List Lexeme) :
    (keyword k).take? (cs ++ l :: ls) = some (l.span, ls) := by
  obtain ⟨w, htoken, hspelling⟩ := read?_word.1 (read?_word_of_symbol? hl)
  obtain ⟨-, before, rfl⟩ := hread w htoken
  have hcounts := isKeyword_ofSpelling k before l.spelling
  rw [decide_eq_true hspelling] at hcounts
  rw [take?_of_symbol? _ hcs hl, read?_keyword.2 ⟨_, htoken, hcounts, rfl⟩]
  rfl

/-- It counts as no other keyword. -/
theorem take?_keyword_of_ne {k : Keyword} {cs : List Lexeme} {l : Lexeme} {w : String}
    (hcs : ∀ c ∈ cs, c.token.isComment = true) (hl : l.symbol? = some (.word w))
    (hread : l.WellRead) (hw : w ≠ k.text) (ls : List Lexeme) :
    (keyword k).take? (cs ++ l :: ls) = none := by
  obtain ⟨v, htoken, rfl⟩ := read?_word.1 (read?_word_of_symbol? hl)
  obtain ⟨-, before, rfl⟩ := hread v htoken
  rw [take?_of_symbol? _ hcs hl, Option.map_eq_none_iff, Option.eq_none_iff_forall_ne_some]
  intro s hs
  obtain ⟨v, hv, hcounts, -⟩ := read?_keyword.1 hs
  cases htoken.symm.trans hv
  rw [isKeyword_ofSpelling, decide_eq_false hw] at hcounts
  cases hcounts

/-- No keyword stands before a string literal. -/
theorem take?_keyword_of_string (k : Keyword) {ls : List Lexeme} {s : String}
    (h : (symbols ls).head? = some (.string s)) : (keyword k).take? ls = none := by
  rw [Option.eq_none_iff_forall_ne_some]
  rintro ⟨v, rest⟩ htake
  obtain ⟨l, x, hread, hx, hhead⟩ := exists_of_take? htake
  obtain ⟨w, hw, -⟩ := read?_keyword.1 hread
  rw [Lexeme.symbol?, hw] at hx
  cases hx
  cases h.symm.trans hhead

theorem take?_string_eq_none {ls : List Lexeme} (h : string.fitsFirst (symbols ls) = false) :
    string.take? ls = none := by
  rw [Option.eq_none_iff_forall_ne_some]
  rintro ⟨v, rest⟩ htake
  obtain ⟨l, x, hread, hx, hhead⟩ := exists_of_take? htake
  obtain ⟨xs, hxs⟩ := List.head?_eq_some_iff.1 hhead
  rw [Lexeme.symbol?, read?_string.1 hread] at hx
  cases hx
  rw [hxs] at h
  cases h

end Terminal

namespace Production

open Text

variable {α : Type} {zs : List Symbol}

/-- Adjacent literals are one string. -/
theorem covers_string {literals : List String} (hne : literals ≠ [])
    (hnext : Terminal.string.fitsFirst zs = false) :
    Covers string (literals.map .string) zs (String.join literals) := by
  obtain ⟨first, others, rfl⟩ := List.exists_cons_of_ne_nil hne
  have hstep (s : String) (us : List Symbol) : Covers (take .string) [.string s] us (some s) := by
    rintro ls rest hls -
    cases hls with
    | @cons cs l _ _ _ comments token tail =>
      cases tail
      rw [yield_take, List.append_assoc, List.cons_append,
        Terminal.take?_of_symbol? .string comments token, Terminal.read?_string_of_symbol? token]
      rfl
  have hend : Covers (take .string) [] zs none := by
    rintro ls rest hls rfl
    cases hls
    rw [yield_take, List.nil_append, Terminal.take?_string_eq_none hnext]
    rfl
  have hothers := Covers.loop others (fun s _ us => hstep s us) (fun _ _ => List.cons_ne_nil _ _)
    hend
  change Covers _ _ _ (others.map fun s : String => s) at hothers
  rw [← List.map_eq_flatMap, List.map_id'] at hothers
  rw [String.join_cons]
  exact (covers_takeOr _ fun _ => Terminal.read?_string_of_symbol?).then (hothers.giving _)

/-- Behind its comments and its keyword, a declaration goes on as it says. -/
theorem yield_declaration {k : Keyword} {q : List Comment → Span → Production α}
    {ls rest : List Lexeme} {s : Span} (h : (Terminal.keyword k).take? ls = some (s, rest)) :
    ∃ leading, Production.yield (do
      let leading ← comments
      let first ← keyword k
      q leading first) ls = (q leading s).yield rest := by
  obtain ⟨leading, hrun, -⟩ := run_comments (.start ls) .start
  have hleading := yield_of_done hrun
  obtain ⟨cs, hcs, hsplit⟩ := comments_of_yield_comments hleading
  have hkeyword : (keyword k).yield (Cursor.start ls).significant.rest = some (s, rest) := by
    refine (yield_takeOr _ _ _).trans ?_
    rw [← Terminal.take?_of_comments _ hcs, ← hsplit]
    exact h
  refine ⟨leading, ?_⟩
  rw [yield_bind, show comments.yield ls = _ from hleading, Option.bind_some, yield_bind, hkeyword]
  rfl

variable {written rest : List Lexeme}

/-- A statement may end with a comment on its line. -/
theorem yield_endStatement (hwritten : Writes written [.punct .semicolon])
    (leading : List Comment) (rest : List Lexeme) :
    ∃ cs left, (endStatement leading).yield (written ++ rest) = some (cs, left) := by
  cases hwritten with
  | @cons cs l _ _ _ comments token others =>
    cases others
    rw [endStatement, yield_bind, List.append_assoc, List.cons_append,
      yield_punct_written comments token, Option.bind_some, yield_bind, yield_trailing]
    exact ⟨_, _, rfl⟩

theorem yield_importModifier {modifier : Option ImportModifier} {s : String}
    (hwritten : Writes written (ImportModifier.symbols modifier))
    (hread : ∀ l ∈ written, l.WellRead) (hrest : (symbols rest).head? = some (.string s)) :
    importModifier.yield (written ++ rest) = some (modifier, rest) := by
  match modifier with
  | none =>
    have hnone (k : Keyword) : (skip (.keyword k)).yield rest = some (false, rest) :=
      yield_skip_of_none (Terminal.take?_keyword_of_string k hrest)
    cases hwritten
    rw [List.nil_append, importModifier, yield_bind, hnone, Option.bind_some,
      if_neg Bool.false_ne_true, yield_bind, hnone]
    rfl
  | some .weakImport =>
    cases hwritten with
    | @cons cs l _ _ _ comments token others =>
      cases others
      have hweak := Terminal.take?_keyword (k := .weakKw) comments token (hread l (by simp)) rest
      rw [List.append_assoc, importModifier, yield_bind, List.singleton_append,
        yield_skip_of_some hweak]
      rfl
  | some .publicImport =>
    cases hwritten with
    | @cons cs l _ _ _ comments token others =>
      cases others
      have hl := hread l (by simp)
      have hweak := Terminal.take?_keyword_of_ne (k := .weakKw) comments token hl (by decide) rest
      have hpublic := Terminal.take?_keyword (k := .publicKw) comments token hl rest
      rw [List.append_assoc, importModifier, yield_bind, List.singleton_append,
        yield_skip_of_none hweak, Option.bind_some, if_neg Bool.false_ne_true, yield_bind,
        yield_skip_of_some hpublic]
      rfl

theorem yield_importDecl {modifier : Option ImportModifier} {literals : List String}
    (hwritten : Writes written (Import.written modifier literals)) (hne : literals ≠ [])
    (hread : ∀ l ∈ written, l.WellRead) (rest : List Lexeme) :
    ∃ comments left, importDecl.yield (written ++ rest) =
      some (⟨collapseBackslashes (String.join literals), modifier, comments⟩, left) := by
  cases hwritten with
  | @cons cs l us _ _ comments token others =>
    have hreadus : ∀ l ∈ us, l.WellRead := fun l hl => hread l (by simp [hl])
    have himport := Terminal.take?_keyword (k := .importKw) comments token (hread l (by simp))
      (us ++ rest)
    obtain ⟨leading, hdecl⟩ : ∃ leading, importDecl.yield (cs ++ l :: (us ++ rest)) =
        Production.yield (do
          let modifier ← importModifier
          let path ← string
          return Import.mk (collapseBackslashes path) modifier (← endStatement leading))
        (us ++ rest) := yield_declaration himport
    obtain ⟨as, bs, rfl, has, hbs⟩ := others.of_append
    obtain ⟨ls, ms, rfl, hls, hms⟩ := hbs.of_append
    obtain ⟨first, literals, rfl⟩ := List.exists_cons_of_ne_nil hne
    have hfirst : (symbols (ls ++ ms ++ rest)).head? = some (.string first) := by
      rw [symbols_append, symbols_append, hls.symbols_eq]
      rfl
    have hmodifier := yield_importModifier has
      (fun l hl => hreadus l (List.mem_append_left _ hl)) hfirst
    have hstring : string.yield (ls ++ (ms ++ rest)) =
        some (String.join (first :: literals), ms ++ rest) :=
      covers_string hne (by rw [hms.symbols_eq]; rfl) ls (ms ++ rest) hls (symbols_append ..)
    obtain ⟨ending, left, hend⟩ := yield_endStatement hms leading rest
    refine ⟨ending, left, ?_⟩
    rw [List.append_assoc, List.cons_append, hdecl, List.append_assoc, yield_bind, hmodifier,
      Option.bind_some, yield_bind, List.append_assoc, hstring, Option.bind_some, yield_bind, hend]
    rfl

/-- In the path of an import every run of backslashes stands for one of them. What is left of a text
are the pieces between its runs, with one backslash between any two; hence no backslash is left next
to another, a text without such neighbours stays as it is, and the pieces are all that two texts
with the same path have in common. A text may be collapsed from left to right or in parts that are
put together. The text of an import is that of all its literals, so a run may go on from one to the
next. -/
theorem importPath_collapsed (v w : String) :
    (∃ pieces, SplitAtRuns v.toList pieces ∧
      (∀ others, SplitAtRuns v.toList others → others = pieces) ∧
      (collapseBackslashes v).toList = ['\\'].intercalate pieces) ∧
    ¬['\\', '\\'] <:+: (collapseBackslashes v).toList ∧
    collapseBackslashes (collapseBackslashes v) = collapseBackslashes v ∧
    (collapseBackslashes v = v ↔ ¬['\\', '\\'] <:+: v.toList) ∧
    collapseBackslashes (v ++ w) =
      collapseBackslashes (collapseBackslashes v ++ collapseBackslashes w) ∧
    (collapseBackslashes v = collapseBackslashes w ↔
      ∃ pieces, SplitAtRuns v.toList pieces ∧ SplitAtRuns w.toList pieces) ∧
    (collapseBackslashes v).toList = v.toList.foldl collapseOnto [] ∧
    ∀ modifier literals written, Writes written (Import.written modifier literals) →
      literals ≠ [] → (∀ l ∈ written, l.WellRead) → ∀ i rest r, ∃ comments d r',
        importDecl.run ⟨i, written ++ rest⟩ r =
          .done ⟨collapseBackslashes (String.join literals), modifier, comments⟩ d r' := by
  obtain ⟨pieces, hpieces⟩ := exists_splitAtRuns v.toList
  refine ⟨⟨pieces, hpieces, fun others h => h.unique hpieces, ?_⟩, ?_, ?_, ?_, ?_, ?_, ?_, ?_⟩
  · rw [toList_collapseBackslashes, hpieces.collapse_eq]
  · rw [toList_collapseBackslashes]
    exact no_run_collapse v.toList
  · rw [← String.toList_inj]
    simp only [toList_collapseBackslashes, collapse_collapse]
  · rw [← String.toList_inj, toList_collapseBackslashes]
    exact collapse_eq_self_iff
  · rw [← String.toList_inj]
    simp only [toList_collapseBackslashes, String.toList_append]
    exact collapse_append v.toList w.toList
  · rw [← String.toList_inj, toList_collapseBackslashes, toList_collapseBackslashes]
    exact collapse_eq_collapse_iff
  · rw [toList_collapseBackslashes]
    exact collapse_eq_foldl v.toList
  · intro modifier literals written hwritten hne hread i rest r
    obtain ⟨comments, left, hyield⟩ := yield_importDecl hwritten hne hread rest
    have hrun := yield_run importDecl ⟨i, written ++ rest⟩ r
    rw [hyield] at hrun
    obtain ⟨d, r', hm, -⟩ := Reply.yield_eq_some.1 hrun
    exact ⟨comments, d, r', hm⟩

/-- A run that starts at the end of one literal and goes on in the next, with a comment between the
two. -/
theorem importPath_collapsed_literals : ∃ written : List Lexeme,
    tokenize "import weak 'a\\\\' /**/ '\\\\\\\\b';".toList = .ok written ∧
      Writes written (Import.written (some .weakImport) ["a\\", "\\\\b"]) ∧
      (∀ l ∈ written, l.WellRead) ∧ ∃ comments d r', importDecl.run (.start written) .start =
        .done ⟨"a\\b", some .weakImport, comments⟩ d r' := by
  let written : List Lexeme :=
    [⟨.word (.keyword .importKw), "import", ⟨0, 6⟩⟩, ⟨.word (.keyword .weakKw), "weak", ⟨7, 11⟩⟩,
      ⟨.string "a\\", "'a\\\\'", ⟨12, 17⟩⟩, ⟨.blockComment "", "/**/", ⟨18, 22⟩⟩,
      ⟨.string "\\\\b", "'\\\\\\\\b'", ⟨23, 30⟩⟩, ⟨.punct .semicolon, ";", ⟨30, 31⟩⟩]
  have htokens : tokenize "import weak 'a\\\\' /**/ '\\\\\\\\b';".toList = .ok written := by
    decide +kernel
  have hwritten : Writes written (Import.written (some .weakImport) ["a\\", "\\\\b"]) :=
    .token rfl (.token rfl (.token rfl (.comment rfl (.token rfl (.token rfl .nil)))))
  have hread : ∀ l ∈ written, l.WellRead := by
    rw [← (faults_of_tokenize htokens).2]
    exact fun l hl => wellRead_of_mem_lexemes hl
  have hpath : collapseBackslashes (String.join ["a\\", "\\\\b"]) = "a\\b" := by decide
  obtain ⟨-, -, -, -, -, -, -, himports⟩ := importPath_collapsed "a\\" "\\\\b"
  have hrun := himports _ _ written hwritten (List.cons_ne_nil _ _) hread 0 [] .start
  rw [hpath, List.append_nil] at hrun
  exact ⟨written, htokens, hwritten, hread, hrun⟩

end Production

end ProtoSchema
