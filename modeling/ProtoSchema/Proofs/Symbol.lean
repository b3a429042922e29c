import ProtoSchema.Token.Scan

/-
  Symbols: what the grammar sees of the lexemes of a source. Comments have no symbol, a word is its
  spelling, and places are left out. `wellRead_of_mem_lexemes`: what a word of a source stands for
  follows from its spelling and the character before it, so its symbol tells whether it is a truth
  value or null.
-/

namespace ProtoSchema

/-- A lexeme that is no comment, without its place. -/
inductive Symbol where
  | word (spelling : String)
  | int (value : Int)
  | float (value : Binary64)
  | string (value : String)
  | punct (p : Punct)
  deriving DecidableEq

/-- The symbol of a lexeme, if it is no comment. -/
def Lexeme.symbol? (l : Lexeme) : Option Symbol :=
  match l.token with
  | .word _ => some (.word l.spelling)
  | .int value => some (.int value)
  | .float value => some (.float value)
  | .string value => some (.string value)
  | .punct p => some (.punct p)
  | .lineComment _ _ | .blockComment _ => none

/-- The symbols of lexemes, in order. -/
def symbols (lexemes : List Lexeme) : List Symbol := lexemes.filterMap Lexeme.symbol?

@[simp] theorem symbols_nil : symbols [] = [] := rfl

@[simp] theorem symbols_append (a b : List Lexeme) :
    symbols (a ++ b) = symbols a ++ symbols b :=
  List.filterMap_append

theorem Lexeme.symbol?_eq_none {l : Lexeme} : l.symbol? = none ↔ l.token.isComment := by
  unfold symbol? Token.isComment
  cases l.token <;> simp

theorem symbols_comments {ls : List Lexeme} (h : ∀ l ∈ ls, l.token.isComment) :
    symbols ls = [] := by
  rw [symbols, List.filterMap_eq_nil_iff]
  exact fun l hl => Lexeme.symbol?_eq_none.2 (h l hl)

/-! ## Words and their spelling -/

/-- Whether a text is a word: a letter or underscore, then letters, digits and underscores. -/
def IsWord (text : String) : Prop :=
  ∃ c cs, text.toList = c :: cs ∧ isWordStart c ∧ ∀ d ∈ cs, isWordChar d

instance (text : String) : Decidable (IsWord text) :=
  match h : text.toList with
  | [] => isFalse fun ⟨_, _, hw, _⟩ => List.cons_ne_nil _ _ (hw.symm.trans h)
  | c :: cs => decidable_of_iff (isWordStart c ∧ cs.all isWordChar)
    ⟨fun hw => ⟨c, cs, h, hw.1, List.all_eq_true.1 hw.2⟩, fun ⟨_, _, hw, hc, hcs⟩ => by
      cases h.symm.trans hw
      exact ⟨hc, List.all_eq_true.2 hcs⟩⟩

theorem IsWord.dot_notMem {w : String} (h : IsWord w) : '.' ∉ w.toList := by
  obtain ⟨c, cs, hw, hc, hcs⟩ := h
  intro hdot
  rw [hw, List.mem_cons] at hdot
  rcases hdot with rfl | hdot
  · exact absurd hc (by decide)
  · exact absurd (hcs '.' hdot) (by decide)

theorem IsWord.head?_ne_dot {w : String} (h : IsWord w) : w.toList.head? ≠ some '.' :=
  fun hhead => h.dot_notMem (List.mem_of_head? hhead)

/-- Words with dots between them, as text. -/
theorem toList_intercalate_cons_cons (v w : String) (ws : List String) :
    (String.intercalate "." (v :: w :: ws)).toList =
      v.toList ++ '.' :: (String.intercalate "." (w :: ws)).toList := by
  simp [String.intercalate_cons_cons]

/-- A lexeme that, if it is a word, is spelled like one and is what its spelling stands for after
some character. -/
def Lexeme.WellRead (l : Lexeme) : Prop :=
  ∀ w, l.token = .word w →
    IsWord l.spelling ∧ ∃ before, w = Word.ofSpelling before l.spelling.toList

/-- The truth value that a word spells, in any mixture of cases. -/
def spelledBool? (spelling : String) : Option Bool :=
  let lower := spelling.toList.map Char.toLower
  if lower = "true".toList then some true
  else if lower = "false".toList then some false
  else none

/-- Whether a word spells null, in any mixture of cases. -/
def spellsNull (spelling : String) : Bool :=
  spelling.toList.map Char.toLower = "null".toList

/-- Whether a word is the name of something where values stand too: it spells no truth value and
not null. -/
def spellsName (spelling : String) : Bool :=
  (spelledBool? spelling).isNone && !spellsNull spelling

/-- What a word stands for, by its spelling. -/
theorem Word.ofSpelling_cases (before : Option Char) (spelling : String) :
    (∃ b, spelledBool? spelling = some b ∧ ofSpelling before spelling.toList = bool b) ∨
    (spellsNull spelling ∧ spelledBool? spelling = none ∧
      ofSpelling before spelling.toList = null) ∨
    (spellsName spelling ∧ (ofSpelling before spelling.toList = ident spelling ∨
      ∃ k, k.text = spelling ∧ ofSpelling before spelling.toList = keyword k)) := by
  unfold ofSpelling spellsName spelledBool? spellsNull
  dsimp only
  split
  · exact .inl ⟨true, rfl, rfl⟩
  · split
    · exact .inl ⟨false, rfl, rfl⟩
    · split
      · next h => exact .inr (.inl ⟨by simpa using h, rfl, rfl⟩)
      · next h =>
        refine .inr (.inr ⟨by simpa using h, ?_⟩)
        rw [String.ofList_toList]
        split
        · next k hk =>
          split
          · exact .inr ⟨k, Keyword.text_of_ofText? hk, rfl⟩
          · exact .inl rfl
        · exact .inl rfl

theorem isWord_of_longest? {c : Char} {rest : List Char} {n : Nat}
    (h : Pattern.longest? (c :: rest) = some (.word, n)) :
    IsWord (String.ofList ((c :: rest).take n)) := by
  obtain ⟨-, hn, hpos, -⟩ := Pattern.longestOf_eq_some h
  have hlength : n = if isWordStart c then runLength isWordChar rest + 1 else 0 := hn
  have hstart : isWordStart c := by
    by_cases hc : isWordStart c
    · exact hc
    · rw [if_neg hc] at hlength
      omega
  rw [if_pos hstart] at hlength
  refine ⟨c, rest.takeWhile isWordChar, ?_, hstart, fun d hd => ?_⟩
  · rw [String.toList_ofList, hlength, List.take_succ_cons, runLength]
    rw [← List.prefix_iff_eq_take.1 (List.takeWhile_prefix isWordChar)]
  · exact List.all_eq_true.1 List.all_takeWhile d hd

theorem Piece.wellRead_of_first {place : Place} {c : Char} {rest : List Char} {l : Lexeme}
    (h : (Piece.first place c rest).lexeme? = some l) : l.WellRead := by
  intro w hw
  unfold Piece.first at h
  split at h
  · cases h
  · split at h
    · next p n hn =>
      simp only [Piece.lexeme?, Option.some.injEq] at h
      subst h
      have hp : p = .word := by
        cases p with
        | word => rfl
        | integer | hexInteger =>
          simp only [Reading.ofMatch, Reading.integer] at hw
          split at hw <;> cases hw
        | quote =>
          simp only [Reading.ofMatch, Reading.string] at hw
          split at hw <;> cases hw
        | blockOpening =>
          simp only [Reading.ofMatch, Reading.blockComment] at hw
          split at hw <;> cases hw
        | _ => cases hw
      subst hp
      cases hw
      exact ⟨isWord_of_longest? hn, place.before, by rw [String.toList_ofList]; rfl⟩
    · cases h

/-- The words of a source are spelled like words, and are what their spelling stands for. -/
theorem wellRead_of_mem_lexemes {source : List Char} {l : Lexeme}
    (h : l ∈ lexemes (pieces source)) : l.WellRead := by
  obtain ⟨p, hp, hl⟩ := List.mem_filterMap.1 h
  clear h
  unfold pieces at hp
  generalize Place.start = place at hp
  fun_induction piecesFrom place source with
  | case1 => cases hp
  | case2 place c rest q ih =>
    rcases List.mem_cons.1 hp with rfl | hp
    · exact Piece.wellRead_of_first hl
    · exact ih hp

end ProtoSchema
