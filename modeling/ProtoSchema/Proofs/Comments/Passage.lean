import ProtoSchema.Proofs.Phrase

/-
  Passages: sets of lexemes that are marked with what each of them is in its file. While a phrase
  says which symbols make up a node, a passage also says where comments stand around them and which
  of these comments are whose. The product of two passages is one right before the other. A passage
  may look at the lexemes after it, since it depends on them where a run of comments ends.
-/

namespace ProtoSchema

/-! ## Marked lexemes -/

/-- What a lexeme is in the file that it is a part of.

* `inner`: a token within a declaration, or a comment before such a token, which is not kept.
* `start`: the first token of a declaration.
* `entry settings`: the first token of an entry that makes `settings`.
* `options written`: the bracket before the options `written`.
* `statementEnd`, `bodyEnd`: the semicolon or brace that a declaration ends with.
* `aggregateEnd`: the brace that an aggregate ends with.
* `stray`: a semicolon between declarations.
* `leading`: one of the comments right before a declaration.
* `sameLine`: the comment that ends the line of a declaration, an entry or an opening brace.
* `loose`: a comment between declarations that belongs to none of them. -/
inductive Role where
  | inner
  | start
  | entry (settings : List Setting)
  | options (written : List Setting)
  | statementEnd
  | bodyEnd
  | aggregateEnd
  | stray
  | leading
  | sameLine
  | loose

/-- A lexeme with what it is in its file. -/
structure Marked where
  lexeme : Lexeme
  role : Role

/-- Lexemes without their marks. -/
def unmarked (ms : List Marked) : List Lexeme := ms.map Marked.lexeme

@[simp] theorem unmarked_nil : unmarked [] = [] := rfl

@[simp] theorem unmarked_cons (m : Marked) (ms : List Marked) :
    unmarked (m :: ms) = m.lexeme :: unmarked ms := rfl

@[simp] theorem unmarked_append (xs ys : List Marked) :
    unmarked (xs ++ ys) = unmarked xs ++ unmarked ys :=
  List.map_append

/-- The comment that a lexeme is, if it is one. -/
def Lexeme.comment? (l : Lexeme) : Option Comment :=
  match l.token with
  | .lineComment text _ | .blockComment text => some ⟨text⟩
  | _ => none

/-- The line comment that a lexeme is, if it is one with something before it on its line. -/
def Lexeme.trailing? (l : Lexeme) : Option Comment :=
  match l.token with
  | .lineComment text true => some ⟨text⟩
  | _ => none

theorem Lexeme.comment?_eq_none {l : Lexeme} :
    l.comment? = none ↔ l.token.isComment = false := by
  unfold comment? Token.isComment
  cases l.token <;> simp

theorem Lexeme.isComment_of_comment? {l : Lexeme} {c : Comment} (h : l.comment? = some c) :
    l.token.isComment = true := by
  cases hl : l.token.isComment with
  | true => rfl
  | false => rw [comment?_eq_none.2 hl] at h; cases h

theorem Lexeme.comment?_of_trailing? {l : Lexeme} {c : Comment} (h : l.trailing? = some c) :
    l.comment? = some c := by
  unfold trailing? at h
  split at h
  · next heq => rw [comment?, heq]; exact h
  · cases h

/-- Lexemes all of which have the same role. -/
def markAll (role : Role) (ls : List Lexeme) : List Marked := ls.map (⟨·, role⟩)

/-- The lexemes of a part of a declaration. The first token has the given role. -/
def markFirst (role : Role) : List Lexeme → List Marked
  | [] => []
  | l :: ls =>
    if l.token.isComment then ⟨l, .inner⟩ :: markFirst role ls
    else ⟨l, role⟩ :: markAll .inner ls

@[simp] theorem unmarked_markAll (role : Role) (ls : List Lexeme) :
    unmarked (markAll role ls) = ls := by
  simp [unmarked, markAll, Function.comp_def]

@[simp] theorem unmarked_markFirst (role : Role) (ls : List Lexeme) :
    unmarked (markFirst role ls) = ls := by
  induction ls with
  | nil => rfl
  | cons l ls ih =>
    unfold markFirst
    split
    · rw [unmarked_cons, ih]
    · rw [unmarked_cons, unmarked_markAll]

theorem markFirst_of_token (role : Role) {l : Lexeme} (h : l.token.isComment = false)
    (ls : List Lexeme) : markFirst role (l :: ls) = ⟨l, role⟩ :: markAll .inner ls := by
  rw [markFirst, h]
  rfl

theorem markFirst_of_comments (role : Role) {cs : List Lexeme}
    (h : ∀ c ∈ cs, c.token.isComment = true) (ls : List Lexeme) :
    markFirst role (cs ++ ls) = markAll .inner cs ++ markFirst role ls := by
  induction cs with
  | nil => rfl
  | cons c cs ih =>
    rw [List.cons_append, markFirst, if_pos (h c List.mem_cons_self),
      ih fun d hd => h d (List.mem_cons_of_mem c hd)]
    rfl

theorem role_of_mem_markAll {role : Role} {ls : List Lexeme} {m : Marked}
    (h : m ∈ markAll role ls) : m.role = role := by
  obtain ⟨l, -, rfl⟩ := List.mem_map.1 h
  rfl

theorem role_of_mem_markFirst {role : Role} {ls : List Lexeme} {m : Marked}
    (h : m ∈ markFirst role ls) : m.role = .inner ∨ m.role = role := by
  induction ls with
  | nil => cases h
  | cons l ls ih =>
    unfold markFirst at h
    split at h
    · rcases List.mem_cons.1 h with rfl | h
      · exact .inl rfl
      · exact ih h
    · rcases List.mem_cons.1 h with rfl | h
      · exact .inr rfl
      · exact .inl (role_of_mem_markAll h)

/-! ## Passages -/

/-- A set of marked lexemes, each with the lexemes that follow them. -/
def Passage : Type := List Marked → List Lexeme → Prop

namespace Passage

/-- One passage right before another. -/
instance : Monoid Passage where
  one ms _ := ms = []
  mul A B ms rest := ∃ xs ys, ms = xs ++ ys ∧ A xs (unmarked ys ++ rest) ∧ B ys rest
  one_mul A := by
    funext ms rest
    refine propext ⟨?_, fun h => ⟨[], ms, rfl, rfl, h⟩⟩
    rintro ⟨_, ys, rfl, rfl, h⟩
    exact h
  mul_one A := by
    funext ms rest
    refine propext ⟨?_, fun h => ⟨ms, [], (List.append_nil ms).symm, h, rfl⟩⟩
    rintro ⟨xs, _, rfl, h, rfl⟩
    rwa [List.append_nil]
  mul_assoc A B C := by
    funext ms rest
    refine propext ⟨?_, ?_⟩
    · rintro ⟨_, zs, rfl, ⟨xs, ys, rfl, hx, hy⟩, hz⟩
      refine ⟨xs, ys ++ zs, List.append_assoc xs ys zs, ?_, ys, zs, rfl, hy, hz⟩
      rwa [unmarked_append, List.append_assoc]
    · rintro ⟨xs, _, rfl, hx, ys, zs, rfl, hy, hz⟩
      refine ⟨xs ++ ys, zs, (List.append_assoc xs ys zs).symm, ⟨xs, ys, rfl, ?_, hy⟩, hz⟩
      rwa [unmarked_append, List.append_assoc] at hx

theorem mul_append {A B : Passage} {xs ys : List Marked} {rest : List Lexeme}
    (hA : A xs (unmarked ys ++ rest)) (hB : B ys rest) : (A * B) (xs ++ ys) rest :=
  ⟨xs, ys, rfl, hA, hB⟩

instance : PartialOrder Passage where
  le A B := ∀ ms rest, A ms rest → B ms rest
  le_refl A ms rest h := h
  le_trans A B C h h' ms rest hA := h' ms rest (h ms rest hA)
  le_antisymm A B h h' := funext fun ms => funext fun rest => propext ⟨h ms rest, h' ms rest⟩

instance : MulLeftMono Passage where
  elim A B C h := by
    rintro ms rest ⟨xs, ys, rfl, hA, hB⟩
    exact ⟨xs, ys, rfl, hA, h ys rest hB⟩

instance : MulRightMono Passage where
  elim A B C h := by
    rintro ms rest ⟨xs, ys, rfl, hB, hA⟩
    exact ⟨xs, ys, rfl, h xs _ hB, hA⟩

/-! ## Comments and tokens -/

/-- Whether lexemes are none or end with a token. -/
def EndsOnToken (ls : List Lexeme) : Prop := ∀ l ∈ ls.getLast?, l.token.isComment = false

instance (ls : List Lexeme) : Decidable (EndsOnToken ls) :=
  Option.decidableForallMem ls.getLast?

/-- Tokens with symbols in a phrase, the first of them with the given role. Comments before a token
are not kept. -/
def words (role : Role) (P : Phrase) : Passage := fun ms _ =>
  ∃ ls, ms = markFirst role ls ∧ symbols ls ∈ P ∧ EndsOnToken ls

/-- An unbroken run of comments up to the next token, each with the given role. -/
def run (role : Role) (comments : List Comment) : Passage := fun ms rest =>
  ∃ ls, ms = markAll role ls ∧ ls.map Lexeme.comment? = comments.map some ∧
    ∀ l ∈ rest.head?, l.token.isComment = false

/-- The line comment that ends the line of the token before, if there is one. -/
def sameLine (found : Option Comment) : Passage := fun ms rest =>
  match found with
  | some c => ∃ l, ms = [⟨l, .sameLine⟩] ∧ l.trailing? = some c
  | none => ms = [] ∧ ∀ l ∈ rest.head?, l.trailing? = none

/-! ## Items and bodies -/

/-- Items with a separator between any two. -/
def separated {α : Type} (separator : Punct) (item : α → Passage) (first : α) (others : List α) :
    Passage :=
  item first * (others.map fun v => words .inner (Phrase.mark separator) * item v).prod

/-- Items one after the other, with the comments among them that belong to none of them. Such a
comment stands before a token that is `empty`, a stray semicolon, or behind the last item. -/
inductive Items {α : Type} (empty : Phrase) (item : α → Passage) :
    List α → List Comment → List Marked → List Lexeme → Prop
  | done {loose ms rest} (last : run .loose loose ms rest) : Items empty item [] loose ms rest
  | stray {values loose others xs ys rest}
      (first : (run .loose loose * words .stray empty) xs (unmarked ys ++ rest))
      (next : Items empty item values others ys rest) :
      Items empty item values (loose ++ others) (xs ++ ys) rest
  | item {value values loose xs ys rest} (first : item value xs (unmarked ys ++ rest))
      (next : Items empty item values loose ys rest) :
      Items empty item (value :: values) loose (xs ++ ys) rest

/-- Items as a passage. -/
def items {α : Type} (empty : Phrase) (item : α → Passage) (values : List α)
    (loose : List Comment) : Passage :=
  Items empty item values loose

/-- A body in braces with comments of its own: the one that ends the line of the opening brace, and
then those that belong to no item. -/
def braces (closing : Role) (items : List Comment → Passage) (own : List Comment) : Passage :=
  fun ms rest => ∃ opening loose, own = opening.toList ++ loose ∧
    (words .inner (Phrase.mark .leftBrace) * sameLine opening * items loose *
      words closing (Phrase.mark .rightBrace)) ms rest

/-! ## Declarations -/

/-- A declaration with its comments: those of the run right before it, those of its own body, and
the one that ends its last line. -/
def declaration (comments own : List Comment) (core : Passage) : Passage := fun ms rest =>
  ∃ leading last, comments = leading ++ own ++ last.toList ∧
    (run .leading leading * core * sameLine last) ms rest

/-- A declaration that ends with a semicolon. -/
def statement (comments own : List Comment) (core : Passage) : Passage :=
  declaration comments own (core * words .statementEnd (Phrase.mark .semicolon))

/-- A declaration that ends with a body, in which stray semicolons may stand. -/
def block {α : Type} (comments : List Comment) (head : Phrase) (item : α → Passage)
    (values : List α) : Passage := fun ms rest =>
  ∃ own, declaration comments own (words .start head *
    braces .bodyEnd (items (Phrase.mark .semicolon) item values) own) ms rest

end Passage

end ProtoSchema
