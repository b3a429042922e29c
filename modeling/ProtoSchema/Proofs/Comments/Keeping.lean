import ProtoSchema.Proofs.Comments.Passage

/-
  Comments at boundaries. A comment is at a boundary if the next token starts a declaration or an
  entry, is a stray semicolon or closes a body or an aggregate, or if there is no token any more.
  A passage holds comments if these are its comments at boundaries whatever follows it. A run of
  comments or the comment at the end of a line is at a boundary only if the next token is: such a
  passage keeps its comments before a boundary. Here is one rule for each way to make up a passage.
-/

namespace ProtoSchema

open Passage

/-! ## Comments at boundaries -/

/-- Whether a token is at a boundary: it starts a declaration or an entry, is a stray semicolon or
closes a body or an aggregate. -/
def Role.isBoundary : Role → Bool
  | .start | .entry _ | .stray | .bodyEnd | .aggregateEnd => true
  | _ => false

/-- What costs no comment: an entry with values, and options in brackets with distinct names. -/
def Role.Sound : Role → Prop
  | .entry settings => settings ≠ []
  | .options written => (written.map Setting.name).Nodup
  | _ => True

/-- Whether the next token is at a boundary, or there is none. -/
def atBoundary : List Marked → Bool
  | [] => true
  | m :: ms => if m.lexeme.token.isComment then atBoundary ms else m.role.isBoundary

/-- The comments at boundaries. -/
def boundaryComments : List Marked → List Comment
  | [] => []
  | m :: ms =>
    match m.lexeme.comment? with
    | some c => if atBoundary ms then c :: boundaryComments ms else boundaryComments ms
    | none => boundaryComments ms

theorem atBoundary_token {m : Marked} (h : m.lexeme.token.isComment = false) (ms : List Marked) :
    atBoundary (m :: ms) = m.role.isBoundary := by
  rw [atBoundary, h]
  rfl

theorem boundaryComments_token {m : Marked} (h : m.lexeme.token.isComment = false)
    (ms : List Marked) : boundaryComments (m :: ms) = boundaryComments ms := by
  rw [boundaryComments, Lexeme.comment?_eq_none.2 h]

theorem atBoundary_markAll (role : Role) {ls : List Lexeme}
    (h : ∀ l ∈ ls, l.token.isComment = true) (ms : List Marked) :
    atBoundary (markAll role ls ++ ms) = atBoundary ms := by
  induction ls with
  | nil => rfl
  | cons l ls ih =>
    have hl : (⟨l, role⟩ : Marked).lexeme.token.isComment = true := h l List.mem_cons_self
    rw [markAll, List.map_cons, List.cons_append, atBoundary, if_pos hl]
    exact ih fun k hk => h k (List.mem_cons_of_mem l hk)

theorem isComment_of_texts {ls : List Lexeme} {cs : List Comment}
    (h : ls.map Lexeme.comment? = cs.map some) : ∀ l ∈ ls, l.token.isComment = true := by
  intro l hl
  have hmem : l.comment? ∈ cs.map some := h ▸ List.mem_map_of_mem hl
  obtain ⟨c, -, hc⟩ := List.mem_map.1 hmem
  exact Lexeme.isComment_of_comment? hc.symm

/-- A run of comments before a boundary. -/
theorem boundaryComments_markAll (role : Role) {ls : List Lexeme} {cs : List Comment}
    (h : ls.map Lexeme.comment? = cs.map some) {ms : List Marked} (hms : atBoundary ms = true) :
    boundaryComments (markAll role ls ++ ms) = cs ++ boundaryComments ms := by
  induction ls generalizing cs with
  | nil =>
    obtain rfl : cs = [] := List.map_eq_nil_iff.1 h.symm
    rfl
  | cons l ls ih =>
    cases cs with
    | nil => cases h
    | cons c cs =>
      obtain ⟨hl, hls⟩ := List.cons.inj h
      have hat : atBoundary (markAll role ls ++ ms) = true := by
        rw [atBoundary_markAll role (isComment_of_texts hls), hms]
      have hcons : markAll role (l :: ls) ++ ms = ⟨l, role⟩ :: (markAll role ls ++ ms) := rfl
      rw [hcons, boundaryComments]
      simp only [hl, if_pos hat, ih hls, List.cons_append]

/-- Lexemes inside of a declaration: none of them is at a boundary, and they end with a token. -/
structure Inside (ms : List Marked) : Prop where
  role : ∀ m ∈ ms, m.role.isBoundary = false
  ends : EndsOnToken (unmarked ms)

theorem Inside.tail {m : Marked} {ms : List Marked} (h : Inside (m :: ms)) : Inside ms := by
  refine ⟨fun n hn => h.role n (List.mem_cons_of_mem m hn), fun l hl => h.ends l ?_⟩
  cases ms with
  | nil => cases hl
  | cons n ms => exact hl

theorem Inside.atBoundary {ms : List Marked} (h : Inside ms) (hne : ms ≠ []) (ns : List Marked) :
    atBoundary (ms ++ ns) = false := by
  induction ms with
  | nil => exact absurd rfl hne
  | cons m ms ih =>
    cases hm : m.lexeme.token.isComment with
    | false =>
      rw [List.cons_append, atBoundary_token hm]
      exact h.role m List.mem_cons_self
    | true =>
      rw [List.cons_append, ProtoSchema.atBoundary, if_pos hm]
      refine ih h.tail ?_
      rintro rfl
      have hlast := h.ends m.lexeme rfl
      rw [hm] at hlast
      cases hlast

/-- Comments inside of a declaration are not at a boundary. -/
theorem Inside.boundaryComments {ms : List Marked} (h : Inside ms) (ns : List Marked) :
    boundaryComments (ms ++ ns) = boundaryComments ns := by
  induction ms with
  | nil => rfl
  | cons m ms ih =>
    cases hm : m.lexeme.token.isComment with
    | false => rw [List.cons_append, boundaryComments_token hm, ih h.tail]
    | true =>
      have hne : ms ≠ [] := by
        rintro rfl
        have hlast := h.ends m.lexeme rfl
        rw [hm] at hlast
        cases hlast
      rw [List.cons_append, ProtoSchema.boundaryComments, h.tail.atBoundary hne ns, ih h.tail]
      split <;> rfl

/-! ## Phrases of at least one symbol -/

namespace Phrase

@[simp] theorem nil_mem_mul {P Q : Phrase} : [] ∈ P * Q ↔ [] ∈ P ∧ [] ∈ Q := by
  rw [Language.mem_mul]
  constructor
  · rintro ⟨xs, hxs, ys, hys, heq⟩
    obtain ⟨rfl, rfl⟩ := List.append_eq_nil_iff.1 heq
    exact ⟨hxs, hys⟩
  · exact fun ⟨hP, hQ⟩ => ⟨[], hP, [], hQ, rfl⟩

@[simp] theorem nil_notMem_mark (p : Punct) : [] ∉ mark p := List.cons_ne_nil _ _ ∘ Eq.symm

@[simp] theorem nil_notMem_keyword (k : Keyword) : [] ∉ keyword k := List.cons_ne_nil _ _ ∘ Eq.symm

@[simp] theorem nil_notMem_integer (n : Int) : [] ∉ integer n := List.cons_ne_nil _ _ ∘ Eq.symm

theorem nil_notMem_entryKey (key : String) : [] ∉ entryKey key := by
  rintro (⟨-, h⟩ | h)
  · cases h
  · exact nil_notMem_mark _ (nil_mem_mul.1 h).2

end Phrase

/-! ## Passages that keep comments -/

/-- A passage whose comments at boundaries are `cs`, whatever follows. -/
def Passage.Holds (A : Passage) (cs : List Comment) : Prop :=
  ∀ ms rest, A ms rest → (∀ m ∈ ms, m.role.Sound) → ∀ ns c,
    (boundaryComments (ms ++ ns)).count c = cs.count c + (boundaryComments ns).count c

/-- A passage that starts with a boundary, and whose comments at boundaries are `cs` if it is
followed by another one. -/
structure Passage.Keeps (A : Passage) (cs : List Comment) : Prop where
  atBoundary : ∀ ms rest, A ms rest → ∀ ns, atBoundary ns = true → atBoundary (ms ++ ns) = true
  count : ∀ ms rest, A ms rest → (∀ m ∈ ms, m.role.Sound) → ∀ ns, ProtoSchema.atBoundary ns = true →
    ∀ c, (boundaryComments (ms ++ ns)).count c = cs.count c + (boundaryComments ns).count c

namespace Passage

variable {A B : Passage} {cs ds : List Comment}

theorem Holds.mul (hA : A.Holds cs) (hB : B.Holds ds) : (A * B).Holds (cs ++ ds) := by
  rintro _ rest ⟨xs, ys, rfl, hxs, hys⟩ hsound ns c
  have hx := hA xs _ hxs (fun m hm => hsound m (List.mem_append_left ys hm)) (ys ++ ns) c
  have hy := hB ys rest hys (fun m hm => hsound m (List.mem_append_right xs hm)) ns c
  rw [List.append_assoc, hx, hy, List.count_append]
  omega

theorem holds_one : (1 : Passage).Holds [] := by
  rintro _ rest rfl _ ns c
  simp

theorem holds_words {role : Role} (hrole : role.isBoundary = false) (P : Phrase) :
    (words role P).Holds [] := by
  rintro _ rest ⟨ls, rfl, -, hends⟩ _ ns c
  have hinside : Inside (markFirst role ls) := by
    refine ⟨fun m hm => ?_, by rwa [unmarked_markFirst]⟩
    rcases role_of_mem_markFirst hm with h | h
    · rw [h]; rfl
    · rw [h]; exact hrole
  rw [hinside.boundaryComments, List.count_nil, Nat.zero_add]

theorem Holds.words_mul {role : Role} (hrole : role.isBoundary = false) (P : Phrase)
    (h : A.Holds cs) : (words role P * A).Holds cs :=
  (holds_words hrole P).mul h

theorem Holds.mul_words {role : Role} (hrole : role.isBoundary = false) (P : Phrase)
    (h : A.Holds cs) : (A * words role P).Holds cs := by
  have hall := h.mul (holds_words hrole P)
  rwa [List.append_nil] at hall

/-- Words that do not start with a comment start with a token of their role. -/
theorem words_start {role : Role} {P : Phrase} (hP : [] ∉ P) {ms : List Marked}
    {rest : List Lexeme} (h : words role P ms rest)
    (hhead : ∀ l ∈ (unmarked ms ++ rest).head?, l.token.isComment = false) : ∃ l ls,
      ms = ⟨l, role⟩ :: markAll .inner ls ∧ l.token.isComment = false ∧
      Inside (markAll .inner ls) := by
  obtain ⟨ls, rfl, hmem, hends⟩ := h
  cases ls with
  | nil => exact absurd hmem hP
  | cons l ls =>
    rw [unmarked_markFirst] at hhead
    have hl := hhead l rfl
    refine ⟨l, ls, markFirst_of_token role hl ls, hl, fun m hm => ?_, ?_⟩
    · rw [role_of_mem_markAll hm]; rfl
    · rw [unmarked_markAll]
      intro k hk
      refine hends k ?_
      cases ls with
      | nil => cases hk
      | cons j ls => exact hk

/-- A token at a boundary, with what follows it in a declaration. -/
theorem words_boundary {role : Role} {P : Phrase} (hrole : role.isBoundary = true) (hP : [] ∉ P)
    {ms : List Marked} {rest : List Lexeme} (h : words role P ms rest)
    (hhead : ∀ l ∈ (unmarked ms ++ rest).head?, l.token.isComment = false) (ns : List Marked) :
    atBoundary (ms ++ ns) = true ∧ boundaryComments (ms ++ ns) = boundaryComments ns := by
  obtain ⟨l, ls, rfl, hl, hinside⟩ := words_start hP h hhead
  have htoken : (⟨l, role⟩ : Marked).lexeme.token.isComment = false := hl
  rw [List.cons_append, atBoundary_token htoken, boundaryComments_token htoken,
    hinside.boundaryComments]
  exact ⟨hrole, rfl⟩

/-- A mark of a part that is not empty is the mark of one of its tokens. -/
theorem exists_role_of_words {role : Role} {P : Phrase} (hP : [] ∉ P) {ms : List Marked}
    {rest : List Lexeme} (h : words role P ms rest) : ∃ m ∈ ms, m.role = role := by
  obtain ⟨ls, rfl, hmem, -⟩ := h
  have hne : symbols ls ≠ [] := ne_of_mem_of_not_mem hmem hP
  clear hmem
  induction ls with
  | nil => exact absurd rfl hne
  | cons l ls ih =>
    cases hl : l.token.isComment with
    | false => exact ⟨⟨l, role⟩, by rw [markFirst_of_token role hl]; exact List.mem_cons_self, rfl⟩
    | true =>
      rw [symbols, List.filterMap_cons_none (Lexeme.symbol?_eq_none.2 hl)] at hne
      obtain ⟨m, hm, hrole⟩ := ih hne
      rw [markFirst, if_pos hl]
      exact ⟨m, List.mem_cons_of_mem _ hm, hrole⟩

/-- A run of comments, and then the token at a boundary before which they stand. -/
theorem run_words_boundary {r role : Role} {P : Phrase} (hrole : role.isBoundary = true)
    (hP : [] ∉ P) {ms : List Marked} {rest : List Lexeme} (h : (run r cs * words role P) ms rest)
    (ns : List Marked) :
    atBoundary (ms ++ ns) = true ∧ boundaryComments (ms ++ ns) = cs ++ boundaryComments ns := by
  obtain ⟨_, ys, rfl, ⟨ls, rfl, htexts, hhead⟩, hys⟩ := h
  obtain ⟨hat, hys⟩ := words_boundary hrole hP hys hhead ns
  rw [List.append_assoc, boundaryComments_markAll r htexts hat, hys,
    atBoundary_markAll r (isComment_of_texts htexts)]
  exact ⟨hat, rfl⟩

/-- Passages that make up another one. -/
theorem keeps_of_exists (h : ∀ ms rest, A ms rest → ∃ B : Passage, B.Keeps cs ∧ B ms rest) :
    A.Keeps cs := by
  constructor
  · intro ms rest hms
    obtain ⟨B, hB, hms⟩ := h ms rest hms
    exact hB.atBoundary ms rest hms
  · intro ms rest hms
    obtain ⟨B, hB, hms⟩ := h ms rest hms
    exact hB.count ms rest hms

/-- Only how often a comment occurs counts. -/
theorem Keeps.of_count (h : A.Keeps cs) (hcount : ∀ c, cs.count c = ds.count c) : A.Keeps ds :=
  ⟨h.atBoundary, fun ms rest hms hsound ns hns c => hcount c ▸ h.count ms rest hms hsound ns hns c⟩

theorem Keeps.mul (hA : A.Keeps cs) (hB : B.Keeps ds) : (A * B).Keeps (cs ++ ds) := by
  constructor
  · rintro _ rest ⟨xs, ys, rfl, hxs, hys⟩ ns hns
    rw [List.append_assoc]
    exact hA.atBoundary xs _ hxs _ (hB.atBoundary ys rest hys ns hns)
  · rintro _ rest ⟨xs, ys, rfl, hxs, hys⟩ hsound ns hns c
    have hat := hB.atBoundary ys rest hys ns hns
    have hx := hA.count xs _ hxs (fun m hm => hsound m (List.mem_append_left ys hm)) _ hat c
    have hy := hB.count ys rest hys (fun m hm => hsound m (List.mem_append_right xs hm)) ns hns c
    rw [List.append_assoc, hx, hy, List.count_append]
    omega

theorem keeps_run (role : Role) (cs : List Comment) : (run role cs).Keeps cs := by
  constructor
  · rintro _ rest ⟨ls, rfl, htexts, -⟩ ns hns
    rw [atBoundary_markAll role (isComment_of_texts htexts), hns]
  · rintro _ rest ⟨ls, rfl, htexts, -⟩ _ ns hns c
    rw [boundaryComments_markAll role htexts hns, List.count_append]

theorem keeps_sameLine (found : Option Comment) : (sameLine found).Keeps found.toList := by
  cases found with
  | none =>
    constructor
    · rintro _ rest ⟨rfl, -⟩ ns hns
      exact hns
    · rintro _ rest ⟨rfl, -⟩ _ ns _ c
      simp
  | some k =>
    have htexts {l : Lexeme} (hl : l.trailing? = some k) :
        [l].map Lexeme.comment? = [k].map some := by
      simp [Lexeme.comment?_of_trailing? hl]
    constructor
    · rintro _ rest ⟨l, rfl, hl⟩ ns hns
      exact (atBoundary_markAll .sameLine (isComment_of_texts (htexts hl)) ns).trans hns
    · rintro _ rest ⟨l, rfl, hl⟩ _ ns hns c
      have h := boundaryComments_markAll .sameLine (htexts hl) hns
      rw [show [(⟨l, .sameLine⟩ : Marked)] ++ ns = markAll .sameLine [l] ++ ns from rfl, h,
        List.count_append]
      rfl

variable {α : Type}

theorem Holds.separated {item : α → Passage} {all : α → List Comment}
    (h : ∀ v, (item v).Holds (all v)) (separator : Punct) (first : α) (others : List α) :
    (separated separator item first others).Holds ((first :: others).flatMap all) := by
  rw [List.flatMap_cons]
  refine (h first).mul ?_
  induction others with
  | nil => exact holds_one
  | cons v others ih =>
    rw [List.map_cons, List.prod_cons, List.flatMap_cons]
    exact ((h v).words_mul rfl _).mul ih

/-! ### Items and bodies -/

theorem Items.head_not_comment {empty : Phrase} {item : α → Passage} {values : List α}
    {loose : List Comment} {ms : List Marked} {rest : List Lexeme}
    (h : Items empty item values loose ms rest) :
    ∀ l ∈ rest.head?, l.token.isComment = false := by
  induction h with
  | done last =>
    obtain ⟨ls, -, -, hhead⟩ := last
    exact hhead
  | stray _ _ ih => exact ih
  | item _ _ ih => exact ih

theorem Items.atBoundary {empty : Phrase} (hempty : [] ∉ empty) {item : α → Passage}
    {all : α → List Comment} (h : ∀ v, (item v).Keeps (all v)) {values : List α}
    {loose : List Comment} {ms : List Marked} {rest : List Lexeme}
    (hitems : Items empty item values loose ms rest) {ns : List Marked}
    (hns : ProtoSchema.atBoundary ns = true) : ProtoSchema.atBoundary (ms ++ ns) = true := by
  induction hitems with
  | done last => exact (keeps_run _ _).atBoundary _ _ last ns hns
  | stray first _ _ =>
    rw [List.append_assoc]
    exact (run_words_boundary rfl hempty first _).1
  | item first _ ih =>
    rw [List.append_assoc]
    exact (h _).atBoundary _ _ first _ ih

/-- Items with the comments among them. Every comment stands before a stray semicolon, before the
first token of an item or behind the last item. -/
theorem Keeps.items {empty : Phrase} (hempty : [] ∉ empty) {item : α → Passage}
    {all : α → List Comment} (h : ∀ v, (item v).Keeps (all v)) (values : List α)
    (loose : List Comment) :
    (items empty item values loose).Keeps (loose ++ values.flatMap all) := by
  refine ⟨fun ms rest hitems ns hns => hitems.atBoundary hempty h hns, ?_⟩
  intro ms rest hitems
  induction hitems with
  | done last =>
    rw [List.flatMap_nil, List.append_nil]
    exact (keeps_run _ _).count _ _ last
  | @stray values loose others xs ys rest first _ ih =>
    intro hsound ns hns c
    have hys := ih (fun m hm => hsound m (List.mem_append_right xs hm)) ns hns c
    rw [List.append_assoc, (run_words_boundary rfl hempty first (ys ++ ns)).2, List.count_append,
      hys]
    simp only [List.count_append]
    omega
  | @item v values loose xs ys rest first next ih =>
    intro hsound ns hns c
    have hxs := (h v).count xs _ first (fun m hm => hsound m (List.mem_append_left ys hm)) _
      (next.atBoundary hempty h hns) c
    have hys := ih (fun m hm => hsound m (List.mem_append_right xs hm)) ns hns c
    rw [List.append_assoc, hxs, hys]
    simp only [List.count_append, List.flatMap_cons]
    omega

/-- A passage that stands before a token, and then the token, which is at a boundary. -/
theorem Keeps.closed (h : A.Keeps cs)
    (hhead : ∀ ms rest, A ms rest → ∀ l ∈ rest.head?, l.token.isComment = false) {closing : Role}
    (hclosing : closing.isBoundary = true) {P : Phrase} (hP : [] ∉ P) :
    (A * words closing P).Holds cs := by
  rintro _ rest ⟨xs, ys, rfl, hxs, hys⟩ hsound ns c
  obtain ⟨hat, heq⟩ := words_boundary hclosing hP hys (hhead xs _ hxs) ns
  rw [List.append_assoc, h.count xs _ hxs (fun m hm => hsound m (List.mem_append_left ys hm)) _ hat,
    heq]

theorem holds_braces {closing : Role} (hclosing : closing.isBoundary = true) {empty : Phrase}
    (hempty : [] ∉ empty) {item : α → Passage} {all : α → List Comment}
    (h : ∀ v, (item v).Keeps (all v)) (values : List α) (own : List Comment) :
    (braces closing (items empty item values) own).Holds (own ++ values.flatMap all) := by
  rintro ms rest ⟨opening, loose, rfl, hms⟩
  have hitems := (keeps_sameLine opening).mul (.items hempty h values loose)
  have hclosed := hitems.closed (fun _ _ hms => by
    obtain ⟨_, _, rfl, _, hitems⟩ := hms
    exact hitems.head_not_comment) hclosing (Phrase.nil_notMem_mark .rightBrace)
  rw [mul_assoc (words .inner (Phrase.mark .leftBrace)), mul_assoc] at hms
  rw [List.append_assoc]
  exact hclosed.words_mul rfl _ ms rest hms

/-! ### Declarations -/

/-- The parts of a declaration: what it starts with, with the comments before, then what is left of
it, then the comment that ends its line. -/
theorem declaration_parts {comments own : List Comment} {ms : List Marked} {rest : List Lexeme}
    (h : declaration comments own (A * B) ms rest) :
    ∃ leading last xs ys zs, comments = leading ++ own ++ last.toList ∧ ms = xs ++ (ys ++ zs) ∧
      (run .leading leading * A) xs (unmarked (ys ++ zs) ++ rest) ∧
      B ys (unmarked zs ++ rest) ∧ sameLine last zs rest := by
  obtain ⟨leading, last, hcomments, hms⟩ := h
  rw [← mul_assoc, mul_assoc] at hms
  obtain ⟨xs, _, rfl, hxs, ys, zs, rfl, hys, hzs⟩ := hms
  exact ⟨leading, last, xs, ys, zs, hcomments, rfl, hxs, hys, hzs⟩

theorem keeps_declaration {role : Role} (hrole : role.isBoundary = true) {P : Phrase} (hP : [] ∉ P)
    {own : List Comment} (hB : B.Holds (own ++ ds)) (comments : List Comment) :
    (declaration comments own (words role P * B)).Keeps (comments ++ ds) := by
  constructor
  · intro ms rest hms ns _
    obtain ⟨leading, last, xs, ys, zs, -, rfl, hxs, -, -⟩ := declaration_parts hms
    rw [List.append_assoc]
    exact (run_words_boundary hrole hP hxs _).1
  · intro ms rest hms hsound ns hns c
    obtain ⟨leading, last, xs, ys, zs, rfl, rfl, hxs, hys, hzs⟩ := declaration_parts hms
    have hsound' (m : Marked) (hm : m ∈ ys ++ zs) : m.role.Sound :=
      hsound m (List.mem_append_right xs hm)
    have hy := hB ys _ hys (fun m hm => hsound' m (List.mem_append_left zs hm)) (zs ++ ns) c
    have hz := (keeps_sameLine last).count zs rest hzs
      (fun m hm => hsound' m (List.mem_append_right ys hm)) ns hns c
    rw [List.append_assoc, (run_words_boundary hrole hP hxs _).2, List.append_assoc,
      List.count_append, hy, hz]
    simp only [List.count_append]
    omega

theorem keeps_statement {P : Phrase} (hP : [] ∉ P) {own : List Comment} (hB : B.Holds (own ++ ds))
    (comments : List Comment) :
    (statement comments own (words .start P * B)).Keeps (comments ++ ds) := by
  rw [statement, mul_assoc]
  exact keeps_declaration rfl hP (hB.mul_words rfl _) comments

/-- A statement without parts that have comments. -/
theorem keeps_statement_words {P : Phrase} (hP : [] ∉ P) (comments : List Comment) :
    (statement comments [] (words .start P)).Keeps comments := by
  have h : (statement comments [] (words .start P * 1)).Keeps (comments ++ []) :=
    keeps_statement hP holds_one comments
  rwa [mul_one, List.append_nil] at h

theorem keeps_block {item : α → Passage} {all : α → List Comment} (h : ∀ v, (item v).Keeps (all v))
    {head : Phrase} (hhead : [] ∉ head) (comments : List Comment) (values : List α) :
    (block comments head item values).Keeps (comments ++ values.flatMap all) := by
  refine keeps_of_exists ?_
  rintro ms rest ⟨own, hms⟩
  have hbody : (braces .bodyEnd (items (Phrase.mark .semicolon) item values) own).Holds
      (own ++ values.flatMap all) :=
    holds_braces rfl (Phrase.nil_notMem_mark .semicolon) h values own
  exact ⟨_, keeps_declaration rfl hhead hbody comments, hms⟩

end Passage

end ProtoSchema
