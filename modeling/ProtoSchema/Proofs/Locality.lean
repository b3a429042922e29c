import ProtoSchema.Proofs.Alike

/-
  Errors are local. A match that stays within a place decides nothing by what stands after it, so on
  lexemes that agree up to this place it goes the same way (`Alike.follows`). A rejected file is
  such a match: `rejection_local` says that the lexemes after the one that is blamed never change
  the report, and that there is no error inside of what was only unfinished.
-/

namespace ProtoSchema

/-! ## Lexemes that agree -/

/-- Lexemes with the same token and, if they are words, with the same spelling. -/
structure Lexeme.Similar (a b : Lexeme) : Prop where
  token : a.token = b.token
  spelling : ∀ w, a.token = .word w → a.spelling = b.spelling

theorem Lexeme.Similar.refl (a : Lexeme) : a.Similar a := ⟨rfl, fun _ _ => rfl⟩

theorem Lexeme.Similar.symm {a b : Lexeme} (h : a.Similar b) : b.Similar a :=
  ⟨h.token.symm, fun w hw => (h.spelling w (h.token.trans hw)).symm⟩

/-- Similar lexemes contribute the same but for their places. -/
theorem Terminal.read?_similar {S : Span → Span → Prop} {t : Terminal} {a b : Lexeme}
    {v : t.Result} (h : a.Similar b) (hspan : S a.span b.span) (hv : t.read? a = some v) :
    ∃ w, t.read? b = some w ∧ t.SameResult S v w := by
  have htoken := h.token
  cases t with
  | punct p =>
    obtain ⟨ha, rfl⟩ := read?_punct.1 hv
    exact ⟨b.span, read?_punct.2 ⟨htoken ▸ ha, rfl⟩, hspan⟩
  | keyword k =>
    obtain ⟨w, ha, hk, rfl⟩ := read?_keyword.1 hv
    exact ⟨b.span, read?_keyword.2 ⟨w, htoken ▸ ha, hk, rfl⟩, hspan⟩
  | word =>
    obtain ⟨w, ha, hs⟩ := read?_word.1 hv
    exact ⟨v, read?_word.2 ⟨w, htoken ▸ ha, (h.spelling w ha).symm.trans hs⟩, rfl⟩
  | name =>
    obtain ⟨w, ha, hn, hs⟩ := read?_name.1 hv
    exact ⟨v, read?_name.2 ⟨w, htoken ▸ ha, hn, (h.spelling w ha).symm.trans hs⟩, rfl⟩
  | integer => exact ⟨v, read?_integer.2 (htoken ▸ read?_integer.1 hv), rfl⟩
  | string => exact ⟨v, read?_string.2 (htoken ▸ read?_string.1 hv), rfl⟩
  | literal => exact ⟨v, read?_literal.2 (htoken ▸ read?_literal.1 hv), rfl⟩

/-- Lexemes that the grammar cannot tell from each other. They contribute the same to the tree, but
for their places, which are related by `S`; and if one of them is a comment, so is the other. -/
structure Lexeme.ReadAlike (S : Span → Span → Prop) (a b : Lexeme) : Prop where
  reads : ∀ (t : Terminal) v, t.read? a = some v → ∃ w, t.read? b = some w ∧ t.SameResult S v w
  shown : ∀ t : Terminal, (t.read? b).isSome → (t.read? a).isSome
  comment : a.token.isComment = true ∨ b.token.isComment = true → a.token = b.token

theorem Lexeme.ReadAlike.isComment {S : Span → Span → Prop} {a b : Lexeme} (h : a.ReadAlike S b) :
    a.token.isComment = b.token.isComment := by
  rw [Bool.eq_iff_iff]
  exact ⟨fun ha => h.comment (.inl ha) ▸ ha, fun hb => h.comment (.inr hb) ▸ hb⟩

theorem Lexeme.Similar.readAlike {S : Span → Span → Prop} {a b : Lexeme} (h : a.Similar b)
    (hspan : S a.span b.span) : a.ReadAlike S b := by
  refine ⟨fun t v hv => t.read?_similar h hspan hv, fun t hb => ?_, fun _ => h.token⟩
  obtain ⟨w, hw⟩ := Option.isSome_iff_exists.1 hb
  obtain ⟨v, hv, -⟩ := t.read?_similar (S := fun _ _ => True) h.symm trivial hw
  exact Option.isSome_iff_exists.2 ⟨v, hv⟩

theorem Lexeme.ReadAlike.refl {S : Span → Span → Prop} (hS : ∀ s, S s s) (a : Lexeme) :
    a.ReadAlike S a :=
  (Similar.refl a).readAlike (hS _)

/-- The lexemes `ls'` agree with `ls` before the place `limit`, and at this place they show nothing
that `ls` do not show. -/
structure Agree (S : Span → Span → Prop) (limit : Nat) (ls ls' : List Lexeme) : Prop where
  before : ∀ i l, i < limit → ls[i]? = some l → ∃ l', ls'[i]? = some l' ∧ l.ReadAlike S l'
  shown : ∀ i l', i ≤ limit → ls'[i]? = some l' → ∃ l, ls[i]? = some l ∧ l.ReadAlike S l'

theorem exists_of_rel {ls ls' : List Lexeme} {i : Nat} {l : Lexeme}
    (h : Option.Rel Lexeme.Similar ls[i]? ls'[i]?) (hl : ls[i]? = some l) :
    ∃ l', ls'[i]? = some l' ∧ l.Similar l' := by
  rw [hl] at h
  cases hl' : ls'[i]? with
  | none => rw [hl'] at h; cases h
  | some l' =>
    rw [hl'] at h
    cases h with
    | some hsimilar => exact ⟨l', rfl, hsimilar⟩

/-- Lexemes that are similar up to a place agree there. -/
theorem Agree.of_rel {limit : Nat} {ls ls' : List Lexeme}
    (h : ∀ i ≤ limit, Option.Rel Lexeme.Similar ls[i]? ls'[i]?) :
    Agree (fun _ _ => True) limit ls ls' := by
  refine ⟨fun i l hi hl => ?_, fun i l' hi hl' => ?_⟩
  · obtain ⟨l', hl', hsimilar⟩ := exists_of_rel (h i (Nat.le_of_lt hi)) hl
    exact ⟨l', hl', hsimilar.readAlike trivial⟩
  have hrel := h i hi
  rw [hl'] at hrel
  cases hl : ls[i]? with
  | none => rw [hl] at hrel; cases hrel
  | some l =>
    rw [hl] at hrel
    cases hrel with
    | some hsimilar => exact ⟨l, rfl, hsimilar.readAlike trivial⟩

theorem exists_getElem?_of_forall₂ {α β : Type} {R : α → β → Prop} {xs : List α} {ys : List β}
    (h : List.Forall₂ R xs ys) {i : Nat} {x : α} (hx : xs[i]? = some x) :
    ∃ y, ys[i]? = some y ∧ R x y := by
  induction h generalizing i with
  | nil => cases hx
  | cons hfirst _ ih =>
    cases i with
    | zero => exact ⟨_, rfl, Option.some.inj hx ▸ hfirst⟩
    | succ i => exact ih hx

/-- Lexemes of which each is read like the one at its place among the others agree everywhere. -/
theorem Agree.of_forall₂ {S : Span → Span → Prop} {ls ls' : List Lexeme}
    (h : List.Forall₂ (Lexeme.ReadAlike S) ls ls') (limit : Nat) : Agree S limit ls ls' where
  before _ _ _ hl := exists_getElem?_of_forall₂ h hl
  shown _ _ _ hl' := exists_getElem?_of_forall₂ h.flip hl'

/-! ## Cursors abreast of each other -/

/-- The cursor is a place among the lexemes. -/
def Cursor.Among (ls : List Lexeme) (c : Cursor) : Prop := (Cursor.start ls).Reaches c

namespace Cursor

theorem among_start (ls : List Lexeme) : Among ls (start ls) := .refl _

theorem Among.getElem? {ls : List Lexeme} {c : Cursor} (h : Among ls c) :
    ls[c.index]? = c.rest.head? := by
  obtain ⟨passed, hrest, hindex⟩ := h
  rw [show ls = passed ++ c.rest from hrest, hindex, start, Nat.zero_add,
    List.getElem?_append_right (Nat.le_refl _), Nat.sub_self, List.head?_eq_getElem?]

theorem Among.index_add_length {ls : List Lexeme} {c : Cursor} (h : Among ls c) :
    c.index + c.rest.length = ls.length := by
  obtain ⟨passed, hrest, hindex⟩ := h
  have hlength : ls.length = passed.length + c.rest.length := by
    rw [show ls = passed ++ c.rest from hrest, List.length_append]
  have hstart : (start ls).index = 0 := rfl
  omega

theorem Among.index_le {ls : List Lexeme} {c : Cursor} (h : Among ls c) :
    c.index ≤ ls.length :=
  h.index_add_length ▸ Nat.le_add_right _ _

theorem Among.tail {ls : List Lexeme} {i : Nat} {l : Lexeme} {rest : List Lexeme}
    (h : Among ls ⟨i, l :: rest⟩) : Among ls ⟨i + 1, rest⟩ :=
  Reaches.trans h ⟨[l], rfl, rfl⟩

theorem Reaches.shorter_iff {c d : Cursor} (h : c.Reaches d) :
    d.rest.length < c.rest.length ↔ c.index < d.index := by
  obtain ⟨passed, hrest, hindex⟩ := h
  rw [hrest, hindex, List.length_append]
  omega

theorem Reaches.eq_of_not_shorter {c d : Cursor} (h : c.Reaches d)
    (hlen : ¬ d.rest.length < c.rest.length) : d = c := by
  obtain ⟨passed, hrest, hindex⟩ := h
  rw [hrest, List.length_append] at hlen
  have hnil : passed = [] := List.eq_nil_of_length_eq_zero (by omega)
  rw [hnil] at hrest hindex
  obtain ⟨i, rest⟩ := d
  obtain ⟨j, rest'⟩ := c
  simp_all

/-- The same place among the lexemes `ls` and `ls'`. -/
structure Abreast (ls ls' : List Lexeme) (c c' : Cursor) : Prop where
  left : Among ls c
  right : Among ls' c'
  index : c'.index = c.index

variable {S : Span → Span → Prop} {limit : Nat} {ls ls' : List Lexeme} {c c' d d' : Cursor}

theorem Abreast.reaches (h : Abreast ls ls' c c') (hd : c.Reaches d) (hd' : c'.Reaches d')
    (hindex : d'.index = d.index) : Abreast ls ls' d d' :=
  ⟨h.left.trans hd, h.right.trans hd', hindex⟩

/-- Where lexemes agree, the comments before the next token are skipped alike. -/
theorem Abreast.significant (hagree : Agree S limit ls ls') (h : Abreast ls ls' c c')
    (hle : c.significant.index ≤ limit) : Abreast ls ls' c.significant c'.significant := by
  refine h.reaches c.reaches_significant c'.reaches_significant ?_
  obtain ⟨i, rest⟩ := c
  obtain ⟨i', rest'⟩ := c'
  obtain ⟨hleft, hright, hindex⟩ := h
  obtain rfl : i = i' := hindex.symm
  induction rest generalizing i rest' with
  | nil =>
    cases rest' with
    | nil => rfl
    | cons l' rest' =>
      obtain ⟨l, hl, -⟩ := hagree.shown i l' hle hright.getElem?
      rw [hleft.getElem?] at hl
      cases hl
  | cons l rest ih =>
    cases hcomment : l.token.isComment with
    | true =>
      rw [significant_of_comment hcomment] at hle ⊢
      have hlt : i < limit := Nat.lt_of_lt_of_le (Nat.lt_succ_self i)
        (Nat.le_trans (index_le_significant ⟨i + 1, rest⟩) hle)
      obtain ⟨l', hl', halike⟩ := hagree.before i l hlt hleft.getElem?
      rw [hright.getElem?] at hl'
      obtain ⟨rest', rfl⟩ := List.head?_eq_some_iff.1 hl'
      rw [significant_of_comment (halike.isComment ▸ hcomment)]
      exact ih (i + 1) hle rest' hleft.tail hright.tail rfl
    | false =>
      rw [significant_of_token hcomment] at hle ⊢
      cases rest' with
      | nil => rfl
      | cons l' rest' =>
        obtain ⟨m, hm, halike⟩ := hagree.shown i l' hle hright.getElem?
        rw [hleft.getElem?] at hm
        cases hm
        rw [significant_of_token (halike.isComment ▸ hcomment)]

theorem Abreast.take?_some (hagree : Agree S limit ls ls') (h : Abreast ls ls' c c')
    {t : Terminal} {v : t.Result} (ht : c.take? t = some (v, d))
    (hlt : c.significant.index < limit) :
    ∃ w e, c'.take? t = some (w, e) ∧ t.SameResult S v w ∧ e.index = d.index := by
  have hs := h.significant hagree (Nat.le_of_lt hlt)
  obtain ⟨l, hl, hread, hindex⟩ := take?_eq_some.1 ht
  obtain ⟨l', hl', halike⟩ := hagree.before _ l hlt (by rw [hs.left.getElem?, hl]; rfl)
  rw [← hs.index, hs.right.getElem?] at hl'
  obtain ⟨rest', hrest'⟩ := List.head?_eq_some_iff.1 hl'
  obtain ⟨w, hw, hsame⟩ := halike.reads t v hread
  refine ⟨w, ⟨c'.significant.index + 1, rest'⟩, take?_eq_some.2 ⟨l', hrest', hw, rfl⟩, hsame, ?_⟩
  rw [hindex, hs.index]

theorem Abreast.take?_none (hagree : Agree S limit ls ls') (h : Abreast ls ls' c c')
    {t : Terminal} (ht : c.take? t = none) (hle : c.significant.index ≤ limit) :
    c'.take? t = none := by
  have hs := h.significant hagree hle
  cases ht' : c'.take? t with
  | none => rfl
  | some found =>
    obtain ⟨l', hl', hread, -⟩ :=
      take?_eq_some.1 (show c'.take? t = some (found.1, found.2) from ht')
    obtain ⟨l, hl, halike⟩ := hagree.shown _ l' hle (by
      rw [← hs.index, hs.right.getElem?, hl']
      rfl)
    rw [hs.left.getElem?] at hl
    obtain ⟨rest, hrest⟩ := List.head?_eq_some_iff.1 hl
    obtain ⟨w, hw⟩ := Option.isSome_iff_exists.1 (halike.shown t (by rw [hread]; rfl))
    have hsome : c.take? t = some (w, ⟨c.significant.index + 1, rest⟩) :=
      take?_eq_some.2 ⟨l, hrest, hw, rfl⟩
    rw [ht] at hsome
    cases hsome

end Cursor

/-! ## Replies that follow each other -/

/-- The second reply is the first one, at the same place among other lexemes; what they give is
related by `Q`. -/
inductive Reply.Follows {α : Type} (Q : α → α → Prop) : Reply α → Reply α → Prop
  | done {v w d e r} (same : Q v w) (index : e.index = d.index) :
      Reply.Follows Q (.done v d r) (.done w e r)
  | failed {r} : Reply.Follows Q (.failed r) (.failed r)

/-- A way to match nested constructs among `ls'` that follows another one among `ls` as long as this
stays within `limit`. -/
def Callee.Follows (limit : Nat) (ls ls' : List Lexeme) (callee callee' : Callee) : Prop :=
  ∀ n c c' r, Cursor.Abreast ls ls' c c' → (callee n c r).Within limit →
    Reply.Follows Eq (callee n c r) (callee' n c' r)

namespace Reply

variable {α : Type} {limit : Nat} {c c' : Cursor} {r : Report}

theorem Follows.of_done {Q : α → α → Prop} {v : α} {d : Cursor} {reply : Reply α}
    (h : Follows Q (.done v d r) reply) :
    ∃ w e, reply = .done w e r ∧ Q v w ∧ e.index = d.index := by
  cases h with
  | done same index => exact ⟨_, _, rfl, same, index⟩

theorem Follows.of_failed {Q : α → α → Prop} {reply : Reply α} (h : Follows Q (.failed r) reply) :
    reply = .failed r := by
  cases h
  rfl

theorem Follows.report_eq {Q : α → α → Prop} {reply reply' : Reply α}
    (h : Follows Q reply reply') : reply'.report = reply.report := by
  cases h <;> rfl

theorem Follows.mono {Q R : α → α → Prop} {reply reply' : Reply α} (h : Follows Q reply reply')
    (hle : ∀ v w, Q v w → R v w) : Follows R reply reply' := by
  cases h with
  | done same index => exact .done (hle _ _ same) index
  | failed => exact .failed

theorem Follows.map {β : Type} {Q : α → α → Prop} {R : β → β → Prop} {f g : α → β}
    {reply reply' : Reply α} (h : Follows Q reply reply')
    (hle : ∀ v w, Q v w → R (f v) (g w)) : Follows R (reply.map f) (reply'.map g) := by
  cases h with
  | done same index => exact .done (hle _ _ same) index
  | failed => exact .failed

theorem Within.failed {β : Type} (h : (Reply.failed r : Reply α).Within limit) :
    (Reply.failed r : Reply β).Within limit :=
  ⟨h.place_le, h.report_le⟩

theorem Within.of_map {β : Type} {f : α → β} {reply : Reply α} (h : (reply.map f).Within limit) :
    reply.Within limit := by
  cases reply <;> exact ⟨h.place_le, h.report_le⟩

/-- A lexeme that may stand next is found abreast if it is found at all. -/
theorem follows_optional {found found' : Option (α × Cursor)} {Q : Option α → Option α → Prop}
    (hsome : ∀ v d, found = some (v, d) →
      ∃ w e, found' = some (w, e) ∧ Q (some v) (some w) ∧ e.index = d.index)
    (hnone : found = none → found' = none ∧ Q none none) (hindex : c'.index = c.index) :
    Follows Q (optional found c r) (optional found' c' r) := by
  cases hf : found with
  | none =>
    obtain ⟨hf', hQ⟩ := hnone hf
    rw [hf']
    exact .done hQ hindex
  | some vd =>
    obtain ⟨v, d⟩ := vd
    obtain ⟨w, e, hf', hQ, he⟩ := hsome v d hf
    rw [hf']
    exact .done hQ he

end Reply

/-- A way to find comments, which decides by the token of the next lexeme and passes it. -/
structure Cursor.DecidesByToken {α : Type} (find : Cursor → Option (α × Cursor)) : Prop where
  nil : ∀ i, find ⟨i, []⟩ = none
  token : ∀ i (l : Lexeme) rest, l.token.isComment = false → find ⟨i, l :: rest⟩ = none
  cons : ∀ i (l l' : Lexeme) rest rest', l.token = l'.token →
    find ⟨i, l' :: rest'⟩ = (find ⟨i, l :: rest⟩).map fun found => (found.1, ⟨i + 1, rest'⟩)

theorem Cursor.decidesByToken_comment? : DecidesByToken comment? := by
  refine ⟨fun _ => rfl, ?_, ?_⟩
  · rintro i ⟨token, _, _⟩ rest h
    cases token <;> first | rfl | cases h
  · rintro i ⟨token, _, _⟩ ⟨token', _, _⟩ rest rest' h
    obtain rfl : token = token' := h
    cases token <;> rfl

theorem Cursor.decidesByToken_trailing? : DecidesByToken trailing? := by
  refine ⟨fun _ => rfl, ?_, ?_⟩
  · rintro i ⟨token, _, _⟩ rest h
    cases token <;> first | rfl | cases h
  · rintro i ⟨token, _, _⟩ ⟨token', _, _⟩ rest rest' h
    obtain rfl : token = token' := h
    cases token with
    | lineComment text isTrailing => cases isTrailing <;> rfl
    | _ => rfl

theorem Cursor.DecidesByToken.readAlike {α : Type} {find : Cursor → Option (α × Cursor)}
    (hfind : DecidesByToken find) {S : Span → Span → Prop} {l l' : Lexeme} (h : l.ReadAlike S l')
    (i : Nat) (rest rest' : List Lexeme) :
    find ⟨i, l' :: rest'⟩ = (find ⟨i, l :: rest⟩).map fun found => (found.1, ⟨i + 1, rest'⟩) := by
  cases hl : l.token.isComment with
  | true => exact hfind.cons i l l' rest rest' (h.comment (.inl hl))
  | false => rw [hfind.token i l rest hl, hfind.token i l' rest' (h.isComment ▸ hl)]; rfl

theorem Reply.follows_of_decidesByToken {α : Type} {find : Cursor → Option (α × Cursor)}
    (hfind : Cursor.DecidesByToken find) {S : Span → Span → Prop} {limit : Nat}
    {ls ls' : List Lexeme} (hagree : Agree S limit ls ls') {c c' : Cursor} {r : Report}
    (h : Cursor.Abreast ls ls' c c')
    (hwithin : (optional (find c) c r).Within limit) :
    Follows Eq (optional (find c) c r) (optional (find c') c' r) := by
  obtain ⟨i, rest⟩ := c
  obtain ⟨i', rest'⟩ := c'
  obtain ⟨hleft, hright, hindex⟩ := h
  obtain rfl : i = i' := hindex.symm
  have hplace := hwithin.place_le
  cases rest with
  | nil =>
    rw [hfind.nil] at hplace ⊢
    cases rest' with
    | nil => rw [hfind.nil]; exact .done rfl rfl
    | cons l' rest' =>
      obtain ⟨l, hl, -⟩ := hagree.shown i l' hplace hright.getElem?
      rw [hleft.getElem?] at hl
      cases hl
  | cons l rest =>
    have hnext := hfind.cons i l l rest rest rfl
    cases hf : find ⟨i, l :: rest⟩ with
    | none =>
      rw [hf] at hplace
      have hle : i ≤ limit := Nat.le_trans (Cursor.index_le_significant ⟨i, l :: rest⟩) hplace
      cases rest' with
      | nil => rw [hfind.nil]; exact .done rfl rfl
      | cons l' rest' =>
        obtain ⟨m, hm, halike⟩ := hagree.shown i l' hle hright.getElem?
        rw [hleft.getElem?] at hm
        cases hm
        rw [hfind.readAlike halike i rest rest', hf]
        exact .done rfl rfl
    | some found =>
      obtain ⟨v, d⟩ := found
      rw [hf] at hplace hnext
      obtain rfl : d = ⟨i + 1, rest⟩ := (Prod.mk.inj (Option.some.inj hnext)).2
      have hlt : i < limit := Nat.lt_of_lt_of_le (Nat.lt_succ_self i)
        (Nat.le_trans (Cursor.index_le_significant ⟨i + 1, rest⟩) hplace)
      obtain ⟨l', hl', halike⟩ := hagree.before i l hlt hleft.getElem?
      rw [hright.getElem?] at hl'
      obtain ⟨rest', rfl⟩ := List.head?_eq_some_iff.1 hl'
      rw [hfind.readAlike halike i rest rest', hf]
      exact .done rfl rfl

theorem matchLoop_follows {α : Type} {limit : Nat} {ls ls' : List Lexeme}
    {step step' : Cursor → Report → Reply (Option α)} {S : α → α → Prop}
    (honward : ∀ c r, (step c r).Onward c r)
    (hreaches : ∀ c r v d r', step c r = .done v d r' → c.Reaches d)
    (hreaches' : ∀ c r v d r', step' c r = .done v d r' → c.Reaches d)
    (hstep : ∀ c c' r, Cursor.Abreast ls ls' c c' → (step c r).Within limit →
      Reply.Follows (Option.Rel S) (step c r) (step' c' r))
    {c c' : Cursor} {r : Report} (h : Cursor.Abreast ls ls' c c')
    (hwithin : (matchLoop step c r).Within limit) :
    Reply.Follows (List.Forall₂ S) (matchLoop step c r) (matchLoop step' c' r) := by
  fun_induction matchLoop step c r generalizing c' with
  | case1 c r r' hs =>
    have hf := hstep c c' r h (hs ▸ hwithin.failed)
    rw [hs] at hf
    rw [matchLoop, hf.of_failed]
    exact .failed
  | case2 c r d r' hs =>
    have hf := hstep c c' r h (hs ▸ ⟨hwithin.place_le, hwithin.report_le⟩)
    rw [hs] at hf
    obtain ⟨w, e, hs', hrel, hindex⟩ := hf.of_done
    cases hrel
    rw [matchLoop, hs']
    exact .done .nil hindex
  | case3 c r v d r' hs hlt ih =>
    have hf := hstep c c' r h (hs ▸ hwithin.of_map.of_onward (matchLoop_onward honward d r'))
    rw [hs] at hf
    obtain ⟨_, e, hs', hrel, hindex⟩ := hf.of_done
    have hd := hreaches c r _ d r' hs
    have he := hreaches' c' r _ e r' hs'
    have hshorter : e.rest.length < c'.rest.length := by
      rw [he.shorter_iff, hindex, h.index]
      exact hd.shorter_iff.1 hlt
    have hrest := ih (h.reaches hd he hindex) hwithin.of_map
    cases hrel with
    | @some _ w hvw =>
      have hloop : matchLoop step' c' r = (matchLoop step' e r').map (w :: ·) := by
        rw [matchLoop, hs']
        exact if_pos hshorter
      rw [hloop]
      exact hrest.map fun _ _ hsame => .cons hvw hsame
  | case4 c r v d r' hs hlt =>
    have hd := hreaches c r _ d r' hs
    obtain rfl := hd.eq_of_not_shorter hlt
    have hf := hstep _ c' r h (hs ▸ ⟨hwithin.place_le, hwithin.report_le⟩)
    rw [hs] at hf
    obtain ⟨_, e, hs', hrel, hindex⟩ := hf.of_done
    have he := hreaches' c' r _ e r' hs'
    have hshorter : ¬ e.rest.length < c'.rest.length := by
      rw [he.shorter_iff, hindex, h.index]
      exact Nat.lt_irrefl _
    cases hrel
    rw [matchLoop, hs']
    dsimp only
    rw [if_neg hshorter]
    exact .done .nil h.index

namespace Production

/-- Alike productions follow each other wherever the first one stays within the place up to which
the lexemes agree. -/
theorem Alike.follows {S : Span → Span → Prop} {limit : Nat} {ls ls' : List Lexeme}
    (hagree : Agree S limit ls ls')
    {callee callee' : Callee} (hc : callee.Onward) (hc' : callee'.Reaches)
    (hcallee : Callee.Follows limit ls ls' callee callee') {α : Type} {ts : List Terminal}
    {Q : α → α → List Terminal → Prop} {p p' : Production α} (h : Alike S ts Q p p')
    {c c' : Cursor} {r : Report} (hab : Cursor.Abreast ls ls' c c')
    (hwithin : (p.matchWith callee c r).Within limit) :
    Reply.Follows (fun v w => ∃ us, Q v w us) (p.matchWith callee c r)
      (p'.matchWith callee' c' r) := by
  have honward {β : Type} (q : Production β) (d : Cursor) (s : Report) :=
    matchWith_onward hc q d s
  induction h generalizing c c' r with
  | pure h => exact .done ⟨_, h⟩ hab.index
  | @bind _ _ ts Q R p p' k k' _ _ ihp ihk =>
    simp only [matchWith] at hwithin ⊢
    cases hm : p.matchWith callee c r with
    | failed s =>
      rw [hm] at hwithin
      have hf := ihp hab (hm ▸ hwithin.failed)
      rw [hm] at hf
      rw [hf.of_failed]
      exact .failed
    | done v d s =>
      rw [hm] at hwithin
      have hf := ihp hab (hm ▸ hwithin.of_onward (honward (k v) d s))
      rw [hm] at hf
      obtain ⟨w, e, hm', ⟨us, hvw⟩, hindex⟩ := hf.of_done
      rw [hm']
      exact ihk v w us hvw
        (hab.reaches (matchWith_reaches hc.reaches p hm) (matchWith_reaches hc' p' hm') hindex)
        hwithin
  | @sees _ ts Q t k k' hstarts _ _ ihtrue ihfalse =>
    simp only [matchWith] at hwithin ⊢
    cases hs : c.take? t with
    | some found =>
      rw [hs] at hwithin
      have hlt := hstarts callee hc c r (hs ▸ rfl)
      obtain ⟨w, e, hs', -, -⟩ := hab.take?_some hagree
        (show c.take? t = some (found.1, found.2) from hs)
        (Nat.lt_of_lt_of_le hlt hwithin.place_le)
      rw [hs']
      exact ihtrue hab hwithin
    | none =>
      rw [hs] at hwithin
      have hle := (honward (k false) c r).place_le
      rw [hab.take?_none hagree hs (Nat.le_trans hle hwithin.place_le)]
      exact ihfalse hab hwithin
  | @take ts t Q hfound hmissing =>
    change (Reply.optional (c.take? t) c r).Within limit at hwithin
    refine Reply.follows_optional (fun v d hs => ?_) (fun hs => ?_) hab.index
    · rw [hs] at hwithin
      have hlt := Nat.lt_of_lt_of_le (Cursor.significant_lt_of_take? hs) hwithin.place_le
      obtain ⟨w, e, hs', hsame, hindex⟩ := hab.take?_some hagree hs hlt
      exact ⟨w, e, hs', ⟨_, hfound v w hsame⟩, hindex⟩
    · rw [hs] at hwithin
      exact ⟨hab.take?_none hagree hs hwithin.place_le, _, hmissing⟩
  | @comment ts Q hfound hmissing =>
    refine (Reply.follows_of_decidesByToken Cursor.decidesByToken_comment? hagree hab
      hwithin).mono ?_
    rintro v _ rfl
    cases v with
    | none => exact ⟨_, hmissing⟩
    | some v => exact ⟨_, hfound v⟩
  | @trailing ts Q hfound hmissing =>
    refine (Reply.follows_of_decidesByToken Cursor.decidesByToken_trailing? hagree hab
      hwithin).mono ?_
    rintro v _ rfl
    cases v with
    | none => exact ⟨_, hmissing⟩
    | some v => exact ⟨_, hfound v⟩
  | @fail _ ts Q e covered =>
    have hle := Nat.le_trans (honward (.fail e) c r).place_le hwithin.place_le
    simp only [matchWith]
    rw [(hab.significant hagree hle).index]
    exact .failed
  | @orElse _ ts Q p p' q q' _ _ ihp ihq =>
    simp only [matchWith] at hwithin ⊢
    cases hm : p.matchWith callee c r with
    | failed s =>
      rw [hm] at hwithin
      have hs : s.furthest ≤ limit := Nat.le_trans (honward q c s).report_le hwithin.report_le
      have hfirst : (p.matchWith callee c r).Within limit := by
        rw [hm]
        exact ⟨hs, hs⟩
      have hf := ihp hab hfirst
      rw [hm] at hf
      rw [hf.of_failed]
      exact ihq hab hwithin
    | done v d s =>
      rw [hm] at hwithin
      have hfirst : (p.matchWith callee c r).Within limit := by
        rw [hm]
        exact hwithin
      have hf := ihp hab hfirst
      rw [hm] at hf
      obtain ⟨w, e, hm', hvw, hindex⟩ := hf.of_done
      rw [hm']
      exact .done hvw hindex
  | @loop _ ts P R Q p p' _ hsame hall ih =>
    refine Reply.Follows.mono (matchLoop_follows (honward p)
      (fun _ _ _ _ _ h => matchWith_reaches hc.reaches p h)
      (fun _ _ _ _ _ h => matchWith_reaches hc' p' h) (fun d d' s hd hs => ?_) hab hwithin)
      fun vs ws h => ⟨[], hall vs ws h⟩
    refine (ih hd hs).mono ?_
    rintro v w ⟨us, h⟩
    exact hsame v w us h
  | @call ts n Q hsame =>
    refine (hcallee n c c' r hab hwithin).mono ?_
    rintro v _ rfl
    exact ⟨_, hsame v⟩

end Production

/-- On lexemes that agree up to a place, nested constructs are matched alike up to this place. -/
theorem Nonterminal.matches_follows {S : Span → Span → Prop} {limit : Nat} {ls ls' : List Lexeme}
    (hagree : Agree S limit ls ls') :
    Callee.Follows limit ls ls' Nonterminal.matches Nonterminal.matches := by
  have h := Nonterminal.matches_induct (P := fun n c r reply => n.Onward c r reply ∧
    ∀ c', Cursor.Abreast ls ls' c c' → reply.Within limit → Reply.Follows Eq reply (n.matches c' r))
    (Callee.beyond limit) (Callee.reaches_beyond limit) ?_ ?_
  · exact fun n c c' r hab hwithin => (h n c r).2 c' hab hwithin
  · exact fun n c r => ⟨(Callee.onward_beyond limit).onward n c r,
      fun _ _ hwithin => absurd hwithin (Callee.not_within_beyond n c r)⟩
  · intro callee hreaches halways n c r
    have hc : callee.Onward := ⟨hreaches, fun n c r => (halways n c r).1⟩
    refine ⟨Nonterminal.onward_production hc n c r, fun c' hab hwithin => ?_⟩
    rw [n.matches_eq_run c' r]
    refine ((Production.steady_production n S []).follows hagree hc Nonterminal.matches_reaches
      (fun m d d' s hd hs => (halways m d s).2 d' hd hs) hab hwithin).mono ?_
    rintro v w ⟨_, h⟩
    exact h

namespace Production

/-- A match is followed on lexemes that are read alike from the first to the last. -/
theorem Alike.run_follows {S : Span → Span → Prop} {ls ls' : List Lexeme}
    (hls : List.Forall₂ (Lexeme.ReadAlike S) ls ls') {α : Type} {ts : List Terminal}
    {Q : α → α → List Terminal → Prop} {p p' : Production α} (h : Alike S ts Q p p')
    (r : Report) : Reply.Follows (fun v w => ∃ us, Q v w us) (p.run (.start ls) r)
      (p'.run (.start ls') r) := by
  have hagree := Agree.of_forall₂ hls (max (p.run (.start ls) r).place
    (p.run (.start ls) r).report.furthest)
  exact h.follows hagree Nonterminal.matches_onward Nonterminal.matches_reaches
    (Nonterminal.matches_follows hagree) ⟨Cursor.among_start ls, Cursor.among_start ls', rfl⟩
    ⟨Nat.le_max_left _ _, Nat.le_max_right _ _⟩

end Production

/-! ## Files that are rejected -/

namespace File

/-- Reading the lexemes as a file fails at the place `index`, a lexeme or their end, where each of
`expected` was missing. -/
def RejectedAt (ls : List Lexeme) (index : Nat) (expected : List Expectation) : Prop :=
  Production.file.matchAll ls = .error ⟨index, expected⟩

/-- Reading the lexemes finds no fault before the place `index`: there is a file, or a package is
named twice, or something is missing at `index` or later. -/
def FaultlessBefore (index : Nat) (ls : List Lexeme) : Prop :=
  ∀ size, (∃ f, ofLexemes ls size = .ok f) ∨
    (∃ first second, ofLexemes ls size = .error (.duplicatePackage first second)) ∨
    ∃ i expected, index ≤ i ∧ RejectedAt ls i expected

variable {ls ls' : List Lexeme} {index : Nat} {expected : List Expectation}

theorem ofLexemes_of_rejectedAt (h : RejectedAt ls index expected) (size : Nat) :
    ofLexemes ls size = .error (Report.fault ⟨index, expected⟩ ls size) := by
  rw [ofLexemes, show Production.file.matchAll ls = .error ⟨index, expected⟩ from h]

theorem faultlessBefore_of (h : ∀ i expected, RejectedAt ls i expected → index ≤ i) :
    FaultlessBefore index ls := by
  intro size
  rw [ofLexemes]
  cases hm : Production.file.matchAll ls with
  | error r => exact .inr (.inr ⟨r.furthest, r.expected, h _ _ hm, hm⟩)
  | ok found =>
    obtain ⟨version, body⟩ := found
    dsimp only
    unfold ofItems
    split
    · exact .inl ⟨_, rfl⟩
    · exact .inl ⟨_, rfl⟩
    · exact .inr (.inl ⟨_, _, rfl⟩)

/-- The whole match of a rejected file stays within the place where it is rejected. -/
theorem RejectedAt.within (h : RejectedAt ls index expected) :
    (Production.file.run (.start ls) .start).Within index ∧
      (Production.file.run (.start ls) .start).report = ⟨index, expected⟩ := by
  have hsettles := Production.file_settles (.start ls) .start
  unfold RejectedAt Production.matchAll at h
  cases hm : Production.file.run (.start ls) .start with
  | failed r =>
    rw [hm] at h
    cases h
    exact ⟨⟨Nat.le_refl _, Nat.le_refl _⟩, rfl⟩
  | done v d r =>
    rw [hm] at h hsettles
    dsimp only at h
    split at h
    · cases h
    · cases h
      exact ⟨⟨hsettles, Nat.le_refl _⟩, rfl⟩

/-- The match of a rejected file is followed on all lexemes that agree up to the place where it is
rejected. -/
theorem RejectedAt.follows {S : Span → Span → Prop} (h : RejectedAt ls index expected)
    (hagree : Agree S index ls ls') :
    Reply.Follows (fun _ _ => True) (Production.file.run (.start ls) .start)
      (Production.file.run (.start ls') .start) :=
  ((Production.alike_file []).follows hagree Nonterminal.matches_onward
    Nonterminal.matches_reaches (Nonterminal.matches_follows hagree)
    ⟨Cursor.among_start ls, Cursor.among_start ls', rfl⟩ h.within.1).mono fun _ _ _ => trivial

theorem RejectedAt.of_agree {S : Span → Span → Prop} (h : RejectedAt ls index expected)
    (hagree : Agree S index ls ls')
    (hlt : index < ls'.length) : RejectedAt ls' index expected := by
  have hfollows := h.follows hagree
  obtain ⟨hwithin, hreport⟩ := h.within
  unfold RejectedAt Production.matchAll
  cases hm : Production.file.run (.start ls) .start with
  | failed r =>
    rw [hm] at hfollows hreport
    rw [hfollows.of_failed]
    exact congrArg Except.error hreport
  | done v d r =>
    rw [hm] at hfollows hreport hwithin
    obtain ⟨w, e, hm', -, hindex⟩ := hfollows.of_done
    rw [hm']
    dsimp only
    -- Lexemes are left over, since the match ends before the lexeme that is blamed.
    have hamong : Cursor.Among ls' e := Production.run_reaches _ hm'
    have hle : e.index ≤ index := by
      have hd := Nat.le_trans d.index_le_significant hwithin.place_le
      omega
    rw [if_neg]
    · exact congrArg Except.error hreport
    · intro hempty
      have hnone := hamong.getElem?
      rw [List.isEmpty_iff.1 hempty, List.head?_nil, List.getElem?_eq_none_iff] at hnone
      omega

theorem RejectedAt.unique {i : Nat} {others : List Expectation}
    (h : RejectedAt ls index expected) (h' : RejectedAt ls i others) :
    index = i ∧ expected = others := by
  have heq : (Except.error ⟨index, expected⟩ : Except Report _) = .error ⟨i, others⟩ :=
    h.symm.trans h'
  cases heq
  exact ⟨rfl, rfl⟩

/-- A file that goes on from another one is rejected only where this one is, or after its end. -/
theorem RejectedAt.length_le_of_append {more : List Lexeme} {i : Nat} {others : List Expectation}
    (h : RejectedAt ls index expected) (hend : ls.length ≤ index)
    (h' : RejectedAt (ls ++ more) i others) : ls.length ≤ i := by
  refine Nat.le_of_not_lt fun hlt => ?_
  have hsame : ∀ j ≤ i, Option.Rel Lexeme.Similar (ls ++ more)[j]? ls[j]? := by
    intro j hj
    rw [List.getElem?_append_left (by omega), List.getElem?_eq_getElem (by omega)]
    exact .some (.refl _)
  obtain ⟨rfl, -⟩ := h.unique (h'.of_agree (.of_rel hsame) hlt)
  omega

/-- The report on a rejected file depends on nothing after the lexeme that it blames, and on this
lexeme and those before it only by their tokens and the spelling of words. A file that was rejected
at its end had no fault before it, whatever is added to it. -/
theorem rejection_local (h : RejectedAt ls index expected) :
    (index < ls.length → ∀ ls', (∀ i ≤ index, Option.Rel Lexeme.Similar ls[i]? ls'[i]?) →
      RejectedAt ls' index expected) ∧
    (ls.length ≤ index → ∀ more, FaultlessBefore ls.length (ls ++ more)) := by
  constructor
  · intro hlt ls' hsame
    obtain ⟨l', hl', -⟩ :=
      exists_of_rel (hsame index (Nat.le_refl _)) (List.getElem?_eq_getElem hlt)
    exact h.of_agree (.of_rel hsame) (List.getElem?_eq_some_iff.1 hl').1
  · intro hend more
    exact faultlessBefore_of fun i others h' => h.length_le_of_append hend h'

/-- A semicolon in the place of an equals sign, and a file that ends there. -/
theorem rejection_local_missing_equals :
    (∀ more, RejectedAt (⟨.word (.keyword .syntaxKw), "syntax", ⟨4, 10⟩⟩ ::
      ⟨.punct .semicolon, ";", ⟨10, 11⟩⟩ :: more) 1 [.punct .equals]) ∧
    ∀ more, FaultlessBefore 1 (⟨.word (.keyword .syntaxKw), "syntax", ⟨0, 6⟩⟩ :: more) := by
  have hsemicolon : RejectedAt [⟨.word (.keyword .syntaxKw), "syntax", ⟨0, 6⟩⟩,
      ⟨.punct .semicolon, ";", ⟨6, 7⟩⟩] 1 [.punct .equals] := by
    unfold RejectedAt
    decide +kernel
  have hend : RejectedAt [⟨.word (.keyword .syntaxKw), "syntax", ⟨0, 6⟩⟩] 1 [.punct .equals] := by
    unfold RejectedAt
    decide +kernel
  refine ⟨fun more => (rejection_local hsemicolon).1 (by decide) _ fun i hi => ?_,
    (rejection_local hend).2 (by decide)⟩
  match i, hi with
  | 0, _ => exact .some ⟨rfl, fun _ _ => rfl⟩
  | 1, _ => exact .some ⟨rfl, fun _ _ => rfl⟩

end File

end ProtoSchema
