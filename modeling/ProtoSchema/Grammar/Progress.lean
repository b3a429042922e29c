import ProtoSchema.Grammar.Matching

/-
  Matching passes lexemes from the front and never goes back. `run_reaches`: after a match the
  cursor stands further on in the same lexemes. `matches_eq_run`: the production of a nested
  construct passes a lexeme before it refers to another one, so a nested construct is matched
  exactly as its production is, and the bound in its definition never decides anything.
-/

namespace ProtoSchema

/-! ## Cursors that follow one another -/

/-- The cursor `d` stands where `c` does, or further on in the same lexemes. -/
def Cursor.Reaches (c d : Cursor) : Prop :=
  ∃ passed, c.rest = passed ++ d.rest ∧ d.index = c.index + passed.length

namespace Cursor

theorem Reaches.refl (c : Cursor) : c.Reaches c := ⟨[], rfl, rfl⟩

theorem Reaches.trans {c d e : Cursor} (h : c.Reaches d) (h' : d.Reaches e) : c.Reaches e := by
  obtain ⟨a, ha, hi⟩ := h
  obtain ⟨b, hb, hj⟩ := h'
  exact ⟨a ++ b, by rw [ha, hb, List.append_assoc], by rw [hj, hi, List.length_append]; omega⟩

theorem Reaches.length_le {c d : Cursor} (h : c.Reaches d) : d.rest.length ≤ c.rest.length := by
  obtain ⟨a, ha, -⟩ := h
  rw [ha, List.length_append]
  omega

theorem reaches_significant (c : Cursor) : c.Reaches c.significant := by
  refine ⟨c.rest.takeWhile (·.token.isComment), ?_, rfl⟩
  exact (List.prefix_iff_eq_append.1 (List.takeWhile_prefix _)).symm

theorem take?_eq_some {c d : Cursor} {t : Terminal} {value : t.Result} :
    c.take? t = some (value, d) ↔ ∃ l, c.significant.rest = l :: d.rest ∧
      t.read? l = some value ∧ d.index = c.significant.index + 1 := by
  obtain ⟨i, rest⟩ := d
  unfold take?
  split
  · next index l rest' heq =>
    rw [heq]
    cases hl : t.read? l with
    | none => simp [hl]
    | some v =>
      simp only [Option.map_some, Option.some.injEq, Prod.mk.injEq, Cursor.mk.injEq,
        List.cons.injEq, exists_eq_left', and_assoc, hl, eq_comm]
      exact ⟨fun ⟨hv, hi, hr⟩ => ⟨hr, hv, hi⟩, fun ⟨hr, hv, hi⟩ => ⟨hv, hi, hr⟩⟩
  · next heq => simp [heq]

theorem reaches_of_take? {c d : Cursor} {t : Terminal} {value : t.Result}
    (h : c.take? t = some (value, d)) : c.Reaches d ∧ d.rest.length < c.rest.length := by
  have hs := c.reaches_significant
  obtain ⟨l, hl, -, hi⟩ := take?_eq_some.1 h
  have hd : c.significant.Reaches d := ⟨[l], hl, hi⟩
  refine ⟨hs.trans hd, Nat.lt_of_lt_of_le ?_ hs.length_le⟩
  rw [hl, List.length_cons]
  omega

theorem reaches_of_comment? {c d : Cursor} {value : Comment} (h : c.comment? = some (value, d)) :
    c.Reaches d := by
  unfold comment? at h
  split at h
  · next l rest heq => cases h; exact ⟨[_], heq, rfl⟩
  · next l rest heq => cases h; exact ⟨[_], heq, rfl⟩
  · cases h

theorem reaches_of_trailing? {c d : Cursor} {value : Comment}
    (h : c.trailing? = some (value, d)) : c.Reaches d := by
  unfold trailing? at h
  split at h
  · next l rest heq => cases h; exact ⟨[_], heq, rfl⟩
  · cases h

end Cursor

/-! ## Matching only goes on -/

theorem Reply.reaches_of_optional {α : Type} {found : Option (α × Cursor)} {c d : Cursor}
    {r r' : Report} {value : Option α} (h : Reply.optional found c r = .done value d r')
    (hfound : ∀ v e, found = some (v, e) → c.Reaches e) : c.Reaches d := by
  unfold Reply.optional at h
  split at h
  · cases h; exact hfound _ _ rfl
  · cases h; exact .refl _

theorem matchLoop_reaches {α : Type} {step : Cursor → Report → Reply (Option α)}
    (hstep : ∀ c r v d r', step c r = .done v d r' → c.Reaches d) {c d : Cursor} {r r' : Report}
    {values : List α} (h : matchLoop step c r = .done values d r') : c.Reaches d := by
  fun_induction matchLoop step c r generalizing values with
  | case1 => cases h
  | case2 c r e r₁ hs => cases h; exact hstep _ _ _ _ _ hs
  | case3 c r a e r₁ hs hlt ih =>
    cases hl : matchLoop step e r₁ with
    | failed _ => rw [hl] at h; cases h
    | done vs _ _ => rw [hl] at h; cases h; exact (hstep _ _ _ _ _ hs).trans (ih hl)
  | case4 => cases h; exact .refl _

/-- A callee that only goes on. -/
def Callee.Reaches (callee : Callee) : Prop :=
  ∀ n c r v d r', callee n c r = .done v d r' → c.Reaches d

namespace Production

theorem matchWith_reaches {callee : Callee} (hc : callee.Reaches) {α : Type} (p : Production α)
    {c d : Cursor} {r r' : Report} {value : α}
    (h : p.matchWith callee c r = .done value d r') : c.Reaches d := by
  induction p generalizing c d r r' with
  | pure v => cases h; exact .refl _
  | bind p k ihp ihk =>
    simp only [matchWith] at h
    split at h
    · next hp => exact (ihp hp).trans (ihk _ h)
    · cases h
  | sees t => cases h; exact .refl _
  | take t => exact Reply.reaches_of_optional h fun _ _ hf => (Cursor.reaches_of_take? hf).1
  | comment => exact Reply.reaches_of_optional h fun _ _ hf => Cursor.reaches_of_comment? hf
  | trailing => exact Reply.reaches_of_optional h fun _ _ hf => Cursor.reaches_of_trailing? hf
  | fail e => cases h
  | orElse p q ihp ihq =>
    simp only [matchWith] at h
    split at h
    · next hp => cases h; exact ihp hp
    · exact ihq h
  | loop p ih => exact matchLoop_reaches (fun _ _ _ _ _ hs => ih hs) h
  | call n => exact hc _ _ _ _ _ _ h

end Production

/-- A nested construct ends where it starts or further on. -/
theorem Nonterminal.matches_reaches : Callee.Reaches Nonterminal.matches := by
  intro n c r v d r' h
  induction hn : c.rest.length using Nat.strongRecOn generalizing n c r v d r' with
  | ind k ih =>
    rw [Nonterminal.matches] at h
    refine Production.matchWith_reaches (fun m e s w e' s' he => ?_) _ h
    split at he
    · next hlt => exact ih _ (hn ▸ hlt) _ _ _ _ _ _ he rfl
    · cases he

/-- After a match the cursor stands where it stood or further on. -/
theorem Production.run_reaches {α : Type} (p : Production α) {c d : Cursor} {r r' : Report}
    {value : α} (h : p.run c r = .done value d r') : c.Reaches d :=
  matchWith_reaches Nonterminal.matches_reaches p h

/-! ## Nested constructs -/

theorem matchLoop_congr {α : Type} {step step' : Cursor → Report → Reply (Option α)} {n : Nat}
    (h : ∀ c r, c.rest.length < n → step c r = step' c r) {c : Cursor} {r : Report}
    (hc : c.rest.length < n) : matchLoop step c r = matchLoop step' c r := by
  induction hk : c.rest.length using Nat.strongRecOn generalizing c r with
  | ind k ih =>
    rw [matchLoop, matchLoop, ← h c r hc]
    split
    · rfl
    · rfl
    · split
      · next hlt => rw [ih _ (hk ▸ hlt) (by omega) rfl]
      · rfl

namespace Production

/-- What a production matches depends on nested constructs only from the cursor onwards. -/
theorem matchWith_congr {callee callee' : Callee} {n : Nat} (hr : callee.Reaches)
    (h : ∀ m c r, c.rest.length < n → callee m c r = callee' m c r) {α : Type} (p : Production α)
    {c : Cursor} {r : Report} (hc : c.rest.length < n) :
    p.matchWith callee c r = p.matchWith callee' c r := by
  induction p generalizing c r with
  | bind p k ihp ihk =>
    simp only [matchWith, ← ihp hc]
    split
    · next hp => exact ihk _ (Nat.lt_of_le_of_lt (matchWith_reaches hr p hp).length_le hc)
    · rfl
  | orElse p q ihp ihq =>
    simp only [matchWith, ← ihp hc, ← ihq hc]
  | loop p ih => exact matchLoop_congr (fun _ _ hc => ih hc) hc
  | call m => exact h m c r hc
  | _ => rfl

/-- A production that, when it matches, passes at least one lexeme. -/
def Consumes {α : Type} (p : Production α) : Prop :=
  ∀ (callee : Callee) (c d : Cursor) (r r' : Report) (value : α), callee.Reaches →
    p.matchWith callee c r = .done value d r' → d.rest.length < c.rest.length

/-- A production that refers to nested constructs only after it has passed a lexeme. -/
def Guarded {α : Type} (p : Production α) : Prop :=
  ∀ (callee callee' : Callee) (c : Cursor) (r : Report), callee.Reaches →
    (∀ m d s, d.rest.length < c.rest.length → callee m d s = callee' m d s) →
    p.matchWith callee c r = p.matchWith callee' c r

theorem Consumes.bind_left {α β : Type} {p : Production α} (hp : p.Consumes)
    (k : α → Production β) : Consumes (p >>= k) := by
  intro callee c d r r' value hr h
  change (Production.bind p k).matchWith callee c r = _ at h
  simp only [matchWith] at h
  split at h
  · next hm =>
    exact Nat.lt_of_le_of_lt (matchWith_reaches hr _ h).length_le (hp _ _ _ _ _ _ hr hm)
  · cases h

theorem Consumes.bind_right {α β : Type} (p : Production α) {k : α → Production β}
    (hk : ∀ a, (k a).Consumes) : Consumes (p >>= k) := by
  intro callee c d r r' value hr h
  change (Production.bind p k).matchWith callee c r = _ at h
  simp only [matchWith] at h
  split at h
  · next hm =>
    exact Nat.lt_of_lt_of_le (hk _ _ _ _ _ _ _ hr h) (matchWith_reaches hr _ hm).length_le
  · cases h

theorem Guarded.bind_consumes {α β : Type} {p : Production α} (hg : p.Guarded) (hp : p.Consumes)
    (k : α → Production β) : Guarded (p >>= k) := by
  intro callee callee' c r hr h
  change (Production.bind p k).matchWith callee c r = (Production.bind p k).matchWith callee' c r
  simp only [matchWith, ← hg callee callee' c r hr h]
  split
  · next hm => exact matchWith_congr hr h _ (hp _ _ _ _ _ _ hr hm)
  · rfl

theorem Guarded.bind {α β : Type} {p : Production α} {k : α → Production β} (hg : p.Guarded)
    (hk : ∀ a, (k a).Guarded) : Guarded (p >>= k) := by
  intro callee callee' c r hr h
  change (Production.bind p k).matchWith callee c r = (Production.bind p k).matchWith callee' c r
  simp only [matchWith, ← hg callee callee' c r hr h]
  split
  · next hm =>
    have hle := (matchWith_reaches hr _ hm).length_le
    exact hk _ _ _ _ _ hr fun m d s hd => h m d s (Nat.lt_of_lt_of_le hd hle)
  · rfl

theorem consumes_takeOr (t : Terminal) (e : Expectation) : (takeOr t e).Consumes := by
  intro callee c d r r' value hr h
  change (Production.bind (take t) _).matchWith callee c r = _ at h
  simp only [matchWith, Reply.optional] at h
  cases ht : c.take? t with
  | none => rw [ht] at h; cases h
  | some found =>
    rw [ht] at h
    cases h
    exact (Cursor.reaches_of_take? ht).2

theorem guarded_takeOr (t : Terminal) (e : Expectation) : (takeOr t e).Guarded := by
  refine Guarded.bind (fun _ _ _ _ _ _ => rfl) fun found => ?_
  cases found <;> exact fun _ _ _ _ _ _ => rfl

theorem guarded_comments : comments.Guarded := fun _ _ _ _ _ _ => rfl

theorem guarded_braces {α : Type} (item : Production (Option (BodyItem α))) :
    (braces item).Guarded :=
  (guarded_takeOr _ _).bind_consumes (consumes_takeOr _ _) _

theorem consumes_braces {α : Type} (item : Production (Option (BodyItem α))) :
    (braces item).Consumes :=
  (consumes_takeOr _ _).bind_left _

theorem guarded_aggregate : aggregate.Guarded :=
  (guarded_braces _).bind_consumes (consumes_braces _) _

theorem guarded_message : message.Guarded :=
  guarded_comments.bind fun _ => (guarded_takeOr _ _).bind_consumes (consumes_takeOr _ _) _

end Production

/-- The production of a nested construct refers to another one only after it has passed a lexeme. -/
theorem Nonterminal.guarded_production (n : Nonterminal) : n.production.Guarded := by
  cases n with
  | aggregate => exact Production.guarded_aggregate
  | message => exact Production.guarded_message

/-- A nested construct is matched as its production. -/
theorem Nonterminal.matches_eq_run (n : Nonterminal) (c : Cursor) (r : Report) :
    n.matches c r = n.production.run c r := by
  rw [Nonterminal.matches, Production.run]
  refine (n.guarded_production _ _ c r matches_reaches fun m d s hd => ?_).symm
  rw [if_pos hd]

end ProtoSchema
