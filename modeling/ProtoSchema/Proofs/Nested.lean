import ProtoSchema.Grammar.Progress

/-
  Induction over nested constructs. `Nonterminal.matches_induct`: what one level of a construct
  does, provided that the constructs inside it do, the whole construct does. Every property of all
  matches is proved through it, with one lemma for each rule of a production.
-/

namespace ProtoSchema

/-- A way to match nested constructs all of whose replies are `P`. -/
def Callee.Always (P : (n : Nonterminal) → Cursor → Report → Reply n.Result → Prop)
    (callee : Callee) : Prop :=
  ∀ n c r, P n c r (callee n c r)

/-- A property of the replies of nested constructs, proved one level at a time. The `fallback`
stands in for the constructs that do not start further on than the one around them; there are none,
so any callee with the property will do. -/
theorem Nonterminal.matches_induct
    {P : (n : Nonterminal) → Cursor → Report → Reply n.Result → Prop} (fallback : Callee)
    (hreaches : fallback.Reaches) (hfallback : fallback.Always P)
    (level : ∀ callee : Callee, callee.Reaches → callee.Always P →
      ∀ n c r, P n c r (n.production.matchWith callee c r)) :
    Callee.Always P Nonterminal.matches := by
  intro n c r
  induction hk : c.rest.length using Nat.strongRecOn generalizing n c r with
  | ind k ih =>
    let callee : Callee := fun m d s =>
      if d.rest.length < k then m.matches d s else fallback m d s
    have hcallee : callee.Reaches := by
      intro m d s v e s' h
      simp only [callee] at h
      split at h
      · exact matches_reaches _ _ _ _ _ _ h
      · exact hreaches _ _ _ _ _ _ h
    have halways : callee.Always P := by
      intro m d s
      simp only [callee]
      split
      · next hlt => exact ih _ hlt m d s rfl
      · exact hfallback m d s
    have heq : n.matches c r = n.production.matchWith callee c r := by
      rw [n.matches_eq_run, Production.run]
      refine n.guarded_production _ _ c r matches_reaches fun m d s hd => ?_
      simp only [callee]
      rw [if_pos (hk ▸ hd)]
    rw [heq]
    exact level callee hcallee halways n c r

/-- Looking at the next lexeme decides how to go on, and passes nothing. -/
theorem Production.matchWith_ifSees (callee : Callee) {α : Type} (t : Terminal) (p q : Production α)
    (c : Cursor) (r : Report) :
    (sees t >>= fun b => if b = true then p else q).matchWith callee c r =
      if (c.take? t).isSome then p.matchWith callee c r else q.matchWith callee c r := by
  change (if (c.take? t).isSome = true then p else q).matchWith callee c r = _
  cases (c.take? t).isSome <;> rfl

/-- A sequence that matches is its first part and then its second part, which both match. -/
theorem Production.matchWith_bind_done {callee : Callee} {α β : Type} {p : Production α}
    {k : α → Production β} {c d : Cursor} {r r' : Report} {v : β}
    (h : (p >>= k).matchWith callee c r = .done v d r') :
    ∃ a e s, p.matchWith callee c r = .done a e s ∧ (k a).matchWith callee e s = .done v d r' := by
  change (Production.bind p k).matchWith callee c r = _ at h
  simp only [matchWith] at h
  split at h
  · next a e s hm => exact ⟨a, e, s, hm, h⟩
  · cases h

/-- A lexeme that has to stand next and does. -/
theorem Production.take?_of_takeOr {callee : Callee} {t : Terminal} {e : Expectation}
    {c d : Cursor} {r r' : Report} {v : t.Result}
    (h : (takeOr t e).matchWith callee c r = .done v d r') : c.take? t = some (v, d) ∧ r' = r := by
  obtain ⟨found, f, s, htake, h⟩ := matchWith_bind_done h
  rw [matchWith] at htake
  cases ht : c.take? t with
  | none => rw [ht] at htake; cases htake; cases h
  | some next => rw [ht] at htake; cases htake; cases h; exact ⟨rfl, rfl⟩

end ProtoSchema
