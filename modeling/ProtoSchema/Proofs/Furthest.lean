import ProtoSchema.Proofs.Nested

/-
  How far a match goes. The place of a reply is where it ends: at the next lexeme after a match, or
  at the furthest place noted. `matches_onward`: no reply ends before the place where it starts, and
  no report goes back. So what a failed match did on its way lies within the place that it reports.
-/

namespace ProtoSchema

/-! ## Places -/

namespace Cursor

theorem index_le_significant (c : Cursor) : c.index ≤ c.significant.index :=
  Nat.le_add_right _ _

theorem significant_of_comment {i : Nat} {l : Lexeme} {rest : List Lexeme}
    (h : l.token.isComment = true) : significant ⟨i, l :: rest⟩ = significant ⟨i + 1, rest⟩ := by
  simp only [significant, List.takeWhile_cons, h, if_true, List.length_cons, List.drop_succ_cons,
    Cursor.mk.injEq, and_true]
  omega

theorem significant_of_token {i : Nat} {l : Lexeme} {rest : List Lexeme}
    (h : l.token.isComment = false) : significant ⟨i, l :: rest⟩ = ⟨i, l :: rest⟩ := by
  simp [significant, h]

theorem Reaches.significant_le {c d : Cursor} (h : c.Reaches d) :
    c.significant.index ≤ d.significant.index := by
  obtain ⟨passed, hrest, hindex⟩ := h
  simp only [significant]
  rw [hrest, hindex, List.takeWhile_append]
  split
  · rw [List.length_append]
    omega
  · have hle := (List.takeWhile_prefix (l := passed) (·.token.isComment)).length_le
    omega

theorem shorter_of_comment? {c d : Cursor} {v : Comment} (h : c.comment? = some (v, d)) :
    d.rest.length < c.rest.length := by
  unfold comment? at h
  split at h
  · next heq => cases h; rw [heq]; exact Nat.lt_succ_self _
  · next heq => cases h; rw [heq]; exact Nat.lt_succ_self _
  · cases h

theorem significant_lt_of_take? {c d : Cursor} {t : Terminal} {v : t.Result}
    (h : c.take? t = some (v, d)) : c.significant.index < d.significant.index := by
  obtain ⟨l, -, -, hi⟩ := take?_eq_some.1 h
  have hle := d.index_le_significant
  omega

end Cursor

theorem Report.furthest_note (r : Report) (i : Nat) (e : Expectation) :
    (r.note i e).furthest = max r.furthest i := by
  unfold note
  split
  · show i = max r.furthest i
    omega
  · split
    · omega
    · show r.furthest = max r.furthest i
      omega

namespace Reply

variable {α β : Type}

/-- The report of a reply. -/
def report : Reply α → Report
  | done _ _ r => r
  | failed r => r

/-- Where a reply ends: at the next lexeme after a match, or at the furthest place noted. -/
def place : Reply α → Nat
  | done _ d _ => d.significant.index
  | failed r => r.furthest

/-- A reply from `c` with the report `r` ends no earlier than it starts and goes on with `r`. -/
structure Onward (reply : Reply α) (c : Cursor) (r : Report) : Prop where
  place_le : c.significant.index ≤ reply.place
  report_le : r.furthest ≤ reply.report.furthest

/-- A reply that ends at the place `limit` or before, and all of whose notes are made there or
before. -/
structure Within (reply : Reply α) (limit : Nat) : Prop where
  place_le : reply.place ≤ limit
  report_le : reply.report.furthest ≤ limit

@[simp] theorem report_map (f : α → β) (reply : Reply α) :
    (reply.map f).report = reply.report := by
  cases reply <;> rfl

@[simp] theorem place_map (f : α → β) (reply : Reply α) : (reply.map f).place = reply.place := by
  cases reply <;> rfl

theorem Onward.refl (v : α) (c : Cursor) (r : Report) : (done v c r).Onward c r :=
  ⟨Nat.le_refl _, Nat.le_refl _⟩

theorem Onward.trans {v : α} {c d : Cursor} {r r' : Report} {reply : Reply β}
    (h : (done v d r').Onward c r) (h' : reply.Onward d r') : reply.Onward c r :=
  ⟨Nat.le_trans h.place_le h'.place_le, Nat.le_trans h.report_le h'.report_le⟩

/-- What comes before a reply that stays within a limit stays within it too. -/
theorem Within.of_onward {v : α} {d : Cursor} {r : Report} {reply : Reply β} {limit : Nat}
    (h : reply.Within limit) (h' : reply.Onward d r) : (done v d r).Within limit :=
  ⟨Nat.le_trans h'.place_le h.place_le, Nat.le_trans h'.report_le h.report_le⟩

theorem onward_map {f : α → β} {reply : Reply α} {c : Cursor} {r : Report}
    (h : reply.Onward c r) : (reply.map f).Onward c r := by
  cases reply <;> exact ⟨h.place_le, h.report_le⟩

theorem onward_optional {found : Option (α × Cursor)} {c : Cursor} {r : Report}
    (h : ∀ v d, found = some (v, d) → c.Reaches d) : (optional found c r).Onward c r := by
  cases found with
  | none => exact .refl _ _ _
  | some w => exact ⟨(h w.1 w.2 rfl).significant_le, Nat.le_refl _⟩

end Reply

/-! ## Matching goes onward -/

/-- A reply for a nested construct that goes onward, and past the brace of an aggregate. -/
structure Nonterminal.Onward (n : Nonterminal) (c : Cursor) (r : Report)
    (reply : Reply n.Result) : Prop where
  onward : reply.Onward c r
  brace : n = .aggregate → (c.take? (.punct .leftBrace)).isSome → c.significant.index < reply.place

/-- A way to match nested constructs that only goes onward. -/
structure Callee.Onward (callee : Callee) : Prop where
  reaches : callee.Reaches
  onward : callee.Always Nonterminal.Onward

theorem matchLoop_onward {α : Type} {step : Cursor → Report → Reply (Option α)}
    (hstep : ∀ c r, (step c r).Onward c r) (c : Cursor) (r : Report) :
    (matchLoop step c r).Onward c r := by
  have hdone {c r v d r'} (h : step c r = .done v d r') : (Reply.done v d r').Onward c r :=
    h ▸ hstep c r
  fun_induction matchLoop step c r with
  | case1 c r r' hs => exact ⟨(hs ▸ hstep c r).place_le, (hs ▸ hstep c r).report_le⟩
  | case2 c r d r' hs => exact ⟨(hdone hs).place_le, (hdone hs).report_le⟩
  | case3 c r v d r' hs hlt ih => exact Reply.onward_map ((hdone hs).trans ih)
  | case4 c r v d r' hs hlt => exact ⟨Nat.le_refl _, (hdone hs).report_le⟩

namespace Production

variable {α β : Type}

theorem matchWith_bind (callee : Callee) (p : Production α) (k : α → Production β) (c : Cursor)
    (r : Report) : (p >>= k).matchWith callee c r =
      match p.matchWith callee c r with
      | .done v d r' => (k v).matchWith callee d r'
      | .failed r' => .failed r' := by
  change (Production.bind p k).matchWith callee c r = _
  cases h : p.matchWith callee c r with
  | done v d r' => rw [matchWith, h]
  | failed r' => rw [matchWith, h]

theorem matchWith_onward {callee : Callee} (hc : callee.Onward) (p : Production α) (c : Cursor)
    (r : Report) : (p.matchWith callee c r).Onward c r := by
  induction p generalizing c r with
  | pure v => exact .refl v c r
  | bind p k ihp ihk =>
    have hp := ihp c r
    simp only [matchWith]
    cases hm : p.matchWith callee c r with
    | failed r' => rw [hm] at hp; exact ⟨hp.place_le, hp.report_le⟩
    | done v d r' => rw [hm] at hp; exact hp.trans (ihk v d r')
  | sees t => exact .refl _ c r
  | take t => exact Reply.onward_optional fun _ _ h => (Cursor.reaches_of_take? h).1
  | comment => exact Reply.onward_optional fun _ _ h => Cursor.reaches_of_comment? h
  | trailing => exact Reply.onward_optional fun _ _ h => Cursor.reaches_of_trailing? h
  | fail e =>
    have hf := r.furthest_note c.significant.index e
    constructor
    · show c.significant.index ≤ (r.note c.significant.index e).furthest
      omega
    · show r.furthest ≤ (r.note c.significant.index e).furthest
      omega
  | orElse p q ihp ihq =>
    have hp := ihp c r
    simp only [matchWith]
    cases hm : p.matchWith callee c r with
    | done v d r' => rwa [hm] at hp
    | failed r' =>
      rw [hm] at hp
      exact ⟨(ihq c r').place_le, Nat.le_trans hp.report_le (ihq c r').report_le⟩
  | loop p ih => exact matchLoop_onward ih c r
  | call n => exact (hc.onward n c r).onward

/-- A production that, where a `t` stands next, goes past it. -/
def Starts (t : Terminal) (p : Production α) : Prop :=
  ∀ callee : Callee, callee.Onward → ∀ c r, (c.take? t).isSome →
    c.significant.index < (p.matchWith callee c r).place

theorem Starts.bind {t : Terminal} {p : Production α} (h : p.Starts t) (k : α → Production β) :
    Starts t (p >>= k) := by
  intro callee hc c r ht
  have hp := h callee hc c r ht
  rw [matchWith_bind]
  cases hm : p.matchWith callee c r with
  | failed r' => rwa [hm] at hp
  | done v d r' =>
    rw [hm] at hp
    exact Nat.lt_of_lt_of_le hp (matchWith_onward hc (k v) d r').place_le

theorem starts_takeOr {t t' : Terminal} {e : Expectation}
    (h : ∀ l, (t.read? l).isSome → (t'.read? l).isSome) : (takeOr t' e).Starts t := by
  intro callee hc c r ht
  obtain ⟨⟨v, d⟩, hv⟩ := Option.isSome_iff_exists.1 ht
  obtain ⟨l, hl, hread, hi⟩ := Cursor.take?_eq_some.1 hv
  obtain ⟨w, hw⟩ := Option.isSome_iff_exists.1 (h l (by rw [hread]; rfl))
  have htake : c.take? t' = some (w, d) := Cursor.take?_eq_some.2 ⟨l, hl, hw, hi⟩
  have hm : (takeOr t' e).matchWith callee c r = .done w d r := by
    rw [takeOr, matchWith_bind, matchWith, htake]
    rfl
  rw [hm]
  exact Cursor.significant_lt_of_take? htake

theorem starts_expect (t : Terminal) : (expect t).Starts t :=
  starts_takeOr fun _ h => h

theorem starts_aggregate : aggregate.Starts (.punct .leftBrace) :=
  ((starts_expect _).bind _).bind _

theorem starts_call : (call .aggregate).Starts (.punct .leftBrace) :=
  fun _ hc c r h => (hc.onward .aggregate c r).brace rfl h

end Production

/-- One level of a nested construct goes onward if those inside it do. -/
theorem Nonterminal.onward_production {callee : Callee} (hc : callee.Onward) (n : Nonterminal)
    (c : Cursor) (r : Report) : n.Onward c r (n.production.matchWith callee c r) := by
  refine ⟨Production.matchWith_onward hc _ c r, ?_⟩
  rintro rfl hb
  exact Production.starts_aggregate callee hc c r hb

/-- A way to fail beyond any place, which goes onward. -/
def Callee.beyond (limit : Nat) : Callee :=
  fun _ c r => .failed ⟨r.furthest + c.significant.index + limit + 1, []⟩

theorem Callee.reaches_beyond (limit : Nat) : (beyond limit).Reaches :=
  fun _ _ _ _ _ _ h => nomatch h

theorem Callee.onward_beyond (limit : Nat) : (beyond limit).Onward := by
  refine ⟨reaches_beyond limit, fun n c r => ⟨⟨?_, ?_⟩, fun _ _ => ?_⟩⟩
  all_goals
    simp only [beyond, Reply.place, Reply.report]
    omega

theorem Callee.not_within_beyond {limit : Nat} (n : Nonterminal) (c : Cursor) (r : Report) :
    ¬ (beyond limit n c r).Within limit := by
  intro h
  have hle := h.place_le
  simp only [beyond, Reply.place] at hle
  omega

/-- Nested constructs are matched onward. -/
theorem Nonterminal.matches_onward : Callee.Onward Nonterminal.matches := by
  refine ⟨Nonterminal.matches_reaches, ?_⟩
  refine Nonterminal.matches_induct (Callee.beyond 0) (Callee.reaches_beyond 0)
    (Callee.onward_beyond 0).onward ?_
  intro callee hreaches halways n c r
  exact Nonterminal.onward_production ⟨hreaches, halways⟩ n c r

theorem Production.run_onward {α : Type} (p : Production α) (c : Cursor) (r : Report) :
    (p.run c r).Onward c r :=
  matchWith_onward Nonterminal.matches_onward p c r

/-! ## Where a file ends -/

theorem matchLoop_settles {α : Type} {step : Cursor → Report → Reply (Option α)}
    (hnone : ∀ c r d r', step c r = .done none d r' → d.significant.index ≤ r'.furthest)
    (hsome : ∀ c r v d r', step c r = .done (some v) d r' → d.rest.length < c.rest.length)
    (c : Cursor) (r : Report) :
    (matchLoop step c r).place ≤ (matchLoop step c r).report.furthest := by
  fun_induction matchLoop step c r with
  | case1 c r r' hs => exact Nat.le_refl _
  | case2 c r d r' hs => exact hnone c r d r' hs
  | case3 c r v d r' hs hlt ih => rwa [Reply.place_map, Reply.report_map]
  | case4 c r v d r' hs hlt => exact absurd (hsome c r v d r' hs) hlt

namespace Production

variable {α β : Type}

/-- A production of the grammar that, when it matches, passes at least one lexeme. -/
def Passes (p : Production α) : Prop :=
  ∀ c r v d r', p.run c r = .done v d r' → d.rest.length < c.rest.length

theorem Consumes.passes {p : Production α} (h : p.Consumes) : p.Passes :=
  fun c r v d r' hm => h _ c d r r' v Nonterminal.matches_reaches hm

theorem Passes.giving {p : Production α} (h : p.Passes) (f : α → β) :
    Passes (do return f (← p)) := by
  intro c r v d r' hm
  rw [run, matchWith_bind] at hm
  cases hp : p.matchWith Nonterminal.matches c r with
  | failed s => rw [hp] at hm; cases hm
  | done w e s => rw [hp] at hm; cases hm; exact h c r _ _ _ hp

theorem Passes.orElse {p q : Production α} (hp : p.Passes) (hq : q.Passes) :
    Passes (p <|> q) := by
  intro c r v d r' hm
  change (Production.orElse p q).matchWith _ c r = _ at hm
  simp only [matchWith] at hm
  cases hm' : p.matchWith Nonterminal.matches c r with
  | done w e s => rw [hm'] at hm; cases hm; exact hp c r _ _ _ hm'
  | failed s => rw [hm'] at hm; exact hq c s v d r' hm

/-- A declaration with its comments, which starts with a keyword. -/
theorem passes_declaration {k : Keyword} (q : List Comment → Span → Production α) :
    Passes (do
      let leading ← comments
      let first ← keyword k
      q leading first) :=
  Consumes.passes (.bind_right _ fun _ => (consumes_takeOr _ _).bind_left _)

theorem passes_message : (call .message).Passes := by
  intro c r v d r' hm
  have heq : Nonterminal.message.matches c r = .done v d r' := hm
  rw [Nonterminal.matches_eq_run] at heq
  exact passes_declaration _ c r v d r' heq

theorem passes_fileItem : fileItem.Passes := by
  refine .orElse ((passes_declaration _).giving _) (.orElse (passes_declaration _) ?_)
  refine .orElse ((passes_declaration _).giving _) (.orElse (passes_message.giving _) ?_)
  refine .orElse ((passes_declaration _).giving _) (.orElse ((passes_declaration _).giving _) ?_)
  exact (passes_declaration _).giving _

theorem passes_commentOrStray : (commentOrStray (α := α)).Passes := by
  intro c r v d r' hm
  rw [run, commentOrStray, matchWith_bind, matchWith] at hm
  cases hf : c.comment? with
  | some found =>
    rw [hf] at hm
    cases hm
    exact Cursor.shorter_of_comment? (show c.comment? = some (found.1, found.2) from hf)
  | none =>
    rw [hf] at hm
    exact (consumes_takeOr _ _).bind_left _ _ _ _ _ _ _ Nonterminal.matches_reaches hm

/-- An item of a body is a declaration or else a comment or a stray semicolon; there is none only
where neither matches. -/
theorem bodyItem_cases {decl : Production α} {c d : Cursor} {r r' : Report}
    {v : Option (BodyItem α)} (hm : (bodyItem decl).run c r = .done v d r') :
    (∃ w, v = some (.decl w) ∧ decl.run c r = .done w d r') ∨
    (∃ i s, v = some i ∧ (commentOrStray (α := α)).run c s = .done i d r') ∨
    (v = none ∧ d = c ∧
      ∃ s, decl.run c r = .failed s ∧ (commentOrStray (α := α)).run c s = .failed r') := by
  change (Production.orElse _ (.orElse _ (.pure none))).matchWith _ c r = _ at hm
  simp only [matchWith, matchWith_bind] at hm
  simp only [run]
  cases hdecl : decl.matchWith Nonterminal.matches c r with
  | done w e s =>
    rw [hdecl] at hm
    cases hm
    exact .inl ⟨w, rfl, rfl⟩
  | failed s =>
    rw [hdecl] at hm
    dsimp only at hm
    cases hstray : (commentOrStray (α := α)).matchWith Nonterminal.matches c s with
    | done i e s' =>
      rw [hstray] at hm
      cases hm
      exact .inr (.inl ⟨i, s, rfl, hstray⟩)
    | failed s' =>
      rw [hstray] at hm
      cases hm
      exact .inr (.inr ⟨rfl, rfl, s, rfl, hstray⟩)

/-- A statement at the top level of a file, or what may stand between two, passes a lexeme. -/
theorem shorter_of_bodyItem {c d : Cursor} {r r' : Report} {v : BodyItem FileItem}
    (hm : (bodyItem fileItem).run c r = .done (some v) d r') : d.rest.length < c.rest.length := by
  rcases bodyItem_cases hm with ⟨w, -, hw⟩ | ⟨i, s, -, hi⟩ | ⟨hv, -⟩
  · exact passes_fileItem c r w d r' hw
  · exact passes_commentOrStray c s i d r' hi
  · cases hv

/-- A file is its version statement and then a loop. -/
theorem run_file {c d : Cursor} {r s : Report} {version : SyntaxDecl}
    (h : syntaxDecl.run c r = .done version d s) : file.run c r =
      ((loop (bodyItem fileItem)).run d s).map fun items => (version, Body.ofItems [] items) := by
  rw [run] at h
  rw [run, file, matchWith_bind, h]
  dsimp only
  rw [matchWith_bind]
  cases hm : (loop (bodyItem fileItem)).matchWith Nonterminal.matches d s <;> rw [run, hm] <;> rfl

/-- Where a file ends, something was missing, if only a semicolon. -/
theorem file_settles (c : Cursor) (r : Report) :
    (file.run c r).place ≤ (file.run c r).report.furthest := by
  have hnone (c : Cursor) (r : Report) (d : Cursor) (r' : Report)
      (hm : (bodyItem fileItem).run c r = .done none d r') : d.significant.index ≤ r'.furthest := by
    rcases bodyItem_cases hm with ⟨w, hv, -⟩ | ⟨i, s, hv, -⟩ | ⟨-, rfl, s, -, hs⟩
    · cases hv
    · cases hv
    · have hplace := ((commentOrStray (α := FileItem)).run_onward d s).place_le
      rwa [hs] at hplace
  cases hm : syntaxDecl.run c r with
  | failed s =>
    rw [run] at hm
    rw [run, file, matchWith_bind, hm]
    exact Nat.le_refl _
  | done version d s =>
    rw [run_file hm, Reply.place_map, Reply.report_map]
    exact matchLoop_settles hnone (fun _ _ _ _ _ => shorter_of_bodyItem) d s

end Production

end ProtoSchema
