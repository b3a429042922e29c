import ProtoSchema.Proofs.Acceptance

/-
  Courses. The course of a match is what happens on the way: each lexeme that is missing, with its
  place and in order, what the production gives, if it matches, and where it ends or gives up. It
  is followed without any report. Neither is there anything that ends a loop which stays where it
  is or a construct that is nested in itself at the same place: such a course has no end, and uses
  up any budget of turns. `Advances.foretold`: a production whose loops move on at every turn has a
  course, and is matched as the course says, whatever the report before it.
-/

namespace ProtoSchema

variable {α β : Type}

/-- A lexeme at which something was missing. -/
structure Miss where
  index : Nat
  expected : Expectation
  deriving DecidableEq

/-- The report with one note for each of the misses. -/
def Report.noteAll (r : Report) (misses : List Miss) : Report :=
  misses.foldl (fun r m => r.note m.index m.expected) r

/-- What happens when a production is matched: what is missing on the way, what it gives, if it
matches, and where it ends or gives up. -/
structure Course (α : Type) where
  misses : List Miss
  value : Option α
  cursor : Cursor

namespace Course

/-- Nothing is missing, and the course ends with `v` at `c`. -/
def done (v : α) (c : Cursor) : Course α := ⟨[], some v, c⟩

/-- The course for a lexeme that may or may not stand at `c`. -/
def optional (found : Option (α × Cursor)) (c : Cursor) : Course (Option α) :=
  match found with
  | some (v, after) => done (some v) after
  | none => done none c

/-- The course with what it gives changed. -/
def map (f : α → β) (course : Course α) : Course β :=
  ⟨course.misses, course.value.map f, course.cursor⟩

/-- The course that goes on as `k` says with what the first one gives. -/
def bind? (first : Course α) (k : α → Cursor → Option (Course β)) : Option (Course β) :=
  match first.value with
  | some v => (k v first.cursor).map fun second =>
      ⟨first.misses ++ second.misses, second.value, second.cursor⟩
  | none => some ⟨first.misses, none, first.cursor⟩

/-- The first course, if it gives something, or else the second one. Both start at `c`, and where
both fail, this is the place where they end. -/
def orElse? (first : Course α) (c : Cursor) (second? : Cursor → Option (Course α)) :
    Option (Course α) :=
  match first.value with
  | some _ => some first
  | none => (second? c).map fun second =>
      ⟨first.misses ++ second.misses, second.value,
        if second.value.isSome then second.cursor else c⟩

/-- The reply to a production that has the course, after a report. -/
def reply (course : Course α) (r : Report) : Reply α :=
  match course.value with
  | some v => .done v course.cursor (r.noteAll course.misses)
  | none => .failed (r.noteAll course.misses)

end Course

/-! ## Following a production -/

/-- The course of a loop with at most `turns` turns. Nothing but a step that gives nothing ends it
before. -/
def loopCourse? (step? : Cursor → Option (Course (Option α))) :
    Nat → Cursor → Option (Course (List α))
  | 0, _ => none
  | turns + 1, c => (step? c).bind fun first => first.bind? fun
    | none, d => some (.done [] d)
    | some v, d => (loopCourse? step? turns d).map (Course.map (v :: ·))

/-- The course of a production, given those of the nested constructs, with at most `turns` turns of
each loop. -/
def Production.courseWith? (callee? : (n : Nonterminal) → Cursor → Option (Course n.Result))
    (turns : Nat) {α : Type} : Production α → Cursor → Option (Course α)
  | pure v, c => some (.done v c)
  | bind p k, c => (p.courseWith? callee? turns c).bind fun first =>
      first.bind? fun v => (k v).courseWith? callee? turns
  | sees t, c => some (.done (c.take? t).isSome c)
  | take t, c => some (.optional (c.take? t) c)
  | comment, c => some (.optional c.comment? c)
  | trailing, c => some (.optional c.trailing? c)
  | fail e, c => some ⟨[⟨c.significant.index, e⟩], none, c⟩
  | orElse p q, c => (p.courseWith? callee? turns c).bind fun first =>
      first.orElse? c (q.courseWith? callee? turns)
  | loop p, c => loopCourse? (p.courseWith? callee? turns) turns c
  | call n, c => callee? n c

/-- The course of a nested construct, with at most `budget` levels and at most as many turns of each
loop. -/
def Nonterminal.course? : Nat → (n : Nonterminal) → Cursor → Option (Course n.Result)
  | 0, _, _ => none
  | budget + 1, n, c => n.production.courseWith? (Nonterminal.course? budget) (budget + 1) c

/-- The course of a production, with at most `budget` levels of nested constructs and at most as
many turns of each loop. -/
def Production.course? (budget : Nat) (p : Production α) (c : Cursor) : Option (Course α) :=
  p.courseWith? (Nonterminal.course? budget) budget c

/-! ## Courses and replies -/

/-- The course of a match from `c`: it ends at `c` or further on, and after any report the reply is
that of the course. -/
structure Course.Foretells (course : Course α) (c : Cursor) (replies : Report → Reply α) :
    Prop where
  reaches : c.Reaches course.cursor
  reply_eq : ∀ r, replies r = course.reply r

/-- From places with fewer than `bound` lexemes left, the production has a course and is matched as
the course says. -/
def Production.Foretold (callee? : (n : Nonterminal) → Cursor → Option (Course n.Result))
    (turns bound : Nat) (p : Production α) : Prop :=
  ∀ c, c.rest.length < bound →
    ∃ course, p.courseWith? callee? turns c = some course ∧ course.Foretells c (p.run c)

theorem Report.noteAll_append (r : Report) (a b : List Miss) :
    r.noteAll (a ++ b) = (r.noteAll a).noteAll b :=
  List.foldl_append

namespace Course

theorem reply_map (f : α → β) (course : Course α) (r : Report) :
    (course.map f).reply r = (course.reply r).map f := by
  obtain ⟨misses, value, d⟩ := course
  cases value <;> rfl

/-- The reply to a course that goes on with another one is that of the other one. -/
theorem reply_append (misses : List Miss) (course : Course α) (r : Report) :
    reply ⟨misses ++ course.misses, course.value, course.cursor⟩ r =
      course.reply (r.noteAll misses) := by
  unfold reply
  rw [Report.noteAll_append]

theorem reply_optional (found : Option (α × Cursor)) (c : Cursor) (r : Report) :
    (optional found c).reply r = .optional found c r := by
  cases found <;> rfl

theorem foretells_optional {found : Option (α × Cursor)} {c : Cursor}
    (h : ∀ v d, found = some (v, d) → c.Reaches d) :
    (optional found c).Foretells c (.optional found c) := by
  refine ⟨?_, fun r => (reply_optional found c r).symm⟩
  cases found with
  | none => exact .refl c
  | some next => exact h _ _ rfl

/-- A course that gives `v` is that of a match with this value. -/
theorem Foretells.run_eq {course : Course α} {c : Cursor} {replies : Report → Reply α}
    (h : course.Foretells c replies) {v : α} (hv : course.value = some v) (r : Report) :
    replies r = .done v course.cursor (r.noteAll course.misses) := by
  rw [h.reply_eq, reply, hv]

theorem Foretells.run_eq_failed {course : Course α} {c : Cursor} {replies : Report → Reply α}
    (h : course.Foretells c replies) (hv : course.value = none) (r : Report) :
    replies r = .failed (r.noteAll course.misses) := by
  rw [h.reply_eq, reply, hv]

end Course

namespace Production

theorem run_bind (p : Production α) (k : α → Production β) (c : Cursor) (r : Report) :
    (p >>= k).run c r =
      match p.run c r with
      | .done v d r' => (k v).run d r'
      | .failed r' => .failed r' :=
  matchWith_bind Nonterminal.matches p k c r

/-- A production that, when it gives something, passes at least one lexeme. -/
def Moves (p : Production (Option α)) : Prop :=
  ∀ c r v d r', p.run c r = .done (some v) d r' → d.rest.length < c.rest.length

section Foretold

variable {callee? : (n : Nonterminal) → Cursor → Option (Course n.Result)} {turns bound : Nat}

theorem foretold_optional {find : Cursor → Option (α × Cursor)} {p : Production (Option α)}
    (hcourse : ∀ c, p.courseWith? callee? turns c = some (.optional (find c) c))
    (hrun : ∀ c r, p.run c r = .optional (find c) c r)
    (hfind : ∀ c v d, find c = some (v, d) → c.Reaches d) : p.Foretold callee? turns bound := by
  intro c _
  obtain ⟨hreaches, hreply⟩ := Course.foretells_optional (hfind c)
  exact ⟨_, hcourse c, hreaches, fun r => (hrun c r).trans (hreply r)⟩

/-- A production goes on from a place with fewer than `bound'` lexemes left, and from there as
foretold. -/
theorem foretold_bind_of {p : Production α} {k : α → Production β} {c : Cursor} {bound' : Nat}
    {first : Course α} (hfirst : p.courseWith? callee? turns c = some first)
    (h : first.Foretells c (p.run c)) (hk : ∀ v, (k v).Foretold callee? turns bound')
    (hbound : ∀ v, first.value = some v → first.cursor.rest.length < bound') :
    ∃ course, (p >>= k).courseWith? callee? turns c = some course ∧
      course.Foretells c ((p >>= k).run c) := by
  have hcourse : (p >>= k).courseWith? callee? turns c =
      first.bind? fun v => (k v).courseWith? callee? turns := by
    change (Production.bind p k).courseWith? callee? turns c = _
    rw [courseWith?, hfirst]
    rfl
  rw [hcourse]
  cases hv : first.value with
  | none =>
    refine ⟨⟨first.misses, none, first.cursor⟩, by rw [Course.bind?, hv], h.reaches, fun r => ?_⟩
    rw [run_bind, h.run_eq_failed hv]
    rfl
  | some v =>
    obtain ⟨second, hsecond, h'⟩ := hk v first.cursor (hbound v hv)
    refine ⟨⟨first.misses ++ second.misses, second.value, second.cursor⟩, ?_,
      h.reaches.trans h'.reaches, fun r => ?_⟩
    · rw [Course.bind?, hv]
      dsimp only
      rw [hsecond]
      rfl
    · rw [run_bind, h.run_eq hv, Course.reply_append]
      exact h'.reply_eq _

theorem Foretold.bind {p : Production α} {k : α → Production β}
    (hp : p.Foretold callee? turns bound) (hk : ∀ v, (k v).Foretold callee? turns bound) :
    (p >>= k).Foretold callee? turns bound := by
  intro c hc
  obtain ⟨first, hfirst, h⟩ := hp c hc
  exact foretold_bind_of hfirst h hk fun _ _ => Nat.lt_of_le_of_lt h.reaches.length_le hc

/-- Where the first part passes a lexeme, fewer of them are left for the second part. -/
theorem Foretold.passing {p : Production α} {k : α → Production β}
    (hp : p.Foretold callee? turns (bound + 1)) (hpasses : p.Passes)
    (hk : ∀ v, (k v).Foretold callee? turns bound) :
    (p >>= k).Foretold callee? turns (bound + 1) := by
  intro c hc
  obtain ⟨first, hfirst, h⟩ := hp c hc
  refine foretold_bind_of hfirst h hk fun v hv => ?_
  have hlt := hpasses c .start v _ _ (h.run_eq hv .start)
  omega

theorem Foretold.orElse {p q : Production α} (hp : p.Foretold callee? turns bound)
    (hq : q.Foretold callee? turns bound) : (p <|> q).Foretold callee? turns bound := by
  intro c hc
  obtain ⟨first, hfirst, h⟩ := hp c hc
  have hcourse : (p <|> q).courseWith? callee? turns c =
      first.orElse? c (q.courseWith? callee? turns) := by
    change (Production.orElse p q).courseWith? callee? turns c = _
    rw [courseWith?, hfirst]
    rfl
  rw [hcourse]
  cases hv : first.value with
  | some v =>
    refine ⟨first, by rw [Course.orElse?, hv], h.reaches, fun r => ?_⟩
    rw [run_orElse, h.run_eq hv]
    exact (h.run_eq hv r).symm.trans (h.reply_eq r)
  | none =>
    obtain ⟨second, hsecond, h'⟩ := hq c hc
    rw [Course.orElse?, hv, hsecond]
    refine ⟨_, rfl, ?_, fun r => ?_⟩
    · dsimp only
      split
      · exact h'.reaches
      · exact .refl c
    · rw [run_orElse, h.run_eq_failed hv]
      dsimp only
      rw [h'.reply_eq, Course.reply, Course.reply, Report.noteAll_append]
      cases second.value <;> rfl

/-- A loop that moves on at every turn takes no more turns than lexemes are left. -/
theorem Foretold.loop {p : Production (Option α)} (hp : p.Foretold callee? turns bound)
    (hmoves : p.Moves) (hbound : bound ≤ turns) :
    (Production.loop p).Foretold callee? turns bound := by
  suffices h : ∀ n c, c.rest.length < n → c.rest.length < bound →
      ∃ course, loopCourse? (p.courseWith? callee? turns) n c = some course ∧
        course.Foretells c (matchLoop p.run c) from
    fun c hc => h turns c (Nat.lt_of_lt_of_le hc hbound) hc
  intro n
  induction n with
  | zero => exact fun c hc => absurd hc (Nat.not_lt_zero _)
  | succ n ih =>
    intro c hn hc
    obtain ⟨first, hfirst, h⟩ := hp c hc
    rw [loopCourse?, hfirst, Option.bind_some, Course.bind?]
    cases hv : first.value with
    | none =>
      refine ⟨_, rfl, h.reaches, fun r => ?_⟩
      rw [matchLoop, h.run_eq_failed hv]
      rfl
    | some found =>
      cases found with
      | none =>
        refine ⟨_, rfl, h.reaches, fun r => ?_⟩
        rw [matchLoop, h.run_eq hv, Course.reply_append _ (.done [] first.cursor)]
        rfl
      | some v =>
        have hlt := hmoves c .start v _ _ (h.run_eq hv .start)
        obtain ⟨others, hothers, h'⟩ := ih first.cursor (by omega) (by omega)
        dsimp only
        rw [hothers]
        refine ⟨_, rfl, h.reaches.trans h'.reaches, fun r => ?_⟩
        rw [matchLoop, h.run_eq hv, Course.reply_append _ (others.map (v :: ·)),
          Course.reply_map]
        dsimp only
        rw [if_pos hlt, h'.reply_eq]

/-! ## Productions that move on -/

/-- Every loop in the production moves on at each turn. Only if `nested` does the production refer
to nested constructs. -/
def Advances (nested : Prop) : {α : Type} → Production α → Prop
  | _, .pure _ | _, .sees _ | _, .take _ | _, .comment | _, .trailing | _, .fail _ => True
  | _, .bind p k => p.Advances nested ∧ ∀ a, (k a).Advances nested
  | _, .orElse p q => p.Advances nested ∧ q.Advances nested
  | _, .loop p => p.Advances nested ∧ p.Moves
  | _, .call _ => nested

/-- A production that moves on is matched as its course says, if this is so of the nested
constructs. -/
theorem Advances.foretold {nested : Prop} {p : Production α} (h : p.Advances nested)
    (hbound : bound ≤ turns)
    (hcalls : nested → ∀ n, (call n).Foretold callee? turns bound) :
    p.Foretold callee? turns bound := by
  induction p with
  | pure v => exact fun c _ => ⟨_, rfl, .refl c, fun _ => rfl⟩
  | bind p k ihp ihk => exact (ihp h.1).bind fun v => ihk v (h.2 v)
  | sees t => exact fun c _ => ⟨_, rfl, .refl c, fun _ => rfl⟩
  | take t =>
    exact foretold_optional (fun _ => rfl) (fun _ _ => rfl) fun c v d hd =>
      (Cursor.reaches_of_take? hd).1
  | comment =>
    exact foretold_optional (fun _ => rfl) (fun _ _ => rfl) fun c v d hd =>
      Cursor.reaches_of_comment? hd
  | trailing =>
    exact foretold_optional (fun _ => rfl) (fun _ _ => rfl) fun c v d hd =>
      Cursor.reaches_of_trailing? hd
  | fail e => exact fun c _ => ⟨_, rfl, .refl c, fun _ => rfl⟩
  | orElse p q ihp ihq => exact (ihp h.1).orElse (ihq h.2)
  | loop p ih => exact (ih h.1).loop h.2 hbound
  | call n => exact hcalls h n

end Foretold

end Production

end ProtoSchema
