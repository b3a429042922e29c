import Mathlib.Data.List.Forall2
import ProtoSchema.Proofs.Furthest

/-
  The discipline of the grammar. `Alike` relates a production to itself up to the places of marks
  and keywords in what it gives, and says what makes its reports reliable: a lexeme that it looks at
  and recognises is passed right away, and it fails only where it has looked in vain for everything
  that it then says was missing. There is one lemma for each production of the grammar.
-/

namespace ProtoSchema

/-! ## What an expectation stands for -/

/-- The lexemes that a report means by an expectation. -/
def Expectation.Describes (e : Expectation) (l : Lexeme) : Prop :=
  match e with
  | punct p => l.token = .punct p
  | keyword k => l.token = .word (.keyword k) ∨ l.token = .word (.ident k.text)
  | identifier => ∃ w, l.token = .word w
  | identifierOrParen => (∃ w, l.token = .word w) ∨ l.token = .punct .leftParen
  | identifierOrBracket => (∃ w, l.token = .word w) ∨ l.token = .punct .leftBracket
  | constant => (∃ s, l.token = .string s) ∨ (∃ n, l.token = .int n) ∨ (∃ x, l.token = .float x) ∨
      ∃ w, l.token = .word w
  | integer => ∃ n, l.token = .int n
  | integerOrMax => (∃ n, l.token = .int n) ∨ l.token = .word (.keyword .maxKw) ∨
      l.token = .word (.ident Keyword.maxKw.text)
  | stringLiteral => ∃ s, l.token = .string s
  | bodyOrSemicolon => l.token = .punct .leftBrace ∨ l.token = .punct .semicolon

/-- Every lexeme that `e` stands for belongs to one of the classes `ts`. -/
def Expectation.CoveredBy (e : Expectation) (ts : List Terminal) : Prop :=
  ∀ l, e.Describes l → ∃ t ∈ ts, (t.read? l).isSome

namespace Terminal

theorem reads_punct {p : Punct} {l : Lexeme} (h : l.token = .punct p) :
    ((punct p).read? l).isSome :=
  Option.isSome_iff_exists.2 ⟨_, read?_punct.2 ⟨h, rfl⟩⟩

theorem reads_keyword {k : Keyword} {l : Lexeme}
    (h : l.token = .word (.keyword k) ∨ l.token = .word (.ident k.text)) :
    ((keyword k).read? l).isSome := by
  rcases h with h | h
  · exact Option.isSome_iff_exists.2 ⟨_, read?_keyword.2 ⟨_, h, by simp [isKeyword], rfl⟩⟩
  · exact Option.isSome_iff_exists.2 ⟨_, read?_keyword.2 ⟨_, h, by simp [isKeyword], rfl⟩⟩

theorem reads_word {l : Lexeme} (h : ∃ w, l.token = .word w) : (word.read? l).isSome := by
  obtain ⟨w, hw⟩ := h
  exact Option.isSome_iff_exists.2 ⟨_, read?_word.2 ⟨w, hw, rfl⟩⟩

theorem reads_integer {l : Lexeme} (h : ∃ n, l.token = .int n) : (integer.read? l).isSome := by
  obtain ⟨n, hn⟩ := h
  exact Option.isSome_iff_exists.2 ⟨n, read?_integer.2 hn⟩

theorem reads_string {l : Lexeme} (h : ∃ s, l.token = .string s) : (string.read? l).isSome := by
  obtain ⟨s, hs⟩ := h
  exact Option.isSome_iff_exists.2 ⟨s, read?_string.2 hs⟩

theorem reads_literal {l : Lexeme} {v : Value} (h : literal? l.token = some v) :
    (literal.read? l).isSome :=
  Option.isSome_iff_exists.2 ⟨v, read?_literal.2 h⟩

/-- A word is a name or a literal. -/
theorem reads_name_or_literal {l : Lexeme} (h : ∃ w, l.token = .word w) :
    (name.read? l).isSome ∨ (literal.read? l).isSome := by
  obtain ⟨w, hw⟩ := h
  simp only [read?, hw]
  cases w with
  | ident _ | keyword _ => exact .inl rfl
  | bool _ | null => exact .inr rfl

/-- Whether the class contributes nothing but a place. -/
def isMark : Terminal → Bool
  | punct _ | keyword _ => true
  | _ => false

/-- Contributions that are the same but for their places, which are related by `S`. -/
def SameResult (S : Span → Span → Prop) : (t : Terminal) → t.Result → t.Result → Prop
  | punct _, v, w | keyword _, v, w => S v w
  | word, v, w | name, v, w | integer, v, w | string, v, w | literal, v, w => v = w

theorem SameResult.eq {S : Span → Span → Prop} {t : Terminal} {v w : t.Result}
    (h : t.SameResult S v w) (ht : t.isMark = false) : v = w := by
  cases t with
  | punct | keyword => cases ht
  | _ => exact h

theorem SameResult.refl {S : Span → Span → Prop} (hS : ∀ s, S s s) {t : Terminal} (v : t.Result) :
    t.SameResult S v v := by
  cases t with
  | punct | keyword => exact hS v
  | _ => rfl

/-- What is missing where none of the classes stands next that were looked for. -/
theorem covered_expectation {t : Terminal} (ts : List Terminal) (hname : t ≠ name)
    (hliteral : t ≠ literal) : t.expectation.CoveredBy (t :: ts) := by
  intro l h
  refine ⟨t, List.mem_cons_self, ?_⟩
  cases t with
  | punct p => exact reads_punct h
  | keyword k => exact reads_keyword h
  | word => exact reads_word h
  | name => exact absurd rfl hname
  | integer => exact reads_integer h
  | string => exact reads_string h
  | literal => exact absurd rfl hliteral

end Terminal

/-! ## What is alike -/

/-- Statements that are the same but for the place of a package statement, which reaches from one
place to another one, each related by `S`. -/
inductive FileItem.Same (S : Span → Span → Prop) : FileItem → FileItem → Prop
  | package (decl : Package) {first first' last last' : Span} (hfirst : S first first')
      (hlast : S last last') : FileItem.Same S (.package decl ⟨first.start, last.stop⟩)
        (.package decl ⟨first'.start, last'.stop⟩)
  | other {i : FileItem} (h : i.package? = none) : FileItem.Same S i i

/-- Items of bodies with declarations that are related by `R`. -/
inductive BodyItem.Rel {α : Type} (R : α → α → Prop) : BodyItem α → BodyItem α → Prop
  | decl {v w : α} (h : R v w) : BodyItem.Rel R (.decl v) (.decl w)
  | comment (c : Comment) : BodyItem.Rel R (.comment c) (.comment c)
  | stray : BodyItem.Rel R .stray .stray

namespace BodyItem

variable {α : Type} {R : α → α → Prop} {items items' : List (BodyItem α)}

theorem forall₂_decls (h : List.Forall₂ (Rel R) items items') :
    List.Forall₂ R (items.filterMap decl?) (items'.filterMap decl?) := by
  induction h with
  | nil => exact .nil
  | cons hitem _ ih =>
    cases hitem with
    | decl h => exact .cons h ih
    | comment | stray => exact ih

theorem comments_eq (h : List.Forall₂ (Rel R) items items') :
    items.filterMap comment? = items'.filterMap comment? := by
  induction h with
  | nil => rfl
  | cons hitem _ ih =>
    cases hitem with
    | decl | stray => exact ih
    | comment c => exact congrArg (c :: ·) ih

end BodyItem

/-! ## Productions that are alike -/

namespace Production

/-- Two productions that differ only in the places of marks and keywords, which are related by `S`,
where none of the classes `ts` stands next. What they give is related by `Q`, together with classes
of which then none stands next. -/
inductive Alike (S : Span → Span → Prop) : {α : Type} → List Terminal →
    (α → α → List Terminal → Prop) → Production α → Production α → Prop
  | pure {α : Type} {ts} {Q : α → α → List Terminal → Prop} {v w : α} (h : Q v w ts) :
      Alike S ts Q (.pure v) (.pure w)
  | bind {α β : Type} {ts} {Q : α → α → List Terminal → Prop} {R : β → β → List Terminal → Prop}
      {p p' : Production α} {k k' : α → Production β} (first : Alike S ts Q p p')
      (others : ∀ v w us, Q v w us → Alike S us R (k v) (k' w)) :
      Alike S ts R (.bind p k) (.bind p' k')
  | sees {α : Type} {ts} {Q : α → α → List Terminal → Prop} {t : Terminal}
      {k k' : Bool → Production α} (starts : (k true).Starts t)
      (seen : Alike S [] Q (k true) (k' true)) (unseen : Alike S (t :: ts) Q (k false) (k' false)) :
      Alike S ts Q (.bind (.sees t) k) (.bind (.sees t) k')
  | take {ts} {t : Terminal} {Q : Option t.Result → Option t.Result → List Terminal → Prop}
      (found : ∀ v w, t.SameResult S v w → Q (some v) (some w) [])
      (missing : Q none none (t :: ts)) :
      Alike S ts Q (.take t) (.take t)
  | comment {ts} {Q : Option Comment → Option Comment → List Terminal → Prop}
      (found : ∀ v, Q (some v) (some v) []) (missing : Q none none ts) :
      Alike S ts Q .comment .comment
  | trailing {ts} {Q : Option Comment → Option Comment → List Terminal → Prop}
      (found : ∀ v, Q (some v) (some v) []) (missing : Q none none ts) :
      Alike S ts Q .trailing .trailing
  | fail {α : Type} {ts} {Q : α → α → List Terminal → Prop} {e : Expectation}
      (covered : e.CoveredBy ts) : Alike S ts Q (.fail e) (.fail e)
  | orElse {α : Type} {ts} {Q : α → α → List Terminal → Prop} {p p' q q' : Production α}
      (first : Alike S ts Q p p') (second : Alike S ts Q q q') :
      Alike S ts Q (.orElse p q) (.orElse p' q')
  | loop {α : Type} {ts} {P : Option α → Option α → List Terminal → Prop} {R : α → α → Prop}
      {Q : List α → List α → List Terminal → Prop} {p p' : Production (Option α)}
      (step : Alike S [] P p p') (same : ∀ v w us, P v w us → Option.Rel R v w)
      (all : ∀ vs ws, List.Forall₂ R vs ws → Q vs ws []) :
      Alike S ts Q (.loop p) (.loop p')
  | call {ts} {n : Nonterminal} {Q : n.Result → n.Result → List Terminal → Prop}
      (same : ∀ v, Q v v []) : Alike S ts Q (.call n) (.call n)

/-- A production that gives the same wherever the marks and keywords stand that it passes. -/
def Steady {α : Type} (p : Production α) : Prop :=
  ∀ S ts, Alike S ts (fun v w _ => v = w) p p

variable {α β : Type} {S : Span → Span → Prop}

/-! ### Rules -/

theorem Steady.pure (v : α) : Steady (Pure.pure v) := fun _ _ => .pure rfl

theorem Steady.then {p : Production α} {k : α → Production β} (hp : p.Steady)
    (hk : ∀ v, (k v).Steady) : Steady (p >>= k) := by
  intro S ts
  refine .bind (hp S ts) fun v w us h => ?_
  rw [← h]
  exact hk v S us

/-- A production, and then a function of what it gives. -/
theorem Steady.giving {p : Production α} (f : α → β) (hp : p.Steady) :
    Steady (do return f (← p)) :=
  hp.then fun v => .pure (f v)

theorem Steady.orElse {p q : Production α} (hp : p.Steady) (hq : q.Steady) : Steady (p <|> q) :=
  fun S ts => .orElse (hp S ts) (hq S ts)

theorem Steady.loop {p : Production (Option α)} (hp : p.Steady) : Steady (.loop p) := by
  intro S ts
  refine .loop (R := Eq) (hp S []) ?_ fun vs ws h => List.forall₂_eq_eq_eq ▸ h
  rintro v w us rfl
  cases v with
  | none => exact .none
  | some v => exact .some rfl

theorem steady_call (n : Nonterminal) : Steady (call n) := fun _ _ => .call fun _ => rfl

theorem steady_comment : Steady comment := fun _ _ => .comment (fun _ => rfl) rfl

theorem steady_trailing : Steady trailing := fun _ _ => .trailing (fun _ => rfl) rfl

theorem steady_take {t : Terminal} (ht : t.isMark = false) : Steady (take t) := by
  intro S ts
  refine .take (fun v w hvw => ?_) rfl
  rw [hvw.eq ht]

/-! ### Combinators -/

theorem alike_takeOr {t : Terminal} {e : Expectation} {ts : List Terminal}
    {Q : t.Result → t.Result → List Terminal → Prop} (h : e.CoveredBy (t :: ts))
    (hQ : ∀ v w, t.SameResult S v w → Q v w []) : Alike S ts Q (takeOr t e) (takeOr t e) := by
  refine .bind (Q := fun v w us => Option.Rel (t.SameResult S) v w ∧ (v = none → us = t :: ts) ∧
    (v ≠ none → us = [])) (.take ?_ ⟨.none, fun _ => rfl, fun h => absurd rfl h⟩) ?_
  · exact fun v w hvw => ⟨.some hvw, nofun, fun _ => rfl⟩
  · rintro _ _ us ⟨hvw | _, hnone, hsome⟩
    · rw [hsome nofun]
      exact .pure (hQ _ _ hvw)
    · rw [hnone rfl]
      exact .fail h

theorem steady_takeOr {t : Terminal} {e : Expectation} (ht : t.isMark = false)
    (h : ∀ ts, e.CoveredBy (t :: ts)) : Steady (takeOr t e) := by
  exact fun S ts => alike_takeOr (h ts) fun v w hvw => hvw.eq ht

/-- A mark or a keyword that has to stand next, whose place does not count. -/
theorem Steady.afterExpect {t : Terminal} {p : Production α} (ht : t.isMark = true)
    (hp : p.Steady) : Steady (expect t >>= fun _ => p) := by
  intro S ts
  refine .bind (Q := fun _ _ _ => True) ?_ fun _ _ us _ => hp S us
  refine alike_takeOr (Terminal.covered_expectation ts ?_ ?_) fun _ _ _ => trivial
  · rintro rfl
    cases ht
  · rintro rfl
    cases ht

theorem Steady.punct {p : Production α} (mark : Punct) (hp : p.Steady) :
    Steady (punct mark >>= fun _ => p) :=
  hp.afterExpect rfl

theorem Steady.keyword {p : Production α} (k : Keyword) (hp : p.Steady) :
    Steady (keyword k >>= fun _ => p) :=
  hp.afterExpect rfl

theorem alike_ifSkip {t : Terminal} {p q : Production α} {ts : List Terminal}
    (hp : p.Steady) (hq : Alike S (t :: ts) (fun v w _ => v = w) q q) :
    Alike S ts (fun v w _ => v = w) (skip t >>= fun b => if b = true then p else q)
      (skip t >>= fun b => if b = true then p else q) := by
  refine .bind (Q := fun v w us => v = w ∧ (v = false → us = t :: ts)) ?_ ?_
  · refine .bind (Q := fun v w us => v.isSome = w.isSome ∧ (v = none → us = t :: ts))
      (.take (fun v w _ => ⟨rfl, nofun⟩) ⟨rfl, fun _ => rfl⟩) ?_
    rintro v w us ⟨hvw, hus⟩
    exact .pure ⟨hvw, fun h => hus (Option.not_isSome_iff_eq_none.1 (by rw [h]; exact nofun))⟩
  · rintro b _ us ⟨rfl, hus⟩
    cases b with
    | true => exact hp S us
    | false => rw [hus rfl]; exact hq

theorem Steady.ifSkip {t : Terminal} {p q : Production α} (hp : p.Steady) (hq : q.Steady) :
    Steady (skip t >>= fun b => if b = true then p else q) :=
  fun _ _ => alike_ifSkip hp (hq _ _)

theorem alike_ifSees {t : Terminal} {p q : Production α} {ts : List Terminal}
    (hstarts : p.Starts t) (hp : p.Steady) (hq : Alike S (t :: ts) (fun v w _ => v = w) q q) :
    Alike S ts (fun v w _ => v = w) (sees t >>= fun b => if b = true then p else q)
      (sees t >>= fun b => if b = true then p else q) :=
  .sees hstarts (hp S []) hq

theorem steady_skip (t : Terminal) : Steady (skip t) := by
  intro S ts
  refine .bind (Q := fun v w _ => v.isSome = w.isSome) (.take (fun _ _ _ => rfl) rfl) ?_
  intro v w us h
  exact .pure h

theorem steady_separated {separator : Terminal} {item : Production α} (h : item.Steady) :
    Steady (separated separator item) := by
  refine h.then fun first => Steady.giving _ (.loop ?_)
  exact .ifSkip (h.giving _) (.pure none)

theorem steady_comments : Steady comments := steady_comment.loop

theorem steady_endStatement (leading : List Comment) : Steady (endStatement leading) :=
  .punct .semicolon (steady_trailing.giving _)

/-! ### Bodies -/

theorem alike_commentOrStray {ts : List Terminal}
    {Q : BodyItem α → BodyItem α → List Terminal → Prop}
    (hcomment : ∀ c us, Q (.comment c) (.comment c) us) (hstray : ∀ us, Q .stray .stray us) :
    Alike S ts Q commentOrStray commentOrStray := by
  refine .bind (steady_comment S ts) fun found _ us h => h ▸ ?_
  cases found with
  | some c => exact .pure (hcomment c us)
  | none =>
    refine .bind (Q := fun _ _ _ => True) ?_ fun _ _ us _ => .pure (hstray us)
    exact alike_takeOr (t := .punct .semicolon) (Terminal.covered_expectation us nofun nofun)
      fun _ _ _ => trivial

theorem steady_commentOrStray : Steady (commentOrStray (α := α)) :=
  fun _ _ => alike_commentOrStray (fun _ _ => rfl) fun _ => rfl

theorem steady_bodyItem {decl : Production α} (h : decl.Steady) : Steady (bodyItem decl) :=
  .orElse (h.giving _) (.orElse (steady_commentOrStray.giving _) (.pure none))

theorem steady_braces {item : Production (Option (BodyItem α))} (h : item.Steady) :
    Steady (braces item) := by
  refine .punct .leftBrace (steady_trailing.then fun opening => ?_)
  refine h.loop.then fun items => ?_
  exact .punct .rightBrace (.pure _)

theorem steady_body {decl : Production α} (leading : List Comment) (h : decl.Steady) :
    Steady (body leading decl) := by
  refine (steady_braces (steady_bodyItem h)).then fun inner => ?_
  exact steady_trailing.giving _

/-! ### Names, numbers and strings -/

theorem steady_ident : Steady ident :=
  steady_takeOr rfl fun ts => Terminal.covered_expectation ts nofun nofun

theorem steady_integer : Steady integer :=
  steady_takeOr rfl fun ts => Terminal.covered_expectation ts nofun nofun

theorem steady_fullIdent : Steady fullIdent :=
  (steady_separated steady_ident).giving _

theorem steady_typeName : Steady typeName := by
  refine (steady_skip _).then fun absolute => ?_
  exact steady_fullIdent.giving _

theorem steady_fieldType : Steady fieldType :=
  steady_typeName.giving _

theorem steady_string : Steady string := by
  refine Steady.then (steady_takeOr rfl fun ts => Terminal.covered_expectation ts nofun nofun) ?_
  intro first
  exact Steady.giving _ (steady_take rfl).loop

/-! ### Options -/

theorem covered_identifierOrParen (ts : List Terminal) :
    Expectation.identifierOrParen.CoveredBy (.word :: .punct .leftParen :: ts) := by
  rintro l (h | h)
  · exact ⟨.word, by simp, Terminal.reads_word h⟩
  · exact ⟨.punct .leftParen, by simp, Terminal.reads_punct h⟩

theorem covered_identifierOrBracket (ts : List Terminal) :
    Expectation.identifierOrBracket.CoveredBy (.word :: .punct .leftBracket :: ts) := by
  rintro l (h | h)
  · exact ⟨.word, by simp, Terminal.reads_word h⟩
  · exact ⟨.punct .leftBracket, by simp, Terminal.reads_punct h⟩

theorem covered_constant (ts : List Terminal) :
    Expectation.constant.CoveredBy (.literal :: .name :: .string :: ts) := by
  rintro l (h | ⟨n, h⟩ | ⟨x, h⟩ | h)
  · exact ⟨.string, by simp, Terminal.reads_string h⟩
  · exact ⟨.literal, by simp, Terminal.reads_literal (v := .int n) (by rw [h]; rfl)⟩
  · exact ⟨.literal, by simp, Terminal.reads_literal (v := .float x) (by rw [h]; rfl)⟩
  · rcases Terminal.reads_name_or_literal h with h | h
    · exact ⟨.name, by simp, h⟩
    · exact ⟨.literal, by simp, h⟩

theorem steady_optionNamePart : Steady optionNamePart := by
  intro S ts
  refine alike_ifSkip (steady_typeName.then fun name => .punct .rightParen (.pure name)) ?_
  exact alike_takeOr (covered_identifierOrParen ts) fun v w hvw => hvw

theorem steady_optionName : Steady optionName := by
  refine steady_optionNamePart.then fun first => Steady.giving _ (.loop ?_)
  exact .ifSkip (steady_optionNamePart.giving _) (.pure none)

theorem starts_fullIdent : fullIdent.Starts .name :=
  ((starts_takeOr fun _ h => by
    obtain ⟨s, hs⟩ := Option.isSome_iff_exists.1 h
    obtain ⟨w, hw, -, -⟩ := Terminal.read?_name.1 hs
    exact Terminal.reads_word ⟨w, hw⟩).bind _).bind _

theorem steady_constant : Steady constant := by
  intro S ts
  refine alike_ifSees ((starts_expect .string).bind _ |>.bind _) (steady_string.giving _) ?_
  refine alike_ifSees (starts_fullIdent.bind _) (steady_fullIdent.giving _) ?_
  exact alike_takeOr (covered_constant ts) fun v w hvw => hvw

theorem steady_optionValue : Steady optionValue :=
  fun _ _ => alike_ifSees (starts_call.bind _) ((steady_call .aggregate).giving _)
    (steady_constant _ _)

theorem steady_valueList : Steady valueList := by
  refine .punct .leftBracket (.ifSkip (.pure []) ?_)
  exact (steady_separated steady_optionValue).then fun values => .punct .rightBracket (.pure values)

/-! ### Aggregates -/

theorem steady_entryKey : Steady entryKey := by
  intro S ts
  refine alike_ifSkip (steady_typeName.then fun name => .punct .rightBracket (.pure name)) ?_
  exact alike_takeOr (covered_identifierOrBracket ts) fun v w hvw => hvw

theorem steady_entryValues : Steady entryValues := by
  intro S ts
  refine alike_ifSees (starts_call.bind _) ((steady_call .aggregate).giving _) ?_
  refine Steady.punct .colon (fun S us => ?_) _ _
  exact alike_ifSees ((starts_expect _).bind _) steady_valueList (steady_optionValue.giving _ _ _)

theorem steady_entryEnd : Steady entryEnd :=
  .ifSkip (.pure true) (steady_skip _)

theorem steady_entry : Steady entry := by
  refine steady_comments.then fun leading => ?_
  refine steady_entryKey.then fun key => ?_
  refine steady_entryValues.then fun values => ?_
  refine steady_entryEnd.then fun _ => ?_
  exact steady_trailing.giving _

theorem steady_aggregateItem : Steady aggregateItem :=
  .orElse (steady_entry.giving _) (steady_comment.giving _)

theorem steady_aggregate : Steady aggregate :=
  (steady_braces steady_aggregateItem).giving _

/-! ### Where options are written -/

theorem steady_optionDecl : Steady optionDecl := by
  refine steady_comments.then fun leading => .keyword .optionKw ?_
  refine steady_optionName.then fun name => .punct .equals ?_
  refine steady_optionValue.then fun value => .punct .semicolon ?_
  exact steady_trailing.giving _

theorem steady_fieldOption : Steady fieldOption := by
  refine steady_optionName.then fun name => .punct .equals ?_
  exact steady_optionValue.giving _

theorem steady_fieldOptions : Steady fieldOptions := by
  refine .ifSkip ?_ (.pure _)
  refine (steady_separated steady_fieldOption).then fun settings => ?_
  exact .punct .rightBracket (.pure _)

/-! ### Fields -/

theorem steady_modifier : Steady modifier :=
  .ifSkip (.pure _) (.ifSkip (.pure _) (.ifSkip (.pure _) (.pure _)))

/-- The part that all fields have after their types. -/
theorem steady_declarator (leading : List Comment)
    (node : String → Int → FieldOptions → List Comment → α) : Steady (do
      let name ← ident
      let _ ← punct .equals
      let number ← integer
      let options ← fieldOptions
      return node name number options (← endStatement leading)) := by
  refine steady_ident.then fun name => .punct .equals ?_
  refine steady_integer.then fun number => ?_
  refine steady_fieldOptions.then fun options => ?_
  exact (steady_endStatement leading).giving _

theorem steady_field : Steady field := by
  refine steady_comments.then fun leading => ?_
  refine steady_modifier.then fun modifier => ?_
  refine steady_fieldType.then fun type => ?_
  exact steady_declarator leading (Field.mk modifier type)

theorem steady_mapField : Steady mapField := by
  refine steady_comments.then fun leading => .keyword .mapKw (.punct .leftAngle ?_)
  refine steady_fieldType.then fun keyType => .punct .comma ?_
  refine steady_fieldType.then fun valueType => .punct .rightAngle ?_
  exact steady_declarator leading (MapField.mk keyType valueType)

theorem steady_oneofField : Steady oneofField := by
  refine steady_comments.then fun leading => ?_
  refine steady_fieldType.then fun type => ?_
  exact steady_declarator leading (OneofField.mk type)

theorem steady_oneof : Steady oneof := by
  refine steady_comments.then fun leading => .keyword .oneofKw ?_
  refine steady_ident.then fun name => ?_
  refine Steady.giving _ (steady_body leading ?_)
  exact .orElse (steady_optionDecl.giving _) (steady_oneofField.giving _)

theorem covered_integerOrMax (ts : List Terminal) :
    Expectation.integerOrMax.CoveredBy (.integer :: .keyword .maxKw :: ts) := by
  rintro l (h | h)
  · exact ⟨.integer, by simp, Terminal.reads_integer h⟩
  · exact ⟨.keyword .maxKw, by simp, Terminal.reads_keyword h⟩

theorem steady_rangeEnd : Steady rangeEnd := by
  refine fun S ts => alike_ifSkip (.pure _) ?_
  refine .bind (Q := fun v w _ => v = w) ?_ ?_
  · exact alike_takeOr (covered_integerOrMax ts) fun v w hvw => hvw
  · rintro v _ us rfl
    exact .pure rfl

theorem steady_numberRange : Steady numberRange := by
  refine steady_integer.then fun first => ?_
  exact .ifSkip (steady_rangeEnd.giving _) (.pure _)

theorem steady_numberRanges : Steady numberRanges := steady_separated steady_numberRange

theorem steady_reservedItems : Steady reservedItems :=
  .orElse (steady_numberRanges.giving _) ((steady_separated steady_string).giving _)

theorem steady_reserved : Steady reserved := by
  refine steady_comments.then fun leading => .keyword .reservedKw ?_
  refine steady_reservedItems.then fun items => ?_
  exact (steady_endStatement leading).giving _

theorem steady_extensionRanges : Steady extensionRanges := by
  refine steady_comments.then fun leading => .keyword .extensionsKw ?_
  refine steady_numberRanges.then fun ranges => ?_
  exact (steady_endStatement leading).giving _

/-! ### Enums, extensions and messages -/

theorem steady_enumValue : Steady enumValue := by
  refine steady_comments.then fun leading => ?_
  exact steady_declarator leading EnumValue.mk

theorem steady_enumItem : Steady enumItem :=
  .orElse (steady_optionDecl.giving _)
    (.orElse (steady_reserved.giving _) (steady_enumValue.giving _))

theorem steady_enum : Steady enum := by
  refine steady_comments.then fun leading => .keyword .enumKw ?_
  refine steady_ident.then fun name => ?_
  exact (steady_body leading steady_enumItem).giving _

theorem steady_extend : Steady extend := by
  refine steady_comments.then fun leading => .keyword .extendKw ?_
  refine steady_typeName.then fun extendee => ?_
  exact (steady_body leading steady_field).giving _

theorem steady_messageItem : Steady messageItem := by
  refine .orElse (steady_optionDecl.giving _) ?_
  refine .orElse (steady_enum.giving _) ?_
  refine .orElse ((steady_call .message).giving _) ?_
  refine .orElse (steady_oneof.giving _) ?_
  refine .orElse (steady_mapField.giving _) ?_
  refine .orElse (steady_reserved.giving _) ?_
  refine .orElse (steady_extensionRanges.giving _) ?_
  exact .orElse (steady_extend.giving _) (steady_field.giving _)

theorem steady_message : Steady message := by
  refine steady_comments.then fun leading => .keyword .messageKw ?_
  refine steady_ident.then fun name => ?_
  exact (steady_body leading steady_messageItem).giving _

/-! ### Services -/

theorem steady_rpcTypeInParens : Steady rpcTypeInParens := by
  have htype : rpcType.Steady :=
    .orElse (.keyword .streamKw (steady_typeName.giving _)) (steady_typeName.giving _)
  exact .punct .leftParen (htype.then fun type => .punct .rightParen (.pure type))

theorem covered_bodyOrSemicolon (ts : List Terminal) :
    Expectation.bodyOrSemicolon.CoveredBy (.punct .semicolon :: .punct .leftBrace :: ts) := by
  rintro l (h | h)
  · exact ⟨.punct .leftBrace, by simp, Terminal.reads_punct h⟩
  · exact ⟨.punct .semicolon, by simp, Terminal.reads_punct h⟩

theorem steady_rpcBody (leading : List Comment) : Steady (rpcBody leading) := by
  intro S ts
  refine alike_ifSees (((starts_expect _).bind _).bind _) (steady_body leading steady_optionDecl) ?_
  refine .bind (Q := fun _ _ _ => True) ?_ fun _ _ us _ => steady_trailing.giving _ S us
  exact alike_takeOr (covered_bodyOrSemicolon ts) fun _ _ _ => trivial

theorem steady_rpc : Steady rpc := by
  refine steady_comments.then fun leading => .keyword .rpcKw ?_
  refine steady_ident.then fun name => ?_
  refine steady_rpcTypeInParens.then fun input => .keyword .returnsKw ?_
  refine steady_rpcTypeInParens.then fun output => ?_
  exact (steady_rpcBody leading).giving _

theorem steady_service : Steady service := by
  refine steady_comments.then fun leading => .keyword .serviceKw ?_
  refine steady_ident.then fun name => ?_
  refine Steady.giving _ (steady_body leading ?_)
  exact .orElse (steady_optionDecl.giving _) (steady_rpc.giving _)

/-! ### Files -/

theorem steady_syntaxDecl : Steady syntaxDecl := by
  refine steady_comments.then fun leading => .keyword .syntaxKw (.punct .equals ?_)
  refine steady_string.then fun value => ?_
  exact (steady_endStatement leading).giving _

theorem steady_importModifier : Steady importModifier :=
  .ifSkip (.pure _) (.ifSkip (.pure _) (.pure _))

theorem steady_importDecl : Steady importDecl := by
  refine steady_comments.then fun leading => .keyword .importKw ?_
  refine steady_importModifier.then fun modifier => ?_
  refine steady_string.then fun path => ?_
  exact (steady_endStatement leading).giving _

/-- A package statement is alike, and its place reaches between places that are related. -/
theorem alike_packageDecl (ts : List Terminal) :
    Alike S ts (fun v w _ => v.Same S w) packageDecl packageDecl := by
  have hmark {t : Terminal} (hname : t ≠ .name) (hliteral : t ≠ .literal) (us : List Terminal) :
      Alike S us (fun v w _ => t.SameResult S v w) (expect t) (expect t) :=
    alike_takeOr (Terminal.covered_expectation us hname hliteral) fun _ _ h => h
  refine .bind (steady_comments S ts) fun leading _ us h => h ▸ ?_
  refine .bind (hmark (t := .keyword .packageKw) nofun nofun us) fun _ _ us hfirst => ?_
  refine .bind (steady_fullIdent S us) fun name _ us h => h ▸ ?_
  refine .bind (hmark (t := .punct .semicolon) nofun nofun us) fun _ _ us hlast => ?_
  exact .bind (steady_trailing S us) fun found _ us h => h ▸ .pure (.package _ hfirst hlast)

theorem alike_fileItem (ts : List Terminal) :
    Alike S ts (fun v w _ => v.Same S w) fileItem fileItem := by
  have hsteady {γ : Type} {p : Production γ} (f : γ → FileItem) (hf : ∀ v, (f v).package? = none)
      (hp : p.Steady) :
      Alike S ts (fun v w _ => v.Same S w) (do return f (← p)) (do return f (← p)) :=
    .bind (hp S ts) fun v w _ h => .pure (h ▸ .other (hf v))
  refine .orElse (hsteady _ (fun _ => rfl) steady_importDecl) (.orElse (alike_packageDecl ts) ?_)
  refine .orElse (hsteady _ (fun _ => rfl) steady_optionDecl) ?_
  refine .orElse (hsteady _ (fun _ => rfl) (steady_call .message)) ?_
  refine .orElse (hsteady _ (fun _ => rfl) steady_enum) ?_
  refine .orElse (hsteady _ (fun _ => rfl) steady_service) ?_
  exact hsteady _ (fun _ => rfl) steady_extend

/-- The statements of a file are alike. -/
theorem alike_fileItems (ts : List Terminal) :
    Alike S ts (fun v w _ => List.Forall₂ (BodyItem.Rel (FileItem.Same S)) v w)
      (loop (bodyItem fileItem)) (loop (bodyItem fileItem)) := by
  refine .loop (R := BodyItem.Rel (FileItem.Same S))
    (P := fun v w _ => Option.Rel (BodyItem.Rel (FileItem.Same S)) v w) ?_ (fun _ _ _ h => h)
    fun _ _ h => h
  refine .orElse (.bind (alike_fileItem []) fun _ _ us h => .pure (.some (.decl h))) ?_
  refine .orElse (.bind ?_ fun v _ us h => .pure (.some h)) (.pure .none)
  exact alike_commentOrStray (fun c _ => .comment c) fun _ => .stray

theorem alike_file (ts : List Terminal) :
    Alike S ts (fun v w _ => v.1 = w.1 ∧ List.Forall₂ (FileItem.Same S) v.2.decls w.2.decls ∧
      v.2.comments = w.2.comments) file file := by
  refine .bind (steady_syntaxDecl S ts) fun version _ us h => h ▸ ?_
  exact .bind (alike_fileItems us) fun items items' us hitems =>
    .pure ⟨rfl, BodyItem.forall₂_decls hitems, BodyItem.comments_eq hitems⟩

/-- The production of a nested construct is steady. -/
theorem steady_production (n : Nonterminal) : n.production.Steady := by
  cases n with
  | aggregate => exact steady_aggregate
  | message => exact steady_message

end Production

end ProtoSchema
