import ProtoSchema.Proofs.Checked.Matching

/-
  Bodies whose children are all of one type. What stands in a body is matched first, whatever it is,
  and sorted afterwards; the sorting of each kind of body knows only the children that may stand
  there, and any other child would be the end of it. `nested?_agrees`, `file_mirrors`: each body is
  given only children that it knows.
-/

namespace ProtoSchema.Checked

/-- What stands in a body or at the top level of a file. -/
inductive Child where
  | comment (value : Comment)
  | empty
  | imported (decl : Import)
  | package (decl : Package) (span : Span)
  | option (decl : OptionDecl)
  | message (decl : Message)
  | enum (decl : Enum)
  | service (decl : Service)
  | extend (decl : Extend)
  | field (decl : Field)
  | map (decl : MapField)
  | oneof (decl : Oneof)
  | reserved (decl : Reserved)
  | extensions (decl : ExtensionRanges)
  | enumValue (decl : EnumValue)
  | oneofField (decl : OneofField)
  | rpc (decl : Rpc)
  | entry (settings : List Setting)

/-! ## Sorting children -/

namespace Child

/-- The comment, if the child is one. -/
def comment? : Child → Option Comment
  | comment value => some value
  | _ => none

/-- Whether the child is neither a comment nor a stray semicolon. -/
def isDecl : Child → Bool
  | comment _ | empty => false
  | _ => true

/-- A child of a file. -/
def fileItem? : Child → Option FileItem
  | imported decl => some (.imported decl)
  | package decl span => some (.package decl span)
  | option decl => some (.option decl)
  | message decl => some (.definition (.message decl))
  | enum decl => some (.definition (.enum decl))
  | service decl => some (.definition (.service decl))
  | extend decl => some (.extend decl)
  | _ => none

/-- A child of a message. -/
def messageItem? : Child → Option MessageItem
  | field decl => some (.member (.field decl))
  | map decl => some (.member (.map decl))
  | oneof decl => some (.member (.oneof decl))
  | reserved decl => some (.member (.reserved decl))
  | extensions decl => some (.member (.extensions decl))
  | enum decl => some (.enum decl)
  | message decl => some (.message decl)
  | option decl => some (.option decl)
  | extend decl => some (.extend decl)
  | _ => none

/-- A child of an enum. -/
def enumItem? : Child → Option EnumItem
  | option decl => some (.option decl)
  | enumValue decl => some (.value decl)
  | reserved decl => some (.reserved decl)
  | _ => none

/-- A child of a oneof. -/
def oneofItem? : Child → Option OneofItem
  | oneofField decl => some (.field decl)
  | option decl => some (.option decl)
  | _ => none

/-- A child of an extension. -/
def field? : Child → Option Field
  | field decl => some decl
  | _ => none

/-- A child of a service. -/
def serviceItem? : Child → Option ServiceItem
  | rpc decl => some (.rpc decl)
  | option decl => some (.option decl)
  | _ => none

/-- A child of a method. -/
def option? : Child → Option OptionDecl
  | option decl => some decl
  | _ => none

/-- A child of an aggregate. -/
def entry? : Child → Option (List Setting)
  | entry settings => some settings
  | _ => none

end Child

/-- The body with the given children, after the given comments: its own comments are moved to those,
and each other child has to be one that `item?` knows. -/
def reduce? {α : Type} (item? : Child → Option α) (comments : List Comment)
    (children : List Child) : Option (Body α) := do
  let decls ← (children.filter Child.isDecl).mapM item?
  return ⟨decls, comments ++ children.filterMap Child.comment?⟩

/-- A child that a kind of body knows as the declaration `v`. -/
def Known {α : Type} (item? : Child → Option α) (v : α) (child : Child) : Prop :=
  child.isDecl = true ∧ item? child = some v

/-- An item of a body and the child that it comes from. -/
inductive Stands {α : Type} (R : α → Child → Prop) : BodyItem α → Child → Prop where
  | decl {v : α} {child : Child} (h : R v child) : Stands R (.decl v) child
  | comment (c : Comment) : Stands R (.comment c) (.comment c)
  | stray : Stands R .stray .empty

theorem Stands.imp {α : Type} {R S : α → Child → Prop} (h : ∀ v child, R v child → S v child)
    {item : BodyItem α} {child : Child} : Stands R item child → Stands S item child
  | .decl hR => .decl (h _ _ hR)
  | .comment c => .comment c
  | .stray => .stray

/-- Children that a kind of body knows are sorted, and become the items that they are. -/
theorem reduce?_eq {α : Type} {item? : Child → Option α} {items : List (BodyItem α)}
    {children : List Child} (h : List.Forall₂ (Stands (Known item?)) items children)
    (comments : List Comment) :
    reduce? item? comments children = some (Body.ofItems comments items) := by
  suffices hparts : (children.filter Child.isDecl).mapM item? =
      some (items.filterMap BodyItem.decl?) ∧
      children.filterMap Child.comment? = items.filterMap BodyItem.comment? by
    rw [reduce?, hparts.1, hparts.2]
    rfl
  induction h with
  | nil => exact ⟨rfl, rfl⟩
  | @cons item child items children hstands _ ih =>
    cases hstands with
    | decl hknown =>
      obtain ⟨hdecl, hitem⟩ := hknown
      constructor
      · rw [List.filter_cons_of_pos hdecl, List.mapM_cons, hitem, ih.1]
        rfl
      · have hnone : child.comment? = none := by cases child <;> first | rfl | cases hdecl
        rw [List.filterMap_cons_none hnone, ih.2]
        rfl
    | comment c => exact ⟨ih.1, congrArg (c :: ·) ih.2⟩
    | stray => exact ih

/-! ## The grammar with children -/

namespace Program

/-- The first of several programs that matches. -/
def firstOf {α : Type} : List (Program α) → Program α
  | [] => refuse
  | p :: programs => orElse p (firstOf programs)

/-- The first of several programs that matches, again and again. -/
def repeatAny {α : Type} (alternatives : List (Program α)) : Program (List α) :=
  loop (orElse (do return some (← firstOf alternatives)) (pure none))

/-- A comment of its own. -/
def ownComment : Program Child := do
  match ← comment with
  | some c => return .comment c
  | none => refuse

/-- A stray semicolon. -/
def emptyStatement : Program Child := do
  let _ ← lift (.punct .semicolon)
  return .empty

/-- The children between braces, and the given comments with the one that ends the line of the
opening brace. -/
def braces (leading : List Comment) (alternatives : List (Program Child)) :
    Program (List Comment × List Child) := do
  let _ ← lift (.punct .leftBrace)
  let opening ← trailing
  let children ← repeatAny alternatives
  let _ ← lift (.punct .rightBrace)
  return (leading ++ opening.toList, children)

/-- The sorted body of a declaration that ends here. -/
def reduced {α : Type} (item? : Child → Option α) (comments : List Comment)
    (children : List Child) : Program (Body α) := do
  let inner ← demand (reduce? item? comments children)
  return ⟨inner.decls, inner.comments ++ (← trailing).toList⟩

/-- The body of a declaration with the given comments. -/
def body {α : Type} (leading : List Comment) (item? : Child → Option α)
    (decls : List (Program Child)) : Program (Body α) := do
  let (comments, children) ← braces leading (decls ++ [ownComment, emptyStatement])
  reduced item? comments children

/-- The value in braces of an option. -/
def aggregate : Program Aggregate := do
  let (comments, children) ← braces [] [do return .entry (← lift .entry), ownComment]
  let inner ← demand (reduce? Child.entry? comments children)
  return ⟨inner.decls.flatten, inner.comments⟩

/-- A oneof. -/
def oneof : Program Oneof := do
  let leading ← lift .comments
  let _ ← lift (.keyword .oneofKw)
  let name ← lift .ident
  let inner ← body leading Child.oneofItem?
    [do return .option (← lift .optionDecl), do return .oneofField (← lift .oneofField)]
  return Oneof.ofItems name inner.decls inner.comments

/-- An enum. -/
def enum : Program Enum := do
  let leading ← lift .comments
  let _ ← lift (.keyword .enumKw)
  let name ← lift .ident
  let inner ← body leading Child.enumItem?
    [do return .option (← lift .optionDecl), do return .reserved (← lift .reserved),
     do return .enumValue (← lift .enumValue)]
  return ⟨name, inner.decls, inner.comments⟩

/-- An extension. -/
def extend : Program Extend := do
  let leading ← lift .comments
  let _ ← lift (.keyword .extendKw)
  let extendee ← lift .typeName
  let inner ← body leading Child.field? [do return .field (← lift .field)]
  return ⟨extendee, inner.decls, inner.comments⟩

/-- A message. -/
def message : Program Message := do
  let leading ← lift .comments
  let _ ← lift (.keyword .messageKw)
  let name ← lift .ident
  let inner ← body leading Child.messageItem?
    [do return .option (← lift .optionDecl), do return .enum (← enum),
     do return .message (← call .message), do return .oneof (← oneof),
     do return .map (← lift .mapField), do return .reserved (← lift .reserved),
     do return .extensions (← lift .extensionRanges), do return .extend (← extend),
     do return .field (← lift .field)]
  return Message.ofItems name inner.decls inner.comments

/-- The children of a method, which ends with a semicolon if it has no body. -/
def rpcChildren (leading : List Comment) : Program (List Comment × List Child) := do
  if ← sees (.punct .leftBrace) then
    braces leading ([do return .option (← lift .optionDecl)] ++ [ownComment, emptyStatement])
  else
    let _ ← lift (.takeOr (.punct .semicolon) .bodyOrSemicolon)
    return (leading, [])

/-- The sorted end of a method. -/
def rpcBody (leading : List Comment) : Program (Body OptionDecl) := do
  let (comments, children) ← rpcChildren leading
  reduced Child.option? comments children

/-- A method. -/
def rpc : Program Rpc := do
  let leading ← lift .comments
  let _ ← lift (.keyword .rpcKw)
  let name ← lift .ident
  let input ← lift .rpcTypeInParens
  let _ ← lift (.keyword .returnsKw)
  let output ← lift .rpcTypeInParens
  let inner ← rpcBody leading
  return ⟨name, input, output, inner.decls, inner.comments⟩

/-- A service. -/
def service : Program Service := do
  let leading ← lift .comments
  let _ ← lift (.keyword .serviceKw)
  let name ← lift .ident
  let inner ← body leading Child.serviceItem?
    [do return .option (← lift .optionDecl), do return .rpc (← rpc)]
  return Service.ofItems name inner.decls inner.comments

/-- A package statement with its place. -/
def package : Program Child := do
  match ← lift .packageDecl with
  | .package decl span => return .package decl span
  | _ => demand none

/-- The statements of a file. -/
def fileChildren : Program (List Child) :=
  repeatAny <|
    [do return .imported (← lift .importDecl), package, do return .option (← lift .optionDecl),
     do return .message (← call .message), do return .enum (← enum),
     do return .service (← service), do return .extend (← extend)] ++ [ownComment, emptyStatement]

/-- The program of a nested construct. -/
def nested : (n : Nonterminal) → Program n.Result
  | .aggregate => aggregate
  | .message => message

end Program

/-- Matches a nested construct at a place. One inside it has to start further on. -/
def nested? (i : Input) (n : Nonterminal) (place : Nat) (r : Report) :
    Option (Outcome n.Result) :=
  (Program.nested n).run? i (fun m place' r' =>
    if place < place' ∧ place' ≤ i.lexemes.length then nested? i m place' r' else none) place r
termination_by i.lexemes.length - place

/-! ## Programs mirror productions -/

namespace Mirrors

section

variable {i : Input} {bound start : Nat} {α β : Type}

theorem punct (hi : i.WellPlaced) (p : Punct) :
    Mirrors i bound start Eq (Production.punct p) (.lift (.punct p)) :=
  .takeOr hi (.punct p) (.punct p)

theorem keyword (hi : i.WellPlaced) (k : Keyword) :
    Mirrors i bound start Eq (Production.keyword k) (.lift (.keyword k)) :=
  .takeOr hi (.keyword k) (.keyword k)

/-- What is kept of a declaration is a child that a kind of body knows. -/
theorem wrap {R : β → Child → Prop} {p : Production α} {q : Program α}
    (h : Mirrors i bound start Eq p q) (f : α → β) (g : α → Child) (hR : ∀ v, R (f v) (g v)) :
    Mirrors i bound start R (do return f (← p)) (do return g (← q)) := by
  refine .bind h ?_
  rintro v _ rfl
  exact .pure (hR v)

theorem last {R : α → β → Prop} {p : Production α} {q : Program β}
    (h : Mirrors i bound start R p q) : Mirrors i bound start R p (.firstOf [q]) := by
  intro callee callee? hcallees c r hc hlt
  have hq := h callee callee? hcallees c r hc hlt
  rw [Program.firstOf, Program.firstOf, Program.run?]
  generalize p.matchWith callee c r = reply at hq
  generalize q.run? i callee? c.index r = outcome at hq
  cases hq with
  | done hR => exact .done hR
  | failed => exact .failed

theorem firstOf_append {R : α → β → Prop} {p p' : Production α} {qs qs' : List (Program β)}
    (h : Mirrors i bound start R p (.firstOf qs)) (h' : Mirrors i bound start R p' (.firstOf qs')) :
    Mirrors i bound start R (.orElse p p') (.firstOf (qs ++ qs')) := by
  have happend : ∀ (callee? : (n : Nonterminal) → Nat → Report → Option (Outcome n.Result)) place r,
      (Program.firstOf (qs ++ qs')).run? i callee? place r =
        (Program.orElse (.firstOf qs) (.firstOf qs')).run? i callee? place r := by
    intro callee? place r
    clear h
    induction qs generalizing r with
    | nil => rfl
    | cons q qs ih =>
      rw [List.cons_append, Program.firstOf, Program.firstOf, Program.run?, Program.run?,
        Program.run?]
      cases q.run? i callee? place r with
      | none => rfl
      | some outcome =>
        cases outcome with
        | done w place' r' => rfl
        | failed r' => exact ih r'
  intro callee callee? hcallees c r hc hlt
  rw [happend]
  exact h.orElse h' callee callee? hcallees c r hc hlt

/-- A value that only the program wraps. -/
theorem keeping {R : α → Child → Prop} {p : Production α} {q : Program α}
    (h : Mirrors i bound start Eq p q) (g : α → Child) (hR : ∀ v, R v (g v)) :
    Mirrors i bound start R p (do return g (← q)) := by
  intro callee callee? hcallees c r hc hlt
  have hq := h callee callee? hcallees c r hc hlt
  change Agrees R _ ((Program.bind q _).run? i callee? c.index r)
  rw [Program.run?]
  generalize p.matchWith callee c r = reply at hq
  generalize q.run? i callee? c.index r = outcome at hq
  cases hq with
  | done hv =>
    cases hv
    exact .done (hR _)
  | failed => exact .failed

/-- A value that is only wrapped on the side of the production. -/
theorem giving {γ : Type} {R : α → β → Prop} {S : γ → β → Prop} {p : Production α} {q : Program β}
    (h : Mirrors i bound start R p q) (f : α → γ) (hf : ∀ v w, R v w → S (f v) w) :
    Mirrors i bound start S (do return f (← p)) q := by
  intro callee callee? hcallees c r hc hlt
  have hq := h callee callee? hcallees c r hc hlt
  rw [Production.matchWith_bind]
  generalize p.matchWith callee c r = reply at hq
  generalize q.run? i callee? c.index r = outcome at hq
  cases hq with
  | done hR => exact .done (hf _ _ hR)
  | failed => exact .failed

theorem run?_ownComment {callee? : (n : Nonterminal) → Nat → Report → Option (Outcome n.Result)}
    {c : Cursor} (hc : c.Among i.lexemes) (r : Report) :
    Program.ownComment.run? i callee? c.index r = match c.comment? with
      | some (v, d) => some (.done (.comment v) d.index r)
      | none => some (.failed r) := by
  change (Program.bind .comment _).run? i callee? c.index r = _
  rw [Program.run?, Program.run?, comment_eq hc]
  cases c.comment? <;> rfl

theorem commentOrStray (hi : i.WellPlaced) (R : α → Child → Prop) :
    Mirrors i bound start (Stands R) Production.commentOrStray
      (.firstOf [.ownComment, .emptyStatement]) := by
  intro callee callee? hcallees c r hc hlt
  rw [Production.commentOrStray, Production.matchWith_bind, Production.matchWith, Program.firstOf,
    Program.run?, run?_ownComment hc]
  cases c.comment? with
  | some found => exact .done (.comment found.1)
  | none =>
    have hempty : Mirrors i bound start (Stands R) (do
        let _ ← Production.punct .semicolon
        return .stray) .emptyStatement :=
      .bind (.punct hi .semicolon) fun _ _ _ => .pure .stray
    exact hempty.last callee callee? hcallees c r hc hlt

/-- The items of a body are read one after the other. -/
theorem matchWith_bodyItem (callee : Callee) (decl : Production α) (c : Cursor) (r : Report) :
    (Production.bodyItem decl).matchWith callee c r =
      (Production.orElse (do return some (← .orElse (do return .decl (← decl))
        Production.commentOrStray)) (.pure none)).matchWith callee c r := by
  change (Production.orElse _ (.orElse _ (.pure none))).matchWith callee c r = _
  simp only [Production.matchWith, Production.matchWith_bind]
  cases decl.matchWith callee c r with
  | done v d r' => rfl
  | failed r' => cases (Production.commentOrStray (α := α)).matchWith callee c r' <;> rfl

/-- The items of a body and the children that they come from. -/
theorem items (hi : i.WellPlaced) {R : α → Child → Prop} {decl : Production α}
    {decls : List (Program Child)} (h : Mirrors i bound start R decl (.firstOf decls)) :
    Mirrors i bound start (List.Forall₂ (Stands R)) (.loop (Production.bodyItem decl))
      (.repeatAny (decls ++ [.ownComment, .emptyStatement])) := by
  refine .loop ?_
  have hitem : Mirrors i bound start (Stands R)
      (.orElse (do return .decl (← decl)) Production.commentOrStray)
      (.firstOf (decls ++ [.ownComment, .emptyStatement])) :=
    .firstOf_append (h.giving _ fun _ _ hR => .decl hR) (.commentOrStray hi R)
  have hsome : Mirrors i bound start (Option.Rel (Stands R))
      (.orElse (do return some (← .orElse (do return .decl (← decl)) Production.commentOrStray))
        (.pure none))
      (.orElse (do return some (← .firstOf (decls ++ [.ownComment, .emptyStatement])))
        (.pure none)) :=
    .orElse (.bind hitem fun _ _ hstands => .pure (.some hstands)) (.pure .none)
  intro callee callee? hcallees c r hc hlt
  rw [matchWith_bodyItem]
  exact hsome callee callee? hcallees c r hc hlt

/-- The children between braces. -/
theorem braces (hi : i.WellPlaced) (leading : List Comment) {R : BodyItem α → Child → Prop}
    {item : Production (Option (BodyItem α))} {alternatives : List (Program Child)}
    (h : Mirrors i bound bound (List.Forall₂ R) (.loop item) (.repeatAny alternatives)) :
    Mirrors i bound (bound + 1) (fun inner found => ∃ opening items,
        inner = Body.ofItems opening items ∧ found.1 = leading ++ opening ∧
          List.Forall₂ R items found.2)
      (Production.braces item) (.braces leading alternatives) := by
  refine .bindConsuming (.punct hi _) (Production.consumes_takeOr _ _) fun _ _ _ => ?_
  refine .bind .trailing ?_
  rintro opening _ rfl
  refine .bind h fun items children hitems => ?_
  refine .bind (.punct hi _) fun _ _ _ => ?_
  exact .pure ⟨opening.toList, items, rfl, rfl, hitems⟩

/-- Nested constructs may be matched alike only from the start on. -/
theorem weaken {R : α → β → Prop} {p : Production α} {q : Program β}
    (h : Mirrors i bound (start + 1) R p q) : Mirrors i bound start R p q :=
  fun callee callee? hcallees c r hc hlt =>
    h callee callee? hcallees c r hc (Nat.lt_succ_of_lt hlt)

/-- Children that a kind of body knows are sorted when the body ends. -/
theorem reduced {item? : Child → Option α} {items : List (BodyItem α)} {children : List Child}
    (hitems : List.Forall₂ (Stands (Known item?)) items children) {comments : List Comment}
    {f : Option Comment → Body α}
    (hf : ∀ last, f last = ⟨items.filterMap BodyItem.decl?,
      comments ++ items.filterMap BodyItem.comment? ++ last.toList⟩) :
    Mirrors i bound start Eq (do return f (← Production.trailing))
      (.reduced item? comments children) := by
  intro callee callee? hcallees c r hc hlt
  change Agrees Eq _
    (Program.run? i callee? (.bind (.demand (reduce? item? _ children)) _) c.index r)
  rw [Program.run?, Program.run?, reduce?_eq hitems]
  refine Mirrors.bind .trailing ?_ callee callee? hcallees c r hc hlt
  rintro last _ rfl
  exact .pure (hf last)

/-- A body that knows its children is the sorted body. -/
theorem body (hi : i.WellPlaced) (leading : List Comment) {item? : Child → Option α}
    {decl : Production α} {decls : List (Program Child)}
    (h : Mirrors i bound bound (Known item?) decl (.firstOf decls)) :
    Mirrors i bound bound Eq (Production.body leading decl) (.body leading item? decls) := by
  refine .bind (weaken (.braces hi leading (.items hi h))) ?_
  rintro _ ⟨comments, children⟩ ⟨opening, items, rfl, rfl, hitems⟩
  exact .reduced hitems fun last => by simp only [Body.ofItems, List.append_assoc]

end

/-! ### The constructs -/

variable {i : Input} {bound : Nat}

theorem oneof (hi : i.WellPlaced) : Mirrors i bound bound Eq Production.oneof .oneof := by
  refine .bind .comments ?_
  rintro leading _ rfl
  refine .bind (.keyword hi _) fun _ _ _ => ?_
  refine .bind (.lift hi _) ?_
  rintro name _ rfl
  refine .bind (.body hi leading ?_) ?_
  · exact .orElse (.wrap (.lift hi _) _ _ fun _ => ⟨rfl, rfl⟩)
      (.last (.wrap (.lift hi _) _ _ fun _ => ⟨rfl, rfl⟩))
  · rintro inner _ rfl
    exact .pure rfl

theorem enum (hi : i.WellPlaced) : Mirrors i bound bound Eq Production.enum .enum := by
  refine .bind .comments ?_
  rintro leading _ rfl
  refine .bind (.keyword hi _) fun _ _ _ => ?_
  refine .bind (.lift hi _) ?_
  rintro name _ rfl
  refine .bind (.body hi leading ?_) ?_
  · exact .orElse (.wrap (.lift hi _) _ _ fun _ => ⟨rfl, rfl⟩)
      (.orElse (.wrap (.lift hi _) _ _ fun _ => ⟨rfl, rfl⟩)
      (.last (.wrap (.lift hi _) _ _ fun _ => ⟨rfl, rfl⟩)))
  · rintro inner _ rfl
    exact .pure rfl

theorem extend (hi : i.WellPlaced) : Mirrors i bound bound Eq Production.extend .extend := by
  refine .bind .comments ?_
  rintro leading _ rfl
  refine .bind (.keyword hi _) fun _ _ _ => ?_
  refine .bind (.lift hi _) ?_
  rintro extendee _ rfl
  refine .bind (.body hi leading ?_) ?_
  · exact .last (.keeping (.lift hi _) _ fun _ => ⟨rfl, rfl⟩)
  · rintro inner _ rfl
    exact .pure rfl

theorem message (hi : i.WellPlaced) :
    Mirrors i bound (bound + 1) Eq Production.message .message := by
  refine .bind .comments ?_
  rintro leading _ rfl
  refine .bindConsuming (.keyword hi _) (Production.consumes_takeOr _ _) fun _ _ _ => ?_
  refine .bind (.lift hi _) ?_
  rintro name _ rfl
  refine .bind (.body hi leading ?_) ?_
  · exact .orElse (.wrap (.lift hi _) _ _ fun _ => ⟨rfl, rfl⟩)
      (.orElse (.wrap (.enum hi) _ _ fun _ => ⟨rfl, rfl⟩)
      (.orElse (.wrap (.call _) _ _ fun _ => ⟨rfl, rfl⟩)
      (.orElse (.wrap (.oneof hi) _ _ fun _ => ⟨rfl, rfl⟩)
      (.orElse (.wrap (.lift hi _) _ _ fun _ => ⟨rfl, rfl⟩)
      (.orElse (.wrap (.lift hi _) _ _ fun _ => ⟨rfl, rfl⟩)
      (.orElse (.wrap (.lift hi _) _ _ fun _ => ⟨rfl, rfl⟩)
      (.orElse (.wrap (.extend hi) _ _ fun _ => ⟨rfl, rfl⟩)
      (.last (.wrap (.lift hi _) _ _ fun _ => ⟨rfl, rfl⟩)))))))))
  · rintro inner _ rfl
    exact .pure rfl

theorem run?_bind_assoc {α β γ : Type}
    (callee? : (n : Nonterminal) → Nat → Report → Option (Outcome n.Result)) (p : Program α)
    (k : α → Program β) (l : β → Program γ) (place : Nat) (r : Report) :
    ((p >>= k) >>= l).run? i callee? place r =
      (p >>= fun a => k a >>= l).run? i callee? place r := by
  change (Program.bind (.bind p k) l).run? i callee? place r =
    (Program.bind p fun a => .bind (k a) l).run? i callee? place r
  simp only [Program.run?]
  cases p.run? i callee? place r with
  | none => rfl
  | some outcome => cases outcome <;> rfl

theorem run?_pure_bind {α β : Type}
    (callee? : (n : Nonterminal) → Nat → Report → Option (Outcome n.Result)) (a : α)
    (k : α → Program β) (place : Nat) (r : Report) :
    ((Pure.pure a : Program α) >>= k).run? i callee? place r = (k a).run? i callee? place r := by
  change (Program.bind (.pure a) k).run? i callee? place r = _
  rw [Program.run?, Program.run?]
  rfl

theorem rpcBody (hi : i.WellPlaced) (leading : List Comment) :
    Mirrors i bound bound Eq (Production.rpcBody leading) (.rpcBody leading) := by
  have hbody : Mirrors i bound bound Eq (Production.body leading Production.optionDecl)
      (.body leading Child.option? [do return .option (← .lift .optionDecl)]) :=
    .body hi leading (.last (.keeping (.lift hi _) _ fun _ => ⟨rfl, rfl⟩))
  intro callee callee? hcallees c r hc hlt
  rw [Program.rpcBody, Program.rpcChildren, run?_bind_assoc]
  refine Mirrors.bind (.sees (.punct .leftBrace)) ?_ callee callee? hcallees c r hc hlt
  rintro v _ rfl
  cases v with
  | true => exact hbody
  | false =>
    intro callee callee? hcallees c r hc hlt
    refine (run?_bind_assoc callee? _ _ _ c.index r).symm ▸ Mirrors.bind
      (.takeOr hi (.punct .semicolon) .bodyOrSemicolon) (fun _ _ _ => ?_) callee callee? hcallees
      c r hc hlt
    have hnil : List.Forall₂ (Stands (Known Child.option?)) [] [] := .nil
    have hend : Mirrors i bound bound Eq (do
        return (⟨[], leading ++ (← Production.trailing).toList⟩ : Body OptionDecl))
        (.reduced Child.option? leading []) :=
      .reduced hnil fun last => by rw [List.filterMap_nil, List.filterMap_nil, List.append_nil]
    intro callee callee? hcallees c r hc hlt
    rw [run?_pure_bind]
    exact hend callee callee? hcallees c r hc hlt

theorem rpc (hi : i.WellPlaced) : Mirrors i bound bound Eq Production.rpc .rpc := by
  refine .bind .comments ?_
  rintro leading _ rfl
  refine .bind (.keyword hi _) fun _ _ _ => ?_
  refine .bind (.lift hi _) ?_
  rintro name _ rfl
  refine .bind (.lift hi _) ?_
  rintro input _ rfl
  refine .bind (.keyword hi _) fun _ _ _ => ?_
  refine .bind (.lift hi _) ?_
  rintro output _ rfl
  refine .bind (.rpcBody hi leading) ?_
  rintro inner _ rfl
  exact .pure rfl

theorem service (hi : i.WellPlaced) : Mirrors i bound bound Eq Production.service .service := by
  refine .bind .comments ?_
  rintro leading _ rfl
  refine .bind (.keyword hi _) fun _ _ _ => ?_
  refine .bind (.lift hi _) ?_
  rintro name _ rfl
  refine .bind (.body hi leading ?_) ?_
  · exact .orElse (.wrap (.lift hi _) _ _ fun _ => ⟨rfl, rfl⟩)
      (.last (.wrap (.rpc hi) _ _ fun _ => ⟨rfl, rfl⟩))
  · rintro inner _ rfl
    exact .pure rfl

theorem aggregate (hi : i.WellPlaced) :
    Mirrors i bound (bound + 1) Eq Production.aggregate .aggregate := by
  have hitem : Mirrors i bound bound (Option.Rel (Stands (Known Child.entry?)))
      Production.aggregateItem
      (.orElse (do return some (← .firstOf [do return .entry (← .lift .entry), .ownComment]))
        (.pure none)) := by
    intro callee callee? hcallees c r hc hlt
    have hentry := Mirrors.lift hi Production.entry callee callee? hcallees c r hc hlt
    change Agrees _ ((Production.orElse _ _).matchWith callee c r)
      ((Program.orElse (.bind (.orElse (.bind (.lift .entry) _) (.orElse .ownComment .refuse)) _)
        (.pure none)).run? i callee? c.index r)
    simp only [Production.matchWith, Production.matchWith_bind, Program.run?]
    generalize Production.entry.matchWith callee c r = reply at hentry
    generalize (Program.lift Production.entry).run? i callee? c.index r = outcome at hentry
    cases hentry with
    | done hv =>
      cases hv
      exact .done (.some (.decl ⟨rfl, rfl⟩))
    | @failed r' =>
      simp only [Option.bind_eq_bind, Option.bind_some, run?_ownComment hc]
      cases c.comment? with
      | none => exact .done .none
      | some found => exact .done (.some (.comment found.1))
  refine .bind (.braces hi [] (.loop hitem)) ?_
  rintro _ ⟨comments, children⟩ ⟨opening, items, rfl, rfl, hitems⟩
  intro callee callee? hcallees c r hc hlt
  change Agrees Eq _ (Program.run? i callee? (.bind (.demand (reduce? _ _ children)) _) c.index r)
  rw [Program.run?, Program.run?, reduce?_eq hitems]
  exact .done rfl

end Mirrors

/-! ## Nested constructs and files -/

/-- The program of a nested construct mirrors its production. -/
theorem nested_mirrors {i : Input} (hi : i.WellPlaced) (bound : Nat) (n : Nonterminal) :
    Mirrors i bound (bound + 1) Eq n.production (.nested n) := by
  cases n with
  | aggregate => exact .aggregate hi
  | message => exact .message hi

theorem index_add_length {i : Input} {c : Cursor} (hc : c.Among i.lexemes) :
    c.index + c.rest.length = i.lexemes.length := by
  obtain ⟨passed, hrest, hindex⟩ := hc
  rw [show i.lexemes = passed ++ c.rest from hrest, hindex, List.length_append]
  exact congrArg (· + c.rest.length) (Nat.zero_add _)

/-- A nested construct is matched at a place as it is matched there by the grammar. -/
theorem nested?_agrees {i : Input} (hi : i.WellPlaced) (n : Nonterminal) {c : Cursor}
    (hc : c.Among i.lexemes) (r : Report) :
    Agrees Eq (n.matches c r) (nested? i n c.index r) := by
  induction hk : c.rest.length using Nat.strongRecOn generalizing n c r with | ind k ih
  rw [Nonterminal.matches, nested?]
  refine nested_mirrors hi k n _ _ ⟨?_, fun m d s hd hlt => ?_⟩ c r hc (by omega)
  · intro m d s v e s' h
    dsimp only at h
    split at h
    · exact Nonterminal.matches_reaches _ _ _ _ _ _ h
    · cases h
  · have hci := index_add_length hc
    have hdi := index_add_length hd
    rw [if_pos (by omega), if_pos (by omega)]
    exact ih _ hlt m hd s rfl

/-- A package statement has the place of its first word. -/
def PackageAmong (ls : List Lexeme) (item : FileItem) : Prop :=
  ∀ decl s, item = .package decl s → ∃ l ∈ ls, s.start = l.span.start

theorem package_among {i : Input} {callee : Callee} (hcallee : callee.Reaches) {c d : Cursor}
    (hc : c.Among i.lexemes) {r r' : Report} {item : FileItem}
    (h : Production.packageDecl.matchWith callee c r = .done item d r') :
    (∃ decl s, item = .package decl s) ∧ PackageAmong i.lexemes item := by
  obtain ⟨leading, c₁, _, hcomments, h⟩ := Production.matchWith_bind_done h
  obtain ⟨first, c₂, _, hkeyword, h⟩ := Production.matchWith_bind_done h
  obtain ⟨name, c₃, _, -, h⟩ := Production.matchWith_bind_done h
  obtain ⟨last, c₄, _, -, h⟩ := Production.matchWith_bind_done h
  obtain ⟨own, c₅, _, -, h⟩ := Production.matchWith_bind_done h
  cases h
  have hc₁ : c₁.Among i.lexemes := hc.trans (Production.matchWith_reaches hcallee _ hcomments)
  obtain ⟨l, hl, hread, -⟩ := Cursor.take?_eq_some.1 (Production.take?_of_takeOr hkeyword).1
  obtain ⟨_, -, -, hspan⟩ := Terminal.read?_keyword.1 hread
  refine ⟨⟨_, _, rfl⟩, ?_⟩
  rintro decl s heq
  cases heq
  exact ⟨l, mem_of_significant hc₁ hl, by rw [hspan]⟩

/-- A statement of a file, as a child that a file knows. -/
def Statement (ls : List Lexeme) (item : FileItem) (child : Child) : Prop :=
  Known Child.fileItem? item child ∧ PackageAmong ls item

namespace Mirrors

variable {i : Input} {bound : Nat}

theorem package (hi : i.WellPlaced) :
    Mirrors i bound bound (Statement i.lexemes) Production.packageDecl .package := by
  intro callee callee? hcallees c r hc hlt
  have h := Mirrors.lift hi Production.packageDecl callee callee? hcallees c r hc hlt
  change Agrees _ _ ((Program.bind (.lift .packageDecl) _).run? i callee? c.index r)
  rw [Program.run?]
  cases hm : Production.packageDecl.matchWith callee c r with
  | failed r' =>
    rw [hm] at h
    generalize (Program.lift Production.packageDecl).run? i callee? c.index r = outcome at h
    cases h
    exact .failed
  | done item d r' =>
    obtain ⟨⟨decl, s, rfl⟩, hplace⟩ := package_among hcallees.reaches hc hm
    rw [hm] at h
    generalize (Program.lift Production.packageDecl).run? i callee? c.index r = outcome at h
    cases h with | done hv =>
    cases hv
    exact .done ⟨⟨rfl, rfl⟩, hplace⟩

/-- The statements of a file come from children that a file knows. -/
theorem fileChildren (hi : i.WellPlaced) :
    Mirrors i bound bound (List.Forall₂ (Stands (Statement i.lexemes)))
      (.loop (Production.bodyItem Production.fileItem)) .fileChildren := by
  refine .items hi ?_
  exact .orElse (.wrap (.lift hi _) _ _ fun _ => ⟨⟨rfl, rfl⟩, nofun⟩)
    (.orElse (.package hi)
    (.orElse (.wrap (.lift hi _) _ _ fun _ => ⟨⟨rfl, rfl⟩, nofun⟩)
    (.orElse (.wrap (.call _) _ _ fun _ => ⟨⟨rfl, rfl⟩, nofun⟩)
    (.orElse (.wrap (.enum hi) _ _ fun _ => ⟨⟨rfl, rfl⟩, nofun⟩)
    (.orElse (.wrap (.service hi) _ _ fun _ => ⟨⟨rfl, rfl⟩, nofun⟩)
    (.last (.wrap (.extend hi) _ _ fun _ => ⟨⟨rfl, rfl⟩, nofun⟩)))))))

end Mirrors

end ProtoSchema.Checked
