import ProtoSchema.Grammar.Production

/-
  Bodies in braces. Between the declarations of a body stand comments that belong to none of them
  and stray semicolons, which mean nothing.
-/

namespace ProtoSchema

/-- One step through a body: a declaration, a comment of its own or a stray semicolon. -/
inductive BodyItem (α : Type) where
  | decl (value : α)
  | comment (value : Comment)
  | stray
  deriving DecidableEq

namespace BodyItem

/-- The declaration, if the item is one. -/
def decl? {α : Type} : BodyItem α → Option α
  | decl value => some value
  | _ => none

/-- The comment, if the item is one. -/
def comment? {α : Type} : BodyItem α → Option Comment
  | comment value => some value
  | _ => none

end BodyItem

/-- The declarations of a body and the comments of the body itself. -/
structure Body (α : Type) where
  decls : List α
  comments : List Comment
  deriving DecidableEq

/-- The body with the given items, after the given comments. -/
def Body.ofItems {α : Type} (opening : List Comment) (items : List (BodyItem α)) : Body α where
  decls := items.filterMap BodyItem.decl?
  comments := opening ++ items.filterMap BodyItem.comment?

namespace Production

/-- A comment of its own or a stray semicolon. -/
def commentOrStray {α : Type} : Production (BodyItem α) := do
  match ← comment with
  | some c => return .comment c
  | none =>
    let _ ← punct .semicolon
    return .stray

/-- The next item of a body, as long as there is one. -/
def bodyItem {α : Type} (decl : Production α) : Production (Option (BodyItem α)) :=
  (do return some (.decl (← decl))) <|> (do return some (← commentOrStray)) <|> return none

/-- The items between braces. The comment that ends the line of the opening brace comes first. -/
def braces {α : Type} (item : Production (Option (BodyItem α))) : Production (Body α) := do
  let _ ← punct .leftBrace
  let opening ← trailing
  let items ← loop item
  let _ ← punct .rightBrace
  return Body.ofItems opening.toList items

/-- The body of a declaration with the given comments. It adds its own comments to them, and then
the one that ends the line of the closing brace. -/
def body {α : Type} (comments : List Comment) (decl : Production α) : Production (Body α) := do
  let inner ← braces (bodyItem decl)
  return ⟨inner.decls, comments ++ inner.comments ++ (← trailing).toList⟩

end Production

end ProtoSchema
