import ProtoSchema.Grammar.Options
import ProtoSchema.Tree.Service

/-
  Services and their methods.
-/

namespace ProtoSchema.Production

/-- What a method takes or gives back. A type may be called `stream` too: the word is a modifier
only where a name follows it. -/
def rpcType : Production RpcType :=
  (do
    let _ ← keyword .streamKw
    return ⟨← typeName, true⟩) <|>
    (do return ⟨← typeName, false⟩)

/-- A type in parentheses. -/
def rpcTypeInParens : Production RpcType := do
  let _ ← punct .leftParen
  let type ← rpcType
  let _ ← punct .rightParen
  return type

/-- The end of a method with the given comments: a body with options, or a semicolon. -/
def rpcBody (leading : List Comment) : Production (Body OptionDecl) := do
  if ← sees (.punct .leftBrace) then body leading optionDecl
  else
    let _ ← takeOr (.punct .semicolon) .bodyOrSemicolon
    return ⟨[], leading ++ (← trailing).toList⟩

/-- A method. -/
def rpc : Production Rpc := do
  let leading ← comments
  let _ ← keyword .rpcKw
  let name ← ident
  let input ← rpcTypeInParens
  let _ ← keyword .returnsKw
  let output ← rpcTypeInParens
  let inner ← rpcBody leading
  return ⟨name, input, output, inner.decls, inner.comments⟩

/-- A declaration in the body of a service. -/
def serviceItem : Production ServiceItem :=
  (do return .option (← optionDecl)) <|> (do return .rpc (← rpc))

/-- A service. -/
def service : Production Service := do
  let leading ← comments
  let _ ← keyword .serviceKw
  let name ← ident
  let inner ← body leading serviceItem
  return Service.ofItems name inner.decls inner.comments

end ProtoSchema.Production
