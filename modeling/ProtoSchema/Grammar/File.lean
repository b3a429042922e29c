import ProtoSchema.Grammar.Message
import ProtoSchema.Grammar.Service
import ProtoSchema.Text.Backslash
import ProtoSchema.Tree.File

/-
  Files: the statement with the language version, then statements of all kinds in any order.
-/

namespace ProtoSchema

namespace Production

/-- The statement with the language version. -/
def syntaxDecl : Production SyntaxDecl := do
  let leading ← comments
  let _ ← keyword .syntaxKw
  let _ ← punct .equals
  let value ← string
  return ⟨value, ← endStatement leading⟩

/-- The word before the path of an import, which may be left out. -/
def importModifier : Production (Option ImportModifier) := do
  if ← skip (.keyword .weakKw) then return some .weakImport
  else if ← skip (.keyword .publicKw) then return some .publicImport
  else return none

/-- An import. -/
def importDecl : Production Import := do
  let leading ← comments
  let _ ← keyword .importKw
  let modifier ← importModifier
  let path ← string
  return ⟨Text.collapseBackslashes path, modifier, ← endStatement leading⟩

/-- A package statement with its place, from its first word to its semicolon. -/
def packageDecl : Production FileItem := do
  let leading ← comments
  let first ← keyword .packageKw
  let name ← fullIdent
  let last ← punct .semicolon
  return .package ⟨name, leading ++ (← trailing).toList⟩ ⟨first.start, last.stop⟩

/-- A statement at the top level of a file. -/
def fileItem : Production FileItem :=
  (do return .imported (← importDecl)) <|> packageDecl <|>
    (do return .option (← optionDecl)) <|> (do return .definition (.message (← call .message))) <|>
    (do return .definition (.enum (← enum))) <|> (do return .definition (.service (← service))) <|>
    (do return .extend (← extend))

/-- A file, as its language version and its statements. -/
def file : Production (SyntaxDecl × Body FileItem) := do
  let version ← syntaxDecl
  let items ← loop (bodyItem fileItem)
  return (version, Body.ofItems [] items)

end Production

end ProtoSchema
