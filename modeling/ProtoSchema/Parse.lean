import ProtoSchema.Failure
import ProtoSchema.Grammar.Matching
import ProtoSchema.Token.Scan

/-
  Reading a schema file from its source. Faults of the characters come before faults of the
  grammar, and nothing of the tree is kept if there is any.
-/

namespace ProtoSchema

/-- The size in bytes of the largest source that is read. -/
def maxSourceSize : Nat := Nat.pow 2 31 - 1

/-- The file that a source describes, or why there is none. -/
def parse (source : String) : Except Failure File :=
  let text := source.toList
  let size := byteLength text
  if maxSourceSize < size then .error (.ofFaults text .sourceTooLarge [])
  else match lexicalFaults (pieces text) with
    | fault :: faults => .error (.ofFaults text (.lexical fault) (faults.map .lexical))
    | [] =>
      match File.ofLexemes (lexemes (pieces text)) size with
      | .ok file => .ok file
      | .error fault => .error (.ofFaults text fault [])

end ProtoSchema
