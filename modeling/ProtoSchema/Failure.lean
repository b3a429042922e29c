import ProtoSchema.Fault
import ProtoSchema.Text.Position

/-
  The failure to read a source: one fault that stands for the whole, where it lies, and the faults
  found together with it.
-/

namespace ProtoSchema

/-- Why a source could not be read. -/
structure Failure where
  primary : Fault
  related : List Fault
  position : Option Text.Position
  sourceName : Option String
  deriving DecidableEq

namespace Failure

/-- The failure with the given faults in a source. -/
def ofFaults (source : List Char) (primary : Fault) (related : List Fault) : Failure where
  primary := primary
  related := related
  position := primary.span?.map fun span => Text.Position.ofOffset source span.start
  sourceName := none

/-- The failure in a source that has a name. -/
def named (f : Failure) (name : String) : Failure := { f with sourceName := some name }

/-- The message, after the line and the column if there are any. -/
def headline (f : Failure) : String :=
  match f.position with
  | some p => toString p.line ++ ":" ++ toString p.column ++ ": " ++ f.primary.message
  | none => f.primary.message

end Failure

end ProtoSchema
