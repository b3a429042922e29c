import ProtoSchema.Fault
import ProtoSchema.Grammar.Terminal

/-
  Reports. While the alternatives of the grammar are tried, each lexeme that is missing is noted
  with its place; only those at the furthest place are kept, since there the source departs from
  everything the grammar allows.
-/

namespace ProtoSchema

/-- The furthest place at which something was missing, as a number of lexemes, and what was
missing there, in the order in which it was noted. -/
structure Report where
  furthest : Nat
  expected : List Expectation
  deriving DecidableEq

namespace Report

/-- Nothing is missing yet. -/
def start : Report := ⟨0, []⟩

/-- Notes that `e` is missing at the lexeme `index`. -/
def note (r : Report) (index : Nat) (e : Expectation) : Report :=
  if r.furthest < index then ⟨index, [e]⟩
  else if index < r.furthest ∨ e ∈ r.expected then r
  else ⟨r.furthest, r.expected ++ [e]⟩

/-- The fault that a report makes of the lexemes of a source with `size` bytes. -/
def fault (r : Report) (lexemes : List Lexeme) (size : Nat) : Fault :=
  let expected := r.expected.map Expectation.text
  match lexemes[r.furthest]? with
  | some l => .unexpectedToken expected l.spelling l.span
  | none => .unexpectedEnd expected ⟨size, size⟩

end Report

end ProtoSchema
