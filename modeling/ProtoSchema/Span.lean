/-
  Spans of source text. A source is read as a list of characters, and every place in it is named
  by the number of UTF-8 bytes before it.
-/

namespace ProtoSchema

/-- The part of a source from byte `start` up to byte `stop`, which is not included. -/
structure Span where
  start : Nat
  stop : Nat
  deriving DecidableEq

/-- The number of bytes between the two ends. -/
def Span.length (s : Span) : Nat := s.stop - s.start

/-- The number of bytes that a text takes in UTF-8. -/
def byteLength : List Char → Nat
  | [] => 0
  | c :: text => c.utf8Size + byteLength text

@[simp] theorem byteLength_nil : byteLength [] = 0 := rfl

@[simp] theorem byteLength_cons (c : Char) (text : List Char) :
    byteLength (c :: text) = c.utf8Size + byteLength text := rfl

theorem byteLength_append (a b : List Char) :
    byteLength (a ++ b) = byteLength a + byteLength b := by
  induction a with
  | nil => simp
  | cons c a ih => rw [List.cons_append, byteLength_cons, ih, byteLength_cons, Nat.add_assoc]

end ProtoSchema
