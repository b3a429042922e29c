import ProtoSchema.Span

/-
  What can be wrong with the characters of a source. Faults of the same nature that touch are one
  fault, so that a run of bad characters is reported once.
-/

namespace ProtoSchema

/-- The ways in which characters fail to form tokens. -/
inductive LexicalCause where
  | invalidToken
  | integerOutOfRange
  | invalidStringCharacters
  | unterminatedString
  | invalidStringEscape
  | invalidUtf8String
  | unterminatedComment
  deriving DecidableEq

/-- Characters that form no token, or form a faulty one. -/
structure LexicalFault where
  cause : LexicalCause
  span : Span
  deriving DecidableEq

namespace LexicalFault

/-- Whether the cause is a piece inside a string. -/
def isStringPiece (f : LexicalFault) : Bool :=
  f.cause == .invalidStringCharacters || f.cause == .invalidStringEscape

/-- Whether `g`, found after `f`, continues it: both are invalid characters or both are pieces of
a string, and nothing lies between them. -/
def continues (f g : LexicalFault) : Bool :=
  f.span.stop == g.span.start &&
    ((f.cause == .invalidToken && g.cause == .invalidToken) ||
      (f.isStringPiece && g.isStringPiece))

/-- The fault `f` with its end moved to the end of `g`; it keeps its cause. -/
def extend (f g : LexicalFault) : LexicalFault := ⟨f.cause, ⟨f.span.start, g.span.stop⟩⟩

/-- The faults `f`, then `faults`, each one that continues the one before it made part of it. -/
def joinFrom (f : LexicalFault) : List LexicalFault → List LexicalFault
  | [] => [f]
  | g :: faults =>
    if f.continues g then joinFrom (f.extend g) faults else f :: joinFrom g faults

/-- The faults in order, those that continue one another joined. -/
def join : List LexicalFault → List LexicalFault
  | [] => []
  | f :: faults => joinFrom f faults

end LexicalFault

end ProtoSchema
