import ProtoSchema.Token.Fault

/-
  Faults of a source and how they are reported: one message each, and labels that point into the
  source.
-/

namespace ProtoSchema

/-- What is wrong with a source. The characters may not form tokens, or the tokens may not form a
file: a token stands where others were expected, the source ends too early, or it names its
package twice. A source may also be too large to be read at all. -/
inductive Fault where
  | lexical (fault : LexicalFault)
  | unexpectedToken (expected : List String) (found : String) (span : Span)
  | unexpectedEnd (expected : List String) (span : Span)
  | duplicatePackage (first second : Span)
  | sourceTooLarge
  deriving DecidableEq

/-- A remark on a part of the source. -/
structure Label where
  text : String
  span : Span
  deriving DecidableEq

/-- The message for a lexical cause. -/
def LexicalCause.message : LexicalCause → String
  | invalidToken => "invalid token"
  | integerOutOfRange => "integer is too large"
  | invalidStringCharacters => "invalid string character"
  | unterminatedString => "unterminated string"
  | invalidStringEscape => "invalid string escape"
  | invalidUtf8String => "string is not valid utf-8"
  | unterminatedComment => "unterminated block comment"

/-- The remark on the characters at fault. -/
def LexicalCause.label : LexicalCause → String
  | invalidToken => "found here"
  | integerOutOfRange => "integer defined here"
  | invalidStringCharacters => "invalid characters"
  | unterminatedString => "string starts here"
  | invalidStringEscape => "defined here"
  | invalidUtf8String => "defined here"
  | unterminatedComment => "comment starts here"

/-- Alternatives as a phrase: a comma between any two but the last two, which `or` joins. -/
def alternatives : List String → String
  | [] => "a valid declaration"
  | [only] => only
  | [a, b] => a ++ " or " ++ b
  | a :: others => a ++ ", " ++ alternatives others

namespace Fault

/-- The message of a fault. -/
def message : Fault → String
  | lexical fault => fault.cause.message
  | unexpectedToken expected found _ =>
    "expected " ++ alternatives expected ++ ", but found '" ++ found ++ "'"
  | unexpectedEnd expected _ => "expected " ++ alternatives expected ++ ", but reached end of file"
  | duplicatePackage _ _ => "multiple package names specified"
  | sourceTooLarge => "file is too large"

/-- The parts of the source that a fault points to. -/
def labels : Fault → List Label
  | lexical fault => [⟨fault.cause.label, fault.span⟩]
  | unexpectedToken _ _ span => [⟨"found here", span⟩]
  | unexpectedEnd _ span => [⟨"file ends here", span⟩]
  | duplicatePackage first second => [⟨"first defined here", first⟩, ⟨"defined again here", second⟩]
  | sourceTooLarge => []

/-- A hint on how to mend the fault. -/
def help? : Fault → Option String
  | sourceTooLarge => some "the maximum file length is 2,147,483,647 bytes"
  | _ => none

/-- The part of the source at fault; of two packages it is the second. -/
def span? : Fault → Option Span
  | lexical fault => some fault.span
  | unexpectedToken _ _ span => some span
  | unexpectedEnd _ span => some span
  | duplicatePackage _ second => some second
  | sourceTooLarge => none

/-- What would have been accepted at the place of the fault. -/
def expected : Fault → List String
  | unexpectedToken expected _ _ => expected
  | unexpectedEnd expected _ => expected
  | _ => []

/-- Whether characters fail to form tokens. -/
def isLexical : Fault → Bool
  | lexical _ => true
  | _ => false

/-- Whether the tokens fail to form a file. -/
def isSyntactic : Fault → Bool
  | unexpectedToken _ _ _ | unexpectedEnd _ _ | duplicatePackage _ _ => true
  | _ => false

end Fault

end ProtoSchema
