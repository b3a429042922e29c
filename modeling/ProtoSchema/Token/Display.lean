import ProtoSchema.Binary64.Positional
import ProtoSchema.Text.Quoted
import ProtoSchema.Token.Basic

/-
  The text of a token in reports. It need not be the spelling of the token in the source: numbers
  are in decimal, strings are quoted anew and comments have lost their decoration.
-/

namespace ProtoSchema.Token

/-- The text of a token. -/
def display : Token → String
  | word w => w.text
  | int value => toString value
  | float value => value.text
  | string value => String.ofList (Text.quoted value.toList)
  | punct p => String.singleton p.char
  | lineComment text _ => "//" ++ text
  | blockComment text => "/*" ++ text ++ "*/"

end ProtoSchema.Token
