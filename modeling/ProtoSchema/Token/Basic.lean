import ProtoSchema.Binary64.Basic
import ProtoSchema.Scalar
import ProtoSchema.Span
import ProtoSchema.Text.Blank

/-
  The tokens of the schema language. A word is a keyword, a truth value, the null word or an
  identifier; which of them depends on its letters and, for keywords, on the character before it.
-/

namespace ProtoSchema

/-- A word with a meaning in the grammar. -/
inductive Keyword where
  | syntaxKw | packageKw | importKw | weakKw | publicKw | optionKw | messageKw | enumKw
  | serviceKw | rpcKw | returnsKw | streamKw | repeatedKw | optionalKw | requiredKw
  | reservedKw | extensionsKw | extendKw | mapKw | oneofKw | toKw | maxKw
  | scalar (type : Scalar)
  | anyKw
  deriving DecidableEq

namespace Keyword

/-- The keywords that are not names of types. -/
def grammatical : List Keyword :=
  [syntaxKw, packageKw, importKw, weakKw, publicKw, optionKw, messageKw, enumKw, serviceKw, rpcKw,
   returnsKw, streamKw, repeatedKw, optionalKw, requiredKw, reservedKw, extensionsKw, extendKw,
   mapKw, oneofKw, toKw, maxKw]

/-- Every keyword. -/
def all : List Keyword := grammatical ++ Scalar.all.map scalar ++ [anyKw]

/-- The spelling of a keyword. -/
def text : Keyword → String
  | syntaxKw => "syntax"
  | packageKw => "package"
  | importKw => "import"
  | weakKw => "weak"
  | publicKw => "public"
  | optionKw => "option"
  | messageKw => "message"
  | enumKw => "enum"
  | serviceKw => "service"
  | rpcKw => "rpc"
  | returnsKw => "returns"
  | streamKw => "stream"
  | repeatedKw => "repeated"
  | optionalKw => "optional"
  | requiredKw => "required"
  | reservedKw => "reserved"
  | extensionsKw => "extensions"
  | extendKw => "extend"
  | mapKw => "map"
  | oneofKw => "oneof"
  | toKw => "to"
  | maxKw => "max"
  | scalar type => type.name
  | anyKw => "any"

/-- The keyword with the given spelling. -/
def ofText? (word : String) : Option Keyword := all.find? (·.text == word)

/-- Whether a keyword is recognised after the given character: at the start of the source and
after a blank, and `stream` also after an opening parenthesis. -/
def follows (k : Keyword) : Option Char → Bool
  | none => true
  | some c => Text.isBlank c || (c == '(' && k == streamKw)

theorem mem_all (k : Keyword) : k ∈ all := by
  cases k with
  | scalar type => cases type <;> decide
  | _ => decide

@[simp] theorem ofText?_text (k : Keyword) : ofText? k.text = some k := by
  cases k with
  | scalar type => cases type <;> decide
  | _ => decide

theorem text_of_ofText? {word : String} {k : Keyword} (h : ofText? word = some k) :
    k.text = word := by
  simpa using List.find?_some h

end Keyword

/-- What a word of the source stands for. -/
inductive Word where
  | ident (text : String)
  | keyword (k : Keyword)
  | bool (value : Bool)
  | null
  deriving DecidableEq

namespace Word

/-- The text of a word, with truth values and null in lower case. -/
def text : Word → String
  | ident text => text
  | keyword k => k.text
  | bool true => "true"
  | bool false => "false"
  | null => "null"

/-- The word that `spelling` stands for after the character `before`. Truth values and null may be
written in any mixture of cases. -/
def ofSpelling (before : Option Char) (spelling : List Char) : Word :=
  let lower := spelling.map Char.toLower
  if lower = "true".toList then bool true
  else if lower = "false".toList then bool false
  else if lower = "null".toList then null
  else match Keyword.ofText? (String.ofList spelling) with
    | some k => if k.follows before then keyword k else ident (String.ofList spelling)
    | none => ident (String.ofList spelling)

end Word

/-- A token of one punctuation character. -/
inductive Punct where
  | dot | leftParen | rightParen | leftBrace | rightBrace | leftBracket | rightBracket
  | leftAngle | rightAngle | comma | equals | colon | semicolon
  deriving DecidableEq

namespace Punct

/-- Every punctuation token. -/
def all : List Punct :=
  [dot, leftParen, rightParen, leftBrace, rightBrace, leftBracket, rightBracket,
   leftAngle, rightAngle, comma, equals, colon, semicolon]

/-- The character of a punctuation token. -/
def char : Punct → Char
  | dot => '.'
  | leftParen => '('
  | rightParen => ')'
  | leftBrace => '{'
  | rightBrace => '}'
  | leftBracket => '['
  | rightBracket => ']'
  | leftAngle => '<'
  | rightAngle => '>'
  | comma => ','
  | equals => '='
  | colon => ':'
  | semicolon => ';'

theorem mem_all (p : Punct) : p ∈ all := by
  cases p <;> decide

end Punct

/-- A token. Comments are tokens too, since the tree keeps them; a line comment is trailing when
something other than blanks stands before it on its line. -/
inductive Token where
  | word (w : Word)
  | int (value : Int)
  | float (value : Binary64)
  | string (value : String)
  | punct (p : Punct)
  | lineComment (text : String) (trailing : Bool)
  | blockComment (text : String)
  deriving DecidableEq

/-- Whether a token is a comment of either form. -/
def Token.isComment : Token → Bool
  | lineComment _ _ | blockComment _ => true
  | _ => false

/-- A token with its spelling and its place in the source. -/
structure Lexeme where
  token : Token
  spelling : String
  span : Span
  deriving DecidableEq

end ProtoSchema
