import ProtoSchema.Token.Basic
import ProtoSchema.Tree.Setting

/-
  The terminals of the grammar, and what is reported when one is missing. A terminal looks at a
  word by its spelling: a keyword that was read as an identifier still counts as the keyword.
-/

namespace ProtoSchema

/-- A class of lexemes that the grammar asks for. A `name` is a word other than a truth value or
null; a `literal` is a number, a truth value or null. -/
inductive Terminal where
  | punct (p : Punct)
  | keyword (k : Keyword)
  | word
  | name
  | integer
  | string
  | literal
  deriving DecidableEq

namespace Terminal

/-- What a lexeme of the class contributes to the tree. -/
def Result : Terminal → Type
  | punct _ => Span
  | keyword _ => Span
  | word => String
  | name => String
  | integer => Int
  | string => String
  | literal => Value

/-- Whether a word counts as the keyword `k`. -/
def isKeyword (k : Keyword) : Word → Bool
  | .keyword found => found == k
  | .ident text => text == k.text
  | _ => false

/-- Whether a word is neither a truth value nor null. -/
def isName : Word → Bool
  | .ident _ | .keyword _ => true
  | _ => false

/-- The value of a literal token. -/
def literal? : Token → Option Value
  | .int value => some (.int value)
  | .float value => some (.float value)
  | .word (.bool value) => some (.bool value)
  | .word .null => some .null
  | _ => none

/-- What the lexeme contributes, if it belongs to the class. -/
def read? (t : Terminal) (l : Lexeme) : Option t.Result :=
  match t, l.token with
  | punct p, .punct found => if found = p then some l.span else none
  | keyword k, .word w => if isKeyword k w then some l.span else none
  | word, .word _ => some l.spelling
  | name, .word w => if isName w then some l.spelling else none
  | integer, .int value => some value
  | string, .string value => some value
  | literal, token => literal? token
  | _, _ => none

/-! ### Reading a lexeme -/

theorem read?_punct {p : Punct} {l : Lexeme} {s : Span} :
    (punct p).read? l = some s ↔ l.token = .punct p ∧ l.span = s := by
  unfold read?
  cases l.token with
  | punct found =>
    by_cases h : found = p
    · simp only [h, if_true, true_and]
      exact Option.some_inj
    · simp [h]
  | _ => simp

theorem read?_keyword {k : Keyword} {l : Lexeme} {s : Span} :
    (keyword k).read? l = some s ↔ ∃ w, l.token = .word w ∧ isKeyword k w ∧ l.span = s := by
  unfold read?
  cases l.token with
  | word w =>
    by_cases h : isKeyword k w
    · simp only [h, if_true, Token.word.injEq, exists_eq_left', true_and]
      exact Option.some_inj
    · simp [h]
  | _ => simp

theorem read?_word {l : Lexeme} {s : String} :
    word.read? l = some s ↔ ∃ w, l.token = .word w ∧ l.spelling = s := by
  unfold read?
  cases l.token with
  | word w =>
    simp only [Token.word.injEq, exists_eq_left']
    exact Option.some_inj
  | _ => simp

theorem read?_name {l : Lexeme} {s : String} :
    name.read? l = some s ↔ ∃ w, l.token = .word w ∧ isName w ∧ l.spelling = s := by
  unfold read?
  cases l.token with
  | word w =>
    by_cases h : isName w
    · simp only [h, if_true, Token.word.injEq, exists_eq_left', true_and]
      exact Option.some_inj
    · simp [h]
  | _ => simp

theorem read?_integer {l : Lexeme} {n : Int} :
    integer.read? l = some n ↔ l.token = .int n := by
  unfold read?
  cases l.token with
  | int value =>
    rw [Token.int.injEq]
    exact Option.some_inj
  | _ => simp

theorem read?_string {l : Lexeme} {s : String} :
    string.read? l = some s ↔ l.token = .string s := by
  unfold read?
  cases l.token with
  | string value =>
    rw [Token.string.injEq]
    exact Option.some_inj
  | _ => simp

theorem read?_literal {l : Lexeme} {v : Value} :
    literal.read? l = some v ↔ literal? l.token = some v := by
  unfold read?
  cases l.token <;> rfl

end Terminal

/-- What a report says would have been accepted. -/
inductive Expectation where
  | punct (p : Punct)
  | keyword (k : Keyword)
  | identifier
  | identifierOrParen
  | identifierOrBracket
  | constant
  | integer
  | integerOrMax
  | stringLiteral
  | bodyOrSemicolon
  deriving DecidableEq

namespace Expectation

/-- The words of a report. -/
def text : Expectation → String
  | punct p => "'" ++ String.singleton p.char ++ "'"
  | keyword k => "'" ++ k.text ++ "'"
  | identifier => "an identifier"
  | identifierOrParen => "an identifier or '('"
  | identifierOrBracket => "an identifier or '['"
  | constant => "a constant"
  | integer => "an integer"
  | integerOrMax => "an integer or 'max'"
  | stringLiteral => "a string literal"
  | bodyOrSemicolon => "'\x7b' or ';'"

end Expectation

/-- What is reported when a lexeme of the class is missing. -/
def Terminal.expectation : Terminal → Expectation
  | punct p => .punct p
  | keyword k => .keyword k
  | word | name => .identifier
  | integer => .integer
  | string => .stringLiteral
  | literal => .constant

end ProtoSchema
