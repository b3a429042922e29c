import ProtoSchema.Grammar.Terminal
import ProtoSchema.Tree.Message

/-
  Productions: the grammar as data. A production says which lexemes make up a construct and what
  they become; how it is matched against lexemes is said once for all productions, in
  `ProtoSchema.Grammar.Matching`. The two constructs that contain themselves are named, and a
  production refers to them by name.
-/

namespace ProtoSchema

/-- The constructs that may be nested in themselves. -/
inductive Nonterminal where
  | aggregate
  | message
  deriving DecidableEq

/-- What a nested construct becomes. -/
def Nonterminal.Result : Nonterminal → Type
  | aggregate => Aggregate
  | message => Message

/-- A rule for matching lexemes. All rules but the two for comments skip the comments before the
lexeme they are about.

* `sees t`: whether the next lexeme is a `t`, which stays where it is.
* `take t`: the next lexeme if it is a `t`, which is then passed.
* `comment`: the comment that stands next.
* `trailing`: the comment that stands next, if it ends the line of the lexeme before it.
* `fail e`: no match, since `e` is missing.
* `orElse p q`: as `p`, or from the same place as `q` if `p` does not match.
* `loop p`: what `p` gives, again and again until it gives nothing.
* `call n`: as the production of the construct `n`. -/
inductive Production : Type → Type 1 where
  | pure {α : Type} (value : α) : Production α
  | bind {α β : Type} (p : Production α) (k : α → Production β) : Production β
  | sees (t : Terminal) : Production Bool
  | take (t : Terminal) : Production (Option t.Result)
  | comment : Production (Option Comment)
  | trailing : Production (Option Comment)
  | fail {α : Type} (e : Expectation) : Production α
  | orElse {α : Type} (p q : Production α) : Production α
  | loop {α : Type} (p : Production (Option α)) : Production (List α)
  | call (n : Nonterminal) : Production n.Result

namespace Production

instance : Monad Production where
  pure := Production.pure
  bind := Production.bind

instance {α : Type} : OrElse (Production α) where
  orElse p q := .orElse p (q ())

/-- The next lexeme, which has to be a `t`; otherwise `e` is missing. -/
def takeOr (t : Terminal) (e : Expectation) : Production t.Result := do
  match ← take t with
  | some value => return value
  | none => fail e

/-- The next lexeme, which has to be a `t`. -/
def expect (t : Terminal) : Production t.Result := takeOr t t.expectation

/-- Passes a punctuation token that has to stand next. -/
def punct (p : Punct) : Production Span := expect (.punct p)

/-- Passes a keyword that has to stand next. -/
def keyword (k : Keyword) : Production Span := expect (.keyword k)

/-- Passes the next lexeme if it is a `t`, and says whether it was. -/
def skip (t : Terminal) : Production Bool := return (← take t).isSome

/-- One `item`, and one more after every further lexeme that is a `separator`. -/
def separated {α : Type} (separator : Terminal) (item : Production α) : Production (List α) := do
  let first ← item
  let others ← loop do
    if ← skip separator then return some (← item) else return none
  return first :: others

/-- The comments that stand next. -/
def comments : Production (List Comment) := loop comment

/-- The semicolon at the end of a statement with the given comments, and the comments together
with the one that ends its line. -/
def endStatement (comments : List Comment) : Production (List Comment) := do
  let _ ← punct .semicolon
  return comments ++ (← trailing).toList

end Production

end ProtoSchema
