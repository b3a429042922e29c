import ProtoSchema.Text.Blank

/-
  The text of comments. What only decorates a comment is not part of its text: the slashes that a
  line comment starts with, the asterisks at either end of a block comment, and one asterisk at
  the start of each further line of it.
-/

namespace ProtoSchema.CommentText

open Text

/-- The text of a line comment, given with its slashes. -/
def ofLine (comment : List Char) : List Char := trim (comment.dropWhile (· == '/'))

/-- A line of a block comment other than the first, without an asterisk at its start. -/
def undecorated (line : List Char) : List Char :=
  match trim line with
  | '*' :: rest => trimStart rest
  | other => other

/-- The lines of a block comment without blanks and decoration around them. -/
def bodyLines : List (List Char) → List (List Char)
  | [] => []
  | first :: others => trim first :: others.map undecorated

/-- The text of a block comment, given without its delimiters. -/
def ofBlock (body : List Char) : List Char :=
  trim (unlines (bodyLines (lines (dropEndWhile (· == '*') (body.dropWhile (· == '*'))))))

/-- The number of characters before the first `*/` of a text. -/
def blockLength? : List Char → Option Nat
  | '*' :: '/' :: _ => some 0
  | _ :: text => (blockLength? text).map (· + 1)
  | [] => none

end ProtoSchema.CommentText
