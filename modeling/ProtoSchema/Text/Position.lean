import ProtoSchema.Span

/-
  Lines and columns, as people count them: both start at one, a line ends at a newline and at
  nothing else, and every character is one column wide.
-/

namespace ProtoSchema.Text

/-- A place in a source, by line and column. -/
structure Position where
  line : Nat
  column : Nat
  deriving DecidableEq

namespace Position

/-- The place before the first character. -/
def first : Position := ⟨1, 1⟩

/-- The place after one more character. -/
def next (p : Position) (c : Char) : Position :=
  if c = '\n' then ⟨p.line + 1, 1⟩ else ⟨p.line, p.column + 1⟩

/-- The place after all of a text that starts a source. -/
def after (text : List Char) : Position := text.foldl next first

end Position

/-- The longest start of a text that takes at most `bytes` bytes. -/
def takeBytes : List Char → Nat → List Char
  | [], _ => []
  | c :: text, bytes =>
    if c.utf8Size ≤ bytes then c :: takeBytes text (bytes - c.utf8Size) else []

/-- The line and column of the character that has `offset` bytes before it. -/
def Position.ofOffset (source : List Char) (offset : Nat) : Position :=
  Position.after (takeBytes source offset)

/-- A start of a source is taken whole by its own length in bytes. -/
theorem takeBytes_byteLength (a b : List Char) : takeBytes (a ++ b) (byteLength a) = a := by
  induction a with
  | nil =>
    cases b with
    | nil => rfl
    | cons c b => simp [takeBytes, Nat.not_le.2 c.utf8Size_pos]
  | cons c a ih => simp [takeBytes, ih]

theorem ofOffset_byteLength (a b : List Char) :
    Position.ofOffset (a ++ b) (byteLength a) = Position.after a := by
  rw [Position.ofOffset, takeBytes_byteLength]

end ProtoSchema.Text
