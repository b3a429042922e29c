import ProtoSchema.Token.CommentText
import ProtoSchema.Token.Number
import ProtoSchema.Token.StringLiteral

/-
  Scanning: a source is cut into consecutive pieces, each of them layout, a token or a character
  that starts no token. A piece depends on the text that follows and, through its place, on three
  facts about the text before it. `pieces_text`: the pieces put together are the source.
-/

namespace ProtoSchema

/-! ## Places -/

/-- What a place in a source tells about the text before it: its length in bytes, its last
character, and whether something other than layout stands on the current line. -/
structure Place where
  offset : Nat
  before : Option Char
  midLine : Bool
  deriving DecidableEq

namespace Place

/-- The start of a source. -/
def start : Place := ⟨0, none, false⟩

/-- The place after one more character. -/
def next (p : Place) (c : Char) : Place where
  offset := p.offset + c.utf8Size
  before := some c
  midLine := c != '\n' && (p.midLine || !isLayout c)

/-- The place after more text. -/
def after (p : Place) (text : List Char) : Place := text.foldl next p

/-- The span of a text at this place. -/
def span (p : Place) (text : List Char) : Span := ⟨p.offset, p.offset + byteLength text⟩

theorem after_append (p : Place) (a b : List Char) : p.after (a ++ b) = (p.after a).after b :=
  List.foldl_append ..

theorem after_offset (p : Place) (text : List Char) :
    (p.after text).offset = p.offset + byteLength text := by
  induction text generalizing p with
  | nil => rfl
  | cons c text ih =>
    rw [show p.after (c :: text) = (p.next c).after text from rfl, ih, byteLength_cons]
    simp [next, Nat.add_assoc]

end Place

/-! ## Reading one token -/

/-- A token read at the start of a text, with its length in characters and the faults in it. -/
structure Reading where
  token : Token
  length : Nat
  faults : List LexicalFault
  deriving DecidableEq

namespace Reading

/-- An integer literal; one that does not fit is a fault and counts as zero. -/
def integer (place : Place) (base marker : Nat) (literal : List Char) : Reading :=
  let value := integerValue base marker literal
  if fitsInt64 value then ⟨.int value, literal.length, []⟩
  else ⟨.int 0, literal.length, [⟨.integerOutOfRange, place.span literal⟩]⟩

/-- A string literal that starts with `quote`. -/
def string (place : Place) (quote : Char) (text : List Char) : Reading :=
  let body := StringBody.read quote place.offset (place.offset + quote.utf8Size) text
  match decodeUtf8? body.bytes with
  | some value => ⟨.string value, body.length + 1, body.faults⟩
  | none =>
    let literal := quote :: text.take body.length
    ⟨.string "", body.length + 1, body.faults ++ [⟨.invalidUtf8String, place.span literal⟩]⟩

/-- A block comment, given with its opening; without an end it reaches to the end of the source. -/
def blockComment (place : Place) (text : List Char) : Reading :=
  let body := text.drop 2
  match CommentText.blockLength? body with
  | some n => ⟨.blockComment (String.ofList (CommentText.ofBlock (body.take n))), n + 4, []⟩
  | none =>
    ⟨.blockComment (String.ofList (CommentText.ofBlock body)), text.length,
      [⟨.unterminatedComment, place.span text⟩]⟩

/-- The token at the start of the text `c :: rest`, of which `pattern` matches `n` characters. -/
def ofMatch (place : Place) (pattern : Pattern) (n : Nat) (c : Char) (rest : List Char) : Reading :=
  let literal := (c :: rest).take n
  match pattern with
  | .word => ⟨.word (Word.ofSpelling place.before literal), n, []⟩
  | .integer => integer place 10 0 literal
  | .hexInteger => integer place 16 2 literal
  | .float => ⟨.float (floatValue literal), n, []⟩
  | .quote => string place c rest
  | .punct p => ⟨.punct p, n, []⟩
  | .lineComment =>
    ⟨.lineComment (String.ofList (CommentText.ofLine literal)) place.midLine, n, []⟩
  | .blockOpening => blockComment place (c :: rest)

theorem ofMatch_length_pos (place : Place) (pattern : Pattern) {n : Nat} (c : Char)
    (rest : List Char) (h : 0 < n) : 0 < (ofMatch place pattern n c rest).length := by
  have htake : 0 < ((c :: rest).take n).length := by
    rw [List.length_take, List.length_cons]; omega
  cases pattern with
  | integer => simp only [ofMatch, integer]; split <;> exact htake
  | hexInteger => simp only [ofMatch, integer]; split <;> exact htake
  | quote => simp only [ofMatch, string]; split <;> exact Nat.succ_pos _
  | blockOpening => simp only [ofMatch, blockComment]; split <;> exact Nat.succ_pos _
  | _ => exact h

end Reading

/-! ## Pieces -/

/-- What a piece of a source is. -/
inductive Content where
  | layout
  | token (t : Token)
  | invalid
  deriving DecidableEq

/-- A piece of a source: its text, what it is, where it stands and what is wrong in it. -/
structure Piece where
  content : Content
  text : List Char
  span : Span
  faults : List LexicalFault
  deriving DecidableEq

namespace Piece

/-- The piece at the start of the text `c :: rest`. -/
def first (place : Place) (c : Char) (rest : List Char) : Piece :=
  if isLayout c then
    let text := c :: rest.takeWhile isLayout
    ⟨.layout, text, place.span text, []⟩
  else match Pattern.longest? (c :: rest) with
    | some (p, n) =>
      let reading := Reading.ofMatch place p n c rest
      let text := (c :: rest).take reading.length
      ⟨.token reading.token, text, place.span text, reading.faults⟩
    | none => ⟨.invalid, [c], place.span [c], [⟨.invalidToken, place.span [c]⟩]⟩

/-- The lexeme of a piece that is a token. -/
def lexeme? (p : Piece) : Option Lexeme :=
  match p.content with
  | .token t => some ⟨t, String.ofList p.text, p.span⟩
  | _ => none

/-- A piece is a start of the text that it is read from, and not empty. -/
theorem first_text (place : Place) (c : Char) (rest : List Char) :
    (first place c rest).text ≠ [] ∧ (first place c rest).text <+: c :: rest := by
  unfold first
  split
  · exact ⟨by simp, List.cons_prefix_cons.2 ⟨rfl, List.takeWhile_prefix _⟩⟩
  · split
    · next p n hn =>
      have hpos := Reading.ofMatch_length_pos place p c rest (Pattern.longest?_pos hn)
      refine ⟨fun hnil => ?_, List.take_prefix ..⟩
      rcases List.take_eq_nil_iff.1 hnil with h | h
      · omega
      · cases h
    · exact ⟨by simp, List.cons_prefix_cons.2 ⟨rfl, List.nil_prefix⟩⟩

theorem first_text_append (place : Place) (c : Char) (rest : List Char) :
    (first place c rest).text ++ (c :: rest).drop (first place c rest).text.length = c :: rest :=
  (List.prefix_iff_eq_append.1 (first_text place c rest).2)

end Piece

/-- The pieces of a text that starts at the given place. -/
def piecesFrom (place : Place) : List Char → List Piece
  | [] => []
  | c :: rest =>
    let p := Piece.first place c rest
    p :: piecesFrom (place.after p.text) ((c :: rest).drop p.text.length)
termination_by text => text.length
decreasing_by
  have h := List.length_pos_iff.2 (Piece.first_text place c rest).1
  rw [List.length_drop, List.length_cons]
  omega

/-- The pieces of a source. -/
def pieces (source : List Char) : List Piece := piecesFrom .start source

/-- The pieces of a text, put together, are the text. -/
theorem piecesFrom_text (place : Place) (text : List Char) :
    (piecesFrom place text).flatMap Piece.text = text := by
  fun_induction piecesFrom place text with
  | case1 => rfl
  | case2 place c rest p ih =>
    rw [List.flatMap_cons, ih]
    exact Piece.first_text_append place c rest

theorem pieces_text (source : List Char) : (pieces source).flatMap Piece.text = source :=
  piecesFrom_text ..

/-! ## Tokens of a source -/

/-- The lexemes among the pieces, in order. -/
def lexemes (pieces : List Piece) : List Lexeme := pieces.filterMap Piece.lexeme?

/-- The faults in the pieces, in order, those that continue one another joined. -/
def lexicalFaults (pieces : List Piece) : List LexicalFault :=
  LexicalFault.join (pieces.flatMap Piece.faults)

/-- The lexemes of a source, or everything that is wrong with its characters. -/
def tokenize (source : List Char) : Except (List LexicalFault) (List Lexeme) :=
  match lexicalFaults (pieces source) with
  | [] => .ok (lexemes (pieces source))
  | faults => .error faults

end ProtoSchema
