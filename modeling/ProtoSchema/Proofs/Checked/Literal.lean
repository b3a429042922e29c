import ProtoSchema.Proofs.Checked.Slice
import ProtoSchema.Token.Scan

/-
  String literals by byte offsets. An escape is recognised by its form first, and what it denotes is
  then read from slices of its text; the end of a literal is reached by moving on so many bytes.
  `string?_eq`: none of these steps fails, and a literal is read as `Reading.string` reads it.
-/

namespace ProtoSchema.Checked

/-- The bytes of a text. -/
def utf8 (text : List Char) : List UInt8 := text.flatMap String.utf8EncodeChar

/-- A token read from a source: where its text ends, and the faults in it. -/
structure Reading where
  token : Token
  stop : Nat
  faults : List LexicalFault

/-! ## Reading a literal -/

/-- The forms of escapes. -/
inductive EscapeForm where
  | hexByte | octalByte | codePoint | letter

namespace EscapeForm

/-- The form of the escape that the text after a backslash is, and the number of its characters. -/
def of? : List Char → Option (EscapeForm × Nat)
  | [] => none
  | c :: text =>
    if c = 'x' ∨ c = 'X' then
      let digits := runLength isHexDigit (text.take 2)
      if digits = 0 then none else some (hexByte, digits + 1)
    else if c = 'u' then
      if runLength isHexDigit (text.take 4) = 4 then some (codePoint, 5) else none
    else if c = 'U' then
      if runLength isHexDigit (text.take 8) = 8 then some (codePoint, 9) else none
    else if isOctalDigit c then some (octalByte, runLength isOctalDigit ((c :: text).take 3))
    else if (Escape.simple? c).isSome then some (letter, 1)
    else none

/-- What an escape of the given form denotes, from its text with the backslash. -/
def read? (escape : List Char) : EscapeForm → Option Escape
  | hexByte => do
    let digits ← dropBytes? escape 2
    return .byte (ofDigits 16 digits) (digits.length + 1)
  | octalByte => do
    let digits ← dropBytes? escape 1
    return .byte (ofDigits 8 digits) digits.length
  | codePoint => do
    let digits ← dropBytes? escape 2
    return .char (ofDigits 16 digits) (digits.length + 1)
  | letter => do
    let c ← escape[1]?
    match Escape.simple? c with
    | some b => return .value [b] 1
    | none => return .none

end EscapeForm

/-- How the body of a literal was read: the number of bytes in it, its end included, the bytes that
it denotes, and the faults found. -/
structure LiteralBody where
  size : Nat
  bytes : List UInt8
  faults : List LexicalFault

/-- A body with `n` bytes of text, some bytes that they denote and some faults put in front. -/
def LiteralBody.prepend (n : Nat) (bytes : List UInt8) (faults : List LexicalFault)
    (b : LiteralBody) : LiteralBody :=
  ⟨n + b.size, bytes ++ b.bytes, faults ++ b.faults⟩

/-- The byte of a character that takes a single one. -/
def soleByte? (c : Char) : Option UInt8 :=
  match utf8 [c] with
  | [byte] => some byte
  | _ => none

/-- Reads the body of a literal that ends with the byte `terminator` and was opened at `opening`, in
a source with `total` bytes; the body starts at `offset`. -/
def body? (terminator : UInt8) (opening total offset : Nat) : List Char → Option LiteralBody
  | [] => some ⟨0, [], [⟨.unterminatedString, ⟨opening, total⟩⟩]⟩
  | c :: text =>
    if c = '"' ∨ c = '\'' then do
      let byte ← soleByte? c
      if byte = terminator then return ⟨1, [], []⟩
      else return (← body? terminator opening total (offset + 1) text).prepend 1 [byte] []
    else if c = '\n' then some ⟨1, [], [⟨.unterminatedString, ⟨opening, offset⟩⟩]⟩
    else if c = '\x00' then do
      return (← body? terminator opening total (offset + 1) text).prepend 1 []
        [⟨.invalidStringCharacters, ⟨offset, offset + 1⟩⟩]
    else if c = '\\' then
      match EscapeForm.of? text with
      | some (form, n) => do
        let size := byteLength (c :: text.take n)
        let rest ← body? terminator opening total (offset + size) (text.drop n)
        match ← form.read? (c :: text.take n) with
        | .value bytes _ => return rest.prepend size bytes []
        | _ => return rest.prepend size [] [⟨.invalidStringEscape, ⟨offset, offset + size⟩⟩]
      | none => do
        return (← body? terminator opening total (offset + 1) text).prepend 1 []
          [⟨.invalidStringEscape, ⟨offset, offset + 1⟩⟩]
    else do
      return (← body? terminator opening total (offset + c.utf8Size) text).prepend c.utf8Size
        (String.utf8EncodeChar c) []
termination_by text => text.length
decreasing_by all_goals simp only [List.length_cons, List.length_drop]; omega

/-- The string that is opened at `s`. -/
def string? (source : List Char) (s : Span) : Option Reading := do
  let opening ← slice? source s
  let terminator ← (utf8 opening)[0]?
  let remainder ← dropBytes? source s.stop
  let body ← body? terminator s.start (byteLength source) s.stop remainder
  let stop ← advance? source s.stop body.size
  match decodeUtf8? body.bytes with
  | some value => return ⟨.string value, stop, body.faults⟩
  | none => return ⟨.string "", stop, body.faults ++ [⟨.invalidUtf8String, ⟨s.start, stop⟩⟩]⟩

/-! ## Escapes -/

theorem byteLength_of_ascii {text : List Char} (h : ∀ c ∈ text, c.utf8Size = 1) :
    byteLength text = text.length := by
  induction text with
  | nil => rfl
  | cons c text ih =>
    rw [byteLength_cons, h c List.mem_cons_self, ih fun d hd => h d (List.mem_cons_of_mem c hd),
      List.length_cons, Nat.add_comm]

theorem utf8Size_of_le {c : Char} (h : c ≤ '\x7f') : c.utf8Size = 1 := by
  exact if_pos h

theorem utf8Size_of_isHexDigit {c : Char} (h : isHexDigit c = true) : c.utf8Size = 1 := by
  apply utf8Size_of_le
  simp only [isHexDigit, Char.isDigit, Bool.or_eq_true, Bool.and_eq_true, decide_eq_true_eq] at h
  rcases h with (⟨-, h⟩ | ⟨-, h⟩) | ⟨-, h⟩
  · exact Char.le_trans h (by decide)
  · exact Char.le_trans h (by decide)
  · exact Char.le_trans h (by decide)

theorem utf8Size_of_isOctalDigit {c : Char} (h : isOctalDigit c = true) : c.utf8Size = 1 := by
  apply utf8Size_of_le
  simp only [isOctalDigit, Bool.and_eq_true, decide_eq_true_eq] at h
  exact Char.le_trans h.2 (by decide)

theorem utf8Size_of_simple? {c : Char} {b : UInt8} (h : Escape.simple? c = some b) :
    c.utf8Size = 1 := by
  unfold Escape.simple? at h
  split at h <;> first | rfl | cases h

theorem takeWhile_eq_take (p : Char → Bool) (text : List Char) :
    text.takeWhile p = text.take (runLength p text) :=
  List.prefix_iff_eq_take.1 (List.takeWhile_prefix p)

theorem take_runLength (p : Char → Bool) (k : Nat) (text : List Char) :
    text.take (runLength p (text.take k)) = (text.take k).takeWhile p := by
  have hle : runLength p (text.take k) ≤ k :=
    Nat.le_trans (runLength_le ..) (by rw [List.length_take]; omega)
  rw [takeWhile_eq_take, List.take_take, Nat.min_eq_left hle]

theorem run_take_le (p : Char → Bool) (k : Nat) (text : List Char) :
    runLength p (text.take k) ≤ text.length :=
  Nat.le_trans (runLength_le ..) (by rw [List.length_take]; omega)

theorem byteLength_run {p : Char → Bool} (h : ∀ c, p c = true → c.utf8Size = 1)
    (text : List Char) : byteLength (text.takeWhile p) = runLength p text :=
  byteLength_of_ascii fun _ hc => h _ (List.all_eq_true.1 List.all_takeWhile _ hc)

/-- The escape is one of `n` characters after its backslash. -/
def Spans (e : Escape) (n : Nat) : Prop := (∃ bytes, e = .value bytes n) ∨ e = .valueless n

theorem spans_byte (v n : Nat) : Spans (.byte v n) n := by
  unfold Escape.byte
  split
  · exact .inl ⟨_, rfl⟩
  · exact .inr rfl

theorem spans_char (v n : Nat) : Spans (.char v n) n := by
  unfold Escape.char
  split
  · exact .inl ⟨_, rfl⟩
  · exact .inr rfl

namespace EscapeForm

/-- The first `n` characters of the text after a backslash, read as an escape of the given form, are
the escape that the text starts with. -/
structure Reads (form : EscapeForm) (n : Nat) (text : List Char) : Prop where
  length_le : n ≤ text.length
  size : byteLength (text.take n) = n
  read : form.read? ('\\' :: text.take n) = some (Escape.read text)
  spans : Spans (Escape.read text) n

theorem dropBytes?_marker {c : Char} (digits : List Char) (hc : c.utf8Size = 1) :
    dropBytes? ('\\' :: c :: digits) 2 = some digits := by
  have h := dropBytes?_append ['\\', c] digits
  rwa [byteLength_cons, byteLength_cons, hc] at h

theorem reads_hexByte {c : Char} {rest : List Char} (hc : c = 'x' ∨ c = 'X')
    (hdigits : runLength isHexDigit (rest.take 2) ≠ 0) :
    hexByte.Reads (runLength isHexDigit (rest.take 2) + 1) (c :: rest) := by
  have hsize : c.utf8Size = 1 := by rcases hc with rfl | rfl <;> rfl
  have hne : ((rest.take 2).takeWhile isHexDigit).isEmpty = false := by
    rw [List.isEmpty_eq_false_iff]
    exact fun hnil => hdigits (by rw [runLength, hnil, List.length_nil])
  have hread : Escape.read (c :: rest) = .byte (ofDigits 16 ((rest.take 2).takeWhile isHexDigit))
      (runLength isHexDigit (rest.take 2) + 1) := by
    rw [Escape.read, if_pos hc, Escape.hexByte, hne]
    rfl
  refine ⟨Nat.succ_le_succ (run_take_le ..), ?_, ?_, hread ▸ spans_byte ..⟩
  · rw [List.take_succ_cons, take_runLength, byteLength_cons, hsize,
      byteLength_run fun _ => utf8Size_of_isHexDigit, Nat.add_comm]
  · rw [hread, List.take_succ_cons, take_runLength, read?, dropBytes?_marker _ hsize]
    rfl

theorem reads_codePoint {c : Char} {rest : List Char} {size : Nat} (hc : c.utf8Size = 1)
    (hdigits : runLength isHexDigit (rest.take size) = size)
    (hread : Escape.read (c :: rest) = .codePoint size rest) :
    codePoint.Reads (size + 1) (c :: rest) := by
  have htake : rest.take size = (rest.take size).takeWhile isHexDigit := by
    have h := take_runLength isHexDigit size rest
    rwa [hdigits] at h
  have hlength : ((rest.take size).takeWhile isHexDigit).length = size := hdigits
  have hchar : Escape.read (c :: rest) =
      .char (ofDigits 16 ((rest.take size).takeWhile isHexDigit)) (size + 1) := by
    rw [hread, Escape.codePoint]
    exact if_pos hlength
  refine ⟨Nat.succ_le_succ ?_, ?_, ?_, hchar ▸ spans_char ..⟩
  · have h := run_take_le isHexDigit size rest
    rwa [hdigits] at h
  · rw [List.take_succ_cons, htake, byteLength_cons, hc,
      byteLength_run fun _ => utf8Size_of_isHexDigit, hdigits, Nat.add_comm]
  · rw [hchar, List.take_succ_cons, htake, read?, dropBytes?_marker _ hc]
    simp only [Option.bind_eq_bind, Option.bind_some, ← htake]
    rw [htake, hlength]
    rfl

theorem reads_octalByte {text : List Char} (hread : Escape.read text = .octalByte text) :
    octalByte.Reads (runLength isOctalDigit (text.take 3)) text := by
  refine ⟨run_take_le .., ?_, ?_, hread ▸ spans_byte ..⟩
  · rw [take_runLength, byteLength_run fun _ => utf8Size_of_isOctalDigit]
  · have hdrop : dropBytes? ('\\' :: (text.take 3).takeWhile isOctalDigit) 1 =
        some ((text.take 3).takeWhile isOctalDigit) := dropBytes?_append ['\\'] _
    rw [hread, take_runLength, read?, hdrop]
    rfl

theorem reads_letter {c : Char} {rest : List Char} {b : UInt8} (hb : Escape.simple? c = some b)
    (hread : Escape.read (c :: rest) = .value [b] 1) : letter.Reads 1 (c :: rest) := by
  refine ⟨Nat.succ_le_succ (Nat.zero_le _), ?_, ?_, .inl ⟨_, hread⟩⟩
  · rw [List.take_succ_cons, List.take_zero, byteLength_cons, utf8Size_of_simple? hb]
    rfl
  · rw [hread]
    simp [read?, hb]

/-- What has the form of an escape is read as the escape that the text starts with. -/
theorem reads_of_of? {text : List Char} {form : EscapeForm} {n : Nat}
    (h : of? text = some (form, n)) : form.Reads n text := by
  revert h
  fun_cases of? text with
  | case1 => exact nofun
  | case2 => exact nofun
  | case3 c rest hx digits hdigits =>
    intro h; cases h
    exact reads_hexByte hx hdigits
  | case4 rest hdigits hx =>
    intro h; cases h
    exact reads_codePoint rfl hdigits (by rw [Escape.read, if_neg hx, if_pos rfl])
  | case5 => exact nofun
  | case6 rest hdigits hx hu =>
    intro h; cases h
    exact reads_codePoint rfl hdigits (by rw [Escape.read, if_neg hx, if_neg hu, if_pos rfl])
  | case7 => exact nofun
  | case8 c rest hx hu hU hoctal =>
    intro h; cases h
    exact reads_octalByte (by
      rw [Escape.read, if_neg hx, if_neg hu, if_neg hU, if_pos hoctal])
  | case9 c rest hx hu hU hoctal hletter =>
    intro h; cases h
    obtain ⟨b, hb⟩ := Option.isSome_iff_exists.1 hletter
    exact reads_letter hb (by
      rw [Escape.read, if_neg hx, if_neg hu, if_neg hU, if_neg hoctal, hb])
  | case10 => exact nofun

/-- What has no form of an escape is none. -/
theorem read_of_of?_none {text : List Char} (h : of? text = none) : Escape.read text = .none := by
  revert h
  fun_cases of? text with
  | case1 => exact fun _ => rfl
  | case2 c rest hx digits hdigits =>
    intro _
    rw [Escape.read, if_pos hx, Escape.hexByte]
    exact if_pos (List.isEmpty_iff.2 (List.length_eq_zero_iff.1 hdigits))
  | case5 rest hdigits hx =>
    intro _
    rw [Escape.read, if_neg hx, if_pos rfl]
    exact if_neg hdigits
  | case7 rest hdigits hx hu =>
    intro _
    rw [Escape.read, if_neg hx, if_neg hu, if_pos rfl]
    exact if_neg hdigits
  | case10 c rest hx hu hU hoctal hletter =>
    intro _
    rw [Escape.read, if_neg hx, if_neg hu, if_neg hU, if_neg hoctal,
      Option.not_isSome_iff_eq_none.1 hletter]
  | _ =>
    intro h
    cases h

/-- An escape has a form. -/
theorem of?_of_spans {text : List Char} {n : Nat} (h : Spans (Escape.read text) n) :
    ∃ form, of? text = some (form, n) := by
  cases hform : of? text with
  | none =>
    rw [read_of_of?_none hform] at h
    obtain ⟨bytes, h⟩ | h := h <;> cases h
  | some found =>
    obtain ⟨form, m⟩ := found
    have hspans := (reads_of_of? hform).spans
    obtain ⟨bytes, h⟩ | h := h <;> obtain ⟨bytes', h'⟩ | h' := hspans <;>
      cases h.symm.trans h' <;> exact ⟨form, rfl⟩

/-- What is no escape has no form of one. -/
theorem of?_eq_none {text : List Char} (h : Escape.read text = .none) : of? text = none := by
  cases hform : of? text with
  | none => rfl
  | some found =>
    have hspans := (reads_of_of? (n := found.2) hform).spans
    rw [h] at hspans
    obtain ⟨bytes, h'⟩ | h' := hspans <;> cases h'

end EscapeForm

/-! ## Strings -/

theorem utf8_quote {c : Char} (h : c = '"' ∨ c = '\'') :
    ∃ byte, utf8 [c] = [byte] ∧ String.utf8EncodeChar c = [byte] ∧ c.utf8Size = 1 := by
  rcases h with rfl | rfl
  · exact ⟨34, by decide, by decide, rfl⟩
  · exact ⟨39, by decide, by decide, rfl⟩

theorem utf8_quote_inj {c d : Char} (hc : c = '"' ∨ c = '\'') (hd : d = '"' ∨ d = '\'')
    {byte : UInt8} (h : utf8 [c] = [byte]) (h' : utf8 [d] = [byte]) : c = d := by
  rcases hc with rfl | rfl <;> rcases hd with rfl | rfl
  · rfl
  · exact absurd (h.trans h'.symm) (by decide)
  · exact absurd (h.trans h'.symm) (by decide)
  · rfl

/-- The body of a literal as read by bytes, from how it is read by characters. -/
def LiteralBody.ofRead (text : List Char) (b : StringBody) : LiteralBody :=
  ⟨byteLength (text.take b.length), b.bytes, b.faults⟩

theorem LiteralBody.ofRead_prepend (first rest : List Char) {n : Nat} (hn : n = first.length)
    (bytes : List UInt8) (faults : List LexicalFault) (b : StringBody) :
    LiteralBody.ofRead (first ++ rest) (b.prepend n bytes faults) =
      (LiteralBody.ofRead rest b).prepend (byteLength first) bytes faults := by
  rw [LiteralBody.ofRead, LiteralBody.ofRead, StringBody.prepend, LiteralBody.prepend, hn,
    List.take_length_add_append, byteLength_append]

/-- An escape in the body of a literal is passed by the number of its bytes. -/
theorem body?_escape {terminator : UInt8} {opening offset : Nat} {text : List Char}
    {form : EscapeForm} {n : Nat} (hform : EscapeForm.of? text = some (form, n)) {b : StringBody}
    (hrest : body? terminator opening (offset + 1 + n + byteLength (text.drop n))
      (offset + 1 + n) (text.drop n) = some (.ofRead (text.drop n) b)) :
    body? terminator opening (offset + byteLength ('\\' :: text)) offset ('\\' :: text) =
      some (match Escape.read text with
        | .value bytes _ => .ofRead ('\\' :: text) (b.prepend (1 + n) bytes [])
        | _ => .ofRead ('\\' :: text) (b.prepend (1 + n) []
            [⟨.invalidStringEscape, ⟨offset, offset + 1 + n⟩⟩])) := by
  have hreads := EscapeForm.reads_of_of? hform
  have hsize : byteLength ('\\' :: text.take n) = 1 + n := by
    rw [byteLength_cons, hreads.size]; rfl
  have htotal : offset + byteLength ('\\' :: text) =
      offset + 1 + n + byteLength (text.drop n) := by
    conv => lhs; rw [← List.take_append_drop n text]
    rw [← List.cons_append, byteLength_append, hsize]
    omega
  have hlength : 1 + n = ('\\' :: text.take n).length := by
    rw [List.length_cons, List.length_take_of_le hreads.length_le, Nat.add_comm]
  have hprepend : ∀ bytes faults,
      LiteralBody.ofRead ('\\' :: text) (b.prepend (1 + n) bytes faults) =
        (LiteralBody.ofRead (text.drop n) b).prepend (1 + n) bytes faults := by
    intro bytes faults
    have h := LiteralBody.ofRead_prepend _ (text.drop n) hlength bytes faults b
    rwa [List.cons_append, List.take_append_drop, hsize] at h
  rw [body?, if_neg (by decide), if_neg (by decide), if_neg (by decide), if_pos rfl, hform]
  simp only [hsize, htotal, ← Nat.add_assoc, hrest, hreads.read, Option.bind_eq_bind,
    Option.bind_some, hprepend]
  cases Escape.read text <;> rfl

/-- The body of a literal is read by bytes as it is by characters. -/
theorem body?_eq {quote : Char} (hquote : quote = '"' ∨ quote = '\'') {terminator : UInt8}
    (hterminator : utf8 [quote] = [terminator]) (opening : Nat) (offset : Nat) (text : List Char) :
    body? terminator opening (offset + byteLength text) offset text =
      some (.ofRead text (.read quote opening offset text)) := by
  fun_induction StringBody.read quote opening offset text with
  | case1 offset => rw [body?]; rfl
  | case2 offset text =>
    obtain ⟨byte, -, -, hsize⟩ := utf8_quote hquote
    rw [body?, if_pos hquote, soleByte?, hterminator]
    simp [LiteralBody.ofRead, hsize]
  | case3 offset text hne =>
    rw [body?, if_neg (by decide), if_pos rfl]
    rfl
  | case4 offset text hne hnl ih =>
    have htotal : offset + byteLength ('\x00' :: text) = offset + 1 + byteLength text := by
      rw [byteLength_cons, ← Nat.add_assoc]; rfl
    rw [body?, if_neg (by decide), if_neg (by decide), if_pos rfl, htotal, ih]
    exact congrArg some (LiteralBody.ofRead_prepend ['\x00'] text rfl ..).symm
  | case5 offset text bytes n hread _ _ _ ih =>
    obtain ⟨form, hform⟩ := EscapeForm.of?_of_spans (.inl ⟨bytes, hread⟩)
    rw [body?_escape hform ih, hread]
  | case6 offset text n hread _ _ _ ih =>
    obtain ⟨form, hform⟩ := EscapeForm.of?_of_spans (.inr hread)
    rw [body?_escape hform ih, hread]
  | case7 offset text hread _ _ _ ih =>
    have htotal : offset + byteLength ('\\' :: text) = offset + 1 + byteLength text := by
      rw [byteLength_cons, ← Nat.add_assoc]; rfl
    rw [body?, if_neg (by decide), if_neg (by decide), if_neg (by decide), if_pos rfl,
      EscapeForm.of?_eq_none hread, htotal, ih]
    exact congrArg some (LiteralBody.ofRead_prepend ['\\'] text rfl ..).symm
  | case8 offset c text hne hnl hnul hback ih =>
    have htotal : offset + byteLength (c :: text) = offset + c.utf8Size + byteLength text := by
      rw [byteLength_cons, ← Nat.add_assoc]
    have hprepend : ∀ b, LiteralBody.ofRead (c :: text)
        (StringBody.prepend 1 (String.utf8EncodeChar c) [] b) =
          (LiteralBody.ofRead text b).prepend c.utf8Size (String.utf8EncodeChar c) [] :=
      LiteralBody.ofRead_prepend [c] text rfl _ _
    rw [hprepend, body?]
    by_cases hc : c = '"' ∨ c = '\''
    · obtain ⟨byte, hbyte, hencode, hsize⟩ := utf8_quote hc
      have hother : byte ≠ terminator := by
        rintro rfl
        exact hne (utf8_quote_inj hc hquote hbyte hterminator)
      rw [if_pos hc, soleByte?, hbyte, htotal, ← hsize, ih, hencode, hsize]
      simp [hother]
    · rw [if_neg hc, if_neg hnl, if_neg hnul, if_neg hback, htotal, ih]
      rfl

/-- A string ends where its literal does. -/
theorem string?_eq (before : List Char) {quote : Char} (hquote : quote = '"' ∨ quote = '\'')
    (rest : List Char) {place : Place} (hplace : place.offset = byteLength before) :
    let r := ProtoSchema.Reading.string place quote rest
    string? (before ++ quote :: rest) ⟨byteLength before, byteLength before + quote.utf8Size⟩ =
      some ⟨r.token, byteLength before + byteLength ((quote :: rest).take r.length), r.faults⟩ := by
  obtain ⟨terminator, hterminator, -, -⟩ := utf8_quote hquote
  have hopening : slice? (before ++ quote :: rest)
      ⟨byteLength before, byteLength before + quote.utf8Size⟩ = some [quote] :=
    slice?_append before [quote] rest
  have hstop : byteLength before + quote.utf8Size = byteLength (before ++ [quote]) := by
    rw [byteLength_append]; rfl
  have hsource : before ++ quote :: rest = (before ++ [quote]) ++ rest := by simp
  have hdrop : dropBytes? (before ++ quote :: rest) (byteLength before + quote.utf8Size) =
      some rest := by
    rw [hstop, hsource, dropBytes?_append]
  have htotal : byteLength (before ++ quote :: rest) =
      byteLength before + quote.utf8Size + byteLength rest := by
    rw [byteLength_append, byteLength_cons, Nat.add_assoc]
  have hadvance : ∀ n, advance? (before ++ quote :: rest) (byteLength before + quote.utf8Size)
      (byteLength (rest.take n)) =
        some (byteLength before + byteLength ((quote :: rest).take (n + 1))) := by
    intro n
    have h := advance?_append (before ++ [quote]) (rest.take n) (rest.drop n)
    rwa [List.take_append_drop, ← hsource, ← hstop, Nat.add_assoc] at h
  simp only [string?, hopening, hterminator, hdrop, htotal, body?_eq hquote hterminator,
    LiteralBody.ofRead, hadvance, Option.bind_eq_bind, Option.bind_some, List.getElem?_cons_zero,
    ProtoSchema.Reading.string, Place.span, hplace]
  generalize StringBody.read quote (byteLength before) (byteLength before + quote.utf8Size) rest =
    body
  cases decodeUtf8? body.bytes <;> rfl

end ProtoSchema.Checked
