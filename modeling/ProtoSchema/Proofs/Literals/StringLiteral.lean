import ProtoSchema.Proofs.Lexing.LineEnds
import ProtoSchema.Proofs.Lexing.Longest
import ProtoSchema.Proofs.Literals.StringRule

/-
  String literals of a source. A quote that starts a token starts a literal, and the token has the
  text that the scan of this literal denotes (`pieces_string`). If the scan denotes none, one of the
  faults that are reported lies in the literal: faults of other tokens are not joined with those in
  a literal, since none of these starts at its opening quote.
-/

namespace ProtoSchema

/-- The scan of a literal denotes a text if it ends at the closing quote, no piece of it is faulty,
and the bytes of its pieces are those of the text. -/
structure Denotes (ps : List StringPiece) (ending : LiteralEnd) (value : String) : Prop where
  closed : ending = .quote
  valued : ∀ p ∈ ps, p.value? ≠ none
  bytes : ps.flatMap StringPiece.bytes = Checked.utf8 value.toList

/-! ## Bytes -/

theorem toByteArray_eq (text : String) :
    text.toByteArray = ⟨(Checked.utf8 text.toList).toArray⟩ := by
  rw [← String.utf8Encode_toList, List.utf8Encode]
  exact ByteArray.ext List.data_toByteArray

/-- Bytes are decoded as the text with these bytes, if there is one. -/
theorem decodeUtf8?_eq_some {bytes : List UInt8} {text : String} :
    decodeUtf8? bytes = some text ↔ bytes = Checked.utf8 text.toList := by
  have hbytes : text.toByteArray = ⟨bytes.toArray⟩ ↔ bytes = Checked.utf8 text.toList := by
    rw [toByteArray_eq]
    constructor
    · intro h
      exact (List.toArray_inj (ByteArray.mk.inj h)).symm
    · rintro rfl
      rfl
  rw [decodeUtf8?, String.fromUTF8?, ← hbytes]
  constructor
  · intro h
    split at h
    · cases h
      rfl
    · cases h
  · intro h
    have hvalid : ByteArray.IsValidUTF8 ⟨bytes.toArray⟩ := h ▸ text.isValidUTF8
    rw [dif_pos hvalid]
    exact congrArg some (String.toByteArray_inj.1 h.symm)

/-! ## The token of a literal -/

section Literal

variable {quote : Char} (hquote : quote = '"' ∨ quote = '\'')

include hquote

theorem Pattern.longest?_quote (text : List Char) :
    longest? (quote :: text) = some (.quote, 1) := by
  refine longest?_of_starts (fun q hq => ?_) (if_pos hquote) Nat.one_pos
  cases q with
  | quote => rfl
  | punct p => rcases hquote with rfl | rfl <;> cases p <;> exact absurd hq (by decide)
  | _ => rcases hquote with rfl | rfl <;> exact absurd hq (by decide)

theorem Piece.first_string (place : Place) (text : List Char) :
    first place quote text =
      ⟨.token (Reading.string place quote text).token,
        (quote :: text).take (Reading.string place quote text).length,
        place.span ((quote :: text).take (Reading.string place quote text).length),
        (Reading.string place quote text).faults⟩ := by
  have hlayout : ¬isLayout quote = true := by
    rcases hquote with rfl | rfl <;> decide
  unfold first
  rw [if_neg hlayout, Pattern.longest?_quote hquote]
  rfl

omit hquote in
theorem Reading.string_length (place : Place) (text : List Char) :
    (string place quote text).length =
      (StringBody.read quote place.offset (place.offset + quote.utf8Size) text).length + 1 := by
  unfold string
  dsimp only
  split <;> rfl

omit hquote in
/-- A literal has a value and no fault if its body has no fault and bytes that are a text. -/
theorem Reading.string_eq (place : Place) (text : List Char) (value : String) :
    ((string place quote text).token = .string value ∧ (string place quote text).faults = []) ↔
      (StringBody.read quote place.offset (place.offset + quote.utf8Size) text).faults = [] ∧
        (StringBody.read quote place.offset (place.offset + quote.utf8Size) text).bytes =
          Checked.utf8 value.toList := by
  rw [← decodeUtf8?_eq_some]
  unfold string
  dsimp only
  split
  · next hdecode =>
    rw [hdecode]
    simp [and_comm]
  · next hdecode =>
    rw [hdecode]
    simp

omit hquote in
theorem Reading.exists_token_string (place : Place) (text : List Char) :
    ∃ value, (string place quote text).token = .string value := by
  rw [string]
  dsimp only
  split <;> exact ⟨_, rfl⟩

/-- The piece that a quote starts reaches to the end of the scan, and has the text that the scan
denotes. -/
theorem Piece.first_literal (place : Place) {text rest : List Char} {ps : List StringPiece}
    {ending : LiteralEnd} (h : StringScan quote text ps ending rest) :
    (first place quote text).text =
        quote :: (ps.flatMap StringPiece.text ++ ending.text quote) ∧
      text = ps.flatMap StringPiece.text ++ ending.text quote ++ rest ∧
      ∀ value, (first place quote text).content = .token (.string value) ∧
        (first place quote text).faults = [] ↔ Denotes ps ending value := by
  obtain ⟨hbytes, hfaults, htake, htext⟩ :=
    h.read hquote place.offset (place.offset + quote.utf8Size)
  rw [first_string hquote, Reading.string_length, List.take_succ_cons]
  refine ⟨congrArg (quote :: ·) htake, htext, fun value => ?_⟩
  rw [Content.token.injEq, Reading.string_eq, hfaults, hbytes]
  exact ⟨fun ⟨⟨hclosed, hvalued⟩, hvalue⟩ => ⟨hclosed, hvalued, hvalue⟩,
    fun h => ⟨⟨h.closed, h.valued⟩, h.bytes⟩⟩

end Literal

/-! ## Reported faults of a literal -/

/-- A piece of a literal that is at fault stands behind the place that is read from. -/
theorem start_of_mem_read {quote : Char} {opening offset : Nat} {text : List Char}
    {f : LexicalFault} (h : f ∈ (StringBody.read quote opening offset text).faults)
    (hf : f.isStringPiece = true) : offset ≤ f.span.start := by
  fun_induction StringBody.read quote opening offset text with
  | case1 | case3 =>
    rw [List.mem_singleton.1 h] at hf
    cases hf
  | case2 => cases h
  | case4 _ _ _ _ ih | case6 _ _ _ _ _ _ _ ih | case7 _ _ _ _ _ _ ih =>
    rcases List.mem_cons.1 h with rfl | h
    · exact Nat.le_refl _
    · have hle := ih h
      omega
  | case5 _ _ _ _ _ _ _ _ ih | case8 _ _ _ _ _ _ _ ih =>
    have hle := ih h
    omega

/-- So it does not stand at the start of its token. -/
theorem start_lt_of_mem_ofMatch {place : Place} {pattern : Pattern} {n : Nat} {c : Char}
    {rest : List Char} {f : LexicalFault}
    (h : f ∈ (Reading.ofMatch place pattern n c rest).faults) (hf : f.isStringPiece = true) :
    place.offset < f.span.start := by
  cases pattern with
  | quote =>
    have hbody
        (hmem : f ∈ (StringBody.read c place.offset (place.offset + c.utf8Size) rest).faults) :
        place.offset < f.span.start :=
      Nat.lt_of_lt_of_le (Nat.lt_add_of_pos_right c.utf8Size_pos) (start_of_mem_read hmem hf)
    rw [Reading.ofMatch, Reading.string] at h
    dsimp only at h
    split at h
    · exact hbody h
    · rcases List.mem_append.1 h with h | h
      · exact hbody h
      · rw [List.mem_singleton.1 h] at hf
        cases hf
  | integer | hexInteger =>
    rw [Reading.ofMatch, Reading.integer] at h
    split at h
    · cases h
    · rw [List.mem_singleton.1 h] at hf
      cases hf
  | blockOpening =>
    rw [Reading.ofMatch, Reading.blockComment] at h
    split at h
    · cases h
    · rw [List.mem_singleton.1 h] at hf
      cases hf
  | _ => cases h

theorem Piece.CutOff.start_lt {offset : Nat} {p : Piece} {rest : List Char}
    (h : p.CutOff offset rest) {f : LexicalFault} (hf : f ∈ p.faults)
    (hpiece : f.isStringPiece = true) : offset < f.span.start := by
  have hkind := h.kind
  cases hcontent : p.content with
  | layout =>
    rw [hcontent] at hkind
    rw [hkind.2] at hf
    cases hf
  | invalid =>
    rw [h.faults_eq hcontent] at hf
    rw [List.mem_singleton.1 hf] at hpiece
    cases hpiece
  | token t =>
    rw [hcontent] at hkind
    obtain ⟨place, pattern, n, c, others, rfl, -, -, -, -, hfaults⟩ := hkind
    exact start_lt_of_mem_ofMatch (hfaults ▸ hf) hpiece

theorem Tiles.start_lt {offset : Nat} {ps : List Piece} {text : List Char}
    (h : Tiles offset ps text) :
    ∀ f ∈ faults ps, f.isStringPiece = true → offset < f.span.start := by
  induction h with
  | nil => exact fun f hf => nomatch hf
  | @cons offset p ps rest first _ ih =>
    intro f hf hpiece
    rw [faults, List.flatMap_cons] at hf
    rcases List.mem_append.1 hf with hf | hf
    · exact first.start_lt hf hpiece
    · have hlt := ih f hf hpiece
      rw [first.span] at hlt
      exact Nat.lt_of_le_of_lt (Nat.le_add_right _ _) hlt

/-- A piece starts where all faults before it have ended. -/
theorem Tiles.split {offset : Nat} {ps qs : List Piece} {p : Piece} {text : List Char}
    (h : Tiles offset (ps ++ p :: qs) text) :
    ∃ start rest, offset ≤ start ∧ (∀ f ∈ faults ps, f.span.stop ≤ start) ∧
      p.CutOff start rest ∧ Tiles p.span.stop qs rest := by
  induction ps generalizing offset text with
  | nil =>
    cases h with
    | cons first others => exact ⟨offset, _, Nat.le_refl _, nofun, first, others⟩
  | cons q ps ih =>
    cases h with
    | cons first others =>
      obtain ⟨start, rest, hle, hfaults, hp, hothers⟩ := ih others
      have hq : q.span.stop = offset + byteLength q.text := by rw [first.span]
      refine ⟨start, rest, by omega, fun f hf => ?_, hp, hothers⟩
      rw [faults, List.flatMap_cons] at hf
      rcases List.mem_append.1 hf with hf | hf
      · have hstop := (first.covers f hf).bounds.2.2
        omega
      · exact hfaults f hf

/-- The faults of a piece that is no invalid character are joined among themselves only. -/
theorem Tiles.join_piece {ps qs : List Piece} {p : Piece} {text : List Char}
    (h : Tiles 0 (ps ++ p :: qs) text) (hp : p.content ≠ .invalid) (hfaults : p.faults ≠ []) :
    LexicalFault.join (faults (ps ++ p :: qs)) =
      LexicalFault.join (faults ps) ++
        (LexicalFault.join p.faults ++ LexicalFault.join (faults qs)) := by
  obtain ⟨start, rest, -, hbefore, hcut, hothers⟩ := h.split
  have hstring {f g : LexicalFault} (hcontinues : f.continues g = true)
      (hvalid : f.isInvalid = false ∨ g.isInvalid = false) : g.isStringPiece = true := by
    rw [LexicalFault.continues, Bool.and_eq_true, Bool.or_eq_true, Bool.and_eq_true,
      Bool.and_eq_true] at hcontinues
    rcases hcontinues.2 with ⟨hf, hg⟩ | ⟨-, hg⟩
    · rcases hvalid with hvalid | hvalid
      · exact absurd hf (Bool.eq_false_iff.1 hvalid)
      · exact absurd hg (Bool.eq_false_iff.1 hvalid)
    · exact hg
  have htouch {f g : LexicalFault} (hcontinues : f.continues g = true) :
      f.span.stop = g.span.start := by
    rw [LexicalFault.continues, Bool.and_eq_true, beq_iff_eq] at hcontinues
    exact hcontinues.1
  have hvalid := hcut.isInvalid_eq_false hp
  rw [faults, List.flatMap_append, List.flatMap_cons, ← faults, ← faults,
    LexicalFault.join_append_of_continues, LexicalFault.join_append_of_continues]
  · intro f hf g hg
    refine Bool.eq_false_iff.2 fun hcontinues => ?_
    have hf' := List.mem_of_getLast? hf
    have hstart := hothers.start_lt g (List.mem_of_mem_head? hg)
      (hstring hcontinues (.inl (hvalid f hf')))
    have hstop := (hcut.covers f hf').bounds.2.2
    rw [← htouch hcontinues, hcut.span] at hstart
    exact Nat.lt_irrefl _ (Nat.lt_of_lt_of_le hstart hstop)
  · intro f hf g hg
    refine Bool.eq_false_iff.2 fun hcontinues => ?_
    rw [List.head?_append_of_ne_nil _ hfaults] at hg
    have hg' := List.mem_of_mem_head? hg
    have hstart := hcut.start_lt hg' (hstring hcontinues (.inr (hvalid g hg')))
    have hstop := hbefore f (List.mem_of_getLast? hf)
    rw [htouch hcontinues] at hstop
    exact Nat.lt_irrefl _ (Nat.lt_of_lt_of_le hstart hstop)

/-- If a token is at fault, then one of the faults that are reported lies in it. -/
theorem exists_reported {source : List Char} {p : Piece} (hp : p ∈ pieces source)
    (hcontent : p.content ≠ .invalid) (hfaults : p.faults ≠ []) :
    ∃ found, tokenize source = .error found ∧
      ∃ f ∈ found, p.span.start ≤ f.span.start ∧ f.span.stop ≤ p.span.stop := by
  obtain ⟨ps, qs, hpieces⟩ := List.append_of_mem hp
  have htiles := pieces_tiles source
  rw [hpieces] at htiles
  have hjoin := htiles.join_piece hcontent hfaults
  obtain ⟨start, rest, -, -, hcut, -⟩ := htiles.split
  obtain ⟨f, hf⟩ := List.exists_mem_of_ne_nil _ (mt LexicalFault.join_eq_nil.1 hfaults)
  have hwithin : start ≤ f.span.start ∧ f.span.stop ≤ start + byteLength p.text := by
    refine LexicalFault.forall_mem_join
      (P := fun f => start ≤ f.span.start ∧ f.span.stop ≤ start + byteLength p.text)
      (fun f g hf hg _ => ⟨hf.1, hg.2⟩) (fun g hg => ?_) f hf
    have hbounds := (hcut.covers g hg).bounds
    exact ⟨hbounds.1, hbounds.2.2⟩
  have hreported : f ∈ lexicalFaults (pieces source) := by
    rw [lexicalFaults, hpieces, ← faults, hjoin]
    exact List.mem_append_right _ (List.mem_append_left _ hf)
  refine ⟨lexicalFaults (pieces source), ?_, f, hreported, by rwa [hcut.span]⟩
  rw [tokenize]
  cases hlexical : lexicalFaults (pieces source) with
  | nil => exact absurd (hlexical ▸ hreported) List.not_mem_nil
  | cons => rfl

/-! ## Literals of a source -/

/-- A quote that starts a token starts a literal, which is scanned by the rule. The token is a
string with exactly the text that the scan denotes, and it stands from the opening quote to the end
of the scan. If the scan denotes no text, a fault that lies in the literal is reported. -/
theorem pieces_string {source : List Char} {p : Piece} (hp : p ∈ pieces source) {quote : Char}
    (hquote : quote = '"' ∨ quote = '\'') (hstart : p.text.head? = some quote) :
    ∃ before text, source = before ++ quote :: text ∧
      p.span = ⟨byteLength before, byteLength before + byteLength p.text⟩ ∧
      (∃ value, p.content = .token (.string value)) ∧
      (∃ ps ending rest, StringScan quote text ps ending rest) ∧
      ∀ ps ending rest, StringScan quote text ps ending rest →
        p.text = quote :: (ps.flatMap StringPiece.text ++ ending.text quote) ∧
        text = ps.flatMap StringPiece.text ++ ending.text quote ++ rest ∧
        (∀ value, p.lexeme? = some ⟨.string value, String.ofList p.text, p.span⟩ ∧ p.faults = [] ↔
          Denotes ps ending value) ∧
        ((∀ value, ¬Denotes ps ending value) → p.faults ≠ [] ∧ ∃ found,
          tokenize source = .error found ∧
            ∃ f ∈ found, p.span.start ≤ f.span.start ∧ f.span.stop ≤ p.span.stop) := by
  obtain ⟨before, c, text, hsource, hfirst⟩ := Checked.exists_of_mem_piecesFrom [] hp
  obtain rfl : c = quote := by
    obtain ⟨hne, others, hothers⟩ := Piece.first_text (Place.start.after before) c text
    rw [← hfirst] at hne hothers
    obtain ⟨d, rest, hrest⟩ := List.exists_cons_of_ne_nil hne
    rw [hrest] at hstart hothers
    exact (List.cons_eq_cons.1 hothers).1.symm.trans (Option.some.inj hstart)
  have hspan := Checked.first_span (Place.start.after before) c text
  rw [← hfirst, Checked.after_start] at hspan
  obtain ⟨value, hvalue⟩ : ∃ value,
      (Reading.string (Place.start.after before) c text).token = .string value :=
    Reading.exists_token_string _ _
  have hcontent : p.content = .token (.string value) := by
    rw [hfirst, Piece.first_string hquote, hvalue]
  refine ⟨before, text, hsource, hspan, ⟨value, hcontent⟩, StringScan.exists c text,
    fun ps ending rest hscan => ?_⟩
  obtain ⟨htext, hrest, hdenotes⟩ := Piece.first_literal hquote (Place.start.after before) hscan
  rw [← hfirst] at htext hdenotes
  refine ⟨htext, hrest, fun v => ?_, fun hnone => ?_⟩
  · rw [← hdenotes, Piece.lexeme?, hcontent]
    simp
  · have hfaults : p.faults ≠ [] := fun h => hnone value ((hdenotes value).1 ⟨hcontent, h⟩)
    refine ⟨hfaults, exists_reported hp ?_ hfaults⟩
    rw [hcontent]
    exact Content.noConfusion

/-- A literal with an escape for a byte, one for a character, and the other quote. -/
theorem pieces_string_escapes : ∃ p ∈ pieces "a = '\\x4Ag\\u00e9\"';".toList,
    p.text.head? = some '\'' ∧ p.faults = [] ∧
      p.lexeme? = some ⟨.string "Jg\u00e9\"", "'\\x4Ag\\u00e9\"'", ⟨4, 18⟩⟩ := by
  have hp : (⟨.token (.string "Jg\u00e9\""), "'\\x4Ag\\u00e9\"'".toList, ⟨4, 18⟩, []⟩ : Piece) ∈
      pieces "a = '\\x4Ag\\u00e9\"';".toList := by
    decide +kernel
  have hscan : StringScan '\'' "\\x4Ag\\u00e9\"';".toList
      [⟨"\\x4A".toList, some [74]⟩, ⟨['g'], some [103]⟩, ⟨"\\u00e9".toList, some [195, 169]⟩,
        ⟨['"'], some [34]⟩] .quote [';'] := by
    have hbyte : DigitRun 16 2 "4A".toList 74 "g\\u00e9\"';".toList :=
      ⟨.of_all (by decide) (by decide), by decide, by decide, by decide⟩
    have hcode : Numeral 16 "00e9".toList '\u00e9'.toNat := .of_all (by decide) (by decide)
    have hplain : PieceRule '\'' ⟨['g'], some [103]⟩ "\\u00e9\"';".toList :=
      .plain (List.cons_ne_nil _ _) (List.forall_mem_singleton.2 rfl) fun c hc => by cases hc; rfl
    refine .piece (.escape (.hexByte (.inl rfl) hbyte)) ?_
    refine .piece hplain ?_
    refine .piece (.escape (.codePoint (.inl rfl) hcode rfl)) ?_
    exact .piece (.otherQuote (.inl rfl) (by decide)) .quote
  obtain ⟨before, text, hsource, hspan, -, -, hliteral⟩ := pieces_string hp (.inr rfl) rfl
  have hcut : "a = ".toList ++ '\'' :: "\\x4Ag\\u00e9\"';".toList = before ++ '\'' :: text :=
    hsource
  obtain rfl := LexicalFault.append_inj_of_byteLength hcut (congrArg Span.start hspan)
  obtain ⟨-, rfl⟩ := List.cons_eq_cons.1 (List.append_cancel_left hcut)
  obtain ⟨hlexeme, hfaults⟩ := ((hliteral _ _ _ hscan).2.2.1 "Jg\u00e9\"").2
    ⟨rfl, by decide, by decide⟩
  exact ⟨_, hp, rfl, hfaults, hlexeme⟩

end ProtoSchema
