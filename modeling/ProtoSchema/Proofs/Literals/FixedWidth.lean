import ProtoSchema.Proofs.Lexing.LongestMatch

/-
  Integer literals in machine words. The digits are gathered in a word of 64 bits without a sign,
  the sign is applied in a word of 128 bits, and the result is narrowed to 64 bits with a sign.
  `read?_eq`: no step wraps or gives up on a literal whose number fits, whatever its length, and a
  number that does not fit is always noticed. `pieces_integer` says of every integer in a source
  that it is read as its number just if this fits, that else its span is reported as out of range,
  and that reading goes on behind it.
-/

namespace ProtoSchema

open TokenLanguage

/-! ## Reading in machine words -/

namespace FixedWidth

/-- The magnitude with one more digit, unless a product or a sum does not fit. -/
def pushDigit? (base : Nat) (m : BitVec 64) (c : Char) : Option (BitVec 64) :=
  if isHexDigit c = true ∧ digitValue c < base then
    let b := BitVec.ofNat 64 base
    let d := BitVec.ofNat 64 (digitValue c)
    if m.umulOverflow b || (m * b).uaddOverflow d then none else some (m * b + d)
  else none

/-- The magnitude that digits denote; there has to be one. -/
def magnitude? (base : Nat) (digits : List Char) : Option (BitVec 64) :=
  if digits = [] then none else digits.foldlM (pushDigit? base) 0

/-- A magnitude with a sign, in twice as many bits. -/
def withSign (negative : Bool) (m : BitVec 64) : BitVec 128 :=
  if negative then -m.setWidth 128 else m.setWidth 128

/-- Back to 64 bits, unless the number does not fit. -/
def narrow? (n : BitVec 128) : Option Int64 :=
  if Int64.minValue.toInt ≤ n.toInt ∧ n.toInt ≤ Int64.maxValue.toInt then
    some (Int64.ofBitVec (n.setWidth 64))
  else none

/-- The integer that a literal denotes: its digits come behind the sign and `marker` more
characters. -/
def integer? (base marker : Nat) (literal : List Char) : Option Int64 := do
  let m ← magnitude? base (literal.drop (signLength literal + marker))
  narrow? (withSign (signLength literal == 1) m)

/-- The integer of a literal that a pattern matches. -/
def read? : Pattern → List Char → Option Int64
  | .integer => integer? 10 0
  | .hexInteger => integer? 16 2
  | _ => fun _ => none

/-! ## Each step is exact -/

theorem toNat_ofNat_of_lt {n : Nat} (h : n < 2 ^ 64) : (BitVec.ofNat 64 n).toNat = n := by
  rw [BitVec.toNat_ofNat, Nat.mod_eq_of_lt h]

/-- A product or a sum is noticed not to fit just if the number does not. -/
theorem overflow_iff {m : BitVec 64} {base d : Nat} (hbase : base < 2 ^ 64) (hd : d < 2 ^ 64) :
    (m.umulOverflow (BitVec.ofNat 64 base) ||
        (m * BitVec.ofNat 64 base).uaddOverflow (BitVec.ofNat 64 d)) = true ↔
      ¬m.toNat * base + d < 2 ^ 64 := by
  have hword := toNat_ofNat_of_lt hbase
  rw [Bool.or_eq_true, BitVec.umulOverflow, BitVec.uaddOverflow, hword, toNat_ofNat_of_lt hd,
    decide_eq_true_eq, decide_eq_true_eq, BitVec.toNat_mul, hword]
  by_cases hmul : m.toNat * base < 2 ^ 64
  · rw [Nat.mod_eq_of_lt hmul]
    omega
  · exact iff_of_true (.inl (Nat.not_lt.1 hmul)) fun h =>
      hmul (Nat.lt_of_le_of_lt (Nat.le_add_right _ d) h)

theorem pushDigit?_eq {base d : Nat} {m : BitVec 64} {c : Char} (hbase : base ≤ 16)
    (hc : Digit c d) (hd : d < base) :
    pushDigit? base m c = if m.toNat * base + d < 2 ^ 64 then
      some (BitVec.ofNat 64 (m.toNat * base + d)) else none := by
  obtain ⟨hvalue, hhex, -, -⟩ := hc.spec (by omega)
  have hsum : m * BitVec.ofNat 64 base + BitVec.ofNat 64 d =
      BitVec.ofNat 64 (m.toNat * base + d) := by
    rw [BitVec.ofNat_add, BitVec.ofNat_mul, BitVec.ofNat_toNat, BitVec.setWidth_eq]
  unfold pushDigit?
  rw [hvalue, if_pos ⟨hhex, hd⟩]
  dsimp only
  rw [hsum]
  by_cases hfits : m.toNat * base + d < 2 ^ 64
  · rw [if_pos hfits, if_neg fun h => (overflow_iff (by omega) (by omega)).1 h hfits]
  · rw [if_neg hfits, if_pos ((overflow_iff (by omega) (by omega)).2 hfits)]

/-- Digits are gathered to the number that they stand for, however many there are, just if it fits.
What does not fit stays so with more digits. -/
theorem foldlM_pushDigit? {base n : Nat} {digits : List Char} (hbase : base ≤ 16)
    (h : Numeral base digits n) :
    digits.foldlM (pushDigit? base) 0 =
      if n < 2 ^ 64 then some (BitVec.ofNat 64 n) else none := by
  induction h with
  | nil => rfl
  | @snoc digits n c d _ hc hd ih =>
    rw [List.foldlM_append, ih]
    by_cases hn : n < 2 ^ 64
    · have hpush := pushDigit?_eq (m := BitVec.ofNat 64 n) hbase hc hd
      rw [toNat_ofNat_of_lt hn] at hpush
      rw [if_pos hn, Option.bind_eq_bind, Option.bind_some, List.foldlM_cons, hpush]
      exact bind_pure _
    · have hle : n ≤ n * base + d := by
        have hpos : 0 < base := by omega
        exact Nat.le_trans (Nat.le_mul_of_pos_right n hpos) (Nat.le_add_right _ d)
      rw [if_neg hn, if_neg (by omega)]
      rfl

theorem toInt_withSign (negative : Bool) (m : BitVec 64) :
    (withSign negative m).toInt = if negative then -(m.toNat : Int) else m.toNat := by
  have hm := m.isLt
  have hwide : (m.setWidth 128).toInt = m.toNat := by
    rw [BitVec.toInt_setWidth]
    apply Int.bmod_eq_of_le <;> omega
  cases negative with
  | false => exact hwide
  | true =>
    change (-m.setWidth 128).toInt = -(m.toNat : Int)
    rw [BitVec.toInt_neg, hwide]
    apply Int.bmod_eq_of_le <;> omega

theorem narrow?_eq (n : BitVec 128) :
    (narrow? n).map Int64.toInt =
      if -2 ^ 63 ≤ n.toInt ∧ n.toInt ≤ 2 ^ 63 - 1 then some n.toInt else none := by
  have hmin : Int64.minValue.toInt = -2 ^ 63 := by decide
  have hmax : Int64.maxValue.toInt = 2 ^ 63 - 1 := by decide
  unfold narrow?
  rw [hmin, hmax]
  split
  · next hn =>
    have hdvd : 2 ^ 64 ∣ 2 ^ 128 := Nat.pow_dvd_pow 2 (by decide)
    rw [Option.map_some, Int64.toInt_ofBitVec, BitVec.toInt_setWidth,
      ← Int.bmod_bmod_of_dvd hdvd, ← BitVec.toInt_eq_toNat_bmod]
    refine congrArg some (Int.bmod_eq_of_le ?_ ?_) <;> omega
  · rfl

/-- A literal is read as its number just if this fits. -/
theorem integer?_eq {base marker m : Nat} {literal : List Char} (hbase : base ≤ 16)
    (hne : literal.drop (signLength literal + marker) ≠ [])
    (h : Numeral base (literal.drop (signLength literal + marker)) m) :
    (integer? base marker literal).map Int64.toInt =
      if -2 ^ 63 ≤ integerValue base marker literal ∧ integerValue base marker literal ≤ 2 ^ 63 - 1
      then some (integerValue base marker literal) else none := by
  have hvalue : integerValue base marker literal =
      if (signLength literal == 1) = true then -(m : Int) else m := by
    rw [integerValue, ((numeral_iff hbase).1 h).2]
    simp
  unfold integer? magnitude?
  rw [if_neg hne, foldlM_pushDigit? hbase h, hvalue]
  by_cases hm : m < 2 ^ 64
  · rw [if_pos hm, Option.bind_eq_bind, Option.bind_some, narrow?_eq, toInt_withSign,
      toNat_ofNat_of_lt hm]
  · rw [if_neg hm, if_neg]
    · rfl
    · split <;> omega

/-- Every integer literal is read as its number just if this fits. -/
theorem read?_eq {pattern : Pattern} {w : List Char} {n : Int} (h : w ∈ pattern.language)
    (hn : pattern = .integer ∧ integerValue 10 0 w = n ∨
      pattern = .hexInteger ∧ integerValue 16 2 w = n) :
    (read? pattern w).map Int64.toInt =
      if -2 ^ 63 ≤ n ∧ n ≤ 2 ^ 63 - 1 then some n else none := by
  rcases hn with ⟨rfl, rfl⟩ | ⟨rfl, rfl⟩
  · obtain ⟨hne, hdigits⟩ := mem_decimals.1 (unsigned_decimals.drop_sign h)
    exact integer?_eq (by decide) hne
      ((numeral_iff (by decide)).2 ⟨fun c hc => isDigit_iff.1 (hdigits c hc), rfl⟩)
  · obtain ⟨x, digits, -, hdigits, hdrop⟩ := mem_hexadecimal.1 (unsigned_hexadecimal.drop_sign h)
    obtain ⟨hne, hall⟩ := mem_oneOrMore_one.1 hdigits
    have hdrop : w.drop (signLength w + 2) = digits := by
      rw [← List.drop_drop, hdrop]
      rfl
    refine integer?_eq (by decide) (hdrop ▸ hne) ((numeral_iff (by decide)).2 ⟨?_, rfl⟩)
    rw [hdrop]
    exact fun c hc => isHexDigit_iff.1 (isHexDigit_iff_isHexadecimal.2 (hall c hc))

end FixedWidth

/-! ## Integers of a source -/

theorem fitsInt64_iff {n : Int} : fitsInt64 n = true ↔ -2 ^ 63 ≤ n ∧ n ≤ 2 ^ 63 - 1 := by
  rw [fitsInt64, Bool.and_eq_true, decide_eq_true_eq, decide_eq_true_eq, Int.le_sub_one_iff]
  rfl

/-- What is written as an integer is matched by one of the patterns of integers, in the base of
which it denotes its number. -/
theorem IntWritten.mem_language {text : List Char} {n : Int} (h : IntWritten text n) :
    text ∈ Pattern.language .integer ∧ integerValue 10 0 text = n ∨
      text ∈ Pattern.language .hexInteger ∧ integerValue 16 2 text = n := by
  have hmatched {p : Pattern} (hp : Pattern.longest? text = some (p, text.length)) :
      text ∈ p.language := by
    have hmatch := (LongestMatch.of_longest? hp).matched
    rwa [List.take_length] at hmatch
  exact h.longest?.imp (fun h => ⟨hmatched h.1, h.2⟩) fun h => ⟨hmatched h.1, h.2⟩

theorem IntWritten.head_not_layout {text : List Char} {n : Int} (h : IntWritten text n) :
    ∀ c ∈ text.head?, isLayout c = false := by
  obtain ⟨c, rest, rfl, hc⟩ : ∃ c rest, text = c :: rest ∧ (c = '-' ∨ c.isDigit = true) := by
    cases h with
    | pos magnitude => exact (Signed.pos magnitude.digit).head
    | neg magnitude => exact (Signed.neg magnitude.digit).head
  rintro d ⟨⟩
  refine Bool.eq_false_iff.2 fun hlayout => ?_
  rcases layout_cases hlayout with rfl | rfl | rfl | rfl | rfl | rfl <;>
    exact absurd hc (by decide)

/-- An integer is read as its number if this fits, and is at fault if not. -/
theorem Reading.integer_eq {base marker : Nat} {literal : List Char} {n : Int}
    (hn : integerValue base marker literal = n) (place : Place) :
    (integer place base marker literal).token =
        .int (if -2 ^ 63 ≤ n ∧ n ≤ 2 ^ 63 - 1 then n else 0) ∧
      (integer place base marker literal).faults =
        if -2 ^ 63 ≤ n ∧ n ≤ 2 ^ 63 - 1 then []
        else [⟨.integerOutOfRange, place.span literal⟩] := by
  unfold integer
  rw [hn]
  simp only [← fitsInt64_iff]
  split <;> exact ⟨rfl, rfl⟩

namespace Piece

variable {place : Place} {c : Char} {rest : List Char} {n : Int}

theorem first_of_longest? {pattern : Pattern} {k : Nat} (hlayout : isLayout c = false)
    (h : Pattern.longest? (c :: rest) = some (pattern, k)) :
    first place c rest =
      let r := Reading.ofMatch place pattern k c rest
      ⟨.token r.token, (c :: rest).take r.length, place.span ((c :: rest).take r.length),
        r.faults⟩ := by
  unfold first
  rw [if_neg (Bool.eq_false_iff.1 hlayout), h]

variable (h : IntWritten (first place c rest).text n)

include h

theorem not_layout_of_integer : isLayout c = false := by
  obtain ⟨hne, hstart⟩ := first_text place c rest
  obtain ⟨d, others, htext⟩ := List.exists_cons_of_ne_nil hne
  rw [htext] at hstart
  obtain ⟨rfl, -⟩ := List.cons_prefix_cons.1 hstart
  exact h.head_not_layout d (htext ▸ rfl)

/-- The text of a piece that is written as an integer is the longest match where it starts: it is
a match, and the longest match is a start of the piece. -/
theorem longest?_of_integer : ∃ pattern k,
    Pattern.longest? (c :: rest) = some (pattern, k) ∧
      (c :: rest).take k = (first place c rest).text := by
  obtain ⟨hne, hstart⟩ := first_text place c rest
  obtain ⟨q, hq⟩ : ∃ q : Pattern, (first place c rest).text ∈ q.language := by
    rcases h.mem_language with ⟨hmem, -⟩ | ⟨hmem, -⟩
    · exact ⟨_, hmem⟩
    · exact ⟨_, hmem⟩
  cases hlongest : Pattern.longest? (c :: rest) with
  | none => exact absurd (Pattern.longest?_eq_none_iff.1 hlongest q _ hq hstart) hne
  | some found =>
    obtain ⟨pattern, k⟩ := found
    have hmatch := LongestMatch.of_longest? hlongest
    refine ⟨pattern, k, rfl, List.IsPrefix.eq_of_length_le ?_ (hmatch.longest q _ hq hstart)⟩
    rw [first_of_longest? (not_layout_of_integer h) hlongest]
    exact (Reading.ofMatch_taken place hlongest).2.1

/-- So it is read as an integer, in the base that it is written in. -/
theorem first_integer :
    (first place c rest).content =
        .token (.int (if -2 ^ 63 ≤ n ∧ n ≤ 2 ^ 63 - 1 then n else 0)) ∧
      (first place c rest).faults = if -2 ^ 63 ≤ n ∧ n ≤ 2 ^ 63 - 1 then []
        else [⟨.integerOutOfRange, (first place c rest).span⟩] := by
  obtain ⟨pattern, k, hlongest, htake⟩ := longest?_of_integer h
  have hfirst : first place c rest = _ := first_of_longest? (not_layout_of_integer h) hlongest
  have hmatch := LongestMatch.of_longest? hlongest
  rw [htake] at hmatch
  obtain ⟨base, marker, hvalue, hreading⟩ : ∃ base marker,
      integerValue base marker (first place c rest).text = n ∧
        Reading.ofMatch place pattern k c rest =
          Reading.integer place base marker (first place c rest).text := by
    rw [← htake]
    rcases h.mem_language with ⟨hmem, hvalue⟩ | ⟨hmem, hvalue⟩
    · obtain rfl := hmatch.only _ hmem
      exact ⟨10, 0, htake ▸ hvalue, rfl⟩
    · obtain rfl := hmatch.only _ hmem
      exact ⟨16, 2, htake ▸ hvalue, rfl⟩
  obtain ⟨htoken, hfaults⟩ := Reading.integer_eq hvalue place
  rw [← hreading] at htoken hfaults
  rw [Checked.first_span, ← htoken, ← hfaults, hfirst]
  exact ⟨rfl, rfl⟩

end Piece

/-! ## Faults that are not joined -/

namespace LexicalFault

variable {f g : LexicalFault} {found : List LexicalFault}

/-- A fault that is not joined with others is reported just if it is found. -/
theorem mem_joinFrom_iff (hf : f.joins = false) : f ∈ joinFrom g found ↔ f ∈ g :: found := by
  have hne {k : LexicalFault} (hk : k.joins = true) : f ≠ k := by
    rintro rfl
    rw [hf] at hk
    cases hk
  induction found generalizing g with
  | nil => exact Iff.rfl
  | cons k found ih =>
    rw [joinFrom]
    split
    · next hcontinues =>
      obtain ⟨hg, hk⟩ := joins_of_continues hcontinues
      have hextend : (g.extend k).joins = true := hg
      simp only [ih, List.mem_cons, hne hg, hne hk, hne hextend, false_or]
    · rw [List.mem_cons, List.mem_cons]
      exact or_congr_right ih

theorem mem_join_iff (hf : f.joins = false) : f ∈ join found ↔ f ∈ found := by
  cases found with
  | nil => exact Iff.rfl
  | cons g found => exact mem_joinFrom_iff hf

end LexicalFault

theorem mem_tokenize_error {source : List Char} {f : LexicalFault} :
    (∃ found, tokenize source = .error found ∧ f ∈ found) ↔ f ∈ lexicalFaults (pieces source) := by
  unfold tokenize
  constructor
  · rintro ⟨found, h, hf⟩
    split at h
    · cases h
    · cases h
      exact hf
  · intro hf
    refine ⟨_, ?_, hf⟩
    split
    · next hnil => exact absurd (hnil ▸ hf) List.not_mem_nil
    · rfl

/-- A fault of a token that spans the token is reported just if it has been found there. -/
theorem mem_lexicalFaults_iff {source : List Char} {ps qs : List Piece} {p : Piece}
    {f : LexicalFault} (h : pieces source = ps ++ p :: qs) (hf : f.joins = false)
    (hspan : f.span = p.span) : f ∈ lexicalFaults (pieces source) ↔ f ∈ p.faults := by
  have htiles := pieces_tiles source
  rw [h] at htiles
  obtain ⟨start, rest, -, hbefore, hcut, hbehind⟩ := htiles.split
  have hpos := Checked.byteLength_pos hcut.ne_nil
  rw [lexicalFaults, LexicalFault.mem_join_iff hf, h, List.flatMap_append, List.flatMap_cons,
    List.mem_append, List.mem_append]
  constructor
  · rintro (hmem | hmem | hmem)
    · have hstop := hbefore f hmem
      rw [hspan, hcut.span] at hstop
      dsimp only at hstop
      omega
    · exact hmem
    · have hstart := hbehind.start_le f hmem
      rw [hspan, hcut.span] at hstart
      dsimp only at hstart
      omega
  · exact fun hmem => .inr (.inl hmem)

/-- An integer in a source, of any length, is its number just if this fits into 64 bits with a sign,
and else its span, with the sign, is reported as out of range; reading goes on behind it in either
case. In machine words no number that fits is lost, and none that does not fit is taken for
another. -/
theorem pieces_integer {source : List Char} {ps qs : List Piece} {p : Piece} {n : Int}
    (h : pieces source = ps ++ p :: qs) (hn : IntWritten p.text n) :
    (p.lexeme? = some ⟨.int n, String.ofList p.text, p.span⟩ ∧ p.faults = [] ↔
      -2 ^ 63 ≤ n ∧ n ≤ 2 ^ 63 - 1) ∧
    ((∃ found, tokenize source = .error found ∧ ⟨.integerOutOfRange, p.span⟩ ∈ found) ↔
      ¬(-2 ^ 63 ≤ n ∧ n ≤ 2 ^ 63 - 1)) ∧
    (¬(-2 ^ 63 ≤ n ∧ n ≤ 2 ^ 63 - 1) → p.faults = [⟨.integerOutOfRange, p.span⟩]) ∧
    (∃ behind, source = ps.flatMap Piece.text ++ (p.text ++ behind) ∧
      p.span = ⟨byteLength (ps.flatMap Piece.text),
        byteLength (ps.flatMap Piece.text) + byteLength p.text⟩ ∧
      qs = piecesFrom (Place.start.after (ps.flatMap Piece.text ++ p.text)) behind) ∧
    ∀ pattern : Pattern, p.text ∈ pattern.language →
      (FixedWidth.read? pattern p.text).map Int64.toInt =
        if -2 ^ 63 ≤ n ∧ n ≤ 2 ^ 63 - 1 then some n else none := by
  obtain ⟨c, rest, behind, hsource, hp, hbehind, hqs⟩ := piecesFrom_split h
  have hspan := Checked.first_span (Place.start.after (ps.flatMap Piece.text)) c rest
  obtain ⟨hcontent, hfaults⟩ := Piece.first_integer (hp ▸ hn)
  rw [← hp] at hspan hcontent hfaults
  rw [hbehind] at hsource
  refine ⟨?_, ?_, fun hout => by rw [hfaults, if_neg hout], ⟨behind, hsource, ?_, hqs⟩,
    fun pattern hpattern => FixedWidth.read?_eq hpattern (hn.mem_language.imp ?_ ?_)⟩
  · rw [Piece.lexeme?, hcontent, hfaults]
    by_cases hfits : -2 ^ 63 ≤ n ∧ n ≤ 2 ^ 63 - 1
    · rw [if_pos hfits, if_pos hfits]
      exact iff_of_true ⟨rfl, rfl⟩ hfits
    · rw [if_neg hfits, if_neg hfits]
      exact iff_of_false (fun hread => List.cons_ne_nil _ _ hread.2) hfits
  · rw [mem_tokenize_error, mem_lexicalFaults_iff h rfl rfl, hfaults]
    by_cases hfits : -2 ^ 63 ≤ n ∧ n ≤ 2 ^ 63 - 1
    · rw [if_pos hfits]
      exact iff_of_false List.not_mem_nil (not_not_intro hfits)
    · rw [if_neg hfits]
      exact iff_of_true (List.mem_singleton_self _) hfits
  · rw [hspan, Checked.after_start]
    rfl
  · exact fun hinteger => ⟨Pattern.eq_of_mem_language hinteger.1 hpattern, hinteger.2⟩
  · exact fun hhex => ⟨Pattern.eq_of_mem_language hhex.1 hpattern, hhex.2⟩

/-- The least number that fits, in hexadecimal with a leading zero, and the one below it. -/
theorem pieces_integer_bounds :
    ∃ p gap q, pieces "-0X08000000000000000 -9223372036854775809".toList = [p, gap, q] ∧
      p.lexeme? = some ⟨.int (-2 ^ 63), "-0X08000000000000000", ⟨0, 20⟩⟩ ∧ p.faults = [] ∧
      ∃ found, tokenize "-0X08000000000000000 -9223372036854775809".toList = .error found ∧
        ⟨.integerOutOfRange, ⟨21, 41⟩⟩ ∈ found := by
  have hpieces : pieces "-0X08000000000000000 -9223372036854775809".toList =
      [⟨.token (.int (-2 ^ 63)), "-0X08000000000000000".toList, ⟨0, 20⟩, []⟩,
        ⟨.layout, [' '], ⟨20, 21⟩, []⟩,
        ⟨.token (.int 0), "-9223372036854775809".toList, ⟨21, 41⟩,
          [⟨.integerOutOfRange, ⟨21, 41⟩⟩]⟩] := by
    decide +kernel
  have hleast : IntWritten "-0X08000000000000000".toList (-2 ^ 63) :=
    .neg (.hex (.inr rfl) (.of_all (by decide) (by decide)) (List.cons_ne_nil _ _))
  have hbelow : IntWritten "-9223372036854775809".toList (-2 ^ 63 - 1) :=
    .neg (.decimal (.of_all (by decide) (by decide)) (List.cons_ne_nil _ _))
  obtain ⟨hlexeme, -⟩ := @pieces_integer _ [] _ _ _ hpieces hleast
  obtain ⟨-, hreported, -⟩ := @pieces_integer _ [_, _] _ _ _ hpieces hbelow
  obtain ⟨hlexeme, hfaults⟩ := hlexeme.2 (by decide)
  exact ⟨_, _, _, hpieces, hlexeme, hfaults, hreported.2 (by decide)⟩

end ProtoSchema
