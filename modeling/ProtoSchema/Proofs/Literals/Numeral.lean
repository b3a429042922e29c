import Mathlib.Algebra.Group.Nat.Defs
import Mathlib.Data.List.Induction
import ProtoSchema.Token.Pattern

/-
  Numerals. A numeral is a sequence of digits of a base up to sixteen, and it stands for the number
  that is built from them from the left. The digits that a token is made of are numerals of that
  base, and the number that is read is the one they stand for (`numeral_iff`).
-/

namespace ProtoSchema

/-- `c` is the digit with the value `d`; a letter may be of either case. -/
def Digit (c : Char) (d : Nat) : Prop := c = d.digitChar ∨ c = d.digitChar.toUpper

instance (c : Char) (d : Nat) : Decidable (Digit c d) :=
  inferInstanceAs (Decidable (_ ∨ _))

/-- The numerals of a base and the numbers that they stand for; no digits stand for zero. -/
inductive Numeral (base : Nat) : List Char → Nat → Prop
  | nil : Numeral base [] 0
  | snoc {digits : List Char} {n : Nat} {c : Char} {d : Nat} (init : Numeral base digits n)
      (last : Digit c d) (lt : d < base) : Numeral base (digits ++ [c]) (n * base + d)

/-! ## Digits -/

theorem digit_of_isHexDigit {c : Char} (h : isHexDigit c = true) : ∃ d < 16, Digit c d := by
  have hall : ∀ n : Fin 128, isHexDigit (Char.ofNat n) = true →
      ∃ d : Fin 16, Digit (Char.ofNat n) d := by
    decide +kernel
  have hlt : c.toNat < 128 := by
    simp only [isHexDigit, Char.isDigit, ge_iff_le, Bool.or_eq_true, Bool.and_eq_true,
      decide_eq_true_eq, Char.le_def, UInt32.le_iff_toNat_le] at h
    change c.val.toNat < 128
    rcases h with (⟨-, h⟩ | ⟨-, h⟩) | ⟨-, h⟩ <;> exact Nat.lt_of_le_of_lt h (by decide)
  have hc := hall ⟨c.toNat, hlt⟩
  rw [Char.ofNat_toNat] at hc
  obtain ⟨d, hd⟩ := hc h
  exact ⟨d, d.isLt, hd⟩

/-- What a character with the value `d` is. -/
theorem Digit.spec {c : Char} {d : Nat} (h : Digit c d) (hd : d < 16) :
    digitValue c = d ∧ isHexDigit c = true ∧ (c.isDigit = true ↔ d < 10) ∧
      (isOctalDigit c = true ↔ d < 8) := by
  have hlower : ∀ d : Fin 16, digitValue d.val.digitChar = d ∧ isHexDigit d.val.digitChar = true ∧
      (d.val.digitChar.isDigit = true ↔ d.val < 10) ∧
        (isOctalDigit d.val.digitChar = true ↔ d.val < 8) := by
    decide
  have hupper : ∀ d : Fin 16, digitValue d.val.digitChar.toUpper = d ∧
      isHexDigit d.val.digitChar.toUpper = true ∧
        (d.val.digitChar.toUpper.isDigit = true ↔ d.val < 10) ∧
          (isOctalDigit d.val.digitChar.toUpper = true ↔ d.val < 8) := by
    decide
  rcases h with rfl | rfl
  · exact hlower ⟨d, hd⟩
  · exact hupper ⟨d, hd⟩

theorem isHexDigit_iff {c : Char} : isHexDigit c = true ↔ ∃ d < 16, Digit c d :=
  ⟨digit_of_isHexDigit, fun ⟨_, hd, h⟩ => (h.spec hd).2.1⟩

theorem isDigit_iff {c : Char} : c.isDigit = true ↔ ∃ d < 10, Digit c d := by
  constructor
  · intro h
    obtain ⟨d, hd, hc⟩ := digit_of_isHexDigit (c := c) (by rw [isHexDigit, h]; rfl)
    exact ⟨d, (hc.spec hd).2.2.1.1 h, hc⟩
  · rintro ⟨d, hd, hc⟩
    exact (hc.spec (by omega)).2.2.1.2 hd

theorem isOctalDigit_iff {c : Char} : isOctalDigit c = true ↔ ∃ d < 8, Digit c d := by
  constructor
  · intro h
    have hdecimal : c.isDigit = true := by
      simp only [isOctalDigit, Bool.and_eq_true, decide_eq_true_eq] at h
      simp only [Char.isDigit, Bool.and_eq_true, decide_eq_true_eq]
      exact ⟨h.1, Nat.le_trans h.2 (by decide)⟩
    obtain ⟨d, hd, hc⟩ := isDigit_iff.1 hdecimal
    exact ⟨d, (hc.spec (by omega)).2.2.2.1 h, hc⟩
  · rintro ⟨d, hd, hc⟩
    exact (hc.spec (by omega)).2.2.2.2 hd

/-! ## Numerals -/

variable {base n : Nat} {digits : List Char}

theorem ofDigits_concat (base : Nat) (digits : List Char) (c : Char) :
    ofDigits base (digits ++ [c]) = ofDigits base digits * base + digitValue c :=
  List.foldl_append ..

/-- A numeral consists of digits, and is read as the number that it stands for. -/
theorem numeral_iff (hbase : base ≤ 16) : Numeral base digits n ↔
    (∀ c ∈ digits, ∃ d < base, Digit c d) ∧ ofDigits base digits = n := by
  constructor
  · intro h
    induction h with
    | nil => exact ⟨nofun, rfl⟩
    | @snoc digits n c d _ hc hd ih =>
      refine ⟨List.forall_mem_append.2 ⟨ih.1, List.forall_mem_singleton.2 ⟨d, hd, hc⟩⟩, ?_⟩
      rw [ofDigits_concat, ih.2, (hc.spec (by omega)).1]
  · rintro ⟨hdigits, rfl⟩
    induction digits using List.reverseRecOn with
    | nil => exact .nil
    | append_singleton digits c ih =>
      obtain ⟨hinit, hlast⟩ := List.forall_mem_append.1 hdigits
      obtain ⟨d, hd, hc⟩ := List.forall_mem_singleton.1 hlast
      rw [ofDigits_concat, (hc.spec (by omega)).1]
      exact .snoc (ih hinit) hc hd

/-- Whether a text is a numeral can be found out digit by digit. -/
theorem Numeral.of_all (hbase : base ≤ 16)
    (h : (digits.all fun c => decide (∃ d < base, Digit c d)) = true) :
    Numeral base digits (ofDigits base digits) :=
  (numeral_iff hbase).2 ⟨fun c hc => of_decide_eq_true (List.all_eq_true.1 h c hc), rfl⟩

theorem Numeral.lt_pow (h : Numeral base digits n) : n < base ^ digits.length := by
  induction h with
  | nil => exact Nat.one_pos
  | @snoc digits n c d _ _ hd ih =>
    rw [List.length_append, List.length_singleton, Nat.pow_succ]
    calc n * base + d < n * base + base := Nat.add_lt_add_left hd _
      _ = (n + 1) * base := (Nat.succ_mul n base).symm
      _ ≤ base ^ digits.length * base := Nat.mul_le_mul_right base ih

/-- As many characters as may belong to a numeral, taken from a text that goes on behind it. -/
theorem take_takeWhile_run {p : Char → Bool} {run behind : List Char} {k : Nat}
    (hrun : ∀ c ∈ run, p c = true) (hlength : run.length ≤ k)
    (hstop : run.length < k → ∀ c ∈ behind.head?, p c = false) :
    ((run ++ behind).take k).takeWhile p = run := by
  rw [List.take_append, List.take_of_length_le hlength, List.takeWhile_append_of_pos hrun]
  cases hk : k - run.length with
  | zero => rw [List.take_zero, List.takeWhile_nil, List.append_nil]
  | succ m =>
    cases behind with
    | nil => rw [List.take_nil, List.takeWhile_nil, List.append_nil]
    | cons c behind =>
      have hc := hstop (by omega) c rfl
      rw [List.take_succ_cons, List.takeWhile_cons_of_neg (by simp [hc]), List.append_nil]

/-- Behind as many characters as may belong to a numeral there is none that belongs to it. -/
theorem head?_drop_takeWhile {p : Char → Bool} {k : Nat} {text : List Char}
    (h : ((text.take k).takeWhile p).length < k) :
    ∀ c ∈ (text.drop ((text.take k).takeWhile p).length).head?, p c = false := by
  induction k generalizing text with
  | zero => exact absurd h (Nat.not_lt_zero _)
  | succ k ih =>
    cases text with
    | nil => simp
    | cons c text =>
      rw [List.take_succ_cons] at h ⊢
      cases hc : p c with
      | true =>
        rw [List.takeWhile_cons_of_pos hc, List.length_cons] at h ⊢
        rw [List.drop_succ_cons]
        exact ih (Nat.lt_of_succ_lt_succ h)
      | false =>
        rw [List.takeWhile_cons_of_neg (by simp [hc])]
        intro d hd
        cases hd
        exact hc

end ProtoSchema
