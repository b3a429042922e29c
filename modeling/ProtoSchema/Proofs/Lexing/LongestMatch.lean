import ProtoSchema.Proofs.Lexing.Languages
import ProtoSchema.Proofs.Literals.Written

/-
  The longest match. No text is matched by two patterns (`Pattern.eq_of_mem_language`), so the
  longest match at a place is that of one pattern, and no order among the patterns is needed.
  `pieces_longestMatch` says of every place where a piece of a source starts what is taken there:
  layout if there is any, else the longest match of all patterns with a token of its pattern, and
  one invalid character just if nothing is matched.
-/

namespace ProtoSchema

open TokenLanguage

/-! ## One pattern for each text -/

namespace Pattern

/-- The pattern that a text is matched by, if it is matched at all: a word, a quote or a comment is
known by how it starts, and what neither is one of those nor punctuation is a number. -/
def ofSpelling : List Char → Pattern
  | [] => word
  | c :: rest =>
    if isWordStart c then word
    else if c = '"' ∨ c = '\'' then quote
    else if c = '/' then if rest.head? = some '/' then lineComment else blockOpening
    else match Punct.all.find? fun p => c :: rest == [p.char] with
      | some p => punct p
      | none =>
        if '.' ∈ c :: rest then float
        else if 'x' ∈ c :: rest ∨ 'X' ∈ c :: rest then hexInteger else integer

/-- How a number starts: with its sign, a digit, or a point that is not all of it. -/
def StartsNumber (w : List Char) : Prop :=
  ∃ c rest, w = c :: rest ∧ (c = '-' ∨ c.isDigit = true ∨ c = '.' ∧ rest ≠ [])

theorem ofSpelling_number {w : List Char} (h : StartsNumber w) :
    ofSpelling w = if '.' ∈ w then float
      else if 'x' ∈ w ∨ 'X' ∈ w then hexInteger else integer := by
  obtain ⟨c, rest, rfl, hc⟩ := h
  have hne {d : Char} (hminus : d ≠ '-') (hdigit : d.isDigit = false) (hpoint : d ≠ '.') :
      c ≠ d := by
    rintro rfl
    rcases hc with h | h | ⟨h, -⟩
    · exact hminus h
    · exact absurd (hdigit.symm.trans h) Bool.false_ne_true
    · exact hpoint h
  have hword : isWordStart c = false := by
    refine Bool.eq_false_iff.2 fun hword => ?_
    rcases hc with rfl | h | ⟨rfl, -⟩
    · exact absurd hword (by decide)
    · exact absurd ((isDigit_of_isWordStart hword).symm.trans h) Bool.false_ne_true
    · exact absurd hword (by decide)
  have hpunct : (Punct.all.find? fun p => c :: rest == [p.char]) = none := by
    refine List.find?_eq_none.2 fun p _ => ?_
    rw [beq_iff_eq, List.cons.injEq]
    rintro ⟨rfl, rfl⟩
    rcases hc with h | h | ⟨-, h⟩
    · exact absurd h (by cases p <;> decide)
    · exact absurd h (by cases p <;> decide)
    · exact h rfl
  have hquote : ¬(c = '"' ∨ c = '\'') :=
    not_or.2 ⟨hne (by decide) (by decide) (by decide), hne (by decide) (by decide) (by decide)⟩
  have hslash : c ≠ '/' := hne (by decide) (by decide) (by decide)
  rw [ofSpelling, hpunct, if_neg (Bool.eq_false_iff.1 hword), if_neg hquote, if_neg hslash]

/-- What stands in a number with a sign stands in its magnitude. -/
theorem mem_of_mem_signed {l : Language Char} {w : List Char} (h : w ∈ sign * l) :
    ∃ v ∈ l, (∀ c, c ∈ w → c = '-' ∨ c ∈ v) ∧ (∀ c, c ∈ v → c ∈ w) ∧
      (StartsNumber v → StartsNumber w) := by
  obtain ⟨s, hs, v, hv, rfl⟩ := Language.mem_mul.1 h
  refine ⟨v, hv, ?_, fun c hc => List.mem_append_right s hc, ?_⟩
  · intro c hc
    rcases mem_sign.1 hs with rfl | rfl
    · exact .inr hc
    · exact List.mem_cons.1 hc
  · intro hstart
    rcases mem_sign.1 hs with rfl | rfl
    · exact hstart
    · exact ⟨'-', v, rfl, .inl rfl⟩

theorem startsNumber_of_digits {v : List Char} (hne : v ≠ [])
    (hdigits : ∀ c ∈ v, c.isDigit = true) : StartsNumber v := by
  obtain ⟨c, rest, rfl⟩ := List.exists_cons_of_ne_nil hne
  exact ⟨c, rest, rfl, .inr (.inl (hdigits c List.mem_cons_self))⟩

theorem ofSpelling_integer {w : List Char} (h : w ∈ language integer) : ofSpelling w = integer := by
  obtain ⟨v, hv, hmem, -, hstart⟩ := mem_of_mem_signed h
  obtain ⟨hne, hdigits⟩ := mem_decimals.1 hv
  have hnot {c : Char} (hminus : c ≠ '-') (hdigit : c.isDigit = false) : c ∉ w := by
    intro hc
    rcases hmem c hc with h | h
    · exact hminus h
    · exact absurd (hdigit.symm.trans (hdigits c h)) Bool.false_ne_true
  rw [ofSpelling_number (hstart (startsNumber_of_digits hne hdigits)),
    if_neg (hnot (by decide) (by decide)),
    if_neg (not_or.2 ⟨hnot (by decide) (by decide), hnot (by decide) (by decide)⟩)]

theorem ofSpelling_hexInteger {w : List Char} (h : w ∈ language hexInteger) :
    ofSpelling w = hexInteger := by
  obtain ⟨v, hv, hmem, hmem', hstart⟩ := mem_of_mem_signed h
  obtain ⟨x, digits, hx, hdigits, rfl⟩ := mem_hexadecimal.1 hv
  have hpoint : '.' ∉ w := by
    intro hc
    rcases hmem '.' hc with h | h
    · exact absurd h (by decide)
    · rcases List.mem_cons.1 h with h | h
      · exact absurd h (by decide)
      rcases List.mem_cons.1 h with h | h
      · rcases hx with rfl | rfl <;> exact absurd h (by decide)
      · have hhex := isHexDigit_iff_isHexadecimal.2 ((mem_oneOrMore_one.1 hdigits).2 '.' h)
        exact absurd hhex (by decide)
  have hmarker : 'x' ∈ w ∨ 'X' ∈ w := by
    have hxw : x ∈ w := hmem' x (List.mem_cons_of_mem '0' List.mem_cons_self)
    rcases hx with rfl | rfl
    · exact .inl hxw
    · exact .inr hxw
  rw [ofSpelling_number (hstart ⟨'0', x :: digits, rfl, .inr (.inl rfl)⟩), if_neg hpoint,
    if_pos hmarker]

theorem ofSpelling_float {w : List Char} (h : w ∈ language float) : ofSpelling w = float := by
  obtain ⟨v, hv, -, hmem, hstart⟩ := mem_of_mem_signed h
  obtain ⟨whole, hwhole, f, hf, rfl⟩ := Language.mem_mul.1 hv
  obtain ⟨_, hmark, x, -, rfl⟩ := Language.mem_mul.1 hf
  obtain ⟨_, rfl, digits, hdigits, rfl⟩ := Language.mem_mul.1 hmark
  obtain ⟨hne, -⟩ := mem_decimals.1 hdigits
  have hpoint : '.' ∈ w := hmem '.' (List.mem_append_right whole List.mem_cons_self)
  have hnumber : StartsNumber (whole ++ (".".toList ++ digits ++ x)) := by
    cases whole with
    | nil =>
      have hrest := List.append_ne_nil_of_left_ne_nil hne x
      exact ⟨'.', digits ++ x, rfl, .inr (.inr ⟨rfl, hrest⟩)⟩
    | cons c whole =>
      have hc := isDigit_iff_isDecimal.2 (mem_kstar_one.1 hwhole c List.mem_cons_self)
      exact ⟨c, _, rfl, .inr (.inl hc)⟩
  rw [ofSpelling_number (hstart hnumber), if_pos hpoint]

theorem ofSpelling_of_mem_language {p : Pattern} {w : List Char} (h : w ∈ p.language) :
    ofSpelling w = p := by
  cases p with
  | word =>
    obtain ⟨c, v, hc, -, rfl⟩ := mem_one_mul.1 h
    exact if_pos (isWordStart_iff_startsWord.2 hc)
  | integer => exact ofSpelling_integer h
  | hexInteger => exact ofSpelling_hexInteger h
  | float => exact ofSpelling_float h
  | quote =>
    obtain ⟨c, hc, rfl⟩ := h
    have hc : c = '\'' ∨ c = '"' := by simpa using hc
    rcases hc with rfl | rfl <;> rfl
  | lineComment =>
    obtain ⟨_, rfl, v, -, rfl⟩ := Language.mem_mul.1 h
    rfl
  | blockOpening =>
    cases h
    rfl
  | punct p =>
    cases h
    cases p <;> rfl

/-- No text is matched by two patterns. -/
theorem eq_of_mem_language {p q : Pattern} {w : List Char} (hp : w ∈ p.language)
    (hq : w ∈ q.language) : q = p :=
  (ofSpelling_of_mem_language hq).symm.trans (ofSpelling_of_mem_language hp)

/-! ## The longest match -/

theorem longestOf_eq_none {text : List Char} {patterns : List Pattern} :
    longestOf text patterns = none ↔ ∀ p ∈ patterns, p.length text = 0 := by
  induction patterns with
  | nil => exact iff_of_true rfl fun _ hp => absurd hp List.not_mem_nil
  | cons p patterns ih =>
    rw [longestOf, List.forall_mem_cons]
    cases hbest : longestOf text patterns with
    | none =>
      have hothers := ih.1 hbest
      simpa using fun _ => hothers
    | some best =>
      have hothers := mt ih.2 (hbest ▸ Option.some_ne_none best)
      refine iff_of_false ?_ fun h => hothers h.2
      dsimp only
      split <;> exact Option.some_ne_none _

theorem longest?_eq_none {text : List Char} :
    longest? text = none ↔ ∀ p : Pattern, p.length text = 0 :=
  longestOf_eq_none.trans ⟨fun h p => h p p.mem_all, fun h p _ => h p⟩

/-- Nothing is found just if no pattern matches anything at the start of the text. -/
theorem longest?_eq_none_iff {text : List Char} :
    longest? text = none ↔ ∀ p : Pattern, ∀ v ∈ p.language, v <+: text → v = [] := by
  rw [longest?_eq_none]
  constructor
  · rintro h p v hv ⟨rest, rfl⟩
    have hle := p.measures.longest v hv rest
    rw [h p] at hle
    exact List.length_eq_zero_iff.1 (Nat.le_zero.1 hle)
  · intro h p
    by_contra hne
    have hnil := h p _ (p.measures.matched_of_ne_zero hne) (List.take_prefix _ text)
    have hlength := congrArg List.length hnil
    have hle := p.length_le text
    rw [List.length_take, List.length_nil] at hlength
    omega

end Pattern

/-- The match that is to be taken at the start of a text: some of the text that the pattern matches,
with no longer match of any pattern there, and with no other pattern that matches it. -/
structure LongestMatch (pattern : Pattern) (w text : List Char) : Prop where
  start : w <+: text
  ne_nil : w ≠ []
  matched : w ∈ pattern.language
  longest : ∀ q : Pattern, ∀ v ∈ q.language, v <+: text → v.length ≤ w.length
  only : ∀ q : Pattern, w ∈ q.language → q = pattern

theorem LongestMatch.of_longest? {text : List Char} {p : Pattern} {n : Nat}
    (h : Pattern.longest? text = some (p, n)) : LongestMatch p (text.take n) text := by
  obtain ⟨-, rfl, hpos, hmax⟩ := Pattern.longestOf_eq_some h
  have hlength : (text.take (p.length text)).length = p.length text := by
    rw [List.length_take, Nat.min_eq_left (p.length_le text)]
  have hmatched := p.measures.matched text hpos
  refine ⟨List.take_prefix _ text, fun hnil => ?_, hmatched, ?_, fun q hq => ?_⟩
  · rw [hnil, List.length_nil] at hlength
    omega
  · rintro q v hv ⟨rest, rfl⟩
    have hle := q.measures.longest v hv rest
    have hq := hmax q q.mem_all
    omega
  · exact Pattern.eq_of_mem_language hmatched hq

/-! ## What is taken -/

/-- The tokens of a pattern. -/
inductive Pattern.Gives : Pattern → Token → Prop
  | word (w : Word) : Gives .word (.word w)
  | integer (n : Int) : Gives .integer (.int n)
  | hexInteger (n : Int) : Gives .hexInteger (.int n)
  | float (x : Binary64) : Gives .float (.float x)
  | quote (s : String) : Gives .quote (.string s)
  | lineComment (s : String) (trailing : Bool) : Gives .lineComment (.lineComment s trailing)
  | blockOpening (s : String) : Gives .blockOpening (.blockComment s)
  | punct (p : Punct) : Gives (.punct p) (.punct p)

/-- What a piece has to be when it is taken at the start of a text. A string and a block comment go
on behind the match that opens them; all other tokens are the match. -/
structure Piece.Taken (p : Piece) (text : List Char) : Prop where
  start : p.text <+: text
  layout_iff : p.content = .layout ↔ ∃ v ∈ TokenLanguage.layout, v <+: text
  layout : p.content = .layout → p.text ∈ TokenLanguage.layout ∧
    ∀ v ∈ TokenLanguage.layout, v <+: text → v.length ≤ p.text.length
  token : ∀ t, p.content = .token t → ∃ pattern w, LongestMatch pattern w text ∧ pattern.Gives t ∧
    w <+: p.text ∧ (pattern ≠ .quote → pattern ≠ .blockOpening → p.text = w)
  invalid_iff : p.content = .invalid ↔ (∀ v ∈ TokenLanguage.layout, ¬v <+: text) ∧
    ∀ pattern : Pattern, ∀ v ∈ pattern.language, v <+: text → v = []
  invalid : p.content = .invalid → p.text.length = 1 ∧ p.faults = [⟨.invalidToken, p.span⟩]

/-- A token is one of its pattern, and is the match unless it goes on behind it. -/
theorem Reading.ofMatch_taken (place : Place) {pattern : Pattern} {n : Nat} {c : Char}
    {rest : List Char} (h : Pattern.longest? (c :: rest) = some (pattern, n)) :
    let r := ofMatch place pattern n c rest
    pattern.Gives r.token ∧ (c :: rest).take n <+: (c :: rest).take r.length ∧
      (pattern ≠ .quote → pattern ≠ .blockOpening →
        (c :: rest).take r.length = (c :: rest).take n) := by
  obtain ⟨-, hn, -, -⟩ := Pattern.longestOf_eq_some h
  have hinteger (base marker : Nat) {p : Pattern} (hgives : ∀ k, p.Gives (.int k)) :
      let r := integer place base marker ((c :: rest).take n)
      p.Gives r.token ∧ (c :: rest).take r.length = (c :: rest).take n := by
    dsimp only
    rw [Checked.integer_length, Checked.take_length_take]
    unfold integer
    dsimp only
    split
    · exact ⟨hgives _, rfl⟩
    · exact ⟨hgives 0, rfl⟩
  cases pattern with
  | word => exact ⟨.word _, List.prefix_rfl, fun _ _ => rfl⟩
  | integer =>
    obtain ⟨hgives, htake⟩ := hinteger 10 0 .integer
    exact ⟨hgives, htake ▸ List.prefix_rfl, fun _ _ => htake⟩
  | hexInteger =>
    obtain ⟨hgives, htake⟩ := hinteger 16 2 .hexInteger
    exact ⟨hgives, htake ▸ List.prefix_rfl, fun _ _ => htake⟩
  | float => exact ⟨.float _, List.prefix_rfl, fun _ _ => rfl⟩
  | quote =>
    have hone : n ≤ 1 := by
      rw [hn, Pattern.length, quoteLength]
      split <;> omega
    refine ⟨?_, List.take_prefix_take_left ?_, fun hne => absurd rfl hne⟩
    · simp only [ofMatch, string]
      split <;> exact .quote _
    · simp only [ofMatch, string]
      split <;> exact Nat.le_trans hone (Nat.le_add_left 1 _)
  | lineComment => exact ⟨.lineComment _ _, List.prefix_rfl, fun _ _ => rfl⟩
  | blockOpening =>
    have htwo : n ≤ 2 := by
      rw [hn, Pattern.length, blockOpeningLength.eq_def]
      split <;> omega
    have hle := hn ▸ Pattern.blockOpening.length_le (c :: rest)
    refine ⟨?_, List.take_prefix_take_left ?_, fun _ hne => absurd rfl hne⟩
    · simp only [ofMatch, blockComment]
      split <;> exact .blockOpening _
    · simp only [ofMatch, blockComment]
      split
      · exact Nat.le_trans htwo (Nat.le_add_left 2 _)
      · exact hle
  | punct p => exact ⟨.punct p, List.prefix_rfl, fun _ _ => rfl⟩

theorem starts_with_layout_iff {c : Char} {rest : List Char} :
    (∃ v ∈ layout, v <+: c :: rest) ↔ isLayout c = true := by
  constructor
  · rintro ⟨v, hv, hprefix⟩
    obtain ⟨hne, hall⟩ := mem_oneOrMore_one.1 hv
    obtain ⟨d, w, rfl⟩ := List.exists_cons_of_ne_nil hne
    obtain ⟨rfl, -⟩ := List.cons_prefix_cons.1 hprefix
    exact isLayout_iff.2 (hall d List.mem_cons_self)
  · intro hc
    refine ⟨[c], mem_oneOrMore_one.2 ⟨List.cons_ne_nil c [], fun d hd => ?_⟩, ⟨rest, rfl⟩⟩
    rw [List.mem_singleton.1 hd]
    exact isLayout_iff.1 hc

/-- What a scan takes first is the longest match there, with a token of its pattern. -/
theorem Piece.first_taken (place : Place) (c : Char) (rest : List Char) :
    (first place c rest).Taken (c :: rest) := by
  have hstart := (first_text place c rest).2
  unfold first at hstart ⊢
  by_cases hc : isLayout c = true
  · rw [if_pos hc] at hstart ⊢
    have htext : c :: rest.takeWhile isLayout = (c :: rest).takeWhile isLayout :=
      (List.takeWhile_cons_of_pos hc).symm
    have hpos : runLength isLayout (c :: rest) ≠ 0 := by
      rw [runLength, ← htext, List.length_cons]
      exact Nat.succ_ne_zero _
    refine ⟨hstart, iff_of_true rfl (starts_with_layout_iff.2 hc), fun _ => ⟨?_, ?_⟩,
      fun t => Content.noConfusion, iff_of_false Content.noConfusion fun h => ?_,
      Content.noConfusion⟩
    · rw [show (c :: rest.takeWhile isLayout) = _ from htext, Checked.takeWhile_eq_take]
      exact measures_layout.matched_of_ne_zero hpos
    · rintro v hv ⟨behind, hbehind⟩
      have hle := measures_layout.longest v hv behind
      rw [hbehind, runLength, ← htext] at hle
      exact hle
    · obtain ⟨v, hv, hprefix⟩ := starts_with_layout_iff.2 hc
      exact h.1 v hv hprefix
  · rw [if_neg hc] at hstart ⊢
    have hlayout : ¬∃ v ∈ TokenLanguage.layout, v <+: c :: rest := mt starts_with_layout_iff.1 hc
    cases hlongest : Pattern.longest? (c :: rest) with
    | some found =>
      obtain ⟨pattern, n⟩ := found
      rw [hlongest] at hstart
      refine ⟨hstart, iff_of_false Content.noConfusion hlayout, Content.noConfusion, ?_,
        iff_of_false Content.noConfusion fun h => ?_, Content.noConfusion⟩
      · rintro t ⟨⟩
        obtain ⟨hgives, hprefix, hwhole⟩ := Reading.ofMatch_taken place hlongest
        exact ⟨pattern, _, .of_longest? hlongest, hgives, hprefix, hwhole⟩
      · rw [Pattern.longest?_eq_none_iff.2 h.2] at hlongest
        cases hlongest
    | none =>
      rw [hlongest] at hstart
      exact ⟨hstart, iff_of_false Content.noConfusion hlayout, Content.noConfusion,
        fun t => Content.noConfusion,
        iff_of_true rfl ⟨fun v hv hprefix => hlayout ⟨v, hv, hprefix⟩,
          Pattern.longest?_eq_none_iff.1 hlongest⟩,
        fun _ => ⟨rfl, rfl⟩⟩

/-! ## All pieces of a source -/

/-- A piece is the first one of what the pieces before it leave, and those after it are the pieces
of what it leaves. -/
theorem piecesFrom_split {place : Place} {text : List Char} {ps qs : List Piece} {p : Piece}
    (h : piecesFrom place text = ps ++ p :: qs) :
    ∃ c rest behind, text = ps.flatMap Piece.text ++ c :: rest ∧
      p = Piece.first (place.after (ps.flatMap Piece.text)) c rest ∧
      c :: rest = p.text ++ behind ∧
      qs = piecesFrom (place.after (ps.flatMap Piece.text ++ p.text)) behind := by
  induction ps generalizing place text with
  | nil =>
    cases text with
    | nil => rw [piecesFrom] at h; cases h
    | cons c rest =>
      rw [piecesFrom] at h
      obtain ⟨rfl, rfl⟩ := List.cons.inj h
      exact ⟨c, rest, _, rfl, rfl, (Piece.first_text_append place c rest).symm, rfl⟩
  | cons q ps ih =>
    cases text with
    | nil => rw [piecesFrom] at h; cases h
    | cons c rest =>
      rw [piecesFrom] at h
      obtain ⟨rfl, hps⟩ := List.cons.inj h
      obtain ⟨d, others, behind, htext, hp, hbehind, hqs⟩ := ih hps
      rw [← Place.after_append] at hp hqs
      refine ⟨d, others, behind, ?_, hp, hbehind, ?_⟩
      · rw [List.flatMap_cons, List.append_assoc, ← htext, Piece.first_text_append]
      · rw [hqs, List.flatMap_cons, List.append_assoc]

/-- Wherever a piece of a source starts, layout is skipped, else the longest match of all patterns
is taken with a token of its pattern, and one invalid character is taken just if there is no match.
The pieces before it end where it starts. -/
theorem pieces_longestMatch {source : List Char} {ps qs : List Piece} {p : Piece}
    (h : pieces source = ps ++ p :: qs) :
    ∃ behind, source = ps.flatMap Piece.text ++ (p.text ++ behind) ∧
      p.span = ⟨byteLength (ps.flatMap Piece.text),
        byteLength (ps.flatMap Piece.text) + byteLength p.text⟩ ∧
      p.Taken (p.text ++ behind) := by
  obtain ⟨c, rest, behind, hsource, hp, hbehind, -⟩ := piecesFrom_split h
  have htaken := Piece.first_taken (Place.start.after (ps.flatMap Piece.text)) c rest
  have hspan := Checked.first_span (Place.start.after (ps.flatMap Piece.text)) c rest
  rw [← hp] at htaken hspan
  rw [hbehind] at hsource htaken
  rw [Checked.after_start] at hspan
  exact ⟨behind, hsource, hspan, htaken⟩

theorem pieces_longestMatch_falls_back :
    (pieces "1. 1.5e+ 0xG -.".toList).map (fun p => (p.content, String.ofList p.text)) =
      [(.token (.int 1), "1"), (.token (.punct .dot), "."), (.layout, " "),
        (.token (.float ⟨0x3ff8000000000000⟩), "1.5"), (.token (.word (.ident "e")), "e"),
        (.invalid, "+"), (.layout, " "), (.token (.int 0), "0"),
        (.token (.word (.ident "xG")), "xG"), (.layout, " "), (.invalid, "-"),
        (.token (.punct .dot), ".")] ∧
    ∃ behind, "1. 1.5e+ 0xG -.".toList = "1. ".toList ++ ("1.5".toList ++ behind) ∧
      Piece.Taken ⟨.token (.float ⟨0x3ff8000000000000⟩), "1.5".toList, ⟨3, 6⟩, []⟩
        ("1.5".toList ++ behind) := by
  refine ⟨by decide +kernel, ?_⟩
  have hcut : pieces "1. 1.5e+ 0xG -.".toList =
      [⟨.token (.int 1), ['1'], ⟨0, 1⟩, []⟩, ⟨.token (.punct .dot), ['.'], ⟨1, 2⟩, []⟩,
        ⟨.layout, [' '], ⟨2, 3⟩, []⟩] ++
      ⟨.token (.float ⟨0x3ff8000000000000⟩), "1.5".toList, ⟨3, 6⟩, []⟩ ::
        (pieces "1. 1.5e+ 0xG -.".toList).drop 4 := by
    decide +kernel
  obtain ⟨behind, hsource, -, htaken⟩ := pieces_longestMatch hcut
  exact ⟨behind, hsource, htaken⟩

end ProtoSchema
