import ProtoSchema.Proofs.Comments.Trailing
import ProtoSchema.Proofs.Lexing.CarriageReturns

/-
  Where trailing comments stand. Whether a line comment is trailing is decided by the characters
  before it, up to the last newline, and not by the tokens. In a source without faults it comes to
  the same: a token leaves its line begun, however many lines it takes itself, and layout keeps it
  so up to the next newline. So a line comment is trailing exactly if a token stands before it and
  no newline is between the two (`tokenize_trailing`).
-/

namespace ProtoSchema

/-! ## Lines that have begun -/

/-- Behind layout a line has begun if it had before and no newline has ended it since. -/
theorem Place.midLine_after_layout {gap : List Char} (hgap : ∀ c ∈ gap, isLayout c = true)
    (p : Place) : (p.after gap).midLine = true ↔ p.midLine = true ∧ '\n' ∉ gap := by
  induction gap generalizing p with
  | nil => simp [after]
  | cons c gap ih =>
    obtain ⟨hc, hgap⟩ := List.forall_mem_cons.1 hgap
    rw [show p.after (c :: gap) = (p.next c).after gap from rfl, ih hgap, List.mem_cons, not_or]
    simp only [next, hc, Bool.not_true, Bool.or_false, Bool.and_eq_true, bne_iff_ne, ne_eq]
    rw [eq_comm (a := c)]
    tauto

/-- A text that starts with something other than layout begins its line, and stays on it if there is
no newline in it. -/
theorem Place.midLine_after_of_notMem (p : Place) {c : Char} {text : List Char}
    (hc : isLayout c = false) (htext : '\n' ∉ c :: text) :
    (p.after (c :: text)).midLine = true := by
  have hbegun : (p.next c).midLine = true := midLine_next hc
  change ((p.next c).after text).midLine = true
  exact midLine_after hbegun fun hn => htext (List.mem_cons_of_mem c hn)

/-- A text that ends with something other than layout has begun the line that it ends on. -/
theorem Place.midLine_after_concat (p : Place) (text : List Char) {c : Char}
    (hc : isLayout c = false) : (p.after (text ++ [c])).midLine = true := by
  rw [after_append]
  exact midLine_next hc

/-! ## Tokens begin lines -/

namespace Piece

variable {place : Place} {c : Char} {rest : List Char}

/-- A token without faults that is no comment has no newline in it. -/
theorem newline_notMem_of_not_comment (hc : isLayout c = false)
    (hline : ¬['/', '/'] <+: c :: rest) (hblock : ¬['/', '*'] <+: c :: rest)
    (h : (first place c rest).faults = []) : '\n' ∉ (first place c rest).text := by
  have hnewline : '\n' ≠ c := by
    rintro rfl
    cases hc
  by_cases hmem : '\n' ∈ rest
  · obtain ⟨a, x, rfl, ha⟩ := List.eq_append_cons_of_mem hmem
    have hstart : c :: a <+: c :: (a ++ '\n' :: x) := List.prefix_append (c :: a) ('\n' :: x)
    rw [first_of_newline hc (fun hp => hline (hp.trans hstart))
      (fun hp => hblock (hp.trans hstart)) h]
    exact fun hn => List.not_mem_cons_of_ne_of_not_mem hnewline ha
      ((first_text place c a).2.subset hn)
  · exact fun hn => List.not_mem_cons_of_ne_of_not_mem hnewline hmem
      ((first_text place c rest).2.subset hn)

/-- A token without faults leaves its line begun: a block comment ends with its delimiter, and no
other token has a newline in it. -/
theorem midLine_after_faultless (hc : isLayout c = false) (h : (first place c rest).faults = []) :
    (place.after (first place c rest).text).midLine = true := by
  by_cases hline : ['/', '/'] <+: c :: rest
  · obtain ⟨line, hline⟩ := hline
    obtain ⟨rfl, rfl⟩ : c = '/' ∧ rest = '/' :: line := List.cons_eq_cons.1 hline.symm
    have hpart : '\n' ∉ line.takeWhile (· != '\n') := fun hn => by
      simpa using List.all_eq_true.1 List.all_takeWhile _ hn
    have hstop : ∀ d ∈ (line.dropWhile (· != '\n')).head?, d = '\n' := fun d hd => by
      have hnot := List.head?_dropWhile_not (· != '\n') line
      rw [hd] at hnot
      simpa using hnot
    rw [← List.takeWhile_append_dropWhile (p := (· != '\n')) (l := line),
      first_of_line place hpart hstop]
    exact place.midLine_after_of_notMem hc (by simpa using hpart)
  by_cases hblock : ['/', '*'] <+: c :: rest
  · obtain ⟨body, hbody⟩ := hblock
    obtain ⟨rfl, rfl⟩ : c = '/' ∧ rest = '*' :: body := List.cons_eq_cons.1 hbody.symm
    obtain ⟨n, hn⟩ := exists_of_faultless_blockComment h
    obtain ⟨inner, others, rfl, rfl⟩ := Checked.append_of_blockLength? hn
    rw [first_of_block place hn, show '/' :: '*' :: (inner ++ ['*', '/']) =
      '/' :: '*' :: (inner ++ ['*']) ++ ['/'] by simp]
    exact place.midLine_after_concat _ hc
  · obtain ⟨hne, hstarts⟩ := first_text place c rest
    have hnewline := newline_notMem_of_not_comment hc hline hblock h
    generalize (first place c rest).text = text at *
    cases text with
    | nil => exact absurd rfl hne
    | cons d text =>
      obtain ⟨rfl, -⟩ := List.cons_prefix_cons.1 hstarts
      exact place.midLine_after_of_notMem hc hnewline

/-- A piece without faults that is no lexeme is layout. -/
theorem isLayout_of_not_lexeme (h : (first place c rest).faults = [])
    (hnone : (first place c rest).lexeme? = none) :
    ∀ d ∈ (first place c rest).text, isLayout d = true := by
  have hcut := cutOff_first place c rest
  have hkind := hcut.kind
  cases hcontent : (first place c rest).content with
  | layout =>
    rw [hcontent] at hkind
    exact hkind.1
  | token t =>
    rw [lexeme?, hcontent] at hnone
    cases hnone
  | invalid =>
    rw [hcut.faults_eq hcontent] at h
    cases h

end Piece

/-! ## Lexemes next to each other -/

variable {source : List Char}

/-- In a source without faults, pieces without lexemes are layout. -/
theorem isLayout_of_no_lexemes (hfaults : faults (pieces source) = []) {ps : List Piece}
    (hps : ps ⊆ pieces source) (hnone : lexemes ps = []) :
    ∀ c ∈ ps.flatMap Piece.text, isLayout c = true := by
  intro c hc
  obtain ⟨p, hp, hc⟩ := List.mem_flatMap.1 hc
  have hlexeme : p.lexeme? = none := List.filterMap_eq_nil_iff.1 hnone p hp
  have hfaultless : p.faults = [] := List.flatMap_eq_nil_iff.1 hfaults p (hps hp)
  obtain ⟨before, d, rest, -, rfl⟩ := Checked.exists_of_mem_piecesFrom [] (hps hp)
  exact Piece.isLayout_of_not_lexeme hfaultless hlexeme c hc

/-- The text from the end of a lexeme to the start of a later one. -/
def Lexeme.between? (source : List Char) (m n : Lexeme) : Option (List Char) :=
  Checked.slice? source ⟨m.span.stop, n.span.start⟩

/-- Before the first lexeme no line has begun. -/
theorem midLine_of_no_lexemes (hfaults : faults (pieces source) = []) {ps others : List Piece}
    (h : pieces source = ps ++ others) (hnone : lexemes ps = []) :
    (Place.start.after (ps.flatMap Piece.text)).midLine = false := by
  have hlayout := isLayout_of_no_lexemes hfaults (h ▸ List.subset_append_left ps others) hnone
  rw [Bool.eq_false_iff, ne_eq, Place.midLine_after_layout hlayout]
  exact fun hbegun => Bool.false_ne_true hbegun.1

/-- Behind a lexeme there is only layout up to the next one, and the line has begun there exactly if
there is no newline in it. -/
theorem midLine_of_lexeme (hfaults : faults (pieces source) = []) {ps qs : List Piece} {q : Piece}
    (h : pieces source = ps ++ q :: qs) {before : List Lexeme} {m n : Lexeme}
    (hm : lexemes ps = before ++ [m]) (hn : q.lexeme? = some n) :
    ∃ gap, m.between? source n = some gap ∧ (∀ c ∈ gap, isLayout c = true) ∧
      ((Place.start.after (ps.flatMap Piece.text)).midLine = true ↔ '\n' ∉ gap) := by
  obtain ⟨xs, p, ys, rfl, -, hp, hys⟩ := exists_of_lexemes_eq_append hm
  have hsplit : pieces source = xs ++ p :: (ys ++ q :: qs) := by
    rw [h, List.append_assoc, List.cons_append]
  have hmem : ys ⊆ pieces source := by
    rw [hsplit]
    exact fun r hr => by simp [hr]
  have hlayout := isLayout_of_no_lexemes hfaults hmem hys
  have hfaultless : p.faults = [] := List.flatMap_eq_nil_iff.1 hfaults p (by simp [hsplit])
  obtain ⟨d, tail, hsource, hq⟩ := piecesFrom_eq_append h
  obtain ⟨c, rest, -, hfirst⟩ := piecesFrom_eq_append hsplit
  -- The source is `x`, the text of `m`, the gap, and what starts with `n`.
  rw [List.flatMap_append, List.flatMap_cons] at hsource hq ⊢
  generalize xs.flatMap Piece.text = x at *
  generalize ys.flatMap Piece.text = gap at *
  have hstop : m.span.stop = byteLength x + byteLength p.text := by
    rw [Piece.span_of_lexeme? hp, hfirst, Piece.span_first]
  have hstart : n.span.start = byteLength (x ++ (p.text ++ gap)) := by
    rw [Piece.span_of_lexeme? hn, hq, Piece.span_first]
  refine ⟨gap, Checked.slice?_eq_some.2 ⟨x ++ p.text, d :: tail, ?_, ?_, ?_⟩, hlayout, ?_⟩
  · rw [hsource, ← List.append_assoc x]
  · rw [hstop, byteLength_append]
  · rw [hstart, ← List.append_assoc, byteLength_append]
  · have hbegun : ((Place.start.after x).after p.text).midLine = true := by
      obtain ⟨hc, -⟩ := Piece.first_lexeme (hfirst ▸ hp)
      rw [hfirst] at hfaultless ⊢
      exact Piece.midLine_after_faultless hc hfaultless
    rw [Place.after_append, Place.after_append, Place.midLine_after_layout hlayout,
      and_iff_right hbegun]

/-- A line comment of a source without faults is trailing exactly if a lexeme stands before it and
no newline is between the two. The text between them is layout; whether the comment is trailing is
found by going back over the characters before it. -/
theorem tokenize_trailing {before after : List Lexeme} {l : Lexeme} {text : String}
    {trailing : Bool} (h : tokenize source = .ok (before ++ l :: after))
    (hl : l.token = .lineComment text trailing) :
    (trailing = true ↔
      ∃ m ∈ before.getLast?, ∃ gap, m.between? source l = some gap ∧ '\n' ∉ gap) ∧
    (∀ m ∈ before.getLast?, ∃ gap, m.between? source l = some gap ∧
      ∀ c ∈ gap, isLayout c = true) ∧
    (Checked.slice? source ⟨0, l.span.start⟩).map Checked.endsMidLine = some trailing := by
  obtain ⟨hfaults, hlexemes⟩ := faults_of_tokenize h
  obtain ⟨ps, q, qs, hpieces, hps, hq, -⟩ := exists_of_lexemes_eq_append hlexemes
  obtain ⟨c, rest, hsource, hfirst⟩ := piecesFrom_eq_append hpieces
  have hflag := Piece.first_lineComment (hfirst ▸ hq) hl
  have hscan : (Checked.slice? source ⟨0, l.span.start⟩).map Checked.endsMidLine =
      some trailing := by
    rw [Piece.span_of_lexeme? hq, hfirst, Piece.span_first, hsource, Checked.slice?_start, hflag,
      Checked.after_start]
    rfl
  rcases List.eq_nil_or_concat before with rfl | ⟨others, m, rfl⟩
  · rw [midLine_of_no_lexemes hfaults hpieces hps] at hflag
    refine ⟨?_, nofun, hscan⟩
    rw [hflag]
    exact ⟨nofun, fun ⟨m, hm, _⟩ => nomatch hm⟩
  · rw [List.concat_eq_append] at hps ⊢
    obtain ⟨gap, hgap, hlayout, hline⟩ := midLine_of_lexeme hfaults hpieces hps hq
    rw [List.getLast?_concat, hflag, hline]
    refine ⟨⟨fun hn => ⟨m, rfl, gap, hgap, hn⟩, ?_⟩, ?_, hflag ▸ hscan⟩
    · rintro ⟨_, ⟨⟩, gap', hgap', hn⟩
      cases hgap.symm.trans hgap'
      exact hn
    · rintro _ ⟨⟩
      exact ⟨gap, hgap, hlayout⟩

/-- Two line comments, the first behind a block comment that started a line earlier. -/
theorem tokenize_trailing_behind_block : ∃ (source : List Char) (w m l n : Lexeme),
    source = "a /* b\n*/\x0b// c\u000d\n// d".toList ∧ tokenize source = .ok [w, m, l, n] ∧
      m.token = .blockComment "b" ∧ l.token = .lineComment "c" true ∧
      n.token = .lineComment "d" false ∧
      (∃ gap, m.between? source l = some gap ∧ '\n' ∉ gap) ∧
      ∃ gap, l.between? source n = some gap ∧ '\n' ∈ gap := by
  let w : Lexeme := ⟨.word (.ident "a"), "a", ⟨0, 1⟩⟩
  let m : Lexeme := ⟨.blockComment "b", "/* b\n*/", ⟨2, 9⟩⟩
  let l : Lexeme := ⟨.lineComment "c" true, "// c\u000d", ⟨10, 15⟩⟩
  let n : Lexeme := ⟨.lineComment "d" false, "// d", ⟨16, 20⟩⟩
  have htokens : tokenize "a /* b\n*/\x0b// c\u000d\n// d".toList = .ok [w, m, l, n] := by
    decide +kernel
  have hl : tokenize "a /* b\n*/\x0b// c\u000d\n// d".toList = .ok ([w, m] ++ l :: [n]) := htokens
  have hn : tokenize "a /* b\n*/\x0b// c\u000d\n// d".toList = .ok ([w, m, l] ++ n :: []) := htokens
  obtain ⟨hfirst, -⟩ := tokenize_trailing hl rfl
  obtain ⟨_, ⟨⟩, hgap⟩ := hfirst.1 rfl
  obtain ⟨hsecond, hbetween, -⟩ := tokenize_trailing hn rfl
  obtain ⟨gap, hgap', -⟩ := hbetween l rfl
  refine ⟨_, w, m, l, n, rfl, htokens, rfl, rfl, rfl, hgap, gap, hgap', ?_⟩
  by_contra hline
  exact Bool.false_ne_true (hsecond.2 ⟨l, rfl, gap, hgap', hline⟩)

end ProtoSchema
