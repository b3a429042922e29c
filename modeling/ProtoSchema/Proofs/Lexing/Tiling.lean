import ProtoSchema.Proofs.Lexing.Extent

/-
  Pieces tile a source. They follow each other without a gap from its first character to its last,
  each of them a run of layout, the lexeme of one token or one character that starts none. So the
  lexemes of a source are apart from each other with nothing but layout around them, every fault
  lies on characters of the source, and the invalid tokens are the maximal runs of characters that
  start none. `pieces_tile` says all of this of every source.
-/

namespace ProtoSchema

/-! ## Pieces one behind the other -/

namespace Piece

/-- A piece that is cut off a text at byte `offset`, where `rest` is left behind it. -/
structure CutOff (offset : Nat) (p : Piece) (rest : List Char) : Prop where
  span : p.span = ⟨offset, offset + byteLength p.text⟩
  ne_nil : p.text ≠ []
  covers : ∀ f ∈ p.faults, f.Covers offset p.text
  kind : match p.content with
    | .layout => (∀ c ∈ p.text, isLayout c = true) ∧ p.faults = []
    | .token t => ∃ place pattern n c others, place.offset = offset ∧
        p.text ++ rest = c :: others ∧ Pattern.longest? (c :: others) = some (pattern, n) ∧
        let reading := Reading.ofMatch place pattern n c others
        t = reading.token ∧ p.text.length = reading.length ∧ p.faults = reading.faults
    | .invalid => p.text.length = 1 ∧ Pattern.longest? (p.text ++ rest) = none ∧
        p.faults = [⟨.invalidToken, p.span⟩]

end Piece

/-- Pieces that make up a text, which starts at byte `offset`. -/
inductive Tiles : Nat → List Piece → List Char → Prop
  | nil {offset} : Tiles offset [] []
  | cons {offset p ps rest} (first : p.CutOff offset rest) (others : Tiles p.span.stop ps rest) :
      Tiles offset (p :: ps) (p.text ++ rest)

/-- Lexemes in a text, which starts at byte `offset`, with nothing but layout before, between and
behind them. -/
inductive Spaced : Nat → List Lexeme → List Char → Prop
  | nil {offset gap} (layout : ∀ c ∈ gap, isLayout c = true) : Spaced offset [] gap
  | cons {offset gap rest l ls} (layout : ∀ c ∈ gap, isLayout c = true)
      (start : l.span.start = offset + byteLength gap)
      (stop : l.span.stop = l.span.start + byteLength l.spelling.toList)
      (ne_nil : l.spelling.toList ≠ []) (others : Spaced l.span.stop ls rest) :
      Spaced offset (l :: ls) (gap ++ l.spelling.toList ++ rest)

/-- The spans of the maximal runs of invalid characters among pieces, in order. -/
inductive InvalidRuns : List Piece → List Span → Prop
  | nil : InvalidRuns [] []
  | skip {p ps spans} (valid : p.content ≠ .invalid) (others : InvalidRuns ps spans) :
      InvalidRuns (p :: ps) spans
  | run {p run ps spans} (invalid : ∀ q ∈ p :: run, q.content = .invalid)
      (maximal : ∀ q ∈ ps.head?, q.content ≠ .invalid) (others : InvalidRuns ps spans) :
      InvalidRuns (p :: run ++ ps)
        (⟨p.span.start, ((p :: run).getLast (List.cons_ne_nil p run)).span.stop⟩ :: spans)

/-! ## Pieces of a source -/

theorem Piece.cutOff_first (place : Place) (c : Char) (rest : List Char) :
    (Piece.first place c rest).CutOff place.offset
      ((c :: rest).drop (Piece.first place c rest).text.length) := by
  have hspan := Checked.first_span place c rest
  have hne := (Piece.first_text place c rest).1
  have htext := Piece.first_text_append place c rest
  refine ⟨hspan, hne, fun _ => covers_of_mem_first, ?_⟩
  rw [htext]
  unfold Piece.first
  by_cases hc : isLayout c = true
  · rw [if_pos hc]
    refine ⟨fun d hd => ?_, rfl⟩
    rcases List.mem_cons.1 hd with rfl | hd
    · exact hc
    · exact List.all_eq_true.1 List.all_takeWhile d hd
  · rw [if_neg hc]
    cases hlongest : Pattern.longest? (c :: rest) with
    | none => exact ⟨rfl, rfl, rfl⟩
    | some found =>
      obtain ⟨pattern, n⟩ := found
      refine ⟨place, pattern, n, c, rest, rfl, rfl, hlongest, rfl, ?_, rfl⟩
      rw [List.length_take, Nat.min_eq_left (Reading.length_le place hlongest)]

theorem tiles_piecesFrom (place : Place) (text : List Char) :
    Tiles place.offset (piecesFrom place text) text := by
  fun_induction piecesFrom place text with
  | case1 => exact .nil
  | case2 place c rest p ih =>
    have hcut := Piece.cutOff_first place c rest
    rw [Place.after_offset, ← show p.span.stop = place.offset + byteLength p.text by
      rw [hcut.span]] at ih
    have htiles := Tiles.cons hcut ih
    rwa [Piece.first_text_append] at htiles

theorem pieces_tiles (source : List Char) : Tiles 0 (pieces source) source :=
  tiles_piecesFrom .start source

/-! ## Lexemes and layout -/

theorem Spaced.layout_append {offset : Nat} {gap text : List Char} {ls : List Lexeme}
    (hgap : ∀ c ∈ gap, isLayout c = true) (h : Spaced (offset + byteLength gap) ls text) :
    Spaced offset ls (gap ++ text) := by
  cases h with
  | @nil _ gap' layout =>
    refine .nil fun c hc => ?_
    rcases List.mem_append.1 hc with hc | hc
    · exact hgap c hc
    · exact layout c hc
  | @cons _ gap' rest l ls layout start stop ne_nil others =>
    rw [List.append_assoc gap', ← List.append_assoc gap, ← List.append_assoc]
    refine .cons (fun c hc => ?_) ?_ stop ne_nil others
    · rcases List.mem_append.1 hc with hc | hc
      · exact hgap c hc
      · exact layout c hc
    · rw [start, byteLength_append, Nat.add_assoc]

/-- Where no character is invalid, the lexemes are spaced by the layout between them. -/
theorem Tiles.spaced {offset : Nat} {ps : List Piece} {text : List Char} (h : Tiles offset ps text)
    (hvalid : ∀ p ∈ ps, p.content ≠ .invalid) : Spaced offset (lexemes ps) text := by
  induction h with
  | nil => exact .nil fun _ hc => nomatch hc
  | @cons offset p ps rest first _ ih =>
    have hrest := ih fun q hq => hvalid q (List.mem_cons_of_mem p hq)
    have hkind := first.kind
    have hstop : p.span.stop = offset + byteLength p.text := by rw [first.span]
    cases hcontent : p.content with
    | layout =>
      rw [hcontent] at hkind
      rw [lexemes, List.filterMap_cons_none (by rw [Piece.lexeme?, hcontent])]
      exact Spaced.layout_append hkind.1 (hstop ▸ hrest)
    | token t =>
      have hlexeme : p.lexeme? = some ⟨t, String.ofList p.text, p.span⟩ := by
        rw [Piece.lexeme?, hcontent]
      rw [lexemes, List.filterMap_cons_some hlexeme]
      have hspaced : Spaced offset (⟨t, String.ofList p.text, p.span⟩ :: lexemes ps)
          ([] ++ (String.ofList p.text).toList ++ rest) := by
        refine .cons (fun _ hc => nomatch hc) ?_ ?_ ?_ hrest
        · rw [first.span]
          rfl
        · rw [first.span, String.toList_ofList]
        · rw [String.toList_ofList]
          exact first.ne_nil
      rwa [String.toList_ofList, List.nil_append] at hspaced
    | invalid => exact absurd hcontent (hvalid p List.mem_cons_self)

theorem Spaced.offset_le {offset : Nat} {ls : List Lexeme} {text : List Char}
    (h : Spaced offset ls text) : ∀ l ∈ ls, offset ≤ l.span.start := by
  induction h with
  | nil => exact fun _ hl => nomatch hl
  | cons layout start stop ne_nil others ih =>
    intro l hl
    rcases List.mem_cons.1 hl with rfl | hl
    · omega
    · have hle := ih l hl
      omega

theorem Spaced.pairwise {offset : Nat} {ls : List Lexeme} {text : List Char}
    (h : Spaced offset ls text) : ls.Pairwise fun a b => a.span.stop ≤ b.span.start := by
  induction h with
  | nil => exact .nil
  | cons layout start stop ne_nil others ih => exact .cons others.offset_le ih

theorem Spaced.start_lt {offset : Nat} {ls : List Lexeme} {text : List Char}
    (h : Spaced offset ls text) : ∀ l ∈ ls, l.span.start < l.span.stop := by
  induction h with
  | nil => exact fun _ hl => nomatch hl
  | cons layout start stop ne_nil others ih =>
    have hpos := Checked.byteLength_pos ne_nil
    exact List.forall_mem_cons.2 ⟨by omega, ih⟩

/-! ## Runs of invalid characters -/

/-- The faults of pieces, in order. -/
def faults (ps : List Piece) : List LexicalFault := ps.flatMap Piece.faults

namespace LexicalFault

/-- Whether the fault is an invalid token. -/
def isInvalid (f : LexicalFault) : Bool := f.cause == .invalidToken

theorem joinFrom_of_head? {f : LexicalFault} {others : List LexicalFault}
    (h : ∀ g ∈ others.head?, f.continues g = false) : joinFrom f others = f :: join others := by
  cases others with
  | nil => rfl
  | cons g others =>
    rw [joinFrom, h g rfl]
    rfl

/-- Faults of another nature do not become part of an invalid token, nor it of them. -/
theorem filter_joinFrom {f : LexicalFault} (hf : f.isInvalid = false)
    (others : List LexicalFault) :
    (joinFrom f others).filter isInvalid = (join others).filter isInvalid := by
  induction others generalizing f with
  | nil => rw [joinFrom, List.filter_singleton, hf]; rfl
  | cons g others ih =>
    rw [joinFrom]
    split
    · next h =>
      have hg : g.isInvalid = false := by
        simp only [continues, isStringPiece, Bool.and_eq_true, Bool.or_eq_true, beq_iff_eq] at h
        obtain ⟨-, ⟨hinvalid, -⟩ | ⟨-, hpiece | hpiece⟩⟩ := h
        · simp [isInvalid, hinvalid] at hf
        · simp [isInvalid, hpiece]
        · simp [isInvalid, hpiece]
      rw [ih (f := f.extend g) hf, join, ih hg]
    · rw [List.filter_cons_of_neg (by rw [hf]; exact Bool.false_ne_true), join]

theorem filter_join_append {others : List LexicalFault}
    (h : ∀ f ∈ others, f.isInvalid = false) (more : List LexicalFault) :
    (join (others ++ more)).filter isInvalid = (join more).filter isInvalid := by
  induction others with
  | nil => rfl
  | cons f others ih =>
    rw [List.cons_append, join, filter_joinFrom (h f List.mem_cons_self),
      ih fun g hg => h g (List.mem_cons_of_mem f hg)]

end LexicalFault

theorem Tiles.start_le {offset : Nat} {ps : List Piece} {text : List Char}
    (h : Tiles offset ps text) : ∀ f ∈ faults ps, offset ≤ f.span.start := by
  induction h with
  | nil => exact fun f hf => nomatch hf
  | @cons offset p ps rest first _ ih =>
    intro f hf
    rw [faults, List.flatMap_cons] at hf
    rcases List.mem_append.1 hf with hf | hf
    · exact (first.covers f hf).bounds.1
    · have hle := ih f hf
      rw [first.span] at hle
      exact Nat.le_trans (Nat.le_add_right _ _) hle

theorem isInvalid_of_mem_read {quote : Char} {opening offset : Nat} {text : List Char}
    {f : LexicalFault} (h : f ∈ (StringBody.read quote opening offset text).faults) :
    f.isInvalid = false := by
  fun_induction StringBody.read quote opening offset text with
  | case1 | case3 => rw [List.mem_singleton.1 h]; rfl
  | case2 => cases h
  | case5 _ _ _ _ _ _ _ _ ih | case8 _ _ _ _ _ _ _ ih => exact ih h
  | case4 _ _ _ _ ih | case6 _ _ _ _ _ _ _ ih | case7 _ _ _ _ _ _ ih =>
    rcases List.mem_cons.1 h with rfl | h
    · rfl
    · exact ih h

theorem isInvalid_of_mem_ofMatch {place : Place} {pattern : Pattern} {n : Nat} {c : Char}
    {rest : List Char} {f : LexicalFault}
    (h : f ∈ (Reading.ofMatch place pattern n c rest).faults) : f.isInvalid = false := by
  cases pattern with
  | integer | hexInteger =>
    rw [Reading.ofMatch, Reading.integer] at h
    split at h
    · cases h
    · rw [List.mem_singleton.1 h]
      rfl
  | quote =>
    rw [Reading.ofMatch, Reading.string] at h
    dsimp only at h
    split at h
    · exact isInvalid_of_mem_read h
    · rcases List.mem_append.1 h with h | h
      · exact isInvalid_of_mem_read h
      · rw [List.mem_singleton.1 h]
        rfl
  | blockOpening =>
    rw [Reading.ofMatch, Reading.blockComment] at h
    split at h
    · cases h
    · rw [List.mem_singleton.1 h]
      rfl
  | _ => cases h

/-- A piece that is no invalid character has no invalid token among its faults. -/
theorem Piece.CutOff.isInvalid_eq_false {offset : Nat} {p : Piece} {rest : List Char}
    (h : p.CutOff offset rest) (hp : p.content ≠ .invalid) :
    ∀ f ∈ p.faults, f.isInvalid = false := by
  intro f hf
  have hkind := h.kind
  cases hcontent : p.content with
  | layout =>
    rw [hcontent] at hkind
    rw [hkind.2] at hf
    cases hf
  | token t =>
    rw [hcontent] at hkind
    obtain ⟨place, pattern, n, c, others, -, -, -, -, -, hfaults⟩ := hkind
    exact isInvalid_of_mem_ofMatch (hfaults ▸ hf)
  | invalid => exact absurd hcontent hp

theorem Piece.CutOff.faults_eq {offset : Nat} {p : Piece} {rest : List Char}
    (h : p.CutOff offset rest) (hp : p.content = .invalid) :
    p.faults = [⟨.invalidToken, p.span⟩] := by
  have hkind := h.kind
  rw [hp] at hkind
  exact hkind.2.2

/-- Every invalid character is a fault. -/
theorem Tiles.valid {offset : Nat} {ps : List Piece} {text : List Char} (h : Tiles offset ps text)
    (hnone : faults ps = []) : ∀ p ∈ ps, p.content ≠ .invalid := by
  induction h with
  | nil => exact fun _ hp => nomatch hp
  | cons first _ ih =>
    rw [faults, List.flatMap_cons, List.append_eq_nil_iff] at hnone
    refine List.forall_mem_cons.2 ⟨fun hinvalid => ?_, ih hnone.2⟩
    rw [first.faults_eq hinvalid] at hnone
    cases hnone.1

/-- An invalid token goes on through the invalid characters right behind it and ends there. -/
theorem Tiles.joinFrom_run {start : Nat} {p : Piece} {run ps : List Piece} {text : List Char}
    (h : Tiles p.span.stop (run ++ ps) text) (hrun : ∀ q ∈ run, q.content = .invalid)
    (hmaximal : ∀ q ∈ ps.head?, q.content ≠ .invalid) :
    LexicalFault.joinFrom ⟨.invalidToken, ⟨start, p.span.stop⟩⟩ (faults (run ++ ps)) =
      ⟨.invalidToken, ⟨start, ((p :: run).getLast (List.cons_ne_nil p run)).span.stop⟩⟩ ::
        LexicalFault.join (faults ps) := by
  induction run generalizing p text with
  | nil =>
    refine LexicalFault.joinFrom_of_head? fun g hg => ?_
    rw [List.nil_append] at h hg
    cases h with
    | nil => cases hg
    | @cons _ q ps rest first others =>
      have hmem : g ∈ faults (q :: ps) := List.mem_of_mem_head? hg
      rw [faults, List.flatMap_cons] at hmem
      rcases List.mem_append.1 hmem with hmem | hmem
      · -- It lies in the next piece, which is no invalid character.
        have hg := first.isInvalid_eq_false (hmaximal q rfl) g hmem
        simp only [LexicalFault.isInvalid] at hg
        simp [LexicalFault.continues, LexicalFault.isStringPiece, hg]
      · -- The next piece stands between them.
        have hle := others.start_le g hmem
        have hpos := Checked.byteLength_pos first.ne_nil
        rw [first.span] at hle
        have hne : p.span.stop ≠ g.span.start := by
          dsimp only at hle
          omega
        simp [LexicalFault.continues, hne]
  | cons q run ih =>
    cases h with
    | cons first others =>
      have hfaults := first.faults_eq (hrun q List.mem_cons_self)
      have hstart : p.span.stop = q.span.start := by rw [first.span]
      have hcontinues : LexicalFault.continues ⟨.invalidToken, ⟨start, p.span.stop⟩⟩
          ⟨.invalidToken, q.span⟩ = true := by
        simp [LexicalFault.continues, hstart]
      rw [List.cons_append, faults, List.flatMap_cons, hfaults, List.singleton_append,
        LexicalFault.joinFrom, if_pos hcontinues, LexicalFault.extend]
      exact ih others fun q' hq' => hrun q' (List.mem_cons_of_mem q hq')

theorem Tiles.offset_lt {offset : Nat} {p : Piece} {ps : List Piece} {text : List Char}
    (h : Tiles offset (p :: ps) text) : offset < p.span.stop := by
  cases h with
  | cons first others =>
    rw [first.span]
    exact Nat.lt_add_of_pos_right (Checked.byteLength_pos first.ne_nil)

/-- The pieces behind some others tile what is left. -/
theorem Tiles.behind {p : Piece} {run ps : List Piece} {text : List Char}
    (h : Tiles p.span.stop (run ++ ps) text) :
    p.span.stop ≤ ((p :: run).getLast (List.cons_ne_nil p run)).span.stop ∧ ∃ rest,
      Tiles ((p :: run).getLast (List.cons_ne_nil p run)).span.stop ps rest := by
  induction run generalizing p text with
  | nil => exact ⟨Nat.le_refl _, text, h⟩
  | cons q run ih =>
    have hlt := h.offset_lt
    cases h with
    | cons first others =>
      obtain ⟨hle, hrest⟩ := ih others
      exact ⟨Nat.le_trans (Nat.le_of_lt hlt) hle, hrest⟩

/-- The invalid tokens of pieces are their runs of invalid characters. -/
theorem Tiles.invalidRuns {offset : Nat} {ps : List Piece} {text : List Char}
    (h : Tiles offset ps text) : InvalidRuns ps
      (((LexicalFault.join (faults ps)).filter LexicalFault.isInvalid).map LexicalFault.span) := by
  induction hn : ps.length using Nat.strongRecOn generalizing ps offset text with
  | ind n ih =>
    cases h with
    | nil => exact .nil
    | @cons _ p ps rest first others =>
      by_cases hp : p.content = .invalid
      · -- The run goes on as long as invalid characters follow.
        have hsplit := List.takeWhile_append_dropWhile (p := (·.content == .invalid)) (l := ps)
        generalize hrun : ps.takeWhile (·.content == .invalid) = run at hsplit
        generalize hqs : ps.dropWhile (·.content == .invalid) = qs at hsplit
        have hinvalid : ∀ q ∈ run, q.content = .invalid := fun q hq => by
          have := List.all_eq_true.1 (List.all_takeWhile (l := ps)) q (hrun ▸ hq)
          simpa using this
        have hmaximal : ∀ q ∈ qs.head?, q.content ≠ .invalid := fun q hq => by
          have := List.head?_dropWhile_not (·.content == .invalid) ps
          rw [hqs, hq] at this
          simpa using this
        subst hsplit
        obtain ⟨-, left, htiles⟩ := others.behind
        have hruns := ih qs.length (by rw [← hn, List.length_cons, List.length_append]; omega)
          htiles rfl
        rw [faults, List.flatMap_cons, first.faults_eq hp, List.singleton_append,
          LexicalFault.join]
        rw [show List.flatMap Piece.faults (run ++ qs) = faults (run ++ qs) from rfl,
          show p.span = ⟨p.span.start, p.span.stop⟩ from rfl,
          others.joinFrom_run hinvalid hmaximal]
        exact .run (List.forall_mem_cons.2 ⟨hp, hinvalid⟩) hmaximal hruns
      · have hvalid := first.isInvalid_eq_false hp
        rw [faults, List.flatMap_cons, LexicalFault.filter_join_append hvalid]
        exact .skip hp (ih ps.length (by rw [← hn]; exact Nat.lt_succ_self _) others rfl)

/-- Runs lie behind the start of the text, and right at the start only if a character there is
invalid. -/
theorem InvalidRuns.start_le {ps : List Piece} {spans : List Span} (h : InvalidRuns ps spans)
    {offset : Nat} {text : List Char} (ht : Tiles offset ps text) : ∀ s ∈ spans,
      offset ≤ s.start ∧ ((∀ q ∈ ps.head?, q.content ≠ .invalid) → offset < s.start) := by
  induction h generalizing offset text with
  | nil => exact fun s hs => nomatch hs
  | skip valid others ih =>
    intro s hs
    have hlt := ht.offset_lt
    cases ht with
    | cons first behind =>
      have hle := (ih behind s hs).1
      exact ⟨by omega, fun _ => by omega⟩
  | @run p run ps spans invalid maximal others ih =>
    intro s hs
    rw [List.cons_append] at ht
    have hlt := ht.offset_lt
    refine ⟨?_, fun hvalid => absurd (invalid p List.mem_cons_self) (hvalid p rfl)⟩
    cases ht with
    | cons first behind =>
      rcases List.mem_cons.1 hs with rfl | hs
      · exact Nat.le_of_eq (congrArg Span.start first.span).symm
      · obtain ⟨hstop, rest, hrest⟩ := behind.behind
        have hle := (ih hrest s hs).1
        omega

/-- No run touches the next. -/
theorem InvalidRuns.pairwise {ps : List Piece} {spans : List Span} (h : InvalidRuns ps spans)
    {offset : Nat} {text : List Char} (ht : Tiles offset ps text) :
    spans.Pairwise fun a b => a.stop < b.start := by
  induction h generalizing offset text with
  | nil => exact .nil
  | skip valid others ih =>
    cases ht with
    | cons first behind => exact ih behind
  | run invalid maximal others ih =>
    cases ht with
    | cons first behind =>
      obtain ⟨-, rest, hrest⟩ := behind.behind
      exact .cons (fun s hs => (others.start_le hrest s hs).2 maximal) (ih hrest)

/-! ## Whole sources -/

/-- Faults of pieces cover parts of the text that the pieces tile. -/
theorem Tiles.covers {offset : Nat} {ps : List Piece} {text : List Char}
    (h : Tiles offset ps text) : ∀ f ∈ faults ps, f.Covers offset text := by
  induction h with
  | nil => exact fun f hf => nomatch hf
  | @cons offset p ps rest first _ ih =>
    intro f hf
    rw [faults, List.flatMap_cons] at hf
    rcases List.mem_append.1 hf with hf | hf
    · exact (first.covers f hf).within [] rest rfl
    · have hcovers : f.Covers offset (p.text ++ rest ++ []) :=
        (ih f hf).within p.text [] (by rw [first.span])
      rwa [List.append_nil] at hcovers

theorem Tiles.covers_join {ps : List Piece} {text : List Char} (h : Tiles 0 ps text) :
    ∀ f ∈ LexicalFault.join (faults ps), f.Covers 0 text :=
  LexicalFault.forall_mem_join (fun _ _ hf hg hcontinues => hf.join hg hcontinues) h.covers

theorem LexicalFault.Covers.boundary {f : LexicalFault} {text : List Char}
    (h : f.Covers 0 text) :
    Checked.Boundary text f.span.start ∧ Checked.Boundary text f.span.stop := by
  obtain ⟨before, part, after, rfl, -, hspan, -⟩ := h
  rw [hspan, List.append_assoc]
  refine ⟨⟨before, part ++ after, rfl, by rw [Nat.zero_add]⟩, before ++ part, after, ?_, ?_⟩
  · rw [List.append_assoc]
  · rw [byteLength_append, Nat.zero_add]

/-- The pieces of a source tile it. If nothing is wrong with it, it is its lexemes, one behind the
other with layout around them. If something is, the invalid tokens that are reported are the maximal
runs of invalid characters, none of which touches the next, and every fault stands on whole
characters of the source. -/
theorem pieces_tile (source : List Char) :
    Tiles 0 (pieces source) source ∧
      match tokenize source with
      | .ok ls => Spaced 0 ls source ∧ (∀ l ∈ ls, l.span.start < l.span.stop) ∧
          ls.Pairwise fun a b => a.span.stop ≤ b.span.start
      | .error found =>
        let invalid := (found.filter (·.cause == .invalidToken)).map LexicalFault.span
        InvalidRuns (pieces source) invalid ∧ (invalid.Pairwise fun a b => a.stop < b.start) ∧
          ∀ f ∈ found, f.span.start < f.span.stop ∧ f.span.stop ≤ byteLength source ∧
            Checked.Boundary source f.span.start ∧ Checked.Boundary source f.span.stop := by
  have htiles := pieces_tiles source
  refine ⟨htiles, ?_⟩
  rw [tokenize]
  cases hfaults : lexicalFaults (pieces source) with
  | nil =>
    have hnone : faults (pieces source) = [] := LexicalFault.join_eq_nil.1 hfaults
    have hspaced := htiles.spaced (htiles.valid hnone)
    exact ⟨hspaced, hspaced.start_lt, hspaced.pairwise⟩
  | cons f others =>
    have hruns := htiles.invalidRuns
    have hcovers := htiles.covers_join
    rw [show LexicalFault.join (faults (pieces source)) = f :: others from hfaults] at hruns hcovers
    refine ⟨hruns, hruns.pairwise htiles, fun g hg => ?_⟩
    obtain ⟨-, hlt, hle⟩ := (hcovers g hg).bounds
    exact ⟨hlt, by rwa [Nat.zero_add] at hle, (hcovers g hg).boundary⟩

end ProtoSchema
