import ProtoSchema.Proofs.Lexing.Extent
import ProtoSchema.Proofs.Lexing.Shift
import ProtoSchema.Proofs.Lexing.Tiling

/-
  Ends of lines. Nothing but a block comment goes on behind a newline: an unterminated string ends
  there, and neither a keyword nor a trailing comment nor a fault has to do with the lines before.
  So the tokens and the faults of a text that ends with a newline stay what they are whatever
  follows, and what follows is read as if it stood alone (`tokenize_append`).
-/

namespace ProtoSchema

/-- The text is empty or ends with a newline. -/
def EndsLine (text : List Char) : Prop := ∀ c ∈ text.getLast?, c = '\n'

instance (text : List Char) : Decidable (EndsLine text) :=
  Option.decidableForallMem text.getLast?

theorem EndsLine.eq_append {c : Char} {text : List Char} (h : EndsLine (c :: text)) :
    ∃ line, c :: text = line ++ ['\n'] := by
  have hne : c :: text ≠ [] := List.cons_ne_nil c text
  refine ⟨(c :: text).dropLast, ?_⟩
  rw [← h _ (List.getLast?_eq_getLast_of_ne_nil hne), List.dropLast_append_getLast hne]

theorem EndsLine.of_append {a b : List Char} (h : EndsLine (a ++ b)) : EndsLine b := by
  intro c hc
  refine h c ?_
  rw [List.getLast?_append, hc]
  rfl

/-! ## Tokens at the end of a line -/

/-- A string ends at the end of the line. -/
theorem StringBody.read_newline (quote : Char) (opening offset : Nat) (a x : List Char) :
    read quote opening offset (a ++ '\n' :: x) = read quote opening offset (a ++ ['\n']) := by
  induction hn : a.length using Nat.strongRecOn generalizing a offset with
  | ind n ih =>
    cases a with
    | nil =>
      rw [List.nil_append, List.nil_append, read, read]
      split <;> rfl
    | cons c a =>
      have hshorter (k : Nat) : (a.drop k).length < n := by
        rw [← hn, List.length_drop, List.length_cons]
        omega
      rw [List.cons_append, List.cons_append, read, read]
      split
      · rfl
      split
      · rfl
      split
      · rw [ih _ (hshorter 0) _ a rfl]
      split
      · rw [escape_layout rfl, escape_layout rfl]
        split
        · next bytes k hread =>
          have hk := Escape.length_le (.inl ⟨bytes, hread⟩)
          rw [List.drop_append_of_le_length hk, List.drop_append_of_le_length hk,
            ih _ (hshorter k) _ _ rfl]
        · next k hread =>
          have hk := Escape.length_le (.inr hread)
          rw [List.drop_append_of_le_length hk, List.drop_append_of_le_length hk,
            ih _ (hshorter k) _ _ rfl]
        · rw [ih _ (hshorter 0) _ a rfl]
      · rw [ih _ (hshorter 0) _ a rfl]

/-- A block comment that has an end has the same end if more follows. -/
theorem blockLength?_append {body : List Char} {n : Nat}
    (h : CommentText.blockLength? body = some n) (x : List Char) :
    CommentText.blockLength? (body ++ x) = some n := by
  fun_induction CommentText.blockLength? body generalizing n with
  | case1 => exact h
  | case2 c text hc ih =>
    obtain ⟨m, hm, rfl⟩ := Option.map_eq_some_iff.1 h
    rw [List.cons_append, CommentText.blockLength?, ih hm]
    · rfl
    · intro rest hstar hrest
      cases text with
      | nil => cases hm
      | cons d text =>
        obtain ⟨rfl, -⟩ := List.cons_eq_cons.1 hrest
        exact hc text hstar rfl
  | case3 => cases h

/-- A token at the end of a line is read in the same way whatever follows, unless it is a block
comment without an end. -/
theorem Reading.ofMatch_newline (place : Place) {pattern : Pattern} {n : Nat} {c : Char}
    {a : List Char} (hn : n ≤ (c :: a).length) (x : List Char)
    (hended : ∀ f ∈ (ofMatch place pattern n c (a ++ ['\n'])).faults,
      f.cause ≠ .unterminatedComment) :
    ofMatch place pattern n c (a ++ ['\n'] ++ x) = ofMatch place pattern n c (a ++ ['\n']) := by
  have htake : (c :: (a ++ ['\n'] ++ x)).take n = (c :: (a ++ ['\n'])).take n := by
    rw [← List.cons_append, List.take_append_of_le_length]
    rw [List.length_cons, List.length_append]
    exact Nat.le_trans hn (Nat.succ_le_succ (Nat.le_add_right _ _))
  cases pattern with
  | quote =>
    have hread := StringBody.read_newline c place.offset (place.offset + c.utf8Size) a x
    have hlength := StringBody.length_le c place.offset (place.offset + c.utf8Size) (a ++ ['\n'])
    rw [List.append_cons] at hread
    rw [ofMatch, ofMatch, string, string, hread, List.take_append_of_le_length hlength]
  | blockOpening =>
    rw [ofMatch, blockComment] at hended
    have hdrop : (c :: (a ++ ['\n'] ++ x)).drop 2 = (c :: (a ++ ['\n'])).drop 2 ++ x := by
      rw [← List.cons_append, List.drop_append_of_le_length]
      simp
    rw [ofMatch, ofMatch, blockComment, blockComment, hdrop]
    split at hended
    · next k hk =>
      have hk' := blockLength_le hk
      rw [blockLength?_append hk]
      dsimp only
      rw [List.take_append_of_le_length (by omega)]
    · exact absurd rfl (hended _ List.mem_cons_self)
  | _ => simp only [ofMatch, htake]

/-- So is a whole piece. -/
theorem Piece.first_newline (place : Place) {c : Char} {rest : List Char}
    (hline : EndsLine (c :: rest)) (hc : isLayout c = false) (x : List Char)
    (hended : ∀ f ∈ (first place c rest).faults, f.cause ≠ .unterminatedComment) :
    first place c (rest ++ x) = first place c rest := by
  obtain ⟨line, hrest⟩ := hline.eq_append
  obtain ⟨a, rfl⟩ : ∃ a, rest = a ++ ['\n'] := by
    cases line with
    | nil =>
      obtain ⟨rfl, -⟩ := List.cons_eq_cons.1 hrest
      cases hc
    | cons d a => exact ⟨a, (List.cons_eq_cons.1 hrest).2⟩
  have hlayout : ¬isLayout c = true := by simp [hc]
  have hlongest (y : List Char) :
      Pattern.longest? (c :: (a ++ '\n' :: y)) = Pattern.longest? (c :: a) :=
    longest?_newline (c :: a) y
  unfold first at hended ⊢
  rw [if_neg hlayout, hlongest] at hended
  rw [if_neg hlayout, if_neg hlayout, hlongest, List.append_assoc, List.singleton_append,
    hlongest, List.append_cons]
  cases hfound : Pattern.longest? (c :: a) with
  | none => rfl
  | some found =>
    obtain ⟨pattern, n⟩ := found
    obtain ⟨-, hn, -, -⟩ := Pattern.longestOf_eq_some hfound
    have hle := hn ▸ pattern.length_le (c :: a)
    rw [hfound] at hended
    dsimp only at hended ⊢
    have hreading : (Reading.ofMatch place pattern n c (a ++ ['\n'])).length ≤ _ :=
      Reading.length_le place ((hlongest []).trans hfound)
    rw [Reading.ofMatch_newline place hle x hended, ← List.cons_append,
      List.take_append_of_le_length hreading]

/-! ## Visible pieces -/

/-- The pieces that are no layout. -/
def visible (ps : List Piece) : List Piece := ps.filter (·.content != .layout)

theorem visible_cons (p : Piece) (ps : List Piece) :
    visible (p :: ps) = visible [p] ++ visible ps :=
  List.filter_append [p] ps

theorem lexemes_visible (ps : List Piece) : lexemes (visible ps) = lexemes ps := by
  rw [lexemes, visible, List.filterMap_filter]
  congr 1
  funext p
  cases hcontent : p.content <;> simp [Piece.lexeme?, hcontent]

theorem Tiles.faults_visible {offset : Nat} {ps : List Piece} {text : List Char}
    (h : Tiles offset ps text) : faults (visible ps) = faults ps := by
  induction h with
  | nil => rfl
  | @cons offset p ps rest first _ ih =>
    have hkind := first.kind
    cases hcontent : p.content with
    | layout =>
      rw [hcontent] at hkind
      rw [visible, List.filter_cons_of_neg (by simp [hcontent]), ← visible, ih, faults, faults,
        List.flatMap_cons, hkind.2, List.nil_append]
    | token | invalid =>
      rw [visible, List.filter_cons_of_pos (by simp [hcontent]), ← visible, faults, faults,
        List.flatMap_cons, List.flatMap_cons, ← faults, ← faults, ih]

/-- Layout at the start of a text only moves the place of what is behind it. -/
theorem visible_layout {c : Char} (hc : isLayout c = true) (place : Place) (text : List Char) :
    visible (piecesFrom place (c :: text)) = visible (piecesFrom (place.next c) text) := by
  have hfirst (p : Place) (d : Char) (rest : List Char) (hd : isLayout d = true) :
      visible (piecesFrom p (d :: rest)) =
        visible (piecesFrom (p.after (d :: rest.takeWhile isLayout))
          (rest.dropWhile isLayout)) := by
    have hpiece : Piece.first p d rest = ⟨.layout, d :: rest.takeWhile isLayout,
        p.span (d :: rest.takeWhile isLayout), []⟩ := by
      rw [Piece.first, if_pos hd]
    have hdrop : rest.drop (rest.takeWhile isLayout).length = rest.dropWhile isLayout :=
      List.append_cancel_left ((List.prefix_iff_eq_append.1 (List.takeWhile_prefix _)).trans
        List.takeWhile_append_dropWhile.symm)
    rw [piecesFrom, hpiece]
    dsimp only
    rw [visible, List.filter_cons_of_neg (by simp), ← visible, List.length_cons,
      List.drop_succ_cons, hdrop]
  rw [hfirst place c text hc]
  cases text with
  | nil => rfl
  | cons d text =>
    by_cases hd : isLayout d = true
    · rw [hfirst _ d text hd, List.takeWhile_cons_of_pos hd, List.dropWhile_cons_of_pos hd]
      rfl
    · rw [List.takeWhile_cons_of_neg hd, List.dropWhile_cons_of_neg hd]
      rfl

theorem faults_layout {c : Char} (hc : isLayout c = true) (place : Place) (text : List Char) :
    faults (piecesFrom place (c :: text)) = faults (piecesFrom (place.next c) text) := by
  rw [← (tiles_piecesFrom place _).faults_visible, visible_layout hc,
    (tiles_piecesFrom _ text).faults_visible]

theorem lexemes_layout {c : Char} (hc : isLayout c = true) (place : Place) (text : List Char) :
    lexemes (piecesFrom place (c :: text)) = lexemes (piecesFrom (place.next c) text) := by
  rw [← lexemes_visible, visible_layout hc, lexemes_visible]

theorem faults_gap {gap : List Char} (hgap : ∀ c ∈ gap, isLayout c = true) (place : Place)
    (text : List Char) :
    faults (piecesFrom place (gap ++ text)) = faults (piecesFrom (place.after gap) text) := by
  induction gap generalizing place with
  | nil => rfl
  | cons c gap ih =>
    obtain ⟨hc, hgap⟩ := List.forall_mem_cons.1 hgap
    exact (faults_layout hc place _).trans (ih hgap _)

theorem lexemes_gap {gap : List Char} (hgap : ∀ c ∈ gap, isLayout c = true) (place : Place)
    (text : List Char) :
    lexemes (piecesFrom place (gap ++ text)) = lexemes (piecesFrom (place.after gap) text) := by
  induction gap generalizing place with
  | nil => rfl
  | cons c gap ih =>
    obtain ⟨hc, hgap⟩ := List.forall_mem_cons.1 hgap
    exact (lexemes_layout hc place _).trans (ih hgap _)

/-- The visible pieces of a text come before those of what follows, if each of them is the same
whatever follows. -/
theorem visible_append {P : LexicalFault → Prop} {t : List Char} (place : Place) {s : List Char}
    (hfirst : ∀ (q : Place) (c : Char) (rest : List Char), c :: rest <:+ s → isLayout c = false →
      (∀ f ∈ (Piece.first q c rest).faults, P f) →
        Piece.first q c (rest ++ t) = Piece.first q c rest)
    (hfaults : ∀ f ∈ faults (piecesFrom place s), P f) : visible (piecesFrom place (s ++ t)) =
      visible (piecesFrom place s) ++ visible (piecesFrom (place.after s) t) := by
  induction hn : s.length using Nat.strongRecOn generalizing place s with
  | ind n ih =>
    cases s with
    | nil =>
      rw [piecesFrom]
      rfl
    | cons c rest =>
      by_cases hc : isLayout c = true
      · rw [List.cons_append, visible_layout hc, visible_layout hc]
        rw [faults_layout hc] at hfaults
        exact ih rest.length (hn ▸ Nat.lt_succ_self _) (place.next c)
          (fun q d others hsuffix => hfirst q d others (hsuffix.trans (List.suffix_cons c rest)))
          hfaults rfl
      · rw [Bool.not_eq_true] at hc
        have htext := Piece.first_text_append place c rest
        have hpos := List.length_pos_iff.2 (Piece.first_text place c rest).1
        have hlength := (Piece.first_text place c rest).2.length_le
        rw [piecesFrom, faults, List.flatMap_cons, List.forall_mem_append] at hfaults
        have hsame := hfirst place c rest List.suffix_rfl hc hfaults.1
        have hdrop : (c :: (rest ++ t)).drop (Piece.first place c rest).text.length =
            (c :: rest).drop (Piece.first place c rest).text.length ++ t :=
          List.drop_append_of_le_length hlength
        have hrest := ih _ (by rw [← hn, List.length_drop]; omega) _
          (fun q d others hsuffix => hfirst q d others (hsuffix.trans (List.drop_suffix _ _)))
          hfaults.2 rfl
        rw [List.cons_append, piecesFrom, piecesFrom, hsame, hdrop]
        refine (visible_cons _ _).trans ?_
        rw [hrest, ← List.append_assoc, ← visible_cons, ← Place.after_append, htext]

/-! ## Joined faults -/

namespace LexicalFault

/-- A fault that may not be joined is reported as it is. -/
theorem mem_join {f : LexicalFault} (hf : f.joins = false) {fs : List LexicalFault} (h : f ∈ fs) :
    f ∈ join fs := by
  cases fs with
  | nil => cases h
  | cons g fs =>
    rw [join]
    induction fs generalizing g with
    | nil => exact h
    | cons k fs ih =>
      rw [joinFrom]
      split
      · next hcontinues =>
        -- Neither of the two that are joined is `f`.
        obtain ⟨hg, hk⟩ := joins_of_continues hcontinues
        refine ih (g.extend k) (List.mem_cons_of_mem _ ?_)
        rcases List.mem_cons.1 h with rfl | h
        · exact absurd hg (by simp [hf])
        rcases List.mem_cons.1 h with rfl | h
        · exact absurd hk (by simp [hf])
        · exact h
      · rcases List.mem_cons.1 h with rfl | h
        · exact List.mem_cons_self
        · exact List.mem_cons_of_mem g (ih k h)

/-- A fault that was joined with `g` goes on where `g` does. -/
theorem continues_extend {f g : LexicalFault} (h : f.continues g = true) (k : LexicalFault) :
    (f.extend g).continues k = g.continues k := by
  rw [continues, Bool.and_eq_true] at h
  simp only [continues, extend, isStringPiece]
  rcases Bool.or_eq_true_iff.1 h.2 with h | h
  · obtain ⟨hf, hg⟩ := Bool.and_eq_true_iff.1 h
    rw [beq_iff_eq] at hf hg
    rw [hf, hg]
  · obtain ⟨hf, hg⟩ := Bool.and_eq_true_iff.1 h
    simp only [isStringPiece, Bool.or_eq_true, beq_iff_eq] at hf hg
    rcases hf with hf | hf <;> rcases hg with hg | hg <;> rw [hf, hg] <;> rfl

/-- Faults are joined with none behind them if the first of these does not continue the last. -/
theorem join_append_of_continues {fs gs : List LexicalFault}
    (h : ∀ f ∈ fs.getLast?, ∀ g ∈ gs.head?, f.continues g = false) :
    join (fs ++ gs) = join fs ++ join gs := by
  cases fs with
  | nil => rfl
  | cons f fs =>
    rw [List.cons_append, join, join]
    induction fs generalizing f with
    | nil => exact joinFrom_of_head? (h f rfl)
    | cons k fs ih =>
      rw [List.getLast?_cons_cons] at h
      rw [List.cons_append, joinFrom, joinFrom]
      split
      · next hcontinues =>
        refine ih (f.extend k) fun l hl g hg => ?_
        cases fs with
        | nil =>
          obtain rfl : f.extend k = l := Option.some.inj hl
          rw [continues_extend hcontinues]
          exact h k rfl g hg
        | cons m fs => exact h l hl g hg
      · rw [ih k h, List.cons_append]

/-- So they are if those that could be joined end before the others start. -/
theorem join_append {n : Nat} {fs gs : List LexicalFault}
    (hfs : ∀ f ∈ fs, f.joins = true → f.span.stop < n) (hgs : ∀ g ∈ gs, n ≤ g.span.start) :
    join (fs ++ gs) = join fs ++ join gs := by
  refine join_append_of_continues fun f hf g hg => Bool.eq_false_iff.2 fun hcontinues => ?_
  have hstop := hfs f (List.mem_of_getLast? hf) (joins_of_continues hcontinues).1
  have hstart := hgs g (List.mem_of_mem_head? hg)
  rw [continues, Bool.and_eq_true, beq_iff_eq] at hcontinues
  omega

end LexicalFault

/-- A fault that may be joined with others ends before the newline at the end of a text. -/
theorem EndsLine.stop_lt {f : LexicalFault} {text : List Char} (hline : EndsLine text)
    (h : f.Covers 0 text) (hf : f.joins = true) : f.span.stop < byteLength text := by
  obtain ⟨before, part, after, rfl, hpart, hspan, hnewline⟩ := h
  rw [hspan, byteLength_append, byteLength_append, Nat.zero_add]
  refine Nat.lt_add_of_pos_right (Checked.byteLength_pos fun hafter => hnewline hf ?_)
  rw [hafter, List.append_nil] at hline
  have hlast := hline.of_append _ (List.getLast?_eq_getLast_of_ne_nil hpart)
  exact hlast ▸ List.getLast_mem hpart

/-! ## The end of a line -/

/-- Behind a newline a text is read like a source of its own. -/
theorem EndsLine.shifted {s : List Char} (h : EndsLine s) :
    Place.start.Shifted (byteLength s) (Place.start.after s) := by
  cases s with
  | nil => exact ⟨rfl, rfl, fun _ => rfl⟩
  | cons c rest =>
    obtain ⟨line, hline⟩ := h.eq_append
    rw [hline]
    refine ⟨Place.after_offset _ _, ?_, ?_⟩
    · rw [Place.after_append]
      rfl
    · rw [Place.after_append]
      exact fun _ => rfl

theorem EndsLine.tiles_shift {s : List Char} (h : EndsLine s) (t : List Char) :
    Tiles (byteLength s) ((pieces t).map (Piece.shift (byteLength s))) t := by
  have htiles := tiles_piecesFrom (Place.start.after s) t
  rwa [piecesFrom_shift h.shifted, h.shifted.offset, Place.start, Nat.zero_add] at htiles

theorem faults_shift (n : Nat) (ps : List Piece) :
    faults (ps.map (Piece.shift n)) = (faults ps).map (LexicalFault.shift n) := by
  rw [faults, faults, List.flatMap_map, List.map_flatMap]
  rfl

theorem tokenize_eq_ok {source : List Char} :
    (∃ ls, tokenize source = .ok ls) ↔ lexicalFaults (pieces source) = [] := by
  unfold tokenize
  cases lexicalFaults (pieces source) <;> simp

section Append

variable {s : List Char} (hline : EndsLine s)
  (hended : ∀ f ∈ faults (pieces s), f.cause ≠ .unterminatedComment) (t : List Char)

include hline hended

theorem visible_pieces_append : visible (pieces (s ++ t)) =
    visible (pieces s) ++ visible ((pieces t).map (Piece.shift (byteLength s))) := by
  have hfirst : ∀ (q : Place) (c : Char) (rest : List Char), c :: rest <:+ s →
      isLayout c = false → (∀ f ∈ (Piece.first q c rest).faults, f.cause ≠ .unterminatedComment) →
        Piece.first q c (rest ++ t) = Piece.first q c rest := by
    rintro q c rest ⟨before, rfl⟩ hc
    exact Piece.first_newline q hline.of_append hc t
  rw [pieces, pieces, pieces, visible_append .start hfirst hended, piecesFrom_shift hline.shifted]

theorem lexemes_append : lexemes (pieces (s ++ t)) =
    lexemes (pieces s) ++ (lexemes (pieces t)).map (Lexeme.shift (byteLength s)) := by
  rw [← lexemes_visible, visible_pieces_append hline hended, lexemes, List.filterMap_append,
    ← lexemes, ← lexemes, lexemes_visible, lexemes_visible, lexemes_shift]

theorem faults_append : faults (pieces (s ++ t)) =
    faults (pieces s) ++ (faults (pieces t)).map (LexicalFault.shift (byteLength s)) := by
  rw [← (pieces_tiles _).faults_visible, visible_pieces_append hline hended, faults,
    List.flatMap_append, ← faults, ← faults, (pieces_tiles s).faults_visible,
    (hline.tiles_shift t).faults_visible, faults_shift]

end Append

/-- The tokens and the faults of a text that ends with a newline, outside of any comment, come
before those of what follows, and nothing else is found: a text is in order if both parts are. -/
theorem tokenize_append {s : List Char} (hline : EndsLine s)
    (hended : ∀ fs, tokenize s = .error fs → ∀ f ∈ fs, f.cause ≠ .unterminatedComment)
    (t : List Char) :
    lexemes (pieces (s ++ t)) =
        lexemes (pieces s) ++ (lexemes (pieces t)).map (Lexeme.shift (byteLength s)) ∧
      lexicalFaults (pieces (s ++ t)) =
        lexicalFaults (pieces s) ++
          (lexicalFaults (pieces t)).map (LexicalFault.shift (byteLength s)) ∧
      ((∃ ls, tokenize (s ++ t) = .ok ls) ↔
        (∃ ls, tokenize s = .ok ls) ∧ ∃ ls, tokenize t = .ok ls) := by
  have hreported : ∀ f ∈ faults (pieces s), f.cause ≠ .unterminatedComment := by
    intro f hf hcause
    have hmem : f ∈ lexicalFaults (pieces s) :=
      LexicalFault.mem_join (by simp [LexicalFault.joins, LexicalFault.isStringPiece, hcause]) hf
    refine hended (lexicalFaults (pieces s)) ?_ f hmem hcause
    rw [tokenize]
    cases hfaults : lexicalFaults (pieces s) with
    | nil =>
      rw [hfaults] at hmem
      cases hmem
    | cons => rfl
  have hjoin : lexicalFaults (pieces (s ++ t)) = lexicalFaults (pieces s) ++
      (lexicalFaults (pieces t)).map (LexicalFault.shift (byteLength s)) := by
    have hbefore : ∀ f ∈ faults (pieces s), f.joins = true → f.span.stop < byteLength s :=
      fun f hf => hline.stop_lt ((pieces_tiles s).covers f hf)
    have hafter := (hline.tiles_shift t).start_le
    rw [faults_shift] at hafter
    calc lexicalFaults (pieces (s ++ t))
        = LexicalFault.join (faults (pieces (s ++ t))) := rfl
      _ = LexicalFault.join (faults (pieces s)) ++ LexicalFault.join
            ((faults (pieces t)).map (LexicalFault.shift (byteLength s))) := by
          rw [faults_append hline hreported, LexicalFault.join_append hbefore hafter]
      _ = _ := by rw [LexicalFault.join_shift]; rfl
  refine ⟨lexemes_append hline hreported t, hjoin, ?_⟩
  rw [tokenize_eq_ok, tokenize_eq_ok, tokenize_eq_ok, hjoin, List.append_eq_nil_iff,
    List.map_eq_nil_iff]

/-- A string without an end and characters that start no token, before a line in which a keyword is
the first word. -/
theorem tokenize_append_unterminated :
    tokenize "#$ 'a\n".toList =
        .error [⟨.invalidToken, ⟨0, 2⟩⟩, ⟨.unterminatedString, ⟨3, 5⟩⟩] ∧
      lexemes (pieces ("#$ 'a\n".toList ++ "package p; // p\n".toList)) =
        lexemes (pieces "#$ 'a\n".toList) ++
          (lexemes (pieces "package p; // p\n".toList)).map (Lexeme.shift 6) ∧
      lexicalFaults (pieces ("#$ 'a\n".toList ++ "package p; // p\n".toList)) =
        lexicalFaults (pieces "#$ 'a\n".toList) ++
          (lexicalFaults (pieces "package p; // p\n".toList)).map (LexicalFault.shift 6) := by
  have htokenize : tokenize "#$ 'a\n".toList =
      .error [⟨.invalidToken, ⟨0, 2⟩⟩, ⟨.unterminatedString, ⟨3, 5⟩⟩] := by decide +kernel
  obtain ⟨hlexemes, hfaults, -⟩ := tokenize_append (s := "#$ 'a\n".toList) (by decide)
    (fun fs hfs => by
      rw [htokenize] at hfs
      cases hfs
      decide) "package p; // p\n".toList
  exact ⟨htokenize, hlexemes, hfaults⟩

end ProtoSchema
