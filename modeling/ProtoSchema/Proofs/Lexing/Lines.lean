import ProtoSchema.Proofs.Lexing.LineEnds

/-
  Sources put together. In a source without faults every token ends by itself, so a newline may
  stand behind it as well; and a source that starts on a line of its own does not start with a
  comment that ends the line of something else. So the tokens of two sources with a newline between
  them are those of the first and then those of the second (`tokenize_lines`).
-/

namespace ProtoSchema

/-! ## Tokens before layout -/

section Layout

variable {d : Char} (hd : isLayout d = true)

include hd

/-- A string without faults ends with its quote. -/
theorem StringBody.read_of_faultless {quote : Char} {opening offset : Nat} {a : List Char}
    (h : (read quote opening offset a).faults = []) (x : List Char) :
    read quote opening offset (a ++ d :: x) = read quote opening offset a := by
  induction hn : a.length using Nat.strongRecOn generalizing a offset with
  | ind n ih =>
    cases a with
    | nil =>
      rw [read] at h
      cases h
    | cons c a =>
      have hshorter (k : Nat) : (a.drop k).length < n := by
        rw [← hn, List.length_drop, List.length_cons]
        omega
      rw [read] at h
      rw [List.cons_append, read, read]
      split at h
      · next hquote => rw [if_pos hquote, if_pos hquote]
      next hquote =>
      rw [if_neg hquote, if_neg hquote]
      split at h
      · cases h
      next hnewline =>
      rw [if_neg hnewline, if_neg hnewline]
      split at h
      · cases h
      next hzero =>
      rw [if_neg hzero, if_neg hzero]
      split at h
      · next hbackslash =>
        rw [if_pos hbackslash, if_pos hbackslash, escape_layout hd]
        split at h
        · next bytes k hread =>
          have hk := Escape.length_le (.inl ⟨bytes, hread⟩)
          rw [List.drop_append_of_le_length hk, ih _ (hshorter k) h rfl]
        · cases h
        · cases h
      · next hplain =>
        rw [if_neg hplain, if_neg hplain, ih _ (hshorter 0) h rfl]

/-- A token without faults is the same token before layout. -/
theorem Reading.ofMatch_of_faultless {place : Place} {pattern : Pattern} {n : Nat} {c : Char}
    {a : List Char} (hn : n ≤ (c :: a).length) (h : (ofMatch place pattern n c a).faults = [])
    (x : List Char) :
    ofMatch place pattern n c (a ++ d :: x) = ofMatch place pattern n c a := by
  have htake : (c :: (a ++ d :: x)).take n = (c :: a).take n := by
    rw [← List.cons_append, List.take_append_of_le_length hn]
  cases pattern with
  | quote =>
    have hlength := StringBody.length_le c place.offset (place.offset + c.utf8Size) a
    have hbody : (StringBody.read c place.offset (place.offset + c.utf8Size) a).faults = [] := by
      rw [ofMatch, string] at h
      dsimp only at h
      split at h
      · exact h
      · exact (List.append_eq_nil_iff.1 h).1
    rw [ofMatch, ofMatch, string, string, StringBody.read_of_faultless hd hbody,
      List.take_append_of_le_length hlength]
  | blockOpening =>
    rw [ofMatch, blockComment] at h
    split at h
    · next k hk =>
      have hk' := blockLength_le hk
      rw [List.length_drop] at hk'
      have hdrop : (c :: (a ++ d :: x)).drop 2 = (c :: a).drop 2 ++ d :: x := by
        rw [← List.cons_append, List.drop_append_of_le_length (by omega)]
      rw [ofMatch, ofMatch, blockComment, blockComment, hdrop, blockLength?_append hk, hk]
      dsimp only
      rw [List.take_append_of_le_length (by rw [List.length_drop]; omega)]
    · cases h
  | _ => simp only [ofMatch, htake]

/-- So is a whole piece, unless it is a line comment that goes on over the layout. -/
theorem Piece.first_of_faultless {place : Place} {c : Char} {rest x : List Char}
    (hc : isLayout c = false) (h : (first place c rest).faults = [])
    (hline : lineCommentLength (c :: rest ++ d :: x) = lineCommentLength (c :: rest)) :
    first place c (rest ++ d :: x) = first place c rest := by
  have hlayout : ¬isLayout c = true := by simp [hc]
  have hlongest : Pattern.longest? (c :: (rest ++ d :: x)) = Pattern.longest? (c :: rest) :=
    longest?_layout (a := c :: rest) hd x hline
  unfold first at h ⊢
  rw [if_neg hlayout] at h
  rw [if_neg hlayout, if_neg hlayout, hlongest]
  cases hfound : Pattern.longest? (c :: rest) with
  | none => rfl
  | some found =>
    obtain ⟨pattern, n⟩ := found
    obtain ⟨-, hn, -, -⟩ := Pattern.longestOf_eq_some hfound
    have hle := hn ▸ pattern.length_le (c :: rest)
    rw [hfound] at h
    dsimp only at h ⊢
    rw [Reading.ofMatch_of_faultless hd hle h, ← List.cons_append,
      List.take_append_of_le_length (Reading.length_le place hfound)]

end Layout

/-- A newline behind a text without faults is all that is new. -/
theorem visible_newline {place : Place} {s : List Char} (h : faults (piecesFrom place s) = []) :
    visible (piecesFrom place (s ++ ['\n'])) = visible (piecesFrom place s) := by
  have hfirst : ∀ (q : Place) (c : Char) (rest : List Char), c :: rest <:+ s →
      isLayout c = false → (∀ f ∈ (Piece.first q c rest).faults, False) →
        Piece.first q c (rest ++ ['\n']) = Piece.first q c rest :=
    fun q c rest _ hc hnone => Piece.first_of_faultless rfl hc
      (List.eq_nil_iff_forall_not_mem.2 hnone) (lineCommentLength_newline (c :: rest) [])
  have hend (q : Place) : visible (piecesFrom q ['\n']) = [] := by
    rw [visible_layout rfl, piecesFrom]
    rfl
  rw [visible_append place hfirst (List.eq_nil_iff_forall_not_mem.1 h), hend, List.append_nil]

/-! ## The start of a line -/

/-- A comment that stands first on its line ends no other line. -/
theorem Reading.token_ofMatch_ne {place : Place} (hplace : place.midLine = false)
    (pattern : Pattern) (n : Nat) (c : Char) (rest : List Char) (text : String) :
    (ofMatch place pattern n c rest).token ≠ .lineComment text true := by
  intro h
  cases pattern with
  | lineComment =>
    rw [ofMatch, hplace] at h
    cases h
  | quote =>
    rw [ofMatch, string] at h
    dsimp only at h
    split at h <;> cases h
  | blockOpening =>
    rw [ofMatch, blockComment] at h
    split at h <;> cases h
  | integer | hexInteger =>
    rw [ofMatch, integer] at h
    split at h <;> cases h
  | _ => cases h

/-- So the first token of a text without faults on a line of its own is no such comment. -/
theorem head?_lexemes_ne {place : Place} (hplace : place.midLine = false) {source : List Char}
    (h : faults (piecesFrom place source) = []) :
    ∀ l ∈ (lexemes (piecesFrom place source)).head?, ∀ text, l.token ≠ .lineComment text true := by
  induction source generalizing place with
  | nil =>
    rw [piecesFrom]
    intro l hl
    cases hl
  | cons c rest ih =>
    by_cases hc : isLayout c = true
    · have hnext : (place.next c).midLine = false := by simp [Place.next, hplace, hc]
      rw [faults_layout hc] at h
      rw [lexemes_layout hc]
      exact ih hnext h
    · rw [piecesFrom, faults, List.flatMap_cons, List.append_eq_nil_iff] at h
      have hfirst := h.1
      rw [piecesFrom]
      unfold Piece.first at hfirst ⊢
      rw [if_neg hc] at hfirst ⊢
      split at hfirst
      · next pattern n hfound =>
        intro l hl text
        cases hl
        exact Reading.token_ofMatch_ne hplace pattern n c rest text
      · cases hfirst

/-! ## Two sources -/

theorem faults_of_tokenize {source : List Char} {ls : List Lexeme} (h : tokenize source = .ok ls) :
    faults (pieces source) = [] ∧ lexemes (pieces source) = ls := by
  unfold tokenize at h
  split at h
  · next hfaults =>
    cases h
    exact ⟨LexicalFault.join_eq_nil.1 hfaults, rfl⟩
  · cases h

theorem tokenize_of_faults {source : List Char} (h : faults (pieces source) = []) :
    tokenize source = .ok (lexemes (pieces source)) := by
  rw [tokenize, show lexicalFaults (pieces source) = [] from LexicalFault.join_eq_nil.2 h]

/-- A newline at the end of a source without faults is not seen. -/
theorem tokenize_newline {s : List Char} {ls : List Lexeme} (h : tokenize s = .ok ls) :
    tokenize (s ++ ['\n']) = .ok ls := by
  obtain ⟨hfaults, rfl⟩ := faults_of_tokenize h
  have hvisible : visible (pieces (s ++ ['\n'])) = visible (pieces s) := visible_newline hfaults
  rw [tokenize_of_faults, ← lexemes_visible, hvisible, lexemes_visible]
  rw [← (pieces_tiles _).faults_visible, hvisible, (pieces_tiles s).faults_visible, hfaults]

/-- Behind a source without faults and a newline, a source is read like one of its own. -/
theorem lexemes_lines {s : List Char} {ls : List Lexeme} (hs : tokenize s = .ok ls)
    (t : List Char) :
    lexemes (pieces (s ++ '\n' :: t)) =
        ls ++ (lexemes (pieces t)).map (Lexeme.shift (byteLength s + 1)) ∧
      faults (pieces (s ++ '\n' :: t)) =
        (faults (pieces t)).map (LexicalFault.shift (byteLength s + 1)) := by
  obtain ⟨hfaults, hlexemes⟩ := faults_of_tokenize (tokenize_newline hs)
  have hline : EndsLine (s ++ ['\n']) := by
    intro c hc
    rw [List.getLast?_concat] at hc
    exact (Option.some.inj hc).symm
  have hended : ∀ f ∈ faults (pieces (s ++ ['\n'])), f.cause ≠ .unterminatedComment := by
    rw [hfaults]
    exact nofun
  have hlength : byteLength (s ++ ['\n']) = byteLength s + 1 := byteLength_append s ['\n']
  rw [List.append_cons, lexemes_append hline hended, faults_append hline hended, hlexemes, hfaults,
    hlength]
  exact ⟨rfl, rfl⟩

/-- Two sources, the second on lines of its own behind the first. -/
theorem tokenize_lines {s t : List Char} {ls ms : List Lexeme} (hs : tokenize s = .ok ls)
    (ht : tokenize t = .ok ms) : tokenize (s ++ '\n' :: t) =
      .ok (ls ++ ms.map (Lexeme.shift (byteLength s + 1))) := by
  obtain ⟨hlexemes, hfaults⟩ := lexemes_lines hs t
  obtain ⟨hnone, rfl⟩ := faults_of_tokenize ht
  rw [tokenize_of_faults (by rw [hfaults, hnone]; rfl), hlexemes]

theorem tokenize_of_lines {s t : List Char} {ls ms : List Lexeme} (hs : tokenize s = .ok ls)
    (h : tokenize (s ++ '\n' :: t) = .ok ms) : ∃ ks, tokenize t = .ok ks := by
  obtain ⟨-, hfaults⟩ := lexemes_lines hs t
  rw [(faults_of_tokenize h).1] at hfaults
  exact ⟨_, tokenize_of_faults (List.map_eq_nil_iff.1 hfaults.symm)⟩

end ProtoSchema
