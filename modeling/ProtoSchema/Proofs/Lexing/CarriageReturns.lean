import Mathlib.Data.List.Induction
import ProtoSchema.Proofs.Classification
import ProtoSchema.Proofs.Lexing.Lines
import ProtoSchema.Proofs.Lexing.Longest

/-
  Newlines written with a carriage return. Between tokens the additional character is layout, at the
  end of a line comment or of a line of a block comment it is a blank that is trimmed, and in no
  other token is there a newline. So a source in which every newline has a carriage return before it
  has the same tokens, and describes the same file (`parse_crlf`).
-/

namespace ProtoSchema

/-- The text with a carriage return before every newline. -/
def crlf (text : List Char) : List Char :=
  text.flatMap fun c => if c = '\n' then ['\r', '\n'] else [c]

@[simp] theorem crlf_nil : crlf [] = [] := rfl

theorem crlf_newline (text : List Char) : crlf ('\n' :: text) = '\r' :: '\n' :: crlf text := rfl

theorem crlf_cons {c : Char} (hc : c ≠ '\n') (text : List Char) :
    crlf (c :: text) = c :: crlf text := by
  rw [crlf, List.flatMap_cons, if_neg hc]
  rfl

theorem crlf_append (a b : List Char) : crlf (a ++ b) = crlf a ++ crlf b :=
  List.flatMap_append ..

theorem crlf_of_notMem {text : List Char} (h : '\n' ∉ text) : crlf text = text := by
  induction text with
  | nil => rfl
  | cons c text ih =>
    rw [List.mem_cons, not_or] at h
    rw [crlf_cons (Ne.symm h.1), ih h.2]

/-! ## Texts of comments -/

namespace Text

/-- A blank at the end is trimmed. -/
theorem trim_concat {c : Char} (hc : isBlank c = true) (text : List Char) :
    trim (text ++ [c]) = trim text := by
  have hend (m : List Char) : dropEndWhile isBlank (m ++ [c]) = dropEndWhile isBlank m := by
    rw [dropEndWhile, List.reverse_concat, List.dropWhile_cons_of_pos hc, dropEndWhile]
  rw [trim, trimStart, List.dropWhile_append]
  split
  · next h =>
    rw [List.dropWhile_cons_of_pos hc, trim, trimStart, List.isEmpty_iff.1 h]
    rfl
  · rw [hend, trim, trimStart]

end Text

namespace CommentText

open Text

theorem ofLine_return (comment : List Char) : ofLine (comment ++ ['\r']) = ofLine comment := by
  rw [ofLine, List.dropWhile_append]
  split
  · next h =>
    rw [ofLine, List.isEmpty_iff.1 h]
    rfl
  · rw [trim_concat rfl, ofLine]

/-- The line, with or without a carriage return at its end. -/
def MayReturn (line line' : List Char) : Prop := line' = line ∨ line' = line ++ ['\r']

theorem lines_crlf (text : List Char) :
    List.Forall₂ MayReturn (lines text) (lines (crlf text)) := by
  induction text with
  | nil => exact .cons (.inl rfl) .nil
  | cons c text ih =>
    by_cases hc : c = '\n'
    · subst hc
      rw [crlf_newline]
      exact .cons (.inr rfl) ih
    · rw [crlf_cons hc, lines, lines, if_neg hc, if_neg hc]
      revert ih
      generalize lines text = ls
      generalize lines (crlf text) = ls'
      intro ih
      cases ih with
      | nil => exact .cons (.inl rfl) .nil
      | cons hline hothers =>
        refine .cons ?_ hothers
        rcases hline with rfl | rfl
        · exact .inl rfl
        · exact .inr rfl

theorem bodyLines_congr {ls ls' : List (List Char)} (h : List.Forall₂ MayReturn ls ls') :
    bodyLines ls' = bodyLines ls := by
  have htrim {l l' : List Char} (hl : MayReturn l l') : trim l' = trim l := by
    rcases hl with rfl | rfl
    · rfl
    · exact trim_concat rfl l
  have hothers {ls ls' : List (List Char)} (h : List.Forall₂ MayReturn ls ls') :
      ls'.map undecorated = ls.map undecorated := by
    induction h with
    | nil => rfl
    | cons hl _ ih => rw [List.map_cons, List.map_cons, ih, undecorated, undecorated, htrim hl]
  cases h with
  | nil => rfl
  | cons hfirst hrest => rw [bodyLines, bodyLines, htrim hfirst, hothers hrest]

theorem dropWhile_crlf (body : List Char) :
    (crlf body).dropWhile (· == '*') = crlf (body.dropWhile (· == '*')) := by
  induction body with
  | nil => rfl
  | cons c body ih =>
    by_cases hc : c = '*'
    · subst hc
      exact ih
    · have hstop (m : List Char) : (c :: m).dropWhile (· == '*') = c :: m :=
        List.dropWhile_cons_of_neg (by simp [hc])
      rw [hstop]
      by_cases hn : c = '\n'
      · rw [hn]
        rfl
      · rw [crlf_cons hn, hstop]

theorem dropEndWhile_crlf (body : List Char) :
    dropEndWhile (· == '*') (crlf body) = crlf (dropEndWhile (· == '*') body) := by
  have hstop {c : Char} (hc : c ≠ '*') (m : List Char) :
      dropEndWhile (· == '*') (m ++ [c]) = m ++ [c] := by
    rw [dropEndWhile, List.reverse_concat, List.dropWhile_cons_of_neg (by simp [hc]),
      List.reverse_cons, List.reverse_reverse]
  have hstar (m : List Char) :
      dropEndWhile (· == '*') (m ++ ['*']) = dropEndWhile (· == '*') m := by
    rw [dropEndWhile, List.reverse_concat, List.dropWhile_cons_of_pos rfl, dropEndWhile]
  induction body using List.reverseRecOn with
  | nil => rfl
  | append_singleton body c ih =>
    rw [crlf_append]
    by_cases hc : c = '*'
    · subst hc
      rw [hstar, ← ih]
      exact hstar _
    · rw [hstop hc, crlf_append]
      by_cases hn : c = '\n'
      · subst hn
        exact (congrArg _ (List.append_cons _ _ _)).trans ((hstop hc _).trans
          (List.append_cons _ _ _).symm)
      · rw [crlf_cons hn]
        exact hstop hc _

/-- A carriage return at the end of a line of a block comment is a blank. -/
theorem ofBlock_crlf (body : List Char) : ofBlock (crlf body) = ofBlock body := by
  rw [ofBlock, dropWhile_crlf, dropEndWhile_crlf, bodyLines_congr (lines_crlf _), ofBlock]

theorem blockLength?_cons {c : Char} {text : List Char}
    (h : ¬(c = '*' ∧ text.head? = some '/')) :
    blockLength? (c :: text) = (blockLength? text).map (· + 1) := by
  rw [blockLength?]
  rintro rest rfl rfl
  exact h ⟨rfl, rfl⟩

/-- A block comment ends where it did, behind the carriage returns in it. -/
theorem blockLength?_crlf (body : List Char) : blockLength? (crlf body) =
    (blockLength? body).map fun n => (crlf (body.take n)).length := by
  induction body with
  | nil => rfl
  | cons c text ih =>
    by_cases hend : c = '*' ∧ text.head? = some '/'
    · obtain ⟨rfl, hslash⟩ := hend
      obtain ⟨text, rfl⟩ := List.head?_eq_some_iff.1 hslash
      rfl
    rw [blockLength?_cons hend, Option.map_map]
    by_cases hc : c = '\n'
    · subst hc
      rw [crlf_newline, blockLength?_cons (by simp), blockLength?_cons (by simp), ih,
        Option.map_map, Option.map_map]
      rfl
    · have hend' : ¬(c = '*' ∧ (crlf text).head? = some '/') := by
        refine fun h => hend ⟨h.1, ?_⟩
        cases text with
        | nil => exact h.2
        | cons d text =>
          by_cases hd : d = '\n'
          · subst hd
            exact absurd h.2 (by simp [crlf_newline])
          · rw [crlf_cons hd] at h
            exact h.2
      rw [crlf_cons hc, blockLength?_cons hend', ih, Option.map_map]
      congr 1
      funext n
      exact (congrArg List.length (crlf_cons hc (text.take n))).symm

end CommentText

/-! ## Tokens before a newline -/

/-- A string without faults ends before the end of the line. -/
theorem StringBody.read_of_newline {quote : Char} (hquote : quote ≠ '\n') {opening offset : Nat}
    {a x : List Char} (h : (read quote opening offset (a ++ '\n' :: x)).faults = []) :
    read quote opening offset (a ++ '\n' :: x) = read quote opening offset a := by
  induction hn : a.length using Nat.strongRecOn generalizing a offset with
  | ind n ih =>
    cases a with
    | nil =>
      rw [List.nil_append, read, if_neg (Ne.symm hquote), if_pos rfl] at h
      cases h
    | cons c a =>
      have hshorter (k : Nat) : (a.drop k).length < n := by
        rw [← hn, List.length_drop, List.length_cons]
        omega
      rw [List.cons_append, read] at h
      rw [List.cons_append, read, read]
      split at h
      · next hend => rw [if_pos hend, if_pos hend]
      next hend =>
      rw [if_neg hend, if_neg hend]
      split at h
      · cases h
      next hnewline =>
      rw [if_neg hnewline, if_neg hnewline]
      split at h
      · cases h
      next hzero =>
      rw [if_neg hzero, if_neg hzero]
      split at h
      · next hbackslash =>
        rw [if_pos hbackslash, if_pos hbackslash, escape_layout rfl]
        rw [escape_layout rfl] at h
        split at h
        · next bytes k hread =>
          have hk := Escape.length_le (.inl ⟨bytes, hread⟩)
          rw [List.drop_append_of_le_length hk] at h ⊢
          rw [ih _ (hshorter k) h rfl]
        · cases h
        · cases h
      · next hplain => rw [if_neg hplain, if_neg hplain, ih _ (hshorter 0) h rfl]

/-- A token without faults that is no block comment ends before the end of the line. -/
theorem Reading.ofMatch_of_newline {place : Place} {pattern : Pattern} {n : Nat} {c : Char}
    {a x : List Char} (hc : c ≠ '\n') (hblock : pattern ≠ .blockOpening)
    (hn : n ≤ (c :: a).length) (h : (ofMatch place pattern n c (a ++ '\n' :: x)).faults = []) :
    ofMatch place pattern n c (a ++ '\n' :: x) = ofMatch place pattern n c a := by
  have htake : (c :: (a ++ '\n' :: x)).take n = (c :: a).take n := by
    rw [← List.cons_append, List.take_append_of_le_length hn]
  cases pattern with
  | quote =>
    have hbody : (StringBody.read c place.offset (place.offset + c.utf8Size)
        (a ++ '\n' :: x)).faults = [] := by
      rw [ofMatch, string] at h
      dsimp only at h
      split at h
      · exact h
      · exact (List.append_eq_nil_iff.1 h).1
    have hread := StringBody.read_of_newline hc hbody
    have hlength := StringBody.length_le c place.offset (place.offset + c.utf8Size) a
    rw [ofMatch, ofMatch, string, string, hread, List.take_append_of_le_length hlength]
  | blockOpening => exact absurd rfl hblock
  | _ => simp only [ofMatch, htake]

/-! ## Comments -/

theorem Pattern.starts_slash {p : Pattern} (h : p.starts '/' = true) :
    p = .lineComment ∨ p = .blockOpening := by
  cases p with
  | lineComment => exact .inl rfl
  | blockOpening => exact .inr rfl
  | punct p => cases p <;> exact absurd h (by decide)
  | _ => exact absurd h (by decide)

theorem Pattern.longest?_lineComment (text : List Char) : longest? ('/' :: '/' :: text) =
    some (.lineComment, runLength (· != '\n') text + 2) := by
  refine longest?_of_lt rfl (Nat.succ_pos _) fun q hq => ?_
  cases hstarts : q.starts '/' with
  | false =>
    rw [length_of_not_starts hstarts]
    exact Nat.succ_pos _
  | true =>
    rw [(starts_slash hstarts).resolve_left hq]
    exact Nat.succ_pos _

theorem Pattern.longest?_blockOpening (text : List Char) :
    longest? ('/' :: '*' :: text) = some (.blockOpening, 2) := by
  refine longest?_of_lt rfl Nat.zero_lt_two fun q hq => ?_
  cases hstarts : q.starts '/' with
  | false =>
    rw [length_of_not_starts hstarts]
    exact Nat.zero_lt_two
  | true =>
    rw [(starts_slash hstarts).resolve_right hq]
    exact Nat.zero_lt_two

namespace Piece

/-- A line comment reaches to the end of its line. -/
theorem first_of_line (place : Place) {line : List Char} (hline : '\n' ∉ line)
    {rest : List Char} (hrest : ∀ c ∈ rest.head?, c = '\n') :
    first place '/' ('/' :: (line ++ rest)) =
      ⟨.token (.lineComment (String.ofList (CommentText.ofLine ('/' :: '/' :: line)))
        place.midLine), '/' :: '/' :: line, place.span ('/' :: '/' :: line), []⟩ := by
  have hrun : runLength (· != '\n') (line ++ rest) = line.length := by
    have hpos : ∀ c ∈ line, (c != '\n') = true := by
      intro c hc
      rw [bne_iff_ne]
      rintro rfl
      exact hline hc
    rw [runLength, List.takeWhile_append_of_pos hpos]
    cases rest with
    | nil => rw [List.takeWhile_nil, List.append_nil]
    | cons c rest =>
      rw [hrest c rfl, List.takeWhile_cons_of_neg (by simp), List.append_nil]
  have htake : ('/' :: '/' :: (line ++ rest)).take (line.length + 2) = '/' :: '/' :: line := by
    simp
  unfold first
  rw [if_neg (by decide), Pattern.longest?_lineComment, hrun]
  simp only [Reading.ofMatch, htake]

/-- A block comment reaches to its end. -/
theorem first_of_block (place : Place) {inner rest : List Char}
    (h : CommentText.blockLength? (inner ++ ['*', '/'] ++ rest) = some inner.length) :
    first place '/' ('*' :: (inner ++ ['*', '/'] ++ rest)) =
      ⟨.token (.blockComment (String.ofList (CommentText.ofBlock inner))),
        '/' :: '*' :: (inner ++ ['*', '/']), place.span ('/' :: '*' :: (inner ++ ['*', '/'])),
        []⟩ := by
  have htake : ('/' :: '*' :: (inner ++ ['*', '/'] ++ rest)).take (inner.length + 4) =
      '/' :: '*' :: (inner ++ ['*', '/']) := by
    rw [← List.cons_append, ← List.cons_append]
    exact List.take_left' (by simp)
  unfold first
  rw [if_neg (by decide), Pattern.longest?_blockOpening]
  simp only [Reading.ofMatch, Reading.blockComment, List.drop_succ_cons, List.drop_zero, h, htake]
  rw [List.append_assoc, List.take_left]

theorem exists_of_faultless_blockComment {place : Place} {body : List Char}
    (h : (first place '/' ('*' :: body)).faults = []) :
    ∃ n, CommentText.blockLength? body = some n := by
  cases hn : CommentText.blockLength? body with
  | some n => exact ⟨n, rfl⟩
  | none =>
    unfold first at h
    rw [if_neg (by decide), Pattern.longest?_blockOpening] at h
    simp only [Reading.ofMatch, Reading.blockComment, List.drop_succ_cons, List.drop_zero, hn] at h
    cases h

/-- A piece without faults that is no comment ends before the end of the line. -/
theorem first_of_newline {place : Place} {c : Char} {a x : List Char} (hc : isLayout c = false)
    (hline : ¬['/', '/'] <+: c :: a) (hblock : ¬['/', '*'] <+: c :: a)
    (h : (first place c (a ++ '\n' :: x)).faults = []) :
    first place c (a ++ '\n' :: x) = first place c a := by
  have hlayout : ¬isLayout c = true := by simp [hc]
  have hlongest : Pattern.longest? (c :: (a ++ '\n' :: x)) = Pattern.longest? (c :: a) :=
    longest?_newline (c :: a) x
  unfold first at h ⊢
  rw [if_neg hlayout, hlongest] at h
  rw [if_neg hlayout, if_neg hlayout, hlongest]
  cases hfound : Pattern.longest? (c :: a) with
  | none => rfl
  | some found =>
    obtain ⟨pattern, n⟩ := found
    obtain ⟨-, hn, hpos, -⟩ := Pattern.longestOf_eq_some hfound
    have hle := hn ▸ pattern.length_le (c :: a)
    have hpattern : pattern ≠ .blockOpening := by
      rintro rfl
      exact Nat.lt_irrefl 0 (Nat.lt_of_lt_of_eq hpos
        (hn.trans (blockOpeningLength_of_no_opening hblock)))
    have hnewline : c ≠ '\n' := by
      rintro rfl
      cases hc
    rw [hfound] at h
    dsimp only at h ⊢
    rw [Reading.ofMatch_of_newline hnewline hpattern hle h, ← List.cons_append,
      List.take_append_of_le_length (Reading.length_le place hfound)]

end Piece

/-! ## Pieces with carriage returns -/

/-- `p'` is the piece `p` with carriage returns in it. If `p` is a line comment, then the one that
belongs to the newline behind it, here the `gap`, is part of `p'`. -/
structure Piece.Returned (p p' : Piece) (others : List Char) : Prop where
  content : p'.content = p.content
  faults : p'.faults = []
  word : ∀ w, p.content = .token (.word w) → p'.text = p.text
  text : ∃ gap, (∀ c ∈ gap, isLayout c = true) ∧ gap <+: others ∧
    p'.text ++ gap = crlf (p.text ++ gap)

theorem Piece.Returned.of_text {p p' : Piece} {others : List Char}
    (hcontent : p'.content = p.content) (hfaults : p'.faults = [])
    (hword : ∀ w, p.content = .token (.word w) → p'.text = p.text)
    (htext : p'.text = crlf p.text) : p.Returned p' others where
  content := hcontent
  faults := hfaults
  word := hword
  text := ⟨[], nofun, List.nil_prefix, by rw [List.append_nil, List.append_nil, htext]⟩

namespace Piece

variable (place : Place) {c : Char} {rest : List Char}

theorem returned_of_notMem (h : (first place c rest).faults = []) (hmem : '\n' ∉ c :: rest) :
    (first place c rest).Returned (first place c (crlf rest))
      ((c :: rest).drop (first place c rest).text.length) := by
  have hpassed := (first_text place c rest).2
  rw [crlf_of_notMem fun hrest => hmem (List.mem_cons_of_mem c hrest)]
  exact .of_text rfl h (fun _ _ => rfl) (crlf_of_notMem fun hn => hmem (hpassed.subset hn)).symm

theorem returned_lineComment {line others : List Char} (hline : '\n' ∉ line) :
    (first place '/' ('/' :: (line ++ '\n' :: others))).Returned
      (first place '/' ('/' :: (line ++ '\r' :: '\n' :: crlf others)))
      (('/' :: '/' :: (line ++ '\n' :: others)).drop
        (first place '/' ('/' :: (line ++ '\n' :: others))).text.length) := by
  have hreturn : '\n' ∉ line ++ ['\r'] := by
    simpa using hline
  have hstop (x : List Char) : ∀ c ∈ ('\n' :: x).head?, c = '\n' := fun c hc =>
    (Option.some.inj hc).symm
  have hbefore := first_of_line place hline (hstop others)
  have hafter := first_of_line place hreturn (hstop (crlf others))
  have htext : crlf ('/' :: '/' :: line ++ ['\n']) = '/' :: '/' :: (line ++ ['\r', '\n']) := by
    rw [crlf_append, crlf_of_notMem (by simpa using hline)]
    rfl
  rw [List.append_assoc, List.singleton_append] at hafter
  rw [hbefore, hafter]
  refine ⟨?_, rfl, nofun, ['\n'], ?_, ?_, ?_⟩
  · exact congrArg (fun text => Content.token (.lineComment (String.ofList text) place.midLine))
      (CommentText.ofLine_return ('/' :: '/' :: line))
  · rw [List.forall_mem_singleton]
    rfl
  · rw [show '/' :: '/' :: (line ++ '\n' :: others) = '/' :: '/' :: line ++ '\n' :: others from rfl,
      List.drop_left]
    exact ⟨others, rfl⟩
  · rw [htext, List.cons_append, List.cons_append, List.append_assoc]
    rfl

theorem returned_blockComment {body : List Char} (h : (first place '/' ('*' :: body)).faults = []) :
    (first place '/' ('*' :: body)).Returned (first place '/' ('*' :: crlf body))
      (('/' :: '*' :: body).drop (first place '/' ('*' :: body)).text.length) := by
  obtain ⟨n, hn⟩ := exists_of_faultless_blockComment h
  obtain ⟨inner, others, rfl, rfl⟩ := Checked.append_of_blockLength? hn
  have hcrlf : crlf (inner ++ ['*', '/'] ++ others) = crlf inner ++ ['*', '/'] ++ crlf others := by
    rw [crlf_append, crlf_append]
    rfl
  have hn' : CommentText.blockLength? (crlf inner ++ ['*', '/'] ++ crlf others) =
      some (crlf inner).length := by
    rw [← hcrlf, CommentText.blockLength?_crlf, hn, List.append_assoc, Option.map_some,
      List.take_left]
  rw [hcrlf, first_of_block place hn, first_of_block place hn']
  refine .of_text (by rw [CommentText.ofBlock_crlf]) rfl nofun ?_
  rw [crlf_cons (by decide), crlf_cons (by decide), crlf_append]
  rfl

/-- A piece that is no comment has no newline in it. -/
theorem returned_of_not_comment {a others : List Char} (hc : isLayout c = false)
    (hline : ¬['/', '/'] <+: c :: a) (hblock : ¬['/', '*'] <+: c :: a) (ha : '\n' ∉ c :: a)
    (h : (first place c (a ++ '\n' :: others)).faults = []) :
    (first place c (a ++ '\n' :: others)).Returned
      (first place c (a ++ '\r' :: '\n' :: crlf others))
      ((c :: (a ++ '\n' :: others)).drop
        (first place c (a ++ '\n' :: others)).text.length) := by
  have hsame := first_of_newline hc hline hblock h
  have hpassed := (first_text place c a).2
  rw [hsame] at h ⊢
  rw [first_of_faultless rfl hc h (lineCommentLength_layout rfl _ hline)]
  exact .of_text rfl h (fun _ _ => rfl) (crlf_of_notMem fun hn => ha (hpassed.subset hn)).symm

/-- Every piece without faults is found again, with carriage returns in it. -/
theorem returned (hc : isLayout c = false) (h : (first place c rest).faults = []) :
    (first place c rest).Returned (first place c (crlf rest))
      ((c :: rest).drop (first place c rest).text.length) := by
  have hnewline : '\n' ≠ c := by
    rintro rfl
    cases hc
  by_cases hmem : '\n' ∈ rest
  · obtain ⟨a, x, rfl, ha⟩ := List.eq_append_cons_of_mem hmem
    have hcrlf : crlf (a ++ '\n' :: x) = a ++ '\r' :: '\n' :: crlf x := by
      rw [crlf_append, crlf_of_notMem ha, crlf_newline]
    by_cases hline : ['/', '/'] <+: c :: a
    · obtain ⟨line, hline⟩ := hline
      obtain ⟨rfl, rfl⟩ : c = '/' ∧ a = '/' :: line := List.cons_eq_cons.1 hline.symm
      rw [hcrlf]
      exact returned_lineComment place fun hn => ha (List.mem_cons_of_mem _ hn)
    by_cases hblock : ['/', '*'] <+: c :: a
    · obtain ⟨inner, hinner⟩ := hblock
      obtain ⟨rfl, rfl⟩ : c = '/' ∧ a = '*' :: inner := List.cons_eq_cons.1 hinner.symm
      rw [List.cons_append, crlf_cons (by decide)]
      exact returned_blockComment place h
    rw [hcrlf]
    exact returned_of_not_comment place hc hline hblock
      (List.not_mem_cons_of_ne_of_not_mem hnewline ha) h
  · exact returned_of_notMem place h (List.not_mem_cons_of_ne_of_not_mem hnewline hmem)

end Piece

/-! ## Sources with carriage returns -/

namespace Place.Shifted

variable {n : Nat} {p q : Place}

/-- At the start of a line, a carriage return before it only counts as a byte. -/
theorem newline (h : p.Shifted n q) :
    (p.next '\n').Shifted (n + 1) ((q.next '\r').next '\n') where
  offset := by
    change q.offset + 1 + 1 = p.offset + 1 + (n + 1)
    rw [h.offset]
    omega
  midLine := rfl
  follows _ := rfl

theorem after_crlf (h : p.Shifted n q) (text : List Char) :
    ∃ m, (p.after text).Shifted m (q.after (crlf text)) := by
  induction text generalizing p q n with
  | nil => exact ⟨n, h⟩
  | cons c text ih =>
    by_cases hc : c = '\n'
    · subst hc
      exact ih h.newline
    · rw [crlf_cons hc]
      exact ih (h.next c)

end Place.Shifted

theorem Piece.Returned.shift {p p' : Piece} {others : List Char} (h : p.Returned p' others)
    (n : Nat) : p.Returned (p'.shift n) others where
  content := h.content
  faults := congrArg (List.map (LexicalFault.shift n)) h.faults
  word := h.word
  text := h.text

/-- What stands behind a piece stands behind it with carriage returns too, but for layout. -/
theorem Piece.Returned.behind {p p' : Piece} {others : List Char} (h : p.Returned p' others) :
    ∃ gap behind, (∀ c ∈ gap, isLayout c = true) ∧ others = gap ++ behind ∧
      p'.text ++ gap = crlf (p.text ++ gap) ∧
      (crlf (p.text ++ others)).drop p'.text.length = gap ++ crlf behind := by
  obtain ⟨gap, hgap, ⟨behind, rfl⟩, hreturns⟩ := h.text
  refine ⟨gap, behind, hgap, rfl, hreturns, ?_⟩
  rw [← List.append_assoc, crlf_append, ← hreturns, List.append_assoc, List.drop_left]

/-- A piece is the same token as with carriage returns in it. -/
theorem Piece.Returned.sameText {p p' : Piece} {others : List Char} (h : p.Returned p' others)
    {ps ps' : List Piece} (hothers : List.Forall₂ Lexeme.SameText (lexemes ps) (lexemes ps')) :
    List.Forall₂ Lexeme.SameText (lexemes (p :: ps)) (lexemes (p' :: ps')) := by
  rw [lexemes, lexemes, List.filterMap_cons, List.filterMap_cons, lexeme?, lexeme?, h.content]
  cases hcontent : p.content with
  | layout | invalid => exact hothers
  | token t =>
    refine .cons ?_ hothers
    cases ht : t with
    | word w => exact .word rfl rfl (congrArg String.ofList (h.word w (ht ▸ hcontent)).symm)
    | _ => exact .other (fun _ hw => by cases hw) rfl

/-- The tokens of a text without faults are found again in the text with carriage returns. -/
theorem lexemes_crlf {n : Nat} {p q : Place} (h : p.Shifted n q) {text : List Char}
    (hfaults : faults (piecesFrom p text) = []) :
    List.Forall₂ Lexeme.SameText (lexemes (piecesFrom p text))
        (lexemes (piecesFrom q (crlf text))) ∧
      faults (piecesFrom q (crlf text)) = [] := by
  induction hk : text.length using Nat.strongRecOn generalizing n p q text with | ind k ih
  cases text with
  | nil =>
    rw [piecesFrom, crlf_nil, piecesFrom]
    exact ⟨.nil, rfl⟩
  | cons c rest =>
    have hshorter : rest.length < k := hk ▸ Nat.lt_succ_self _
    by_cases hnewline : c = '\n'
    · subst hnewline
      rw [faults_layout rfl] at hfaults
      rw [crlf_newline, lexemes_layout rfl, lexemes_layout rfl, lexemes_layout rfl,
        faults_layout rfl, faults_layout rfl]
      exact ih _ hshorter h.newline hfaults rfl
    by_cases hc : isLayout c = true
    · rw [faults_layout hc] at hfaults
      rw [crlf_cons hnewline, lexemes_layout hc, lexemes_layout hc, faults_layout hc]
      exact ih _ hshorter (h.next c) hfaults rfl
    rw [Bool.not_eq_true] at hc
    rw [piecesFrom, faults, List.flatMap_cons, List.append_eq_nil_iff, ← faults] at hfaults
    have htext := Piece.first_text_append p c rest
    have hpos := List.length_pos_iff.2 (Piece.first_text p c rest).1
    have hreturned := (Piece.returned p hc hfaults.1).shift n
    have hlength := congrArg List.length htext
    rw [crlf_cons hnewline, piecesFrom, piecesFrom, Piece.first_shift h c (crlf rest)]
    generalize Piece.first p c rest = P at *
    generalize (Piece.first p c (crlf rest)).shift n = P' at *
    obtain ⟨gap, others, hgap, hothers, hreturns, hdrop⟩ := hreturned.behind
    rw [htext, crlf_cons hnewline] at hdrop
    obtain ⟨m, hplace⟩ := h.after_crlf (P.text ++ gap)
    rw [← hreturns, Place.after_append, Place.after_append] at hplace
    rw [hothers, faults_gap hgap] at hfaults
    rw [hothers, List.length_append, List.length_append, hk] at hlength
    obtain ⟨hlexemes, hnone⟩ := ih others.length (by omega) hplace hfaults.2 rfl
    rw [hothers, hdrop]
    constructor
    · refine hreturned.sameText ?_
      rw [lexemes_gap hgap, lexemes_gap hgap]
      exact hlexemes
    · rw [faults, List.flatMap_cons, hreturned.faults, ← faults, faults_gap hgap]
      exact hnone

/-- A source without faults has the same tokens with carriage returns in it. -/
theorem tokenize_crlf {source : List Char} {ls : List Lexeme} (h : tokenize source = .ok ls) :
    ∃ ls', tokenize (crlf source) = .ok ls' ∧ List.Forall₂ Lexeme.SameText ls ls' := by
  obtain ⟨hfaults, rfl⟩ := faults_of_tokenize h
  have hstart : Place.start.Shifted 0 Place.start := ⟨rfl, rfl, fun _ => rfl⟩
  obtain ⟨hlexemes, hnone⟩ := lexemes_crlf hstart hfaults
  exact ⟨_, tokenize_of_faults hnone, hlexemes⟩

/-- Written with a carriage return before every newline, a source describes the same file. As for
any source, the whole must not be larger than what is read at all. -/
theorem parse_crlf {source : String} {file : File} (h : parse source = .ok file) :
    (∃ ls, tokenize (crlf source.toList) = .ok ls ∧
      File.ofLexemes ls (byteLength (crlf source.toList)) = .ok file) ∧
    parse (String.ofList (crlf source.toList)) =
      parsed (String.ofList (crlf source.toList)) (.ok file) := by
  obtain ⟨ls, hls, hfile⟩ := tokenize_of_parse h
  obtain ⟨ls', hls', hsame⟩ := tokenize_crlf hls
  have hlexemes := (faults_of_tokenize hls).2
  have hlexemes' := (faults_of_tokenize hls').2
  have hout := File.ofLexemes_sameText (fun l hl => wellRead_of_mem_lexemes (hlexemes ▸ hl))
    (fun l hl => wellRead_of_mem_lexemes (hlexemes' ▸ hl)) hsame (byteLength source.toList)
    (byteLength (crlf source.toList))
  have hfile' : File.ofLexemes ls' (byteLength (crlf source.toList)) = .ok file := by
    rw [hfile] at hout
    generalize File.ofLexemes ls' (byteLength (crlf source.toList)) = outcome at hout ⊢
    cases hout
    rfl
  refine ⟨⟨ls', hls', hfile'⟩, ?_⟩
  rw [← String.toList_ofList (l := crlf source.toList)] at hls' hfile'
  rw [(parse_of_tokenize hls').1, hfile']

/-- A trailing comment, and a block comment of two lines before a package. -/
theorem parse_crlf_comments : ∃ f,
    parse "syntax = 'a'; // x\n/* y\n * z\n */\npackage p;\n" = .ok f ∧
      f.version.comments = [⟨"x"⟩] ∧ f.package = some ⟨"p", [⟨"y\nz"⟩]⟩ ∧
      parse "syntax = 'a'; // x\r\n/* y\r\n * z\r\n */\r\npackage p;\r\n" = .ok f := by
  have hfile : parse "syntax = 'a'; // x\n/* y\n * z\n */\npackage p;\n" =
      .ok ⟨⟨"a", [⟨"x"⟩]⟩, some ⟨"p", [⟨"y\nz"⟩]⟩, [], [], [], [], []⟩ := by
    decide +kernel
  have hcrlf : String.ofList (crlf "syntax = 'a'; // x\n/* y\n * z\n */\npackage p;\n".toList) =
      "syntax = 'a'; // x\r\n/* y\r\n * z\r\n */\r\npackage p;\r\n" := by
    decide +kernel
  refine ⟨_, hfile, rfl, rfl, ?_⟩
  rw [← hcrlf, (parse_crlf hfile).2]
  exact if_neg (by decide +kernel)

end ProtoSchema
