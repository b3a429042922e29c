import ProtoSchema.Parse
import ProtoSchema.Proofs.Checked.Children

/-
  Reading a source with every step checked. What may fail in it are slices of the source, lexemes
  looked up by their places, children of a body sorted by kinds, and the first of a list of faults.
  `parse?_eq`: for every source none of these fails, and the result is that of `parse`.
-/

namespace ProtoSchema.Checked

/-! ## Reports of faults -/

/-- The number of bytes up to the last newline of a text, itself included. -/
def lineStart (text : List Char) : Nat := byteLength (Text.dropEndWhile (· != '\n') text)

/-- The line and column of the character that has `offset` bytes before it. -/
def position? (source : List Char) (offset : Nat) : Option Text.Position := do
  let before ← slice? source ⟨0, offset⟩
  let line ← dropBytes? before (lineStart before)
  return ⟨before.count '\n' + 1, line.length + 1⟩

/-- The failure with the given faults, of which there has to be one. -/
def failure? (source : List Char) (faults : List Fault) : Option Failure := do
  let primary ← faults.head?
  let position ← match primary.span? with
    | some s => (position? source s.start).map some
    | none => some none
  return ⟨primary, faults.tail, position, none⟩

/-- The fault that a report makes of a source. -/
def fault? (i : Input) (r : Report) : Option Fault :=
  let expected := r.expected.map Expectation.text
  match i.lexemes[r.furthest]? with
  | some l => do
    let found ← slice? i.source l.span
    return .unexpectedToken expected (String.ofList found) l.span
  | none => some (.unexpectedEnd expected ⟨byteLength i.source, byteLength i.source⟩)

/-! ## Files -/

/-- The file that the lexemes of a source make up. -/
def file? (i : Input) : Option (Except Fault File) := do
  match ← (Program.lift .syntaxDecl).run? i (nested? i) 0 .start with
  | .failed r => return .error (← fault? i r)
  | .done version place r =>
    match ← Program.fileChildren.run? i (nested? i) place r with
    | .failed r' => return .error (← fault? i r')
    | .done children place' r' =>
      if place' < i.lexemes.length then return .error (← fault? i r')
      else do
        let inner ← reduce? Child.fileItem? [] children
        return File.ofItems version inner.decls inner.comments

/-- The file that a source describes, or why there is none. -/
def parse? (source : String) : Option (Except Failure File) := do
  let text := source.toList
  if maxSourceSize < byteLength text then return .error (← failure? text [.sourceTooLarge])
  else match ← tokenize? text with
    | .error faults => return .error (← failure? text (faults.map .lexical))
    | .ok lexemes =>
      match ← file? ⟨text, lexemes⟩ with
      | .ok file => return .ok file
      | .error fault => return .error (← failure? text [fault])

/-! ## Lines and columns -/

theorem position_after (text : List Char) : Text.Position.after text =
    ⟨text.count '\n' + 1, (text.reverse.takeWhile (· != '\n')).length + 1⟩ := by
  suffices h : ∀ reversed : List Char, Text.Position.after reversed.reverse =
      ⟨reversed.count '\n' + 1, (reversed.takeWhile (· != '\n')).length + 1⟩ by
    have hreverse := h text.reverse
    rwa [List.reverse_reverse, List.count_reverse] at hreverse
  intro reversed
  induction reversed with
  | nil => rfl
  | cons c reversed ih =>
    rw [List.reverse_cons, Text.Position.after, List.foldl_append]
    change Text.Position.next (Text.Position.after reversed.reverse) c = _
    rw [ih, Text.Position.next]
    by_cases hc : c = '\n'
    · rw [if_pos hc, hc, List.count_cons_self]
      rfl
    · have hne : (c != '\n') = true := by simpa using hc
      rw [if_neg hc, List.count_cons_of_ne hc, List.takeWhile_cons, if_pos hne, List.length_cons]

/-- A place between two characters of a source, or at an end of it. -/
def Boundary (source : List Char) (offset : Nat) : Prop :=
  ∃ before rest, source = before ++ rest ∧ offset = byteLength before

theorem position?_eq {source : List Char} {offset : Nat} (h : Boundary source offset) :
    position? source offset = some (.ofOffset source offset) := by
  obtain ⟨before, rest, rfl, rfl⟩ := h
  have hsplit : before = Text.dropEndWhile (· != '\n') before ++
      (before.reverse.takeWhile (· != '\n')).reverse := by
    rw [Text.dropEndWhile, ← List.reverse_append, List.takeWhile_append_dropWhile,
      List.reverse_reverse]
  have hline : dropBytes? before (lineStart before) =
      some (before.reverse.takeWhile (· != '\n')).reverse :=
    dropBytes?_eq_some.2 ⟨_, hsplit, rfl⟩
  rw [position?, slice?_start, Text.ofOffset_byteLength, position_after]
  simp only [Option.bind_eq_bind, Option.bind_some, hline, List.length_reverse]
  rfl

theorem failure?_eq {source : List Char} {primary : Fault} (related : List Fault)
    (h : ∀ s, primary.span? = some s → Boundary source s.start) :
    failure? source (primary :: related) = some (.ofFaults source primary related) := by
  rw [failure?, Failure.ofFaults]
  cases hs : primary.span? with
  | none => simp [hs]
  | some s => simp [hs, position?_eq (h s hs)]

/-! ## Where faults lie -/

theorem boundary_after (before rest : List Char) : Boundary (before ++ rest) (byteLength before) :=
  ⟨before, rest, rfl, rfl⟩

theorem boundary_of_slice? {source part : List Char} {s : Span}
    (h : slice? source s = some part) : Boundary source s.start := by
  obtain ⟨before, after, hsource, hstart, -⟩ := slice?_eq_some.1 h
  exact ⟨before, part ++ after, by rw [hsource, List.append_assoc], hstart⟩

theorem offset_append {before : List Char} {offset : Nat} (h : offset = byteLength before)
    (passed : List Char) : offset + byteLength passed = byteLength (before ++ passed) := by
  rw [h, byteLength_append]

/-- The text of an escape, with its backslash, takes one byte for each character. -/
theorem byteLength_escape {text : List Char} {n : Nat} (h : Spans (Escape.read text) n) :
    byteLength ('\\' :: text.take n) = 1 + n := by
  obtain ⟨form, hform⟩ := EscapeForm.of?_of_spans h
  rw [byteLength_cons, (EscapeForm.reads_of_of? hform).size]
  rfl

/-- The faults in the body of a literal start at its opening quote or between characters of it. -/
theorem boundary_of_mem_read {quote : Char} {opening : Nat} {source : List Char}
    (hopening : Boundary source opening) {offset : Nat} {text : List Char}
    {f : LexicalFault} (h : f ∈ (StringBody.read quote opening offset text).faults)
    {before : List Char} (hsource : source = before ++ text)
    (hoffset : offset = byteLength before) : Boundary source f.span.start := by
  fun_induction StringBody.read quote opening offset text generalizing before with
  | case1 offset =>
    rw [List.mem_singleton.1 h]
    exact hopening
  | case2 => cases h
  | case3 =>
    rw [List.mem_singleton.1 h]
    exact hopening
  | case4 offset text _ _ ih =>
    rcases List.mem_cons.1 h with rfl | h
    · exact ⟨before, _, hsource, hoffset⟩
    · exact ih h (hsource.trans (List.append_cons ..)) (offset_append hoffset ['\x00'])
  | case5 offset text bytes n hread _ _ _ ih =>
    have hsize := byteLength_escape (.inl ⟨bytes, hread⟩)
    refine ih h ?_ (Nat.add_assoc .. ▸ hsize ▸ offset_append hoffset ('\\' :: text.take n))
    rw [hsource, List.append_assoc, List.cons_append, List.take_append_drop]
  | case6 offset text n hread _ _ _ ih =>
    rcases List.mem_cons.1 h with rfl | h
    · exact ⟨before, _, hsource, hoffset⟩
    · have hsize := byteLength_escape (.inr hread)
      refine ih h ?_ (Nat.add_assoc .. ▸ hsize ▸ offset_append hoffset ('\\' :: text.take n))
      rw [hsource, List.append_assoc, List.cons_append, List.take_append_drop]
  | case7 offset text hread _ _ _ ih =>
    rcases List.mem_cons.1 h with rfl | h
    · exact ⟨before, _, hsource, hoffset⟩
    · exact ih h (hsource.trans (List.append_cons ..)) (offset_append hoffset ['\\'])
  | case8 offset c text _ _ _ _ ih =>
    exact ih h (hsource.trans (List.append_cons ..)) (offset_append hoffset [c])

/-- The faults of a piece start between characters of the source. -/
theorem boundary_of_mem_first {before rest : List Char} {c : Char} {f : LexicalFault}
    (h : f ∈ (Piece.first (Place.start.after before) c rest).faults) :
    Boundary (before ++ c :: rest) f.span.start := by
  have hoffset : (Place.start.after before).offset = byteLength before := by
    rw [Place.after_offset]
    exact Nat.zero_add _
  have hhere : ∀ text, Boundary (before ++ c :: rest)
      ((Place.start.after before).span text).start := by
    intro text
    rw [Place.span, hoffset]
    exact boundary_after before _
  have hbody : ∀ g ∈ (StringBody.read c (Place.start.after before).offset
      ((Place.start.after before).offset + c.utf8Size) rest).faults,
      Boundary (before ++ c :: rest) g.span.start := by
    intro g hg
    rw [hoffset] at hg
    exact boundary_of_mem_read (boundary_after before _) hg (List.append_cons ..)
      (offset_append rfl [c])
  unfold Piece.first at h
  split at h
  · cases h
  · split at h
    · next p n hlongest =>
      cases p with
      | integer =>
        rw [ProtoSchema.Reading.ofMatch, ProtoSchema.Reading.integer] at h
        dsimp only at h
        split at h
        · cases h
        · rw [List.mem_singleton.1 h]
          exact hhere _
      | hexInteger =>
        rw [ProtoSchema.Reading.ofMatch, ProtoSchema.Reading.integer] at h
        dsimp only at h
        split at h
        · cases h
        · rw [List.mem_singleton.1 h]
          exact hhere _
      | quote =>
        rw [ProtoSchema.Reading.ofMatch, ProtoSchema.Reading.string] at h
        dsimp only at h
        split at h
        · exact hbody f h
        · rcases List.mem_append.1 h with h | h
          · exact hbody f h
          · rw [List.mem_singleton.1 h]
            exact hhere _
      | blockOpening =>
        rw [ProtoSchema.Reading.ofMatch, ProtoSchema.Reading.blockComment] at h
        dsimp only at h
        split at h
        · cases h
        · rw [List.mem_singleton.1 h]
          exact hhere _
      | _ => cases h
    · rw [List.mem_singleton.1 h]
      exact hhere _

theorem start_of_mem_joinFrom {first f : LexicalFault} {faults : List LexicalFault}
    (h : f ∈ LexicalFault.joinFrom first faults) :
    ∃ g ∈ first :: faults, f.span.start = g.span.start := by
  induction faults generalizing first with
  | nil =>
    rw [List.mem_singleton.1 h]
    exact ⟨first, List.mem_cons_self, rfl⟩
  | cons g faults ih =>
    rw [LexicalFault.joinFrom] at h
    split at h
    · obtain ⟨k, hk, hstart⟩ := ih h
      rcases List.mem_cons.1 hk with rfl | hk
      · exact ⟨first, List.mem_cons_self, hstart⟩
      · exact ⟨k, List.mem_cons_of_mem _ (List.mem_cons_of_mem _ hk), hstart⟩
    · rcases List.mem_cons.1 h with rfl | h
      · exact ⟨f, List.mem_cons_self, rfl⟩
      · obtain ⟨k, hk, hstart⟩ := ih h
        exact ⟨k, List.mem_cons_of_mem _ hk, hstart⟩

/-- The faults of the characters of a source start between characters of it. -/
theorem boundary_of_mem_lexicalFaults {source : List Char} {f : LexicalFault}
    (h : f ∈ lexicalFaults (pieces source)) : Boundary source f.span.start := by
  obtain ⟨g, hg, hstart⟩ : ∃ g ∈ (pieces source).flatMap Piece.faults,
      f.span.start = g.span.start := by
    rw [lexicalFaults] at h
    cases hfaults : (pieces source).flatMap Piece.faults with
    | nil => rw [hfaults] at h; cases h
    | cons first faults => rw [hfaults] at h; exact start_of_mem_joinFrom h
  obtain ⟨p, hp, hgp⟩ := List.mem_flatMap.1 hg
  obtain ⟨before, c, rest, hsource, rfl⟩ := exists_of_mem_piecesFrom [] hp
  rw [hstart, show source = before ++ c :: rest from hsource]
  exact boundary_of_mem_first hgp

/-! ## The result -/

theorem fault?_eq {i : Input} (hi : i.WellPlaced) (r : Report) :
    fault? i r = some (r.fault i.lexemes (byteLength i.source)) := by
  rw [fault?, Report.fault]
  cases hl : i.lexemes[r.furthest]? with
  | none => rfl
  | some l =>
    simp only [hi l (List.mem_of_getElem? hl), Option.bind_eq_bind, Option.bind_some,
      String.ofList_toList]
    rfl

/-- The fault that a report makes starts between characters of the source, or at its end. -/
theorem boundary_fault {i : Input} (hi : i.WellPlaced) {r : Report} {s : Span}
    (h : (r.fault i.lexemes (byteLength i.source)).span? = some s) :
    Boundary i.source s.start := by
  rw [Report.fault] at h
  cases hl : i.lexemes[r.furthest]? with
  | none =>
    rw [hl] at h
    cases h
    exact ⟨i.source, [], (List.append_nil _).symm, rfl⟩
  | some l =>
    rw [hl] at h
    cases h
    exact boundary_of_slice? (hi l (List.mem_of_getElem? hl))

theorem duplicate_of_ofItems {version : SyntaxDecl} {items : List FileItem}
    {comments : List Comment} {fault : Fault}
    (h : File.ofItems version items comments = .error fault) :
    ∃ first decl second, FileItem.package decl second ∈ items ∧
      fault = .duplicatePackage first second := by
  rw [File.ofItems] at h
  split at h
  · cases h
  · cases h
  · next decl first decl' second others hpackages =>
    cases h
    have hmem : (decl', second) ∈ items.filterMap FileItem.package? := by
      rw [hpackages]
      exact List.mem_cons_of_mem _ List.mem_cons_self
    obtain ⟨item, hitem, hpackage⟩ := List.mem_filterMap.1 hmem
    cases item with
    | package decl s => cases hpackage; exact ⟨first, decl', second, hitem, rfl⟩
    | _ => cases hpackage

theorem packageAmong_of_mem {ls : List Lexeme} {items : List (BodyItem FileItem)}
    {children : List Child} (h : List.Forall₂ (Stands (Statement ls)) items children)
    {item : FileItem} (hitem : item ∈ items.filterMap BodyItem.decl?) : PackageAmong ls item := by
  induction h with
  | nil => cases hitem
  | @cons bodyItem child items children hstands _ ih =>
    cases hstands with
    | decl hR =>
      rcases List.mem_cons.1 hitem with rfl | hitem
      · exact hR.2
      · exact ih hitem
    | comment c => exact ih hitem
    | stray => exact ih hitem

/-- The lexemes of a source are read as a file, or it is said what is wrong with them. -/
theorem file?_eq {i : Input} (hi : i.WellPlaced) :
    file? i = some (File.ofLexemes i.lexemes (byteLength i.source)) ∧
      ∀ fault s, File.ofLexemes i.lexemes (byteLength i.source) = .error fault →
        fault.span? = some s → Boundary i.source s.start := by
  have hcallees : Callees i (i.lexemes.length + 1) Nonterminal.matches (nested? i) :=
    ⟨Nonterminal.matches_reaches, fun n c r hc _ => nested?_agrees hi n hc r⟩
  have hstart : (Cursor.start i.lexemes).Among i.lexemes := Cursor.among_start _
  have hsyntax := Mirrors.lift hi Production.syntaxDecl _ _ hcallees (.start i.lexemes) .start
    hstart (Nat.lt_succ_self _)
  rw [file?, File.ofLexemes, Production.matchAll, Production.run, Production.file,
    Production.matchWith_bind]
  change Agrees _ _ ((Program.lift Production.syntaxDecl).run? i (nested? i) 0 .start) at hsyntax
  generalize (Program.lift Production.syntaxDecl).run? i (nested? i) 0 .start = outcome at hsyntax ⊢
  cases hm : Production.syntaxDecl.matchWith Nonterminal.matches (.start i.lexemes) .start with
  | failed r =>
    rw [hm] at hsyntax
    cases hsyntax
    simp only [Option.bind_eq_bind, Option.bind_some, fault?_eq hi]
    exact ⟨rfl, fun fault s h hs => by cases h; exact boundary_fault hi hs⟩
  | done version c r =>
    rw [hm] at hsyntax
    cases hsyntax with | done hv =>
    cases hv
    have hc : c.Among i.lexemes := Production.matchWith_reaches Nonterminal.matches_reaches _ hm
    have hlt : c.rest.length < i.lexemes.length + 1 := by
      have := index_add_length hc
      omega
    have hitems := Mirrors.fileChildren hi _ _ hcallees c r hc hlt
    simp only [Option.bind_eq_bind, Option.bind_some, Production.matchWith_bind]
    generalize Program.fileChildren.run? i (nested? i) c.index r = outcome at hitems ⊢
    cases hl : (Production.loop (Production.bodyItem Production.fileItem)).matchWith
        Nonterminal.matches c r with
    | failed r' =>
      rw [hl] at hitems
      cases hitems
      simp only [Option.bind_some, fault?_eq hi]
      exact ⟨rfl, fun fault s h hs => by cases h; exact boundary_fault hi hs⟩
    | done items d r' =>
      rw [hl] at hitems
      cases hitems with | @done _ children _ _ hstands =>
      have hd := index_add_length (hc.trans (Production.matchWith_reaches
        Nonterminal.matches_reaches _ hl) : d.Among i.lexemes)
      have hpure : (Pure.pure (version, Body.ofItems [] items) : Production _).matchWith
          Nonterminal.matches d r' = .done (version, Body.ofItems [] items) d r' := rfl
      simp only [Option.bind_some, hpure]
      by_cases hmore : d.index < i.lexemes.length
      · have hrest : d.rest.isEmpty = false := by
          rw [List.isEmpty_eq_false_iff, ← List.length_pos_iff]
          omega
        rw [if_pos hmore, fault?_eq hi, hrest]
        exact ⟨rfl, fun fault s h hs => by cases h; exact boundary_fault hi hs⟩
      · have hrest : d.rest.isEmpty = true := by
          rw [List.isEmpty_iff, ← List.length_eq_zero_iff]
          omega
        have hknown : List.Forall₂ (Stands (Known Child.fileItem?)) items children :=
          hstands.imp fun _ _ => Stands.imp fun _ _ h => h.1
        rw [if_neg hmore, hrest, reduce?_eq hknown]
        refine ⟨rfl, fun fault s h hs => ?_⟩
        obtain ⟨first, decl, second, hitem, rfl⟩ := duplicate_of_ofItems h
        obtain ⟨l, hl, hplace⟩ := packageAmong_of_mem hstands hitem decl second rfl
        cases hs
        rw [hplace]
        exact boundary_of_slice? (hi l hl)

/-- Nothing fails that may fail while a source is read: every slice lies within the source and
between characters, every lexeme that is passed is there, every child of a body is one that the body
knows, and there is a fault whenever one is reported. The result is the one of `parse`. -/
theorem parse?_eq (source : String) : parse? source = some (parse source) := by
  have hi : (Input.mk source.toList (lexemes (pieces source.toList))).WellPlaced :=
    fun l hl => slice?_of_mem_lexemes hl
  have hlexical : ∀ f ∈ lexicalFaults (pieces source.toList), Boundary source.toList f.span.start :=
    fun _ => boundary_of_mem_lexicalFaults
  rw [parse?, parse]
  split
  · have hnowhere : ∀ s, Fault.sourceTooLarge.span? = some s → Boundary source.toList s.start :=
      fun s hs => by cases hs
    rw [failure?_eq [] hnowhere]
    rfl
  · rw [tokenize?_eq, tokenize]
    cases hfaults : lexicalFaults (pieces source.toList) with
    | cons fault faults =>
      have hfirst : ∀ s, (Fault.lexical fault).span? = some s → Boundary source.toList s.start := by
        intro s hs
        cases hs
        exact hlexical fault (hfaults ▸ List.mem_cons_self)
      simp only [Option.bind_eq_bind, Option.bind_some, List.map_cons, failure?_eq _ hfirst]
      rfl
    | nil =>
      obtain ⟨hfile, hspan⟩ := file?_eq hi
      simp only [Option.bind_eq_bind, Option.bind_some, hfile]
      cases hread : File.ofLexemes (lexemes (pieces source.toList)) (byteLength source.toList) with
      | ok file => rfl
      | error fault =>
        simp only [failure?_eq [] (fun s => hspan fault s hread), Option.bind_some]
        rfl

end ProtoSchema.Checked
