import ProtoSchema.Proofs.Acceptance

/-
  Names, values and options are read back. Each lemma says that on the canonical symbols of a node
  its production gives this node; what stands after a name must be no dot, and what stands after a
  value must be a mark that cannot continue it.
-/

namespace ProtoSchema

/-! ## Parts of names -/

theorem nameParts_ne_nil (n : String) : nameParts n ≠ [] := by
  unfold nameParts
  rw [ne_eq, List.map_eq_nil_iff]
  exact List.splitOn_ne_nil '.' n.toList

/-- The parts of a name with dots between them are the name. -/
theorem intercalate_nameParts (n : String) : String.intercalate "." (nameParts n) = n := by
  have hparts : (nameParts n).map String.toList = n.toList.splitOn '.' := by
    rw [nameParts, List.map_map]
    simp
  rw [← String.toList_inj, String.toList_intercalate, hparts]
  exact List.intercalate_splitOn '.'

/-- A name is written as its first part, and then the others after one dot each. -/
theorem Symbol.name_eq (n : String) : ∃ w ws, nameParts n = w :: ws ∧
    name n = .word w :: ws.flatMap fun v => [.punct .dot, .word v] := by
  cases h : nameParts n with
  | nil => exact absurd h (nameParts_ne_nil n)
  | cons w ws =>
    refine ⟨w, ws, rfl, ?_⟩
    rw [name, h]
    rfl

/-- A type is written with a leading dot exactly if it is absolute. -/
theorem Symbol.typeName_cases (n : String) :
    (∃ relative, n = "." ++ relative ∧ (nameParts n).head? = some "" ∧
      (IsTypeName n → IsName relative) ∧ typeName n = .punct .dot :: name relative) ∨
    (n.toList.head? ≠ some '.' ∧ (IsTypeName n → IsName n) ∧ typeName n = name n) := by
  unfold typeName IsTypeName
  split
  · next relative h =>
    refine .inl ⟨String.ofList relative, ?_, ?_, id, rfl⟩
    · rw [← String.toList_inj, h]
      simp
    · rw [nameParts, h, List.splitOn_cons_eq_if_modifyHead]
      simp
  · next h =>
    refine .inr ⟨fun hhead => ?_, id, rfl⟩
    obtain ⟨relative, hrelative⟩ := List.head?_eq_some_iff.1 hhead
    exact h relative hrelative

namespace Production

variable {xs : List Symbol}

/-- What stands next is a mark, and no dot: a name or a string before it is complete. -/
def Closes (xs : List Symbol) : Prop := ∃ p ys, xs = .punct p :: ys ∧ p ≠ .dot

theorem closes_punct (p : Punct) (xs : List Symbol) (h : p ≠ .dot) : Closes (.punct p :: xs) :=
  ⟨p, xs, rfl, h⟩

theorem Closes.not_dot (h : Closes xs) : (Terminal.punct .dot).fitsFirst xs = false := by
  obtain ⟨p, ys, rfl, hp⟩ := h
  exact decide_eq_false hp

theorem Closes.not_string (h : Closes xs) : Terminal.string.fitsFirst xs = false := by
  obtain ⟨p, ys, rfl, -⟩ := h
  rfl

/-! ## Names and strings -/

theorem reads_dotted {words : List String} (hne : words ≠ [])
    (h : (Terminal.punct .dot).fitsFirst xs = false) :
    Reads fullIdent (Symbol.dotted words ++ xs) (· = String.intercalate "." words) xs := by
  have hwords : Reads (separated (.punct .dot) ident) (Symbol.dotted words ++ xs) (· = words) xs :=
    reads_separated (N := fun _ => True) hne (fun w _ rest _ => reads_ident w)
      (fun _ => trivial) trivial h
  exact hwords.then (.pure rfl)

theorem reads_fullIdent (n : String) (h : (Terminal.punct .dot).fitsFirst xs = false) :
    Reads fullIdent (Symbol.name n ++ xs) (· = n) xs :=
  (reads_dotted (nameParts_ne_nil n) h).mono fun _ hm => hm.trans (intercalate_nameParts n)

theorem reads_typeName (n : String) (h : (Terminal.punct .dot).fitsFirst xs = false) :
    Reads typeName (Symbol.typeName n ++ xs) (· = n) xs := by
  rcases Symbol.typeName_cases n with ⟨relative, rfl, -, -, heq⟩ | ⟨-, -, heq⟩
  · rw [heq]
    refine (reads_skip rfl).then ?_
    exact (reads_fullIdent relative h).then (.pure rfl)
  · obtain ⟨w, ws, -, hname⟩ := Symbol.name_eq n
    rw [heq]
    refine (reads_skip_none (by rw [hname]; rfl)).then ?_
    exact (reads_fullIdent n h).then (.pure rfl)

theorem reads_string (s : String) (h : Terminal.string.fitsFirst xs = false) :
    Reads string (.string s :: xs) (· = s) xs := by
  refine (reads_text s _).then ?_
  refine (Reads.loop_nil (reads_take_none h)).then (.pure ?_)
  exact String.append_empty

end Production

theorem FieldType.Canonical.ofName_name {t : FieldType} (h : t.Canonical) :
    FieldType.ofName t.name = t := by
  cases t with
  | scalar type => rw [FieldType.name, ofName, Scalar.ofName?_name]
  | any => rfl
  | named n =>
    obtain ⟨hany, hscalar⟩ := h.builtIn n rfl
    have hnone : Scalar.ofName? n = none := by
      cases hs : Scalar.ofName? n with
      | none => rfl
      | some s => exact absurd (Scalar.name_of_ofName? hs).symm (hscalar s)
    rw [FieldType.name, ofName, hnone]
    exact if_neg hany

namespace Production

variable {xs : List Symbol}

theorem reads_fieldType {t : FieldType} (ht : t.Canonical)
    (h : (Terminal.punct .dot).fitsFirst xs = false) :
    Reads fieldType (t.symbols ++ xs) (· = t) xs :=
  (reads_typeName t.name h).then (.pure ht.ofName_name)

/-! ## Options -/

theorem reads_optionNamePart (w : String) : Reads optionNamePart (.word w :: xs) (· = w) xs :=
  (reads_skip_none rfl).then (reads_word w _)

theorem reads_optionName {n : String} (hn : IsTypeName n)
    (h : (Terminal.punct .dot).fitsFirst xs = false) :
    Reads optionName (Symbol.optionName n ++ xs) (· = n) xs := by
  unfold Symbol.optionName
  split
  · rw [List.cons_append, List.append_assoc]
    have hfirst : Reads optionNamePart (.punct .leftParen ::
        (Symbol.typeName n ++ ([.punct .rightParen] ++ xs))) (· = n) xs := by
      refine (reads_skip rfl).then ((reads_typeName n rfl).then ?_)
      exact .afterPunct (.pure rfl)
    refine hfirst.then ((Reads.loop_nil ?_).then (.pure String.intercalate_singleton))
    exact (reads_skip_none h).then (.pure rfl)
  · next hrelative =>
    have hname : IsName n := by
      rcases Symbol.typeName_cases n with ⟨relative, rfl, -⟩ | ⟨-, hname, -⟩
      · simp at hrelative
      · exact hname hn
    obtain ⟨w, ws, hparts, heq⟩ := Symbol.name_eq n
    rw [heq, List.cons_append]
    refine (reads_optionNamePart w).then ?_
    have hothers : Reads (loop do
        if ← skip (.punct .dot) then return some (withoutLeadingDots (← optionNamePart))
        else return none)
        (ws.flatMap (fun v => [.punct .dot, .word v]) ++ xs) (· = ws) xs := by
      refine reads_loop (N := fun _ => True) (fun v hv rest _ => ?_)
        (fun _ _ => List.cons_ne_nil _ _) (fun _ _ _ => trivial) trivial
        ((reads_skip_none h).then (.pure rfl))
      refine (reads_skip rfl).then ((reads_optionNamePart v).then (.pure ?_))
      have hword : IsWord v := hname v (hparts ▸ List.mem_cons_of_mem w hv)
      rw [withoutLeadingDots_of_head? hword.head?_ne_dot]
    refine hothers.then (.pure ?_)
    rw [← hparts]
    exact intercalate_nameParts n

/-! ## Values -/

/-- A value starts with a brace or with no mark at all. -/
theorem fitsFirst_symbols_of_punct {v : Value} {p : Punct} (hp : p ≠ .leftBrace)
    (xs : List Symbol) : (Terminal.punct p).fitsFirst (v.symbols ++ xs) = false := by
  cases v with
  | ident n =>
    obtain ⟨w, ws, -, hname⟩ := Symbol.name_eq n
    rw [Value.symbols, hname]
    rfl
  | aggregate a =>
    obtain ⟨settings, comments⟩ := a
    exact decide_eq_false (Ne.symm hp)
  | _ => rfl

/-- A constant does not start with a brace. -/
theorem reads_optionValue_of_constant {v : Value}
    (hbrace : (Terminal.punct .leftBrace).fitsFirst (v.symbols ++ xs) = false)
    (h : Reads constant (v.symbols ++ xs) (· = v) xs) :
    Reads optionValue (v.symbols ++ xs) (· = v) xs := by
  refine (reads_sees _).then ?_
  rw [hbrace]
  exact h

/-- A number, a truth value or null is read as a literal. -/
theorem reads_constant_of_literal {v : Value} {s : Symbol}
    (hstring : Terminal.string.fits s = false) (hname : Terminal.name.fits s = false)
    (h : ∀ l : Lexeme, l.Shows s → Terminal.literal? l.token = some v) :
    Reads constant (s :: xs) (· = v) xs := by
  refine (reads_sees _).then ?_
  rw [show Terminal.string.fitsFirst (s :: xs) = false from hstring]
  refine (reads_sees _).then ?_
  rw [show Terminal.name.fitsFirst (s :: xs) = false from hname]
  exact reads_takeOr fun l hl => ⟨v, Terminal.read?_literal.2 (h l hl), rfl⟩

theorem reads_constant_string (s : String) (h : Closes xs) :
    Reads constant (.string s :: xs) (· = .string s) xs := by
  refine (reads_sees _).then ?_
  exact (reads_string s h.not_string).then (.pure rfl)

theorem reads_constant_ident {n : String} (hfirst : ∀ w ∈ (nameParts n).head?, spellsName w)
    (h : Closes xs) : Reads constant (Symbol.name n ++ xs) (· = .ident n) xs := by
  obtain ⟨w, ws, hparts, hname⟩ := Symbol.name_eq n
  have hstring : Terminal.string.fitsFirst (Symbol.name n ++ xs) = false := by
    rw [hname]
    rfl
  have hseen : Terminal.name.fitsFirst (Symbol.name n ++ xs) = true := by
    rw [hname]
    exact hfirst w (by rw [hparts]; rfl)
  refine (reads_sees _).then ?_
  rw [hstring]
  refine (reads_sees _).then ?_
  rw [hseen]
  exact (reads_fullIdent n h.not_dot).then (.pure rfl)

/-! ## Aggregates -/

theorem reads_entryKey (n : String) :
    Reads entryKey (Symbol.entryKey n ++ xs) (· = n) xs := by
  unfold Symbol.entryKey
  split
  · rw [List.cons_append, List.append_assoc]
    refine (reads_skip rfl).then ((reads_typeName n rfl).then ?_)
    exact .afterPunct (.pure rfl)
  · exact (reads_skip_none rfl).then (reads_word n _)

theorem reads_entryValues {v : Value} (h : Reads optionValue (v.symbols ++ xs) (· = v) xs) :
    Reads entryValues (.punct .colon :: (v.symbols ++ xs)) (· = [v]) xs := by
  refine (reads_sees _).then (.afterPunct ((reads_sees _).then ?_))
  rw [fitsFirst_symbols_of_punct (p := .leftBracket) nofun]
  exact h.then (.pure rfl)

/-- An entry, with a comma if another one follows. -/
theorem reads_entry {s : Setting} {separator : List Symbol}
    (hcomments : s.comments = [])
    (h : Reads optionValue (s.value.symbols ++ (separator ++ xs)) (· = s.value) (separator ++ xs))
    (hend : Reads entryEnd (separator ++ xs) (fun _ => True) xs) :
    Reads entry (Symbol.entryKey s.name ++ .punct .colon :: (s.value.symbols ++ (separator ++ xs)))
      (· = [s]) xs := by
  refine reads_comments.then ((reads_entryKey s.name).then ?_)
  refine (reads_entryValues h).then (hend.bind fun _ _ => reads_trailing.then (.pure ?_))
  obtain ⟨name, value, comments⟩ := s
  obtain rfl : comments = [] := hcomments
  rfl

theorem reads_entryEnd_comma : Reads entryEnd (.punct .comma :: xs) (fun _ => True) xs :=
  (reads_skip rfl).then (.pure trivial)

theorem reads_entryEnd_brace :
    Reads entryEnd (.punct .rightBrace :: xs) (fun _ => True) (.punct .rightBrace :: xs) :=
  (reads_skip_none rfl).then ((reads_skip_none rfl).mono fun _ _ => trivial)

/-- Before the closing brace there is no entry. -/
theorem reads_aggregateItem_end :
    Reads aggregateItem (.punct .rightBrace :: xs) (· = none) (.punct .rightBrace :: xs) := by
  refine .orElse_right (Refuses.bind ?_ _) (reads_comment.then (.pure rfl))
  refine reads_comments.refuses fun _ _ => Refuses.bind ?_ _
  refine (reads_skip_none rfl).refuses ?_
  rintro _ rfl
  exact refuses_takeOr rfl

/-- The entries of an aggregate, up to the brace that closes it. -/
theorem reads_entries {settings : List Setting}
    (hcomments : ∀ s ∈ settings, s.comments = [])
    (hvalues : ∀ s ∈ settings, ∀ ys, Closes ys →
      Reads optionValue (s.value.symbols ++ ys) (· = s.value) ys) :
    Reads (loop aggregateItem) (Setting.entries settings ++ .punct .rightBrace :: xs)
      (· = settings.map fun s => .decl [s]) (.punct .rightBrace :: xs) := by
  induction settings with
  | nil => exact .loop_nil reads_aggregateItem_end
  | cons s settings ih =>
    have hrest := ih (fun t ht => hcomments t (List.mem_cons_of_mem s ht))
      fun t ht => hvalues t (List.mem_cons_of_mem s ht)
    have hvalue := hvalues s List.mem_cons_self
    have hentry : Reads entry (Setting.entries (s :: settings) ++ .punct .rightBrace :: xs)
        (· = [s]) (Setting.entries settings ++ .punct .rightBrace :: xs) := by
      rw [Setting.entries_cons]
      simp only [List.append_assoc, List.cons_append]
      cases settings with
      | nil =>
        exact reads_entry (hcomments s List.mem_cons_self)
          (hvalue _ (closes_punct .rightBrace xs nofun)) reads_entryEnd_brace
      | cons t settings =>
        exact reads_entry (hcomments s List.mem_cons_self)
          (hvalue _ (closes_punct .comma _ nofun)) reads_entryEnd_comma
    have hitem : Reads aggregateItem (Setting.entries (s :: settings) ++ .punct .rightBrace :: xs)
        (fun v => ∃ w, v = some w ∧ w = .decl [s])
        (Setting.entries settings ++ .punct .rightBrace :: xs) := by
      refine Reads.orElse ?_ _
      exact hentry.then (.pure ⟨_, rfl, rfl⟩)
    refine (hitem.loop_cons ?_ hrest).mono ?_
    · rw [Setting.entries_cons]
      simp only [List.length_append, List.length_cons]
      omega
    · rintro _ ⟨_, _, rfl, rfl, rfl⟩
      rfl

/-- Canonical entries in braces are read as their settings. -/
theorem reads_aggregate {settings : List Setting} (hcomments : ∀ s ∈ settings, s.comments = [])
    (hvalues : ∀ s ∈ settings, ∀ ys, Closes ys →
      Reads optionValue (s.value.symbols ++ ys) (· = s.value) ys) :
    Reads aggregate (Symbol.braces (Setting.entries settings) ++ xs) (· = ⟨settings, []⟩) xs := by
  have hentries : Reads (loop aggregateItem) (Setting.entries settings ++ .punct .rightBrace :: xs)
      (· = settings.map fun s => .decl [s]) (.punct .rightBrace :: xs) :=
    reads_entries hcomments hvalues
  have hbody : Body.ofItems [] (settings.map fun s => BodyItem.decl [s]) =
      ⟨settings.map fun s => [s], []⟩ := by
    rw [← ofItems_map_decl, List.map_map]
    rfl
  have hbraces : Reads (braces aggregateItem) (Symbol.braces (Setting.entries settings) ++ xs)
      (· = ⟨settings.map fun s => [s], []⟩) xs := by
    rw [Symbol.braces, List.cons_append, List.append_assoc]
    exact .afterPunct (reads_trailing.then (hentries.then (.afterPunct (.pure hbody))))
  refine hbraces.then (.pure ?_)
  have hflatten : (settings.map fun s => [s]).flatten = settings := by
    rw [← List.flatMap_def, List.flatMap_singleton']
  exact congrArg (Aggregate.mk · []) hflatten

/-- Canonical values are read back. -/
theorem reads_optionValue {v : Value} (h : v.Canonical) (hclose : Closes xs) :
    Reads optionValue (v.symbols ++ xs) (· = v) xs := by
  induction h generalizing xs with
  | int n =>
    refine reads_optionValue_of_constant rfl (reads_constant_of_literal rfl rfl fun l hl => ?_)
    rw [show l.token = .int n from hl]
    rfl
  | float x =>
    refine reads_optionValue_of_constant rfl (reads_constant_of_literal rfl rfl fun l hl => ?_)
    rw [show l.token = .float x from hl]
    rfl
  | bool b =>
    refine reads_optionValue_of_constant rfl (reads_constant_of_literal rfl ?_ fun l hl => ?_)
    · cases b <;> decide
    · obtain ⟨-, before, htoken⟩ := hl
      rw [htoken]
      cases b <;> rfl
  | string s => exact reads_optionValue_of_constant rfl (reads_constant_string s hclose)
  | null =>
    refine reads_optionValue_of_constant rfl (reads_constant_of_literal rfl ?_ fun l hl => ?_)
    · decide
    · obtain ⟨-, before, htoken⟩ := hl
      rw [htoken]
      rfl
  | @ident n name first =>
    refine reads_optionValue_of_constant ?_ (reads_constant_ident first hclose)
    obtain ⟨w, ws, -, hname⟩ := Symbol.name_eq n
    rw [Value.symbols, hname]
    rfl
  | @aggregate settings names bare values ih =>
    refine (reads_sees _).then ((Reads.call ?_).then (.pure rfl))
    exact reads_aggregate bare fun s hs ys hys => ih s hs hys

end Production

/-! ## Where options are written -/

namespace OptionDecl

theorem canonical_aggregate {settings : List Setting} (h : ∀ s ∈ settings, s.Canonical) :
    Value.Canonical (.aggregate ⟨settings, []⟩) :=
  .aggregate (fun s hs => (h s hs).name) (fun s hs => (h s hs).comments)
    fun s hs => (h s hs).value

/-- An option is written with a value that can be written, and that gives its settings. -/
theorem Canonical.value {o : OptionDecl} (h : o.Canonical) :
    o.value.Canonical ∧ ofValue o.name o.value [] = o := by
  obtain ⟨name, settings, comments⟩ := o
  obtain ⟨-, hsettings, rfl⟩ := h
  have haggregate := canonical_aggregate hsettings
  match settings with
  | [] => exact ⟨haggregate, rfl⟩
  | _ :: _ :: _ => exact ⟨haggregate, rfl⟩
  | [s] =>
    unfold OptionDecl.value
    dsimp only
    split
    · next hs =>
      obtain ⟨rfl, hconstant⟩ := hs
      have hs := hsettings s List.mem_cons_self
      refine ⟨hs.value, ?_⟩
      obtain ⟨sname, svalue, scomments⟩ := s
      obtain rfl : scomments = [] := hs.comments
      cases svalue with
      | aggregate a => cases hconstant
      | _ => rfl
    · exact ⟨haggregate, rfl⟩

end OptionDecl

namespace Production

variable {xs : List Symbol}

theorem reads_optionDecl {o : OptionDecl} (h : o.Canonical) :
    Reads optionDecl (o.symbols ++ xs) (· = o) xs := by
  obtain ⟨hvalue, hofValue⟩ := h.value
  rw [OptionDecl.symbols]
  simp only [List.cons_append, List.append_assoc, List.nil_append]
  refine reads_comments.then (Reads.afterKeyword (k := .optionKw) ?_)
  refine (reads_optionName h.name rfl).then (.afterPunct ?_)
  refine (reads_optionValue hvalue (closes_punct .semicolon xs nofun)).then (.afterPunct ?_)
  refine reads_trailing.then (.pure ?_)
  rw [hofValue]
  simp

theorem reads_fieldOption {s : Setting} (h : s.Canonical) (hclose : Closes xs) :
    Reads fieldOption (s.symbols ++ xs) (· = s) xs := by
  rw [Setting.symbols, List.append_assoc]
  refine (reads_optionName h.name rfl).then (.afterPunct ?_)
  refine (reads_optionValue h.value hclose).then (.pure ?_)
  obtain ⟨name, value, comments⟩ := s
  obtain rfl : comments = [] := h.comments
  rfl

end Production

theorem FieldOptions.insertIn_of_new {s : Setting} {settings : List Setting}
    (h : s.name ∉ settings.map Setting.name) : insertIn s settings = settings ++ [s] := by
  induction settings with
  | nil => rfl
  | cons t settings ih =>
    rw [List.map_cons, List.mem_cons, not_or] at h
    rw [insertIn, if_neg (Ne.symm h.1), ih h.2]
    rfl

theorem FieldOptions.foldl_insert {before settings : List Setting}
    (h : ((before ++ settings).map Setting.name).Nodup) :
    settings.foldl insert ⟨before⟩ = ⟨before ++ settings⟩ := by
  induction settings generalizing before with
  | nil => rw [List.append_nil]; rfl
  | cons s settings ih =>
    have hnew : s.name ∉ before.map Setting.name := by
      rw [List.map_append, List.nodup_append] at h
      exact fun hs => h.2.2 s.name hs s.name (by simp) rfl
    rw [List.foldl_cons, insert, insertIn_of_new hnew, ih (by simpa using h)]
    simp

/-- Options with distinct names are kept as they are given. -/
theorem FieldOptions.ofList_of_distinct {settings : List Setting}
    (h : (settings.map Setting.name).Nodup) : ofList settings = ⟨settings⟩ :=
  @foldl_insert [] settings h

namespace Production

variable {xs : List Symbol}

theorem reads_fieldOptions {o : FieldOptions} (h : o.Canonical)
    (hnone : (Terminal.punct .leftBracket).fitsFirst xs = false) :
    Reads fieldOptions (o.symbols ++ xs) (· = o) xs := by
  unfold FieldOptions.symbols
  split
  · next hempty =>
    refine (reads_skip_none hnone).then (.pure ?_)
    obtain ⟨settings⟩ := o
    exact congrArg FieldOptions.mk (List.isEmpty_iff.1 hempty).symm
  · next hne =>
    rw [List.cons_append, List.append_assoc]
    refine (reads_skip rfl).then ?_
    have hsettings : Reads (separated (.punct .comma) fieldOption)
        (Symbol.separated .comma Setting.symbols o.settings ++ ([.punct .rightBracket] ++ xs))
        (· = o.settings) ([.punct .rightBracket] ++ xs) := by
      refine reads_separated (N := Closes) (fun hnil => hne ?_)
        (fun s hs rest hrest => reads_fieldOption (h.settings s hs) hrest)
        (fun rest => closes_punct .comma rest nofun) (closes_punct .rightBracket xs nofun) rfl
      exact List.isEmpty_iff.2 hnil
    exact hsettings.then (.afterPunct (.pure (FieldOptions.ofList_of_distinct h.distinct)))

end Production

end ProtoSchema
