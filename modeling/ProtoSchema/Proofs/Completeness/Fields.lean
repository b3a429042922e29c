import ProtoSchema.Proofs.Completeness.Options

/-
  Fields are read back. A field may start with any word as its type, and so look like each of the
  declarations that start with a keyword; the second half of this module shows that none of these
  takes it.
-/

namespace ProtoSchema.Production

variable {xs : List Symbol}

/-! ## Declarations that do not stand next -/

variable {α : Type}

/-- A declaration with its comments is refused where its keyword does not stand next. -/
theorem refuses_declaration {k : Keyword} {q : List Comment → Span → Production α}
    (h : (Terminal.keyword k).fitsFirst xs = false) :
    Refuses (do
      let leading ← comments
      let first ← keyword k
      q leading first) xs :=
  reads_comments.refuses fun _ _ => (refuses_takeOr h).bind _

/-- An alternative for a declaration is passed over where its keyword does not stand next. -/
theorem Reads.past {β : Type} {k : Keyword} {q : List Comment → Span → Production α} {f : α → β}
    {p : Production β} {P : β → Prop} {ys : List Symbol}
    (h : (Terminal.keyword k).fitsFirst xs = false) (hp : Reads p xs P ys) :
    Reads ((do return f (← (do
      let leading ← comments
      let first ← keyword k
      q leading first))) <|> p) xs P ys :=
  .orElse_right ((refuses_declaration h).map f) hp

theorem Refuses.past {β : Type} {k : Keyword} {q : List Comment → Span → Production α} {f : α → β}
    {p : Production β} (h : (Terminal.keyword k).fitsFirst xs = false) (hp : p.Refuses xs) :
    Refuses ((do return f (← (do
      let leading ← comments
      let first ← keyword k
      q leading first))) <|> p) xs :=
  ((refuses_declaration h).map f).orElse hp

theorem refuses_typeName (hdot : (Terminal.punct .dot).fitsFirst xs = false)
    (hword : Terminal.word.fitsFirst xs = false) : Refuses typeName xs := by
  refine (reads_skip_none hdot).refuses fun _ _ => Refuses.bind ?_ _
  exact (Refuses.bind (refuses_takeOr hword) _).bind _

theorem refuses_optionName (hparen : (Terminal.punct .leftParen).fitsFirst xs = false)
    (hword : Terminal.word.fitsFirst xs = false) : Refuses optionName xs := by
  refine Refuses.bind ((reads_skip_none hparen).refuses ?_) _
  rintro _ rfl
  exact refuses_takeOr hword

theorem refuses_body {decl : Production α} {leading : List Comment}
    (h : (Terminal.punct .leftBrace).fitsFirst xs = false) : Refuses (body leading decl) xs :=
  ((refuses_takeOr h).bind _).bind _

theorem refuses_separated {item : Production α} {separator : Terminal} (h : item.Refuses xs) :
    Refuses (separated separator item) xs :=
  h.bind _

/-! ## Fields -/

theorem reads_modifier (m : Option Modifier)
    (h : m = none → ∀ k ∈ [Keyword.optionalKw, .requiredKw, .repeatedKw],
      (Terminal.keyword k).fitsFirst xs = false) :
    Reads modifier (Modifier.symbols m ++ xs) (· = m) xs := by
  match m with
  | some .optional => exact (reads_skip rfl).then (.pure rfl)
  | some .required => exact (reads_skip_none rfl).then ((reads_skip rfl).then (.pure rfl))
  | some .repeated =>
    refine (reads_skip_none rfl).then ((reads_skip_none rfl).then ?_)
    exact (reads_skip rfl).then (.pure rfl)
  | none =>
    refine (reads_skip_none (h rfl _ (by simp))).then ?_
    refine (reads_skip_none (h rfl _ (by simp))).then ?_
    exact (reads_skip_none (h rfl _ (by simp))).then (.pure rfl)

theorem reads_declarator (leading : List Comment)
    (node : String → Int → FieldOptions → List Comment → α) (w : String) (n : Int)
    {o : FieldOptions} (h : o.Canonical) :
    Reads (do
      let name ← ident
      let _ ← punct .equals
      let number ← integer
      let options ← fieldOptions
      return node name number options (← endStatement leading))
      (Symbol.declarator w n o ++ xs) (· = node w n o leading) xs := by
  rw [Symbol.declarator]
  simp only [List.cons_append, List.append_assoc, List.nil_append]
  refine (reads_ident w).then (.afterPunct ((reads_integer n).then ?_))
  refine (reads_fieldOptions h rfl).then ?_
  exact (reads_endStatement leading).then (.pure rfl)

/-- A type does not start with a keyword if its first part is not spelled so. -/
theorem fitsFirst_typeName {n : String} {k : Keyword} (h : (nameParts n).head? ≠ some k.text) :
    (Terminal.keyword k).fitsFirst (Symbol.typeName n ++ xs) = false := by
  rcases Symbol.typeName_cases n with ⟨relative, rfl, -, -, heq⟩ | ⟨-, -, heq⟩
  · rw [heq]
    rfl
  · obtain ⟨w, ws, hparts, hname⟩ := Symbol.name_eq n
    rw [heq, hname]
    refine decide_eq_false fun hw => h ?_
    rw [hparts, hw]
    rfl

theorem reads_field {f : Field} (h : f.Canonical) : Reads field (f.symbols ++ xs) (· = f) xs := by
  obtain ⟨modifier, type, name, number, options, comments⟩ := f
  obtain ⟨-, htype, hoptions, rfl, hmodifier⟩ := h
  rw [Field.symbols, List.append_assoc, List.append_assoc]
  refine reads_comments.then ((reads_modifier modifier fun hnone k hk => ?_).then ?_)
  · refine fitsFirst_typeName (hmodifier hnone k.text ?_)
    simp only [List.mem_cons, List.not_mem_nil, or_false] at hk
    rcases hk with rfl | rfl | rfl <;> decide
  · refine (reads_fieldType htype rfl).then ?_
    exact reads_declarator [] (Field.mk modifier type) name number hoptions

theorem refuses_field : Refuses field (.punct .rightBrace :: xs) := by
  refine reads_comments.refuses fun _ _ => ?_
  refine (reads_modifier none fun _ _ _ => rfl).refuses fun _ _ => ?_
  exact Refuses.bind (Refuses.bind (refuses_typeName rfl rfl) _) _

theorem reads_mapField {f : MapField} (h : f.Canonical) :
    Reads mapField (f.symbols ++ xs) (· = f) xs := by
  obtain ⟨keyType, valueType, name, number, options, comments⟩ := f
  obtain ⟨-, hkey, hvalue, hoptions, rfl⟩ := h
  rw [MapField.symbols]
  simp only [List.cons_append, List.append_assoc]
  refine reads_comments.then (Reads.afterKeyword (k := .mapKw) (.afterPunct ?_))
  refine (reads_fieldType hkey rfl).then (.afterPunct ?_)
  refine (reads_fieldType hvalue rfl).then (.afterPunct ?_)
  exact reads_declarator [] (MapField.mk keyType valueType) name number hoptions

theorem reads_oneofField {f : OneofField} (h : f.Canonical) :
    Reads oneofField (f.symbols ++ xs) (· = f) xs := by
  obtain ⟨type, name, number, options, comments⟩ := f
  obtain ⟨-, htype, hoptions, rfl, -⟩ := h
  rw [OneofField.symbols, List.append_assoc]
  refine reads_comments.then ((reads_fieldType htype rfl).then ?_)
  exact reads_declarator [] (OneofField.mk type) name number hoptions

theorem refuses_oneofField : Refuses oneofField (.punct .rightBrace :: xs) :=
  reads_comments.refuses fun _ _ => Refuses.bind (Refuses.bind (refuses_typeName rfl rfl) _) _

/-! ## Declarations that a field looks like -/

/-- A field without a modifier is not taken for a declaration that starts with a keyword, though its
type may do so too, if what stands after the keyword does not fit: a dot and the rest of the type,
or the name of the field. -/
theorem refuses_fieldLike {k : Keyword} {q : List Comment → Span → Production α} {n : String}
    (hqualified : ∀ leading first v vs,
      Refuses (q leading first) (.punct .dot :: (Symbol.dotted (v :: vs) ++ xs)))
    (hsingle : n = k.text → ∀ leading first, Refuses (q leading first) xs) :
    Refuses (do
      let leading ← comments
      let first ← keyword k
      q leading first) (Symbol.typeName n ++ xs) := by
  by_cases hhead : (nameParts n).head? = some k.text
  · obtain ⟨ws, hparts⟩ := List.head?_eq_some_iff.1 hhead
    have hn : n = String.intercalate "." (k.text :: ws) := by
      rw [← hparts, intercalate_nameParts]
    have hname : Symbol.typeName n = Symbol.dotted (k.text :: ws) := by
      rcases Symbol.typeName_cases n with ⟨-, -, hempty, -, -⟩ | ⟨-, -, heq⟩
      · rw [hempty] at hhead
        exact absurd (Option.some.inj hhead) k.text_ne_empty.symm
      · rw [heq, Symbol.name, hparts]
    rw [hname]
    refine reads_comments.refuses fun leading _ => ?_
    refine (reads_keyword k).refuses fun first _ => ?_
    cases ws with
    | nil => exact hsingle (hn.trans String.intercalate_singleton) leading first
    | cons v vs => exact hqualified leading first v vs
  · exact refuses_declaration (fitsFirst_typeName hhead)

variable {n w : String} {number : Int} {o : FieldOptions}

theorem refuses_optionDecl_of_field (h : ¬ (n = "option" ∧ o.isEmpty)) :
    Refuses optionDecl (Symbol.typeName n ++ (Symbol.declarator w number o ++ xs)) := by
  refine refuses_fieldLike (fun _ _ _ _ => (refuses_optionName rfl rfl).bind _) ?_
  intro hn _ _
  -- The name and the number of the field make a setting, but a bracket follows them.
  obtain ⟨ys, hys⟩ : ∃ ys, o.symbols = .punct .leftBracket :: ys := by
    unfold FieldOptions.symbols
    rw [if_neg fun hempty => h ⟨hn, hempty⟩]
    exact ⟨_, rfl⟩
  rw [Symbol.declarator, hys]
  simp only [List.cons_append, List.append_assoc]
  have hname {zs : List Symbol} : Reads optionName (.word w :: .punct .equals :: zs)
      (fun _ => True) (.punct .equals :: zs) := by
    refine (reads_optionNamePart w).then ((Reads.loop_nil ?_).then (.pure trivial))
    exact (reads_skip_none rfl).then (.pure rfl)
  refine hname.refuses fun _ _ => (reads_punct .equals).refuses fun _ _ => ?_
  refine (reads_optionValue (.int number) (closes_punct .leftBracket _ nofun)).refuses ?_
  exact fun _ _ => (refuses_takeOr rfl).bind _

/-- A declaration that has a name and then a body. -/
theorem refuses_named_of_field {k : Keyword} {β : Type} {decl : Production β}
    {q : List Comment → String → Body β → Production α} :
    Refuses (do
      let leading ← comments
      let _ ← keyword k
      let name ← ident
      let inner ← body leading decl
      q leading name inner) (Symbol.typeName n ++ (Symbol.declarator w number o ++ xs)) := by
  refine refuses_fieldLike (fun _ _ _ _ => Refuses.bind (refuses_takeOr rfl) _) fun _ _ _ => ?_
  exact (reads_ident w).refuses fun _ _ => (refuses_body rfl).bind _

theorem refuses_mapField_of_field :
    Refuses mapField (Symbol.typeName n ++ (Symbol.declarator w number o ++ xs)) :=
  refuses_fieldLike (fun _ _ _ _ => Refuses.bind (refuses_takeOr rfl) _)
    fun _ _ _ => Refuses.bind (refuses_takeOr rfl) _

theorem refuses_reservedItems (hint : Terminal.integer.fitsFirst xs = false)
    (hstring : Terminal.string.fitsFirst xs = false) : Refuses reservedItems xs := by
  refine .orElse (Refuses.bind (refuses_separated (Refuses.bind (refuses_takeOr hint) _)) _) ?_
  exact Refuses.bind (refuses_separated (Refuses.bind (refuses_takeOr hstring) _)) _

theorem refuses_reserved_of_field :
    Refuses reserved (Symbol.typeName n ++ (Symbol.declarator w number o ++ xs)) :=
  refuses_fieldLike (fun _ _ _ _ => (refuses_reservedItems rfl rfl).bind _)
    fun _ _ _ => (refuses_reservedItems rfl rfl).bind _

theorem refuses_extensionRanges_of_field :
    Refuses extensionRanges (Symbol.typeName n ++ (Symbol.declarator w number o ++ xs)) := by
  have hranges {ys : List Symbol} (h : Terminal.integer.fitsFirst ys = false) :
      Refuses numberRanges ys :=
    refuses_separated (Refuses.bind (refuses_takeOr h) _)
  exact refuses_fieldLike (fun _ _ _ _ => (hranges rfl).bind _) fun _ _ _ => (hranges rfl).bind _

theorem refuses_extend_of_field :
    Refuses extend (Symbol.typeName n ++ (Symbol.declarator w number o ++ xs)) := by
  refine refuses_fieldLike (fun _ _ v vs => ?_) fun _ _ _ => ?_
  · -- What is left of the type is an absolute name, but the name of the field is no body.
    have htype : Reads typeName (.punct .dot :: (Symbol.dotted (v :: vs) ++
        (Symbol.declarator w number o ++ xs))) (fun _ => True)
        (Symbol.declarator w number o ++ xs) :=
      (reads_skip rfl).then ((reads_dotted (List.cons_ne_nil v vs) rfl).then (.pure trivial))
    exact htype.refuses fun _ _ => (refuses_body rfl).bind _
  · -- The name of the field is a type, but an equals sign is no body.
    have htype : Reads typeName (Symbol.dotted [w] ++ (.punct .equals :: .int number ::
        (o.symbols ++ [.punct .semicolon]) ++ xs)) (fun _ => True) _ :=
      (reads_skip_none rfl).then ((reads_dotted (List.cons_ne_nil w []) rfl).then (.pure trivial))
    exact htype.refuses fun _ _ => (refuses_body rfl).bind _


end ProtoSchema.Production
