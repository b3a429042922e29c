import ProtoSchema.Proofs.Comments.Layout

/-
  What every layout has in common. A property of marked lexemes and of those that follow is itself
  a passage, and a layout that is contained in it has the property. Here is what a property must be
  closed under so that it contains all layouts (`Closed.file`): where a layout puts parts together,
  the property of the whole follows from those of the parts, except for three places that are taken
  as a whole. These are the end of a declaration with the comment behind it, an entry with its
  values, and a bracket with the options in it.
-/

namespace ProtoSchema

/-- Whether a token ends a declaration. -/
def Role.endsDeclaration : Role → Bool
  | .statementEnd | .bodyEnd => true
  | _ => false

/-- Whether a role has nothing to do with what stands behind its lexeme. -/
def Role.standsAlone : Role → Bool
  | .entry _ | .options _ | .statementEnd | .bodyEnd => false
  | _ => true

theorem Role.endsDeclaration_of_standsAlone {role : Role} (h : role.standsAlone = true) :
    role.endsDeclaration = false := by
  cases role <;> first | rfl | cases h

namespace Passage

/-! ## Roles -/

/-- Lexemes whose roles have a property. -/
def marked (p : Role → Prop) : Passage := fun ms _ => ∀ m ∈ ms, p m.role

section

variable (p : Role → Prop) {role : Role}

theorem one_le_marked : 1 ≤ marked p := by
  rintro _ _ rfl m hm
  cases hm

theorem words_le_marked (hinner : p .inner) (hrole : p role) (P : Phrase) :
    words role P ≤ marked p := by
  rintro _ _ ⟨ls, rfl, -, -⟩ m hm
  rcases role_of_mem_markFirst hm with h | h
  · exact h ▸ hinner
  · exact h ▸ hrole

theorem run_le_marked (hrole : p role) (cs : List Comment) : run role cs ≤ marked p := by
  rintro _ _ ⟨ls, rfl, -, -⟩ m hm
  exact role_of_mem_markAll hm ▸ hrole

theorem sameLine_le_marked (hsameLine : p .sameLine) (found : Option Comment) :
    sameLine found ≤ marked p := by
  intro ms rest h m hm
  cases found with
  | none =>
    obtain ⟨rfl, -⟩ := h
    cases hm
  | some c =>
    obtain ⟨l, rfl, -⟩ := h
    obtain rfl := List.mem_singleton.1 hm
    exact hsameLine

end

/-! ## Properties of all layouts -/

/-- A property that a layout has if its parts have it. -/
structure Closed (R : Passage) : Prop where
  alone : marked (·.standsAlone = true) ≤ R
  mul : R * R ≤ R
  ending {role : Role} (hrole : role.endsDeclaration = true) (p : Punct) (last : Option Comment) :
    words role (Phrase.mark p) * sameLine last ≤ R
  entry (key : String) (cs : List Comment) (values : List Value) {value : Value → Passage}
    (hvalues : Aggregate.valuesLayout value values ≤ R) :
    words (.entry (Production.entrySettings key cs values)) (Phrase.entryKey key) *
      Aggregate.valuesLayout value values ≤ R
  options (first : Setting) (others : List Setting)
    (hsettings : separated .comma Setting.layout first others ≤ R) :
    words (.options (first :: others)) (Phrase.mark .leftBracket) *
      separated .comma Setting.layout first others ≤ R

namespace Closed

variable {R : Passage} (h : R.Closed)

include h

theorem one : 1 ≤ R := (one_le_marked _).trans h.alone

theorem lexemes {role : Role} (hrole : role.standsAlone = true) (P : Phrase) : words role P ≤ R :=
  (words_le_marked (·.standsAlone = true) rfl hrole P).trans h.alone

theorem comments {role : Role} (hrole : role.standsAlone = true) (cs : List Comment) :
    run role cs ≤ R :=
  (run_le_marked (·.standsAlone = true) hrole cs).trans h.alone

theorem lineEnd (found : Option Comment) : sameLine found ≤ R :=
  (sameLine_le_marked (·.standsAlone = true) rfl found).trans h.alone

/-! ### Parts put together -/

theorem mul_le {A B : Passage} (hA : A ≤ R) (hB : B ≤ R) : A * B ≤ R :=
  (mul_le_mul' hA hB).trans h.mul

theorem prod_le {As : List Passage} (hAs : ∀ A ∈ As, A ≤ R) : As.prod ≤ R := by
  induction As with
  | nil => exact h.one
  | cons A As ih =>
    obtain ⟨hA, hAs⟩ := List.forall_mem_cons.1 hAs
    rw [List.prod_cons]
    exact h.mul_le hA (ih hAs)

variable {α : Type} {item : α → Passage}

theorem separated_le (hitem : ∀ v, item v ≤ R) (separator : Punct) (first : α) (others : List α) :
    separated separator item first others ≤ R := by
  refine h.mul_le (hitem first) (h.prod_le fun A hA => ?_)
  obtain ⟨v, -, rfl⟩ := List.mem_map.1 hA
  exact h.mul_le (h.lexemes rfl _) (hitem v)

theorem items_le (hitem : ∀ v, item v ≤ R) (empty : Phrase) (values : List α)
    (loose : List Comment) : items empty item values loose ≤ R := by
  intro ms rest hitems
  induction hitems with
  | done last => exact h.comments rfl _ _ _ last
  | stray first _ ih =>
    exact h.mul _ _ (mul_append (h.mul_le (h.comments rfl _) (h.lexemes rfl _) _ _ first) ih)
  | item first _ ih => exact h.mul _ _ (mul_append (hitem _ _ _ first) ih)

/-- What stands in braces, with the brace before it. -/
theorem opened_le (hitem : ∀ v, item v ≤ R) (empty : Phrase) (values : List α)
    (opening : Option Comment) (loose : List Comment) :
    words .inner (Phrase.mark .leftBrace) * sameLine opening * items empty item values loose ≤ R :=
  h.mul_le (h.mul_le (h.lexemes rfl _) (h.lineEnd _)) (h.items_le hitem _ _ _)

theorem braces_le (hitem : ∀ v, item v ≤ R) {closing : Role} (hclosing : closing.standsAlone = true)
    (empty : Phrase) (values : List α) (own : List Comment) :
    braces closing (items empty item values) own ≤ R := by
  rintro ms rest ⟨opening, loose, -, hms⟩
  exact h.mul_le (h.opened_le hitem _ _ _ _) (h.lexemes hclosing _) ms rest hms

theorem declaration_le {core : Passage} (hcore : core ≤ R) (cs own : List Comment) :
    declaration cs own core ≤ R := by
  rintro ms rest ⟨leading, last, -, hms⟩
  exact h.mul_le (h.mul_le (h.comments rfl _) hcore) (h.lineEnd _) ms rest hms

theorem statement_le {core : Passage} (hcore : core ≤ R) (cs own : List Comment) :
    statement cs own core ≤ R := by
  rintro ms rest ⟨leading, last, -, hms⟩
  rw [← mul_assoc, mul_assoc _ _ (sameLine last)] at hms
  exact h.mul_le (h.mul_le (h.comments rfl _) hcore) (h.ending rfl _ _) ms rest hms

theorem block_le (hitem : ∀ v, item v ≤ R) (cs : List Comment) (head : Phrase) (values : List α) :
    block cs head item values ≤ R := by
  rintro ms rest ⟨own, leading, last, -, hms⟩
  rw [mul_assoc, mul_assoc] at hms
  refine h.mul_le (h.comments rfl _) (h.mul_le (h.lexemes rfl _) ?_) ms rest hms
  rintro _ rest ⟨xs, ys, rfl, ⟨opening, loose, -, hxs⟩, hys⟩
  have hall := mul_append hxs hys
  rw [mul_assoc] at hall
  exact h.mul_le (h.opened_le hitem _ _ _ _) (h.ending rfl _ _) _ _ hall

/-! ### Values and options -/

theorem values {value : Value → Passage} (hvalue : ∀ v, value v ≤ R) (vs : List Value) :
    Aggregate.valuesLayout value vs ≤ R := by
  intro ms rest hvalues
  cases hvalues with
  | bare hms => exact hvalue _ ms rest hms
  | one hms => exact h.mul_le (h.lexemes rfl _) (hvalue _) ms rest hms
  | empty hms => exact h.mul_le (h.lexemes rfl _) (h.lexemes rfl _) ms rest hms
  | many hms =>
    refine h.mul_le (h.mul_le ?_ (h.separated_le hvalue _ _ _)) ?_ ms rest hms
    · exact h.lexemes rfl _
    · exact h.lexemes rfl _

theorem aggregateEntry {value : Value → Passage} (hvalue : ∀ v, value v ≤ R)
    (settings : List Setting) : Aggregate.entryLayout value settings ≤ R := by
  rintro ms rest ⟨key, vs, cs, rfl, hms⟩
  have hentry := h.entry key cs vs (h.values hvalue vs)
  exact h.declaration_le (h.mul_le hentry (h.lexemes rfl _)) _ _ ms rest hms

theorem aggregate (a : Aggregate) : a.layout ≤ R := by
  rintro ms rest ⟨depth, hms⟩
  induction depth generalizing a ms rest with
  | zero => cases hms
  | succ depth ih =>
    have hvalue (v : Value) : Value.layoutIn (Aggregate.layoutWithin depth) v ≤ R := by
      cases v with
      | aggregate a => exact fun ms rest hms => ih a ms rest hms
      | _ => exact h.lexemes rfl _
    obtain ⟨entries, -, hms⟩ := hms
    exact h.braces_le (h.aggregateEntry hvalue) rfl _ _ _ ms rest hms

theorem value (v : Value) : v.layout ≤ R := by
  cases v with
  | aggregate a => exact h.aggregate a
  | _ => exact h.lexemes rfl _

theorem setting (s : Setting) : s.layout ≤ R := by
  rintro ms rest ⟨-, hms⟩
  exact h.mul_le (h.lexemes rfl _) (h.value _) ms rest hms

theorem fieldOptions (o : FieldOptions) : o.layout ≤ R := by
  rintro ms rest (⟨-, rfl⟩ | ⟨first, others, -, hms⟩)
  · exact h.one [] rest rfl
  · have hopened := h.options first others (h.separated_le h.setting _ _ _)
    exact h.mul_le hopened (h.lexemes rfl _) ms rest hms

theorem optionDecl (o : OptionDecl) : o.layout ≤ R := by
  rintro ms rest ⟨v, -, hms⟩
  exact h.statement_le (h.mul_le (h.lexemes rfl _) (h.value v)) _ _ ms rest hms

/-! ### Declarations -/

/-- A statement without parts. -/
theorem plainStatement_le (cs : List Comment) (P : Phrase) :
    statement cs [] (words .start P) ≤ R :=
  h.statement_le (h.lexemes rfl P) cs []

theorem field (cs : List Comment) (head : Phrase) (name : String) (number : Int)
    (options : FieldOptions) : Passage.field cs head name number options ≤ R :=
  h.statement_le (h.mul_le (h.lexemes rfl _) (h.fieldOptions options)) _ _

theorem oneofItem (i : OneofItem) : i.layout ≤ R := by
  cases i with
  | option decl => exact h.optionDecl decl
  | field decl => exact h.field _ _ _ _ _

theorem oneof (o : Oneof) : o.layout ≤ R := by
  rintro ms rest ⟨items, -, -, hms⟩
  exact h.block_le h.oneofItem _ _ _ ms rest hms

theorem enumItem (i : EnumItem) : i.layout ≤ R := by
  cases i with
  | option decl => exact h.optionDecl decl
  | value decl => exact h.field _ _ _ _ _
  | reserved decl => exact h.plainStatement_le _ _

theorem enum (e : Enum) : e.layout ≤ R := h.block_le h.enumItem _ _ _

theorem extend (e : Extend) : e.layout ≤ R := h.block_le (fun _ => h.field _ _ _ _ _) _ _ _

theorem member (m : Member) : m.layout ≤ R := by
  cases m with
  | field decl => exact h.field _ _ _ _ _
  | map decl => exact h.field _ _ _ _ _
  | oneof decl => exact h.oneof decl
  | reserved decl => exact h.plainStatement_le _ _
  | extensions decl => exact h.plainStatement_le _ _

theorem message (m : Message) : m.layout ≤ R := by
  rintro ms rest ⟨depth, hms⟩
  induction depth generalizing m ms rest with
  | zero => cases hms
  | succ depth ih =>
    obtain ⟨items, -, hms⟩ := hms
    refine h.block_le (fun i => ?_) _ _ _ ms rest hms
    cases i with
    | option decl => exact h.optionDecl decl
    | enum decl => exact h.enum decl
    | message decl => exact fun ms rest hms => ih decl ms rest hms
    | member decl => exact h.member decl
    | extend decl => exact h.extend decl

theorem rpc (r : Rpc) : r.layout ≤ R := by
  rintro ms rest (⟨-, hms⟩ | hms)
  · exact h.plainStatement_le _ _ ms rest hms
  · exact h.block_le h.optionDecl _ _ _ ms rest hms

theorem serviceItem (i : ServiceItem) : i.layout ≤ R := by
  cases i with
  | option decl => exact h.optionDecl decl
  | rpc decl => exact h.rpc decl

theorem service (s : Service) : s.layout ≤ R := by
  rintro ms rest ⟨items, -, -, hms⟩
  exact h.block_le h.serviceItem _ _ _ ms rest hms

/-! ### Files -/

theorem definition (d : Definition) : d.layout ≤ R := by
  cases d with
  | message decl => exact h.message decl
  | enum decl => exact h.enum decl
  | service decl => exact h.service decl

theorem fileItem (i : FileItem) : i.layout ≤ R := by
  cases i with
  | imported decl => exact h.plainStatement_le _ _
  | package decl span => exact h.plainStatement_le _ _
  | option decl => exact h.optionDecl decl
  | definition decl => exact h.definition decl
  | extend decl => exact h.extend decl

theorem file (f : File) : f.layout ≤ R := by
  rintro ms rest ⟨statements, -, hms⟩
  exact h.mul_le (h.plainStatement_le _ _) (h.items_le h.fileItem _ _ _) ms rest hms

end Closed

end Passage

end ProtoSchema
