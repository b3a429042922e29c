import Mathlib
import ProtoSchema.Proofs.Classification
import ProtoSchema.Proofs.Derivation

/-
  Options that are kept by name. Settings are collected one after the other, and a setting takes the
  place of the one that has its name. So the names are distinct and stand in the order in which they
  came first, while each of them has the setting that came last (`ofList_lastWrites`). The options
  in brackets are collected in this way wherever they stand in a file.
-/

namespace ProtoSchema

/-! ## One more setting -/

namespace FieldOptions

variable {o : FieldOptions} {s : Setting} {settings : List Setting} {name : String}

/-- The names of the settings, in their order. -/
def names (o : FieldOptions) : List String := o.settings.map Setting.name

/-- The last one of the settings that have the given name. -/
def last? (settings : List Setting) (name : String) : Option Setting :=
  (settings.filter (·.name == name)).getLast?

theorem names_insertIn (s : Setting) (settings : List Setting) :
    (insertIn s settings).map Setting.name =
      if s.name ∈ settings.map Setting.name then settings.map Setting.name
      else settings.map Setting.name ++ [s.name] := by
  induction settings with
  | nil => rfl
  | cons t settings ih =>
    rw [insertIn, List.map_cons]
    by_cases ht : t.name = s.name
    · rw [if_pos ht, if_pos (ht ▸ List.mem_cons_self), List.map_cons, ht]
    · rw [if_neg ht, List.map_cons, ih]
      by_cases hs : s.name ∈ settings.map Setting.name
      · rw [if_pos hs, if_pos (List.mem_cons_of_mem _ hs)]
      · rw [if_neg hs, if_neg (List.not_mem_cons_of_ne_of_not_mem (Ne.symm ht) hs),
          List.cons_append]

/-- A new name comes last; a name that is there already stays where it is. -/
theorem names_insert (o : FieldOptions) (s : Setting) :
    (o.insert s).names = if s.name ∈ o.names then o.names else o.names ++ [s.name] :=
  names_insertIn s o.settings

theorem nodup_names_insert (h : o.names.Nodup) (s : Setting) : (o.insert s).names.Nodup := by
  rw [names_insert]
  split
  · exact h
  · next hs => exact List.nodup_append.2 ⟨h, List.nodup_singleton _, by grind⟩

theorem find?_insertIn (s : Setting) (settings : List Setting) (name : String) :
    (insertIn s settings).find? (·.name == name) =
      if s.name = name then some s else settings.find? (·.name == name) := by
  induction settings with
  | nil =>
    by_cases hs : s.name = name
    · rw [if_pos hs, insertIn, List.find?_cons_of_pos (by simpa using hs)]
    · rw [if_neg hs, insertIn, List.find?_cons_of_neg (by simpa using hs)]
  | cons t settings ih =>
    rw [insertIn]
    by_cases ht : t.name = s.name
    · -- Nothing of another name is lost with the setting that is replaced.
      rw [if_pos ht]
      by_cases hs : s.name = name
      · rw [if_pos hs, List.find?_cons_of_pos (by simpa using hs)]
      · rw [if_neg hs, List.find?_cons_of_neg (by simpa using hs),
          List.find?_cons_of_neg (by simpa [ht] using hs)]
    · rw [if_neg ht]
      by_cases hname : t.name = name
      · rw [if_neg (by rw [← hname]; exact Ne.symm ht),
          List.find?_cons_of_pos (by simpa using hname),
          List.find?_cons_of_pos (by simpa using hname)]
      · rw [List.find?_cons_of_neg (by simpa using hname), ih,
          List.find?_cons_of_neg (by simpa using hname)]

/-- The setting that comes in is the one of its name, and those of the other names stay. -/
theorem get?_insert (o : FieldOptions) (s : Setting) (name : String) :
    (o.insert s).get? name = if s.name = name then some s else o.get? name :=
  find?_insertIn s o.settings name

/-- Where names are distinct, every setting is the one of its name. -/
theorem get?_of_mem (h : o.names.Nodup) (hs : s ∈ o.settings) : o.get? s.name = some s := by
  obtain ⟨settings⟩ := o
  unfold get? names at *
  dsimp only at *
  induction settings with
  | nil => cases hs
  | cons t settings ih =>
    obtain ⟨ht, hothers⟩ := List.nodup_cons.1 h
    rw [List.find?_cons]
    rcases List.mem_cons.1 hs with rfl | hs
    · simp
    · have hne : t.name ≠ s.name := fun heq => ht (heq ▸ List.mem_map_of_mem hs)
      rw [beq_eq_false_iff_ne.2 hne]
      exact ih hothers hs

/-! ## Collecting settings -/

theorem ofList_append (xs ys : List Setting) : ofList (xs ++ ys) = ys.foldl insert (ofList xs) :=
  List.foldl_append ..

theorem ofList_concat (xs : List Setting) (s : Setting) :
    ofList (xs ++ [s]) = (ofList xs).insert s := ofList_append xs [s]

theorem last?_concat (xs : List Setting) (s : Setting) (name : String) :
    last? (xs ++ [s]) name = if s.name = name then some s else last? xs name := by
  unfold last?
  rw [List.filter_append, List.getLast?_append]
  by_cases hs : s.name = name <;> simp [hs]

theorem last?_eq_none : last? settings name = none ↔ ∀ s ∈ settings, s.name ≠ name := by
  simp [last?]

theorem nodup_names_ofList (xs : List Setting) : (ofList xs).names.Nodup := by
  induction xs using List.reverseRecOn with
  | nil => exact .nil
  | append_singleton xs s ih =>
    rw [ofList_concat]
    exact nodup_names_insert ih s

/-- The names are in the order in which they came first. -/
theorem names_ofList (xs : List Setting) :
    (ofList xs).names = (xs.map Setting.name).eraseDups := by
  induction xs using List.reverseRecOn with
  | nil => rfl
  | append_singleton xs s ih =>
    rw [ofList_concat, names_insert, ih, List.map_append, List.eraseDups_append]
    by_cases hs : s.name ∈ xs.map Setting.name
    · have hnone : [s.name].removeAll (xs.map Setting.name) = [] := by
        rw [List.removeAll, List.filter_cons_of_neg (by simpa using hs), List.filter_nil]
      rw [if_pos (List.mem_eraseDups.2 hs), List.map_singleton, hnone]
      exact (List.append_nil _).symm
    · have hone : [s.name].removeAll (xs.map Setting.name) = [s.name] := by
        rw [List.removeAll, List.filter_cons_of_pos (by simpa using hs), List.filter_nil]
      rw [if_neg (mt List.mem_eraseDups.1 hs), List.map_singleton, hone]
      rfl

/-- The setting of a name is the last one that came. -/
theorem get?_ofList (xs : List Setting) (name : String) :
    (ofList xs).get? name = last? xs name := by
  induction xs using List.reverseRecOn with
  | nil => rfl
  | append_singleton xs s ih => rw [ofList_concat, get?_insert, last?_concat, ih]

theorem size_ofList (xs : List Setting) :
    (ofList xs).size = (xs.map Setting.name).toFinset.card := by
  have hsame : (ofList xs).names.toFinset = (xs.map Setting.name).toFinset := by
    ext name
    rw [List.mem_toFinset, List.mem_toFinset, names_ofList, List.mem_eraseDups]
  rw [← hsame, List.toFinset_card_of_nodup (nodup_names_ofList xs), names, List.length_map]
  rfl

end FieldOptions

/-! ## The options of a file -/

/-- The options of a declaration in an enum that may have some in brackets. -/
def EnumItem.fieldOptions : EnumItem → List FieldOptions
  | .value decl => [decl.options]
  | .option _ | .reserved _ => []

/-- The options in brackets in an enum. -/
def Enum.fieldOptions (e : Enum) : List FieldOptions := e.items.flatMap EnumItem.fieldOptions

/-- The options in brackets in an extension. -/
def Extend.fieldOptions (e : Extend) : List FieldOptions := e.fields.map Field.options

/-- The options in brackets in a member of a message. -/
def Member.fieldOptions : Member → List FieldOptions
  | .field decl => [decl.options]
  | .map decl => [decl.options]
  | .oneof decl => decl.fields.map OneofField.options
  | .reserved _ | .extensions _ => []

mutual

/-- The options in brackets in a message and in the messages in it. -/
def Message.fieldOptions : Message → List FieldOptions
  | ⟨_, members, enums, messages, _, extensions, _⟩ =>
    members.flatMap Member.fieldOptions ++ enums.flatMap Enum.fieldOptions ++
      Message.fieldOptionsOf messages ++ extensions.flatMap Extend.fieldOptions

/-- The options in brackets in several messages. -/
def Message.fieldOptionsOf : List Message → List FieldOptions
  | [] => []
  | m :: messages => Message.fieldOptions m ++ Message.fieldOptionsOf messages

end

/-- The options in brackets in a definition. -/
def Definition.fieldOptions : Definition → List FieldOptions
  | .message decl => decl.fieldOptions
  | .enum decl => decl.fieldOptions
  | .service _ => []

/-- All options in brackets in a file. -/
def File.fieldOptions (f : File) : List FieldOptions :=
  f.definitions.flatMap Definition.fieldOptions ++ f.extensions.flatMap Extend.fieldOptions

theorem Message.fieldOptionsOf_eq (messages : List Message) :
    fieldOptionsOf messages = messages.flatMap fieldOptions := by
  induction messages with
  | nil => rfl
  | cons m messages ih => rw [fieldOptionsOf, ih, List.flatMap_cons]

/-! ## What is written is collected -/

/-- Every statement of a body is written somewhere in it. -/
theorem Statements.exists_of_mem {α : Type} {R : α → List Symbol → Prop} {items : List α}
    {xs : List Symbol} (h : Statements R items xs) : ∀ i ∈ items, ∃ ys, R i ys := by
  induction h with
  | nil => exact fun i hi => nomatch hi
  | stray _ ih => exact ih
  | cons first _ ih => exact List.forall_mem_cons.2 ⟨⟨_, first⟩, ih⟩

/-- What is made of the declarations of one kind in a body comes from one that is written there. -/
theorem Statements.exists_of_mem_flatMap {α β γ : Type} {R : α → List Symbol → Prop}
    {items : List α} {xs : List Symbol} (h : Statements R items xs) {kind : α → Option β}
    {f : β → List γ} {o : γ} (ho : o ∈ (items.filterMap kind).flatMap f) :
    ∃ i ys, ∃ d ∈ items.filterMap kind, kind i = some d ∧ R i ys ∧ o ∈ f d := by
  obtain ⟨d, hd, ho⟩ := List.mem_flatMap.1 ho
  obtain ⟨i, hi, hkind⟩ := List.mem_filterMap.1 hd
  obtain ⟨ys, hys⟩ := h.exists_of_mem i hi
  exact ⟨i, ys, d, hd, hkind, hys, ho⟩

theorem Phrase.exists_of_mem_body {α : Type} {item : α → Phrase} {items : List α}
    {xs : List Symbol} (h : xs ∈ Phrase.body item items) : ∀ i ∈ items, ∃ ys, ys ∈ item i := by
  obtain ⟨_, h, _, -, -⟩ := Language.mem_mul.1 h
  obtain ⟨_, -, _, h, -⟩ := Language.mem_mul.1 h
  exact Statements.exists_of_mem h

variable {xs : List Symbol}

theorem FieldOptions.nodup_of_phrase {o : FieldOptions} (h : xs ∈ o.phrase) : o.names.Nodup := by
  rcases (Language.mem_add _ _ _).1 h with ⟨rfl, -⟩ | h
  · exact .nil
  · obtain ⟨_, h, _, -, -⟩ := Language.mem_mul.1 h
    obtain ⟨_, -, _, ⟨settings, rfl, -⟩, -⟩ := Language.mem_mul.1 h
    exact nodup_names_ofList settings

theorem Phrase.nodup_of_declarator {n : String} {number : Int} {o : FieldOptions}
    (h : xs ∈ declarator n number o) : o.names.Nodup := by
  obtain ⟨_, h, _, -, -⟩ := Language.mem_mul.1 h
  obtain ⟨_, -, _, h, -⟩ := Language.mem_mul.1 h
  exact FieldOptions.nodup_of_phrase h

theorem Field.nodup_of_phrase {f : Field} (h : xs ∈ f.phrase) : f.options.names.Nodup := by
  obtain ⟨_, -, _, h, -⟩ := Language.mem_mul.1 h
  exact Phrase.nodup_of_declarator h

theorem EnumItem.nodup_of_phrase {i : EnumItem} (h : xs ∈ i.phrase) :
    ∀ o ∈ i.fieldOptions, o.names.Nodup := by
  cases i with
  | value decl => exact List.forall_mem_singleton.2 (Phrase.nodup_of_declarator h)
  | option | reserved => exact fun o ho => nomatch ho

theorem Enum.nodup_of_phrase {e : Enum} (h : xs ∈ e.phrase) :
    ∀ o ∈ e.fieldOptions, o.names.Nodup := by
  obtain ⟨_, -, _, h, -⟩ := Language.mem_mul.1 h
  intro o ho
  obtain ⟨i, hi, ho⟩ := List.mem_flatMap.1 ho
  obtain ⟨ys, hys⟩ := Phrase.exists_of_mem_body h i hi
  exact i.nodup_of_phrase hys o ho

theorem Extend.nodup_of_phrase {e : Extend} (h : xs ∈ e.phrase) :
    ∀ o ∈ e.fieldOptions, o.names.Nodup := by
  obtain ⟨_, -, _, h, -⟩ := Language.mem_mul.1 h
  intro o ho
  obtain ⟨f, hf, rfl⟩ := List.mem_map.1 ho
  obtain ⟨ys, hys⟩ := Phrase.exists_of_mem_body h f hf
  exact f.nodup_of_phrase hys

theorem Oneof.nodup_of_phrase {d : Oneof} (h : xs ∈ d.phrase) :
    ∀ f ∈ d.fields, f.options.names.Nodup := by
  obtain ⟨_, -, _, ⟨items, hfields, -, h⟩, -⟩ := Language.mem_mul.1 h
  intro f hf
  rw [hfields] at hf
  obtain ⟨i, hi, hf⟩ := List.mem_filterMap.1 hf
  obtain ⟨ys, hys⟩ := Phrase.exists_of_mem_body h i hi
  cases i with
  | option => cases hf
  | field decl =>
    cases hf
    obtain ⟨_, -, _, hys, -⟩ := Language.mem_mul.1 hys
    exact Phrase.nodup_of_declarator hys

theorem Member.nodup_of_phrase {m : Member} (h : xs ∈ m.phrase) :
    ∀ o ∈ m.fieldOptions, o.names.Nodup := by
  cases m with
  | field decl => exact List.forall_mem_singleton.2 (decl.nodup_of_phrase h)
  | map decl =>
    obtain ⟨_, -, _, h, -⟩ := Language.mem_mul.1 h
    exact List.forall_mem_singleton.2 (Phrase.nodup_of_declarator h)
  | oneof decl =>
    intro o ho
    obtain ⟨f, hf, rfl⟩ := List.mem_map.1 ho
    exact decl.nodup_of_phrase h f hf
  | reserved | extensions => exact fun o ho => nomatch ho

/-- By induction on the size of the message, since messages are nested to any depth. -/
theorem Message.nodup_of_yields (m : Message) (h : m.Yields xs) :
    ∀ o ∈ m.fieldOptions, o.names.Nodup := by
  induction hn : sizeOf m using Nat.strongRecOn generalizing m xs with
  | ind n ih =>
    obtain ⟨name, members, enums, messages, options, extensions, comments⟩ := m
    obtain ⟨-, ⟨rfl, rfl, hmessages, rfl, rfl⟩, h⟩ := h
    change messages = _ at hmessages
    intro o ho
    rw [fieldOptions, fieldOptionsOf_eq, hmessages, List.mem_append, List.mem_append,
      List.mem_append] at ho
    rcases ho with ((ho | ho) | ho) | ho
    · obtain ⟨i, ys, d, -, hd, hys, ho⟩ := h.exists_of_mem_flatMap ho
      cases hys <;> cases hd
      next hys => exact d.nodup_of_phrase hys o ho
    · obtain ⟨i, ys, d, -, hd, hys, ho⟩ := h.exists_of_mem_flatMap ho
      cases hys <;> cases hd
      next hys => exact d.nodup_of_phrase hys o ho
    · obtain ⟨i, ys, d, hmem, hd, hys, ho⟩ := h.exists_of_mem_flatMap ho
      have hlt : sizeOf d < n := by
        have hlist := List.sizeOf_lt_of_mem (hmessages ▸ hmem)
        rw [← hn, Message.mk.sizeOf_spec]
        omega
      cases hys <;> cases hd
      next hys => exact ih _ hlt d hys rfl o ho
    · obtain ⟨i, ys, d, -, hd, hys, ho⟩ := h.exists_of_mem_flatMap ho
      cases hys <;> cases hd
      next hys => exact d.nodup_of_phrase hys o ho

theorem Definition.nodup_of_phrase {d : Definition} (h : xs ∈ d.phrase) :
    ∀ o ∈ d.fieldOptions, o.names.Nodup := by
  cases d with
  | message decl => exact decl.nodup_of_yields h
  | enum decl => exact decl.nodup_of_phrase h
  | service => exact fun o ho => nomatch ho

theorem File.nodup_of_phrase {f : File} (h : xs ∈ f.phrase) :
    ∀ o ∈ f.fieldOptions, o.names.Nodup := by
  obtain ⟨_, -, _, ⟨items, sorts, h⟩, -⟩ := Language.mem_mul.1 h
  intro o ho
  rw [fieldOptions, sorts.definitions, sorts.extensions, List.mem_append] at ho
  rcases ho with ho | ho
  · obtain ⟨i, ys, d, -, hd, hys, ho⟩ := Statements.exists_of_mem_flatMap h ho
    cases i <;> cases hd
    exact d.nodup_of_phrase hys o ho
  · obtain ⟨i, ys, d, -, hd, hys, ho⟩ := Statements.exists_of_mem_flatMap h ho
    cases i <;> cases hd
    exact d.nodup_of_phrase hys o ho

theorem File.nodup_of_parse {source : String} {f : File} (h : parse source = .ok f) :
    ∀ o ∈ f.fieldOptions, o.names.Nodup := by
  obtain ⟨ls, hls, hfile⟩ := tokenize_of_parse h
  exact f.nodup_of_phrase (derives_of_ofLexemes (wellRead_of_tokenize hls) hfile)

/-! ## First names, last settings -/

/-- Collected settings have distinct names, which are all names of the settings that came, in the
order in which they came first. Each name has the setting that came last, and this is what a look-up
finds. Further settings are collected by inserting them one after the other. In a file that is read,
all options in brackets have distinct names. -/
theorem FieldOptions.ofList_lastWrites (xs ys : List Setting) :
    (ofList xs).names.Nodup ∧ (ofList xs).names = (xs.map Setting.name).eraseDups ∧
      (∀ s ∈ (ofList xs).settings, last? xs s.name = some s) ∧
      (ofList xs).size = (xs.map Setting.name).toFinset.card ∧
      (∀ name, (ofList xs).get? name = last? xs name ∧
        ((ofList xs).get? name = none ↔ ∀ s ∈ xs, s.name ≠ name)) ∧
      ofList (xs ++ ys) = ys.foldl insert (ofList xs) ∧
      ∀ source f, parse source = .ok f → ∀ o ∈ f.fieldOptions, o.names.Nodup := by
  have hnodup := nodup_names_ofList xs
  refine ⟨hnodup, names_ofList xs, fun s hs => ?_, size_ofList xs, fun name => ?_,
    ofList_append xs ys, fun source f => File.nodup_of_parse⟩
  · rw [← get?_ofList]
    exact get?_of_mem hnodup hs
  · rw [get?_ofList]
    exact ⟨rfl, last?_eq_none⟩

/-- A name that comes twice keeps its place and gets the later value, in a list and in a source. -/
theorem FieldOptions.ofList_lastWrites_twice :
    let xs : List Setting := [⟨"a", .int 1, []⟩, ⟨"b", .int 2, []⟩, ⟨"a", .int 3, [⟨"c"⟩]⟩]
    let source := "syntax = 'proto3'; enum E \x7b A = 0 [a = 1, b = 2, a = 3]; \x7d"
    (ofList xs).names = ["a", "b"] ∧ (ofList xs).get? "a" = some ⟨"a", .int 3, [⟨"c"⟩]⟩ ∧
      ∃ f o, parse source = .ok f ∧ o ∈ f.fieldOptions ∧ o.size = 2 ∧ o.names.Nodup := by
  intro xs source
  obtain ⟨-, hnames, -, -, hget, -, hfiles⟩ := ofList_lastWrites xs []
  have hfile : parse source = .ok ⟨⟨"proto3", []⟩, none, [], [], [.enum ⟨"E",
      [.value ⟨"A", 0, ⟨[⟨"a", .int 3, []⟩, ⟨"b", .int 2, []⟩]⟩, []⟩], []⟩], [], []⟩ := by
    decide +kernel
  refine ⟨hnames.trans (by decide), (hget "a").1.trans (by decide), _, _, hfile,
    List.mem_singleton_self _, rfl, hfiles source _ hfile _ (List.mem_singleton_self _)⟩

end ProtoSchema
