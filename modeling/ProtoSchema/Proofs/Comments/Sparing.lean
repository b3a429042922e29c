import ProtoSchema.Proofs.Comments.Closure
import ProtoSchema.Proofs.Comments.Keeping

/-
  When nothing costs a comment, told from the symbols of a source alone. If no list in it is empty
  and no word stands in it twice, then its entries have values and its options in brackets have
  distinct names, however it is laid out (`File.sound_of_sparing`).
-/

namespace ProtoSchema

open Passage

/-- The spelling of a symbol, if it is a word. -/
def Symbol.word? : Symbol → Option String
  | .word w => some w
  | _ => none

/-- Symbols in which no list is empty and no word stands twice. -/
structure Sparing (xs : List Symbol) : Prop where
  lists : ¬[.punct .colon, .punct .leftBracket, .punct .rightBracket] <:+: xs
  words : (xs.filterMap Symbol.word?).Nodup

instance (xs : List Symbol) : Decidable (Sparing xs) :=
  decidable_of_iff (¬[.punct .colon, .punct .leftBracket, .punct .rightBracket] <:+: xs ∧
    (xs.filterMap Symbol.word?).Nodup) ⟨fun h => ⟨h.1, h.2⟩, fun h => ⟨h.lists, h.words⟩⟩

theorem Sparing.of_infix {xs ys : List Symbol} (h : Sparing ys) (hxs : xs <:+: ys) :
    Sparing xs :=
  ⟨fun hlist => h.lists (hlist.trans hxs), h.words.sublist (hxs.sublist.filterMap _)⟩

/-! ## The first word of a name -/

/-- The first word of a name, behind a dot at its start. -/
def firstWord (name : String) : String :=
  String.ofList ((name.toList.dropWhile (· = '.')).takeWhile (· ≠ '.'))

/-- A name that starts with a word, or with a dot and then the word. -/
structure LeadsWith (w name : String) : Prop where
  isWord : IsWord w
  split : ∃ dots rest, name.toList = dots ++ (w.toList ++ rest) ∧ (∀ c ∈ dots, c = '.') ∧
    ∀ c ∈ rest.head?, c = '.'

namespace LeadsWith

variable {w name : String}

theorem firstWord_eq (h : LeadsWith w name) : firstWord name = w := by
  obtain ⟨dots, rest, hname, hdots, hrest⟩ := h.split
  have hskip : (w.toList ++ rest).dropWhile (· = '.') = w.toList ++ rest := by
    obtain ⟨c, cs, hw, -⟩ := h.isWord
    have hc : c ≠ '.' := fun hc => h.isWord.dot_notMem (by rw [hw, hc]; exact List.mem_cons_self)
    rw [hw, List.cons_append, List.dropWhile_cons_of_neg (by simpa using hc)]
  have hstop : rest.takeWhile (· ≠ '.') = [] := by
    cases rest with
    | nil => rfl
    | cons c rest => exact List.takeWhile_cons_of_neg (by simpa using hrest c rfl)
  have hword : ∀ c ∈ w.toList, decide (c ≠ '.') = true := fun c hc =>
    decide_eq_true fun hdot => h.isWord.dot_notMem (hdot ▸ hc)
  rw [firstWord, hname, List.dropWhile_append_of_pos (by simpa using hdots), hskip,
    List.takeWhile_append_of_pos hword, hstop, List.append_nil, String.ofList_toList]

theorem of_isWord (h : IsWord w) : LeadsWith w w :=
  ⟨h, [], [], (List.append_nil _).symm, nofun, nofun⟩

/-- More of a name, behind another dot. -/
theorem append {rest : List Char} (h : LeadsWith w name) (hrest : ∀ c ∈ rest.head?, c = '.')
    {longer : String} (hlonger : longer.toList = name.toList ++ rest) : LeadsWith w longer := by
  obtain ⟨dots, more, hname, hdots, hmore⟩ := h.split
  refine ⟨h.isWord, dots, more ++ rest, by simp [hlonger, hname], hdots, ?_⟩
  cases more with
  | nil => exact hrest
  | cons c more => exact hmore

theorem intercalate {part : String} (h : LeadsWith w part) (parts : List String) :
    LeadsWith w (String.intercalate "." (part :: parts)) := by
  cases parts with
  | nil => rwa [String.intercalate_singleton]
  | cons next parts => exact h.append (by simp) (toList_intercalate_cons_cons part next parts)

end LeadsWith

namespace Phrase

variable {n : String} {xs : List Symbol}

theorem exists_leadsWith_of_name (h : xs ∈ name n) : ∃ w, LeadsWith w n ∧ .word w ∈ xs := by
  obtain ⟨parts, rfl, hparts⟩ := h
  cases hparts with
  | last only =>
    obtain ⟨hw, rfl⟩ := only
    exact ⟨_, (LeadsWith.of_isWord hw).intercalate [], List.mem_cons_self⟩
  | cons first others =>
    obtain ⟨hw, rfl⟩ := first
    exact ⟨_, (LeadsWith.of_isWord hw).intercalate _, List.mem_cons_self⟩

theorem exists_leadsWith_of_typeName (h : xs ∈ typeName n) :
    ∃ w, LeadsWith w n ∧ .word w ∈ xs := by
  rcases h with h | ⟨relative, rfl, h⟩
  · exact exists_leadsWith_of_name h
  · obtain ⟨_, rfl, ys, hys, rfl⟩ := h
    obtain ⟨w, hw, hmem⟩ := exists_leadsWith_of_name hys
    obtain ⟨dots, rest, hname, hdots, hrest⟩ := hw.split
    refine ⟨w, ⟨hw.isWord, '.' :: dots, rest, by simp [hname], ?_, hrest⟩, by simp [hmem]⟩
    exact List.forall_mem_cons.2 ⟨rfl, hdots⟩

/-- The first word of the name of an option is one of the words that it is written with. -/
theorem firstWord_mem_of_optionName (h : xs ∈ optionName n) : .word (firstWord n) ∈ xs := by
  obtain ⟨first, parts, ys, zs, rfl, hys, -, rfl⟩ := h
  have hstart : ∃ w, LeadsWith w first ∧ .word w ∈ ys := by
    rcases hys with ⟨hw, rfl⟩ | ⟨_, ⟨_, rfl, us, hus, rfl⟩, _, rfl, rfl⟩
    · exact ⟨first, .of_isWord hw, List.mem_cons_self⟩
    · obtain ⟨w, hw, hmem⟩ := exists_leadsWith_of_typeName hus
      exact ⟨w, hw, by simp [hmem]⟩
  obtain ⟨w, hw, hmem⟩ := hstart
  rw [(hw.intercalate parts).firstWord_eq]
  exact List.mem_append_left zs hmem

end Phrase

/-! ## Options in brackets -/

theorem Setting.firstWord_mem {s : Setting} {ms : List Marked} {rest : List Lexeme}
    (h : s.layout ms rest) : .word (firstWord s.name) ∈ symbols (unmarked ms) := by
  obtain ⟨-, xs, ys, rfl, ⟨ls, rfl, ⟨us, hus, vs, -, hsymbols⟩, -⟩, -⟩ := h
  have hsymbols : us ++ vs = symbols ls := hsymbols
  rw [unmarked_append, unmarked_markFirst, symbols_append, ← hsymbols]
  exact List.mem_append_left _ (List.mem_append_left _ (Phrase.firstWord_mem_of_optionName hus))

/-- Each of the options in brackets starts with a word of its own. -/
theorem firstWords_sublist {first : Setting} {others : List Setting} {ms : List Marked}
    {rest : List Lexeme} (h : separated .comma Setting.layout first others ms rest) :
    ((first :: others).map fun s => firstWord s.name).Sublist
      ((symbols (unmarked ms)).filterMap Symbol.word?) := by
  have hone {s : Setting} {ms : List Marked} {rest : List Lexeme} (h : s.layout ms rest) :
      [firstWord s.name].Sublist ((symbols (unmarked ms)).filterMap Symbol.word?) :=
    List.singleton_sublist.2 (List.mem_filterMap.2 ⟨_, Setting.firstWord_mem h, rfl⟩)
  obtain ⟨xs, ys, rfl, hxs, hys⟩ := h
  rw [unmarked_append, symbols_append, List.filterMap_append]
  refine (hone hxs).append ?_
  clear hxs
  induction others generalizing ys with
  | nil => exact List.nil_sublist _
  | cons s others ih =>
    obtain ⟨_, zs, rfl, ⟨us, vs, rfl, -, hvs⟩, hzs⟩ := hys
    simp only [unmarked_append, symbols_append, List.filterMap_append]
    exact ((hone hvs).trans (List.sublist_append_right _ _)).append (ih zs hzs)

/-! ## Layouts -/

theorem Aggregate.symbols_of_no_values {value : Value → Passage} {ms : List Marked}
    {rest : List Lexeme} (h : valuesLayout value [] ms rest) :
    symbols (unmarked ms) = [.punct .colon, .punct .leftBracket, .punct .rightBracket] := by
  cases h with
  | empty hms =>
    obtain ⟨_, _, rfl, ⟨ls, rfl, ⟨_, rfl, _, rfl, hls⟩, -⟩, ks, rfl, hks, -⟩ := hms
    have hks : symbols ks = [.punct .rightBracket] := hks
    rw [unmarked_append, unmarked_markFirst, unmarked_markFirst, symbols_append, hks, ← hls]
    rfl

theorem Role.sound_of_standsAlone {role : Role} (h : role.standsAlone = true) : role.Sound := by
  cases role <;> trivial

theorem Role.sound_of_endsDeclaration {role : Role} (h : role.endsDeclaration = true) :
    role.Sound := by
  cases role <;> trivial

namespace Passage

/-- Lexemes that cost no comment if their symbols are sparing. -/
def sparing : Passage := fun ms _ => Sparing (symbols (unmarked ms)) → ∀ m ∈ ms, m.role.Sound

theorem marked_le_sparing : marked Role.Sound ≤ sparing := fun _ _ hms _ => hms

theorem words_le_sparing {role : Role} (hrole : role.Sound) (P : Phrase) :
    words role P ≤ sparing :=
  (words_le_marked Role.Sound trivial hrole P).trans marked_le_sparing

theorem mul_le_sparing {A B : Passage} (hA : A ≤ sparing) (hB : B ≤ sparing) :
    A * B ≤ sparing := by
  rintro _ rest ⟨xs, ys, rfl, hxs, hys⟩ hall m hm
  rw [unmarked_append, symbols_append] at hall
  rcases List.mem_append.1 hm with hm | hm
  · exact hA xs _ hxs (hall.of_infix (List.prefix_append _ _).isInfix) m hm
  · exact hB ys rest hys (hall.of_infix (List.suffix_append _ _).isInfix) m hm

/-- A token that costs no comment because of what stands behind it. -/
theorem words_mul_le_sparing {role : Role} {P : Phrase} {A : Passage} (hA : A ≤ sparing)
    (hrole : ∀ ms rest, A ms rest → Sparing (symbols (unmarked ms)) → role.Sound) :
    words role P * A ≤ sparing := by
  rintro _ rest ⟨xs, ys, rfl, hxs, hys⟩ hall
  have hbehind : Sparing (symbols (unmarked ys)) := by
    rw [unmarked_append, symbols_append] at hall
    exact hall.of_infix (List.suffix_append _ _).isInfix
  have hsound := hrole ys rest hys hbehind
  exact mul_le_sparing (words_le_sparing hsound P) hA _ _ (mul_append hxs hys) hall

theorem closed_sparing : sparing.Closed where
  alone ms rest hms := marked_le_sparing ms rest fun m hm => Role.sound_of_standsAlone (hms m hm)
  mul := mul_le_sparing le_rfl le_rfl
  ending hrole p last := mul_le_sparing
    (words_le_sparing (Role.sound_of_endsDeclaration hrole) _)
    ((sameLine_le_marked Role.Sound trivial last).trans marked_le_sparing)
  entry key cs values _ hvalues := words_mul_le_sparing hvalues fun ms rest hms hall => by
    -- Only an empty list has no values.
    cases values with
    | nil => exact absurd (Aggregate.symbols_of_no_values hms ▸ List.infix_rfl) hall.lists
    | cons v values => exact List.cons_ne_nil _ _
  options first others hsettings := words_mul_le_sparing hsettings fun ms rest hms hall => by
    -- If two of the names were the same, so would be their first words.
    have hwords := (firstWords_sublist hms).nodup hall.words
    rw [← Function.comp_def firstWord, ← List.map_map] at hwords
    exact hwords.of_map

end Passage

theorem File.sound_of_sparing {f : File} {ms : List Marked} {rest : List Lexeme}
    (h : f.layout ms rest) (hall : Sparing (symbols (unmarked ms))) :
    ∀ m ∈ ms, m.role.Sound :=
  closed_sparing.file f ms rest h hall

end ProtoSchema
