import ProtoSchema.Proofs.Comments.Keeping
import ProtoSchema.Proofs.Completeness.Options

/-
  Every way to write an aggregate is read as it. Where an entry or a value ends is decided only by
  what stands next: no dot or string continues a value, since the next entry starts with a word or a
  bracket (`Next`). So the grammar of aggregates, in which separators and colons may be left out, is
  complete for what is read (`reads_aggregate_of_yields`). Values are compared without comments.
-/

namespace ProtoSchema

/-! ## Values without comments -/

mutual

/-- The value without the comments in it. -/
def Value.bare : Value → Value
  | .aggregate ⟨settings, _⟩ => .aggregate ⟨Setting.bareList settings, []⟩
  | v => v

/-- Settings without the comments in them. -/
def Setting.bareList : List Setting → List Setting
  | [] => []
  | ⟨name, value, _⟩ :: settings => ⟨name, value.bare, []⟩ :: Setting.bareList settings

end

/-- The aggregate without the comments in it. -/
def Aggregate.bare (a : Aggregate) : Aggregate := ⟨Setting.bareList a.settings, []⟩

theorem Value.bare_aggregate (a : Aggregate) : (Value.aggregate a).bare = .aggregate a.bare := by
  obtain ⟨settings, comments⟩ := a
  rfl

namespace Setting

theorem bareList_cons (s : Setting) (settings : List Setting) :
    bareList (s :: settings) = ⟨s.name, s.value.bare, []⟩ :: bareList settings := by
  obtain ⟨name, value, comments⟩ := s
  rfl

theorem bareList_append (a b : List Setting) :
    bareList (a ++ b) = bareList a ++ bareList b := by
  induction a with
  | nil => rfl
  | cons s a ih => rw [List.cons_append, bareList_cons, bareList_cons, ih, List.cons_append]

theorem bareList_flatten (entries : List (List Setting)) :
    bareList entries.flatten = (entries.map bareList).flatten := by
  induction entries with
  | nil => rfl
  | cons entry entries ih => rw [List.flatten_cons, bareList_append, ih, List.map_cons,
      List.flatten_cons]

/-- The settings that an entry makes of values, without comments. -/
theorem entrySettings_eq (key : String) (values : List Value) :
    Production.entrySettings key [] values = values.map fun v => ⟨key, v, []⟩ := by
  cases values <;> rfl

theorem bareList_eq {key : String} {settings : List Setting}
    (h : ∀ s ∈ settings, s.name = key) :
    bareList settings = settings.map fun s => ⟨key, s.value.bare, []⟩ := by
  induction settings with
  | nil => rfl
  | cons s settings ih =>
    obtain ⟨hs, hsettings⟩ := List.forall_mem_cons.1 h
    rw [bareList_cons, List.map_cons, ih hsettings, hs]

end Setting

/-! ## Parts of sequences are shorter -/

theorem Separated.bounded {α : Type} {separator : Punct} {R : α → List Symbol → Prop}
    {items : List α} {xs : List Symbol} (h : Separated separator R items xs) {n : Nat}
    (hn : xs.length < n) : Separated separator (fun a ys => R a ys ∧ ys.length < n) items xs := by
  induction h with
  | last only => exact .last ⟨only, hn⟩
  | cons first _ ih =>
    rw [List.length_append, List.length_cons] at hn
    exact .cons ⟨first, by omega⟩ (ih (by omega))

/-- Words with dots between them. -/
theorem eq_dotted_of_separated {parts : List String} {xs : List Symbol}
    (h : Separated .dot (fun w ys => ys ∈ Phrase.word w) parts xs) :
    parts ≠ [] ∧ xs = Symbol.dotted parts := by
  induction h with
  | last only =>
    obtain ⟨-, rfl⟩ := only
    exact ⟨List.cons_ne_nil _ _, rfl⟩
  | @cons w parts _ ys first _ ih =>
    obtain ⟨-, rfl⟩ := first
    obtain ⟨hne, rfl⟩ := ih
    refine ⟨List.cons_ne_nil _ _, ?_⟩
    cases parts with
    | nil => exact absurd rfl hne
    | cons v parts => rfl

theorem spelledBool?_of_null {w : String} (h : spellsNull w = true) : spelledBool? w = none := by
  rw [spelledBool?, of_decide_eq_true h]
  rfl

namespace Production

variable {α : Type} {xs ys zs : List Symbol}

/-! ## What stands behind a value -/

/-- What stands next does not continue a value. -/
structure Ends (xs : List Symbol) : Prop where
  not_dot : (Terminal.punct .dot).fitsFirst xs = false
  not_string : Terminal.string.fitsFirst xs = false

theorem ends_punct {p : Punct} (h : p ≠ .dot) (xs : List Symbol) : Ends (.punct p :: xs) :=
  ⟨decide_eq_false h, rfl⟩

/-- What stands next starts an entry or closes the aggregate. -/
def Next : List Symbol → Prop
  | .word _ :: _ | .punct .leftBracket :: _ | .punct .rightBrace :: _ => True
  | _ => False

theorem Next.ends (h : Next xs) : Ends xs := by
  unfold Next at h
  split at h
  · exact ⟨rfl, rfl⟩
  · exact ⟨rfl, rfl⟩
  · exact ⟨rfl, rfl⟩
  · exact h.elim

section Separated

variable {separator : Punct} {item : Production α} {R : α → List Symbol → Prop} {f : α → α}
  {items : List α} (hseparator : separator ≠ .dot)
  (hitem : ∀ a ys us, R a ys → Ends us → Reads item (ys ++ us) (· = f a) us)
  (hends : Ends zs) (hfits : (Terminal.punct separator).fitsFirst zs = false)

include hseparator hitem hends hfits

/-- Items with a separator before each of them. -/
theorem reads_more_of (h : Separated separator R items xs) :
    Reads (loop do
        if ← skip (.punct separator) then return some (← item) else return none)
      (.punct separator :: (xs ++ zs)) (· = items.map f) zs := by
  have hstep {a : α} {ys us : List Symbol} (ha : R a ys) (hus : Ends us) :
      Reads (do if ← skip (.punct separator) then return some (← item) else return none)
        (.punct separator :: (ys ++ us)) (fun v => ∃ w, v = some w ∧ w = f a) us := by
    refine (reads_skip (by simp [Terminal.fits])).then ?_
    exact (hitem a ys us ha hus).then (.pure ⟨_, rfl, rfl⟩)
  have hlength (ys us : List Symbol) :
      us.length < (Symbol.punct separator :: (ys ++ us)).length := by
    rw [List.length_cons, List.length_append]
    omega
  induction h with
  | last only =>
    refine ((hstep only hends).loop_cons (hlength _ _) (.loop_nil ?_)).mono ?_
    · exact (reads_skip_none hfits).then (.pure rfl)
    · rintro _ ⟨_, _, rfl, rfl, rfl⟩
      rfl
  | @cons a items ys us first others ih =>
    rw [List.append_assoc, List.cons_append]
    refine ((hstep first (ends_punct hseparator _)).loop_cons (hlength _ _) ih).mono ?_
    rintro _ ⟨_, _, rfl, rfl, rfl⟩
    rfl

/-- Items with a separator between any two. -/
theorem reads_separated_of (h : Separated separator R items xs) :
    Reads (separated (.punct separator) item) (xs ++ zs) (· = items.map f) zs := by
  cases h with
  | last only =>
    refine (hitem _ _ _ only hends).then ((Reads.loop_nil ?_).then (.pure rfl))
    exact (reads_skip_none hfits).then (.pure rfl)
  | cons first others =>
    rw [List.append_assoc, List.cons_append]
    refine (hitem _ _ _ first (ends_punct hseparator _)).then ?_
    exact (reads_more_of hseparator hitem hends hfits others).then (.pure rfl)

end Separated

/-! ## Names, strings and constants -/

theorem reads_fullIdent_of {n : String} (h : xs ∈ Phrase.name n)
    (hdot : (Terminal.punct .dot).fitsFirst zs = false) :
    Reads fullIdent (xs ++ zs) (· = n) zs := by
  obtain ⟨parts, rfl, hparts⟩ := h
  obtain ⟨hne, rfl⟩ := eq_dotted_of_separated hparts
  exact reads_dotted hne hdot

/-- A name starts with a word. -/
theorem exists_word_of_name {n : String} (h : xs ∈ Phrase.name n) :
    ∃ w ys, xs = .word w :: ys := by
  obtain ⟨parts, -, hparts⟩ := h
  obtain ⟨hne, rfl⟩ := eq_dotted_of_separated hparts
  cases parts with
  | nil => exact absurd rfl hne
  | cons w parts => exact ⟨w, _, rfl⟩

theorem reads_typeName_of {n : String} (h : xs ∈ Phrase.typeName n)
    (hdot : (Terminal.punct .dot).fitsFirst zs = false) :
    Reads typeName (xs ++ zs) (· = n) zs := by
  rcases h with h | ⟨relative, rfl, us, rfl, vs, hvs, rfl⟩
  · obtain ⟨w, ys, rfl⟩ := exists_word_of_name h
    exact (reads_skip_none rfl).then ((reads_fullIdent_of h hdot).then (.pure rfl))
  · exact (reads_skip rfl).then ((reads_fullIdent_of hvs hdot).then (.pure rfl))

/-- Adjacent strings are one string. -/
theorem reads_string_of {s : String} (h : xs ∈ Phrase.text s)
    (hstring : Terminal.string.fitsFirst zs = false) :
    Reads string (xs ++ zs) (· = s) zs := by
  obtain ⟨parts, hne, rfl, rfl⟩ := h
  cases parts with
  | nil => exact absurd rfl hne
  | cons first parts =>
    have hothers : Reads (loop (take .string)) (parts.map Symbol.string ++ zs) (· = parts) zs := by
      clear hne
      induction parts with
      | nil => exact .loop_nil (reads_take_none hstring)
      | cons part parts ih =>
        have hpart : Reads (take .string) (.string part :: (parts.map Symbol.string ++ zs))
            (fun v => ∃ w : String, v = some w ∧ w = part) (parts.map Symbol.string ++ zs) :=
          reads_take fun _ hl => ⟨part, Terminal.read?_string.2 hl, rfl⟩
        refine (hpart.loop_cons (Nat.lt_succ_self _) ih).mono ?_
        rintro _ ⟨_, _, rfl, rfl, rfl⟩
        rfl
    refine (reads_text first _).then (hothers.then (.pure ?_))
    exact String.join_cons.symm

/-- A word that is no name is read as the literal that it spells. -/
theorem reads_constant_of_word {w : String} {v : Value} (hname : spellsName w = false)
    (h : ∀ before, Terminal.literal? (.word (Word.ofSpelling before w.toList)) = some v) :
    Reads constant (.word w :: zs) (· = v) zs := by
  refine reads_constant_of_literal rfl hname fun l hl => ?_
  obtain ⟨-, before, htoken⟩ := hl
  rw [htoken]
  exact h before

/-- A constant is read as its value. -/
theorem reads_constant_of {v : Value} (h : xs ∈ v.constant) (hends : Ends zs) :
    Reads constant (xs ++ zs) (· = v) zs := by
  cases v with
  | int n =>
    obtain rfl := h
    exact reads_constant_of_literal rfl rfl fun l hl => by rw [show l.token = .int n from hl]; rfl
  | float x =>
    obtain rfl := h
    exact reads_constant_of_literal rfl rfl fun l hl => by rw [show l.token = .float x from hl]; rfl
  | bool b =>
    obtain ⟨w, hw, -, rfl⟩ := h
    refine reads_constant_of_word (by simp [spellsName, hw]) fun before => ?_
    rcases Word.ofSpelling_cases before w with ⟨c, hc, heq⟩ | ⟨-, hnone, -⟩ | ⟨hname, -⟩
    · cases hw.symm.trans hc
      rw [heq]
      rfl
    · cases hw.symm.trans hnone
    · simp [spellsName, hw] at hname
  | string s =>
    have hseen : Terminal.string.fitsFirst (xs ++ zs) = true := by
      obtain ⟨parts, hne, -, rfl⟩ := h
      cases parts with
      | nil => exact absurd rfl hne
      | cons part parts => rfl
    refine (reads_sees _).then ?_
    rw [hseen]
    exact (reads_string_of h hends.not_string).then (.pure rfl)
  | null =>
    obtain ⟨w, hw, -, rfl⟩ := h
    refine reads_constant_of_word (by simp [spellsName, hw]) fun before => ?_
    rcases Word.ofSpelling_cases before w with ⟨c, hc, heq⟩ | ⟨-, -, heq⟩ | ⟨hname, -⟩
    · rw [spelledBool?_of_null hw] at hc
      cases hc
    · rw [heq]
      rfl
    · simp [spellsName, hw] at hname
  | ident n =>
    obtain ⟨hname, w, ys, hw, rfl⟩ := h
    refine (reads_sees _).then ((reads_sees _).then ?_)
    rw [show Terminal.name.fitsFirst (.word w :: ys ++ zs) = true from hw]
    exact (reads_fullIdent_of hname hends.not_dot).then (.pure rfl)
  | aggregate a => exact h.elim

/-! ## Entries -/

theorem reads_entryKey_of {key : String} (h : xs ∈ Phrase.entryKey key) :
    Reads entryKey (xs ++ zs) (· = key) zs := by
  rcases h with ⟨-, rfl⟩ | ⟨us, ⟨ls, rfl, vs, hvs, rfl⟩, rs, rfl, rfl⟩
  · exact (reads_skip_none rfl).then (reads_word key _)
  · simp only [List.cons_append, List.nil_append, List.append_assoc]
    refine (reads_skip rfl).then ((reads_typeName_of hvs rfl).then ?_)
    exact .afterPunct (.pure rfl)

/-- A key starts an entry. -/
theorem next_of_entryKey {key : String} (h : xs ∈ Phrase.entryKey key) : Next (xs ++ ys) := by
  rcases h with ⟨-, rfl⟩ | ⟨us, ⟨ls, rfl, vs, hvs, rfl⟩, rs, rfl, rfl⟩ <;> trivial

/-- The separator behind an entry, if there is one. -/
theorem reads_entryEnd_of (h : xs ∈ Phrase.entryEnd) (hnext : Next zs) :
    Reads entryEnd (xs ++ zs) (fun _ => True) zs := by
  rcases h with (rfl | rfl) | rfl
  · have hnone (p : Punct) (hp : p ≠ .leftBracket) (hp' : p ≠ .rightBrace) :
        (Terminal.punct p).fitsFirst zs = false := by
      unfold Next at hnext
      split at hnext
      · rfl
      · exact decide_eq_false hp.symm
      · exact decide_eq_false hp'.symm
      · exact hnext.elim
    exact (reads_skip_none (hnone _ (by simp) (by simp))).then
      ((reads_skip_none (hnone _ (by simp) (by simp))).mono fun _ _ => trivial)
  · exact (reads_skip rfl).then (.pure trivial)
  · exact (reads_skip_none rfl).then ((reads_skip rfl).mono fun _ _ => trivial)

theorem ends_of_entryEnd (h : xs ∈ Phrase.entryEnd) (hnext : Next zs) : Ends (xs ++ zs) := by
  rcases h with (rfl | rfl) | rfl
  · exact hnext.ends
  · exact ends_punct (by simp) _
  · exact ends_punct (by simp) _

/-- A constant starts with no mark. -/
theorem fitsFirst_of_constant {v : Value} (h : xs ∈ v.constant) (p : Punct) :
    (Terminal.punct p).fitsFirst (xs ++ ys) = false := by
  cases v with
  | int n =>
    obtain rfl := h
    rfl
  | float x =>
    obtain rfl := h
    rfl
  | bool b =>
    obtain ⟨w, -, -, rfl⟩ := h
    rfl
  | string s =>
    obtain ⟨parts, hne, -, rfl⟩ := h
    cases parts with
    | nil => exact absurd rfl hne
    | cons part parts => rfl
  | null =>
    obtain ⟨w, -, -, rfl⟩ := h
    rfl
  | ident n =>
    obtain ⟨-, w, us, -, rfl⟩ := h
    rfl
  | aggregate a => exact h.elim

/-- A value starts with a brace or with no mark. -/
theorem fitsFirst_of_value {v : Value} (h : v.Yields xs) {p : Punct} (hp : p ≠ .leftBrace) :
    (Terminal.punct p).fitsFirst (xs ++ ys) = false := by
  cases h with
  | constant h => exact fitsFirst_of_constant h p
  | aggregate h =>
    cases h with
    | intro _ _ => exact decide_eq_false hp.symm

theorem fitsFirst_of_aggregate {a : Aggregate} (h : a.Yields xs) :
    (Terminal.punct .leftBrace).fitsFirst (xs ++ ys) = true := by
  cases h with
  | intro _ _ => rfl

section Nested

variable {bound : Nat}
  (haggregate : ∀ a xs zs, xs.length < bound → Aggregate.Yields a xs →
    Reads aggregate (xs ++ zs) (· = a.bare) zs)

include haggregate

theorem reads_call_of {a : Aggregate} (h : a.Yields xs) (hlength : xs.length < bound) :
    Reads (call .aggregate) (xs ++ zs) (· = a.bare) zs :=
  Reads.call (n := .aggregate) (haggregate a xs zs hlength h)

/-- A value is read as it is. -/
theorem reads_optionValue_of {v : Value} (h : v.Yields xs) (hlength : xs.length < bound)
    (hends : Ends zs) : Reads optionValue (xs ++ zs) (· = v.bare) zs := by
  cases h with
  | constant h =>
    refine (reads_sees _).then ?_
    rw [fitsFirst_of_constant h]
    have hbare : v.bare = v := by
      cases v with
      | aggregate a => exact h.elim
      | _ => rfl
    rw [hbare]
    exact reads_constant_of h hends
  | aggregate h =>
    refine (reads_sees _).then ?_
    rw [fitsFirst_of_aggregate h]
    exact (reads_call_of haggregate h hlength).then (.pure (by simp [Value.bare_aggregate]))

/-- The values of an entry are read as they are. -/
theorem reads_entryValues_of {values : List Value} (h : Aggregate.ValuesYield values xs)
    (hlength : xs.length < bound) (hends : Ends zs) :
    Reads entryValues (xs ++ zs) (· = values.map Value.bare) zs := by
  cases h with
  | bare h =>
    refine (reads_sees _).then ?_
    rw [fitsFirst_of_aggregate h]
    exact (reads_call_of haggregate h hlength).then (.pure (by simp [Value.bare_aggregate]))
  | @one v xs h =>
    have hbracket : (Terminal.punct .leftBracket).fitsFirst (xs ++ zs) = false :=
      fitsFirst_of_value h (by simp)
    rw [List.cons_append]
    refine (reads_sees _).then (.afterPunct ((reads_sees _).then ?_))
    rw [hbracket]
    exact (reads_optionValue_of haggregate h (Nat.lt_of_succ_lt hlength) hends).then (.pure rfl)
  | empty =>
    refine (reads_sees _).then (.afterPunct ((reads_sees _).then (.afterPunct ?_)))
    exact (reads_skip rfl).then (.pure rfl)
  | @many values xs h =>
    simp only [List.length_cons, List.length_append] at hlength
    have hvalues := h.bounded (n := bound) (by omega)
    have hbracket : (Terminal.punct .rightBracket).fitsFirst
        (xs ++ (.punct .rightBracket :: zs)) = false := by
      cases h with
      | last only => exact fitsFirst_of_value only (by simp)
      | cons first others =>
        rw [List.append_assoc]
        exact fitsFirst_of_value first (by simp)
    simp only [List.cons_append, List.append_assoc, List.nil_append]
    refine (reads_sees _).then (.afterPunct ((reads_sees _).then ?_))
    refine .afterPunct ((reads_skip_none hbracket).then ?_)
    have hseparated : Reads (separated (.punct .comma) optionValue)
        (xs ++ .punct .rightBracket :: zs) (· = values.map Value.bare)
        (.punct .rightBracket :: zs) :=
      reads_separated_of (by simp)
        (fun v ys us hv hus => reads_optionValue_of haggregate hv.1 hv.2 hus)
        (ends_punct (by simp) _) rfl hvalues
    exact hseparated.then (.afterPunct (.pure rfl))

/-- An entry is read as its settings. -/
theorem reads_entry_of {settings : List Setting} (h : Aggregate.EntryYields settings xs)
    (hlength : xs.length < bound) (hnext : Next zs) :
    Reads entry (xs ++ zs) (· = Setting.bareList settings) zs := by
  cases h with
  | @intro settings key values ks vs es names settings_values hkey hvalues hend =>
    simp only [List.length_append] at hlength
    simp only [List.append_assoc]
    refine reads_comments.then ((reads_entryKey_of hkey).then ?_)
    have hends : Ends (es ++ zs) := ends_of_entryEnd hend hnext
    refine (reads_entryValues_of haggregate hvalues (by omega) hends).then ?_
    refine (reads_entryEnd_of hend hnext).bind fun _ _ => reads_trailing.then (.pure ?_)
    rw [Setting.bareList_eq names, ← settings_values]
    exact (Setting.entrySettings_eq key _).trans (by simp)

omit haggregate in
theorem next_of_entries {entries : List (List Setting)}
    (h : Series Aggregate.EntryYields entries xs) : Next (xs ++ .punct .rightBrace :: zs) := by
  cases h with
  | nil => trivial
  | cons first others =>
    cases first with
    | intro names settings_values hkey hvalues hend =>
      simp only [List.append_assoc]
      exact next_of_entryKey hkey

/-- Entries up to the brace that closes the aggregate. -/
theorem reads_entries_of {entries : List (List Setting)}
    (h : Series Aggregate.EntryYields entries xs) (hlength : xs.length < bound) :
    Reads (loop aggregateItem) (xs ++ .punct .rightBrace :: zs)
      (· = entries.map fun settings => .decl (Setting.bareList settings))
      (.punct .rightBrace :: zs) := by
  induction h with
  | nil => exact .loop_nil reads_aggregateItem_end
  | @cons settings entries xs ys first others ih =>
    rw [List.length_append] at hlength
    rw [List.append_assoc]
    have hnext : Next (ys ++ .punct .rightBrace :: zs) := next_of_entries others
    have hitem : Reads aggregateItem (xs ++ (ys ++ .punct .rightBrace :: zs))
        (fun v => ∃ w, v = some w ∧ w = .decl (Setting.bareList settings))
        (ys ++ .punct .rightBrace :: zs) := by
      refine Reads.orElse ?_ _
      exact (reads_entry_of haggregate first (by omega) hnext).then (.pure ⟨_, rfl, rfl⟩)
    have hne : xs ≠ [] := by
      cases first with
      | intro names settings_values hkey hvalues hend =>
        intro hnil
        rw [List.append_assoc, List.append_eq_nil_iff] at hnil
        exact Phrase.nil_notMem_entryKey _ (hnil.1 ▸ hkey)
    have hpos : 0 < xs.length := List.length_pos_of_ne_nil hne
    refine (hitem.loop_cons ?_ (ih (by omega))).mono ?_
    · simp only [List.length_append]
      omega
    · rintro _ ⟨_, _, rfl, rfl, rfl⟩
      rfl

end Nested

/-- Every way to write an aggregate is read as it, whatever stands behind it. -/
theorem reads_aggregate_of {a : Aggregate} (h : a.Yields xs) :
    Reads aggregate (xs ++ zs) (· = a.bare) zs := by
  induction hn : xs.length using Nat.strongRecOn generalizing a xs zs with
  | ind n ih =>
    cases h with
    | @intro a entries ys settings h =>
      have hlength : ys.length < n := by
        rw [← hn, List.length_cons, List.length_append]
        omega
      simp only [List.cons_append, List.append_assoc, List.nil_append]
      have hentries : Reads (loop aggregateItem) (ys ++ .punct .rightBrace :: zs)
          (· = entries.map fun settings => .decl (Setting.bareList settings))
          (.punct .rightBrace :: zs) :=
        reads_entries_of (fun a xs zs hxs ha => ih xs.length hxs ha rfl) h hlength
      have hbody : Body.ofItems [] (entries.map fun e => BodyItem.decl (Setting.bareList e)) =
          ⟨entries.map Setting.bareList, []⟩ := by
        rw [← ofItems_map_decl, List.map_map]
        rfl
      refine Reads.then (.afterPunct
        (reads_trailing.then (hentries.then (.afterPunct (.pure hbody))))) (.pure ?_)
      rw [Aggregate.bare, settings, Setting.bareList_flatten]

end Production

end ProtoSchema
