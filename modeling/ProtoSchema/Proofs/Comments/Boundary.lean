import ProtoSchema.Proofs.Comments.AllComments
import ProtoSchema.Proofs.Comments.Keeping
import ProtoSchema.Proofs.Comments.Placement
import ProtoSchema.Proofs.Comments.Sparing
import ProtoSchema.Proofs.Completeness.Options

/-
  No comment at a boundary is lost: exactly these comments are in the tree, and each of them as
  often as in the source (`parse_boundaryComments`), if no option in brackets is given twice and no
  entry has an empty list of values. An entry with an empty list makes no setting, so there is
  nothing in the tree that could have its comments.
-/

namespace ProtoSchema

open Passage

/-! ## Values and options -/

/-- The comments of the settings of an entry that has values. -/
theorem Production.flatMap_entrySettings (key : String) (comments : List Comment)
    {values : List Value} (hne : values ≠ []) :
      (entrySettings key comments values).flatMap Setting.allComments =
        comments ++ values.flatMap Value.allComments := by
  cases values with
  | nil => exact absurd rfl hne
  | cons v values =>
    simp [entrySettings, Setting.allComments, List.flatMap_map]

namespace Aggregate

variable {value : Value → Passage}

theorem holds_values (h : ∀ v, (value v).Holds v.allComments) (values : List Value) :
    (valuesLayout value values).Holds (values.flatMap Value.allComments) := by
  intro ms rest hvalues
  cases hvalues with
  | bare hms =>
    rw [List.flatMap_singleton]
    exact h _ ms rest hms
  | one hms =>
    rw [List.flatMap_singleton]
    exact (h _).words_mul rfl _ ms rest hms
  | empty hms => exact (holds_words rfl _).words_mul rfl _ ms rest hms
  | many hms =>
    refine Holds.mul_words rfl _ (.words_mul rfl _ ?_) ms rest hms
    exact .separated h _ _ _

theorem keeps_entry (h : ∀ v, (value v).Holds v.allComments) (settings : List Setting) :
    (entryLayout value settings).Keeps (settings.flatMap Setting.allComments) := by
  have hparts (key : String) (values : List Value) (comments : List Comment) :
      (declaration comments [] (words (.entry settings) (Phrase.entryKey key) *
        (valuesLayout value values * words .inner Phrase.entryEnd))).Keeps
          (comments ++ values.flatMap Value.allComments) :=
    keeps_declaration rfl (Phrase.nil_notMem_entryKey key)
      ((holds_values h values).mul_words rfl _) comments
  constructor
  · rintro ms rest ⟨key, values, comments, -, hms⟩
    rw [mul_assoc] at hms
    exact (hparts key values comments).atBoundary ms rest hms
  · rintro ms rest ⟨key, values, comments, hsettings, hms⟩ hsound
    rw [mul_assoc] at hms
    -- An entry without values has no setting that could keep the comments, and its mark says so.
    have hne : values ≠ [] := by
      rintro rfl
      obtain ⟨_, _, xs, ys, zs, -, rfl, ⟨us, vs, rfl, _, hvs⟩, _, _⟩ := declaration_parts hms
      obtain ⟨m, hm, hrole⟩ := exists_role_of_words (Phrase.nil_notMem_entryKey key) hvs
      have hentry := hsound m (by simp [hm])
      rw [hrole, hsettings] at hentry
      exact hentry rfl
    rw [hsettings, Production.flatMap_entrySettings key comments hne]
    exact (hparts key values comments).count ms rest hms hsound

theorem holds (a : Aggregate) : a.layout.Holds a.allComments := by
  rintro ms rest ⟨depth, hms⟩
  induction depth generalizing a ms rest with
  | zero => cases hms
  | succ depth ih =>
    have hvalue (v : Value) : (Value.layoutIn (layoutWithin depth) v).Holds v.allComments := by
      cases v with
      | aggregate a => exact fun ms rest hms => ih a ms rest hms
      | _ => exact holds_words rfl _
    obtain ⟨entries, hsettings, hms⟩ := hms
    have hall := (holds_braces rfl (Language.notMem_zero []) (keeps_entry hvalue) entries
      a.comments) ms rest hms
    obtain ⟨settings, comments⟩ := a
    obtain rfl : settings = entries.flatten := hsettings
    rwa [allComments, Setting.allCommentsOf_eq, List.flatten_eq_flatMap, List.flatMap_assoc]

end Aggregate

theorem Value.holds (v : Value) : v.layout.Holds v.allComments := by
  cases v with
  | aggregate a => exact a.holds
  | _ => exact holds_words rfl _

theorem Setting.holds (s : Setting) : s.layout.Holds s.allComments := by
  rintro ms rest ⟨hcomments, hms⟩
  rw [allComments, hcomments]
  exact s.value.holds.words_mul rfl _ ms rest hms

theorem FieldOptions.holds (o : FieldOptions) : o.layout.Holds o.allComments := by
  rintro ms rest (⟨rfl, rfl⟩ | ⟨first, others, rfl, hms⟩) hsound
  · exact holds_one [] rest rfl hsound
  · -- The bracket is marked with the options as they are written, before any of them is replaced.
    have hmark : ∃ m ∈ ms, m.role = .options (first :: others) := by
      obtain ⟨_, _, rfl, ⟨_, _, rfl, hopen, _⟩, _⟩ := hms
      obtain ⟨m, hm, hrole⟩ := exists_role_of_words (Phrase.nil_notMem_mark _) hopen
      exact ⟨m, by simp [hm], hrole⟩
    obtain ⟨m, hm, hrole⟩ := hmark
    have hdistinct := hsound m hm
    rw [hrole] at hdistinct
    rw [allComments, ofList_of_distinct hdistinct]
    refine Holds.mul_words rfl _ (.words_mul rfl _ ?_) ms rest hms hsound
    exact .separated Setting.holds _ _ _

/-- An option statement has all comments of its value. -/
theorem OptionDecl.Holds.allComments {o : OptionDecl} {v : Value} (h : o.Holds v) :
    v.allComments = v.comments ++ o.settings.flatMap Setting.allComments := by
  cases v with
  | aggregate a =>
    obtain ⟨settings, comments⟩ := a
    have hsettings : o.settings = settings := h
    rw [hsettings, ← Setting.allCommentsOf_eq]
    rfl
  | _ =>
    have hsettings : o.settings = [_] := h
    rw [hsettings]
    rfl

theorem OptionDecl.keeps (o : OptionDecl) : o.layout.Keeps o.allComments := by
  refine keeps_of_exists ?_
  rintro ms rest ⟨v, hv, hms⟩
  exact ⟨_, keeps_statement (by simp) (hv.allComments ▸ v.holds) o.comments, hms⟩

/-! ## Fields, enums and extensions -/

theorem Passage.keeps_field (comments : List Comment) (head : Phrase) (name : String) (number : Int)
    (options : FieldOptions) : (Passage.field comments head name number options).Keeps
      (comments ++ options.allComments) :=
  keeps_statement (by simp) options.holds comments

theorem OneofItem.keeps (i : OneofItem) : i.layout.Keeps i.allComments := by
  cases i with
  | option decl => exact decl.keeps
  | field decl => exact keeps_field _ _ _ _ _

theorem Oneof.keeps (o : Oneof) : o.layout.Keeps o.allComments := by
  refine keeps_of_exists ?_
  rintro ms rest ⟨items, hfields, hoptions, hms⟩
  refine ⟨_, (keeps_block OneofItem.keeps (by simp) _ items).of_count fun c => ?_, hms⟩
  rw [List.count_append, Oneof.count_allComments hfields hoptions]

theorem Reserved.keeps (r : Reserved) : r.layout.Keeps r.comments :=
  keeps_statement_words (by simp) _

theorem ExtensionRanges.keeps (e : ExtensionRanges) : e.layout.Keeps e.comments :=
  keeps_statement_words (by simp) _

theorem EnumItem.keeps (i : EnumItem) : i.layout.Keeps i.allComments := by
  cases i with
  | option decl => exact decl.keeps
  | value decl => exact keeps_field _ _ _ _ _
  | reserved decl => exact decl.keeps

theorem Enum.keeps (e : Enum) : e.layout.Keeps e.allComments :=
  keeps_block EnumItem.keeps (by simp) _ _

theorem Extend.keeps (e : Extend) : e.layout.Keeps e.allComments :=
  keeps_block (fun _ => keeps_field _ _ _ _ _) (by simp) _ _

/-! ## Messages -/

theorem Member.keeps (m : Member) : m.layout.Keeps m.allComments := by
  cases m with
  | field decl => exact keeps_field _ _ _ _ _
  | map decl => exact keeps_field _ _ _ _ _
  | oneof decl => exact decl.keeps
  | reserved decl => exact decl.keeps
  | extensions decl => exact decl.keeps

theorem Message.keeps_within (depth : Nat) (m : Message) :
    (m.layoutWithin depth).Keeps m.allComments := by
  induction depth generalizing m with
  | zero => exact ⟨nofun, nofun⟩
  | succ depth ih =>
    have hitem (i : MessageItem) :
        (MessageItem.layoutIn (layoutWithin depth) i).Keeps i.allComments := by
      cases i with
      | option decl => exact decl.keeps
      | enum decl => exact decl.keeps
      | message decl => exact ih decl
      | member decl => exact decl.keeps
      | extend decl => exact decl.keeps
    refine keeps_of_exists ?_
    rintro ms rest ⟨items, hsorts, hms⟩
    refine ⟨_, (keeps_block hitem (by simp) _ items).of_count fun c => ?_, hms⟩
    rw [List.count_append, hsorts.count]

theorem Message.keeps (m : Message) : m.layout.Keeps m.allComments :=
  keeps_of_exists fun _ _ ⟨depth, hms⟩ => ⟨_, m.keeps_within depth, hms⟩

/-! ## Services and files -/

theorem Rpc.keeps (r : Rpc) : r.layout.Keeps r.allComments := by
  refine keeps_of_exists ?_
  rintro ms rest (⟨hoptions, hms⟩ | hms)
  · refine ⟨_, ?_, hms⟩
    rw [allComments, hoptions, List.flatMap_nil, List.append_nil]
    exact keeps_statement_words (by simp) _
  · exact ⟨_, keeps_block OptionDecl.keeps (by simp) _ _, hms⟩

theorem ServiceItem.keeps (i : ServiceItem) : i.layout.Keeps i.allComments := by
  cases i with
  | option decl => exact decl.keeps
  | rpc decl => exact decl.keeps

theorem Service.keeps (s : Service) : s.layout.Keeps s.allComments := by
  refine keeps_of_exists ?_
  rintro ms rest ⟨items, hmethods, hoptions, hms⟩
  refine ⟨_, (keeps_block ServiceItem.keeps (by simp) _ items).of_count fun c => ?_, hms⟩
  rw [List.count_append, Service.count_allComments hmethods hoptions]

theorem FileItem.keeps (i : FileItem) : i.layout.Keeps i.allComments := by
  cases i with
  | imported decl => exact keeps_statement_words (by simp) _
  | package decl span => exact keeps_statement_words (by simp) _
  | option decl => exact decl.keeps
  | definition decl =>
    cases decl with
    | message decl => exact decl.keeps
    | enum decl => exact decl.keeps
    | service decl => exact decl.keeps
  | extend decl => exact decl.keeps

theorem File.keeps (f : File) : f.layout.Keeps f.allComments := by
  refine keeps_of_exists ?_
  rintro ms rest ⟨statements, hsorts, hms⟩
  have hversion : f.version.layout.Keeps f.version.comments := keeps_statement_words (by simp) _
  have hstatements := Keeps.items (Phrase.nil_notMem_mark .semicolon) FileItem.keeps statements
    f.comments
  refine ⟨_, (hversion.mul hstatements).of_count fun c => ?_, hms⟩
  simp only [List.count_append, hsorts.count]
  omega

/-! ## All comments at boundaries -/

/-- In a source that is read, every comment at a boundary occurs in the tree, and as often as it
stands in the source, unless an option in brackets is given twice or an entry has no values. -/
theorem parse_boundaryComments {source : String} {f : File} (h : parse source = .ok f) :
    ∃ ms, tokenize source.toList = .ok (unmarked ms) ∧ f.layout ms [] ∧
      ((∀ m ∈ ms, m.role.Sound) → (boundaryComments ms).Perm f.allComments) := by
  obtain ⟨ms, hms, hlayout⟩ := parse_layout h
  refine ⟨ms, hms, hlayout, fun hsound => List.perm_iff_count.2 fun c => ?_⟩
  have hcount := f.keeps.count ms [] hlayout hsound [] rfl c
  rwa [List.append_nil, boundaryComments, List.count_nil, Nat.add_zero] at hcount

/-- Comments between statements, between entries, of which one has a list of values, around a field
with options in brackets and behind a stray semicolon. -/
theorem parse_boundaryComments_entries : ∃ source f ms, parse source = .ok f ∧
    tokenize source.toList = .ok (unmarked ms) ∧ f.layout ms [] ∧ (∀ m ∈ ms, m.role.Sound) ∧
    (boundaryComments ms).Perm
      [⟨"a"⟩, ⟨"b"⟩, ⟨"c"⟩, ⟨"d"⟩, ⟨"e"⟩, ⟨"f"⟩, ⟨"g"⟩, ⟨"h"⟩, ⟨"i"⟩, ⟨"j"⟩] := by
  let source := "// a\nsyntax = 'proto3'; // b\noption (o) = \x7b // c\n" ++
    "// d\nk: [1, 2], // e\n/* f */ l: 3 \x7d;\n" ++
    "message M \x7b // g\nint32 x = 1 [y = 4, z = 5]; // h\n\x7d // i\n; // j"
  let f : File := ⟨⟨"proto3", [⟨"a"⟩, ⟨"b"⟩]⟩, none, [],
    [⟨"o", [⟨"k", .int 1, [⟨"d"⟩, ⟨"e"⟩]⟩, ⟨"k", .int 2, []⟩, ⟨"l", .int 3, [⟨"f"⟩]⟩], [⟨"c"⟩]⟩],
    [.message ⟨"M", [.field ⟨none, .scalar .int32, "x", 1,
      .ofList [⟨"y", .int 4, []⟩, ⟨"z", .int 5, []⟩], [⟨"h"⟩]⟩], [], [], [], [],
      [⟨"g"⟩, ⟨"i"⟩]⟩], [], [⟨"j"⟩]⟩
  have hfile : parse source = .ok f := by decide +kernel
  have hsymbols : ∀ ls ∈ (tokenize source.toList).toOption, Sparing (symbols ls) := by
    decide +kernel
  obtain ⟨ms, hms, hlayout, hperm⟩ := parse_boundaryComments hfile
  have hsound : ∀ m ∈ ms, m.role.Sound :=
    File.sound_of_sparing hlayout (hsymbols _ (by rw [hms]; rfl))
  refine ⟨source, f, ms, hfile, hms, hlayout, hsound, (hperm hsound).trans ?_⟩
  decide

/-- The comment of an entry without values is lost. -/
theorem parse_boundaryComments_empty_entry :
    parse "syntax = 'proto3'; option (a) = \x7b /* c */ k: [] \x7d;" =
      .ok ⟨⟨"proto3", []⟩, none, [], [⟨"a", [], []⟩], [], [], []⟩ := by
  decide +kernel

end ProtoSchema
