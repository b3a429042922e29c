import ProtoSchema.Proofs.Classification
import ProtoSchema.Proofs.Lexing.Lines
import ProtoSchema.Proofs.Neighbours.Packages

/-
  Sources one behind the other. The statements of a source do not depend on what stands before or
  behind them: a source with more statements on new lines behind it is the file with these
  statements added to it, unless it would have two packages (`parse_append`).
-/

namespace ProtoSchema

open Passage Production

/-! ## Files put together -/

/-- The file `f` with the statements of `g` behind its own. -/
def File.append (f g : File) : File where
  version := f.version
  package := f.package.or g.package
  imports := f.imports ++ g.imports
  options := f.options ++ g.options
  definitions := f.definitions ++ g.definitions
  extensions := f.extensions ++ g.extensions
  comments := f.comments ++ g.comments

namespace File

variable {version version' : SyntaxDecl} {items items' : List FileItem}
  {comments comments' : List Comment} {f g : File}

theorem ofItems_eq_ok (h : ofItems version items comments = .ok f) :
    f = withPackage version f.package items comments ∧
      (f.package = none ∧ items.filterMap FileItem.package? = [] ∨
        ∃ p span, f.package = some p ∧ items.filterMap FileItem.package? = [(p, span)]) := by
  unfold ofItems at h
  split at h
  · next hnone =>
    cases h
    exact ⟨rfl, .inl ⟨rfl, hnone⟩⟩
  · next p span hone =>
    cases h
    exact ⟨rfl, .inr ⟨p, span, rfl, hone⟩⟩
  · cases h

theorem packages_eq_nil (h : ofItems version items comments = .ok f) (hnone : f.package = none) :
    items.filterMap FileItem.package? = [] := by
  obtain ⟨-, ⟨-, hnil⟩ | ⟨p, span, hp, -⟩⟩ := ofItems_eq_ok h
  · exact hnil
  · rw [hnone] at hp
    cases hp

theorem packages_eq_singleton (h : ofItems version items comments = .ok f) {p : Package}
    (hp : f.package = some p) : ∃ span, items.filterMap FileItem.package? = [(p, span)] := by
  obtain ⟨-, ⟨hnone, -⟩ | ⟨q, span, hq, hone⟩⟩ := ofItems_eq_ok h
  · rw [hnone] at hp
    cases hp
  · cases hp.symm.trans hq
    exact ⟨span, hone⟩

section Append

variable (h : ofItems version items comments = .ok f)
  (h' : ofItems version' items' comments' = .ok g)

include h h'

theorem withPackage_append :
    withPackage version (f.package.or g.package) (items ++ items') (comments ++ comments') =
      f.append g := by
  obtain ⟨hf, -⟩ := ofItems_eq_ok h
  obtain ⟨hg, -⟩ := ofItems_eq_ok h'
  rw [hf, hg]
  simp only [withPackage, append, List.filterMap_append]

/-- The statements of two files of which at most one has a package. -/
theorem ofItems_append (hnone : f.package = none ∨ g.package = none) :
    ofItems version (items ++ items') (comments ++ comments') = .ok (f.append g) := by
  rw [← withPackage_append h h', ofItems, List.filterMap_append]
  cases hf : f.package with
  | none =>
    rw [packages_eq_nil h hf]
    cases hg : g.package with
    | none =>
      rw [packages_eq_nil h' hg]
      rfl
    | some q =>
      obtain ⟨span, hspan⟩ := packages_eq_singleton h' hg
      rw [hspan]
      rfl
  | some p =>
    have hg : g.package = none := hnone.resolve_left (by rw [hf]; exact Option.some_ne_none p)
    obtain ⟨span, hspan⟩ := packages_eq_singleton h hf
    rw [hspan, packages_eq_nil h' hg, hg]
    rfl

end Append

/-- The statements of two files that both have a package. -/
theorem ofItems_append_packages {p q : Package} {first second : Span}
    (hp : items.filterMap FileItem.package? = [(p, first)])
    (hq : items'.filterMap FileItem.package? = [(q, second)]) :
    ofItems version (items ++ items') (comments ++ comments') =
      .error (.duplicatePackage first second) := by
  rw [ofItems, List.filterMap_append, hp, hq]
  rfl

/-- The same statements make up the same file. -/
theorem ofItems_same {S : Span → Span → Prop} (h : ofItems version items comments = .ok f)
    (hsame : List.Forall₂ (FileItem.Same S) items items') :
    ofItems version items' comments = .ok f := by
  have houtcome : SameOutcome [] [] (ofItems version items comments)
    (ofItems version items' comments) := .of_items hsame version comments
  rw [h] at houtcome
  generalize ofItems version items' comments = outcome at houtcome
  cases houtcome
  rfl

end File

/-! ## Moved lexemes -/

/-- One span that has been moved by `m` bytes, and by `n` bytes. -/
def Span.Moved (m n : Nat) (a b : Span) : Prop := ∃ s : Span, a = s.shift m ∧ b = s.shift n

theorem Span.Moved.cover {m n : Nat} {a b c d : Span} (h : Moved m n a b) (h' : Moved m n c d) :
    Moved m n ⟨a.start, c.stop⟩ ⟨b.start, d.stop⟩ := by
  obtain ⟨s, rfl, rfl⟩ := h
  obtain ⟨t, rfl, rfl⟩ := h'
  exact ⟨⟨s.start, t.stop⟩, rfl, rfl⟩

theorem Lexeme.readAlike_shift (m n : Nat) (l : Lexeme) :
    (l.shift m).ReadAlike (Span.Moved m n) (l.shift n) :=
  Similar.readAlike ⟨rfl, fun _ _ => rfl⟩ ⟨l.span, rfl, rfl⟩

theorem symbols_shift (n : Nat) (ls : List Lexeme) :
    symbols (ls.map (Lexeme.shift n)) = symbols ls := by
  rw [symbols, List.filterMap_map]
  rfl

theorem PackageAt.of_shift {n : Nat} {ls : List Lexeme} {p : Package} {span : Span}
    (h : PackageAt (ls.map (Lexeme.shift n)) p (span.shift n)) : PackageAt ls p span := by
  obtain ⟨_, _, _, ⟨before, after, hls⟩, ⟨w, hw, hk⟩, hwords, hlast, hspan⟩ := h
  obtain ⟨_, after', rfl, hinner, -⟩ := List.map_eq_append_iff.1 hls.symm
  obtain ⟨before', _, rfl, -, hstatement⟩ := List.map_eq_append_iff.1 hinner
  obtain ⟨first, _, rfl, rfl, hbehind⟩ := List.map_eq_cons_iff.1 hstatement
  obtain ⟨words, _, rfl, rfl, hend⟩ := List.map_eq_append_iff.1 hbehind
  obtain ⟨last, rfl, rfl⟩ := List.map_eq_singleton_iff.1 hend
  rw [symbols_shift] at hwords
  refine ⟨first, words, last, ⟨before', after', rfl⟩, ⟨w, hw, hk⟩, hwords, hlast, ?_⟩
  obtain ⟨start, stop⟩ := span
  simpa [Span.shift] using hspan

theorem wellRead_shift {source : List Char} {ms : List Lexeme} (h : tokenize source = .ok ms)
    (n : Nat) : ∀ l ∈ ms.map (Lexeme.shift n), l.WellRead := by
  obtain ⟨-, rfl⟩ := faults_of_tokenize h
  intro l hl
  obtain ⟨m, hm, rfl⟩ := List.mem_map.1 hl
  have hwell : m.WellRead := wellRead_of_mem_lexemes hm
  exact hwell

/-- A package statement that is moved with all others. -/
theorem packages_moved {m n : Nat} {items items' : List FileItem}
    (h : List.Forall₂ (FileItem.Same (Span.Moved m n)) items items') {p : Package} {span : Span}
    (hp : items.filterMap FileItem.package? = [(p, span)]) :
    ∃ own : Span, span = own.shift m ∧
      items'.filterMap FileItem.package? = [(p, own.shift n)] := by
  have hpackages := FileItem.forall₂_packages (fun _ _ _ _ => Span.Moved.cover) h
  rw [hp, List.forall₂_cons_left_iff] at hpackages
  obtain ⟨⟨_, span'⟩, _, ⟨rfl, own, rfl, rfl⟩, hnil, hitems'⟩ := hpackages
  rw [List.forall₂_nil_left_iff] at hnil
  exact ⟨own, rfl, hnil ▸ hitems'⟩

/-- Statements with nothing behind them are found wherever they are moved to. -/
theorem Production.yield_items_shift {ms : List Lexeme} {m : Nat}
    {items : List (BodyItem FileItem)}
    (h : (loop (bodyItem fileItem)).yield (ms.map (Lexeme.shift m)) = some (items, [])) (n : Nat) :
    ∃ items', (loop (bodyItem fileItem)).yield (ms.map (Lexeme.shift n)) = some (items', []) ∧
      List.Forall₂ (BodyItem.Rel (FileItem.Same (Span.Moved m n))) items items' := by
  have hls : List.Forall₂ (Lexeme.ReadAlike (Span.Moved m n)) (ms.map (Lexeme.shift m))
      (ms.map (Lexeme.shift n)) := by
    rw [List.forall₂_map_left_iff, List.forall₂_map_right_iff]
    exact List.forall₂_same.2 fun l _ => l.readAlike_shift m n
  have hfollows := (alike_fileItems (S := Span.Moved m n) []).run_follows hls .start
  obtain ⟨d, r, hm, hd⟩ := Reply.yield_eq_some.1 h
  rw [hm] at hfollows
  obtain ⟨items', e, hm', ⟨_, hrel⟩, hindex⟩ := hfollows.of_done
  refine ⟨items', ?_, hrel⟩
  have hlength := (show Cursor.Among _ d from run_reaches _ hm).index_add_length
  have hlength' := (show Cursor.Among _ e from run_reaches _ hm').index_add_length
  rw [hd] at hlength
  rw [List.length_map] at hlength hlength'
  have hrest : e.rest = [] := List.eq_nil_of_length_eq_zero (by simp at hlength; omega)
  exact Reply.yield_eq_some.2 ⟨e, r, hm', hrest⟩

/-! ## Sources put together -/

theorem yield_of_parse {source : String} {f : File} (h : parse source = .ok f) :
    ∃ ls version inner, tokenize source.toList = .ok ls ∧
      Production.file.yield ls = some ((version, inner), []) ∧
      File.ofItems version inner.decls inner.comments = .ok f := by
  obtain ⟨ls, hls, hfile⟩ := tokenize_of_parse h
  unfold File.ofLexemes at hfile
  split at hfile
  · next version inner hmatch => exact ⟨ls, version, inner, hls, matchAll_eq_ok.1 hmatch, hfile⟩
  · cases hfile

/-- The lexemes of `syntax = "x";`. -/
def headerLexemes : List Lexeme :=
  [⟨.word (.keyword .syntaxKw), "syntax", ⟨0, 6⟩⟩, ⟨.punct .equals, "=", ⟨7, 8⟩⟩,
    ⟨.string "x", "\"x\"", ⟨9, 12⟩⟩, ⟨.punct .semicolon, ";", ⟨12, 13⟩⟩]

theorem tokenize_header : tokenize "syntax = \"x\";".toList = .ok headerLexemes := by decide +kernel

theorem yield_header : syntaxDecl.yield headerLexemes = some (⟨"x", []⟩, []) := by decide +kernel

theorem trailing?_of_head?_shift {source : List Char} {ms : List Lexeme}
    (h : tokenize source = .ok ms) (n : Nat) :
    ∀ l ∈ (ms.map (Lexeme.shift n)).head?, l.trailing? = none := by
  obtain ⟨hfaults, rfl⟩ := faults_of_tokenize h
  have hhead := head?_lexemes_ne (show Place.start.midLine = false from rfl) hfaults
  intro l hl
  rw [List.head?_map, Option.mem_def, Option.map_eq_some_iff] at hl
  obtain ⟨m, hm, rfl⟩ := hl
  unfold Lexeme.trailing?
  split
  · next htoken => exact absurd htoken (hhead m hm _)
  · rfl

/-- What stands behind a header are the statements of the file. -/
theorem items_of_parse_header {d : String} {g : File}
    (h : parse ("syntax = \"x\";\n" ++ d) = .ok g) : ∃ ms version items,
      tokenize d.toList = .ok ms ∧
      (loop (bodyItem fileItem)).yield (ms.map (Lexeme.shift 14)) = some (items, []) ∧
      File.ofItems version (items.filterMap BodyItem.decl?) (items.filterMap BodyItem.comment?) =
        .ok g ∧
      packageStatements (lexemes (pieces ("syntax = \"x\";\n" ++ d).toList)) =
        (items.filterMap BodyItem.decl?).filterMap FileItem.package? := by
  obtain ⟨ls, version, inner, hls, hfile, hg⟩ := yield_of_parse h
  have hheader : ("syntax = \"x\";\n" ++ d).toList =
      "syntax = \"x\";".toList ++ '\n' :: d.toList := by
    rw [String.toList_append]
    rfl
  obtain ⟨ms, hms⟩ := tokenize_of_lines tokenize_header (hheader ▸ hls)
  obtain rfl : ls = headerLexemes ++ ms.map (Lexeme.shift 14) :=
    Except.ok.inj ((hheader ▸ hls).symm.trans (tokenize_lines tokenize_header hms))
  have hversion := (concludes_syntaxDecl (trailing?_of_head?_shift hms 14)).carries _ _ _
    yield_header
  obtain ⟨_, between, hversion', hstatements⟩ := yield_bind_eq_some.1 hfile
  cases hversion.symm.trans hversion'
  obtain ⟨items, _, hitems, hend⟩ := yield_bind_eq_some.1 hstatements
  cases hend
  refine ⟨ms, _, items, hms, hitems, hg, ?_⟩
  rw [(faults_of_tokenize hls).2, packageStatements_of_yield hfile]
  rfl

/-- A source with more statements behind it consists of its own and of those. -/
theorem parse_lines {s d : String} {ls ms : List Lexeme} (hs : tokenize s.toList = .ok ls)
    (hends : EndsOnToken ls) (hd : tokenize d.toList = .ok ms) {version : SyntaxDecl}
    {inner : Body FileItem} (hfile : Production.file.yield ls = some ((version, inner), []))
    {items : List (BodyItem FileItem)}
    (hitems : (loop (bodyItem fileItem)).yield
      (ms.map (Lexeme.shift (byteLength s.toList + 1))) = some (items, [])) :
    parse (s ++ "\n" ++ d) = parsed (s ++ "\n" ++ d)
      (File.ofItems version (inner.decls ++ items.filterMap BodyItem.decl?)
        (inner.comments ++ items.filterMap BodyItem.comment?)) := by
  have htext : (s ++ "\n" ++ d).toList = s.toList ++ '\n' :: d.toList := by
    rw [String.toList_append, String.toList_append, List.append_assoc]
    rfl
  have hwhole := yield_file_append (trailing?_of_head?_shift hd _) hfile hends hitems
  rw [(parse_of_tokenize (htext ▸ tokenize_lines hs hd)).1, File.ofLexemes,
    matchAll_eq_ok.2 hwhole]

/-- A source with more statements behind it, on lines of their own. What they are is seen from the
file that they make up behind a header: this file is added to that of the source, or there is one
package too many. As for any source, the whole must not be larger than what is read at all
(`parsed`). -/
theorem parse_append {s d : String} {f g : File} (hs : parse s = .ok f)
    (hends : EndsOnToken (lexemes (pieces s.toList)))
    (hd : parse ("syntax = \"x\";\n" ++ d) = .ok g) :
    (f.package = none ∨ g.package = none →
      parse (s ++ "\n" ++ d) = parsed (s ++ "\n" ++ d) (.ok (f.append g))) ∧
    ∀ p q, f.package = some p → g.package = some q → ∃ first second,
      PackageAt (lexemes (pieces s.toList)) p first ∧
      packageStatements (lexemes (pieces s.toList)) = [(p, first)] ∧
      PackageAt (lexemes (pieces d.toList)) q second ∧
      packageStatements (lexemes (pieces ("syntax = \"x\";\n" ++ d).toList)) =
        [(q, second.shift 14)] ∧
      parse (s ++ "\n" ++ d) = parsed (s ++ "\n" ++ d)
        (.error (.duplicatePackage first (second.shift (byteLength s.toList + 1)))) := by
  obtain ⟨ls, version, inner, hls, hfile, hf⟩ := yield_of_parse hs
  obtain ⟨ms, version', items, hms, hitems, hg, hstatements⟩ := items_of_parse_header hd
  obtain ⟨items', hitems', hrel⟩ := yield_items_shift hitems (byteLength s.toList + 1)
  have hdecls := BodyItem.forall₂_decls hrel
  obtain ⟨-, rfl⟩ := faults_of_tokenize hls
  have hparse := parse_lines hls hends hms hfile hitems'
  refine ⟨fun hnone => ?_, fun p q hp hq => ?_⟩
  · have hg' := File.ofItems_same hg hdecls
    rw [BodyItem.comments_eq hrel] at hg'
    rw [hparse, File.ofItems_append hf hg' hnone]
  · obtain ⟨first, hfirst⟩ := File.packages_eq_singleton hf hp
    obtain ⟨span, hspan⟩ := File.packages_eq_singleton hg hq
    obtain ⟨second, rfl, hsecond⟩ := packages_moved hdecls hspan
    have hat : PackageAt (ms.map (Lexeme.shift 14)) q (second.shift 14) :=
      packageAt_of_mem (wellRead_shift hms 14) hitems (by rw [hspan]; exact List.mem_cons_self)
    have hd' : lexemes (pieces d.toList) = ms := (faults_of_tokenize hms).2
    refine ⟨first, second, ?_, ?_, hd' ▸ hat.of_shift, hstatements.trans hspan, ?_⟩
    · exact packageAt_of_mem_file (fun _ => wellRead_of_mem_lexemes) hfile
        (hfirst ▸ List.mem_cons_self)
    · rw [packageStatements_of_yield hfile, hfirst]
    · rw [hparse, File.ofItems_append_packages hfirst hsecond]

/-- An import with a comment behind a message, and a second package behind a package. -/
theorem parse_append_package :
    (∃ f g, parse "syntax = 'a'; package p; message M \x7b\x7d" = .ok f ∧
      parse ("syntax = \"x\";\n" ++ "// i\nimport 'i';") = .ok g ∧ f.package = some ⟨"p", []⟩ ∧
      f.definitions.length = 1 ∧ g.imports = [⟨"i", none, [⟨"i"⟩]⟩] ∧
      parse ("syntax = 'a'; package p; message M \x7b\x7d" ++ "\n" ++ "// i\nimport 'i';") =
        .ok (f.append g)) ∧
    parse ("syntax = 'a'; package p;" ++ "\n" ++ " package q; // q") =
      .error (.ofFaults ("syntax = 'a'; package p;" ++ "\n" ++ " package q; // q").toList
        (.duplicatePackage ⟨14, 24⟩ ⟨26, 36⟩) []) := by
  have himport : parse ("syntax = \"x\";\n" ++ "// i\nimport 'i';") =
      .ok ⟨⟨"x", []⟩, none, [⟨"i", none, [⟨"i"⟩]⟩], [], [], [], []⟩ := by decide +kernel
  have hmessage : parse "syntax = 'a'; package p; message M \x7b\x7d" =
      .ok ⟨⟨"a", []⟩, some ⟨"p", []⟩, [], [],
        [.message ⟨"M", [], [], [], [], [], []⟩], [], []⟩ := by
    decide +kernel
  have hpackage : parse "syntax = 'a'; package p;" =
      .ok ⟨⟨"a", []⟩, some ⟨"p", []⟩, [], [], [], [], []⟩ := by decide +kernel
  have hpackage' : parse ("syntax = \"x\";\n" ++ " package q; // q") =
      .ok ⟨⟨"x", []⟩, some ⟨"q", [⟨"q"⟩]⟩, [], [], [], [], []⟩ := by decide +kernel
  refine ⟨⟨_, _, hmessage, himport, rfl, rfl, rfl, ?_⟩, ?_⟩
  · rw [(parse_append hmessage (by decide +kernel) himport).1 (.inr rfl)]
    exact if_neg (by decide +kernel)
  · obtain ⟨first, second, -, hfirst, -, hsecond, hparse⟩ :=
      (parse_append hpackage (by decide +kernel) hpackage').2 _ _ rfl rfl
    have hfirst' : packageStatements (lexemes (pieces "syntax = 'a'; package p;".toList)) =
        [(⟨"p", []⟩, ⟨14, 24⟩)] := by decide +kernel
    have hsecond' : packageStatements (lexemes (pieces ("syntax = \"x\";\n" ++
        " package q; // q").toList)) = [(⟨"q", [⟨"q"⟩]⟩, ⟨15, 25⟩)] := by decide +kernel
    obtain ⟨start, stop⟩ := second
    obtain rfl : first = ⟨14, 24⟩ := congrArg Prod.snd (List.singleton_inj.1 (hfirst ▸ hfirst'))
    have hshift := congrArg Prod.snd (List.singleton_inj.1 (hsecond ▸ hsecond'))
    simp only [Span.shift, Span.mk.injEq] at hshift
    obtain rfl : start = 1 := by omega
    obtain rfl : stop = 11 := by omega
    rw [hparse]
    exact if_neg (by decide +kernel)

end ProtoSchema
