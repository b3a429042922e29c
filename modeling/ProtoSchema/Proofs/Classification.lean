import ProtoSchema.Parse
import ProtoSchema.Proofs.Acceptance
import ProtoSchema.Proofs.Locality

/-
  What a file depends on. Whether a word was taken for a keyword or for an identifier has to do with
  the character before it, but the grammar looks at words by their spelling only. So sources with
  the same tokens, in which words count by their spelling, are the same file or are rejected for the
  same reason at the same token, however the tokens are laid out (`parse_sameText`).
-/

namespace ProtoSchema

/-! ## Lexemes with the same text -/

/-- Lexemes that differ in their places only: words with the same spelling, whatever they are taken
for, and other lexemes with the same token. -/
inductive Lexeme.SameText (a b : Lexeme) : Prop
  | word {v w : Word} (left : a.token = .word v) (right : b.token = .word w)
      (spelling : a.spelling = b.spelling)
  | other (noWord : ∀ w, a.token ≠ .word w) (token : a.token = b.token)

namespace Lexeme.SameText

variable {a b : Lexeme}

theorem symm (h : a.SameText b) : b.SameText a := by
  cases h with
  | word left right spelling => exact .word right left spelling.symm
  | other noWord token => exact .other (token ▸ noWord) token.symm

end Lexeme.SameText

/-- The value of a word does not depend on the character before it. -/
theorem Terminal.literal?_ofSpelling (before before' : Option Char) (spelling : List Char) :
    literal? (.word (Word.ofSpelling before spelling)) =
      literal? (.word (Word.ofSpelling before' spelling)) := by
  have hkeyword (k : Keyword) (before : Option Char) :
      literal? (.word (if k.follows before then .keyword k else .ident (String.ofList spelling))) =
        none := by
    split <;> rfl
  unfold Word.ofSpelling
  dsimp only
  split
  · rfl
  split
  · rfl
  split
  · rfl
  split
  · rw [hkeyword, hkeyword]
  · rfl

/-- Words of the same spelling contribute the same but for their places. -/
theorem Terminal.read?_sameText {t : Terminal} {a b : Lexeme} {v : t.Result} (h : a.SameText b)
    (ha : a.WellRead) (hb : b.WellRead) (hv : t.read? a = some v) :
    ∃ w, t.read? b = some w ∧ t.SameResult (fun _ _ => True) v w := by
  cases h with
  | other noWord token =>
    exact read?_similar ⟨token, fun w hw => absurd hw (noWord w)⟩ trivial hv
  | @word u w left right spelling =>
    obtain ⟨-, before, rfl⟩ := ha u left
    obtain ⟨-, before', rfl⟩ := hb w right
    cases t with
    | punct p => cases left.symm.trans (read?_punct.1 hv).1
    | integer => cases left.symm.trans (read?_integer.1 hv)
    | string => cases left.symm.trans (read?_string.1 hv)
    | keyword k =>
      obtain ⟨_, htoken, hk, -⟩ := read?_keyword.1 hv
      cases left.symm.trans htoken
      rw [isKeyword_ofSpelling, spelling, ← isKeyword_ofSpelling k before'] at hk
      exact ⟨b.span, read?_keyword.2 ⟨_, right, hk, rfl⟩, trivial⟩
    | word =>
      obtain ⟨_, -, hs⟩ := read?_word.1 hv
      exact ⟨v, read?_word.2 ⟨_, right, spelling ▸ hs⟩, rfl⟩
    | name =>
      obtain ⟨_, htoken, hn, hs⟩ := read?_name.1 hv
      cases left.symm.trans htoken
      rw [isName_ofSpelling, spelling, ← isName_ofSpelling before'] at hn
      exact ⟨v, read?_name.2 ⟨_, right, hn, spelling ▸ hs⟩, rfl⟩
    | literal =>
      have hliteral := read?_literal.1 hv
      rw [left, spelling, literal?_ofSpelling before before'] at hliteral
      exact ⟨v, read?_literal.2 (right ▸ hliteral), rfl⟩

theorem Lexeme.SameText.readAlike {a b : Lexeme} (h : a.SameText b) (ha : a.WellRead)
    (hb : b.WellRead) : a.ReadAlike (fun _ _ => True) b := by
  refine ⟨fun t v hv => t.read?_sameText h ha hb hv, fun t hread => ?_, fun hcomment => ?_⟩
  · obtain ⟨w, hw⟩ := Option.isSome_iff_exists.1 hread
    obtain ⟨v, hv, -⟩ := t.read?_sameText h.symm hb ha hw
    exact Option.isSome_iff_exists.2 ⟨v, hv⟩
  · cases h with
    | word left right =>
      rw [left, right] at hcomment
      rcases hcomment with h | h <;> cases h
    | other _ token => exact token

/-! ## Statements that are the same -/

namespace FileItem

variable {S : Span → Span → Prop} {items items' : List FileItem}

/-- What is not about packages is found in both. -/
theorem filterMap_same {α : Type} {f : FileItem → Option α}
    (hf : ∀ decl span, f (.package decl span) = none)
    (h : List.Forall₂ (Same S) items items') : items.filterMap f = items'.filterMap f := by
  induction h with
  | nil => rfl
  | cons hitem _ ih =>
    cases hitem with
    | package decl _ _ =>
      rw [List.filterMap_cons_none (hf _ _), List.filterMap_cons_none (hf _ _), ih]
    | other _ => rw [List.filterMap_cons, List.filterMap_cons, ih]

/-- The same packages are found in both, from places that are related to places that are. -/
theorem forall₂_packages {T : Span → Span → Prop}
    (hT : ∀ a b c d, S a b → S c d → T ⟨a.start, c.stop⟩ ⟨b.start, d.stop⟩)
    (h : List.Forall₂ (Same S) items items') :
    List.Forall₂ (fun a b => a.1 = b.1 ∧ T a.2 b.2) (items.filterMap package?)
      (items'.filterMap package?) := by
  induction h with
  | nil => exact .nil
  | cons hitem _ ih =>
    cases hitem with
    | package decl hfirst hlast => exact .cons ⟨rfl, hT _ _ _ _ hfirst hlast⟩ ih
    | other hnone =>
      rw [List.filterMap_cons_none hnone, List.filterMap_cons_none hnone]
      exact ih

end FileItem

/-! ## Files of lexemes with the same text -/

namespace File

/-- The same outcome of reading the lexemes `ls` and `ls'`: one file, the same expectations that are
missing at the same lexeme or at the end, or a second package. -/
inductive SameOutcome (ls ls' : List Lexeme) : Except Fault File → Except Fault File → Prop
  | file (f : File) : SameOutcome ls ls' (.ok f) (.ok f)
  | unexpectedToken {index : Nat} {l l' : Lexeme} (expected : List String)
      (left : ls[index]? = some l) (right : ls'[index]? = some l') :
      SameOutcome ls ls' (.error (.unexpectedToken expected l.spelling l.span))
        (.error (.unexpectedToken expected l'.spelling l'.span))
  | unexpectedEnd (expected : List String) (span span' : Span) :
      SameOutcome ls ls' (.error (.unexpectedEnd expected span))
        (.error (.unexpectedEnd expected span'))
  | duplicatePackage (first second first' second' : Span) :
      SameOutcome ls ls' (.error (.duplicatePackage first second))
        (.error (.duplicatePackage first' second'))

theorem SameOutcome.of_report {ls ls' : List Lexeme} (hlength : ls.length = ls'.length)
    (r : Report) (m n : Nat) :
    SameOutcome ls ls' (.error (r.fault ls m)) (.error (r.fault ls' n)) := by
  unfold Report.fault
  cases hl : ls[r.furthest]? with
  | none =>
    have hl' : ls'[r.furthest]? = none := by
      rw [List.getElem?_eq_none_iff] at hl ⊢
      omega
    rw [hl']
    exact .unexpectedEnd _ _ _
  | some l =>
    have hlt : r.furthest < ls'.length := by
      have := (List.getElem?_eq_some_iff.1 hl).1
      omega
    rw [List.getElem?_eq_getElem hlt]
    exact .unexpectedToken _ hl (List.getElem?_eq_getElem hlt)

theorem SameOutcome.of_items {S : Span → Span → Prop} {ls ls' : List Lexeme}
    {items items' : List FileItem} (h : List.Forall₂ (FileItem.Same S) items items')
    (version : SyntaxDecl) (comments : List Comment) :
    SameOutcome ls ls' (ofItems version items comments) (ofItems version items' comments) := by
  have hfile (package : Option Package) : withPackage version package items comments =
      withPackage version package items' comments := by
    rw [withPackage, FileItem.filterMap_same (fun _ _ => rfl) h,
      FileItem.filterMap_same (fun _ _ => rfl) h, FileItem.filterMap_same (fun _ _ => rfl) h,
      FileItem.filterMap_same (fun _ _ => rfl) h, withPackage]
  have hpackages := FileItem.forall₂_packages (T := fun _ _ => True) (fun _ _ _ _ _ _ => trivial) h
  unfold ofItems
  generalize items.filterMap FileItem.package? = found at hpackages
  generalize items'.filterMap FileItem.package? = found' at hpackages
  cases hpackages with
  | nil =>
    rw [hfile]
    exact .file _
  | @cons a b _ _ hfirst hothers =>
    cases hothers with
    | nil =>
      dsimp only
      rw [hfile, hfirst.1]
      exact .file _
    | cons _ _ => exact .duplicatePackage _ _ _ _

/-- Lexemes with the same text at every place make up the same file, or are rejected for the same
reason. -/
theorem ofLexemes_sameText {ls ls' : List Lexeme} (hw : ∀ l ∈ ls, l.WellRead)
    (hw' : ∀ l ∈ ls', l.WellRead) (h : List.Forall₂ Lexeme.SameText ls ls') (m n : Nat) :
    SameOutcome ls ls' (ofLexemes ls m) (ofLexemes ls' n) := by
  have hlength := h.length_eq
  have hls : List.Forall₂ (Lexeme.ReadAlike fun _ _ => True) ls ls' := by
    clear hlength
    induction h with
    | nil => exact .nil
    | cons hfirst _ ih =>
      rw [List.forall_mem_cons] at hw hw'
      exact .cons (hfirst.readAlike hw.1 hw'.1) (ih hw.2 hw'.2)
  have hfollows := (Production.alike_file []).run_follows hls .start
  unfold ofLexemes Production.matchAll
  cases hm : Production.file.run (.start ls) .start with
  | failed r =>
    rw [hm] at hfollows
    rw [hfollows.of_failed]
    exact .of_report hlength r m n
  | done v d r =>
    rw [hm] at hfollows
    obtain ⟨w, e, hm', ⟨_, hversion, hdecls, hcomments⟩, hindex⟩ := hfollows.of_done
    have hd := (show Cursor.Among ls d from Production.run_reaches _ hm).index_add_length
    have he := (show Cursor.Among ls' e from Production.run_reaches _ hm').index_add_length
    have hrest : e.rest.isEmpty = d.rest.isEmpty := by
      rw [Bool.eq_iff_iff, List.isEmpty_iff_length_eq_zero, List.isEmpty_iff_length_eq_zero]
      omega
    rw [hm']
    dsimp only
    rw [hrest]
    cases d.rest.isEmpty with
    | true =>
      obtain ⟨version, body⟩ := v
      obtain ⟨version', body'⟩ := w
      dsimp only at hversion hdecls hcomments ⊢
      rw [if_pos rfl, if_pos rfl, hversion]
      dsimp only
      rw [hcomments]
      exact .of_items hdecls _ _
    | false => exact .of_report hlength r m n

end File

/-! ## Sources with the same text -/

/-- What `parse` gives for a source whose lexemes have the given outcome. -/
def parsed (source : String) (outcome : Except Fault File) : Except Failure File :=
  if maxSourceSize < byteLength source.toList then
    .error (.ofFaults source.toList .sourceTooLarge [])
  else outcome.mapError fun fault => .ofFaults source.toList fault []

theorem parse_of_tokenize {source : String} {ls : List Lexeme}
    (h : tokenize source.toList = .ok ls) :
    parse source = parsed source (File.ofLexemes ls (byteLength source.toList)) ∧
      ls = lexemes (pieces source.toList) := by
  unfold tokenize at h
  cases hfaults : lexicalFaults (pieces source.toList) with
  | cons f fs => rw [hfaults] at h; cases h
  | nil =>
    rw [hfaults] at h
    cases h
    refine ⟨?_, rfl⟩
    unfold parse parsed
    dsimp only
    rw [hfaults]
    split
    · rfl
    · dsimp only
      cases File.ofLexemes (lexemes (pieces source.toList)) (byteLength source.toList) <;> rfl

theorem wellRead_of_tokenize {source : String} {ls : List Lexeme}
    (h : tokenize source.toList = .ok ls) : ∀ l ∈ ls, l.WellRead := by
  obtain ⟨-, rfl⟩ := parse_of_tokenize h
  exact fun _ => wellRead_of_mem_lexemes

/-- A source that is read has tokens, and they make up the file. -/
theorem tokenize_of_parse {source : String} {f : File} (h : parse source = .ok f) :
    ∃ ls, tokenize source.toList = .ok ls ∧
      File.ofLexemes ls (byteLength source.toList) = .ok f := by
  unfold parse at h
  dsimp only at h
  split at h
  · cases h
  · split at h
    · cases h
    · next hfaults =>
      split at h
      · next hfile =>
        cases h
        exact ⟨_, by rw [tokenize, hfaults], hfile⟩
      · cases h

/-- Sources whose tokens have the same text, one by one, have the same outcome: the same tree, or
the same expectations missing at the same token, or a second package in both. -/
theorem parse_sameText {s t : String} {ls ls' : List Lexeme} (hs : tokenize s.toList = .ok ls)
    (ht : tokenize t.toList = .ok ls') (h : List.Forall₂ Lexeme.SameText ls ls') :
    parse s = parsed s (File.ofLexemes ls (byteLength s.toList)) ∧
      parse t = parsed t (File.ofLexemes ls' (byteLength t.toList)) ∧
      File.SameOutcome ls ls' (File.ofLexemes ls (byteLength s.toList))
        (File.ofLexemes ls' (byteLength t.toList)) := by
  obtain ⟨hparse, rfl⟩ := parse_of_tokenize hs
  obtain ⟨hparse', rfl⟩ := parse_of_tokenize ht
  exact ⟨hparse, hparse', File.ofLexemes_sameText (fun _ => wellRead_of_mem_lexemes)
    (fun _ => wellRead_of_mem_lexemes) h _ _⟩

/-- A word that is taken for a keyword behind a blank and for an identifier behind a semicolon. -/
theorem parse_sameText_package : ∃ ls ls',
    tokenize "syntax = 'a'; package p;".toList = .ok ls ∧
      tokenize "syntax = 'a';package p;".toList = .ok ls' ∧
      ls[4]?.map Lexeme.token = some (.word (.keyword .packageKw)) ∧
      ls'[4]?.map Lexeme.token = some (.word (.ident "package")) ∧
      File.SameOutcome ls ls' (File.ofLexemes ls 24) (File.ofLexemes ls' 23) := by
  have hs : tokenize "syntax = 'a'; package p;".toList = .ok
      [⟨.word (.keyword .syntaxKw), "syntax", ⟨0, 6⟩⟩, ⟨.punct .equals, "=", ⟨7, 8⟩⟩,
        ⟨.string "a", "'a'", ⟨9, 12⟩⟩, ⟨.punct .semicolon, ";", ⟨12, 13⟩⟩,
        ⟨.word (.keyword .packageKw), "package", ⟨14, 21⟩⟩, ⟨.word (.ident "p"), "p", ⟨22, 23⟩⟩,
        ⟨.punct .semicolon, ";", ⟨23, 24⟩⟩] := by
    decide +kernel
  have ht : tokenize "syntax = 'a';package p;".toList = .ok
      [⟨.word (.keyword .syntaxKw), "syntax", ⟨0, 6⟩⟩, ⟨.punct .equals, "=", ⟨7, 8⟩⟩,
        ⟨.string "a", "'a'", ⟨9, 12⟩⟩, ⟨.punct .semicolon, ";", ⟨12, 13⟩⟩,
        ⟨.word (.ident "package"), "package", ⟨13, 20⟩⟩, ⟨.word (.ident "p"), "p", ⟨21, 22⟩⟩,
        ⟨.punct .semicolon, ";", ⟨22, 23⟩⟩] := by
    decide +kernel
  refine ⟨_, _, hs, ht, rfl, rfl, (parse_sameText hs ht ?_).2.2⟩
  refine .cons (.word rfl rfl rfl) (.cons (.other nofun rfl) (.cons (.other nofun rfl) ?_))
  refine .cons (.other nofun rfl) (.cons (.word rfl rfl rfl) (.cons (.word rfl rfl rfl) ?_))
  exact .cons (.other nofun rfl) .nil

end ProtoSchema
