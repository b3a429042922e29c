import ProtoSchema.Proofs.Derivation
import ProtoSchema.Proofs.Neighbours.Statements

/-
  Where package statements stand. Every statement of a file is matched at some place among its
  lexemes, and the span that comes with a package statement is that of its own lexemes, from the
  word `package` to the semicolon (`packageAt_of_mem_file`).
-/

namespace ProtoSchema

/-- A statement for the package `p` stands among the lexemes, from the word `package` to the
semicolon at the two ends of `span`. -/
def PackageAt (ls : List Lexeme) (p : Package) (span : Span) : Prop :=
  ∃ first words last, first :: (words ++ [last]) <:+: ls ∧
    (∃ w, first.token = .word w ∧ Terminal.isKeyword .packageKw w) ∧
    symbols words ∈ Phrase.name p.name ∧ last.token = .punct .semicolon ∧
    span = ⟨first.span.start, last.span.stop⟩

/-- The package statements of the file that the lexemes make up, with their places. -/
def packageStatements (ls : List Lexeme) : List (Package × Span) :=
  match Production.file.matchAll ls with
  | .ok (_, inner) => inner.decls.filterMap FileItem.package?
  | .error _ => []

theorem packageStatements_of_yield {ls : List Lexeme} {version : SyntaxDecl}
    {inner : Body FileItem} (h : Production.file.yield ls = some ((version, inner), [])) :
    packageStatements ls = inner.decls.filterMap FileItem.package? := by
  rw [packageStatements, Production.matchAll_eq_ok.2 h]

theorem PackageAt.of_infix {ls ms : List Lexeme} {p : Package} {span : Span}
    (h : PackageAt ls p span) (hpart : ls <:+: ms) : PackageAt ms p span := by
  obtain ⟨first, words, last, hls, hrest⟩ := h
  exact ⟨first, words, last, hls.trans hpart, hrest⟩

namespace Production

variable {α β : Type}

/-! ## Places of statements -/

theorem decl_of_yield_bodyItem {decl : Production α} {ls rest : List Lexeme} {v : α}
    (h : (bodyItem decl).yield ls = some (some (.decl v), rest)) :
    decl.yield ls = some (v, rest) := by
  rw [yield_bodyItem] at h
  cases hdecl : decl.yield ls with
  | some found =>
    rw [hdecl] at h
    cases h
    rfl
  | none =>
    rw [hdecl] at h
    dsimp only at h
    split at h
    · cases h
    · split at h <;> cases h

/-- Every declaration among the items of a body is matched at some place. -/
theorem exists_yield_of_mem_items {decl : Production α} {ls rest : List Lexeme}
    {items : List (BodyItem α)} {v : α} (h : (loop (bodyItem decl)).yield ls = some (items, rest))
    (hv : .decl v ∈ items) :
    ∃ there behind, there <:+ ls ∧ decl.yield there = some (v, behind) := by
  induction hn : ls.length using Nat.strongRecOn generalizing ls items with
  | ind n ih =>
    rw [yield_loop] at h
    obtain ⟨⟨item, between⟩, hitem, h⟩ := Option.bind_eq_some_iff.1 h
    cases item with
    | none => cases h; cases hv
    | some item =>
      dsimp only at h
      split at h
      · next hlt =>
        obtain ⟨⟨others, _⟩, hothers, heq⟩ := Option.map_eq_some_iff.1 h
        cases heq
        rcases List.mem_cons.1 hv with rfl | hv
        · exact ⟨ls, between, List.suffix_rfl, decl_of_yield_bodyItem hitem⟩
        · obtain ⟨there, behind, hthere, hyield⟩ := ih _ (hn ▸ hlt) hothers hv rfl
          exact ⟨there, behind, hthere.trans (suffix_of_yield hitem), hyield⟩
      · cases h
        cases hv

/-! ## Package statements -/

/-- A production for statements other than those for a package. -/
def NoPackage (p : Production FileItem) : Prop :=
  ∀ ls v rest, p.yield ls = some (v, rest) → v.package? = none

theorem NoPackage.giving (p : Production α) {f : α → FileItem} (hf : ∀ v, (f v).package? = none) :
    NoPackage (do return f (← p)) := by
  intro ls v rest h
  obtain ⟨a, between, -, hv⟩ := yield_bind_eq_some.1 h
  cases hv
  exact hf a

theorem NoPackage.orElse {p q : Production FileItem} (hp : p.NoPackage) (hq : q.NoPackage) :
    NoPackage (p <|> q) := by
  intro ls v rest h
  rw [yield_orElse] at h
  rcases Option.or_eq_some_iff.1 h with h | ⟨-, h⟩
  · exact hp ls v rest h
  · exact hq ls v rest h

theorem yield_packageDecl_of_fileItem {ls rest : List Lexeme} {p : Package} {span : Span}
    (h : fileItem.yield ls = some (.package p span, rest)) :
    packageDecl.yield ls = some (.package p span, rest) := by
  rw [fileItem, yield_orElse, yield_orElse] at h
  rcases Option.or_eq_some_iff.1 h with h | ⟨-, h⟩
  · cases NoPackage.giving importDecl (f := FileItem.imported) (fun _ => rfl) _ _ _ h
  rcases Option.or_eq_some_iff.1 h with h | ⟨-, h⟩
  · exact h
  · have hnone : (FileItem.package p span).package? = none := by
      refine NoPackage.orElse (.giving _ fun _ => rfl) (.orElse (.giving _ fun _ => rfl) ?_)
        ls _ rest h
      refine .orElse (.giving _ fun _ => rfl) (.orElse (.giving _ fun _ => rfl) ?_)
      exact .giving _ fun _ => rfl
    cases hnone

/-- The lexemes of a package statement, and the trailing comment behind them. -/
theorem parts_of_yield_packageDecl {ls rest : List Lexeme} {v : FileItem}
    (hw : ∀ l ∈ ls, l.WellRead) (h : packageDecl.yield ls = some (v, rest)) :
    ∃ cs first words last behind p found, (∀ c ∈ cs, c.token.isComment = true) ∧
      ls = cs ++ first :: (words ++ last :: behind) ∧ first.token.isComment = false ∧
      (∃ w, first.token = .word w ∧ Terminal.isKeyword .packageKw w) ∧
      symbols words ∈ Phrase.name p.name ∧ last.token = .punct .semicolon ∧
      trailing.yield behind = some (found, rest) ∧
      v = .package p ⟨first.span.start, last.span.stop⟩ := by
  obtain ⟨leading, ls₁, hleading, h⟩ := yield_bind_eq_some.1 h
  obtain ⟨first, ls₂, hfirst, h⟩ := yield_bind_eq_some.1 h
  obtain ⟨name, ls₃, hname, h⟩ := yield_bind_eq_some.1 h
  obtain ⟨last, ls₄, hlast, h⟩ := yield_bind_eq_some.1 h
  obtain ⟨found, ls₅, htrailing, h⟩ := yield_bind_eq_some.1 h
  cases h
  obtain ⟨bs, hbs, rfl⟩ := comments_of_yield_comments hleading
  obtain ⟨cs, l, hcs, rfl, hcomment, hread⟩ := yield_takeOr_eq_some.1 hfirst
  obtain ⟨w, hl, hk, rfl⟩ := Terminal.read?_keyword.1 hread
  obtain ⟨es, m, hes, rfl, hm, rfl⟩ := yield_punct_eq_some.1 hlast
  obtain ⟨d, r, hrun, hd⟩ := Reply.yield_eq_some.1 hname
  obtain ⟨words, hwords, hsymbols⟩ := spells_fullIdent _ Nonterminal.matches_spells _ _ _ _ _ hrun
    fun k (hk : k ∈ ls₂) => hw k (by simp [hk])
  obtain rfl : ls₂ = words ++ (es ++ m :: ls₄) := hd ▸ hwords
  refine ⟨bs ++ cs, l, words ++ es, m, ls₄, ⟨name, leading ++ found.toList⟩, found,
    List.forall_mem_append.2 ⟨hbs, hcs⟩, by simp, hcomment, ⟨w, hl, hk⟩, ?_, hm, htrailing, rfl⟩
  rw [symbols_append, symbols_comments hes, List.append_nil]
  exact hsymbols [] Language.nil_mem_one

theorem packageAt_of_yield {ls rest : List Lexeme} {p : Package} {span : Span}
    (hw : ∀ l ∈ ls, l.WellRead) (h : packageDecl.yield ls = some (.package p span, rest)) :
    PackageAt ls p span := by
  obtain ⟨cs, first, words, last, behind, q, found, -, rfl, -, hfirst, hname, hlast, -, heq⟩ :=
    parts_of_yield_packageDecl hw h
  cases heq
  exact ⟨first, words, last, ⟨cs, behind, by simp⟩, hfirst, hname, hlast, rfl⟩

/-- The place of a package statement is that of its lexemes. -/
theorem packageAt_of_mem {ls rest : List Lexeme} (hw : ∀ l ∈ ls, l.WellRead)
    {items : List (BodyItem FileItem)}
    (h : (loop (bodyItem fileItem)).yield ls = some (items, rest)) {p : Package} {span : Span}
    (hp : (p, span) ∈ (items.filterMap BodyItem.decl?).filterMap FileItem.package?) :
    PackageAt ls p span := by
  obtain ⟨v, hv, hpackage⟩ := List.mem_filterMap.1 hp
  obtain ⟨item, hitem, hdecl⟩ := List.mem_filterMap.1 hv
  cases item with
  | decl w =>
    obtain rfl : w = v := Option.some.inj hdecl
    cases w with
    | package q span' =>
      cases hpackage
      obtain ⟨there, behind, hthere, hyield⟩ := exists_yield_of_mem_items h hitem
      have hat := packageAt_of_yield (fun l hl => hw l (hthere.subset hl))
        (yield_packageDecl_of_fileItem hyield)
      exact hat.of_infix hthere.isInfix
    | _ => cases hpackage
  | _ => cases hdecl

theorem packageAt_of_mem_file {ls rest : List Lexeme} (hw : ∀ l ∈ ls, l.WellRead)
    {version : SyntaxDecl} {inner : Body FileItem}
    (h : file.yield ls = some ((version, inner), rest)) {p : Package} {span : Span}
    (hp : (p, span) ∈ inner.decls.filterMap FileItem.package?) : PackageAt ls p span := by
  obtain ⟨_, between, hversion, h⟩ := yield_bind_eq_some.1 h
  obtain ⟨items, _, hitems, h⟩ := yield_bind_eq_some.1 h
  cases h
  have hsuffix := suffix_of_yield hversion
  have hat := packageAt_of_mem (fun l hl => hw l (hsuffix.subset hl)) hitems hp
  exact hat.of_infix hsuffix.isInfix

end Production

end ProtoSchema
