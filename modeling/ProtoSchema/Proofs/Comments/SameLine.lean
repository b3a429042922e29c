import ProtoSchema.Proofs.Comments.Closure
import ProtoSchema.Proofs.Comments.Placement
import ProtoSchema.Proofs.Comments.Trailing

/-
  Comments on the line of a declaration. A declaration takes the line comment that follows right
  after its last token on the same line (`parse_sameLine`), so such a comment never becomes one of
  the next declaration. It only looks right there: what stands behind a stray semicolon or behind
  another comment goes to the next declaration, even on the same line.
-/

namespace ProtoSchema

open Passage

/-! ## Lexemes that follow a declaration -/

theorem Lexeme.symbol?_punct {l : Lexeme} {p : Punct} :
    l.symbol? = some (.punct p) ↔ l.token = .punct p := by
  unfold symbol?
  cases l.token <;> simp

/-- What holds of two lexemes next to each other: if a declaration ends with the first one, this is
a mark, and a trailing comment behind it belongs to the line of the declaration. -/
def Marked.Follows (m n : Marked) : Prop :=
  m.role.endsDeclaration → (∃ p, m.lexeme.token = .punct p) ∧
    (n.lexeme.trailing?.isSome → n.role = .sameLine)

namespace Passage

/-- Lexemes in which declarations are followed by the comments of their lines. -/
def clinging : Passage := fun ms rest =>
  ∀ ns, unmarked ns = rest → ns.IsChain Marked.Follows → (ms ++ ns).IsChain Marked.Follows

theorem isChain_append {ms ns : List Marked} (hms : ∀ m ∈ ms, m.role.endsDeclaration = false)
    (hns : ns.IsChain Marked.Follows) : (ms ++ ns).IsChain Marked.Follows := by
  induction ms with
  | nil => exact hns
  | cons m ms ih =>
    refine (ih fun n hn => hms n (List.mem_cons_of_mem m hn)).cons fun n _ hm => ?_
    rw [hms m List.mem_cons_self] at hm
    cases hm

/-- Lexemes with which no declaration ends. -/
theorem marked_le_clinging : marked (·.endsDeclaration = false) ≤ clinging :=
  fun _ _ hms _ _ hchain => isChain_append hms hchain

theorem words_le_clinging {role : Role} (hrole : role.endsDeclaration = false) (P : Phrase) :
    words role P ≤ clinging :=
  (words_le_marked (·.endsDeclaration = false) rfl hrole P).trans marked_le_clinging

theorem mul_le_clinging {A B : Passage} (hA : A ≤ clinging) (hB : B ≤ clinging) :
    A * B ≤ clinging := by
  rintro _ rest ⟨xs, ys, rfl, hxs, hys⟩ ns hns hchain
  rw [List.append_assoc]
  exact hA xs _ hxs _ (by rw [unmarked_append, hns]) (hB ys rest hys ns hns hchain)

/-- The lexemes of a mark: comments that are not kept, and then its token. -/
theorem words_mark {role : Role} {p : Punct} {ms : List Marked} {rest : List Lexeme}
    (h : words role (Phrase.mark p) ms rest) :
    ∃ cs l, ms = markAll .inner cs ++ [⟨l, role⟩] ∧ l.token = .punct p := by
  obtain ⟨ls, rfl, hsymbols, hends⟩ := h
  have hsymbols : symbols ls = [.punct p] := hsymbols
  cases hlast : ls.getLast? with
  | none =>
    rw [List.getLast?_eq_none_iff.1 hlast] at hsymbols
    cases hsymbols
  | some l =>
    obtain ⟨cs, rfl⟩ := List.getLast?_eq_some_iff.1 hlast
    have hl : l.token.isComment = false := hends l hlast
    cases hsymbol : l.symbol? with
    | none => rw [Lexeme.symbol?_eq_none.1 hsymbol] at hl; cases hl
    | some s =>
      rw [symbols_append, show symbols [l] = [s] by simp [symbols, hsymbol]] at hsymbols
      have hcs : symbols cs = [] := by
        have hlength := congrArg List.length hsymbols
        rw [List.length_append] at hlength
        exact List.eq_nil_of_length_eq_zero (by simpa using hlength)
      have hcomments (c : Lexeme) (hc : c ∈ cs) : c.token.isComment = true :=
        Lexeme.symbol?_eq_none.1 (List.filterMap_eq_nil_iff.1 hcs c hc)
      refine ⟨cs, l, ?_, ?_⟩
      · rw [markFirst_of_comments role hcomments, markFirst_of_token role hl]
        rfl
      · have hs : s = .punct p := by simpa [hcs] using hsymbols
        exact Lexeme.symbol?_punct.1 (hs ▸ hsymbol)

/-- The token that ends a declaration, and then the comment that ends its line. -/
theorem ending_le_clinging (role : Role) (p : Punct) (last : Option Comment) :
    words role (Phrase.mark p) * sameLine last ≤ clinging := by
  rintro _ rest ⟨xs, ys, rfl, hxs, hys⟩ ns rfl hchain
  obtain ⟨cs, l, rfl, hl⟩ := words_mark hxs
  have hmarked := sameLine_le_marked (·.endsDeclaration = false) rfl last ys _ hys
  have htail : (ys ++ ns).IsChain Marked.Follows := isChain_append hmarked hchain
  rw [List.append_assoc, List.append_assoc]
  refine isChain_append (fun m hm => by rw [role_of_mem_markAll hm]; rfl) (htail.cons ?_)
  refine fun n hn _ => ⟨⟨p, hl⟩, fun htrailing => ?_⟩
  cases last with
  | none =>
    obtain ⟨rfl, hnone⟩ := hys
    have hhead : ns.head? = some n := hn
    rw [hnone n.lexeme (by rw [unmarked, List.head?_map, hhead]; rfl)] at htrailing
    cases htrailing
  | some c =>
    obtain ⟨l', rfl, -⟩ := hys
    cases hn
    rfl

theorem closed_clinging : clinging.Closed where
  alone ms rest hms := marked_le_clinging ms rest fun m hm =>
    Role.endsDeclaration_of_standsAlone (hms m hm)
  mul := mul_le_clinging le_rfl le_rfl
  ending _ := ending_le_clinging _
  entry _ _ _ _ hvalues := mul_le_clinging (words_le_clinging rfl _) hvalues
  options _ _ hsettings := mul_le_clinging (words_le_clinging rfl _) hsettings

/-! ## The ends of definitions -/

theorem Items.exists_of_mem {α : Type} {empty : Phrase} {item : α → Passage} {values : List α}
    {loose : List Comment} {ms : List Marked} {rest : List Lexeme}
    (h : Items empty item values loose ms rest) {v : α} (hv : v ∈ values) :
    ∃ ns others, ns ⊆ ms ∧ item v ns others := by
  induction h with
  | done last => cases hv
  | stray first next ih =>
    obtain ⟨ns, others, hns, hitem⟩ := ih hv
    exact ⟨ns, others, List.subset_append_of_subset_right _ hns, hitem⟩
  | @item _ _ _ xs ys _ first next ih =>
    rcases List.mem_cons.1 hv with rfl | hv
    · exact ⟨xs, _, List.subset_append_left xs ys, first⟩
    · obtain ⟨ns, others, hns, hitem⟩ := ih hv
      exact ⟨ns, others, List.subset_append_of_subset_right _ hns, hitem⟩

/-- A declaration with a body ends with the closing brace. -/
theorem exists_bodyEnd_of_block {α : Type} {comments : List Comment} {head : Phrase}
    {item : α → Passage} {values : List α} {ms : List Marked} {rest : List Lexeme}
    (h : block comments head item values ms rest) :
    ∃ m ∈ ms, m.role = .bodyEnd ∧ m.lexeme.token = .punct .rightBrace := by
  obtain ⟨_, _, _, -, _, _, rfl, ⟨_, _, rfl, -, _, _, rfl, -, hbraces⟩, -⟩ := h
  obtain ⟨_, _, -, _, zs, rfl, -, hclosing⟩ := hbraces
  obtain ⟨cs, l, rfl, hl⟩ := words_mark hclosing
  exact ⟨⟨l, .bodyEnd⟩, by simp, rfl, hl⟩

end Passage

theorem Definition.exists_bodyEnd {d : Definition} {ms : List Marked} {rest : List Lexeme}
    (h : d.layout ms rest) :
    ∃ m ∈ ms, m.role = .bodyEnd ∧ m.lexeme.token = .punct .rightBrace := by
  cases d with
  | message decl =>
    obtain ⟨depth, h⟩ := h
    cases depth with
    | zero => cases h
    | succ depth =>
      obtain ⟨items, -, h⟩ := h
      exact exists_bodyEnd_of_block h
  | enum decl => exact exists_bodyEnd_of_block h
  | service decl =>
    obtain ⟨items, -, -, h⟩ := h
    exact exists_bodyEnd_of_block h

/-- Each definition of a file ends with a closing brace. -/
theorem File.exists_bodyEnd {f : File} {ms : List Marked} {rest : List Lexeme}
    (h : f.layout ms rest) {d : Definition} (hd : d ∈ f.definitions) :
    ∃ m ∈ ms, m.role = .bodyEnd ∧ m.lexeme.token = .punct .rightBrace := by
  obtain ⟨statements, hsorts, xs, ys, rfl, -, hitems⟩ := h
  rw [hsorts.definitions] at hd
  obtain ⟨i, hi, hdefinition⟩ := List.mem_filterMap.1 hd
  cases i <;> cases hdefinition
  obtain ⟨ns, others, hns, hlayout⟩ := hitems.exists_of_mem hi
  obtain ⟨m, hm, hrole, hbrace⟩ := Definition.exists_bodyEnd hlayout
  exact ⟨m, List.mem_append_right xs (hns hm), hrole, hbrace⟩

/-! ## The comment on the line of a declaration -/

/-- In a source that is read, a line comment right behind the last token of a declaration and on the
same line belongs to that line: it is one of the comments of the declaration, and not one of those
of the next one. -/
theorem parse_sameLine {source : String} {f : File} (h : parse source = .ok f) :
    ∃ ms, tokenize source.toList = .ok (unmarked ms) ∧ f.layout ms [] ∧
      ∀ before m n after text trailing, ms = before ++ m :: n :: after →
        m.role.endsDeclaration → n.lexeme.token = .lineComment text trailing →
        (Text.Position.ofOffset source.toList m.lexeme.span.stop).line =
          (Text.Position.ofOffset source.toList n.lexeme.span.start).line →
        n.role = .sameLine := by
  obtain ⟨ms, hms, hlayout⟩ := parse_layout h
  refine ⟨ms, hms, hlayout, ?_⟩
  rintro before m n after text trailing rfl hm hn hline
  have hchain := closed_clinging.file f _ [] hlayout [] rfl .nil
  rw [List.append_nil] at hchain
  obtain ⟨⟨p, hp⟩, hfollows⟩ :=
    (List.isChain_cons_cons.1 hchain.right_of_append).1 hm
  have hlexemes : lexemes (pieces source.toList) = unmarked (before ++ m :: n :: after) := by
    unfold tokenize at hms
    split at hms
    · exact Except.ok.inj hms
    · cases hms
  rw [unmarked_append, unmarked_cons, unmarked_cons] at hlexemes
  have htrailing := trailing_of_line_eq hlexemes hp hn hline
  refine hfollows ?_
  rw [Lexeme.trailing?, hn, htrailing]
  rfl

/-- A message with a comment on the line of its brace, which is the comment of that line, and then
one on the next line, which belongs to the import behind it. -/
theorem parse_sameLine_message : ∃ source a i before m n after, parse source =
      .ok ⟨⟨"proto3", []⟩, none, [i], [], [.message a], [], []⟩ ∧
    a.comments = [⟨"c"⟩] ∧ i.comments = [⟨"d"⟩] ∧
    tokenize source.toList = .ok (unmarked (before ++ m :: n :: after)) ∧
    m.lexeme.token = .punct .rightBrace ∧ m.role = .bodyEnd ∧
    n.lexeme.token = .lineComment "c" true ∧ n.role = .sameLine := by
  let source := "syntax = 'proto3'; message A \x7b\x7d // c\n// d\nimport 'b';"
  have hfile : parse source = .ok ⟨⟨"proto3", []⟩, none, [⟨"b", none, [⟨"d"⟩]⟩], [],
      [.message ⟨"A", [], [], [], [], [], [⟨"c"⟩]⟩], [], []⟩ := by
    decide +kernel
  obtain ⟨ms, hms, hlayout, hsameLine⟩ := parse_sameLine hfile
  let ls := lexemes (pieces source.toList)
  let brace : Lexeme := ⟨.punct .rightBrace, "\x7d", ⟨30, 31⟩⟩
  let c : Lexeme := ⟨.lineComment "c" true, "// c", ⟨32, 36⟩⟩
  have hls : ls = ls.take 7 ++ brace :: c :: ls.drop 9 := by decide +kernel
  have hother : ∀ l ∈ ls.take 7 ++ c :: ls.drop 9, l.token ≠ .punct .rightBrace := by
    decide +kernel
  have htokens : tokenize source.toList = .ok ls := by decide +kernel
  -- The brace of the message is the only one in the source.
  obtain ⟨m, hm, hrole, hbrace⟩ := File.exists_bodyEnd hlayout (List.mem_singleton_self _)
  obtain ⟨before, tail, rfl⟩ := List.append_of_mem hm
  have hsplit : ls.take 7 ++ brace :: c :: ls.drop 9 =
      unmarked before ++ m.lexeme :: unmarked tail := by
    rw [← hls, ← unmarked_cons, ← unmarked_append]
    exact Except.ok.inj (htokens.symm.trans hms)
  have hnotMem : m.lexeme ∉ ls.take 7 ++ c :: ls.drop 9 := fun h => hother _ h hbrace
  rw [List.mem_append, not_or] at hnotMem
  obtain ⟨-, hlexeme, htail⟩ := (List.append_cons_inj_of_notMem hnotMem.1 hnotMem.2).1 hsplit
  obtain ⟨n, after, rfl, hn, -⟩ := List.map_eq_cons_iff.1 htail.symm
  have hcomment : n.lexeme.token = .lineComment "c" true := by rw [hn]
  have hline : (Text.Position.ofOffset source.toList m.lexeme.span.stop).line =
      (Text.Position.ofOffset source.toList n.lexeme.span.start).line := by
    rw [← hlexeme, hn]
    decide +kernel
  have hends : m.role.endsDeclaration = true := by rw [hrole]; rfl
  have hsame := hsameLine before m n after "c" true rfl hends hcomment hline
  exact ⟨source, _, _, before, m, n, after, hfile, rfl, rfl, hms, hbrace, hrole, hcomment, hsame⟩

/-- A comment on the line of a message and of the stray semicolon behind it becomes one of the next
message. -/
theorem parse_sameLine_behind_stray :
    parse "syntax = 'proto3'; message A \x7b\x7d; // c\nmessage B \x7b\x7d" =
      .ok ⟨⟨"proto3", []⟩, none, [], [], [.message ⟨"A", [], [], [], [], [], []⟩,
        .message ⟨"B", [], [], [], [], [], [⟨"c"⟩]⟩], [], []⟩ := by
  decide +kernel

end ProtoSchema
