import ProtoSchema.Proofs.Neighbours.Statements
import ProtoSchema.Proofs.Completeness.Options

/-
  Names of options. A name is written as segments with dots between them, some of them words and
  some of them extensions in parentheses. The parentheses are not part of the name, and neither are
  the dots at the start of any segment but the first (`optionName_written`).
-/

namespace ProtoSchema

/-! ## How the name of an option is written -/

/-- A segment of the name of an option: a word, or the name of an extension in parentheses, which
is absolute if a dot of its own stands before its words. -/
inductive OptionSegment where
  | word (w : String)
  | extension (absolute : Bool) (first : String) (others : List String)

namespace OptionSegment

/-- The words of a segment. -/
def words : OptionSegment → List String
  | word w => [w]
  | extension _ first others => first :: others

/-- Whether a segment starts with a dot of its own. -/
def absolute : OptionSegment → Bool
  | word _ => false
  | extension absolute _ _ => absolute

/-- How a segment is written. -/
def symbols : OptionSegment → List Symbol
  | word w => [.word w]
  | extension absolute first others =>
    .punct .leftParen :: ((if absolute then [.punct .dot] else []) ++
      (Symbol.dotted (first :: others) ++ [.punct .rightParen]))

/-- A segment without its parentheses. -/
def text (s : OptionSegment) : String :=
  (if s.absolute then "." else "") ++ String.intercalate "." s.words

end OptionSegment

/-- The segments of the name of an option. -/
structure OptionNotation where
  first : OptionSegment
  others : List OptionSegment
  isWord : ∀ s ∈ first :: others, ∀ w ∈ s.words, IsWord w

namespace OptionNotation

/-- The words of all segments. -/
def words (n : OptionNotation) : List String := (n.first :: n.others).flatMap OptionSegment.words

/-- Whether the name starts with a dot. -/
def absolute (n : OptionNotation) : Bool := n.first.absolute

/-- How the name is written: its segments with dots between them. -/
def symbols (n : OptionNotation) : List Symbol :=
  n.first.symbols ++ n.others.flatMap fun s => .punct .dot :: s.symbols

/-- The name: its words with dots between them, after one more dot if it is absolute. -/
def name (n : OptionNotation) : String :=
  (if n.absolute then "." else "") ++ String.intercalate "." n.words

end OptionNotation

/-- The lexemes are those of the symbols, with any comments before each of them. -/
inductive Writes : List Lexeme → List Symbol → Prop
  | nil : Writes [] []
  | cons {cs l ls x xs} (comments : ∀ c ∈ cs, c.token.isComment = true)
      (token : l.symbol? = some x) (others : Writes ls xs) : Writes (cs ++ l :: ls) (x :: xs)

theorem Writes.token {l : Lexeme} {ls : List Lexeme} {x : Symbol} {xs : List Symbol}
    (h : l.symbol? = some x) (others : Writes ls xs) : Writes (l :: ls) (x :: xs) :=
  @Writes.cons [] l ls x xs nofun h others

theorem Writes.comment {c : Lexeme} {ls : List Lexeme} {x : Symbol} {xs : List Symbol}
    (h : c.token.isComment = true) (others : Writes ls (x :: xs)) : Writes (c :: ls) (x :: xs) := by
  cases others with
  | cons comments token others =>
    exact .cons (List.forall_mem_cons.2 ⟨h, comments⟩) token others

theorem Writes.symbols_eq {ls : List Lexeme} {xs : List Symbol} (h : Writes ls xs) :
    symbols ls = xs := by
  induction h with
  | nil => rfl
  | cons comments token _ ih =>
    rw [symbols_append, symbols_comments comments, List.nil_append, symbols,
      List.filterMap_cons_some token]
    exact congrArg _ ih

theorem Writes.of_append {ls : List Lexeme} {xs ys : List Symbol} (h : Writes ls (xs ++ ys)) :
    ∃ as bs, ls = as ++ bs ∧ Writes as xs ∧ Writes bs ys := by
  induction xs generalizing ls with
  | nil => exact ⟨[], ls, rfl, .nil, h⟩
  | cons x xs ih =>
    cases h with
    | cons comments token others =>
      obtain ⟨as, bs, rfl, has, hbs⟩ := ih others
      exact ⟨_, bs, by rw [List.append_assoc, List.cons_append], .cons comments token has, hbs⟩

theorem Writes.ne_nil {ls : List Lexeme} {x : Symbol} {xs : List Symbol}
    (h : Writes ls (x :: xs)) : ls ≠ [] := by
  cases h
  simp

/-! ## Reading what is written -/

theorem Terminal.take?_of_comments (t : Terminal) {cs : List Lexeme}
    (h : ∀ c ∈ cs, c.token.isComment = true) (ls : List Lexeme) :
    t.take? (cs ++ ls) = t.take? ls := by
  induction cs with
  | nil => rfl
  | cons c cs ih =>
    obtain ⟨hc, hcs⟩ := List.forall_mem_cons.1 h
    rw [List.cons_append, t.take?_of_comment hc, ih hcs]

theorem Terminal.take?_of_symbol? (t : Terminal) {cs : List Lexeme} {l : Lexeme} {x : Symbol}
    (hcs : ∀ c ∈ cs, c.token.isComment = true) (hl : l.symbol? = some x) (ls : List Lexeme) :
    t.take? (cs ++ l :: ls) = (t.read? l).map (·, ls) := by
  rw [t.take?_of_comments hcs]
  refine t.take?_of_token ?_ ls
  rw [Bool.eq_false_iff, ne_eq, ← Lexeme.symbol?_eq_none, hl]
  exact nofun

theorem Terminal.read?_of_symbol? {l : Lexeme} {p : Punct} (h : l.symbol? = some (.punct p)) :
    (punct p).read? l = some l.span := by
  refine read?_punct.2 ⟨?_, rfl⟩
  rw [Lexeme.symbol?] at h
  split at h <;> cases h
  assumption

theorem Terminal.take?_punct {p : Punct} {cs : List Lexeme} {l : Lexeme}
    (hcs : ∀ c ∈ cs, c.token.isComment = true) (hl : l.symbol? = some (.punct p))
    (ls : List Lexeme) : (punct p).take? (cs ++ l :: ls) = some (l.span, ls) := by
  rw [take?_of_symbol? _ hcs hl, read?_of_symbol? hl]
  rfl

theorem Terminal.read?_word_of_symbol? {l : Lexeme} {w : String}
    (h : l.symbol? = some (.word w)) : word.read? l = some w := by
  rw [Lexeme.symbol?] at h
  split at h <;> cases h
  exact read?_word.2 ⟨_, by assumption, rfl⟩

/-- What is taken is read from the lexeme of the first symbol. -/
theorem Terminal.exists_of_take? {t : Terminal} {ls rest : List Lexeme} {v : t.Result}
    (h : t.take? ls = some (v, rest)) :
    ∃ l x, t.read? l = some v ∧ l.symbol? = some x ∧ (symbols ls).head? = some x := by
  obtain ⟨cs, l, hcs, rfl, hl, hread⟩ := take?_eq_some.1 h
  obtain ⟨x, hx⟩ : ∃ x, l.symbol? = some x := by
    rw [← Option.isSome_iff_exists, Option.isSome_iff_ne_none, ne_eq, Lexeme.symbol?_eq_none, hl]
    exact Bool.false_ne_true
  refine ⟨l, x, hread, hx, ?_⟩
  rw [symbols_append, symbols_comments hcs, List.nil_append, symbols, List.filterMap_cons_some hx]
  rfl

/-- A mark stands next only if it is the first of the symbols. -/
theorem Terminal.take?_punct_eq_none {p : Punct} {ls : List Lexeme}
    (h : (punct p).fitsFirst (symbols ls) = false) : (punct p).take? ls = none := by
  rw [Option.eq_none_iff_forall_ne_some]
  rintro ⟨v, rest⟩ htake
  obtain ⟨l, x, hread, hx, hhead⟩ := exists_of_take? htake
  obtain ⟨xs, hxs⟩ := List.head?_eq_some_iff.1 hhead
  rw [Lexeme.symbol?, (read?_punct.1 hread).1] at hx
  cases hx
  rw [hxs] at h
  exact absurd h (by simp [fitsFirst, fits])

namespace Production

variable {α β : Type} {xs ys zs : List Symbol}

/-- Where the production stands before lexemes that write `xs`, and the symbols behind these are
`zs`, it passes exactly these lexemes and gives `v`. -/
def Covers (p : Production α) (xs zs : List Symbol) (v : α) : Prop :=
  ∀ ls rest, Writes ls xs → symbols rest = zs → p.yield (ls ++ rest) = some (v, rest)

theorem Covers.pure (v : α) : Covers (Pure.pure v) [] zs v := by
  rintro ls rest hls -
  cases hls
  rfl

theorem Covers.then {p : Production α} {k : α → Production β} {a : α} {b : β}
    (hp : Covers p xs (ys ++ zs) a) (hk : Covers (k a) ys zs b) :
    Covers (p >>= k) (xs ++ ys) zs b := by
  intro ls rest hls hrest
  obtain ⟨as, bs, rfl, has, hbs⟩ := hls.of_append
  have hbetween : symbols (bs ++ rest) = ys ++ zs := by
    rw [symbols_append, hbs.symbols_eq, hrest]
  rw [yield_bind, List.append_assoc, hp as (bs ++ rest) has hbetween]
  exact hk bs rest hbs hrest

/-- What a production gives is made into something else. -/
theorem Covers.giving {p : Production α} {a : α} (h : Covers p xs zs a) (f : α → β) :
    Covers (do return f (← p)) xs zs (f a) := by
  intro ls rest hls hrest
  rw [yield_bind, h ls rest hls hrest]
  rfl

/-- The next lexeme is taken if every lexeme with its symbol belongs to the class. -/
theorem covers_takeOr {t : Terminal} {x : Symbol} {v : t.Result} (e : Expectation)
    (h : ∀ l : Lexeme, l.symbol? = some x → t.read? l = some v) :
    Covers (takeOr t e) [x] zs v := by
  rintro ls rest hls -
  cases hls with
  | @cons cs l _ _ _ comments token others =>
    cases others
    rw [yield_takeOr, List.append_assoc, List.cons_append,
      Terminal.take?_of_symbol? t comments token, h l token]
    rfl

theorem covers_word (e : Expectation) (w : String) : Covers (takeOr .word e) [.word w] zs w :=
  covers_takeOr e fun _ => Terminal.read?_word_of_symbol?

theorem yield_punct_written {p : Punct} {cs : List Lexeme} {l : Lexeme}
    (hcs : ∀ c ∈ cs, c.token.isComment = true) (hl : l.symbol? = some (.punct p))
    (ls : List Lexeme) : (punct p).yield (cs ++ l :: ls) = some (l.span, ls) :=
  (yield_takeOr _ _ _).trans (Terminal.take?_punct hcs hl ls)

theorem Covers.afterPunct {p : Punct} {q : Production α} {v : α} (h : Covers q xs zs v) :
    Covers (punct p >>= fun _ => q) (.punct p :: xs) zs v := by
  intro ls rest hls hrest
  cases hls with
  | @cons cs l us _ _ comments token others =>
    rw [yield_bind, List.append_assoc, List.cons_append, yield_punct_written comments token]
    exact h us rest others hrest

theorem yield_skip_of_some {t : Terminal} {ls rest : List Lexeme} {v : t.Result}
    (h : t.take? ls = some (v, rest)) : (skip t).yield ls = some (true, rest) := by
  rw [skip, yield_bind, yield_take, h]
  rfl

theorem yield_skip_of_none {t : Terminal} {ls : List Lexeme} (h : t.take? ls = none) :
    (skip t).yield ls = some (false, ls) := by
  rw [skip, yield_bind, yield_take, h]
  rfl

theorem Covers.afterSkip {p : Punct} {k : Bool → Production α} {v : α}
    (h : Covers (k true) xs zs v) :
    Covers (skip (.punct p) >>= k) (.punct p :: xs) zs v := by
  intro ls rest hls hrest
  cases hls with
  | @cons cs l us _ _ comments token others =>
    rw [yield_bind, List.append_assoc, List.cons_append,
      yield_skip_of_some (Terminal.take?_punct comments token _)]
    exact h us rest others hrest

/-- A mark that does not stand next is not passed. -/
theorem Covers.withoutSkip {p : Punct} {k : Bool → Production α} {v : α}
    (h : Covers (k false) xs zs v)
    (hnext : (Terminal.punct p).fitsFirst (xs ++ zs) = false) :
    Covers (skip (.punct p) >>= k) xs zs v := by
  intro ls rest hls hrest
  have hnone : (Terminal.punct p).take? (ls ++ rest) = none := by
    refine Terminal.take?_punct_eq_none ?_
    rwa [symbols_append, hls.symbols_eq, hrest]
  rw [yield_bind, yield_skip_of_none hnone]
  exact h ls rest hls hrest

/-- A loop covers what its steps cover, and ends where one more step gives nothing. -/
theorem Covers.loop {γ : Type} {step : Production (Option α)} {write : γ → List Symbol}
    {value : γ → α} (items : List γ)
    (hstep : ∀ i ∈ items, ∀ zs, Covers step (write i) zs (some (value i)))
    (hne : ∀ i ∈ items, write i ≠ []) (hend : Covers step [] zs none) :
    Covers (Production.loop step) (items.flatMap write) zs (items.map value) := by
  induction items with
  | nil =>
    intro ls rest hls hrest
    rw [yield_loop, hend ls rest hls hrest]
    rfl
  | cons i items ih =>
    obtain ⟨hi, hitems⟩ := List.forall_mem_cons.1 hstep
    obtain ⟨hine, hitemsne⟩ := List.forall_mem_cons.1 hne
    intro ls rest hls hrest
    rw [List.flatMap_cons] at hls
    obtain ⟨as, bs, rfl, has, hbs⟩ := hls.of_append
    have hshorter : (bs ++ rest).length < (as ++ (bs ++ rest)).length := by
      obtain ⟨x, xs, hwrite⟩ := List.exists_cons_of_ne_nil hine
      have hpos := List.length_pos_of_ne_nil (hwrite ▸ has).ne_nil
      simp only [List.length_append]
      omega
    rw [yield_loop, List.append_assoc, hi _ as (bs ++ rest) has rfl]
    dsimp only [Option.bind_some]
    rw [if_pos hshorter, ih hitems hitemsne bs rest hbs hrest]
    rfl

/-! ## Names -/

theorem covers_fullIdent (first : String) (others : List String)
    (h : (Terminal.punct .dot).fitsFirst zs = false) :
    Covers fullIdent (Symbol.dotted (first :: others)) zs
      (String.intercalate "." (first :: others)) := by
  refine Covers.giving (p := separated (.punct .dot) ident) (a := first :: others) ?_ _
  refine (covers_word _ first).then (Covers.giving ?_ _)
  have hstep (w : String) (us : List Symbol) : Covers
      (do if ← skip (.punct .dot) then return some (← ident) else return none)
      [.punct .dot, .word w] us (some w) := .afterSkip ((covers_word _ w).giving some)
  have hloop := Covers.loop others (fun w _ us => hstep w us) (fun _ _ => List.cons_ne_nil _ _)
    (.withoutSkip (.pure none) h)
  rwa [List.map_id'] at hloop

theorem covers_typeName (absolute : Bool) (first : String) (others : List String)
    (h : (Terminal.punct .dot).fitsFirst zs = false) :
    Covers typeName ((if absolute then [.punct .dot] else []) ++ Symbol.dotted (first :: others)) zs
      ((if absolute then "." else "") ++ String.intercalate "." (first :: others)) := by
  have hname := covers_fullIdent first others h
  cases absolute with
  | true => exact .afterSkip (hname.giving ("." ++ ·))
  | false =>
    refine .withoutSkip ?_ rfl
    simp only [Bool.false_eq_true, if_false, List.nil_append, String.empty_append]
    exact hname.giving fun name => name

/-- A segment of either kind gives its text, whatever stands behind it. -/
theorem covers_optionNamePart (s : OptionSegment) : Covers optionNamePart s.symbols zs s.text := by
  cases s with
  | word w =>
    rw [show (OptionSegment.word w).text = w by simp [OptionSegment.text, OptionSegment.words,
      OptionSegment.absolute]]
    exact .withoutSkip (covers_word _ w) rfl
  | extension absolute first others =>
    refine .afterSkip ?_
    rw [← List.append_assoc]
    exact (covers_typeName absolute first others rfl).then (.afterPunct (.pure _))

end Production

/-! ## The text of a name -/

theorem intercalate_flatten {ls : List (List String)} (h : ∀ l ∈ ls, l ≠ []) :
    String.intercalate "." (ls.map (String.intercalate ".")) =
      String.intercalate "." ls.flatten := by
  induction ls with
  | nil => rfl
  | cons l ls ih =>
    obtain ⟨hl, hls⟩ := List.forall_mem_cons.1 h
    cases ls with
    | nil => simp
    | cons m ls =>
      have hm : (m :: ls).flatten ≠ [] := by
        rw [List.flatten_cons]
        exact List.append_ne_nil_of_left_ne_nil (hls m List.mem_cons_self) _
      rw [List.map_cons, String.intercalate_cons_of_ne_nil (by simp), ih hls,
        List.flatten_cons (L := m :: ls), String.intercalate_append_of_ne_nil hl hm]

theorem nameParts_intercalate {ws : List String} (hne : ws ≠ []) (h : ∀ w ∈ ws, IsWord w) :
    nameParts (String.intercalate "." ws) = ws := by
  have hdots : ∀ l ∈ ws.map String.toList, '.' ∉ l := List.forall_mem_map.2 fun w hw =>
    (h w hw).dot_notMem
  rw [nameParts, String.toList_intercalate]
  refine (congrArg _ (List.splitOn_intercalate '.' hdots (by simpa using hne))).trans ?_
  simp [Function.comp_def]

/-- A text without parentheses that has no dot at either end and no two dots next to each other. -/
structure Dotted (text : List Char) : Prop where
  ne_nil : text ≠ []
  head : text.head? ≠ some '.'
  last : text.getLast? ≠ some '.'
  apart : text.IsChain fun c d => ¬(c = '.' ∧ d = '.')
  parens : ∀ c ∈ text, c ≠ '(' ∧ c ≠ ')'

theorem IsWord.dotted {w : String} (h : IsWord w) : Dotted w.toList := by
  have hdot := h.dot_notMem
  refine ⟨?_, h.head?_ne_dot, fun hlast => hdot (List.mem_of_getLast? hlast), ?_, ?_⟩
  · obtain ⟨c, cs, hw, -⟩ := h
    rw [hw]
    exact List.cons_ne_nil _ _
  · refine List.isChain_iff_forall_rel_of_append_cons_cons.2 ?_
    rintro c d before rest hw ⟨rfl, -⟩
    exact hdot (by rw [hw]; simp)
  · obtain ⟨c, cs, hw, hc, hcs⟩ := h
    have hword : ∀ d ∈ w.toList, isWordStart d ∨ isWordChar d := by
      rw [hw]
      exact List.forall_mem_cons.2 ⟨.inl hc, fun d hd => .inr (hcs d hd)⟩
    refine fun d hd => ⟨?_, ?_⟩
    · rintro rfl
      exact absurd (hword _ hd) (by decide)
    · rintro rfl
      exact absurd (hword _ hd) (by decide)

theorem Dotted.append {a b : List Char} (ha : Dotted a) (hb : Dotted b) :
    Dotted (a ++ '.' :: b) := by
  refine ⟨List.append_ne_nil_of_left_ne_nil ha.ne_nil _, ?_, ?_, ?_, ?_⟩
  · rw [List.head?_append_of_ne_nil _ ha.ne_nil]
    exact ha.head
  · rw [List.getLast?_append_of_ne_nil _ (List.cons_ne_nil _ _),
      List.getLast?_cons_of_ne_nil hb.ne_nil]
    exact hb.last
  · refine List.isChain_append.2 ⟨ha.apart, List.isChain_cons.2 ⟨?_, hb.apart⟩, ?_⟩
    · rintro d hd ⟨-, rfl⟩
      exact hb.head hd
    · rintro c hc d - ⟨rfl, -⟩
      exact ha.last hc
  · refine List.forall_mem_append.2 ⟨ha.parens, List.forall_mem_cons.2 ⟨by decide, hb.parens⟩⟩

theorem dotted_intercalate {ws : List String} (hne : ws ≠ []) (h : ∀ w ∈ ws, IsWord w) :
    Dotted (String.intercalate "." ws).toList := by
  induction ws with
  | nil => exact absurd rfl hne
  | cons w ws ih =>
    obtain ⟨hw, hws⟩ := List.forall_mem_cons.1 h
    cases ws with
    | nil => simpa using hw.dotted
    | cons v ws =>
      rw [toList_intercalate_cons_cons]
      exact hw.dotted.append (ih (List.cons_ne_nil _ _) hws)

theorem not_infix_of_apart {text : List Char}
    (h : text.IsChain fun c d => ¬(c = '.' ∧ d = '.')) : ¬['.', '.'] <:+: text := by
  rintro ⟨before, rest, rfl⟩
  rw [List.append_assoc] at h
  exact List.isChain_iff_forall_rel_of_append_cons_cons.1 h rfl ⟨rfl, rfl⟩

namespace OptionSegment

theorem words_ne_nil (s : OptionSegment) : s.words ≠ [] := by
  cases s <;> exact List.cons_ne_nil _ _

/-- Behind a dot, the dot that a segment starts with is not kept. -/
theorem withoutLeadingDots_text {s : OptionSegment} (h : ∀ w ∈ s.words, IsWord w) :
    Production.withoutLeadingDots s.text = String.intercalate "." s.words := by
  have hdotted := dotted_intercalate s.words_ne_nil h
  cases habsolute : s.absolute with
  | false =>
    rw [text, habsolute, if_neg Bool.false_ne_true, String.empty_append]
    exact Production.withoutLeadingDots_of_head? hdotted.head
  | true =>
    rw [← Production.withoutLeadingDots_of_head? hdotted.head]
    simp [text, habsolute, Production.withoutLeadingDots]

end OptionSegment

namespace OptionNotation

theorem words_ne_nil (n : OptionNotation) : n.words ≠ [] := by
  rw [words, List.flatMap_cons]
  exact List.append_ne_nil_of_left_ne_nil n.first.words_ne_nil _

theorem isWord_words (n : OptionNotation) : ∀ w ∈ n.words, IsWord w := by
  intro w hw
  obtain ⟨s, hs, hw⟩ := List.mem_flatMap.1 hw
  exact n.isWord s hs w hw

/-- The texts of the segments make up the name. -/
theorem intercalate_texts (n : OptionNotation) : String.intercalate "." (n.first.text ::
    n.others.map fun s => String.intercalate "." s.words) = n.name := by
  have hwords : ∀ ws ∈ (n.first :: n.others).map OptionSegment.words, ws ≠ [] :=
    List.forall_mem_map.2 fun s _ => s.words_ne_nil
  have hflatten := intercalate_flatten hwords
  rw [List.map_map, List.map_cons] at hflatten
  rw [name, words, List.flatMap_def, ← hflatten, absolute, OptionSegment.text,
    String.intercalate_cons_append]
  rfl

theorem toList_name (n : OptionNotation) : n.name.toList =
    (if n.absolute then ['.'] else []) ++ (String.intercalate "." n.words).toList := by
  rw [name, String.toList_append]
  cases n.absolute <;> rfl

theorem dotted_words (n : OptionNotation) : Dotted (String.intercalate "." n.words).toList :=
  dotted_intercalate n.words_ne_nil n.isWord_words

theorem head?_name (n : OptionNotation) :
    n.name.toList.head? = some '.' ↔ n.absolute = true := by
  rw [toList_name]
  cases n.absolute with
  | true => exact iff_of_true rfl rfl
  | false => exact iff_of_false n.dotted_words.head Bool.false_ne_true

theorem getLast?_name (n : OptionNotation) : n.name.toList.getLast? ≠ some '.' := by
  rw [toList_name, List.getLast?_append_of_ne_nil _ n.dotted_words.ne_nil]
  exact n.dotted_words.last

theorem not_adjacent_name (n : OptionNotation) : ¬['.', '.'] <:+: n.name.toList := by
  refine not_infix_of_apart ?_
  rw [toList_name]
  cases n.absolute with
  | false => exact n.dotted_words.apart
  | true =>
    refine List.isChain_cons.2 ⟨?_, n.dotted_words.apart⟩
    rintro d hd ⟨-, rfl⟩
    exact n.dotted_words.head hd

theorem parens_notMem_name (n : OptionNotation) :
    '(' ∉ n.name.toList ∧ ')' ∉ n.name.toList := by
  have hparens : ∀ c ∈ n.name.toList, c ≠ '(' ∧ c ≠ ')' := by
    rw [toList_name]
    refine List.forall_mem_append.2 ⟨?_, n.dotted_words.parens⟩
    cases n.absolute <;> simp
  exact ⟨fun h => (hparens _ h).1 rfl, fun h => (hparens _ h).2 rfl⟩

/-- Two notations give the same name only if they have the same words and start alike. -/
theorem name_inj {m n : OptionNotation} :
    m.name = n.name ↔ m.words = n.words ∧ m.absolute = n.absolute := by
  refine ⟨fun h => ?_, fun ⟨hwords, habsolute⟩ => by simp only [name, hwords, habsolute]⟩
  have habsolute : m.absolute = n.absolute := by
    rw [Bool.eq_iff_iff, ← head?_name, h, head?_name]
  have htext : String.intercalate "." m.words = String.intercalate "." n.words := by
    rw [← String.toList_inj, toList_name, toList_name, habsolute] at h
    exact String.toList_inj.1 (List.append_cancel_left h)
  refine ⟨?_, habsolute⟩
  rw [← nameParts_intercalate m.words_ne_nil m.isWord_words, htext,
    nameParts_intercalate n.words_ne_nil n.isWord_words]

end OptionNotation

/-! ## The name of an option is read -/

namespace Production

theorem covers_optionName (n : OptionNotation) {zs : List Symbol}
    (h : (Terminal.punct .dot).fitsFirst zs = false) :
    Covers optionName n.symbols zs n.name := by
  have hstep (s : OptionSegment) (us : List Symbol) : Covers
      (do
        if ← skip (.punct .dot) then return some (withoutLeadingDots (← optionNamePart))
        else return none)
      (.punct .dot :: s.symbols) us (some (withoutLeadingDots s.text)) :=
    .afterSkip ((covers_optionNamePart s).giving (some <| withoutLeadingDots ·))
  have hothers := Covers.loop n.others (fun s _ us => hstep s us)
    (fun _ _ => List.cons_ne_nil _ _) (.withoutSkip (.pure none) h)
  have htexts : (n.others.map fun s => withoutLeadingDots s.text) =
      n.others.map fun s => String.intercalate "." s.words :=
    List.map_congr_left fun s hs =>
      s.withoutLeadingDots_text (n.isWord s (List.mem_cons_of_mem _ hs))
  rw [htexts] at hothers
  rw [← n.intercalate_texts]
  exact (covers_optionNamePart n.first).then (hothers.giving _)

variable {n : OptionNotation} {written rest : List Lexeme}

theorem yield_optionName_written (hwritten : Writes written n.symbols)
    (hrest : (symbols rest).head? = some (.punct .equals)) :
    optionName.yield (written ++ rest) = some (n.name, rest) := by
  refine covers_optionName n ?_ written rest hwritten rfl
  obtain ⟨xs, hxs⟩ := List.head?_eq_some_iff.1 hrest
  rw [hxs]
  rfl

/-- The name is read from exactly the lexemes that it is written with. -/
theorem run_optionName_written (hwritten : Writes written n.symbols)
    (hrest : (symbols rest).head? = some (.punct .equals)) (i : Nat) (r : Report) :
    ∃ r', optionName.run ⟨i, written ++ rest⟩ r = .done n.name ⟨i + written.length, rest⟩ r' := by
  have hyield := yield_run optionName ⟨i, written ++ rest⟩ r
  rw [yield_optionName_written hwritten hrest] at hyield
  obtain ⟨⟨j, rest'⟩, r', hm, rfl⟩ := Reply.yield_eq_some.1 hyield
  obtain ⟨passed, hpassed, hj⟩ := run_reaches optionName hm
  obtain rfl := List.append_cancel_right hpassed
  obtain rfl : j = i + written.length := hj
  exact ⟨r', hm⟩

/-- A statement in which the name stands behind the keyword is about the option of that name. -/
theorem name_of_optionDecl (hwritten : Writes written n.symbols)
    (hrest : (symbols rest).head? = some (.punct .equals)) {ls left : List Lexeme} {s : Span}
    (hkeyword : (Terminal.keyword .optionKw).take? ls = some (s, written ++ rest))
    {v : OptionDecl} (hv : optionDecl.yield ls = some (v, left)) : v.name = n.name := by
  obtain ⟨leading, between, hleading, hv⟩ := yield_bind_eq_some.1 hv
  obtain ⟨s', behind, hkeyword', hv⟩ := yield_bind_eq_some.1 hv
  obtain ⟨cs, hcs, rfl⟩ := comments_of_yield_comments hleading
  have htake : some (s', behind) = some (s, written ++ rest) := by
    rw [← hkeyword', ← hkeyword, Terminal.take?_of_comments _ hcs]
    exact yield_takeOr _ _ between
  cases htake
  rw [yield_bind, yield_optionName_written hwritten hrest] at hv
  obtain ⟨_, _, -, hv⟩ := yield_bind_eq_some.1 hv
  obtain ⟨value, _, -, hv⟩ := yield_bind_eq_some.1 hv
  obtain ⟨_, _, -, hv⟩ := yield_bind_eq_some.1 hv
  obtain ⟨ending, _, -, hv⟩ := yield_bind_eq_some.1 hv
  cases hv
  cases value <;> rfl

/-- One of the options in brackets has the name that stands at its start. -/
theorem name_of_fieldOption (hwritten : Writes written n.symbols)
    (hrest : (symbols rest).head? = some (.punct .equals)) {left : List Lexeme} {v : Setting}
    (hv : fieldOption.yield (written ++ rest) = some (v, left)) : v.name = n.name := by
  rw [fieldOption, yield_bind, yield_optionName_written hwritten hrest] at hv
  obtain ⟨_, _, -, hv⟩ := yield_bind_eq_some.1 hv
  obtain ⟨value, _, -, hv⟩ := yield_bind_eq_some.1 hv
  cases hv
  rfl

/-- The name of an option is read from its segments, whatever their parentheses and the comments
between them: the lexemes up to the equals sign give the words of all segments with dots between
them, after one more dot only if the first segment is absolute. This is the name of the option in a
statement and in brackets. It holds no parentheses, no two dots next to each other and no dot at
its end, and no other words give the same name. -/
theorem optionName_written (hwritten : Writes written n.symbols)
    (hrest : (symbols rest).head? = some (.punct .equals)) :
    (∀ i r, ∃ r', optionName.run ⟨i, written ++ rest⟩ r =
      .done n.name ⟨i + written.length, rest⟩ r') ∧
    (∀ c d s r v e r', c.take? (.keyword .optionKw) = some (s, d) → d.rest = written ++ rest →
      optionDecl.run c r = .done v e r' → v.name = n.name) ∧
    (∀ c r v e r', c.rest = written ++ rest →
      fieldOption.run c r = .done v e r' → v.name = n.name) ∧
    ¬['.', '.'] <:+: n.name.toList ∧ '(' ∉ n.name.toList ∧ ')' ∉ n.name.toList ∧
    n.name.toList.getLast? ≠ some '.' ∧ (n.name.toList.head? = some '.' ↔ n.absolute = true) ∧
    ∀ m : OptionNotation, m.name = n.name ↔ m.words = n.words ∧ m.absolute = n.absolute := by
  refine ⟨run_optionName_written hwritten hrest, ?_, ?_, n.not_adjacent_name,
    n.parens_notMem_name.1, n.parens_notMem_name.2, n.getLast?_name, n.head?_name,
    fun m => OptionNotation.name_inj⟩
  · intro c d s r v e r' htake hd hm
    refine name_of_optionDecl hwritten hrest (s := s) ?_ (yield_of_done hm)
    rw [← c.found_take?, htake, ← hd]
    rfl
  · intro c r v e r' hc hm
    have hv := yield_of_done hm
    rw [hc] at hv
    exact name_of_fieldOption hwritten hrest hv

theorem optionName_written_extension :
    ∃ (n : OptionNotation) (written rest : List Lexeme), Writes written n.symbols ∧
      (symbols rest).head? = some (.punct .equals) ∧
      written.map (·.spelling) = ["(", "/**/", ".", "a", ".", "b", ")", ".", "// c", "d"] ∧
      n.name = ".a.b.d" ∧ ∃ r', optionName.run (.start (written ++ rest)) .start =
        .done ".a.b.d" ⟨10, rest⟩ r' := by
  let mark (p : Punct) : Lexeme := ⟨.punct p, String.singleton p.char, ⟨0, 0⟩⟩
  let word (w : String) : Lexeme := ⟨.word (.ident w), w, ⟨0, 0⟩⟩
  let n : OptionNotation := ⟨.extension true "a" ["b"], [.word "d"], by decide⟩
  have hwritten : Writes [mark .leftParen, ⟨.blockComment "", "/**/", ⟨0, 0⟩⟩, mark .dot, word "a",
      mark .dot, word "b", mark .rightParen, mark .dot, ⟨.lineComment "c" false, "// c", ⟨0, 0⟩⟩,
      word "d"] n.symbols := by
    refine .token rfl (.comment rfl (.token rfl ?_))
    refine .token rfl (.token rfl (.token rfl (.token rfl ?_)))
    exact .token rfl (.comment rfl (.token rfl .nil))
  have hname : n.name = ".a.b.d" := by decide
  have hrest : (symbols [mark .equals]).head? = some (.punct .equals) := rfl
  refine ⟨n, _, [mark .equals], hwritten, hrest, by decide, hname, ?_⟩
  have h := (optionName_written hwritten hrest).1 0 .start
  rwa [hname] at h

end Production

end ProtoSchema
