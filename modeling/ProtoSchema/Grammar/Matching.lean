import ProtoSchema.Grammar.File
import ProtoSchema.Grammar.Report

/-
  Matching productions against lexemes. Alternatives are tried in order, each from the same place,
  and the first that matches is taken. A nested construct is matched only where fewer lexemes are
  left than at the start of the construct around it, so matching ends for every production.
-/

namespace ProtoSchema

/-! ## Cursors -/

/-- A place among the lexemes of a source: how many lie before it, and those that follow. -/
structure Cursor where
  index : Nat
  rest : List Lexeme
  deriving DecidableEq

namespace Cursor

/-- The place before the first lexeme. -/
def start (lexemes : List Lexeme) : Cursor := ⟨0, lexemes⟩

/-- The place before the next lexeme that is no comment. -/
def significant (c : Cursor) : Cursor :=
  let comments := c.rest.takeWhile (·.token.isComment)
  ⟨c.index + comments.length, c.rest.drop comments.length⟩

/-- What the next lexeme contributes as a `t`, and the place after it. -/
def take? (c : Cursor) (t : Terminal) : Option (t.Result × Cursor) :=
  match c.significant with
  | ⟨index, l :: rest⟩ => (t.read? l).map fun value => (value, ⟨index + 1, rest⟩)
  | ⟨_, []⟩ => none

/-- The comment that stands next, and the place after it. -/
def comment? (c : Cursor) : Option (Comment × Cursor) :=
  match c.rest with
  | ⟨.lineComment text _, _, _⟩ :: rest => some (⟨text⟩, ⟨c.index + 1, rest⟩)
  | ⟨.blockComment text, _, _⟩ :: rest => some (⟨text⟩, ⟨c.index + 1, rest⟩)
  | _ => none

/-- The line comment that stands next, if it is trailing, and the place after it. -/
def trailing? (c : Cursor) : Option (Comment × Cursor) :=
  match c.rest with
  | ⟨.lineComment text true, _, _⟩ :: rest => some (⟨text⟩, ⟨c.index + 1, rest⟩)
  | _ => none

end Cursor

/-! ## Matching -/

/-- The outcome of matching a production: its value and the place after it, or no match; in both
cases with the report so far. -/
inductive Reply (α : Type) where
  | done (value : α) (cursor : Cursor) (report : Report)
  | failed (report : Report)

namespace Reply

/-- The reply with its value changed. -/
def map {α β : Type} (f : α → β) : Reply α → Reply β
  | done value cursor report => done (f value) cursor report
  | failed report => failed report

/-- The reply for a lexeme that may or may not stand at `cursor`. -/
def optional {α : Type} (found : Option (α × Cursor)) (cursor : Cursor) (report : Report) :
    Reply (Option α) :=
  match found with
  | some (value, after) => done (some value) after report
  | none => done none cursor report

end Reply

/-- A way to match the nested constructs. -/
abbrev Callee := (n : Nonterminal) → Cursor → Report → Reply n.Result

/-- Takes a step again and again until it gives nothing. A step that stays where it is ends the
loop too, and does not count. -/
def matchLoop {α : Type} (step : Cursor → Report → Reply (Option α)) (c : Cursor) (r : Report) :
    Reply (List α) :=
  match step c r with
  | .failed r' => .failed r'
  | .done none c' r' => .done [] c' r'
  | .done (some value) c' r' =>
    if c'.rest.length < c.rest.length then (matchLoop step c' r').map (value :: ·)
    else .done [] c r'
termination_by c.rest.length

namespace Production

/-- Matches a production, given a way to match nested constructs. -/
def matchWith (callee : Callee) {α : Type} : Production α → Cursor → Report → Reply α
  | pure value, c, r => .done value c r
  | bind p k, c, r =>
    match p.matchWith callee c r with
    | .done value c' r' => (k value).matchWith callee c' r'
    | .failed r' => .failed r'
  | sees t, c, r => .done (c.take? t).isSome c r
  | take t, c, r => .optional (c.take? t) c r
  | comment, c, r => .optional c.comment? c r
  | trailing, c, r => .optional c.trailing? c r
  | fail e, c, r => .failed (r.note c.significant.index e)
  | orElse p q, c, r =>
    match p.matchWith callee c r with
    | .done value c' r' => .done value c' r'
    | .failed r' => q.matchWith callee c r'
  | loop p, c, r => matchLoop (p.matchWith callee) c r
  | call n, c, r => callee n c r

-- The equations of the definition are made here, once, for all the proofs that open it.
attribute [local simp] matchWith

end Production

/-- The production of a nested construct. -/
def Nonterminal.production : (n : Nonterminal) → Production n.Result
  | aggregate => Production.aggregate
  | message => Production.message

/-- Matches a nested construct. -/
def Nonterminal.matches (n : Nonterminal) (c : Cursor) (r : Report) : Reply n.Result :=
  n.production.matchWith (fun m c' r' =>
    if c'.rest.length < c.rest.length then m.matches c' r' else .failed r') c r
termination_by c.rest.length

/-- Matches a production. -/
def Production.run {α : Type} (p : Production α) (c : Cursor) (r : Report) : Reply α :=
  p.matchWith Nonterminal.matches c r

/-- Matches a production against all of the given lexemes; otherwise gives the report of what was
missing. -/
def Production.matchAll {α : Type} (p : Production α) (lexemes : List Lexeme) : Except Report α :=
  match p.run (.start lexemes) .start with
  | .done value c r => if c.rest.isEmpty then .ok value else .error r
  | .failed r => .error r

/-! ## Files -/

/-- The file that the lexemes of a source with `size` bytes make up. -/
def File.ofLexemes (lexemes : List Lexeme) (size : Nat) : Except Fault File :=
  match Production.file.matchAll lexemes with
  | .ok (version, body) => File.ofItems version body.decls body.comments
  | .error r => .error (r.fault lexemes size)

end ProtoSchema
