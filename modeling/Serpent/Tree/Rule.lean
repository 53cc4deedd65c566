/-
Serpent.Tree.Rule — reading tokens by the rules of the grammar.

A rule reads tokens from the front of a list and gives what it has read. One token of lookahead
always decides how to go on, so a rule never takes a token back, and a rule that fails names the
first token that cannot follow the ones before it.
-/
import Serpent.Tree

namespace Serpent

/-- How far the tokens have been read: the index of the next token, and the tokens from there. -/
structure Cursor where
  index : Nat
  rest : List Token
deriving DecidableEq, Repr

/-- A rule of the grammar. It fails with the index of the first token that cannot follow; the
index after the last token stands for the end of the input. -/
abbrev Rule (α : Type) := StateT Cursor (Except Nat) α

namespace Rule

/-- No token can follow here. -/
def reject {α : Type} : Rule α := fun c => .error c.index

/-- The next token, which is not read yet. -/
def peek : Rule (Option Token) := fun c => .ok (c.rest.head?, c)

/-- The index of the next token. -/
def here : Rule Nat := fun c => .ok (c.index, c)

/-- How many tokens are left. -/
def remaining : Rule Nat := fun c => .ok (c.rest.length, c)

/-- Read the next token, whatever it is. -/
def advance : Rule Unit := fun c =>
  match c.rest with
  | [] => .error c.index
  | _ :: rest => .ok ((), ⟨c.index + 1, rest⟩)

/-- Read one token, which must be `t`. -/
def expect (t : Token) : Rule Unit := fun c =>
  match c.rest with
  | [] => .error c.index
  | u :: rest => if u = t then .ok ((), ⟨c.index + 1, rest⟩) else .error c.index

/-- Read the next token, whatever it is, as a node without parts. -/
def leaf (kind : Kind) : Rule Node := do
  let first ← here
  advance
  return .mk kind first (first + 1) []

/-- Read a name as a node without parts (`name`). -/
def name (kind : Kind) : Rule Node := do
  match ← peek with
  | some (.name _) => leaf kind
  | _ => reject

/-- The node over all tokens from `first` to the last one read. -/
def close (kind : Kind) (first : Nat) (children : List Node) : Rule Node := do
  return .mk kind first (← here) children

/-- `r` if the next token is `t`, and nothing otherwise. -/
def optional {α : Type} (t : Token) (r : Rule α) : Rule (Option α) := do
  if (← peek) = some t then return some (← r) else return none

end Rule

end Serpent
