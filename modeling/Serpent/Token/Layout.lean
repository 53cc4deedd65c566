/-
Serpent.Token.Layout — logical lines and blocks.

Line ends inside parentheses and on lines without tokens mean nothing. A logical line that is
further to the right than the one before opens a block, and one that is further to the left closes
every block that starts to the right of it; it must then stand exactly where an open block stands.

  §1 Columns
  §2 Marking lines and blocks
-/
import Serpent.Token.Scan

namespace Serpent

/-! ## §1 Columns -/

/-- The column after a character that starts at column `col`: a line feed goes back to column 0,
a tab to the next multiple of eight, and any other character takes one column. -/
def nextColumn (col : Nat) (c : Char) : Nat :=
  match c with
  | '\n' => 0
  | '\t' => (col / 8 + 1) * 8
  | _ => col + 1

/-- The column of the character that starts at byte `pos` of a source text (`indent_width`). -/
def columnAt (source : List Char) (pos : Nat) : Nat :=
  ((takeBytes? pos source).getD []).foldl nextColumn 0

/-! ## §2 Marking lines and blocks -/

/-- What is known between two lexemes: the columns of the open blocks with the innermost first
(the outermost is column 0), how many parentheses are open, and whether the line has no token
yet. -/
structure LayoutState where
  blocks : List Nat := [0]
  depth : Nat := 0
  lineStart : Bool := true
deriving DecidableEq, Repr

namespace LayoutState

/-- The block marks before the first token of a line at column `col`, and the blocks open after
them; none when the column matches no open block. -/
def enterLine? (blocks : List Nat) (col : Nat) : Option (List Token × List Nat) :=
  if blocks.headD 0 < col then some ([.indent], col :: blocks)
  else
    let closed := blocks.takeWhile (col < ·)
    let kept := blocks.dropWhile (col < ·)
    if kept.headD 0 = col then some (List.replicate closed.length .dedent, kept) else none

/-- How many parentheses are open after a token. -/
def depthAfter (depth : Nat) : Token → Nat
  | .symbol .lparen => depth + 1
  | .symbol .rparen => depth - 1
  | _ => depth

end LayoutState

open LayoutState in
/-- The lexemes with line ends only where logical lines end, and with block marks (`layout`). -/
def layoutFrom (source : List Char) (s : LayoutState) : List Lexeme → Except LexError (List Lexeme)
  | [] =>
    let last := Span.empty (utf8Length source)
    let ending := if s.lineStart then [] else [⟨.newline, last⟩]
    .ok (ending ++ List.replicate (s.blocks.length - 1) ⟨.dedent, last⟩)
  | ⟨.newline, span⟩ :: rest =>
    if s.depth = 0 ∧ s.lineStart = false then do
      let marked ← layoutFrom source { s with lineStart := true } rest
      .ok (⟨.newline, span⟩ :: marked)
    else layoutFrom source s rest
  | ⟨token, span⟩ :: rest =>
    let depth := depthAfter s.depth token
    if s.lineStart then
      let here := Span.empty span.start
      match enterLine? s.blocks (columnAt source span.start) with
      | none => .error (.inconsistentDedent here)
      | some (marks, blocks) => do
        let marked ← layoutFrom source ⟨blocks, depth, false⟩ rest
        .ok (marks.map (⟨·, here⟩) ++ ⟨token, span⟩ :: marked)
    else do
      let marked ← layoutFrom source { s with depth } rest
      .ok (⟨token, span⟩ :: marked)

/-- The tokens of a source text with their places, block structure included (`lex`). -/
def lex (source : List Char) : Except LexError (List Lexeme) := do
  layoutFrom source {} (← scan source)

end Serpent
