/-
Serpent.Token.Scan — cutting a source text into lexemes.

At each place the longest lexeme is taken, and a word is a keyword rather than a name. Blanks,
comments and continued lines are passed over. A character that starts no lexeme ends the scan.

  §1 Characters and words
  §2 What stands at the front of a text
  §3 The scan

The scan is a recursion on the text itself: when a lexeme has been recognised at its first
character, its other characters are counted off one by one.
-/
import Serpent.Token
import Serpent.Text.Quoted

namespace Serpent

/-! ## §1 Characters and words -/

/-- The characters that separate lexemes and mean nothing else. -/
def isGap (c : Char) : Bool := c == ' ' || c == '\t' || c == '\x0c'

/-- Whether a name may start with the character. -/
def isNameStart (c : Char) : Bool := c.isAlpha || c == '_'

/-- Whether a name may go on with the character. -/
def isNamePart (c : Char) : Bool := c.isAlphanum || c == '_'

/-- Whether the character ends a line. -/
def isLineEnd (c : Char) : Bool := c == '\r' || c == '\n'

/-- The token of a word: a keyword if it is reserved, else a name. -/
def Token.ofWord (word : List Char) : Token :=
  match Keyword.ofText? (String.ofList word) with
  | some k => .keyword k
  | none => .name (String.ofList word)

/-- Why a text cannot be cut into lexemes, or its lines not into blocks. -/
inductive LexError where
  /-- No lexeme starts with this character. -/
  | unexpectedInput (fragment : String) (span : Span)
  /-- A line is less indented than the one before and matches no open block. -/
  | inconsistentDedent (span : Span)
deriving DecidableEq, Repr

namespace LexError

/-- Where the fault is. -/
def span : LexError → Span
  | unexpectedInput _ s => s
  | inconsistentDedent s => s

/-- The fault in words. -/
def message : LexError → String
  | unexpectedInput fragment s => "unexpected input " ++ quoted fragment ++ " at " ++ s.render
  | inconsistentDedent s =>
    "unindent does not match any outer indentation level at " ++ s.render

end LexError

/-! ## §2 What stands at the front of a text -/

/-- What starts at a character: something to pass over, a token, or nothing at all. The number
counts the characters after the first that belong to it. -/
inductive Front where
  | gap (more : Nat)
  | token (t : Token) (more : Nat)
  | nothing
deriving DecidableEq, Repr

namespace Front

/-- A number: digits, and with a point a float that may go on with digits. -/
def number (c : Char) (cs : List Char) : Front :=
  let digits := cs.takeWhile Char.isDigit
  match cs.dropWhile Char.isDigit with
  | '.' :: rest =>
    let fraction := rest.takeWhile Char.isDigit
    .token (.float (String.ofList (c :: digits ++ '.' :: fraction)))
      (digits.length + 1 + fraction.length)
  | _ => .token (.int (String.ofList (c :: digits))) digits.length

/-- A word: a keyword or a name. -/
def word (c : Char) (cs : List Char) : Front :=
  let part := cs.takeWhile isNamePart
  .token (Token.ofWord (c :: part)) part.length

/-- The longest symbol, given its first character and the text after it. -/
def symbol : Char → List Char → Front
  | '(', _ => .token (.symbol .lparen) 0
  | ')', _ => .token (.symbol .rparen) 0
  | ':', _ => .token (.symbol .colon) 0
  | ',', _ => .token (.symbol .comma) 0
  | '.', _ => .token (.symbol .dot) 0
  | '-', '>' :: _ => .token (.symbol .arrow) 1
  | '-', _ => .token (.symbol .minus) 0
  | '=', '=' :: _ => .token (.symbol .eqEq) 1
  | '=', _ => .token (.symbol .assign) 0
  | '!', '=' :: _ => .token (.symbol .notEq) 1
  | '<', '=' :: _ => .token (.symbol .ltEq) 1
  | '<', _ => .token (.symbol .lt) 0
  | '>', '=' :: _ => .token (.symbol .gtEq) 1
  | '>', _ => .token (.symbol .gt) 0
  | '+', _ => .token (.symbol .plus) 0
  | '*', '*' :: _ => .token (.symbol .starStar) 1
  | '*', _ => .token (.symbol .star) 0
  | '/', '/' :: _ => .token (.symbol .slashSlash) 1
  | '/', _ => .token (.symbol .slash) 0
  | '%', _ => .token (.symbol .percent) 0
  | _, _ => .nothing

/-- What starts at the character `c` when the text goes on with `cs`. -/
def of (c : Char) (cs : List Char) : Front :=
  if isGap c then .gap 0
  else if c == '#' then .gap (cs.takeWhile (!isLineEnd ·)).length
  else if c.isDigit then number c cs
  else if isNameStart c then word c cs
  else
    match c, cs with
    | '\\', '\n' :: _ => .gap 1
    | '\\', '\r' :: '\n' :: _ => .gap 2
    | '\n', _ => .token .newline 0
    | '\r', '\n' :: _ => .token .newline 1
    | c, cs => symbol c cs

end Front

/-! ## §3 The scan -/

/-- The lexemes of a text whose first character stands at byte `pos`; the first `skip`
characters belong to what came before. -/
def scanFrom : (pos skip : Nat) → List Char → Except LexError (List Lexeme)
  | _, _, [] => .ok []
  | pos, skip + 1, c :: cs => scanFrom (pos + c.utf8Size) skip cs
  | pos, 0, c :: cs =>
    match Front.of c cs with
    | .gap more => scanFrom (pos + c.utf8Size) more cs
    | .token t more => do
      let rest ← scanFrom (pos + c.utf8Size) more cs
      .ok (⟨t, pos, pos + utf8Length (c :: cs.take more)⟩ :: rest)
    | .nothing =>
      .error (.unexpectedInput (String.singleton c) ⟨pos, pos + c.utf8Size⟩)

/-- The lexemes of a source text, line ends included and block marks not. -/
def scan (source : List Char) : Except LexError (List Lexeme) := scanFrom 0 0 source

/-- Characters that are counted off only move the place. -/
theorem scanFrom_skip (pos skip : Nat) (cs : List Char) :
    scanFrom pos skip cs = scanFrom (pos + utf8Length (cs.take skip)) 0 (cs.drop skip) := by
  induction cs generalizing pos skip with
  | nil => cases skip <;> simp [scanFrom]
  | cons c cs ih =>
    cases skip with
    | zero => simp
    | succ skip => simp [scanFrom, ih (pos + c.utf8Size) skip, Nat.add_assoc]

end Serpent
