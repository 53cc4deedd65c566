/-
Serpent.Wasm.Sexp — nested lists of words and strings, the outer form of module texts.

Words and strings are separated by blanks and parentheses; two semicolons start a comment that
reaches to the end of its line. Strings hold no escapes.

  §1 Words, strings and parentheses
  §2 Nesting
-/

namespace Serpent.Wasm

/-! ## §1 Words, strings and parentheses -/

/-- What a module text is made of. -/
inductive Part where
  | opening
  | closing
  | word (text : String)
  | string (text : String)
deriving DecidableEq, Repr

namespace Part

/-- The characters that words are made of. -/
def isWordChar (c : Char) : Bool := c.isAlphanum || "!#$%&'*+-./:<=>?@\\^_`|~".toList.contains c

/-- The characters that stand between words. -/
def isSpace (c : Char) : Bool := c == ' ' || c == '\t' || c == '\n' || c == '\r'

/-- Where a text is being read: between parts, or inside of one with the characters so far, the
last one first. -/
inductive Mode where
  | between
  | inWord (before : List Char)
  | inString (before : List Char)
  | semicolon
  | inComment
deriving DecidableEq, Repr

/-- The word that has been read, as a part. -/
def ofReversed (before : List Char) : Part := .word (String.ofList before.reverse)

/-- The parts of a text from a mode on. -/
def readFrom : Mode → List Char → Option (List Part)
  | .between, [] => some []
  | .inWord before, [] => some [ofReversed before]
  | .inString _, [] => none
  | .semicolon, [] => none
  | .inComment, [] => some []
  | .inString before, c :: cs =>
    if c == '"' then (readFrom .between cs).map (.string (String.ofList before.reverse) :: ·)
    else if c == '\\' || c.toNat < 32 then none
    else readFrom (.inString (c :: before)) cs
  | .semicolon, c :: cs => if c == ';' then readFrom .inComment cs else none
  | .inComment, c :: cs => readFrom (if c == '\n' then .between else .inComment) cs
  | .between, c :: cs =>
    if isSpace c then readFrom .between cs
    else if c == '(' then (readFrom .between cs).map (.opening :: ·)
    else if c == ')' then (readFrom .between cs).map (.closing :: ·)
    else if c == '"' then readFrom (.inString []) cs
    else if c == ';' then readFrom .semicolon cs
    else if isWordChar c then readFrom (.inWord [c]) cs
    else none
  | .inWord before, c :: cs =>
    if isWordChar c then readFrom (.inWord (c :: before)) cs
    else if isSpace c then (readFrom .between cs).map (ofReversed before :: ·)
    else if c == '(' then (readFrom .between cs).map ([ofReversed before, .opening] ++ ·)
    else if c == ')' then (readFrom .between cs).map ([ofReversed before, .closing] ++ ·)
    else if c == ';' then (readFrom .semicolon cs).map (ofReversed before :: ·)
    else none

/-- The parts of a text. -/
def readAll (text : List Char) : Option (List Part) := readFrom .between text

end Part

/-! ## §2 Nesting -/

/-- A word, a string or a list in parentheses. -/
inductive Sexp where
  | word (text : String)
  | string (text : String)
  | list (items : List Sexp)
deriving Repr

namespace Sexp

/-- Put an item at the end of the innermost open list. The open lists come innermost first and
hold their items with the last one first. -/
def push (item : Sexp) : List (List Sexp) → List (List Sexp)
  | [] => []
  | l :: ls => (item :: l) :: ls

/-- The items that parts make, given the open lists. -/
def ofParts : List (List Sexp) → List Part → Option (List Sexp)
  | [items], [] => some items.reverse
  | _, [] => none
  | ls, .word w :: ps => ofParts (push (.word w) ls) ps
  | ls, .string s :: ps => ofParts (push (.string s) ls) ps
  | ls, .opening :: ps => ofParts ([] :: ls) ps
  | l :: l' :: ls, .closing :: ps => ofParts (push (.list l.reverse) (l' :: ls)) ps
  | _, .closing :: _ => none

/-- The items of a text. -/
def readAll (text : String) : Option (List Sexp) :=
  (Part.readAll text.toList).bind (ofParts [[]])

end Sexp

end Serpent.Wasm
