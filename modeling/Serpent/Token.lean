/-
Serpent.Token — the tokens of a script.

A token is a keyword, a symbol, a number, a name or one of the three marks of the block structure:
the end of a logical line, and the opening and closing of a block. A lexeme is a token with the
place where it stands.

  §1 Keywords and symbols, with their spelling
  §2 Tokens and lexemes
-/
import Serpent.Text.Span

namespace Serpent

/-! ## §1 Keywords and symbols -/

/-- The reserved words. -/
inductive Keyword where
  | def_ | class_ | if_ | elif | else_ | while_ | return_ | pass
  | and | or | not | is | none | true | false
deriving DecidableEq, Repr

namespace Keyword

/-- The word that is reserved. -/
def text : Keyword → String
  | def_ => "def"
  | class_ => "class"
  | if_ => "if"
  | elif => "elif"
  | else_ => "else"
  | while_ => "while"
  | return_ => "return"
  | pass => "pass"
  | and => "and"
  | or => "or"
  | not => "not"
  | is => "is"
  | none => "None"
  | true => "True"
  | false => "False"

/-- All reserved words. -/
def all : List Keyword :=
  [def_, class_, if_, elif, else_, while_, return_, pass, and, or, not, is, none, true, false]

/-- The keyword that a word is, if it is reserved. -/
def ofText? (word : String) : Option Keyword := all.find? (·.text == word)

theorem ofText?_text (k : Keyword) : ofText? k.text = some k := by
  cases k <;> rfl

theorem text_of_ofText? {word : String} {k : Keyword} (h : ofText? word = some k) :
    k.text = word := by
  simpa using List.find?_some h

end Keyword

/-- Brackets, separators and operators written with symbols. -/
inductive Symbol where
  | lparen | rparen | colon | comma | dot | arrow | assign
  | eqEq | notEq | ltEq | gtEq | lt | gt
  | plus | minus | star | starStar | slash | slashSlash | percent
deriving DecidableEq, Repr

namespace Symbol

/-- How a symbol is written. -/
def text : Symbol → String
  | lparen => "("
  | rparen => ")"
  | colon => ":"
  | comma => ","
  | dot => "."
  | arrow => "->"
  | assign => "="
  | eqEq => "=="
  | notEq => "!="
  | ltEq => "<="
  | gtEq => ">="
  | lt => "<"
  | gt => ">"
  | plus => "+"
  | minus => "-"
  | star => "*"
  | starStar => "**"
  | slash => "/"
  | slashSlash => "//"
  | percent => "%"

end Symbol

/-! ## §2 Tokens and lexemes -/

/-- A token (`Tok`). Numbers keep their digits, so that a value too large can be named later. -/
inductive Token where
  | keyword (k : Keyword)
  | symbol (s : Symbol)
  | float (text : String)
  | int (text : String)
  | name (text : String)
  | newline
  | indent
  | dedent
deriving DecidableEq, Repr

/-- A token and the bytes of the source where it stands. -/
structure Lexeme where
  token : Token
  span : Span
deriving DecidableEq, Repr

end Serpent
