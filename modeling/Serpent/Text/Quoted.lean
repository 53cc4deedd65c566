/-
Serpent.Text.Quoted — a text in double quotes, with what would not show written as an escape.

A quote and a backslash are escaped with a backslash; NUL, tab, line feed and carriage return have
a letter each; any other character that is not visible is written as its code point in braces.
-/
import Serpent.Text.Visible

namespace Serpent

/-- One character as it stands inside double quotes. -/
def escapeChar (c : Char) : String :=
  match c with
  | '\x00' => "\\0"
  | '\t' => "\\t"
  | '\n' => "\\n"
  | '\r' => "\\r"
  | '"' => "\\\""
  | '\\' => "\\\\"
  | c =>
    if isVisible c then String.singleton c
    else "\\u\x7b" ++ String.ofList (Nat.toDigits 16 c.toNat) ++ "\x7d"

/-- A text in double quotes. -/
def quoted (text : String) : String :=
  "\"" ++ String.join (text.toList.map escapeChar) ++ "\""

end Serpent
