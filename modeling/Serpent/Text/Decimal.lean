/-
Serpent.Text.Decimal — numbers in decimal digits.
-/

namespace Serpent

/-- The value of a decimal digit. -/
def digitValue (c : Char) : Nat := c.toNat - '0'.toNat

/-- The value of decimal digits, of which there must be at least one. -/
def natOfDigits? : List Char → Option Nat
  | [] => none
  | cs => if cs.all Char.isDigit then some (cs.foldl (fun n c => 10 * n + digitValue c) 0) else none

end Serpent
