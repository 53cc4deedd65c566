/-
Serpent.Word — the 32-bit words that programs compute with.

A word is a signed number; arithmetic on it wraps around. As an address it is read without a sign.
-/

namespace Serpent

/-- A 32-bit word. -/
abbrev Word := Int32

namespace Word

/-- How many words there are. -/
def count : Nat := 0x100000000

/-- How many words are not negative; the first number that is too large for a signed word. -/
def half : Nat := 0x80000000

/-- A word as a decimal number. -/
def text (w : Word) : String := toString w.toInt

/-- The word of a truth value. -/
def ofBool (b : Bool) : Word := if b then 1 else 0

/-- A word as an address. -/
def address (w : Word) : Nat := w.toUInt32.toNat

/-- A byte of a word, the lowest byte being the first. -/
def byte (w : Word) (i : Nat) : UInt8 := UInt8.ofNat (w.address >>> (8 * i))

/-- The word of four bytes, the lowest byte being the first. -/
def ofBytes (b₀ b₁ b₂ b₃ : UInt8) : Word :=
  Int32.ofNat (b₀.toNat + 256 * b₁.toNat + 65536 * b₂.toNat + 16777216 * b₃.toNat)

end Word

end Serpent
