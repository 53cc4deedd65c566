/-
Serpent.Wasm.Memory — the bytes that a module reads and writes.

A memory has a fixed number of bytes, which are all zero at first. A word is kept in four bytes,
the lowest one first, and has an address anywhere.
-/
import Serpent.Word
import Std.Data.TreeMap

namespace Serpent.Wasm

/-- A memory: its size, and the bytes that have been written. -/
structure Memory where
  size : Nat
  written : Std.TreeMap Nat UInt8 := ∅

namespace Memory

/-- The bytes of one page. -/
def pageBytes : Nat := 65536

/-- A memory of so many pages. -/
def ofPages (n : Nat) : Memory := { size := n * pageBytes }

/-- The byte at an address. -/
def byte (m : Memory) (a : Nat) : UInt8 := m.written.getD a 0

/-- The memory with one byte changed. -/
def setByte (m : Memory) (a : Nat) (b : UInt8) : Memory :=
  { m with written := m.written.insert a b }

/-- The word at an address, if all its bytes are inside the memory. -/
def load? (m : Memory) (a : Nat) : Option Word :=
  if a + 4 ≤ m.size then
    some (Word.ofBytes (m.byte a) (m.byte (a + 1)) (m.byte (a + 2)) (m.byte (a + 3)))
  else none

/-- The memory with the word at an address changed, if all its bytes are inside the memory. -/
def store? (m : Memory) (a : Nat) (w : Word) : Option Memory :=
  if a + 4 ≤ m.size then
    some ((((m.setByte a (w.byte 0)).setByte (a + 1) (w.byte 1)).setByte (a + 2)
      (w.byte 2)).setByte (a + 3) (w.byte 3))
  else none

@[simp] theorem size_setByte (m : Memory) (a : Nat) (b : UInt8) :
    (m.setByte a b).size = m.size := rfl

theorem byte_setByte (m : Memory) (a a' : Nat) (b : UInt8) :
    (m.setByte a b).byte a' = if a = a' then b else m.byte a' := by
  simp [byte, setByte, Std.TreeMap.getD_insert]

end Memory

end Serpent.Wasm
