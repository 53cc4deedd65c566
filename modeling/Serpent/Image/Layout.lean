/-
Serpent.Image.Layout — where the fields of an object are, and how an object is made.

An object starts with one word that is not used; its fields follow, a word each, in the order in
which they are declared. Objects are put one after the other and are never taken away.
-/
import Serpent.Program
import Serpent.Image

namespace Serpent

/-- The bytes of a word (`WORD_BYTES`). -/
def wordBytes : Word := 4

/-- The bytes before the first field of an object (`HEADER_BYTES`). -/
def headerBytes : Word := wordBytes

/-- A field: its place in the object, and its initial value (`FieldSlot`). -/
structure Slot where
  name : String
  offset : Word
  default : Literal
deriving DecidableEq, Repr

/-- The fields of the objects of a class. -/
structure ClassLayout where
  name : String
  slots : List Slot
deriving DecidableEq, Repr

namespace ClassLayout

/-- The place of the field with the given number. -/
def offsetAt (index : Nat) : Word := headerBytes + wordBytes * Int32.ofNat index

/-- Fields in the order in which they are declared. -/
def ofFields (name : String) (fields : List VarDef) : ClassLayout :=
  ⟨name, fields.mapIdx fun i v => ⟨v.name, offsetAt i, v.value⟩⟩

/-- The place of a field (`offset_of`). -/
def offset? (layout : ClassLayout) (field : String) : Option Word :=
  (layout.slots.find? (·.name = field)).map (·.offset)

/-- The bytes of an object (`size_bytes`). -/
def size (layout : ClassLayout) : Word :=
  headerBytes + wordBytes * Int32.ofNat layout.slots.length

open Wasm.Instr in
/-- The code that gives one field of the object at the heap pointer its initial value. -/
def initSlot (slot : Slot) : List Wasm.Instr :=
  [globalGet heapPointer, const slot.offset, binary .add, const slot.default.word, store]

open Wasm.Instr in
/-- The code that makes an object and leaves its address (`construct`). The heap pointer is moved
behind the object before the method that constructs it is called, so what that method makes lies
elsewhere. -/
def construct (layout : ClassLayout) : List Wasm.Instr :=
  layout.slots.flatMap initSlot ++
    [globalGet heapPointer, localSet allocLocal,
     globalGet heapPointer, const layout.size, binary .add, globalSet heapPointer,
     localGet allocLocal, call (methodSymbol layout.name initMethod), drop, localGet allocLocal]

end ClassLayout

end Serpent
