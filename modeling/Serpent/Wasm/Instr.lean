/-
Serpent.Wasm.Instr — the instructions of the target machine.

These are the instructions of WebAssembly that a compiled program uses. All operands are 32-bit
words. Locals, globals, functions and labels are called by name, and a name starts with `$`.
-/
import Serpent.Word

namespace Serpent.Wasm

/-- The operations on two words. -/
inductive BinaryOp where
  | add | sub | mul | divS | remS
  | eq | ne | leS | geS | ltS | gtS
  | and | or
deriving DecidableEq, Repr

namespace BinaryOp

/-- How an operation is written. -/
def text : BinaryOp → String
  | add => "i32.add"
  | sub => "i32.sub"
  | mul => "i32.mul"
  | divS => "i32.div_s"
  | remS => "i32.rem_s"
  | eq => "i32.eq"
  | ne => "i32.ne"
  | leS => "i32.le_s"
  | geS => "i32.ge_s"
  | ltS => "i32.lt_s"
  | gtS => "i32.gt_s"
  | and => "i32.and"
  | or => "i32.or"

def all : List BinaryOp :=
  [add, sub, mul, divS, remS, eq, ne, leS, geS, ltS, gtS, and, or]

end BinaryOp

/-- An instruction. Structured instructions take no operands but a condition and leave none. -/
inductive Instr where
  | const (w : Word)
  | localGet (x : String)
  | localSet (x : String)
  | globalGet (x : String)
  | globalSet (x : String)
  | binary (op : BinaryOp)
  /-- Whether a word is zero. -/
  | eqz
  /-- The word at an address. -/
  | load
  | store
  | drop
  | call (f : String)
  | return_
  /-- Branch on a word: any word but zero is true. -/
  | ifElse (thn els : List Instr)
  /-- A branch to the label leaves the block. -/
  | block (label : String) (body : List Instr)
  /-- A branch to the label starts the loop again. -/
  | loop (label : String) (body : List Instr)
  | br (label : String)
  /-- Branch if a word is not zero. -/
  | brIf (label : String)
deriving Repr

end Serpent.Wasm
