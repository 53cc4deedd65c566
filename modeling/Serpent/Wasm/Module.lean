/-
Serpent.Wasm.Module — modules of the target machine.
-/
import Serpent.Wasm.Instr

namespace Serpent.Wasm

/-- What a module takes from its host. -/
inductive ImportItem where
  /-- A memory of at least `min` and, if stated, at most `max` pages. -/
  | memory (min : Nat) (max : Option Nat)
  /-- A function by its name in the module, with its numbers of parameters and results. -/
  | func (name : String) (params results : Nat)
deriving DecidableEq, Repr

/-- An import: the two names under which the host offers it, and what it is. -/
structure Import where
  space : String
  name : String
  item : ImportItem
deriving DecidableEq, Repr

/-- A global variable with its initial value. -/
structure Global where
  name : String
  isMutable : Bool
  value : Word
deriving DecidableEq, Repr

/-- A function. The empty name stands for no name. -/
structure Func where
  name : String
  exports : List String
  params : List String
  results : Nat
  locals : List String
  body : List Instr
deriving Repr

/-- A module. -/
structure Module where
  imports : List Import
  globals : List Global
  funcs : List Func
deriving Repr

namespace Module

/-- The function of that name. -/
def func? (m : Module) (f : String) : Option Func := m.funcs.find? (·.name = f)

/-- The function exported under that name. -/
def exported? (m : Module) (name : String) : Option Func :=
  m.funcs.find? (·.exports.contains name)

end Module

end Serpent.Wasm
