/-
Serpent.Wasm.Valid — when a module may be run.

Every name that is used is declared, and declared once; every instruction finds its operands; every
body leaves exactly the results that its function announces. Since all operands are words, a stack
is described by its height. After an instruction that never goes on, any number of operands may be
taken.

  §1 Heights
  §2 Instructions
  §3 Functions and modules
-/
import Serpent.Wasm.Module

namespace Serpent.Wasm

/-! ## §1 Heights -/

/-- What is known of a stack: how many operands there are at least, and whether any more may be
taken because control never gets here. -/
structure Height where
  count : Nat
  endless : Bool := false
deriving DecidableEq, Repr

namespace Height

/-- Take operands. -/
def pop? (n : Nat) (h : Height) : Option Height :=
  if n ≤ h.count then some { h with count := h.count - n }
  else if h.endless then some ⟨0, true⟩
  else none

/-- Leave operands. -/
def push (n : Nat) (h : Height) : Height := { h with count := h.count + n }

/-- Whether exactly `n` operands are left. -/
def isExactly (n : Nat) (h : Height) : Bool :=
  if h.endless then h.count ≤ n else h.count = n

/-- The stack after an instruction that never goes on. -/
def unreachable : Height := ⟨0, true⟩

end Height

/-! ## §2 Instructions -/

/-- The names that a body may use. -/
structure Names where
  locals : List String
  globals : List Global
  /-- Functions with their numbers of parameters and results. -/
  funcs : List (String × Nat × Nat)
  hasMemory : Bool
  /-- The number of results of the function. -/
  results : Nat
deriving Repr

namespace Instr

mutual

/-- The stack after an instruction inside the blocks and loops with the given labels. -/
def height? (names : Names) (labels : List String) (h : Height) : Instr → Option Height
  | .const _ => some (h.push 1)
  | .localGet x => if x ∈ names.locals then some (h.push 1) else none
  | .localSet x => if x ∈ names.locals then h.pop? 1 else none
  | .globalGet x => if names.globals.any (·.name = x) then some (h.push 1) else none
  | .globalSet x =>
    if names.globals.any (fun g => g.name = x && g.isMutable) then h.pop? 1 else none
  | .binary _ => (h.pop? 2).map (·.push 1)
  | .eqz => (h.pop? 1).map (·.push 1)
  | .load => if names.hasMemory then (h.pop? 1).map (·.push 1) else none
  | .store => if names.hasMemory then h.pop? 2 else none
  | .drop => h.pop? 1
  | .call f =>
    match names.funcs.lookup f with
    | some (params, results) => (h.pop? params).map (·.push results)
    | none => none
  | .return_ => (h.pop? names.results).map fun _ => .unreachable
  | .ifElse thn els =>
    if balanced names labels thn && balanced names labels els then h.pop? 1 else none
  | .block l body => if balanced names (l :: labels) body then some h else none
  | .loop l body => if balanced names (l :: labels) body then some h else none
  | .br l => if l ∈ labels then some .unreachable else none
  | .brIf l => if l ∈ labels then h.pop? 1 else none

/-- The stack after instructions that follow each other. -/
def heights? (names : Names) (labels : List String) (h : Height) : List Instr → Option Height
  | [] => some h
  | i :: is =>
    match height? names labels h i with
    | some h => heights? names labels h is
    | none => none

/-- Whether instructions start with no operands and leave none. -/
def balanced (names : Names) (labels : List String) : List Instr → Bool
  | [] => true
  | i :: is =>
    match height? names labels ⟨0, false⟩ i with
    | some h => ((heights? names labels h is).map (·.isExactly 0)).getD false
    | none => false

end

end Instr

/-! ## §3 Functions and modules -/

/-- Whether no name is declared twice; any number of things may be without a name. -/
def areDistinct (names : List String) : Bool := decide (names.filter (· ≠ "")).Nodup

/-- The largest number of parameters of a function. -/
def maxParams : Nat := 1000

/-- The largest number of pages that addresses of 32 bits reach. -/
def addressablePages : Nat := 65536

namespace Module

/-- The functions of a module, imported ones first, with their numbers of parameters and
results. -/
def signatures (m : Module) : List (String × Nat × Nat) :=
  m.imports.filterMap (fun i =>
    match i.item with
    | .func f params results => some (f, params, results)
    | .memory .. => none) ++
  m.funcs.map fun f => (f.name, f.params.length, f.results)

/-- The memories that a module imports. -/
def memories (m : Module) : List (Nat × Option Nat) :=
  m.imports.filterMap fun i =>
    match i.item with
    | .memory min max => some (min, max)
    | .func .. => none

/-- The names that the body of a function may use. -/
def namesFor (m : Module) (f : Func) : Names where
  locals := f.params ++ f.locals
  globals := m.globals
  funcs := m.signatures
  hasMemory := !m.memories.isEmpty
  results := f.results

/-- Whether a function is valid in a module. -/
def isValidFunc (m : Module) (f : Func) : Bool :=
  f.params.length ≤ maxParams &&
  areDistinct (f.params ++ f.locals) &&
  ((Instr.heights? (m.namesFor f) [] ⟨0, false⟩ f.body).map (·.isExactly f.results)).getD false

/-- Whether a module may be run. -/
def isValid (m : Module) : Bool :=
  areDistinct (m.signatures.map (·.1)) &&
  areDistinct (m.globals.map (·.name)) &&
  decide (m.funcs.flatMap (·.exports)).Nodup &&
  m.memories.length ≤ 1 &&
  m.memories.all (fun (min, max) =>
    min ≤ addressablePages && max.all (· ≤ addressablePages)) &&
  m.signatures.all (fun s => s.2.1 ≤ maxParams) &&
  m.funcs.all m.isValidFunc

end Module

end Serpent.Wasm
