/-
Serpent.Wasm.Machine — running code.

Code runs until it goes on behind its last instruction, branches, returns or traps. The function
`exec` takes two bounds: `fuel` bounds the rounds of each loop, and running out of it is no outcome
of the code; `depth` bounds how many calls may be open, and one call more is a trap. Code is run by
recursion on the code itself, so code that is put together runs as its parts do.

  §1 States and outcomes
  §2 Instructions without control
  §3 Code
-/
import Serpent.Wasm.Host
import Serpent.Wasm.Memory
import Serpent.Wasm.Module

namespace Serpent.Wasm

/-! ## §1 States and outcomes -/

/-- Why code is stopped. -/
inductive Trap where
  | divideByZero
  | overflow
  | outOfBounds
  | stackExhausted
deriving DecidableEq, Repr

/-- What a trap is called. -/
def Trap.text : Trap → String
  | divideByZero => "integer divide by zero"
  | overflow => "integer overflow"
  | outOfBounds => "out of bounds memory access"
  | stackExhausted => "call stack exhausted"

/-- Named words. -/
abbrev Bindings := List (String × Word)

/-- Named words with one of them changed. -/
def Bindings.set (b : Bindings) (x : String) (w : Word) : Bindings :=
  b.map fun entry => if entry.1 = x then (x, w) else entry

/-- What all functions share: the globals, the memory, and what has been printed. -/
structure Store where
  globals : Bindings
  memory : Memory
  output : String := ""

/-- The state of a function: its operands with the top one first, its locals, and the store. -/
structure State where
  stack : List Word
  locals : Bindings
  store : Store

/-- How code ends. -/
inductive Outcome where
  /-- Control goes on behind the code. -/
  | next (s : State)
  /-- A branch to a label outside of the code. -/
  | branch (label : String) (s : State)
  /-- The function returns; its result is on top of the stack. -/
  | returned (s : State)
  /-- A trap, with what has been printed before it. -/
  | trapped (t : Trap) (output : String)
  /-- An operand or a name is missing; valid code never gets here. -/
  | stuck
  /-- The fuel is used up. -/
  | unfinished

/-! ## §2 Instructions without control -/

/-- The result of an operation on two words. Division goes toward zero. -/
def BinaryOp.apply (op : BinaryOp) (a b : Word) : Except Trap Word :=
  match op with
  | .add => .ok (a + b)
  | .sub => .ok (a - b)
  | .mul => .ok (a * b)
  | .divS =>
    if b = 0 then .error .divideByZero
    else if a = Int32.minValue ∧ b = -1 then .error .overflow
    else .ok (a / b)
  | .remS => if b = 0 then .error .divideByZero else .ok (a % b)
  | .eq => .ok (Word.ofBool (a = b))
  | .ne => .ok (Word.ofBool (a ≠ b))
  | .leS => .ok (Word.ofBool (a ≤ b))
  | .geS => .ok (Word.ofBool (a ≥ b))
  | .ltS => .ok (Word.ofBool (a < b))
  | .gtS => .ok (Word.ofBool (a > b))
  | .and => .ok (a &&& b)
  | .or => .ok (a ||| b)

/-- One instruction that goes on with the next one or traps. -/
def State.step (s : State) : Instr → Outcome
  | .const w => .next { s with stack := w :: s.stack }
  | .localGet x =>
    match s.locals.lookup x with
    | some w => .next { s with stack := w :: s.stack }
    | none => .stuck
  | .localSet x =>
    match s.stack with
    | w :: stack => .next { s with stack, locals := s.locals.set x w }
    | [] => .stuck
  | .globalGet x =>
    match s.store.globals.lookup x with
    | some w => .next { s with stack := w :: s.stack }
    | none => .stuck
  | .globalSet x =>
    match s.stack with
    | w :: stack =>
      .next { s with stack, store := { s.store with globals := s.store.globals.set x w } }
    | [] => .stuck
  | .binary op =>
    match s.stack with
    | b :: a :: stack =>
      match op.apply a b with
      | .ok w => .next { s with stack := w :: stack }
      | .error t => .trapped t s.store.output
    | _ => .stuck
  | .eqz =>
    match s.stack with
    | w :: stack => .next { s with stack := Word.ofBool (w = 0) :: stack }
    | [] => .stuck
  | .load =>
    match s.stack with
    | a :: stack =>
      match s.store.memory.load? a.address with
      | some w => .next { s with stack := w :: stack }
      | none => .trapped .outOfBounds s.store.output
    | [] => .stuck
  | .store =>
    match s.stack with
    | w :: a :: stack =>
      match s.store.memory.store? a.address w with
      | some memory => .next { s with stack, store := { s.store with memory } }
      | none => .trapped .outOfBounds s.store.output
    | _ => .stuck
  | .drop =>
    match s.stack with
    | _ :: stack => .next { s with stack }
    | [] => .stuck
  | _ => .stuck

/-! ## §3 Code -/

/-- What a name in a call stands for. -/
inductive Callee where
  | host (p : Printer)
  | func (f : Func)

/-- The function of a module, or of its host, with a name. -/
def Module.callee? (m : Module) (f : String) : Option Callee :=
  match m.imports.find? (fun i =>
    match i.item with
    | .func g _ _ => g = f
    | .memory .. => false) with
  | some i => (Printer.ofName? i.name).map .host
  | none => (m.func? f).map .func

/-- The locals of a function at its start: the arguments, and zero for all others. -/
def Func.initialLocals (f : Func) (args : List Word) : Bindings :=
  f.params.zip args ++ f.locals.map (·, 0)

namespace Outcome

/-- Go on with `k` where control goes on behind the code. -/
def andThen (o : Outcome) (k : State → Outcome) : Outcome :=
  match o with
  | .next s => k s
  | o => o

/-- A branch to `label` goes on behind the block of that label. -/
def leave (label : String) : Outcome → Outcome
  | .branch l s => if l = label then .next s else .branch l s
  | o => o

/-- The operands outside of a structured instruction come back behind it. -/
def restore (stack : List Word) (o : Outcome) : Outcome :=
  o.andThen fun s => .next { s with stack }

end Outcome

/-- The rounds of a loop with the given body: a branch to `label` starts the next one. -/
def rounds (label : String) (body : State → Outcome) : (fuel : Nat) → State → Outcome
  | 0, _ => .unfinished
  | fuel + 1, s =>
    match body { s with stack := [] } with
    | .branch l s' => if l = label then rounds label body fuel s' else .branch l s'
    | o => o

namespace Instr

mutual

/-- Run one instruction, where `invoke` runs the body of a function that is called. The body of a
structured instruction sees no operand outside of it. -/
def run (m : Module) (fuel : Nat) (invoke : Func → List Word → Store → Outcome) :
    Instr → State → Outcome
  | .return_, s => .returned s
  | .br l, s => .branch l s
  | .brIf l, s =>
    match s.stack with
    | [] => .stuck
    | w :: stack => if w = 0 then .next { s with stack } else .branch l { s with stack }
  | .ifElse thn els, s =>
    match s.stack with
    | [] => .stuck
    | w :: stack =>
      if w = 0 then (runAll m fuel invoke els { s with stack := [] }).restore stack
      else (runAll m fuel invoke thn { s with stack := [] }).restore stack
  | .block l body, s =>
    ((runAll m fuel invoke body { s with stack := [] }).leave l).restore s.stack
  | .loop l body, s => (rounds l (runAll m fuel invoke body) fuel s).restore s.stack
  | .call f, s =>
    match m.callee? f with
    | none => .stuck
    | some (.host p) =>
      match s.stack with
      | [] => .stuck
      | w :: _ =>
        .next { s with store := { s.store with output := s.store.output ++ p.format w ++ "\n" } }
    | some (.func g) =>
      let args := (s.stack.take g.params.length).reverse
      let below := s.stack.drop g.params.length
      match invoke g args s.store with
      | .next s' | .returned s' =>
        .next { s with stack := s'.stack.take g.results ++ below, store := s'.store }
      | .branch .. => .stuck
      | o => o
  | i, s => s.step i

/-- Run instructions one after the other. -/
def runAll (m : Module) (fuel : Nat) (invoke : Func → List Word → Store → Outcome) :
    List Instr → State → Outcome
  | [], s => .next s
  | i :: is, s =>
    match run m fuel invoke i s with
    | .next s' => runAll m fuel invoke is s'
    | o => o

end

end Instr

/-- Run code in a module. A call opens one more function, and with none left it traps. -/
def exec (m : Module) (fuel : Nat) : (depth : Nat) → List Instr → State → Outcome
  | 0 => Instr.runAll m fuel fun _ _ store => .trapped .stackExhausted store.output
  | depth + 1 =>
    Instr.runAll m fuel fun g args store =>
      exec m fuel depth g.body ⟨[], g.initialLocals args, store⟩

end Serpent.Wasm
