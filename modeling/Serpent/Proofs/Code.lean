/-
Serpent.Proofs.Code — induction on code, and the instructions inside of it.

Code is a list of instructions, and the structured ones among them hold code themselves.

  §1 Induction on code
  §2 Instructions without control
  §3 Code after code
  §4 Calls with so many calls left
  §5 Code of one kind
-/
import Serpent.Wasm.Machine

namespace Serpent.Wasm

namespace Instr

/-! ## §1 Induction on code -/

/-- Whether an instruction holds no code. -/
def isSimple : Instr → Bool
  | .ifElse .. | .block .. | .loop .. => false
  | _ => true

/-- What is to be shown of code may be assumed of the code behind its first instruction, and of the
code inside of it. -/
@[elab_as_elim]
theorem codeInduct {P : List Instr → Prop}
    (nil : P [])
    (simple : ∀ i code, i.isSimple = true → P code → P (i :: code))
    (ifElse : ∀ thn els code, P thn → P els → P code → P (.ifElse thn els :: code))
    (block : ∀ l body code, P body → P code → P (.block l body :: code))
    (loop : ∀ l body code, P body → P code → P (.loop l body :: code))
    (code : List Instr) : P code :=
  @Instr.rec_1 (fun i => ∀ code, P code → P (i :: code)) P
    (fun _ code h => simple _ code rfl h) (fun _ code h => simple _ code rfl h)
    (fun _ code h => simple _ code rfl h) (fun _ code h => simple _ code rfl h)
    (fun _ code h => simple _ code rfl h) (fun _ code h => simple _ code rfl h)
    (fun code h => simple _ code rfl h) (fun code h => simple _ code rfl h)
    (fun code h => simple _ code rfl h) (fun code h => simple _ code rfl h)
    (fun _ code h => simple _ code rfl h) (fun code h => simple _ code rfl h)
    (fun thn els yes no code h => ifElse thn els code yes no h)
    (fun l body inner code h => block l body code inner h)
    (fun l body inner code h => loop l body code inner h)
    (fun _ code h => simple _ code rfl h) (fun _ code h => simple _ code rfl h)
    nil (fun _ code first rest => first code rest) code

/-! ## §2 Instructions without control -/

/-- Whether an instruction always goes on with the next one, unless it traps. -/
def isStep : Instr → Bool
  | .call _ | .return_ | .br _ | .brIf _ | .ifElse .. | .block .. | .loop .. => false
  | _ => true

theorem run_of_isStep {i : Instr} (h : i.isStep = true) (m : Module) (fuel : Nat)
    (call : Func → List Word → Store → Outcome) (s : State) : run m fuel call i s = s.step i := by
  cases i with
  | call | return_ | br | brIf | ifElse | block | loop => cases h
  | _ => simp only [run]

/-! ## §3 Code after code -/

theorem runAll_cons (m : Module) (fuel : Nat) (call : Func → List Word → Store → Outcome)
    (i : Instr) (c : List Instr) (s : State) :
    runAll m fuel call (i :: c) s = (run m fuel call i s).andThen (runAll m fuel call c) := rfl

theorem runAll_singleton (m : Module) (fuel : Nat) (call : Func → List Word → Store → Outcome)
    (i : Instr) (s : State) : runAll m fuel call [i] s = run m fuel call i s := by
  rw [runAll_cons]
  cases run m fuel call i s <;> rfl

/-- Code that is put together runs as its parts do. -/
theorem runAll_append (m : Module) (fuel : Nat) (call : Func → List Word → Store → Outcome)
    (c c' : List Instr) (s : State) : runAll m fuel call (c ++ c') s =
      (runAll m fuel call c s).andThen (runAll m fuel call c') := by
  induction c generalizing s with
  | nil => rfl
  | cons i c ih =>
    rw [List.cons_append, runAll_cons, runAll_cons]
    cases run m fuel call i s with
    | next s => exact ih s
    | _ => rfl

end Instr

/-! ## §4 Calls with so many calls left -/

/-- How the machine runs a function where so many more calls may be opened. -/
def Module.call (m : Module) (fuel : Nat) : (depth : Nat) → Func → List Word → Store → Outcome
  | 0 => fun _ _ store => .trapped .stackExhausted store.output
  | depth + 1 => fun g args store => exec m fuel depth g.body ⟨[], g.initialLocals args, store⟩

theorem exec_eq (m : Module) (fuel depth : Nat) :
    exec m fuel depth = Instr.runAll m fuel (m.call fuel depth) := by
  cases depth <;> rfl

/-! ## §5 Code of one kind -/

/-- Code whose instructions are all of a kind, also those inside of others. -/
inductive Instr.Built (ok : Instr → Prop) : List Instr → Prop
  | nil : Built ok []
  | simple {i : Instr} {code : List Instr} (simple : i.isSimple = true) (h : ok i)
      (rest : Built ok code) : Built ok (i :: code)
  | ifElse {thn els code : List Instr} (h : ok (.ifElse thn els)) (yes : Built ok thn)
      (no : Built ok els) (rest : Built ok code) : Built ok (.ifElse thn els :: code)
  | block {l : String} {body code : List Instr} (h : ok (.block l body)) (inner : Built ok body)
      (rest : Built ok code) : Built ok (.block l body :: code)
  | loop {l : String} {body code : List Instr} (h : ok (.loop l body)) (inner : Built ok body)
      (rest : Built ok code) : Built ok (.loop l body :: code)

end Serpent.Wasm
