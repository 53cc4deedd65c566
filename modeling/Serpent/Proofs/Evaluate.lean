/-
Serpent.Proofs.Evaluate — what a checked program means, said on its syntax tree.

An expression has a value and a statement has an effect; no code is involved. Values are words, a
computation changes the world, and it may trap. Two bounds are given: how many calls may be open at
once, which a program can observe, and how many rounds each loop may take, which it cannot.

  §1 Worlds and computations
  §2 Operators and lines of output
  §3 Members of classes
  §4 Expressions
  §5 Statements
  §6 Programs
-/
import Serpent.Program
import Serpent.Wasm.Run

namespace Serpent

open Wasm (Bindings Memory Trap)

/-! ## §1 Worlds and computations -/

/-- What a program has done so far: its global variables, the memory of its objects with the first
free address, and what it has printed. -/
structure World where
  globals : Bindings
  memory : Memory
  free : Word
  output : String

/-- Why a computation gives no value. -/
inductive Halt where
  /-- A trap, with what was printed before it. -/
  | trap (t : Trap) (output : String)
  /-- A loop has used up its rounds. -/
  | unfinished
  /-- A name or a type is missing. A checked program never gets here. -/
  | undefined
deriving DecidableEq, Repr

/-- The error that a run of a module answers with. -/
def Halt.error : Halt → Wasm.RunError
  | trap t output => .trapped t output
  | unfinished => .unfinished
  | undefined => .invalid

/-- A computation that changes the world. -/
abbrev Eval := StateT World (Except Halt)

namespace Eval

variable {α : Type}

/-- Stop. -/
def halt (h : Halt) : Eval α := fun _ => .error h

/-- Stop with a trap. -/
def trap (t : Trap) : Eval α := fun W => .error (.trap t W.output)

/-- What must be there. -/
def known : Option α → Eval α
  | some a => pure a
  | none => halt .undefined

/-- The word at an address. -/
def load (a : Word) : Eval Word := do
  match (← get).memory.load? a.address with
  | some w => return w
  | none => trap .outOfBounds

/-- Change the word at an address. -/
def store (a w : Word) : Eval Unit := do
  match (← get).memory.store? a.address w with
  | some memory => modify ({ · with memory })
  | none => trap .outOfBounds

/-- Write a line. -/
def printLine (line : String) : Eval Unit :=
  modify fun W => { W with output := W.output ++ line ++ "\n" }

theorem bind_of_ok {β : Type} {x : Eval α} {k : α → Eval β} {W V : World} {a : α}
    (h : x W = .ok (a, V)) : (x >>= k) W = k a V := by
  change Except.bind (x W) _ = _
  rw [h]
  rfl

theorem bind_of_error {β : Type} {x : Eval α} {k : α → Eval β} {W : World} {e : Halt}
    (h : x W = .error e) : (x >>= k) W = .error e := by
  change Except.bind (x W) _ = _
  rw [h]
  rfl

theorem bind_eq_ok {β : Type} {x : Eval α} {k : α → Eval β} {W V : World} {b : β} :
    (x >>= k) W = .ok (b, V) ↔ ∃ a U, x W = .ok (a, U) ∧ k a U = .ok (b, V) := by
  cases h : x W with
  | ok result =>
    obtain ⟨a, U⟩ := result
    rw [bind_of_ok h]
    constructor
    · exact fun rest => ⟨a, U, rfl, rest⟩
    · rintro ⟨_, _, eq, rest⟩
      cases eq
      exact rest
  | error e =>
    rw [bind_of_error h]
    simp

theorem load_of_some {a w : Word} {W : World} (h : W.memory.load? a.address = some w) :
    load a W = .ok (w, W) := by
  rw [load, bind_of_ok (V := W) (a := W) rfl, h]
  rfl

theorem load_of_none {a : Word} {W : World} (h : W.memory.load? a.address = none) :
    load a W = .error (.trap .outOfBounds W.output) := by
  rw [load, bind_of_ok (V := W) (a := W) rfl, h]
  rfl

theorem store_of_some {a w : Word} {W : World} {memory : Memory}
    (h : W.memory.store? a.address w = some memory) :
    store a w W = .ok ((), { W with memory }) := by
  rw [store, bind_of_ok (V := W) (a := W) rfl, h]
  rfl

theorem store_of_none {a w : Word} {W : World} (h : W.memory.store? a.address w = none) :
    store a w W = .error (.trap .outOfBounds W.output) := by
  rw [store, bind_of_ok (V := W) (a := W) rfl, h]
  rfl

end Eval

/-! ## §2 Operators and lines of output -/

/-- The value of a prefix operation: numbers wrap around at 32 bits. -/
def UnOp.apply (op : UnOp) (a : Word) : Word :=
  match op with
  | .neg => Int32.ofInt (-a.toInt)
  | .not => Word.ofBool (a = 0)

/-- The value of a binary operation: numbers wrap around at 32 bits, and a quotient is cut off
toward zero. A quotient that is no word, or a zero divisor, is a trap. -/
def BinOp.apply (op : BinOp) (a b : Word) : Except Trap Word :=
  match op with
  | .add => .ok (Int32.ofInt (a.toInt + b.toInt))
  | .sub => .ok (Int32.ofInt (a.toInt - b.toInt))
  | .mul => .ok (Int32.ofInt (a.toInt * b.toInt))
  | .floorDiv =>
    if b = 0 then .error .divideByZero
    else if a.toInt.tdiv b.toInt = Word.half then .error .overflow
    else .ok (Int32.ofInt (a.toInt.tdiv b.toInt))
  | .mod => if b = 0 then .error .divideByZero else .ok (Int32.ofInt (a.toInt.tmod b.toInt))
  | .eq => .ok (Word.ofBool (a = b))
  | .is => .ok (Word.ofBool (a = b))
  | .ne => .ok (Word.ofBool (a ≠ b))
  | .le => .ok (Word.ofBool (a.toInt ≤ b.toInt))
  | .ge => .ok (Word.ofBool (b.toInt ≤ a.toInt))
  | .lt => .ok (Word.ofBool (a.toInt < b.toInt))
  | .gt => .ok (Word.ofBool (b.toInt < a.toInt))
  | .and => .ok (a &&& b)
  | .or => .ok (a ||| b)

/-- How a word is printed that has the given type; an object is printed as its address. -/
def Ty.line (t : Ty) (w : Word) : String :=
  match t with
  | .int => Word.text w
  | .bool => if w = 0 then "False" else "True"
  | .none => "None"
  | .object _ => Word.text w

/-! ## §3 Members of classes -/

/-- Where the field with the given number is in an object; one word comes before the fields. -/
def fieldPlace (index : Nat) : Word := Int32.ofNat (4 * (index + 1))

/-- Where a field is in the objects of a class. -/
def ClassDef.place? (c : ClassDef) (field : String) : Option Word :=
  (c.fields.findIdx? (·.name = field)).map fieldPlace

/-- The method of a class with that name. -/
def ClassDef.method? (c : ClassDef) (name : String) : Option FunDef :=
  c.methods.find? (·.name = name)

/-- The method that constructs; a class that has none takes one that does nothing. -/
def ClassDef.init (c : ClassDef) : FunDef :=
  (c.method? initMethod).getD ⟨initMethod, [⟨"self", .object c.name⟩], .none, [], [.pass]⟩

namespace Program

/-- The class of that name. The class of all objects needs no definition. -/
def class? (p : Program) (name : String) : Option ClassDef :=
  (⟨objectClass, objectClass, [], []⟩ :: p.classes).find? (·.name = name)

/-- The function of that name. -/
def function? (p : Program) (name : String) : Option FunDef := p.functions.find? (·.name = name)

/-- The class of the objects that an expression was found to stand for. -/
def classOf? (p : Program) (receiver : Expr) : Option ClassDef :=
  (receiver.ty?.bind Ty.class?).bind p.class?

end Program

/-! ## §4 Expressions -/

/-- How a function is called. -/
abbrev Invoke := FunDef → List Word → Eval Word

/-- Give the fields of the object at an address their initial values. -/
def initFields (self : Word) (fields : List VarDef) : Eval Unit :=
  fields.zipIdx.forM fun (v, i) => Eval.store (self + fieldPlace i) v.value.word

/-- Make an object: its fields are set, the next object will lie behind it, and it is constructed. -/
def ClassDef.construct (invoke : Invoke) (c : ClassDef) : Eval Word := do
  let self := (← get).free
  initFields self c.fields
  modify fun W => { W with free := self + fieldPlace c.fields.length }
  let _ ← invoke c.init [self]
  return self

/-- The value of a variable: a local one comes before a global one. -/
def readVar (locals : Bindings) (x : String) : Eval Word := do
  Eval.known ((locals.lookup x).or ((← get).globals.lookup x))

namespace Expr

mutual

/-- The value of an expression. Operands and arguments are evaluated from left to right, all of
them. -/
def eval (p : Program) (invoke : Invoke) (locals : Bindings) : Expr → Eval Word
  | .literal _ v => return v.word
  | .var _ x => readVar locals x
  | .unary _ op e => do return op.apply (← eval p invoke locals e)
  | .binary _ op l r => do
    let a ← eval p invoke locals l
    let b ← eval p invoke locals r
    match op.apply a b with
    | .ok w => return w
    | .error t => Eval.trap t
  | .call _ f args =>
    if f = printFunction then
      match args with
      | [e] => do
        let w ← eval p invoke locals e
        let t ← Eval.known e.ty?
        Eval.printLine (t.line w)
        return w
      | _ => Eval.halt .undefined
    else
      match p.class? f with
      | some c => if args.isEmpty then c.construct invoke else Eval.halt .undefined
      | none => do
        let ws ← evalAll p invoke locals args
        let d ← Eval.known (p.function? f)
        invoke d ws
  | .field _ o x => do
    let a ← eval p invoke locals o
    let k ← Eval.known ((p.classOf? o).bind (·.place? x))
    Eval.load (a + k)
  | .method _ o x args => do
    let self ← eval p invoke locals o
    let ws ← evalAll p invoke locals args
    let m ← Eval.known ((p.classOf? o).bind (·.method? x))
    invoke m (self :: ws)

/-- The values of expressions. -/
def evalAll (p : Program) (invoke : Invoke) (locals : Bindings) : List Expr → Eval (List Word)
  | [] => return []
  | e :: es => do
    let w ← eval p invoke locals e
    let ws ← evalAll p invoke locals es
    return w :: ws

end

end Expr

/-- There is one value for each expression. -/
theorem Expr.length_of_evalAll {p : Program} {invoke : Invoke} {locals : Bindings}
    {es : List Expr} {W V : World} {ws : List Word}
    (h : evalAll p invoke locals es W = .ok (ws, V)) : ws.length = es.length := by
  induction es generalizing W ws with
  | nil =>
    cases h
    rfl
  | cons e es ih =>
    rw [evalAll] at h
    obtain ⟨w, U, -, h⟩ := Eval.bind_eq_ok.1 h
    obtain ⟨rest, U', hrest, h⟩ := Eval.bind_eq_ok.1 h
    cases h
    rw [List.length_cons, List.length_cons, ih hrest]

/-! ## §5 Statements -/

/-- How a statement ends: control goes on with these local variables, or the function returns. -/
inductive Flow where
  | onward (locals : Bindings)
  | returned (w : Word)
deriving DecidableEq, Repr

/-- Go on with `k` unless the function returns. -/
def Flow.andThen (flow : Flow) (k : Bindings → Eval Flow) : Eval Flow :=
  match flow with
  | .onward locals => k locals
  | .returned w => return .returned w

/-- Change a variable: a local one comes before a global one. -/
def assignVar (locals : Bindings) (x : String) (w : Word) : Eval Flow :=
  if (locals.lookup x).isSome then return .onward (locals.set x w)
  else do
    let _ ← Eval.known ((← get).globals.lookup x)
    modify fun W => { W with globals := W.globals.set x w }
    return .onward locals

/-- A loop of at most so many rounds: the condition is evaluated before each of them. -/
def repeatWhile (cond : Bindings → Eval Word) (body : Bindings → Eval Flow) :
    (rounds : Nat) → Bindings → Eval Flow
  | 0, _ => Eval.halt .unfinished
  | rounds + 1, locals => do
    if (← cond locals) = 0 then return .onward locals
    else (← body locals).andThen (repeatWhile cond body rounds)

namespace Stmt

mutual

/-- The effect of a statement. -/
def eval (p : Program) (invoke : Invoke) (fuel : Nat) : Stmt → Bindings → Eval Flow
  | .pass, locals => return .onward locals
  | .assign (.var x) e, locals => do assignVar locals x (← e.eval p invoke locals)
  | .assign (.member o x) e, locals => do
    let a ← o.eval p invoke locals
    let k ← Eval.known ((p.classOf? o).bind (·.place? x))
    let w ← e.eval p invoke locals
    Eval.store (a + k) w
    return .onward locals
  | .expr e, locals => do
    let _ ← e.eval p invoke locals
    return .onward locals
  | .return_ e, locals => do return .returned (← e.eval p invoke locals)
  | .while_ c body, locals =>
    repeatWhile (fun locals => c.eval p invoke locals) (evalAll p invoke fuel body) fuel locals
  | .if_ c body elif orElse, locals => do
    if (← c.eval p invoke locals) ≠ 0 then evalAll p invoke fuel body locals
    else
      match elif, orElse with
      | none, none => return .onward locals
      | none, some orElse => evalAll p invoke fuel orElse locals
      | some (d, other), none =>
        if (← d.eval p invoke locals) ≠ 0 then evalAll p invoke fuel other locals
        else return .onward locals
      | some (d, other), some orElse =>
        if (← d.eval p invoke locals) ≠ 0 then evalAll p invoke fuel other locals
        else evalAll p invoke fuel orElse locals

/-- The effect of statements one after the other; what follows a return has none. -/
def evalAll (p : Program) (invoke : Invoke) (fuel : Nat) : List Stmt → Bindings → Eval Flow
  | [], locals => return .onward locals
  | s :: ss, locals => do (← eval p invoke fuel s locals).andThen (evalAll p invoke fuel ss)

end

end Stmt

/-! ## §6 Programs -/

/-- The local variables of a function when it starts. -/
def FunDef.initialLocals (f : FunDef) (args : List Word) : Bindings :=
  (f.params.map (·.name)).zip args ++ f.locals.map fun v => (v.name, v.value.word)

/-- The result of a function; where control reaches its end, the result is 0. -/
def FunDef.eval (p : Program) (invoke : Invoke) (fuel : Nat) (f : FunDef) (args : List Word) :
    Eval Word := do
  match ← Stmt.evalAll p invoke fuel f.body (f.initialLocals args) with
  | .onward _ => return 0
  | .returned w => return w

namespace Program

/-- Call a function where so many more calls may be opened. -/
def invoke (p : Program) (fuel : Nat) : (depth : Nat) → Invoke
  | 0 => fun _ _ => Eval.trap .stackExhausted
  | depth + 1 => fun f args => f.eval p (invoke p fuel depth) fuel args

/-- The statements of a program that stand at its top level: none of them returns. -/
def runStmts (p : Program) (invoke : Invoke) (fuel : Nat) (stmts : List Stmt) : Eval Unit := do
  match ← Stmt.evalAll p invoke fuel stmts [] with
  | .onward _ => return ()
  | .returned _ => Eval.halt .undefined

/-- Run the statements of a program. If the last one is an expression, its value is the value of
the program. -/
def main (p : Program) (invoke : Invoke) (fuel : Nat) : Eval (Option Word) := do
  match p.stmts.getLast? with
  | some (.expr e) =>
    p.runStmts invoke fuel p.stmts.dropLast
    return some (← e.eval p invoke [])
  | _ =>
    p.runStmts invoke fuel p.stmts
    return none

/-- The world in which a program starts: the first word of the memory stays free of objects. -/
def initialWorld (p : Program) (pages : Nat) : World :=
  ⟨p.globalVars.map fun v => (v.name, v.value.word), .ofPages pages, 4, ""⟩

/-- What a program gives. -/
def evaluate (p : Program) (limits : Wasm.Limits) : Except Halt Wasm.RunOutcome := do
  let (value, W) ← p.main (p.invoke limits.fuel limits.depth) limits.fuel
    (p.initialWorld limits.pages)
  return ⟨value, W.output⟩

end Program

end Serpent
