/-
Serpent.Image.Lower — the image of a program.

An expression becomes code that leaves its value; a statement becomes code that leaves nothing. The
types that checking has written into the program decide where a field is, which method is called
and how a value is printed.

  §1 What can be missing
  §2 Expressions
  §3 Statements
  §4 Routines and images
-/
import Serpent.Program.Source
import Serpent.Image.Layout

namespace Serpent

/-! ## §1 What can be missing -/

/-- Why a program has no image (`CodegenError`). A checked program always has one. -/
inductive LowerError where
  | untyped (expr : String)
  | notAnObject (expr : String)
  | unknownClass (name : String)
  | unknownField (className field : String)
  | printArity (found : Nat)
deriving DecidableEq, Repr

/-- The error in words. -/
def LowerError.message : LowerError → String
  | untyped e => "expression was not type checked: `" ++ e ++ "`"
  | notAnObject e => "member access on a non-object: `" ++ e ++ "`"
  | unknownClass c => "no layout for class " ++ c
  | unknownField c x => "class " ++ c ++ " has no field " ++ x
  | printArity n => "print takes one argument, got " ++ toString n

/-! ## §2 Expressions -/

/-- What code depends on: the layouts of the classes, and the names of the local variables of the
function; any other variable is global (`Lowering`). -/
structure Surroundings where
  layouts : List (String × ClassLayout)
  locals : List String := []
deriving Repr

namespace Surroundings

/-- The code that reads a variable (`get_var`). -/
def getVar (env : Surroundings) (x : String) : Wasm.Instr :=
  if x ∈ env.locals then .localGet (varSymbol x) else .globalGet (varSymbol x)

/-- The code that writes a variable (`set_var`). -/
def setVar (env : Surroundings) (x : String) : Wasm.Instr :=
  if x ∈ env.locals then .localSet (varSymbol x) else .globalSet (varSymbol x)

/-- The type that an expression has been given (`annotation`). -/
def typeOf (e : Expr) : Except LowerError Ty :=
  match e.ty? with
  | some t => .ok t
  | none => .error (.untyped e.text)

/-- The class of a receiver (`receiver_class`). -/
def classOf (receiver : Expr) : Except LowerError String := do
  match (← typeOf receiver).class? with
  | some c => return c
  | none => throw (.notAnObject receiver.text)

/-- The place of a field of a receiver (`field_offset`). -/
def offsetOf (env : Surroundings) (receiver : Expr) (field : String) : Except LowerError Word := do
  let c ← classOf receiver
  match env.layouts.lookup c with
  | none => throw (.unknownClass c)
  | some layout =>
    match layout.offset? field with
    | none => throw (.unknownField c field)
    | some offset => return offset

/-- How a value of a type is printed; an object is printed as its address. -/
def printerOf : Ty → Wasm.Printer
  | .bool => .bool
  | .none => .none
  | .int => .num
  | .object _ => .num

/-- The operation of a binary operator (`binop_instr`). -/
def operation : BinOp → Wasm.BinaryOp
  | .add => .add
  | .sub => .sub
  | .mul => .mul
  | .floorDiv => .divS
  | .mod => .remS
  | .eq => .eq
  | .is => .eq
  | .ne => .ne
  | .le => .leS
  | .ge => .geS
  | .lt => .ltS
  | .gt => .gtS
  | .and => .and
  | .or => .or

mutual

/-- The code that leaves the value of an expression (`expr`). -/
def expr (env : Surroundings) : Expr → Except LowerError (List Wasm.Instr)
  | .literal _ v => .ok [.const v.word]
  | .var _ x => .ok [env.getVar x]
  | .unary _ .neg e => do return (← expr env e) ++ [.const (-1), .binary .mul]
  | .unary _ .not e => do return (← expr env e) ++ [.eqz]
  | .binary _ op l r => do
    let left ← expr env l
    let right ← expr env r
    return left ++ right ++ [.binary (operation op)]
  | .call _ f args =>
    if f = printFunction then
      match args with
      | [e] => do
        let code ← expr env e
        let t ← typeOf e
        return code ++ [.call (importSymbol (printerOf t).name)]
      | _ => .error (.printArity args.length)
    else
      match env.layouts.lookup f with
      | some layout => .ok layout.construct
      | none => do return (← exprs env args) ++ [.call (functionSymbol f)]
  | .field _ o x => do
    let offset ← env.offsetOf o x
    return (← expr env o) ++ [.const offset, .binary .add, .load]
  | .method _ o x args => do
    let c ← classOf o
    let receiver ← expr env o
    let args ← exprs env args
    return receiver ++ args ++ [.call (methodSymbol c x)]

/-- The code that leaves the values of expressions, the last one on top. -/
def exprs (env : Surroundings) : List Expr → Except LowerError (List Wasm.Instr)
  | [] => .ok []
  | e :: es => do
    let first ← expr env e
    return first ++ (← exprs env es)

end

/-! ## §3 Statements -/

/-- The label that leaves the loop of the given number. -/
def leaveLabel (n : Nat) : String := "$while$" ++ toString n

/-- The label that starts the loop of the given number again. -/
def againLabel (n : Nat) : String := "$while$" ++ toString n ++ "$loop"

/-- A loop: the condition is evaluated before every round, and zero ends the loop. -/
def whileLoop (n : Nat) (cond body : List Wasm.Instr) : Wasm.Instr :=
  .block (leaveLabel n)
    [.loop (againLabel n)
      (cond ++ [.eqz, .brIf (leaveLabel n)] ++ body ++ [.br (againLabel n)])]

mutual

/-- The code of a statement (`stmt`). Loops are numbered from `next` on, an outer loop before the
loops inside it; the first number that is left is given back. -/
def stmt (env : Surroundings) (next : Nat) : Stmt → Except LowerError (List Wasm.Instr × Nat)
  | .pass => .ok ([], next)
  | .expr e => do return ((← env.expr e) ++ [.localSet scratchLocal], next)
  | .assign (.var x) e => do return ((← env.expr e) ++ [env.setVar x], next)
  | .assign (.member o x) e => do
    let offset ← env.offsetOf o x
    let receiver ← env.expr o
    let value ← env.expr e
    return (receiver ++ [.const offset, .binary .add] ++ value ++ [.store], next)
  | .return_ e => do return ((← env.expr e) ++ [.return_], next)
  | .while_ c body => do
    let cond ← env.expr c
    let (body, after) ← block env (next + 1) body
    return ([whileLoop next cond body], after)
  | .if_ c body none none => do
    let cond ← env.expr c
    let (thn, next) ← block env next body
    return (cond ++ [.ifElse thn []], next)
  | .if_ c body none (some orElse) => do
    let cond ← env.expr c
    let (thn, next) ← block env next body
    let (els, next) ← block env next orElse
    return (cond ++ [.ifElse thn els], next)
  | .if_ c body (some (d, other)) none => do
    let cond ← env.expr c
    let (thn, next) ← block env next body
    let cond' ← env.expr d
    let (thn', next) ← block env next other
    return (cond ++ [.ifElse thn (cond' ++ [.ifElse thn' []])], next)
  | .if_ c body (some (d, other)) (some orElse) => do
    let cond ← env.expr c
    let (thn, next) ← block env next body
    let cond' ← env.expr d
    let (thn', next) ← block env next other
    let (els', next) ← block env next orElse
    return (cond ++ [.ifElse thn (cond' ++ [.ifElse thn' els'])], next)

/-- The code of statements that follow each other (`block`). -/
def block (env : Surroundings) (next : Nat) :
    List Stmt → Except LowerError (List Wasm.Instr × Nat)
  | [] => .ok ([], next)
  | s :: ss => do
    let (first, next) ← stmt env next s
    let (rest, next) ← block env next ss
    return (first ++ rest, next)

end

/-- The code that gives variables their initial values (`var_init`). -/
def initVars (env : Surroundings) (vars : List VarDef) : List Wasm.Instr :=
  vars.flatMap fun v => [.const v.value.word, env.setVar v.name]

end Surroundings

/-! ## §4 Routines and images -/

namespace Image

/-- The method that constructs for a class that does not define one (`synthesized_init`). -/
def plainInit (c : String) : FunDef := ⟨initMethod, [⟨"self", .object c⟩], .none, [], [.pass]⟩

/-- The methods of a class under their symbols; one that constructs is added if it is missing. -/
def methodsOf (c : ClassDef) : List (String × FunDef) :=
  let own := c.methods.map fun m => (methodSymbol c.name m.name, m)
  if c.methods.any (·.name = initMethod) then own
  else own ++ [(methodSymbol c.name initMethod, plainInit c.name)]

/-- Everything that becomes a routine, under its symbol and in order. -/
def functionsOf (p : Program) : List (String × FunDef) :=
  (methodSymbol objectClass initMethod, plainInit objectClass) ::
    p.classes.flatMap methodsOf ++ p.functions.map fun f => (functionSymbol f.name, f)

/-- The layouts of the classes of a program; of classes with one name the last one counts. -/
def layoutsOf (p : Program) : List (String × ClassLayout) :=
  (p.classes.map fun c => (c.name, ClassLayout.ofFields c.name c.fields)).reverse ++
    [(objectClass, ClassLayout.ofFields objectClass [])]

/-- The routine of a function (`function`). Where control reaches the end of the function, the
result is 0. -/
def routineOf (layouts : List (String × ClassLayout)) (next : Nat) (symbol : String) (f : FunDef) :
    Except LowerError (Routine × Nat) := do
  let env : Surroundings := ⟨layouts, f.params.map (·.name) ++ f.locals.map (·.name)⟩
  let (code, next) ← env.block next f.body
  return (⟨symbol, none, f.params.map (varSymbol ·.name), f.locals.map (varSymbol ·.name), true,
    env.initVars f.locals ++ code ++ [.const 0]⟩, next)

/-- The routines of functions in order; loops are numbered through all of them. -/
def routinesOf (layouts : List (String × ClassLayout)) (next : Nat) :
    List (String × FunDef) → Except LowerError (List Routine × Nat)
  | [] => .ok ([], next)
  | (symbol, f) :: rest => do
    let (r, next) ← routineOf layouts next symbol f
    let (rs, next) ← routinesOf layouts next rest
    return (r :: rs, next)

/-- Whether the value of the program is that of its last statement. -/
def hasValue (p : Program) : Bool :=
  match p.stmts.getLast? with
  | some (.expr _) => true
  | _ => false

/-- The routine that runs the statements of a program (`entry`). -/
def entryOf (layouts : List (String × ClassLayout)) (next : Nat) (p : Program) :
    Except LowerError Routine := do
  let env : Surroundings := ⟨layouts, []⟩
  let (code, _) ← env.block next p.stmts
  let value := if hasValue p then [.localGet scratchLocal] else []
  return ⟨entrySymbol, some Wasm.Host.entryName, [], [], hasValue p,
    env.initVars p.globalVars ++ code ++ value⟩

/-- The image of a program (`lower_program`). -/
def ofProgram (p : Program) : Except LowerError Image := do
  let layouts := layoutsOf p
  let (routines, next) ← routinesOf layouts 0 (functionsOf p)
  let entry ← entryOf layouts next p
  return ⟨p.globalVars.map (varSymbol ·.name), routines, entry⟩

end Image

end Serpent
