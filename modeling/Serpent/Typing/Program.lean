/-
Serpent.Typing.Program — checking a whole program.

Names are declared before anything that uses them is checked, so definitions may refer to later
ones: first the global variables, then the classes, then their members, then the functions; then
the bodies in the order of the definitions, and last the statements.

  §1 Variables
  §2 Classes
  §3 Functions
  §4 Programs
-/
import Serpent.Typing.Check

namespace Serpent

/-! ## §1 Variables -/

/-- The initial value of a variable must fit its type (`check_initializer`). -/
def VarDef.checkInitializer (v : VarDef) : Except TypeError Unit :=
  if v.value.ty.assignableTo v.ty then .ok ()
  else .error (.initializerType v.name v.ty v.value.ty)

/-- A name that is declared must be new in its scope and no class. -/
def Scope.requireFresh (classes : ClassTable) (scope : Scope) (x : String) :
    Except TypeError Unit :=
  if classes.has x then .error (.shadowsClass x)
  else if (scope.lookup x).isSome then .error (.duplicate x)
  else .ok ()

/-- A scope with one more parameter. -/
def Scope.declareParam (classes : ClassTable) (scope : Scope) (p : Param) :
    Except TypeError Scope := do
  scope.requireFresh classes p.name
  return (p.name, .variable p.ty) :: scope

/-- A scope with one more variable (`declare_variable`). -/
def Scope.declareVariable (classes : ClassTable) (scope : Scope) (v : VarDef) :
    Except TypeError Scope := do
  scope.requireFresh classes v.name
  v.checkInitializer
  return (v.name, .variable v.ty) :: scope

/-! ## §2 Classes -/

/-- A class table with one more class, which must be new and no global variable
(`declare_class`). -/
def ClassTable.declare (globals : Scope) (table : ClassTable) (c : ClassDef) :
    Except TypeError ClassTable :=
  if c.name = printFunction then .error (.shadowsBuiltin c.name)
  else if table.has c.name then .error (.duplicate c.name)
  else if (globals.lookup c.name).isSome then .error (.shadowsClass c.name)
  else .ok ((c.name, {}) :: table)

/-- The signature of a function, whose types must be known (`signature`). -/
def ClassTable.signature (table : ClassTable) (f : FunDef) : Except TypeError Signature := do
  f.params.forM fun p => table.requireType p.ty
  table.requireType f.result
  return ⟨f.params.map (·.ty), f.result⟩

/-- The fields of a class with one more field. -/
def ClassTable.addField (table : ClassTable) (fields : List (String × Ty)) (v : VarDef) :
    Except TypeError (List (String × Ty)) := do
  if (fields.lookup v.name).isSome then throw (.duplicate v.name)
  table.requireType v.ty
  v.checkInitializer
  return (v.name, v.ty) :: fields

/-- The methods of class `c` with one more method. Its first parameter is the receiver; the method
that constructs has no other and no result. -/
def ClassTable.addMethod (table : ClassTable) (c : String) (fields : List (String × Ty))
    (methods : List (String × Signature)) (m : FunDef) :
    Except TypeError (List (String × Signature)) := do
  if (methods.lookup m.name).isSome then throw (.duplicate m.name)
  if (fields.lookup m.name).isSome then throw (.memberClash c m.name)
  if (m.params.head?.map (·.ty)) ≠ some (.object c) then throw (.methodReceiver c m.name)
  if m.name = initMethod ∧ (m.params.length ≠ 1 ∨ m.result ≠ .none) then throw (.constructor c)
  let sig ← table.signature m
  return (m.name, ⟨sig.params.drop 1, sig.result⟩) :: methods

/-- A class table in which the class `c` has its members (`install_members`). -/
def ClassTable.addMembers (table : ClassTable) (c : ClassDef) : Except TypeError ClassTable := do
  if c.parent = c.name ∨ table.has c.parent = false then throw (.invalidParent c.name c.parent)
  let fields ← c.fields.foldlM table.addField []
  let methods ← c.methods.foldlM (table.addMethod c.name fields) []
  return table.install c.name ⟨fields, methods⟩

/-! ## §3 Functions -/

/-- A scope with one more function (`declare_function`). -/
def Scope.declareFunction (classes : ClassTable) (scope : Scope) (f : FunDef) :
    Except TypeError Scope := do
  if f.name = printFunction then throw (.shadowsBuiltin f.name)
  scope.requireFresh classes f.name
  let sig ← classes.signature f
  return (f.name, .function sig) :: scope

/-- A scope with one more variable of a function, whose type must be known. -/
def Scope.declareLocal (classes : ClassTable) (scope : Scope) (v : VarDef) :
    Except TypeError Scope := do
  classes.requireType v.ty
  scope.declareVariable classes v

/-- The local names of a function: its parameters, then its variables (`function_scope`). -/
def FunDef.scope (classes : ClassTable) (f : FunDef) : Except TypeError Scope := do
  let params ← f.params.foldlM (Scope.declareParam classes) []
  f.locals.foldlM (Scope.declareLocal classes) params

/-- The body of a function with its types; `name` is what messages call the function
(`function_body`). -/
def Context.function (Γ : Context) (name : String) (f : FunDef) : Except TypeError FunDef := do
  let locals ← f.scope Γ.classes
  let body ← { Γ with frame := some ⟨name, f.result, locals⟩ }.block f.body
  if f.result ≠ .none ∧ Stmt.anyReturns f.body = false then
    throw (.missingReturn name f.result)
  return { f with body }

/-! ## §4 Programs -/

/-- A definition with its types. -/
def Context.definition (Γ : Context) : Def → Except TypeError Def
  | .var v => .ok (.var v)
  | .function f => do return .function (← Γ.function f.name f)
  | .class_ c => do
    let methods ← c.methods.mapM fun m => Γ.function (c.name ++ "." ++ m.name) m
    return .class_ { c with methods }

/-- What the names of a program mean outside of its functions (`program`). -/
def Program.context (p : Program) : Except TypeError Context := do
  let globals ← p.globalVars.foldlM (Scope.declareVariable .initial) []
  let classes ← p.classes.foldlM (ClassTable.declare globals) .initial
  p.globalVars.forM fun v => classes.requireType v.ty
  let classes ← p.classes.foldlM ClassTable.addMembers classes
  let globals ← p.functions.foldlM (Scope.declareFunction classes) globals
  return { classes, globals }

/-- A program with the type of every expression written into it (`type_check_program`). -/
def Program.check (p : Program) : Except TypeError Program := do
  let Γ ← p.context
  let defs ← p.defs.mapM Γ.definition
  let stmts ← Γ.block p.stmts
  return ⟨defs, stmts⟩

end Serpent
