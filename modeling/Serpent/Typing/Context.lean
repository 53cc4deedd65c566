/-
Serpent.Typing.Context — what names mean while a program is checked.

A name of a class is looked up in the class table; any other name first among the local names of
the function that is being checked and then among the global names.
-/
import Serpent.Typing.Error

namespace Serpent

/-- The types of the parameters and of the result of a function (`FunSig`). -/
structure Signature where
  params : List Ty
  result : Ty
deriving DecidableEq, Repr

/-- The members of a class. The signature of a method leaves out the receiver. -/
structure ClassInfo where
  fields : List (String × Ty) := []
  methods : List (String × Signature) := []
deriving DecidableEq, Repr

/-- The known classes by name (`TypeContext`). -/
abbrev ClassTable := List (String × ClassInfo)

namespace ClassTable

/-- The table before any class is declared: `object` needs no declaration. -/
def initial : ClassTable := [(objectClass, {})]

/-- Whether a class is known (`has_class`). -/
def has (table : ClassTable) (c : String) : Bool := (table.lookup c).isSome

/-- The type of a field of a class. -/
def field? (table : ClassTable) (c x : String) : Option Ty :=
  (table.lookup c).bind (·.fields.lookup x)

/-- The signature of a method of a class. -/
def method? (table : ClassTable) (c x : String) : Option Signature :=
  (table.lookup c).bind (·.methods.lookup x)

/-- Give a known class its members. -/
def install (table : ClassTable) (c : String) (info : ClassInfo) : ClassTable :=
  table.map fun entry => if entry.1 = c then (c, info) else entry

/-- A type may be named unless it is a class that is not known (`require_type`). -/
def requireType (table : ClassTable) : Ty → Except TypeError Unit
  | .object c => if table.has c then .ok () else .error (.unknownType c)
  | _ => .ok ()

end ClassTable

/-- What a name other than that of a class stands for. -/
inductive Binding where
  | variable (ty : Ty)
  | function (sig : Signature)
deriving DecidableEq, Repr

/-- Names declared in one place, the last one first (`VarEnv`). -/
abbrev Scope := List (String × Binding)

/-- The function that is being checked: its name in messages, its result and its local names
(`FunctionFrame`). -/
structure Frame where
  name : String
  result : Ty
  locals : Scope
deriving DecidableEq, Repr

/-- What names mean in one place of a program; outside of functions there is no frame
(`Checker`). -/
structure Context where
  classes : ClassTable
  globals : Scope
  frame : Option Frame := none
deriving DecidableEq, Repr

namespace Context

/-- The local names, if any. -/
def locals (Γ : Context) : Scope := (Γ.frame.map (·.locals)).getD []

/-- What a name stands for (`get`). -/
def lookup? (Γ : Context) (x : String) : Option Binding :=
  (Γ.locals.lookup x).or (Γ.globals.lookup x)

/-- Whether a name stands for a global variable seen from inside a function. -/
def isOuter (Γ : Context) (x : String) : Bool :=
  Γ.frame.isSome && (Γ.locals.lookup x).isNone

end Context

end Serpent
