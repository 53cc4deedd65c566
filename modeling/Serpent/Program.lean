/-
Serpent.Program — programs of the language.

  §1 Types, literals and operators
  §2 Expressions and statements
  §3 Definitions and programs

Values are 32-bit words. Every expression has room for the type that checking finds for it.
-/
import Serpent.Word

namespace Serpent

/-! ## §1 Types, literals and operators -/

/-- A static type (`Type`). A class is a type of its own, whatever its parent is. -/
inductive Ty where
  | int
  | bool
  | none
  | object (className : String)
deriving DecidableEq, Repr

namespace Ty

/-- `None` may stand where any type is asked for; any other type only where it is asked for
(`is_assignable_to`). -/
def assignableTo (found expected : Ty) : Bool := found = .none || found = expected

/-- The types that `is` compares (`is_reference`). -/
def isReference : Ty → Bool
  | .none => true
  | .object _ => true
  | _ => false

/-- The class of an object type (`class_name`). -/
def class? : Ty → Option String
  | .object c => some c
  | _ => Option.none

end Ty

/-- A literal value. -/
inductive Literal where
  | none
  | number (n : Word)
  | bool (b : Bool)
deriving DecidableEq, Repr

namespace Literal

/-- The type of a literal (`ty`). -/
def ty : Literal → Ty
  | none => .none
  | number _ => .int
  | bool _ => .bool

/-- The word that stands for a literal (`literal_value`). -/
def word : Literal → Word
  | none => 0
  | number n => n
  | bool b => Word.ofBool b

end Literal

/-- The prefix operators. -/
inductive UnOp where
  | neg
  | not
deriving DecidableEq, Repr

namespace UnOp

/-- How an operator is written (`as_str`). -/
def text : UnOp → String
  | neg => "-"
  | not => "not"

def all : List UnOp := [neg, not]

/-- The operator that is written so (`parse`). -/
def ofText? (t : String) : Option UnOp := all.find? (·.text == t)

end UnOp

/-- The binary operators. -/
inductive BinOp where
  | add | sub | mul | floorDiv | mod
  | eq | ne | le | ge | lt | gt
  | and | or | is
deriving DecidableEq, Repr

namespace BinOp

/-- How an operator is written (`as_str`). -/
def text : BinOp → String
  | add => "+"
  | sub => "-"
  | mul => "*"
  | floorDiv => "//"
  | mod => "%"
  | eq => "=="
  | ne => "!="
  | le => "<="
  | ge => ">="
  | lt => "<"
  | gt => ">"
  | and => "and"
  | or => "or"
  | is => "is"

def all : List BinOp :=
  [add, sub, mul, floorDiv, mod, eq, ne, le, ge, lt, gt, and, or, is]

/-- The operator that is written so (`parse`). -/
def ofText? (t : String) : Option BinOp := all.find? (·.text == t)

end BinOp

/-! ## §2 Expressions and statements -/

/-- An expression. The first field of each form is the type found by checking, if any. -/
inductive Expr where
  | literal (ty : Option Ty) (value : Literal)
  | var (ty : Option Ty) (x : String)
  | unary (ty : Option Ty) (op : UnOp) (e : Expr)
  | binary (ty : Option Ty) (op : BinOp) (left right : Expr)
  /-- A call of a function or of `print`, or the construction of an object. -/
  | call (ty : Option Ty) (callee : String) (args : List Expr)
  | field (ty : Option Ty) (receiver : Expr) (member : String)
  | method (ty : Option Ty) (receiver : Expr) (member : String) (args : List Expr)
deriving Repr

/-- The type that an expression is annotated with. -/
def Expr.ty? : Expr → Option Ty
  | .literal ty _ => ty
  | .var ty _ => ty
  | .unary ty _ _ => ty
  | .binary ty _ _ _ => ty
  | .call ty _ _ => ty
  | .field ty _ _ => ty
  | .method ty _ _ _ => ty

/-- What an assignment changes (`LValue`). -/
inductive Target where
  | var (x : String)
  | member (receiver : Expr) (member : String)
deriving Repr

/-- A statement. A conditional has at most one `elif` branch and may have an `else` branch. -/
inductive Stmt where
  | pass
  | assign (target : Target) (value : Expr)
  | expr (e : Expr)
  | return_ (e : Expr)
  | while_ (cond : Expr) (body : List Stmt)
  | if_ (cond : Expr) (body : List Stmt) (elif : Option (Expr × List Stmt))
      (orElse : Option (List Stmt))
deriving Repr

/-! ## §3 Definitions and programs -/

/-- A variable with its declared type and its initial value. -/
structure VarDef where
  name : String
  ty : Ty
  value : Literal
deriving DecidableEq, Repr

/-- A parameter of a function (`Parameter`). -/
structure Param where
  name : String
  ty : Ty
deriving DecidableEq, Repr

/-- A function or a method, with its local variables before its statements. -/
structure FunDef where
  name : String
  params : List Param
  result : Ty
  locals : List VarDef
  body : List Stmt
deriving Repr

/-- A class with its fields and methods. -/
structure ClassDef where
  name : String
  parent : String
  fields : List VarDef
  methods : List FunDef
deriving Repr

/-- A definition at the top level. -/
inductive Def where
  | var (v : VarDef)
  | function (f : FunDef)
  | class_ (c : ClassDef)
deriving Repr

/-- A program: definitions, and then the statements that run. -/
structure Program where
  defs : List Def
  stmts : List Stmt
deriving Repr

namespace Program

/-- The global variables, in order (`variables`). -/
def globalVars (p : Program) : List VarDef :=
  p.defs.filterMap fun
    | .var v => some v
    | _ => none

/-- The functions, in order (`functions`). -/
def functions (p : Program) : List FunDef :=
  p.defs.filterMap fun
    | .function f => some f
    | _ => none

/-- The classes, in order (`classes`). -/
def classes (p : Program) : List ClassDef :=
  p.defs.filterMap fun
    | .class_ c => some c
    | _ => none

end Program

/-- The class that every other class descends from, and that needs no definition (`OBJECT`). -/
def objectClass : String := "object"

/-- The method that runs when an object is constructed (`INIT`). -/
def initMethod : String := "__init__"

/-- The function that writes one line (`PRINT`). -/
def printFunction : String := "print"

end Serpent
