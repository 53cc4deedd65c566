/-
Serpent.Typing.Error — why a program is not well typed.
-/
import Serpent.Program.Source

namespace Serpent

/-- Why a program is not well typed. -/
inductive TypeError where
  | duplicate (name : String)
  | shadowsClass (name : String)
  | shadowsBuiltin (name : String)
  | notAVariable (name : String)
  | notCallable (name : String)
  | unknownType (name : String)
  | unaryOperand (op : UnOp) (operand : Ty) (expr : String)
  | binaryOperands (op : BinOp) (left right : Ty) (expr : String)
  | arity (callee : String) (expected found : Nat)
  | argumentType (callee : String) (index : Nat) (expected found : Ty)
  | printArity (found : Nat)
  | notAnObject (ty : Ty) (expr : String)
  | unknownField (className name : String)
  | unknownMethod (className name : String)
  | assignType (target : String) (expected found : Ty)
  | globalAssign (name : String)
  | initializerType (name : String) (expected found : Ty)
  | returnType (function : String) (expected found : Ty)
  | returnOutsideFunction
  | condition (found : Ty) (expr : String)
  | missingReturn (function : String) (expected : Ty)
  | methodReceiver (className method : String)
  | constructor (className : String)
  | invalidParent (className parent : String)
  | memberClash (className name : String)
  | constructorArity (className : String) (found : Nat)
deriving DecidableEq, Repr

/-- The error in words. -/
def TypeError.message : TypeError → String
  | duplicate x => "duplicate declaration of identifier in same scope: " ++ x
  | shadowsClass x => x ++ " is already the name of a class"
  | shadowsBuiltin x => x ++ " is a built-in function and cannot be redefined"
  | notAVariable x => "not a variable: " ++ x
  | notCallable x => "not a function or class: " ++ x
  | unknownType x => "invalid type annotation; there is no class named: " ++ x
  | unaryOperand op t e =>
    "cannot apply operator `" ++ op.text ++ "` on type " ++ t.text ++ " in `" ++ e ++ "`"
  | binaryOperands op l r e =>
    "cannot apply operator `" ++ op.text ++ "` on types " ++ l.text ++ " and " ++ r.text ++
      " in `" ++ e ++ "`"
  | arity f expected found =>
    "expected " ++ toString expected ++ " arguments for " ++ f ++ ", got " ++ toString found
  | argumentType f index expected found =>
    "expected type " ++ expected.text ++ " for argument " ++ toString index ++ " of " ++ f ++
      ", got " ++ found.text
  | printArity found => "print takes exactly one argument, got " ++ toString found
  | notAnObject t e =>
    "cannot access members of non-object type " ++ t.text ++ " in `" ++ e ++ "`"
  | unknownField c x => "there is no attribute named " ++ x ++ " in class " ++ c
  | unknownMethod c x => "there is no method named " ++ x ++ " in class " ++ c
  | assignType target expected found =>
    "expected type " ++ expected.text ++ "; got type " ++ found.text ++ " in assignment to `" ++
      target ++ "`"
  | globalAssign x =>
    "cannot assign to variable that is not explicitly declared in this scope: " ++ x
  | initializerType x expected found =>
    "expected type " ++ expected.text ++ "; got type " ++ found.text ++ " in initializer of " ++ x
  | returnType f expected found =>
    "expected type " ++ expected.text ++ "; got type " ++ found.text ++ " in return from " ++ f
  | returnOutsideFunction => "return outside of a function"
  | condition found e =>
    "condition expected type bool; got type " ++ found.text ++ " in `" ++ e ++ "`"
  | missingReturn f expected =>
    "all paths in " ++ f ++ " must return a value of type " ++ expected.text
  | methodReceiver c m =>
    "first parameter of method " ++ c ++ "." ++ m ++ " must be of the enclosing class"
  | constructor c => c ++ ".__init__ must take only self and return None"
  | invalidParent c p => "class " ++ c ++ " cannot inherit from " ++ p
  | memberClash c x => x ++ " is declared as both an attribute and a method of " ++ c
  | constructorArity c found =>
    "constructor of " ++ c ++ " takes no arguments, got " ++ toString found

end Serpent
