/-
Serpent.Typing.Check — the types of expressions and statements.

Checking gives back what was checked with the type of every expression written into it. Types that
were there before are not looked at.

  §1 Operators
  §2 Expressions
  §3 Statements
  §4 Paths that return
-/
import Serpent.Typing.Context

namespace Serpent

/-! ## §1 Operators -/

/-- The type of a prefix operation on an operand of type `t` (`unary_result`). -/
def UnOp.result? (op : UnOp) (t : Ty) : Option Ty :=
  match op, t with
  | .neg, .int => some .int
  | .not, .bool => some .bool
  | _, _ => none

/-- The type of a binary operation on operands of types `l` and `r` (`binary_result`). -/
def BinOp.result? (op : BinOp) (l r : Ty) : Option Ty :=
  match op, l, r with
  | .add, .int, .int => some .int
  | .sub, .int, .int => some .int
  | .mul, .int, .int => some .int
  | .floorDiv, .int, .int => some .int
  | .mod, .int, .int => some .int
  | .le, .int, .int => some .bool
  | .ge, .int, .int => some .bool
  | .lt, .int, .int => some .bool
  | .gt, .int, .int => some .bool
  | .eq, .int, .int => some .bool
  | .eq, .bool, .bool => some .bool
  | .ne, .int, .int => some .bool
  | .ne, .bool, .bool => some .bool
  | .and, .bool, .bool => some .bool
  | .or, .bool, .bool => some .bool
  | .is, l, r => if l.isReference && r.isReference then some .bool else none
  | _, _, _ => none

namespace Context

/-! ## §2 Expressions -/

/-- The class of a receiver of type `t` (`object_class`). -/
def receiverClass (receiver : Expr) : Ty → Except TypeError String
  | .object c => .ok c
  | t => .error (.notAnObject t receiver.text)

/-- The type of the field `x` of class `c` (`field_type`). -/
def fieldType (Γ : Context) (c x : String) : Except TypeError Ty :=
  match Γ.classes.field? c x with
  | some t => .ok t
  | none => .error (.unknownField c x)

/-- The signature of the method `x` of class `c` (`method_sig`). -/
def methodType (Γ : Context) (c x : String) : Except TypeError Signature :=
  match Γ.classes.method? c x with
  | some s => .ok s
  | none => .error (.unknownMethod c x)

mutual

/-- An expression with its types, and its own type (`expr`). -/
def expr (Γ : Context) : Expr → Except TypeError (Expr × Ty)
  | .literal _ v => .ok (.literal (some v.ty) v, v.ty)
  | .var _ x =>
    match Γ.lookup? x with
    | some (.variable t) => .ok (.var (some t) x, t)
    | _ => .error (.notAVariable x)
  | .unary _ op e => do
    let (e', t) ← expr Γ e
    match op.result? t with
    | some r => return (.unary (some r) op e', r)
    | none => throw (.unaryOperand op t (Expr.unary none op e).text)
  | .binary _ op l r => do
    let (l', t) ← expr Γ l
    let (r', u) ← expr Γ r
    match op.result? t u with
    | some v => return (.binary (some v) op l' r', v)
    | none => throw (.binaryOperands op t u (Expr.binary none op l r).text)
  | .call _ f args =>
    if f = printFunction then
      match args with
      | [e] => do
        let (e', _) ← expr Γ e
        return (.call (some .none) f [e'], .none)
      | _ => .error (.printArity args.length)
    else
      match Γ.lookup? f with
      | some (.function sig) => do
        if args.length ≠ sig.params.length then
          throw (.arity f sig.params.length args.length)
        let args' ← arguments Γ f 0 sig.params args
        return (.call (some sig.result) f args', sig.result)
      | some (.variable _) => .error (.notCallable f)
      | none =>
        if Γ.classes.has f then
          if args.isEmpty then .ok (.call (some (.object f)) f [], .object f)
          else .error (.constructorArity f args.length)
        else .error (.notCallable f)
  | .field _ o x => do
    let (o', t) ← expr Γ o
    let c ← receiverClass o t
    let t ← Γ.fieldType c x
    return (.field (some t) o' x, t)
  | .method _ o x args => do
    let (o', t) ← expr Γ o
    let c ← receiverClass o t
    let sig ← Γ.methodType c x
    if args.length ≠ sig.params.length then
      throw (.arity (c ++ "." ++ x) sig.params.length args.length)
    let args' ← arguments Γ (c ++ "." ++ x) 0 sig.params args
    return (.method (some sig.result) o' x args', sig.result)

/-- Arguments from position `index` on, each against the type of its parameter (`arguments`). -/
def arguments (Γ : Context) (callee : String) (index : Nat) (params : List Ty) :
    List Expr → Except TypeError (List Expr)
  | [] => .ok []
  | e :: es => do
    let (e', found) ← expr Γ e
    match params with
    | [] => return []
    | expected :: params =>
      if found.assignableTo expected then
        return e' :: (← arguments Γ callee (index + 1) params es)
      else throw (.argumentType callee index expected found)

end

/-! ## §3 Statements -/

/-- The target of an assignment, and the type that it asks for (`lvalue`). A function assigns only
to its own variables. -/
def target (Γ : Context) : Target → Except TypeError (Target × Ty)
  | .var x =>
    match Γ.lookup? x with
    | some (.variable t) =>
      if Γ.isOuter x then .error (.globalAssign x) else .ok (.var x, t)
    | _ => .error (.notAVariable x)
  | .member o x => do
    let (o', t) ← Γ.expr o
    let c ← receiverClass o t
    return (.member o' x, ← Γ.fieldType c x)

/-- A condition, which must be of type `bool` (`condition`). -/
def condition (Γ : Context) (e : Expr) : Except TypeError Expr := do
  let (e', t) ← Γ.expr e
  match t with
  | .bool => return e'
  | t => throw (.condition t e.text)

mutual

/-- A statement with its types (`stmt`). -/
def stmt (Γ : Context) : Stmt → Except TypeError Stmt
  | .pass => .ok .pass
  | .assign lhs e => do
    let (lhs', expected) ← Γ.target lhs
    let (e', found) ← Γ.expr e
    if found.assignableTo expected then return .assign lhs' e'
    else throw (.assignType lhs.text expected found)
  | .expr e => do
    let (e', _) ← Γ.expr e
    return .expr e'
  | .return_ e => do
    let (e', found) ← Γ.expr e
    match Γ.frame with
    | none => throw .returnOutsideFunction
    | some frame =>
      if found.assignableTo frame.result then return .return_ e'
      else throw (.returnType frame.name frame.result found)
  | .while_ c body => do
    let c' ← Γ.condition c
    return .while_ c' (← block Γ body)
  | .if_ c body none none => do
    let c' ← Γ.condition c
    return .if_ c' (← block Γ body) none none
  | .if_ c body none (some orElse) => do
    let c' ← Γ.condition c
    let body' ← block Γ body
    return .if_ c' body' none (some (← block Γ orElse))
  | .if_ c body (some (d, other)) none => do
    let c' ← Γ.condition c
    let body' ← block Γ body
    let d' ← Γ.condition d
    return .if_ c' body' (some (d', ← block Γ other)) none
  | .if_ c body (some (d, other)) (some orElse) => do
    let c' ← Γ.condition c
    let body' ← block Γ body
    let d' ← Γ.condition d
    let other' ← block Γ other
    return .if_ c' body' (some (d', other')) (some (← block Γ orElse))

/-- Statements in order (`block`). -/
def block (Γ : Context) : List Stmt → Except TypeError (List Stmt)
  | [] => .ok []
  | s :: ss => do
    let s' ← stmt Γ s
    return s' :: (← block Γ ss)

end

end Context

/-! ## §4 Paths that return -/

namespace Stmt

mutual

/-- Whether a statement returns on every path (`definitely_returns`). A conditional does if it has
an `else` branch and all its branches do; a loop never counts. -/
def returns : Stmt → Bool
  | .return_ _ => true
  | .if_ _ body none (some orElse) => anyReturns body && anyReturns orElse
  | .if_ _ body (some (_, other)) (some orElse) =>
    anyReturns body && anyReturns other && anyReturns orElse
  | _ => false

/-- Whether some statement of a list returns on every path (`returns_on_all_paths`). -/
def anyReturns : List Stmt → Bool
  | [] => false
  | s :: ss => returns s || anyReturns ss

end

end Stmt

end Serpent
