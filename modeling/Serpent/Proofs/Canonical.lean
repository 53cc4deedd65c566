/-
Serpent.Proofs.Canonical — programs as they are read from a source text.

A program is canonical if it holds nothing that a source text cannot say: no expression has a type
written into it, every name is an identifier, no class is called like a type of numbers or truth
values, no literal is negative, no body is empty, and `return` stands in functions only.

  §1 Types and expressions
  §2 Statements
  §3 Definitions and programs
-/
import Serpent.Program
import Serpent.Proofs.Lexeme

namespace Serpent

/-! ## §1 Types and expressions -/

/-- Whether a type can be named in a source text. -/
def Ty.isCanonical : Ty → Bool
  | .object c => isIdentifier c && c != "int" && c != "bool"
  | _ => true

/-- Whether a literal can be written in a source text. -/
def Literal.isCanonical : Literal → Bool
  | .number n => decide (0 ≤ n)
  | _ => true

namespace Expr

mutual

/-- Whether an expression can be written in a source text. -/
def isCanonical : Expr → Bool
  | .literal ty v => ty.isNone && v.isCanonical
  | .var ty x => ty.isNone && isIdentifier x
  | .unary ty _ e => ty.isNone && isCanonical e
  | .binary ty _ l r => ty.isNone && isCanonical l && isCanonical r
  | .call ty f args => ty.isNone && isIdentifier f && areCanonical args
  | .field ty o x => ty.isNone && isCanonical o && isIdentifier x
  | .method ty o x args => ty.isNone && isCanonical o && isIdentifier x && areCanonical args

/-- Whether every expression of a list can be written in a source text. -/
def areCanonical : List Expr → Bool
  | [] => true
  | e :: es => isCanonical e && areCanonical es

end

theorem areCanonical_iff {es : List Expr} :
    areCanonical es = true ↔ ∀ e ∈ es, e.isCanonical = true := by
  induction es with
  | nil => simp [areCanonical]
  | cons e es ih => simp [areCanonical, ih]

end Expr

/-- Whether the target of an assignment can be written in a source text. -/
def Target.isCanonical : Target → Bool
  | .var x => isIdentifier x
  | .member o x => o.isCanonical && isIdentifier x

/-! ## §2 Statements -/

namespace Stmt

mutual

/-- Whether a statement can be written in a source text, where `mayReturn` says whether it stands
in a function. -/
def isCanonical (mayReturn : Bool) : Stmt → Bool
  | .pass => true
  | .assign t e => t.isCanonical && e.isCanonical
  | .expr e => e.isCanonical
  | .return_ e => mayReturn && e.isCanonical
  | .while_ c body => c.isCanonical && isCanonicalBody mayReturn body
  | .if_ c body none none => c.isCanonical && isCanonicalBody mayReturn body
  | .if_ c body none (some orElse) =>
    c.isCanonical && isCanonicalBody mayReturn body && isCanonicalBody mayReturn orElse
  | .if_ c body (some (d, other)) none =>
    c.isCanonical && isCanonicalBody mayReturn body &&
      (d.isCanonical && isCanonicalBody mayReturn other)
  | .if_ c body (some (d, other)) (some orElse) =>
    c.isCanonical && isCanonicalBody mayReturn body &&
      (d.isCanonical && isCanonicalBody mayReturn other) && isCanonicalBody mayReturn orElse

/-- Whether statements can be the body of another one; a body is not empty. -/
def isCanonicalBody (mayReturn : Bool) : List Stmt → Bool
  | [] => false
  | s :: ss => isCanonical mayReturn s && areCanonical mayReturn ss

/-- Whether every statement of a list can be written in a source text. -/
def areCanonical (mayReturn : Bool) : List Stmt → Bool
  | [] => true
  | s :: ss => isCanonical mayReturn s && areCanonical mayReturn ss

end

theorem areCanonical_iff {mayReturn : Bool} {ss : List Stmt} :
    areCanonical mayReturn ss = true ↔ ∀ s ∈ ss, s.isCanonical mayReturn = true := by
  induction ss with
  | nil => simp [areCanonical]
  | cons s ss ih => simp [areCanonical, ih]

theorem isCanonicalBody_iff {mayReturn : Bool} {ss : List Stmt} :
    isCanonicalBody mayReturn ss = true ↔ ss ≠ [] ∧ areCanonical mayReturn ss = true := by
  cases ss <;> simp [isCanonicalBody, areCanonical]

theorem isCanonical_if_iff {mayReturn : Bool} {c : Expr} {body : List Stmt}
    {elif : Option (Expr × List Stmt)} {orElse : Option (List Stmt)} :
    (if_ c body elif orElse).isCanonical mayReturn = true ↔
      c.isCanonical = true ∧ isCanonicalBody mayReturn body = true ∧
        (∀ e ∈ elif, e.1.isCanonical = true ∧ isCanonicalBody mayReturn e.2 = true) ∧
        ∀ b ∈ orElse, isCanonicalBody mayReturn b = true := by
  rcases elif with _ | ⟨d, other⟩ <;> cases orElse <;> simp [isCanonical, and_assoc]

end Stmt

/-! ## §3 Definitions and programs -/

/-- Whether a variable can be defined so in a source text. -/
def VarDef.isCanonical (v : VarDef) : Bool :=
  isIdentifier v.name && v.ty.isCanonical && v.value.isCanonical

/-- Whether a parameter can be written in a source text. -/
def Param.isCanonical (p : Param) : Bool := isIdentifier p.name && p.ty.isCanonical

/-- Whether a function can be defined so in a source text. Its variables and statements are not
both missing. -/
def FunDef.isCanonical (f : FunDef) : Bool :=
  isIdentifier f.name && f.params.all Param.isCanonical && f.result.isCanonical &&
    f.locals.all VarDef.isCanonical && Stmt.areCanonical true f.body &&
    !(f.locals.isEmpty && f.body.isEmpty)

/-- Whether a class can be defined so in a source text. -/
def ClassDef.isCanonical (c : ClassDef) : Bool :=
  isIdentifier c.name && isIdentifier c.parent && c.fields.all VarDef.isCanonical &&
    c.methods.all FunDef.isCanonical

/-- Whether a definition can be written in a source text. -/
def Def.isCanonical : Def → Bool
  | .var v => v.isCanonical
  | .function f => f.isCanonical
  | .class_ c => c.isCanonical

/-- Whether a program can be written in a source text. -/
def Program.isCanonical (p : Program) : Bool :=
  p.defs.all Def.isCanonical && Stmt.areCanonical false p.stmts

end Serpent
