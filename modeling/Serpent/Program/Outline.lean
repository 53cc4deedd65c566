/-
Serpent.Program.Outline — a program with all its parts by name.
-/
import Serpent.Program
import Serpent.Text.Outline
import Serpent.Text.Quoted

namespace Serpent

open Outline

/-- A value that may be missing. -/
def Outline.option {α : Type} (f : α → Outline) : Option α → Outline
  | some a => group "Some" [f a]
  | none => word "None"

/-- A name or another text. -/
def Outline.quote (text : String) : Outline := word (quoted text)

def Ty.outline : Ty → Outline
  | .int => word "Int"
  | .bool => word "Bool"
  | .none => word "None"
  | .object c => group "Object" [quote c]

def Literal.outline : Literal → Outline
  | .none => .word "None"
  | .number n => group "Number" [.word (Word.text n)]
  | .bool true => .word "True"
  | .bool false => .word "False"

/-- The name of an operator. -/
def UnOp.label : UnOp → String
  | .neg => "Neg"
  | .not => "Not"

/-- The name of an operator. -/
def BinOp.label : BinOp → String
  | .add => "Add"
  | .sub => "Sub"
  | .mul => "Mul"
  | .floorDiv => "FloorDiv"
  | .mod => "Mod"
  | .eq => "Eq"
  | .ne => "Ne"
  | .le => "Le"
  | .ge => "Ge"
  | .lt => "Lt"
  | .gt => "Gt"
  | .and => "And"
  | .or => "Or"
  | .is => "Is"

/-- An expression: what it is, and its type. -/
def Expr.withType (ty : Option Ty) (kind : Outline) : Outline :=
  record "Expr" [("kind", kind), ("ty", option Ty.outline ty)]

mutual

def Expr.outline : Expr → Outline
  | .literal ty v => withType ty (group "Literal" [v.outline])
  | .var ty x => withType ty (group "Id" [quote x])
  | .unary ty op e => withType ty (record "UnOp" [("op", .word op.label), ("expr", e.outline)])
  | .binary ty op l r =>
    withType ty (record "BinOp" [("op", .word op.label), ("lhs", l.outline), ("rhs", r.outline)])
  | .call ty f args =>
    withType ty (record "Call" [("name", quote f), ("args", list (outlines args))])
  | .field ty o x => withType ty (record "Field" [("obj", o.outline), ("name", quote x)])
  | .method ty o x args =>
    withType ty (record "Method"
      [("obj", o.outline), ("name", quote x), ("args", list (outlines args))])

def Expr.outlines : List Expr → List Outline
  | [] => []
  | e :: es => e.outline :: Expr.outlines es

end

def Target.outline : Target → Outline
  | .var x => group "Variable" [quote x]
  | .member o x => record "Member" [("obj", o.outline), ("name", quote x)]

mutual

def Stmt.outline : Stmt → Outline
  | .pass => word "Pass"
  | .assign target value =>
    record "Assign" [("target", target.outline), ("value", value.outline)]
  | .expr e => group "Expr" [e.outline]
  | .return_ e => group "Return" [e.outline]
  | .while_ c body => record "While" [("cond", c.outline), ("body", list (outlines body))]
  | .if_ c body elif orElse =>
    let elif := match elif with
      | none => word "None"
      | some (d, other) =>
        group "Some" [record "ElifBranch" [("cond", d.outline), ("body", list (outlines other))]]
    let orElse := match orElse with
      | none => word "None"
      | some body => group "Some" [list (outlines body)]
    group "If" [record "IfStmt"
      [("cond", c.outline), ("body", list (outlines body)), ("elif", elif),
       ("else_body", orElse)]]

def Stmt.outlines : List Stmt → List Outline
  | [] => []
  | s :: ss => s.outline :: Stmt.outlines ss

end

def VarDef.outline (v : VarDef) : Outline :=
  record "VarDef" [("name", quote v.name), ("ty", v.ty.outline), ("value", v.value.outline)]

def Param.outline (p : Param) : Outline :=
  record "Parameter" [("name", quote p.name), ("ty", p.ty.outline)]

def FunDef.outline (f : FunDef) : Outline :=
  record "FunDef"
    [("name", quote f.name), ("params", list (f.params.map Param.outline)),
     ("ret", f.result.outline), ("defs", list (f.locals.map VarDef.outline)),
     ("body", list (Stmt.outlines f.body))]

def ClassDef.outline (c : ClassDef) : Outline :=
  record "ClassDef"
    [("name", quote c.name), ("parent", quote c.parent),
     ("fields", list (c.fields.map VarDef.outline)),
     ("methods", list (c.methods.map FunDef.outline))]

def Def.outline : Def → Outline
  | .var v => group "Variable" [v.outline]
  | .function f => group "Function" [f.outline]
  | .class_ c => group "Class" [c.outline]

/-- A program with all its parts by name. -/
def Program.outline (p : Program) : Outline :=
  record "Program"
    [("defs", list (p.defs.map Def.outline)), ("stmts", list (Stmt.outlines p.stmts))]

end Serpent
