/-
Serpent.Program.Source — the source form of a program.

A program is written as lines, each with the depth of the block that it stands in; a level of depth
is four blanks. An operand that is itself an operation is put in parentheses, and so is a number
before a point, which would be read as a part of the number. An empty block is written `pass`.

  §1 Expressions
  §2 Lines
-/
import Serpent.Program
import Serpent.Text.Line

namespace Serpent

/-! ## §1 Expressions -/

/-- How a type is written. -/
def Ty.text : Ty → String
  | .int => "int"
  | .bool => "bool"
  | .none => "None"
  | .object c => c

/-- How a literal is written. -/
def Literal.text : Literal → String
  | .none => "None"
  | .number n => Word.text n
  | .bool true => "True"
  | .bool false => "False"

/-- A text in parentheses, if it needs them. -/
def parenthesizedIf (needed : Bool) (text : String) : String :=
  if needed then "(" ++ text ++ ")" else text

namespace Expr

/-- Whether an expression is a prefix or a binary operation (`Operand`). -/
def isOperation : Expr → Bool
  | .unary .. => true
  | .binary .. => true
  | _ => false

/-- Whether an expression needs parentheses before a point (`Receiver`). -/
def isOpenReceiver : Expr → Bool
  | .literal _ (.number _) => true
  | e => e.isOperation

mutual

/-- How an expression is written. -/
def text : Expr → String
  | .literal _ v => v.text
  | .var _ x => x
  | .unary _ .neg e => "-" ++ parenthesizedIf e.isOperation (text e)
  | .unary _ .not e => "not " ++ parenthesizedIf e.isOperation (text e)
  | .binary _ op l r =>
    parenthesizedIf l.isOperation (text l) ++ " " ++ op.text ++ " " ++
      parenthesizedIf r.isOperation (text r)
  | .call _ f args => f ++ "(" ++ String.intercalate ", " (texts args) ++ ")"
  | .field _ o m => parenthesizedIf o.isOpenReceiver (text o) ++ "." ++ m
  | .method _ o m args =>
    parenthesizedIf o.isOpenReceiver (text o) ++ "." ++ m ++ "(" ++
      String.intercalate ", " (texts args) ++ ")"

/-- How each expression of a list is written (`write_args`). -/
def texts : List Expr → List String
  | [] => []
  | e :: es => text e :: texts es

end

end Expr

/-- How the target of an assignment is written. -/
def Target.text : Target → String
  | .var x => x
  | .member o m => parenthesizedIf o.isOpenReceiver o.text ++ "." ++ m

/-- How a variable definition is written. -/
def VarDef.text (v : VarDef) : String := v.name ++ ": " ++ v.ty.text ++ " = " ++ v.value.text

/-! ## §2 Lines -/

namespace Stmt

mutual

/-- The lines of a statement in a block of the given depth (`write_stmt`). -/
def lines (depth : Nat) : Stmt → List Line
  | .pass => [⟨depth, "pass"⟩]
  | .assign target value => [⟨depth, target.text ++ " = " ++ value.text⟩]
  | .expr e => [⟨depth, e.text⟩]
  | .return_ e => [⟨depth, "return " ++ e.text⟩]
  | .while_ cond body => ⟨depth, "while " ++ cond.text ++ ":"⟩ :: blockLines (depth + 1) body
  | .if_ cond body none none =>
    ⟨depth, "if " ++ cond.text ++ ":"⟩ :: blockLines (depth + 1) body
  | .if_ cond body none (some orElse) =>
    ⟨depth, "if " ++ cond.text ++ ":"⟩ :: blockLines (depth + 1) body ++
      ⟨depth, "else:"⟩ :: blockLines (depth + 1) orElse
  | .if_ cond body (some (cond', body')) none =>
    ⟨depth, "if " ++ cond.text ++ ":"⟩ :: blockLines (depth + 1) body ++
      ⟨depth, "elif " ++ cond'.text ++ ":"⟩ :: blockLines (depth + 1) body'
  | .if_ cond body (some (cond', body')) (some orElse) =>
    ⟨depth, "if " ++ cond.text ++ ":"⟩ :: blockLines (depth + 1) body ++
      ⟨depth, "elif " ++ cond'.text ++ ":"⟩ :: blockLines (depth + 1) body' ++
      ⟨depth, "else:"⟩ :: blockLines (depth + 1) orElse

/-- The lines of a block; a block without statements is written `pass` (`write_block`). -/
def blockLines (depth : Nat) : List Stmt → List Line
  | [] => [⟨depth, "pass"⟩]
  | s :: ss => lines depth s ++ listLines depth ss

/-- The lines of statements that follow each other. -/
def listLines (depth : Nat) : List Stmt → List Line
  | [] => []
  | s :: ss => lines depth s ++ listLines depth ss

end

end Stmt

/-- How a parameter is written. -/
def Param.text (p : Param) : String := p.name ++ ": " ++ p.ty.text

/-- The first line of a function; a result of type `None` is not written. -/
def FunDef.header (f : FunDef) : String :=
  "def " ++ f.name ++ "(" ++ String.intercalate ", " (f.params.map Param.text) ++ ")" ++
    (if f.result = .none then "" else " -> " ++ f.result.text) ++ ":"

/-- The lines of a function; `pass` is written only if there are no local variables either
(`write_function`). -/
def FunDef.lines (depth : Nat) (f : FunDef) : List Line :=
  ⟨depth, f.header⟩ :: f.locals.map (fun v => ⟨depth + 1, v.text⟩) ++
    (if f.locals = [] then Stmt.blockLines (depth + 1) f.body
     else Stmt.listLines (depth + 1) f.body)

/-- The lines of a class. -/
def ClassDef.lines (c : ClassDef) : List Line :=
  let members := c.fields.map (fun v => ⟨1, v.text⟩) ++ c.methods.flatMap (FunDef.lines 1)
  ⟨0, "class " ++ c.name ++ "(" ++ c.parent ++ "):"⟩ ::
    (if members = [] then [⟨1, "pass"⟩] else members)

/-- The lines of a definition. -/
def Def.lines : Def → List Line
  | .var v => [⟨0, v.text⟩]
  | .function f => f.lines 0
  | .class_ c => c.lines

/-- The lines of a program. -/
def Program.lines (p : Program) : List Line :=
  p.defs.flatMap Def.lines ++ Stmt.listLines 0 p.stmts

/-- The source form of a program. -/
def Program.text (p : Program) : String := Line.renderAll "    " p.lines

end Serpent
