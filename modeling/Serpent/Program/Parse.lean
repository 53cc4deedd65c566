/-
Serpent.Program.Parse — reading a program from its source text.

The tree of a source text admits more than the language does. Here the tree is read as a program,
and the first part of it that the language does not admit is named.

  §1 What a script may not hold
  §2 Expressions
  §3 Variables, types and parameters
  §4 Statements
  §5 Functions, classes and programs
-/
import Serpent.Program
import Serpent.Text.Decimal
import Serpent.Tree.Source

namespace Serpent

/-! ## §1 What a script may not hold -/

/-- A part of a script that the language does not admit. -/
inductive Fault where
  | definitionAfterStatement
  | missingInitializer
  | nonLiteralInitializer
  | invalidDefinitionTarget
  | invalidAssignTarget
  | invalidType
  | nestedFunction
  | nestedClass
  | invalidClassHeader
  | nonDefinitionInClass
  | returnOutsideFunction
  | multipleElif
  | unknownOperator
  | invalidNumber
  | invalidCallee
  /-- A node where the grammar puts none of its kind. -/
  | unexpected
deriving DecidableEq, Repr

/-- The fault of a fragment of source in words. -/
def Fault.message (fragment : String) : Fault → String
  | definitionAfterStatement => "definitions must come before statements: `" ++ fragment ++ "`"
  | missingInitializer => "variable definition needs an initializer: `" ++ fragment ++ "`"
  | nonLiteralInitializer =>
    "variables can only be initialized with a literal: `" ++ fragment ++ "`"
  | invalidDefinitionTarget => "only a plain name can be declared: `" ++ fragment ++ "`"
  | invalidAssignTarget => "cannot assign to `" ++ fragment ++ "`"
  | invalidType => "invalid type annotation: `" ++ fragment ++ "`"
  | nestedFunction => "nested functions are not supported: `" ++ fragment ++ "`"
  | nestedClass => "classes can only be defined at the top level: `" ++ fragment ++ "`"
  | invalidClassHeader => "class must name exactly one parent class: `" ++ fragment ++ "`"
  | nonDefinitionInClass => "class bodies may only contain fields and methods: `" ++ fragment ++ "`"
  | returnOutsideFunction => "return outside of a function: `" ++ fragment ++ "`"
  | multipleElif => "at most one elif is supported: `" ++ fragment ++ "`"
  | unknownOperator => "unsupported operator `" ++ fragment ++ "`"
  | invalidNumber => "invalid integer literal `" ++ fragment ++ "`"
  | invalidCallee => "only functions, classes and methods can be called: `" ++ fragment ++ "`"
  | unexpected => "unexpected `" ++ fragment ++ "`"

/-- Why a source text is no program. -/
inductive ParseError where
  | lexical (e : LexError)
  | grammar (e : SyntaxError)
  | fault (f : Fault) (fragment : String) (span : Span)
  | missingParamType (name : String) (span : Span)
deriving DecidableEq, Repr

namespace ParseError

/-- Where the fault is. -/
def span : ParseError → Span
  | lexical e => e.span
  | grammar e => e.span
  | fault _ _ s => s
  | missingParamType _ s => s

/-- The fault in words. -/
def message : ParseError → String
  | lexical e => e.message
  | grammar e => e.message
  | fault f fragment _ => f.message fragment
  | missingParamType x _ => "parameter `" ++ x ++ "` is missing a type annotation"

end ParseError

namespace SourceTree

/-- A node has a fault (`reject`). -/
def refuse {α : Type} (tree : SourceTree) (f : Fault) (node : Node) : Except ParseError α :=
  .error (.fault f (tree.text node) (tree.span node))

/-! ## §2 Expressions -/

/-- The value of a numeral that fits a word. -/
def numeral? (text : String) : Option Word :=
  match natOfDigits? text.toList with
  | some n => if n < Word.half then some (Int32.ofNat n) else none
  | none => none

/-- A literal (`literal`). -/
def literal (tree : SourceTree) (node : Node) : Except ParseError Literal :=
  match node.kind with
  | .none => .ok .none
  | .boolean => .ok (.bool (tree.text node == "True"))
  | .number =>
    match numeral? (tree.text node) with
    | some n => .ok (.number n)
    | none => tree.refuse .invalidNumber node
  | _ => tree.refuse .unexpected node

mutual

/-- An expression (`expr`). The operator of an operation is looked at before its operands, and the
arguments of a call before what is called. -/
def expr (tree : SourceTree) : Node → Except ParseError Expr
  | .mk .unaryExpression _ _ [op, e] =>
    match UnOp.ofText? (tree.text op) with
    | none => tree.refuse .unknownOperator op
    | some o => do return .unary none o (← expr tree e)
  | .mk .binaryExpression _ _ [l, op, r] =>
    match BinOp.ofText? (tree.text op) with
    | none => tree.refuse .unknownOperator op
    | some o => do
      let left ← expr tree l
      return .binary none o left (← expr tree r)
  | .mk .parenthesizedExpression _ _ [e] => expr tree e
  | .mk .memberExpression _ _ [o, m] => do return .field none (← expr tree o) (tree.text m)
  | .mk .callExpression _ _ [callee, .mk _ _ _ args] => do
    let args ← exprs tree args
    match callee with
    | .mk .memberExpression _ _ [o, m] => return .method none (← expr tree o) (tree.text m) args
    | .mk .variableName first stop parts =>
      return .call none (tree.text (.mk .variableName first stop parts)) args
    | .mk .memberExpression first stop parts =>
      tree.refuse .unexpected (.mk .memberExpression first stop parts)
    | node => tree.refuse .invalidCallee node
  | node =>
    match node.kind with
    | .float => tree.refuse .invalidNumber node
    | .variableName => .ok (.var none (tree.text node))
    | _ => do return .literal none (← tree.literal node)

/-- Expressions in order. -/
def exprs (tree : SourceTree) : List Node → Except ParseError (List Expr)
  | [] => .ok []
  | e :: es => do
    let first ← expr tree e
    return first :: (← exprs tree es)

end

/-! ## §3 Variables, types and parameters -/

/-- The type in an annotation: `None`, or a name (`type_annotation`). -/
def type (tree : SourceTree) (node : Node) : Except ParseError Ty :=
  match node.children with
  | t :: _ =>
    match t.kind with
    | .none => .ok .none
    | .variableName =>
      match tree.text t with
      | "int" => .ok .int
      | "bool" => .ok .bool
      | c => .ok (.object c)
    | _ => tree.refuse .invalidType t
  | [] => tree.refuse .unexpected node

/-- The initial value of a variable, which must be a literal. -/
def initializer (tree : SourceTree) (node : Node) : Except ParseError Literal :=
  match node.kind with
  | .none | .boolean | .number => tree.literal node
  | .float => tree.refuse .invalidNumber node
  | _ => tree.refuse .nonLiteralInitializer node

/-- A variable definition (`var_def`). Its target is looked at first, then its type, then its
value. -/
def varDef (tree : SourceTree) (node : Node) : Except ParseError VarDef :=
  match node.children with
  | target :: rest => do
    if target.kind ≠ .variableName then tree.refuse .invalidDefinitionTarget target
    else
      match rest with
      | [] => tree.refuse .unexpected node
      | annotated :: value => do
        let ty ← tree.type annotated
        match value with
        | [] => tree.refuse .missingInitializer node
        | v :: _ => return ⟨tree.text target, ty, ← tree.initializer v⟩
  | [] => tree.refuse .unexpected node

/-- A parameter, which must have a type (`parameter`). -/
def param (tree : SourceTree) (node : Node) : Except ParseError Param :=
  match node.children with
  | [] => tree.refuse .unexpected node
  | x :: _ =>
    match node.child? .typeDef with
    | some t => do return ⟨tree.text x, ← tree.type t⟩
    | none => .error (.missingParamType (tree.text x) (tree.span node))

/-! ## §4 Statements -/

/-- Whether statements stand in a function or not (`Scope`). -/
inductive Place where
  | topLevel
  | inFunction
deriving DecidableEq, Repr

/-- Functions, classes and assignments with a type are definitions (`is_definition`). -/
def isDefinition (node : Node) : Bool :=
  match node.kind with
  | .functionDefinition => true
  | .classDefinition => true
  | .assignStatement => (node.child? .typeDef).isSome
  | _ => false

/-- The target of an assignment (`lvalue`). -/
def target (tree : SourceTree) : Node → Except ParseError Target
  | .mk .memberExpression _ _ [o, m] => do return .member (← tree.expr o) (tree.text m)
  | node =>
    match node.kind with
    | .variableName => .ok (.var (tree.text node))
    | .memberExpression => tree.refuse .unexpected node
    | _ => tree.refuse .invalidAssignTarget node

mutual

/-- A statement that is not a definition (`statement`). -/
def statement (tree : SourceTree) (place : Place) : Node → Except ParseError Stmt
  | .mk .assignStatement first stop parts =>
    let node := Node.mk .assignStatement first stop parts
    if isDefinition node then tree.refuse .definitionAfterStatement node
    else
      match parts with
      | [t, e] => do
        let t ← tree.target t
        return .assign t (← tree.expr e)
      | _ => tree.refuse .unexpected node
  | .mk .expressionStatement _ _ [e] => do return .expr (← tree.expr e)
  | .mk .returnStatement first stop parts =>
    match place, parts with
    | .topLevel, _ =>
      tree.refuse .returnOutsideFunction (.mk .returnStatement first stop parts)
    | .inFunction, e :: _ => do return .return_ (← tree.expr e)
    | .inFunction, [] => .ok (.return_ (.literal none .none))
  | .mk .whileStatement _ _ [c, .mk _ _ _ body] => do
    let cond ← tree.expr c
    return .while_ cond (← statements tree place body)
  | .mk .ifStatement _ _ (c :: .mk _ _ _ body :: rest) => do
    let cond ← tree.expr c
    let body ← statements tree place body
    match rest with
    | .mk .elifClause _ _ [c', .mk _ _ _ body'] :: rest => do
      let cond' ← tree.expr c'
      let body' ← statements tree place body'
      return .if_ cond body (some (cond', body')) (← otherwise tree place rest)
    | .mk .elifClause first stop parts :: _ =>
      tree.refuse .unexpected (.mk .elifClause first stop parts)
    | rest => return .if_ cond body none (← otherwise tree place rest)
  | node =>
    if isDefinition node then tree.refuse .definitionAfterStatement node
    else
      match node.kind with
      | .passStatement => .ok .pass
      | _ => tree.refuse .unexpected node

/-- The `else` branch after the other branches of a conditional, if there is one; no further `elif`
may stand there (`if_statement`). -/
def otherwise (tree : SourceTree) (place : Place) :
    List Node → Except ParseError (Option (List Stmt))
  | [] => .ok none
  | .mk .elseClause _ _ [.mk _ _ _ body] :: _ => do return some (← statements tree place body)
  | node :: _ =>
    match node.kind with
    | .elifClause => tree.refuse .multipleElif node
    | _ => tree.refuse .unexpected node

/-- Statements in order (`statements`). -/
def statements (tree : SourceTree) (place : Place) : List Node → Except ParseError (List Stmt)
  | [] => .ok []
  | s :: ss => do
    let first ← statement tree place s
    return first :: (← statements tree place ss)

end

/-! ## §5 Functions, classes and programs -/

/-- A definition, where it stands deciding what becomes of functions and classes (`definition`). -/
def definitionWith (tree : SourceTree) (function class_ : Node → Except ParseError Def)
    (node : Node) : Except ParseError Def :=
  match node.kind with
  | .assignStatement => do return .var (← tree.varDef node)
  | .functionDefinition => function node
  | .classDefinition => class_ node
  | _ => tree.refuse .unexpected node

/-- A definition inside of a function, which can only be that of a variable. -/
def innerDefinition (tree : SourceTree) : Node → Except ParseError Def :=
  tree.definitionWith (tree.refuse .nestedFunction) (tree.refuse .nestedClass)

/-- A function or a method; its definitions stand before its statements (`fun_def`). -/
def funDef (tree : SourceTree) (node : Node) : Except ParseError FunDef :=
  match node.children with
  | x :: params :: _ => do
    let params ← params.children.mapM tree.param
    let result ←
      match node.child? .typeDef with
      | some t => tree.type t
      | none => .ok .none
    match node.child? .body with
    | none => tree.refuse .unexpected node
    | some body => do
      let defs ← (body.children.takeWhile isDefinition).mapM tree.innerDefinition
      let locals := defs.filterMap fun
        | .var v => some v
        | _ => none
      let stmts ← tree.statements .inFunction (body.children.dropWhile isDefinition)
      return ⟨tree.text x, params, result, locals, stmts⟩
  | _ => tree.refuse .unexpected node

/-- The name of the one parent of a class. -/
def parent (tree : SourceTree) (node : Node) : Except ParseError String :=
  match node.child? .argList with
  | none => tree.refuse .invalidClassHeader node
  | some parents =>
    match parents.children with
    | [p] =>
      if p.kind = .variableName then .ok (tree.text p)
      else tree.refuse .invalidClassHeader parents
    | _ => tree.refuse .invalidClassHeader parents

/-- A member of a class: a field, a method, or `pass`, which is none. -/
def member (tree : SourceTree) (node : Node) : Except ParseError (Option (VarDef ⊕ FunDef)) :=
  match node.kind with
  | .passStatement => .ok none
  | .assignStatement =>
    if isDefinition node then do return some (.inl (← tree.varDef node))
    else tree.refuse .nonDefinitionInClass node
  | .functionDefinition => do return some (.inr (← tree.funDef node))
  | .classDefinition => tree.refuse .nestedClass node
  | _ => tree.refuse .nonDefinitionInClass node

/-- A class (`class_def`). -/
def classDef (tree : SourceTree) (node : Node) : Except ParseError ClassDef :=
  match node.children with
  | [] => tree.refuse .unexpected node
  | x :: _ => do
    let parent ← tree.parent node
    match node.child? .body with
    | none => tree.refuse .unexpected node
    | some body => do
      let members ← body.children.mapM tree.member
      return ⟨tree.text x, parent, members.filterMap (·.bind Sum.getLeft?),
        members.filterMap (·.bind Sum.getRight?)⟩

/-- A definition at the top level. -/
def definition (tree : SourceTree) : Node → Except ParseError Def :=
  tree.definitionWith (fun node => do return .function (← tree.funDef node))
    fun node => do return .class_ (← tree.classDef node)

/-- The program that a tree stands for (`program`). -/
def program (tree : SourceTree) : Except ParseError Program := do
  let parts := tree.root.children
  let defs ← (parts.takeWhile isDefinition).mapM tree.definition
  let stmts ← tree.statements .topLevel (parts.dropWhile isDefinition)
  return ⟨defs, stmts⟩

end SourceTree

/-- The program of a source text (`parse_program`). -/
def Program.parse (source : String) : Except ParseError Program := do
  let lexemes ← (lex source.toList).mapError .lexical
  let tree ← (SourceTree.ofLexemes source.toList lexemes).mapError .grammar
  tree.program

end Serpent
