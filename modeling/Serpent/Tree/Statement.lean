/-
Serpent.Tree.Statement — the grammar of statements and whole scripts.

  §1 Statements on one line
  §2 Statements with blocks
  §3 Scripts
-/
import Serpent.Tree.Expression

namespace Serpent

namespace Rule

/-! ## §1 Statements on one line -/

/-- A type after a colon or an arrow. -/
def typeAfter (mark : Symbol) : Rule Node := do
  let first ← here
  expect (.symbol mark)
  let type ← expression
  close .typeDef first [type]

/-- The value after `=`. -/
def initialValue : Rule Node := do
  expect (.symbol .assign)
  expression

/-- A target with an optional type and an optional value; without either it is an expression. -/
def assignment : Rule Node := do
  let first ← here
  let target ← expression
  let type ← optional (.symbol .colon) (typeAfter .colon)
  let value ← optional (.symbol .assign) initialValue
  match type, value with
  | none, none => close .expressionStatement first [target]
  | _, _ => close .assignStatement first (target :: type.toList ++ value.toList)

/-- `return`, with a value unless the line ends. -/
def returned : Rule Node := do
  let first ← here
  expect (.keyword .return_)
  if (← peek) = some .newline then close .returnStatement first []
  else close .returnStatement first [← expression]

/-- A statement on one line, with the end of its line. -/
def simple : Rule Node := do
  let stmt ←
    match ← peek with
    | some (.keyword .pass) => leaf .passStatement
    | some (.keyword .return_) => returned
    | _ => assignment
  expect .newline
  return stmt

/-- A parameter with an optional type. -/
def parameter : Rule Node := do
  let first ← here
  let x ← name .variableName
  let type ← optional (.symbol .colon) (typeAfter .colon)
  close .param first (x :: type.toList)

/-- Parameters with commas between them; one more comma may stand at the end. -/
def parameters : (fuel : Nat) → Rule (List Node)
  | 0 => reject
  | fuel + 1 => do
    match ← peek with
    | some (.symbol .rparen) => return []
    | _ =>
      let param ← parameter
      match ← peek with
      | some (.symbol .comma) =>
        advance
        return param :: (← parameters fuel)
      | _ => return [param]

/-- Parameters in parentheses. -/
def paramList : Rule Node := do
  let first ← here
  expect (.symbol .lparen)
  let params ← parameters (depthBound (← remaining))
  expect (.symbol .rparen)
  close .paramList first params

/-! ## §2 Statements with blocks -/

mutual

/-- A statement of any form (`statement_parser`). -/
def statement : (fuel : Nat) → Rule Node
  | 0 => reject
  | fuel + 1 => do
    let first ← here
    match ← peek with
    | some (.keyword .if_) =>
      advance
      let cond ← expression
      let block ← body fuel
      let elifs ← elifClauses fuel
      let last ← optional (.keyword .else_) (elseClause fuel)
      close .ifStatement first (cond :: block :: elifs ++ last.toList)
    | some (.keyword .while_) =>
      advance
      let cond ← expression
      let block ← body fuel
      close .whileStatement first [cond, block]
    | some (.keyword .def_) =>
      advance
      let x ← name .variableName
      let params ← paramList
      let result ← optional (.symbol .arrow) (typeAfter .arrow)
      let block ← body fuel
      close .functionDefinition first (x :: params :: result.toList ++ [block])
    | some (.keyword .class_) =>
      advance
      let x ← name .variableName
      let parents ← optional (.symbol .lparen) parenthesized
      let block ← body fuel
      close .classDefinition first (x :: parents.toList ++ [block])
    | _ => simple

/-- A colon with an indented block of statements, or with one statement on the same line. -/
def body : (fuel : Nat) → Rule Node
  | 0 => reject
  | fuel + 1 => do
    let first ← here
    expect (.symbol .colon)
    match ← peek with
    | some .newline =>
      advance
      expect .indent
      let stmt ← statement fuel
      let more ← statements fuel
      expect .dedent
      close .body first (stmt :: more)
    | _ =>
      let stmt ← simple
      close .body first [stmt]

/-- Statements up to the end of the block or of the input. -/
def statements : (fuel : Nat) → Rule (List Node)
  | 0 => reject
  | fuel + 1 => do
    match ← peek with
    | none => return []
    | some .dedent => return []
    | some _ =>
      let stmt ← statement fuel
      return stmt :: (← statements fuel)

/-- The `elif` clauses that follow, however many. -/
def elifClauses : (fuel : Nat) → Rule (List Node)
  | 0 => reject
  | fuel + 1 => do
    match ← peek with
    | some (.keyword .elif) =>
      let first ← here
      advance
      let cond ← expression
      let block ← body fuel
      let clause ← close .elifClause first [cond, block]
      return clause :: (← elifClauses fuel)
    | _ => return []

/-- An `else` clause. -/
def elseClause : (fuel : Nat) → Rule Node
  | 0 => reject
  | fuel + 1 => do
    let first ← here
    expect (.keyword .else_)
    let block ← body fuel
    close .elseClause first [block]

end

/-! ## §3 Scripts -/

/-- A whole script: statements up to the end of the input (`script_parser`). -/
def script : Rule Node := do
  let first ← here
  let stmts ← statements (depthBound (← remaining))
  match ← peek with
  | none => close .script first stmts
  | some _ => reject

end Rule

/-- The tree of a list of tokens, or the index of the first token that cannot follow. -/
def Node.ofTokens (tokens : List Token) : Except Nat Node :=
  (Rule.script.run ⟨0, tokens⟩).map (·.1)

end Serpent
