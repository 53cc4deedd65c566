/-
Serpent.Tree.Expression — the grammar of expressions.

  §1 Operators and their levels: the higher the level, the tighter the operator binds
  §2 The rules

An operand may start with a prefix operator whatever stands to its left, and that operator then
reaches as far as its own level allows. Binary operators of one level group to the left, except
`**`, which groups to the right.
-/
import Serpent.Tree.Rule

namespace Serpent

/-! ## §1 Operators -/

/-- The level of a prefix operator. -/
def unaryLevel? : Token → Option Nat
  | .keyword .not => some 3
  | .symbol .minus => some 7
  | .symbol .plus => some 7
  | _ => none

/-- The level of a binary operator. -/
def binaryLevel? : Token → Option Nat
  | .keyword .or => some 1
  | .keyword .and => some 2
  | .symbol .eqEq => some 4
  | .symbol .notEq => some 4
  | .symbol .ltEq => some 4
  | .symbol .gtEq => some 4
  | .symbol .lt => some 4
  | .symbol .gt => some 4
  | .keyword .is => some 4
  | .symbol .plus => some 5
  | .symbol .minus => some 5
  | .symbol .star => some 6
  | .symbol .slashSlash => some 6
  | .symbol .slash => some 6
  | .symbol .percent => some 6
  | .symbol .starStar => some 8
  | _ => none

/-- The least level of the operators in the right operand of a binary operator. -/
def rightLevel (op : Token) (level : Nat) : Nat :=
  if op = .symbol .starStar then level else level + 1

/-- The kind of node that a token makes on its own. -/
def atomKind? : Token → Option Kind
  | .int _ => some .number
  | .float _ => some .float
  | .keyword .true => some .boolean
  | .keyword .false => some .boolean
  | .keyword .none => some .none
  | .name _ => some .variableName
  | _ => none

/-! ## §2 The rules -/

namespace Rule

mutual

/-- An expression whose outermost binary operators have at least the level `level`. -/
def expressionWithin : (fuel level : Nat) → Rule Node
  | 0, _ => reject
  | fuel + 1, level => do
    let first ← operand fuel
    operations fuel level first

/-- A prefix operator with its operand, or an atom with its trailers. -/
def operand : (fuel : Nat) → Rule Node
  | 0 => reject
  | fuel + 1 => do
    match (← peek).bind unaryLevel? with
    | some level =>
      let op ← leaf .operator
      let e ← expressionWithin fuel level
      return .join .unaryExpression op e [op, e]
    | none =>
      let base ← atom fuel
      trailers fuel base

/-- The binary operators that follow the operand `left`. -/
def operations : (fuel level : Nat) → Node → Rule Node
  | 0, _, _ => reject
  | fuel + 1, level, left => do
    match ← peek with
    | none => return left
    | some t =>
      match binaryLevel? t with
      | none => return left
      | some found =>
        if found < level then return left
        else
          let op ← leaf .operator
          let right ← expressionWithin fuel (rightLevel t found)
          operations fuel level (.join .binaryExpression left right [left, op, right])

/-- A literal, a name or an expression in parentheses. -/
def atom : (fuel : Nat) → Rule Node
  | 0 => reject
  | fuel + 1 => do
    match (← peek).bind atomKind? with
    | some kind => leaf kind
    | none =>
      let first ← here
      expect (.symbol .lparen)
      let inner ← expressionWithin fuel 0
      expect (.symbol .rparen)
      close .parenthesizedExpression first [inner]

/-- The member accesses and calls that follow `target` (`apply_postfix`). -/
def trailers : (fuel : Nat) → Node → Rule Node
  | 0, _ => reject
  | fuel + 1, target => do
    match ← peek with
    | some (.symbol .dot) =>
      advance
      let member ← name .propertyName
      trailers fuel (.join .memberExpression target member [target, member])
    | some (.symbol .lparen) =>
      let args ← argList fuel
      trailers fuel (.join .callExpression target args [target, args])
    | _ => return target

/-- Arguments in parentheses (`arg_list`). -/
def argList : (fuel : Nat) → Rule Node
  | 0 => reject
  | fuel + 1 => do
    let first ← here
    expect (.symbol .lparen)
    let args ← arguments fuel
    expect (.symbol .rparen)
    close .argList first args

/-- Arguments with commas between them; one more comma may stand at the end. -/
def arguments : (fuel : Nat) → Rule (List Node)
  | 0 => reject
  | fuel + 1 => do
    match ← peek with
    | some (.symbol .rparen) => return []
    | _ =>
      let arg ← expressionWithin fuel 0
      match ← peek with
      | some (.symbol .comma) =>
        advance
        return arg :: (← arguments fuel)
      | _ => return [arg]

end

/-- How deep the rules may nest when `n` tokens are left: no token is behind more than five
rules. -/
def depthBound (n : Nat) : Nat := 5 * n + 5

/-- An expression (`expr_parser`). -/
def expression : Rule Node := do expressionWithin (depthBound (← remaining)) 0

/-- The arguments of a call, or the parents of a class. -/
def parenthesized : Rule Node := do argList (depthBound (← remaining))

end Rule

end Serpent
