/-
Serpent.Tree — the concrete tree of a script.

A node has a kind, the range of tokens that it covers and its parts in the order in which they are
written. The tree admits more than the language does (definitions anywhere, any number of `elif`
clauses, parameters without a type, any expression as an initial value, operators without a
meaning), so that a script that goes too far can be told which part of it does.
-/
import Serpent.Token

namespace Serpent

/-- What a node stands for (`SyntaxKind`). -/
inductive Kind where
  | script
  | assignStatement | typeDef | expressionStatement | passStatement | returnStatement
  | ifStatement | elifClause | elseClause | whileStatement
  | functionDefinition | paramList | param | classDefinition | argList | body
  | callExpression | memberExpression | binaryExpression | unaryExpression
  | parenthesizedExpression | variableName | propertyName | number | float | boolean | none
  | operator
deriving DecidableEq, Repr

/-- A node of the tree; it covers the tokens from `first` up to, and without, `stop`
(`SyntaxNode`). -/
inductive Node where
  | mk (kind : Kind) (first stop : Nat) (children : List Node)
deriving Repr

namespace Node

def kind : Node → Kind
  | mk k _ _ _ => k

/-- The index of the first token. -/
def first : Node → Nat
  | mk _ f _ _ => f

/-- The index after the last token. -/
def stop : Node → Nat
  | mk _ _ s _ => s

def children : Node → List Node
  | mk _ _ _ cs => cs

/-- A node over its parts, from the first token of `left` to the last of `right`. -/
def join (kind : Kind) (left right : Node) (children : List Node) : Node :=
  mk kind left.first right.stop children

/-- The first part of a kind (`child`). -/
def child? (node : Node) (kind : Kind) : Option Node := node.children.find? (·.kind = kind)

end Node

end Serpent
