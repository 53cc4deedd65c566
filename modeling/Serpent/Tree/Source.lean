/-
Serpent.Tree.Source — a tree together with the text that it was read from.

A node covers tokens, and through them a span of the text: from the start of its first token to the
end of its last. The mark that closes a block stands at the token after the block, so the span of a
block may end with blanks and comments; the text of a node leaves out the blanks at its end.
-/
import Serpent.Text.Blank
import Serpent.Tree.Statement
import Serpent.Token.Layout

namespace Serpent

/-- A token that cannot follow the ones before it. -/
structure SyntaxError where
  /-- The token in words. -/
  found : String
  span : Span
deriving DecidableEq, Repr

/-- The fault in words. -/
def SyntaxError.message (e : SyntaxError) : String :=
  "invalid syntax near " ++ e.found ++ " at " ++ e.span.render

/-- The tree of a source text, with the spans of its tokens (`SyntaxTree`). -/
structure SourceTree where
  source : List Char
  spans : Array Span
  root : Node

namespace SourceTree

/-- The span of a node (`span`). A node past the last token stands at the end of the text. -/
def span (tree : SourceTree) (node : Node) : Span :=
  let start := (tree.spans[node.first]?.map (·.start)).getD (utf8Length tree.source)
  let stop :=
    if node.first < node.stop then (tree.spans[node.stop - 1]?.map (·.stop)).getD start else start
  ⟨start, max start stop⟩

/-- The text of a node, without the blanks at its end (`text`). -/
def text (tree : SourceTree) (node : Node) : String :=
  String.ofList (trimEnd (((tree.span node).slice? tree.source).getD []))

/-- How the token that cannot follow is called, and where it stands (`describe_failure`). -/
def describe (source : List Char) (lexemes : List Lexeme) (index : Nat) : SyntaxError :=
  match lexemes[index]? with
  | none => ⟨"end of input", .empty (utf8Length source)⟩
  | some ⟨.newline, span⟩ => ⟨"end of line", span⟩
  | some ⟨.indent, span⟩ => ⟨"unexpected indent", span⟩
  | some ⟨.dedent, span⟩ => ⟨"unexpected dedent", span⟩
  | some ⟨_, span⟩ => ⟨"`" ++ String.ofList ((span.slice? source).getD []) ++ "`", span⟩

/-- The tree of a source text that has been cut into lexemes (`parse_tree`). -/
def ofLexemes (source : List Char) (lexemes : List Lexeme) : Except SyntaxError SourceTree :=
  match Node.ofTokens (lexemes.map (·.token)) with
  | .ok root => .ok ⟨source, (lexemes.map (·.span)).toArray, root⟩
  | .error index => .error (describe source lexemes index)

end SourceTree

end Serpent
