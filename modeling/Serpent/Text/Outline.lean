/-
Serpent.Text.Outline — nested values, written with one part to a line.

A record is a name with its fields in braces, a group a name with its parts in parentheses, and a
list has its items in brackets. Every part is indented by one level and followed by a comma; an
empty list is written on one line.
-/
import Serpent.Text.Line

namespace Serpent

/-- A nested value. -/
inductive Outline where
  | word (text : String)
  | group (name : String) (parts : List Outline)
  | record (name : String) (fields : List (String × Outline))
  | list (items : List Outline)
deriving Repr

namespace Outline

mutual

/-- The lines of a value, with `lead` before its first line and `tail` after its last. -/
def lines (depth : Nat) (lead tail : String) : Outline → List Line
  | .word text => [⟨depth, lead ++ text ++ tail⟩]
  | .group name parts =>
    ⟨depth, lead ++ name ++ "("⟩ :: partLines (depth + 1) parts ++ [⟨depth, ")" ++ tail⟩]
  | .record name fields =>
    ⟨depth, lead ++ name ++ " \x7b"⟩ :: fieldLines (depth + 1) fields ++ [⟨depth, "\x7d" ++ tail⟩]
  | .list [] => [⟨depth, lead ++ "[]" ++ tail⟩]
  | .list (item :: items) =>
    ⟨depth, lead ++ "["⟩ :: (lines (depth + 1) "" "," item ++ partLines (depth + 1) items) ++
      [⟨depth, "]" ++ tail⟩]

/-- The lines of parts. -/
def partLines (depth : Nat) : List Outline → List Line
  | [] => []
  | part :: parts => lines depth "" "," part ++ partLines depth parts

/-- The lines of fields. -/
def fieldLines (depth : Nat) : List (String × Outline) → List Line
  | [] => []
  | (name, value) :: fields => lines depth (name ++ ": ") "," value ++ fieldLines depth fields

end

/-- The text of a value. -/
def text (o : Outline) : String := Line.renderAll "    " (o.lines 0 "" "")

end Outline

end Serpent
