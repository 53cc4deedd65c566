/-
Serpent.Text.Line — texts that are written as indented lines.
-/

namespace Serpent

/-- A line and how deep it is indented. -/
structure Line where
  depth : Nat
  text : String
deriving DecidableEq, Repr

namespace Line

/-- A line with its indentation, where one level is `unit`, and its end. -/
def render (unit : String) (l : Line) : String :=
  String.join (List.replicate l.depth unit) ++ l.text ++ "\n"

/-- Lines one after the other. -/
def renderAll (unit : String) (ls : List Line) : String := String.join (ls.map (render unit))

end Line

end Serpent
