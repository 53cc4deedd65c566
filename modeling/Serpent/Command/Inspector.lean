/-
Serpent.Command.Inspector — the command that shows how a program is read and whether it is well
typed.
-/
import Serpent.Command
import Serpent.Compile
import Serpent.Program.Outline

namespace Serpent.Inspector

/-- The name of the command. -/
def name : String := "snek_parse_cli"

/-- How the command is called (`usage_and_exit`). -/
def usage : String :=
  "Usage: " ++ name ++ " <file1.py> <file2.py> ...\n" ++
  "Example: " ++ name ++ " programs/rat.py programs/main.py\n"

/-- A program in full and as source text. -/
def describe (p : Program) : String :=
  "=== AST ===\n" ++ p.outline.text ++ "=== Source ===\n" ++ p.text

/-- Show the program of a source text. -/
def inspect (source : String) : Report :=
  match parse source with
  | .error e => ⟨1, "", e.message ++ "\n"⟩
  | .ok p =>
    match p.check with
    | .ok _ => ⟨0, describe p ++ "=== Type Check ===\nOK\n", ""⟩
    | .error e => ⟨1, describe p, "=== Type Check Error ===\n  " ++ e.message ++ "\n"⟩

/-- Run the command (`main`). -/
def run (files : Files) (paths : List String) : Report :=
  if paths.isEmpty then ⟨2, "", usage⟩
  else
    match files.readJoined paths with
    | .error e => ⟨2, "", "Failed to read " ++ e.path ++ ": " ++ e.reason ++ "\n"⟩
    | .ok source => inspect source

end Serpent.Inspector
