/-
Serpent.Main — the commands as a program.

The first argument is the name of the command; the others are its arguments. The files that they
name are read before the command runs.
-/
import Serpent.Command.Compiler
import Serpent.Command.Inspector

namespace Serpent

/-- The commands. -/
inductive Tool where
  | compiler
  | inspector
deriving DecidableEq, Repr

namespace Tool

def name : Tool → String
  | compiler => Compiler.name
  | inspector => Inspector.name

def ofName? (x : String) : Option Tool := [compiler, inspector].find? (·.name = x)

/-- The files that a command reads. -/
def paths (args : List String) : Tool → List String
  | compiler => ((Request.ofArgs? args).map Request.paths).getD []
  | inspector => args

def run (files : Files) (args : List String) : Tool → Report
  | compiler => Compiler.run files args
  | inspector => Inspector.run files args

end Tool

/-- Why there is no file under a path. -/
def missingFile : String := "No such file or directory (os error 2)"

/-- The text of a file, or why there is none. -/
def readPath (path : String) : IO (Except String String) := do
  match ← (IO.FS.readBinFile path).toBaseIO with
  | .error (.noFileOrDirectory ..) => return .error missingFile
  | .error e => return .error (toString e)
  | .ok bytes =>
    match String.fromUTF8? bytes with
    | some text => return .ok text
    | none => return .error "stream did not contain valid UTF-8"

/-- The files under some paths. -/
def readPaths (paths : List String) : IO Files := do
  let texts ← paths.mapM fun path => do return (path, ← readPath path)
  return fun path => (texts.lookup path).getD (.error missingFile)

/-- Run the command that the first argument names. -/
def runNamed : List String → IO Report
  | [] => return ⟨2, "", Compiler.usage ++ Inspector.usage⟩
  | command :: args =>
    match Tool.ofName? command with
    | none => return ⟨2, "", Compiler.usage ++ Inspector.usage⟩
    | some tool => do
      let files ← readPaths (tool.paths args)
      return tool.run files args

end Serpent

def main (args : List String) : IO UInt32 := do
  let report ← Serpent.runNamed args
  IO.print report.out
  IO.eprint report.err
  return report.code
