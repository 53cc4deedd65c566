/-
Serpent.Command.Compiler — the command that compiles a program, and runs it or shows it.
-/
import Serpent.Command
import Serpent.Command.Options
import Serpent.Compile
import Serpent.Program.Outline

namespace Serpent.Compiler

/-- The name of the command. -/
def name : String := "snekc"

def version : String := "0.1.0"

/-- How the command is called. -/
def usage : String :=
  "Usage: " ++ name ++ " [OPTIONS] <FILES>...\n\n" ++
  "  -c, --code <CODE>           compile this text instead of files\n" ++
  "  -e, --emit <EMIT>           wat, ast, typed or run (the default)\n" ++
  "      --memory-pages <PAGES>  pages of memory, 1 by default\n" ++
  "  -v, --verbose               accepted, without effect\n" ++
  "  -h, --help                  show this text\n" ++
  "  -V, --version               show the version\n"

/-- A text whose further lines start under its first when that is indented by four spaces. -/
def indent (text : String) : String := text.replace "\n" "\n    "

/-- An error and its cause. -/
def explain (message cause : String) : String :=
  "Error: " ++ message ++ "\n\nCaused by:\n    " ++ indent cause ++ "\n"

/-- The report of an error. What was printed before a trap stays printed. -/
def reportError : CompileError → Report
  | .runtime (.trapped t printed) => ⟨1, printed, (Wasm.RunError.trapped t printed).message⟩
  | e => ⟨1, "", explain e.message e.cause⟩

/-- The output for a source text. -/
def output (source : String) (pages : Nat) : Emit → Except CompileError String
  | .wat => compile source
  | .ast => do return (← parse source).outline.text
  | .typed => do return (← check source).outline.text
  | .run => do
    let outcome ← compileAndRun source { pages }
    match outcome.value with
    | some w => return outcome.output ++ Word.text w ++ "\n"
    | none => return outcome.output

/-- Do a job. -/
def runJob (files : Files) (job : Job) : Report :=
  let source := match job.source with
    | .code text => Except.ok text
    | .files paths => files.readJoined paths
  match source with
  | .error e => ⟨1, "", explain ("failed to read " ++ e.path) e.reason⟩
  | .ok source =>
    match output source job.pages job.emit with
    | .ok out => ⟨0, out, ""⟩
    | .error e => reportError e

/-- Run the command (`main`). -/
def run (files : Files) (args : List String) : Report :=
  match Request.ofArgs? args with
  | none => ⟨2, "", usage⟩
  | some .help => ⟨0, usage, ""⟩
  | some .version => ⟨0, name ++ " " ++ version ++ "\n", ""⟩
  | some (.job job) => runJob files job

end Serpent.Compiler
