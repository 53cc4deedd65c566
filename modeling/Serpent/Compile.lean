/-
Serpent.Compile — from source to result.

A source text is parsed, checked, compiled and run. Each stage stops at its first error, and an
error says which stage it comes from. Here and elsewhere, a name in parentheses at the end of a
sentence is what the compiler of the language calls the function or the type.
-/
import Serpent.Program.Equality
import Serpent.Program.Parse
import Serpent.Typing.Program
import Serpent.Image.Lower
import Serpent.Wasm.Run

namespace Serpent

/-- Why a source text gives no result. -/
inductive CompileError where
  | parse (e : ParseError)
  | type (e : TypeError)
  /-- A checked program without an image. -/
  | internal (e : LowerError)
  | runtime (e : Wasm.RunError)
deriving DecidableEq, Repr

namespace CompileError

/-- The error in the words of its stage. -/
def cause : CompileError → String
  | parse e => e.message
  | type e => e.message
  | internal e => e.message
  | runtime e => e.message

/-- What errors of a stage start with. -/
def stage : CompileError → String
  | parse _ => "ParseError: "
  | type _ => "TypeError: "
  | internal _ => "internal compiler error: "
  | runtime _ => "RuntimeError: "

/-- The error in words. -/
def message (e : CompileError) : String := e.stage ++ e.cause

end CompileError

/-- The program of a source text (`parse`). -/
def parse (source : String) : Except CompileError Program :=
  (Program.parse source).mapError .parse

/-- The program of a source text, with the type of every expression written into it (`check`). -/
def check (source : String) : Except CompileError Program := do
  (Program.check (← parse source)).mapError .type

/-- The image of a source text. -/
def image (source : String) : Except CompileError Image := do
  (Image.ofProgram (← check source)).mapError .internal

/-- The text of the module of a source text (`compile`). -/
def compile (source : String) : Except CompileError String := do
  return (← image source).text

/-- The result of a source text (`compile_and_run`). -/
def compileAndRun (source : String) (limits : Wasm.Limits) :
    Except CompileError Wasm.RunOutcome := do
  (Wasm.run (← compile source) limits).mapError .runtime

/-- What becomes of a program that is written and read again: whether it is the same program, and
whether it is written the same. -/
structure RoundTrip where
  sameProgram : Bool
  sameText : Bool
deriving DecidableEq, Repr

/-- Write a program and read it again. -/
def Program.roundTrip (p : Program) : Except ParseError RoundTrip := do
  let q ← Program.parse p.text
  return ⟨p = q, p.text = q.text⟩

end Serpent
