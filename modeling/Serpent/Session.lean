/-
Serpent.Session — compiling one source text after the other.

A session keeps the image of the last source text that could be compiled.
-/
import Serpent.Compile

namespace Serpent

/-- What is kept between source texts (`Codegen`). -/
structure Session where
  image : Option Image := none

namespace Session

/-- What an image holds, in short: the symbols of its routines and of its globals, and whether its
entry has a result. -/
structure Summary where
  routines : List String
  globals : List String
  entryHasResult : Bool
deriving DecidableEq, Repr

def summary (i : Image) : Summary :=
  ⟨i.routines.map (·.symbol), i.globals, i.entry.hasResult⟩

/-- Keep an image, if there is one; otherwise keep what was there. -/
def keep (s : Session) (result : Except CompileError Image) :
    Except CompileError Summary × Session :=
  match result with
  | .ok i => (.ok (summary i), ⟨some i⟩)
  | .error e => (.error e, s)

/-- Compile a source text (`compile_program`). -/
def compile (s : Session) (source : String) : Except CompileError Summary × Session :=
  s.keep (Serpent.image source)

/-- Compile a source text without checking it. -/
def compileUnchecked (s : Session) (source : String) : Except CompileError Summary × Session :=
  s.keep do (Image.ofProgram (← parse source)).mapError .internal

/-- The text of the module that is kept (`text`). -/
def text? (s : Session) : Option String := s.image.map Image.text

/-- A routine of the image that is kept. -/
def routine? (s : Session) (symbol : String) : Option Routine :=
  s.image.bind (Image.routine? · symbol)

end Session

end Serpent
