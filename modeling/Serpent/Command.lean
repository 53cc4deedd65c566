/-
Serpent.Command — what a command gives, and what it is given besides its arguments.
-/

namespace Serpent

/-- What a command gives: its exit code, and what it writes as output and as errors. -/
structure Report where
  code : UInt32 := 0
  out : String := ""
  err : String := ""
deriving DecidableEq, Repr

/-- The files a command may read: the text under a path, or why there is none. -/
abbrev Files := String → Except String String

/-- A file that could not be read, and why. -/
structure ReadError where
  path : String
  reason : String
deriving DecidableEq, Repr

namespace Files

/-- The texts of some files in order, up to the first that cannot be read. -/
def readEach (files : Files) : List String → Except ReadError (List String)
  | [] => .ok []
  | path :: paths => do
    let text ← (files path).mapError fun reason => ⟨path, reason⟩
    return text :: (← readEach files paths)

/-- Some files as one source text (`read_sources`). The empty line between two files keeps the last
block of the one from taking in the first line of the next. -/
def readJoined (files : Files) (paths : List String) : Except ReadError String := do
  return "\n\n".intercalate (← files.readEach paths)

end Files

end Serpent
