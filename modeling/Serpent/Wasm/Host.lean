/-
Serpent.Wasm.Host — what the host of a module offers, and where it starts the module.

The host offers one memory and three functions that print a word, each as a line of its own and
each giving back the word that it prints.
-/
import Serpent.Word

namespace Serpent.Wasm

/-- The functions that print a word: as a number, as a truth value, as `None`. -/
inductive Printer where
  | num
  | bool
  | none
deriving DecidableEq, Repr

namespace Printer

/-- The name under which the host offers the function. -/
def name : Printer → String
  | num => "print_num"
  | bool => "print_bool"
  | none => "print_none"

def all : List Printer := [num, bool, none]

/-- The printer of that name. -/
def ofName? (x : String) : Option Printer := all.find? (·.name = x)

/-- The line that is printed for a word, without its end (`format_num`, `format_bool`,
`format_none`). -/
def format (w : Word) : Printer → String
  | num => Word.text w
  | bool => if w = 0 then "False" else "True"
  | none => "None"

end Printer

namespace Host

/-- The space of names that holds the functions (`IMPORT_MODULE`). -/
def functionSpace : String := "imports"

/-- The space of names that holds the memory (`MEMORY_MODULE`). -/
def memorySpace : String := "memory"

/-- The name of the memory (`MEMORY_NAME`). -/
def memoryName : String := "heap"

/-- The name of the function that the host starts (`ENTRY`). -/
def entryName : String := "_start"

/-- The most pages that a memory may have (`MAX_MEMORY_PAGES`). -/
def maxPages : Nat := 100

end Host

end Serpent.Wasm
