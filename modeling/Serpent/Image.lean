/-
Serpent.Image — the compiled form of a program.

An image holds the global variables, the routines and the entry of a program, and knows how to
become a module of the target machine.

  §1 Symbols: what the names of a program are called in a module
  §2 Images
-/
import Serpent.Wasm.Host
import Serpent.Wasm.Print

namespace Serpent

/-! ## §1 Symbols -/

/-- The symbol of a function of the host (`import_symbol`). -/
def importSymbol (name : String) : String := "$$" ++ name

/-- The symbol of a variable (`var_symbol`). -/
def varSymbol (name : String) : String := "$" ++ name

/-- The symbol of a function (`function_symbol`). -/
def functionSymbol (name : String) : String := "$" ++ name

/-- The symbol of a method of a class (`method_symbol`). -/
def methodSymbol (className method : String) : String := "$" ++ className ++ "$" ++ method

/-- The global that holds the first free address (`HEAP_PTR`). -/
def heapPointer : String := "$heap$ptr"

/-- The symbol of the entry (`ENTRY_SYMBOL`). -/
def entrySymbol : String := "$$start"

/-- The local that holds the value of the last expression statement (`SCRATCH_LOCAL`). -/
def scratchLocal : String := "$$scratch"

/-- The local that holds the address of the object that is being constructed (`ALLOC_LOCAL`). -/
def allocLocal : String := "$$alloc"

/-! ## §2 Images -/

/-- The compiled form of a function or method (`WatFunction`). -/
structure Routine where
  symbol : String
  exportName : Option String
  params : List String
  locals : List String
  hasResult : Bool
  body : List Wasm.Instr
deriving Repr

/-- The compiled form of a program (`WatModule`). -/
structure Image where
  globals : List String
  routines : List Routine
  entry : Routine
deriving Repr

/-- A routine as a function of the machine: its two helper locals come before its own. -/
def Routine.toFunc (r : Routine) : Wasm.Func where
  name := r.symbol
  exports := r.exportName.toList
  params := r.params
  results := if r.hasResult then 1 else 0
  locals := scratchLocal :: allocLocal :: r.locals
  body := r.body

namespace Image

/-- The first address that an object may take (`HEAP_START`). Address 0 stands for no object. -/
def heapStart : Word := 4

/-- The global that holds the first free address (`declaration`). -/
def heapGlobal : Wasm.Global := ⟨heapPointer, true, heapStart⟩

/-- What every image takes from its host: a memory, and the functions that print. -/
def imports : List Wasm.Import :=
  ⟨Wasm.Host.memorySpace, Wasm.Host.memoryName, .memory 1 none⟩ ::
    Wasm.Printer.all.map fun p =>
      ⟨Wasm.Host.functionSpace, p.name, .func (importSymbol p.name) 1 1⟩

/-- An image as a module of the machine. -/
def toModule (i : Image) : Wasm.Module where
  imports := imports
  globals := heapGlobal :: i.globals.map (⟨·, true, 0⟩)
  funcs := i.routines.map Routine.toFunc ++ [i.entry.toFunc]

/-- The text of the module. -/
def text (i : Image) : String := i.toModule.text

/-- The first routine of that symbol, the entry coming last (`function`). -/
def routine? (i : Image) (symbol : String) : Option Routine :=
  (i.routines ++ [i.entry]).find? (·.symbol = symbol)

end Image

end Serpent
