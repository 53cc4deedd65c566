/-
Serpent.Wasm.Run — running a module from its text.

The number of pages is looked at first, then the text, then what the module takes from its host,
then its entry; only then does it run.
-/
import Serpent.Wasm.Machine
import Serpent.Wasm.Read
import Serpent.Wasm.Valid

namespace Serpent.Wasm

/-- Why a module gives no result (`RuntimeError`). -/
inductive RunError where
  /-- The host does not give so many pages. -/
  | memoryPages (n : Nat)
  /-- The text is no valid module. -/
  | invalid
  /-- The host does not offer what the module takes from it. -/
  | unlinked
  | missingEntry
  /-- A trap, with what was printed before it. -/
  | trapped (t : Trap) (output : String)
  /-- The module was stopped before it came to an end. -/
  | unfinished
deriving DecidableEq, Repr

/-- The error in words. -/
def RunError.message : RunError → String
  | memoryPages n =>
    "memory must be between 1 and " ++ toString Host.maxPages ++ " pages, got " ++ toString n
  | invalid => "invalid module"
  | unlinked => "failed to link module"
  | missingEntry => "module does not export `" ++ Host.entryName ++ "`"
  | trapped t _ => "trap: " ++ t.text
  | unfinished => "unfinished"

/-- What a module gives: the result of its entry, if it has one, and what was printed. -/
structure RunOutcome where
  value : Option Word
  output : String
deriving DecidableEq, Repr

/-- What a run may use: pages of memory, rounds of each loop, and calls that are open at once
(`RunConfig`). The bound on rounds is not meant to be reached. -/
structure Limits where
  pages : Nat := 1
  fuel : Nat := 0x4000000000000000
  depth : Nat := 2000
deriving DecidableEq, Repr

/-- Whether the host offers what an import asks for when it gives so many pages. -/
def Import.isOffered (pages : Nat) (i : Import) : Bool :=
  match i.item with
  | .memory min max =>
    i.space = Host.memorySpace && i.name = Host.memoryName && min ≤ pages &&
      max.all (Host.maxPages ≤ ·)
  | .func _ params results =>
    i.space = Host.functionSpace && (Printer.ofName? i.name).isSome && params = 1 && results = 1

namespace Module

/-- Run a function of a module that takes no arguments. -/
def runFunc (m : Module) (limits : Limits) (f : Func) : Except RunError RunOutcome :=
  let store : Store := ⟨m.globals.map fun g => (g.name, g.value), .ofPages limits.pages, ""⟩
  match exec m limits.fuel limits.depth f.body ⟨[], f.initialLocals [], store⟩ with
  | .next s | .returned s =>
    .ok ⟨if f.results = 0 then none else s.stack.head?, s.store.output⟩
  | .trapped t output => .error (.trapped t output)
  | .branch .. => .error .invalid
  | .stuck => .error .invalid
  | .unfinished => .error .unfinished

/-- Run a module: link it with its host, and start its entry. -/
def run (m : Module) (limits : Limits) : Except RunError RunOutcome :=
  if m.imports.all (Import.isOffered limits.pages) then
    match m.exported? Host.entryName with
    | some entry => m.runFunc limits entry
    | none => .error .missingEntry
  else .error .unlinked

end Module

/-- Run the module of a text (`run`). -/
def run (text : String) (limits : Limits) : Except RunError RunOutcome :=
  if limits.pages = 0 ∨ Host.maxPages < limits.pages then .error (.memoryPages limits.pages)
  else
    match Module.read? text with
    | none => .error .invalid
    | some m => if m.isValid then m.run limits else .error .invalid

end Serpent.Wasm
