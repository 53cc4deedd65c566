/-
Serpent.Wasm.Print — the text form of a module.

A module is written as lines, one instruction a line, with two blanks for a level of depth. An
instruction with a name or a number is put in parentheses, any other stands on its own; the bodies
of structured instructions are indented.
-/
import Serpent.Text.Line
import Serpent.Wasm.Module

namespace Serpent.Wasm

namespace Instr

/-- How an instruction without a body is written. -/
def text : Instr → String
  | .const w => "(i32.const " ++ Word.text w ++ ")"
  | .localGet x => "(local.get " ++ x ++ ")"
  | .localSet x => "(local.set " ++ x ++ ")"
  | .globalGet x => "(global.get " ++ x ++ ")"
  | .globalSet x => "(global.set " ++ x ++ ")"
  | .binary op => op.text
  | .eqz => "i32.eqz"
  | .load => "i32.load"
  | .store => "i32.store"
  | .drop => "drop"
  | .call f => "(call " ++ f ++ ")"
  | .return_ => "return"
  | .ifElse .. => "(if"
  | .block l _ => "(block " ++ l
  | .loop l _ => "(loop " ++ l
  | .br l => "(br " ++ l ++ ")"
  | .brIf l => "(br_if " ++ l ++ ")"

mutual

/-- The lines of an instruction (`write_instr`). An empty `else` branch is not written. -/
def lines (depth : Nat) : Instr → List Line
  | .ifElse thn [] =>
    ⟨depth, "(if"⟩ :: ⟨depth + 1, "(then"⟩ :: listLines (depth + 2) thn ++
      [⟨depth + 1, ")"⟩, ⟨depth, ")"⟩]
  | .ifElse thn (e :: els) =>
    ⟨depth, "(if"⟩ :: ⟨depth + 1, "(then"⟩ :: listLines (depth + 2) thn ++
      ⟨depth + 1, ")"⟩ :: ⟨depth + 1, "(else"⟩ ::
      (lines (depth + 2) e ++ listLines (depth + 2) els) ++
      [⟨depth + 1, ")"⟩, ⟨depth, ")"⟩]
  | .block l body =>
    ⟨depth, "(block " ++ l⟩ :: listLines (depth + 1) body ++ [⟨depth, ")"⟩]
  | .loop l body =>
    ⟨depth, "(loop " ++ l⟩ :: listLines (depth + 1) body ++ [⟨depth, ")"⟩]
  | i => [⟨depth, i.text⟩]

/-- The lines of instructions that follow each other (`write_instrs`). -/
def listLines (depth : Nat) : List Instr → List Line
  | [] => []
  | i :: is => lines depth i ++ listLines depth is

end

end Instr

/-- The first line of a function. -/
def Func.header (f : Func) : String :=
  "(func " ++ f.name ++ String.join (f.exports.map fun e => " (export \"" ++ e ++ "\")") ++
    String.join (f.params.map fun p => " (param " ++ p ++ " i32)") ++
    String.join (List.replicate f.results " (result i32)")

/-- The lines of a function inside a module. -/
def Func.lines (f : Func) : List Line :=
  ⟨1, f.header⟩ :: f.locals.map (fun x => ⟨2, "(local " ++ x ++ " i32)"⟩) ++
    Instr.listLines 2 f.body ++ [⟨1, ")"⟩]

/-- How an import is written. -/
def Import.text (i : Import) : String :=
  match i.item with
  | .memory min max =>
    "(import \"" ++ i.space ++ "\" \"" ++ i.name ++ "\" (memory " ++ toString min ++
      (match max with
       | some n => " " ++ toString n
       | none => "") ++ "))"
  | .func f params results =>
    "(func " ++ f ++ " (import \"" ++ i.space ++ "\" \"" ++ i.name ++ "\")" ++
      String.join (List.replicate params " (param i32)") ++
      String.join (List.replicate results " (result i32)") ++ ")"

/-- How a global variable is written. -/
def Global.text (g : Global) : String :=
  "(global " ++ g.name ++ (if g.isMutable then " (mut i32)" else " i32") ++
    " (i32.const " ++ Word.text g.value ++ "))"

/-- The lines of a module. -/
def Module.lines (m : Module) : List Line :=
  ⟨0, "(module"⟩ :: m.imports.map (fun i => ⟨1, i.text⟩) ++
    m.globals.map (fun g => ⟨1, g.text⟩) ++ m.funcs.flatMap Func.lines ++ [⟨0, ")"⟩]

/-- The text of a function inside a module. -/
def Func.text (f : Func) : String := Line.renderAll "  " f.lines

/-- The text of a module. -/
def Module.text (m : Module) : String := Line.renderAll "  " m.lines

end Serpent.Wasm
