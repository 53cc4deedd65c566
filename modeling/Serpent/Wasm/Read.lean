/-
Serpent.Wasm.Read — reading a module from its text.

The reader takes the forms that modules are written in here, with operands in front of their
instruction or nested inside it. It gives no module when the text is not well formed; whether the
names in it are declared is looked at afterwards.

  §1 Numbers and names
  §2 Instructions
  §3 Functions, globals and imports
  §4 Modules
-/
import Serpent.Text.Decimal
import Serpent.Wasm.Module
import Serpent.Wasm.Sexp

namespace Serpent.Wasm

/-! ## §1 Numbers and names -/

/-- A number without a sign. -/
def nat? (text : String) : Option Nat := natOfDigits? text.toList

/-- A word, as a number with or without a sign that fits 32 bits. -/
def word? (text : String) : Option Word :=
  match text.toList with
  | '-' :: ds =>
    (natOfDigits? ds).bind fun n => if n ≤ Word.half then some (Int32.ofInt (-n)) else none
  | '+' :: ds => (natOfDigits? ds).bind fun n => if n < Word.count then some (Int32.ofNat n) else none
  | ds => (natOfDigits? ds).bind fun n => if n < Word.count then some (Int32.ofNat n) else none

/-- Whether a word is a name. -/
def isName (w : String) : Bool :=
  match w.toList with
  | '$' :: _ :: _ => true
  | _ => false

/-! ## §2 Instructions -/

namespace Instr

/-- The instructions that are one word. -/
def plain? (w : String) : Option Instr :=
  match w with
  | "i32.eqz" => some .eqz
  | "i32.load" => some .load
  | "i32.store" => some .store
  | "drop" => some .drop
  | "return" => some .return_
  | w => (BinaryOp.all.find? (·.text == w)).map .binary

/-- The instructions that are a word with a name or a number after it. -/
def immediate? (w arg : String) : Option Instr :=
  if w = "i32.const" then (word? arg).map .const
  else if isName arg then
    match w with
    | "local.get" => some (.localGet arg)
    | "local.set" => some (.localSet arg)
    | "global.get" => some (.globalGet arg)
    | "global.set" => some (.globalSet arg)
    | "call" => some (.call arg)
    | "br" => some (.br arg)
    | "br_if" => some (.brIf arg)
    | _ => none
  else none

mutual

/-- The code of an item in parentheses: the code of its operands, then its own. -/
def ofItem? : Sexp → Option (List Instr)
  | .list (.word "block" :: .word l :: body) =>
    if isName l then do return [.block l (← ofItems? body)] else none
  | .list (.word "loop" :: .word l :: body) =>
    if isName l then do return [.loop l (← ofItems? body)] else none
  | .list (.word "if" :: parts) => branches? parts
  | .list (.word w :: .word arg :: operands) => do
    let own ← immediate? w arg
    return (← operands? operands) ++ [own]
  | .list (.word w :: operands) => do
    let own ← plain? w
    return (← operands? operands) ++ [own]
  | _ => none

/-- The code of operands, which are all in parentheses. -/
def operands? : List Sexp → Option (List Instr)
  | [] => some []
  | item :: items => do
    let first ← ofItem? item
    return first ++ (← operands? items)

/-- A conditional: the code of its condition, if it is nested, and its branches. -/
def branches? : List Sexp → Option (List Instr)
  | [.list (.word "then" :: thn)] => do return [.ifElse (← ofItems? thn) []]
  | [.list (.word "then" :: thn), .list (.word "else" :: els)] => do
    let thn ← ofItems? thn
    return [.ifElse thn (← ofItems? els)]
  | item :: items => do
    let first ← ofItem? item
    return first ++ (← branches? items)
  | [] => none

/-- The code of items that follow each other, in parentheses or not. -/
def ofItems? : List Sexp → Option (List Instr)
  | [] => some []
  | .word w :: items =>
    match plain? w with
    | some own => do return own :: (← ofItems? items)
    | none =>
      match items with
      | .word arg :: items => do
        let own ← immediate? w arg
        return own :: (← ofItems? items)
      | _ => none
  | item :: items => do
    let first ← ofItem? item
    return first ++ (← ofItems? items)

end

end Instr

/-! ## §3 Functions, globals and imports -/

/-- The longest run of items at the front that `f` takes, and the items after it. -/
def takeRun {α β : Type} (f : α → Option β) : List α → List β × List α
  | [] => ([], [])
  | a :: as =>
    match f a with
    | some b => ((b :: (takeRun f as).1), (takeRun f as).2)
    | none => ([], a :: as)

/-- The name at the front of items, if there is one, and the items after it. -/
def takeName : List Sexp → String × List Sexp
  | .word w :: items => if isName w then (w, items) else ("", .word w :: items)
  | items => ("", items)

/-- The names of parameters or locals; the empty name stands for no name. -/
def declared? (keyword : String) : Sexp → Option (List String)
  | .list [.word k, .word x, .word "i32"] =>
    if k = keyword then
      if isName x then some [x] else if x = "i32" then some ["", ""] else none
    else none
  | .list (.word k :: types) =>
    if k = keyword then
      types.mapM fun
        | .word "i32" => some ""
        | _ => none
    else none
  | _ => none

/-- The name of an export. -/
def export? : Sexp → Option String
  | .list [.word "export", .string name] => some name
  | _ => none

/-- The two names of an import. -/
def importNames? : Sexp → Option (String × String)
  | .list [.word "import", .string space, .string name] => some (space, name)
  | _ => none

/-- A limit on pages, with or without an upper bound. -/
def limits? : List Sexp → Option (Nat × Option Nat)
  | [.word min] => (nat? min).map (·, none)
  | [.word min, .word max] => do
    let min ← nat? min
    let max ← nat? max
    if min ≤ max then return (min, some max) else none
  | _ => none

/-- A part of a module. -/
inductive Field where
  | import_ (i : Import)
  | global (g : Global)
  | func (f : Func)
  | export_ (name func : String)

namespace Field

/-- A function, defined or imported. -/
def func? (items : List Sexp) : Option Field := do
  let (name, items) := takeName items
  let (exports, items) := takeRun export? items
  let (origin, items) := takeRun importNames? items
  let (params, items) := takeRun (declared? "param") items
  let (results, items) := takeRun (declared? "result") items
  let params := params.flatten
  if results.flatten.any (· ≠ "") then none
  let results := results.flatten.length
  match origin with
  | [] =>
    let (locals, items) := takeRun (declared? "local") items
    let body ← Instr.ofItems? items
    return .func ⟨name, exports, params, results, locals.flatten, body⟩
  | [(space, item)] =>
    if items.isEmpty && exports.isEmpty then
      return .import_ ⟨space, item, .func name params.length results⟩
    else none
  | _ => none

/-- A part of a module. -/
def ofSexp? : Sexp → Option Field
  | .list [.word "import", .string space, .string name, .list (.word "memory" :: limits)] => do
    let (min, max) ← limits? (takeName limits).2
    return .import_ ⟨space, name, .memory min max⟩
  | .list [.word "import", .string space, .string name, .list (.word "func" :: signature)] =>
    match func? signature with
    | some (.func ⟨f, [], params, results, [], []⟩) =>
      some (.import_ ⟨space, name, .func f params.length results⟩)
    | _ => none
  | .list (.word "func" :: items) => func? items
  | .list [.word "global", .word x, .list [.word "mut", .word "i32"],
      .list [.word "i32.const", .word n]] =>
    if isName x then do return .global ⟨x, true, ← word? n⟩ else none
  | .list [.word "global", .word x, .word "i32", .list [.word "i32.const", .word n]] =>
    if isName x then do return .global ⟨x, false, ← word? n⟩ else none
  | .list [.word "export", .string name, .list [.word "func", .word f]] =>
    if isName f then some (.export_ name f) else none
  | _ => none

end Field

/-! ## §4 Modules -/

namespace Module

/-- A module with one more export of a function; the function must be there. -/
def addExport? (m : Module) (name f : String) : Option Module :=
  if m.funcs.any (·.name = f) then
    some { m with
      funcs := m.funcs.map fun g =>
        if g.name = f then { g with exports := g.exports ++ [name] } else g }
  else none

/-- The module of parts. Imports come before everything else. -/
def ofFields? (fields : List Field) : Option Module :=
  let isImport : Field → Bool
    | .import_ _ => true
    | _ => false
  let imports := fields.filterMap fun
    | .import_ i => some i
    | _ => none
  let globals := fields.filterMap fun
    | .global g => some g
    | _ => none
  let funcs := fields.filterMap fun
    | .func f => some f
    | _ => none
  let exports := fields.filterMap fun
    | .export_ name f => some (name, f)
    | _ => none
  if (fields.dropWhile isImport).any isImport then none
  else exports.foldlM (fun m e => m.addExport? e.1 e.2) ⟨imports, globals, funcs⟩

/-- The module of a text: one list that starts with `module`, or the parts of a module, at least
one. -/
def read? (text : String) : Option Module := do
  match ← Sexp.readAll text with
  | [.list (.word "module" :: items)] =>
    ofFields? (← (takeName items).2.mapM Field.ofSexp?)
  | [] => none
  | items => ofFields? (← items.mapM Field.ofSexp?)

end Module

end Serpent.Wasm
