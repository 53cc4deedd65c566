/-
Serpent.Command.Options — the arguments of the compiler.

Arguments are read from left to right. The first one that is wrong ends the reading, and so does
the first one that asks for help or for the version.

  §1 Switches
  §2 Options and jobs
  §3 Reading
-/
import Serpent.Text.Decimal
import Serpent.Word

namespace Serpent

/-- What the compiler gives for a source text. -/
inductive Emit where
  | wat
  | ast
  | typed
  | run
deriving DecidableEq, Repr

namespace Emit

/-- How it is asked for. -/
def text : Emit → String
  | wat => "wat"
  | ast => "ast"
  | typed => "typed"
  | run => "run"

def all : List Emit := [wat, ast, typed, run]

def ofText? (t : String) : Option Emit := all.find? (·.text = t)

end Emit

/-! ## §1 Switches -/

/-- An argument that starts with a dash. -/
inductive Switch where
  | code
  | emit
  | memoryPages
  | verbose
  | help
  | version
deriving DecidableEq, Repr

namespace Switch

/-- The name after two dashes. -/
def long : Switch → String
  | code => "code"
  | emit => "emit"
  | memoryPages => "memory-pages"
  | verbose => "verbose"
  | help => "help"
  | version => "version"

/-- The letter after one dash. -/
def short? : Switch → Option Char
  | code => some 'c'
  | emit => some 'e'
  | memoryPages => none
  | verbose => some 'v'
  | help => some 'h'
  | version => some 'V'

/-- Whether a value belongs to it. -/
def takesValue : Switch → Bool
  | code | emit | memoryPages => true
  | verbose | help | version => false

def all : List Switch := [code, emit, memoryPages, verbose, help, version]

def ofLong? (name : List Char) : Option Switch := all.find? (·.long.toList = name)

def ofShort? (c : Char) : Option Switch := all.find? (·.short? = some c)

end Switch

/-! ## §2 Options and jobs -/

/-- What the arguments so far have set (`Cli`). -/
structure Options where
  files : List String := []
  code : Option String := none
  emit : Option Emit := none
  pages : Option Nat := none
  verbose : Bool := false
deriving DecidableEq, Repr

/-- Where the source text comes from. -/
inductive Source where
  | files (paths : List String)
  | code (text : String)
deriving DecidableEq, Repr

/-- What the compiler is to do. -/
structure Job where
  source : Source
  emit : Emit
  pages : Nat
deriving DecidableEq, Repr

/-- What the arguments ask for. -/
inductive Request where
  | job (j : Job)
  | help
  | version
deriving DecidableEq, Repr

/-- A number of pages: a number of 32 bits, maybe after a sign. -/
def pageCount? (text : String) : Option Nat :=
  match text.toList with
  | '-' :: digits => (natOfDigits? digits).filter (· = 0)
  | '+' :: digits => (natOfDigits? digits).filter (· < Word.count)
  | digits => (natOfDigits? digits).filter (· < Word.count)

namespace Options

/-- Give a switch its value. Each may have only one. -/
def set (o : Options) (value : String) : Switch → Option Options
  | .code => if o.code.isSome then none else some { o with code := some value }
  | .emit => do
    let e ← Emit.ofText? value
    if o.emit.isSome then none else some { o with emit := some e }
  | .memoryPages => do
    let n ← pageCount? value
    if o.pages.isSome then none else some { o with pages := some n }
  | .verbose | .help | .version => none

/-- Add a file; an empty path is none. -/
def addFile (o : Options) (path : String) : Option Options :=
  if path.isEmpty then none else some { o with files := o.files ++ [path] }

/-- The job when all arguments are read: there must be either files or code. -/
def job? (o : Options) : Option Job :=
  match o.files, o.code with
  | [], some text => some ⟨.code text, o.emit.getD .run, o.pages.getD 1⟩
  | path :: paths, none => some ⟨.files (path :: paths), o.emit.getD .run, o.pages.getD 1⟩
  | _, _ => none

/-! ## §3 Reading -/

/-- What one argument leads to: options, a switch whose value is the next argument, or an end. -/
inductive Step where
  | done (o : Options)
  | wants (o : Options) (s : Switch)
  | stop (r : Request)
  | wrong
deriving DecidableEq, Repr

def Step.ofOption : Option Options → Step
  | some o => .done o
  | none => .wrong

/-- A switch without a value. -/
def switch (o : Options) : Switch → Step
  | .verbose => if o.verbose then .wrong else .done { o with verbose := true }
  | .help => .stop .help
  | .version => .stop .version
  | s => .wants o s

/-- What follows two dashes: a name, or a name and its value after an equals sign. -/
def readLong (o : Options) (text : List Char) : Step :=
  match Switch.ofLong? (text.takeWhile (· ≠ '=')), text.dropWhile (· ≠ '=') with
  | none, _ => .wrong
  | some s, [] => o.switch s
  | some s, _ :: value => .ofOption (o.set (String.ofList value) s)

/-- What follows one dash: letters of switches, of which the last may have its value after it, and
an equals sign between them. -/
def readShort (o : Options) : List Char → Step
  | [] => .done o
  | c :: cs =>
    match Switch.ofShort? c with
    | none => .wrong
    | some s =>
      match s.takesValue, cs with
      | true, [] => .wants o s
      | true, '=' :: value => .ofOption (o.set (String.ofList value) s)
      | true, value => .ofOption (o.set (String.ofList value) s)
      | false, cs =>
        match o.switch s with
        | .done o => readShort o cs
        | other => other

/-- An argument that is not a value: a dash alone is a file. -/
def readArg (o : Options) (arg : String) : Step :=
  match arg.toList with
  | '-' :: '-' :: text => o.readLong text
  | '-' :: c :: cs => o.readShort (c :: cs)
  | _ => .ofOption (o.addFile arg)

/-- Whether an argument cannot be the value of the switch before it. -/
def looksLikeSwitch (arg : String) : Bool :=
  match arg.toList with
  | '-' :: _ :: _ => true
  | _ => false

/-- Read arguments after a switch that wants a value, if there is one. After two dashes alone all
arguments are files. -/
def read (o : Options) (pending : Option Switch) : List String → Option Request
  | [] => if pending.isSome then none else o.job?.map .job
  | arg :: args =>
    match pending with
    | some s =>
      if looksLikeSwitch arg then none
      else do read (← o.set arg s) none args
    | none =>
      if arg = "--" then do ((← args.foldlM addFile o).job?).map .job
      else
        match o.readArg arg with
        | .done o => read o none args
        | .wants o s => read o (some s) args
        | .stop r => some r
        | .wrong => none

end Options

/-- What arguments ask for, unless they are wrong. -/
def Request.ofArgs? (args : List String) : Option Request := Options.read {} none args

/-- The files that have to be read for what is asked. -/
def Request.paths : Request → List String
  | .job ⟨.files paths, _, _⟩ => paths
  | _ => []

end Serpent
