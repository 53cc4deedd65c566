import Serpent.Command
import Serpent.Command.Compiler
import Serpent.Command.Inspector
import Serpent.Command.Options
import Serpent.Compile
import Serpent.Image
import Serpent.Image.Layout
import Serpent.Image.Lower
import Serpent.Main
import Serpent.Program
import Serpent.Program.Equality
import Serpent.Program.Outline
import Serpent.Program.Parse
import Serpent.Program.Source
import Serpent.Proofs.Canonical
import Serpent.Proofs.Decimal
import Serpent.Proofs.Fallible
import Serpent.Proofs.Lexeme
import Serpent.Proofs.Shape
import Serpent.Session
import Serpent.Text.Blank
import Serpent.Text.Decimal
import Serpent.Text.Line
import Serpent.Text.Outline
import Serpent.Text.Quoted
import Serpent.Text.Span
import Serpent.Text.Visible
import Serpent.Token
import Serpent.Token.Layout
import Serpent.Token.Scan
import Serpent.Tree
import Serpent.Tree.Expression
import Serpent.Tree.Rule
import Serpent.Tree.Source
import Serpent.Tree.Statement
import Serpent.Typing.Check
import Serpent.Typing.Context
import Serpent.Typing.Error
import Serpent.Typing.Program
import Serpent.Wasm.Host
import Serpent.Wasm.Instr
import Serpent.Wasm.Machine
import Serpent.Wasm.Memory
import Serpent.Wasm.Module
import Serpent.Wasm.Print
import Serpent.Wasm.Read
import Serpent.Wasm.Run
import Serpent.Wasm.Sexp
import Serpent.Wasm.Valid
import Serpent.Word
import Serpent.Proofs.Parsed
import Serpent.Proofs.Blocks
import Serpent.Proofs.Compiled
import Serpent.Proofs.Checking
import Serpent.Proofs.Joined
import Serpent.Proofs.Soundness
import Serpent.Proofs.TypeSafety
import Serpent.Proofs.Covering
import Serpent.Proofs.Hygiene
import Serpent.Proofs.ImageText
import Serpent.Proofs.Allocation
import Serpent.Proofs.Pages
import Serpent.Proofs.TopLevel
import Serpent.Proofs.Impossible
import Serpent.Proofs.Legal
import Serpent.Proofs.Offside
import Serpent.Proofs.Precedence
import Serpent.Proofs.Insertion
import Serpent.Proofs.Diagnostics
import Serpent.Proofs.Returning
import Serpent.Proofs.Construction
import Serpent.Proofs.History
import Serpent.Proofs.NoneCalls
import Serpent.Proofs.TreeForm
import Serpent.Proofs.LoopNumbers
