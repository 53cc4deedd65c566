/-
Serpent.Proofs.ImageText — the text of an image denotes the image.

Nothing is asked of a program but that its names are words: it need not be checked, and what its
names stand for does not matter. Its code is made of plain instructions, two-way branches and loops
(§2), and all names in it are symbols (§4 to §6). So the text of its image is read as the image, and
in what is read every label stands for the construct that it was written for (§1): of the two
branches of a loop, one leaves the block around that loop and the other starts that loop again.

  §1 What labels stand for
  §2 Code as trees
  §3 The names in a program
  §4 Code of symbols
  §5 The code of expressions and statements
  §6 Routines
  §7 Images
-/
import Serpent.Proofs.Induction
import Serpent.Proofs.WellFormed

namespace Serpent

open Fallible
open Wasm (Instr isSymbol)

/-! ## §1 What labels stand for -/

namespace Wasm

/-- An instruction in which a branch tells its target by the number of constructs that stand between
the two; the construct around the branch has number 0. -/
inductive Indexed where
  | plain (i : Instr)
  | ifElse (thn els : List Indexed)
  | block (body : List Indexed)
  | loop (body : List Indexed)
  | br (target : Nat)
  | brIf (target : Nat)

namespace Instr

/-- Whether an instruction is no construct and no branch. -/
def isPlain : Instr → Bool
  | .ifElse _ _ | .block _ _ | .loop _ _ | .br _ | .brIf _ => false
  | _ => true

mutual

/-- What the labels in an instruction stand for. The labels of the constructs around it are given,
the innermost first; a conditional has none. A name stands for the innermost construct that has
it. -/
def indexed? (labels : List (Option String)) : Instr → Option Indexed
  | .ifElse thn els => do
    return .ifElse (← indexedAll? (none :: labels) thn) (← indexedAll? (none :: labels) els)
  | .block l body => (indexedAll? (some l :: labels) body).map .block
  | .loop l body => (indexedAll? (some l :: labels) body).map .loop
  | .br l => (labels.findIdx? (· = some l)).map .br
  | .brIf l => (labels.findIdx? (· = some l)).map .brIf
  | i => some (.plain i)

/-- What the labels in instructions that follow each other stand for. -/
def indexedAll? (labels : List (Option String)) : List Instr → Option (List Indexed)
  | [] => some []
  | i :: is => do return (← indexed? labels i) :: (← indexedAll? labels is)

end

theorem indexed?_of_isPlain {i : Instr} (h : i.isPlain = true) (labels : List (Option String)) :
    i.indexed? labels = some (.plain i) := by
  cases i <;> first | rfl | cases h

theorem indexedAll?_append {labels : List (Option String)} {is js : List Instr}
    {xs ys : List Indexed} (first : indexedAll? labels is = some xs)
    (rest : indexedAll? labels js = some ys) : indexedAll? labels (is ++ js) = some (xs ++ ys) := by
  induction is generalizing xs with
  | nil =>
    cases first
    exact rest
  | cons i is ih =>
    simp only [indexedAll?, Option.bind_eq_bind, Option.bind_eq_some_iff] at first
    obtain ⟨x, hx, xs, hxs, eq⟩ := first
    cases eq
    simp [indexedAll?, hx, ih hxs]

end Instr

end Wasm

/-! ## §2 Code as trees -/

/-- Code as code generation builds it: plain instructions, two-way branches, and loops. -/
inductive CodeTree where
  | plain (i : Instr) (h : i.isPlain = true)
  | branch (yes no : List CodeTree)
  | while_ (number : Nat) (cond body : List CodeTree)

namespace CodeTree

mutual

/-- The instruction that a tree stands for. -/
def code : CodeTree → Instr
  | .plain i _ => i
  | .branch yes no => .ifElse (codes yes) (codes no)
  | .while_ n cond body => Surroundings.whileLoop n (codes cond) (codes body)

/-- The instructions of trees. -/
def codes : List CodeTree → List Instr
  | [] => []
  | t :: ts => code t :: codes ts

end

mutual

/-- What a tree means, without any name of a label. A loop stands alone in a block. Its exit branch
goes past the loop and leaves that block, number 1 where the branch stands; its last branch starts
the loop again, number 0. -/
def shape : CodeTree → Wasm.Indexed
  | .plain i _ => .plain i
  | .branch yes no => .ifElse (shapes yes) (shapes no)
  | .while_ _ cond body =>
    .block [.loop (shapes cond ++ [.plain .eqz, .brIf 1] ++ shapes body ++ [.br 0])]

/-- What trees mean. -/
def shapes : List CodeTree → List Wasm.Indexed
  | [] => []
  | t :: ts => shape t :: shapes ts

end

theorem codes_append (ts us : List CodeTree) : codes (ts ++ us) = codes ts ++ codes us := by
  induction ts with
  | nil => rfl
  | cons t ts ih => simp [codes, ih]

theorem exists_of_isPlain {is : List Instr} (h : ∀ i ∈ is, i.isPlain = true) :
    ∃ ts, is = codes ts := by
  induction is with
  | nil => exact ⟨[], rfl⟩
  | cons i is ih =>
    rw [List.forall_mem_cons] at h
    obtain ⟨ts, rfl⟩ := ih h.2
    exact ⟨.plain i h.1 :: ts, rfl⟩

/-- The two branches of a loop stand for the block around it and for the loop itself. -/
theorem indexed?_whileLoop (n : Nat) {cond body : List Instr} {xs ys : List Wasm.Indexed}
    {labels : List (Option String)}
    (hcond : Instr.indexedAll? (some (Surroundings.againLabel n) ::
      some (Surroundings.leaveLabel n) :: labels) cond = some xs)
    (hbody : Instr.indexedAll? (some (Surroundings.againLabel n) ::
      some (Surroundings.leaveLabel n) :: labels) body = some ys) :
    (Surroundings.whileLoop n cond body).indexed? labels =
      some (.block [.loop (xs ++ [.plain .eqz, .brIf 1] ++ ys ++ [.br 0])]) := by
  have differ : Surroundings.againLabel n ≠ Surroundings.leaveLabel n :=
    (Surroundings.leaveLabel_ne_againLabel n).symm
  have test : Instr.indexedAll?
      (some (Surroundings.againLabel n) :: some (Surroundings.leaveLabel n) :: labels)
      [.eqz, .brIf (Surroundings.leaveLabel n)] = some [.plain .eqz, .brIf 1] := by
    simp [Instr.indexedAll?, Instr.indexed?, List.findIdx?_cons, differ]
  have again : Instr.indexedAll?
      (some (Surroundings.againLabel n) :: some (Surroundings.leaveLabel n) :: labels)
      [.br (Surroundings.againLabel n)] = some [.br 0] := by
    simp [Instr.indexedAll?, Instr.indexed?, List.findIdx?_cons]
  have round := Instr.indexedAll?_append (Instr.indexedAll?_append
    (Instr.indexedAll?_append hcond test) hbody) again
  rw [Surroundings.whileLoop, Instr.indexed?, Instr.indexedAll?, Instr.indexed?, round]
  rfl

mutual

/-- Wherever the code of a tree stands, its labels stand for what they were made for. -/
theorem indexed?_code : ∀ (t : CodeTree) (labels : List (Option String)),
    t.code.indexed? labels = some t.shape
  | .plain i h, labels => Instr.indexed?_of_isPlain h labels
  | .branch yes no, labels => by
    simp [code, shape, Instr.indexed?, indexedAll?_codes yes, indexedAll?_codes no]
  | .while_ n cond body, labels => by
    rw [code, shape]
    exact indexed?_whileLoop n (indexedAll?_codes cond _) (indexedAll?_codes body _)

theorem indexedAll?_codes : ∀ (ts : List CodeTree) (labels : List (Option String)),
    Instr.indexedAll? labels (codes ts) = some (shapes ts)
  | [], _ => rfl
  | t :: ts, labels => by
    simp [codes, shapes, Instr.indexedAll?, indexed?_code t labels, indexedAll?_codes ts labels]

end

end CodeTree

/-! ## §3 The names in a program -/

/-- The names in a type. -/
def Ty.mentions : Ty → List String
  | .object c => [c]
  | _ => []

/-- The names in the type that is written into an expression, if there is one. -/
def Ty.mentionsWritten (written : Option Ty) : List String := (written.map Ty.mentions).getD []

namespace Expr

mutual

/-- The names in an expression, those of the types that are written into it among them. -/
def mentions : Expr → List String
  | .literal a _ => Ty.mentionsWritten a
  | .var a x => x :: Ty.mentionsWritten a
  | .unary a _ e => Ty.mentionsWritten a ++ mentions e
  | .binary a _ l r => Ty.mentionsWritten a ++ mentions l ++ mentions r
  | .call a f args => f :: Ty.mentionsWritten a ++ allMentions args
  | .field a o x => x :: Ty.mentionsWritten a ++ mentions o
  | .method a o x args => x :: Ty.mentionsWritten a ++ mentions o ++ allMentions args

/-- The names in expressions. -/
def allMentions : List Expr → List String
  | [] => []
  | e :: es => mentions e ++ allMentions es

end

end Expr

/-- The names in a target. -/
def Target.mentions : Target → List String
  | .var x => [x]
  | .member o x => x :: o.mentions

namespace Stmt

mutual

/-- The names in a statement. -/
def mentions : Stmt → List String
  | .pass => []
  | .assign target e => target.mentions ++ e.mentions
  | .expr e => e.mentions
  | .return_ e => e.mentions
  | .while_ c body => c.mentions ++ allMentions body
  | .if_ c body none none => c.mentions ++ allMentions body
  | .if_ c body none (some orElse) => c.mentions ++ allMentions body ++ allMentions orElse
  | .if_ c body (some (d, other)) none =>
    c.mentions ++ allMentions body ++ (d.mentions ++ allMentions other)
  | .if_ c body (some (d, other)) (some orElse) =>
    c.mentions ++ allMentions body ++ (d.mentions ++ allMentions other) ++ allMentions orElse

/-- The names in statements. -/
def allMentions : List Stmt → List String
  | [] => []
  | s :: ss => mentions s ++ allMentions ss

end

end Stmt

/-- The names in a variable definition. -/
def VarDef.mentions (v : VarDef) : List String := v.name :: v.ty.mentions

/-- The names in a function. -/
def FunDef.mentions (f : FunDef) : List String :=
  f.name :: f.params.flatMap (fun a => a.name :: a.ty.mentions) ++ f.result.mentions ++
    f.locals.flatMap VarDef.mentions ++ Stmt.allMentions f.body

/-- The names in a class. -/
def ClassDef.mentions (c : ClassDef) : List String :=
  c.name :: c.parent :: c.fields.flatMap VarDef.mentions ++ c.methods.flatMap FunDef.mentions

/-- The names in a definition. -/
def Def.mentions : Def → List String
  | .var v => v.mentions
  | .function f => f.mentions
  | .class_ c => c.mentions

/-- The names in a program. -/
def Program.mentions (p : Program) : List String :=
  p.defs.flatMap Def.mentions ++ Stmt.allMentions p.stmts

theorem Expr.mem_allMentions {x : String} {es : List Expr} :
    x ∈ allMentions es ↔ ∃ e ∈ es, x ∈ e.mentions := by
  induction es with
  | nil => simp [allMentions]
  | cons e es ih => simp [allMentions, ih]

theorem Stmt.mem_allMentions {x : String} {ss : List Stmt} :
    x ∈ allMentions ss ↔ ∃ s ∈ ss, x ∈ s.mentions := by
  induction ss with
  | nil => simp [allMentions]
  | cons s ss ih => simp [allMentions, ih]

theorem Stmt.mem_mentions_if {x : String} {c : Expr} {body : List Stmt}
    {elif : Option (Expr × List Stmt)} {orElse : Option (List Stmt)} :
    x ∈ (Stmt.if_ c body elif orElse).mentions ↔
      x ∈ c.mentions ∨ x ∈ allMentions body ∨
        (∃ d ∈ elif, x ∈ d.1.mentions ∨ x ∈ allMentions d.2) ∨
        ∃ b ∈ orElse, x ∈ allMentions b := by
  rcases elif with _ | ⟨d, other⟩ <;> rcases orElse with _ | orElse <;> simp [mentions, or_assoc]

theorem Expr.mem_mentions_of_written {e : Expr} {x : String} (h : x ∈ Ty.mentionsWritten e.ty?) :
    x ∈ e.mentions := by
  cases e <;> simp only [ty?] at h <;> simp [mentions, h]

/-- The class of a receiver is named by the type that is written into it. -/
theorem Surroundings.mem_mentions_of_classOf {o : Expr} {c : String} (h : classOf o = .ok c) :
    c ∈ o.mentions := by
  obtain ⟨t, ht, h⟩ := bind_eq_ok.1 h
  rw [typeOf] at ht
  split at ht <;> cases ht
  rename_i written
  cases t <;> cases h
  refine Expr.mem_mentions_of_written ?_
  rw [written]
  exact List.mem_singleton.2 rfl

/-! ## §4 Code of symbols -/

/-- Code that is made of trees, and in which all names are symbols. -/
structure IsTidy (code : List Instr) : Prop where
  symbols : ∀ s ∈ Instr.listSymbols code, isSymbol s.2 = true
  trees : ∃ ts, code = CodeTree.codes ts

namespace IsTidy

theorem nil : IsTidy [] := ⟨by simp [Instr.listSymbols], [], rfl⟩

theorem append {is js : List Instr} (first : IsTidy is) (rest : IsTidy js) : IsTidy (is ++ js) := by
  obtain ⟨ts, hts⟩ := first.trees
  obtain ⟨us, hus⟩ := rest.trees
  refine ⟨?_, ts ++ us, by rw [CodeTree.codes_append, hts, hus]⟩
  rw [Instr.listSymbols_append, List.forall_mem_append]
  exact ⟨first.symbols, rest.symbols⟩

theorem flatMap {α : Type} {xs : List α} {f : α → List Instr} (h : ∀ x ∈ xs, IsTidy (f x)) :
    IsTidy (xs.flatMap f) := by
  induction xs with
  | nil => exact nil
  | cons x xs ih =>
    rw [List.forall_mem_cons] at h
    exact append h.1 (ih h.2)

/-- Plain instructions that follow each other. -/
theorem plains {code : List Instr} (plain : ∀ i ∈ code, i.isPlain = true)
    (symbols : ∀ s ∈ Instr.listSymbols code, isSymbol s.2 = true) : IsTidy code :=
  ⟨symbols, CodeTree.exists_of_isPlain plain⟩

theorem ifElse {thn els : List Instr} (yes : IsTidy thn) (no : IsTidy els) :
    IsTidy [.ifElse thn els] := by
  obtain ⟨ts, rfl⟩ := yes.trees
  obtain ⟨us, rfl⟩ := no.trees
  refine ⟨?_, [.branch ts us], rfl⟩
  rw [Instr.listSymbols, Instr.symbols, Instr.listSymbols, List.append_nil, List.forall_mem_append]
  exact ⟨yes.symbols, no.symbols⟩

theorem whileLoop (n : Nat) {cond body : List Instr} (hcond : IsTidy cond) (hbody : IsTidy body) :
    IsTidy [Surroundings.whileLoop n cond body] := by
  obtain ⟨ts, rfl⟩ := hcond.trees
  obtain ⟨us, rfl⟩ := hbody.trees
  refine ⟨?_, [.while_ n ts us], rfl⟩
  have labels : ∀ l ∈ loopLabels n (n + 1), isSymbol l = true := fun l => isSymbol_loopLabel
  rw [loopLabels_succ] at labels
  have leave := labels (Surroundings.leaveLabel n) (by simp)
  have again := labels (Surroundings.againLabel n) (by simp)
  intro s hs
  simp only [Surroundings.whileLoop, Instr.listSymbols, Instr.symbols, Instr.listSymbols_append,
    List.mem_append, List.mem_cons, List.not_mem_nil, or_false, false_or] at hs
  rcases hs with rfl | rfl | ((hs | rfl) | hs) | rfl
  · exact leave
  · exact again
  · exact hcond.symbols s hs
  · exact leave
  · exact hbody.symbols s hs
  · exact again

/-- One more plain instruction whose name, if it has one, is a symbol. -/
theorem snoc {code : List Instr} (h : IsTidy code) {i : Instr} (plain : i.isPlain = true)
    (symbols : ∀ s ∈ i.symbols, isSymbol s.2 = true) : IsTidy (code ++ [i]) := by
  refine h.append (plains (by simpa using plain) ?_)
  simpa [Instr.listSymbols] using symbols

end IsTidy

/-! ## §5 The code of expressions and statements -/

/-- The classes that code is made for have words as names. -/
def Surroundings.HasWords (env : Surroundings) : Prop :=
  ∀ {f layout}, env.layouts.lookup f = some layout → isSourceWord layout.name = true

variable {env : Surroundings}

theorem ClassLayout.isTidy_construct {layout : ClassLayout} (h : isSourceWord layout.name = true) :
    IsTidy layout.construct := by
  have init : isSymbol (methodSymbol layout.name initMethod) = true :=
    isSymbol_methodSymbol h (by decide)
  have pointer : isSymbol heapPointer = true := by decide
  have alloc : isSymbol allocLocal = true := by decide
  refine .append (.flatMap fun slot _ => .plains ?_ ?_) (.plains ?_ ?_)
  · simp [initSlot, Instr.isPlain]
  · simp [initSlot, Instr.listSymbols, Instr.symbols, pointer]
  · simp [Instr.isPlain]
  · simp [Instr.listSymbols, Instr.symbols, pointer, alloc, init]

namespace Surroundings

/-- The code of an expression, if it has code, is tidy. -/
def TidyExpr (env : Surroundings) (e : Expr) : Prop := ∀ code, env.expr e = .ok code → IsTidy code

/-- The code of a statement, if it has code, is tidy. -/
def TidyStmt (env : Surroundings) (s : Stmt) : Prop :=
  ∀ n code n', env.stmt n s = .ok (code, n') → IsTidy code

/-- The code of statements that follow each other, if they have code, is tidy. -/
def TidyBlock (env : Surroundings) (ss : List Stmt) : Prop :=
  ∀ n code n', env.block n ss = .ok (code, n') → IsTidy code

theorem isTidy_exprs {es : List Expr} (each : ∀ e ∈ es, env.TidyExpr e) {code : List Instr}
    (h : env.exprs es = .ok code) : IsTidy code := by
  induction es generalizing code with
  | nil =>
    cases h
    exact .nil
  | cons e es ih =>
    rw [List.forall_mem_cons] at each
    rw [exprs] at h
    obtain ⟨first, hfirst, h⟩ := bind_eq_ok.1 h
    obtain ⟨rest, hrest, h⟩ := bind_eq_ok.1 h
    cases h
    exact (each.1 first hfirst).append (ih each.2 hrest)

theorem tidyExpr (layouts : env.HasWords) {e : Expr}
    (words : ∀ x ∈ e.mentions, isSourceWord x = true) : env.TidyExpr e := by
  induction e with
  | literal a v =>
    intro code h
    cases h
    exact .plains (by simp [Instr.isPlain]) (by simp [Instr.listSymbols, Instr.symbols])
  | var a x =>
    intro code h
    cases h
    have symbol : isSymbol (varSymbol x) = true :=
      isSymbol_varSymbol (words x (by simp [Expr.mentions]))
    rw [getVar]
    split
    · exact IsTidy.nil.snoc rfl (by simp [Instr.symbols, symbol])
    · exact IsTidy.nil.snoc rfl (by simp [Instr.symbols, symbol])
  | unary a op e ih =>
    intro code h
    have operand := ih fun x hx => words x (by simp [Expr.mentions, hx])
    cases op with
    | neg =>
      rw [expr] at h
      obtain ⟨c, hc, h⟩ := bind_eq_ok.1 h
      cases h
      exact (operand c hc).append (.plains (by simp [Instr.isPlain])
        (by simp [Instr.listSymbols, Instr.symbols]))
    | not =>
      rw [expr] at h
      obtain ⟨c, hc, h⟩ := bind_eq_ok.1 h
      cases h
      exact (operand c hc).snoc rfl (by simp [Instr.symbols])
  | binary a op l r ihl ihr =>
    intro code h
    rw [expr] at h
    obtain ⟨left, hleft, h⟩ := bind_eq_ok.1 h
    obtain ⟨right, hright, h⟩ := bind_eq_ok.1 h
    cases h
    have tidyLeft := ihl (fun x hx => words x (by simp [Expr.mentions, hx])) left hleft
    have tidyRight := ihr (fun x hx => words x (by simp [Expr.mentions, hx])) right hright
    exact (tidyLeft.append tidyRight).snoc rfl (by simp [Instr.symbols])
  | call a f args ih =>
    intro code h
    have each : ∀ e ∈ args, env.TidyExpr e := fun e he => ih e he fun x hx => words x (by
      simp only [Expr.mentions, List.cons_append, List.mem_cons, List.mem_append]
      exact .inr (.inr (Expr.mem_allMentions.2 ⟨e, he, hx⟩)))
    rw [expr.eq_def] at h
    dsimp only at h
    split at h
    · split at h
      · rename_i e
        obtain ⟨c, hc, h⟩ := bind_eq_ok.1 h
        obtain ⟨t, -, h⟩ := bind_eq_ok.1 h
        cases h
        have printer : isSymbol (importSymbol (printerOf t).name) = true := by
          cases printerOf t <;> decide
        exact (each e (by simp) c hc).snoc rfl (by simp [Instr.symbols, printer])
      · cases h
    · split at h
      · rename_i layout found
        cases h
        exact ClassLayout.isTidy_construct (layouts found)
      · obtain ⟨c, hc, h⟩ := bind_eq_ok.1 h
        cases h
        have symbol : isSymbol (functionSymbol f) = true :=
          isSymbol_varSymbol (words f (by simp [Expr.mentions]))
        exact (isTidy_exprs each hc).snoc rfl (by simp [Instr.symbols, symbol])
  | field a o x ih =>
    intro code h
    rw [expr] at h
    obtain ⟨offset, -, h⟩ := bind_eq_ok.1 h
    obtain ⟨c, hc, h⟩ := bind_eq_ok.1 h
    cases h
    exact (ih (fun x hx => words x (by simp [Expr.mentions, hx])) c hc).append
      (.plains (by simp [Instr.isPlain]) (by simp [Instr.listSymbols, Instr.symbols]))
  | method a o x args ih ihargs =>
    intro code h
    have receiver : ∀ y ∈ o.mentions, isSourceWord y = true :=
      fun y hy => words y (by simp [Expr.mentions, hy])
    have each : ∀ e ∈ args, env.TidyExpr e := fun e he => ihargs e he fun x hx => words x (by
      simp only [Expr.mentions, List.cons_append, List.mem_cons, List.mem_append]
      exact .inr (.inr (Expr.mem_allMentions.2 ⟨e, he, hx⟩)))
    rw [expr] at h
    obtain ⟨c, hclass, h⟩ := bind_eq_ok.1 h
    obtain ⟨self, hself, h⟩ := bind_eq_ok.1 h
    obtain ⟨rest, hrest, h⟩ := bind_eq_ok.1 h
    cases h
    have symbol : isSymbol (methodSymbol c x) = true :=
      isSymbol_methodSymbol (receiver c (mem_mentions_of_classOf hclass))
        (words x (by simp [Expr.mentions]))
    exact ((ih receiver self hself).append (isTidy_exprs each hrest)).snoc rfl
      (by simp [Instr.symbols, symbol])

theorem tidyBlock_of_stmts {ss : List Stmt} (each : ∀ s ∈ ss, env.TidyStmt s) :
    env.TidyBlock ss := by
  induction ss with
  | nil =>
    intro n code n' h
    cases h
    exact .nil
  | cons s ss ih =>
    intro n code n' h
    rw [List.forall_mem_cons] at each
    rw [block] at h
    obtain ⟨⟨first, k⟩, hfirst, h⟩ := bind_eq_ok.1 h
    obtain ⟨⟨rest, k'⟩, hrest, h⟩ := bind_eq_ok.1 h
    cases h
    exact (each.1 n first k hfirst).append (ih each.2 k rest _ hrest)

theorem isTidy_setVar {x : String} (word : isSourceWord x = true) {code : List Instr}
    (h : IsTidy code) : IsTidy (code ++ [env.setVar x]) := by
  have symbol : isSymbol (varSymbol x) = true := isSymbol_varSymbol word
  rw [setVar]
  split
  · exact h.snoc rfl (by simp [Instr.symbols, symbol])
  · exact h.snoc rfl (by simp [Instr.symbols, symbol])

/-- A conditional without an `elif` branch. -/
theorem tidyStmt_if {c : Expr} {body : List Stmt} {orElse : Option (List Stmt)}
    (condition : env.TidyExpr c) (yes : env.TidyBlock body) (no : ∀ b ∈ orElse, env.TidyBlock b) :
    env.TidyStmt (.if_ c body none orElse) := by
  intro n code n' h
  cases orElse with
  | none =>
    rw [stmt] at h
    obtain ⟨cond, hcond, h⟩ := bind_eq_ok.1 h
    obtain ⟨⟨thn, k⟩, hthn, h⟩ := bind_eq_ok.1 h
    cases h
    exact (condition cond hcond).append (.ifElse (yes n thn _ hthn) .nil)
  | some orElse =>
    rw [stmt] at h
    obtain ⟨cond, hcond, h⟩ := bind_eq_ok.1 h
    obtain ⟨⟨thn, k⟩, hthn, h⟩ := bind_eq_ok.1 h
    obtain ⟨⟨els, k'⟩, hels, h⟩ := bind_eq_ok.1 h
    cases h
    exact (condition cond hcond).append (.ifElse (yes n thn k hthn) (no orElse rfl k els _ hels))

theorem tidyStmt (layouts : env.HasWords) {s : Stmt}
    (words : ∀ x ∈ s.mentions, isSourceWord x = true) : env.TidyStmt s := by
  induction s with
  | pass =>
    intro n code n' h
    cases h
    exact .nil
  | expr e =>
    intro n code n' h
    rw [stmt] at h
    obtain ⟨c, hc, h⟩ := bind_eq_ok.1 h
    cases h
    have scratch : isSymbol scratchLocal = true := by decide
    exact (tidyExpr layouts words c hc).snoc rfl (by simp [Instr.symbols, scratch])
  | assign target e =>
    intro n code n' h
    rw [Stmt.mentions, List.forall_mem_append] at words
    have value := tidyExpr layouts words.2
    cases target with
    | var x =>
      rw [stmt] at h
      obtain ⟨c, hc, h⟩ := bind_eq_ok.1 h
      cases h
      exact isTidy_setVar (words.1 x (by simp [Target.mentions])) (value c hc)
    | member o x =>
      have receiver : env.TidyExpr o := tidyExpr layouts fun y hy =>
        words.1 y (by simp [Target.mentions, hy])
      rw [stmt] at h
      obtain ⟨offset, -, h⟩ := bind_eq_ok.1 h
      obtain ⟨self, hself, h⟩ := bind_eq_ok.1 h
      obtain ⟨c, hc, h⟩ := bind_eq_ok.1 h
      cases h
      have place : IsTidy [.const offset, .binary .add] :=
        .plains (by simp [Instr.isPlain]) (by simp [Instr.listSymbols, Instr.symbols])
      exact (((receiver self hself).append place).append (value c hc)).snoc rfl
        (by simp [Instr.symbols])
  | return_ e =>
    intro n code n' h
    rw [stmt] at h
    obtain ⟨c, hc, h⟩ := bind_eq_ok.1 h
    cases h
    exact (tidyExpr layouts words c hc).snoc rfl (by simp [Instr.symbols])
  | while_ c body ih =>
    intro n code n' h
    rw [Stmt.mentions, List.forall_mem_append] at words
    have round : env.TidyBlock body := tidyBlock_of_stmts fun s hs =>
      ih s hs fun x hx => words.2 x (Stmt.mem_allMentions.2 ⟨s, hs, hx⟩)
    rw [stmt] at h
    obtain ⟨cond, hcond, h⟩ := bind_eq_ok.1 h
    obtain ⟨⟨inner, k⟩, hinner, h⟩ := bind_eq_ok.1 h
    cases h
    exact .whileLoop n (tidyExpr layouts words.1 cond hcond) (round _ inner _ hinner)
  | if_ c body elif orElse ihbody ihelif ihelse =>
    simp only [Stmt.mem_mentions_if] at words
    have condition : env.TidyExpr c := tidyExpr layouts fun x hx => words x (.inl hx)
    have yes : env.TidyBlock body := tidyBlock_of_stmts fun s hs => ihbody s hs fun x hx =>
      words x (.inr (.inl (Stmt.mem_allMentions.2 ⟨s, hs, hx⟩)))
    have no : ∀ b ∈ orElse, env.TidyBlock b := fun b hb => tidyBlock_of_stmts fun s hs =>
      ihelse b hb s hs fun x hx =>
        words x (.inr (.inr (.inr ⟨b, hb, Stmt.mem_allMentions.2 ⟨s, hs, hx⟩⟩)))
    cases elif with
    | none => exact tidyStmt_if condition yes no
    | some clause =>
      obtain ⟨d, other⟩ := clause
      have test : env.TidyExpr d := tidyExpr layouts fun x hx =>
        words x (.inr (.inr (.inl ⟨_, rfl, .inl hx⟩)))
      have maybe : env.TidyBlock other := tidyBlock_of_stmts fun s hs =>
        ihelif _ rfl s hs fun x hx =>
          words x (.inr (.inr (.inl ⟨_, rfl, .inr (Stmt.mem_allMentions.2 ⟨s, hs, hx⟩)⟩)))
      -- an `elif` branch is a conditional inside the `else` branch
      intro n code n' h
      rw [stmt_elif] at h
      obtain ⟨cond, hcond, h⟩ := bind_eq_ok.1 h
      obtain ⟨⟨thn, k⟩, hthn, h⟩ := bind_eq_ok.1 h
      obtain ⟨⟨els, k'⟩, hels, h⟩ := bind_eq_ok.1 h
      cases h
      exact (condition cond hcond).append
        (.ifElse (yes n thn k hthn) (tidyStmt_if test maybe no k els _ hels))

theorem tidyBlock (layouts : env.HasWords) {ss : List Stmt}
    (words : ∀ x ∈ Stmt.allMentions ss, isSourceWord x = true) : env.TidyBlock ss :=
  tidyBlock_of_stmts fun s hs => tidyStmt layouts fun x hx =>
    words x (Stmt.mem_allMentions.2 ⟨s, hs, hx⟩)

theorem isTidy_initVars {vars : List VarDef} (words : ∀ v ∈ vars, isSourceWord v.name = true) :
    IsTidy (env.initVars vars) := by
  refine .flatMap fun v hv => ?_
  have value : IsTidy [Instr.const v.value.word] :=
    .plains (by simp [Instr.isPlain]) (by simp [Instr.listSymbols, Instr.symbols])
  exact isTidy_setVar (words v hv) value

end Surroundings

/-! ## §6 Routines -/

/-- All names in a program are words. -/
def Program.NamedByWords (p : Program) : Prop := ∀ x ∈ p.mentions, isSourceWord x = true

section

variable {p : Program}

theorem FunDef.hasWords {f : FunDef} (h : ∀ x ∈ f.mentions, isSourceWord x = true) :
    f.HasWords := by
  refine ⟨h f.name (by simp [mentions]), fun x hx => h x ?_⟩
  rcases List.mem_append.1 hx with hx | hx
  · obtain ⟨a, ha, rfl⟩ := List.mem_map.1 hx
    have : a.name ∈ f.params.flatMap (fun a => a.name :: a.ty.mentions) :=
      List.mem_flatMap.2 ⟨a, ha, by simp⟩
    simp [mentions, this]
  · obtain ⟨v, hv, rfl⟩ := List.mem_map.1 hx
    have : v.name ∈ f.locals.flatMap VarDef.mentions :=
      List.mem_flatMap.2 ⟨v, hv, by simp [VarDef.mentions]⟩
    simp [mentions, this]

namespace Program.NamedByWords

theorem definition (h : p.NamedByWords) {d : Def} (hd : d ∈ p.defs) :
    ∀ x ∈ d.mentions, isSourceWord x = true :=
  fun x hx => h x (List.mem_append_left _ (List.mem_flatMap.2 ⟨d, hd, hx⟩))

theorem function (h : p.NamedByWords) {f : FunDef} (hf : f ∈ p.functions) :
    ∀ x ∈ f.mentions, isSourceWord x = true :=
  h.definition (mem_functions.1 hf)

theorem method (h : p.NamedByWords) {c : ClassDef} (hc : c ∈ p.classes) {m : FunDef}
    (hm : m ∈ c.methods) : ∀ x ∈ m.mentions, isSourceWord x = true :=
  fun x hx => h.definition (mem_classes.1 hc) x
    (List.mem_append_right _ (List.mem_flatMap.2 ⟨m, hm, hx⟩))

theorem hasWords (h : p.NamedByWords) : p.HasWords where
  globals v hv :=
    h.definition (mem_globalVars.1 hv) v.name (by simp [Def.mentions, VarDef.mentions])
  functions f hf := FunDef.hasWords (h.function hf)
  classes c hc := h.definition (mem_classes.1 hc) c.name (by simp [Def.mentions, ClassDef.mentions])
  methods c hc m hm := FunDef.hasWords (h.method hc hm)

/-- The names in the body of everything that becomes a routine are words. -/
theorem body (h : p.NamedByWords) {symbol : String} {f : FunDef}
    (mem : (symbol, f) ∈ Image.functionsOf p) :
    ∀ x ∈ Stmt.allMentions f.body, isSourceWord x = true := by
  rcases Image.mem_functionsOf mem with ⟨c, -, rfl⟩ | ⟨c, hc, hf, -⟩ | ⟨hf, -⟩
  · simp [Image.plainInit, Stmt.allMentions, Stmt.mentions]
  · exact fun x hx => h.method hc hf x (List.mem_append_right _ hx)
  · exact fun x hx => h.function hf x (List.mem_append_right _ hx)

theorem layouts (h : p.NamedByWords) (names : List String) :
    Surroundings.HasWords ⟨Image.layoutsOf p, names⟩ := by
  intro f layout found
  have mem := mem_of_lookup found
  rw [Image.layoutsOf_eq, List.mem_reverse] at mem
  obtain ⟨c, hc, eq⟩ := List.mem_map.1 mem
  cases eq
  exact h.hasWords.allClasses hc

end Program.NamedByWords

/-- The names of a routine are symbols, and its code is tidy. -/
structure Routine.IsTidy (r : Routine) : Prop where
  symbol : isSymbol r.symbol = true
  exported : ∀ e ∈ r.exportName, e = Wasm.Host.entryName
  params : ∀ x ∈ r.params, isSymbol x = true
  locals : ∀ x ∈ r.locals, isSymbol x = true
  body : Serpent.IsTidy r.body

theorem Routine.IsTidy.isSpelled {r : Routine} (h : r.IsTidy) : r.toFunc.IsSpelled where
  name := h.symbol
  exports e he := by
    rw [h.exported e (Option.mem_toList.1 he)]
    exact List.all_eq_true.1 (by decide)
  params := h.params
  locals x hx := by
    rcases List.mem_append.1 (show x ∈ [scratchLocal, allocLocal] ++ r.locals from hx) with hx | hx
    · exact (by decide : ∀ x ∈ [scratchLocal, allocLocal], isSymbol x = true) x hx
    · exact h.locals x hx
  body := h.body.symbols

namespace Image

theorem isTidy_routineOf (words : p.NamedByWords) {symbol : String} {f : FunDef}
    (mem : (symbol, f) ∈ functionsOf p) {n n' : Nat} {r : Routine}
    (h : routineOf (layoutsOf p) n symbol f = .ok (r, n')) : r.IsTidy := by
  obtain ⟨⟨code, k⟩, hcode, h⟩ := bind_eq_ok.1 h
  cases h
  have own : ∀ x ∈ f.localNames, isSourceWord x = true := words.hasWords.locals mem
  have ownParams : ∀ a ∈ f.params, isSourceWord a.name = true := fun a ha =>
    own a.name (List.mem_append_left _ (List.mem_map_of_mem ha))
  have ownLocals : ∀ v ∈ f.locals, isSourceWord v.name = true := fun v hv =>
    own v.name (List.mem_append_right _ (List.mem_map_of_mem hv))
  have body : Serpent.IsTidy code :=
    Surroundings.tidyBlock (words.layouts _) (words.body mem) n code _ hcode
  constructor
  case symbol => exact words.hasWords.isSymbol mem
  case exported => exact fun e he => by cases he
  case params =>
    intro x hx
    obtain ⟨a, ha, rfl⟩ := List.mem_map.1 hx
    exact isSymbol_varSymbol (ownParams a ha)
  case locals =>
    intro x hx
    obtain ⟨v, hv, rfl⟩ := List.mem_map.1 hx
    exact isSymbol_varSymbol (ownLocals v hv)
  case body =>
    exact ((Surroundings.isTidy_initVars ownLocals).append body).snoc rfl (by simp [Instr.symbols])

theorem isTidy_routinesOf (words : p.NamedByWords) {fs : List (String × FunDef)}
    (mem : ∀ entry ∈ fs, entry ∈ functionsOf p) {n n' : Nat} {rs : List Routine}
    (h : routinesOf (layoutsOf p) n fs = .ok (rs, n')) : ∀ r ∈ rs, r.IsTidy := by
  induction fs generalizing n rs with
  | nil =>
    cases h
    exact fun r hr => by cases hr
  | cons entry fs ih =>
    rw [List.forall_mem_cons] at mem
    rw [routinesOf] at h
    obtain ⟨⟨r, k⟩, hr, h⟩ := bind_eq_ok.1 h
    obtain ⟨⟨rest, k'⟩, hrest, h⟩ := bind_eq_ok.1 h
    cases h
    exact List.forall_mem_cons.2 ⟨isTidy_routineOf words mem.1 hr, ih mem.2 hrest⟩

theorem isTidy_entryOf (words : p.NamedByWords) {n : Nat} {r : Routine}
    (h : entryOf (layoutsOf p) n p = .ok r) : r.IsTidy := by
  obtain ⟨⟨code, k⟩, hcode, h⟩ := bind_eq_ok.1 h
  cases h
  have body : Serpent.IsTidy code := Surroundings.tidyBlock (words.layouts _)
    (fun x hx => words x (List.mem_append_right _ hx)) n code k hcode
  constructor
  case symbol => exact (by decide : isSymbol entrySymbol = true)
  case exported => exact fun e he => (Option.some.inj he).symm
  case params => exact fun x hx => by cases hx
  case locals => exact fun x hx => by cases hx
  case body =>
    have vars : Serpent.IsTidy (Surroundings.initVars ⟨layoutsOf p, []⟩ p.globalVars) :=
      Surroundings.isTidy_initVars words.hasWords.globals
    have start := vars.append body
    cases hasValue p with
    | true => exact start.snoc rfl (by decide)
    | false => exact start.append .nil

end Image

/-! ## §7 Images -/

namespace Image

theorem isTidy_of_ofProgram (words : p.NamedByWords) {i : Image} (h : ofProgram p = .ok i) :
    (∀ x ∈ i.globals, isSymbol x = true) ∧ ∀ r ∈ i.routines ++ [i.entry], r.IsTidy := by
  obtain ⟨⟨routines, n⟩, hroutines, h⟩ := bind_eq_ok.1 h
  obtain ⟨entry, hentry, h⟩ := bind_eq_ok.1 h
  cases h
  constructor
  · intro x hx
    obtain ⟨v, hv, rfl⟩ := List.mem_map.1 hx
    exact isSymbol_varSymbol (words.hasWords.globals v hv)
  · rw [List.forall_mem_append, List.forall_mem_singleton]
    exact ⟨isTidy_routinesOf words (fun _ mem => mem) hroutines, isTidy_entryOf words hentry⟩

theorem isSpelled_of_ofProgram (words : p.NamedByWords) {i : Image} (h : ofProgram p = .ok i) :
    i.toModule.IsSpelled := by
  obtain ⟨globals, routines⟩ := isTidy_of_ofProgram words h
  constructor
  case imports => exact imports_isSpelled
  case globals =>
    intro global mem
    rcases List.mem_cons.1 mem with rfl | mem
    · decide
    · obtain ⟨x, hx, rfl⟩ := List.mem_map.1 mem
      exact globals x hx
  case funcs =>
    have funcs : i.toModule.funcs = (i.routines ++ [i.entry]).map Routine.toFunc := by
      rw [List.map_append]
      rfl
    rw [funcs]
    intro g hg
    obtain ⟨r, hr, rfl⟩ := List.mem_map.1 hg
    exact (routines r hr).isSpelled

/-- The text of the image of a program, checked or not, whose names are words denotes the image.
What is read is the memory and the three functions that print, the heap pointer and the globals in
order, and the routines in order with the entry behind them, each with all that it has. As a tree of
items, a branch has an `else` item exactly if something stands in it. Code is made of plain
instructions, two-way branches and loops, and wherever it stands, the exit branch of a loop leaves
the block around that loop and its last branch starts that loop again. -/
theorem read_text {p : Program} {i : Image} (words : p.NamedByWords) (h : ofProgram p = .ok i) :
    Wasm.Module.read? i.text = some
        { imports := [⟨"memory", "heap", .memory 1 none⟩,
            ⟨"imports", "print_num", .func "$$print_num" 1 1⟩,
            ⟨"imports", "print_bool", .func "$$print_bool" 1 1⟩,
            ⟨"imports", "print_none", .func "$$print_none" 1 1⟩]
          globals := ⟨"$heap$ptr", true, 4⟩ :: i.globals.map (⟨·, true, 0⟩)
          funcs := (i.routines ++ [i.entry]).map fun r =>
            { name := r.symbol
              exports := r.exportName.toList
              params := r.params
              results := if r.hasResult then 1 else 0
              locals := "$$scratch" :: "$$alloc" :: r.locals
              body := r.body } } ∧
      Wasm.Sexp.readAll i.text = some [.list (.word "module" :: i.toModule.items)] ∧
      (∀ thn els, Instr.sexp (.ifElse thn els) = .list
        (.word "if" :: .list (.word "then" :: Instr.sexps thn) ::
          if els.isEmpty then [] else [.list (.word "else" :: Instr.sexps els)])) ∧
      ∀ r ∈ i.routines ++ [i.entry], ∃ ts, r.body = CodeTree.codes ts ∧
        ∀ labels, Instr.indexedAll? labels r.body = some (CodeTree.shapes ts) := by
  have spelled := isSpelled_of_ofProgram words h
  refine ⟨?_, Wasm.Sexp.readAll_renderAll (Wasm.Module.readsLines_lines spelled).item, ?_, ?_⟩
  · rw [List.map_append]
    exact Wasm.Module.read?_text spelled
  · intro thn els
    cases els <;> rfl
  · intro r hr
    obtain ⟨ts, body⟩ := ((isTidy_of_ofProgram words h).2 r hr).body.trees
    refine ⟨ts, body, fun labels => ?_⟩
    rw [body]
    exact CodeTree.indexedAll?_codes ts labels

end Image

/-- A loop inside of a loop, with a call of a function that is not defined in it: the program is not
well typed. -/
def Program.unchecked : Program where
  defs := [.var ⟨"n", .int, .number (-1)⟩]
  stmts := [.while_ (.var none "n") [.if_ (.call none "f" [.var none "m"])
    [.while_ (.var none "n") [.pass]] none none]]

/-- Both loops are read as loops whose branches go where they should, though one stands in the
other. -/
theorem Image.read_text_unchecked : ∃ i, ofProgram Program.unchecked = .ok i ∧
    Wasm.Module.read? i.text = some i.toModule ∧
    ∃ ts, i.entry.body = CodeTree.codes ts ∧
      Instr.indexedAll? [] i.entry.body = some (CodeTree.shapes ts) := by
  have words : Program.unchecked.NamedByWords :=
    (by decide : ∀ x ∈ Program.unchecked.mentions, isSourceWord x = true)
  have isOk : (ofProgram Program.unchecked).isOk = true := by decide
  cases lowered : ofProgram Program.unchecked with
  | error e =>
    rw [lowered] at isOk
    cases isOk
  | ok i =>
    obtain ⟨read, -, -, bodies⟩ := read_text words lowered
    rw [List.map_append] at read
    obtain ⟨ts, body, labels⟩ := bodies i.entry (by simp)
    exact ⟨i, rfl, read, ts, body, labels []⟩

end

end Serpent
