/-
Serpent.Proofs.LoopNumbers — every loop of a module has a number of its own.

One counter goes through all code of a module, so what a piece of code does with it is said for any
number that it starts at: the code of statements holds their loops, in order, with the numbers from
there on, and leaves the first number behind them (§3). This is kept by putting code one after the
other, by a conditional, and by a loop, whose own number comes before those of its body. Nothing is
asked of a program but that it has an image; it need not be checked.

  §1 The loops of a program
  §2 The loops in code
  §3 Code that numbers loops
  §4 The code of expressions and statements
  §5 Routines and images
  §6 The labels in a text
  §7 Numbers and names
-/
import Serpent.Proofs.Code
import Serpent.Proofs.ImageText

namespace Serpent

open Fallible
open Wasm (Instr Func Module)
open Wasm.Instr (listLabels listLabels_append listSymbols)

/-! ## §1 The loops of a program -/

/-- A loop of a program, with the names of the local variables where it stands. -/
structure Loop where
  names : List String
  cond : Expr
  body : List Stmt

namespace Stmt

mutual

/-- The loops in a statement, a loop before the loops in its body. -/
def loops (names : List String) : Stmt → List Loop
  | .while_ c body => ⟨names, c, body⟩ :: allLoops names body
  | .if_ _ body none none => allLoops names body
  | .if_ _ body none (some orElse) => allLoops names body ++ allLoops names orElse
  | .if_ _ body (some (_, other)) none => allLoops names body ++ allLoops names other
  | .if_ _ body (some (_, other)) (some orElse) =>
    allLoops names body ++ (allLoops names other ++ allLoops names orElse)
  | .pass | .assign _ _ | .expr _ | .return_ _ => []

/-- The loops in statements. -/
def allLoops (names : List String) : List Stmt → List Loop
  | [] => []
  | s :: ss => loops names s ++ allLoops names ss

end

/-- The loops of an `elif` branch are those of a conditional inside the `else` branch. -/
theorem loops_elif (names : List String) (c d : Expr) (body other : List Stmt)
    (orElse : Option (List Stmt)) :
    (Stmt.if_ c body (some (d, other)) orElse).loops names =
      allLoops names body ++ (Stmt.if_ d other none orElse).loops names := by
  cases orElse with
  | none => simp [loops]
  | some orElse => simp [loops]

end Stmt

/-- The loops of a function. -/
def FunDef.loops (f : FunDef) : List Loop := Stmt.allLoops f.localNames f.body

/-- The loops of the methods of a class. -/
def ClassDef.loops (c : ClassDef) : List Loop := c.methods.flatMap FunDef.loops

/-- The loops of a definition. -/
def Def.loops : Def → List Loop
  | .var _ => []
  | .function f => f.loops
  | .class_ c => c.loops

namespace Program

/-- The loops of a program, as they are written. -/
def loops (p : Program) : List Loop := p.defs.flatMap Def.loops ++ Stmt.allLoops [] p.stmts

/-- The loops of a program, as code generation reaches them: first those of the classes, then those
of the functions, and those of the statements at last. -/
def reachedLoops (p : Program) : List Loop :=
  p.classes.flatMap ClassDef.loops ++ p.functions.flatMap FunDef.loops ++ Stmt.allLoops [] p.stmts

theorem reachedLoops_perm (p : Program) : p.reachedLoops.Perm p.loops := by
  refine List.Perm.append_right _ ?_
  rw [classes, functions]
  induction p.defs with
  | nil => exact .nil
  | cons d ds ih =>
    cases d with
    | var v => exact ih
    | function f =>
      -- the loops of the classes behind a function are reached before its own
      exact (List.perm_append_comm_assoc _ _ _).trans (ih.append_left _)
    | class_ c =>
      simp only [List.filterMap_cons, List.flatMap_cons, List.append_assoc, Def.loops]
      exact ih.append_left _

end Program

/-! ## §2 The loops in code -/

namespace Wasm.Instr

mutual

/-- The blocks in an instruction, at any depth, a block before those inside it. -/
def blocks : Instr → List Instr
  | .block l body => .block l body :: listBlocks body
  | .loop _ body => listBlocks body
  | .ifElse thn els => listBlocks thn ++ listBlocks els
  | _ => []

/-- The blocks in instructions. -/
def listBlocks : List Instr → List Instr
  | [] => []
  | i :: is => blocks i ++ listBlocks is

end

theorem listBlocks_append (is js : List Instr) :
    listBlocks (is ++ js) = listBlocks is ++ listBlocks js := by
  induction is with
  | nil => rfl
  | cons i is ih => simp [listBlocks, ih]

theorem isPlain_append {code rest : List Instr} (h : ∀ i ∈ code, i.isPlain = true)
    (tail : rest.all isPlain = true) : ∀ i ∈ code ++ rest, i.isPlain = true :=
  List.forall_mem_append.2 ⟨h, List.all_eq_true.1 tail⟩

/-- Plain instructions hold no block and declare no label. -/
theorem holds_nothing_of_isPlain {code : List Instr} (h : ∀ i ∈ code, i.isPlain = true) :
    listBlocks code = [] ∧ listLabels code = [] := by
  induction code with
  | nil => exact ⟨rfl, rfl⟩
  | cons i code ih =>
    rw [List.forall_mem_cons] at h
    obtain ⟨noBlocks, noLabels⟩ := ih h.2
    have first : i.blocks = [] ∧ i.labels = [] := by
      have plain := h.1
      cases i <;> first | exact ⟨rfl, rfl⟩ | cases plain
    rw [listBlocks, listLabels, noBlocks, noLabels, first.1, first.2]
    exact ⟨rfl, rfl⟩

end Wasm.Instr

open Wasm.Instr (isPlain_append listBlocks listBlocks_append)

/-- The code of the functions of a module, one behind the other. -/
def Wasm.Module.code (m : Module) : List Instr := m.funcs.flatMap (·.body)

/-- An instruction is a loop with its number: its condition is tested before every round, and the
loops in its body have the numbers behind its own. -/
def Loop.HasCode (layouts : List (String × ClassLayout)) (loop : Loop) (n : Nat) (i : Instr) :
    Prop :=
  ∃ cond body n', (⟨layouts, loop.names⟩ : Surroundings).expr loop.cond = .ok cond ∧
    (⟨layouts, loop.names⟩ : Surroundings).block (n + 1) loop.body = .ok (body, n') ∧
    i = Surroundings.whileLoop n cond body

/-! ## §3 Code that numbers loops -/

/-- The loops in code are the given ones, in order, and have the numbers from `n` on. -/
structure Numbers (layouts : List (String × ClassLayout)) (n : Nat) (loops : List Loop)
    (code : List Instr) : Prop where
  blocks : List.Forall₂ (fun (loop : Loop × Nat) i => loop.1.HasCode layouts loop.2 i)
    (loops.zipIdx n) (listBlocks code)
  labels : listLabels code = loopLabels n (n + loops.length)
  trees : ∃ ts, code = CodeTree.codes ts

namespace Numbers

variable {layouts : List (String × ClassLayout)} {n : Nat} {loops : List Loop} {code : List Instr}

theorem plains (h : ∀ i ∈ code, i.isPlain = true) : Numbers layouts n [] code := by
  obtain ⟨noBlocks, noLabels⟩ := Wasm.Instr.holds_nothing_of_isPlain h
  refine ⟨?_, ?_, ?_⟩
  · rw [noBlocks]
    exact .nil
  · rw [noLabels]
    exact (loopLabels_self n).symm
  · exact CodeTree.exists_of_isPlain h

/-- The loops of later code have the numbers behind those of earlier code. -/
theorem append {loops' : List Loop} {code' : List Instr} (first : Numbers layouts n loops code)
    (rest : Numbers layouts (n + loops.length) loops' code') :
    Numbers layouts n (loops ++ loops') (code ++ code') := by
  obtain ⟨ts, hts⟩ := first.trees
  obtain ⟨us, hus⟩ := rest.trees
  refine ⟨?_, ?_, ts ++ us, by rw [CodeTree.codes_append, hts, hus]⟩
  · rw [List.zipIdx_append, listBlocks_append]
    exact List.rel_append first.blocks rest.blocks
  · rw [listLabels_append, first.labels, rest.labels, List.length_append, ← Nat.add_assoc]
    exact loopLabels_append (Nat.le_add_right _ _) (Nat.le_add_right _ _)

theorem plainAppend {start : List Instr} (plain : ∀ i ∈ start, i.isPlain = true)
    (h : Numbers layouts n loops code) : Numbers layouts n loops (start ++ code) :=
  (plains plain).append h

theorem appendPlain (h : Numbers layouts n loops code) {rest : List Instr}
    (plain : ∀ i ∈ rest, i.isPlain = true) : Numbers layouts n loops (code ++ rest) := by
  have all := h.append (plains (n := n + loops.length) plain)
  rwa [List.append_nil] at all

theorem ifElse {loops' : List Loop} {thn els : List Instr} (yes : Numbers layouts n loops thn)
    (no : Numbers layouts (n + loops.length) loops' els) :
    Numbers layouts n (loops ++ loops') [.ifElse thn els] := by
  obtain ⟨ts, hts⟩ := yes.trees
  obtain ⟨us, hus⟩ := no.trees
  have both := yes.append no
  refine ⟨?_, ?_, [.branch ts us], by rw [hts, hus]; rfl⟩
  · have blocks := both.blocks
    rw [listBlocks_append] at blocks
    simpa [listBlocks, Wasm.Instr.blocks] using blocks
  · have labels := both.labels
    rw [listLabels_append] at labels
    simpa [listLabels, Wasm.Instr.labels] using labels

/-- The number of a loop comes before those of the loops in its body. -/
theorem whileLoop {loop : Loop} {cond body : List Instr} {n' : Nat}
    (plain : ∀ i ∈ cond, i.isPlain = true)
    (hcond : (⟨layouts, loop.names⟩ : Surroundings).expr loop.cond = .ok cond)
    (hbody : (⟨layouts, loop.names⟩ : Surroundings).block (n + 1) loop.body = .ok (body, n'))
    (round : Numbers layouts (n + 1) loops body) :
    Numbers layouts n (loop :: loops) [Surroundings.whileLoop n cond body] := by
  obtain ⟨ts, hts⟩ := CodeTree.exists_of_isPlain plain
  obtain ⟨us, hus⟩ := round.trees
  obtain ⟨noBlocks, noLabels⟩ := Wasm.Instr.holds_nothing_of_isPlain plain
  refine ⟨?_, ?_, [.while_ n ts us], by rw [hts, hus]; rfl⟩
  · have inside : listBlocks [Surroundings.whileLoop n cond body] =
        Surroundings.whileLoop n cond body :: listBlocks body := by
      simp [Surroundings.whileLoop, listBlocks, Wasm.Instr.blocks, listBlocks_append, noBlocks]
    rw [inside, List.zipIdx_cons]
    exact .cons ⟨cond, body, n', hcond, hbody, rfl⟩ round.blocks
  · have inside : listLabels [Surroundings.whileLoop n cond body] =
        loopLabels n (n + 1) ++ listLabels body := by
      rw [loopLabels_succ]
      simp [Surroundings.whileLoop, listLabels, Wasm.Instr.labels, listLabels_append, noLabels]
    rw [inside, round.labels, List.length_cons, Nat.add_comm loops.length, ← Nat.add_assoc]
    exact loopLabels_append (Nat.le_succ n) (Nat.le_add_right _ _)

end Numbers

/-! ## §4 The code of expressions and statements -/

namespace Surroundings

variable {env : Surroundings}

/-- The code of an expression, if it has code, is made of plain instructions. -/
def PlainExpr (env : Surroundings) (e : Expr) : Prop :=
  ∀ code, env.expr e = .ok code → ∀ i ∈ code, i.isPlain = true

theorem isPlain_exprs {es : List Expr} (each : ∀ e ∈ es, env.PlainExpr e) {code : List Instr}
    (h : env.exprs es = .ok code) : ∀ i ∈ code, i.isPlain = true := by
  induction es generalizing code with
  | nil =>
    cases h
    exact fun i hi => absurd hi List.not_mem_nil
  | cons e es ih =>
    rw [List.forall_mem_cons] at each
    rw [exprs] at h
    obtain ⟨first, hfirst, h⟩ := bind_eq_ok.1 h
    obtain ⟨rest, hrest, h⟩ := bind_eq_ok.1 h
    cases h
    exact List.forall_mem_append.2 ⟨each.1 first hfirst, ih each.2 hrest⟩

theorem isPlain_construct (layout : ClassLayout) : ∀ i ∈ layout.construct, i.isPlain = true := by
  refine List.forall_mem_append.2 ⟨fun i hi => ?_, List.all_eq_true.1 rfl⟩
  obtain ⟨slot, -, hi⟩ := List.mem_flatMap.1 hi
  have each : (ClassLayout.initSlot slot).all Instr.isPlain = true := rfl
  exact List.all_eq_true.1 each i hi

theorem isPlain_getVar (env : Surroundings) (x : String) : (env.getVar x).isPlain = true := by
  rw [getVar]
  split <;> rfl

theorem isPlain_setVar (env : Surroundings) (x : String) : (env.setVar x).isPlain = true := by
  rw [setVar]
  split <;> rfl

theorem plainExpr (env : Surroundings) (e : Expr) : env.PlainExpr e := by
  induction e with
  | literal a v =>
    intro code h
    cases h
    exact List.all_eq_true.1 rfl
  | var a x =>
    intro code h
    cases h
    simp [isPlain_getVar]
  | unary a op e ih =>
    intro code h
    cases op with
    | neg =>
      rw [expr] at h
      obtain ⟨c, hc, h⟩ := bind_eq_ok.1 h
      cases h
      exact isPlain_append (ih c hc) rfl
    | not =>
      rw [expr] at h
      obtain ⟨c, hc, h⟩ := bind_eq_ok.1 h
      cases h
      exact isPlain_append (ih c hc) rfl
  | binary a op l r ihl ihr =>
    intro code h
    rw [expr] at h
    obtain ⟨left, hleft, h⟩ := bind_eq_ok.1 h
    obtain ⟨right, hright, h⟩ := bind_eq_ok.1 h
    cases h
    have operands := List.forall_mem_append.2 ⟨ihl left hleft, ihr right hright⟩
    exact isPlain_append operands rfl
  | call a f args ih =>
    intro code h
    rw [expr.eq_def] at h
    dsimp only at h
    split at h
    · split at h
      · rename_i e
        obtain ⟨c, hc, h⟩ := bind_eq_ok.1 h
        obtain ⟨t, -, h⟩ := bind_eq_ok.1 h
        cases h
        exact isPlain_append (ih e (by simp) c hc) rfl
      · cases h
    · split at h
      · cases h
        exact isPlain_construct _
      · obtain ⟨c, hc, h⟩ := bind_eq_ok.1 h
        cases h
        exact isPlain_append (isPlain_exprs ih hc) rfl
  | field a o x ih =>
    intro code h
    rw [expr] at h
    obtain ⟨offset, -, h⟩ := bind_eq_ok.1 h
    obtain ⟨c, hc, h⟩ := bind_eq_ok.1 h
    cases h
    exact isPlain_append (ih c hc) rfl
  | method a o x args ih ihargs =>
    intro code h
    rw [expr] at h
    obtain ⟨c, -, h⟩ := bind_eq_ok.1 h
    obtain ⟨self, hself, h⟩ := bind_eq_ok.1 h
    obtain ⟨rest, hrest, h⟩ := bind_eq_ok.1 h
    cases h
    have operands := List.forall_mem_append.2 ⟨ih self hself, isPlain_exprs ihargs hrest⟩
    exact isPlain_append operands rfl

/-- Wherever the numbers of a statement start, its code numbers its loops from there on, and what is
given back is the first number behind them. -/
def NumbersStmt (env : Surroundings) (s : Stmt) : Prop :=
  ∀ n code n', env.stmt n s = .ok (code, n') →
    n' = n + (s.loops env.locals).length ∧ Numbers env.layouts n (s.loops env.locals) code

/-- The same of statements that follow each other. -/
def NumbersBlock (env : Surroundings) (ss : List Stmt) : Prop :=
  ∀ n code n', env.block n ss = .ok (code, n') →
    n' = n + (Stmt.allLoops env.locals ss).length ∧
      Numbers env.layouts n (Stmt.allLoops env.locals ss) code

theorem numbersBlock_of_stmts {ss : List Stmt} (each : ∀ s ∈ ss, env.NumbersStmt s) :
    env.NumbersBlock ss := by
  induction ss with
  | nil =>
    intro n code n' h
    cases h
    exact ⟨rfl, .plains (by simp)⟩
  | cons s ss ih =>
    intro n code n' h
    rw [List.forall_mem_cons] at each
    rw [block] at h
    obtain ⟨⟨first, k⟩, hfirst, h⟩ := bind_eq_ok.1 h
    obtain ⟨⟨rest, k'⟩, hrest, h⟩ := bind_eq_ok.1 h
    cases h
    obtain ⟨rfl, start⟩ := each.1 n first k hfirst
    obtain ⟨rfl, later⟩ := ih each.2 _ rest _ hrest
    refine ⟨?_, start.append later⟩
    rw [Stmt.allLoops, List.length_append, Nat.add_assoc]

/-- A conditional without an `elif` branch. -/
theorem numbersStmt_if {c : Expr} {body : List Stmt} {orElse : Option (List Stmt)}
    (yes : env.NumbersBlock body) (no : ∀ b ∈ orElse, env.NumbersBlock b) :
    env.NumbersStmt (.if_ c body none orElse) := by
  intro n code n' h
  cases orElse with
  | none =>
    rw [stmt] at h
    obtain ⟨cond, hcond, h⟩ := bind_eq_ok.1 h
    obtain ⟨⟨thn, k⟩, hthn, h⟩ := bind_eq_ok.1 h
    cases h
    obtain ⟨after, inside⟩ := yes n thn _ hthn
    have branch : Numbers env.layouts n (Stmt.allLoops env.locals body ++ []) [.ifElse thn []] :=
      inside.ifElse (.plains (by simp))
    rw [List.append_nil] at branch
    exact ⟨after, branch.plainAppend (env.plainExpr c cond hcond)⟩
  | some orElse =>
    rw [stmt] at h
    obtain ⟨cond, hcond, h⟩ := bind_eq_ok.1 h
    obtain ⟨⟨thn, k⟩, hthn, h⟩ := bind_eq_ok.1 h
    obtain ⟨⟨els, k'⟩, hels, h⟩ := bind_eq_ok.1 h
    cases h
    obtain ⟨rfl, inside⟩ := yes n thn k hthn
    obtain ⟨rfl, other⟩ := no orElse rfl _ els _ hels
    refine ⟨?_, (inside.ifElse other).plainAppend (env.plainExpr c cond hcond)⟩
    rw [Stmt.loops, List.length_append, Nat.add_assoc]

theorem numbersStmt (env : Surroundings) (s : Stmt) : env.NumbersStmt s := by
  induction s with
  | pass =>
    intro n code n' h
    cases h
    exact ⟨rfl, .plains (by simp)⟩
  | expr e =>
    intro n code n' h
    rw [stmt] at h
    obtain ⟨c, hc, h⟩ := bind_eq_ok.1 h
    cases h
    exact ⟨rfl, .plains (isPlain_append (env.plainExpr e c hc) rfl)⟩
  | assign target e =>
    intro n code n' h
    cases target with
    | var x =>
      rw [stmt] at h
      obtain ⟨c, hc, h⟩ := bind_eq_ok.1 h
      cases h
      exact ⟨rfl, .plains (isPlain_append (env.plainExpr e c hc) (by simp [isPlain_setVar]))⟩
    | member o x =>
      rw [stmt] at h
      obtain ⟨offset, -, h⟩ := bind_eq_ok.1 h
      obtain ⟨self, hself, h⟩ := bind_eq_ok.1 h
      obtain ⟨c, hc, h⟩ := bind_eq_ok.1 h
      cases h
      have place : ∀ i ∈ self ++ [Instr.const offset, .binary .add], i.isPlain = true :=
        isPlain_append (env.plainExpr o self hself) rfl
      have operands := List.forall_mem_append.2 ⟨place, env.plainExpr e c hc⟩
      exact ⟨rfl, .plains (isPlain_append operands rfl)⟩
  | return_ e =>
    intro n code n' h
    rw [stmt] at h
    obtain ⟨c, hc, h⟩ := bind_eq_ok.1 h
    cases h
    exact ⟨rfl, .plains (isPlain_append (env.plainExpr e c hc) rfl)⟩
  | while_ c body ih =>
    intro n code n' h
    rw [stmt] at h
    obtain ⟨cond, hcond, h⟩ := bind_eq_ok.1 h
    obtain ⟨⟨inner, k⟩, hinner, h⟩ := bind_eq_ok.1 h
    cases h
    -- the loop takes `n`, so its body starts at `n + 1`
    obtain ⟨rfl, round⟩ := numbersBlock_of_stmts ih _ inner _ hinner
    refine ⟨?_, .whileLoop (env.plainExpr c cond hcond) hcond hinner round⟩
    rw [Stmt.loops, List.length_cons]
    omega
  | if_ c body elif orElse ihbody ihelif ihelse =>
    have yes : env.NumbersBlock body := numbersBlock_of_stmts ihbody
    have no : ∀ b ∈ orElse, env.NumbersBlock b := fun b hb => numbersBlock_of_stmts (ihelse b hb)
    cases elif with
    | none => exact numbersStmt_if yes no
    | some clause =>
      obtain ⟨d, other⟩ := clause
      have maybe : env.NumbersBlock other := numbersBlock_of_stmts (ihelif _ rfl)
      -- an `elif` branch is a conditional inside the `else` branch
      intro n code n' h
      rw [stmt_elif] at h
      obtain ⟨cond, hcond, h⟩ := bind_eq_ok.1 h
      obtain ⟨⟨thn, k⟩, hthn, h⟩ := bind_eq_ok.1 h
      obtain ⟨⟨els, k'⟩, hels, h⟩ := bind_eq_ok.1 h
      cases h
      obtain ⟨rfl, inside⟩ := yes n thn k hthn
      obtain ⟨rfl, nested⟩ := numbersStmt_if maybe no _ els _ hels
      rw [Stmt.loops_elif]
      refine ⟨?_, (inside.ifElse nested).plainAppend (env.plainExpr c cond hcond)⟩
      rw [List.length_append, Nat.add_assoc]

theorem numbersBlock (env : Surroundings) (ss : List Stmt) : env.NumbersBlock ss :=
  numbersBlock_of_stmts fun s _ => env.numbersStmt s

theorem isPlain_initVars (env : Surroundings) (vars : List VarDef) :
    ∀ i ∈ env.initVars vars, i.isPlain = true := by
  intro i hi
  obtain ⟨v, -, hi⟩ := List.mem_flatMap.1 hi
  rcases List.mem_cons.1 hi with rfl | hi
  · rfl
  · rw [List.mem_singleton.1 hi]
    exact env.isPlain_setVar v.name

end Surroundings

/-! ## §5 Routines and images -/

namespace Image

variable {layouts : List (String × ClassLayout)}

theorem numbers_routineOf {n n' : Nat} {symbol : String} {f : FunDef} {r : Routine}
    (h : routineOf layouts n symbol f = .ok (r, n')) :
    n' = n + f.loops.length ∧ Numbers layouts n f.loops r.body := by
  obtain ⟨⟨code, k⟩, hcode, h⟩ := bind_eq_ok.1 h
  cases h
  obtain ⟨after, body⟩ := Surroundings.numbersBlock _ f.body n code _ hcode
  exact ⟨after, .appendPlain (body.plainAppend (Surroundings.isPlain_initVars _ _))
    (List.all_eq_true.1 rfl)⟩

theorem numbers_routinesOf {fs : List (String × FunDef)} {n n' : Nat} {rs : List Routine}
    (h : routinesOf layouts n fs = .ok (rs, n')) :
    n' = n + (fs.flatMap (·.2.loops)).length ∧
      Numbers layouts n (fs.flatMap (·.2.loops)) (rs.flatMap (·.body)) := by
  induction fs generalizing n rs with
  | nil =>
    cases h
    exact ⟨rfl, .plains (by simp)⟩
  | cons entry fs ih =>
    rw [routinesOf] at h
    obtain ⟨⟨r, k⟩, hr, h⟩ := bind_eq_ok.1 h
    obtain ⟨⟨rest, k'⟩, hrest, h⟩ := bind_eq_ok.1 h
    cases h
    obtain ⟨rfl, first⟩ := numbers_routineOf hr
    obtain ⟨rfl, later⟩ := ih hrest
    refine ⟨?_, first.append later⟩
    rw [List.flatMap_cons, List.length_append, Nat.add_assoc]

theorem numbers_entryOf {n : Nat} {p : Program} {r : Routine}
    (h : entryOf layouts n p = .ok r) : Numbers layouts n (Stmt.allLoops [] p.stmts) r.body := by
  obtain ⟨⟨code, k⟩, hcode, h⟩ := bind_eq_ok.1 h
  cases h
  obtain ⟨-, body⟩ := Surroundings.numbersBlock _ p.stmts n code _ hcode
  refine .appendPlain (body.plainAppend (Surroundings.isPlain_initVars _ _)) ?_
  split <;> exact List.all_eq_true.1 rfl

/-- A method that is added has no loops, so the loops of what becomes a routine are those of the
methods and functions of the program. -/
theorem loops_functionsOf (p : Program) : (functionsOf p).flatMap (·.2.loops) =
    p.classes.flatMap ClassDef.loops ++ p.functions.flatMap FunDef.loops := by
  have added : ∀ c, (plainInit c).loops = [] := fun c => rfl
  have methods : ∀ c : ClassDef, (methodsOf c).flatMap (·.2.loops) = c.loops := by
    intro c
    rw [methodsOf]
    split
    · rw [List.flatMap_map]
      rfl
    · rw [List.flatMap_append, List.flatMap_map, List.flatMap_singleton, added, List.append_nil]
      rfl
  simp only [functionsOf, List.cons_append, List.flatMap_cons, List.flatMap_append, added,
    List.nil_append, List.flatMap_assoc, methods, List.flatMap_map]

/-- The loops in the code of an image are those of the program, numbered as they are reached. -/
theorem numbers_ofProgram {p : Program} {i : Image} (h : ofProgram p = .ok i) :
    Numbers (layoutsOf p) 0 p.reachedLoops i.toModule.code := by
  obtain ⟨⟨routines, n⟩, hroutines, h⟩ := bind_eq_ok.1 h
  obtain ⟨entry, hentry, h⟩ := bind_eq_ok.1 h
  cases h
  obtain ⟨rfl, first⟩ := numbers_routinesOf hroutines
  have all := first.append (numbers_entryOf hentry)
  rw [loops_functionsOf] at all
  rw [Module.code, toModule, List.flatMap_append, List.flatMap_map, List.flatMap_singleton]
  exact all

end Image

/-! ## §6 The labels in a text -/

/-- How a line starts that opens a block or a loop. -/
def Line.openings : List String := ["(block ", "(loop "]

/-- The label that a line declares: what stands behind its start, if it opens a block or a loop. -/
def Line.label? (l : Line) : Option String :=
  openings.findSome? fun start => (l.text.toList.dropPrefix? start.toList).map String.ofList

namespace Line

theorem dropPrefix?_append (start rest : String) :
    ((start ++ rest).toList.dropPrefix? start.toList).map String.ofList = some rest := by
  have cut : (start ++ rest).toList.dropPrefix? start.toList = some rest.toList :=
    List.dropPrefix?_eq_some_iff.2 ⟨start.toList, String.toList_append, beq_self_eq_true _⟩
  rw [cut, Option.map_some, String.ofList_toList]

/-- Two texts that differ before one of them ends are no starts of one text. -/
theorem dropPrefix?_eq_none {start other : String} (rest : String)
    (apart : ¬start.toList <+: other.toList ∧ ¬other.toList <+: start.toList) :
    (other ++ rest).toList.dropPrefix? start.toList = none := by
  cases cut : (other ++ rest).toList.dropPrefix? start.toList with
  | none => rfl
  | some behind =>
    obtain ⟨front, text, same⟩ := List.dropPrefix?_eq_some_iff.1 cut
    rw [eq_of_beq same, String.toList_append] at text
    have starts : start.toList <+: other.toList ++ rest.toList := ⟨behind, text.symm⟩
    rcases List.prefix_or_prefix_of_prefix starts (List.prefix_append _ _) with h | h
    · exact absurd h apart.1
    · exact absurd h apart.2

theorem label?_block (depth : Nat) (label : String) :
    (⟨depth, "(block " ++ label⟩ : Line).label? = some label := by
  rw [label?, openings, List.findSome?_cons, dropPrefix?_append]

theorem label?_loop (depth : Nat) (label : String) :
    (⟨depth, "(loop " ++ label⟩ : Line).label? = some label := by
  rw [label?, openings, List.findSome?_cons, dropPrefix?_eq_none label (by decide), Option.map_none,
    List.findSome?_cons, dropPrefix?_append]

/-- No line that starts so opens a block or a loop: the texts differ before one of them ends. -/
def opensNothing (start : String) : Bool :=
  openings.all fun opening =>
    !opening.toList.isPrefixOf start.toList && !start.toList.isPrefixOf opening.toList

theorem label?_eq_none (depth : Nat) {start : String} (rest : String)
    (h : opensNothing start = true) : (⟨depth, start ++ rest⟩ : Line).label? = none := by
  rw [opensNothing, List.all_eq_true] at h
  rw [label?, List.findSome?_eq_none_iff]
  intro opening mem
  have apart := h opening mem
  rw [Bool.and_eq_true, Bool.not_eq_true', Bool.not_eq_true', ← Bool.not_eq_true,
    ← Bool.not_eq_true, List.isPrefixOf_iff_prefix, List.isPrefixOf_iff_prefix] at apart
  rw [dropPrefix?_eq_none rest apart, Option.map_none]

theorem label?_framed (depth : Nat) {start : String} (name rest : String)
    (h : opensNothing start = true) : (⟨depth, start ++ name ++ rest⟩ : Line).label? = none := by
  rw [String.append_assoc]
  exact label?_eq_none depth _ h

theorem label?_of_opensNothing (depth : Nat) {text : String} (h : opensNothing text = true) :
    (⟨depth, text⟩ : Line).label? = none := by
  have := label?_eq_none depth "" h
  rwa [String.append_empty] at this

theorem label?_close (depth : Nat) : (⟨depth, ")"⟩ : Line).label? = none :=
  label?_of_opensNothing depth (by decide)

end Line

namespace Wasm

theorem Instr.label?_text {i : Instr} (simple : i.isSimple = true) (depth : Nat) :
    (⟨depth, i.text⟩ : Line).label? = none := by
  cases i with
  | const | localGet | localSet | globalGet | globalSet | call | br | brIf =>
    exact Line.label?_framed depth _ _ (by decide)
  | binary op =>
    have each : ∀ op : BinaryOp, Line.opensNothing op.text = true := by
      intro op
      cases op <;> decide
    exact Line.label?_of_opensNothing depth (each op)
  | eqz | load | store | drop | return_ => exact Line.label?_of_opensNothing depth (by decide)
  | ifElse | block | loop => cases simple

theorem Instr.lines_of_isSimple {i : Instr} (simple : i.isSimple = true) (depth : Nat) :
    i.lines depth = [⟨depth, i.text⟩] := by
  cases i <;> first | rfl | cases simple

/-- The labels that the lines of code declare are those that the code declares. -/
theorem Instr.filterMap_label?_listLines (code : List Instr) (depth : Nat) :
    (listLines depth code).filterMap Line.label? = listLabels code := by
  have cond (depth : Nat) : (⟨depth, "(if"⟩ : Line).label? = none :=
    Line.label?_of_opensNothing _ (by decide)
  have yes (depth : Nat) : (⟨depth, "(then"⟩ : Line).label? = none :=
    Line.label?_of_opensNothing _ (by decide)
  have no (depth : Nat) : (⟨depth, "(else"⟩ : Line).label? = none :=
    Line.label?_of_opensNothing _ (by decide)
  induction code using codeInduct generalizing depth with
  | nil => rfl
  | simple i code simple ih =>
    have unlabelled : i.labels = [] := by cases i <;> first | rfl | cases simple
    rw [listLines, List.filterMap_append, ih, lines_of_isSimple simple, listLabels, unlabelled,
      List.filterMap_cons_none (label?_text simple depth), List.filterMap_nil]
  | ifElse thn els code ihthn ihels ih =>
    have branch : ((Instr.ifElse thn els).lines depth).filterMap Line.label? =
        (Instr.ifElse thn els).labels := by
      cases els with
      | nil => simp [lines, labels, listLabels, ihthn, Line.label?_close, cond, yes]
      | cons e els =>
        have other := ihels (depth + 2)
        rw [listLines, List.filterMap_append] at other
        simp [lines, labels, ihthn, other, Line.label?_close, cond, yes, no]
    rw [listLines, List.filterMap_append, branch, ih, listLabels]
  | block l body code ihbody ih =>
    rw [listLines, List.filterMap_append, ih, listLabels]
    simp [lines, labels, ihbody, Line.label?_block, Line.label?_close]
  | loop l body code ihbody ih =>
    rw [listLines, List.filterMap_append, ih, listLabels]
    simp [lines, labels, ihbody, Line.label?_loop, Line.label?_close]

theorem Func.filterMap_label?_lines (f : Func) :
    f.lines.filterMap Line.label? = listLabels f.body := by
  have header : (⟨1, f.header⟩ : Line).label? = none := by
    rw [Func.header, String.append_assoc, String.append_assoc, String.append_assoc]
    exact Line.label?_eq_none 1 _ (by decide)
  have locals : (f.locals.map fun x => (⟨2, "(local " ++ x ++ " i32)"⟩ : Line)).filterMap
      Line.label? = [] := by
    rw [List.filterMap_map, List.filterMap_eq_nil_iff]
    intro x _
    rw [Function.comp_apply, String.append_assoc]
    exact Line.label?_eq_none 2 _ (by decide)
  simp [Func.lines, header, locals, Line.label?_close, Instr.filterMap_label?_listLines]

/-- The labels that the lines of a module declare are those that its code declares. -/
theorem Module.filterMap_label?_lines (m : Module) :
    m.lines.filterMap Line.label? = listLabels m.code := by
  have start : (⟨0, "(module"⟩ : Line).label? = none :=
    Line.label?_of_opensNothing _ (by decide)
  have imports : (m.imports.map fun i => (⟨1, i.text⟩ : Line)).filterMap Line.label? = [] := by
    rw [List.filterMap_map, List.filterMap_eq_nil_iff]
    intro i _
    rw [Function.comp_apply, Import.text]
    split
    · simp only [String.append_assoc]
      exact Line.label?_eq_none 1 _ (by decide)
    · simp only [String.append_assoc]
      exact Line.label?_eq_none 1 _ (by decide)
  have globals : (m.globals.map fun g => (⟨1, g.text⟩ : Line)).filterMap Line.label? = [] := by
    rw [List.filterMap_map, List.filterMap_eq_nil_iff]
    intro g _
    rw [Function.comp_apply, Global.text]
    simp only [String.append_assoc]
    exact Line.label?_eq_none 1 _ (by decide)
  have funcs : (m.funcs.flatMap Func.lines).filterMap Line.label? = listLabels m.code := by
    rw [List.filterMap_flatMap, Module.code]
    induction m.funcs with
    | nil => rfl
    | cons f fs ih =>
      rw [List.flatMap_cons, List.flatMap_cons, ih, f.filterMap_label?_lines, listLabels_append]
  simp [Module.lines, start, Line.label?_close, imports, globals, funcs]

end Wasm

/-! ## §7 Numbers and names -/

theorem Wasm.Instr.ne_label_of_isPlain {i : Instr} (plain : i.isPlain = true) :
    ∀ s ∈ i.symbols, s.1 ≠ .label := by
  cases i with
  | ifElse | block | loop | br | brIf => cases plain
  | _ => simp [symbols]

namespace CodeTree

mutual

/-- A label that is named in the code of a tree is declared in it. -/
theorem mem_labels_code : ∀ (t : CodeTree) {l : String},
    (.label, l) ∈ t.code.symbols → l ∈ t.code.labels
  | .plain i isPlain, l, h => absurd rfl (Wasm.Instr.ne_label_of_isPlain isPlain _ h)
  | .branch yes no, l, h => by
    rcases List.mem_append.1 h with h | h
    · exact List.mem_append_left _ (mem_labels_codes yes h)
    · exact List.mem_append_right _ (mem_labels_codes no h)
  | .while_ n cond body, l, h => by
    simp only [code, Surroundings.whileLoop, Wasm.Instr.symbols, Wasm.Instr.labels, listSymbols,
      listLabels, Wasm.Instr.listSymbols_append, listLabels_append, List.mem_append, List.mem_cons,
      Prod.mk.injEq, true_and, List.not_mem_nil, or_false, false_or] at h ⊢
    -- besides the two declarations there are the branch out of the loop and the branch back
    rcases h with leave | again | ((h | leave) | h) | again
    · exact .inl leave
    · exact .inr (.inl again)
    · exact .inr (.inr (.inl (mem_labels_codes cond h)))
    · exact .inl leave
    · exact .inr (.inr (.inr (mem_labels_codes body h)))
    · exact .inr (.inl again)

theorem mem_labels_codes : ∀ (ts : List CodeTree) {l : String},
    (.label, l) ∈ listSymbols (codes ts) → l ∈ listLabels (codes ts)
  | [], l, h => by cases h
  | t :: ts, l, h => by
    rcases List.mem_append.1 h with h | h
    · exact List.mem_append_left _ (mem_labels_code t h)
    · exact List.mem_append_right _ (mem_labels_codes ts h)

end

end CodeTree

/-- Every loop of a module has a number of its own, whether the program is checked or not. The
blocks in the code of the module, at any depth, are the loops of the program: the one that is
reached as the `n`th has the number `n`, and a loop is reached before the loops in its body. So the
labels that are declared are the two of each number below the number of loops, in order and none
twice. Every branch stands inside of what it goes to, and the name of its target is declared once in
the module. The same labels, in the same order, are declared by the lines of the text of the module;
and if the names in the program are words, that text is read as the module. -/
theorem Program.loops_numbered_in_order {p : Program} {i : Image} (h : Image.ofProgram p = .ok i) :
    List.Forall₂ (fun (loop : Loop × Nat) block => loop.1.HasCode (Image.layoutsOf p) loop.2 block)
        p.reachedLoops.zipIdx (listBlocks i.toModule.code) ∧
      p.reachedLoops.Perm p.loops ∧
      listLabels i.toModule.code = (List.range p.loops.length).flatMap
        (fun n => [Surroundings.leaveLabel n, Surroundings.againLabel n]) ∧
      (listLabels i.toModule.code).Nodup ∧
      (Instr.indexedAll? [] i.toModule.code).isSome ∧
      (∀ l, (Wasm.NameKind.label, l) ∈ listSymbols i.toModule.code →
        (listLabels i.toModule.code).count l = 1) ∧
      i.text = Line.renderAll "  " i.toModule.lines ∧
      i.toModule.lines.filterMap Line.label? = listLabels i.toModule.code ∧
      (p.NamedByWords → Module.read? i.text = some i.toModule) := by
  have numbers := Image.numbers_ofProgram h
  have perm := p.reachedLoops_perm
  obtain ⟨ts, trees⟩ := numbers.trees
  have labels : listLabels i.toModule.code = loopLabels 0 p.loops.length := by
    rw [numbers.labels, perm.length_eq, Nat.zero_add]
  have distinct : (listLabels i.toModule.code).Nodup := by
    rw [labels]
    exact loopLabels_nodup _ _
  refine ⟨numbers.blocks, perm, ?_, distinct, ?_, ?_, rfl, i.toModule.filterMap_label?_lines, ?_⟩
  · rw [labels, loopLabels, Nat.sub_zero, List.range_eq_range']
  · rw [trees, CodeTree.indexedAll?_codes]
    rfl
  · intro l named
    refine List.count_eq_one_of_mem distinct ?_
    rw [trees] at named ⊢
    exact CodeTree.mem_labels_codes ts named
  · exact fun words => Wasm.Module.read?_text (Image.isSpelled_of_ofProgram words h)

/-- A function with a loop, and behind it a class with a loop inside of a loop; then loops in all
branches of a conditional. The program is not checked. -/
def Program.spinning : Program where
  defs :=
    [.function ⟨"f", [⟨"x", .int⟩], .none, [], [.while_ (.var none "x") [.pass]]⟩,
     .class_ ⟨"C", "object", [],
       [⟨"m", [⟨"self", .object "C"⟩], .none, [], [.while_ (.literal none (.bool true))
         [.while_ (.var none "y") [.return_ (.literal none .none)]]]⟩]⟩]
  stmts :=
    [.if_ (.var none "y") [.while_ (.var none "y") [.pass]]
      (some (.var none "z", [.while_ (.var none "z") [.pass]]))
      (some [.while_ (.literal none (.bool false)) [.pass]])]

/-- The loops of the method have the first numbers, though the function is written before it. -/
theorem Program.loops_numbered_spinning : ∃ i, Image.ofProgram spinning = .ok i ∧
    listLabels i.toModule.code =
      ["$while$0", "$while$0$loop", "$while$1", "$while$1$loop", "$while$2", "$while$2$loop",
        "$while$3", "$while$3$loop", "$while$4", "$while$4$loop", "$while$5", "$while$5$loop"] ∧
    (∃ block, (listBlocks i.toModule.code)[2]? = some block ∧
      Loop.HasCode (Image.layoutsOf spinning) ⟨["x"], .var none "x", [.pass]⟩ 2 block) ∧
    i.toModule.lines.filterMap Line.label? = listLabels i.toModule.code ∧
    Module.read? i.text = some i.toModule := by
  have words : spinning.NamedByWords :=
    (by decide : ∀ x ∈ spinning.mentions, isSourceWord x = true)
  have isOk : (Image.ofProgram spinning).isOk = true := by decide
  cases lowered : Image.ofProgram spinning with
  | error e =>
    rw [lowered] at isOk
    cases isOk
  | ok i =>
    obtain ⟨blocks, -, labels, -, -, -, -, lines, read⟩ := loops_numbered_in_order lowered
    refine ⟨i, rfl, ?_, ?_, lines, read words⟩
    · rw [labels]
      decide
    · generalize listBlocks i.toModule.code = found at blocks ⊢
      rcases blocks with _ | ⟨-, _ | ⟨-, _ | ⟨third, -⟩⟩⟩
      exact ⟨_, rfl, third⟩

end Serpent
