/-
Serpent.Proofs.Erasure — checking does not look at the types that are written into a program.

Without them a program is checked with the same result, be it a program or an error. What comes out
differs from what went in by such types only, so checking it once more changes nothing.

  §1 Expressions
  §2 Statements
  §3 Programs
  §4 What comes out of checking
  §5 Types that stood there before
-/
import Serpent.Program.Equality
import Serpent.Proofs.Declared
import Serpent.Proofs.Checked

namespace Serpent

open Fallible

variable (Γ : Context)

/-! ## §1 Expressions -/

namespace Expr

theorem eraseAll_eq_map (es : List Expr) : eraseAll es = es.map erase := by
  induction es with
  | nil => rfl
  | cons e es ih => rw [eraseAll, ih, List.map_cons]

@[simp] theorem isOperation_erase (e : Expr) : e.erase.isOperation = e.isOperation := by
  cases e <;> rfl

@[simp] theorem isOpenReceiver_erase (e : Expr) : e.erase.isOpenReceiver = e.isOpenReceiver := by
  cases e with
  | literal a v => cases v <;> rfl
  | _ => rfl

theorem texts_erase {es : List Expr} (h : ∀ e ∈ es, e.erase.text = e.text) :
    texts (eraseAll es) = texts es := by
  induction es with
  | nil => rfl
  | cons e es ih =>
    rw [List.forall_mem_cons] at h
    rw [eraseAll, texts, texts, h.1, ih h.2]

/-- Types are not written in the source. -/
@[simp] theorem text_erase (e : Expr) : e.erase.text = e.text := by
  induction e with
  | literal a v => rfl
  | var a x => rfl
  | unary a op e ih => cases op <;> simp [erase, text, ih]
  | binary a op l r ihl ihr => simp [erase, text, ihl, ihr]
  | call a f args ih => simp [erase, text, texts_erase ih]
  | field a o x ih => simp [erase, text, ih]
  | method a o x args ih ihargs => simp [erase, text, ih, texts_erase ihargs]

end Expr

namespace Context

theorem arguments_erase {es : List Expr} (h : ∀ e ∈ es, Γ.expr e.erase = Γ.expr e)
    (callee : String) (i : Nat) (params : List Ty) :
    Γ.arguments callee i params (Expr.eraseAll es) = Γ.arguments callee i params es := by
  induction es generalizing i params with
  | nil => rfl
  | cons e es ih =>
    rw [List.forall_mem_cons] at h
    rw [Expr.eraseAll, arguments, arguments, h.1]
    cases params with
    | nil => rfl
    | cons expected params => simp only [ih h.2]

/-- An expression is checked without looking at the types that are written into it. -/
theorem expr_erase (e : Expr) : Γ.expr e.erase = Γ.expr e := by
  induction e with
  | literal a v => rfl
  | var a x => rfl
  | unary a op e ih =>
    have same : (Expr.unary none op e.erase).text = (Expr.unary none op e).text :=
      (Expr.unary none op e).text_erase
    rw [Expr.erase, expr, expr, ih, same]
  | binary a op l r ihl ihr =>
    have same : (Expr.binary none op l.erase r.erase).text = (Expr.binary none op l r).text :=
      (Expr.binary none op l r).text_erase
    rw [Expr.erase, expr, expr, ihl, ihr, same]
  | call a f args ih =>
    have length : (Expr.eraseAll args).length = args.length := by
      rw [Expr.eraseAll_eq_map, List.length_map]
    have empty : (Expr.eraseAll args).isEmpty = args.isEmpty := by
      rw [Expr.eraseAll_eq_map, List.isEmpty_map]
    rw [Expr.erase, expr.eq_def, expr.eq_def Γ (.call a f args)]
    simp only [length, empty, arguments_erase Γ ih]
    split
    · rcases args with _ | ⟨e, _ | ⟨e', args⟩⟩
      · rfl
      · simp only [Expr.eraseAll, ih e (by simp)]
      · rfl
    · rfl
  | field a o x ih =>
    rw [Expr.erase, expr, expr, ih]
    simp only [receiverClass, Expr.text_erase]
  | method a o x args ih ihargs =>
    have length : (Expr.eraseAll args).length = args.length := by
      rw [Expr.eraseAll_eq_map, List.length_map]
    rw [Expr.erase, expr, expr, ih]
    simp only [receiverClass, Expr.text_erase, length, arguments_erase Γ ihargs]

/-! ## §2 Statements -/

theorem target_erase (t : Target) : Γ.target t.erase = Γ.target t := by
  cases t with
  | var x => rfl
  | member o x =>
    rw [Target.erase, target, target, expr_erase]
    simp only [receiverClass, Expr.text_erase]

theorem condition_erase (e : Expr) : Γ.condition e.erase = Γ.condition e := by
  rw [condition, condition, expr_erase, Expr.text_erase]

end Context

@[simp] theorem Target.text_erase (t : Target) : t.erase.text = t.text := by
  cases t <;> simp [erase, text]

theorem Stmt.erase_if (c : Expr) (body : List Stmt) (elif : Option (Expr × List Stmt))
    (orElse : Option (List Stmt)) :
    (Stmt.if_ c body elif orElse).erase = .if_ c.erase (eraseAll body)
      (elif.map fun d => (d.1.erase, eraseAll d.2)) (orElse.map eraseAll) := by
  rcases elif with _ | ⟨d, other⟩ <;> rcases orElse with _ | orElse <;> rfl

namespace Context

theorem block_erase {ss : List Stmt} (h : ∀ s ∈ ss, Γ.stmt s.erase = Γ.stmt s) :
    Γ.block (Stmt.eraseAll ss) = Γ.block ss := by
  induction ss with
  | nil => rfl
  | cons s ss ih =>
    rw [List.forall_mem_cons] at h
    rw [Stmt.eraseAll, block, block, h.1, ih h.2]

/-- A statement is checked without looking at the types that are written into it. -/
theorem stmt_erase (s : Stmt) : Γ.stmt s.erase = Γ.stmt s := by
  induction s with
  | pass => rfl
  | assign target e =>
    simp only [Stmt.erase, stmt, target_erase, expr_erase, Target.text_erase]
  | expr e => simp only [Stmt.erase, stmt, expr_erase]
  | return_ e => simp only [Stmt.erase, stmt, expr_erase]
  | while_ c body ih => simp only [Stmt.erase, stmt, condition_erase, block_erase Γ ih]
  | if_ c body elif orElse ihbody ihelif ihelse =>
    have yes := block_erase Γ ihbody
    rcases elif with _ | ⟨d, other⟩
    · rcases orElse with _ | orElse
      · simp only [Stmt.erase, stmt, condition_erase, yes]
      · simp only [Stmt.erase, stmt, condition_erase, yes, block_erase Γ (ihelse orElse rfl)]
    · have maybe := block_erase Γ (ihelif (d, other) rfl)
      rcases orElse with _ | orElse
      · simp only [Stmt.erase, stmt, condition_erase, yes, maybe]
      · simp only [Stmt.erase, stmt, condition_erase, yes, maybe, block_erase Γ (ihelse orElse rfl)]

end Context

theorem Stmt.anyReturns_erase {ss : List Stmt} (h : ∀ s ∈ ss, s.erase.returns = s.returns) :
    anyReturns (eraseAll ss) = anyReturns ss := by
  induction ss with
  | nil => rfl
  | cons s ss ih =>
    rw [List.forall_mem_cons] at h
    rw [eraseAll, anyReturns, anyReturns, h.1, ih h.2]

theorem Stmt.returns_erase (s : Stmt) : s.erase.returns = s.returns := by
  induction s with
  | pass => rfl
  | assign target e => rfl
  | expr e => rfl
  | return_ e => rfl
  | while_ c body ih => rfl
  | if_ c body elif orElse ihbody ihelif ihelse =>
    have yes := anyReturns_erase ihbody
    rcases orElse with _ | orElse
    · rcases elif with _ | ⟨d, other⟩ <;> rfl
    · have no := anyReturns_erase (ihelse orElse rfl)
      rcases elif with _ | ⟨d, other⟩
      · simp only [erase, returns, yes, no]
      · simp only [erase, returns, yes, no, anyReturns_erase (ihelif (d, other) rfl)]

/-! ## §3 Programs -/

namespace Program

theorem bare_erase (p : Program) : p.erase.bare = p.bare := by
  rw [bare, bare, erase, List.map_map]
  refine congrArg (Program.mk · []) (List.map_congr_left fun d _ => ?_)
  cases d with
  | var v => rfl
  | function f => rfl
  | class_ c =>
    simp only [Function.comp_apply, Def.erase, Def.bare, ClassDef.bare, List.map_map]
    rfl

theorem context_erase (p : Program) : p.erase.context = p.context := by
  rw [← context_bare, bare_erase, context_bare]

end Program

theorem Context.function_erase (name : String) (f : FunDef) :
    Γ.function name f.erase = Γ.function name f := by
  have body : ∀ Δ : Context, Δ.block (Stmt.eraseAll f.body) = Δ.block f.body :=
    fun Δ => block_erase Δ fun s _ => Δ.stmt_erase s
  have returns : Stmt.anyReturns (Stmt.eraseAll f.body) = Stmt.anyReturns f.body :=
    Stmt.anyReturns_erase fun s _ => s.returns_erase
  simp only [function, FunDef.erase, FunDef.scope, body, returns]

theorem Context.definition_erase (d : Def) : Γ.definition d.erase = Γ.definition d := by
  cases d with
  | var v => rfl
  | function f =>
    show (do return Def.function (← Γ.function f.name f.erase)) = _
    rw [function_erase]
    rfl
  | class_ c =>
    have each : (fun m => Γ.function (c.name ++ "." ++ m.name) m) ∘ FunDef.erase =
        fun m => Γ.function (c.name ++ "." ++ m.name) m :=
      funext fun m => Γ.function_erase (c.name ++ "." ++ m.name) m
    simp only [Def.erase, definition, List.mapM_map, each]

/-- A program is checked without looking at the types that are written into it. -/
theorem Program.check_erase (p : Program) : p.erase.check = p.check := by
  have defs : ∀ Γ : Context, p.erase.defs.mapM Γ.definition = p.defs.mapM Γ.definition := by
    intro Γ
    rw [erase, List.mapM_map]
    exact congrArg (p.defs.mapM ·) (funext Γ.definition_erase)
  have stmts : ∀ Γ : Context, Γ.block p.erase.stmts = Γ.block p.stmts :=
    fun Γ => Context.block_erase Γ fun s _ => Γ.stmt_erase s
  simp only [check, context_erase, defs, stmts]

/-! ## §4 What comes out of checking -/

variable {Γ : Context}

theorem Context.Passes.eraseAll_eq {args args' : List Expr} {params : List Ty}
    (h : Γ.Passes args params args')
    (each : ∀ a ∈ args, ∀ a' t, Γ.expr a = .ok (a', t) → a'.erase = a.erase) :
    Expr.eraseAll args' = Expr.eraseAll args := by
  induction h with
  | nil => rfl
  | cons first fits rest ih =>
    rw [List.forall_mem_cons] at each
    rw [Expr.eraseAll, Expr.eraseAll, each.1 _ _ first, ih each.2]

theorem Context.erase_of_expr {e e' : Expr} {t : Ty} (h : Γ.expr e = .ok (e', t)) :
    e'.erase = e.erase := by
  induction e generalizing e' t with
  | literal a v =>
    obtain ⟨-, rfl⟩ := expr_literal.1 h
    rfl
  | var a x =>
    obtain ⟨-, rfl⟩ := expr_var.1 h
    rfl
  | unary a op e ih =>
    obtain ⟨e₁, u, operand, -, rfl⟩ := expr_unary.1 h
    rw [Expr.erase, Expr.erase, ih operand]
  | binary a op l r ihl ihr =>
    obtain ⟨l₁, u, r₁, v, left, right, -, rfl⟩ := expr_binary.1 h
    rw [Expr.erase, Expr.erase, ihl left, ihr right]
  | call a f args ih =>
    by_cases isPrint : f = printFunction
    · subst isPrint
      obtain ⟨e, e₁, u, rfl, argument, -, rfl⟩ := expr_print.1 h
      simp only [Expr.erase, Expr.eraseAll, ih e (by simp) argument]
    · rcases (expr_call isPrint).1 h with ⟨sig, args', -, passes, -, rfl⟩ | ⟨-, -, rfl, -, rfl⟩
      · rw [Expr.erase, Expr.erase, passes.eraseAll_eq fun a ha a' t => ih a ha]
      · rfl
  | field a o x ih =>
    obtain ⟨o₁, c, receiver, -, rfl⟩ := expr_field.1 h
    rw [Expr.erase, Expr.erase, ih receiver]
  | method a o x args ih ihargs =>
    obtain ⟨o₁, c, sig, args', receiver, -, passes, -, rfl⟩ := expr_method.1 h
    rw [Expr.erase, Expr.erase, ih receiver, passes.eraseAll_eq fun a ha a' t => ihargs a ha]

theorem Context.erase_of_target {t t' : Target} {u : Ty} (h : Γ.target t = .ok (t', u)) :
    t'.erase = t.erase := by
  cases t with
  | var x =>
    obtain ⟨-, -, rfl⟩ := target_var.1 h
    rfl
  | member o x =>
    obtain ⟨o₁, c, receiver, -, rfl⟩ := target_member.1 h
    rw [Target.erase, Target.erase, erase_of_expr receiver]

theorem Context.erase_of_block {ss ss' : List Stmt} (h : Γ.block ss = .ok ss')
    (each : ∀ s ∈ ss, ∀ s', Γ.stmt s = .ok s' → s'.erase = s.erase) :
    Stmt.eraseAll ss' = Stmt.eraseAll ss := by
  have checked := block_eq_ok.1 h
  clear h
  induction checked with
  | nil => rfl
  | cons first rest ih =>
    rw [List.forall_mem_cons] at each
    rw [Stmt.eraseAll, Stmt.eraseAll, each.1 _ first, ih each.2]

theorem Context.erase_of_stmt {s s' : Stmt} (h : Γ.stmt s = .ok s') : s'.erase = s.erase := by
  induction s generalizing s' with
  | pass =>
    obtain rfl := stmt_pass.1 h
    rfl
  | assign target e =>
    obtain ⟨target', _, e', _, htarget, he, -, rfl⟩ := stmt_assign.1 h
    rw [Stmt.erase, Stmt.erase, erase_of_target htarget, erase_of_expr he]
  | expr e =>
    obtain ⟨e', t, he, rfl⟩ := stmt_expr.1 h
    rw [Stmt.erase, Stmt.erase, erase_of_expr he]
  | return_ e =>
    obtain ⟨_, e', t, -, he, -, rfl⟩ := stmt_return.1 h
    rw [Stmt.erase, Stmt.erase, erase_of_expr he]
  | while_ c body ih =>
    obtain ⟨c', body', hc, hbody, rfl⟩ := stmt_while.1 h
    rw [Stmt.erase, Stmt.erase, erase_of_expr hc, erase_of_block hbody fun s hs s' => ih s hs]
  | if_ c body elif orElse ihbody ihelif ihelse =>
    obtain ⟨c', body', elif', orElse', hc, hbody, helif, horElse, rfl⟩ := stmt_if.1 h
    rw [Stmt.erase_if, Stmt.erase_if, erase_of_expr hc,
      erase_of_block hbody fun s hs s' => ihbody s hs]
    refine congrArg₂ _ ?_ ?_
    · cases helif with
      | none => rfl
      | some hd =>
        simp only [Option.map_some, erase_of_expr hd.1,
          erase_of_block hd.2 fun s hs s' => ihelif _ rfl s hs]
    · cases horElse with
      | none => rfl
      | some hb => rw [Option.map_some, Option.map_some, erase_of_block hb fun s hs s' => ihelse _ rfl s hs]

theorem Context.erase_of_function {name : String} {f f' : FunDef}
    (h : Γ.function name f = .ok f') : f'.erase = f.erase := by
  obtain ⟨scope, body, -, hbody, -, rfl⟩ := function_eq_ok.1 h
  rw [FunDef.erase, FunDef.erase, erase_of_block hbody fun _ _ _ => erase_of_stmt]

theorem Context.erase_of_definition {d d' : Def} (h : Γ.definition d = .ok d') :
    d'.erase = d.erase := by
  cases d with
  | var v =>
    cases h
    rfl
  | function f =>
    obtain ⟨f', hf, h⟩ := bind_eq_ok.1 h
    cases h
    rw [Def.erase, Def.erase, erase_of_function hf]
  | class_ c =>
    obtain ⟨methods, hmethods, h⟩ := bind_eq_ok.1 h
    cases h
    have same : methods.map FunDef.erase = c.methods.map FunDef.erase :=
      map_eq_of_forall₂ (mapM_eq_ok.1 hmethods) fun _ _ => erase_of_function
    rw [Def.erase, Def.erase, same]

/-- Checking changes nothing of a program but the types that are written into it. -/
theorem Program.erase_of_check {p q : Program} (h : p.check = .ok q) : q.erase = p.erase := by
  obtain ⟨Γ, -, h⟩ := bind_eq_ok.1 h
  obtain ⟨defs, hdefs, h⟩ := bind_eq_ok.1 h
  obtain ⟨stmts, hstmts, h⟩ := bind_eq_ok.1 h
  cases h
  have same : defs.map Def.erase = p.defs.map Def.erase :=
    map_eq_of_forall₂ (mapM_eq_ok.1 hdefs) fun _ _ => Context.erase_of_definition
  rw [erase, erase, same, Context.erase_of_block hstmts fun _ _ _ => Context.erase_of_stmt]

/-- What comes out of checking is what differs by written types only and checks to itself. -/
theorem Program.check_eq_ok_iff {p q : Program} :
    p.check = .ok q ↔ q.erase = p.erase ∧ q.check = .ok q := by
  constructor
  · intro h
    have same := erase_of_check h
    refine ⟨same, ?_⟩
    rw [← check_erase, same, check_erase]
    exact h
  · rintro ⟨same, h⟩
    rw [← check_erase, ← same, check_erase]
    exact h

/-! ## §5 Types that stood there before -/

/-- Checking does not look at the types that are written into a program: without them, or with any
others, the result is the same, be it a program or an error. And it puts them right: the program that
comes out differs by such types only, and is checked to itself. -/
theorem Program.check_ignores_annotations (p : Program) :
    p.erase.check = p.check ∧
    (∀ p' : Program, p'.erase = p.erase → p'.check = p.check) ∧
    ∀ q, p.check = .ok q → q.erase = p.erase ∧ q.check = .ok q := by
  refine ⟨p.check_erase, fun p' same => ?_, fun q checked => check_eq_ok_iff.1 checked⟩
  rw [← p'.check_erase, same, p.check_erase]

/-- A program with wrong types in the receiver of an assignment, in an argument, in a condition, in
the receiver of a method and behind a return, and with no types elsewhere. -/
def Program.scribbled : Program where
  defs := [.class_ ⟨"Cell", objectClass, [⟨"content", .int, .number 0⟩],
      [⟨"put", [⟨"self", .object "Cell"⟩, ⟨"n", .int⟩], .bool, [],
        [.assign (.member (.var (some .int) "self") "content") (.var (some .bool) "n"),
          .return_ (.literal (some (.object "Lost")) (.bool true)),
          .expr (.field (some .none) (.var (some .bool) "self") "content")]⟩]⟩]
  stmts := [.while_ (.method (some .int) (.call (some .none) "Cell" []) "put"
      [.unary none .neg (.literal (some .bool) (.number 1))])
    [.expr (.call (some .int) "print" [.literal none .none])]]

/-- The wrong types are put right, and are no reason to refuse the program. -/
theorem Program.check_scribbled : ∃ q, scribbled.check = .ok q ∧ q ≠ scribbled ∧
    scribbled.erase.check = .ok q ∧ q.check = .ok q := by
  have differs : (scribbled.check.toOption.map fun q => decide (q ≠ scribbled)) = some true := by
    decide +kernel
  cases checked : scribbled.check with
  | error e =>
    rw [checked] at differs
    cases differs
  | ok q =>
    rw [checked] at differs
    obtain ⟨erased, -, again⟩ := scribbled.check_ignores_annotations
    exact ⟨q, rfl, of_decide_eq_true (Option.some.inj differs), erased.trans checked,
      (again q checked).2⟩

end Serpent
