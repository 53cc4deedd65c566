/-
Serpent.Proofs.Rounds — the bound on the rounds of loops is not observed.

A computation that comes to an end with so many rounds for each loop comes to the same end with more
rounds. So what a program gives is the same for every bound that is large enough, and a program that
uses up every bound does not come to an end.

  §1 Computations that agree where one comes to an end
  §2 Expressions
  §3 Statements
  §4 Programs
-/
import Serpent.Proofs.Evaluate
import Serpent.Proofs.Induction

namespace Serpent

open Wasm (Bindings)

variable {α β : Type}

/-! ## §1 Computations that agree where one comes to an end -/

/-- Where `x` comes to an end, `y` comes to the same end. -/
def Eval.Within (x y : Eval α) : Prop := ∀ W, x W = .error .unfinished ∨ y W = x W

namespace Eval.Within

theorem refl (x : Eval α) : Within x x := fun _ => .inr rfl

theorem unfinished (y : Eval α) : Within (halt .unfinished) y := fun _ => .inl rfl

theorem bind {x x' : Eval α} {k k' : α → Eval β} (first : Within x x')
    (rest : ∀ a, Within (k a) (k' a)) : Within (x >>= k) (x' >>= k') := by
  intro W
  rcases first W with stops | same
  · exact .inl (bind_of_error stops)
  · cases hx : x W with
    | error h =>
      rw [hx] at same
      exact .inr (by rw [bind_of_error same, bind_of_error hx])
    | ok result =>
      obtain ⟨a, V⟩ := result
      rw [hx] at same
      rw [bind_of_ok same, bind_of_ok hx]
      exact rest a V

theorem ite {c : Prop} [Decidable c] {x x' y y' : Eval α} (yes : Within x x') (no : Within y y') :
    Within (if c then x else y) (if c then x' else y') := by
  by_cases h : c
  · simpa [h] using yes
  · simpa [h] using no

end Eval.Within

open Eval (Within)

/-! ## §2 Expressions -/

variable {p : Program} {invoke invoke' : Invoke}

theorem ClassDef.within_construct (calls : ∀ f args, Within (invoke f args) (invoke' f args))
    (c : ClassDef) : Within (c.construct invoke) (c.construct invoke') :=
  .bind (.refl _) fun _ => .bind (.refl _) fun _ => .bind (.refl _) fun _ =>
    .bind (calls _ _) fun _ => .refl _

theorem Expr.within_evalAll {locals : Bindings} {es : List Expr}
    (each : ∀ e ∈ es, Within (e.eval p invoke locals) (e.eval p invoke' locals)) :
    Within (Expr.evalAll p invoke locals es) (Expr.evalAll p invoke' locals es) := by
  induction es with
  | nil => exact .refl _
  | cons e es ih =>
    exact .bind (each e (by simp)) fun _ => .bind (ih fun a ha => each a (by simp [ha])) fun _ => .refl _

theorem Expr.within_eval (calls : ∀ f args, Within (invoke f args) (invoke' f args))
    (locals : Bindings) (e : Expr) :
    Within (e.eval p invoke locals) (e.eval p invoke' locals) := by
  induction e with
  | literal ty v => exact .refl _
  | var ty x => exact .refl _
  | unary ty op e ih => exact .bind ih fun _ => .refl _
  | binary ty op l r ihl ihr => exact .bind ihl fun _ => .bind ihr fun _ => .refl _
  | call ty f args ih =>
    rw [eval.eq_def, eval.eq_def]
    refine .ite ?_ ?_
    · split
      · exact .bind (ih _ (by simp)) fun _ => .refl _
      · exact .refl _
    · split
      · exact .ite (ClassDef.within_construct calls _) (.refl _)
      · exact .bind (within_evalAll ih) fun _ => .bind (.refl _) fun _ => calls _ _
  | field ty o x ih => exact .bind ih fun _ => .refl _
  | method ty o x args ih ihargs =>
    exact .bind ih fun _ => .bind (within_evalAll ihargs) fun _ => .bind (.refl _) fun _ => calls _ _

/-! ## §3 Statements -/

theorem Flow.within_andThen {k k' : Bindings → Eval Flow} (h : ∀ locals, Within (k locals) (k' locals))
    (flow : Flow) : Within (flow.andThen k) (flow.andThen k') := by
  cases flow with
  | onward locals => exact h locals
  | returned w => exact .refl _

theorem within_repeatWhile {cond cond' : Bindings → Eval Word} {body body' : Bindings → Eval Flow}
    (test : ∀ locals, Within (cond locals) (cond' locals))
    (round : ∀ locals, Within (body locals) (body' locals)) {n n' : Nat} (h : n ≤ n')
    (locals : Bindings) :
    Within (repeatWhile cond body n locals) (repeatWhile cond' body' n' locals) := by
  induction n generalizing n' locals with
  | zero => exact .unfinished _
  | succ n ih =>
    cases n' with
    | zero => cases h
    | succ n' =>
      have later := ih (Nat.le_of_succ_le_succ h)
      exact .bind (test locals) fun w =>
        .ite (.refl _) (.bind (round locals) (Flow.within_andThen later))

theorem Stmt.within_evalAll {fuel fuel' : Nat} {ss : List Stmt}
    (each : ∀ s ∈ ss, ∀ locals,
      Within (s.eval p invoke fuel locals) (s.eval p invoke' fuel' locals)) (locals : Bindings) :
    Within (Stmt.evalAll p invoke fuel ss locals) (Stmt.evalAll p invoke' fuel' ss locals) := by
  induction ss generalizing locals with
  | nil => exact .refl _
  | cons s ss ih =>
    exact .bind (each s (by simp) locals)
      (Flow.within_andThen (ih fun t ht => each t (by simp [ht])))

theorem Stmt.within_eval (calls : ∀ f args, Within (invoke f args) (invoke' f args))
    {fuel fuel' : Nat} (h : fuel ≤ fuel') (s : Stmt) (locals : Bindings) :
    Within (s.eval p invoke fuel locals) (s.eval p invoke' fuel' locals) := by
  have value := fun locals (e : Expr) => e.within_eval (p := p) calls locals
  induction s generalizing locals with
  | pass => exact .refl _
  | assign target e =>
    cases target with
    | var x => exact .bind (value _ _) fun _ => .refl _
    | member o x =>
      exact .bind (value _ _) fun _ => .bind (.refl _) fun _ => .bind (value _ _) fun _ => .refl _
  | expr e => exact .bind (value _ _) fun _ => .refl _
  | return_ e => exact .bind (value _ _) fun _ => .refl _
  | while_ c body ih =>
    exact within_repeatWhile (fun locals => value locals c) (within_evalAll ih) h locals
  | if_ c body elif orElse ihbody ihelif ihelse =>
    rw [eval.eq_def, eval.eq_def]
    refine .bind (value _ _) fun w => .ite (within_evalAll ihbody _) ?_
    split
    · exact .refl _
    · exact within_evalAll (ihelse _ rfl) _
    · exact .bind (value _ _) fun _ => .ite (within_evalAll (ihelif _ rfl) _) (.refl _)
    · exact .bind (value _ _) fun _ =>
        .ite (within_evalAll (ihelif _ rfl) _) (within_evalAll (ihelse _ rfl) _)

/-! ## §4 Programs -/

theorem Program.within_invoke (p : Program) {fuel fuel' : Nat} (h : fuel ≤ fuel') (depth : Nat)
    (f : FunDef) (args : List Word) :
    Within (p.invoke fuel depth f args) (p.invoke fuel' depth f args) := by
  induction depth generalizing f args with
  | zero => exact .refl _
  | succ depth ih =>
    exact .bind (Stmt.within_evalAll (fun s _ => s.within_eval ih h) _) fun _ => .refl _

theorem Program.within_runStmts (p : Program) {fuel fuel' : Nat} (h : fuel ≤ fuel') (depth : Nat)
    (ss : List Stmt) : Within (p.runStmts (p.invoke fuel depth) fuel ss)
      (p.runStmts (p.invoke fuel' depth) fuel' ss) :=
  .bind (Stmt.within_evalAll (fun s _ => s.within_eval (p.within_invoke h depth) h) _) fun _ => .refl _

/-- More rounds change nothing of what a program gives. -/
theorem Program.evaluate_of_le (p : Program) {pages fuel fuel' depth : Nat} (h : fuel ≤ fuel') :
    p.evaluate ⟨pages, fuel, depth⟩ = .error .unfinished ∨
      p.evaluate ⟨pages, fuel', depth⟩ = p.evaluate ⟨pages, fuel, depth⟩ := by
  have main : Within (p.main (p.invoke fuel depth) fuel) (p.main (p.invoke fuel' depth) fuel') := by
    rw [Program.main, Program.main]
    split
    · exact .bind (p.within_runStmts h depth _) fun _ =>
        .bind (Expr.within_eval (p.within_invoke h depth) _ _) fun _ => .refl _
    · exact .bind (p.within_runStmts h depth _) fun _ => .refl _
  rcases main (p.initialWorld pages) with stops | same
  · refine .inl ?_
    rw [evaluate]
    dsimp only
    rw [stops]
    rfl
  · refine .inr ?_
    rw [evaluate, evaluate]
    dsimp only
    rw [same]

end Serpent
