/-
Serpent.Proofs.Watch — evaluating a program and watching what happens.

Watched evaluation goes through a program as evaluation does, and keeps a log of what happens: each
value, each access to a field, each object that is made, each assignment, each call and return. The
log is there also when the program stops early. It changes nothing: without its log, watched
evaluation is evaluation (§5).

  §1 Moments and logs
  §2 Expressions
  §3 Statements
  §4 Programs
  §5 The log changes nothing
-/
import Serpent.Proofs.Evaluate
import Serpent.Proofs.Induction
import Serpent.Proofs.Typing

namespace Serpent

open Wasm (Bindings)

/-! ## §1 Moments and logs -/

/-- What happens. -/
inductive Event where
  /-- An expression has got its value. -/
  | value (e : Expr) (w : Word)
  /-- The field at a place of an object is read or written next. -/
  | access (receiver place : Word)
  /-- The fields of a new object get their initial values next. -/
  | making (c : ClassDef) (self : Word)
  /-- An object has got its fields, and is constructed next. -/
  | made (c : ClassDef) (self : Word)
  /-- A variable or a field has got a new value. -/
  | assigned
  /-- A function has been entered. -/
  | entered
  /-- A function returns a value next. -/
  | returning (w : Word)
  /-- Control has come to the end of a function. -/
  | ended

/-- Something happens at a place of a program, with these local variables, in a world. -/
structure Moment where
  site : Site
  locals : Bindings
  world : World
  event : Event

/-- What stands in one list behind another is in the first or in the second of them. -/
theorem exists_of_append_eq {α : Type} {l l' before after : List α} {a : α}
    (h : l ++ l' = before ++ a :: after) : (∃ rest, l = before ++ a :: rest) ∨
      ∃ middle, before = l ++ middle ∧ l' = middle ++ a :: after := by
  rcases List.append_eq_append_iff.1 h with ⟨middle, pre, suf⟩ | ⟨middle, pre, suf⟩
  · exact .inr ⟨middle, pre, suf⟩
  · cases middle with
    | nil => exact .inr ⟨[], by simpa using pre.symm, suf.symm⟩
    | cons b middle =>
      cases suf
      exact .inl ⟨middle, pre⟩

/-- A computation that changes the world and keeps a log. -/
def Watch (α : Type) : Type := World → List Moment × Except Halt (α × World)

namespace Watch

variable {α β : Type}

/-- Go on with `k` where a computation comes to its end; the logs are put together. -/
protected def bind (x : Watch α) (k : α → Watch β) : Watch β := fun W =>
  match x W with
  | (log, .ok (a, V)) => (log ++ (k a V).1, (k a V).2)
  | (log, .error h) => (log, .error h)

instance : Monad Watch where
  pure a := fun W => ([], .ok (a, W))
  bind := Watch.bind

/-- A computation that is not watched. -/
def lift (x : Eval α) : Watch α := fun W => ([], x W)

instance : MonadLift Eval Watch := ⟨lift⟩

/-- Put what happens into the log. -/
def note (site : Site) (locals : Bindings) (event : Event) : Watch Unit := fun W =>
  ([⟨site, locals, W, event⟩], .ok ((), W))

/-- What happens in a world. -/
def log (x : Watch α) (W : World) : List Moment := (x W).1

/-- How a computation ends in a world. -/
def outcome (x : Watch α) (W : World) : Except Halt (α × World) := (x W).2

@[simp] theorem log_pure (a : α) (W : World) : log (pure a) W = [] := rfl

@[simp] theorem outcome_pure (a : α) (W : World) : outcome (pure a) W = .ok (a, W) := rfl

@[simp] theorem log_lift (x : Eval α) (W : World) : log (liftM x) W = [] := rfl

@[simp] theorem outcome_lift (x : Eval α) (W : World) : outcome (liftM x) W = x W := rfl

@[simp] theorem log_note (site : Site) (locals : Bindings) (event : Event) (W : World) :
    log (note site locals event) W = [⟨site, locals, W, event⟩] := rfl

@[simp] theorem outcome_note (site : Site) (locals : Bindings) (event : Event) (W : World) :
    outcome (note site locals event) W = .ok ((), W) := rfl

theorem bind_of_ok {x : Watch α} {k : α → Watch β} {W V : World} {a : α}
    (h : x.outcome W = .ok (a, V)) :
    (x >>= k).log W = x.log W ++ (k a).log V ∧ (x >>= k).outcome W = (k a).outcome V := by
  show (Watch.bind x k W).1 = (x W).1 ++ (k a V).1 ∧ (Watch.bind x k W).2 = (k a V).2
  have pair : x W = ((x W).1, .ok (a, V)) := Prod.ext rfl h
  rw [Watch.bind, pair]
  exact ⟨rfl, rfl⟩

theorem bind_of_error {x : Watch α} {k : α → Watch β} {W : World} {e : Halt}
    (h : x.outcome W = .error e) :
    (x >>= k).log W = x.log W ∧ (x >>= k).outcome W = .error e := by
  show (Watch.bind x k W).1 = (x W).1 ∧ (Watch.bind x k W).2 = .error e
  have pair : x W = ((x W).1, .error e) := Prod.ext rfl h
  rw [Watch.bind, pair]
  exact ⟨rfl, rfl⟩

instance : LawfulMonad Watch := by
  refine .mk' Watch ?_ (fun a k => rfl) ?_
  · intro α x
    funext W
    change Watch.bind x pure W = x W
    rw [Watch.bind]
    rcases x W with ⟨log, halt | ⟨a, V⟩⟩
    · rfl
    · exact congrArg (·, _) (List.append_nil log)
  · intro α β γ x k j
    funext W
    change Watch.bind (Watch.bind x k) j W = Watch.bind x (fun a => Watch.bind (k a) j) W
    simp only [Watch.bind]
    rcases x W with ⟨log, halt | ⟨a, V⟩⟩
    · rfl
    · simp only
      rcases k a V with ⟨log', halt | ⟨b, U⟩⟩
      · rfl
      · exact congrArg (·, _) (List.append_assoc ..)

theorem lift_bind (x : Eval α) (k : α → Eval β) :
    (liftM (x >>= k) : Watch β) = liftM x >>= fun a => liftM (k a) := by
  funext W
  change ([], (x >>= k) W) = Watch.bind (lift x) (fun a => lift (k a)) W
  rw [Watch.bind, lift]
  cases result : x W with
  | error h => rw [Eval.bind_of_error result]
  | ok r => rw [Eval.bind_of_ok result]; rfl

/-- Two computations come to their end one after the other. -/
theorem exists_of_bind_ok {x : Watch α} {k : α → Watch β} {W U : World} {b : β}
    (h : (x >>= k).outcome W = .ok (b, U)) : ∃ a V, x.outcome W = .ok (a, V) ∧
      (k a).outcome V = .ok (b, U) ∧ (x >>= k).log W = x.log W ++ (k a).log V := by
  cases result : x.outcome W with
  | error halt =>
    rw [(bind_of_error result).2] at h
    cases h
  | ok r =>
    obtain ⟨log, outcome⟩ := bind_of_ok (k := k) result
    exact ⟨r.1, r.2, rfl, outcome.symm.trans h, log⟩

/-- In the log of two computations, a moment is in that of the first or in that of the second. -/
theorem split_bind {x : Watch α} {k : α → Watch β} {W : World} {before after : List Moment}
    {m : Moment} (split : (x >>= k).log W = before ++ m :: after) :
    (∃ rest, x.log W = before ++ m :: rest) ∨ ∃ a V middle, x.outcome W = .ok (a, V) ∧
      before = x.log W ++ middle ∧ (k a).log V = middle ++ m :: after := by
  cases result : x.outcome W with
  | error halt =>
    rw [(bind_of_error result).1] at split
    exact .inl ⟨after, split⟩
  | ok r =>
    obtain ⟨a, V⟩ := r
    rw [(bind_of_ok result).1] at split
    exact (exists_of_append_eq split).imp_right fun ⟨middle, pre, suf⟩ =>
      ⟨a, V, middle, rfl, pre, suf⟩

/-- Put the value of an expression into the log. -/
def valued (site : Site) (locals : Bindings) (e : Expr) (x : Watch Word) : Watch Word := do
  let w ← x
  note site locals (.value e w)
  return w

end Watch

/-! ## §2 Expressions -/

/-- How a function is called. -/
abbrev Call := FunDef → List Word → Watch Word

/-- Take the memory of a new object, and give its fields their initial values. -/
def ClassDef.make (site : Site) (locals : Bindings) (c : ClassDef) : Watch Word := do
  let self := (← (get : Eval World)).free
  Watch.note site locals (.making c self)
  initFields self c.fields
  (modify fun W => { W with free := self + fieldPlace c.fields.length } : Eval Unit)
  Watch.note site locals (.made c self)
  return self

/-- The log of making an object, and how it ends. -/
theorem ClassDef.make_eq (site : Site) (locals : Bindings) (c : ClassDef) (W : World) :
    (∃ halt, initFields W.free c.fields W = .error halt ∧
      (c.make site locals).log W = [⟨site, locals, W, .making c W.free⟩] ∧
      (c.make site locals).outcome W = .error halt) ∨
    ∃ V, initFields W.free c.fields W = .ok ((), V) ∧
      (c.make site locals).log W = [⟨site, locals, W, .making c W.free⟩,
        ⟨site, locals, { V with free := W.free + fieldPlace c.fields.length }, .made c W.free⟩] ∧
      (c.make site locals).outcome W =
        .ok (W.free, { V with free := W.free + fieldPlace c.fields.length }) := by
  unfold make
  rw [(Watch.bind_of_ok (W := W) (V := W) (a := W) rfl).1,
    (Watch.bind_of_ok (W := W) (V := W) (a := W) rfl).2,
    (Watch.bind_of_ok (W := W) (V := W) (a := ()) rfl).1,
    (Watch.bind_of_ok (W := W) (V := W) (a := ()) rfl).2]
  cases result : initFields W.free c.fields W with
  | error halt =>
    obtain ⟨log, outcome⟩ := Watch.bind_of_error
      (x := (liftM (initFields W.free c.fields) : Watch Unit)) result
    exact .inl ⟨halt, rfl, by rw [log]; rfl, by rw [outcome]⟩
  | ok r =>
    obtain ⟨⟨⟩, V⟩ := r
    obtain ⟨log, outcome⟩ := Watch.bind_of_ok
      (x := (liftM (initFields W.free c.fields) : Watch Unit)) result
    exact .inr ⟨V, rfl, by rw [log]; rfl, by rw [outcome]; rfl⟩

/-- Make an object and construct it. -/
def ClassDef.watch (call : Call) (site : Site) (locals : Bindings) (c : ClassDef) :
    Watch Word := do
  let self ← c.make site locals
  let _ ← call c.init [self]
  return self

namespace Expr

mutual

/-- The value of an expression. -/
def watch (p : Program) (call : Call) (site : Site) (locals : Bindings) : Expr → Watch Word
  | .literal a v => Watch.valued site locals (.literal a v) (return v.word)
  | .var a x => Watch.valued site locals (.var a x) (readVar locals x)
  | .unary a op e => Watch.valued site locals (.unary a op e) do
    return op.apply (← watch p call site locals e)
  | .binary a op l r => Watch.valued site locals (.binary a op l r) do
    let b ← watch p call site locals l
    let c ← watch p call site locals r
    match op.apply b c with
    | .ok w => return w
    | .error t => (Eval.trap t : Eval Word)
  | .call a f args => Watch.valued site locals (.call a f args) <|
    if f = printFunction then
      match args with
      | [e] => do
        let w ← watch p call site locals e
        let t ← Eval.known e.ty?
        Eval.printLine (t.line w)
        return w
      | _ => (Eval.halt .undefined : Eval Word)
    else
      match p.class? f with
      | some c => if args.isEmpty then c.watch call site locals else
        (Eval.halt .undefined : Eval Word)
      | none => do
        let ws ← watchAll p call site locals args
        let d ← Eval.known (p.function? f)
        call d ws
  | .field a o x => Watch.valued site locals (.field a o x) do
    let receiver ← watch p call site locals o
    let k ← Eval.known ((p.classOf? o).bind (·.place? x))
    Watch.note site locals (.access receiver k)
    Eval.load (receiver + k)
  | .method a o x args => Watch.valued site locals (.method a o x args) do
    let self ← watch p call site locals o
    let ws ← watchAll p call site locals args
    let m ← Eval.known ((p.classOf? o).bind (·.method? x))
    call m (self :: ws)

/-- The values of expressions. -/
def watchAll (p : Program) (call : Call) (site : Site) (locals : Bindings) :
    List Expr → Watch (List Word)
  | [] => return []
  | e :: es => do
    let w ← watch p call site locals e
    let ws ← watchAll p call site locals es
    return w :: ws

end

end Expr

/-! ## §3 Statements -/

/-- Go on with `k` unless the function returns. -/
def Flow.watchThen (flow : Flow) (k : Bindings → Watch Flow) : Watch Flow :=
  match flow with
  | .onward locals => k locals
  | .returned w => return .returned w

/-- Change a variable. -/
def watchAssign (site : Site) (locals : Bindings) (x : String) (w : Word) : Watch Flow := do
  let flow ← assignVar locals x w
  flow.watchThen fun locals => do
    Watch.note site locals .assigned
    return .onward locals

/-- A loop of at most so many rounds. -/
def watchWhile (cond : Bindings → Watch Word) (body : Bindings → Watch Flow) :
    (rounds : Nat) → Bindings → Watch Flow
  | 0, _ => (Eval.halt .unfinished : Eval Flow)
  | rounds + 1, locals => do
    if (← cond locals) = 0 then return .onward locals
    else (← body locals).watchThen (watchWhile cond body rounds)

namespace Stmt

mutual

/-- The effect of a statement. -/
def watch (p : Program) (call : Call) (fuel : Nat) (site : Site) : Stmt → Bindings → Watch Flow
  | .pass, locals => return .onward locals
  | .assign (.var x) e, locals => do watchAssign site locals x (← e.watch p call site locals)
  | .assign (.member o x) e, locals => do
    let receiver ← o.watch p call site locals
    let k ← Eval.known ((p.classOf? o).bind (·.place? x))
    let w ← e.watch p call site locals
    Watch.note site locals (.access receiver k)
    Eval.store (receiver + k) w
    Watch.note site locals .assigned
    return .onward locals
  | .expr e, locals => do
    let _ ← e.watch p call site locals
    return .onward locals
  | .return_ e, locals => do
    let w ← e.watch p call site locals
    Watch.note site locals (.returning w)
    return .returned w
  | .while_ c body, locals =>
    watchWhile (fun locals => c.watch p call site locals) (watchAll p call fuel site body) fuel
      locals
  | .if_ c body elif orElse, locals => do
    if (← c.watch p call site locals) ≠ 0 then watchAll p call fuel site body locals
    else
      match elif, orElse with
      | none, none => return .onward locals
      | none, some orElse => watchAll p call fuel site orElse locals
      | some (d, other), none =>
        if (← d.watch p call site locals) ≠ 0 then watchAll p call fuel site other locals
        else return .onward locals
      | some (d, other), some orElse =>
        if (← d.watch p call site locals) ≠ 0 then watchAll p call fuel site other locals
        else watchAll p call fuel site orElse locals

/-- The effect of statements one after the other. -/
def watchAll (p : Program) (call : Call) (fuel : Nat) (site : Site) :
    List Stmt → Bindings → Watch Flow
  | [], locals => return .onward locals
  | s :: ss, locals => do
    (← watch p call fuel site s locals).watchThen (watchAll p call fuel site ss)

end

end Stmt

/-! ## §4 Programs -/

/-- The result of a function. -/
def FunDef.watch (p : Program) (call : Call) (fuel : Nat) (f : FunDef) (args : List Word) :
    Watch Word := do
  Watch.note (some f) (f.initialLocals args) .entered
  match ← Stmt.watchAll p call fuel (some f) f.body (f.initialLocals args) with
  | .onward locals => do
    Watch.note (some f) locals .ended
    return 0
  | .returned w => return w

namespace Program

/-- Call a function where so many more calls may be opened. -/
def call (p : Program) (fuel : Nat) : (depth : Nat) → Call
  | 0 => fun _ _ => (Eval.trap .stackExhausted : Eval Word)
  | depth + 1 => fun f args => f.watch p (call p fuel depth) fuel args

/-- The statements of a program that stand at its top level. -/
def watchStmts (p : Program) (call : Call) (fuel : Nat) (stmts : List Stmt) : Watch Unit := do
  match ← Stmt.watchAll p call fuel none stmts [] with
  | .onward _ => return ()
  | .returned _ => (Eval.halt .undefined : Eval Unit)

/-- Run the statements of a program. -/
def watchMain (p : Program) (call : Call) (fuel : Nat) : Watch (Option Word) := do
  match p.stmts.getLast? with
  | some (.expr e) =>
    p.watchStmts call fuel p.stmts.dropLast
    return some (← e.watch p call none [])
  | _ =>
    p.watchStmts call fuel p.stmts
    return none

/-- Run a program within limits. -/
def watch (p : Program) (limits : Wasm.Limits) : Watch (Option Word) :=
  p.watchMain (p.call limits.fuel limits.depth) limits.fuel

/-- What happens when a program runs. -/
def log (p : Program) (limits : Wasm.Limits) : List Moment :=
  (p.watch limits).log (p.initialWorld limits.pages)

end Program

/-! ## §5 The log changes nothing -/

/-- Without its log, a watched computation is a computation. -/
def Watch.Erases {α : Type} (x : Watch α) (y : Eval α) : Prop := ∀ W, x.outcome W = y W

namespace Watch.Erases

variable {α β : Type}

theorem pure (a : α) : Erases (Pure.pure a) (Pure.pure a) := fun _ => rfl

theorem lift (y : Eval α) : Erases (liftM y) y := fun _ => rfl

theorem bind {x : Watch α} {y : Eval α} {k : α → Watch β} {j : α → Eval β} (first : Erases x y)
    (rest : ∀ a, Erases (k a) (j a)) : Erases (x >>= k) (y >>= j) := by
  intro W
  have same := first W
  cases result : x.outcome W with
  | error h => rw [(bind_of_error result).2, Eval.bind_of_error (same.symm.trans result)]
  | ok r =>
    obtain ⟨a, V⟩ := r
    rw [(bind_of_ok result).2, Eval.bind_of_ok (same.symm.trans result)]
    exact rest a V

theorem note {site : Site} {locals : Bindings} {event : Event} {k : Unit → Watch β} {y : Eval β}
    (rest : Erases (k ()) y) : Erases (Watch.note site locals event >>= k) y :=
  fun W => rest W

theorem valued {site : Site} {locals : Bindings} {e : Expr} {x : Watch Word} {y : Eval Word}
    (h : Erases x y) : Erases (Watch.valued site locals e x) y := by
  have noted : ∀ w, Erases (do Watch.note site locals (.value e w); return w) (Pure.pure w) :=
    fun w => note (pure w)
  have same := bind h noted
  rwa [bind_pure] at same

theorem ite {c : Prop} [Decidable c] {x x' : Watch α} {y y' : Eval α} (yes : Erases x y)
    (no : Erases x' y') : Erases (if c then x else x') (if c then y else y') := by
  by_cases h : c
  · simpa [h] using yes
  · simpa [h] using no

end Watch.Erases

open Watch (Erases)

variable {p : Program} {call : Call} {invoke : Invoke} {site : Site}

theorem ClassDef.erases_watch (calls : ∀ f args, Erases (call f args) (invoke f args))
    (locals : Bindings) (c : ClassDef) :
    Erases (c.watch call site locals) (c.construct invoke) := by
  have make : Erases (c.make site locals) (do
      let self := (← get).free
      initFields self c.fields
      modify fun W => { W with free := self + fieldPlace c.fields.length }
      return self) :=
    .bind (.lift get) fun _ => .note <| .bind (.lift _) fun _ => .bind (.lift _) fun _ =>
      .note (.pure _)
  have both := Erases.bind make fun self => .bind (calls c.init [self]) fun _ => .pure self
  simpa only [watch, construct, bind_assoc, pure_bind] using both

theorem Expr.erases_watchAll {locals : Bindings} {es : List Expr}
    (each : ∀ e ∈ es, Erases (e.watch p call site locals) (e.eval p invoke locals)) :
    Erases (Expr.watchAll p call site locals es) (Expr.evalAll p invoke locals es) := by
  induction es with
  | nil => exact .pure _
  | cons e es ih =>
    exact .bind (each e (by simp)) fun _ => .bind (ih fun a ha => each a (by simp [ha])) fun _ =>
      .pure _

theorem Expr.erases_watch (calls : ∀ f args, Erases (call f args) (invoke f args))
    (locals : Bindings) (e : Expr) :
    Erases (e.watch p call site locals) (e.eval p invoke locals) := by
  induction e with
  | literal a v => exact .valued (.pure _)
  | var a x => exact .valued (.lift _)
  | unary a op e ih => exact .valued (.bind ih fun _ => .pure _)
  | binary a op l r ihl ihr =>
    refine .valued (.bind ihl fun b => .bind ihr fun c => ?_)
    cases op.apply b c with
    | ok w => exact .pure w
    | error t => exact .lift _
  | call a f args ih =>
    rw [watch.eq_def, eval.eq_def]
    refine .valued (.ite ?_ ?_)
    · match args with
      | [] => exact .lift _
      | [e] =>
        exact .bind (ih e (by simp)) fun _ => .bind (.lift _) fun _ => .bind (.lift _) fun _ =>
          .pure _
      | _ :: _ :: _ => exact .lift _
    · cases p.class? f with
      | some c => exact .ite (ClassDef.erases_watch calls locals c) (.lift _)
      | none => exact .bind (erases_watchAll ih) fun _ => .bind (.lift _) fun _ => calls _ _
  | field a o x ih =>
    exact .valued (.bind ih fun _ => .bind (.lift _) fun _ => .note (.lift _))
  | method a o x args ih ihargs =>
    exact .valued (.bind ih fun _ => .bind (erases_watchAll ihargs) fun _ =>
      .bind (.lift _) fun _ => calls _ _)

theorem Flow.erases_watchThen {k : Bindings → Watch Flow} {j : Bindings → Eval Flow}
    (h : ∀ locals, Erases (k locals) (j locals)) (flow : Flow) :
    Erases (flow.watchThen k) (flow.andThen j) := by
  cases flow with
  | onward locals => exact h locals
  | returned w => exact .pure _

theorem erases_watchAssign (locals : Bindings) (x : String) (w : Word) :
    Erases (watchAssign site locals x w) (assignVar locals x w) := by
  have onward : ∀ flow : Flow, Erases (flow.watchThen fun locals => do
      Watch.note site locals .assigned
      return .onward locals) (pure flow) := by
    intro flow
    cases flow with
    | onward locals => exact .note (.pure _)
    | returned w => exact .pure _
  have same := Erases.bind (.lift (assignVar locals x w)) onward
  rwa [bind_pure] at same

theorem erases_watchWhile {cond : Bindings → Watch Word} {cond' : Bindings → Eval Word}
    {body : Bindings → Watch Flow} {body' : Bindings → Eval Flow}
    (test : ∀ locals, Erases (cond locals) (cond' locals))
    (round : ∀ locals, Erases (body locals) (body' locals)) (n : Nat) (locals : Bindings) :
    Erases (watchWhile cond body n locals) (repeatWhile cond' body' n locals) := by
  induction n generalizing locals with
  | zero => exact .lift _
  | succ n ih =>
    exact .bind (test locals) fun w =>
      .ite (.pure _) (.bind (round locals) (Flow.erases_watchThen ih))

theorem Stmt.erases_watchAll {fuel : Nat} {ss : List Stmt}
    (each : ∀ s ∈ ss, ∀ locals,
      Erases (s.watch p call fuel site locals) (s.eval p invoke fuel locals)) (locals : Bindings) :
    Erases (Stmt.watchAll p call fuel site ss locals) (Stmt.evalAll p invoke fuel ss locals) := by
  induction ss generalizing locals with
  | nil => exact .pure _
  | cons s ss ih =>
    exact .bind (each s (by simp) locals)
      (Flow.erases_watchThen (ih fun t ht => each t (by simp [ht])))

theorem Stmt.erases_watch (calls : ∀ f args, Erases (call f args) (invoke f args)) (fuel : Nat)
    (s : Stmt) (locals : Bindings) :
    Erases (s.watch p call fuel site locals) (s.eval p invoke fuel locals) := by
  have value : ∀ locals (e : Expr), Erases (e.watch p call site locals) (e.eval p invoke locals) :=
    fun locals e => e.erases_watch calls locals
  induction s generalizing locals with
  | pass => exact .pure _
  | assign target e =>
    cases target with
    | var x => exact .bind (value _ _) fun _ => erases_watchAssign _ _ _
    | member o x =>
      exact .bind (value _ _) fun _ => .bind (.lift _) fun _ => .bind (value _ _) fun _ =>
        .note (.bind (.lift _) fun _ => .note (.pure _))
  | expr e => exact .bind (value _ _) fun _ => .pure _
  | return_ e => exact .bind (value _ _) fun _ => .note (.pure _)
  | while_ c body ih =>
    exact erases_watchWhile (fun locals => value locals c) (erases_watchAll ih) fuel locals
  | if_ c body elif orElse ihbody ihelif ihelse =>
    rw [watch.eq_def, eval.eq_def]
    refine .bind (value _ _) fun w => .ite (erases_watchAll ihbody _) ?_
    split
    · exact .pure _
    · exact erases_watchAll (ihelse _ rfl) _
    · exact .bind (value _ _) fun _ => .ite (erases_watchAll (ihelif _ rfl) _) (.pure _)
    · exact .bind (value _ _) fun _ =>
        .ite (erases_watchAll (ihelif _ rfl) _) (erases_watchAll (ihelse _ rfl) _)

namespace Program

theorem erases_call (p : Program) (fuel depth : Nat) (f : FunDef) (args : List Word) :
    Erases (p.call fuel depth f args) (p.invoke fuel depth f args) := by
  induction depth generalizing f args with
  | zero => exact .lift _
  | succ depth ih =>
    refine .note (.bind (Stmt.erases_watchAll (fun s _ => s.erases_watch ih fuel) _) fun flow => ?_)
    cases flow with
    | onward locals => exact .note (.pure _)
    | returned w => exact .pure _

theorem erases_watchStmts (p : Program) (fuel depth : Nat) (ss : List Stmt) :
    Erases (p.watchStmts (p.call fuel depth) fuel ss)
      (p.runStmts (p.invoke fuel depth) fuel ss) := by
  refine .bind (Stmt.erases_watchAll (fun s _ => s.erases_watch (p.erases_call fuel depth) fuel) _)
    fun flow => ?_
  cases flow with
  | onward locals => exact .pure _
  | returned w => exact .lift _

/-- Watched evaluation ends as evaluation does. -/
theorem erases_watchMain (p : Program) (fuel depth : Nat) :
    Erases (p.watchMain (p.call fuel depth) fuel) (p.main (p.invoke fuel depth) fuel) := by
  rw [watchMain, main]
  have without : Erases (do p.watchStmts (p.call fuel depth) fuel p.stmts; return none)
      (do p.runStmts (p.invoke fuel depth) fuel p.stmts; return none) :=
    .bind (p.erases_watchStmts fuel depth _) fun _ => .pure (none : Option Word)
  cases p.stmts.getLast? with
  | none => exact without
  | some s =>
    cases s with
    | expr e =>
      exact .bind (p.erases_watchStmts fuel depth _) fun _ =>
        .bind (Expr.erases_watch (p.erases_call fuel depth) _ _) fun _ => .pure _
    | _ => exact without

theorem evaluate_eq_watch (p : Program) (limits : Wasm.Limits) : p.evaluate limits =
    ((p.watch limits).outcome (p.initialWorld limits.pages)).map fun r => ⟨r.1, r.2.output⟩ := by
  have same := p.erases_watchMain limits.fuel limits.depth (p.initialWorld limits.pages)
  rw [evaluate, watch, same]
  cases p.main (p.invoke limits.fuel limits.depth) limits.fuel (p.initialWorld limits.pages) <;> rfl

end Program

end Serpent
