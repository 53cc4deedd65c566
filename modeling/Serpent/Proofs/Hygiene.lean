/-
Serpent.Proofs.Hygiene — one more definition changes nothing of what a program does.

Every name in a checked program keeps what it stands for where more is defined, so the two programs
do the same, step by step. Their worlds differ by global variables that only one of them has (§1).
What is known of a computation is said by one rule for each way to compose computations (§2), and
then for each form of expression and statement (§3, §4). As a module does what its program does, the
modules of the two programs cannot be told apart by running them (§5).

  §1 Worlds with more global variables
  §2 Computations that come to the same end
  §3 Expressions
  §4 Statements
  §5 Programs and their modules
-/
import Serpent.Proofs.Weakening
import Serpent.Proofs.WellFormed

namespace Serpent

open Wasm (Bindings Limits)

variable {α β : Type}

/-! ## §1 Worlds with more global variables -/

/-- One world is the other with more global variables. -/
structure World.Under (W W' : World) : Prop where
  globals : ∀ {x w}, W.globals.lookup x = some w → W'.globals.lookup x = some w
  memory : W'.memory = W.memory
  free : W'.free = W.free
  output : W'.output = W.output

/-- A global variable that both worlds have is changed in both. -/
theorem World.Under.setGlobal {W W' : World} (h : W.Under W') {x : String} {v : Word}
    (known : W.globals.lookup x = some v) (w : Word) :
    World.Under { W with globals := W.globals.set x w }
      { W' with globals := W'.globals.set x w } where
  globals := by
    intro y u found
    have own : x ∈ W.globals.map (·.1) := lookup_isSome_iff.1 (by rw [known]; rfl)
    have own' : x ∈ W'.globals.map (·.1) := lookup_isSome_iff.1 (by rw [h.globals known]; rfl)
    by_cases same : y = x
    · subst same
      rw [Bindings.lookup_set_self own] at found
      rw [Bindings.lookup_set_self own', found]
    · rw [Bindings.lookup_set_of_ne same] at found
      rw [Bindings.lookup_set_of_ne same, h.globals found]
  memory := h.memory
  free := h.free
  output := h.output

/-! ## §2 Computations that come to the same end -/

/-- The ends of two computations are the same, but for global variables that only the second world
has. Nothing is asked where the first computation lacks a name. -/
inductive SameEnd : Except Halt (α × World) → Except Halt (α × World) → Prop
  | undefined (end' : Except Halt (α × World)) : SameEnd (.error .undefined) end'
  | halt (h : Halt) : SameEnd (.error h) (.error h)
  | done (a : α) {W W' : World} (under : W.Under W') : SameEnd (.ok (a, W)) (.ok (a, W'))

/-- In a world with more global variables, `x'` does what `x` does. -/
def Eval.Follows (x x' : Eval α) : Prop := ∀ W W', W.Under W' → SameEnd (x W) (x' W')

namespace Eval.Follows

theorem pure (a : α) : Follows (Pure.pure a) (Pure.pure a) := fun _ _ under => .done a under

theorem undefined (x' : Eval α) : Follows (halt .undefined) x' := fun _ _ _ => .undefined _

theorem halt (h : Halt) : Follows (α := α) (Eval.halt h) (Eval.halt h) := fun _ _ _ => .halt h

theorem trap (t : Wasm.Trap) : Follows (α := α) (Eval.trap t) (Eval.trap t) := by
  intro W W' under
  rw [Eval.trap, Eval.trap, under.output]
  exact .halt _

theorem bind {x x' : Eval α} {k k' : α → Eval β} (first : Follows x x')
    (rest : ∀ a, Follows (k a) (k' a)) : Follows (x >>= k) (x' >>= k') := by
  intro W W' under
  have ends := first W W' under
  cases hx : x W with
  | error h =>
    rw [hx] at ends
    rw [bind_of_error hx]
    generalize hx' : x' W' = end' at ends
    cases ends with
    | undefined => exact .undefined _
    | halt =>
      rw [bind_of_error hx']
      exact .halt h
  | ok result =>
    obtain ⟨a, V⟩ := result
    rw [hx] at ends
    rw [bind_of_ok hx]
    generalize hx' : x' W' = end' at ends
    cases ends with
    | done a under =>
      rw [bind_of_ok hx']
      exact rest a _ _ under

theorem ite {c : Prop} [Decidable c] {x x' y y' : Eval α} (yes : Follows x x')
    (no : Follows y y') : Follows (if c then x else y) (if c then x' else y') := by
  by_cases h : c
  · simpa [h] using yes
  · simpa [h] using no

theorem get {k k' : World → Eval α} (h : ∀ W W', W.Under W' → SameEnd (k W W) (k' W' W')) :
    Follows (MonadState.get >>= k) (MonadState.get >>= k') := h

theorem modify {g g' : World → World} (h : ∀ W W', W.Under W' → (g W).Under (g' W')) :
    Follows (modify g) (modify g') := fun W W' under => .done () (h W W' under)

theorem known (a : Option α) : Follows (Eval.known a) (Eval.known a) := by
  cases a with
  | none => exact undefined _
  | some a => exact pure a

theorem load (a : Word) : Follows (Eval.load a) (Eval.load a) := by
  intro W W' under
  cases found : W.memory.load? a.address with
  | none =>
    rw [load_of_none found, load_of_none (by rw [under.memory, found]), under.output]
    exact .halt _
  | some w =>
    rw [load_of_some found, load_of_some (by rw [under.memory, found])]
    exact .done w under

theorem store (a w : Word) : Follows (Eval.store a w) (Eval.store a w) := by
  intro W W' under
  cases found : W.memory.store? a.address w with
  | none =>
    rw [store_of_none found, store_of_none (by rw [under.memory, found]), under.output]
    exact .halt _
  | some memory =>
    rw [store_of_some found, store_of_some (by rw [under.memory, found])]
    exact .done () ⟨under.globals, rfl, under.free, under.output⟩

theorem printLine (line : String) : Follows (Eval.printLine line) (Eval.printLine line) :=
  modify fun _ _ under => ⟨under.globals, under.memory, under.free, by simp [under.output]⟩

theorem forM {as : List α} {f f' : α → Eval Unit} (h : ∀ a ∈ as, Follows (f a) (f' a)) :
    Follows (as.forM f) (as.forM f') := by
  induction as with
  | nil => exact pure ()
  | cons a as ih =>
    rw [List.forall_mem_cons] at h
    exact bind h.1 fun _ => ih h.2

end Eval.Follows

open Eval (Follows)

theorem follows_readVar (locals : Bindings) (x : String) :
    Follows (readVar locals x) (readVar locals x) := by
  refine .get fun W W' under => ?_
  cases own : locals.lookup x with
  | some w => exact .done w under
  | none =>
    rw [Option.none_or, Option.none_or]
    cases found : W.globals.lookup x with
    | none => exact .undefined _
    | some w =>
      rw [under.globals found]
      exact .done w under

theorem follows_assignVar (locals : Bindings) (x : String) (w : Word) :
    Follows (assignVar locals x w) (assignVar locals x w) := by
  refine .ite (.pure _) (.get fun W W' under => ?_)
  cases found : W.globals.lookup x with
  | none => exact .undefined _
  | some v =>
    rw [under.globals found]
    exact .done _ (under.setGlobal found w)

/-! ## §3 Expressions -/

variable {q q' : Program} {invoke invoke' : Invoke} {names : List String}

/-- A function of a program is called in the same way where more is defined. -/
def FollowsCalls (q : Program) (invoke invoke' : Invoke) : Prop :=
  ∀ ⦃symbol f⦄, (symbol, f) ∈ Image.functionsOf q → ∀ args, Follows (invoke f args) (invoke' f args)

namespace Program

theorem class?_mono (within : q.defs ⊆ q'.defs) (resolved : q'.IsResolved) {f : String}
    {c : ClassDef} (h : q.class? f = some c) : q'.class? f = some c := by
  obtain ⟨mem, rfl⟩ := mem_of_class? h
  refine find?_of_nodup resolved.classes ?_
  exact List.cons_subset_cons _ (classes_mono within) mem

theorem classOf?_mono (within : q.defs ⊆ q'.defs) (resolved : q'.IsResolved) {o : Expr}
    {c : ClassDef} (h : q.classOf? o = some c) : q'.classOf? o = some c := by
  obtain ⟨name, typed, found⟩ := Option.bind_eq_some_iff.1 h
  exact Option.bind_eq_some_iff.2 ⟨name, typed, class?_mono within resolved found⟩

/-- A name that stands for a function still does so: no class has it. -/
theorem function?_mono (within : q.defs ⊆ q'.defs) (resolved : q'.IsResolved) {f : String}
    {d : FunDef} (h : q.function? f = some d) : q'.class? f = none ∧ q'.function? f = some d := by
  have name : d.name = f := by simpa using List.find?_some h
  subst name
  have mem : d ∈ q'.functions := functions_mono within (List.mem_of_find?_eq_some h)
  exact ⟨resolved.apart d mem, find?_of_nodup resolved.functions mem⟩

end Program

theorem ClassDef.follows_construct (calls : FollowsCalls q invoke invoke') {c : ClassDef}
    (hc : c ∈ q.allClasses) : Follows (c.construct invoke) (c.construct invoke') := by
  refine .get fun W W' under => ?_
  rw [under.free]
  refine Follows.bind (.forM fun _ _ => .store _ _) (fun _ => .bind (.modify ?_) fun _ =>
    .bind (calls (Program.mem_functionsOf_init hc) _) fun _ => .pure _) W W' under
  exact fun _ _ under => ⟨under.globals, under.memory, rfl, under.output⟩

theorem Expr.follows_evalAll {locals : Bindings} {es : List Expr}
    (each : ∀ e ∈ es, Follows (e.eval q invoke locals) (e.eval q' invoke' locals)) :
    Follows (Expr.evalAll q invoke locals es) (Expr.evalAll q' invoke' locals es) := by
  induction es with
  | nil => exact .pure _
  | cons e es ih =>
    rw [List.forall_mem_cons] at each
    exact .bind each.1 fun _ => .bind (ih each.2) fun _ => .pure _

theorem Expr.eval_construct {vars : Bindings} {ty : Option Ty} {f : String} {c : ClassDef}
    (notPrint : f ≠ printFunction) (found : q.class? f = some c) :
    Expr.eval q invoke vars (.call ty f []) = c.construct invoke := by
  rw [Expr.eval.eq_def]
  simp only [if_neg notPrint, found]
  rfl

/-- A call of a function evaluates its arguments first. -/
theorem Expr.eval_call {vars : Bindings} {ty : Option Ty} {f : String} {args : List Expr}
    {d : FunDef} (notPrint : f ≠ printFunction) (noClass : q.class? f = none)
    (found : q.function? f = some d) :
    Expr.eval q invoke vars (.call ty f args) =
      (Expr.evalAll q invoke vars args >>= fun ws => invoke d ws) := by
  rw [Expr.eval.eq_def]
  simp only [if_neg notPrint, noClass, found]
  rfl

theorem Expr.Lowers.follows (within : q.defs ⊆ q'.defs) (resolved : q'.IsResolved)
    (calls : FollowsCalls q invoke invoke') (locals : Bindings) {e : Expr}
    {code : List Wasm.Instr} (h : e.Lowers q names code) :
    Follows (e.eval q invoke locals) (e.eval q' invoke' locals) := by
  induction h with
  | literal ty v => exact .pure _
  | readLocal ty hx => exact follows_readVar locals _
  | readGlobal ty hx known => exact follows_readVar locals _
  | neg ty operand ih => exact .bind ih fun _ => .pure _
  | not ty operand ih => exact .bind ih fun _ => .pure _
  | binary ty op hl hr ihl ihr =>
    refine .bind ihl fun a => .bind ihr fun b => ?_
    cases op.apply a b with
    | ok w => exact .pure w
    | error t => exact .trap t
  | print ty typed argument ih =>
    rw [Expr.eval, Expr.eval, if_pos rfl, if_pos rfl]
    exact .bind ih fun _ => .bind (.known _) fun _ => .bind (.printLine _) fun _ => .pure _
  | construct ty notPrint found =>
    rw [eval_construct notPrint found,
      eval_construct notPrint (Program.class?_mono within resolved found)]
    exact ClassDef.follows_construct calls (Program.mem_of_class? found).1
  | call ty code notPrint noClass found arity arguments ih =>
    obtain ⟨noClass', found'⟩ := Program.function?_mono within resolved found
    rw [eval_call notPrint noClass found, eval_call notPrint noClass' found']
    exact .bind (follows_evalAll ih) (calls (Program.mem_functionsOf_function found))
  | field ty found place receiver ih =>
    rw [Expr.eval, Expr.eval, found, Program.classOf?_mono within resolved found]
    exact .bind ih fun _ => .bind (.known _) fun _ => .load _
  | method ty code found member arity receiver arguments ih ihargs =>
    have mem := (Program.mem_of_class? (Program.class?_of_classOf? found)).1
    rw [Expr.eval, Expr.eval, found, Program.classOf?_mono within resolved found,
      Option.bind_some, member]
    exact .bind ih fun a => .bind (follows_evalAll ihargs) fun ws =>
      calls (Program.mem_functionsOf_method mem member) (a :: ws)

/-! ## §4 Statements -/

theorem Flow.follows_andThen {k k' : Bindings → Eval Flow}
    (h : ∀ locals, Follows (k locals) (k' locals)) (flow : Flow) :
    Follows (flow.andThen k) (flow.andThen k') := by
  cases flow with
  | onward locals => exact h locals
  | returned w => exact .pure _

theorem follows_repeatWhile {cond cond' : Bindings → Eval Word} {body body' : Bindings → Eval Flow}
    (test : ∀ locals, Follows (cond locals) (cond' locals))
    (round : ∀ locals, Follows (body locals) (body' locals)) (n : Nat) (locals : Bindings) :
    Follows (repeatWhile cond body n locals) (repeatWhile cond' body' n locals) := by
  induction n generalizing locals with
  | zero => exact .halt _
  | succ n ih =>
    exact .bind (test locals) fun _ =>
      .ite (.pure _) (.bind (round locals) (Flow.follows_andThen ih))

section

variable {fuel : Nat}

theorem Stmt.eval_if (c : Expr) (body : List Stmt)
    (orElse : Option (List Stmt)) (vars : Bindings) :
    Stmt.eval q invoke fuel (.if_ c body none orElse) vars =
      (c.eval q invoke vars >>= fun w =>
        if w ≠ 0 then Stmt.evalAll q invoke fuel body vars
        else Stmt.evalAll q invoke fuel (orElse.getD []) vars) := by
  cases orElse with
  | none => rfl
  | some orElse => rfl

theorem Flow.andThen_onward (flow : Flow) :
    (flow.andThen fun vars => pure (.onward vars)) = (pure flow : Eval Flow) := by
  cases flow <;> rfl

theorem Stmt.evalAll_singleton (s : Stmt) (vars : Bindings) :
    Stmt.evalAll q invoke fuel [s] vars = Stmt.eval q invoke fuel s vars := by
  have nil : Stmt.evalAll q invoke fuel [] = fun vars => pure (.onward vars) := rfl
  rw [evalAll, nil]
  simp only [Flow.andThen_onward, bind_pure]

/-- An `elif` branch is a conditional inside the `else` branch. -/
theorem Stmt.eval_elif (c d : Expr) (body other : List Stmt)
    (orElse : Option (List Stmt)) (vars : Bindings) :
    Stmt.eval q invoke fuel (.if_ c body (some (d, other)) orElse) vars =
      (c.eval q invoke vars >>= fun w =>
        if w ≠ 0 then Stmt.evalAll q invoke fuel body vars
        else Stmt.evalAll q invoke fuel [.if_ d other none orElse] vars) := by
  simp only [evalAll_singleton, eval_if]
  cases orElse with
  | none => rfl
  | some orElse => rfl

end

theorem Stmt.Lowers.follows (within : q.defs ⊆ q'.defs) (resolved : q'.IsResolved)
    (calls : FollowsCalls q invoke invoke') (fuel : Nat) {mayReturn : Bool} {n n' : Nat}
    {ss : List Stmt} {code : List Wasm.Instr} (h : Stmt.Lowers q names mayReturn n ss code n')
    (locals : Bindings) :
    Follows (Stmt.evalAll q invoke fuel ss locals) (Stmt.evalAll q' invoke' fuel ss locals) := by
  have value : ∀ {e : Expr} {code : List Wasm.Instr}, e.Lowers q names code → ∀ locals,
      Follows (e.eval q invoke locals) (e.eval q' invoke' locals) :=
    fun lowers locals => lowers.follows within resolved calls locals
  -- every statement is followed by the rest of the block
  have followed : ∀ {s : Stmt} {ss : List Stmt} {locals : Bindings},
      Follows (Stmt.eval q invoke fuel s locals) (Stmt.eval q' invoke' fuel s locals) →
      (∀ locals, Follows (Stmt.evalAll q invoke fuel ss locals)
        (Stmt.evalAll q' invoke' fuel ss locals)) →
      Follows (Stmt.evalAll q invoke fuel (s :: ss) locals)
        (Stmt.evalAll q' invoke' fuel (s :: ss) locals) :=
    fun head rest => .bind head (Flow.follows_andThen rest)
  induction h generalizing locals with
  | nil n => exact .pure _
  | pass tail ih => exact followed (.pure _) ih
  | expr v tail ih => exact followed (.bind (value v _) fun _ => .pure _) ih
  | assignLocal hx v tail ih =>
    exact followed (.bind (value v _) fun _ => follows_assignVar _ _ _) ih
  | assignGlobal hx known v tail ih =>
    exact followed (.bind (value v _) fun _ => follows_assignVar _ _ _) ih
  | assignMember found place receiver v tail ih =>
    refine followed ?_ ih
    rw [Stmt.eval, Stmt.eval, found, Program.classOf?_mono within resolved found]
    exact .bind (value receiver _) fun _ => .bind (.known _) fun _ => .bind (value v _) fun _ =>
      .bind (.store _ _) fun _ => .pure _
  | return_ allowed v tail ih => exact followed (.bind (value v _) fun _ => .pure _) ih
  | while_ condition round tail ihround ih =>
    exact followed (follows_repeatWhile (value condition) ihround fuel _) ih
  | if_ condition yes no tail ihyes ihno ih =>
    refine followed ?_ ih
    rw [Stmt.eval_if, Stmt.eval_if]
    exact .bind (value condition _) fun _ => .ite (ihyes _) (ihno _)
  | elif condition yes no tail ihyes ihno ih =>
    refine followed ?_ ih
    rw [Stmt.eval_elif, Stmt.eval_elif]
    exact .bind (value condition _) fun _ => .ite (ihyes _) (ihno _)

/-! ## §5 Programs and their modules -/

namespace Program

theorem initialWorld_under (within : q.defs ⊆ q'.defs) (resolved : q'.IsResolved) (pages : Nat) :
    (q.initialWorld pages).Under (q'.initialWorld pages) where
  globals := by
    intro x w found
    obtain ⟨v, hv, eq⟩ := List.mem_map.1 (mem_of_lookup found)
    cases eq
    have distinct : ((q'.initialWorld pages).globals.map (·.1)).Nodup := by
      rw [initialWorld, List.map_map]
      exact resolved.globals
    exact lookup_of_nodup distinct (List.mem_map_of_mem (globalVars_mono within hv))
  memory := rfl
  free := rfl
  output := rfl

theorem follows_invoke (within : q.defs ⊆ q'.defs) (resolved : q.IsResolved)
    (resolved' : q'.IsResolved) (fuel depth : Nat) :
    FollowsCalls q (q.invoke fuel depth) (q'.invoke fuel depth) := by
  induction depth with
  | zero => exact fun _ _ _ _ => .trap _
  | succ depth ih =>
    intro symbol f mem args
    obtain ⟨code, n', body⟩ := resolved.bodies _ mem 0
    refine .bind (body.follows within resolved' ih fuel _) fun flow => ?_
    cases flow with
    | onward locals => exact .pure 0
    | returned w => exact .pure w

theorem follows_runStmts (within : q.defs ⊆ q'.defs) (resolved : q'.IsResolved)
    (calls : FollowsCalls q invoke invoke') (fuel : Nat) {n n' : Nat} {ss : List Stmt}
    {code : List Wasm.Instr} (h : Stmt.Lowers q [] false n ss code n') :
    Follows (q.runStmts invoke fuel ss) (q'.runStmts invoke' fuel ss) := by
  refine .bind (h.follows within resolved calls fuel _) fun flow => ?_
  cases flow with
  | onward locals => exact .pure ()
  | returned w => exact .halt _

theorem follows_main (within : q.defs ⊆ q'.defs) (same : q'.stmts = q.stmts)
    (resolved : q.IsResolved) (resolved' : q'.IsResolved)
    (calls : FollowsCalls q invoke invoke') (fuel : Nat) :
    Follows (q.main invoke fuel) (q'.main invoke' fuel) := by
  obtain ⟨code, n', stmts⟩ := resolved.stmts 0
  rw [main, main, same]
  split
  · rename_i e last
    rw [← List.dropLast_append_getLast? _ last] at stmts
    obtain ⟨c, c', k, -, init, value⟩ := stmts.append
    cases value with
    | expr value tail =>
      exact .bind (follows_runStmts within resolved' calls fuel init) fun _ =>
        .bind (value.follows within resolved' calls _) fun _ => .pure _
  · exact .bind (follows_runStmts within resolved' calls fuel stmts) fun _ => .pure _

/-- A program does the same where more is defined, if all names in it are known. -/
theorem evaluate_mono (within : q.defs ⊆ q'.defs) (same : q'.stmts = q.stmts)
    (resolved : q.IsResolved) (resolved' : q'.IsResolved) (limits : Limits)
    (defined : q.evaluate limits ≠ .error .undefined) : q'.evaluate limits = q.evaluate limits := by
  have calls := follows_invoke within resolved resolved' limits.fuel limits.depth
  have ends := follows_main within same resolved resolved' calls limits.fuel _ _
    (initialWorld_under within resolved' limits.pages)
  rw [evaluate] at defined
  rw [evaluate, evaluate]
  generalize q.main _ _ _ = first at ends defined ⊢
  generalize q'.main _ _ _ = second at ends ⊢
  cases ends with
  | undefined => exact absurd rfl defined
  | halt h => rfl
  | done value under =>
    rw [Fallible.ok_bind, Fallible.ok_bind]
    dsimp only
    rw [under.output]

end Program

theorem Program.HasWords.mono (within : q.defs ⊆ q'.defs) (h : q'.HasWords) : q.HasWords where
  globals v hv := h.globals v (globalVars_mono within hv)
  functions f hf := h.functions f (functions_mono within hf)
  classes c hc := h.classes c (classes_mono within hc)
  methods c hc := h.methods c (classes_mono within hc)

theorem Program.ParamsAtMost.mono (within : q.defs ⊆ q'.defs) {n : Nat} (h : q'.ParamsAtMost n) :
    q.ParamsAtMost n :=
  ⟨fun f hf => h.1 f (functions_mono within hf), fun c hc => h.2 c (classes_mono within hc)⟩

/-- A program is checked and compiled, and so is the program with one more definition. Checking
writes the same types into the definitions and statements that both have, and the two modules cannot
be told apart by running them: they print the same and give the same value, or stop with the same
trap, or both go on. The same holds of their texts, if no function has more parameters than the host
takes. -/
theorem Program.run_insert {p q q' : Program} {i : Nat} {d : Def} (words : (p.insert i d).HasWords)
    (checked : p.check = .ok q) (checked' : (p.insert i d).check = .ok q') :
    (∃ d₁, q' = q.insert i d₁) ∧
      ∃ image image', Image.ofProgram q = .ok image ∧ Image.ofProgram q' = .ok image' ∧
        ∀ limits : Limits, 1 ≤ limits.pages → limits.pages ≤ Wasm.Host.maxPages →
          image'.toModule.run limits = image.toModule.run limits ∧
            ((p.insert i d).ParamsAtMost Wasm.maxParams →
              Wasm.run image'.text limits = Wasm.run image.text limits) := by
  have inserted := check_insert checked checked'
  refine ⟨⟨_, inserted⟩, ?_⟩
  have within : p.defs ⊆ (p.insert i d).defs := List.subset_insertIdx _ _ _
  have within' : q.defs ⊆ q'.defs := by
    rw [inserted]
    exact List.subset_insertIdx _ _ _
  have same : q'.stmts = q.stmts := by
    rw [inserted]
    rfl
  have resolved := isResolved_of_check checked
  have resolved' := isResolved_of_check checked'
  have words₀ : q.HasWords := (words.mono within).congr (bare_of_check checked)
  have words' : q'.HasWords := words.congr (bare_of_check checked')
  obtain ⟨image, hi, lowers⟩ := resolved.exists_image
  obtain ⟨image', hi', lowers'⟩ := resolved'.exists_image
  refine ⟨image, image', hi, hi', fun limits positive bound => ?_⟩
  obtain ⟨run, defined⟩ := lowers.run_eq resolved words₀ positive
  obtain ⟨run', -⟩ := lowers'.run_eq resolved' words' positive
  have modules : image'.toModule.run limits = image.toModule.run limits := by
    rw [run, run', evaluate_mono within' same resolved resolved' limits defined]
  refine ⟨modules, fun small => ?_⟩
  have few : q.ParamsAtMost Wasm.maxParams := (small.mono within).congr (bare_of_check checked)
  have few' : q'.ParamsAtMost Wasm.maxParams := small.congr (bare_of_check checked')
  rw [lowers.run_text resolved words₀ few positive bound,
    lowers'.run_text resolved' words' few' positive bound, modules]

/-- A function with a variable of its own. -/
def Program.doubling : Program where
  defs := [.function ⟨"twice", [⟨"n", .int⟩], .int, [⟨"total", .int, .number 0⟩],
    [.assign (.var "total") (.binary none .add (.var none "n") (.var none "n")),
      .return_ (.var none "total")]⟩]
  stmts := [.expr (.call none "twice" [.literal none (.number 3)])]

/-- A global variable that has the name of the function's own variable, and another type, changes
nothing. -/
theorem Program.run_doubling_insert : ∃ q d image image', doubling.check = .ok q ∧
    check (doubling.insert 0 (.var ⟨"total", .bool, .bool true⟩)) = .ok (q.insert 0 d) ∧
    Image.ofProgram q = .ok image ∧ Image.ofProgram (q.insert 0 d) = .ok image' ∧
    Wasm.run image'.text ⟨1, 10, 10⟩ = Wasm.run image.text ⟨1, 10, 10⟩ := by
  generalize more : doubling.insert 0 (.var ⟨"total", .bool, .bool true⟩) = p'
  have isOk : doubling.check.isOk = true := by decide
  have isOk' : p'.check.isOk = true := by
    rw [← more]
    decide
  have words : p'.HasWords := by
    rw [← more]
    constructor
    case globals => decide
    case functions =>
      exact (by decide : ∀ f ∈ (doubling.insert 0 (.var ⟨"total", .bool, .bool true⟩)).functions,
        isSourceWord f.name = true ∧ ∀ x ∈ f.localNames, isSourceWord x = true)
    case classes => decide
    case methods => exact fun c hc => by cases hc
  have small : p'.ParamsAtMost Wasm.maxParams := by
    rw [← more]
    exact ⟨by decide, fun c hc => by cases hc⟩
  cases checked : doubling.check with
  | error e =>
    rw [checked] at isOk
    cases isOk
  | ok q =>
    cases checked' : p'.check with
    | error e =>
      rw [checked'] at isOk'
      cases isOk'
    | ok q' =>
      subst more
      obtain ⟨⟨d, rfl⟩, image, image', hi, hi', runs⟩ := run_insert words checked checked'
      exact ⟨q, d, image, image', rfl, rfl, hi, hi',
        (runs ⟨1, 10, 10⟩ (by decide) (by decide)).2 small⟩

end Serpent
