/-
Serpent.Proofs.Preservation — a compiled program does what the program means.

Statements end in more ways than expressions: control goes on, or the function returns from inside
of any number of blocks and loops. With the statements done, a function called with so many calls
left runs as it is evaluated with so many calls left, and so does a program. What the machine goes
through on the way enacts what happens in the program.

  §1 Code that has an effect
  §2 Single statements
  §3 Loops
  §4 Statements
  §5 Initial values
  §6 The functions of a module
  §7 Calls with so many calls left
  §8 Programs
  §9 Snapshots of a program
-/
import Serpent.Proofs.History
import Serpent.Proofs.Simulation

namespace Serpent

open Wasm

namespace Activation

variable {α : Type} {F : Activation} {mayReturn : Bool} {go : State → Outcome}

/-! ## §1 Code that has an effect -/

/-- Code ends as the evaluation of statements does: it goes on as `go` says with the operands
`below`, or it returns with the result on top of the stack. -/
def Ends (F : Activation) (mayReturn : Bool) (go : State → Outcome) (below : List Word)
    (flow : Flow) (V : World) (u : View) (o : Outcome) : Prop :=
  match flow with
  | .onward vars => u = F.view vars V ∧ ∃ locals store, o = go ⟨below, locals, store⟩ ∧
      HoldsLocals F.site.names vars locals ∧ HoldsWorld F.p V store
  | .returned w => mayReturn = true ∧ (∃ vars, u = F.view vars V) ∧
      ∃ s, o = .returned s ∧ s.stack.take 1 = [w] ∧ u.HeldBy F.p s

/-- Code takes `pre` from the stack and has the effect of a computation on the variables, and what
the machine goes through enacts what happens. -/
def RunsFlow (F : Activation) (mayReturn : Bool) (go : State → Outcome) (pre : List Word)
    (code : List Instr) (x : Bindings → Watch Flow) : Prop :=
  ∀ vars below locals store W after, HoldsLocals F.site.names vars locals →
    HoldsWorld F.p W store →
      F.Does (F.view vars W) W (x vars) (F.trace after code ⟨pre ++ below, locals, store⟩)
        (F.run code ⟨pre ++ below, locals, store⟩) (F.Ends mayReturn go below)

/-- The operands outside of a structured instruction come back behind it. -/
theorem Does.restore {v : View} {W : World} {x : Watch Flow} {T : List Snapshot} {o : Outcome}
    (h : F.Does v W x T o (F.Ends mayReturn .next [])) (below : List Word) :
    F.Does v W x T (o.restore below) (F.Ends mayReturn .next below) := by
  refine h.imp (fun _ halts => Halt.Is.andThen halts _) fun flow V u ends => ?_
  cases flow with
  | onward vars =>
    obtain ⟨seen, locals, store, rfl, holds⟩ := ends
    exact ⟨seen, locals, store, rfl, holds⟩
  | returned w =>
    obtain ⟨allowed, seen, s, rfl, holds⟩ := ends
    exact ⟨allowed, seen, s, rfl, holds⟩

namespace RunsFlow

/-- The value of an expression is there for the code that follows it. -/
theorem bind {pre : List Word} {code code' : List Instr} {x : Bindings → Watch α}
    {k : α → Bindings → Watch Flow} {mid : α → List Word}
    (first : ∀ vars, F.Runs vars pre code (x vars) mid)
    (rest : ∀ a, F.RunsFlow mayReturn go (mid a) code' (k a)) :
    F.RunsFlow mayReturn go pre (code ++ code') (fun vars => x vars >>= fun a => k a vars) := by
  intro vars below locals store W after hlocals hworld
  rw [F.trace_append, F.run_append]
  refine (first vars below locals store W (code' ++ after) hlocals hworld).bind
    fun a V u _ ⟨seen, locals', store', eq, hlocals', hworld'⟩ => ?_
  rw [seen, eq]
  exact rest a vars below locals' store' V after hlocals' hworld'

/-- Code behind code is reached unless the function returns before it. -/
theorem seq {pre : List Word} {code code' : List Instr} {x y : Bindings → Watch Flow}
    (first : F.RunsFlow mayReturn .next pre code x) (rest : F.RunsFlow mayReturn go [] code' y) :
    F.RunsFlow mayReturn go pre (code ++ code')
      (fun vars => x vars >>= fun flow => flow.watchThen y) := by
  intro vars below locals store W after hlocals hworld
  rw [F.trace_append, F.run_append]
  refine (first vars below locals store W (code' ++ after) hlocals hworld).bind
    fun flow V u _ ends => ?_
  cases flow with
  | onward vars' =>
    obtain ⟨seen, locals', store', eq, hlocals', hworld'⟩ := ends
    rw [seen, eq]
    exact rest vars' below locals' store' V after hlocals' hworld'
  | returned w =>
    obtain ⟨allowed, seen, s, eq, onTop, held⟩ := ends
    rw [eq]
    exact ⟨u, .nil u, allowed, seen, s, rfl, onTop, held⟩

/-! ## §2 Single statements -/

theorem nothing : F.RunsFlow mayReturn .next [] [] (fun vars => pure (.onward vars)) :=
  fun _ _ locals store _ _ hlocals hworld =>
    ⟨_, .nil _, rfl, locals, store, rfl, hlocals, hworld⟩

/-- The value of an expression statement is put where no variable is. -/
theorem scratch (w : Word) : F.RunsFlow mayReturn .next [w] [.localSet scratchLocal]
    (fun vars => pure (.onward vars)) :=
  fun _ _ _ store _ after hlocals hworld =>
    ⟨_, enacts_of_isQuiet (by simp [Instr.isQuiet, Instr.isSimple]) rfl ⟨hlocals, hworld⟩ after,
      rfl, _, store, rfl, hlocals.setOther scratchLocal (by decide) w, hworld⟩

theorem return_ (w : Word) : F.RunsFlow true .next [w] [.return_] (fun vars => do
    Watch.note F.site vars (.returning w)
    return .returned w) := by
  intro vars below locals store W after hlocals hworld
  have held : (F.view vars W).HeldBy F.p ⟨[w] ++ below, locals, store⟩ := ⟨hlocals, hworld⟩
  rw [trace, Instr.trace_singleton]
  exact ⟨_, .step held (.returning rfl), rfl, ⟨vars, rfl⟩, _, rfl, rfl, held⟩

theorem setLocal {x : String} (hx : x ∈ F.site.names) (w : Word) :
    F.RunsFlow mayReturn .next [w] [.localSet (varSymbol x)]
      (fun vars => watchAssign F.site vars x w) := by
  intro vars below locals store W after hlocals hworld
  have known : (vars.lookup x).isSome = true := lookup_isSome_iff.2 (hlocals.keys ▸ hx)
  have held : (F.view vars W).HeldBy F.p ⟨[w] ++ below, locals, store⟩ := ⟨hlocals, hworld⟩
  dsimp only
  rw [watchAssign, assignVar, if_pos known, trace, Instr.trace_singleton]
  exact ⟨_, .step held (.setLocal rfl rfl), rfl, _, store, rfl, hlocals.setVar x w, hworld⟩

theorem setGlobal {x : String} (hx : x ∉ F.site.names) (known : x ∈ F.p.globalVars.map (·.name))
    (ident : isSourceWord x = true) (w : Word) :
    F.RunsFlow mayReturn .next [w] [.globalSet (varSymbol x)]
      (fun vars => watchAssign F.site vars x w) := by
  intro vars below locals store W after hlocals hworld
  have none : ¬(vars.lookup x).isSome = true := by
    rw [lookup_isSome_iff, hlocals.keys]
    exact hx
  obtain ⟨v, hv⟩ := exists_lookup (hworld.keys ▸ known)
  have assigned : (liftM (assignVar vars x w) : Watch Flow).outcome W =
      .ok (.onward vars, { W with globals := W.globals.set x w }) := by
    rw [Watch.outcome_lift, assignVar, if_neg none, Eval.bind_of_ok (V := W) (a := W) rfl, hv,
      Eval.bind_of_ok (V := W) (a := v) rfl]
    rfl
  have held : (F.view vars W).HeldBy F.p ⟨[w] ++ below, locals, store⟩ := ⟨hlocals, hworld⟩
  dsimp only
  rw [Does, watchAssign, (Watch.bind_of_ok assigned).1, (Watch.bind_of_ok assigned).2, trace,
    Instr.trace_singleton]
  exact ⟨_, .step held (.setGlobal rfl rfl), rfl, locals, _, rfl, hlocals,
    hworld.setGlobal ident w⟩

/-- A field gets a new value. -/
theorem store (a : Word) {k : Word} (field : F.p.HasPlace k) (w : Word) :
    F.RunsFlow mayReturn .next [w, a + k] [.store] (fun vars => do
    Watch.note F.site vars (.access a k)
    Eval.store (a + k) w
    Watch.note F.site vars .assigned
    return .onward vars) := by
  intro vars below locals store W after hlocals hworld
  have held : (F.view vars W).HeldBy F.p ⟨[w, a + k] ++ below, locals, store⟩ := ⟨hlocals, hworld⟩
  rw [Does, (Watch.bind_of_ok (Watch.outcome_note ..)).1,
    (Watch.bind_of_ok (Watch.outcome_note ..)).2, trace, Instr.trace_singleton, run_singleton,
    Instr.run_of_isStep rfl]
  simp only [State.step, List.cons_append, List.nil_append, hworld.memory]
  cases found : W.memory.store? (a + k).address w with
  | some memory =>
    have stored : (liftM (Eval.store (a + k) w) : Watch Unit).outcome W =
        .ok ((), { W with memory }) := Eval.store_of_some found
    rw [(Watch.bind_of_ok stored).1, (Watch.bind_of_ok stored).2]
    exact ⟨_, .step held (.write field rfl found rfl), rfl, locals, _, rfl, hlocals,
      hworld.setMemory memory⟩
  | none =>
    have stored : (liftM (Eval.store (a + k) w) : Watch Unit).outcome W =
        .error (.trap .outOfBounds W.output) := Eval.store_of_none found
    rw [(Watch.bind_of_error stored).1, (Watch.bind_of_error stored).2, hworld.output]
    exact ⟨_, .step held (.miss field rfl found), rfl⟩

/-- A conditional runs one of its branches, which sees no operand outside of it. -/
theorem ifElse {thn els : List Instr} {x y : Bindings → Watch Flow}
    (yes : F.RunsFlow mayReturn .next [] thn x) (no : F.RunsFlow mayReturn .next [] els y)
    (w : Word) : F.RunsFlow mayReturn .next [w] [.ifElse thn els]
      (fun vars => if w ≠ 0 then x vars else y vars) := by
  intro vars below locals store W after hlocals hworld
  have held : (F.view vars W).HeldBy F.p ⟨[w] ++ below, locals, store⟩ := ⟨hlocals, hworld⟩
  have first : F.Enacts (F.view vars W) []
      [⟨F.func, .reached (.ifElse thn els :: after), ⟨[w] ++ below, locals, store⟩⟩]
      (F.view vars W) := .step held (.quiet rfl)
  dsimp only
  rw [trace, Instr.trace_singleton, run_singleton]
  simp only [Instr.inside, Instr.run, List.cons_append, List.nil_append]
  by_cases zero : w = 0
  · rw [if_neg (not_not.2 zero), if_pos zero, if_pos zero]
    exact ((no vars [] locals store W [] hlocals hworld).restore below).after first
  · rw [if_pos zero, if_neg zero, if_neg zero]
    exact ((yes vars [] locals store W [] hlocals hworld).restore below).after first

end RunsFlow

end Activation

/-! ## §3 Loops -/

theorem Flow.watchThen_onward (flow : Flow) :
    (flow.watchThen fun vars => pure (.onward vars)) = (pure flow : Watch Flow) := by
  cases flow <;> rfl

/-- The code of one round of a loop. -/
def roundCode (leave again : String) (cond body : List Instr) : List Instr :=
  cond ++ ([.eqz, .brIf leave] ++ (body ++ [.br again]))

theorem Surroundings.whileLoop_eq (n : Nat) (cond body : List Instr) :
    whileLoop n cond body = .block (leaveLabel n)
      [.loop (againLabel n) (roundCode (leaveLabel n) (againLabel n) cond body)] := by
  simp [whileLoop, roundCode]

/-- A round that branches to the label of the loop is followed by another round. -/
theorem rounds_again {again : String} {body : State → Outcome} {k : Nat} {s s' : State}
    (h : body { s with stack := [] } = .branch again s') (trace : State → List Snapshot) :
    rounds again body (k + 1) s = rounds again body k s' ∧
      roundTrace again body trace (k + 1) s =
        trace { s with stack := [] } ++ roundTrace again body trace k s' := by
  rw [rounds, roundTrace, h]
  exact ⟨if_pos rfl, congrArg _ (if_pos rfl)⟩

/-- A round that ends otherwise is the last one. -/
theorem rounds_last {again : String} {body : State → Outcome} {s : State}
    (h : ∀ s', body { s with stack := [] } ≠ .branch again s') (k : Nat)
    (trace : State → List Snapshot) :
    rounds again body (k + 1) s = body { s with stack := [] } ∧
      roundTrace again body trace (k + 1) s = trace { s with stack := [] } := by
  rw [rounds, roundTrace]
  cases ends : body { s with stack := [] } with
  | branch l s' =>
    have other : l ≠ again := by
      rintro rfl
      exact h s' ends
    simp [other]
  | _ => exact ⟨rfl, List.append_nil _⟩

theorem Halt.Is.ne_branch {h : Halt} {o : Outcome} (is : h.Is o) (l : String) (s : State) :
    o ≠ .branch l s := by
  rintro rfl
  cases h <;> cases is

theorem Halt.Is.leave {h : Halt} {o : Outcome} (is : h.Is o) (l : String) : h.Is (o.leave l) := by
  cases h <;> cases is <;> rfl

namespace Activation

variable {F : Activation} {mayReturn : Bool}

/-- After the condition of a round, a zero leaves the loop and anything else goes on. -/
theorem run_test (F : Activation) (label : String) (w : Word) (below : List Word)
    (locals : Bindings) (store : Store) :
    F.run [.eqz, .brIf label] ⟨w :: below, locals, store⟩ =
      if w = 0 then .branch label ⟨below, locals, store⟩ else .next ⟨below, locals, store⟩ := by
  by_cases zero : w = 0
  · simp [run, Instr.runAll, Instr.run, State.step, zero, Word.ofBool]
  · simp [run, Instr.runAll, Instr.run, State.step, zero, Word.ofBool]

namespace RunsFlow

variable {go : State → Outcome} {code : List Instr} {x : Bindings → Watch Flow}

/-- Where the condition of a round fails, the round leaves the block around the loop. -/
theorem leave (label : String) (rest : List Instr) {w : Word} (zero : w = 0) :
    F.RunsFlow mayReturn (.branch label) [w] ([.eqz, .brIf label] ++ rest)
      (fun vars => pure (.onward vars)) := by
  intro vars below locals store W after hlocals hworld
  have test := F.run_test label w below locals store
  rw [if_pos zero] at test
  rw [List.singleton_append, F.trace_append, F.run_append, test]
  exact ⟨_, (enacts_of_isQuiet (by simp [Instr.isQuiet, Instr.isSimple]) rfl ⟨hlocals, hworld⟩
    _).append (.nil _), rfl, locals, store, rfl, hlocals, hworld⟩

/-- Otherwise the body of the loop follows. -/
theorem stay (label : String) {w : Word} (other : w ≠ 0)
    (rest : F.RunsFlow mayReturn go [] code x) :
    F.RunsFlow mayReturn go [w] ([.eqz, .brIf label] ++ code) x := by
  intro vars below locals store W after hlocals hworld
  have test := F.run_test label w below locals store
  rw [if_neg other] at test
  rw [List.singleton_append, trace_append_of_next test, run_append_of_next test]
  exact (rest vars below locals store W after hlocals hworld).after
    (enacts_of_isQuiet (by simp [Instr.isQuiet, Instr.isSimple]) rfl ⟨hlocals, hworld⟩ _)

theorem br (label : String) :
    F.RunsFlow mayReturn (.branch label) [] [.br label] (fun vars => pure (.onward vars)) :=
  fun _ _ locals store _ after hlocals hworld =>
    ⟨_, enacts_of_isQuiet (by simp [Instr.isQuiet, Instr.isSimple]) rfl ⟨hlocals, hworld⟩ after,
      rfl, locals, store, rfl, hlocals, hworld⟩

end RunsFlow

/-- The rounds of a loop run as they are evaluated; where the condition fails, the loop leaves the
block around it. -/
theorem run_rounds {leave again : String} (differ : leave ≠ again) {cond body : List Instr}
    {c : Bindings → Watch Word} {b : Bindings → Watch Flow}
    (condition : ∀ vars, F.Runs vars [] cond (c vars) (fun w => [w]))
    (round : F.RunsFlow mayReturn .next [] body b) (k : Nat) (vars : Bindings)
    (stack : List Word) {locals : Bindings} {store : Store} {W : World}
    (hlocals : HoldsLocals F.site.names vars locals) (hworld : HoldsWorld F.p W store) :
    F.Does (F.view vars W) W (watchWhile c b k vars)
      (roundTrace again (F.run (roundCode leave again cond body))
        (F.trace [] (roundCode leave again cond body)) k ⟨stack, locals, store⟩)
      (rounds again (F.run (roundCode leave again cond body)) k ⟨stack, locals, store⟩)
      (F.Ends mayReturn (.branch leave) []) := by
  induction k generalizing vars stack locals store W with
  | zero => exact ⟨_, .nil _, rfl⟩
  | succ k ih =>
    have inner := round.seq (.br again)
    simp only [Flow.watchThen_onward, bind_pure] at inner
    have last := fun (other : ∀ s, F.run (roundCode leave again cond body) ⟨[], locals, store⟩ ≠
        .branch again s) => rounds_last (s := ⟨stack, locals, store⟩) other k
          (F.trace [] (roundCode leave again cond body))
    obtain ⟨u, tests, tested⟩ := condition vars [] locals store W
      ([.eqz, .brIf leave] ++ (body ++ [.br again]) ++ []) hlocals hworld
    rw [List.nil_append] at tests tested
    rw [Does, watchWhile]
    cases hc : (c vars).outcome W with
    | error h =>
      rw [hc] at tested
      have halts : h.Is (F.run (roundCode leave again cond body) ⟨[], locals, store⟩) := by
        rw [roundCode, F.run_append]
        exact Halt.Is.andThen tested _
      rw [(Watch.bind_of_error hc).1, (Watch.bind_of_error hc).2, (last (halts.ne_branch again)).1,
        (last (halts.ne_branch again)).2]
      refine ⟨u, ?_, halts⟩
      rw [roundCode, F.trace_append, Halt.Is.goOn tested, List.append_nil]
      exact tests
    | ok value =>
      obtain ⟨w, W₁⟩ := value
      rw [hc] at tested
      obtain ⟨rfl, locals₁, store₁, eq, hlocals₁, hworld₁⟩ := tested
      have run_eq : F.run (roundCode leave again cond body) ⟨[], locals, store⟩ = _ :=
        run_append_of_next eq _
      have trace_eq : F.trace [] (roundCode leave again cond body) ⟨[], locals, store⟩ = _ :=
        trace_append_of_next eq [] _
      rw [(Watch.bind_of_ok hc).1, (Watch.bind_of_ok hc).2]
      by_cases zero : w = 0
      · have leaves : F.RunsFlow mayReturn (.branch leave) [w] _ _ :=
          .leave leave (body ++ [.br again]) zero
        obtain ⟨u, enacts, ends⟩ := leaves vars [] locals₁ store₁ W₁ [] hlocals₁ hworld₁
        have other : ∀ s, F.run (roundCode leave again cond body) ⟨[], locals, store⟩ ≠
            .branch again s := by
          intro s same
          obtain ⟨-, locals₂, store₂, left, -⟩ := ends
          cases (run_eq.trans left).symm.trans same
          exact differ rfl
        rw [if_pos zero, (last other).1, (last other).2]
        exact ⟨u, trace_eq ▸ tests.append enacts, run_eq ▸ ends⟩
      · obtain ⟨u, enacts, ends⟩ := RunsFlow.stay leave zero inner vars [] locals₁ store₁ W₁ []
          hlocals₁ hworld₁
        rw [if_neg zero]
        cases hb : (b vars).outcome W₁ with
        | error h =>
          rw [hb] at ends
          have other := run_eq ▸ Halt.Is.ne_branch ends again
          rw [(Watch.bind_of_error hb).1, (Watch.bind_of_error hb).2, (last other).1,
            (last other).2]
          exact ⟨u, trace_eq ▸ tests.append enacts, run_eq ▸ ends⟩
        | ok value =>
          obtain ⟨flow, W₂⟩ := value
          rw [hb] at ends
          rw [(Watch.bind_of_ok hb).1, (Watch.bind_of_ok hb).2]
          cases flow with
          | onward vars' =>
            obtain ⟨rfl, locals₂, store₂, left, hlocals₂, hworld₂⟩ := ends
            obtain ⟨ran, seen⟩ := rounds_again (k := k) (s := ⟨stack, locals, store⟩)
              (run_eq.trans left) (F.trace [] (roundCode leave again cond body))
            obtain ⟨t, later, ended⟩ := ih vars' [] hlocals₂ hworld₂
            rw [ran, seen, ← List.append_assoc]
            exact ⟨t, .append (trace_eq ▸ tests.append enacts) later, ended⟩
          | returned v =>
            obtain ⟨allowed, seen, s, left, onTop, held⟩ := ends
            have ended := run_eq.trans left
            have other : ∀ s, F.run (roundCode leave again cond body) ⟨[], locals, store⟩ ≠
                .branch again s := fun s same => by cases ended.symm.trans same
            rw [Flow.watchThen, Watch.log_pure, List.append_nil, (last other).1, (last other).2]
            exact ⟨u, trace_eq ▸ tests.append enacts, allowed, seen, s, ended, onTop, held⟩

end Activation

theorem Surroundings.leaveLabel_ne_againLabel (n : Nat) : leaveLabel n ≠ againLabel n := by
  intro same
  have := congrArg (fun label => label.toList.length) same
  simp [leaveLabel, againLabel] at this

/-- A loop runs as it is evaluated. -/
theorem Activation.RunsFlow.while_ {F : Activation} {mayReturn : Bool} (n : Nat)
    {cond body : List Instr} {c : Bindings → Watch Word} {b : Bindings → Watch Flow}
    (condition : ∀ vars, F.Runs vars [] cond (c vars) (fun w => [w]))
    (round : F.RunsFlow mayReturn .next [] body b) :
    F.RunsFlow mayReturn .next [] [Surroundings.whileLoop n cond body]
      (watchWhile c b F.fuel) := by
  intro vars below locals store W after hlocals hworld
  have held : (F.view vars W).HeldBy F.p ⟨below, locals, store⟩ := ⟨hlocals, hworld⟩
  have inside : (F.view vars W).HeldBy F.p ⟨[], locals, store⟩ := ⟨hlocals, hworld⟩
  rw [Surroundings.whileLoop_eq, trace, Instr.trace_singleton, Instr.inside, Instr.trace_singleton,
    Instr.inside, run_singleton, Instr.run, Instr.runAll_singleton, Instr.run]
  have rounds := run_rounds (Surroundings.leaveLabel_ne_againLabel n) condition round F.fuel vars []
    hlocals hworld
  refine .after (.step held (.quiet rfl)) (.after (.step inside (.quiet rfl)) (rounds.imp ?_ ?_))
  · intro h halts
    exact Halt.Is.andThen (Halt.Is.leave (Halt.Is.andThen halts _) _) _
  · intro flow V u ends
    cases flow with
    | onward vars' =>
      obtain ⟨seen, locals', store', eq, holds⟩ := ends
      refine ⟨seen, locals', store',
        (congrArg (fun o => ((Outcome.restore [] o).leave _).restore below) eq).trans ?_, holds⟩
      simp [Outcome.restore, Outcome.andThen, Outcome.leave]
    | returned w =>
      obtain ⟨allowed, seen, s, eq, holds⟩ := ends
      exact ⟨allowed, seen, s,
        congrArg (fun o => ((Outcome.restore [] o).leave _).restore below) eq, holds⟩

/-! ## §4 Statements -/

section

variable {p : Program} {call : Call} {fuel : Nat} {site : Site}

theorem Stmt.watch_member {o : Expr} (e : Expr) {x : String} {c : ClassDef} {k : Word}
    (found : p.classOf? o = some c) (place : c.place? x = some k) (vars : Bindings) :
    Stmt.watch p call fuel site (.assign (.member o x) e) vars =
      (o.watch p call site vars >>= fun a => pure () >>= fun _ =>
        e.watch p call site vars >>= fun w => do
          Watch.note site vars (.access a k)
          Eval.store (a + k) w
          Watch.note site vars .assigned
          return .onward vars) := by
  rw [watch, found, Option.bind_some, place]
  rfl

theorem Stmt.watch_if (c : Expr) (body : List Stmt) (orElse : Option (List Stmt))
    (vars : Bindings) : Stmt.watch p call fuel site (.if_ c body none orElse) vars =
      (c.watch p call site vars >>= fun w =>
        if w ≠ 0 then Stmt.watchAll p call fuel site body vars
        else Stmt.watchAll p call fuel site (orElse.getD []) vars) := by
  cases orElse with
  | none => rfl
  | some orElse => rfl

theorem Stmt.watchAll_singleton (s : Stmt) (vars : Bindings) :
    Stmt.watchAll p call fuel site [s] vars = Stmt.watch p call fuel site s vars := by
  have nil : Stmt.watchAll p call fuel site [] = fun vars => pure (.onward vars) := rfl
  rw [watchAll, nil]
  simp only [Flow.watchThen_onward, bind_pure]

/-- An `elif` branch is a conditional inside the `else` branch. -/
theorem Stmt.watch_elif (c d : Expr) (body other : List Stmt) (orElse : Option (List Stmt))
    (vars : Bindings) : Stmt.watch p call fuel site (.if_ c body (some (d, other)) orElse) vars =
      (c.watch p call site vars >>= fun w =>
        if w ≠ 0 then Stmt.watchAll p call fuel site body vars
        else Stmt.watchAll p call fuel site [.if_ d other none orElse] vars) := by
  simp only [watchAll_singleton, watch_if]
  cases orElse with
  | none => rfl
  | some orElse => rfl

end

/-- The code of statements has their effect. -/
theorem Stmt.Lowers.runs {F : Activation} {call : Call} {mayReturn : Bool}
    (resolved : F.p.IsResolved) (ids : F.p.HasWords)
    (locals : ∀ x ∈ F.site.names, isSourceWord x = true) (links : F.Links call) {n n' : Nat}
    {ss : List Stmt} {code : List Instr}
    (h : Stmt.Lowers F.p F.site.names mayReturn n ss code n') :
    F.RunsFlow mayReturn .next [] code (Stmt.watchAll F.p call F.fuel F.site ss) := by
  have value : ∀ {e : Expr} {code : List Instr}, e.Lowers F.p F.site.names code → ∀ vars,
      F.Runs vars [] code (e.watch F.p call F.site vars) (fun w => [w]) :=
    fun lowers vars => lowers.runs resolved ids locals links
  -- every statement is followed by the rest of the block
  have followed : ∀ {s : Stmt} {ss : List Stmt} (first : List Instr) {rest : List Instr},
      F.RunsFlow mayReturn .next [] first (Stmt.watch F.p call F.fuel F.site s) →
      F.RunsFlow mayReturn .next [] rest (Stmt.watchAll F.p call F.fuel F.site ss) →
      F.RunsFlow mayReturn .next [] (first ++ rest)
        (Stmt.watchAll F.p call F.fuel F.site (s :: ss)) :=
    fun _ _ head rest => head.seq rest
  induction h with
  | nil n => exact .nothing
  | pass tail ih => exact followed [] .nothing ih
  | expr v tail ih =>
    rw [List.append_cons]
    exact followed _ (.bind (value v) .scratch) ih
  | assignLocal hx v tail ih =>
    rw [List.append_cons]
    exact followed _ (.bind (value v) (.setLocal hx)) ih
  | assignGlobal hx known v tail ih =>
    rw [List.append_cons]
    obtain ⟨x, mem, rfl⟩ := List.mem_map.1 known
    exact followed _ (.bind (value v) (.setGlobal hx known (ids.globals x mem))) ih
  | @assignMember n n' o e x c k ss self code rest found place receiver v tail ih =>
    have code_eq : self ++ [Instr.const k, .binary .add] ++ code ++ Instr.store :: rest =
        (self ++ ([Instr.const k, .binary .add] ++ (code ++ [Instr.store]))) ++ rest := by
      simp
    rw [code_eq]
    refine followed _ ?_ ih
    rw [funext (Stmt.watch_member e found place)]
    exact .bind (value receiver) fun a => .bind (fun _ => .offset a k) fun _ =>
      .bind (fun vars => (value v vars).frame [a + k]) fun w =>
        .store a (Program.hasPlace found place) w
  | return_ allowed v tail ih =>
    cases allowed
    rw [List.append_cons]
    exact followed _ (.bind (value v) .return_) ih
  | @while_ n n₁ n' c body ss cond inner rest condition round tail ihround ih =>
    exact followed [_] (.while_ n (value condition) ihround) ih
  | @if_ n n₁ n₂ n' c body ss orElse cond thn els rest condition yes no tail ihyes ihno ih =>
    rw [List.append_cons]
    refine followed _ ?_ ih
    rw [funext (Stmt.watch_if c body orElse)]
    exact .bind (value condition) (.ifElse ihyes ihno)
  | @elif n n₁ n₂ n' c d body other ss orElse cond thn els rest condition yes no tail ihyes ihno
      ih =>
    rw [List.append_cons]
    refine followed _ ?_ ih
    rw [funext (Stmt.watch_elif c d body other orElse)]
    exact .bind (value condition) (.ifElse ihyes ihno)

/-! ## §5 Initial values -/

/-- Named words after variables have got their initial values. -/
def Wasm.Bindings.assign (b : Bindings) (vars : List VarDef) : Bindings :=
  vars.foldl (fun b v => b.set v.name v.value.word) b

/-- Variables that are zero at first have their initial values in the end. -/
theorem Wasm.Bindings.assign_zero (before : Bindings) (vars : List VarDef)
    (distinct : (before.map (·.1) ++ vars.map (·.name)).Nodup) :
    Bindings.assign (before ++ vars.map fun v => (v.name, 0)) vars =
      before ++ vars.map fun v => (v.name, v.value.word) := by
  induction vars generalizing before with
  | nil => rfl
  | cons v vars ih =>
    rw [List.map_cons, List.nodup_append, List.nodup_cons] at distinct
    obtain ⟨hbefore, ⟨hv, hvars⟩, apart⟩ := distinct
    have first : (before ++ (v.name, (0 : Word)) :: vars.map fun v => (v.name, 0)).set v.name
        v.value.word = (before ++ [(v.name, v.value.word)]) ++ vars.map fun v => (v.name, 0) := by
      have old : Bindings.set before v.name v.value.word = before :=
        Bindings.set_of_notMem (fun mem => apart _ mem _ List.mem_cons_self rfl) _
      have new : Bindings.set (vars.map fun v => (v.name, 0)) v.name v.value.word =
          vars.map fun v => (v.name, 0) :=
        Bindings.set_of_notMem (by rw [List.map_map]; exact hv) _
      rw [Bindings.set] at old new ⊢
      rw [List.map_append, List.map_cons, old, new, if_pos rfl, List.append_assoc]
      rfl
    rw [List.map_cons, Bindings.assign, List.foldl_cons, first, ← Bindings.assign, ih]
    · rw [List.append_assoc]
      rfl
    · rw [List.map_append, List.append_assoc, List.nodup_append]
      exact ⟨hbefore, List.nodup_cons.2 ⟨hv, hvars⟩, apart⟩

namespace Activation

variable {F : Activation}

/-- The code of initial values gives them to the local variables. -/
theorem enacts_initLocals {symbol : String} {f : FunDef} (inside : F.site = some f)
    (function : (symbol, f) ∈ Image.functionsOf F.p) (vars : List VarDef)
    (within : ∀ d ∈ vars, d ∈ f.locals) {b locals : Bindings} (below : List Word) {store : Store}
    {W : World} (hlocals : HoldsLocals F.site.names b locals) (hworld : HoldsWorld F.p W store)
    (after : List Instr) :
    ∃ locals', F.Enacts (F.view b W) []
        (F.trace after (vars.flatMap fun v => [.const v.value.word, .localSet (varSymbol v.name)])
          ⟨below, locals, store⟩) (F.view (b.assign vars) W) ∧
      F.run (vars.flatMap fun v => [.const v.value.word, .localSet (varSymbol v.name)])
        ⟨below, locals, store⟩ = .next ⟨below, locals', store⟩ ∧
      HoldsLocals F.site.names (b.assign vars) locals' := by
  induction vars generalizing b locals with
  | nil => exact ⟨locals, .nil _, rfl, hlocals⟩
  | cons d vars ih =>
    obtain ⟨locals', enacts, eq, hlocals'⟩ := ih (fun d hd => within d (by simp [hd]))
      (hlocals.setVar d.name d.value.word)
    have held : (F.view b W).HeldBy F.p ⟨below, locals, store⟩ := ⟨hlocals, hworld⟩
    have loaded : (F.view b W).HeldBy F.p ⟨d.value.word :: below, locals, store⟩ :=
      ⟨hlocals, hworld⟩
    refine ⟨locals', ?_, eq, hlocals'⟩
    exact .silent_append (.step held (.quiet rfl)) (.silent_append
      (.step loaded (.initLocal inside function (within d (by simp)) rfl)) enacts)

/-- The code of initial values gives them to the global variables. -/
theorem enacts_initGlobals (vars : List VarDef) (ids : ∀ d ∈ vars, isSourceWord d.name = true)
    (within : ∀ d ∈ vars, d ∈ F.p.globalVars) {b locals : Bindings} (below : List Word)
    {store : Store} {W : World} (hlocals : HoldsLocals F.site.names b locals)
    (hworld : HoldsWorld F.p W store) (after : List Instr) :
    ∃ store', F.Enacts (F.view b W) []
        (F.trace after (vars.flatMap fun v => [.const v.value.word, .globalSet (varSymbol v.name)])
          ⟨below, locals, store⟩) (F.view b { W with globals := W.globals.assign vars }) ∧
      F.run (vars.flatMap fun v => [.const v.value.word, .globalSet (varSymbol v.name)])
        ⟨below, locals, store⟩ = .next ⟨below, locals, store'⟩ ∧
      HoldsWorld F.p { W with globals := W.globals.assign vars } store' := by
  induction vars generalizing store W with
  | nil => exact ⟨store, .nil _, rfl, hworld⟩
  | cons d vars ih =>
    obtain ⟨store', enacts, eq, hworld'⟩ := ih (fun d hd => ids d (by simp [hd]))
      (fun d hd => within d (by simp [hd]))
      (hworld.setGlobal (ids d (by simp)) d.value.word)
    have held : (F.view b W).HeldBy F.p ⟨below, locals, store⟩ := ⟨hlocals, hworld⟩
    have loaded : (F.view b W).HeldBy F.p ⟨d.value.word :: below, locals, store⟩ :=
      ⟨hlocals, hworld⟩
    refine ⟨store', ?_, eq, hworld'⟩
    exact .silent_append (.step held (.quiet rfl)) (.silent_append
      (.step loaded (.initGlobal (within d (by simp)) rfl)) enacts)

end Activation

/-- Named words under the symbols of their names. -/
theorem lookup_varSymbol (b : Bindings) (x : String) :
    (b.map fun entry => (varSymbol entry.1, entry.2)).lookup (varSymbol x) = b.lookup x := by
  induction b with
  | nil => rfl
  | cons entry b ih =>
    obtain ⟨y, w⟩ := entry
    by_cases same : x = y
    · simp [same]
    · have symbols : (varSymbol x == varSymbol y) = false := by
        simpa [varSymbol_inj] using same
      have plain : (x == y) = false := by simpa using same
      rw [List.map_cons, List.lookup_cons, List.lookup_cons, symbols, plain]
      exact ih

/-! ## §6 The functions of a module -/

section

variable {p : Program} {i : Image}

theorem Routine.Lowers.symbols {n n' : Nat} {fs : List (String × FunDef)} {rs : List Routine}
    (h : Routine.Lowers p n fs rs n') : rs.map (·.symbol) = fs.map (·.1) := by
  induction h with
  | nil n => rfl
  | cons body tail ih =>
    rw [List.map_cons, List.map_cons, ih]
    rfl

/-- Everything that becomes a routine has one. -/
theorem Routine.Lowers.exists_routine {n n' : Nat} {fs : List (String × FunDef)}
    {rs : List Routine} (h : Routine.Lowers p n fs rs n') {symbol : String} {f : FunDef}
    (mem : (symbol, f) ∈ fs) : ∃ code k k', f.routine symbol code ∈ rs ∧
      Stmt.Lowers p f.localNames true k f.body code k' := by
  induction h with
  | nil n => cases mem
  | cons body tail ih =>
    rcases List.mem_cons.1 mem with eq | mem
    · cases eq
      exact ⟨_, _, _, List.mem_cons_self, body⟩
    · obtain ⟨code, k, k', hr, hcode⟩ := ih mem
      exact ⟨code, k, k', List.mem_cons_of_mem _ hr, hcode⟩

/-- The functions of a module have the symbols of its routines and of the entry. -/
theorem Image.Lowers.names (h : i.Lowers p) : i.toModule.funcs.map (·.name) =
    (Image.functionsOf p).map (·.1) ++ [entrySymbol] := by
  obtain ⟨n, code, n', routines, -, entry⟩ := h.code
  rw [Image.toModule, List.map_append, List.map_map, ← routines.symbols, entry]
  rfl

theorem Image.Lowers.names_nodup (h : i.Lowers p) (resolved : p.IsResolved)
    (ids : p.HasWords) : (i.toModule.funcs.map (·.name)).Nodup := by
  rw [h.names, List.nodup_append]
  refine ⟨resolved.symbols_nodup ids, List.nodup_singleton _, ?_⟩
  intro x hx y hy
  obtain ⟨entry, mem, rfl⟩ := List.mem_map.1 hx
  cases List.mem_singleton.1 hy
  exact ids.symbol_ne mem (by decide)

theorem Image.callee?_importSymbol (i : Image) (pr : Printer) :
    i.toModule.callee? (importSymbol pr.name) = some (.host pr) := by
  cases pr <;> rfl

/-- The symbol of something that becomes a routine is that of its function in the module. -/
theorem Image.Lowers.callee?_eq (h : i.Lowers p) (resolved : p.IsResolved) (ids : p.HasWords)
    {symbol : String} {f : FunDef} (mem : (symbol, f) ∈ Image.functionsOf p) :
    ∃ code k k', i.toModule.callee? symbol = some (.func (f.routine symbol code).toFunc) ∧
      Stmt.Lowers p f.localNames true k f.body code k' := by
  obtain ⟨_, _, _, routines, -, -⟩ := h.code
  obtain ⟨code, k, k', hr, hcode⟩ := routines.exists_routine mem
  refine ⟨code, k, k', ?_, hcode⟩
  have found : i.toModule.func? symbol = some (f.routine symbol code).toFunc :=
    find?_of_nodup (h.names_nodup resolved ids)
      (List.mem_append_left _ (List.mem_map_of_mem hr))
  rw [Module.callee?]
  split
  · rename_i item hitem
    have named := List.find?_some hitem
    rcases List.mem_cons.1 (List.mem_of_find?_eq_some hitem) with rfl | imported
    · cases named
    · obtain ⟨pr, -, rfl⟩ := List.mem_map.1 imported
      have other : symbol ≠ importSymbol pr.name := ids.symbol_ne mem (by cases pr <;> decide)
      exact absurd (by simpa using named) other.symm
  · rw [found]
    rfl

/-! ## §7 Calls with so many calls left -/

theorem Site.names_some (f : FunDef) : Site.names (some f) = f.localNames := by
  simp [Site.names, Site.vars, FunDef.vars, FunDef.localNames, Function.comp_def]

/-- At its start, a function has its arguments, and zero for its other variables. -/
theorem FunDef.holdsLocals (f : FunDef) (symbol : String) (code : List Instr) {args : List Word}
    (arity : args.length = f.params.length) :
    HoldsLocals f.localNames (f.zeroLocals args)
      ((f.routine symbol code).toFunc.initialLocals args) where
  keys := by
    rw [zeroLocals, List.map_append, List.map_fst_zip (by simp [arity]), List.map_map]
    rfl
  lookup x ident := by
    have params : (f.params.map (varSymbol ·.name)).zip args =
        ((f.params.map (·.name)).zip args).map fun entry => (varSymbol entry.1, entry.2) := by
      rw [List.zip_map_left, List.zip_map_left, List.map_map]
      rfl
    have locals : (f.locals.map (varSymbol ·.name)).map (fun symbol => (symbol, (0 : Word))) =
        (f.locals.map fun v => (v.name, 0)).map fun entry => (varSymbol entry.1, entry.2) := by
      rw [List.map_map, List.map_map]
      rfl
    have scratch : (varSymbol x == scratchLocal) = false := by
      simpa using varSymbol_ne ident (by decide)
    have alloc : (varSymbol x == allocLocal) = false := by
      simpa using varSymbol_ne ident (by decide)
    change List.lookup (varSymbol x) (List.zip (f.params.map fun a => varSymbol a.name) args ++
      (scratchLocal, (0 : Word)) :: (allocLocal, 0) ::
        (f.locals.map fun v => varSymbol v.name).map fun symbol => (symbol, (0 : Word))) = _
    rw [zeroLocals, params, locals, List.lookup_append, List.lookup_append, lookup_varSymbol,
      List.lookup_cons, scratch, List.lookup_cons, alloc, lookup_varSymbol]
  scratch := by simp [Func.initialLocals, Routine.toFunc]
  alloc := by simp [Func.initialLocals, Routine.toFunc]

/-- The variables of a function have their initial values when its body starts. -/
theorem FunDef.assign_zeroLocals (f : FunDef) {args : List Word}
    (arity : args.length = f.params.length) (distinct : f.localNames.Nodup) :
    (f.zeroLocals args).assign f.locals = f.initialLocals args := by
  refine Bindings.assign_zero _ _ ?_
  rw [List.map_fst_zip (by simp [arity])]
  exact distinct

theorem Halt.Is.result? {h : Halt} {o : Outcome} (is : h.Is o) : o.result? = none := by
  cases h <;> cases is <;> rfl

/-- A function whose variables get their initial values before the rest of its body runs. -/
theorem Activation.enacts_visit {F : Activation} {init rest : List Instr} {args : List Word}
    {store : Store} {v v₁ u : View} {s₁ : State} {log : List Moment}
    (body : F.func.body = init ++ rest) (func : v.func = F.func)
    (held : v.HeldBy F.p ⟨[], F.func.initialLocals args, store⟩)
    (ran : F.run init ⟨[], F.func.initialLocals args, store⟩ = .next s₁)
    (first : F.Enacts v [] (F.trace (rest ++ []) init ⟨[], F.func.initialLocals args, store⟩) v₁)
    (enacts : F.Enacts v₁ log (F.trace [] rest s₁) u)
    (left : ∀ s, (F.run rest s₁).result? = some s → u.func = F.func ∧ u.HeldBy F.p s) :
    F.Enacts v log (⟨F.func, .entered, ⟨[], F.func.initialLocals args, store⟩⟩ ::
      F.func.visit F.m F.fuel (F.m.call F.fuel F.depth) (F.m.enter F.fuel F.depth) args store) u ∧
    F.run F.func.body ⟨[], F.func.initialLocals args, store⟩ = F.run rest s₁ := by
  have run_eq : F.run F.func.body ⟨[], F.func.initialLocals args, store⟩ = F.run rest s₁ := by
    rw [body]
    exact run_append_of_next ran rest
  have trace_eq := trace_append_of_next ran [] rest
  rw [← body] at trace_eq
  have visit : F.func.visit F.m F.fuel (F.m.call F.fuel F.depth) (F.m.enter F.fuel F.depth) args
      store = F.trace [] F.func.body ⟨[], F.func.initialLocals args, store⟩ ++
        (F.run F.func.body ⟨[], F.func.initialLocals args, store⟩).result?.toList.map
          fun s => ⟨F.func, .left, s⟩ := rfl
  rw [visit, trace_eq, run_eq]
  refine ⟨.silent_append (.of_border func held (.inl rfl))
    ((first.silent_append enacts).append_silent ?_), rfl⟩
  cases ended : (F.run rest s₁).result? with
  | none => exact .nil u
  | some s => exact .of_border (left s ended).1 (left s ended).2 (.inr rfl)

/-- The body of a routine answers as its function is evaluated. -/
theorem FunDef.answers {F : Activation} (resolved : F.p.IsResolved) (ids : F.p.HasWords)
    {call : Call} (links : F.Links call) {symbol : String} {f : FunDef}
    (mem : (symbol, f) ∈ Image.functionsOf F.p) {code : List Instr} (inside : F.site = some f)
    (func : F.func = (f.routine symbol code).toFunc) {n n' : Nat}
    (body : Stmt.Lowers F.p f.localNames true n f.body code n') {args : List Word}
    (arity : args.length = f.params.length) {store : Store} {W : World}
    (hworld : HoldsWorld F.p W store) :
    F.Answers f F.func args W F.building (f.watch F.p call F.fuel args)
      (F.run F.func.body ⟨[], F.func.initialLocals args, store⟩)
      (⟨F.func, .entered, ⟨[], F.func.initialLocals args, store⟩⟩ ::
        F.func.visit F.m F.fuel (F.m.call F.fuel F.depth) (F.m.enter F.fuel F.depth) args
          store) := by
  have names : F.site.names = f.localNames := by rw [inside, Site.names_some]
  have zero := f.holdsLocals symbol code arity
  rw [← names, ← func] at zero
  have start : F.view (f.zeroLocals args) W =
      ⟨some f, F.func, f.zeroLocals args, W, none, F.building⟩ := by rw [Activation.view, inside]
  obtain ⟨locals, init, ran, hlocals⟩ := Activation.enacts_initLocals inside mem f.locals
    (fun _ h => h) [] zero hworld (code ++ [.const 0] ++ [])
  rw [f.assign_zeroLocals arity (resolved.locals _ mem)] at init hlocals
  have effect : F.RunsFlow true .next [] code _ :=
    Stmt.Lowers.runs resolved ids (names ▸ ids.locals mem) links (names ▸ body)
  obtain ⟨u, enacts, ends⟩ := effect (f.initialLocals args) [] locals store W ([.const 0] ++ [])
    hlocals hworld
  rw [List.nil_append] at enacts ends
  have bodyCode : F.func.body = f.initCode ++ (code ++ [.const 0]) := by
    rw [func]
    exact List.append_assoc ..
  -- what is left is the body behind the initial values
  have visit := fun log u (seen : F.Enacts (F.view (f.initialLocals args) W) log _ u) =>
    Activation.enacts_visit bodyCode rfl ⟨zero, hworld⟩ ran init seen
  rw [Activation.Answers, ← start, FunDef.watch, (Watch.bind_of_ok (Watch.outcome_note ..)).1,
    (Watch.bind_of_ok (Watch.outcome_note ..)).2, ← inside]
  cases result : (Stmt.watchAll F.p call F.fuel F.site f.body (f.initialLocals args)).outcome W with
  | error h =>
    rw [result] at ends
    have halts : h.Is (F.run (code ++ [.const 0]) ⟨[], locals, store⟩) := by
      rw [F.run_append]
      exact Halt.Is.andThen ends _
    rw [F.trace_append, Halt.Is.goOn ends, halts.result?] at visit
    obtain ⟨seen, run_eq⟩ := visit _ u (enacts.append_silent (.nil u)) (fun s hs => by cases hs)
    rw [(Watch.bind_of_error result).1, (Watch.bind_of_error result).2, run_eq]
    exact ⟨_, u, rfl, seen, halts⟩
  | ok value =>
    obtain ⟨flow, V⟩ := value
    rw [result] at ends
    rw [(Watch.bind_of_ok result).1, (Watch.bind_of_ok result).2]
    cases flow with
    | onward vars =>
      obtain ⟨rfl, locals', store', eq, hlocals', hworld'⟩ := ends
      have held : (F.view vars V).HeldBy F.p ⟨[], locals', store'⟩ := ⟨hlocals', hworld'⟩
      rw [Activation.trace_append_of_next eq, Activation.run_append_of_next eq] at visit
      obtain ⟨seen, run_eq⟩ := visit _ _ (enacts.append (.step held .ended)) fun s hs => by
        cases hs
        exact ⟨rfl, hlocals', hworld'⟩
      rw [run_eq]
      exact ⟨_, _, rfl, seen, ⟨vars, rfl⟩, ⟨[0], locals', store'⟩, .inl rfl, rfl, hworld'⟩
    | returned w =>
      obtain ⟨-, ⟨vars, rfl⟩, s, eq, onTop, held⟩ := ends
      rw [F.trace_append, F.run_append, eq] at visit
      obtain ⟨seen, run_eq⟩ := visit _ _ (enacts.append (.nil _)) fun s hs => by
        cases hs
        exact ⟨rfl, held⟩
      rw [run_eq]
      exact ⟨_, _, rfl, seen, ⟨vars, rfl⟩, s, .inr rfl, onTop, held.world⟩

/-- With so many calls left, the functions of the module answer as they are evaluated. -/
theorem Image.Lowers.links (h : i.Lowers p) (resolved : p.IsResolved) (ids : p.HasWords)
    (fuel depth : Nat) (site : Site) (func : Func) (building : Objects) :
    Activation.Links ⟨p, i.toModule, fuel, depth, site, func, building⟩ (p.call fuel depth) := by
  induction depth generalizing site func building with
  | zero =>
    refine ⟨i.callee?_importSymbol, fun entry mem => ?_⟩
    obtain ⟨code, _, _, callee, -⟩ := h.callee?_eq resolved ids mem
    refine ⟨_, callee, List.length_map _, rfl, fun args _ store W hworld => .inr ⟨rfl, ?_, rfl⟩⟩
    exact congrArg _ hworld.output
  | succ depth ih =>
    refine ⟨i.callee?_importSymbol, fun entry mem => ?_⟩
    obtain ⟨code, _, _, callee, body⟩ := h.callee?_eq resolved ids mem
    refine ⟨_, callee, List.length_map _, rfl, fun args arity store W hworld => .inl fun B => ?_⟩
    have links := ih (some entry.2) (entry.2.routine entry.1 code).toFunc B
    have answers := FunDef.answers resolved ids links mem rfl rfl body arity hworld
    rw [Module.call, exec_eq]
    exact answers

/-! ## §8 Programs -/

/-- The code of statements is made of the code of their first and of their last ones. -/
theorem Stmt.Lowers.append {names : List String} {mayReturn : Bool} {n n' : Nat}
    {ss ts : List Stmt} {code : List Instr}
    (h : Stmt.Lowers p names mayReturn n (ss ++ ts) code n') :
    ∃ c c' k, code = c ++ c' ∧ Stmt.Lowers p names mayReturn n ss c k ∧
      Stmt.Lowers p names mayReturn k ts c' n' := by
  induction ss generalizing n code with
  | nil => exact ⟨[], code, n, rfl, .nil n, h⟩
  | cons s ss ih =>
    rw [List.cons_append] at h
    cases h with
    | pass tail =>
      obtain ⟨c, c', k, rfl, hss, hts⟩ := ih tail
      exact ⟨c, c', k, rfl, .pass hss, hts⟩
    | expr value tail =>
      obtain ⟨c, c', k, rfl, hss, hts⟩ := ih tail
      exact ⟨_, c', k, by simp, .expr value hss, hts⟩
    | assignLocal hx value tail =>
      obtain ⟨c, c', k, rfl, hss, hts⟩ := ih tail
      exact ⟨_, c', k, by simp, .assignLocal hx value hss, hts⟩
    | assignGlobal hx known value tail =>
      obtain ⟨c, c', k, rfl, hss, hts⟩ := ih tail
      exact ⟨_, c', k, by simp, .assignGlobal hx known value hss, hts⟩
    | assignMember found place receiver value tail =>
      obtain ⟨c, c', k, rfl, hss, hts⟩ := ih tail
      exact ⟨_, c', k, by simp, .assignMember found place receiver value hss, hts⟩
    | return_ allowed value tail =>
      obtain ⟨c, c', k, rfl, hss, hts⟩ := ih tail
      exact ⟨_, c', k, by simp, .return_ allowed value hss, hts⟩
    | while_ condition round tail =>
      obtain ⟨c, c', k, rfl, hss, hts⟩ := ih tail
      exact ⟨_, c', k, by simp, .while_ condition round hss, hts⟩
    | if_ condition yes no tail =>
      obtain ⟨c, c', k, rfl, hss, hts⟩ := ih tail
      exact ⟨_, c', k, by simp, .if_ condition yes no hss, hts⟩
    | elif condition yes no tail =>
      obtain ⟨c, c', k, rfl, hss, hts⟩ := ih tail
      exact ⟨_, c', k, by simp, .elif condition yes no hss, hts⟩

section

variable {F : Activation} {call : Call}

/-- At the top level there are no local variables, and control goes on behind every statement. -/
theorem Activation.runs_watchStmts (resolved : F.p.IsResolved) (ids : F.p.HasWords)
    (links : F.Links call) (top : F.site = none) {n n' : Nat} {ss : List Stmt} {code : List Instr}
    (h : Stmt.Lowers F.p F.site.names false n ss code n') :
    F.Runs [] [] code (F.p.watchStmts call F.fuel ss) (fun _ => []) := by
  have names : F.site.names = [] := congrArg Site.names top
  intro below locals store W after hlocals hworld
  have effect : F.RunsFlow false .next [] code _ :=
    h.runs resolved ids (by rw [names]; exact fun _ mem => by cases mem) links
  obtain ⟨u, enacts, ends⟩ := effect [] below locals store W after hlocals hworld
  rw [Activation.Does, Program.watchStmts, ← top]
  cases result : (Stmt.watchAll F.p call F.fuel F.site ss []).outcome W with
  | error e =>
    rw [result] at ends
    rw [(Watch.bind_of_error result).1, (Watch.bind_of_error result).2]
    exact ⟨u, enacts, ends⟩
  | ok value =>
    obtain ⟨flow, V⟩ := value
    rw [result] at ends
    rw [(Watch.bind_of_ok result).1, (Watch.bind_of_ok result).2]
    cases flow with
    | onward vars =>
      obtain ⟨rfl, locals', store', eq, hlocals', hworld'⟩ := ends
      have none : vars = [] := List.map_eq_nil_iff.1 (hlocals'.keys.trans names)
      subst none
      simp only [Watch.log_pure, List.append_nil]
      exact ⟨_, enacts, rfl, locals', store', eq, hlocals', hworld'⟩
    | returned w =>
      obtain ⟨allowed, -⟩ := ends
      cases allowed

theorem Activation.Runs.keepScratch {vars : Bindings} (w : Word) :
    F.Runs vars [w] [.localSet scratchLocal, .localGet scratchLocal] (Pure.pure (some w))
      Option.toList := by
  intro below locals store W after hlocals hworld
  refine ⟨_, enacts_of_isQuiet (by simp [Instr.isQuiet, Instr.isSimple]) rfl ⟨hlocals, hworld⟩
    after, rfl, _, store, ?_, hlocals.setOther scratchLocal (by decide) w, hworld⟩
  simp [run, Instr.runAll, Instr.run, State.step, Bindings.lookup_set_self hlocals.scratch]

theorem Image.exists_of_hasValue (h : hasValue p = true) :
    ∃ e, p.stmts.getLast? = some (.expr e) := by
  rw [hasValue] at h
  split at h
  · exact ⟨_, by assumption⟩
  · cases h

theorem Program.main_of_value {invoke : Invoke} {fuel : Nat} {e : Expr}
    (last : p.stmts.getLast? = some (.expr e)) :
    p.main invoke fuel = (do
      p.runStmts invoke fuel p.stmts.dropLast
      return some (← e.eval p invoke [])) := by
  rw [main, last]

theorem Program.main_of_no_value {invoke : Invoke} {fuel : Nat} (h : Image.hasValue p = false) :
    p.main invoke fuel = (p.runStmts invoke fuel p.stmts >>= fun _ => pure none) := by
  rw [main]
  split
  · rename_i e last
    simp [Image.hasValue, last] at h
  · rfl

theorem Program.watchMain_of_value {fuel : Nat} {e : Expr}
    (last : p.stmts.getLast? = some (.expr e)) : p.watchMain call fuel = (do
      p.watchStmts call fuel p.stmts.dropLast
      return some (← e.watch p call none [])) := by
  rw [watchMain, last]

theorem Program.watchMain_of_no_value {fuel : Nat} (h : Image.hasValue p = false) :
    p.watchMain call fuel = (p.watchStmts call fuel p.stmts >>= fun _ => pure none) := by
  rw [watchMain]
  split
  · rename_i e last
    simp [Image.hasValue, last] at h
  · rfl

/-- The code of the top level leaves the value of the program, if it has one. -/
theorem Activation.runs_watchMain (resolved : F.p.IsResolved) (ids : F.p.HasWords)
    (links : F.Links call) (top : F.site = none) {n n' : Nat} {code : List Instr}
    (h : Stmt.Lowers F.p F.site.names false n F.p.stmts code n') :
    F.Runs [] [] (code ++ if Image.hasValue F.p then [.localGet scratchLocal] else [])
      (F.p.watchMain call F.fuel) Option.toList := by
  cases hv : Image.hasValue F.p with
  | true =>
    obtain ⟨e, last⟩ := Image.exists_of_hasValue hv
    have stmts : F.p.stmts = F.p.stmts.dropLast ++ [.expr e] :=
      (List.dropLast_append_getLast? _ last).symm
    rw [stmts] at h
    obtain ⟨c, c', k, rfl, hss, he⟩ := h.append
    cases he with
    | @expr _ _ _ _ code _ value tail =>
      cases tail
      have code_eq : c ++ (code ++ [Instr.localSet scratchLocal]) ++ [Instr.localGet scratchLocal] =
          c ++ (code ++ [Instr.localSet scratchLocal, .localGet scratchLocal]) := by simp
      have noLocals : ∀ x ∈ F.site.names, isSourceWord x = true := by
        rw [top]
        exact fun _ mem => by cases mem
      rw [if_pos rfl, code_eq, Program.watchMain_of_value last, ← top]
      exact (runs_watchStmts resolved ids links top hss).bind fun _ =>
        (value.runs resolved ids noLocals links).bind .keepScratch
  | false =>
    rw [if_neg Bool.false_ne_true, List.append_nil, Program.watchMain_of_no_value hv]
    exact (runs_watchStmts resolved ids links top h).map fun _ => rfl

end

/-- The routines of functions are not exported. -/
theorem Routine.Lowers.exportName_eq {n n' : Nat} {fs : List (String × FunDef)} {rs : List Routine}
    (h : Routine.Lowers p n fs rs n') : ∀ r ∈ rs, r.exportName = none := by
  induction h with
  | nil n => intro r mem; cases mem
  | cons body tail ih =>
    intro r mem
    rcases List.mem_cons.1 mem with rfl | mem
    · rfl
    · exact ih r mem

/-- The host starts the entry. -/
theorem Image.Lowers.exported?_eq (h : i.Lowers p) :
    i.toModule.exported? Host.entryName = some i.entry.toFunc := by
  obtain ⟨n, code, n', routines, -, entry⟩ := h.code
  have others :
      (i.routines.map Routine.toFunc).find? (·.exports.contains Host.entryName) = none := by
    rw [List.find?_eq_none]
    intro g hg
    obtain ⟨r, hr, rfl⟩ := List.mem_map.1 hg
    simp [Routine.toFunc, routines.exportName_eq r hr]
  rw [Module.exported?, toModule, List.find?_append, others, Option.none_or, entry]
  rfl

/-- The host offers what an image takes from it, if it gives at least one page. -/
theorem Image.imports_offered {pages : Nat} (h : 1 ≤ pages) :
    imports.all (Import.isOffered pages) = true := by
  simp [imports, Import.isOffered, Printer.all, h]
  decide

/-- What a program has before any of its variables has its initial value. -/
def Program.start (p : Program) (entry : Func) (pages : Nat) : View :=
  ⟨none, entry, [], ⟨p.globalVars.map fun v => (v.name, 0), .ofPages pages, 4, ""⟩, none, []⟩

/-- When the module starts, its store holds the world of the program before any variable has its
initial value. -/
theorem Image.Lowers.holdsWorld (h : i.Lowers p) (entry : Func) (pages : Nat) :
    HoldsWorld p (p.start entry pages).world (i.toModule.initialStore pages) where
  keys := by rw [Program.start, List.map_map]; rfl
  lookup x ident := by
    have globals : (i.globals.map fun name => (⟨name, true, 0⟩ : Global)).map
        (fun g => (g.name, g.value)) = (p.globalVars.map fun v => (v.name, (0 : Word))).map
          fun entry => (varSymbol entry.1, entry.2) := by
      rw [h.globals, List.map_map, List.map_map, List.map_map]
      rfl
    have other : (varSymbol x == heapPointer) = false := by
      simpa using varSymbol_ne ident (by decide)
    rw [Module.initialStore, toModule, List.map_cons, globals, List.lookup_cons]
    change (match varSymbol x == heapPointer with
      | true => _
      | false => _) = _
    rw [other]
    exact lookup_varSymbol _ x
  free := rfl
  memory := rfl
  output := rfl

theorem Image.Lowers.run_start (h : i.Lowers p) {limits : Limits} (pages : 1 ≤ limits.pages) :
    i.toModule.run limits = i.toModule.runFunc limits i.entry.toFunc := by
  have offered : i.toModule.imports.all (Import.isOffered limits.pages) = true :=
    imports_offered pages
  rw [Module.run, if_pos offered, h.exported?_eq]

/-- The locals of the entry are the two that code uses for itself. -/
theorem holdsLocals_entry : HoldsLocals [] [] [(scratchLocal, 0), (allocLocal, 0)] := by
  refine ⟨rfl, fun x ident => ?_, by simp, by simp⟩
  have scratch : (varSymbol x == scratchLocal) = false := by
    simpa using varSymbol_ne ident (by decide)
  have alloc : (varSymbol x == allocLocal) = false := by
    simpa using varSymbol_ne ident (by decide)
  rw [List.lookup_cons, scratch, List.lookup_cons, alloc]
  rfl

/-- The entry runs as the top level of the program is evaluated, and what is seen of it enacts what
happens in the program. -/
theorem Image.Lowers.exec_entry (h : i.Lowers p) (resolved : p.IsResolved) (ids : p.HasWords)
    (fuel depth pages : Nat) :
    ∃ u, Enacts p i.toModule fuel (p.start i.entry.toFunc pages)
        ((p.watchMain (p.call fuel depth) fuel).log (p.initialWorld pages))
        (i.toModule.enter fuel (depth + 1) i.entry.toFunc [] (i.toModule.initialStore pages)) u ∧
      match (p.watchMain (p.call fuel depth) fuel).outcome (p.initialWorld pages) with
      | .ok (value, W) => (u.building = [] ∧ u.pending = 0) ∧
          ∃ s, exec i.toModule fuel depth i.entry.toFunc.body
            ⟨[], i.entry.toFunc.initialLocals [], i.toModule.initialStore pages⟩ = .next s ∧
          s.stack = value.toList ∧ HoldsWorld p W s.store
      | .error e => e.Is (exec i.toModule fuel depth i.entry.toFunc.body
          ⟨[], i.entry.toFunc.initialLocals [], i.toModule.initialStore pages⟩) := by
  obtain ⟨n, code, n', -, stmts, entry⟩ := h.code
  let F : Activation := ⟨p, i.toModule, fuel, depth, none, i.entry.toFunc, []⟩
  have links : F.Links (p.call fuel depth) := h.links resolved ids fuel depth none i.entry.toFunc []
  have zero : HoldsLocals F.site.names [] (i.entry.toFunc.initialLocals []) := by
    rw [entry]
    exact holdsLocals_entry
  have hworld := h.holdsWorld i.entry.toFunc pages
  -- the global variables get their initial values first
  have initial : Bindings.assign (p.globalVars.map fun v => (v.name, 0)) p.globalVars =
      p.globalVars.map fun v => (v.name, v.value.word) :=
    Bindings.assign_zero [] p.globalVars resolved.globals
  obtain ⟨store, init, ran, hworld'⟩ := Activation.enacts_initGlobals (F := F) p.globalVars
    ids.globals (fun _ h => h) [] zero hworld
    ((code ++ if hasValue p then [.localGet scratchLocal] else []) ++ [])
  rw [Program.start, initial] at init hworld'
  have body : i.entry.toFunc.body =
      p.initCode ++ (code ++ if hasValue p then [.localGet scratchLocal] else []) := by
    rw [entry]
    exact List.append_assoc ..
  have runs : F.Runs [] [] _ _ _ := Activation.runs_watchMain resolved ids links rfl stmts
  obtain ⟨u, enacts, ends⟩ := runs [] _ store (p.initialWorld pages) [] zero hworld'
  have left : ∀ s, (F.run (code ++ if hasValue p then [.localGet scratchLocal] else [])
      ⟨[], i.entry.toFunc.initialLocals [], store⟩).result? = some s →
      u.func = i.entry.toFunc ∧ u.HeldBy p s := by
    intro s hs
    cases result : (p.watchMain (p.call fuel depth) fuel).outcome (p.initialWorld pages) with
    | error e =>
      rw [result] at ends
      cases (Halt.Is.result? ends).symm.trans hs
    | ok value =>
      rw [result] at ends
      obtain ⟨rfl, locals', store', eq, held⟩ := ends
      cases (congrArg Outcome.result? eq).symm.trans hs
      exact ⟨rfl, held.1, held.2⟩
  obtain ⟨seen, run_eq⟩ := Activation.enacts_visit (F := F) (v := p.start i.entry.toFunc pages) body
    rfl ⟨zero, hworld⟩ ran init enacts left
  have exec_body : exec i.toModule fuel depth i.entry.toFunc.body ⟨[],
      i.entry.toFunc.initialLocals [], i.toModule.initialStore pages⟩ = F.run _ _ :=
    (congrFun (congrFun (exec_eq ..) _) _).trans run_eq
  refine ⟨u, seen, ?_⟩
  rw [exec_body]
  cases result : (p.watchMain (p.call fuel depth) fuel).outcome (p.initialWorld pages) with
  | error e =>
    rw [result] at ends
    exact ends
  | ok value =>
    rw [result] at ends
    obtain ⟨rfl, locals', store', eq, -, holds⟩ := ends
    exact ⟨⟨rfl, rfl⟩, _, eq, List.append_nil _, holds⟩

theorem Program.value_eq_none {invoke : Invoke} {fuel : Nat} {W W' : World} {value : Option Word}
    (h : Image.hasValue p = false) (run : p.main invoke fuel W = .ok (value, W')) :
    value = none := by
  rw [main_of_no_value h] at run
  obtain ⟨_, _, -, run⟩ := Eval.bind_eq_ok.1 run
  cases run
  rfl

/-- The module of a program gives what the program gives. -/
theorem Image.Lowers.run_eq (h : i.Lowers p) (resolved : p.IsResolved) (ids : p.HasWords)
    {limits : Limits} (pages : 1 ≤ limits.pages) :
    i.toModule.run limits = (p.evaluate limits).mapError Halt.error ∧
      p.evaluate limits ≠ .error .undefined := by
  obtain ⟨_, -, exec⟩ := h.exec_entry resolved ids limits.fuel limits.depth limits.pages
  have results : i.entry.toFunc.results = if hasValue p then 1 else 0 := by
    obtain ⟨_, _, _, -, -, entry⟩ := h.code
    rw [entry]
    rfl
  rw [p.erases_watchMain, Module.initialStore] at exec
  rw [h.run_start pages, Module.runFunc, Program.evaluate]
  cases result : p.main (p.invoke limits.fuel limits.depth) limits.fuel
      (p.initialWorld limits.pages) with
  | error e =>
    rw [result] at exec
    cases e with
    | trap t output =>
      dsimp only
      rw [show Wasm.exec _ _ _ _ _ = Outcome.trapped t output from exec]
      exact ⟨rfl, fun eq => by cases eq⟩
    | unfinished =>
      dsimp only
      rw [show Wasm.exec _ _ _ _ _ = Outcome.unfinished from exec]
      exact ⟨rfl, fun eq => by cases eq⟩
    | undefined => cases exec
  | ok value =>
    obtain ⟨value, W⟩ := value
    rw [result] at exec
    obtain ⟨-, s, eq, stack, hworld⟩ := exec
    dsimp only
    rw [eq]
    refine ⟨?_, fun eq => by cases eq⟩
    dsimp only
    rw [stack, results, hworld.output]
    cases hv : hasValue p with
    | true => cases value <;> rfl
    | false =>
      rw [Program.value_eq_none hv result]
      rfl

/-- The module gives what is left where the log of the program ends. -/
theorem Image.Lowers.run_eq_watch (h : i.Lowers p) (resolved : p.IsResolved) (ids : p.HasWords)
    {limits : Limits} (pages : 1 ≤ limits.pages) : i.toModule.run limits =
      (((p.watch limits).outcome (p.initialWorld limits.pages)).map
        fun r => ⟨r.1, r.2.output⟩).mapError Halt.error := by
  rw [← p.evaluate_eq_watch limits]
  exact (h.run_eq resolved ids pages).1

/-! ## §9 Snapshots of a program -/

/-- What the module of a program goes through from its start enacts a log. -/
def Image.Performs (i : Image) (p : Program) (limits : Limits) (log : List Moment)
    (T : List Snapshot) (v : View) : Prop :=
  Enacts p i.toModule limits.fuel (p.start i.entry.toFunc limits.pages) log T v

/-- A snapshot that comes after others shows a view: the others enact what has happened in the
program so far, and the view is what the program has then. -/
structure Image.Shows (i : Image) (p : Program) (limits : Limits) (before : List Snapshot)
    (a : Snapshot) (log : List Moment) (v : View) : Prop where
  soFar : log <+: p.log limits
  performed : i.Performs p limits log before v
  shown : v.ShownBy p a

/-- What the module of a program goes through enacts what happens when the program runs. Once the
program has come to its end, no object is in construction or in the making. -/
theorem Image.Lowers.performs (h : i.Lowers p) (resolved : p.IsResolved) (ids : p.HasWords)
    (limits : Limits) : ∃ u, i.Performs p limits (p.log limits) (i.toModule.trace limits) u ∧
      ∀ outcome, i.toModule.run limits = .ok outcome → u.building = [] ∧ u.pending = 0 := by
  obtain ⟨u, enacts, ends⟩ := h.exec_entry resolved ids limits.fuel limits.depth limits.pages
  refine ⟨u, ?_, fun outcome ran => ?_⟩
  · rw [Performs, Module.trace, h.exported?_eq]
    exact enacts
  · obtain ⟨g, s, exported, result⟩ := Module.exists_result_of_run ran
    cases exported.symm.trans h.exported?_eq
    cases watched : (p.watchMain (p.call limits.fuel limits.depth) limits.fuel).outcome
        (p.initialWorld limits.pages) with
    | error e =>
      rw [watched] at ends
      cases (Halt.Is.result? ends).symm.trans result
    | ok r =>
      rw [watched] at ends
      exact ends.1

/-- Every snapshot shows what the program has. The objects take no more bytes there than in the end,
if the one in the making is counted. -/
theorem Image.Performs.exists_shows {limits : Limits} {u : View} {before after : List Snapshot}
    {a : Snapshot} (h : i.Performs p limits (p.log limits) (i.toModule.trace limits) u)
    (split : i.toModule.trace limits = before ++ a :: after) :
    ∃ log v, i.Shows p limits before a log v ∧
      (made log).bytes + v.pending ≤ (made (p.log limits)).bytes + u.pending := by
  obtain ⟨log, later, v, eq, enacts, shown, bytes⟩ := Enacts.exists_before h split
  exact ⟨log, v, ⟨⟨later, eq.symm⟩, enacts, shown⟩, bytes⟩

end

end Serpent
