/-
Serpent.Proofs.Trace — what a module goes through when it runs.

How code ends says nothing about what happens on the way. A trace lists what is seen on the way:
each function that is entered or left, and each instruction that is reached, with the state of that
moment, also where the code does not come to its end. The machine itself says how to go on from one
instruction to the next, so a trace adds nothing to it.

What each snapshot leads to is followed as code is put together: from single instructions, over the
code inside of structured instructions, to the functions that are called (§4 to §6).

  §1 Snapshots
  §2 The trace of code
  §3 Code after code
  §4 Paths
  §5 Code of one kind
  §6 Functions
-/
import Serpent.Proofs.Code
import Serpent.Proofs.Lookup
import Serpent.Wasm.Run

namespace Serpent.Wasm

/-! ## §1 Snapshots -/

/-- Where a function is. -/
inductive Point where
  /-- Its body starts. -/
  | entered
  /-- This code of its body, or of a block inside of it, is still to be run. -/
  | reached (code : List Instr)
  /-- It has come to its end or has returned. -/
  | left

/-- What is seen of a running module: the function that is running, where it is, and its state. -/
structure Snapshot where
  func : Func
  point : Point
  state : State

/-! ## §2 The trace of code -/

/-- What follows where control goes on behind code. -/
def Outcome.goOn {α : Type} (o : Outcome) (k : State → List α) : List α :=
  match o with
  | .next s => k s
  | _ => []

/-- The trace of the rounds of a loop whose body has the given outcome and trace. -/
def roundTrace (label : String) (body : State → Outcome) (trace : State → List Snapshot) :
    (fuel : Nat) → State → List Snapshot
  | 0, _ => []
  | fuel + 1, s =>
    trace { s with stack := [] } ++
      match body { s with stack := [] } with
      | .branch l s' => if l = label then roundTrace label body trace fuel s' else []
      | _ => []

namespace Instr

mutual

/-- What is seen inside of an instruction of a function, where `enter` is the trace of a function
that is called. -/
def inside (m : Module) (fuel : Nat) (call : Func → List Word → Store → Outcome)
    (enter : Func → List Word → Store → List Snapshot) (f : Func) : Instr → State → List Snapshot
  | .ifElse thn els, s =>
    match s.stack with
    | [] => []
    | w :: _ =>
      if w = 0 then trace m fuel call enter f [] els { s with stack := [] }
      else trace m fuel call enter f [] thn { s with stack := [] }
  | .block _ body, s => trace m fuel call enter f [] body { s with stack := [] }
  | .loop l body, s =>
    roundTrace l (runAll m fuel call body) (trace m fuel call enter f [] body) fuel s
  | .call g, s =>
    match m.callee? g with
    | some (.func g) => enter g (s.stack.take g.params.length).reverse s.store
    | _ => []
  | _, _ => []

/-- What is seen while code of a function runs, behind which `after` follows. -/
def trace (m : Module) (fuel : Nat) (call : Func → List Word → Store → Outcome)
    (enter : Func → List Word → Store → List Snapshot) (f : Func) (after : List Instr) :
    List Instr → State → List Snapshot
  | [], _ => []
  | i :: is, s =>
    ⟨f, .reached (i :: is ++ after), s⟩ :: (inside m fuel call enter f i s ++
      (run m fuel call i s).goOn (trace m fuel call enter f after is))

end

end Instr

/-- The state in which a function comes to its end or returns. -/
def Outcome.result? : Outcome → Option State
  | .next s => some s
  | .returned s => some s
  | _ => none

/-- What is seen of a function once it is entered, and of the functions that it calls. -/
def Func.visit (m : Module) (fuel : Nat) (call : Func → List Word → Store → Outcome)
    (enter : Func → List Word → Store → List Snapshot) (g : Func) (args : List Word)
    (store : Store) : List Snapshot :=
  Instr.trace m fuel call enter g [] g.body ⟨[], g.initialLocals args, store⟩ ++
    (Instr.runAll m fuel call g.body ⟨[], g.initialLocals args, store⟩).result?.toList.map
      fun s => ⟨g, .left, s⟩

/-- The trace of a function that is called where so many more calls may be opened. -/
def Module.enter (m : Module) (fuel : Nat) :
    (depth : Nat) → Func → List Word → Store → List Snapshot
  | 0 => fun _ _ _ => []
  | depth + 1 => fun g args store =>
    ⟨g, .entered, ⟨[], g.initialLocals args, store⟩⟩ ::
      g.visit m fuel (m.call fuel depth) (enter m fuel depth) args store

/-- The store in which a module starts. -/
def Module.initialStore (m : Module) (pages : Nat) : Store :=
  ⟨m.globals.map fun g => (g.name, g.value), .ofPages pages, ""⟩

/-- The trace of a module: that of its entry. -/
def Module.trace (m : Module) (limits : Limits) : List Snapshot :=
  match m.exported? Host.entryName with
  | some entry =>
    m.enter limits.fuel (limits.depth + 1) entry [] (m.initialStore limits.pages)
  | none => []

/-! ## §3 Code after code -/

section

variable {m : Module} {fuel : Nat} {call : Func → List Word → Store → Outcome}
variable {enter : Func → List Word → Store → List Snapshot} {f : Func}

theorem Outcome.goOn_andThen {α : Type} (o : Outcome) (k : State → Outcome) (j : State → List α) :
    (o.andThen k).goOn j = o.goOn fun s => (k s).goOn j := by
  cases o <;> rfl

theorem Outcome.goOn_append {α : Type} (o : Outcome) (j j' : State → List α) :
    (o.goOn fun s => j s ++ j' s) = o.goOn j ++ o.goOn j' := by
  cases o <;> rfl

theorem Instr.trace_cons (after : List Instr) (i : Instr) (code : List Instr) (s : State) :
    trace m fuel call enter f after (i :: code) s =
      ⟨f, .reached (i :: code ++ after), s⟩ :: (inside m fuel call enter f i s ++
        (run m fuel call i s).goOn (trace m fuel call enter f after code)) := rfl

theorem Instr.trace_singleton (after : List Instr) (i : Instr) (s : State) :
    trace m fuel call enter f after [i] s =
      ⟨f, .reached (i :: after), s⟩ :: inside m fuel call enter f i s := by
  rw [trace_cons]
  cases run m fuel call i s <;> exact congrArg _ (List.append_nil _)

/-- Code that is put together has the traces of its parts. -/
theorem Instr.trace_append (after c c' : List Instr) (s : State) :
    trace m fuel call enter f after (c ++ c') s = trace m fuel call enter f (c' ++ after) c s ++
      (runAll m fuel call c s).goOn (trace m fuel call enter f after c') := by
  induction c generalizing s with
  | nil => rfl
  | cons i c ih =>
    rw [List.cons_append, trace_cons, trace_cons, runAll_cons, Outcome.goOn_andThen]
    have rest : trace m fuel call enter f after (c ++ c') = fun s =>
        trace m fuel call enter f (c' ++ after) c s ++
          (runAll m fuel call c s).goOn (trace m fuel call enter f after c') := funext ih
    simp only [rest, Outcome.goOn_append, List.cons_append, List.append_assoc]

end

/-! ## §4 Paths -/

/-- Each snapshot of a trace is taken in the store that the one before it leads to. -/
inductive Path (leads : Snapshot → Store → Prop) : Store → List Snapshot → Store → Prop
  | nil (store : Store) : Path leads store [] store
  | cons {a : Snapshot} {b c : Store} {T : List Snapshot} (first : leads a b)
      (rest : Path leads b T c) : Path leads a.state.store (a :: T) c

namespace Path

variable {leads leads' : Snapshot → Store → Prop} {a b c : Store} {T T' : List Snapshot}

theorem single {f : Func} {point : Point} {s : State} (h : leads ⟨f, point, s⟩ b) :
    Path leads s.store [⟨f, point, s⟩] b := .cons h (.nil b)

theorem append (h : Path leads a T b) (h' : Path leads b T' c) : Path leads a (T ++ T') c := by
  induction h with
  | nil => exact h'
  | cons first rest ih => exact .cons first (ih h')

theorem mono (h : Path leads a T b) (more : ∀ s store, leads s store → leads' s store) :
    Path leads' a T b := by
  induction h with
  | nil => exact .nil _
  | cons first rest ih => exact .cons (more _ _ first) ih

theorem exists_of_mem (h : Path leads a T b) {s : Snapshot} (hs : s ∈ T) :
    ∃ store, leads s store := by
  induction h with
  | nil => cases hs
  | @cons t b c T first rest ih =>
    rcases List.mem_cons.1 hs with rfl | hs
    · exact ⟨b, first⟩
    · exact ih hs

/-- Each snapshot leads to the next one. -/
theorem isChain (h : Path leads a T b) : T.IsChain fun s t => leads s t.state.store := by
  induction h with
  | nil => exact .nil
  | @cons s b c T first rest ih =>
    cases rest with
    | nil => exact .singleton s
    | cons next rest => exact .cons_cons first ih

end Path

/-- The store in which code ends. -/
def Outcome.store? : Outcome → Option Store
  | .next s => some s.store
  | .branch _ s => some s.store
  | .returned s => some s.store
  | _ => none

theorem Outcome.store?_of_result? {o : Outcome} {s : State} (h : o.result? = some s) :
    o.store? = some s.store := by
  cases o <;> cases h <;> rfl

/-- The trace of code that runs from a store is a path, to the store in which the code ends if it
does end. -/
def Walks (leads : Snapshot → Store → Prop) (a : Store) (T : List Snapshot) (o : Outcome) : Prop :=
  ∃ b, Path leads a T b ∧ ∀ c, o.store? = some c → c = b

namespace Walks

variable {leads : Snapshot → Store → Prop} {a b : Store} {T T' : List Snapshot} {o o' : Outcome}

theorem restore (h : Walks leads a T o) (stack : List Word) :
    Walks leads a T (o.restore stack) := by
  obtain ⟨b, path, ends⟩ := h
  refine ⟨b, path, fun c hc => ends c ?_⟩
  cases o <;> exact hc

theorem leave (h : Walks leads a T o) (label : String) : Walks leads a T (o.leave label) := by
  obtain ⟨b, path, ends⟩ := h
  refine ⟨b, path, fun c hc => ends c ?_⟩
  cases o with
  | branch l s =>
    unfold Outcome.leave at hc
    dsimp only at hc
    split at hc <;> exact hc
  | _ => exact hc

/-- One snapshot is all that is seen of code that does not come to its end. -/
theorem stop {f : Func} {point : Point} {s : State} (first : leads ⟨f, point, s⟩ s.store)
    (ended : o.store? = none) : Walks leads s.store [⟨f, point, s⟩] o :=
  ⟨_, .single first, fun c hc => by cases ended.symm.trans hc⟩

/-- Something that is seen in front. -/
theorem cons {f : Func} {point : Point} {s : State} (first : leads ⟨f, point, s⟩ s.store)
    (h : Walks leads s.store T o) : Walks leads s.store (⟨f, point, s⟩ :: T) o := by
  obtain ⟨b, path, ends⟩ := h
  exact ⟨b, (Path.single first).append path, ends⟩

/-- Another run that starts where the first one ends. -/
theorem trans (first : Walks leads a T o) (ended : o.store? = some b)
    (rest : Walks leads b T' o') : Walks leads a (T ++ T') o' := by
  obtain ⟨b', path, ends⟩ := first
  obtain ⟨c, path', ends'⟩ := rest
  cases ends b ended
  exact ⟨c, path.append path', ends'⟩

/-- Code after code: the trace goes on where control goes on. -/
theorem seq (first : Walks leads a T o) {T' : State → List Snapshot} {k : State → Outcome}
    (rest : ∀ s, Walks leads s.store (T' s) (k s)) :
    Walks leads a (T ++ o.goOn T') (o.andThen k) := by
  cases o with
  | next s => exact first.trans rfl (rest s)
  | _ =>
    change Walks leads a (T ++ []) _
    rw [List.append_nil]
    exact first

end Walks

/-! ## §5 Code of one kind -/

/-- What an instruction can do to the store before something else is seen. -/
inductive Instr.Leads (i : Instr) (s : State) : Store → Prop
  | stays : Leads i s s.store
  | steps {store : Store} (h : (s.step i).store? = some store) : Leads i s store
  | prints (output : String) : Leads i s { s.store with output }

/-- The globals are what they were unless an instruction sets one of them. -/
theorem Instr.Leads.globals {i : Instr} {s : State} {store : Store} (h : i.Leads s store) :
    store.globals = s.store.globals ∨
      ∃ x w, i = .globalSet x ∧ store.globals = s.store.globals.set x w := by
  cases h with
  | stays => exact .inl rfl
  | prints output => exact .inl rfl
  | steps h =>
    cases i with
    | globalSet x =>
      simp only [State.step] at h
      split at h <;> cases h
      exact .inr ⟨x, _, rfl, rfl⟩
    | _ =>
      simp only [State.step] at h
      (repeat' split at h) <;> cases h
      all_goals exact .inl rfl

/-- The trace of every function of a kind is a path when it is called. -/
def CallsWalk (leads : Snapshot → Store → Prop) (kind : Func → Prop)
    (call : Func → List Word → Store → Outcome)
    (enter : Func → List Word → Store → List Snapshot) : Prop :=
  ∀ g, kind g → ∀ args store, Walks leads store (enter g args store) (call g args store)

section

variable {leads : Snapshot → Store → Prop} {kind : Func → Prop} {m : Module} {fuel : Nat}
variable {call : Func → List Word → Store → Outcome}
variable {enter : Func → List Word → Store → List Snapshot} {f : Func}

/-- Functions whose traces are paths of one kind have paths of every wider kind. -/
theorem CallsWalk.mono {leads' : Snapshot → Store → Prop} (h : CallsWalk leads kind call enter)
    (more : ∀ s store, leads s store → leads' s store) : CallsWalk leads' kind call enter := by
  intro g hg args store
  obtain ⟨b, path, ends⟩ := h g hg args store
  exact ⟨b, path.mono more, ends⟩

/-- A call goes on the way of the function that is called. -/
theorem Instr.call_walks (calls : CallsWalk leads kind call enter) {name : String}
    (callees : ∀ g, m.callee? name = some (.func g) → kind g) {code : List Instr} {s : State}
    (mark : ∀ store, (Instr.call name).Leads s store → leads ⟨f, .reached code, s⟩ store) :
    Walks leads s.store (⟨f, .reached code, s⟩ :: inside m fuel call enter f (.call name) s)
      (run m fuel call (.call name) s) := by
  have stays := mark s.store .stays
  cases callee : m.callee? name with
  | none =>
    simp only [inside, run, callee]
    exact .stop stays rfl
  | some target =>
    cases target with
    | host printer =>
      simp only [inside, run, callee]
      cases hs : s.stack with
      | nil => exact .stop stays rfl
      | cons w stack => exact ⟨_, .single (mark _ (.prints _)), fun c hc => by cases hc; rfl⟩
    | func g =>
      simp only [inside, run, callee]
      have called := calls g (callees g callee) (s.stack.take g.params.length).reverse s.store
      obtain ⟨b, path, ends⟩ := Walks.cons stays called
      refine ⟨b, path, fun c hc => ends c ?_⟩
      cases result : call g (s.stack.take g.params.length).reverse s.store with
      | next s' | returned s' =>
        rw [result] at hc
        exact hc
      | _ =>
        rw [result] at hc
        cases hc

/-- An instruction that holds no code goes where it leads. -/
theorem Instr.walks_of_isSimple (calls : CallsWalk leads kind call enter) {i : Instr}
    (simple : i.isSimple = true)
    (callees : ∀ name g, i = .call name → m.callee? name = some (.func g) → kind g)
    {code : List Instr} {s : State}
    (mark : ∀ store, i.Leads s store → leads ⟨f, .reached code, s⟩ store) :
    Walks leads s.store (⟨f, .reached code, s⟩ :: inside m fuel call enter f i s)
      (run m fuel call i s) := by
  have stays := mark s.store .stays
  have steps : Walks leads s.store [⟨f, .reached code, s⟩] (s.step i) := by
    cases ended : (s.step i).store? with
    | none => exact .stop stays ended
    | some b =>
      exact ⟨b, .single (mark b (.steps ended)), fun c hc => by cases ended.symm.trans hc; rfl⟩
  cases i with
  | return_ | br l => exact ⟨_, .single stays, fun c hc => by cases hc; rfl⟩
  | brIf l =>
    refine ⟨_, .single stays, fun c hc => ?_⟩
    simp only [run] at hc
    repeat' split at hc
    all_goals cases hc
    all_goals rfl
  | call name => exact call_walks calls (fun g => callees name g rfl) mark
  | ifElse | block | loop => cases simple
  | _ =>
    rw [run_of_isStep rfl]
    exact steps

/-- The rounds of a loop go on the way of its body. -/
theorem rounds_walk (label : String) {body : State → Outcome} {trace : State → List Snapshot}
    (h : ∀ s, Walks leads s.store (trace s) (body s)) (n : Nat) (s : State) :
    Walks leads s.store (roundTrace label body trace n s) (rounds label body n s) := by
  induction n generalizing s with
  | zero => exact ⟨_, .nil _, fun c hc => by cases hc⟩
  | succ n ih =>
    -- only a branch to the label of the loop starts another round
    have round := h { s with stack := [] }
    cases result : body { s with stack := [] } with
    | branch l s₁ =>
      rw [result] at round
      by_cases same : l = label
      · simp only [roundTrace, rounds, result, if_pos same]
        exact round.trans rfl (ih s₁)
      · simp only [roundTrace, rounds, result, if_neg same, List.append_nil]
        exact round
    | _ =>
      simp only [roundTrace, rounds, result, List.append_nil]
      rwa [result] at round

/-- Code goes on the way of the instructions that it is made of. -/
theorem Instr.Built.walks {ok : Instr → Prop} (calls : CallsWalk leads kind call enter)
    (callees : ∀ name g, ok (.call name) → m.callee? name = some (.func g) → kind g)
    (marks : ∀ i code s store, ok i → i.Leads s store → leads ⟨f, .reached (i :: code), s⟩ store)
    {code : List Instr} (h : Built ok code) (after : List Instr) (s : State) :
    Walks leads s.store (trace m fuel call enter f after code s) (runAll m fuel call code s) := by
  induction h generalizing after s with
  | nil => exact ⟨_, .nil _, fun c hc => by cases hc; rfl⟩
  | @simple i code simple h rest ih =>
    rw [trace_cons, runAll_cons, ← List.cons_append]
    refine (walks_of_isSimple calls simple ?_ ?_).seq (ih after)
    · rintro name g rfl
      exact callees name g h
    · exact fun store leads => marks i _ s store h leads
  | @ifElse thn els code h yes no rest ihyes ihno ih =>
    have mark := marks (.ifElse thn els) (code ++ after) s s.store h .stays
    rw [trace_cons, runAll_cons, ← List.cons_append]
    refine Walks.seq ?_ (ih after)
    simp only [inside, run]
    cases hs : s.stack with
    | nil => exact .stop mark rfl
    | cons w stack =>
      by_cases zero : w = 0
      · simp only [if_pos zero]
        exact (Walks.cons mark (ihno [] { s with stack := [] })).restore stack
      · simp only [if_neg zero]
        exact (Walks.cons mark (ihyes [] { s with stack := [] })).restore stack
  | @block l body code h inner rest ihinner ih =>
    have mark := marks (.block l body) (code ++ after) s s.store h .stays
    rw [trace_cons, runAll_cons, ← List.cons_append]
    refine Walks.seq ?_ (ih after)
    exact ((Walks.cons mark (ihinner [] { s with stack := [] })).leave l).restore s.stack
  | @loop l body code h inner rest ihinner ih =>
    have mark := marks (.loop l body) (code ++ after) s s.store h .stays
    rw [trace_cons, runAll_cons, ← List.cons_append]
    refine Walks.seq ?_ (ih after)
    exact (Walks.cons mark (rounds_walk l (ihinner []) fuel s)).restore s.stack

end

/-! ## §6 Functions -/

theorem Module.mem_of_callee? {m : Module} {name : String} {g : Func}
    (h : m.callee? name = some (.func g)) : g ∈ m.funcs ∧ g.name = name := by
  rw [callee?] at h
  split at h
  · obtain ⟨pr, -, h⟩ := Option.map_eq_some_iff.1 h
    cases h
  · obtain ⟨g', found, h⟩ := Option.map_eq_some_iff.1 h
    cases h
    exact ⟨List.mem_of_find?_eq_some found, by simpa using List.find?_some found⟩

section

variable {leads : Snapshot → Store → Prop} {kind : Func → Prop} {m : Module} {fuel : Nat}

/-- A function goes on the way of its body. -/
theorem Func.visit_walks {call : Func → List Word → Store → Outcome}
    {enter : Func → List Word → Store → List Snapshot} {g : Func}
    (left : ∀ s, leads ⟨g, .left, s⟩ s.store) {args : List Word} {store : Store}
    (body : Walks leads store
      (Instr.trace m fuel call enter g [] g.body ⟨[], g.initialLocals args, store⟩)
      (Instr.runAll m fuel call g.body ⟨[], g.initialLocals args, store⟩)) :
    Walks leads store (g.visit m fuel call enter args store)
      (Instr.runAll m fuel call g.body ⟨[], g.initialLocals args, store⟩) := by
  rw [visit]
  cases outcome : Instr.runAll m fuel call g.body ⟨[], g.initialLocals args, store⟩ with
  | next s | returned s =>
    rw [outcome] at body
    exact body.trans rfl ⟨_, .single (left s), fun c hc => by cases hc; rfl⟩
  | _ =>
    rw [outcome] at body
    change Walks leads _ (_ ++ []) _
    rwa [List.append_nil]

/-- The traces of all functions of a kind are paths if the trace of the body of each of them is one,
where those of the functions that it calls are. -/
theorem Module.calls_walk (entered : ∀ g s, kind g → leads ⟨g, .entered, s⟩ s.store)
    (left : ∀ g s, kind g → leads ⟨g, .left, s⟩ s.store)
    (bodies : ∀ g, kind g → ∀ depth, CallsWalk leads kind (m.call fuel depth) (m.enter fuel depth) →
      ∀ args store, Walks leads store
        (Instr.trace m fuel (m.call fuel depth) (m.enter fuel depth) g [] g.body
          ⟨[], g.initialLocals args, store⟩)
        (Instr.runAll m fuel (m.call fuel depth) g.body ⟨[], g.initialLocals args, store⟩))
    (depth : Nat) : CallsWalk leads kind (m.call fuel depth) (m.enter fuel depth) := by
  induction depth with
  | zero => exact fun g _ args store => ⟨_, .nil _, fun c hc => by cases hc⟩
  | succ depth ih =>
    intro g hg args store
    have body := Func.visit_walks (left g · hg) (bodies g hg depth ih args store)
    rw [Module.call, exec_eq]
    exact Walks.cons (entered g ⟨[], g.initialLocals args, store⟩ hg) body

end

/-- A module that gives a value is left by its entry. -/
theorem Module.exists_result_of_run {m : Module} {limits : Limits} {outcome : RunOutcome}
    (h : m.run limits = .ok outcome) : ∃ entry s, m.exported? Host.entryName = some entry ∧
      (m.call limits.fuel (limits.depth + 1) entry [] (m.initialStore limits.pages)).result? =
        some s := by
  rw [run] at h
  split at h
  · cases exported : m.exported? Host.entryName with
    | none =>
      rw [exported] at h
      cases h
    | some entry =>
      rw [exported] at h
      simp only [runFunc] at h
      cases result : exec m limits.fuel limits.depth entry.body ⟨[], entry.initialLocals [],
          ⟨m.globals.map fun g => (g.name, g.value), .ofPages limits.pages, ""⟩⟩ with
      | next s | returned s => exact ⟨entry, s, rfl, congrArg Outcome.result? result⟩
      | _ =>
        rw [result] at h
        cases h
  · cases h

end Serpent.Wasm
