/-
Serpent.Proofs.Simulation — code runs as the part of the program does that it belongs to.

Code that leaves the values of a computation, or ends as the computation does, and whose trace
enacts the log of the computation, is composed as the computation is (§2), so what is left to show
is what single instructions do (§3). Expressions and statements follow by induction over the code
that belongs to them.

  §1 Operators and printers
  §2 Code that leaves values
  §3 Single instructions
  §4 Calls
  §5 Objects
  §6 Expressions
-/
import Serpent.Proofs.Enactment

namespace Serpent

open Wasm

/-! ## §1 Operators and printers -/

/-- The one quotient of words that is no word. -/
theorem tdiv_eq_half_iff (a b : Word) :
    a.toInt.tdiv b.toInt = Word.half ↔ a = Int32.minValue ∧ b = -1 := by
  constructor
  · intro h
    by_contra other
    have quotient : (a / b).toInt = a.toInt.tdiv b.toInt := by
      rcases Classical.not_and_iff_not_or_not.1 other with ha | hb
      · exact Int32.toInt_div_of_ne_left a b ha
      · exact Int32.toInt_div_of_ne_right a b hb
    have bound := Int32.toInt_lt (a / b)
    rw [quotient, h] at bound
    exact absurd bound (by decide)
  · rintro ⟨rfl, rfl⟩
    decide

/-- The operation of an operator computes its value. -/
theorem Surroundings.apply_operation (op : BinOp) (a b : Word) :
    (operation op).apply a b = op.apply a b := by
  have range : ∀ w : Word, Int32.minValue.toInt ≤ w.toInt ∧ w.toInt ≤ Int32.maxValue.toInt :=
    fun w => ⟨Int32.minValue_le_toInt w, Int32.toInt_le w⟩
  cases op with
  | floorDiv =>
    simp only [operation, BinaryOp.apply, BinOp.apply, tdiv_eq_half_iff,
      Int32.ofInt_tdiv (range a).1 (range a).2 (range b).1 (range b).2, Int32.ofInt_toInt]
  | mod =>
    simp only [operation, BinaryOp.apply, BinOp.apply,
      Int32.ofInt_tmod (range a).1 (range a).2 (range b).1 (range b).2, Int32.ofInt_toInt]
  | _ =>
    simp [operation, BinaryOp.apply, BinOp.apply, Int32.ofInt_add, Int32.ofInt_sub, Int32.ofInt_mul,
      Int32.ofInt_toInt, Int32.le_iff_toInt_le, Int32.lt_iff_toInt_lt]

theorem mul_neg_one_eq (a : Word) : a * (-1) = UnOp.neg.apply a := by
  rw [UnOp.apply, Int32.ofInt_neg, Int32.ofInt_toInt, Int32.mul_neg, Int32.mul_one]

theorem Surroundings.format_printerOf (t : Ty) (w : Word) :
    (printerOf t).format w = t.line w := by
  cases t <;> rfl

/-! ## §2 Code that leaves values -/

/-- How a computation that gives no value ends on the machine. -/
def Halt.Is : Halt → Outcome → Prop
  | .trap t output, o => o = .trapped t output
  | .unfinished, o => o = .unfinished
  | .undefined, _ => False

/-- What halts does not go on with what follows. -/
theorem Halt.Is.andThen {h : Halt} {o : Outcome} (is : h.Is o) (k : State → Outcome) :
    h.Is (o.andThen k) := by
  cases h with
  | trap t output =>
    cases is
    rfl
  | unfinished =>
    cases is
    rfl
  | undefined => cases is

theorem Halt.Is.goOn {α : Type} {h : Halt} {o : Outcome} (is : h.Is o) (k : State → List α) :
    o.goOn k = [] := by
  cases h with
  | trap t output =>
    cases is
    rfl
  | unfinished =>
    cases is
    rfl
  | undefined => cases is

/-- An instruction that changes nothing leaves a state that holds what the program has. -/
theorem View.HeldBy.of_run {p : Program} {v : View} {m : Module} {fuel : Nat}
    {call : Func → List Word → Store → Outcome} {s s' : State} {i : Instr} (h : v.HeldBy p s)
    (quiet : i.isQuiet = true) (simple : i.isSimple = true)
    (next : Instr.run m fuel call i s = .next s') : v.HeldBy p s' := by
  cases i with
  | localSet x =>
    have own : '$' ∈ x.toList.tail := by
      rcases of_decide_eq_true quiet with rfl | rfl <;> decide
    simp only [Instr.run, State.step] at next
    split at next <;> cases next
    exact ⟨h.locals.setOther x own _, h.world⟩
  | globalSet x | load | store | call f | return_ => cases quiet
  | ifElse thn els | block l body | loop l body => cases simple
  | _ =>
    simp only [Instr.run, State.step] at next
    (repeat' split at next) <;> cases next
    all_goals exact ⟨h.locals, h.world⟩

theorem Wasm.Instr.inside_of_isQuiet {m : Module} {fuel : Nat}
    {call : Func → List Word → Store → Outcome} {enter : Func → List Word → Store → List Snapshot}
    {f : Func} {i : Instr} (quiet : i.isQuiet = true) (simple : i.isSimple = true) (s : State) :
    inside m fuel call enter f i s = [] := by
  cases i with
  | call => cases quiet
  | ifElse | block | loop => cases simple
  | _ => rfl

/-- A function of a module that runs what stands at a place of a program, where so many more calls
may be opened, while objects are being constructed. -/
structure Activation where
  p : Program
  m : Module
  fuel : Nat
  depth : Nat
  site : Site
  func : Func
  building : Objects

namespace Activation

variable {α β : Type} {F : Activation} {vars : Bindings}

/-- How code of the function runs. -/
def run (F : Activation) (code : List Instr) (s : State) : Outcome :=
  Instr.runAll F.m F.fuel (F.m.call F.fuel F.depth) code s

/-- What is seen while code of the function runs. -/
def trace (F : Activation) (after code : List Instr) (s : State) : List Snapshot :=
  Instr.trace F.m F.fuel (F.m.call F.fuel F.depth) (F.m.enter F.fuel F.depth) F.func after code s

/-- What the program has in the function. -/
def view (F : Activation) (vars : Bindings) (W : World) : View :=
  ⟨F.site, F.func, vars, W, none, F.building⟩

theorem run_append (F : Activation) (c c' : List Instr) (s : State) :
    F.run (c ++ c') s = (F.run c s).andThen (F.run c') :=
  Instr.runAll_append ..

theorem run_singleton (F : Activation) (i : Instr) (s : State) :
    F.run [i] s = Instr.run F.m F.fuel (F.m.call F.fuel F.depth) i s :=
  Instr.runAll_singleton ..

theorem trace_append (F : Activation) (after c c' : List Instr) (s : State) :
    F.trace after (c ++ c') s =
      F.trace (c' ++ after) c s ++ (F.run c s).goOn (F.trace after c') :=
  Instr.trace_append ..

theorem run_append_of_next {c : List Instr} {s s' : State} (h : F.run c s = .next s')
    (c' : List Instr) : F.run (c ++ c') s = F.run c' s' := by
  rw [run_append, h]
  rfl

theorem trace_append_of_next {c : List Instr} {s s' : State} (h : F.run c s = .next s')
    (after c' : List Instr) :
    F.trace after (c ++ c') s = F.trace (c' ++ after) c s ++ F.trace after c' s' := by
  rw [trace_append, h]
  rfl

/-- The trace enacts a log. -/
abbrev Enacts (F : Activation) : View → List Moment → List Snapshot → View → Prop :=
  Serpent.Enacts F.p F.m F.fuel

/-- A computation is carried out from a view on: what is seen enacts what happens; if the
computation gives a value, all is in the end as `post` says, and if it stops, the machine stops in
the same way. -/
def Does (F : Activation) (v : View) (W : World) (x : Watch α) (T : List Snapshot) (o : Outcome)
    (post : α → World → View → Outcome → Prop) : Prop :=
  ∃ u, F.Enacts v (x.log W) T u ∧
    match x.outcome W with
    | .ok (a, V) => post a V u o
    | .error h => h.Is o

section

variable {v : View} {W : World} {x : Watch α} {T : List Snapshot} {o : Outcome}
variable {mid : α → World → View → Outcome → Prop}

/-- What the machine does with an outcome at the end is not seen. -/
theorem Does.imp {o' : Outcome} {post : α → World → View → Outcome → Prop}
    (h : F.Does v W x T o mid) (halts : ∀ h : Halt, h.Is o → h.Is o')
    (ends : ∀ a V u, mid a V u o → post a V u o') : F.Does v W x T o' post := by
  obtain ⟨u, enacts, ended⟩ := h
  refine ⟨u, enacts, ?_⟩
  cases result : x.outcome W with
  | error h =>
    rw [result] at ended
    exact halts h ended
  | ok r =>
    rw [result] at ended
    exact ends r.1 r.2 u ended

/-- Nothing happens at first. -/
theorem Does.after {u : View} {T' : List Snapshot} (first : F.Enacts v [] T' u)
    (h : F.Does u W x T o mid) : F.Does v W x (T' ++ T) o mid :=
  Exists.imp (fun _ => And.imp_left first.silent_append) h

/-- One computation is carried out after another. -/
theorem Does.bind {k : α → Watch β} {T' : State → List Snapshot} {o' : State → Outcome}
    {post : β → World → View → Outcome → Prop} (first : F.Does v W x T o mid)
    (rest : ∀ a V u, x.outcome W = .ok (a, V) → mid a V u o →
      F.Does u V (k a) (o.goOn T') (o.andThen o') post) :
    F.Does v W (x >>= k) (T ++ o.goOn T') (o.andThen o') post := by
  obtain ⟨u, enacts, ends⟩ := first
  rw [Does]
  cases result : x.outcome W with
  | error h =>
    rw [result] at ends
    rw [(Watch.bind_of_error result).1, (Watch.bind_of_error result).2, Halt.Is.goOn ends,
      List.append_nil]
    exact ⟨u, enacts, Halt.Is.andThen ends _⟩
  | ok r =>
    rw [result] at ends
    obtain ⟨t, enacts', ends'⟩ := rest r.1 r.2 u result ends
    rw [(Watch.bind_of_ok result).1, (Watch.bind_of_ok result).2]
    exact ⟨t, enacts.append enacts', ends'⟩

end

/-- Code takes `pre` from the stack, does what a computation does, and leaves `post` of its value;
or it ends as the computation does. The local variables stay as they are, and what the machine goes
through enacts what happens. -/
def Runs (F : Activation) (vars : Bindings) (pre : List Word) (code : List Instr) (x : Watch α)
    (post : α → List Word) : Prop :=
  ∀ below locals store W after, HoldsLocals F.site.names vars locals → HoldsWorld F.p W store →
    F.Does (F.view vars W) W x (F.trace after code ⟨pre ++ below, locals, store⟩)
      (F.run code ⟨pre ++ below, locals, store⟩) fun a V u o => u = F.view vars V ∧
        ∃ locals' store', o = .next ⟨post a ++ below, locals', store'⟩ ∧
          HoldsLocals F.site.names vars locals' ∧ HoldsWorld F.p V store'

namespace Runs

variable {pre : List Word} {code code' : List Instr} {x : Watch α} {k : α → Watch β}
variable {mid : α → List Word} {post : β → List Word}

/-- Code after code runs as a computation after a computation; the later code may rely on what the
first computation gives. -/
theorem bindOf (first : F.Runs vars pre code x mid)
    (rest : ∀ a W V, x.outcome W = .ok (a, V) → F.Runs vars (mid a) code' (k a) post) :
    F.Runs vars pre (code ++ code') (x >>= k) post := by
  intro below locals store W after hlocals hworld
  rw [F.run_append, F.trace_append]
  refine (first below locals store W (code' ++ after) hlocals hworld).bind
    fun a V u result ⟨seen, locals', store', eq, hlocals', hworld'⟩ => ?_
  rw [seen, eq]
  exact rest a W V result below locals' store' V after hlocals' hworld'

theorem bind (first : F.Runs vars pre code x mid)
    (rest : ∀ a, F.Runs vars (mid a) code' (k a) post) :
    F.Runs vars pre (code ++ code') (x >>= k) post :=
  first.bindOf fun a _ _ _ => rest a

/-- Operands below those that code takes do not matter. -/
theorem frame (h : F.Runs vars pre code x mid) (under : List Word) :
    F.Runs vars (pre ++ under) code x (fun a => mid a ++ under) := by
  intro below locals store W after hlocals hworld
  simp only [List.append_assoc]
  exact h (under ++ below) locals store W after hlocals hworld

theorem pure {b : β} (same : pre = post b) : F.Runs vars pre [] (Pure.pure b) post :=
  fun _ locals store _ _ hlocals hworld =>
    ⟨_, .nil _, rfl, locals, store, same ▸ rfl, hlocals, hworld⟩

/-- What a computation does with its value at the end is not seen. -/
theorem map {f : α → β} (h : F.Runs vars pre code x mid) (same : ∀ a, mid a = post (f a)) :
    F.Runs vars pre code (x >>= fun a => Pure.pure (f a)) post := by
  rw [← List.append_nil code]
  exact h.bind fun a => pure (same a)

end Runs

/-! ## §3 Single instructions -/

/-- Code of instructions that change nothing is run, and nothing happens. -/
theorem enacts_of_isQuiet {code : List Instr}
    (quiet : ∀ i ∈ code, i.isQuiet = true ∧ i.isSimple = true) {v : View} (func : v.func = F.func)
    {s : State} (held : v.HeldBy F.p s) (after : List Instr) :
    F.Enacts v [] (F.trace after code s) v := by
  induction code generalizing s with
  | nil => exact .nil v
  | cons i code ih =>
    obtain ⟨still, simple⟩ := quiet i (by simp)
    rw [trace, Instr.trace_cons, Instr.inside_of_isQuiet still simple, ← func]
    have first : F.Enacts v [] [⟨v.func, .reached (i :: code ++ after), s⟩] v :=
      .step held (.quiet still)
    cases next : Instr.run F.m F.fuel (F.m.call F.fuel F.depth) i s with
    | next s' =>
      have rest := ih (fun j hj => quiet j (by simp [hj])) (held.of_run still simple next)
      rw [func] at first ⊢
      exact first.append rest
    | _ => exact first

namespace Runs

variable {pre : List Word} {code : List Instr} {x : Watch α} {post : α → List Word}

/-- Code of instructions that change nothing, where nothing happens either. -/
theorem of_isQuiet (quiet : ∀ i ∈ code, i.isQuiet = true ∧ i.isSimple = true)
    (ends : ∀ below locals store W, HoldsLocals F.site.names vars locals → HoldsWorld F.p W store →
      (∃ a, x W = ([], .ok (a, W)) ∧
        F.run code ⟨pre ++ below, locals, store⟩ = .next ⟨post a ++ below, locals, store⟩) ∨
      ∃ h, x W = ([], .error h) ∧ h.Is (F.run code ⟨pre ++ below, locals, store⟩)) :
    F.Runs vars pre code x post := by
  intro below locals store W after hlocals hworld
  have enacts : F.Enacts (F.view vars W) [] (F.trace after code ⟨pre ++ below, locals, store⟩) _ :=
    enacts_of_isQuiet quiet rfl ⟨hlocals, hworld⟩ after
  rw [Does, Watch.log, Watch.outcome]
  rcases ends below locals store W hlocals hworld with ⟨a, same, eq⟩ | ⟨h, same, halts⟩
  · rw [same]
    exact ⟨_, enacts, rfl, locals, store, eq, hlocals, hworld⟩
  · rw [same]
    exact ⟨_, enacts, halts⟩

theorem const (w : Word) : F.Runs vars [] [.const w] (Pure.pure w) (fun w => [w]) :=
  .of_isQuiet (by simp [Instr.isQuiet, Instr.isSimple]) fun _ _ _ _ _ _ => .inl ⟨w, rfl, rfl⟩

theorem getLocal {x : String} (hx : x ∈ F.site.names) (ident : isSourceWord x = true) :
    F.Runs vars [] [.localGet (varSymbol x)] (readVar vars x) (fun w => [w]) := by
  refine .of_isQuiet (by simp [Instr.isQuiet, Instr.isSimple])
    fun below locals store W hlocals hworld => ?_
  obtain ⟨w, hw⟩ := exists_lookup (hlocals.keys ▸ hx)
  have read : readVar vars x W = .ok (w, W) := by
    rw [readVar, Eval.bind_of_ok (V := W) (a := W) rfl, hw]
    rfl
  refine .inl ⟨w, congrArg _ read, ?_⟩
  rw [← hlocals.lookup x ident] at hw
  simp [run, Instr.runAll, Instr.run, State.step, hw]

theorem getGlobal {x : String} (hx : x ∉ F.site.names) (known : x ∈ F.p.globalVars.map (·.name))
    (ident : isSourceWord x = true) :
    F.Runs vars [] [.globalGet (varSymbol x)] (readVar vars x) (fun w => [w]) := by
  refine .of_isQuiet (by simp [Instr.isQuiet, Instr.isSimple])
    fun below locals store W hlocals hworld => ?_
  obtain ⟨w, hw⟩ := exists_lookup (hworld.keys ▸ known)
  have none := lookup_eq_none (hlocals.keys ▸ hx)
  have read : readVar vars x W = .ok (w, W) := by
    rw [readVar, Eval.bind_of_ok (V := W) (a := W) rfl, none, Option.none_or, hw]
    rfl
  refine .inl ⟨w, congrArg _ read, ?_⟩
  rw [← hworld.lookup x ident] at hw
  simp [run, Instr.runAll, Instr.run, State.step, hw]

theorem neg (a : Word) :
    F.Runs vars [a] [.const (-1), .binary .mul] (Pure.pure (UnOp.neg.apply a)) (fun w => [w]) := by
  refine .of_isQuiet (by simp [Instr.isQuiet, Instr.isSimple]) fun _ _ _ _ _ _ => .inl ⟨_, rfl, ?_⟩
  rw [← mul_neg_one_eq]
  rfl

theorem not (a : Word) : F.Runs vars [a] [.eqz] (Pure.pure (UnOp.not.apply a)) (fun w => [w]) :=
  .of_isQuiet (by simp [Instr.isQuiet, Instr.isSimple]) fun _ _ _ _ _ _ => .inl ⟨_, rfl, rfl⟩

theorem binary (op : BinOp) (a b : Word) :
    F.Runs vars [b, a] [.binary (Surroundings.operation op)]
      (match op.apply a b with
       | .ok w => Pure.pure w
       | .error t => (Eval.trap t : Eval Word)) (fun w => [w]) := by
  refine .of_isQuiet (by simp [Instr.isQuiet, Instr.isSimple])
    fun below locals store W hlocals hworld => ?_
  rw [run_singleton, Instr.run_of_isStep rfl]
  simp only [State.step, List.cons_append, List.nil_append, Surroundings.apply_operation]
  cases op.apply a b with
  | ok w => exact .inl ⟨w, rfl, rfl⟩
  | error t => exact .inr ⟨_, rfl, congrArg _ hworld.output⟩

/-- The address of a field is that of its object and the place of the field. -/
theorem offset (a k : Word) :
    F.Runs vars [a] [.const k, .binary .add] (Pure.pure ()) (fun _ => [a + k]) :=
  .of_isQuiet (by simp [Instr.isQuiet, Instr.isSimple]) fun _ _ _ _ _ _ => .inl ⟨(), rfl, rfl⟩

/-- A field is read where it is accessed. -/
theorem load (a : Word) {k : Word} (field : F.p.HasPlace k) :
    F.Runs vars [a + k] [.load] (do Watch.note F.site vars (.access a k); Eval.load (a + k))
      (fun w => [w]) := by
  intro below locals store W after hlocals hworld
  rw [trace, Instr.trace_singleton, run_singleton]
  refine ⟨F.view vars W, .step (v := F.view vars W) ⟨hlocals, hworld⟩ (.read field rfl), ?_⟩
  rw [(Watch.bind_of_ok (Watch.outcome_note ..)).2, Watch.outcome_lift, Instr.run_of_isStep rfl]
  simp only [State.step, List.cons_append, List.nil_append, hworld.memory, hworld.output]
  cases found : W.memory.load? (a + k).address with
  | some w =>
    rw [Eval.load_of_some found]
    exact ⟨rfl, locals, store, rfl, hlocals, hworld⟩
  | none =>
    rw [Eval.load_of_none found]
    rfl

/-- The value of an expression is seen behind the code of the expression. -/
theorem valued {e : Expr} {x : Watch Word} (other : F.p.constructed? e = none)
    (follows : ∀ W V w, x.outcome W = .ok (w, V) → e.ValueAfter (x.log W) w)
    (compiled : (⟨Image.layoutsOf F.p, F.site.names⟩ : Surroundings).expr e = .ok code)
    (runs : F.Runs vars [] code x (fun w => [w])) :
    F.Runs vars [] code (Watch.valued F.site vars e x) (fun w => [w]) := by
  intro below locals store W after hlocals hworld
  obtain ⟨u, enacts, ends⟩ := runs below locals store W after hlocals hworld
  rw [Does, Watch.valued]
  cases result : x.outcome W with
  | error h =>
    rw [result] at ends
    rw [(Watch.bind_of_error result).1, (Watch.bind_of_error result).2]
    exact ⟨u, enacts, ends⟩
  | ok r =>
    obtain ⟨w, V⟩ := r
    rw [result] at ends
    obtain ⟨rfl, locals', store', eq, hlocals', hworld'⟩ := ends
    rw [(Watch.bind_of_ok result).1, (Watch.bind_of_ok result).2]
    refine ⟨_, .value (v := F.view vars W) (W := V) other enacts (follows W V w result) ?_, rfl,
      locals', store', eq, hlocals', hworld'⟩
    exact .intro compiled ((congrFun (congrFun (exec_eq ..) code) _).trans eq) rfl
      ⟨hlocals', hworld'⟩

end Runs

/-! ## §4 Calls -/

/-- A function that is called does what `x` does, beginning with the moment at which it is entered:
it ends with the result on top of the stack, and what is seen of it enacts what happens in it. -/
def Answers (F : Activation) (f : FunDef) (g : Func) (args : List Word) (W : World)
    (building : Objects) (x : Watch Word) (o : Outcome) (T : List Snapshot) : Prop :=
  ∃ log u, x.log W = ⟨some f, f.initialLocals args, W, .entered⟩ :: log ∧
    F.Enacts ⟨some f, g, f.zeroLocals args, W, none, building⟩ log T u ∧
    match x.outcome W with
    | .ok (w, V) => (∃ vars, u = ⟨some f, g, vars, V, none, building⟩) ∧
        ∃ s, (o = .next s ∨ o = .returned s) ∧ s.stack.take 1 = [w] ∧ HoldsWorld F.p V s.store
    | .error h => h.Is o

/-- The module has the printers of the host under their symbols, and for everything that can be
called a function that answers as `call` does, or traps where no more calls may be opened. -/
structure Links (F : Activation) (call : Call) : Prop where
  printers : ∀ pr : Printer, F.m.callee? (importSymbol pr.name) = some (.host pr)
  functions : ∀ entry ∈ Image.functionsOf F.p, ∃ g, F.m.callee? entry.1 = some (.func g) ∧
    g.params.length = entry.2.params.length ∧ g.results = 1 ∧
    ∀ args, args.length = entry.2.params.length → ∀ store W, HoldsWorld F.p W store →
      (∀ building, F.Answers entry.2 g args W building (call entry.2 args)
        (F.m.call F.fuel F.depth g args store) (F.m.enter F.fuel F.depth g args store)) ∨
      call entry.2 args W = ([], .error (.trap .stackExhausted W.output)) ∧
        F.m.call F.fuel F.depth g args store = .trapped .stackExhausted W.output ∧
        F.m.enter F.fuel F.depth g args store = []

variable {call : Call}

theorem Runs.print (links : F.Links call) (t : Ty) (w : Word) :
    F.Runs vars [w] [.call (importSymbol (Surroundings.printerOf t).name)]
      (do Eval.printLine (t.line w); Pure.pure w) (fun w => [w]) := by
  intro below locals store W after hlocals hworld
  have callee := links.printers (Surroundings.printerOf t)
  have printed := hworld.setOutput (W.output ++ t.line w ++ "\n")
  rw [trace, Instr.trace_singleton, run_singleton]
  simp only [Instr.inside, Instr.run, callee, List.cons_append, List.nil_append,
    Surroundings.format_printerOf, hworld.output]
  refine ⟨_, .step (v := F.view vars W) ⟨hlocals, hworld⟩ (.print callee rfl), ?_,
    locals, _, rfl, hlocals, printed⟩
  rw [Surroundings.format_printerOf]
  rfl

/-- A call takes the arguments from the stack, and leaves the locals of the caller as they are. -/
theorem Links.call_runs (links : F.Links call) {symbol : String} {f : FunDef}
    (mem : (symbol, f) ∈ Image.functionsOf F.p) {args : List Word}
    (arity : args.length = f.params.length) (below : List Word) {locals : Bindings} {store : Store}
    {W : World} (hlocals : HoldsLocals F.site.names vars locals) (hworld : HoldsWorld F.p W store)
    (after : List Instr) (building : Objects) :
    F.Does ⟨F.site, F.func, vars, W, none, building⟩ W (call f args)
      (F.trace after [.call symbol] ⟨args.reverse ++ below, locals, store⟩)
      (F.run [.call symbol] ⟨args.reverse ++ below, locals, store⟩) fun w V u o =>
        u = ⟨F.site, F.func, vars, V, none, building⟩ ∧
          ∃ store', o = .next ⟨w :: below, locals, store'⟩ ∧ HoldsWorld F.p V store' := by
  obtain ⟨g, callee, params, results, answers⟩ := links.functions _ mem
  have top : ((args.reverse ++ below).take g.params.length).reverse = args := by
    rw [params, ← arity, List.take_left' (by simp), List.reverse_reverse]
  have under : (args.reverse ++ below).drop g.params.length = below := by
    rw [params, ← arity, List.drop_left' (by simp)]
  have calls : View.Calls F.p F.m ⟨F.site, F.func, vars, W, none, building⟩
      ⟨args.reverse ++ below, locals, store⟩ symbol f g args :=
    ⟨⟨hlocals, hworld⟩, callee, mem, arity, List.take_left' (by simp), rfl⟩
  rw [trace, Instr.trace_singleton, run_singleton]
  simp only [Instr.inside, Instr.run, callee, top, under]
  rw [Does]
  rcases answers args arity store W hworld with answers | ⟨full, ran, seen⟩
  · obtain ⟨log, u, entered, body, ends⟩ := answers building
    rw [entered]
    cases result : (call f args).outcome W with
    | ok value =>
      obtain ⟨w, V⟩ := value
      rw [result] at ends
      obtain ⟨⟨_, rfl⟩, s, ends, onTop, hworld'⟩ := ends
      refine ⟨_, .call calls body, rfl, s.store, ?_, hworld'⟩
      rcases ends with ends | ends
      · simp [ends, results, onTop]
      · simp [ends, results, onTop]
    | error h =>
      rw [result] at ends
      refine ⟨_, .inside calls body, ?_⟩
      cases h with
      | trap t output =>
        have ends : F.m.call F.fuel F.depth g args store = .trapped t output := ends
        simp only [Halt.Is, ends]
      | unfinished =>
        have ends : F.m.call F.fuel F.depth g args store = .unfinished := ends
        simp only [Halt.Is, ends]
      | undefined => cases ends
  · rw [Watch.log, Watch.outcome, full, seen, ran]
    exact ⟨_, .step calls.held (.full callee), rfl⟩

theorem Runs.invoke (links : F.Links call) {symbol : String} {f : FunDef}
    (mem : (symbol, f) ∈ Image.functionsOf F.p) {args : List Word}
    (arity : args.length = f.params.length) :
    F.Runs vars args.reverse [.call symbol] (call f args) (fun w => [w]) := by
  intro below locals store W after hlocals hworld
  exact (links.call_runs mem arity below hlocals hworld after F.building).imp (fun _ => id)
    fun _ _ _ ⟨seen, store', eq, hworld'⟩ => ⟨seen, locals, store', eq, hlocals, hworld'⟩

end Activation

/-! ## §5 Objects -/

/-- The place of a field behind the address of its object. -/
def slotAt (entry : VarDef × Nat) : Slot :=
  ⟨entry.1.name, fieldPlace entry.2, entry.1.value⟩

theorem ClassDef.slots_layout (c : ClassDef) : c.layout.slots = c.fields.zipIdx.map slotAt := by
  rw [layout, ClassLayout.ofFields, List.mapIdx_eq_zipIdx_map]
  refine List.map_congr_left fun entry _ => ?_
  rw [slotAt, ← ClassLayout.offsetAt_eq]

theorem ClassDef.size_layout (c : ClassDef) : c.layout.size = fieldPlace c.fields.length := by
  rw [ClassLayout.size, slots_layout, List.length_map, List.length_zipIdx]
  exact ClassLayout.offsetAt_eq c.fields.length

/-- The code that keeps the address of a new object and moves the first free address behind it. -/
def ClassDef.reserve (c : ClassDef) : List Instr :=
  [.globalGet heapPointer, .localSet allocLocal, .globalGet heapPointer,
   .const (fieldPlace c.fields.length), .binary .add, .globalSet heapPointer, .localGet allocLocal]

/-- The code in front of the method that constructs: it makes the object and leaves its address. -/
def ClassDef.prologue (c : ClassDef) : List Instr :=
  (c.fields.zipIdx.map slotAt).flatMap ClassLayout.initSlot ++ c.reserve

theorem ClassDef.construct_layout (c : ClassDef) : c.layout.construct =
    c.prologue ++ ([Instr.call (methodSymbol c.name initMethod)] ++
      [.drop, .localGet allocLocal]) := by
  rw [ClassLayout.construct, slots_layout, size_layout, prologue, List.append_assoc]
  rfl

namespace Activation

variable {F : Activation} {vars : Bindings} {call : Call}

/-- What the program has in the function while an object of a class is in the making. -/
def making (F : Activation) (vars : Bindings) (c : ClassDef) (W : World) : View :=
  { F.view vars W with making := some c }

/-- Fields of an object in the making have got their initial values. -/
def Fills (F : Activation) (vars : Bindings) (c : ClassDef) (free : Word) (below : List Word)
    (locals : Bindings) (_ : Unit) (V : World) (u : View) (o : Outcome) : Prop :=
  V.free = free ∧ u = F.making vars c V ∧
    ∃ store, o = .next ⟨below, locals, store⟩ ∧ HoldsWorld F.p V store

/-- The code of a field stores its initial value in the object at the first free address. -/
theorem does_initSlot {c : ClassDef} {d : VarDef} {k : Nat} (found : c.fields[k]? = some d)
    (below : List Word) {locals : Bindings} {store : Store} {W : World}
    (hlocals : HoldsLocals F.site.names vars locals) (hworld : HoldsWorld F.p W store)
    (after : List Instr) :
    F.Does (F.making vars c W) W (liftM (Eval.store (W.free + fieldPlace k) d.value.word))
      (F.trace after (ClassLayout.initSlot (slotAt (d, k))) ⟨below, locals, store⟩)
      (F.run (ClassLayout.initSlot (slotAt (d, k))) ⟨below, locals, store⟩)
      (F.Fills vars c W.free below locals) := by
  -- the address and the value are put on the stack, and then the value is stored
  have code : ClassLayout.initSlot (slotAt (d, k)) = [.globalGet heapPointer, .const (fieldPlace k),
    .binary .add, .const d.value.word] ++ [.store] := rfl
  have operands : F.run [.globalGet heapPointer, .const (fieldPlace k), .binary .add,
      .const d.value.word] ⟨below, locals, store⟩ =
      .next ⟨d.value.word :: (W.free + fieldPlace k) :: below, locals, store⟩ := by
    simp [run, Instr.runAll, Instr.run, State.step, hworld.free, BinaryOp.apply]
  have enacts : ∀ {u}, View.Step F.p F.m ⟨d.value.word :: (W.free + fieldPlace k) :: below, locals,
      store⟩ (F.making vars c W) (.store :: after) [] u → F.Enacts (F.making vars c W) []
        (F.trace after (ClassLayout.initSlot (slotAt (d, k))) ⟨below, locals, store⟩) u := by
    intro u step
    rw [code, trace_append_of_next operands]
    refine .silent_append
      (enacts_of_isQuiet (by simp [Instr.isQuiet, Instr.isSimple]) rfl ⟨hlocals, hworld⟩ _) ?_
    rw [trace, Instr.trace_singleton]
    exact .step (v := F.making vars c W) ⟨hlocals, hworld⟩ step
  rw [Does, Watch.log_lift, Watch.outcome_lift]
  have ran : F.run (ClassLayout.initSlot (slotAt (d, k))) ⟨below, locals, store⟩ = _ :=
    (run_append_of_next operands _).trans (F.run_singleton ..)
  rw [ran, Instr.run_of_isStep rfl]
  simp only [State.step, hworld.memory]
  cases stored : W.memory.store? (W.free + fieldPlace k).address d.value.word with
  | some memory =>
    rw [Eval.store_of_some stored]
    exact ⟨_, enacts (.initField rfl found rfl stored), rfl, rfl, _, rfl, hworld.setMemory memory⟩
  | none =>
    rw [Eval.store_of_none stored, hworld.output]
    exact ⟨_, enacts (.missField rfl found rfl stored), rfl⟩

/-- The code of fields gives them their initial values in the object at the first free address. -/
theorem does_initSlots {c : ClassDef} (fields : List (VarDef × Nat))
    (within : ∀ entry ∈ fields, c.fields[entry.2]? = some entry.1) (below : List Word)
    {locals : Bindings} {store : Store} {W : World}
    (hlocals : HoldsLocals F.site.names vars locals) (hworld : HoldsWorld F.p W store)
    (after : List Instr) :
    F.Does (F.making vars c W) W (liftM
        (fields.forM fun (v, i) => Eval.store (W.free + fieldPlace i) v.value.word : Eval Unit))
      (F.trace after ((fields.map slotAt).flatMap ClassLayout.initSlot) ⟨below, locals, store⟩)
      (F.run ((fields.map slotAt).flatMap ClassLayout.initSlot) ⟨below, locals, store⟩)
      (F.Fills vars c W.free below locals) := by
  induction fields generalizing store W with
  | nil => exact ⟨_, .nil _, rfl, rfl, store, rfl, hworld⟩
  | cons entry fields ih =>
    obtain ⟨d, k⟩ := entry
    rw [List.map_cons, List.flatMap_cons, List.forM_eq_forM, List.forM_cons, Watch.lift_bind,
      F.trace_append, F.run_append]
    refine (does_initSlot (within (d, k) (by simp)) below hlocals hworld _).bind
      fun _ V u _ ⟨free, seen, store', eq, hworld'⟩ => ?_
    rw [seen, eq, ← free]
    exact ih (fun entry h => within entry (by simp [h])) hworld'

/-- The first free address moves behind the object, whose construction begins. -/
theorem enacts_reserve (c : ClassDef) (below : List Word) {locals : Bindings} {store : Store}
    {W : World} (hlocals : HoldsLocals F.site.names vars locals) (hworld : HoldsWorld F.p W store)
    (after : List Instr) {V : World}
    (moved : V = { W with free := W.free + fieldPlace c.fields.length }) :
    F.Enacts (F.making vars c W) [⟨F.site, vars, V, .made c W.free⟩]
      (F.trace (.call (methodSymbol c.name initMethod) :: after) c.reserve ⟨below, locals, store⟩)
      ⟨F.site, F.func, vars, V, none, (W.free, c) :: F.building⟩ ∧
    ∃ store', F.run c.reserve ⟨below, locals, store⟩ =
      .next ⟨W.free :: below, locals.set allocLocal W.free, store'⟩ ∧ HoldsWorld F.p V store' := by
  subst moved
  have kept : (locals.set allocLocal W.free).lookup allocLocal = some W.free :=
    Bindings.lookup_set_self hlocals.alloc
  have hlocals' := hlocals.setOther allocLocal (by decide) W.free
  have hworld' := hworld.setFree (W.free + fieldPlace c.fields.length)
  have code : c.reserve = [.globalGet heapPointer, .localSet allocLocal, .globalGet heapPointer,
    .const (fieldPlace c.fields.length), .binary .add] ++ ([.globalSet heapPointer] ++
      [.localGet allocLocal]) := rfl
  have address : F.run [.globalGet heapPointer, .localSet allocLocal, .globalGet heapPointer,
      .const (fieldPlace c.fields.length), .binary .add] ⟨below, locals, store⟩ =
      .next ⟨(W.free + fieldPlace c.fields.length) :: below, locals.set allocLocal W.free,
        store⟩ := by
    simp [run, Instr.runAll, Instr.run, State.step, hworld.free, BinaryOp.apply]
  have move : F.run [.globalSet heapPointer] ⟨(W.free + fieldPlace c.fields.length) :: below,
      locals.set allocLocal W.free, store⟩ =
      .next ⟨below, locals.set allocLocal W.free, { store with
        globals := store.globals.set heapPointer (W.free + fieldPlace c.fields.length) }⟩ := rfl
  rw [code, trace_append_of_next address, run_append_of_next address, trace_append_of_next move,
    run_append_of_next move]
  refine ⟨?_, _, by simp [run, Instr.runAll, Instr.run, State.step, kept], hworld'⟩
  refine .silent_append
    (enacts_of_isQuiet (by simp [Instr.isQuiet, Instr.isSimple]) rfl ⟨hlocals, hworld⟩ _) ?_
  refine .append_silent ?_
    (enacts_of_isQuiet (by simp [Instr.isQuiet, Instr.isSimple]) rfl ⟨hlocals', hworld'⟩ _)
  rw [trace, Instr.trace_singleton]
  exact .step (v := F.making vars c W) ⟨hlocals', hworld⟩ (.made rfl rfl rfl)

/-- Making an object: its fields, and the first free address. -/
theorem does_make {c : ClassDef} (mem : c ∈ F.p.allClasses) (below : List Word)
    {locals : Bindings} {store : Store} {W : World}
    (hlocals : HoldsLocals F.site.names vars locals) (hworld : HoldsWorld F.p W store)
    (after : List Instr) :
    F.Does (F.view vars W) W (c.make F.site vars)
      (F.trace (.call (methodSymbol c.name initMethod) :: after) c.prologue
        ⟨below, locals, store⟩) (F.run c.prologue ⟨below, locals, store⟩) fun self V u o =>
      u = ⟨F.site, F.func, vars, V, none, (self, c) :: F.building⟩ ∧
      (c.make F.site vars).log W =
        [(F.view vars W).moment (.making c self), u.moment (.made c self)] ∧
      ∃ store', o = .next ⟨self :: below, locals.set allocLocal self, store'⟩ ∧
        HoldsWorld F.p V store' := by
  have within : ∀ entry ∈ c.fields.zipIdx, c.fields[entry.2]? = some entry.1 :=
    fun entry h => List.mem_zipIdx_iff_getElem?.1 h
  obtain ⟨u, slots, ends⟩ := does_initSlots c.fields.zipIdx within below
    hlocals hworld (c.reserve ++ .call (methodSymbol c.name initMethod) :: after)
  have making : F.Enacts (F.view vars W) [(F.view vars W).moment (.making c W.free)] []
      (F.making vars c W) := .making mem rfl
  rw [Does, ClassDef.prologue]
  rw [Watch.outcome_lift] at ends
  rcases c.make_eq F.site vars W with ⟨halt, set, log, outcome⟩ | ⟨V, set, log, outcome⟩
  · rw [initFields] at set
    rw [set] at ends
    rw [log, outcome, F.trace_append, F.run_append, Halt.Is.goOn ends, List.append_nil]
    exact ⟨u, making.append slots, Halt.Is.andThen ends _⟩
  · rw [initFields] at set
    rw [set] at ends
    obtain ⟨free, rfl, store₁, eq, hworld₁⟩ := ends
    obtain ⟨made, store', reserved, hworld'⟩ := enacts_reserve c below hlocals hworld₁ after rfl
    rw [free] at made reserved hworld'
    rw [log, outcome, trace_append_of_next eq, run_append_of_next eq]
    exact ⟨_, (making.append slots).append made, rfl, rfl, store', reserved, hworld'⟩

/-- An object is made, and the method that constructs it is called, which may change everything but
the local that keeps the address. -/
theorem Runs.construct (links : F.Links call) {c : ClassDef} {e : Expr} (mem : c ∈ F.p.allClasses)
    (init : (methodSymbol c.name initMethod, c.init) ∈ Image.functionsOf F.p)
    (arity : c.init.params.length = 1) (constructs : F.p.constructed? e = some c)
    (compiled : (⟨Image.layoutsOf F.p, F.site.names⟩ : Surroundings).expr e =
      .ok c.layout.construct) :
    F.Runs vars [] c.layout.construct (Watch.valued F.site vars e (c.watch call F.site vars))
      (fun w => [w]) := by
  intro below locals store W after hlocals hworld
  obtain ⟨u, make, ends⟩ := does_make mem below hlocals hworld
    ([.drop, .localGet allocLocal] ++ after)
  rw [ClassDef.construct_layout] at compiled ⊢
  rw [Does, List.nil_append, Watch.valued, ClassDef.watch, bind_assoc]
  cases made : (c.make F.site vars).outcome W with
  | error h =>
    rw [made] at ends
    rw [(Watch.bind_of_error made).1, (Watch.bind_of_error made).2, F.trace_append, F.run_append,
      Halt.Is.goOn ends, List.append_nil]
    exact ⟨u, make, Halt.Is.andThen ends _⟩
  | ok r =>
    obtain ⟨self, V⟩ := r
    rw [made] at ends
    obtain ⟨rfl, log, store₁, eq, hworld₁⟩ := ends
    have hlocals' := hlocals.setOther allocLocal (by decide) self
    have one : [self].length = c.init.params.length := arity.symm
    obtain ⟨t, called, ended⟩ := links.call_runs init one below hlocals' hworld₁
      ([.drop, .localGet allocLocal] ++ after) ((self, c) :: F.building)
    rw [List.reverse_singleton, List.singleton_append] at called ended
    rw [(Watch.bind_of_ok made).1, (Watch.bind_of_ok made).2, bind_assoc, pure_bind]
    rw [trace_append_of_next eq, run_append_of_next eq]
    cases result : (call c.init [self]).outcome V with
    | error h =>
      rw [result] at ended
      rw [(Watch.bind_of_error result).1, (Watch.bind_of_error result).2, F.trace_append,
        F.run_append, Halt.Is.goOn ended, List.append_nil]
      exact ⟨t, make.append called, Halt.Is.andThen ended _⟩
    | ok value =>
      obtain ⟨w, V'⟩ := value
      rw [result] at ended
      obtain ⟨rfl, store₂, eq₂, hworld₂⟩ := ended
      rw [(Watch.bind_of_ok result).1, (Watch.bind_of_ok result).2, trace_append_of_next eq₂,
        run_append_of_next eq₂, log]
      have kept : (locals.set allocLocal self).lookup allocLocal = some self :=
        Bindings.lookup_set_self hlocals.alloc
      have left : F.run [.drop, .localGet allocLocal] ⟨w :: below, locals.set allocLocal self,
          store₂⟩ = .next ⟨self :: below, locals.set allocLocal self, store₂⟩ := by
        simp [run, Instr.runAll, Instr.run, State.step, kept]
      refine ⟨_, .construct constructs (log ▸ make) rfl (called.append_silent (enacts_of_isQuiet
        (by simp [Instr.isQuiet, Instr.isSimple]) rfl ⟨hlocals', hworld₂⟩ after)) ?_, rfl, _,
        store₂, left, hlocals', hworld₂⟩
      have all : F.run _ _ = .next ⟨self :: below, locals.set allocLocal self, store₂⟩ :=
        (run_append_of_next eq _).trans ((run_append_of_next eq₂ _).trans left)
      rw [← trace_append_of_next eq₂, ← trace_append_of_next eq]
      exact .intro compiled ((congrFun (congrFun (exec_eq ..) _) _).trans all) rfl
        ⟨hlocals', hworld₂⟩

/-! ## §6 Expressions -/

/-- Arguments are left one above the other, the last one on top. -/
theorem Runs.all {args : List Expr} {code : Expr → List Instr}
    (each : ∀ a ∈ args, F.Runs vars [] (code a) (a.watch F.p call F.site vars) (fun w => [w])) :
    F.Runs vars [] (args.flatMap code) (Expr.watchAll F.p call F.site vars args)
      (fun ws => ws.reverse) := by
  induction args with
  | nil => exact .pure rfl
  | cons a args ih =>
    rw [List.flatMap_cons, Expr.watchAll]
    refine (each a (by simp)).bind fun w => ?_
    have rest := (ih fun b hb => each b (by simp [hb])).frame [w]
    exact rest.map fun ws => (List.reverse_cons).symm

end Activation

theorem Expr.length_of_watchAll {p : Program} {call : Call} {site : Site} {vars : Bindings}
    {es : List Expr} {W V : World} {ws : List Word}
    (h : (Expr.watchAll p call site vars es).outcome W = .ok (ws, V)) : ws.length = es.length := by
  have each : ∀ e ∈ es, Watch.Erases (e.watch p call site vars)
      (e.eval p (fun f args => (call f args).outcome) vars) :=
    fun e _ => e.erases_watch (fun _ _ _ => rfl) vars
  rw [Expr.erases_watchAll each W] at h
  exact Expr.length_of_evalAll h

theorem Expr.watch_construct {p : Program} {call : Call} {site : Site} {vars : Bindings}
    {ty : Option Ty} {f : String} {c : ClassDef} (notPrint : f ≠ printFunction)
    (found : p.class? f = some c) : Expr.watch p call site vars (.call ty f []) =
      Watch.valued site vars (.call ty f []) (c.watch call site vars) := by
  rw [Expr.watch.eq_def]
  simp only [if_neg notPrint, found]
  rfl

/-- A call of a function evaluates its arguments first. -/
theorem Expr.watch_call {p : Program} {call : Call} {site : Site} {vars : Bindings}
    {ty : Option Ty} {f : String} {args : List Expr} {d : FunDef} (notPrint : f ≠ printFunction)
    (noClass : p.class? f = none) (found : p.function? f = some d) :
    Expr.watch p call site vars (.call ty f args) = Watch.valued site vars (.call ty f args)
      (Expr.watchAll p call site vars args >>= fun ws => call d ws) := by
  rw [Expr.watch.eq_def]
  simp only [if_neg notPrint, noClass, found]
  rfl

/-- The value of an expression is what happens last in it. -/
theorem Expr.exists_of_watch_ok {p : Program} {call : Call} {site : Site} {vars : Bindings}
    {e : Expr} {W V : World} {w : Word} (h : (e.watch p call site vars).outcome W = .ok (w, V)) :
    ∃ earlier, (e.watch p call site vars).log W = earlier ++ [⟨site, vars, V, .value e w⟩] := by
  have valued : ∃ x, e.watch p call site vars = Watch.valued site vars e x := by
    cases e with
    | call a f args => exact ⟨_, watch.eq_def p call site vars (.call a f args)⟩
    | _ => exact ⟨_, rfl⟩
  obtain ⟨x, eq⟩ := valued
  rw [eq, Watch.valued] at h ⊢
  obtain ⟨w', V', -, noted, log⟩ := Watch.exists_of_bind_ok h
  cases noted
  exact ⟨x.log W, log⟩

/-- The value of `print` is the last one before it. -/
theorem Expr.follows_print {p : Program} {call : Call} {site : Site} {vars : Bindings}
    {arg : Expr} {k : Word → Watch Word} {W V : World} {w : Word} (a : Option Ty)
    (same : ∀ w W, ∃ U, k w W = ([], .ok (w, U)))
    (h : (arg.watch p call site vars >>= k).outcome W = .ok (w, V)) :
    (Expr.call a printFunction [arg]).ValueAfter ((arg.watch p call site vars >>= k).log W) w := by
  refine ⟨fun _ _ eq => ?_, nofun⟩
  cases eq
  obtain ⟨w', V', value, printed, log⟩ := Watch.exists_of_bind_ok h
  obtain ⟨earlier, eq⟩ := exists_of_watch_ok value
  obtain ⟨U, result⟩ := same w' V'
  rw [Watch.outcome, result] at printed
  cases printed
  rw [log, eq, Watch.log, result]
  exact ⟨earlier, _, List.append_nil _, rfl⟩

/-- What is compared to a literal is the last value before the literal. -/
theorem Expr.follows_binary {p : Program} {call : Call} {site : Site} {vars : Bindings}
    {op : BinOp} {l r : Expr} {k : Word → Word → Watch Word} {W V : World} {w : Word}
    (a : Option Ty) (applied : ∀ b c w, op.apply b c = .ok w → k b c = pure w)
    (h : (l.watch p call site vars >>= fun b => r.watch p call site vars >>= k b).outcome W =
      .ok (w, V)) : (Expr.binary a op l r).ValueAfter
        ((l.watch p call site vars >>= fun b => r.watch p call site vars >>= k b).log W) w := by
  refine ⟨nofun, fun _ _ b v same => ?_⟩
  cases same
  obtain ⟨u, V₁, left, rest, log⟩ := Watch.exists_of_bind_ok h
  obtain ⟨earlier, eq⟩ := exists_of_watch_ok left
  rw [log, (Watch.bind_of_ok (V := V₁) (a := v.word) rfl).1, applied u v.word _ rfl]
  rw [(Watch.bind_of_ok (V := V₁) (a := v.word) rfl).2, applied u v.word _ rfl] at rest
  cases rest
  rw [eq]
  exact ⟨earlier, _, _, u, List.append_assoc .., rfl, rfl⟩

/-- The code of an expression runs as the expression is evaluated, and shows what happens then. -/
theorem Expr.Lowers.runs {F : Activation} {vars : Bindings} {call : Call}
    (resolved : F.p.IsResolved) (ids : F.p.HasWords)
    (locals : ∀ x ∈ F.site.names, isSourceWord x = true) (links : F.Links call) {e : Expr}
    {code : List Instr} (h : e.Lowers F.p F.site.names code) :
    F.Runs vars [] code (e.watch F.p call F.site vars) (fun w => [w]) := by
  have compiled : ∀ {e : Expr} {code : List Instr}, e.Lowers F.p F.site.names code →
      (⟨Image.layoutsOf F.p, F.site.names⟩ : Surroundings).expr e = .ok code :=
    fun lowers => lowers.expr_eq resolved.classes
  -- most values do not depend on what stands right before them
  have plain : ∀ {e : Expr} {code : List Instr} {x : Watch Word}, F.p.constructed? e = none →
      (∀ before w, e.ValueAfter before w) → e.Lowers F.p F.site.names code →
      F.Runs vars [] code x (fun w => [w]) →
      F.Runs vars [] code (Watch.valued F.site vars e x) (fun w => [w]) :=
    fun other follows lowers => .valued other (fun _ _ _ _ => follows _ _) (compiled lowers)
  induction h with
  | literal ty v => exact plain rfl (fun _ _ => ⟨by simp, by simp⟩) (.literal ty v) (.const v.word)
  | readLocal ty hx =>
    exact plain rfl (fun _ _ => ⟨by simp, by simp⟩) (.readLocal ty hx) (.getLocal hx (locals _ hx))
  | readGlobal ty hx known =>
    obtain ⟨v, hv, rfl⟩ := List.mem_map.1 known
    exact plain rfl (fun _ _ => ⟨by simp, by simp⟩) (.readGlobal ty hx known)
      (.getGlobal hx known (ids.globals v hv))
  | neg ty operand ih =>
    rw [Expr.watch]
    exact plain rfl (fun _ _ => ⟨by simp, by simp⟩) (.neg ty operand) (ih.bind fun a => .neg a)
  | not ty operand ih =>
    rw [Expr.watch]
    exact plain rfl (fun _ _ => ⟨by simp, by simp⟩) (.not ty operand) (ih.bind fun a => .not a)
  | binary ty op hl hr ihl ihr =>
    have lowers := compiled (.binary ty op hl hr)
    rw [List.append_assoc] at lowers ⊢
    rw [Expr.watch]
    exact .valued rfl (fun _ _ _ => Expr.follows_binary ty fun b c w eq => by rw [eq]) lowers
      (ihl.bind fun a => (ihr.frame [a]).bind fun b => .binary op a b)
  | print ty typed argument ih =>
    have lowers := compiled (.print ty typed argument)
    rw [Expr.watch, if_pos rfl, typed]
    exact .valued (by simp [Program.constructed?])
      (fun _ _ _ => Expr.follows_print ty fun _ _ => ⟨_, rfl⟩) lowers
      (ih.bind fun w => .print links _ w)
  | construct ty notPrint found =>
    obtain ⟨mem, -⟩ := Program.mem_of_class? found
    rw [Expr.watch_construct notPrint found]
    exact .construct links mem (Program.mem_functionsOf_init mem) (resolved.init_params mem)
      ((if_neg notPrint).trans found) (compiled (.construct ty notPrint found))
  | call ty code notPrint noClass found arity arguments ih =>
    rw [Expr.watch_call notPrint noClass found]
    refine plain ((if_neg notPrint).trans noClass) (fun _ _ => ⟨fun _ _ same => ?_, by simp⟩)
      (.call ty code notPrint noClass found arity arguments)
      ((Activation.Runs.all ih).bindOf fun ws W V values => ?_)
    · cases same
      exact absurd rfl notPrint
    · have length := Expr.length_of_watchAll values
      exact .invoke links (Program.mem_functionsOf_function found) (length.trans arity.symm)
  | field ty found place receiver ih =>
    rw [Expr.watch, found, Option.bind_some, place]
    exact plain rfl (fun _ _ => ⟨by simp, by simp⟩) (.field ty found place receiver)
      (ih.bind fun a => (Activation.Runs.offset a _).bind fun _ =>
        .load a (Program.hasPlace found place))
  | @method ty o x args c f self code found member arity receiver arguments ih ihargs =>
    have mem := (Program.mem_of_class? (Program.class?_of_classOf? found)).1
    have lowers := compiled (.method ty code found member arity receiver arguments)
    rw [List.append_assoc] at lowers ⊢
    rw [Expr.watch, found, Option.bind_some, member]
    refine .valued rfl (fun _ _ _ _ => ⟨by simp, by simp⟩) lowers (ih.bind fun a =>
      ((Activation.Runs.all ihargs).frame [a]).bindOf fun ws W V values => ?_)
    have length := Expr.length_of_watchAll values
    have all : (a :: ws).length = f.params.length := by rw [List.length_cons, length, arity]
    change F.Runs vars (ws.reverse ++ [a]) _ (call f (a :: ws)) _
    rw [← List.reverse_cons]
    exact .invoke links (Program.mem_functionsOf_method mem member) all

end Serpent
