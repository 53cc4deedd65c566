/-
Serpent.Proofs.TopLevel — only the top level of a program changes its global variables.

A function reads global variables, but an assignment in it is to a variable of its own. So while a
function, a method or a constructor runs, the global variables of the program are what they were
when it was called; the first free address is the only global that moves.

  §1 Stores with the same variables
  §2 Code that sets no variable
  §3 Calls
  §4 The top level
-/
import Serpent.Proofs.Checking
import Serpent.Proofs.Compiled
import Serpent.Proofs.Parts
import Serpent.Proofs.Trace

namespace Serpent

open Wasm (Bindings CallsWalk Func Instr Limits Module Outcome Path Snapshot State Store Walks)
open Wasm.Instr (Built)

/-! ## §1 Stores with the same variables -/

/-- The value of a global variable of a program. -/
def VarDef.valueIn (v : VarDef) (store : Store) : Option Word :=
  store.globals.lookup (varSymbol v.name)

/-- The global variables of a program have the same values in two stores. -/
def Program.SameVars (p : Program) (store store' : Store) : Prop :=
  ∀ v ∈ p.globalVars, v.valueIn store' = v.valueIn store

theorem Program.SameVars.refl {p : Program} (store : Store) : p.SameVars store store :=
  fun _ _ => rfl

theorem Program.SameVars.trans {p : Program} {a b c : Store} (h : p.SameVars a b)
    (h' : p.SameVars b c) : p.SameVars a c :=
  fun v hv => (h' v hv).trans (h v hv)

/-- An instruction that changes the value of a variable sets it. -/
theorem VarDef.valueIn_of_leads (v : VarDef) {i : Instr} {s : State} {store : Store}
    (h : i.Leads s store) :
    v.valueIn store = v.valueIn s.store ∨ i = .globalSet (varSymbol v.name) := by
  unfold valueIn
  rcases h.globals with same | ⟨x, w, rfl, set⟩
  · exact .inl (by rw [same])
  · by_cases same : varSymbol v.name = x
    · exact .inr (by rw [same])
    · exact .inl (by rw [set, Bindings.lookup_set_of_ne same])

/-! ## §2 Code that sets no variable -/

/-- An instruction neither sets one of these variables nor calls the entry. -/
structure Wasm.Instr.Spares (vars : List VarDef) (i : Instr) : Prop where
  vars : ∀ v ∈ vars, i ≠ .globalSet (varSymbol v.name)
  entry : i ≠ .call entrySymbol

namespace Wasm.Instr.Spares

variable {vars : List VarDef}

theorem inner {i : Instr} (h : i.isInner = true) : i.Spares vars where
  vars := by
    rintro v - rfl
    cases h
  entry := by
    rintro rfl
    cases h

theorem call {symbol : String} (h : symbol ≠ entrySymbol) : (Instr.call symbol).Spares vars :=
  ⟨by simp, by simpa using h⟩

/-- All code but that of the top level spares the global variables. -/
theorem codeKind {p : Program} (ids : p.HasWords) (within : vars ⊆ p.globalVars) :
    p.CodeKind (Spares vars) where
  inner _ := inner
  printers pr := call (by cases pr <;> decide)
  calls entry mem := call (ids.symbol_ne mem (by decide))
  objects c hc := by
    refine c.built_construct (fun _ => inner) ⟨fun v hv => ?_, by simp⟩ ⟨by simp, by simp⟩
      (call (ids.symbol_ne (p.mem_functionsOf_init hc) (by decide)))
    have other : varSymbol v.name ≠ heapPointer :=
      varSymbol_ne (ids.globals v (within hv)) (by decide)
    simpa using other.symm

end Wasm.Instr.Spares

/-! ## §3 Calls -/

section

variable {p : Program} {i : Image} {call : Func → List Word → Store → Outcome}
variable {enter : Func → List Word → Store → List Snapshot}

/-- A function of the module of an image that is not its entry. -/
def Image.IsRoutine (i : Image) (g : Func) : Prop := ∃ r ∈ i.routines, r.toFunc = g

theorem Image.Lowers.isRoutine_of_callee? (h : i.Lowers p) {name : String} {g : Func}
    (found : i.toModule.callee? name = some (.func g)) (other : name ≠ entrySymbol) :
    i.IsRoutine g := by
  obtain ⟨mem, rfl⟩ := Module.mem_of_callee? found
  obtain ⟨_, _, _, -, -, entry⟩ := h.code
  rcases List.mem_append.1 mem with mem | mem
  · exact List.mem_map.1 mem
  · rw [List.mem_singleton.1 mem, entry] at other
    exact absurd rfl other

/-- What follows a snapshot while a function is called: the global variables have the same values,
and a function that is entered is a routine. -/
structure Image.Keeps (p : Program) (i : Image) (a : Snapshot) (store : Store) : Prop where
  vars : p.SameVars a.state.store store
  entered : a.point = .entered → i.IsRoutine a.func

/-- Code that spares the global variables keeps them. -/
theorem Image.Lowers.walks_keeps (h : i.Lowers p) (fuel : Nat)
    (calls : CallsWalk (i.Keeps p) i.IsRoutine call enter) {code : List Instr}
    (built : Built (Instr.Spares p.globalVars) code) (f : Func)
    (after : List Instr) (s : State) :
    Walks (i.Keeps p) s.store (Instr.trace i.toModule fuel call enter f after code s)
      (Instr.runAll i.toModule fuel call code s) := by
  refine built.walks calls ?_ ?_ after s
  · exact fun name g spares found => h.isRoutine_of_callee? found (by simpa using spares.entry)
  · intro code rest s store spares leads
    refine ⟨fun v hv => ?_, by simp⟩
    exact (v.valueIn_of_leads leads).resolve_right (spares.vars v hv)

theorem Image.Lowers.calls_keep (h : i.Lowers p) (ids : p.HasWords) (typed : p.IsTyped)
    (fuel depth : Nat) : CallsWalk (i.Keeps p) i.IsRoutine
      (i.toModule.call fuel depth) (i.toModule.enter fuel depth) := by
  refine Module.calls_walk ?_ ?_ ?_ depth
  · exact fun g s routine => ⟨.refl _, fun _ => routine⟩
  · exact fun g s _ => ⟨.refl _, by simp⟩
  · rintro g ⟨r, hr, rfl⟩ depth calls args store
    obtain ⟨_, _, _, routines, -, -⟩ := h.code
    obtain ⟨symbol, f, code, k, k', mem, rfl, body⟩ := routines.exists_of_mem hr
    have kind := Instr.Spares.codeKind ids (List.Subset.refl _)
    exact h.walks_keeps fuel calls (kind.built_routine typed mem body) _ []
      ⟨[], (f.routine symbol code).toFunc.initialLocals args, store⟩

/-- Along a path that keeps the global variables, they have the values they had at its start. -/
theorem Image.sameVars_of_path {a b : Store} {T : List Snapshot} (h : Path (i.Keeps p) a T b) :
    (∀ s ∈ T, p.SameVars a s.state.store) ∧ p.SameVars a b := by
  induction h with
  | nil => exact ⟨by simp, .refl _⟩
  | cons first rest ih =>
    refine ⟨fun s hs => ?_, first.vars.trans ih.2⟩
    rcases List.mem_cons.1 hs with rfl | hs
    · exact .refl _
    · exact first.vars.trans (ih.1 s hs)

end

/-! ## §4 The top level -/

section

variable {p : Program} {i : Image}

/-- What follows a snapshot of a module: a global variable has the same value unless the top level
sets it, and a function that is entered is a routine. -/
structure Image.Assigns (p : Program) (i : Image) (a : Snapshot) (store : Store) : Prop where
  vars : ∀ v ∈ p.globalVars, v.valueIn store = v.valueIn a.state.store ∨
    a.func = i.entry.toFunc ∧ ∃ code, a.point = .reached (.globalSet (varSymbol v.name) :: code)
  entered : a.point = .entered → i.IsRoutine a.func

theorem Image.Keeps.assigns {a : Snapshot} {store : Store} (h : i.Keeps p a store) :
    i.Assigns p a store :=
  ⟨fun v hv => .inl (h.vars v hv), h.entered⟩

/-- The code of the entry sets global variables, and the functions that it calls keep them. -/
theorem Image.Lowers.walks_assigns (h : i.Lowers p) (fuel : Nat)
    {call : Func → List Word → Store → Outcome} {enter : Func → List Word → Store → List Snapshot}
    (calls : CallsWalk (i.Keeps p) i.IsRoutine call enter) {code : List Instr}
    (built : Built (Instr.Spares []) code) (after : List Instr) (s : State) :
    Walks (i.Assigns p) s.store
      (Instr.trace i.toModule fuel call enter i.entry.toFunc after code s)
      (Instr.runAll i.toModule fuel call code s) := by
  have called := calls.mono fun _ _ keeps => keeps.assigns
  refine built.walks called ?_ ?_ after s
  · exact fun name g spares found => h.isRoutine_of_callee? found (by simpa using spares.entry)
  · intro code rest s store _ leads
    refine ⟨fun v _ => ?_, by simp⟩
    rcases v.valueIn_of_leads leads with same | rfl
    · exact .inl same
    · exact .inr ⟨rfl, rest, rfl⟩

/-- The trace of a module is that of its entry, which is not entered again. -/
theorem Image.Lowers.trace_eq (h : i.Lowers p) (ids : p.HasWords) (typed : p.IsTyped)
    (limits : Limits) : ∃ s T store, i.toModule.trace limits = ⟨i.entry.toFunc, .entered, s⟩ :: T ∧
      Path (i.Assigns p) s.store T store := by
  obtain ⟨_, code, _, -, stmts, entry⟩ := h.code
  have kind := Instr.Spares.codeKind ids (List.nil_subset _)
  have built : Built (Instr.Spares []) i.entry.toFunc.body := by
    rw [entry]
    exact kind.built_entry typed (fun v _ => ⟨by simp, by simp⟩) stmts
  have calls := h.calls_keep ids typed limits.fuel limits.depth
  have left : ∀ s : State, i.Assigns p ⟨i.entry.toFunc, .left, s⟩ s.store :=
    fun s => ⟨fun _ _ => .inl rfl, by simp⟩
  obtain ⟨store, path, -⟩ := Wasm.Func.visit_walks left (h.walks_assigns limits.fuel calls built []
    ⟨[], i.entry.toFunc.initialLocals [], i.toModule.initialStore limits.pages⟩)
  refine ⟨_, _, store, ?_, path⟩
  rw [Module.trace, h.exported?_eq]
  rfl

end

/-- Functions cannot change the global variables of a program. Whatever a function, a method or a
constructor does while it is called, also where it does not return, they have the values that they
had before. Of a whole run, a global variable changes only where the top level sets it, and the top
level is not called again. -/
theorem Program.calls_keep_globals {source : String} {p q : Program}
    (parsed : Program.parse source = .ok p) (checked : p.check = .ok q) :
    ∃ i, Image.ofProgram q = .ok i ∧ Module.read? i.text = some i.toModule ∧
      i.routines.map (·.symbol) = (Image.functionsOf q).map (·.1) ∧
      (∀ r ∈ i.routines, ∀ fuel depth args store,
        (∀ a ∈ i.toModule.enter fuel depth r.toFunc args store, q.SameVars store a.state.store) ∧
        ∀ s, (i.toModule.call fuel depth r.toFunc args store).result? = some s →
          q.SameVars store s.store) ∧
      (∀ c ∈ q.allClasses, ∀ fuel depth s s',
        Wasm.exec i.toModule fuel depth c.layout.construct s = .next s' →
          q.SameVars s.store s'.store) ∧
      ∀ limits,
        ((i.toModule.trace limits).IsChain fun a b => ∀ v ∈ q.globalVars,
          v.valueIn b.state.store = v.valueIn a.state.store ∨ a.func = i.entry.toFunc ∧
            ∃ code, a.point = .reached (.globalSet (varSymbol v.name) :: code)) ∧
        ∀ a ∈ (i.toModule.trace limits).tail, a.point = .entered →
          ∃ r ∈ i.routines, r.toFunc = a.func := by
  obtain ⟨i, hi, lowers, resolved, ids⟩ := exists_image_of_check parsed checked
  have typed := isTyped_of_check checked
  obtain ⟨_, _, _, routines, -, -⟩ := lowers.code
  refine ⟨i, hi, lowers.read?_text resolved ids, routines.symbols, ?_, ?_, fun limits => ?_⟩
  · intro r hr fuel depth args store
    obtain ⟨_, path, ends⟩ :=
      lowers.calls_keep ids typed fuel depth r.toFunc ⟨r, hr, rfl⟩ args store
    refine ⟨(Image.sameVars_of_path path).1, fun s hs => ?_⟩
    rw [ends s.store (Outcome.store?_of_result? hs)]
    exact (Image.sameVars_of_path path).2
  · intro c hc fuel depth s s' result
    have kind := Instr.Spares.codeKind ids (List.Subset.refl _)
    obtain ⟨_, path, ends⟩ := lowers.walks_keeps fuel (lowers.calls_keep ids typed fuel depth)
      (kind.objects c hc) i.entry.toFunc [] s
    rw [← Wasm.exec_eq, result] at ends
    rw [ends s'.store rfl]
    exact (Image.sameVars_of_path path).2
  · obtain ⟨s, T, store, trace, path⟩ := lowers.trace_eq ids typed limits
    have vars : Path (fun a store => ∀ v ∈ q.globalVars,
        v.valueIn store = v.valueIn a.state.store ∨ a.func = i.entry.toFunc ∧
          ∃ code, a.point = .reached (.globalSet (varSymbol v.name) :: code))
        s.store (⟨i.entry.toFunc, .entered, s⟩ :: T) store :=
      .cons (a := ⟨i.entry.toFunc, .entered, s⟩) (fun _ _ => .inl rfl)
        (path.mono fun _ _ assigns => assigns.vars)
    rw [trace]
    refine ⟨vars.isChain, fun a ha entered => ?_⟩
    obtain ⟨_, assigns⟩ := path.exists_of_mem ha
    exact assigns.entered entered

/-- A counter that a function hides behind a parameter of its own, and that a constructor reads. -/
def Program.tallying : Program where
  defs := [.var ⟨"count", .int, .number 1⟩,
    .class_ ⟨"Step", objectClass, [⟨"by", .int, .number 2⟩],
      [⟨initMethod, [⟨"self", .object "Step"⟩], .none, [],
        [.assign (.member (.var none "self") "by")
          (.binary none .add (.field none (.var none "self") "by") (.var none "count"))]⟩]⟩,
    .function ⟨"next", [⟨"count", .int⟩], .int, [],
      [.assign (.var "count") (.binary none .add (.var none "count") (.literal none (.number 1))),
       .return_ (.var none "count")]⟩]
  stmts := [.assign (.var "count") (.binary none .add (.call none "next" [.var none "count"])
    (.field none (.call none "Step" []) "by"))]

/-- The counter is set twice: to its initial value, and at the end. -/
theorem Program.calls_keep_globals_tallying : ∃ q i, tallying.check = .ok q ∧
    Image.ofProgram q = .ok i ∧
    ((i.toModule.trace ⟨1, 10, 10⟩).map fun a =>
      (⟨"count", .int, .number 1⟩ : VarDef).valueIn a.state.store).eraseReps =
        [some 0, some 1, some 5] ∧
    ∀ r ∈ i.routines, ∀ a ∈ i.toModule.enter 10 10 r.toFunc [4] (i.toModule.initialStore 1),
      q.SameVars (i.toModule.initialStore 1) a.state.store := by
  have values : (tallying.check.toOption.bind fun q => (Image.ofProgram q).toOption.map fun i =>
      ((i.toModule.trace ⟨1, 10, 10⟩).map fun a =>
        (⟨"count", .int, .number 1⟩ : VarDef).valueIn a.state.store).eraseReps) =
      some [some 0, some 1, some 5] := by decide +kernel
  cases checked : tallying.check with
  | error e =>
    rw [checked] at values
    cases values
  | ok q =>
    have parsed := parse_of_tokens (by decide) (lex_text (p := tallying) (by decide))
    obtain ⟨i, hi, -, -, calls, -⟩ := calls_keep_globals parsed checked
    rw [checked, Except.toOption, Option.bind_some, hi, Except.toOption, Option.map_some,
      Option.some.injEq] at values
    exact ⟨q, i, rfl, hi, values, fun r hr => (calls r hr 10 10 [4] _).1⟩

end Serpent
