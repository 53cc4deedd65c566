/-
Serpent.Proofs.TypeSafety — every snapshot of a checked program fits its types.

What happens in a program fits its types (`Sound`). The machine takes more steps than that:
variables are zero before they have their initial values, and the fields of a new object get theirs
one by one. Here every snapshot of a module is followed. As long as nothing is accessed through 0 and there is
room for all objects, also for the one in the making, the variables and the fields that the machine
has at a snapshot hold values of their types.

  §1 Logs that fit
  §2 Views that fit
  §3 Programs
-/
import Serpent.Proofs.Soundness

namespace Serpent

open Wasm (Module)

/-! ## §1 Logs that fit -/

/-- After a history, everything fits its type at every moment of a log. -/
def LogFits (p : Program) (history log : List Moment) : Prop :=
  ∀ before x after, log = before ++ x :: after → x.Fits p (made (history ++ before ++ [x]))

/-- Everything that a program has fits its type. -/
structure View.Fits (p : Program) (objects : Objects) (v : View) : Prop where
  world : v.world.Fits p objects
  locals : Fit objects v.site.vars v.vars

section

variable {p : Program} {history log log' : List Moment} {v : View}

theorem LogFits.left (h : LogFits p history (log ++ log')) : LogFits p history log := by
  rintro before x after rfl
  exact h before x (after ++ log') (by simp)

theorem LogFits.right (h : LogFits p history (log ++ log')) : LogFits p (history ++ log) log' := by
  rintro before x after rfl
  rw [List.append_assoc history]
  exact h (log ++ before) x after (by simp)

/-- What the program has at the last moment of a log fits. -/
theorem LogFits.last (log : List Moment) {event : Event}
    (h : LogFits p history (log ++ [v.moment event])) :
    v.Fits p (made (history ++ (log ++ [v.moment event]))) := by
  have fits := h log (v.moment event) [] rfl
  rw [List.append_assoc] at fits
  exact ⟨fits.world, fits.locals⟩

/-! ## §2 Views that fit -/

/-- The variables of a function fit before they have their initial values. -/
theorem FunDef.fit_zeroLocals {f : FunDef} {objects : Objects} {args : List Word}
    (arity : args.length = f.params.length) (h : Fit objects f.vars (f.initialLocals args)) :
    Fit objects f.vars (f.zeroLocals args) := by
  have params : Fit objects (f.params.map fun a => (a.name, a.ty))
      ((f.params.map (·.name)).zip args) := by
    have front := List.forall₂_take_append _ _ _ h
    rwa [List.length_zip, List.length_map, arity, Nat.min_self, FunDef.vars,
      List.take_left' (List.length_map _)] at front
  have locals : Fit objects (f.locals.map fun v => (v.name, v.ty))
      (f.locals.map fun v => (v.name, 0)) := .of_varDefs fun v _ => .zero objects v.ty
  exact List.rel_append params locals

theorem Program.IsSettled.isSafe_of_local (settled : p.IsSettled) {symbol : String} {f : FunDef}
    {d : VarDef} (function : (symbol, f) ∈ Image.functionsOf p) (mem : d ∈ f.locals) :
    f.IsSafe p := by
  rcases Image.mem_functionsOf function with ⟨c, -, rfl⟩ | ⟨c, hc, hf, -⟩ | ⟨hf, -⟩
  · cases mem
  · exact settled.methods c hc f hf
  · exact settled.functions f hf

variable {m : Module} {u : View}

/-- One instruction keeps everything fitting, if what happens with it fits and there is room for the
object in the making. -/
theorem View.Fits.step (start : v.Fits p (made history)) (settled : p.IsSettled)
    {s : Wasm.State} {code : List Wasm.Instr} (h : v.Step p m s code log u)
    (fits : LogFits p history log)
    (room : (made (history ++ log)).bytes + u.pending < Word.count - 4) :
    u.Fits p (made (history ++ log)) := by
  have same : made (history ++ []) = made history := by rw [List.append_nil]
  cases h with
  | quiet | full | missField =>
    rw [same]
    exact start
  | print =>
    rw [same]
    exact ⟨start.world.setOutput _, start.locals⟩
  | @initLocal symbol f d below rest inside function mem top =>
    have safe := settled.isSafe_of_local function mem
    have var : (d.name, d.ty) ∈ f.vars := List.mem_append_right _ (List.mem_map.2 ⟨d, mem, rfl⟩)
    have locals := start.locals
    rw [inside] at locals
    rw [same]
    refine ⟨start.world, ?_⟩
    show Fit _ v.site.vars _
    rw [inside]
    exact locals.set safe.distinct var ((Represents.literal _ d.value).fits (safe.locals d mem))
  | @initGlobal d below rest mem top =>
    have declared := settled.declared
    rw [same]
    exact ⟨start.world.setGlobal declared.distinct.of_append_left mem
      ((Represents.literal _ d.value).fits (declared.vars d mem).value), start.locals⟩
  | setLocal | setGlobal | read | miss | made | returning | ended => exact LogFits.last [] fits
  | write => exact LogFits.last [_] fits
  | @initField c k d below rest memory making found operands stored =>
    have within := (List.getElem?_eq_some_iff.1 found).1
    have pending : v.pending = c.bytes := by rw [View.pending, making]; rfl
    have room : (made (history ++ [])).bytes + v.pending < Word.count - 4 := room
    rw [same, pending, ClassDef.bytes] at room
    rw [same]
    exact ⟨start.world.storeBehind (by omega) stored, start.locals⟩

/-- A function that is entered has values of their types for its parameters. -/
theorem View.Fits.callee {f : FunDef} {args : List Word} {g : Wasm.Func}
    (arity : args.length = f.params.length)
    (fits : LogFits p history (⟨some f, f.initialLocals args, v.world, .entered⟩ :: log)) :
    (v.callee f g args).Fits p
        (made (history ++ [⟨some f, f.initialLocals args, v.world, .entered⟩])) ∧
      LogFits p (history ++ [⟨some f, f.initialLocals args, v.world, .entered⟩]) log := by
  have here := fits [] _ log rfl
  rw [List.append_nil] at here
  have both : LogFits p history ([⟨some f, f.initialLocals args, v.world, .entered⟩] ++ log) := fits
  exact ⟨⟨here.world, f.fit_zeroLocals arity here.locals⟩, both.right⟩

/-- What is enacted keeps everything fitting. -/
theorem Enacts.fits (settled : p.IsSettled) {fuel : Nat} {T : List Wasm.Snapshot}
    (h : Enacts p m fuel v log T u) (start : v.Fits p (made history)) (fits : LogFits p history log)
    (room : (made (history ++ log)).bytes + u.pending < Word.count - 4) :
    u.Fits p (made (history ++ log)) := by
  induction h generalizing history with
  | nil v | border held border =>
    rw [List.append_nil]
    exact start
  | @append v u t log log' T T' first rest ihfirst ihrest =>
    -- what is in the making in between is made or still in the making in the end
    have pending := rest.accounts.pending
    rw [← List.append_assoc] at room ⊢
    refine ihrest (ihfirst start fits.left ?_) fits.right room
    rw [made_append _ log', Objects.bytes_append] at room
    omega
  | step held step => exact start.step settled step fits room
  | making mem idle =>
    have last := LogFits.last [] fits
    exact ⟨last.world, last.locals⟩
  | call calls body ih =>
    obtain ⟨callee, rest⟩ := View.Fits.callee calls.arity fits
    rw [List.append_cons] at room ⊢
    refine ⟨(ih callee rest room).world, start.locals.mono ?_⟩
    rw [List.append_assoc]
    exact made_subset _ _
  | inside calls body ih =>
    obtain ⟨callee, rest⟩ := View.Fits.callee calls.arity fits
    rw [List.append_cons] at room ⊢
    exact ih callee rest room
  | value other ran follows leaves ih => exact LogFits.last _ fits
  | construct constructs makes begun ran leaves ihmakes ihran =>
    rw [← List.append_assoc [_, _]] at fits ⊢
    exact LogFits.last _ fits

/-! ## §3 Programs -/

/-- All variables are 0 before they have their initial values, and there are no objects. -/
theorem Program.fits_start (p : Program) (entry : Wasm.Func) (pages : Nat) :
    (p.start entry pages).Fits p [] := by
  refine ⟨⟨trivial, rfl, by simp, ?_, by simp⟩, .nil⟩
  exact .of_varDefs fun v _ => .zero [] v.ty

/-- A snapshot shows what fits its types, as long as all is calm and there is room for the object in
the making. -/
theorem Image.Shows.fits {i : Image} {limits : Wasm.Limits} {before : List Wasm.Snapshot}
    {a : Wasm.Snapshot} (h : i.Shows p limits before a log v) (safe : p.IsSafe)
    (calm : IsCalm log) (room : (made log).bytes + v.pending < Word.count - 4) :
    v.Fits p (made log) := by
  obtain ⟨later, soFar⟩ := h.soFar
  have sound := safe.sound_watch limits
  have fits : LogFits p [] log := by
    rintro before x after rfl
    refine sound.moments before x (after ++ later) ?_ ?_
    · rw [← Program.log, ← soFar, List.append_assoc]
      rfl
    · rw [List.append_cons] at calm
      exact calm.of_append
  have start : (p.start i.entry.toFunc limits.pages).Fits p (made []) := p.fits_start _ _
  exact Enacts.fits safe.toIsSettled h.performed start fits room

end

/-- Whatever a checked program does, its values are values of their types, as long as no field has
been accessed through the word 0 and the objects have not taken up all addresses. This holds at
every moment of every run, for the value of each expression, where the value of a call of `print` is
one of the type of its argument; what the module goes through enacts these moments. It also holds at
every snapshot of the module, for all variables and for all fields of all objects that have been
made, where the object in the making is counted. A field that is accessed is in memory; the module
leaves the memory only where a new object is about to get its fields. -/
theorem Program.values_fit_types {source : String} {p q : Program}
    (parsed : Program.parse source = .ok p) (checked : p.check = .ok q) (apart : p.PrintsApart) :
    ∃ i, Image.ofProgram q = .ok i ∧
      ∀ limits : Wasm.Limits, 1 ≤ limits.pages → limits.pages ≤ Wasm.Host.maxPages →
        i.toModule.run limits =
          (((q.watch limits).outcome (q.initialWorld limits.pages)).map
            fun r => ⟨r.1, r.2.output⟩).mapError Halt.error ∧
        (∀ before m after, q.log limits = before ++ m :: after → IsCalm (before ++ [m]) →
          m.Fits q (made (before ++ [m]))) ∧
        (∃ u, i.Performs q limits (q.log limits) (i.toModule.trace limits) u ∧
          (∀ outcome, i.toModule.run limits = .ok outcome → u.pending = 0) ∧
          ∀ before a after, i.toModule.trace limits = before ++ a :: after →
            ∃ log v, i.Shows q limits before a log v ∧
              (made log).bytes + v.pending ≤ (made (q.log limits)).bytes + u.pending ∧
              (IsCalm log → (made log).bytes + v.pending < 2 ^ 32 - 4 → v.Fits q (made log))) ∧
        ∀ output, i.toModule.run limits = .error (.trapped .outOfBounds output) →
          IsCalm (q.log limits) →
          ∃ before m c self, q.log limits = before ++ [m] ∧ m.event = .making c self := by
  obtain ⟨i, hi, lowers, resolved, ids⟩ := exists_image_of_check parsed checked
  have safe := isSafe_of_check checked apart
  refine ⟨i, hi, fun limits positive _ => ?_⟩
  have run := lowers.run_eq_watch resolved ids positive
  have sound := safe.sound_watch limits
  obtain ⟨u, performs, ends⟩ := lowers.performs resolved ids limits
  refine ⟨run, sound.moments, ⟨u, performs, fun outcome ran => (ends outcome ran).2,
    fun before a after split => ?_⟩, fun output trapped calm => ?_⟩
  · obtain ⟨log, v, shows, bytes⟩ := performs.exists_shows split
    exact ⟨log, v, shows, bytes, shows.fits safe⟩
  rw [run] at trapped
  have halted : (q.watch limits).outcome (q.initialWorld limits.pages) =
      .error (.trap .outOfBounds output) := by
    cases result : (q.watch limits).outcome (q.initialWorld limits.pages) with
    | ok r =>
      rw [result] at trapped
      cases trapped
    | error halt =>
      rw [result] at trapped
      cases halt <;> cases trapped
      rfl
  exact sound.traps output halted calm

/-- A list of two objects, one of which is a field of the other. -/
def Program.linked : Program where
  defs := [.class_ ⟨"Node", objectClass,
      [⟨"value", .int, .number 0⟩, ⟨"last", .bool, .bool true⟩, ⟨"next", .object "Node", .none⟩],
      []⟩,
    .function ⟨"push", [⟨"rest", .object "Node"⟩, ⟨"value", .int⟩], .object "Node",
      [⟨"node", .object "Node", .none⟩],
      [.assign (.var "node") (.call none "Node" []),
        .assign (.member (.var none "node") "value") (.var none "value"),
        .assign (.member (.var none "node") "last")
          (.binary none .is (.var none "rest") (.literal none .none)),
        .assign (.member (.var none "node") "next") (.var none "rest"),
        .return_ (.var none "node")]⟩]
  stmts := [.expr (.call none "print" [.field none (.field none (.call none "push"
    [.call none "push" [.literal none .none, .literal none (.number 1)],
      .literal none (.number 2)]) "next") "value"])]

/-- Two objects are made when the list is built, all is calm, and everything fits at every moment
and at every snapshot. -/
theorem Program.values_fit_types_linked : ∃ q i, linked.check = .ok q ∧ linked.PrintsApart ∧
    Image.ofProgram q = .ok i ∧ IsCalm (q.log ⟨1, 10, 10⟩) ∧
    (made (q.log ⟨1, 10, 10⟩)).map (·.1) = [4, 20] ∧
    (∀ before m after, q.log ⟨1, 10, 10⟩ = before ++ m :: after →
      m.Fits q (made (before ++ [m]))) ∧
    ∀ before a after, i.toModule.trace ⟨1, 10, 10⟩ = before ++ a :: after →
      ∃ log v, i.Shows q ⟨1, 10, 10⟩ before a log v ∧ v.Fits q (made log) := by
  have shown : (linked.check.toOption.map fun q => (decide (IsCalm (q.log ⟨1, 10, 10⟩)),
      (made (q.log ⟨1, 10, 10⟩)).map (·.1), decide ((made (q.log ⟨1, 10, 10⟩)).bytes = 32),
      (q.evaluate ⟨1, 10, 10⟩).toOption)) = some (true, [4, 20], true, some ⟨some 1, "1\n"⟩) := by
    decide +kernel
  have apart : linked.PrintsApart := (by decide : ∀ e ∈ linked.used, e.isPrint = false)
  obtain ⟨q, checked, facts⟩ := Option.map_eq_some_iff.1 shown
  rw [Fallible.toOption_eq_some] at checked
  simp only [Prod.mk.injEq, decide_eq_true_eq, Fallible.toOption_eq_some] at facts
  obtain ⟨calm, objects, bytes, value⟩ := facts
  have parsed := parse_of_tokens (by decide) (lex_text (p := linked) (by decide))
  obtain ⟨i, hi, fits⟩ := values_fit_types parsed checked apart
  obtain ⟨run, moments, ⟨u, -, idle, snapshots⟩, -⟩ := fits ⟨1, 10, 10⟩ (by decide) (by decide)
  rw [← q.evaluate_eq_watch, value] at run
  refine ⟨q, i, checked, apart, hi, calm, objects, fun before m after split => ?_,
    fun before a after split => ?_⟩
  · refine moments before m after split ?_
    rw [split, List.append_cons] at calm
    exact calm.of_append
  · obtain ⟨log, v, shows, less, fit⟩ := snapshots before a after split
    obtain ⟨later, soFar⟩ := shows.soFar
    rw [← soFar] at calm
    have none := idle _ run
    exact ⟨log, v, shows, fit calm.of_append (by omega)⟩

/-- A call of `print` is typed `None`. Its value is 5, which is not `None`, and what the module
gives; nothing is accessed, and the call is a statement of its own. -/
theorem Program.printed_number_is_left :
    ∃ (p q : Program) (i : Image) (before : List Moment) (m : Moment) (after : List Moment),
    parse "print(5)" = .ok p ∧ p.check = .ok q ∧ p.PrintsApart ∧ Image.ofProgram q = .ok i ∧
    IsCalm (q.log ⟨1, 10, 10⟩) ∧ q.log ⟨1, 10, 10⟩ = before ++ m :: after ∧
    m.event = .value (.call (some .none) printFunction [.literal (some .int) (.number 5)]) 5 ∧
    ¬ Represents (made (before ++ [m])) .none 5 ∧
    i.toModule.run ⟨1, 10, 10⟩ = .ok ⟨some 5, "5\n"⟩ := by
  have shown : ((parse "print(5)").toOption.bind fun p => p.check.toOption.map fun q =>
      (p.used.all (! ·.isPrint), (q.log ⟨1, 10, 10⟩)[1]?.any (fun m => m.event.value? =
          some (.call (some .none) printFunction [.literal (some .int) (.number 5)], 5)),
        decide (IsCalm (q.log ⟨1, 10, 10⟩)), (q.evaluate ⟨1, 10, 10⟩).toOption)) =
      some (true, true, true, some ⟨some 5, "5\n"⟩) := by decide +kernel
  obtain ⟨p, parsed, rest⟩ := Option.bind_eq_some_iff.1 shown
  obtain ⟨q, checked, facts⟩ := Option.map_eq_some_iff.1 rest
  rw [Fallible.toOption_eq_some] at parsed checked
  simp only [Prod.mk.injEq, decide_eq_true_eq, Fallible.toOption_eq_some] at facts
  obtain ⟨apart, printed, calm, value⟩ := facts
  obtain ⟨m, after, split, event⟩ := exists_split printed
  obtain ⟨i, hi, lowers, resolved, ids⟩ := exists_image_of_check parsed checked
  have run : i.toModule.run ⟨1, 10, 10⟩ = _ := (lowers.run_eq resolved ids (by decide)).1
  rw [value] at run
  have printsApart : p.PrintsApart := by simpa [PrintsApart] using apart
  exact ⟨p, q, i, _, m, after, parsed, checked, printsApart, hi, calm, split,
    Event.eq_of_value? (of_decide_eq_true event), nofun, run⟩

end Serpent
