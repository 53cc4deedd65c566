/-
Serpent.Proofs.Soundness — the values of a checked program are values of their types.

A watched program is followed moment by moment. As long as no field is accessed through the word 0
and the objects do not take up all addresses, every variable, every field of every object and every
value fits its type, and no access to a field leaves the memory. What one computation keeps is
`Sound`; that a whole program keeps it follows by induction on the depth of calls, on the rounds of
loops and on the program.

The value of `print` is the word that it has printed, whatever its type is. Where such a value is
used, it may not fit its type. So a program is followed under a guard (`IsGuard`), a condition on the
log so far that rules this out: there is no such call, or it has left 0.

  §1 Logs in which everything fits
  §2 Programs in which `print` is only a statement
  §3 Computations that keep everything fitting
  §4 What soundness asks of a program
  §5 What typed names stand for
  §6 Expressions
  §7 Statements
  §8 Functions and programs
-/
import Serpent.Proofs.Checking
import Serpent.Proofs.Compiled
import Serpent.Proofs.History

namespace Serpent

open Wasm (Bindings)

/-! ## §1 Logs in which everything fits -/

/-- Whether an expression is a call of `print`. -/
def Expr.isPrint : Expr → Bool
  | .call _ f _ => f = printFunction
  | _ => false

/-- The expression whose value an expression has: a call of `print` has that of its argument. -/
def Expr.source : Expr → Expr
  | .call a f [e] => if f = printFunction then e else .call a f [e]
  | e => e

theorem Expr.source_print (a : Option Ty) (e : Expr) :
    (Expr.call a printFunction [e]).source = e := by
  simp [source]

theorem Expr.source_eq {e : Expr} (other : e.isPrint = false) : e.source = e := by
  unfold source
  split
  · exact if_neg (of_decide_eq_false other)
  · rfl

/-- Whether a field is accessed through the word 0. -/
def Event.isNullAccess : Event → Bool
  | .access receiver _ => receiver = 0
  | _ => false

/-- No field is accessed through the word 0, and the objects do not take up all addresses. -/
structure IsCalm (log : List Moment) : Prop where
  receivers : ∀ m ∈ log, m.event.isNullAccess = false
  bytes : (made log).bytes < Word.count - 4

instance (log : List Moment) : Decidable (IsCalm log) :=
  decidable_of_iff ((∀ m ∈ log, m.event.isNullAccess = false) ∧ (made log).bytes < Word.count - 4)
    ⟨fun h => ⟨h.1, h.2⟩, fun h => ⟨h.receivers, h.bytes⟩⟩

/-- What happens fits its types: a value stands for a value of the type of its expression, and that
of `print` for one of the type of its argument; a field that is accessed is one of an object of the
class and lies in memory, and what a function returns is a value of its result type. -/
def Event.Fits (p : Program) (objects : Objects) (site : Site) (W : World) : Event → Prop
  | .value e w =>
    ∃ t, e.source.ty? = some t ∧ HasType p site e.source t ∧ Represents objects t w
  | .access receiver place => (W.memory.load? (receiver + place).address).isSome = true ∧
    ∃ c i, (receiver, c) ∈ objects ∧ i < c.fields.length ∧ place = fieldPlace i
  | .returning w => ∃ f, site = some f ∧ Represents objects f.result w
  | _ => True

/-- Everything fits its type at a moment. -/
structure Moment.Fits (p : Program) (objects : Objects) (m : Moment) : Prop where
  world : m.world.Fits p objects
  locals : Fit objects m.site.vars m.locals
  event : m.event.Fits p objects m.site m.world

theorem IsCalm.of_append {log log' : List Moment} (h : IsCalm (log ++ log')) : IsCalm log := by
  constructor
  · exact fun m hm => h.receivers m (List.mem_append_left _ hm)
  · have := h.bytes
    rw [made_append, Objects.bytes_append] at this
    omega

/-! ## §2 Programs in which `print` is only a statement -/

namespace Stmt

mutual

/-- The expressions inside of a statement whose values are used: all but one that is the whole
statement. -/
def used : Stmt → List Expr
  | .pass => []
  | .assign target e => target.parts ++ e.parts
  | .expr e => e.parts.tail
  | .return_ e => e.parts
  | .while_ c body => c.parts ++ allUsed body
  | .if_ c body none none => c.parts ++ allUsed body
  | .if_ c body none (some orElse) => c.parts ++ allUsed body ++ allUsed orElse
  | .if_ c body (some (d, other)) none => c.parts ++ allUsed body ++ (d.parts ++ allUsed other)
  | .if_ c body (some (d, other)) (some orElse) =>
    c.parts ++ allUsed body ++ (d.parts ++ allUsed other) ++ allUsed orElse

/-- The expressions inside of statements whose values are used. -/
def allUsed : List Stmt → List Expr
  | [] => []
  | s :: ss => used s ++ allUsed ss

end

end Stmt

/-- The expressions of a program whose values are used. -/
def Program.used (p : Program) : List Expr :=
  (p.functions.flatMap fun f => Stmt.allUsed f.body) ++
    (p.classes.flatMap fun c => c.methods.flatMap fun m => Stmt.allUsed m.body) ++
    Stmt.allUsed p.stmts

/-- Every call of `print` is a statement of its own. -/
def Program.PrintsApart (p : Program) : Prop := ∀ e ∈ p.used, e.isPrint = false

theorem Stmt.mem_allUsed {e : Expr} {ss : List Stmt} :
    e ∈ allUsed ss ↔ ∃ s ∈ ss, e ∈ s.used := by
  induction ss with
  | nil => simp [allUsed]
  | cons s ss ih => simp [allUsed, ih]

theorem Stmt.mem_used_if {e c : Expr} {body : List Stmt} {elif : Option (Expr × List Stmt)}
    {orElse : Option (List Stmt)} : e ∈ (Stmt.if_ c body elif orElse).used ↔
      e ∈ c.parts ∨ e ∈ allUsed body ∨ (∃ d ∈ elif, e ∈ d.1.parts ∨ e ∈ allUsed d.2) ∨
        ∃ b ∈ orElse, e ∈ allUsed b := by
  rcases elif with _ | ⟨d, other⟩ <;> rcases orElse with _ | orElse <;> simp [used, or_assoc]

/-! Written types make no difference. -/

@[simp] theorem Expr.isPrint_erase (e : Expr) : e.erase.isPrint = e.isPrint := by
  cases e <;> rfl

theorem Expr.allParts_erase {es : List Expr} (h : ∀ e ∈ es, e.erase.parts = e.parts.map erase) :
    allParts (eraseAll es) = (allParts es).map erase := by
  induction es with
  | nil => rfl
  | cons e es ih =>
    rw [List.forall_mem_cons] at h
    rw [eraseAll, allParts, allParts, h.1, ih h.2, List.map_append]

theorem Expr.parts_erase (e : Expr) : e.erase.parts = e.parts.map erase := by
  induction e with
  | literal a v => rfl
  | var a x => rfl
  | unary a op e ih => simp [erase, parts, ih]
  | binary a op l r ihl ihr => simp [erase, parts, ihl, ihr]
  | call a f args ih => simp [erase, parts, allParts_erase ih]
  | field a o x ih => simp [erase, parts, ih]
  | method a o x args ih ihargs => simp [erase, parts, ih, allParts_erase ihargs]

theorem Target.parts_erase (target : Target) : target.erase.parts = target.parts.map Expr.erase := by
  cases target with
  | var x => rfl
  | member o x => exact o.parts_erase

theorem Stmt.allUsed_erase {ss : List Stmt} (h : ∀ s ∈ ss, s.erase.used = s.used.map Expr.erase) :
    allUsed (eraseAll ss) = (allUsed ss).map Expr.erase := by
  induction ss with
  | nil => rfl
  | cons s ss ih =>
    rw [List.forall_mem_cons] at h
    rw [eraseAll, allUsed, allUsed, h.1, ih h.2, List.map_append]

theorem Stmt.used_erase (s : Stmt) : s.erase.used = s.used.map Expr.erase := by
  induction s with
  | pass => rfl
  | assign target e => simp [erase, used, target.parts_erase, e.parts_erase]
  | expr e => simp [erase, used, e.parts_erase, List.map_tail]
  | return_ e => exact e.parts_erase
  | while_ c body ih => simp [erase, used, c.parts_erase, allUsed_erase ih]
  | if_ c body elif orElse ihbody ihelif ihelse =>
    rcases elif with _ | ⟨d, other⟩ <;> rcases orElse with _ | orElse
    · simp [erase, used, Expr.parts_erase, allUsed_erase ihbody]
    · simp [erase, used, Expr.parts_erase, allUsed_erase ihbody, allUsed_erase (ihelse _ rfl)]
    · simp [erase, used, Expr.parts_erase, allUsed_erase ihbody, allUsed_erase (ihelif _ rfl)]
    · simp [erase, used, Expr.parts_erase, allUsed_erase ihbody, allUsed_erase (ihelif _ rfl),
        allUsed_erase (ihelse _ rfl)]

theorem Program.used_erase (p : Program) : p.erase.used = p.used.map Expr.erase := by
  have body : ∀ ss, Stmt.allUsed (Stmt.eraseAll ss) = (Stmt.allUsed ss).map Expr.erase :=
    fun ss => Stmt.allUsed_erase fun s _ => s.used_erase
  have functions : p.erase.functions = p.functions.map FunDef.erase := by
    rw [Program.functions, erase, List.filterMap_map, Program.functions, List.map_filterMap]
    refine List.filterMap_congr fun d _ => ?_
    cases d <;> rfl
  have classes : p.erase.classes =
      p.classes.map fun c => { c with methods := c.methods.map FunDef.erase } := by
    rw [Program.classes, erase, List.filterMap_map, Program.classes, List.map_filterMap]
    refine List.filterMap_congr fun d _ => ?_
    cases d <;> rfl
  have stmts : p.erase.stmts = Stmt.eraseAll p.stmts := rfl
  simp only [used, functions, classes, stmts, List.flatMap_map, FunDef.erase, body, List.map_append,
    List.map_flatMap]

theorem Program.PrintsApart.congr {p q : Program} (h : p.PrintsApart) (same : q.erase = p.erase) :
    q.PrintsApart := by
  intro e he
  have mem : e.erase ∈ p.erase.used := by
    rw [← same, used_erase]
    exact List.mem_map_of_mem he
  rw [used_erase] at mem
  obtain ⟨e', he', eq⟩ := List.mem_map.1 mem
  rw [← e.isPrint_erase, ← eq, e'.isPrint_erase]
  exact h e' he'

/-! ## §3 Computations that keep everything fitting -/

/-- A condition on what has happened so far that a program is followed under: it says that all is
calm, and that no call of `print` whose value is used has left another word than 0. -/
class IsGuard (p : Program) (G : List Moment → Prop) : Prop where
  of_append : ∀ {log log' : List Moment}, G (log ++ log') → G log
  calm : ∀ {log : List Moment}, G log → IsCalm log
  printed : ∀ {log : List Moment} {m : Moment} {e : Expr} {w : Word}, G (log ++ [m]) →
    m.event = .value e w → e.isPrint = true → e ∈ p.used → w = 0

/-- Where no value of `print` is used, it is enough that all is calm. -/
theorem Program.PrintsApart.isGuard {p : Program} (apart : p.PrintsApart) : IsGuard p IsCalm where
  of_append := IsCalm.of_append
  calm := id
  printed {_ _ e _} _ _ isPrint used := by
    rw [apart e used] at isPrint
    cases isPrint

/-- A computation that starts after a history keeps everything fitting as long as the guard holds:
every moment of its log fits; if it ends, the world fits and its result is as `Q` says; and if it
leaves the memory, an object was about to get its fields. -/
structure Sound {α : Type} (G : List Moment → Prop) (p : Program) (history : List Moment)
    (W : World) (x : Watch α) (Q : Objects → α → Prop) : Prop where
  moments : ∀ before m after, x.log W = before ++ m :: after →
    G (history ++ before ++ [m]) → m.Fits p (made (history ++ before ++ [m]))
  ends : ∀ a V, x.outcome W = .ok (a, V) → G (history ++ x.log W) →
    V.Fits p (made (history ++ x.log W)) ∧ Q (made (history ++ x.log W)) a
  traps : ∀ output, x.outcome W = .error (.trap .outOfBounds output) →
    G (history ++ x.log W) → ∃ before m c self, x.log W = before ++ [m] ∧ m.event = .making c self

namespace Sound

variable {α β : Type} {G : List Moment → Prop} {p : Program} {history : List Moment} {W : World}

/-- A computation that is not watched and does not leave the memory. -/
theorem lift {y : Eval α} {Q : Objects → α → Prop}
    (ends : ∀ a V, y W = .ok (a, V) → V.Fits p (made history) ∧ Q (made history) a)
    (safe : ∀ output, y W ≠ .error (.trap .outOfBounds output)) :
    Sound G p history W (liftM y) Q where
  moments before m after eq := by simp at eq
  ends a V eq _ := by
    rw [Watch.log_lift, List.append_nil]
    exact ends a V eq
  traps output eq := absurd eq (safe output)

theorem pure {a : α} {Q : Objects → α → Prop} (fits : W.Fits p (made history))
    (h : Q (made history) a) : Sound G p history W (Pure.pure a) Q where
  moments before m after eq := by simp at eq
  ends b V eq _ := by
    cases eq
    rw [Watch.log_pure, List.append_nil]
    exact ⟨fits, h⟩
  traps _ eq := by cases eq

theorem imp {x : Watch α} {Q R : Objects → α → Prop} (h : Sound G p history W x Q)
    (weaker : ∀ objects a, Q objects a → R objects a) : Sound G p history W x R where
  moments := h.moments
  ends a V eq calm := ⟨(h.ends a V eq calm).1, weaker _ a (h.ends a V eq calm).2⟩
  traps := h.traps

/-- One computation after the other: the second starts after the history of the first. -/
theorem bind [guard : IsGuard p G] {x : Watch α} {k : α → Watch β} {Q : Objects → α → Prop}
    {R : Objects → β → Prop} (first : Sound G p history W x Q)
    (rest : ∀ log a V, V.Fits p (made (history ++ log)) → Q (made (history ++ log)) a →
      Sound G p (history ++ log) V (k a) R) :
    Sound G p history W (x >>= k) R := by
  -- the second computation is sound unless the guard fails after the first one
  have second : ∀ a V, x.outcome W = .ok (a, V) → G (history ++ x.log W) →
      Sound G p (history ++ x.log W) V (k a) R := by
    intro a V result holds
    have ends := first.ends a V result holds
    exact rest (x.log W) a V ends.1 ends.2
  constructor
  · intro before m after split holds
    rcases Watch.split_bind split with ⟨later, split'⟩ | ⟨a, V, middle, result, rfl, split'⟩
    · exact first.moments before m later split' holds
    · rw [← List.append_assoc] at holds ⊢
      have now : G (history ++ x.log W) := guard.of_append (guard.of_append holds)
      exact (second a V result now).moments middle m after split' holds
  · intro b U ok holds
    obtain ⟨a, V, result, ok', log⟩ := Watch.exists_of_bind_ok ok
    rw [log, ← List.append_assoc] at holds ⊢
    exact (second a V result (guard.of_append holds)).ends b U ok' holds
  · intro output trap holds
    cases result : x.outcome W with
    | error halt =>
      obtain ⟨log, outcome⟩ := Watch.bind_of_error (k := k) result
      rw [outcome] at trap
      rw [log] at holds ⊢
      cases trap
      exact first.traps output result holds
    | ok r =>
      obtain ⟨a, V⟩ := r
      obtain ⟨log, outcome⟩ := Watch.bind_of_ok (k := k) result
      rw [outcome] at trap
      rw [log, ← List.append_assoc] at holds
      obtain ⟨before, m, c, self, last, event⟩ :=
        (second a V result (guard.of_append holds)).traps output trap holds
      exact ⟨x.log W ++ before, m, c, self, by rw [log, last, List.append_assoc], event⟩

/-- What is there is known, and nothing else happens. -/
theorem known {o : Option α} {a : α} {k : α → Watch β} {Q : Objects → β → Prop} (found : o = some a)
    (rest : Sound G p history W (k a) Q) : Sound G p history W (liftM (Eval.known o) >>= k) Q := by
  subst found
  exact ⟨rest.moments, rest.ends, rest.traps⟩

/-- A computation that stops for any reason but that it leaves the memory. -/
theorem halts {halt : Halt} {x : Eval α} {Q : Objects → α → Prop} (stops : x W = .error halt)
    (other : ∀ output, halt ≠ .trap .outOfBounds output) : Sound G p history W (liftM x) Q := by
  refine lift ?_ ?_
  · intro a V eq
    rw [stops] at eq
    cases eq
  · intro output eq
    rw [stops] at eq
    exact other output (Except.error.inj eq)

/-- What is put into the log makes no object. -/
theorem made_note {m : Moment} (other : ∀ c self, m.event ≠ .made c self) : made [m] = [] := by
  obtain ⟨site, locals, W, event⟩ := m
  cases event with
  | made c self => exact absurd rfl (other c self)
  | _ => rfl

/-- Something is put into the log that fits if all is calm; then `Q` holds as well. -/
theorem note {site : Site} {locals : Bindings} {event : Event} {Q : Objects → Unit → Prop}
    (fits : W.Fits p (made history)) (fit : Fit (made history) site.vars locals)
    (other : ∀ c self, event ≠ .made c self)
    (h : G (history ++ [⟨site, locals, W, event⟩]) →
      event.Fits p (made history) site W ∧ Q (made history) ()) :
    Sound G p history W (Watch.note site locals event) Q := by
  have same : made (history ++ [⟨site, locals, W, event⟩]) = made history := by
    rw [made_append, made_note (m := ⟨site, locals, W, event⟩) other, List.append_nil]
  constructor
  · intro before m after eq calm
    rw [Watch.log_note] at eq
    cases before with
    | nil =>
      cases eq
      rw [List.append_nil] at calm ⊢
      rw [same]
      exact ⟨fits, fit, (h calm).1⟩
    | cons m' before => simp at eq
  · intro a V eq calm
    cases eq
    rw [Watch.log_note] at calm ⊢
    rw [same]
    exact ⟨fits, (h calm).2⟩
  · intro output eq
    cases eq

/-- The value of an expression is put into the log. -/
theorem valued [IsGuard p G] {site : Site} {locals : Bindings} {e : Expr} {x : Watch Word}
    {Q : Objects → Word → Prop} (h : Sound G p history W x Q)
    (fit : Fit (made history) site.vars locals)
    (value : ∀ objects w V, Q objects w → Event.Fits p objects site V (.value e w)) :
    Sound G p history W (Watch.valued site locals e x) Q := by
  refine h.bind fun log w V fits hw => ?_
  have noted : Sound G p (history ++ log) V (Watch.note site locals (.value e w))
      (fun objects _ => Q objects w) :=
    note fits (fit.mono (made_subset _ _)) (by simp) fun _ => ⟨value _ w V hw, hw⟩
  exact noted.bind fun _ _ _ fits hw => pure fits hw

end Sound

/-! ## §4 What soundness asks of a program -/

/-- An expression has one type, and that is written into it. -/
def Expr.HoldsOnly (p : Program) (site : Site) (e : Expr) : Prop :=
  ∃ t, e.ty? = some t ∧ ∀ u, HasType p site e u ↔ u = t

/-- Every expression inside of an expression has its type written into it, and a call of `print` is
one whose value is used. -/
def Expr.IsSafe (p : Program) (site : Site) (e : Expr) : Prop :=
  ∀ a ∈ e.parts, a.HoldsOnly p site ∧ (a.isPrint = true → a ∈ p.used)

/-- A statement is well typed, and its types are written into it. -/
structure Stmt.IsSafe (p : Program) (site : Site) (s : Stmt) : Prop where
  typed : s.IsTyped p site
  holds : ∀ e ∈ s.parts, e.HoldsOnly p site
  prints : ∀ e ∈ s.used, e.isPrint = true → e ∈ p.used

theorem Stmt.isSafe_of_all {p : Program} {site : Site} {ss : List Stmt}
    (typed : ∀ s ∈ ss, s.IsTyped p site) (holds : ∀ e ∈ allParts ss, e.HoldsOnly p site)
    (prints : ∀ e ∈ allUsed ss, e.isPrint = true → e ∈ p.used) : ∀ s ∈ ss, s.IsSafe p site :=
  fun s hs => ⟨typed s hs, fun e he => holds e (mem_allParts.2 ⟨s, hs, he⟩),
    fun e he => prints e (mem_allUsed.2 ⟨s, hs, he⟩)⟩

/-- The initial values of a function fit its variables, and its statements are safe. -/
structure FunDef.IsSafe (p : Program) (f : FunDef) : Prop where
  locals : ∀ v ∈ f.locals, v.value.ty.Fits v.ty
  distinct : (f.vars.map (·.1)).Nodup
  body : ∀ s ∈ f.body, s.IsSafe p (some f)

/-- All functions and statements of a program are safe. -/
structure Program.IsSettled (p : Program) : Prop where
  declared : p.IsDeclared
  functions : ∀ f ∈ p.functions, f.IsSafe p
  methods : ∀ c ∈ p.classes, ∀ m ∈ c.methods, m.IsSafe p
  stmts : ∀ s ∈ p.stmts, s.IsSafe p none

/-- A program is settled and uses no value of `print`. -/
structure Program.IsSafe (p : Program) : Prop extends p.IsSettled where
  apart : p.PrintsApart

/-- Where names mean what they stand for, no expression has two types. -/
theorem Context.Means.holdsOnly {Γ : Context} {p : Program} {site : Site} (means : Γ.Means p site)
    {e : Expr} (h : e.HoldsType p site) : e.HoldsOnly p site := by
  obtain ⟨t, written, typed⟩ := h
  refine ⟨t, written, fun u => ⟨fun other => ?_, ?_⟩⟩
  · obtain ⟨e', checked⟩ := means.hasType_iff.1 typed
    obtain ⟨e'', checked'⟩ := means.hasType_iff.1 other
    rw [checked] at checked'
    cases checked'
    rfl
  · rintro rfl
    exact typed

theorem Program.isSettled_of_check {p q : Program} (checked : p.check = .ok q) : q.IsSettled := by
  obtain ⟨-, self⟩ := check_eq_ok_iff.1 checked
  obtain ⟨typed, holds⟩ := check_self_iff.1 self
  have declared := typed.declared
  have function : ∀ {f : FunDef}, f.IsTyped q →
      (∀ e ∈ Stmt.allParts f.body, e.HoldsType q (some f)) →
      (∀ e ∈ Stmt.allUsed f.body, e ∈ q.used) → f.IsSafe q := by
    intro f typed holds used
    have means := declared.means_of_function typed.distinct typed.noClass f.name
    exact ⟨fun v hv => (typed.locals v hv).value, typed.distinct,
      Stmt.isSafe_of_all typed.body (fun e he => means.holdsOnly (holds e he))
        fun e he _ => used e he⟩
  constructor
  case declared => exact declared
  case functions =>
    intro f hf
    refine function (typed.functions f hf) (holds.functions f hf) fun e he => ?_
    simp only [used, List.mem_append, List.mem_flatMap]
    exact .inl (.inl ⟨f, hf, he⟩)
  case methods =>
    intro c hc m hm
    refine function (typed.methods c hc m hm) (holds.methods c hc m hm) fun e he => ?_
    simp only [used, List.mem_append, List.mem_flatMap]
    exact .inl (.inr ⟨c, hc, m, hm, he⟩)
  case stmts =>
    exact Stmt.isSafe_of_all typed.stmts
      (fun e he => declared.means_outside.holdsOnly (holds.stmts e he))
      fun e he _ => List.mem_append_right _ he

theorem Program.isSafe_of_check {p q : Program} (checked : p.check = .ok q) (apart : p.PrintsApart) :
    q.IsSafe :=
  ⟨isSettled_of_check checked, apart.congr (check_eq_ok_iff.1 checked).1⟩

/-! ## §5 What typed names stand for -/

theorem Expr.parts_eq (e : Expr) : e.parts = e :: e.parts.tail := by
  cases e <;> simp [parts]

theorem Expr.mem_parts_self (e : Expr) : e ∈ e.parts := by
  rw [e.parts_eq]
  exact List.mem_cons_self

namespace Expr.IsSafe

variable {p : Program} {site : Site} {e a : Expr} {t : Ty}

theorem part (h : e.IsSafe p site) (sub : a.parts ⊆ e.parts) : a.IsSafe p site :=
  fun b hb => h b (sub hb)

theorem arg {args : List Expr} (h : e.IsSafe p site) (sub : allParts args ⊆ e.parts)
    (ha : a ∈ args) : a.IsSafe p site :=
  h.part fun _ hs => sub (mem_allParts.2 ⟨a, ha, hs⟩)

theorem ty?_eq (h : e.IsSafe p site) (typed : HasType p site e t) : e.ty? = some t := by
  obtain ⟨u, written, only⟩ := (h e e.mem_parts_self).1
  rw [written, (only t).1 typed]

theorem mem_used (h : e.IsSafe p site) (isPrint : e.isPrint = true) : e ∈ p.used :=
  (h e e.mem_parts_self).2 isPrint

/-- A value that stands for one of the type of an expression fits. -/
theorem fits (h : e.IsSafe p site) (typed : HasType p site e t) (other : e.isPrint = false)
    {objects : Objects} {w : Word} (represents : Represents objects t w) (V : World) :
    Event.Fits p objects site V (.value e w) := by
  rw [Event.Fits, source_eq other]
  exact ⟨t, h.ty?_eq typed, typed, represents⟩

end Expr.IsSafe

namespace Program

variable {p : Program}

theorem IsDeclared.class?_eq (h : p.IsDeclared) {d : ClassDef} (hd : d ∈ p.classes) :
    p.class? d.name = some d :=
  find?_of_nodup h.classesDiffer (List.mem_cons_of_mem _ hd)

theorem IsDeclared.exists_class (h : p.IsDeclared) {c : String} (hc : p.IsClass c) :
    ∃ d, p.class? c = some d ∧ d.name = c ∧
      (d ∈ p.classes ∨ d = ⟨objectClass, objectClass, [], []⟩) := by
  rcases hc with rfl | ⟨d, hd, rfl⟩
  · exact ⟨_, rfl, rfl, .inr rfl⟩
  · exact ⟨d, h.class?_eq hd, rfl, .inl hd⟩

/-- The fields of a class have places, one behind the other. -/
theorem IsDeclared.exists_field (h : p.IsDeclared) {c x : String} {t : Ty} (hx : p.HasField c x t) :
    ∃ d i v, p.class? c = some d ∧ d.name = c ∧ d.place? x = some (fieldPlace i) ∧
      d.fields[i]? = some v ∧ v.ty = t := by
  obtain ⟨d, hd, rfl, v, hv, rfl, rfl⟩ := hx
  have distinct := (h.classes d hd).distinct.of_append_left
  have found := find?_of_nodup distinct hv
  obtain ⟨i, hi⟩ : ∃ i, d.fields.findIdx? (·.name = v.name) = some i := by
    refine Option.isSome_iff_exists.1 (List.findIdx?_isSome.trans ?_)
    exact List.any_eq_true.2 ⟨v, hv, by simp⟩
  refine ⟨d, i, v, h.class?_eq hd, rfl, by rw [ClassDef.place?, hi]; rfl, ?_, rfl⟩
  rw [List.find?_eq_bind_findIdx?_getElem?, hi] at found
  exact found

theorem IsDeclared.exists_method (h : p.IsDeclared) {c x : String} {m : FunDef}
    (hm : p.HasMethod c x m) : ∃ d ∈ p.classes, p.class? c = some d ∧ d.name = c ∧ m ∈ d.methods ∧
      d.method? x = some m := by
  obtain ⟨d, hd, rfl, hm, rfl⟩ := hm
  have distinct := (h.classes d hd).distinct.of_append_right
  exact ⟨d, hd, h.class?_eq hd, rfl, hm, find?_of_nodup distinct hm⟩

/-- The first parameter of a method takes an object of its class. -/
theorem IsDeclared.params_method (h : p.IsDeclared) {d : ClassDef} (hd : d ∈ p.classes) {m : FunDef}
    (hm : m ∈ d.methods) :
    m.params.map (·.ty) = .object d.name :: (m.params.drop 1).map (·.ty) := by
  have receiver := (h.classes d hd).receivers m hm
  cases params : m.params with
  | nil => simp [params] at receiver
  | cons a rest =>
    rw [params] at receiver
    have first : a.ty = .object d.name := Option.some.inj receiver
    rw [List.map_cons, List.drop_one, List.tail_cons, first]

theorem IsDeclared.function?_eq (h : p.IsDeclared) {site : Site} {x : String} {d : FunDef}
    (hd : site.HasFunction p x d) : p.class? x = none ∧ p.function? x = some d := by
  obtain ⟨mem, rfl, -⟩ := hd
  constructor
  · refine List.find?_eq_none.2 fun c hc same => h.not_isClass mem ?_
    rcases List.mem_cons.1 hc with rfl | hc
    · exact .inl (Eq.symm (by simpa using same))
    · exact .inr ⟨c, hc, by simpa using same⟩
  · exact find?_of_nodup h.distinct.of_append_right mem

/-- The method that constructs objects of a class is safe and takes such an object. -/
theorem IsSettled.init (h : p.IsSettled) {d : ClassDef}
    (hd : d ∈ p.classes ∨ d = ⟨objectClass, objectClass, [], []⟩) :
    d.init.IsSafe p ∧ d.init.params.map (·.ty) = [.object d.name] := by
  have default : FunDef.IsSafe p
      ⟨initMethod, [⟨"self", .object d.name⟩], .none, [], [.pass]⟩ := by
    refine ⟨by simp, by simp [FunDef.vars], fun s hs => ?_⟩
    cases List.mem_singleton.1 hs
    exact ⟨.pass, by simp [Stmt.parts], by simp [Stmt.used]⟩
  cases found : d.method? initMethod with
  | none =>
    rw [ClassDef.init, found]
    exact ⟨default, rfl⟩
  | some m =>
    have hm : m ∈ d.methods := List.mem_of_find?_eq_some found
    have name : m.name = initMethod := by simpa using List.find?_some found
    rcases hd with hd | rfl
    · rw [ClassDef.init, found]
      refine ⟨h.methods d hd m hm, ?_⟩
      have arity := ((h.declared.classes d hd).inits m hm name).1
      show m.params.map _ = _
      rw [h.declared.params_method hd hm, List.drop_eq_nil_of_le (by omega), List.map_nil]
    · cases hm

end Program

variable {G : List Moment → Prop} {p : Program} [guard : IsGuard p G] {site : Site}
  {locals : Bindings} {history : List Moment} {W : World}

/-- The field that an expression accesses is found where the objects of its receiver have it. -/
theorem Expr.IsSafe.exists_place (declared : p.IsDeclared) {o : Expr} (usable : o.IsSafe p site)
    {c x : String} {t : Ty} (receiver : HasType p site o (.object c)) (found : p.HasField c x t) :
    ∃ d i v, p.class? d.name = some d ∧ d.name = c ∧
      (p.classOf? o).bind (·.place? x) = some (fieldPlace i) ∧ d.fields[i]? = some v ∧ v.ty = t := by
  obtain ⟨d, i, v, hd, rfl, place, field, ty⟩ := declared.exists_field found
  refine ⟨d, i, v, hd, rfl, ?_, field, ty⟩
  rw [Program.classOf?_eq (usable.ty?_eq receiver), hd]
  exact place

omit guard in
/-- A variable has a value of its type. -/
theorem Sound.readVar (declared : p.IsDeclared) (distinct : site.names.Nodup)
    (fits : W.Fits p (made history)) (fit : Fit (made history) site.vars locals) {x : String} {t : Ty}
    (hx : site.HasVar p x t) :
    Sound G p history W (liftM (Serpent.readVar locals x))
      fun objects w => Represents objects t w := by
  have found : ∃ w, (locals.lookup x).or (W.globals.lookup x) = some w ∧
      Represents (made history) t w := by
    cases hx with
    | own own =>
      obtain ⟨w, hw, represents⟩ := fit.lookup distinct own
      exact ⟨w, by rw [hw]; rfl, represents⟩
    | @global v hv seen =>
      have unknown : locals.lookup v.name = none := by
        rw [lookup_eq_none_iff, fit.keys]
        exact seen
      have globals : ((p.globalVars.map fun v => (v.name, v.ty)).map (·.1)).Nodup := by
        rw [List.map_map]
        exact declared.distinct.of_append_left
      obtain ⟨w, hw, represents⟩ := fits.globals.lookup globals (List.mem_map.2 ⟨v, hv, rfl⟩)
      exact ⟨w, by rw [unknown, hw]; rfl, represents⟩
  obtain ⟨w, hw, represents⟩ := found
  have read : Serpent.readVar locals x W = .ok (w, W) := by
    show Eval.known ((locals.lookup x).or (W.globals.lookup x)) W = _
    rw [hw]
    rfl
  refine .lift (fun a V eq => ?_) (fun output eq => ?_)
  · rw [read] at eq
    cases eq
    exact ⟨fits, represents⟩
  · rw [read] at eq
    cases eq

/-! ## §6 Expressions -/

/-- Calls keep everything fitting: a safe function that gets values of the types of its parameters
gives a value of its result type. -/
def Call.IsSound (G : List Moment → Prop) (p : Program) (call : Call) : Prop :=
  ∀ f, f.IsSafe p → ∀ args history W, W.Fits p (made history) →
    List.Forall₂ (Represents (made history)) (f.params.map (·.ty)) args →
    Sound G p history W (call f args) fun objects w => Represents objects f.result w

/-- Making an object keeps everything fitting. -/
theorem Sound.make (fits : W.Fits p (made history))
    (fit : Fit (made history) site.vars locals) {c : ClassDef} (hc : p.class? c.name = some c)
    (fields : ∀ v ∈ c.fields, v.value.ty.Fits v.ty) :
    Sound G p history W (c.make site locals) fun objects self => (self, c) ∈ objects := by
  have start : Moment.Fits p (made (history ++ [⟨site, locals, W, .making c W.free⟩]))
      ⟨site, locals, W, .making c W.free⟩ := by
    rw [made_append, show made [⟨site, locals, W, .making c W.free⟩] = [] from rfl, List.append_nil]
    exact ⟨fits, fit, trivial⟩
  rcases c.make_eq site locals W with ⟨halt, -, log, outcome⟩ | ⟨V, initialized, log, outcome⟩
  · constructor
    · intro before m after split
      rw [log] at split
      cases before with
      | nil =>
        cases split
        rw [List.append_nil]
        exact fun _ => start
      | cons m' before => simp at split
    · intro a V ok
      rw [outcome] at ok
      cases ok
    · intro output _ _
      exact ⟨[], _, c, W.free, log, rfl⟩
  · have made_log : made ((c.make site locals).log W) = [(W.free, c)] := by
      rw [log]
      rfl
    -- a calm log leaves room for the new object
    have done : G (history ++ (c.make site locals).log W) → World.Fits p
        (made (history ++ (c.make site locals).log W))
        { V with free := W.free + fieldPlace c.fields.length } := by
      intro calm
      have bytes := (guard.calm calm).bytes
      rw [made_append, made_log] at bytes ⊢
      rw [Objects.bytes_append, Objects.bytes_cons, Objects.bytes_nil] at bytes
      exact fits.make hc fields initialized bytes
    constructor
    · intro before m after split calm
      rw [log] at split done
      match before, split with
      | [], split =>
        cases split
        rw [List.append_nil]
        exact start
      | [_], split =>
        cases split
        rw [List.append_assoc] at calm ⊢
        exact ⟨done calm, fit.mono (made_subset _ _), trivial⟩
      | _ :: _ :: _, split => simp at split
    · intro a U ok calm
      rw [outcome] at ok
      cases ok
      refine ⟨done calm, ?_⟩
      rw [made_append, made_log]
      simp
    · intro output trap
      rw [outcome] at trap
      cases trap

variable {call : Call}

theorem ClassDef.sound_watch (settled : p.IsSettled) (calls : call.IsSound G p)
    (fits : W.Fits p (made history)) (fit : Fit (made history) site.vars locals) {c : String}
    {d : ClassDef} (known : p.IsClass c) (found : p.class? c = some d) :
    Sound G p history W (d.watch call site locals)
      fun objects w => Represents objects (.object c) w := by
  obtain ⟨d', found', rfl, mem⟩ := settled.declared.exists_class known
  cases found.symm.trans found'
  have fields : ∀ v ∈ d.fields, v.value.ty.Fits v.ty := by
    intro v hv
    rcases mem with mem | rfl
    · exact ((settled.declared.classes d mem).fields v hv).value
    · cases hv
  obtain ⟨init, params⟩ := settled.init mem
  refine (Sound.make fits fit found fields).bind fun log self V fits made => ?_
  have arguments : List.Forall₂ (Represents (Serpent.made (history ++ log)))
      (d.init.params.map (·.ty)) [self] := by
    rw [params]
    exact .cons (.inr ⟨d, made, rfl⟩) .nil
  refine (calls _ init _ _ _ fits arguments).bind fun log' _ V fits _ => .pure fits ?_
  exact .inr ⟨d, made_subset _ _ made, rfl⟩

/-- Arguments that are accepted have values of the types of the parameters. -/
theorem Expr.sound_watchAll {args : List Expr} {ts : List Ty} (accepts : Accepts p site args ts)
    (each : ∀ e ∈ args, ∀ t history W, HasType p site e t → W.Fits p (made history) →
      Fit (made history) site.vars locals →
      Sound G p history W (e.watch p call site locals) fun objects w => Represents objects t w)
    (fits : W.Fits p (made history)) (fit : Fit (made history) site.vars locals) :
    Sound G p history W (Expr.watchAll p call site locals args)
      fun objects ws => List.Forall₂ (Represents objects) ts ws := by
  induction args generalizing ts history W with
  | nil =>
    cases accepts
    exact .pure fits .nil
  | cons e es ih =>
    cases accepts with
    | cons first fitting rest =>
      rw [List.forall_mem_cons] at each
      rw [watchAll]
      refine (each.1 _ history W first fits fit).bind fun log w V fits hw => ?_
      refine (ih rest each.2 fits (fit.mono (made_subset _ _))).bind fun log' ws U fits hws => ?_
      exact .pure fits (.cons ((hw.mono (made_subset _ _)).fits fitting) hws)

/-- Where a field of a class is accessed through a value of the class, the receiver is an object of
that class unless it is the word 0. -/
theorem Sound.access (fits : W.Fits p (made history))
    (fit : Fit (made history) site.vars locals) {receiver : Word} {d : ClassDef} {i : Nat}
    {v : VarDef} (represents : Represents (made history) (.object d.name) receiver)
    (found : p.class? d.name = some d) (field : d.fields[i]? = some v) :
    Sound G p history W (Watch.note site locals (.access receiver (fieldPlace i)))
      fun objects _ => (receiver, d) ∈ objects := by
  refine .note fits fit (by simp) fun calm => ?_
  have mem : (receiver, d) ∈ made history := by
    rcases represents with rfl | ⟨d', mem, name⟩
    · cases (guard.calm calm).receivers _ (List.mem_append_right _ List.mem_cons_self)
    · have same := fits.classes _ mem
      rw [name, found] at same
      cases same
      exact mem
  obtain ⟨w, hw, -⟩ := fits.slots _ mem i v field
  obtain ⟨hi, -⟩ := List.getElem?_eq_some_iff.1 field
  exact ⟨⟨by rw [hw]; rfl, d, i, mem, hi, rfl⟩, mem⟩

theorem BinOp.apply_ne_outOfBounds (op : BinOp) (a b : Word) : op.apply a b ≠ .error .outOfBounds := by
  unfold apply
  cases op with
  | floorDiv =>
    show (if b = 0 then _ else if _ then _ else _) ≠ _
    split
    · simp
    · split <;> simp
  | mod =>
    show (if b = 0 then _ else _) ≠ _
    split <;> simp
  | _ => simp

omit guard in
theorem Expr.watch_print (a : Option Ty) (e : Expr) :
    (Expr.call a printFunction [e]).watch p call site locals =
      Watch.valued site locals (.call a printFunction [e]) (do
        let w ← e.watch p call site locals
        let t ← Eval.known e.ty?
        Eval.printLine (t.line w)
        return w) := by
  rw [watch.eq_def]
  exact congrArg (Watch.valued site locals _) (if_pos rfl)

/-- A call of `print` keeps everything fitting if its argument does. Its value is the word of the
argument, whatever its own type is; what the guard says about it is known once it stands in the
log. -/
theorem Sound.print {a : Option Ty} {e : Expr} {t : Ty} {Q : Objects → Word → Prop}
    (fit : Fit (made history) site.vars locals) (written : e.ty? = some t)
    (typed : HasType p site e t) (inner : Sound G p history W (e.watch p call site locals)
      fun objects w => Represents objects t w)
    (value : ∀ log V w, G (log ++ [⟨site, locals, V, .value (.call a printFunction [e]) w⟩]) →
      Q (made log) w) :
    Sound G p history W ((Expr.call a printFunction [e]).watch p call site locals) Q := by
  rw [Expr.watch_print]
  have printed : Sound G p history W (do
      let w ← e.watch p call site locals
      let t ← Eval.known e.ty?
      Eval.printLine (t.line w)
      return w) fun objects w => Represents objects t w := by
    refine inner.bind fun log w V fits hw => .known written ?_
    refine Sound.bind (Q := fun _ _ => True) (.lift (fun _ U eq => ?_) (fun output eq => ?_))
      fun _ _ _ fits _ => .pure fits (hw.mono (made_subset _ _))
    · cases eq
      exact ⟨fits.setOutput _, trivial⟩
    · cases eq
  refine printed.bind fun log w V fits hw => ?_
  refine Sound.bind (Q := fun objects _ => Q objects w)
    (.note fits (fit.mono (made_subset _ _)) (by simp) fun holds => ⟨?_, value _ V w holds⟩)
    fun _ _ _ fits hw => .pure fits hw
  rw [Event.Fits, Expr.source_print]
  exact ⟨t, written, typed, hw⟩

/-- An expression of a type has a value of that type. -/
theorem Expr.sound (settled : p.IsSettled) (calls : call.IsSound G p)
    (distinct : site.names.Nodup) {e : Expr} {t : Ty} (usable : e.IsSafe p site)
    (typed : HasType p site e t) (fits : W.Fits p (made history))
    (fit : Fit (made history) site.vars locals) :
    Sound G p history W (e.watch p call site locals) fun objects w => Represents objects t w := by
  have declared := settled.declared
  induction e generalizing t history W with
  | literal a v =>
    rw [watch]
    refine .valued ?_ fit fun objects w V => (usable.fits typed rfl · V)
    cases typed
    exact .pure fits (.literal _ v)
  | var a x =>
    rw [watch]
    refine .valued ?_ fit fun objects w V => (usable.fits typed rfl · V)
    cases typed with
    | var _ found => exact .readVar declared distinct fits fit found
  | unary a op e ih =>
    rw [watch]
    refine .valued ?_ fit fun objects w V => (usable.fits typed rfl · V)
    cases typed with
    | unary _ operand takes =>
      refine (ih (usable.part (by simp [parts])) operand fits fit).bind fun log w V fits _ => ?_
      exact .pure fits (.unary takes _ w)
  | binary a op l r ihl ihr =>
    rw [watch]
    refine .valued ?_ fit fun objects w V => (usable.fits typed rfl · V)
    cases typed with
    | binary _ left right takes =>
      refine (ihl (usable.part (by simp [parts])) left fits fit).bind fun log b V fits hb => ?_
      have fit := fit.mono (made_subset _ log)
      refine (ihr (usable.part (by simp [parts])) right fits fit).bind fun log' c V fits hc => ?_
      cases result : op.apply b c with
      | ok w => exact .pure fits (.binary takes (hb.mono (made_subset _ _)) hc result)
      | error trap =>
        refine .halts rfl fun output eq => op.apply_ne_outOfBounds b c ?_
        rw [result, (Halt.trap.inj eq).1]
  | call a f args ih =>
    cases typed with
    | @print _ e t argument =>
      have usable' : e.IsSafe p site := usable.arg (by simp [parts]) (List.mem_singleton_self e)
      refine .print fit (usable'.ty?_eq argument) argument
        (ih e (by simp) usable' argument fits fit) ?_
      -- the value of `print` is used, so it is 0
      exact fun log V w holds => guard.printed holds rfl rfl (usable.mem_used rfl)
    | @call _ _ _ d other found arguments =>
      obtain ⟨unknown, function⟩ := declared.function?_eq found
      rw [watch.eq_def]
      refine .valued ?_ fit fun objects w V => (usable.fits (.call _ other found arguments)
        (decide_eq_false other) · V)
      rw [if_neg other, unknown]
      have values := sound_watchAll arguments (fun e he t history W =>
        ih e he (usable.arg (by simp [parts]) he)) fits fit
      refine values.bind fun log ws V fits hws => .known function ?_
      exact calls d (settled.functions d found.mem) ws _ V fits hws
    | construct _ other known =>
      obtain ⟨d, found, -⟩ := declared.exists_class known
      rw [watch.eq_def]
      refine .valued ?_ fit fun objects w V => (usable.fits (.construct _ other known)
        (decide_eq_false other) · V)
      rw [if_neg other, found]
      exact ClassDef.sound_watch settled calls fits fit known found
  | field a o x ih =>
    rw [watch]
    refine .valued ?_ fit fun objects w V => (usable.fits typed rfl · V)
    cases typed with
    | field _ receiver found =>
      have usable' : o.IsSafe p site := usable.part (by simp [parts])
      obtain ⟨d, i, v, hd, rfl, located, field, rfl⟩ := usable'.exists_place declared receiver found
      refine (ih usable' receiver fits fit).bind fun log self V fits hself => .known located ?_
      have fit := fit.mono (made_subset _ log)
      refine (Sound.access fits fit hself hd field).bind fun log' _ V fits mem => ?_
      obtain ⟨w, hw, represents⟩ := fits.slots _ mem i v field
      refine .lift (fun a U eq => ?_) (fun output eq => ?_)
      · rw [Eval.load_of_some hw] at eq
        cases eq
        exact ⟨fits, represents⟩
      · rw [Eval.load_of_some hw] at eq
        cases eq
  | method a o x args ih ihargs =>
    rw [watch]
    refine .valued ?_ fit fun objects w V => (usable.fits typed rfl · V)
    cases typed with
    | @method _ _ c _ _ m receiver found arguments =>
      have usable' : o.IsSafe p site := usable.part (by simp [parts])
      obtain ⟨d, mem, hd, rfl, hm, method⟩ := declared.exists_method found
      have located : (p.classOf? o).bind (·.method? x) = some m := by
        rw [Program.classOf?_eq (usable'.ty?_eq receiver), hd]
        exact method
      refine (ih usable' receiver fits fit).bind fun log self V fits hself => ?_
      have fit := fit.mono (made_subset _ log)
      have values := sound_watchAll arguments (fun e he t history W =>
        ihargs e he (usable.arg (by simp [parts]) he)) fits fit
      refine values.bind fun log' ws V fits hws => .known located ?_
      refine calls m (settled.methods d mem m hm) (self :: ws) _ V fits ?_
      rw [declared.params_method mem hm]
      exact .cons (hself.mono (made_subset _ _)) hws

/-- An expression that is a statement, be it a call of `print`. -/
theorem Expr.sound_of_stmt (settled : p.IsSettled) (calls : call.IsSound G p)
    (distinct : site.names.Nodup) {e : Expr} (usable : (Stmt.expr e).IsSafe p site)
    (fits : W.Fits p (made history)) (fit : Fit (made history) site.vars locals) :
    Sound G p history W (e.watch p call site locals) fun _ _ => True := by
  obtain ⟨stmt, holds, prints⟩ := usable
  obtain ⟨t, typed⟩ : ∃ t, HasType p site e t := by
    cases stmt with
    | expr typed => exact ⟨_, typed⟩
  cases isPrint : e.isPrint with
  | false =>
    have usable : e.IsSafe p site := by
      intro a ha
      refine ⟨holds a ha, ?_⟩
      rw [e.parts_eq] at ha
      rcases List.mem_cons.1 ha with rfl | ha
      · simp [isPrint]
      · exact prints a ha
    exact (Expr.sound settled calls distinct usable typed fits fit).imp fun _ _ _ => trivial
  | true =>
    cases typed with
    | @print a e t argument =>
      have usable : e.IsSafe p site := fun b hb =>
        ⟨holds b (by simp [Stmt.parts, parts, allParts, hb]),
          prints b (by simp [Stmt.used, parts, allParts, hb])⟩
      have inner := Expr.sound settled calls distinct usable argument fits fit
      exact .print fit (usable.ty?_eq argument) argument inner fun _ _ _ _ => trivial
    | call _ other => exact absurd (by simpa [Expr.isPrint] using isPrint) other
    | construct _ other => exact absurd (by simpa [Expr.isPrint] using isPrint) other
    | _ => cases isPrint

/-! ## §7 Statements -/

/-- A statement ends as it may at a place: the local variables fit, or the function there returns a
value of its result type. -/
def Flow.Fits (site : Site) (objects : Objects) : Flow → Prop
  | .onward locals => Fit objects site.vars locals
  | .returned w => ∃ f, site = some f ∧ Represents objects f.result w

omit guard in
theorem Sound.watchThen {flow : Flow} {k : Bindings → Watch Flow} (fits : W.Fits p (made history))
    (flows : flow.Fits site (made history))
    (rest : ∀ locals, Fit (made history) site.vars locals →
      Sound G p history W (k locals) (Flow.Fits site)) :
    Sound G p history W (flow.watchThen k) (Flow.Fits site) := by
  cases flow with
  | onward locals => exact rest locals flows
  | returned w => exact .pure fits flows

/-- After an assignment the variables fit as before. -/
theorem Sound.assigned (fits : W.Fits p (made history)) (fit : Fit (made history) site.vars locals) :
    Sound G p history W (do Watch.note site locals .assigned; return .onward locals)
      (Flow.Fits site) :=
  Sound.bind (Q := fun objects _ => Fit objects site.vars locals)
    (.note fits fit (by simp) fun _ => ⟨trivial, fit⟩) fun _ _ _ fits fit => .pure fits fit

/-- A variable that gets a value of its type fits. -/
theorem Sound.watchAssign (declared : p.IsDeclared) (distinct : site.names.Nodup)
    (fits : W.Fits p (made history)) (fit : Fit (made history) site.vars locals) {x : String} {t : Ty}
    (target : Target.HasType p site (.var x) t) {w : Word} (hw : Represents (made history) t w) :
    Sound G p history W (Serpent.watchAssign site locals x w) (Flow.Fits site) := by
  have assigned : ∃ locals' V, assignVar locals x w W = .ok (.onward locals', V) ∧
      V.Fits p (made history) ∧ Fit (made history) site.vars locals' := by
    cases target with
    | own own =>
      obtain ⟨old, found, -⟩ := fit.lookup distinct own
      refine ⟨locals.set x w, W, ?_, fits, fit.set distinct own hw⟩
      rw [assignVar, found]
      rfl
    | @global v hv outside =>
      subst outside
      cases fit
      have globals : ((p.globalVars.map fun v => (v.name, v.ty)).map (·.1)).Nodup := by
        rw [List.map_map]
        exact declared.distinct.of_append_left
      obtain ⟨old, found, -⟩ := fits.globals.lookup globals (List.mem_map.2 ⟨v, hv, rfl⟩)
      refine ⟨[], _, ?_, fits.setGlobal declared.distinct.of_append_left hv hw, .nil⟩
      rw [assignVar, if_neg (by simp), Eval.bind_of_ok (V := W) (a := W) rfl, found]
      rfl
  obtain ⟨locals', V, assigned, fits, fit⟩ := assigned
  have set : Sound G p history W (liftM (assignVar locals x w)) (Flow.Fits site) := by
    refine .lift (fun flow U eq => ?_) (fun output eq => ?_)
    · rw [assigned] at eq
      cases eq
      exact ⟨fits, fit⟩
    · rw [assigned] at eq
      cases eq
  exact set.bind fun log flow U fits flows => .watchThen fits flows fun locals fit =>
    .assigned fits fit

omit guard in
/-- A field that gets a value of its type fits. -/
theorem Sound.store (fits : W.Fits p (made history)) {o : Word × ClassDef} (ho : o ∈ made history)
    {i : Nat} {v : VarDef} (hv : o.2.fields[i]? = some v) {w : Word}
    (hw : Represents (made history) v.ty w) :
    Sound G p history W (liftM (Eval.store (o.1 + fieldPlace i) w)) fun _ _ => True := by
  obtain ⟨memory, stored, fits⟩ := fits.store ho hv hw
  refine .lift (fun _ U eq => ?_) (fun output eq => ?_)
  · rw [Eval.store_of_some stored] at eq
    cases eq
    exact ⟨fits, trivial⟩
  · rw [Eval.store_of_some stored] at eq
    cases eq

/-- A computation that starts with any local variables that fit keeps everything fitting. -/
def KeepsFitting (G : List Moment → Prop) (p : Program) (site : Site)
    (x : Bindings → Watch Flow) : Prop :=
  ∀ history W locals, W.Fits p (made history) → Fit (made history) site.vars locals →
    Sound G p history W (x locals) (Flow.Fits site)

/-- Statements one after the other keep everything fitting if each of them does. -/
theorem Stmt.keeps_watchAll {fuel : Nat} {ss : List Stmt}
    (each : ∀ s ∈ ss, KeepsFitting G p site (s.watch p call fuel site)) :
    KeepsFitting G p site (Stmt.watchAll p call fuel site ss) := by
  induction ss with
  | nil => exact fun history W locals fits fit => .pure fits fit
  | cons s ss ih =>
    rw [List.forall_mem_cons] at each
    intro history W locals fits fit
    refine (each.1 _ _ _ fits fit).bind fun log flow V fits flows => ?_
    exact .watchThen fits flows fun locals fit => ih each.2 _ _ locals fits fit

/-- A loop keeps everything fitting, round by round. -/
theorem keeps_watchWhile {cond : Bindings → Watch Word} {body : Bindings → Watch Flow}
    (test : ∀ history W locals, W.Fits p (made history) → Fit (made history) site.vars locals →
      Sound G p history W (cond locals) fun objects w => Represents objects .bool w)
    (round : KeepsFitting G p site body) (n : Nat) :
    KeepsFitting G p site (watchWhile cond body n) := by
  induction n with
  | zero => exact fun history W locals _ _ => .halts rfl (by simp)
  | succ n ih =>
    intro history W locals fits fit
    refine (test _ _ _ fits fit).bind fun log w V fits _ => ?_
    have fit := fit.mono (made_subset _ log)
    split
    · exact .pure fits fit
    · refine (round _ _ _ fits fit).bind fun log' flow V fits flows => ?_
      exact .watchThen fits flows fun locals fit => ih _ _ locals fits fit

theorem Stmt.IsSafe.while_ {c : Expr} {body : List Stmt} (h : (Stmt.while_ c body).IsSafe p site) :
    (c.IsSafe p site ∧ HasType p site c .bool) ∧ ∀ s ∈ body, s.IsSafe p site := by
  obtain ⟨typed, holds, prints⟩ := h
  rw [parts, List.forall_mem_append] at holds
  rw [Stmt.used, List.forall_mem_append] at prints
  cases typed with
  | while_ condition round =>
    exact ⟨⟨fun a ha => ⟨holds.1 a ha, prints.1 a ha⟩, condition⟩,
      isSafe_of_all round holds.2 prints.2⟩

theorem Stmt.IsSafe.if_ {c : Expr} {body : List Stmt} {elif : Option (Expr × List Stmt)}
    {orElse : Option (List Stmt)} (h : (Stmt.if_ c body elif orElse).IsSafe p site) :
    (c.IsSafe p site ∧ HasType p site c .bool) ∧ (∀ s ∈ body, s.IsSafe p site) ∧
      (∀ d ∈ elif, (d.1.IsSafe p site ∧ HasType p site d.1 .bool) ∧ ∀ s ∈ d.2, s.IsSafe p site) ∧
      ∀ b ∈ orElse, ∀ s ∈ b, s.IsSafe p site := by
  obtain ⟨typed, holds, prints⟩ := h
  simp only [mem_parts_if] at holds
  simp only [mem_used_if] at prints
  cases typed with
  | if_ condition yes conditions maybe no =>
    refine ⟨⟨fun a ha => ⟨holds a (.inl ha), prints a (.inl ha)⟩, condition⟩, ?_, ?_, ?_⟩
    · exact isSafe_of_all yes (fun e he => holds e (.inr (.inl he)))
        fun e he => prints e (.inr (.inl he))
    · intro d hd
      have inElif : ∀ {e}, e ∈ d.1.parts ∨ e ∈ allParts d.2 → e.HoldsOnly p site :=
        fun he => holds _ (.inr (.inr (.inl ⟨d, hd, he⟩)))
      have printsElif : ∀ {e}, e ∈ d.1.parts ∨ e ∈ allUsed d.2 → e.isPrint = true → e ∈ p.used :=
        fun he => prints _ (.inr (.inr (.inl ⟨d, hd, he⟩)))
      exact ⟨⟨fun a ha => ⟨inElif (.inl ha), printsElif (.inl ha)⟩, conditions d hd⟩,
        isSafe_of_all (maybe d hd) (fun e he => inElif (.inr he)) fun e he => printsElif (.inr he)⟩
    · intro b hb
      exact isSafe_of_all (no b hb) (fun e he => holds e (.inr (.inr (.inr ⟨b, hb, he⟩))))
        fun e he => prints e (.inr (.inr (.inr ⟨b, hb, he⟩)))

/-- A field of an object is assigned: first the receiver is evaluated, then the value. -/
theorem Stmt.keeps_assignMember (settled : p.IsSettled) (calls : call.IsSound G p)
    (distinct : site.names.Nodup) (fuel : Nat) {o e : Expr} {x : String}
    (usable : (Stmt.assign (.member o x) e).IsSafe p site) :
    KeepsFitting G p site ((Stmt.assign (.member o x) e).watch p call fuel site) := by
  obtain ⟨stmt, holds, prints⟩ := usable
  rw [parts, List.forall_mem_append] at holds
  rw [used, List.forall_mem_append] at prints
  have usableReceiver : o.IsSafe p site := fun a ha => ⟨holds.1 a ha, prints.1 a ha⟩
  have usable : e.IsSafe p site := fun a ha => ⟨holds.2 a ha, prints.2 a ha⟩
  cases stmt with
  | assign place typed fitting =>
    cases place with
    | member receiver found =>
      obtain ⟨d, i, v, hd, rfl, located, field, rfl⟩ :=
        usableReceiver.exists_place settled.declared receiver found
      intro history W locals fits fit
      have first := Expr.sound settled calls distinct usableReceiver receiver fits fit
      refine first.bind fun log self V fits hself => .known located ?_
      have fit := fit.mono (made_subset _ log)
      have second := Expr.sound settled calls distinct usable typed fits fit
      refine second.bind fun log' w V fits hw => ?_
      have fit := fit.mono (made_subset _ log')
      have hself := hself.mono (made_subset _ log')
      refine (Sound.access fits fit hself hd field).bind fun log'' _ V fits mem => ?_
      have hw := (hw.fits fitting).mono (made_subset _ log'')
      refine (Sound.store fits mem field hw).bind fun later _ V fits _ => ?_
      exact .assigned fits ((fit.mono (made_subset _ log'')).mono (made_subset _ later))

/-- A statement that is safe keeps everything fitting. -/
theorem Stmt.keeps_watch (settled : p.IsSettled) (calls : call.IsSound G p)
    (distinct : site.names.Nodup) (fuel : Nat) {s : Stmt} (usable : s.IsSafe p site) :
    KeepsFitting G p site (s.watch p call fuel site) := by
  have value : ∀ {e t history W locals}, e.IsSafe p site → HasType p site e t →
      W.Fits p (made history) → Fit (made history) site.vars locals →
      Sound G p history W (e.watch p call site locals) fun objects w => Represents objects t w :=
    fun usable typed fits fit => Expr.sound settled calls distinct usable typed fits fit
  induction s with
  | pass => exact fun history W locals fits fit => .pure fits fit
  | assign target e =>
    cases target with
    | member o x => exact keeps_assignMember settled calls distinct fuel usable
    | var x =>
      obtain ⟨stmt, holds, prints⟩ := usable
      cases stmt with
      | assign place typed fitting =>
        intro history W locals fits fit
        have first := value (fun a ha => ⟨holds a ha, prints a ha⟩) typed fits fit
        refine first.bind fun log w V fits hw => ?_
        exact .watchAssign settled.declared distinct fits (fit.mono (made_subset _ _)) place
          (hw.fits fitting)
  | expr e =>
    intro history W locals fits fit
    refine (Expr.sound_of_stmt settled calls distinct usable fits fit).bind fun log _ V fits _ => ?_
    exact .pure fits (fit.mono (made_subset _ _))
  | return_ e =>
    obtain ⟨stmt, holds, prints⟩ := usable
    cases stmt with
    | @return_ f _ _ inside typed fitting =>
      intro history W locals fits fit
      have first := value (fun a ha => ⟨holds a ha, prints a ha⟩) typed fits fit
      refine first.bind fun log w V fits hw => ?_
      have returns : Flow.Fits site (made (history ++ log)) (.returned w) :=
        ⟨f, inside, hw.fits fitting⟩
      refine Sound.bind (Q := fun objects _ => Flow.Fits site objects (.returned w))
        (.note fits (fit.mono (made_subset _ log)) (by simp) fun _ => ⟨returns, returns⟩)
        fun _ _ _ fits flow => .pure fits flow
  | while_ c body ih =>
    obtain ⟨⟨usable, condition⟩, usableBody⟩ := usable.while_
    exact keeps_watchWhile (fun _ _ _ => value usable condition)
      (keeps_watchAll fun s hs => ih s hs (usableBody s hs)) fuel
  | if_ c body elif orElse ihbody ihelif ihelse =>
    obtain ⟨⟨usable, condition⟩, usableBody, usableElif, usableElse⟩ := usable.if_
    intro history W locals fits fit
    rw [watch.eq_def]
    refine (value usable condition fits fit).bind fun log w V fits _ => ?_
    have fit := fit.mono (made_subset _ log)
    split
    · exact keeps_watchAll (fun s hs => ihbody s hs (usableBody s hs)) _ _ _ fits fit
    · split
      · exact .pure fits fit
      · exact keeps_watchAll (fun s hs => ihelse _ rfl s hs (usableElse _ rfl s hs)) _ _ _ fits fit
      · obtain ⟨⟨usable, condition⟩, usableOther⟩ := usableElif _ rfl
        refine (value usable condition fits fit).bind fun log' w V fits _ => ?_
        have fit := fit.mono (made_subset _ log')
        split
        · exact keeps_watchAll (fun s hs => ihelif _ rfl s hs (usableOther s hs)) _ _ _ fits fit
        · exact .pure fits fit
      · obtain ⟨⟨usable, condition⟩, usableOther⟩ := usableElif _ rfl
        refine (value usable condition fits fit).bind fun log' w V fits _ => ?_
        have fit := fit.mono (made_subset _ log')
        split
        · exact keeps_watchAll (fun s hs => ihelif _ rfl s hs (usableOther s hs)) _ _ _ fits fit
        · exact keeps_watchAll (fun s hs => ihelse _ rfl s hs (usableElse _ rfl s hs)) _ _ _ fits fit

/-! ## §8 Functions and programs -/

/-- The variables of a function fit when it starts. -/
theorem FunDef.IsSafe.fit_initialLocals {f : FunDef} (h : f.IsSafe p) {objects : Objects}
    {args : List Word} (arguments : List.Forall₂ (Represents objects) (f.params.map (·.ty)) args) :
    Fit objects f.vars (f.initialLocals args) := by
  have params : Fit objects (f.params.map fun a => (a.name, a.ty))
      ((f.params.map (·.name)).zip args) := by
    generalize f.params = params at arguments
    induction params generalizing args with
    | nil => exact .nil
    | cons a params ih =>
      cases arguments with
      | cons first rest => exact .cons ⟨rfl, first⟩ (ih rest)
  have locals : Fit objects (f.locals.map fun v => (v.name, v.ty))
      (f.locals.map fun v => (v.name, v.value.word)) :=
    .of_varDefs fun v hv => (Represents.literal objects v.value).fits (h.locals v hv)
  exact List.rel_append params locals

/-- Calls keep everything fitting, however many may be open. -/
theorem Program.IsSettled.isSound_call (settled : p.IsSettled) (fuel depth : Nat) :
    (p.call fuel depth).IsSound G p := by
  induction depth with
  | zero => exact fun f _ args history W _ _ => .halts rfl (by simp)
  | succ depth ih =>
    intro f hf args history W fits arguments
    have fit := hf.fit_initialLocals arguments
    have distinct : (Site.names (some f)).Nodup := hf.distinct
    refine Sound.bind (Q := fun objects _ => Fit objects f.vars (f.initialLocals args))
      (.note fits fit (by simp) fun _ => ⟨trivial, fit⟩) fun log _ V fits fit => ?_
    have body :
        KeepsFitting G p (some f) (Stmt.watchAll p (p.call fuel depth) fuel (some f) f.body) :=
      Stmt.keeps_watchAll fun s hs => Stmt.keeps_watch settled ih distinct fuel (hf.body s hs)
    refine (body _ _ _ fits fit).bind fun log' flow V fits flows => ?_
    cases flow with
    | onward locals =>
      refine Sound.bind (Q := fun _ _ => True)
        (.note fits flows (by simp) fun _ => ⟨trivial, trivial⟩) ?_
      exact fun _ _ _ fits _ => .pure fits (.zero _ _)
    | returned w =>
      obtain ⟨g, same, hw⟩ := flows
      cases same
      exact .pure fits hw

/-- The world in which a program starts has no objects. -/
theorem Program.IsDeclared.fits_initialWorld (h : p.IsDeclared) (pages : Nat) :
    (p.initialWorld pages).Fits p [] := by
  refine ⟨trivial, rfl, by simp, ?_, by simp⟩
  exact .of_varDefs fun v hv => (Represents.literal [] v.value).fits (h.vars v hv).value

/-- Statements at the top level keep everything fitting. -/
theorem Program.IsSettled.sound_watchStmts (settled : p.IsSettled) (fuel depth : Nat)
    {ss : List Stmt} (sub : ss ⊆ p.stmts) (fits : W.Fits p (made history)) :
    Sound G p history W (p.watchStmts (p.call fuel depth) fuel ss) fun _ _ => True := by
  have calls : (p.call fuel depth).IsSound G p := settled.isSound_call fuel depth
  have outside : (Site.names none).Nodup := .nil
  have body : KeepsFitting G p none (Stmt.watchAll p (p.call fuel depth) fuel none ss) :=
    Stmt.keeps_watchAll fun s hs =>
      Stmt.keeps_watch settled calls outside fuel (settled.stmts s (sub hs))
  refine (body _ _ [] fits .nil).bind fun log flow V fits _ => ?_
  cases flow with
  | onward locals => exact .pure fits trivial
  | returned w => exact .halts rfl (by simp)

/-- A whole program keeps everything fitting. -/
theorem Program.IsSettled.sound_watch (settled : p.IsSettled) (limits : Wasm.Limits) :
    Sound G p [] (p.initialWorld limits.pages) (p.watch limits) fun _ _ => True := by
  have fits : (p.initialWorld limits.pages).Fits p (made []) :=
    settled.declared.fits_initialWorld limits.pages
  have calls : (p.call limits.fuel limits.depth).IsSound G p := settled.isSound_call _ _
  have without : Sound G p [] (p.initialWorld limits.pages) (do
      p.watchStmts (p.call limits.fuel limits.depth) limits.fuel p.stmts
      return none) fun _ (_ : Option Word) => True :=
    (settled.sound_watchStmts _ _ (List.Subset.refl _) fits).bind
      fun _ _ _ fits _ => .pure fits trivial
  unfold watch watchMain
  cases last : p.stmts.getLast? with
  | none => exact without
  | some s =>
    cases s with
    | expr e =>
      refine (settled.sound_watchStmts _ _ (List.dropLast_subset _) fits).bind
        fun _ _ _ fits _ => ?_
      have usable := settled.stmts _ (List.mem_of_getLast? last)
      have outside : (Site.names none).Nodup := .nil
      have value := Expr.sound_of_stmt settled calls outside usable fits .nil
      exact value.bind fun _ _ _ fits _ => .pure fits trivial
    | _ => exact without

/-- A program that uses no value of `print` keeps everything fitting as long as all is calm. -/
theorem Program.IsSafe.sound_watch (safe : p.IsSafe) (limits : Wasm.Limits) :
    Sound IsCalm p [] (p.initialWorld limits.pages) (p.watch limits) fun _ _ => True :=
  haveI := safe.apart.isGuard
  safe.toIsSettled.sound_watch limits

end Serpent
