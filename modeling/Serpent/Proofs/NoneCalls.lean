/-
Serpent.Proofs.NoneCalls — the values of calls that are typed `None`.

A function without a result type returns `None`, the word 0, whether it returns a value of that type
or comes to its end. A call of `print` is typed `None` too, but its value is the word that it has
printed, whatever its type is. Such a word can get into variables, fields and results that are typed
`None`; as long as no value of `print` that is used is another word than 0, it does not, and every
other call that is typed `None` leaves 0. It does not once the objects have taken up all addresses:
a new object is then put over an old one, with its fields in the place of the old ones (§3).

  §1 Logs without words from `print`
  §2 Values of calls
  §3 Objects that take up all addresses
-/
import Serpent.Proofs.NullAccess

namespace Serpent

open Wasm (Bindings)

/-! ## §1 Logs without words from `print` -/

/-- Whether a call of `print` that stands where its value is used leaves another word than 0. -/
def Event.isStray (p : Program) : Event → Bool
  | .value e w => e.isPrint && e ∈ p.used && w ≠ 0
  | _ => false

/-- All is calm, and no value of `print` that is used is another word than 0. -/
structure IsQuiet (p : Program) (log : List Moment) : Prop extends IsCalm log where
  prints : ∀ m ∈ log, m.event.isStray p = false

instance (p : Program) (log : List Moment) : Decidable (IsQuiet p log) :=
  decidable_of_iff (IsCalm log ∧ ∀ m ∈ log, m.event.isStray p = false)
    ⟨fun h => ⟨h.1, h.2⟩, fun h => ⟨h.toIsCalm, h.prints⟩⟩

theorem IsQuiet.of_append {p : Program} {log log' : List Moment} (h : IsQuiet p (log ++ log')) :
    IsQuiet p log :=
  ⟨h.toIsCalm.of_append, fun m hm => h.prints m (List.mem_append_left _ hm)⟩

instance (p : Program) : IsGuard p (IsQuiet p) where
  of_append := IsQuiet.of_append
  calm h := h.toIsCalm
  printed {log m e w} h event isPrint used := by
    have plain := h.prints m (by simp)
    rw [event] at plain
    simpa [Event.isStray, isPrint, used] using plain

/-! ## §2 Values of calls -/

namespace Program

variable {q : Program} {limits : Wasm.Limits} {before after : List Moment} {m : Moment}
  {e l : Expr} {w : Word}

/-- As long as a run is quiet, the value of an expression of type `None` is 0. -/
theorem IsSettled.eq_zero_of_none (settled : q.IsSettled)
    (split : q.log limits = before ++ m :: after) (quiet : IsQuiet q (before ++ [m]))
    (event : m.event = .value e w) (other : e.isPrint = false) (none : e.ty? = some .none) :
    w = 0 := by
  have sound : Sound (IsQuiet q) q [] _ (q.watch limits) _ := settled.sound_watch limits
  have fits := (sound.moments before m after split quiet).event
  rw [event] at fits
  obtain ⟨t, written, -, represents⟩ := fits
  rw [Expr.source_eq other] at written
  cases written.symm.trans none
  exact represents

/-- The value of `print` is the word that it has printed, and a comparison of it to `None` is about
that word. Every other call that is typed `None` leaves 0, and is `None`, as long as no field has
been accessed through 0, the objects have not taken up all addresses and no value of `print` that is
used was another word than 0. This holds at every moment of every run of a checked program, and what
its module goes through enacts these moments. It holds not only for calls, but for all expressions
that are typed `None`. -/
theorem none_calls_leave_zero {source : String} {p q : Program}
    (parsed : Program.parse source = .ok p) (checked : p.check = .ok q) :
    ∃ i, Image.ofProgram q = .ok i ∧
      ∀ limits : Wasm.Limits, 1 ≤ limits.pages → limits.pages ≤ Wasm.Host.maxPages →
        i.toModule.run limits =
          (((q.watch limits).outcome (q.initialWorld limits.pages)).map
            fun r => ⟨r.1, r.2.output⟩).mapError Halt.error ∧
        (∃ u, i.Performs q limits (q.log limits) (i.toModule.trace limits) u) ∧
        ∀ (before : List Moment) (m : Moment) (after : List Moment) (e : Expr) (w : Word),
          q.log limits = before ++ m :: after → m.event = .value e w →
          (∀ a arg, e = .call a printFunction [arg] →
            ∃ (earlier : List Moment) (m' : Moment), before = earlier ++ [m'] ∧
              m'.event = .value arg w) ∧
          (∀ a b c arg, e = .binary a .is (.call b printFunction [arg]) (.literal c .none) →
            ∃ (earlier : List Moment) (m' m₁ m₂ : Moment) (u : Word),
              before = earlier ++ [m', m₁, m₂] ∧ m'.event = .value arg u ∧
              w = Word.ofBool (u = 0)) ∧
          (IsQuiet q (before ++ [m]) →
            (e.isPrint = false → e.ty? = some .none → w = 0) ∧
            ∀ (a : Option Ty) (l : Expr) (b : Option Ty), e = .binary a .is l (.literal b .none) →
              l.isPrint = false → l.ty? = some .none → w = 1) := by
  obtain ⟨i, hi, lowers, resolved, ids⟩ := exists_image_of_check parsed checked
  have settled := isSettled_of_check checked
  refine ⟨i, hi, fun limits positive _ => ?_⟩
  obtain ⟨u, performs, -⟩ := lowers.performs resolved ids limits
  have follows : AllFollow q (q.log limits) := Enacts.allFollow performs
  refine ⟨lowers.run_eq_watch resolved ids positive, ⟨u, performs⟩,
    fun before m after e w split event => ?_⟩
  have here := follows.value split event
  refine ⟨?printed, ?printedIs, fun quiet => ⟨settled.eq_zero_of_none split quiet event, ?is⟩⟩
  case printed => exact here.printed
  case printedIs =>
    rintro a b c arg rfl
    obtain ⟨earlier, m₁, m₂, u, rfl, value, eq⟩ := here.compared _ _ _ _ rfl
    rw [List.append_assoc] at split
    obtain ⟨earliest, m', rfl, argument⟩ := (follows.value split value).printed _ _ rfl
    exact ⟨earliest, m', m₁, m₂, u, List.append_assoc .., argument, eq⟩
  case is =>
    rintro a l b rfl other none
    obtain ⟨earlier, m₁, m₂, u, rfl, value, rfl⟩ := here.compared _ _ _ _ rfl
    rw [List.append_assoc] at split
    have quiet' : IsQuiet q (earlier ++ [m₁]) := by
      have parts : earlier ++ [m₁, m₂] ++ [m] = (earlier ++ [m₁]) ++ [m₂, m] := by simp
      rw [parts] at quiet
      exact quiet.of_append
    rw [settled.eq_zero_of_none split quiet' value other none]
    rfl

/-- A function that returns what `print` leaves is called with 0. -/
def echoing : Program where
  defs := [.function ⟨"echo", [⟨"x", .int⟩], .none, [],
    [.return_ (.call none printFunction [.var none "x"])]⟩]
  stmts := [.expr (.binary none .is (.call none "echo" [.literal none (.number 0)])
    (.literal none .none))]

/-- The comparison at the end, with the types that are found. -/
def echoed : Expr :=
  .binary (some .bool) .is
    (.call (some .none) "echo" [.literal (some .int) (.number 0)]) (.literal (some .none) .none)

/-- A value of `print` is used, but it is 0; so the call is `None`. -/
theorem none_calls_leave_zero_echoing :
    ∃ (q : Program) (before : List Moment) (m : Moment) (after : List Moment),
    echoing.check = .ok q ∧ q.log ⟨1, 10, 10⟩ = before ++ m :: after ∧ IsQuiet q (before ++ [m]) ∧
    m.event = .value echoed 1 := by
  have shown : (echoing.check.toOption.map fun q =>
      ((q.log ⟨1, 10, 10⟩)[7]?.any (fun m => m.event.value?.any (·.1 = echoed)),
        decide (IsQuiet q (q.log ⟨1, 10, 10⟩)))) = some (true, true) := by decide +kernel
  obtain ⟨q, checked, facts⟩ := Option.map_eq_some_iff.1 shown
  rw [Fallible.toOption_eq_some] at checked
  rw [Prod.mk.injEq, decide_eq_true_eq] at facts
  obtain ⟨m, after, split, compared⟩ := exists_split facts.1
  obtain ⟨⟨e, w⟩, value, here⟩ := (Option.any_eq_true _ _).1 compared
  obtain rfl : e = echoed := by simpa using here
  have quiet := facts.2
  rw [split, List.append_cons] at quiet
  have parsed := parse_of_tokens (by decide) (lex_text (p := echoing) (by decide))
  obtain ⟨i, -, law⟩ := none_calls_leave_zero parsed checked
  have is := ((law ⟨1, 10, 10⟩ (by decide) (by decide)).2.2 _ m after echoed w split
    (Event.eq_of_value? value)).2.2 quiet.of_append
  obtain rfl : w = 1 := is.2 _ _ _ rfl rfl rfl
  exact ⟨q, _, m, after, checked, split, quiet.of_append, Event.eq_of_value? value⟩

/-- A call of `print` is typed `None` and leaves 5, so it is not `None`; no field is accessed. -/
theorem printed_number_is_not_none :
    ∃ (p q : Program) (i : Image) (before : List Moment) (m : Moment) (after : List Moment),
    parse "print(5) is None" = .ok p ∧ p.check = .ok q ∧ Image.ofProgram q = .ok i ∧
    IsCalm (q.log ⟨1, 10, 10⟩) ∧ q.log ⟨1, 10, 10⟩ = before ++ m :: after ∧
    m.event = .value (.call (some .none) printFunction [.literal (some .int) (.number 5)]) 5 ∧
    i.toModule.run ⟨1, 10, 10⟩ = .ok ⟨some 0, "5\n"⟩ := by
  have shown : ((parse "print(5) is None").toOption.bind fun p => p.check.toOption.map fun q =>
      ((q.log ⟨1, 10, 10⟩)[1]?.any (fun m => m.event.value? =
          some (.call (some .none) printFunction [.literal (some .int) (.number 5)], 5)),
        decide (IsCalm (q.log ⟨1, 10, 10⟩)), (q.evaluate ⟨1, 10, 10⟩).toOption)) =
      some (true, true, some ⟨some 0, "5\n"⟩) := by decide +kernel
  obtain ⟨p, parsed, rest⟩ := Option.bind_eq_some_iff.1 shown
  obtain ⟨q, checked, facts⟩ := Option.map_eq_some_iff.1 rest
  rw [Fallible.toOption_eq_some] at parsed checked
  rw [Prod.mk.injEq, Prod.mk.injEq, decide_eq_true_eq, Fallible.toOption_eq_some] at facts
  obtain ⟨printed, calm, value⟩ := facts
  obtain ⟨m, after, split, event⟩ := exists_split printed
  obtain ⟨i, hi, lowers, resolved, ids⟩ := exists_image_of_check parsed checked
  have run : i.toModule.run ⟨1, 10, 10⟩ = _ := (lowers.run_eq resolved ids (by decide)).1
  rw [value] at run
  exact ⟨p, q, i, _, m, after, parsed, checked, hi, calm, split,
    Event.eq_of_value? (of_decide_eq_true event), run⟩

end Program

/-! ## §3 Objects that take up all addresses -/

/-- A computation comes to its end, and no field is accessed through 0 in the course of it. -/
structure Watch.Passes {α : Type} (x : Watch α) (W : World) (a : α) (V : World) : Prop where
  outcome : x.outcome W = .ok (a, V)
  receivers : ∀ m ∈ x.log W, m.event.isNullAccess = false

namespace Watch.Passes

variable {α β : Type} {x : Watch α} {k : α → Watch β} {W V U : World} {a : α} {b : β}

theorem of_all (outcome : x.outcome W = .ok (a, V))
    (receivers : (x.log W).all (! ·.event.isNullAccess) = true) : x.Passes W a V :=
  ⟨outcome, by simpa using receivers⟩

theorem pure : (Pure.pure a : Watch α).Passes W a W := .of_all rfl rfl

theorem bind (first : x.Passes W a V) (rest : (k a).Passes V b U) : (x >>= k).Passes W b U := by
  obtain ⟨log, outcome⟩ := bind_of_ok (k := k) first.outcome
  refine ⟨outcome.trans rest.outcome, fun m hm => ?_⟩
  rw [log, List.mem_append] at hm
  exact hm.elim (first.receivers m) (rest.receivers m)

/-- A loop takes `n` rounds if its condition holds in each world from the first to the one before
the last, and a round leads from each world to the next. -/
theorem watchWhile {cond : Bindings → Watch Word} {body : Bindings → Watch Flow}
    {locals : Bindings} {n fuel : Nat} (W : Nat → World) (more : n < fuel)
    (test : ∀ j < n, ∃ b, b ≠ 0 ∧ (cond locals).Passes (W j) b (W j))
    (round : ∀ j < n, (body locals).Passes (W j) (.onward locals) (W (j + 1)))
    (last : (cond locals).Passes (W n) 0 (W n)) :
    (watchWhile cond body fuel locals).Passes (W 0) (.onward locals) (W n) := by
  obtain ⟨fuel, rfl⟩ := Nat.exists_eq_add_one_of_ne_zero (by omega : fuel ≠ 0)
  induction n generalizing W fuel with
  | zero =>
    refine last.bind ?_
    rw [if_pos rfl]
    exact .pure
  | succ n ih =>
    obtain ⟨fuel, rfl⟩ := Nat.exists_eq_add_one_of_ne_zero (by omega : fuel ≠ 0)
    obtain ⟨b, yes, tested⟩ := test 0 (by omega)
    refine tested.bind ?_
    rw [if_neg yes]
    refine (round 0 (by omega)).bind ?_
    exact ih (fun j => W (j + 1)) (fun j hj => test (j + 1) (by omega))
      (fun j hj => round (j + 1) (by omega)) last fuel (by omega)

end Watch.Passes

namespace Program

/-! An object with a field that is typed `None` is made, and then so many objects without fields
that the addresses are used up. The next object is put at the address 0, over the first one. -/

/-- The condition of the loop. -/
def lapTest : Expr :=
  .binary (some .bool) .lt (.var (some .int) "k") (.literal (some .int) (.number 1073741821))

/-- A round of the loop. -/
def lapRound : List Stmt :=
  [.expr (.call (some (.object "Empty")) "Empty" []),
    .assign (.var "k")
      (.binary (some .int) .add (.var (some .int) "k") (.literal (some .int) (.number 1)))]

/-- The comparison at the end. -/
def lapLast : Expr :=
  .binary (some .bool) .is (.method (some .none) (.var (some (.object "Cell")) "c") "get" [])
    (.literal (some .none) .none)

/-- The program, with the types that are found. -/
def lapping : Program where
  defs := [.class_ ⟨"Cell", objectClass, [⟨"x", .none, .none⟩],
      [⟨"get", [⟨"self", .object "Cell"⟩], .none, [],
        [.return_ (.field (some .none) (.var (some (.object "Cell")) "self") "x")]⟩]⟩,
    .class_ ⟨"Empty", objectClass, [], []⟩,
    .class_ ⟨"Pair", objectClass, [⟨"v", .int, .number 5⟩, ⟨"w", .int, .number 5⟩], []⟩,
    .var ⟨"c", .object "Cell", .none⟩, .var ⟨"k", .int, .number 0⟩]
  stmts := [.assign (.var "c") (.call (some (.object "Cell")) "Cell" []),
    .while_ lapTest lapRound, .expr (.call (some (.object "Pair")) "Pair" []), .expr lapLast]

/-- The memory of the first object. -/
def lapMemory : Wasm.Memory :=
  ((((Wasm.Memory.ofPages 1).setByte 8 0).setByte 9 0).setByte 10 0).setByte 11 0

/-- The world after so many rounds. -/
def lapWorld (j : Nat) : World :=
  ⟨[("c", 4), ("k", Int32.ofNat j)], lapMemory, Int32.ofNat (12 + 4 * j), ""⟩

variable (fuel depth : Nat)

theorem passes_lapTest (call : Call) (j : Nat) :
    (lapTest.watch lapping call none []).Passes (lapWorld j)
      (Word.ofBool ((Int32.ofNat j).toInt < 1073741821)) (lapWorld j) :=
  .of_all rfl rfl

theorem passes_lapRound (j : Nat) :
    (Stmt.watchAll lapping (lapping.call fuel (depth + 1)) fuel none lapRound []).Passes
      (lapWorld j) (.onward []) (lapWorld (j + 1)) := by
  have free : Int32.ofNat (12 + 4 * (j + 1)) = Int32.ofNat (12 + 4 * j) + 4 := by
    rw [Nat.mul_add, ← Nat.add_assoc, Int32.ofNat_add]
    rfl
  have count : Int32.ofNat (j + 1) = Int32.ofInt ((Int32.ofNat j).toInt + 1) := by
    rw [Int32.ofNat_add, Int32.ofInt_add, Int32.ofInt_toInt]
    rfl
  refine .of_all ?_ rfl
  rw [lapWorld, lapWorld, free, count]
  rfl

/-- After 1073741821 rounds the first free address is 0. -/
theorem passes_lapLoop (more : 1073741821 < fuel) :
    (Stmt.watch lapping (lapping.call fuel (depth + 1)) fuel none (.while_ lapTest lapRound)
      []).Passes (lapWorld 0) (.onward []) (lapWorld 1073741821) := by
  refine .watchWhile lapWorld more (fun j hj => ⟨1, by decide, ?_⟩)
    (fun j _ => passes_lapRound fuel depth j) (passes_lapTest _ _)
  have test := passes_lapTest (lapping.call fuel (depth + 1)) j
  have small : (Int32.ofNat j).toInt = j := Int32.toInt_ofNat_of_lt (by omega)
  rw [small, decide_eq_true (by omega)] at test
  exact test

/-- The next object is put over the first one. -/
theorem passes_lapping (more : 1073741821 < fuel) :
    ∃ V, (lapping.watch ⟨1, fuel, depth + 1⟩).Passes (lapping.initialWorld 1) (some 0) V ∧
      V.output = "" := by
  have first : (Stmt.watch lapping (lapping.call fuel (depth + 1)) fuel none
      (.assign (.var "c") (.call (some (.object "Cell")) "Cell" [])) []).Passes
      (lapping.initialWorld 1) (.onward []) (lapWorld 0) := .of_all rfl rfl
  have loop := passes_lapLoop fuel depth more
  obtain ⟨V, pair, U, last, output⟩ : ∃ V, (Stmt.watch lapping (lapping.call fuel (depth + 1)) fuel
      none (.expr (.call (some (.object "Pair")) "Pair" [])) []).Passes (lapWorld 1073741821)
        (.onward []) V ∧ ∃ U, (lapLast.watch lapping (lapping.call fuel (depth + 1)) none []).Passes
          V 0 U ∧ U.output = "" :=
    ⟨_, .of_all rfl rfl, _, .of_all rfl rfl, rfl⟩
  have stmts : (Stmt.watchAll lapping (lapping.call fuel (depth + 1)) fuel none
      lapping.stmts.dropLast []).Passes (lapping.initialWorld 1) (.onward []) V :=
    first.bind (loop.bind (pair.bind .pure))
  have onward : (lapping.watchStmts (lapping.call fuel (depth + 1)) fuel
      lapping.stmts.dropLast).Passes (lapping.initialWorld 1) () V := stmts.bind .pure
  exact ⟨U, onward.bind (last.bind .pure), output⟩

/-- A field that is typed `None` is where a field of another object has been put: a call that
returns it leaves 5 and is not `None`, though no field is accessed through 0 and nothing is
printed. -/
theorem none_call_after_lap : parse lapping.erase.text = .ok lapping.erase ∧
    lapping.erase.check = .ok lapping ∧ lapping.PrintsApart ∧
    (∀ m ∈ lapping.log {}, m.event.isNullAccess = false) ∧
    ∃ i, Image.ofProgram lapping = .ok i ∧ i.toModule.run {} = .ok ⟨some 0, ""⟩ := by
  have parsed : parse lapping.erase.text = .ok lapping.erase :=
    parse_of_tokens (by decide) (lex_text (by decide))
  have checked : lapping.erase.check = .ok lapping := by decide +kernel
  have apart : lapping.PrintsApart := (by decide : ∀ e ∈ lapping.used, e.isPrint = false)
  obtain ⟨i, hi, lowers, resolved, ids⟩ := exists_image_of_check parsed checked
  obtain ⟨V, passes, output⟩ := passes_lapping 0x4000000000000000 1999 (by decide)
  refine ⟨parsed, checked, apart, passes.receivers, i, hi, ?_⟩
  have run : i.toModule.run {} = _ := lowers.run_eq_watch resolved ids (by decide)
  rw [passes.outcome] at run
  rw [run, ← output]
  rfl

end Program

end Serpent
