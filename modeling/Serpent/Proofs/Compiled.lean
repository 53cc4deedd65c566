/-
Serpent.Proofs.Compiled — what compiling a source text gives.

A source text that is compiled has a program, a checked program and an image. The module of the
image does what evaluating the checked program does, whatever the bounds on memory, rounds and
calls, and it is well formed: the host never refuses it.

  §1 The stages of compiling
  §2 A checked program is compiled
  §3 The module does what the program does
  §4 The module is well formed
-/
import Serpent.Compile
import Serpent.Proofs.Rounds
import Serpent.Proofs.RoundTrip
import Serpent.Proofs.WellFormed

namespace Serpent

open Wasm (Module Limits)

/-! ## §1 The stages of compiling -/

theorem compile_eq_ok {source text : String} : compile source = .ok text ↔
    ∃ p q i, Program.parse source = .ok p ∧ p.check = .ok q ∧ Image.ofProgram q = .ok i ∧
      i.text = text := by
  constructor
  · intro h
    obtain ⟨i, hi, h⟩ := Fallible.bind_eq_ok.1 h
    obtain ⟨q, hq, hi⟩ := Fallible.bind_eq_ok.1 hi
    obtain ⟨p, hp, hq⟩ := Fallible.bind_eq_ok.1 hq
    cases h
    exact ⟨p, q, i, Fallible.mapError_eq_ok.1 hp, Fallible.mapError_eq_ok.1 hq,
      Fallible.mapError_eq_ok.1 hi, rfl⟩
  · rintro ⟨p, q, i, hp, hq, hi, rfl⟩
    simp [compile, image, check, parse, hp, hq, hi, Except.mapError]

/-- A checked program has an image, all its names are known, and they are words. -/
theorem Program.exists_image_of_check {source : String} {p q : Program}
    (parsed : Program.parse source = .ok p) (checked : p.check = .ok q) :
    ∃ i, Image.ofProgram q = .ok i ∧ i.Lowers q ∧ q.IsResolved ∧ q.HasWords := by
  have resolved := isResolved_of_check checked
  have ids := (hasWords_of_isCanonical (isCanonical_of_parse parsed)).congr
    (bare_of_check checked)
  obtain ⟨i, hi, lowers⟩ := resolved.exists_image
  exact ⟨i, hi, lowers, resolved, ids⟩

/-! ## §2 A checked program is compiled -/

/-- A source text without an image has no program, or its program is not well typed. -/
theorem image_eq_error {source : String} {e : CompileError} (h : image source = .error e) :
    (∃ d, Program.parse source = .error d ∧ e = .parse d) ∨
      ∃ p d, Program.parse source = .ok p ∧ p.check = .error d ∧ e = .type d := by
  cases parsed : Program.parse source with
  | error d =>
    simp only [image, check, parse, parsed, Except.mapError, Fallible.error_bind,
      Except.error.injEq] at h
    exact .inl ⟨d, rfl, h.symm⟩
  | ok p =>
    cases checked : p.check with
    | error d =>
      simp only [image, check, parse, parsed, checked, Except.mapError, Fallible.ok_bind,
        Fallible.error_bind, Except.error.injEq] at h
      exact .inr ⟨p, d, rfl, checked, h.symm⟩
    | ok q =>
      obtain ⟨i, hi, -⟩ := (Program.isResolved_of_check checked).exists_image
      simp only [image, check, parse, parsed, checked, hi, Except.mapError, Fallible.ok_bind,
        reduceCtorEq] at h

/-- Every checked program has an image, whatever types stood in it before it was checked. So a
source text is compiled exactly if it has a program that is well typed, and no source text stops
with an error that the compiler itself is to blame for. -/
theorem Program.compiles_of_check :
    (∀ p q : Program, p.check = .ok q → ∃ i, Image.ofProgram q = .ok i) ∧
    (∀ source, (∃ text, compile source = .ok text) ↔
      ∃ p q, Program.parse source = .ok p ∧ p.check = .ok q) ∧
    ∀ source e, compile source ≠ .error (.internal e) ∧
      ∀ limits, compileAndRun source limits ≠ .error (.internal e) := by
  have exists_image : ∀ p q : Program, p.check = .ok q → ∃ i, Image.ofProgram q = .ok i := by
    intro p q checked
    obtain ⟨i, hi, -⟩ := (isResolved_of_check checked).exists_image
    exact ⟨i, hi⟩
  have external : ∀ source e, compile source ≠ .error (.internal e) := by
    intro source e h
    cases result : image source with
    | ok i =>
      rw [compile, result] at h
      cases h
    | error d =>
      rw [compile, result] at h
      cases h
      rcases image_eq_error result with ⟨_, -, h⟩ | ⟨_, _, -, -, h⟩ <;> cases h
  refine ⟨exists_image, fun source => ⟨?_, ?_⟩, fun source e => ⟨external source e, ?_⟩⟩
  · rintro ⟨text, h⟩
    obtain ⟨p, q, i, parsed, checked, -⟩ := compile_eq_ok.1 h
    exact ⟨p, q, parsed, checked⟩
  · rintro ⟨p, q, parsed, checked⟩
    obtain ⟨i, hi⟩ := exists_image p q checked
    exact ⟨i.text, compile_eq_ok.2 ⟨p, q, i, parsed, checked, hi, rfl⟩⟩
  · intro limits h
    cases result : compile source with
    | ok text =>
      rw [compileAndRun, result, Fallible.ok_bind] at h
      cases run : Wasm.run text limits <;> simp [run, Except.mapError] at h
    | error d =>
      rw [compileAndRun, result] at h
      cases h
      exact external source e result

/-- A program with two wrong types written into it: those of a field and of its receiver. -/
def Program.mislabelled : Program where
  defs := [.class_ ⟨"Cell", objectClass, [⟨"content", .int, .number 0⟩], []⟩]
  stmts := [.expr (.field (some .bool) (.call (some .int) "Cell" []) "content")]

/-- Wrong types do not keep a program from being compiled. -/
theorem Program.compiles_mislabelled :
    ∃ q i, mislabelled.check = .ok q ∧ Image.ofProgram q = .ok i := by
  have isOk : mislabelled.check.isOk = true := by decide
  cases checked : mislabelled.check with
  | error e =>
    rw [checked] at isOk
    cases isOk
  | ok q =>
    obtain ⟨i, hi⟩ := compiles_of_check.1 mislabelled q checked
    exact ⟨q, i, rfl, hi⟩

/-! ## §3 The module does what the program does -/

/-- A program that comes to an end has a value exactly if its last statement is an expression. -/
theorem Program.value_isSome_iff {q : Program} {limits : Limits} {outcome : Wasm.RunOutcome}
    (h : q.evaluate limits = .ok outcome) :
    outcome.value.isSome = true ↔ ∃ e, q.stmts.getLast? = some (.expr e) := by
  obtain ⟨⟨value, W⟩, run, rest⟩ := Fallible.bind_eq_ok.1 h
  cases rest
  constructor
  · intro some
    refine Image.exists_of_hasValue ?_
    by_contra without
    rw [Bool.not_eq_true] at without
    rw [value_eq_none without run] at some
    cases some
  · rintro ⟨e, last⟩
    rw [main_of_value last] at run
    obtain ⟨_, _, -, run⟩ := Eval.bind_eq_ok.1 run
    obtain ⟨_, _, -, run⟩ := Eval.bind_eq_ok.1 run
    cases run
    rfl

/-- The module of a checked program does what evaluating the program does: it prints the same and
gives the same value, or it stops with the same trap, or both go on. The value is there exactly if
the last statement is an expression. Evaluating is always defined, and more rounds change nothing
once a program has come to an end. -/
theorem Program.run_module_eq_evaluate {source : String} {p q : Program}
    (parsed : Program.parse source = .ok p) (checked : p.check = .ok q) :
    ∃ i, Image.ofProgram q = .ok i ∧ Module.read? i.text = some i.toModule ∧
      ∀ pages depth, 1 ≤ pages → pages ≤ Wasm.Host.maxPages →
        (∀ fuel, i.toModule.run ⟨pages, fuel, depth⟩ =
            (q.evaluate ⟨pages, fuel, depth⟩).mapError Halt.error ∧
          q.evaluate ⟨pages, fuel, depth⟩ ≠ .error .undefined) ∧
        (∀ fuel outcome, q.evaluate ⟨pages, fuel, depth⟩ = .ok outcome →
          (outcome.value.isSome = true ↔ ∃ e, q.stmts.getLast? = some (.expr e))) ∧
        ∀ fuel fuel', fuel ≤ fuel' → q.evaluate ⟨pages, fuel, depth⟩ ≠ .error .unfinished →
          q.evaluate ⟨pages, fuel', depth⟩ = q.evaluate ⟨pages, fuel, depth⟩ := by
  obtain ⟨i, hi, lowers, resolved, ids⟩ := exists_image_of_check parsed checked
  refine ⟨i, hi, lowers.read?_text resolved ids, fun pages depth positive _ => ⟨?_, ?_, ?_⟩⟩
  · exact fun fuel => lowers.run_eq resolved ids positive
  · exact fun fuel outcome h => value_isSome_iff h
  · intro fuel fuel' le finished
    exact (q.evaluate_of_le le).resolve_left finished

/-- The sample program is read from its text and checked, and its module prints and gives what the
program does: the sign of a negative number. -/
theorem Program.run_module_counting : ∃ q i, counting.check = .ok q ∧ Image.ofProgram q = .ok i ∧
    q.evaluate ⟨1, 10, 10⟩ = .ok ⟨some (-1), "-1\n"⟩ ∧
    i.toModule.run ⟨1, 10, 10⟩ = .ok ⟨some (-1), "-1\n"⟩ := by
  have value : (counting.check.toOption.map fun q => (q.evaluate ⟨1, 10, 10⟩).toOption) =
      some (some ⟨some (-1), "-1\n"⟩) := by decide +kernel
  cases checked : counting.check with
  | error e =>
    rw [checked] at value
    cases value
  | ok q =>
    rw [checked] at value
    have evaluated : q.evaluate ⟨1, 10, 10⟩ = .ok ⟨some (-1), "-1\n"⟩ := by
      cases result : q.evaluate ⟨1, 10, 10⟩ with
      | error e => simp [Except.toOption, result] at value
      | ok outcome =>
        simp only [Except.toOption, result, Option.map_some, Option.some.injEq] at value
        rw [value]
    have parsed := parse_of_tokens (by decide) (lex_text (p := counting) (by decide))
    obtain ⟨i, hi, -, same⟩ := run_module_eq_evaluate parsed checked
    have run := ((same 1 10 (by decide) (by decide)).1 10).1
    rw [evaluated] at run
    exact ⟨q, i, rfl, hi, evaluated, run⟩

/-- Compiling and running a source text gives what its checked program gives. -/
theorem compileAndRun_eq_evaluate {source : String} {p q : Program}
    (parsed : Program.parse source = .ok p) (checked : p.check = .ok q)
    (small : q.ParamsAtMost Wasm.maxParams) {limits : Limits} (positive : 1 ≤ limits.pages)
    (bound : limits.pages ≤ Wasm.Host.maxPages) :
    compileAndRun source limits = (q.evaluate limits).mapError fun h => .runtime h.error := by
  obtain ⟨i, hi, lowers, resolved, words⟩ := Program.exists_image_of_check parsed checked
  have compiled : compile source = .ok i.text := compile_eq_ok.2 ⟨p, q, i, parsed, checked, hi, rfl⟩
  rw [compileAndRun, compiled, Fallible.ok_bind, lowers.run_text resolved words small positive bound,
    (lowers.run_eq resolved words positive).1]
  cases q.evaluate limits <;> rfl

/-! ## §4 The module is well formed -/

/-- The text of a module that has been compiled is read as a valid module, if no function has more
parameters than the host takes. Every name in it is declared exactly once as what it stands for,
every body leaves exactly its results, and a run ends as a run can: with an outcome or a trap, if it
ends at all. -/
theorem compile_wellFormed {source text : String} (compiled : compile source = .ok text)
    (small : ∀ p, Program.parse source = .ok p → p.ParamsAtMost Wasm.maxParams) :
    ∃ m, Module.read? text = some m ∧ m.isValid = true ∧
      (m.signatures.map (·.1)).Nodup ∧ (m.globals.map (·.name)).Nodup ∧
      (m.funcs.flatMap fun f => Wasm.Instr.listLabels f.body).Nodup ∧
      (∀ f ∈ m.funcs, (f.params ++ f.locals).Nodup ∧ m.DeclaresOnce f ∧ m.BodyFits f) ∧
      ∀ limits : Limits, 1 ≤ limits.pages → limits.pages ≤ Wasm.Host.maxPages →
        (∃ outcome, Wasm.run text limits = .ok outcome) ∨
          (∃ t output, Wasm.run text limits = .error (.trapped t output)) ∨
          Wasm.run text limits = .error .unfinished := by
  obtain ⟨p, q, i, parsed, checked, hi, rfl⟩ := compile_eq_ok.1 compiled
  obtain ⟨i', hi', lowers, resolved, ids⟩ := Program.exists_image_of_check parsed checked
  cases hi.symm.trans hi'
  have few := (small p parsed).congr (Program.bare_of_check checked)
  have valid := lowers.isValid resolved ids few
  have read := lowers.read?_text resolved ids
  refine ⟨i.toModule, read, valid, lowers.signatures_nodup resolved ids,
    lowers.globals_nodup resolved ids, ?_, ?_, ?_⟩
  · obtain ⟨n, labels⟩ := lowers.listLabels_eq
    rw [labels]
    exact loopLabels_nodup 0 n
  · exact fun f hf => ⟨lowers.locals_nodup resolved ids hf, lowers.declaresOnce resolved ids hf,
      lowers.bodyFits resolved ids hf⟩
  · intro limits positive bound
    have run : Wasm.run i.text limits = i.toModule.run limits := by
      rw [Wasm.run, if_neg (by omega), read]
      simp [valid]
    obtain ⟨same, defined⟩ := lowers.run_eq resolved ids positive
    rw [run, same]
    cases result : q.evaluate limits with
    | ok outcome => exact .inl ⟨outcome, rfl⟩
    | error halt =>
      cases halt with
      | trap t output => exact .inr (.inl ⟨t, output, rfl⟩)
      | unfinished => exact .inr (.inr rfl)
      | undefined => exact absurd result defined

/-- The sample program is compiled to a valid module. -/
theorem compile_counting_wellFormed : ∃ text m, compile Program.counting.text = .ok text ∧
    Module.read? text = some m ∧ m.isValid = true ∧ ∀ f ∈ m.funcs, m.DeclaresOnce f := by
  have parsed : Program.parse Program.counting.text = .ok Program.counting :=
    Program.parse_of_tokens (by decide) (Program.lex_text (by decide))
  have isOk : Program.counting.check.isOk = true := by decide
  cases checked : Program.counting.check with
  | error e =>
    rw [checked] at isOk
    cases isOk
  | ok q =>
    obtain ⟨i, hi, -⟩ := Program.exists_image_of_check parsed checked
    have compiled : compile Program.counting.text = .ok i.text :=
      compile_eq_ok.2 ⟨_, q, i, parsed, checked, hi, rfl⟩
    have small : ∀ p, Program.parse Program.counting.text = .ok p →
        p.ParamsAtMost Wasm.maxParams := by
      intro p hp
      cases parsed.symm.trans hp
      exact (by decide : (∀ f ∈ Program.counting.functions, f.params.length ≤ Wasm.maxParams) ∧
        ∀ c ∈ Program.counting.classes, ∀ m ∈ c.methods, m.params.length ≤ Wasm.maxParams)
    obtain ⟨m, read, valid, -, -, -, functions, -⟩ := compile_wellFormed compiled small
    exact ⟨i.text, m, compiled, read, valid, fun f hf => (functions f hf).2.1⟩

end Serpent
