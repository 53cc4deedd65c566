/-
Serpent.Proofs.Pages — a module does the same with more memory.

Two runs of one module are followed side by side, the second with a memory of the same bytes that is
at least as large. As long as the first run does not leave its memory, nothing tells the two apart:
no instruction gives the size of the memory, and every address that the first run reads or writes is
there in the second.

  §1 Larger memories
  §2 Outcomes with more memory
  §3 Instructions
  §4 Code
  §5 Modules and source texts
-/
import Serpent.Proofs.Code
import Serpent.Proofs.Compiled

namespace Serpent

namespace Wasm

/-! ## §1 Larger memories -/

/-- The second memory has the same bytes as the first and is at least as large. -/
structure Memory.Extends (m m' : Memory) : Prop where
  written : m'.written = m.written
  size : m.size ≤ m'.size

namespace Memory.Extends

variable {m m' : Memory}

theorem setByte (h : m.Extends m') (a : Nat) (b : UInt8) :
    (m.setByte a b).Extends (m'.setByte a b) :=
  ⟨by rw [Memory.setByte, Memory.setByte, h.written], h.size⟩

theorem byte_eq (h : m.Extends m') (a : Nat) : m'.byte a = m.byte a := by
  rw [byte, byte, h.written]

/-- What is read from the smaller memory is read from the larger one. -/
theorem load?_eq (h : m.Extends m') {a : Nat} {w : Word} (found : m.load? a = some w) :
    m'.load? a = some w := by
  unfold load? at found ⊢
  split at found
  · rename_i inside
    rw [if_pos (Nat.le_trans inside h.size)]
    simpa only [h.byte_eq] using found
  · cases found

/-- What is written to the smaller memory is written to the larger one. -/
theorem exists_store? (h : m.Extends m') {a : Nat} {w : Word} {n : Memory}
    (stored : m.store? a w = some n) : ∃ n', m'.store? a w = some n' ∧ n.Extends n' := by
  unfold store? at stored ⊢
  split at stored
  · rename_i inside
    cases stored
    rw [if_pos (Nat.le_trans inside h.size)]
    exact ⟨_, rfl, (((h.setByte _ _).setByte _ _).setByte _ _).setByte _ _⟩
  · cases stored

end Memory.Extends

theorem Memory.ofPages_extends {n n' : Nat} (h : n ≤ n') : (ofPages n).Extends (ofPages n') :=
  ⟨rfl, Nat.mul_le_mul_right _ h⟩

/-- Two stores that differ by the size of their memories only; the second one is not smaller. -/
inductive Store.Extends : Store → Store → Prop
  | intro (globals : Bindings) {memory memory' : Memory} (output : String)
      (h : memory.Extends memory') : Extends ⟨globals, memory, output⟩ ⟨globals, memory', output⟩

/-- Two states that differ by the size of their memories only. -/
inductive State.Extends : State → State → Prop
  | intro (stack : List Word) (locals : Bindings) {store store' : Store} (h : store.Extends store') :
      Extends ⟨stack, locals, store⟩ ⟨stack, locals, store'⟩

/-! ## §2 Outcomes with more memory -/

/-- How code ends with more memory: as with less memory, unless it leaves the smaller one. -/
inductive Outcome.Extends : Outcome → Outcome → Prop
  | next {s s' : State} (h : s.Extends s') : Extends (.next s) (.next s')
  | branch (label : String) {s s' : State} (h : s.Extends s') :
      Extends (.branch label s) (.branch label s')
  | returned {s s' : State} (h : s.Extends s') : Extends (.returned s) (.returned s')
  | trapped (t : Trap) (output : String) : Extends (.trapped t output) (.trapped t output)
  | outside (output : String) (o : Outcome) : Extends (.trapped .outOfBounds output) o
  | stuck : Extends .stuck .stuck
  | unfinished : Extends .unfinished .unfinished

namespace Outcome.Extends

variable {o o' : Outcome}

theorem andThen (h : o.Extends o') {k k' : State → Outcome}
    (rest : ∀ s s', s.Extends s' → (k s).Extends (k' s')) :
    (o.andThen k).Extends (o'.andThen k') := by
  cases h with
  | next same => exact rest _ _ same
  | branch label same => exact .branch label same
  | returned same => exact .returned same
  | trapped t output => exact .trapped t output
  | outside output o => exact .outside output _
  | stuck => exact .stuck
  | unfinished => exact .unfinished

theorem leave (h : o.Extends o') (label : String) : (o.leave label).Extends (o'.leave label) := by
  cases h with
  | branch l same =>
    unfold Outcome.leave
    dsimp only
    split
    · exact .next same
    · exact .branch l same
  | next same => exact .next same
  | returned same => exact .returned same
  | trapped t output => exact .trapped t output
  | outside output o => exact .outside output _
  | stuck => exact .stuck
  | unfinished => exact .unfinished

theorem restore (h : o.Extends o') (stack : List Word) :
    (o.restore stack).Extends (o'.restore stack) :=
  h.andThen fun _ _ same => by
    cases same with
    | intro _ locals same => exact .next (.intro stack locals same)

end Outcome.Extends

/-! ## §3 Instructions -/

/-- One instruction without control does the same with more memory, unless it leaves the smaller
one. -/
theorem State.Extends.step {s s' : State} (h : s.Extends s') (i : Instr) :
    (s.step i).Extends (s'.step i) := by
  obtain ⟨stack, locals, ⟨globals, output, more⟩⟩ := h
  have goesOn : ∀ stack locals globals, Outcome.Extends
      (.next ⟨stack, locals, ⟨globals, _, output⟩⟩) (.next ⟨stack, locals, ⟨globals, _, output⟩⟩) :=
    fun stack locals globals => .next (.intro stack locals (.intro globals output more))
  cases i with
  | const w => exact goesOn _ _ _
  | localGet x =>
    simp only [State.step]
    cases locals.lookup x with
    | some w => exact goesOn _ _ _
    | none => exact .stuck
  | localSet x =>
    cases stack with
    | nil => exact .stuck
    | cons w stack => exact goesOn _ _ _
  | globalGet x =>
    simp only [State.step]
    cases globals.lookup x with
    | some w => exact goesOn _ _ _
    | none => exact .stuck
  | globalSet x =>
    cases stack with
    | nil => exact .stuck
    | cons w stack => exact goesOn _ _ _
  | binary op =>
    rcases stack with _ | ⟨b, _ | ⟨a, stack⟩⟩
    · exact .stuck
    · exact .stuck
    · simp only [State.step]
      cases op.apply a b with
      | ok w => exact goesOn _ _ _
      | error t => exact .trapped t output
  | eqz =>
    cases stack with
    | nil => exact .stuck
    | cons w stack => exact goesOn _ _ _
  | load =>
    cases stack with
    | nil => exact .stuck
    | cons a stack =>
      simp only [State.step]
      cases found : Memory.load? _ a.address with
      | some w =>
        rw [more.load?_eq found]
        exact goesOn _ _ _
      | none => exact .outside output _
  | store =>
    rcases stack with _ | ⟨w, _ | ⟨a, stack⟩⟩
    · exact .stuck
    · exact .stuck
    · simp only [State.step]
      cases stored : Memory.store? _ a.address w with
      | some memory =>
        obtain ⟨memory', stored', more'⟩ := more.exists_store? stored
        rw [stored']
        exact .next (.intro _ _ (.intro _ _ more'))
      | none => exact .outside output _
  | drop =>
    cases stack with
    | nil => exact .stuck
    | cons w stack => exact goesOn _ _ _
  | _ => exact .stuck

/-- The rounds of a loop whose body does the same with more memory. -/
theorem rounds_extends (label : String) {body body' : State → Outcome}
    (round : ∀ s s', s.Extends s' → (body s).Extends (body' s')) (n : Nat) {s s' : State}
    (h : s.Extends s') : (rounds label body n s).Extends (rounds label body' n s') := by
  induction n generalizing s s' with
  | zero => exact .unfinished
  | succ n ih =>
    obtain ⟨stack, locals, more⟩ := h
    have first := round _ _ (.intro [] locals more)
    simp only [rounds]
    generalize body _ = o at first
    generalize body' _ = o' at first
    cases first with
    | branch l same =>
      dsimp only
      split
      · exact ih same
      · exact .branch l same
    | next same => exact .next same
    | returned same => exact .returned same
    | trapped t output => exact .trapped t output
    | outside output o => exact .outside output _
    | stuck => exact .stuck
    | unfinished => exact .unfinished

/-! ## §4 Code -/

/-- Functions that are called do the same with more memory. -/
def CallExtends (call call' : Func → List Word → Store → Outcome) : Prop :=
  ∀ g args store store', store.Extends store' → (call g args store).Extends (call' g args store')

namespace Instr

variable {m : Module} {fuel : Nat} {call call' : Func → List Word → Store → Outcome}

/-- An instruction that holds no code does the same with more memory. -/
theorem run_extends_of_isSimple (calls : CallExtends call call') {i : Instr}
    (simple : i.isSimple = true)
    {s s' : State} (h : s.Extends s') : (run m fuel call i s).Extends (run m fuel call' i s') := by
  cases i with
  | return_ => exact .returned h
  | br l => exact .branch l h
  | brIf l =>
    obtain ⟨stack, locals, more⟩ := h
    cases stack with
    | nil => exact .stuck
    | cons w stack =>
      simp only [run]
      split
      · exact .next (.intro stack locals more)
      · exact .branch l (.intro stack locals more)
  | call f =>
    obtain ⟨stack, locals, more⟩ := h
    simp only [run]
    cases m.callee? f with
    | none => exact .stuck
    | some callee =>
      cases callee with
      | host p =>
        obtain ⟨globals, output, more⟩ := more
        cases stack with
        | nil => exact .stuck
        | cons w stack => exact .next (.intro _ locals (.intro globals _ more))
      | func g =>
        have answer := calls g (stack.take g.params.length).reverse _ _ more
        dsimp only
        generalize call g _ _ = o at answer
        generalize call' g _ _ = o' at answer
        cases answer with
        | next same =>
          obtain ⟨_, _, same⟩ := same
          exact .next (.intro _ locals same)
        | returned same =>
          obtain ⟨_, _, same⟩ := same
          exact .next (.intro _ locals same)
        | branch l same => exact .stuck
        | trapped t output => exact .trapped t output
        | outside output o => exact .outside output _
        | stuck => exact .stuck
        | unfinished => exact .unfinished
  | ifElse thn els => cases simple
  | block l body => cases simple
  | loop l body => cases simple
  | _ =>
    rw [run_of_isStep rfl, run_of_isStep rfl]
    exact h.step _

/-- Code does the same with more memory, unless it leaves the smaller one. -/
theorem runAll_extends (calls : CallExtends call call') (code : List Instr) {s s' : State}
    (h : s.Extends s') : (runAll m fuel call code s).Extends (runAll m fuel call' code s') := by
  induction code using codeInduct generalizing s s' with
  | nil => exact .next h
  | simple i code simple ih =>
    rw [runAll_cons, runAll_cons]
    exact (run_extends_of_isSimple calls simple h).andThen fun _ _ => ih
  | ifElse thn els code ihthn ihels ih =>
    rw [runAll_cons, runAll_cons]
    refine Outcome.Extends.andThen ?_ fun _ _ => ih
    obtain ⟨stack, locals, more⟩ := h
    cases stack with
    | nil => exact .stuck
    | cons w stack =>
      simp only [run]
      split
      · exact (ihels (.intro [] locals more)).restore stack
      · exact (ihthn (.intro [] locals more)).restore stack
  | block l body code ihbody ih =>
    rw [runAll_cons, runAll_cons]
    refine Outcome.Extends.andThen ?_ fun _ _ => ih
    obtain ⟨stack, locals, more⟩ := h
    exact ((ihbody (.intro [] locals more)).leave l).restore stack
  | loop l body code ihbody ih =>
    rw [runAll_cons, runAll_cons]
    refine Outcome.Extends.andThen ?_ fun _ _ => ih
    have round := rounds_extends l (fun _ _ => ihbody) fuel h
    obtain ⟨stack, locals, more⟩ := h
    exact round.restore stack

end Instr

/-! ## §5 Modules and source texts -/

/-- Calls do the same with more memory, however many of them may be open. -/
theorem Module.call_extends (m : Module) (fuel depth : Nat) :
    CallExtends (m.call fuel depth) (m.call fuel depth) := by
  induction depth with
  | zero =>
    intro g args store store' h
    cases h with
    | intro globals output more => exact .trapped _ output
  | succ depth ih =>
    intro g args store store' h
    rw [Module.call, exec_eq]
    exact Instr.runAll_extends ih g.body (.intro [] _ h)

/-- With more pages a module does not leave its memory earlier, and does the same up to there. -/
theorem Module.run_of_more_pages (m : Module) (fuel depth : Nat) {N M : Nat} (more : N ≤ M)
    (offered : m.imports.all (Import.isOffered N) = true) :
    (∃ output, m.run ⟨N, fuel, depth⟩ = .error (.trapped .outOfBounds output)) ∨
      m.run ⟨M, fuel, depth⟩ = m.run ⟨N, fuel, depth⟩ := by
  have offered' : m.imports.all (Import.isOffered M) = true := by
    rw [List.all_eq_true] at offered ⊢
    intro i hi
    have := offered i hi
    unfold Import.isOffered at this ⊢
    split
    · rename_i min max item
      simp only [item, Bool.and_eq_true, decide_eq_true_eq] at this ⊢
      exact ⟨⟨this.1.1, Nat.le_trans this.1.2 more⟩, this.2⟩
    · rename_i params results item
      simpa only [item] using this
  simp only [run, offered, offered', if_true]
  cases m.exported? Host.entryName with
  | none => exact .inr rfl
  | some f =>
    have ends := m.call_extends fuel (depth + 1) f []
      ⟨m.globals.map fun g => (g.name, g.value), .ofPages N, ""⟩ _
      (.intro _ "" (Memory.ofPages_extends more))
    simp only [runFunc]
    simp only [Module.call] at ends
    generalize exec m fuel depth f.body _ = o at ends
    generalize exec m fuel depth f.body _ = o' at ends
    cases ends with
    | next same =>
      obtain ⟨stack, locals, ⟨globals, output, -⟩⟩ := same
      exact .inr rfl
    | returned same =>
      obtain ⟨stack, locals, ⟨globals, output, -⟩⟩ := same
      exact .inr rfl
    | branch l same => exact .inr rfl
    | trapped t output => exact .inr rfl
    | outside output o => exact .inl ⟨output, rfl⟩
    | stuck => exact .inr rfl
    | unfinished => exact .inr rfl

end Wasm

open Wasm (Limits)

/-- Any number of pages that the host gives is enough to start a source text that is compiled; more
pages change nothing unless the smaller memory is left. -/
theorem compileAndRun_extends (source : String) (fuel depth : Nat) {N M : Nat} (some : 1 ≤ N)
    (more : N ≤ M) (most : M ≤ Wasm.Host.maxPages) :
    (∃ output, compileAndRun source ⟨N, fuel, depth⟩ =
      .error (.runtime (.trapped .outOfBounds output))) ∨
    compileAndRun source ⟨M, fuel, depth⟩ = compileAndRun source ⟨N, fuel, depth⟩ := by
  cases compiled : compile source with
  | error e => exact .inr (by simp only [compileAndRun, compiled, Fallible.error_bind])
  | ok text =>
    obtain ⟨p, q, i, parsed, checked, hi, rfl⟩ := compile_eq_ok.1 compiled
    obtain ⟨i', hi', lowers, resolved, ids⟩ := Program.exists_image_of_check parsed checked
    cases hi.symm.trans hi'
    have read := lowers.read?_text resolved ids
    have started : ∀ pages, 1 ≤ pages → pages ≤ Wasm.Host.maxPages →
        compileAndRun source ⟨pages, fuel, depth⟩ =
          (if i.toModule.isValid then i.toModule.run ⟨pages, fuel, depth⟩
            else .error .invalid).mapError .runtime := by
      intro pages positive bound
      rw [compileAndRun, compiled, Fallible.ok_bind, Wasm.run, if_neg (by dsimp only; omega), read]
    rw [started N some (Nat.le_trans more most), started M (Nat.le_trans some more) most]
    split
    · rcases i.toModule.run_of_more_pages fuel depth more (Image.imports_offered some) with
        ⟨output, outside⟩ | same
      · exact .inl ⟨output, by rw [outside]; rfl⟩
      · exact .inr (by rw [same])
    · exact .inr rfl

/-- More memory never changes a run that comes to an end inside of less memory: with the same value
and the same output if it is successful, and otherwise with the same trap after the same output. A
program that does not come to an end does not do so with more memory either. -/
theorem compileAndRun_of_more_pages (source : String) (fuel depth : Nat) {N M : Nat} (some : 1 ≤ N)
    (more : N ≤ M) (most : M ≤ Wasm.Host.maxPages) :
    (∀ outcome, compileAndRun source ⟨N, fuel, depth⟩ = .ok outcome →
      compileAndRun source ⟨M, fuel, depth⟩ = .ok outcome) ∧
    (∀ t output, t ≠ .outOfBounds →
      compileAndRun source ⟨N, fuel, depth⟩ = .error (.runtime (.trapped t output)) →
      compileAndRun source ⟨M, fuel, depth⟩ = .error (.runtime (.trapped t output))) ∧
    (compileAndRun source ⟨N, fuel, depth⟩ = .error (.runtime .unfinished) →
      compileAndRun source ⟨M, fuel, depth⟩ = .error (.runtime .unfinished)) := by
  rcases compileAndRun_extends source fuel depth some more most with ⟨output, outside⟩ | same
  · rw [outside]
    refine ⟨fun _ eq => ?_, fun t output' other eq => ?_, fun eq => ?_⟩
    · cases eq
    · cases eq
      exact absurd rfl other
    · cases eq
  · rw [same]
    exact ⟨fun _ eq => eq, fun _ _ _ eq => eq, fun eq => eq⟩

/-- A number is kept in an object, printed and divided. -/
def Program.sharing (shares : Word) : Program where
  defs := [.class_ ⟨"Cell", objectClass, [⟨"content", .int, .number 12⟩], []⟩,
    .var ⟨"cell", .object "Cell", .none⟩]
  stmts := [.assign (.var "cell") (.call none "Cell" []),
    .expr (.call none "print" [.field none (.var none "cell") "content"]),
    .expr (.binary none .floorDiv (.field none (.var none "cell") "content")
      (.literal none (.number shares)))]

theorem Program.compileAndRun_sharing {shares : Word}
    (result : Except Halt Wasm.RunOutcome) (canonical : (sharing shares).isCanonical = true)
    (h : (sharing shares).check.map (·.evaluate ⟨1, 10, 10⟩) = .ok result) :
    compileAndRun (sharing shares).text ⟨1, 10, 10⟩ =
      result.mapError fun h => .runtime h.error := by
  cases checked : (sharing shares).check with
  | error e =>
    rw [checked] at h
    cases h
  | ok q =>
    rw [checked] at h
    cases h
    have small : (sharing shares).ParamsAtMost Wasm.maxParams := by
      constructor
      · exact fun f hf => absurd hf List.not_mem_nil
      · intro c hc m hm
        cases List.mem_singleton.1 hc
        cases hm
    exact compileAndRun_eq_evaluate (parse_of_tokens canonical (lex_text canonical)) checked
      (small.congr (bare_of_check checked)) (by decide) (by decide)

/-- Sharing among four succeeds with one page and with a hundred, and sharing among none is the same
trap with both. -/
theorem compileAndRun_sharing_of_more_pages :
    compileAndRun (Program.sharing 4).text ⟨100, 10, 10⟩ = .ok ⟨some 3, "12\n"⟩ ∧
    compileAndRun (Program.sharing 0).text ⟨100, 10, 10⟩ =
      .error (.runtime (.trapped .divideByZero "12\n")) := by
  have shared : compileAndRun (Program.sharing 4).text ⟨1, 10, 10⟩ = .ok ⟨some 3, "12\n"⟩ :=
    Program.compileAndRun_sharing (.ok ⟨some 3, "12\n"⟩) (by decide) (by decide +kernel)
  have trapped : compileAndRun (Program.sharing 0).text ⟨1, 10, 10⟩ =
      .error (.runtime (.trapped .divideByZero "12\n")) :=
    Program.compileAndRun_sharing (.error (.trap .divideByZero "12\n")) (by decide)
      (by decide +kernel)
  have four := compileAndRun_of_more_pages (Program.sharing 4).text 10 10 (N := 1) (M := 100)
    (by decide) (by decide) (by decide)
  have none := compileAndRun_of_more_pages (Program.sharing 0).text 10 10 (N := 1) (M := 100)
    (by decide) (by decide) (by decide)
  exact ⟨four.1 _ shared, none.2.1 _ _ (by decide) trapped⟩

end Serpent
