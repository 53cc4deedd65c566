/-
Serpent.Proofs.Returning — a function that has a result returns by a return statement.

A body must return on every path: one of its statements is a return, or a conditional all of whose
branches return. The code of such a body is followed by a constant, for functions that may come to
their end. Where the body returns on every path that constant is never reached, and the function is
left from the code of one of its return statements, however deep that is in loops and branches.

  §1 Outcomes
  §2 Straight code
  §3 Code that never goes on
  §4 Return statements
  §5 The code that remains
  §6 Functions that return
  §7 Programs
-/
import Serpent.Proofs.Checking
import Serpent.Proofs.Compiled
import Serpent.Proofs.Parts
import Serpent.Proofs.Trace

namespace Serpent

open Wasm (Func Instr Module Outcome Snapshot State Store)

/-! ## §1 Outcomes -/

namespace Wasm

section

variable {o : Outcome} {k : State → Outcome} {s : State}

theorem Outcome.exists_of_andThen_eq_next (h : o.andThen k = .next s) :
    ∃ s₁, o = .next s₁ ∧ k s₁ = .next s := by
  cases o with
  | next s₁ => exact ⟨s₁, rfl, h⟩
  | _ => cases h

theorem Outcome.of_andThen_eq_returned (h : o.andThen k = .returned s) :
    o = .returned s ∨ ∃ s₁, o = .next s₁ ∧ k s₁ = .returned s := by
  cases o with
  | next s₁ => exact .inr ⟨s₁, rfl, h⟩
  | returned s₁ => exact .inl h
  | _ => cases h

theorem Outcome.eq_returned_of_restore {stack : List Word} (h : o.restore stack = .returned s) :
    o = .returned s := by
  rcases of_andThen_eq_returned h with h | ⟨_, -, h⟩
  · exact h
  · cases h

theorem Outcome.eq_returned_of_leave {label : String} (h : o.leave label = .returned s) :
    o = .returned s := by
  cases o with
  | branch l s₁ =>
    simp only [leave] at h
    split at h <;> cases h
  | _ => exact h

end

section

variable {m : Module} {fuel : Nat} {call : Func → List Word → Store → Outcome}
variable {enter : Func → List Word → Store → List Snapshot} {f : Func}

/-- A conditional is stuck, or it runs one of its branches. -/
theorem Instr.run_ifElse (thn els : List Instr) (s : State) :
    (run m fuel call (.ifElse thn els) s = .stuck ∧
      ∀ enter f, inside m fuel call enter f (.ifElse thn els) s = []) ∨
    ∃ c stack, (c = thn ∨ c = els) ∧
      run m fuel call (.ifElse thn els) s =
        (runAll m fuel call c { s with stack := [] }).restore stack ∧
      ∀ enter f, inside m fuel call enter f (.ifElse thn els) s =
        trace m fuel call enter f [] c { s with stack := [] } := by
  simp only [run, inside]
  cases s.stack with
  | nil => exact .inl ⟨rfl, fun _ _ => rfl⟩
  | cons w stack =>
    by_cases zero : w = 0
    · simp only [if_pos zero]
      exact .inr ⟨els, stack, .inr rfl, rfl, fun _ _ => rfl⟩
    · simp only [if_neg zero]
      exact .inr ⟨thn, stack, .inl rfl, rfl, fun _ _ => rfl⟩

/-- A loop that returns does so in its last round. -/
theorem exists_round_of_returned {label : String} {body : State → Outcome}
    {trace : State → List Snapshot} {n : Nat} {s s' : State}
    (h : rounds label body n s = .returned s') :
    ∃ front s₁, roundTrace label body trace n s = front ++ trace s₁ ∧ body s₁ = .returned s' := by
  induction n generalizing s with
  | zero => cases h
  | succ n ih =>
    simp only [rounds, roundTrace] at h ⊢
    cases round : body { s with stack := [] } with
    | branch l s₁ =>
      rw [round] at h
      simp only at h ⊢
      split at h
      case isTrue same =>
        obtain ⟨front, s₂, seen, returned⟩ := ih h
        exact ⟨trace { s with stack := [] } ++ front, s₂,
          by rw [if_pos same, seen, List.append_assoc], returned⟩
      case isFalse => cases h
    | returned s₁ =>
      rw [round] at h
      cases h
      exact ⟨[], _, List.append_nil _, round⟩
    | _ =>
      rw [round] at h
      cases h

/-! ## §2 Straight code -/

/-- Whether an instruction holds no code and does not return. -/
def Instr.isStraight : Instr → Bool
  | .return_ | .ifElse .. | .block .. | .loop .. => false
  | _ => true

theorem Instr.run_ne_returned {i : Instr} (h : i.isStraight = true) (s s' : State) :
    run m fuel call i s ≠ .returned s' := by
  intro returned
  cases i with
  | return_ | ifElse | block | loop => cases h
  | call g =>
    simp only [run] at returned
    repeat' split at returned
    all_goals simp_all
  | br l => cases returned
  | _ =>
    simp only [run, State.step] at returned
    repeat' split at returned
    all_goals cases returned

theorem Instr.runAll_ne_returned {code : List Instr} (h : ∀ i ∈ code, i.isStraight = true)
    (s s' : State) : runAll m fuel call code s ≠ .returned s' := by
  induction code generalizing s with
  | nil => exact fun returned => by cases returned
  | cons i code ih =>
    intro returned
    rcases Outcome.of_andThen_eq_returned returned with returned | ⟨s₁, -, returned⟩
    · exact run_ne_returned (h i (by simp)) s s' returned
    · exact ih (fun j hj => h j (by simp [hj])) s₁ returned

/-- What returns behind straight code is seen behind it. -/
theorem Instr.exists_of_append_returned {c c' : List Instr} (h : ∀ i ∈ c, i.isStraight = true)
    {s s' : State} (returned : runAll m fuel call (c ++ c') s = .returned s') (after : List Instr) :
    ∃ front s₁, runAll m fuel call c' s₁ = .returned s' ∧
      trace m fuel call enter f after (c ++ c') s =
        front ++ trace m fuel call enter f after c' s₁ := by
  rw [runAll_append] at returned
  rcases Outcome.of_andThen_eq_returned returned with returned | ⟨s₁, next, returned⟩
  · exact absurd returned (runAll_ne_returned h s s')
  · refine ⟨trace m fuel call enter f (c' ++ after) c s, s₁, returned, ?_⟩
    rw [trace_append, next]
    rfl

end

end Wasm

section

variable {p : Program} {names : List String}

theorem ClassDef.isStraight_construct (c : ClassDef) :
    ∀ i ∈ c.layout.construct, i.isStraight = true := by
  rw [construct_layout, prologue, List.append_assoc]
  intro i hi
  rcases List.mem_append.1 hi with hi | hi
  · obtain ⟨slot, -, hi⟩ := List.mem_flatMap.1 hi
    simp only [ClassLayout.initSlot, List.mem_cons, List.not_mem_nil, or_false] at hi
    rcases hi with rfl | rfl | rfl | rfl | rfl <;> rfl
  · simp only [reserve, List.cons_append, List.nil_append, List.mem_cons, List.not_mem_nil,
      or_false] at hi
    rcases hi with rfl | rfl | rfl | rfl | rfl | rfl | rfl | rfl | rfl | rfl <;> rfl

/-- The code of an expression is straight. -/
theorem Expr.Lowers.isStraight {e : Expr} {code : List Instr} (h : e.Lowers p names code) :
    ∀ i ∈ code, i.isStraight = true := by
  induction h with
  | literal | readLocal | readGlobal => simp [Instr.isStraight]
  | neg ty operand ih | not ty operand ih | print ty typed argument ih
  | field ty found place receiver ih =>
    simpa [or_imp, forall_and, Instr.isStraight] using ih
  | binary ty op hl hr ihl ihr =>
    simpa [or_imp, forall_and, Instr.isStraight] using ⟨ihl, ihr⟩
  | @construct ty f c notPrint found => exact c.isStraight_construct
  | call ty code notPrint noClass found arity arguments ih =>
    simp only [List.mem_append, List.mem_flatMap, List.mem_singleton]
    rintro i (⟨a, ha, hi⟩ | rfl)
    · exact ih a ha i hi
    · rfl
  | method ty code found member arity receiver arguments ih iharguments =>
    simp only [List.mem_append, List.mem_flatMap, List.mem_singleton]
    rintro i ((hi | ⟨a, ha, hi⟩) | rfl)
    · exact ih i hi
    · exact iharguments a ha i hi
    · rfl

/-- So is the code before the body of a loop. -/
theorem Expr.Lowers.isStraight_test {c : Expr} {cond : List Instr} (h : c.Lowers p names cond)
    (l : String) : ∀ i ∈ cond ++ [Instr.eqz, .brIf l], i.isStraight = true := by
  simpa [or_imp, forall_and, Instr.isStraight] using h.isStraight

/-- So is the code that finds a field of an object and its new value. -/
theorem Expr.Lowers.isStraight_member {o e : Expr} {self code : List Instr}
    (receiver : o.Lowers p names self) (value : e.Lowers p names code) (k : Word) :
    ∀ i ∈ self ++ [Instr.const k, .binary .add] ++ code, i.isStraight = true := by
  simpa [or_imp, forall_and, Instr.isStraight] using ⟨receiver.isStraight, value.isStraight⟩

theorem FunDef.isStraight_initCode (f : FunDef) : ∀ i ∈ f.initCode, i.isStraight = true := by
  intro i hi
  obtain ⟨v, -, hi⟩ := List.mem_flatMap.1 hi
  simp only [List.mem_cons, List.not_mem_nil, or_false] at hi
  rcases hi with rfl | rfl <;> rfl

end

/-! ## §3 Code that never goes on -/

/-- Control never goes on behind this code. -/
def Wasm.Instr.NeverGoesOn (m : Module) (fuel : Nat) (call : Func → List Word → Store → Outcome)
    (code : List Instr) : Prop :=
  ∀ s s', runAll m fuel call code s ≠ .next s'

namespace Wasm.Instr.NeverGoesOn

variable {m : Module} {fuel : Nat} {call : Func → List Word → Store → Outcome}
variable {c c' : List Instr}

theorem append (h : NeverGoesOn m fuel call c) (c' : List Instr) :
    NeverGoesOn m fuel call (c ++ c') := by
  intro s s' next
  rw [runAll_append] at next
  obtain ⟨s₁, next, -⟩ := Outcome.exists_of_andThen_eq_next next
  exact h s s₁ next

theorem behind (h : NeverGoesOn m fuel call c') (c : List Instr) :
    NeverGoesOn m fuel call (c ++ c') := by
  intro s s' next
  rw [runAll_append] at next
  obtain ⟨s₁, -, next⟩ := Outcome.exists_of_andThen_eq_next next
  exact h s₁ s' next

theorem return_ (code : List Instr) : NeverGoesOn m fuel call (.return_ :: code) :=
  fun _ _ next => by cases next

theorem ifElse {thn els : List Instr} (yes : NeverGoesOn m fuel call thn)
    (no : NeverGoesOn m fuel call els) : NeverGoesOn m fuel call [.ifElse thn els] := by
  intro s s' next
  obtain ⟨s₁, next, -⟩ := Outcome.exists_of_andThen_eq_next next
  rcases run_ifElse thn els s with ⟨stuck, -⟩ | ⟨c, stack, branch, ran, -⟩
  · cases next.symm.trans stuck
  · obtain ⟨s₂, inner, -⟩ := Outcome.exists_of_andThen_eq_next (ran.symm.trans next)
    rcases branch with rfl | rfl
    · exact yes _ s₂ inner
    · exact no _ s₂ inner

/-- What is seen of the code, and how it ends, does not depend on the code behind it. -/
theorem runAll_append_eq (h : NeverGoesOn m fuel call c) (c' : List Instr) (s : State) :
    runAll m fuel call (c ++ c') s = runAll m fuel call c s := by
  rw [runAll_append]
  cases ran : runAll m fuel call c s with
  | next s' => exact absurd ran (h s s')
  | _ => rfl

theorem trace_append_eq (h : NeverGoesOn m fuel call c)
    (enter : Func → List Word → Store → List Snapshot) (f : Func) (after c' : List Instr)
    (s : State) : trace m fuel call enter f after (c ++ c') s =
      trace m fuel call enter f (c' ++ after) c s := by
  rw [trace_append]
  cases ran : runAll m fuel call c s with
  | next s' => exact absurd ran (h s s')
  | _ => exact List.append_nil _

end Wasm.Instr.NeverGoesOn

section

variable {p : Program} {names : List String} {m : Module} {fuel : Nat}
variable {call : Func → List Word → Store → Outcome}

theorem Stmt.returns_of_cons {s : Stmt} {ss : List Stmt} (h : ∃ t ∈ s :: ss, t.Returns)
    (other : ¬s.Returns) : ∃ t ∈ ss, t.Returns := by
  obtain ⟨t, ht, returns⟩ := h
  rcases List.mem_cons.1 ht with rfl | ht
  · exact absurd returns other
  · exact ⟨t, ht, returns⟩

/-- Where one of some statements returns on every path, control does not go on behind them. -/
theorem Stmt.Lowers.neverGoesOn {mayReturn : Bool} {n n' : Nat} {ss : List Stmt}
    {code : List Instr} (h : Stmt.Lowers p names mayReturn n ss code n')
    (returns : ∃ t ∈ ss, t.Returns) : Instr.NeverGoesOn m fuel call code := by
  induction h with
  | nil n =>
    obtain ⟨t, ht, -⟩ := returns
    cases ht
  | pass tail ih => exact ih (returns_of_cons returns fun head => by cases head)
  | @expr n n' e ss code rest value tail ih =>
    exact ((ih (returns_of_cons returns fun head => by cases head)).behind [_]).behind code
  | @assignLocal n n' x e ss code rest hx value tail ih
  | @assignGlobal n n' x e ss code rest hx known value tail ih =>
    exact ((ih (returns_of_cons returns fun head => by cases head)).behind [_]).behind code
  | assignMember found place receiver value tail ih =>
    exact ((ih (returns_of_cons returns fun head => by cases head)).behind [_]).behind _
  | @return_ n n' e ss code rest allowed value tail ih =>
    exact (Instr.NeverGoesOn.return_ rest).behind code
  | while_ condition round tail ihround ih =>
    exact (ih (returns_of_cons returns fun head => by cases head)).behind [_]
  | @if_ n n₁ n₂ n' c body ss orElse cond thn els rest condition yes no tail ihyes ihno ih =>
    by_cases head : (Stmt.if_ c body none orElse).Returns
    · cases head with
      | if_ c hs first hu last =>
        exact ((Instr.NeverGoesOn.ifElse (ihyes ⟨_, hs, first⟩) (ihno ⟨_, hu, last⟩)).append
          rest).behind cond
    · exact ((ih (returns_of_cons returns head)).behind [_]).behind cond
  | @elif n n₁ n₂ n' c d body other ss orElse cond thn els rest condition yes no tail ihyes ihno
      ih =>
    by_cases head : (Stmt.if_ c body (some (d, other)) orElse).Returns
    · cases head with
      | elif c d hs first ht second hu last =>
        -- the other branches are a conditional of their own, which returns as well
        have others := Stmt.Returns.if_ d ht second hu last
        exact ((Instr.NeverGoesOn.ifElse (ihyes ⟨_, hs, first⟩)
          (ihno ⟨_, List.mem_singleton_self _, others⟩)).append rest).behind cond
    · exact ((ih (returns_of_cons returns head)).behind [_]).behind cond

end

/-! ## §4 Return statements -/

/-- There is a `return e` in statements, at any depth. -/
inductive Stmt.HaveReturn (e : Expr) : List Stmt → Prop
  | here (ss : List Stmt) : HaveReturn e (.return_ e :: ss)
  | later (s : Stmt) {ss : List Stmt} (h : HaveReturn e ss) : HaveReturn e (s :: ss)
  | while_ (c : Expr) {body : List Stmt} (ss : List Stmt) (h : HaveReturn e body) :
      HaveReturn e (.while_ c body :: ss)
  | if_ (c : Expr) {body : List Stmt} (elif : Option (Expr × List Stmt))
      (orElse : Option (List Stmt)) (ss : List Stmt) (h : HaveReturn e body) :
      HaveReturn e (.if_ c body elif orElse :: ss)
  | elif (c d : Expr) (body : List Stmt) {other : List Stmt} (orElse : Option (List Stmt))
      (ss : List Stmt) (h : HaveReturn e other) :
      HaveReturn e (.if_ c body (some (d, other)) orElse :: ss)
  | orElse (c : Expr) (body : List Stmt) (elif : Option (Expr × List Stmt)) {last : List Stmt}
      (ss : List Stmt) (h : HaveReturn e last) :
      HaveReturn e (.if_ c body elif (some last) :: ss)

/-- What is seen of a function ends with the code of a `return e` that is in these statements, and
that code returns in the given state. -/
def Stmt.EndByReturn (p : Program) (names : List String) (ss : List Stmt) (m : Module) (fuel : Nat)
    (call : Func → List Word → Store → Outcome) (enter : Func → List Word → Store → List Snapshot)
    (f : Func) (T : List Snapshot) (s : State) : Prop :=
  ∃ front e value after s₀, HaveReturn e ss ∧
    (⟨Image.layoutsOf p, names⟩ : Surroundings).expr e = .ok value ∧
    T = front ++ Instr.trace m fuel call enter f after (value ++ [.return_]) s₀ ∧
    Instr.runAll m fuel call (value ++ [.return_]) s₀ = .returned s

section

variable {p : Program} {names : List String} {ss : List Stmt} {m : Module} {fuel : Nat}
variable {call : Func → List Word → Store → Outcome}
variable {enter : Func → List Word → Store → List Snapshot} {f : Func}
variable {T : List Snapshot} {s s' : State}

namespace Stmt.EndByReturn

theorem behind (h : EndByReturn p names ss m fuel call enter f T s) (T' : List Snapshot) :
    EndByReturn p names ss m fuel call enter f (T' ++ T) s := by
  obtain ⟨front, e, value, after, s₀, inside, code, rfl, returned⟩ := h
  exact ⟨T' ++ front, e, value, after, s₀, inside, code, (List.append_assoc ..).symm, returned⟩

theorem mono {ss' : List Stmt} (h : EndByReturn p names ss m fuel call enter f T s)
    (more : ∀ e, HaveReturn e ss → HaveReturn e ss') :
    EndByReturn p names ss' m fuel call enter f T s := by
  obtain ⟨front, e, value, after, s₀, inside, rest⟩ := h
  exact ⟨front, e, value, after, s₀, more e inside, rest⟩

/-- An instruction returns from the inside, or the code behind it returns. -/
theorem cons {i : Instr} {code after : List Instr}
    (returned : Instr.runAll m fuel call (i :: code) s = .returned s')
    (first : Instr.run m fuel call i s = .returned s' →
      EndByReturn p names ss m fuel call enter f (Instr.inside m fuel call enter f i s) s')
    (rest : ∀ s₁, Instr.runAll m fuel call code s₁ = .returned s' →
      EndByReturn p names ss m fuel call enter f
        (Instr.trace m fuel call enter f after code s₁) s') :
    EndByReturn p names ss m fuel call enter f
      (Instr.trace m fuel call enter f after (i :: code) s) s' := by
  rw [Instr.trace_cons]
  rcases Outcome.of_andThen_eq_returned returned with inner | ⟨s₁, next, behind⟩
  · rw [inner]
    change EndByReturn p names ss m fuel call enter f ([_] ++ (_ ++ [])) s'
    rw [List.append_nil]
    exact (first inner).behind _
  · rw [next]
    exact ((rest s₁ behind).behind _).behind [_]

/-- A conditional that returns does so in one of its branches. -/
theorem ifElse {thn els : List Instr}
    (returned : Instr.run m fuel call (.ifElse thn els) s = .returned s')
    (yes : ∀ s₁, Instr.runAll m fuel call thn s₁ = .returned s' →
      EndByReturn p names ss m fuel call enter f (Instr.trace m fuel call enter f [] thn s₁) s')
    (no : ∀ s₁, Instr.runAll m fuel call els s₁ = .returned s' →
      EndByReturn p names ss m fuel call enter f (Instr.trace m fuel call enter f [] els s₁) s') :
    EndByReturn p names ss m fuel call enter f
      (Instr.inside m fuel call enter f (.ifElse thn els) s) s' := by
  rcases Instr.run_ifElse thn els s with ⟨stuck, -⟩ | ⟨c, stack, branch, ran, seen⟩
  · cases returned.symm.trans stuck
  · have inner := Outcome.eq_returned_of_restore (ran.symm.trans returned)
    rw [seen]
    rcases branch with rfl | rfl
    · exact yes _ inner
    · exact no _ inner

/-- A loop that returns does so inside of its body, behind the condition. -/
theorem while_ {n : Nat} {c : Expr} {cond inner : List Instr} (condition : c.Lowers p names cond)
    (returned : Instr.run m fuel call (Surroundings.whileLoop n cond inner) s = .returned s')
    (round : ∀ after s₁, Instr.runAll m fuel call inner s₁ = .returned s' →
      EndByReturn p names ss m fuel call enter f
        (Instr.trace m fuel call enter f after inner s₁) s') :
    EndByReturn p names ss m fuel call enter f
      (Instr.inside m fuel call enter f (Surroundings.whileLoop n cond inner) s) s' := by
  rw [Surroundings.whileLoop] at returned ⊢
  have looped := Outcome.eq_returned_of_leave (Outcome.eq_returned_of_restore returned)
  refine cons looped (fun looped => ?_) fun s₁ nothing => by cases nothing
  have rounds := Outcome.eq_returned_of_restore looped
  obtain ⟨front, s₁, seen, last⟩ := Wasm.exists_round_of_returned rounds
  rw [List.append_assoc] at last
  obtain ⟨front', s₂, body, seen'⟩ :=
    Instr.exists_of_append_returned (condition.isStraight_test _) last []
  rw [Instr.inside, seen, List.append_assoc, seen']
  refine behind (behind ?_ front') front
  rw [Instr.runAll_append] at body
  rw [Instr.trace_append]
  rcases Outcome.of_andThen_eq_returned body with body | ⟨_, -, again⟩
  · rw [body]
    change EndByReturn p names ss m fuel call enter f (_ ++ []) s'
    rw [List.append_nil]
    exact round _ s₂ body
  · cases again

end Stmt.EndByReturn

/-- Where the code of statements returns, the code of one of their return statements is the last
thing that is seen. -/
theorem Stmt.Lowers.endByReturn (distinct : p.ClassesDiffer) {mayReturn : Bool} {n n' : Nat}
    {code : List Instr} (h : Stmt.Lowers p names mayReturn n ss code n')
    (returned : Instr.runAll m fuel call code s = .returned s') (after : List Instr) :
    EndByReturn p names ss m fuel call enter f
      (Instr.trace m fuel call enter f after code s) s' := by
  induction h generalizing after s with
  | nil n => cases returned
  | pass tail ih => exact (ih returned after).mono fun _ => .later _
  | @expr n n' e ss code rest value tail ih
  | @assignLocal n n' x e ss code rest hx value tail ih
  | @assignGlobal n n' x e ss code rest hx known value tail ih =>
    obtain ⟨front, s₁, behind, seen⟩ :=
      Instr.exists_of_append_returned value.isStraight returned after
    rw [seen]
    refine .behind (.cons behind (fun set => ?_) fun s₂ rest => ?_) front
    · exact absurd set (Instr.run_ne_returned rfl s₁ s')
    · exact (ih rest after).mono fun _ => .later _
  | @assignMember n n' o e x c k ss self code rest found place receiver value tail ih =>
    obtain ⟨front, s₁, behind, seen⟩ :=
      Instr.exists_of_append_returned (receiver.isStraight_member value k) returned after
    rw [seen]
    refine .behind (.cons behind (fun set => ?_) fun s₂ rest => ?_) front
    · exact absurd set (Instr.run_ne_returned rfl s₁ s')
    · exact (ih rest after).mono fun _ => .later _
  | @return_ n n' e ss code rest allowed value tail ih =>
    -- nothing is seen behind the return, so the code behind it does not matter
    refine ⟨[], e, code, rest ++ after, s, .here ss, value.expr_eq distinct, ?_, ?_⟩
    · rw [Instr.trace_append, List.nil_append, Instr.trace_append]
      rfl
    · rw [Instr.runAll_append] at returned ⊢
      exact returned
  | @while_ n n₁ n' c body ss cond inner rest condition round tail ihround ih =>
    refine .cons returned (fun looped => ?_) fun s₁ rest => ?_
    · refine .while_ condition looped fun after s₁ last => ?_
      exact (ihround last after).mono fun _ => .while_ c ss
    · exact (ih rest after).mono fun _ => .later _
  | @if_ n n₁ n₂ n' c body ss orElse cond thn els rest condition yes no tail ihyes ihno ih =>
    obtain ⟨front, s₁, behind, seen⟩ :=
      Instr.exists_of_append_returned condition.isStraight returned after
    rw [seen]
    refine .behind (.cons behind (fun branch => ?_) fun s₂ rest => ?_) front
    · refine .ifElse branch (fun s₂ first => ?_) fun s₂ last => ?_
      · exact (ihyes first []).mono fun _ => .if_ c none orElse ss
      · refine (ihno last []).mono fun e inside => ?_
        cases orElse with
        | none => cases inside
        | some last => exact .orElse c body none ss inside
    · exact (ih rest after).mono fun _ => .later _
  | @elif n n₁ n₂ n' c d body other ss orElse cond thn els rest condition yes no tail ihyes ihno
      ih =>
    obtain ⟨front, s₁, behind, seen⟩ :=
      Instr.exists_of_append_returned condition.isStraight returned after
    rw [seen]
    refine .behind (.cons behind (fun branch => ?_) fun s₂ rest => ?_) front
    · refine .ifElse branch (fun s₂ first => ?_) fun s₂ last => ?_
      · exact (ihyes first []).mono fun _ => .if_ c (some (d, other)) orElse ss
      · refine (ihno last []).mono fun e inside => ?_
        cases inside with
        | later s nothing => cases nothing
        | if_ _ _ _ _ second => exact .elif c d body orElse ss second
        | orElse _ _ _ _ last => exact .orElse c body (some (d, other)) ss last
    · exact (ih rest after).mono fun _ => .later _

end

/-! ## §5 The code that remains -/

/-- Of code behind which `after` follows, this may be what is still to be run at some moment. -/
inductive Wasm.Instr.Remains : (after code rest : List Instr) → Prop
  | here (after : List Instr) (i : Instr) (code : List Instr) :
      Remains after (i :: code) (i :: code ++ after)
  | later {after code rest : List Instr} (i : Instr) (h : Remains after code rest) :
      Remains after (i :: code) rest
  | thn {after thn rest : List Instr} (els code : List Instr) (h : Remains [] thn rest) :
      Remains after (.ifElse thn els :: code) rest
  | els {after els rest : List Instr} (thn code : List Instr) (h : Remains [] els rest) :
      Remains after (.ifElse thn els :: code) rest
  | block {after body rest : List Instr} (l : String) (code : List Instr)
      (h : Remains [] body rest) : Remains after (.block l body :: code) rest
  | loop {after body rest : List Instr} (l : String) (code : List Instr)
      (h : Remains [] body rest) : Remains after (.loop l body :: code) rest

namespace Wasm

section

variable {m : Module} {fuel : Nat} {call : Func → List Word → Store → Outcome}
variable {enter : Func → List Word → Store → List Snapshot} {f : Func} {S : List Snapshot → Prop}

theorem Outcome.goOn_closed (nil : S []) (o : Outcome) {T : State → List Snapshot}
    (h : ∀ s, S (T s)) : S (o.goOn T) := by
  cases o with
  | next s => exact h s
  | _ => exact nil

theorem roundTrace_closed (nil : S []) (append : ∀ T T', S T → S T' → S (T ++ T'))
    (label : String) (body : State → Outcome) {trace : State → List Snapshot}
    (h : ∀ s, S (trace s)) (n : Nat) (s : State) : S (roundTrace label body trace n s) := by
  induction n generalizing s with
  | zero => exact nil
  | succ n ih =>
    rw [roundTrace]
    refine append _ _ (h _) ?_
    split
    · split
      · exact ih _
      · exact nil
    · exact nil

/-- What holds of traces that are put together holds of the trace of code, if it holds of the calls
and of each moment at which some of the code remains. -/
theorem Instr.trace_closed (nil : S []) (append : ∀ T T', S T → S T' → S (T ++ T'))
    (calls : ∀ g args store, S (enter g args store)) {code after : List Instr}
    (marks : ∀ rest s, Remains after code rest → S [⟨f, .reached rest, s⟩]) (s : State) :
    S (trace m fuel call enter f after code s) := by
  induction code using codeInduct generalizing after s with
  | nil => exact nil
  | simple i code simple ih =>
    rw [trace_cons]
    refine append [_] _ (marks _ s (.here after i code)) (append _ _ ?_ ?_)
    · cases i with
      | call name =>
        simp only [inside]
        split
        · exact calls ..
        · exact nil
      | ifElse | block | loop => cases simple
      | _ => exact nil
    · exact Outcome.goOn_closed nil _ fun s => ih (fun rest s h => marks rest s (.later _ h)) s
  | ifElse thn els code ihyes ihno ih =>
    rw [trace_cons]
    refine append [_] _ (marks _ s (.here after _ code)) (append _ _ ?_ ?_)
    · rcases run_ifElse thn els s with ⟨-, seen⟩ | ⟨c, -, branch, -, seen⟩
      · rw [seen]
        exact nil
      · rw [seen]
        rcases branch with rfl | rfl
        · exact ihyes (fun rest s h => marks rest s (.thn els code h)) _
        · exact ihno (fun rest s h => marks rest s (.els thn code h)) _
    · exact Outcome.goOn_closed nil _ fun s => ih (fun rest s h => marks rest s (.later _ h)) s
  | block l body code ihinner ih =>
    rw [trace_cons]
    refine append [_] _ (marks _ s (.here after _ code)) (append _ _ ?_ ?_)
    · exact ihinner (fun rest s h => marks rest s (.block l code h)) _
    · exact Outcome.goOn_closed nil _ fun s => ih (fun rest s h => marks rest s (.later _ h)) s
  | loop l body code ihinner ih =>
    rw [trace_cons]
    refine append [_] _ (marks _ s (.here after _ code)) (append _ _ ?_ ?_)
    · exact roundTrace_closed nil append l _
        (ihinner fun rest s h => marks rest s (.loop l code h)) fuel s
    · exact Outcome.goOn_closed nil _ fun s => ih (fun rest s h => marks rest s (.later _ h)) s

theorem Instr.Remains.of_append {after c c' rest : List Instr} (h : Remains after (c ++ c') rest) :
    Remains (c' ++ after) c rest ∨ Remains after c' rest := by
  induction c with
  | nil => exact .inr h
  | cons i c ih =>
    cases h with
    | here => exact .inl ((List.append_assoc (i :: c) c' after).symm ▸ .here _ i c)
    | later _ h => exact (ih h).imp_left (.later i)
    | thn els _ h => exact .inl (.thn els c h)
    | els thn _ h => exact .inl (.els thn c h)
    | block l _ h => exact .inl (.block l c h)
    | loop l _ h => exact .inl (.loop l c h)

/-- Before the end of straight code, the code behind it is not yet reached. -/
theorem Instr.Remains.lt_length {after c rest : List Instr} (h : Remains after c rest)
    (straight : ∀ i ∈ c, i.isStraight = true) : after.length < rest.length := by
  induction c with
  | nil => cases h
  | cons i c ih =>
    cases h with
    | here =>
      simp only [List.length_append, List.length_cons]
      omega
    | later _ h => exact ih h fun j hj => straight j (by simp [hj])
    | _ => cases straight _ (List.mem_cons_self ..)

/-- The last instruction is not in straight code that something follows. -/
theorem Instr.Remains.of_straight {after c c' : List Instr} {i : Instr}
    (h : Remains after (c ++ c') [i]) (straight : ∀ i ∈ c, i.isStraight = true)
    (more : c' ++ after ≠ []) : Remains after c' [i] := by
  refine h.of_append.resolve_left fun h => more ?_
  have short := h.lt_length straight
  rw [List.length_singleton] at short
  exact List.eq_nil_of_length_eq_zero (by omega)

end

end Wasm

section

variable {p : Program} {names : List String}

/-- The code of statements does not end with a constant, and neither does the code inside of it. -/
theorem Stmt.Lowers.not_remains {mayReturn : Bool} {n n' : Nat} {ss : List Stmt}
    {code : List Instr} (h : Stmt.Lowers p names mayReturn n ss code n') (w : Word)
    (after : List Instr) : ¬Instr.Remains after code [.const w] := by
  intro remains
  induction h generalizing after with
  | nil n => cases remains
  | pass tail ih => exact ih after remains
  | expr value tail ih | assignLocal hx value tail ih | assignGlobal hx known value tail ih
  | return_ allowed value tail ih =>
    cases remains.of_straight value.isStraight (by simp) with
    | later _ remains => exact ih after remains
  | @assignMember n n' o e x c k ss self code rest found place receiver value tail ih =>
    cases remains.of_straight (receiver.isStraight_member value k) (by simp) with
    | later _ remains => exact ih after remains
  | @while_ n n₁ n' c body ss cond inner rest condition round tail ihround ih =>
    cases remains with
    | later _ remains => exact ih after remains
    | block l _ remains =>
      cases remains with
      | later _ remains => cases remains
      | loop l _ remains =>
        rw [List.append_assoc] at remains
        have inside := remains.of_straight (condition.isStraight_test _) (by simp)
        rcases inside.of_append with remains | remains
        · exact ihround _ remains
        · cases remains with
          | later _ remains => cases remains
  | if_ condition yes no tail ihyes ihno ih | elif condition yes no tail ihyes ihno ih =>
    cases remains.of_straight condition.isStraight (by simp) with
    | later _ remains => exact ih after remains
    | thn _ _ remains => exact ihyes [] remains
    | els _ _ remains => exact ihno [] remains

end

/-! ## §6 Functions that return -/

/-- In what is seen of a module, the function `g`, which has the body of `f`, does not reach the
constant at its end, and it is left by its return statements only. -/
structure FunDef.LeavesByReturn (p : Program) (f : FunDef) (m : Module) (fuel : Nat) (g : Func)
    (T : List Snapshot) : Prop where
  unreached : ∀ a ∈ T, a.func = g → a.point ≠ .reached [.const 0]
  left : ∀ front s back, T = front ++ ⟨g, .left, s⟩ :: back →
    ∃ depth, Stmt.EndByReturn p f.localNames f.body m fuel (m.call fuel depth)
      (m.enter fuel depth) g front s

namespace FunDef.LeavesByReturn

variable {p : Program} {f : FunDef} {m : Module} {fuel : Nat} {g : Func} {T T' : List Snapshot}

theorem nil : LeavesByReturn p f m fuel g [] :=
  ⟨by simp, by simp⟩

theorem append (h : LeavesByReturn p f m fuel g T) (h' : LeavesByReturn p f m fuel g T') :
    LeavesByReturn p f m fuel g (T ++ T') where
  unreached a ha := (List.mem_append.1 ha).elim (h.unreached a) (h'.unreached a)
  left front s back split := by
    rcases List.append_eq_append_iff.1 split with ⟨middle, rfl, rest⟩ | ⟨middle, rfl, rest⟩
    · obtain ⟨depth, ends⟩ := h'.left middle s back rest
      exact ⟨depth, ends.behind T⟩
    · cases middle with
      | nil =>
        obtain ⟨depth, ends⟩ := h'.left [] s back rest.symm
        rw [← List.append_nil front]
        exact ⟨depth, ends.behind front⟩
      | cons a middle =>
        cases rest
        exact h.left front s middle rfl

theorem single {a : Snapshot} (h : a.func = g → a.point ≠ .reached [.const 0] ∧ a.point ≠ .left) :
    LeavesByReturn p f m fuel g [a] where
  unreached b hb same := by
    rw [List.mem_singleton.1 hb] at same ⊢
    exact (h same).1
  left front s back split := by
    obtain ⟨rfl, rfl, rfl⟩ : front = [] ∧ back = [] ∧ a = ⟨g, .left, s⟩ := by
      cases front with
      | nil =>
        cases split
        exact ⟨rfl, rfl, rfl⟩
      | cons b front => simp at split
    exact absurd rfl (h rfl).2

/-- A function is left after the code of one of its return statements. -/
theorem leave (h : LeavesByReturn p f m fuel g T) {depth : Nat} {s : State}
    (ends : Stmt.EndByReturn p f.localNames f.body m fuel (m.call fuel depth) (m.enter fuel depth)
      g T s) : LeavesByReturn p f m fuel g (T ++ [⟨g, .left, s⟩]) where
  unreached a ha := by
    rcases List.mem_append.1 ha with ha | ha
    · exact h.unreached a ha
    · rw [List.mem_singleton.1 ha]
      simp
  left front s' back split := by
    rcases List.eq_nil_or_concat back with rfl | ⟨back, a, rfl⟩
    · obtain ⟨rfl, last⟩ := List.append_inj' split rfl
      cases last
      exact ⟨depth, ends⟩
    · rw [List.concat_eq_append, ← List.cons_append, ← List.append_assoc] at split
      exact h.left front s' back (List.append_inj' split rfl).1

end FunDef.LeavesByReturn

section

variable {p : Program} {f : FunDef} {m : Module} {fuel : Nat} {n n' : Nat} {code : List Instr}

/-- Control does not come to the end of a function that returns on every path. -/
theorem FunDef.neverGoesOn (body : Stmt.Lowers p f.localNames true n f.body code n')
    (returns : ∃ t ∈ f.body, t.Returns) (m : Module) (fuel : Nat)
    (call : Func → List Word → Store → Outcome) :
    Instr.NeverGoesOn m fuel call (f.initCode ++ code) :=
  (body.neverGoesOn returns).behind f.initCode

/-- A function that returns on every path and comes to an end returns. -/
theorem FunDef.eq_returned_of_result? (body : Stmt.Lowers p f.localNames true n f.body code n')
    (returns : ∃ t ∈ f.body, t.Returns) {call : Func → List Word → Store → Outcome} {s s' : State}
    (result : (Instr.runAll m fuel call (f.initCode ++ code ++ [Instr.const 0]) s).result? =
      some s') :
    Instr.runAll m fuel call (f.initCode ++ code ++ [Instr.const 0]) s = .returned s' := by
  have never := FunDef.neverGoesOn body returns m fuel call
  rw [never.runAll_append_eq] at result ⊢
  cases ran : Instr.runAll m fuel call (f.initCode ++ code) s with
  | next s₁ => exact absurd ran (never s s₁)
  | returned s₁ =>
    rw [ran] at result
    cases result
    rfl
  | _ =>
    rw [ran] at result
    cases result

/-- Such a function returns by one of its return statements. -/
theorem FunDef.endByReturn (distinct : p.ClassesDiffer)
    (body : Stmt.Lowers p f.localNames true n f.body code n') (returns : ∃ t ∈ f.body, t.Returns)
    {call : Func → List Word → Store → Outcome} {enter : Func → List Word → Store → List Snapshot}
    {g : Func} {s s' : State}
    (returned : Instr.runAll m fuel call (f.initCode ++ code ++ [Instr.const 0]) s = .returned s') :
    Stmt.EndByReturn p f.localNames f.body m fuel call enter g
      (Instr.trace m fuel call enter g [] (f.initCode ++ code ++ [Instr.const 0]) s) s' := by
  have never := FunDef.neverGoesOn body returns m fuel call
  rw [never.runAll_append_eq] at returned
  rw [never.trace_append_eq]
  obtain ⟨front, s₁, inner, seen⟩ :=
    Instr.exists_of_append_returned f.isStraight_initCode returned ([Instr.const 0] ++ [])
  rw [seen]
  exact (body.endByReturn distinct inner _).behind front

/-- While such a function runs, its own code does not come to the constant, so only the calls that
it makes matter. -/
theorem FunDef.leavesByReturn_trace (body : Stmt.Lowers p f.localNames true n f.body code n')
    (returns : ∃ t ∈ f.body, t.Returns) (call : Func → List Word → Store → Outcome)
    {enter : Func → List Word → Store → List Snapshot} {g : Func}
    (calls : ∀ h args store, f.LeavesByReturn p m fuel g (enter h args store)) (s : State) :
    f.LeavesByReturn p m fuel g
      (Instr.trace m fuel call enter g [] (f.initCode ++ code ++ [Instr.const 0]) s) := by
  rw [(FunDef.neverGoesOn body returns m fuel call).trace_append_eq]
  refine Instr.trace_closed .nil (fun _ _ => .append) calls (fun rest s remains => ?_) s
  refine .single fun _ => ⟨?_, by simp⟩
  rintro ⟨⟩
  exact body.not_remains 0 _ (remains.of_straight f.isStraight_initCode (by simp))

/-- The same of any other function, whatever its code is. -/
theorem FunDef.leavesByReturn_visit_of_ne {call : Func → List Word → Store → Outcome}
    {enter : Func → List Word → Store → List Snapshot} {g h : Func} (other : h ≠ g)
    (calls : ∀ h args store, f.LeavesByReturn p m fuel g (enter h args store)) (args : List Word)
    (store : Store) : f.LeavesByReturn p m fuel g (h.visit m fuel call enter args store) := by
  have single : ∀ point s, f.LeavesByReturn p m fuel g [⟨h, point, s⟩] :=
    fun point s => .single fun same => absurd same other
  refine .append ?_ ?_
  · exact Instr.trace_closed .nil (fun _ _ => .append) calls (fun _ _ _ => single _ _) _
  · cases (Instr.runAll m fuel call h.body ⟨[], h.initialLocals args, store⟩).result? with
    | none => exact .nil
    | some s => exact single .left s

/-- Whatever function is called, a function that returns on every path is left by its return
statements only. -/
theorem FunDef.leavesByReturn_enter (distinct : p.ClassesDiffer)
    (body : Stmt.Lowers p f.localNames true n f.body code n') (returns : ∃ t ∈ f.body, t.Returns)
    (symbol : String) (m : Module) (fuel depth : Nat) (g : Func) (args : List Word)
    (store : Store) : f.LeavesByReturn p m fuel (f.routine symbol code).toFunc
      (m.enter fuel depth g args store) := by
  induction depth generalizing g args store with
  | zero => exact .nil
  | succ depth ih =>
    change f.LeavesByReturn p m fuel _ ([⟨g, .entered, _⟩] ++ g.visit ..)
    refine .append (.single fun _ => ⟨by simp, by simp⟩) ?_
    by_cases same : g = (f.routine symbol code).toFunc
    · subst same
      have seen := FunDef.leavesByReturn_trace body returns (m.call fuel depth) ih
        ⟨[], (f.routine symbol code).toFunc.initialLocals args, store⟩
      rw [Func.visit]
      cases result : (Instr.runAll m fuel (m.call fuel depth) (f.routine symbol code).toFunc.body
          ⟨[], (f.routine symbol code).toFunc.initialLocals args, store⟩).result? with
      | none =>
        change f.LeavesByReturn p m fuel _ (_ ++ [])
        rw [List.append_nil]
        exact seen
      | some s =>
        have returned := FunDef.eq_returned_of_result? body returns result
        exact seen.leave (FunDef.endByReturn distinct body returns returned)
    · exact FunDef.leavesByReturn_visit_of_ne same ih args store

end

/-! ## §7 Programs -/

theorem Program.IsTyped.returns {p : Program} (typed : p.IsTyped) {symbol : String} {f : FunDef}
    (h : (symbol, f) ∈ Image.functionsOf p) (result : f.result ≠ .none) :
    ∃ t ∈ f.body, t.Returns := by
  rcases Image.mem_functionsOf h with ⟨c, -, rfl⟩ | ⟨c, hc, hf, -⟩ | ⟨hf, -⟩
  · exact absurd rfl result
  · exact (typed.methods c hc f hf).returns result
  · exact (typed.functions f hf).returns result

/-- What holds of each function and its routine holds along the functions and the routines. -/
theorem Routine.Lowers.forall₂ {p : Program} {n n' : Nat} {fs : List (String × FunDef)}
    {rs : List Routine} {R : String × FunDef → Routine → Prop} (h : Routine.Lowers p n fs rs n')
    (each : ∀ symbol f code k k', (symbol, f) ∈ fs →
      Stmt.Lowers p f.localNames true k f.body code k' → R (symbol, f) (f.routine symbol code)) :
    List.Forall₂ R fs rs := by
  induction h with
  | nil n => exact .nil
  | cons body tail ih =>
    refine .cons (each _ _ _ _ _ List.mem_cons_self body) (ih fun symbol f code k k' mem => ?_)
    exact each symbol f code k k' (List.mem_cons_of_mem _ mem)

/-- A function or method with a declared result returns by its return statements. The constant
behind its body is never reached, not even where nothing is known of the functions that it calls;
whenever a call of it comes to an end it has returned; and each time it is left in a run of the
module, the last thing that is seen is the code of one of its return statements. -/
theorem Program.results_are_returned {source : String} {p q : Program}
    (parsed : Program.parse source = .ok p) (checked : p.check = .ok q) :
    ∃ i, Image.ofProgram q = .ok i ∧ Module.read? i.text = some i.toModule ∧
      List.Forall₂ (fun entry r => r.symbol = entry.1 ∧ (entry.2.result ≠ .none →
        (∃ front, r.body = front ++ [.const 0] ∧
          ∀ fuel call, Instr.NeverGoesOn i.toModule fuel call front) ∧
        (∀ fuel depth args store s,
          (i.toModule.call fuel depth r.toFunc args store).result? = some s →
            i.toModule.call fuel depth r.toFunc args store = .returned s) ∧
        ∀ limits, entry.2.LeavesByReturn q i.toModule limits.fuel r.toFunc
          (i.toModule.trace limits)))
        (Image.functionsOf q) i.routines := by
  obtain ⟨i, hi, lowers, resolved, ids⟩ := exists_image_of_check parsed checked
  have typed := isTyped_of_check checked
  have distinct := typed.declared.classesDiffer
  obtain ⟨_, _, _, routines, -, -⟩ := lowers.code
  refine ⟨i, hi, lowers.read?_text resolved ids, ?_⟩
  refine routines.forall₂ fun symbol f code k k' mem body => ⟨rfl, fun result => ?_⟩
  have returns := typed.returns mem result
  refine ⟨⟨_, rfl, FunDef.neverGoesOn body returns i.toModule⟩, ?_, fun limits => ?_⟩
  · intro fuel depth args store s ended
    cases depth with
    | zero => cases ended
    | succ depth =>
      rw [Module.call, Wasm.exec_eq] at ended ⊢
      exact FunDef.eq_returned_of_result? body returns ended
  · rw [Module.trace]
    split
    · exact FunDef.leavesByReturn_enter distinct body returns ..
    · exact .nil

/-- A search that returns from a loop, or else by the branches of a conditional. -/
def Program.searching : Program where
  defs := [.function ⟨"find", [⟨"n", .int⟩], .int, [⟨"i", .int, .number 0⟩],
    [.while_ (.binary none .lt (.var none "i") (.var none "n"))
      [.if_ (.binary none .eq (.var none "i") (.literal none (.number 2)))
        [.return_ (.var none "i")] none none,
       .assign (.var "i") (.binary none .add (.var none "i") (.literal none (.number 1)))],
     .if_ (.binary none .eq (.var none "n") (.literal none (.number 0)))
      [.return_ (.literal none (.number 7))]
      (some (.binary none .eq (.var none "n") (.literal none (.number 1)),
        [.return_ (.literal none (.number 8))]))
      (some [.return_ (.literal none (.number 9)), .pass])]⟩]
  stmts := [.expr (.call none "find" [.literal none (.number 5)]),
    .expr (.call none "find" [.literal none (.number 1)])]

/-- The symbol of a function that is left, with its result. -/
def Wasm.Snapshot.result? (a : Snapshot) : Option (String × Option Word) :=
  match a.point with
  | .left => some (a.func.name, a.state.stack.head?)
  | _ => none

/-- The first search returns from the loop, the second one by the second branch. -/
theorem Program.results_are_returned_searching : ∃ q i, searching.check = .ok q ∧
    Image.ofProgram q = .ok i ∧
    ((i.toModule.trace ⟨1, 10, 10⟩).filterMap Snapshot.result?).take 2 =
      [(functionSymbol "find", some 2), (functionSymbol "find", some 8)] ∧
    ∀ r ∈ i.routines, r.symbol = functionSymbol "find" →
      ∃ f, (functionSymbol "find", f) ∈ Image.functionsOf q ∧
        f.LeavesByReturn q i.toModule 10 r.toFunc (i.toModule.trace ⟨1, 10, 10⟩) := by
  have values : (searching.check.toOption.bind fun q => (Image.ofProgram q).toOption.map fun i =>
      (((i.toModule.trace ⟨1, 10, 10⟩).filterMap Snapshot.result?).take 2,
        (Image.functionsOf q).filterMap fun entry =>
          if entry.1 = functionSymbol "find" then some entry.2.result else none)) =
      some ([(functionSymbol "find", some 2), (functionSymbol "find", some 8)], [.int]) := by
    decide +kernel
  cases checked : searching.check with
  | error e =>
    rw [checked] at values
    cases values
  | ok q =>
    have parsed := parse_of_tokens (by decide) (lex_text (p := searching) (by decide))
    obtain ⟨i, hi, -, routines⟩ := results_are_returned parsed checked
    rw [checked, Except.toOption, Option.bind_some, hi, Except.toOption, Option.map_some,
      Option.some.injEq, Prod.mk.injEq] at values
    refine ⟨q, i, rfl, hi, values.1, fun r hr symbol => ?_⟩
    obtain ⟨⟨_, f⟩, mem, rfl, returning⟩ := Fallible.exists_of_forall₂ routines hr
    rw [symbol] at mem
    have typed : f.result ∈ [Ty.int] := by
      rw [← values.2]
      exact List.mem_filterMap.2 ⟨_, mem, if_pos rfl⟩
    exact ⟨f, mem, (returning (by simp [List.mem_singleton.1 typed])).2.2 ⟨1, 10, 10⟩⟩

end Serpent
