/-
Serpent.Proofs.Checked — what checking makes of each form of expression and statement.

One lemma for each form says when it is checked and what comes out; nothing later unfolds the
checker.

  §1 Operators
  §2 Expressions
  §3 Statements
  §4 Paths that return
-/
import Serpent.Proofs.Fallible
import Serpent.Proofs.Induction
import Serpent.Proofs.Typing
import Serpent.Typing.Check

namespace Serpent

open Fallible

variable {Γ : Context}

/-! ## §1 Operators -/

theorem Ty.isReference_iff {t : Ty} : t.isReference = true ↔ t.IsReference := by
  constructor
  · intro h
    cases t with
    | none => exact .none
    | object c => exact .object c
    | int => cases h
    | bool => cases h
  · intro h
    cases h <;> rfl

theorem UnOp.result?_eq_some {op : UnOp} {t r : Ty} : op.result? t = some r ↔ op.Takes t r := by
  constructor
  · intro h
    cases op <;> cases t <;> cases h
    · exact .neg
    · exact .not
  · intro h
    cases h <;> rfl

theorem BinOp.result?_eq_some {op : BinOp} {l r t : Ty} :
    op.result? l r = some t ↔ op.Takes l r t := by
  constructor
  · intro h
    cases op with
    | is =>
      simp only [result?] at h
      split at h
      case isFalse => cases h
      rename_i both
      cases h
      rw [Bool.and_eq_true, Ty.isReference_iff, Ty.isReference_iff] at both
      exact .is both.1 both.2
    | add | sub | mul | floorDiv | mod =>
      cases l <;> cases r <;> cases h
      exact .arithmetic (by simp)
    | le | ge | lt | gt =>
      cases l <;> cases r <;> cases h
      exact .order (by simp)
    | eq | ne =>
      cases l <;> cases r <;> cases h
      · exact .equality (by simp) (.inl rfl)
      · exact .equality (by simp) (.inr rfl)
    | and | or =>
      cases l <;> cases r <;> cases h
      exact .logic (by simp)
  · intro h
    cases h with
    | arithmetic h => cases op <;> first | rfl | simp at h
    | order h => cases op <;> first | rfl | simp at h
    | equality h ht => rcases ht with rfl | rfl <;> cases op <;> first | rfl | simp at h
    | logic h => cases op <;> first | rfl | simp at h
    | is hl hr => simp [result?, Ty.isReference_iff.2 hl, Ty.isReference_iff.2 hr]

/-! ## §2 Expressions -/

namespace Context

/-- Arguments are checked one by one, each against the type of its parameter. -/
inductive Passes (Γ : Context) : List Expr → List Ty → List Expr → Prop
  | nil : Passes Γ [] [] []
  | cons {e e' : Expr} {es es' : List Expr} {found expected : Ty} {params : List Ty}
      (first : Γ.expr e = .ok (e', found)) (fits : found.Fits expected)
      (rest : Passes Γ es params es') : Passes Γ (e :: es) (expected :: params) (e' :: es')

theorem passes_iff (callee : String) (i : Nat) {params : List Ty} {args args' : List Expr} :
    args.length = params.length ∧ Γ.arguments callee i params args = .ok args' ↔
      Γ.Passes args params args' := by
  induction args generalizing i params args' with
  | nil =>
    constructor
    · rintro ⟨arity, h⟩
      cases h
      rw [List.length_eq_zero_iff.1 arity.symm]
      exact .nil
    · rintro ⟨⟩
      exact ⟨rfl, rfl⟩
  | cons a args ih =>
    constructor
    · rintro ⟨arity, h⟩
      cases params with
      | nil => cases arity
      | cons expected params =>
        rw [arguments] at h
        obtain ⟨⟨a', found⟩, first, h⟩ := bind_eq_ok.1 h
        dsimp only at h
        split at h
        case isFalse => cases h
        rename_i fits
        obtain ⟨rest, hrest, h⟩ := bind_eq_ok.1 h
        cases h
        exact .cons first (Ty.fits_iff.2 fits) ((ih (i + 1)).1 ⟨Nat.succ.inj arity, hrest⟩)
    · intro h
      cases h with
      | cons first fits rest =>
        obtain ⟨arity, hrest⟩ := (ih (i + 1)).2 rest
        refine ⟨congrArg Nat.succ arity, ?_⟩
        rw [arguments, first]
        simp [Ty.fits_iff.1 fits, hrest]

theorem receiverClass_eq_ok {o : Expr} {t : Ty} {c : String} :
    receiverClass o t = .ok c ↔ t = .object c := by
  cases t with
  | object d => simp [receiverClass]
  | int => simp [receiverClass]
  | bool => simp [receiverClass]
  | none => simp [receiverClass]

theorem fieldType_eq_ok {c x : String} {t : Ty} :
    Γ.fieldType c x = .ok t ↔ Γ.classes.field? c x = some t := by
  rw [fieldType]
  split
  · simp [*]
  · simp [*]

theorem methodType_eq_ok {c x : String} {sig : Signature} :
    Γ.methodType c x = .ok sig ↔ Γ.classes.method? c x = some sig := by
  rw [methodType]
  split
  · simp [*]
  · simp [*]

variable {a : Option Ty} {e' : Expr} {t : Ty}

theorem expr_literal {v : Literal} :
    Γ.expr (.literal a v) = .ok (e', t) ↔ t = v.ty ∧ e' = .literal (some t) v := by
  rw [expr]
  constructor
  · intro h
    cases h
    exact ⟨rfl, rfl⟩
  · rintro ⟨rfl, rfl⟩
    rfl

theorem expr_var {x : String} : Γ.expr (.var a x) = .ok (e', t) ↔
    Γ.lookup? x = some (.variable t) ∧ e' = .var (some t) x := by
  rw [expr]
  constructor
  · intro h
    split at h
    case h_2 => cases h
    rename_i found
    cases h
    exact ⟨found, rfl⟩
  · rintro ⟨found, rfl⟩
    simp [found]

theorem expr_unary {op : UnOp} {e : Expr} : Γ.expr (.unary a op e) = .ok (e', t) ↔
    ∃ e₁ u, Γ.expr e = .ok (e₁, u) ∧ op.Takes u t ∧ e' = .unary (some t) op e₁ := by
  constructor
  · intro h
    obtain ⟨⟨e₁, u⟩, operand, h⟩ := bind_eq_ok.1 h
    dsimp only at h
    split at h
    case h_2 => cases h
    rename_i result
    cases h
    exact ⟨e₁, u, operand, UnOp.result?_eq_some.1 result, rfl⟩
  · rintro ⟨e₁, u, operand, takes, rfl⟩
    refine bind_eq_ok.2 ⟨_, operand, ?_⟩
    simp [UnOp.result?_eq_some.2 takes]

theorem expr_binary {op : BinOp} {l r : Expr} : Γ.expr (.binary a op l r) = .ok (e', t) ↔
    ∃ l₁ u r₁ v, Γ.expr l = .ok (l₁, u) ∧ Γ.expr r = .ok (r₁, v) ∧ op.Takes u v t ∧
      e' = .binary (some t) op l₁ r₁ := by
  constructor
  · intro h
    obtain ⟨⟨l₁, u⟩, left, h⟩ := bind_eq_ok.1 h
    obtain ⟨⟨r₁, v⟩, right, h⟩ := bind_eq_ok.1 h
    dsimp only at h
    split at h
    case h_2 => cases h
    rename_i result
    cases h
    exact ⟨l₁, u, r₁, v, left, right, BinOp.result?_eq_some.1 result, rfl⟩
  · rintro ⟨l₁, u, r₁, v, left, right, takes, rfl⟩
    refine bind_eq_ok.2 ⟨_, left, bind_eq_ok.2 ⟨_, right, ?_⟩⟩
    simp [BinOp.result?_eq_some.2 takes]

theorem expr_print {args : List Expr} : Γ.expr (.call a printFunction args) = .ok (e', t) ↔
    ∃ e e₁ u, args = [e] ∧ Γ.expr e = .ok (e₁, u) ∧ t = .none ∧
      e' = .call (some .none) printFunction [e₁] := by
  rw [expr.eq_def]
  dsimp only
  rw [if_pos rfl]
  constructor
  · intro h
    split at h
    case h_2 => cases h
    rename_i e
    obtain ⟨⟨e₁, u⟩, argument, h⟩ := bind_eq_ok.1 h
    cases h
    exact ⟨e, e₁, u, rfl, argument, rfl, rfl⟩
  · rintro ⟨e, e₁, u, rfl, argument, rfl, rfl⟩
    exact bind_eq_ok.2 ⟨_, argument, rfl⟩

theorem expr_call {f : String} {args : List Expr} (other : f ≠ printFunction) :
    Γ.expr (.call a f args) = .ok (e', t) ↔
      (∃ sig args', Γ.lookup? f = some (.function sig) ∧ Γ.Passes args sig.params args' ∧
        t = sig.result ∧ e' = .call (some t) f args') ∨
      (Γ.lookup? f = none ∧ Γ.classes.has f = true ∧ args = [] ∧ t = .object f ∧
        e' = .call (some t) f []) := by
  rw [expr.eq_def]
  dsimp only
  rw [if_neg other]
  constructor
  · intro h
    split at h
    case h_1 sig found =>
      obtain ⟨arity, h⟩ := guard_eq_ok.1 h
      obtain ⟨args', hargs, h⟩ := bind_eq_ok.1 h
      cases h
      exact .inl ⟨sig, args', found, (passes_iff _ _).1 ⟨not_not.1 arity, hargs⟩, rfl, rfl⟩
    case h_2 => cases h
    case h_3 unknown =>
      split at h
      case isFalse => cases h
      rename_i known
      split at h
      case isFalse => cases h
      rename_i empty
      cases h
      exact .inr ⟨unknown, known, List.isEmpty_iff.1 empty, rfl, rfl⟩
  · rintro (⟨sig, args', found, passes, rfl, rfl⟩ | ⟨unknown, known, rfl, rfl, rfl⟩)
    · obtain ⟨arity, hargs⟩ := (passes_iff f 0).2 passes
      rw [found]
      exact guard_eq_ok.2 ⟨not_not.2 arity, bind_eq_ok.2 ⟨_, hargs, rfl⟩⟩
    · simp [unknown, known]

theorem expr_field {o : Expr} {x : String} : Γ.expr (.field a o x) = .ok (e', t) ↔
    ∃ o₁ c, Γ.expr o = .ok (o₁, .object c) ∧ Γ.classes.field? c x = some t ∧
      e' = .field (some t) o₁ x := by
  constructor
  · intro h
    obtain ⟨⟨o₁, u⟩, receiver, h⟩ := bind_eq_ok.1 h
    obtain ⟨c, hc, h⟩ := bind_eq_ok.1 h
    obtain ⟨v, hv, h⟩ := bind_eq_ok.1 h
    cases h
    obtain rfl := receiverClass_eq_ok.1 hc
    exact ⟨o₁, c, receiver, fieldType_eq_ok.1 hv, rfl⟩
  · rintro ⟨o₁, c, receiver, found, rfl⟩
    exact bind_eq_ok.2 ⟨_, receiver, bind_eq_ok.2 ⟨c, receiverClass_eq_ok.2 rfl,
      bind_eq_ok.2 ⟨t, fieldType_eq_ok.2 found, rfl⟩⟩⟩

theorem expr_method {o : Expr} {x : String} {args : List Expr} :
    Γ.expr (.method a o x args) = .ok (e', t) ↔
      ∃ o₁ c sig args', Γ.expr o = .ok (o₁, .object c) ∧ Γ.classes.method? c x = some sig ∧
        Γ.Passes args sig.params args' ∧ t = sig.result ∧ e' = .method (some t) o₁ x args' := by
  constructor
  · intro h
    obtain ⟨⟨o₁, u⟩, receiver, h⟩ := bind_eq_ok.1 h
    obtain ⟨c, hc, h⟩ := bind_eq_ok.1 h
    obtain ⟨sig, hsig, h⟩ := bind_eq_ok.1 h
    obtain ⟨arity, h⟩ := guard_eq_ok.1 h
    obtain ⟨args', hargs, h⟩ := bind_eq_ok.1 h
    cases h
    obtain rfl := receiverClass_eq_ok.1 hc
    exact ⟨o₁, c, sig, args', receiver, methodType_eq_ok.1 hsig,
      (passes_iff _ _).1 ⟨not_not.1 arity, hargs⟩, rfl, rfl⟩
  · rintro ⟨o₁, c, sig, args', receiver, found, passes, rfl, rfl⟩
    obtain ⟨arity, hargs⟩ := (passes_iff (c ++ "." ++ x) 0).2 passes
    exact bind_eq_ok.2 ⟨_, receiver, bind_eq_ok.2 ⟨c, receiverClass_eq_ok.2 rfl,
      bind_eq_ok.2 ⟨sig, methodType_eq_ok.2 found, guard_eq_ok.2 ⟨not_not.2 arity,
        bind_eq_ok.2 ⟨args', hargs, rfl⟩⟩⟩⟩⟩

/-! ## §3 Statements -/

variable {target' : Target} {s' : Stmt}

theorem target_var {x : String} : Γ.target (.var x) = .ok (target', t) ↔
    Γ.lookup? x = some (.variable t) ∧ Γ.isOuter x = false ∧ target' = .var x := by
  rw [target]
  constructor
  · intro h
    split at h
    case h_2 => cases h
    rename_i found
    split at h
    case isTrue => cases h
    rename_i own
    cases h
    exact ⟨found, Bool.not_eq_true _ ▸ own, rfl⟩
  · rintro ⟨found, own, rfl⟩
    simp [found, own]

theorem target_member {o : Expr} {x : String} : Γ.target (.member o x) = .ok (target', t) ↔
    ∃ o₁ c, Γ.expr o = .ok (o₁, .object c) ∧ Γ.classes.field? c x = some t ∧
      target' = .member o₁ x := by
  rw [target]
  constructor
  · intro h
    obtain ⟨⟨o₁, u⟩, receiver, h⟩ := bind_eq_ok.1 h
    obtain ⟨c, hc, h⟩ := bind_eq_ok.1 h
    obtain ⟨v, hv, h⟩ := bind_eq_ok.1 h
    cases h
    obtain rfl := receiverClass_eq_ok.1 hc
    exact ⟨o₁, c, receiver, fieldType_eq_ok.1 hv, rfl⟩
  · rintro ⟨o₁, c, receiver, found, rfl⟩
    exact bind_eq_ok.2 ⟨_, receiver, bind_eq_ok.2 ⟨c, receiverClass_eq_ok.2 rfl,
      bind_eq_ok.2 ⟨t, fieldType_eq_ok.2 found, rfl⟩⟩⟩

theorem condition_eq_ok {c c' : Expr} : Γ.condition c = .ok c' ↔ Γ.expr c = .ok (c', .bool) := by
  rw [condition]
  constructor
  · intro h
    obtain ⟨⟨c₁, t⟩, hc, h⟩ := bind_eq_ok.1 h
    dsimp only at h
    split at h
    · cases h
      exact hc
    · cases h
  · intro h
    exact bind_eq_ok.2 ⟨_, h, rfl⟩

theorem stmt_pass : Γ.stmt .pass = .ok s' ↔ s' = .pass := by
  rw [stmt, Except.ok.injEq, eq_comm]

theorem stmt_assign {target : Target} {e : Expr} : Γ.stmt (.assign target e) = .ok s' ↔
    ∃ target' expected e' found, Γ.target target = .ok (target', expected) ∧
      Γ.expr e = .ok (e', found) ∧ found.Fits expected ∧ s' = .assign target' e' := by
  constructor
  · intro h
    obtain ⟨⟨target', expected⟩, htarget, h⟩ := bind_eq_ok.1 h
    obtain ⟨⟨e', found⟩, he, h⟩ := bind_eq_ok.1 h
    dsimp only at h
    split at h
    case isFalse => cases h
    rename_i fits
    cases h
    exact ⟨target', expected, e', found, htarget, he, Ty.fits_iff.2 fits, rfl⟩
  · rintro ⟨target', expected, e', found, htarget, he, fits, rfl⟩
    refine bind_eq_ok.2 ⟨_, htarget, bind_eq_ok.2 ⟨_, he, ?_⟩⟩
    simp [Ty.fits_iff.1 fits]

theorem stmt_expr {e : Expr} : Γ.stmt (.expr e) = .ok s' ↔
    ∃ e' t, Γ.expr e = .ok (e', t) ∧ s' = .expr e' := by
  constructor
  · intro h
    obtain ⟨⟨e', t⟩, he, h⟩ := bind_eq_ok.1 h
    cases h
    exact ⟨e', t, he, rfl⟩
  · rintro ⟨e', t, he, rfl⟩
    exact bind_eq_ok.2 ⟨_, he, rfl⟩

theorem stmt_return {e : Expr} : Γ.stmt (.return_ e) = .ok s' ↔
    ∃ frame e' t, Γ.frame = some frame ∧ Γ.expr e = .ok (e', t) ∧ t.Fits frame.result ∧
      s' = .return_ e' := by
  constructor
  · intro h
    obtain ⟨⟨e', t⟩, he, h⟩ := bind_eq_ok.1 h
    dsimp only at h
    split at h
    case h_1 => cases h
    rename_i frame hframe
    split at h
    case isFalse => cases h
    rename_i fits
    cases h
    exact ⟨frame, e', t, hframe, he, Ty.fits_iff.2 fits, rfl⟩
  · rintro ⟨frame, e', t, hframe, he, fits, rfl⟩
    refine bind_eq_ok.2 ⟨_, he, ?_⟩
    simp [hframe, Ty.fits_iff.1 fits]

/-- Statements are checked one by one. -/
theorem block_eq_ok {ss ss' : List Stmt} :
    Γ.block ss = .ok ss' ↔ List.Forall₂ (fun s s' => Γ.stmt s = .ok s') ss ss' := by
  induction ss generalizing ss' with
  | nil => cases ss' <;> simp [block]
  | cons s ss ih =>
    rw [block]
    constructor
    · intro h
      obtain ⟨s', first, h⟩ := bind_eq_ok.1 h
      obtain ⟨rest, hrest, h⟩ := bind_eq_ok.1 h
      cases h
      exact .cons first (ih.1 hrest)
    · rintro (_ | ⟨first, rest⟩)
      exact bind_eq_ok.2 ⟨_, first, bind_eq_ok.2 ⟨_, ih.2 rest, rfl⟩⟩

theorem stmt_while {c : Expr} {body : List Stmt} : Γ.stmt (.while_ c body) = .ok s' ↔
    ∃ c' body', Γ.expr c = .ok (c', .bool) ∧ Γ.block body = .ok body' ∧ s' = .while_ c' body' := by
  constructor
  · intro h
    obtain ⟨c', hc, h⟩ := bind_eq_ok.1 h
    obtain ⟨body', hbody, h⟩ := bind_eq_ok.1 h
    cases h
    exact ⟨c', body', condition_eq_ok.1 hc, hbody, rfl⟩
  · rintro ⟨c', body', hc, hbody, rfl⟩
    exact bind_eq_ok.2 ⟨_, condition_eq_ok.2 hc, bind_eq_ok.2 ⟨_, hbody, rfl⟩⟩

/-- The clauses of a conditional are checked where they are there. -/
theorem stmt_if {c : Expr} {body : List Stmt} {elif : Option (Expr × List Stmt)}
    {orElse : Option (List Stmt)} : Γ.stmt (.if_ c body elif orElse) = .ok s' ↔
    ∃ c' body' elif' orElse', Γ.expr c = .ok (c', .bool) ∧ Γ.block body = .ok body' ∧
      Option.Rel (fun d d' => Γ.expr d.1 = .ok (d'.1, .bool) ∧ Γ.block d.2 = .ok d'.2)
        elif elif' ∧
      Option.Rel (fun b b' => Γ.block b = .ok b') orElse orElse' ∧
      s' = .if_ c' body' elif' orElse' := by
  constructor
  · intro h
    cases elif with
    | none =>
      cases orElse with
      | none =>
        obtain ⟨c', hc, h⟩ := bind_eq_ok.1 h
        obtain ⟨body', hbody, h⟩ := bind_eq_ok.1 h
        cases h
        exact ⟨c', body', none, none, condition_eq_ok.1 hc, hbody, .none, .none, rfl⟩
      | some orElse =>
        obtain ⟨c', hc, h⟩ := bind_eq_ok.1 h
        obtain ⟨body', hbody, h⟩ := bind_eq_ok.1 h
        obtain ⟨orElse', horElse, h⟩ := bind_eq_ok.1 h
        cases h
        exact ⟨c', body', none, some orElse', condition_eq_ok.1 hc, hbody, .none, .some horElse,
          rfl⟩
    | some clause =>
      obtain ⟨d, other⟩ := clause
      cases orElse with
      | none =>
        obtain ⟨c', hc, h⟩ := bind_eq_ok.1 h
        obtain ⟨body', hbody, h⟩ := bind_eq_ok.1 h
        obtain ⟨d', hd, h⟩ := bind_eq_ok.1 h
        obtain ⟨other', hother, h⟩ := bind_eq_ok.1 h
        cases h
        exact ⟨c', body', some (d', other'), none, condition_eq_ok.1 hc, hbody,
          .some ⟨condition_eq_ok.1 hd, hother⟩, .none, rfl⟩
      | some orElse =>
        obtain ⟨c', hc, h⟩ := bind_eq_ok.1 h
        obtain ⟨body', hbody, h⟩ := bind_eq_ok.1 h
        obtain ⟨d', hd, h⟩ := bind_eq_ok.1 h
        obtain ⟨other', hother, h⟩ := bind_eq_ok.1 h
        obtain ⟨orElse', horElse, h⟩ := bind_eq_ok.1 h
        cases h
        exact ⟨c', body', some (d', other'), some orElse', condition_eq_ok.1 hc, hbody,
          .some ⟨condition_eq_ok.1 hd, hother⟩, .some horElse, rfl⟩
  · rintro ⟨c', body', elif', orElse', hc, hbody, helif, horElse, rfl⟩
    have hc := condition_eq_ok.2 hc
    cases helif with
    | none =>
      cases horElse with
      | none => exact bind_eq_ok.2 ⟨_, hc, bind_eq_ok.2 ⟨_, hbody, rfl⟩⟩
      | some horElse =>
        exact bind_eq_ok.2 ⟨_, hc, bind_eq_ok.2 ⟨_, hbody, bind_eq_ok.2 ⟨_, horElse, rfl⟩⟩⟩
    | some helif =>
      have hd := condition_eq_ok.2 helif.1
      cases horElse with
      | none =>
        exact bind_eq_ok.2 ⟨_, hc, bind_eq_ok.2 ⟨_, hbody, bind_eq_ok.2 ⟨_, hd,
          bind_eq_ok.2 ⟨_, helif.2, rfl⟩⟩⟩⟩
      | some horElse =>
        exact bind_eq_ok.2 ⟨_, hc, bind_eq_ok.2 ⟨_, hbody, bind_eq_ok.2 ⟨_, hd,
          bind_eq_ok.2 ⟨_, helif.2, bind_eq_ok.2 ⟨_, horElse, rfl⟩⟩⟩⟩⟩

end Context

/-! ## §4 Paths that return -/

namespace Stmt

theorem anyReturns_iff {ss : List Stmt} :
    anyReturns ss = true ↔ ∃ s ∈ ss, s.returns = true := by
  induction ss with
  | nil => simp [anyReturns]
  | cons s ss ih => simp [anyReturns, ih]

theorem returns_iff {s : Stmt} : s.returns = true ↔ s.Returns := by
  have any : ∀ {ss : List Stmt}, (∀ s ∈ ss, s.returns = true ↔ s.Returns) →
      (anyReturns ss = true ↔ ∃ s ∈ ss, s.Returns) := by
    intro ss each
    rw [anyReturns_iff]
    exact exists_congr fun s => and_congr_right fun hs => each s hs
  induction s with
  | pass => exact ⟨nofun, nofun⟩
  | assign target e => exact ⟨nofun, nofun⟩
  | expr e => exact ⟨nofun, nofun⟩
  | return_ e => exact ⟨fun _ => .return_ e, fun _ => rfl⟩
  | while_ c body ih => exact ⟨nofun, nofun⟩
  | if_ c body elif orElse ihbody ihelif ihelse =>
    rcases orElse with _ | orElse
    · rcases elif with _ | ⟨d, other⟩
      · exact ⟨nofun, nofun⟩
      · exact ⟨nofun, nofun⟩
    rcases elif with _ | ⟨d, other⟩
    · rw [returns, Bool.and_eq_true, any ihbody, any (ihelse orElse rfl)]
      constructor
      · rintro ⟨⟨s, hs, yes⟩, u, hu, no⟩
        exact .if_ c hs yes hu no
      · intro h
        cases h with
        | if_ _ hs yes hu no => exact ⟨⟨_, hs, yes⟩, _, hu, no⟩
    · rw [returns, Bool.and_eq_true, Bool.and_eq_true, any ihbody, any (ihelif (d, other) rfl),
        any (ihelse orElse rfl)]
      constructor
      · rintro ⟨⟨⟨s, hs, yes⟩, t, ht, maybe⟩, u, hu, no⟩
        exact .elif c d hs yes ht maybe hu no
      · intro h
        cases h with
        | elif _ _ hs yes ht maybe hu no => exact ⟨⟨⟨_, hs, yes⟩, _, ht, maybe⟩, _, hu, no⟩

end Stmt

end Serpent
