/-
Serpent.Proofs.Lookahead — a rule looks at the next token and no further.

What comes of a rule depends on the tokens that it takes and on the one behind them: where other
tokens stand behind that one, it gives the same, or fails at the same place. The fuel of a rule
depends on all tokens that are left, so it is shown first that more fuel than enough makes no
difference.

  §1 Rules that look one token ahead
  §2 Expressions with given fuel
  §3 Enough fuel for expressions
  §4 Statements on one line
  §5 Statements with given fuel
  §6 Enough fuel for statements
-/
import Serpent.Proofs.Derivation
import Serpent.Proofs.Embedding

namespace Serpent

namespace Rule

open Node

variable {α β : Type} {k : Nat} {ts : List Token}

/-! ## §1 Rules that look one token ahead -/

/-- What comes of a rule that takes the tokens `us` before `rest`: it gives something, or it fails
where `rest` starts. -/
def outcome (k : Nat) (us rest : List Token) : Option α → Except Nat (α × Cursor)
  | some a => .ok (a, ⟨k + us.length, rest⟩)
  | none => .error (k + us.length)

/-- At index `k`, before the tokens `ts`, the rule takes tokens and then looks at the next one:
whatever tokens stand behind the next one, the same comes of it. -/
def OneAhead (k : Nat) (ts : List Token) (r : Rule α) : Prop :=
  ∃ us rest o, ts = us ++ rest ∧
    ∀ rest', rest'.head? = rest.head? → r ⟨k, us ++ rest'⟩ = outcome k us rest' o

theorem outcome_inj {us us' rest rest' : List Token} {o o' : Option α}
    (tokens : us ++ rest = us' ++ rest') (h : outcome k us rest o = outcome k us' rest' o') :
    us = us' ∧ rest = rest' ∧ o = o' := by
  have lengths : us.length = us'.length ∧ o = o' := by
    cases o <;> cases o' <;> simp [outcome] at h ⊢
    · exact h
    · exact ⟨h.2.1, h.1⟩
  obtain ⟨rfl, rfl⟩ := List.append_inj tokens lengths.1
  exact ⟨rfl, rfl, lengths.2⟩

theorem head?_append_congr {us rest rest' : List Token} (h : rest'.head? = rest.head?) :
    (us ++ rest').head? = (us ++ rest).head? := by
  rw [List.head?_append, List.head?_append, h]

/-- The first step of a computation, and what is done after it. -/
theorem bind_apply (r : Rule α) (f : α → Rule β) (c : Cursor) :
    (r >>= f) c = r c >>= fun p => f p.1 p.2 := rfl

theorem OneAhead.bind {r : Rule α} {f : α → Rule β} (first : OneAhead k ts r)
    (after : ∀ us rest a, ts = us ++ rest → OneAhead (k + us.length) rest (f a)) :
    OneAhead k ts (r >>= f) := by
  obtain ⟨us, rest, o, rfl, first⟩ := first
  cases o with
  | none =>
    refine ⟨us, rest, none, rfl, fun rest' h => ?_⟩
    rw [bind_apply, first rest' h]
    rfl
  | some a =>
    obtain ⟨vs, rest, o, rfl, second⟩ := after us rest a rfl
    refine ⟨us ++ vs, rest, o, by simp, fun rest' h => ?_⟩
    -- the first rule looks at a token of the second, or at the one that the second looks at
    have taken := first (vs ++ rest') (head?_append_congr h)
    rw [bind_apply, List.append_assoc, taken]
    refine (second rest' h).trans ?_
    cases o <;> simp [outcome, Nat.add_assoc]

theorem oneAhead_pure {a : α} : OneAhead k ts (pure a) :=
  ⟨[], ts, some a, rfl, fun _ _ => rfl⟩

theorem oneAhead_reject : OneAhead k ts (reject : Rule α) :=
  ⟨[], ts, none, rfl, fun _ _ => rfl⟩

theorem oneAhead_peek {f : Option Token → Rule α} (h : OneAhead k ts (f ts.head?)) :
    OneAhead k ts (peek >>= f) := by
  obtain ⟨us, rest, o, rfl, h⟩ := h
  refine ⟨us, rest, o, rfl, fun rest' same => ?_⟩
  rw [← h rest' same, ← head?_append_congr same]
  rfl

theorem oneAhead_here {f : Nat → Rule α} (h : OneAhead k ts (f k)) :
    OneAhead k ts (here >>= f) := h

/-- A rule that asks for the next token only. -/
theorem oneAhead_step {r : Rule α} (g : Token → Option α) (nil : ∀ i, r ⟨i, []⟩ = .error i)
    (cons : ∀ i t rest, r ⟨i, t :: rest⟩ =
      match g t with
      | some a => .ok (a, ⟨i + 1, rest⟩)
      | none => .error i) : OneAhead k ts r := by
  cases ts with
  | nil =>
    refine ⟨[], [], none, rfl, fun rest' h => ?_⟩
    rw [List.head?_eq_none_iff.1 h]
    exact nil k
  | cons t rest =>
    cases found : g t with
    | some a =>
      refine ⟨[t], rest, some a, rfl, fun rest' _ => ?_⟩
      rw [List.singleton_append, cons, found]
      rfl
    | none =>
      refine ⟨[], t :: rest, none, rfl, fun rest' h => ?_⟩
      obtain ⟨rest', rfl⟩ := List.head?_eq_some_iff.1 h
      rw [List.nil_append, cons, found]
      rfl

theorem oneAhead_advance : OneAhead k ts advance :=
  oneAhead_step (fun _ => some ()) (fun _ => rfl) fun _ _ _ => rfl

theorem oneAhead_expect {t : Token} : OneAhead k ts (expect t) := by
  refine oneAhead_step (fun u => if u = t then some () else none) (fun _ => rfl) ?_
  intro i u rest
  by_cases same : u = t <;> simp [expect, same]

theorem oneAhead_leaf {kind : Kind} : OneAhead k ts (leaf kind) :=
  oneAhead_here (oneAhead_advance.bind fun _ _ _ _ => oneAhead_pure)

theorem oneAhead_name {kind : Kind} : OneAhead k ts (name kind) := by
  refine oneAhead_peek ?_
  split
  · exact oneAhead_leaf
  · exact oneAhead_reject

theorem oneAhead_close {kind : Kind} {first : Nat} {children : List Node} :
    OneAhead k ts (close kind first children) :=
  oneAhead_here oneAhead_pure

theorem oneAhead_optional {t : Token} {r : Rule α} (h : OneAhead k ts r) :
    OneAhead k ts (optional t r) := by
  refine oneAhead_peek ?_
  split
  · exact h.bind fun _ _ _ _ => oneAhead_pure
  · exact oneAhead_pure

/-- A rule takes tokens from the front. -/
theorem OneAhead.shrinks {r : Rule α} (h : OneAhead k ts r) {a : α} {c : Cursor}
    (ok : r ⟨k, ts⟩ = .ok (a, c)) : c.rest.length ≤ ts.length := by
  obtain ⟨us, rest, o, rfl, h⟩ := h
  rw [h rest rfl] at ok
  cases o with
  | none => cases ok
  | some b =>
    cases ok
    simp

/-! ## §2 Expressions with given fuel -/

/-- Every rule for expressions looks one token ahead. -/
structure ExprOneAhead (fuel : Nat) : Prop where
  expressionWithin : ∀ k ts level, OneAhead k ts (expressionWithin fuel level)
  operand : ∀ k ts, OneAhead k ts (operand fuel)
  operations : ∀ k ts level left, OneAhead k ts (operations fuel level left)
  atom : ∀ k ts, OneAhead k ts (atom fuel)
  trailers : ∀ k ts target, OneAhead k ts (trailers fuel target)
  argList : ∀ k ts, OneAhead k ts (argList fuel)
  arguments : ∀ k ts, OneAhead k ts (arguments fuel)

theorem exprOneAhead (fuel : Nat) : ExprOneAhead fuel := by
  induction fuel with
  | zero =>
    constructor
    all_goals intros; exact oneAhead_reject
  | succ fuel ih =>
    constructor
    case expressionWithin =>
      intro k ts level
      exact (ih.operand k ts).bind fun us rest first _ => ih.operations _ rest level first
    case operand =>
      intro k ts
      refine oneAhead_peek ?_
      split
      · refine oneAhead_leaf.bind fun us rest op _ => ?_
        exact (ih.expressionWithin _ rest _).bind fun _ _ _ _ => oneAhead_pure
      · exact (ih.atom k ts).bind fun us rest base _ => ih.trailers _ rest base
    case operations =>
      intro k ts level left
      refine oneAhead_peek ?_
      split
      · exact oneAhead_pure
      · split
        · exact oneAhead_pure
        · split
          · exact oneAhead_pure
          · refine oneAhead_leaf.bind fun us rest op _ => ?_
            refine (ih.expressionWithin _ rest _).bind fun us rest right _ => ?_
            exact ih.operations _ rest level _
    case atom =>
      intro k ts
      refine oneAhead_peek ?_
      split
      · exact oneAhead_leaf
      · refine oneAhead_here (oneAhead_expect.bind fun us rest _ _ => ?_)
        refine (ih.expressionWithin _ rest 0).bind fun us rest inner _ => ?_
        exact oneAhead_expect.bind fun _ _ _ _ => oneAhead_close
    case trailers =>
      intro k ts target
      refine oneAhead_peek ?_
      split
      · refine oneAhead_advance.bind fun us rest _ _ => ?_
        exact oneAhead_name.bind fun us rest member _ => ih.trailers _ rest _
      · exact (ih.argList k ts).bind fun us rest args _ => ih.trailers _ rest _
      · exact oneAhead_pure
    case argList =>
      intro k ts
      refine oneAhead_here (oneAhead_expect.bind fun us rest _ _ => ?_)
      refine (ih.arguments _ rest).bind fun us rest args _ => ?_
      exact oneAhead_expect.bind fun _ _ _ _ => oneAhead_close
    case arguments =>
      intro k ts
      refine oneAhead_peek ?_
      split
      · exact oneAhead_pure
      · refine (ih.expressionWithin k ts 0).bind fun us rest arg _ => oneAhead_peek ?_
        split
        · refine oneAhead_advance.bind fun us rest _ _ => ?_
          exact (ih.arguments _ rest).bind fun _ _ _ _ => oneAhead_pure
        · exact oneAhead_pure

/-! ## §3 Enough fuel for expressions -/

variable {c : Cursor}

/-- The same comes of both rules at the cursor. -/
def Agree (c : Cursor) (r r' : Rule α) : Prop := r c = r' c

theorem Agree.rfl {r : Rule α} : Agree c r r := by
  unfold Agree
  rfl

theorem Agree.bind {r r' : Rule α} {f f' : α → Rule β} (first : Agree c r r')
    (after : ∀ a c', r c = .ok (a, c') → Agree c' (f a) (f' a)) : Agree c (r >>= f) (r' >>= f') := by
  rw [Agree, bind_apply, bind_apply, ← first]
  cases given : r c with
  | error i => rfl
  | ok p => exact after p.1 p.2 given

/-- Both computations have the same first step. -/
theorem agree_bind {r : Rule α} {f f' : α → Rule β}
    (after : ∀ a c', r c = .ok (a, c') → Agree c' (f a) (f' a)) : Agree c (r >>= f) (r >>= f') :=
  Agree.rfl.bind after

theorem agree_peek {f f' : Option Token → Rule α} (h : Agree c (f c.rest.head?) (f' c.rest.head?)) :
    Agree c (peek >>= f) (peek >>= f') := h

theorem agree_here {f f' : Nat → Rule α} (h : Agree c (f c.index) (f' c.index)) :
    Agree c (here >>= f) (here >>= f') := h

/-- After a token there is one token less. -/
theorem length_of_advance {a : Unit} {c' : Cursor} (h : advance c = .ok (a, c')) :
    c'.rest.length < c.rest.length := by
  obtain ⟨i, _ | ⟨t, rest⟩⟩ := c
  · cases h
  · cases h
    exact Nat.lt_succ_self _

theorem length_of_expect {t : Token} {a : Unit} {c' : Cursor} (h : expect t c = .ok (a, c')) :
    c'.rest.length < c.rest.length := by
  obtain ⟨i, _ | ⟨u, rest⟩⟩ := c
  · cases h
  · unfold expect at h
    simp only at h
    split at h
    · cases h
      exact Nat.lt_succ_self _
    · cases h

theorem length_of_leaf {kind : Kind} {n : Node} {c' : Cursor} (h : leaf kind c = .ok (n, c')) :
    c'.rest.length < c.rest.length := by
  obtain ⟨i, c₁, here, h⟩ := bind_eq_ok.1 h
  cases here
  obtain ⟨a, c₂, advanced, h⟩ := bind_eq_ok.1 h
  cases h
  exact length_of_advance advanced

theorem length_of_argList {fuel : Nat} {n : Node} {c' : Cursor}
    (h : argList fuel c = .ok (n, c')) : c'.rest.length < c.rest.length := by
  obtain ⟨us, rest, split, rfl, ⟨_⟩⟩ := (Grammar.exprDerives fuel).argList c.index c.rest n c' h
  rw [split]
  simp +arith

/-- With enough fuel, one more makes no difference to the rules for expressions. -/
structure ExprSettled (fuel : Nat) : Prop where
  expressionWithin : ∀ c level, 5 * c.rest.length + 4 ≤ fuel →
    Agree c (expressionWithin fuel level) (expressionWithin (fuel + 1) level)
  operand : ∀ c, 5 * c.rest.length + 3 ≤ fuel → Agree c (operand fuel) (operand (fuel + 1))
  operations : ∀ c level left, 5 * c.rest.length + 1 ≤ fuel →
    Agree c (operations fuel level left) (operations (fuel + 1) level left)
  atom : ∀ c, 5 * c.rest.length + 1 ≤ fuel → Agree c (atom fuel) (atom (fuel + 1))
  trailers : ∀ c target, 5 * c.rest.length + 2 ≤ fuel →
    Agree c (trailers fuel target) (trailers (fuel + 1) target)
  argList : ∀ c, 5 * c.rest.length + 1 ≤ fuel → Agree c (argList fuel) (argList (fuel + 1))
  arguments : ∀ c, 5 * c.rest.length + 5 ≤ fuel → Agree c (arguments fuel) (arguments (fuel + 1))

theorem exprSettled (fuel : Nat) : ExprSettled fuel := by
  induction fuel with
  | zero =>
    constructor
    all_goals intros; omega
  | succ fuel ih =>
    have ahead := exprOneAhead fuel
    constructor
    case expressionWithin =>
      intro c level enough
      refine (ih.operand c (by omega)).bind fun first c' ok => ?_
      have := (ahead.operand c.index c.rest).shrinks ok
      exact ih.operations c' level first (by omega)
    case operand =>
      intro c enough
      refine agree_peek ?_
      split
      · refine agree_bind fun op c' ok => ?_
        have := length_of_leaf ok
        exact (ih.expressionWithin c' _ (by omega)).bind fun _ _ _ => .rfl
      · refine (ih.atom c (by omega)).bind fun base c' ok => ?_
        have := (ahead.atom c.index c.rest).shrinks ok
        exact ih.trailers c' base (by omega)
    case operations =>
      intro c level left enough
      refine agree_peek ?_
      split
      · exact .rfl
      · split
        · exact .rfl
        · split
          · exact .rfl
          · refine agree_bind fun op c' ok => ?_
            have := length_of_leaf ok
            refine (ih.expressionWithin c' _ (by omega)).bind fun right c₂ ok => ?_
            have := (ahead.expressionWithin c'.index c'.rest _).shrinks ok
            exact ih.operations c₂ level _ (by omega)
    case atom =>
      intro c enough
      refine agree_peek ?_
      split
      · exact .rfl
      · refine agree_here (agree_bind fun _ c' ok => ?_)
        have := length_of_expect ok
        exact (ih.expressionWithin c' 0 (by omega)).bind fun _ _ _ => .rfl
    case trailers =>
      intro c target enough
      refine agree_peek ?_
      split
      · refine agree_bind fun _ c' ok => ?_
        have := length_of_advance ok
        refine agree_bind fun member c₂ ok => ?_
        have := OneAhead.shrinks (oneAhead_name (k := c'.index)) ok
        exact ih.trailers c₂ _ (by omega)
      · refine (ih.argList c (by omega)).bind fun args c' ok => ?_
        have := length_of_argList ok
        exact ih.trailers c' _ (by omega)
      · exact .rfl
    case argList =>
      intro c enough
      refine agree_here (agree_bind fun _ c' ok => ?_)
      have := length_of_expect ok
      exact (ih.arguments c' (by omega)).bind fun _ _ _ => .rfl
    case arguments =>
      intro c enough
      refine agree_peek ?_
      split
      · exact .rfl
      · refine (ih.expressionWithin c 0 (by omega)).bind fun arg c' ok => agree_peek ?_
        have := (ahead.expressionWithin c.index c.rest 0).shrinks ok
        split
        · refine agree_bind fun _ c₂ ok => ?_
          have := length_of_advance ok
          exact (ih.arguments c₂ (by omega)).bind fun _ _ _ => .rfl
        · exact .rfl

/-- Where one more makes no difference from `bound` on, no amount of fuel does. -/
theorem eq_of_settled {r : Nat → Rule α} {bound fuel : Nat} (enough : bound ≤ fuel)
    (settled : ∀ fuel, bound ≤ fuel → Agree c (r fuel) (r (fuel + 1))) :
    r fuel c = r bound c := by
  induction enough with
  | refl => rfl
  | step le ih => exact (settled _ le).symm.trans ih

/-- A rule with fuel for all tokens that are left looks one token ahead if it does so with any fuel,
and the fuel is enough. -/
theorem oneAhead_remaining {r : Nat → Rule α} (ahead : ∀ fuel k ts, OneAhead k ts (r fuel))
    (settled : ∀ c fuel, depthBound c.rest.length ≤ fuel → Agree c (r fuel) (r (fuel + 1))) :
    OneAhead k ts (remaining >>= fun n => r (depthBound n)) := by
  have same (ts : List Token) (fuel : Nat) (enough : depthBound ts.length ≤ fuel) :
      (remaining >>= fun n => r (depthBound n)) ⟨k, ts⟩ = r fuel ⟨k, ts⟩ :=
    (eq_of_settled enough fun fuel => settled ⟨k, ts⟩ fuel).symm
  obtain ⟨us, rest, o, rfl, h⟩ := ahead (depthBound ts.length) k ts
  refine ⟨us, rest, o, rfl, fun rest' next => ?_⟩
  -- both lists are read with fuel that is enough for both of them
  generalize large : max (depthBound (us ++ rest).length) (depthBound (us ++ rest').length) = fuel
  obtain ⟨us', rest₁, o', tokens, h'⟩ := ahead fuel k (us ++ rest)
  have here : outcome k us rest o = outcome k us' rest₁ o' := by
    rw [← h rest rfl, ← h' rest₁ rfl, ← tokens, ← same (us ++ rest) fuel (by omega)]
    rfl
  obtain ⟨rfl, rfl, rfl⟩ := outcome_inj tokens here
  rw [same (us ++ rest') fuel (by omega), h' rest' next]

theorem oneAhead_expression : OneAhead k ts expression :=
  oneAhead_remaining (fun fuel k ts => (exprOneAhead fuel).expressionWithin k ts 0)
    fun c fuel enough => (exprSettled fuel).expressionWithin c 0 (by unfold depthBound at enough; omega)

theorem oneAhead_parenthesized : OneAhead k ts parenthesized :=
  oneAhead_remaining (fun fuel => (exprOneAhead fuel).argList)
    fun c fuel enough => (exprSettled fuel).argList c (by unfold depthBound at enough; omega)

/-! ## §4 Statements on one line -/

theorem oneAhead_typeAfter {mark : Symbol} : OneAhead k ts (typeAfter mark) := by
  refine oneAhead_here (oneAhead_expect.bind fun _ _ _ _ => ?_)
  exact oneAhead_expression.bind fun _ _ _ _ => oneAhead_close

theorem oneAhead_initialValue : OneAhead k ts initialValue :=
  oneAhead_expect.bind fun _ _ _ _ => oneAhead_expression

theorem oneAhead_assignment : OneAhead k ts assignment := by
  refine oneAhead_here (oneAhead_expression.bind fun _ _ _ _ => ?_)
  refine (oneAhead_optional oneAhead_typeAfter).bind fun _ _ _ _ => ?_
  refine (oneAhead_optional oneAhead_initialValue).bind fun _ _ _ _ => ?_
  split <;> exact oneAhead_close

theorem oneAhead_returned : OneAhead k ts returned := by
  refine oneAhead_here (oneAhead_expect.bind fun _ _ _ _ => oneAhead_peek ?_)
  split
  · exact oneAhead_close
  · exact oneAhead_expression.bind fun _ _ _ _ => oneAhead_close

theorem oneAhead_simple : OneAhead k ts simple := by
  have ended {k : Nat} {ts : List Token} {stmt : Node} :
      OneAhead k ts (do expect .newline; return stmt) :=
    oneAhead_expect.bind fun _ _ _ _ => oneAhead_pure
  refine oneAhead_peek ?_
  split
  · exact oneAhead_leaf.bind fun _ _ _ _ => ended
  · exact oneAhead_returned.bind fun _ _ _ _ => ended
  · exact oneAhead_assignment.bind fun _ _ _ _ => ended

theorem oneAhead_parameter : OneAhead k ts parameter := by
  refine oneAhead_here (oneAhead_name.bind fun _ _ _ _ => ?_)
  exact (oneAhead_optional oneAhead_typeAfter).bind fun _ _ _ _ => oneAhead_close

theorem oneAhead_parameters (fuel k : Nat) (ts : List Token) : OneAhead k ts (parameters fuel) := by
  induction fuel generalizing k ts with
  | zero => exact oneAhead_reject
  | succ fuel ih =>
    refine oneAhead_peek ?_
    split
    · exact oneAhead_pure
    · refine oneAhead_parameter.bind fun _ _ _ _ => oneAhead_peek ?_
      split
      · refine oneAhead_advance.bind fun _ _ _ _ => ?_
        exact (ih _ _).bind fun _ _ _ _ => oneAhead_pure
      · exact oneAhead_pure

theorem parameters_settled (fuel : Nat) (c : Cursor) (enough : c.rest.length + 1 ≤ fuel) :
    Agree c (parameters fuel) (parameters (fuel + 1)) := by
  induction fuel generalizing c with
  | zero => omega
  | succ fuel ih =>
    refine agree_peek ?_
    split
    · exact .rfl
    · refine agree_bind fun param c' ok => agree_peek ?_
      have := OneAhead.shrinks (oneAhead_parameter (k := c.index)) ok
      split
      · refine agree_bind fun _ c₂ ok => ?_
        have := length_of_advance ok
        exact (ih c₂ (by omega)).bind fun _ _ _ => .rfl
      · exact .rfl

theorem oneAhead_paramList : OneAhead k ts paramList := by
  refine oneAhead_here (oneAhead_expect.bind fun _ _ _ _ => ?_)
  rw [← bind_assoc]
  refine OneAhead.bind ?_ fun _ _ _ _ => ?_
  · refine oneAhead_remaining oneAhead_parameters fun c fuel enough => ?_
    exact parameters_settled fuel c (by unfold depthBound at enough; omega)
  · exact oneAhead_expect.bind fun _ _ _ _ => oneAhead_close

/-! ## §5 Statements with given fuel -/

/-- Every rule for statements looks one token ahead. -/
structure StmtOneAhead (fuel : Nat) : Prop where
  statement : ∀ k ts, OneAhead k ts (statement fuel)
  body : ∀ k ts, OneAhead k ts (body fuel)
  statements : ∀ k ts, OneAhead k ts (statements fuel)
  elifClauses : ∀ k ts, OneAhead k ts (elifClauses fuel)
  elseClause : ∀ k ts, OneAhead k ts (elseClause fuel)

theorem stmtOneAhead (fuel : Nat) : StmtOneAhead fuel := by
  induction fuel with
  | zero =>
    constructor
    all_goals intros; exact oneAhead_reject
  | succ fuel ih =>
    constructor
    case statement =>
      intro k ts
      refine oneAhead_here (oneAhead_peek ?_)
      split
      · refine oneAhead_advance.bind fun _ _ _ _ => oneAhead_expression.bind fun _ _ _ _ => ?_
        refine (ih.body _ _).bind fun _ _ _ _ => (ih.elifClauses _ _).bind fun _ _ _ _ => ?_
        exact (oneAhead_optional (ih.elseClause _ _)).bind fun _ _ _ _ => oneAhead_close
      · refine oneAhead_advance.bind fun _ _ _ _ => oneAhead_expression.bind fun _ _ _ _ => ?_
        exact (ih.body _ _).bind fun _ _ _ _ => oneAhead_close
      · refine oneAhead_advance.bind fun _ _ _ _ => oneAhead_name.bind fun _ _ _ _ => ?_
        refine oneAhead_paramList.bind fun _ _ _ _ => ?_
        refine (oneAhead_optional oneAhead_typeAfter).bind fun _ _ _ _ => ?_
        exact (ih.body _ _).bind fun _ _ _ _ => oneAhead_close
      · refine oneAhead_advance.bind fun _ _ _ _ => oneAhead_name.bind fun _ _ _ _ => ?_
        refine (oneAhead_optional oneAhead_parenthesized).bind fun _ _ _ _ => ?_
        exact (ih.body _ _).bind fun _ _ _ _ => oneAhead_close
      · exact oneAhead_simple
    case body =>
      intro k ts
      refine oneAhead_here (oneAhead_expect.bind fun _ _ _ _ => oneAhead_peek ?_)
      split
      · refine oneAhead_advance.bind fun _ _ _ _ => oneAhead_expect.bind fun _ _ _ _ => ?_
        refine (ih.statement _ _).bind fun _ _ _ _ => (ih.statements _ _).bind fun _ _ _ _ => ?_
        exact oneAhead_expect.bind fun _ _ _ _ => oneAhead_close
      · exact oneAhead_simple.bind fun _ _ _ _ => oneAhead_close
    case statements =>
      intro k ts
      refine oneAhead_peek ?_
      split
      · exact oneAhead_pure
      · exact oneAhead_pure
      · refine (ih.statement k ts).bind fun _ _ _ _ => ?_
        exact (ih.statements _ _).bind fun _ _ _ _ => oneAhead_pure
    case elifClauses =>
      intro k ts
      refine oneAhead_peek ?_
      split
      · refine oneAhead_here (oneAhead_advance.bind fun _ _ _ _ => ?_)
        refine oneAhead_expression.bind fun _ _ _ _ => (ih.body _ _).bind fun _ _ _ _ => ?_
        refine oneAhead_close.bind fun _ _ _ _ => ?_
        exact (ih.elifClauses _ _).bind fun _ _ _ _ => oneAhead_pure
      · exact oneAhead_pure
    case elseClause =>
      intro k ts
      refine oneAhead_here (oneAhead_expect.bind fun _ _ _ _ => ?_)
      exact (ih.body _ _).bind fun _ _ _ _ => oneAhead_close

/-! ## §6 Enough fuel for statements -/

/-- With enough fuel, one more makes no difference to the rules for statements. -/
structure StmtSettled (fuel : Nat) : Prop where
  statement : ∀ c, c.rest.length + 1 ≤ fuel → Agree c (statement fuel) (statement (fuel + 1))
  body : ∀ c, c.rest.length + 1 ≤ fuel → Agree c (body fuel) (body (fuel + 1))
  statements : ∀ c, c.rest.length + 2 ≤ fuel → Agree c (statements fuel) (statements (fuel + 1))
  elifClauses : ∀ c, c.rest.length + 1 ≤ fuel → Agree c (elifClauses fuel) (elifClauses (fuel + 1))
  elseClause : ∀ c, c.rest.length + 1 ≤ fuel → Agree c (elseClause fuel) (elseClause (fuel + 1))

theorem stmtSettled (fuel : Nat) : StmtSettled fuel := by
  induction fuel with
  | zero =>
    constructor
    all_goals intros; omega
  | succ fuel ih =>
    have ahead := stmtOneAhead fuel
    constructor
    case statement =>
      intro c enough
      refine agree_here (agree_peek ?_)
      split
      · refine agree_bind fun _ c' ok => ?_
        have := length_of_advance ok
        refine agree_bind fun cond c₁ ok => ?_
        have := OneAhead.shrinks (oneAhead_expression (k := c'.index)) ok
        refine (ih.body c₁ (by omega)).bind fun block c₂ ok => ?_
        have := (ahead.body c₁.index c₁.rest).shrinks ok
        refine (ih.elifClauses c₂ (by omega)).bind fun elifs c₃ ok => ?_
        have := (ahead.elifClauses c₂.index c₂.rest).shrinks ok
        refine Agree.bind (agree_peek ?_) fun _ _ _ => .rfl
        split
        · exact (ih.elseClause c₃ (by omega)).bind fun _ _ _ => .rfl
        · exact .rfl
      · refine agree_bind fun _ c' ok => ?_
        have := length_of_advance ok
        refine agree_bind fun cond c₁ ok => ?_
        have := OneAhead.shrinks (oneAhead_expression (k := c'.index)) ok
        exact (ih.body c₁ (by omega)).bind fun _ _ _ => .rfl
      · refine agree_bind fun _ c' ok => ?_
        have := length_of_advance ok
        refine agree_bind fun x c₁ ok => ?_
        have := OneAhead.shrinks (oneAhead_name (k := c'.index)) ok
        refine agree_bind fun params c₂ ok => ?_
        have := OneAhead.shrinks (oneAhead_paramList (k := c₁.index)) ok
        refine agree_bind fun result c₃ ok => ?_
        have := OneAhead.shrinks (oneAhead_optional (oneAhead_typeAfter (k := c₂.index))) ok
        exact (ih.body c₃ (by omega)).bind fun _ _ _ => .rfl
      · refine agree_bind fun _ c' ok => ?_
        have := length_of_advance ok
        refine agree_bind fun x c₁ ok => ?_
        have := OneAhead.shrinks (oneAhead_name (k := c'.index)) ok
        refine agree_bind fun parents c₂ ok => ?_
        have := OneAhead.shrinks (oneAhead_optional (oneAhead_parenthesized (k := c₁.index))) ok
        exact (ih.body c₂ (by omega)).bind fun _ _ _ => .rfl
      · exact .rfl
    case body =>
      intro c enough
      refine agree_here (agree_bind fun _ c' ok => agree_peek ?_)
      have := length_of_expect ok
      split
      · refine agree_bind fun _ c₁ ok => ?_
        have := length_of_advance ok
        refine agree_bind fun _ c₂ ok => ?_
        have := length_of_expect ok
        refine (ih.statement c₂ (by omega)).bind fun stmt c₃ ok => ?_
        have := (ahead.statement c₂.index c₂.rest).shrinks ok
        exact (ih.statements c₃ (by omega)).bind fun _ _ _ => .rfl
      · exact .rfl
    case statements =>
      intro c enough
      refine agree_peek ?_
      split
      · exact .rfl
      · exact .rfl
      · refine (ih.statement c (by omega)).bind fun stmt c' ok => ?_
        have := progresses_statement fuel stmt c' ok
        exact (ih.statements c' (by omega)).bind fun _ _ _ => .rfl
    case elifClauses =>
      intro c enough
      refine agree_peek ?_
      split
      · refine agree_here (agree_bind fun _ c' ok => ?_)
        have := length_of_advance ok
        refine agree_bind fun cond c₁ ok => ?_
        have := OneAhead.shrinks (oneAhead_expression (k := c'.index)) ok
        refine (ih.body c₁ (by omega)).bind fun block c₂ ok => ?_
        have := (ahead.body c₁.index c₁.rest).shrinks ok
        refine agree_bind fun clause c₃ ok => ?_
        have := OneAhead.shrinks (oneAhead_close (k := c₂.index)) ok
        exact (ih.elifClauses c₃ (by omega)).bind fun _ _ _ => .rfl
      · exact .rfl
    case elseClause =>
      intro c enough
      refine agree_here (agree_bind fun _ c' ok => ?_)
      have := length_of_expect ok
      exact (ih.body c' (by omega)).bind fun _ _ _ => .rfl

/-- The rule for a whole script looks one token ahead. -/
theorem oneAhead_script : OneAhead k ts script := by
  refine oneAhead_here ?_
  rw [← bind_assoc]
  refine OneAhead.bind ?_ fun _ _ _ _ => oneAhead_peek ?_
  · refine oneAhead_remaining (fun fuel => (stmtOneAhead fuel).statements) fun c fuel enough => ?_
    exact (stmtSettled fuel).statements c (by unfold depthBound at enough; omega)
  · split
    · exact oneAhead_close
    · exact oneAhead_reject

end Rule

theorem Node.script_of_ofTokens {ts : List Token} {i : Nat} (h : ofTokens ts = .error i) :
    Rule.script ⟨0, ts⟩ = .error i := by
  have h : (Rule.script ⟨0, ts⟩).map (·.1) = .error i := h
  cases outcome : Rule.script ⟨0, ts⟩ with
  | error j =>
    rw [outcome] at h
    cases h
    rfl
  | ok p =>
    rw [outcome] at h
    cases h

/-- Where a token cannot follow, it cannot whatever tokens come behind it. -/
theorem Node.ofTokens_error_of_take {ts ts' : List Token} {i : Nat} (h : ofTokens ts = .error i)
    (same : ts'.take (i + 1) = ts.take (i + 1)) : ofTokens ts' = .error i := by
  have failed := script_of_ofTokens h
  obtain ⟨us, rest, o, rfl, ahead⟩ := @Rule.oneAhead_script 0 ts
  rw [ahead rest rfl] at failed
  cases o with
  | some n => cases failed
  | none =>
    obtain rfl : us.length = i := by
      cases failed
      simp
    have before : us <+: ts' := by
      have := congrArg (List.take us.length) same
      simp only [List.take_take, Nat.min_eq_left (Nat.le_succ _), List.take_left'] at this
      exact List.prefix_iff_eq_take.2 this.symm
    obtain ⟨rest', rfl⟩ := before
    have next : rest'.head? = rest.head? := by
      rw [List.take_length_add_append, List.take_length_add_append] at same
      simpa [List.head?_take] using congrArg List.head? (List.append_cancel_left same)
    change (Rule.script ⟨0, us ++ rest'⟩).map (·.1) = _
    rw [ahead rest' next, Rule.outcome, Nat.zero_add]
    rfl

end Serpent
