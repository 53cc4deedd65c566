/-
Serpent.Proofs.Derivation — what the rules read is derived by the grammar.

Whenever a rule succeeds, the tokens that it took have a derivation, and what it gives is the tree
of the derivation. The rules for operators carry one more fact along: the token behind what they
took is no binary operator that belongs to it. That is what lets an operator take all that was read
before it as its left operand.

  §1 What a rule takes and gives
  §2 Expressions
  §3 Statements on one line
  §4 Statements with blocks
-/
import Serpent.Proofs.Grammar
import Serpent.Proofs.Shape

namespace Serpent

/-! ## §1 What a rule takes and gives -/

namespace Rule

variable {α β : Type} {k : Nat} {ts : List Token}

/-- Where the rule succeeds at index `k`, before the tokens `ts`, it takes tokens from their front,
and `P` holds of those, of the tokens behind them and of what the rule gives. -/
def Yields (k : Nat) (ts : List Token) (r : Rule α) (P : List Token → List Token → α → Prop) :
    Prop :=
  ∀ a c', r ⟨k, ts⟩ = .ok (a, c') →
    ∃ us rest, ts = us ++ rest ∧ c' = ⟨k + us.length, rest⟩ ∧ P us rest a

theorem Yields.bind {r : Rule α} {f : α → Rule β} {P : List Token → List Token → α → Prop}
    {Q : List Token → List Token → β → Prop} (first : Yields k ts r P)
    (after : ∀ us rest a, P us rest a →
      Yields (k + us.length) rest (f a) fun vs rest' => Q (us ++ vs) rest') :
    Yields k ts (r >>= f) Q := by
  intro b c' h
  obtain ⟨a, c₁, hr, hf⟩ := bind_eq_ok.1 h
  obtain ⟨us, rest, rfl, rfl, ha⟩ := first a c₁ hr
  obtain ⟨vs, rest', rfl, rfl, hb⟩ := after us rest a ha b c' hf
  exact ⟨us ++ vs, rest', by simp, by simp [Nat.add_assoc], hb⟩

theorem Yields.imp {r : Rule α} {P Q : List Token → List Token → α → Prop} (h : Yields k ts r P)
    (imp : ∀ us rest a, P us rest a → Q us rest a) : Yields k ts r Q := by
  intro a c' hr
  obtain ⟨us, rest, hts, hc, ha⟩ := h a c' hr
  exact ⟨us, rest, hts, hc, imp us rest a ha⟩

/-- After the last token nothing more is taken. -/
theorem Yields.last {r : Rule α} {f : α → Rule β} {P : List Token → List Token → α → Prop}
    {Q : List Token → List Token → β → Prop} (first : Yields k ts r P)
    (after : ∀ us rest a, P us rest a →
      Yields (k + us.length) rest (f a) fun vs rest' b => vs = [] ∧ Q us rest' b) :
    Yields k ts (r >>= f) Q := by
  refine first.bind fun us rest a ha => (after us rest a ha).imp fun vs rest' b hb => ?_
  obtain ⟨rfl, hb⟩ := hb
  rwa [List.append_nil]

theorem yields_pure {a : α} {P : List Token → List Token → α → Prop} (h : P [] ts a) :
    Yields k ts (pure a) P := by
  intro b c' hr
  cases hr
  exact ⟨[], ts, rfl, rfl, h⟩

theorem yields_reject {P : List Token → List Token → α → Prop} : Yields k ts reject P := by
  intro _ _ hr
  cases hr

theorem yields_peek {f : Option Token → Rule α} {P : List Token → List Token → α → Prop}
    (h : Yields k ts (f ts.head?) P) : Yields k ts (peek >>= f) P := h

theorem yields_here {f : Nat → Rule α} {P : List Token → List Token → α → Prop}
    (h : Yields k ts (f k) P) : Yields k ts (here >>= f) P := h

theorem yields_remaining {f : Nat → Rule α} {P : List Token → List Token → α → Prop}
    (h : Yields k ts (f ts.length) P) : Yields k ts (remaining >>= f) P := h

/-- A rule that takes one token goes on at the next index. -/
theorem Yields.cons {r : Rule α} {f : α → Rule β} {t : Token} {P : α → Prop}
    {Q : List Token → List Token → β → Prop} (first : Yields k ts r fun us _ a => us = [t] ∧ P a)
    (after : ∀ rest a, P a → Yields (k + 1) rest (f a) fun vs rest' => Q (t :: vs) rest') :
    Yields k ts (r >>= f) Q := by
  refine first.bind fun us rest a ⟨hus, ha⟩ => ?_
  subst hus
  exact after rest a ha

theorem yields_advance {t : Token} {f : Unit → Rule α} {P : List Token → List Token → α → Prop}
    (next : ts.head? = some t)
    (after : ∀ rest, Yields (k + 1) rest (f ()) fun us rest' => P (t :: us) rest') :
    Yields k ts (advance >>= f) P := by
  obtain ⟨rest, rfl⟩ := List.head?_eq_some_iff.1 next
  have first : Yields k (t :: rest) advance fun us _ _ => us = [t] ∧ True := by
    intro a c' hr
    cases hr
    exact ⟨[t], rest, rfl, rfl, rfl, trivial⟩
  exact first.cons fun rest _ _ => after rest

theorem yields_expect {t : Token} {f : Unit → Rule α} {P : List Token → List Token → α → Prop}
    (after : ∀ rest, Yields (k + 1) rest (f ()) fun us rest' => P (t :: us) rest') :
    Yields k ts (expect t >>= f) P := by
  have first : Yields k ts (expect t) fun us _ _ => us = [t] ∧ True := by
    intro a c' hr
    cases ts with
    | nil => cases hr
    | cons u rest =>
      unfold expect at hr
      dsimp only at hr
      split at hr
      · rename_i same
        cases hr
        exact ⟨[u], rest, rfl, rfl, by rw [same], trivial⟩
      · cases hr
  exact first.cons fun rest _ _ => after rest

theorem yields_leaf {kind : Kind} {t : Token} (next : ts.head? = some t) :
    Yields k ts (leaf kind) fun us _ n => us = [t] ∧ n = .mk kind k (k + 1) [] :=
  yields_here (yields_advance next fun _ => yields_pure ⟨rfl, rfl⟩)

theorem yields_name {kind : Kind} {f : Node → Rule α} {P : List Token → List Token → α → Prop}
    (after : ∀ x rest, Yields (k + 1) rest (f (.mk kind k (k + 1) [])) fun us rest' =>
      P (.name x :: us) rest') :
    Yields k ts (name kind >>= f) P := by
  have first : Yields k ts (name kind) fun us _ n =>
      ∃ x, us = [.name x] ∧ n = .mk kind k (k + 1) [] := by
    refine yields_peek ?_
    split
    · rename_i x next
      exact (yields_leaf next).imp fun us rest n h => ⟨x, h⟩
    · exact yields_reject
  refine first.bind fun us rest n ⟨x, hus, hn⟩ => ?_
  subst hus hn
  exact after x rest

theorem yields_close {kind : Kind} {first : Nat} {children : List Node}
    {P : List Token → List Token → Node → Prop} (h : P [] ts (.mk kind first k children)) :
    Yields k ts (close kind first children) P :=
  yields_here (yields_pure h)

end Rule

namespace Grammar

open Rule (Yields yields_pure yields_reject yields_peek yields_here yields_remaining yields_advance
  yields_expect yields_leaf yields_name yields_close)

variable {k : Nat} {ts us rest : List Token} {n : Node}

/-- A part that is read where its first token stands, or none. -/
theorem yields_optional {t : Token} {r : Rule Node} {P : List Token → Option Node → Prop}
    (absent : P [] none) (present : Yields k ts r fun us _ n => P us (some n)) :
    Yields k ts (Rule.optional t r) fun us _ => P us := by
  unfold Rule.optional
  refine yields_peek ?_
  split
  · exact present.last fun us rest n hn => yields_pure ⟨rfl, hn⟩
  · exact yields_pure absent

/-! ## §2 Expressions -/

/-- A property of a node may be shown with its end written in another way. -/
theorem of_stop {P : Node → Prop} {kind : Kind} {first stop stop' : Nat} {children : List Node}
    (h : P (.mk kind first stop children)) (same : stop = stop') :
    P (.mk kind first stop' children) :=
  same ▸ h

/-- No binary operator of the level `bound` or a higher one stands in front. -/
def Quiet (bound : Nat) (rest : List Token) : Prop :=
  ∀ t ∈ rest.head?, ∀ level ∈ binaryLevel? t, level < bound

theorem quiet_noLevel (rest : List Token) : Quiet noLevel rest :=
  fun _ _ _ found => (level_lt_noLevel found).1

/-- What is read as an expression within a level: no operator behind it belongs to it. -/
def Within (k level : Nat) (us rest : List Token) (n : Node) : Prop :=
  ∃ top bound, Expression k us n top bound ∧ level ≤ top ∧ Quiet (min level bound) rest

/-- What is read as an operand: no operator behind it belongs to it. -/
def AsOperand (k : Nat) (us rest : List Token) (n : Node) : Prop :=
  ∃ bound, Expression k us n noLevel bound ∧ Quiet bound rest

/-- Every rule for expressions gives the tree of a derivation, with `fuel` for its nesting. A rule
that goes on from a node is given the derivation of the node, from the index `j`. -/
structure ExprDerives (fuel : Nat) : Prop where
  expressionWithin : ∀ k ts level, level ≤ noLevel →
    Yields k ts (Rule.expressionWithin fuel level) (Within k level)
  operand : ∀ k ts, Yields k ts (Rule.operand fuel) (AsOperand k)
  operations : ∀ k ts level j vs left top bound, Expression j vs left top bound →
    k = j + vs.length → level ≤ top → Quiet bound ts →
    Yields k ts (Rule.operations fuel level left) fun us => Within j level (vs ++ us)
  atom : ∀ k ts, Yields k ts (Rule.atom fuel) fun us _ => Primary k us
  trailers : ∀ k ts j vs target, Primary j vs target → k = j + vs.length →
    Yields k ts (Rule.trailers fuel target) fun us _ => Primary j (vs ++ us)
  argList : ∀ k ts, Yields k ts (Rule.argList fuel) fun us _ => ArgList k us
  arguments : ∀ k ts, Yields k ts (Rule.arguments fuel) fun us _ => Arguments k us

theorem ExprDerives.operand_succ {fuel : Nat} (ih : ExprDerives fuel) (k : Nat) (ts : List Token) :
    Yields k ts (Rule.operand (fuel + 1)) (AsOperand k) := by
  refine yields_peek ?_
  split
  · rename_i level hlevel
    obtain ⟨t, next, op⟩ := Option.bind_eq_some_iff.1 hlevel
    refine (yields_leaf next).cons fun rest o ho => ?_
    refine (ih.expressionWithin _ rest level (unaryLevel_le op)).last ?_
    intro us rest e ⟨top, bound, h, tight, quiet⟩
    subst ho
    refine yields_pure ⟨rfl, min level bound, ?_, quiet⟩
    refine of_stop (P := fun n => Expression k (t :: us) n _ _) (.unary op h tight) ?_
    rw [h.range.2]
    simp +arith
  · refine (ih.atom k ts).bind fun us rest base h => ?_
    refine (ih.trailers _ rest k us base h rfl).imp fun vs rest n h => ?_
    exact ⟨noLevel, .primary h, quiet_noLevel rest⟩

/-- One more operator takes all that was read before it as its left operand. -/
theorem ExprDerives.operations_succ {fuel level j k top bound : Nat} {vs ts : List Token}
    {left : Node} (ih : ExprDerives fuel) (h : Expression j vs left top bound)
    (start : k = j + vs.length) (tight : level ≤ top) (quiet : Quiet bound ts) :
    Yields k ts (Rule.operations (fuel + 1) level left) fun us => Within j level (vs ++ us) := by
  -- without an operator that belongs here, the expression ends
  have ends (none : ∀ t ∈ ts.head?, ∀ found ∈ binaryLevel? t, found < level) :
      Yields k ts (pure left) fun us => Within j level (vs ++ us) := by
    refine yields_pure ⟨top, bound, by rwa [List.append_nil], tight, ?_⟩
    intro t next found hfound
    exact Nat.lt_min.2 ⟨none t next found hfound, quiet t next found hfound⟩
  refine yields_peek ?_
  split
  · rename_i next
    exact ends (by simp [next])
  · rename_i t next
    split
    · rename_i op
      exact ends (by simp [next, op])
    · rename_i found op
      split
      · rename_i low
        exact ends (by simpa [next, op] using low)
      · rename_i high
        have loose : found < bound := quiet t next found op
        refine (yields_leaf next).cons fun rest o ho => ?_
        refine (ih.expressionWithin _ rest _ (level_lt_noLevel op).2).bind ?_
        intro us rest right ⟨top', bound', hright, tight', quiet'⟩
        subst start ho
        have both : Expression j (vs ++ t :: us)
            (.join .binaryExpression left right
              [left, .mk .operator (j + vs.length) (j + vs.length + 1) [], right])
            found (min (rightLevel t found) bound') := by
          rw [Node.join, h.range.1, hright.range.2]
          refine of_stop (P := fun n => Expression j _ n _ _)
            (.binary op h hright loose tight') ?_
          simp +arith
        refine (ih.operations _ rest level j _ _ _ _ both ?_ (by omega) quiet').imp ?_
        · simp +arith
        · intro ws rest n hn
          simpa using hn

/-- One more member or call belongs to all that was read before it. -/
theorem ExprDerives.trailers_succ {fuel j k : Nat} {vs ts : List Token} {target : Node}
    (ih : ExprDerives fuel) (h : Primary j vs target) (start : k = j + vs.length) :
    Yields k ts (Rule.trailers (fuel + 1) target) fun us _ => Primary j (vs ++ us) := by
  refine yields_peek ?_
  split
  · rename_i next
    refine yields_advance next fun rest => yields_name fun x rest => ?_
    subst start
    have member : Primary j (vs ++ [Token.symbol .dot, .name x])
        (.join .memberExpression target (leaf .propertyName (j + vs.length + 1))
          [target, leaf .propertyName (j + vs.length + 1)]) := by
      rw [Node.join, h.range.1]
      exact of_stop (P := Primary j _) (.member h x) (by simp +arith [Node.stop])
    refine (ih.trailers _ rest j _ _ member (by simp +arith)).imp fun us rest n hn => ?_
    simpa using hn
  · refine (ih.argList k ts).bind fun us rest args hargs => ?_
    subst start
    have call : Primary j (vs ++ us) (.join .callExpression target args [target, args]) := by
      rw [Node.join, h.range.1, hargs.range.2]
      exact of_stop (P := Primary j _) (.call h hargs) (by simp +arith)
    refine (ih.trailers _ rest j _ _ call (by simp +arith)).imp fun us rest n hn => ?_
    simpa using hn
  · exact yields_pure (by rwa [List.append_nil])

theorem exprDerives (fuel : Nat) : ExprDerives fuel := by
  induction fuel with
  | zero =>
    constructor
    all_goals intros; exact yields_reject
  | succ fuel ih =>
    constructor
    case expressionWithin =>
      intro k ts level tight
      refine (ih.operand k ts).bind fun us rest first ⟨bound, h, quiet⟩ => ?_
      exact ih.operations _ rest level k us first noLevel bound h rfl tight quiet
    case operand => exact ih.operand_succ
    case operations =>
      intro k ts level j vs left top bound h start tight quiet
      exact ih.operations_succ h start tight quiet
    case atom =>
      intro k ts
      refine yields_peek ?_
      split
      · rename_i kind hkind
        obtain ⟨t, next, ht⟩ := Option.bind_eq_some_iff.1 hkind
        refine (yields_leaf next).imp fun us rest n ⟨hus, hn⟩ => ?_
        subst hus hn
        exact .atom ht
      · refine yields_here (yields_expect fun rest => ?_)
        refine (ih.expressionWithin _ rest 0 (Nat.zero_le _)).bind ?_
        intro us rest inner ⟨top, bound, h, _, _⟩
        refine yields_expect fun rest => yields_close ?_
        exact of_stop (P := Primary k _) (.parens h) (by simp +arith)
    case trailers =>
      intro k ts j vs target h start
      exact ih.trailers_succ h start
    case argList =>
      intro k ts
      refine yields_here (yields_expect fun rest => ?_)
      refine (ih.arguments _ rest).bind fun us rest args h => ?_
      refine yields_expect fun rest => yields_close ?_
      exact of_stop (P := ArgList k _) (.mk h) (by simp +arith)
    case arguments =>
      intro k ts
      refine yields_peek ?_
      split
      · exact yields_pure .nil
      · refine (ih.expressionWithin k ts 0 (Nat.zero_le _)).bind ?_
        intro us rest arg ⟨top, bound, h, _, _⟩
        refine yields_peek ?_
        split
        · rename_i next
          refine yields_advance next fun rest => ?_
          refine (ih.arguments _ rest).last fun vs rest args hargs => ?_
          exact yields_pure ⟨rfl, .cons h hargs⟩
        · exact yields_pure (by rw [List.append_nil]; exact .last h)

theorem yields_expression (k : Nat) (ts : List Token) :
    Yields k ts Rule.expression fun us _ => IsExpression k us := by
  refine yields_remaining (((exprDerives _).expressionWithin k ts 0 (Nat.zero_le _)).imp ?_)
  intro us rest n ⟨top, bound, h, _, _⟩
  exact ⟨top, bound, h⟩

theorem yields_parenthesized (k : Nat) (ts : List Token) :
    Yields k ts Rule.parenthesized fun us _ n => Optionally ArgList k us (some n) :=
  yields_remaining (((exprDerives _).argList k ts).imp fun _ _ _ h => .present h)

/-! ## §3 Statements on one line -/

theorem yields_typeAfter (mark : Symbol) (k : Nat) (ts : List Token) :
    Yields k ts (Rule.typeAfter mark) fun us _ => TypeAfter mark k us := by
  refine yields_here (yields_expect fun rest => ?_)
  refine (yields_expression _ rest).last fun us rest e h => yields_close ⟨rfl, ?_⟩
  exact of_stop (P := TypeAfter mark k _) (.mk h) (by simp +arith)

theorem yields_optionalType (mark : Symbol) (k : Nat) (ts : List Token) :
    Yields k ts (Rule.optional (.symbol mark) (Rule.typeAfter mark)) fun us _ =>
      Optionally (TypeAfter mark) k us :=
  yields_optional .absent ((yields_typeAfter mark k ts).imp fun _ _ _ h => .present h)

theorem yields_initialValue (k : Nat) (ts : List Token) :
    Yields k ts Rule.initialValue fun us _ n => Optionally Value k us (some n) :=
  yields_expect fun rest => (yields_expression _ rest).imp fun _ _ _ h => .present (.mk h)

theorem yields_assignment (k : Nat) (ts : List Token) :
    Yields k ts Rule.assignment fun us _ => Simple k us := by
  refine yields_here ((yields_expression k ts).bind fun us rest target h => ?_)
  refine (yields_optionalType .colon _ rest).bind fun vs rest type typed => ?_
  refine (yields_optional .absent (yields_initialValue _ rest)).last ?_
  intro ws rest value assigned
  split
  · cases typed
    cases assigned
    refine yields_close ⟨rfl, ?_⟩
    simpa using Simple.expression h
  · rename_i more
    refine yields_close ⟨rfl, of_stop (P := Simple k _) (.assign h typed assigned ?_) ?_⟩
    · cases type with
      | none =>
        cases value with
        | none => exact absurd rfl (more rfl)
        | some v => exact .inr rfl
      | some t => exact .inl rfl
    · simp +arith

theorem yields_returned (k : Nat) (ts : List Token) :
    Yields k ts Rule.returned fun us _ => Simple k us := by
  refine yields_here (yields_expect fun rest => yields_peek ?_)
  split
  · exact yields_close (.return_ .absent)
  · refine (yields_expression _ rest).last fun us rest e h => yields_close ⟨rfl, ?_⟩
    exact of_stop (P := Simple k _) (.return_ (.present h)) (by simp +arith)

theorem yields_simple (k : Nat) (ts : List Token) :
    Yields k ts Rule.simple fun us _ n => ∃ vs, us = vs ++ [Token.newline] ∧ Simple k vs n := by
  have ended {i : Nat} {us rest : List Token} {s : Node} (h : Simple k us s) :
      Yields i rest (do Rule.expect .newline; return s) fun vs _ n =>
        ∃ ws, us ++ vs = ws ++ [Token.newline] ∧ Simple k ws n :=
    yields_expect fun _ => yields_pure ⟨us, rfl, h⟩
  refine yields_peek ?_
  split
  · rename_i next
    refine (yields_leaf next).bind fun us rest s ⟨hus, hs⟩ => ?_
    subst hus hs
    exact ended .pass
  · exact (yields_returned k ts).bind fun us rest s h => ended h
  · exact (yields_assignment k ts).bind fun us rest s h => ended h

theorem yields_parameter (k : Nat) (ts : List Token) :
    Yields k ts Rule.parameter fun us _ => Parameter k us := by
  refine yields_here (yields_name fun x rest => ?_)
  refine (yields_optionalType .colon _ rest).last fun us rest type typed => ?_
  exact yields_close ⟨rfl, of_stop (P := Parameter k _) (.mk x typed) (by simp +arith)⟩

theorem yields_parameters (fuel k : Nat) (ts : List Token) :
    Yields k ts (Rule.parameters fuel) fun us _ => Parameters k us := by
  induction fuel generalizing k ts with
  | zero => exact yields_reject
  | succ fuel ih =>
    refine yields_peek ?_
    split
    · exact yields_pure .nil
    · refine (yields_parameter k ts).bind fun us rest p h => yields_peek ?_
      split
      · rename_i next
        refine yields_advance next fun rest => (ih _ rest).last fun vs rest ps hps => ?_
        exact yields_pure ⟨rfl, .cons h hps⟩
      · exact yields_pure (by rw [List.append_nil]; exact .last h)

theorem yields_paramList (k : Nat) (ts : List Token) :
    Yields k ts Rule.paramList fun us _ => ParamList k us := by
  refine yields_here (yields_expect fun rest => yields_remaining ?_)
  refine (yields_parameters _ _ rest).bind fun us rest ps h => ?_
  refine yields_expect fun rest => yields_close ?_
  exact of_stop (P := ParamList k _) (.mk h) (by simp +arith)

/-! ## §4 Statements with blocks -/

/-- Every rule for statements gives the tree of a derivation, with `fuel` for its nesting. -/
structure StmtDerives (fuel : Nat) : Prop where
  statement : ∀ k ts, Yields k ts (Rule.statement fuel) fun us _ => Statement k us
  body : ∀ k ts, Yields k ts (Rule.body fuel) fun us _ => Body k us
  statements : ∀ k ts, Yields k ts (Rule.statements fuel) fun us _ => Statements k us
  elifClauses : ∀ k ts, Yields k ts (Rule.elifClauses fuel) fun us _ => Elifs k us
  elseClause : ∀ k ts, Yields k ts (Rule.elseClause fuel) fun us _ n => Otherwise k us (some n)

theorem StmtDerives.statement_succ {fuel : Nat} (ih : StmtDerives fuel) (k : Nat)
    (ts : List Token) : Yields k ts (Rule.statement (fuel + 1)) fun us _ => Statement k us := by
  refine yields_here (yields_peek ?_)
  split
  · rename_i next
    refine yields_advance next fun rest => ?_
    refine (yields_expression _ rest).bind fun us rest c hc => ?_
    refine (ih.body _ rest).bind fun vs rest b hb => ?_
    refine (ih.elifClauses _ rest).bind fun ws rest clauses hclauses => ?_
    refine (yields_optional .absent (ih.elseClause _ rest)).last fun xs rest last hlast => ?_
    refine yields_close ⟨rfl, ?_⟩
    exact of_stop (P := Statement k _) (.if_ hc hb hclauses hlast) (by simp +arith)
  · rename_i next
    refine yields_advance next fun rest => ?_
    refine (yields_expression _ rest).bind fun us rest c hc => ?_
    refine (ih.body _ rest).last fun vs rest b hb => yields_close ⟨rfl, ?_⟩
    exact of_stop (P := Statement k _) (.while_ hc hb) (by simp +arith)
  · rename_i next
    refine yields_advance next fun rest => yields_name fun x rest => ?_
    refine (yields_paramList _ rest).bind fun us rest params hparams => ?_
    refine (yields_optionalType .arrow _ rest).bind ?_
    intro vs rest result hresult
    refine (ih.body _ rest).last fun ws rest b hb => yields_close ⟨rfl, ?_⟩
    exact of_stop (P := Statement k _) (.function x hparams hresult hb) (by simp +arith)
  · rename_i next
    refine yields_advance next fun rest => yields_name fun x rest => ?_
    refine (yields_optional .absent (yields_parenthesized _ rest)).bind ?_
    intro us rest parents hp
    refine (ih.body _ rest).last fun vs rest b hb => yields_close ⟨rfl, ?_⟩
    exact of_stop (P := Statement k _) (.class_ x hp hb) (by simp +arith)
  · refine (yields_simple k ts).imp fun us rest n ⟨vs, hus, h⟩ => ?_
    subst hus
    exact .simple h

theorem StmtDerives.body_succ {fuel : Nat} (ih : StmtDerives fuel) (k : Nat) (ts : List Token) :
    Yields k ts (Rule.body (fuel + 1)) fun us _ => Body k us := by
  refine yields_here (yields_expect fun rest => yields_peek ?_)
  split
  · rename_i next
    refine yields_advance next fun rest => yields_expect fun rest => ?_
    refine (ih.statement _ rest).bind fun us rest s hs => ?_
    refine (ih.statements _ rest).bind fun vs rest ss hss => ?_
    refine yields_expect fun rest => yields_close ?_
    exact of_stop (P := Body k _) (.block hs hss) (by simp +arith)
  · refine (yields_simple _ rest).last fun us rest s ⟨vs, hus, h⟩ => yields_close ⟨rfl, ?_⟩
    subst hus
    exact of_stop (P := Body k _) (.line h) (by simp +arith)

theorem stmtDerives (fuel : Nat) : StmtDerives fuel := by
  induction fuel with
  | zero =>
    constructor
    all_goals intros; exact yields_reject
  | succ fuel ih =>
    constructor
    case statement => exact ih.statement_succ
    case body => exact ih.body_succ
    case statements =>
      intro k ts
      refine yields_peek ?_
      split
      · exact yields_pure .nil
      · exact yields_pure .nil
      · refine (ih.statement k ts).bind fun us rest s hs => ?_
        refine (ih.statements _ rest).last fun vs rest ss hss => ?_
        exact yields_pure ⟨rfl, .cons hs hss⟩
    case elifClauses =>
      intro k ts
      refine yields_peek ?_
      split
      · rename_i next
        refine yields_here (yields_advance next fun rest => ?_)
        refine (yields_expression _ rest).bind fun us rest c hc => ?_
        refine (ih.body _ rest).bind fun vs rest b hb => ?_
        have closed {i : Nat} : Yields i rest (Rule.close .elifClause k [c, b]) fun ws _ n =>
            ws = [] ∧ n = .mk .elifClause k i [c, b] := yields_close ⟨rfl, rfl⟩
        refine closed.bind fun ws rest clause ⟨hws, hclause⟩ => ?_
        subst hws hclause
        refine (ih.elifClauses _ rest).last fun ws rest clauses hclauses => ?_
        refine yields_pure ⟨rfl, ?_⟩
        exact of_stop (P := fun n => Elifs k _ (n :: clauses)) (.cons hc hb hclauses)
          (by simp +arith)
      · exact yields_pure .nil
    case elseClause =>
      intro k ts
      refine yields_here (yields_expect fun rest => ?_)
      refine (ih.body _ rest).last fun us rest b hb => yields_close ⟨rfl, ?_⟩
      exact of_stop (P := fun n => Otherwise k _ (some n)) (.present hb) (by simp +arith)

end Grammar

end Serpent
