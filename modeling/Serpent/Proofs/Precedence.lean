/-
Serpent.Proofs.Precedence — which operand an operator belongs to.

The tokens of an expression can often be grouped in more than one way. The operators have levels,
and a grouping follows them if no operator takes an operand that an operator of its own would have
to give up: at the right edge of a left operand stand only operators that bind as tight, and a right
operand or the operand of a prefix operator binds tighter. Exactly one grouping follows the levels,
and it is the one that is read.

  §1 The table of operators
  §2 Groupings of tokens
  §3 Groupings that follow the table
  §4 Derivations follow the table
  §5 Groupings that follow the table have a derivation
  §6 The one grouping that is read
-/
import Serpent.Proofs.Covering

namespace Serpent

/-! ## §1 The table of operators -/

/-- The operators between two operands by their levels, the loosest first. -/
def binaryTable : List (Nat × List Token) :=
  [(1, [.keyword .or]),
   (2, [.keyword .and]),
   (4, [.symbol .eqEq, .symbol .notEq, .symbol .ltEq, .symbol .gtEq, .symbol .lt, .symbol .gt,
     .keyword .is]),
   (5, [.symbol .plus, .symbol .minus]),
   (6, [.symbol .star, .symbol .slashSlash, .symbol .slash, .symbol .percent]),
   (8, [.symbol .starStar])]

/-- The operators before an operand by their levels. -/
def unaryTable : List (Nat × List Token) :=
  [(3, [.keyword .not]), (7, [.symbol .minus, .symbol .plus])]

/-- The level that a table gives to a token. -/
def levelIn (table : List (Nat × List Token)) (t : Token) : Option Nat :=
  (table.find? fun row => decide (t ∈ row.2)).map (·.1)

theorem levelIn_binaryTable (t : Token) : levelIn binaryTable t = binaryLevel? t := by
  cases t with
  | keyword w => cases w <;> rfl
  | symbol s => cases s <;> rfl
  | _ => rfl

theorem levelIn_unaryTable (t : Token) : levelIn unaryTable t = unaryLevel? t := by
  cases t with
  | keyword w => cases w <;> rfl
  | symbol s => cases s <;> rfl
  | _ => rfl

/-- No prefix operator has the level of a binary one, and `**` binds tightest of all. -/
theorem binaryLevel?_bounds {t : Token} {p : Nat} (h : binaryLevel? t = some p) :
    p ≠ 3 ∧ p ≠ 7 ∧ (if t = .symbol .starStar then p = 8 else p < 7) := by
  cases t with
  | keyword w => cases w <;> cases h <;> decide
  | symbol s => cases s <;> cases h <;> decide
  | _ => cases h

theorem unaryLevel?_eq {t : Token} {q : Nat} (h : unaryLevel? t = some q) : q = 3 ∨ q = 7 := by
  unfold unaryLevel? at h
  split at h <;> cases h <;> simp

namespace Grammar

/-! ## §2 Groupings of tokens -/

mutual

/-- A literal, a name or a grouping in parentheses, with the members and calls that follow it. -/
inductive GroupedPrimary : (k : Nat) → List Token → Node → Prop
  | atom {k : Nat} {t : Token} {kind : Kind} (h : atomKind? t = some kind) :
      GroupedPrimary k [t] (leaf kind k)
  | parens {k : Nat} {ts : List Token} {e : Node} (inner : Grouped (k + 1) ts e) :
      GroupedPrimary k (.symbol .lparen :: (ts ++ [.symbol .rparen]))
        (nodeOver .parenthesizedExpression k (.symbol .lparen :: (ts ++ [.symbol .rparen])) [e])
  | member {k : Nat} {ts : List Token} {e : Node} (target : GroupedPrimary k ts e) (x : String) :
      GroupedPrimary k (ts ++ [.symbol .dot, .name x])
        (nodeOver .memberExpression k (ts ++ [.symbol .dot, .name x])
          [e, leaf .propertyName (k + ts.length + 1)])
  | call {k : Nat} {ts us : List Token} {e : Node} {args : List Node}
      (target : GroupedPrimary k ts e) (arguments : GroupedArguments (k + ts.length + 1) us args) :
      GroupedPrimary k (ts ++ .symbol .lparen :: (us ++ [.symbol .rparen]))
        (nodeOver .callExpression k (ts ++ .symbol .lparen :: (us ++ [.symbol .rparen]))
          [e, nodeOver .argList (k + ts.length) (.symbol .lparen :: (us ++ [.symbol .rparen])) args])

/-- The tokens from index `k` on, grouped as operands and operators in any way. -/
inductive Grouped : (k : Nat) → List Token → Node → Prop
  | primary {k : Nat} {ts : List Token} {e : Node} (h : GroupedPrimary k ts e) : Grouped k ts e
  | unary {k : Nat} {t : Token} {ts : List Token} {e : Node} {level : Nat}
      (op : levelIn unaryTable t = some level) (operand : Grouped (k + 1) ts e) :
      Grouped k (t :: ts) (nodeOver .unaryExpression k (t :: ts) [leaf .operator k, e])
  | binary {k : Nat} {t : Token} {ts us : List Token} {l r : Node} {level : Nat}
      (op : levelIn binaryTable t = some level) (left : Grouped k ts l)
      (right : Grouped (k + ts.length + 1) us r) :
      Grouped k (ts ++ t :: us)
        (nodeOver .binaryExpression k (ts ++ t :: us) [l, leaf .operator (k + ts.length), r])

/-- Groupings with commas between them; one more comma may stand at the end. -/
inductive GroupedArguments : (k : Nat) → List Token → List Node → Prop
  | nil {k : Nat} : GroupedArguments k [] []
  | last {k : Nat} {ts : List Token} {e : Node} (h : Grouped k ts e) : GroupedArguments k ts [e]
  | cons {k : Nat} {ts us : List Token} {e : Node} {es : List Node} (first : Grouped k ts e)
      (rest : GroupedArguments (k + ts.length + 1) us es) :
      GroupedArguments k (ts ++ .symbol .comma :: us) (e :: es)

end

/-- The tokens are one expression. -/
def IsGroupable (ts : List Token) : Prop := ∃ k n, Grouped k ts n

mutual

theorem GroupedPrimary.plain {k : Nat} {ts : List Token} {n : Node} :
    GroupedPrimary k ts n → Plain ts
  | .atom h => .atom h
  | .parens inner => .parens inner.plain
  | .member target x => .member target.plain x
  | .call target arguments => .call target.plain arguments.plain

theorem Grouped.plain {k : Nat} {ts : List Token} {n : Node} : Grouped k ts n → Plain ts
  | .primary h => h.plain
  | .unary op operand => .unary (levelIn_unaryTable _ ▸ op) operand.plain
  | .binary op left right => .binary (levelIn_binaryTable _ ▸ op) left.plain right.plain

theorem GroupedArguments.plain {k : Nat} {ts : List Token} {ns : List Node} :
    GroupedArguments k ts ns → PlainArguments ts
  | .nil => .nil
  | .last h => .last h.plain
  | .cons first rest => .cons first.plain rest.plain

end

mutual

theorem Primary.grouped {k : Nat} {ts : List Token} {n : Node} :
    Primary k ts n → GroupedPrimary k ts n
  | .atom h => .atom h
  | .parens inner => .parens inner.grouped
  | .member target x => .member target.grouped x
  | .call target (.mk arguments) => .call target.grouped arguments.grouped

theorem Expression.grouped {k : Nat} {ts : List Token} {n : Node} {top bound : Nat} :
    Expression k ts n top bound → Grouped k ts n
  | .primary h => .primary h.grouped
  | .unary op operand _ => .unary (levelIn_unaryTable _ ▸ op) operand.grouped
  | .binary op left right _ _ => .binary (levelIn_binaryTable _ ▸ op) left.grouped right.grouped

theorem Arguments.grouped {k : Nat} {ts : List Token} {ns : List Node} :
    Arguments k ts ns → GroupedArguments k ts ns
  | .nil => .nil
  | .last h => .last h.grouped
  | .cons first rest => .cons first.grouped rest.grouped

end

end Grammar

/-! ## §3 Groupings that follow the table -/

namespace Node

variable (ts : List Token)

/-- The level of the token that a node stands for. -/
def levelBy (table : List (Nat × List Token)) (op : Node) : Option Nat :=
  ts[op.first]?.bind (levelIn table)

/-- The level of a node that is a binary operator with its operands. -/
def binaryLevel : Node → Option Nat
  | .mk .binaryExpression _ _ [_, op, _] => op.levelBy ts binaryTable
  | _ => none

/-- The levels of the operators at the right edge of a node: that of its own operator and those at
the right edge of the operand behind it. Parentheses, members and calls have no edge. -/
def rightEdge : Node → List Nat
  | .mk .binaryExpression _ _ [_, op, r] => (op.levelBy ts binaryTable).toList ++ rightEdge r
  | .mk .unaryExpression _ _ [op, e] => (op.levelBy ts unaryTable).toList ++ rightEdge e
  | _ => []

/-- A node follows the table: what stands at the right edge of its left operand binds as tight as
its operator, and its right operand binds tighter, with `**` the other way round; and the operand of
a prefix operator binds tighter than the operator. -/
def FollowsTable : Node → Prop
  | .mk .binaryExpression _ _ [l, op, r] => ∀ p ∈ op.levelBy ts binaryTable,
      if ts[op.first]? = some (.symbol .starStar) then
        (∀ q ∈ l.rightEdge ts, p < q) ∧ ∀ q ∈ r.binaryLevel ts, p ≤ q
      else (∀ q ∈ l.rightEdge ts, p ≤ q) ∧ ∀ q ∈ r.binaryLevel ts, p < q
  | .mk .unaryExpression _ _ [op, e] =>
      ∀ q ∈ op.levelBy ts unaryTable, ∀ p ∈ e.binaryLevel ts, q < p
  | _ => True

/-- A prefix operator reaches as far as it may: the operator behind its operand, if there is one, is
looser. -/
def ReachesFar : Node → Prop
  | .mk .unaryExpression _ stop [op, _] => ∀ q ∈ op.levelBy ts unaryTable,
      ∀ p ∈ ts[stop]?.bind (levelIn binaryTable), p < q
  | _ => True

variable {ts}

theorem followsTable_nil (kind : Kind) (first stop : Nat) :
    FollowsTable ts (.mk kind first stop []) := by
  cases kind <;> trivial

theorem reachesFar_nil (kind : Kind) (first stop : Nat) :
    ReachesFar ts (.mk kind first stop []) := by
  cases kind <;> trivial

end Node

namespace Grammar

open Node (FollowsTable ReachesFar Everywhere everywhere_iff)

/-! ## §4 Derivations follow the table -/

variable {k : Nat} {toks us vs rest : List Token} {n : Node}

theorem token_at {t : Token} (place : toks.drop k = us ++ t :: rest) :
    toks[k + us.length]? = some t := by
  rw [← List.getElem?_drop, place]
  simp

theorem drop_at (place : toks.drop k = us ++ rest) : toks.drop (k + us.length) = rest := by
  rw [← List.drop_drop, place, List.drop_left]

theorem token_here {t : Token} (place : toks.drop k = t :: rest) : toks[k]? = some t := by
  rw [← List.head?_drop, place, List.head?_cons]

theorem drop_next {t : Token} (place : toks.drop k = t :: rest) : toks.drop (k + 1) = rest := by
  rw [← List.tail_drop, place, List.tail_cons]

theorem levelBy_unary {i q : Nat} {t : Token} (here : toks[i]? = some t)
    (op : unaryLevel? t = some q) : (leaf .operator i).levelBy toks unaryTable = some q := by
  rw [Node.levelBy, Node.first, here, Option.bind_some, levelIn_unaryTable, op]

theorem levelBy_binary {i p : Nat} {t : Token} (here : toks[i]? = some t)
    (op : binaryLevel? t = some p) : (leaf .operator i).levelBy toks binaryTable = some p := by
  rw [Node.levelBy, Node.first, here, Option.bind_some, levelIn_binaryTable, op]

/-- An operator `t` of level `p` may stand behind an operator of level `q` that does not belong to
its left operand alone. -/
def Loose (t : Token) (p q : Nat) : Prop := if t = .symbol .starStar then p < q else p ≤ q

theorem lt_unary_iff {t u : Token} {p q : Nat} (ht : binaryLevel? t = some p)
    (hu : unaryLevel? u = some q) : p < q ↔ Loose t p q := by
  obtain ⟨not_three, not_seven, high⟩ := binaryLevel?_bounds ht
  have := unaryLevel?_eq hu
  unfold Loose
  by_cases power : t = .symbol .starStar
  · rw [if_pos power] at high ⊢
  · rw [if_neg power] at high ⊢
    omega

theorem lt_rightLevel_iff {t u : Token} {p q : Nat} (ht : binaryLevel? t = some p)
    (hu : binaryLevel? u = some q) : p < rightLevel u q ↔ Loose t p q := by
  have hp := (binaryLevel?_bounds ht).2.2
  have hq := (binaryLevel?_bounds hu).2.2
  unfold Loose rightLevel
  by_cases power : t = .symbol .starStar <;> by_cases power' : u = .symbol .starStar <;>
    simp only [power, power', if_true, if_false] at hp hq ⊢ <;> omega

/-- What it means for a binary operator with its operands to follow the table. -/
theorem followsTable_binary {first stop i p : Nat} {t : Token} {l r : Node}
    (here : toks[i]? = some t) (op : binaryLevel? t = some p) :
    FollowsTable toks (.mk .binaryExpression first stop [l, leaf .operator i, r]) ↔
      (∀ q ∈ l.rightEdge toks, Loose t p q) ∧ ∀ q ∈ r.binaryLevel toks, rightLevel t p ≤ q := by
  unfold FollowsTable Loose rightLevel
  simp only [levelBy_binary here op, Option.mem_def, Option.some.injEq, forall_eq', Node.first,
    here]
  split <;> rfl

/-- The level of a binary operator is never that of a prefix operator. -/
theorem ne_of_binaryLevel {p q : Nat} {u : Token} (h : p ∈ n.binaryLevel toks)
    (hu : unaryLevel? u = some q) : p ≠ q := by
  unfold Node.binaryLevel at h
  split at h
  · obtain ⟨t, -, ht⟩ := Option.bind_eq_some_iff.1 h
    rw [levelIn_binaryTable] at ht
    have := binaryLevel?_bounds ht
    have := unaryLevel?_eq hu
    omega
  · cases h

/-- What it means for a prefix operator with its operand to follow the table. -/
theorem followsTable_unary {first stop i q : Nat} {t : Token} {e : Node} (here : toks[i]? = some t)
    (op : unaryLevel? t = some q) :
    FollowsTable toks (.mk .unaryExpression first stop [leaf .operator i, e]) ↔
      ∀ p ∈ e.binaryLevel toks, q ≤ p := by
  unfold FollowsTable
  simp only [levelBy_unary here op, Option.mem_def, Option.some.injEq, forall_eq']
  constructor
  · exact fun h p hp => Nat.le_of_lt (h p hp)
  · exact fun h p hp => Nat.lt_of_le_of_ne (h p hp) (ne_of_binaryLevel hp op).symm

theorem reachesFar_unary {first stop i q : Nat} {t : Token} {e : Node} (here : toks[i]? = some t)
    (op : unaryLevel? t = some q) :
    ReachesFar toks (.mk .unaryExpression first stop [leaf .operator i, e]) ↔
      ∀ p ∈ toks[stop]?.bind (levelIn binaryTable), p < q := by
  unfold ReachesFar
  simp only [levelBy_unary here op, Option.mem_def, Option.some.injEq, forall_eq']

theorem Primary.edge (h : Primary k us n) : n.binaryLevel toks = none ∧ n.rightEdge toks = [] := by
  cases h with
  | atom h =>
    unfold atomKind? at h
    split at h <;> cases h <;> exact ⟨rfl, rfl⟩
  | _ => exact ⟨rfl, rfl⟩

/-- The first level of a derivation is that of the operator, if there is one. -/
theorem Expression.top_eq {top bound : Nat} (h : Expression k us n top bound)
    (place : toks.drop k = us ++ rest) : top = (n.binaryLevel toks).getD noLevel := by
  cases h with
  | primary h => rw [h.edge.1, Option.getD_none]
  | unary op operand tight => rfl
  | binary op left right loose tight =>
    rw [List.append_assoc] at place
    rw [Node.binaryLevel, levelBy_binary (token_at place) op, Option.getD_some]

theorem Expression.le_top_iff {top bound level : Nat} (h : Expression k us n top bound)
    (place : toks.drop k = us ++ rest) (low : level ≤ noLevel) :
    level ≤ top ↔ ∀ q ∈ n.binaryLevel toks, level ≤ q := by
  rw [h.top_eq place]
  cases n.binaryLevel toks with
  | none => simpa using low
  | some q => simp

/-- The second level of a derivation says what its right edge says. -/
theorem Expression.lt_bound_iff {k : Nat} {us rest : List Token} {n : Node} {top bound p : Nat}
    {t : Token} (h : Expression k us n top bound) (place : toks.drop k = us ++ rest)
    (ht : binaryLevel? t = some p) : p < bound ↔ ∀ q ∈ n.rightEdge toks, Loose t p q := by
  match h with
  | .primary h =>
    rw [h.edge.2]
    simpa using (level_lt_noLevel ht).1
  | .unary op operand tight =>
    have inner := operand.lt_bound_iff (drop_next place) ht
    have here := token_here place
    rw [Node.rightEdge, levelBy_unary here op, Nat.lt_min, inner, lt_unary_iff ht op]
    simp
  | .binary op left right loose tight =>
    rw [List.append_assoc] at place
    have inner := right.lt_bound_iff (drop_next (drop_at place)) ht
    rw [Node.rightEdge, levelBy_binary (token_at place) op, Nat.lt_min, inner,
      lt_rightLevel_iff ht op]
    simp

/-- Every node follows the table, and every prefix operator reaches as far as it may. -/
def Follows (toks : List Token) : Node → Prop :=
  Everywhere fun m => m.FollowsTable toks ∧ m.ReachesFar toks

theorem follows_leaf (kind : Kind) (i : Nat) : Follows toks (leaf kind i) :=
  .mk ⟨Node.followsTable_nil _ _ _, Node.reachesFar_nil _ _ _⟩ (by simp)

/-- A node of another kind follows the table if its parts do. -/
theorem follows_mk {kind : Kind} {first stop : Nat} {parts : List Node}
    (binary : kind ≠ .binaryExpression) (unary : kind ≠ .unaryExpression)
    (h : ∀ c ∈ parts, Follows toks c) : Follows toks (.mk kind first stop parts) := by
  refine .mk ⟨?_, ?_⟩ h
  · unfold FollowsTable
    split <;> first | trivial | rename_i same; cases same; contradiction
  · unfold ReachesFar
    split <;> first | trivial | rename_i same; cases same; contradiction

theorem quiet_of_none {t : Token} {bound : Nat} (h : binaryLevel? t = none) :
    Quiet bound (t :: rest) := by
  intro u hu level found
  cases hu
  rw [h] at found
  cases found

mutual

theorem Primary.follows {k : Nat} {us rest : List Token} {n : Node} :
    Primary k us n → toks.drop k = us ++ rest → Follows toks n
  | .atom h, _ => follows_leaf _ _
  | .parens inner, place => by
    refine follows_mk (by simp) (by simp) ?_
    rw [List.cons_append, List.append_assoc] at place
    have := inner.follows (drop_next place) (quiet_of_none rfl)
    simpa using this
  | .member target x, place => by
    refine follows_mk (by simp) (by simp) ?_
    rw [List.append_assoc] at place
    have := target.follows place
    simpa using ⟨this, follows_leaf _ _⟩
  | .call target (.mk arguments), place => by
    refine follows_mk (by simp) (by simp) ?_
    rw [List.append_assoc, List.cons_append, List.append_assoc] at place
    have callee := target.follows place
    have args := arguments.follows (drop_next (drop_at place))
    simpa using ⟨callee, follows_mk (by simp) (by simp) args⟩

theorem Expression.follows {k : Nat} {us rest : List Token} {n : Node} {top bound : Nat} :
    Expression k us n top bound → toks.drop k = us ++ rest → Quiet bound rest → Follows toks n
  | .primary h, place, _ => h.follows place
  | .unary op operand tight, place, quiet => by
    have here := token_here place
    have behind := drop_next place
    have inner := operand.follows behind fun t ht q hq =>
      Nat.lt_of_lt_of_le (quiet t ht q hq) (Nat.min_le_right _ _)
    refine .mk ⟨?_, ?_⟩ (by simpa using ⟨follows_leaf _ _, inner⟩)
    · rw [followsTable_unary here op, ← operand.le_top_iff behind (unaryLevel_le op)]
      exact tight
    · rw [reachesFar_unary here op]
      intro p hp
      obtain ⟨t, ht, found⟩ := Option.bind_eq_some_iff.1 hp
      rw [← List.head?_drop, drop_at place] at ht
      rw [levelIn_binaryTable] at found
      exact Nat.lt_of_lt_of_le (quiet t ht p found) (Nat.min_le_left _ _)
  | .binary op left right loose tight, place, quiet => by
    rw [List.append_assoc] at place
    have here := token_at place
    have behind := drop_next (drop_at place)
    have first := left.follows place (by
      intro t ht q hq
      cases ht
      rw [op] at hq
      cases hq
      exact loose)
    have second := right.follows behind fun t ht q hq =>
      Nat.lt_of_lt_of_le (quiet t ht q hq) (Nat.min_le_right _ _)
    refine .mk ⟨?_, trivial⟩ (by simpa using ⟨first, follows_leaf _ _, second⟩)
    rw [followsTable_binary here op, ← left.lt_bound_iff place op,
      ← right.le_top_iff behind (level_lt_noLevel op).2]
    exact ⟨loose, tight⟩

theorem Arguments.follows {k : Nat} {us rest : List Token} {ns : List Node} :
    Arguments k us ns → toks.drop k = us ++ .symbol .rparen :: rest → ∀ n ∈ ns, Follows toks n
  | .nil, _ => by simp
  | .last h, place => by
    have := h.follows place (quiet_of_none rfl)
    simpa using this
  | .cons first rest, place => by
    rw [List.append_assoc] at place
    have head := first.follows place (quiet_of_none rfl)
    have tail := rest.follows (drop_next (drop_at place))
    simpa using ⟨head, tail⟩

end

/-! ## §5 Groupings that follow the table have a derivation -/

mutual

theorem GroupedPrimary.primary {k : Nat} {us rest : List Token} {n : Node} :
    GroupedPrimary k us n → toks.drop k = us ++ rest → n.Everywhere (FollowsTable toks) →
      Primary k us n
  | .atom h, _, _ => .atom h
  | .parens inner, place, ⟨_, below⟩ => by
    rw [List.cons_append, List.append_assoc] at place
    obtain ⟨top, bound, h⟩ := inner.isExpression (drop_next place) (below _ (by simp))
    exact .parens h
  | .member target x, place, ⟨_, below⟩ => by
    rw [List.append_assoc] at place
    exact .member (target.primary place (below _ (by simp))) x
  | .call target arguments, place, ⟨_, below⟩ => by
    rw [List.append_assoc, List.cons_append, List.append_assoc] at place
    obtain ⟨-, args⟩ := below _ (List.mem_cons_of_mem _ List.mem_cons_self)
    exact .call (target.primary place (below _ (by simp)))
      (.mk (arguments.arguments (drop_next (drop_at place)) args))

theorem Grouped.isExpression {k : Nat} {us rest : List Token} {n : Node} :
    Grouped k us n → toks.drop k = us ++ rest → n.Everywhere (FollowsTable toks) →
      IsExpression k us n
  | .primary h, place, follows => ⟨_, _, .primary (h.primary place follows)⟩
  | .unary op operand, place, ⟨here, below⟩ => by
    rw [levelIn_unaryTable] at op
    have behind := drop_next place
    obtain ⟨top, bound, h⟩ := operand.isExpression behind (below _ (by simp))
    have tight := (followsTable_unary (token_here place) op).1 here
    exact ⟨_, _, .unary op h ((h.le_top_iff behind (unaryLevel_le op)).2 tight)⟩
  | .binary op left right, place, ⟨here, below⟩ => by
    rw [levelIn_binaryTable] at op
    rw [List.append_assoc] at place
    have behind := drop_next (drop_at place)
    obtain ⟨top, bound, hl⟩ := left.isExpression place (below _ (by simp))
    obtain ⟨top', bound', hr⟩ := right.isExpression behind (below _ (by simp))
    obtain ⟨loose, tight⟩ := (followsTable_binary (token_at place) op).1 here
    exact ⟨_, _, .binary op hl hr ((hl.lt_bound_iff place op).2 loose)
      ((hr.le_top_iff behind (level_lt_noLevel op).2).2 tight)⟩

theorem GroupedArguments.arguments {k : Nat} {us rest : List Token} {ns : List Node} :
    GroupedArguments k us ns → toks.drop k = us ++ rest →
      (∀ n ∈ ns, n.Everywhere (FollowsTable toks)) → Arguments k us ns
  | .nil, _, _ => .nil
  | .last h, place, follows => by
    obtain ⟨top, bound, h⟩ := h.isExpression place (follows _ (by simp))
    exact .last h
  | .cons first rest, place, follows => by
    rw [List.append_assoc] at place
    obtain ⟨top, bound, h⟩ := first.isExpression place (follows _ (by simp))
    exact .cons h (rest.arguments (drop_next (drop_at place))
      fun n hn => follows n (by simp [hn]))

end

/-! ## §6 The one grouping that is read -/

/-- The node is read by the table from the tokens `ts` between `before` and `behind`: of all
groupings of these tokens it is the one that follows the table, and its prefix operators reach as
far as they may. -/
structure ReadByTable (before ts behind : List Token) (n : Node) : Prop where
  only : ∀ m, m = n ↔
    Grouped before.length ts m ∧ m.Everywhere (FollowsTable (before ++ (ts ++ behind)))
  far : n.Everywhere (ReachesFar (before ++ (ts ++ behind)))

theorem IsGroupable.plain (h : IsGroupable us) : Plain us := by
  obtain ⟨k, n, h⟩ := h
  exact h.plain

/-- An expression is read before tokens that do not carry it on, and as it follows the table. -/
theorem IsExpression.readByTable {before behind : List Token}
    (h : IsExpression before.length us n) (ends : Rule.Ends behind) :
    ReadByTable before us behind n := by
  have place : (before ++ (us ++ behind)).drop before.length = us ++ behind := List.drop_left
  have quiet (bound : Nat) : Quiet bound behind := by
    intro t ht level found
    rw [(ends t ht).2.2] at found
    cases found
  have follows {m : Node} (h : IsExpression before.length us m) :
      Follows (before ++ (us ++ behind)) m := by
    obtain ⟨top, bound, h⟩ := h
    exact h.follows place (quiet bound)
  refine ⟨fun m => ⟨?_, ?_⟩, (follows h).imp fun _ both => both.2⟩
  · rintro rfl
    refine ⟨?_, (follows h).imp fun _ both => both.1⟩
    obtain ⟨top, bound, h⟩ := h
    exact h.grouped
  · rintro ⟨grouped, table⟩
    -- both are derived from the same tokens, so the rule gives both of them
    have given := (grouped.isExpression place table).gives ends
    rw [Rule.Gives, h.gives ends] at given
    cases given
    rfl

/-- Tokens that are one expression are read, on a line of their own and wherever an expression may
stand, as the one grouping of them that follows the table of operators. -/
theorem expression_read_by_table (ts : List Token) (one : IsGroupable ts) :
    (∃ n, Node.ofTokens (ts ++ [.newline]) =
        .ok (nodeOver .script 0 (ts ++ [.newline]) [nodeOver .expressionStatement 0 ts [n]]) ∧
      ReadByTable [] ts [.newline] n) ∧
    ∀ before behind, Rule.Ends behind → ∃ n,
      Rule.expression ⟨before.length, ts ++ behind⟩ =
        .ok (n, ⟨before.length + ts.length, behind⟩) ∧
      ReadByTable before ts behind n := by
  constructor
  · obtain ⟨n, h⟩ := (exists_isExpression_iff 0).2 one.plain
    have line : Statements 0 (ts ++ [.newline]) [nodeOver .expressionStatement 0 ts [n]] := by
      simpa using Statements.cons (.simple (.expression h)) .nil
    exact ⟨n, ofTokens_iff_script.2 (.mk line), @IsExpression.readByTable _ _ [] _ h Rule.ends_newline⟩
  · intro before behind ends
    obtain ⟨n, h⟩ := (exists_isExpression_iff before.length).2 one.plain
    exact ⟨n, h.gives ends, h.readByTable ends⟩

/-- The tokens of `1 + not x == -y ** z`. -/
def mixedTokens : List Token :=
  [.int "1", .symbol .plus, .keyword .not, .name "x", .symbol .eqEq, .symbol .minus, .name "y",
    .symbol .starStar, .name "z"]

/-- The tree of `1 + (not (x == (-(y ** z))))`. -/
def mixedTree : Node :=
  .mk .binaryExpression 0 9 [leaf .number 0, leaf .operator 1,
    .mk .unaryExpression 2 9 [leaf .operator 2,
      .mk .binaryExpression 3 9 [leaf .variableName 3, leaf .operator 4,
        .mk .unaryExpression 5 9 [leaf .operator 5,
          .mk .binaryExpression 6 9 [leaf .variableName 6, leaf .operator 7,
            leaf .variableName 8]]]]]

/-- The tokens can be grouped from the left, too. -/
theorem isGroupable_mixedTokens : IsGroupable mixedTokens := by
  have name (k : Nat) (x : String) : Grouped k [.name x] (leaf .variableName k) :=
    .primary (.atom rfl)
  have one : Grouped 0 [.int "1"] (leaf .number 0) := .primary (.atom rfl)
  have notX : Grouped 2 [.keyword .not, .name "x"] _ :=
    .unary (show levelIn unaryTable (.keyword .not) = some 3 from rfl) (name 3 "x")
  have minusY : Grouped 5 [.symbol .minus, .name "y"] _ :=
    .unary (show levelIn unaryTable (.symbol .minus) = some 7 from rfl) (name 6 "y")
  have sum : Grouped 0 [.int "1", .symbol .plus, .keyword .not, .name "x"] _ :=
    .binary (show levelIn binaryTable (.symbol .plus) = some 5 from rfl) one notX
  have comparison :=
    Grouped.binary (show levelIn binaryTable (.symbol .eqEq) = some 4 from rfl) sum minusY
  exact ⟨0, _, .binary (show levelIn binaryTable (.symbol .starStar) = some 8 from rfl) comparison
    (name 8 "z")⟩

theorem expression_read_by_table_mixed :
    IsGroupable mixedTokens ∧ ReadByTable [] mixedTokens [.newline] mixedTree := by
  refine ⟨isGroupable_mixedTokens, ?_⟩
  obtain ⟨⟨n, read, byTable⟩, -⟩ := expression_read_by_table mixedTokens isGroupable_mixedTokens
  have given : Node.ofTokens (mixedTokens ++ [.newline]) = .ok
      (.mk .script 0 10 [.mk .expressionStatement 0 9 [mixedTree]]) := rfl
  rw [given] at read
  cases read
  exact byTable

end Grammar

end Serpent
