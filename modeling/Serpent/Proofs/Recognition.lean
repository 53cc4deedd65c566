/-
Serpent.Proofs.Recognition — every derivation of the grammar is read.

The rules follow a derivation token by token and give its tree. What stands behind an expression
must not carry it on: no point, no parenthesis, and no operator that belongs to it. An operator
takes all that was read before it, so the rules for expressions are followed up to the place where
they look for more; there the outer derivation goes on. The fuel of every rule is bounded by the
tokens of its derivation.

  §1 Rules that give one thing
  §2 Expressions
  §3 Statements on one line
  §4 Statements with blocks
-/
import Serpent.Proofs.Grammar
import Serpent.Proofs.ReadStatement

namespace Serpent

/-! ## §1 Rules that give one thing -/

namespace Rule

variable {α β : Type} {k : Nat} {ts us vs rest : List Token}

/-- At index `k`, before the tokens `rest`, the rule takes exactly `us` and gives `a`. -/
def Gives (k : Nat) (us rest : List Token) (r : Rule α) (a : α) : Prop :=
  r ⟨k, us ++ rest⟩ = .ok (a, ⟨k + us.length, rest⟩)

theorem Gives.takes {r : Rule α} {a : α} (h : Gives k us rest r a) :
    Takes ts k us rest r fun b => b = a :=
  fun _ => ⟨a, h, rfl⟩

/-- What a rule takes does not depend on the tokens before. -/
theorem gives_of_takes {r : Rule α} {a : α}
    (h : ∀ ts, Takes ts k us rest r fun b => b = a) : Gives k us rest r a := by
  have at_index : (List.replicate k Token.newline ++ (us ++ rest)).drop k = us ++ rest :=
    List.drop_left' List.length_replicate
  obtain ⟨b, hr, rfl⟩ := h _ at_index
  exact hr

theorem Gives.bind {r : Rule α} {f : α → Rule β} {a : α} {P : β → Prop}
    (first : Gives k us (vs ++ rest) r a) (after : Takes ts (k + us.length) vs rest (f a) P) :
    Takes ts k (us ++ vs) rest (r >>= f) P := by
  refine first.takes.bind fun b hb => ?_
  subst hb
  exact after

theorem Gives.last {r : Rule α} {f : α → Rule β} {a : α} {P : β → Prop}
    (first : Gives k us rest r a) (after : Takes ts (k + us.length) [] rest (f a) P) :
    Takes ts k us rest (r >>= f) P := by
  refine first.takes.last fun b hb => ?_
  subst hb
  exact after

/-- After what a rule gives, the next rule goes on. -/
theorem Gives.bind_eq {r : Rule α} {a : α} (h : Gives k us rest r a) (f : α → Rule β) :
    (r >>= f) ⟨k, us ++ rest⟩ = f a ⟨k + us.length, rest⟩ := by
  change (r ⟨k, us ++ rest⟩ >>= fun p => f p.1 p.2) = _
  rw [h]
  rfl

end Rule

namespace Grammar

open Rule (Takes Gives gives_of_takes takes_pure takes_peek takes_here takes_remaining takes_expect
  takes_advance takes_leaf takes_name takes_close Ends ends_of_head Starts NoClause StartsItem)

variable {k : Nat} {ts us rest : List Token} {n : Node}

/-- A rule that closes a node over all that it took. -/
theorem takes_nodeOver {kind : Kind} {children : List Node} {i : Nat} (same : i = k + us.length) :
    Takes ts i [] rest (Rule.close kind k children) fun n => n = nodeOver kind k us children := by
  subst same
  exact takes_close

/-! ## §2 Expressions -/

mutual

theorem Primary.starts {k : Nat} {us : List Token} {n : Node} : Primary k us n → Starts us
  | @Primary.atom _ t _ h => ⟨t, rfl, by
      unfold atomKind? at h
      split at h <;> first | rfl | cases h⟩
  | .parens _ => ⟨_, rfl, rfl⟩
  | .member target _ => target.starts.append _
  | .call target _ => target.starts.append _

theorem Expression.starts {k : Nat} {us : List Token} {n : Node} {top bound : Nat} :
    Expression k us n top bound → Starts us
  | .primary h => h.starts
  | @Expression.unary _ t _ _ _ _ _ op _ _ => ⟨t, rfl, by
      unfold unaryLevel? at op
      split at op <;> first | rfl | cases op⟩
  | .binary _ left _ _ _ => left.starts.append _

end

theorem length_pos_of_starts (h : Starts us) : 0 < us.length := by
  obtain ⟨t, ht, -⟩ := h
  cases us with
  | nil => cases ht
  | cons u us => simp

/-- The tokens do not carry an expression on, and no operator of the level `bound` or a higher one
stands in front. -/
def Halts (bound : Nat) (rest : List Token) : Prop :=
  ∀ t ∈ rest.head?, t ≠ .symbol .dot ∧ t ≠ .symbol .lparen ∧ ∀ level ∈ binaryLevel? t, level < bound

theorem Halts.mono {bound bound' : Nat} (h : Halts bound rest) (le : bound ≤ bound') :
    Halts bound' rest := by
  intro t ht
  obtain ⟨dot, lparen, low⟩ := h t ht
  exact ⟨dot, lparen, fun level found => Nat.lt_of_lt_of_le (low level found) le⟩

theorem halts_of_ends (h : Ends rest) (bound : Nat) : Halts bound rest := by
  intro t ht
  obtain ⟨dot, lparen, none⟩ := h t ht
  exact ⟨dot, lparen, by simp [none]⟩

/-- A binary operator carries no operand on. -/
theorem halts_of_binary {t : Token} {level bound : Nat} (op : binaryLevel? t = some level)
    (low : level < bound) : Halts bound (t :: rest) := by
  intro u hu
  cases hu
  refine ⟨?_, ?_, fun found hfound => ?_⟩
  · rintro rfl
    cases op
  · rintro rfl
    cases op
  · rw [op] at hfound
    cases hfound
    exact low

theorem operations_of_halts {fuel level i : Nat} (h : Halts level rest) :
    Rule.operations (fuel + 1) level n ⟨i, rest⟩ = .ok (n, ⟨i, rest⟩) := by
  cases rest with
  | nil => rfl
  | cons t rest =>
    rw [Rule.operations_succ]
    cases found : binaryLevel? t with
    | none => rfl
    | some f =>
      dsimp only
      rw [if_pos ((h t rfl).2.2 f found)]
      rfl

/-- A primary is read up to the place where the rule looks for a point or a parenthesis. -/
def ReadsPrimary (k : Nat) (us : List Token) (n : Node) : Prop :=
  ∀ rest fuel, 5 * us.length ≤ fuel + 1 → ∃ fuel', fuel ≤ fuel' + us.length ∧
    Rule.operand fuel ⟨k, us ++ rest⟩ = Rule.trailers fuel' n ⟨k + us.length, rest⟩

/-- An expression is read up to the place where the rule looks for an operator. -/
def ReadsExpression (k : Nat) (us : List Token) (n : Node) (top bound : Nat) : Prop :=
  ∀ rest fuel level, 5 * us.length ≤ fuel → level ≤ top → Halts bound rest →
    ∃ fuel', fuel ≤ fuel' + us.length ∧ Rule.expressionWithin fuel level ⟨k, us ++ rest⟩ =
      Rule.operations fuel' level n ⟨k + us.length, rest⟩

/-- Where no operator behind an expression belongs to it, it is read to its end. -/
theorem ReadsExpression.gives {top bound level fuel : Nat} (h : ReadsExpression k us n top bound)
    (starts : Starts us) (enough : 5 * us.length ≤ fuel) (tight : level ≤ top)
    (halts : Halts (min level bound) rest) :
    Gives k us rest (Rule.expressionWithin fuel level) n := by
  have pos := length_pos_of_starts starts
  obtain ⟨fuel', left, read⟩ :=
    h rest fuel level enough tight (halts.mono (Nat.min_le_right level bound))
  obtain ⟨fuel', rfl⟩ : ∃ f, fuel' = f + 1 := ⟨fuel' - 1, by omega⟩
  exact read.trans (operations_of_halts (halts.mono (Nat.min_le_left level bound)))

theorem readsPrimary_atom {t : Token} {kind : Kind} (h : atomKind? t = some kind) :
    ReadsPrimary k [t] (leaf kind k) := by
  intro rest fuel enough
  rw [List.length_singleton] at enough
  obtain ⟨fuel, rfl⟩ : ∃ f, fuel = f + 2 := ⟨fuel - 2, by omega⟩
  exact ⟨fuel + 1, Nat.le_refl _,
    Rule.operand_of_atom (Rule.unaryLevel?_of_atom h) (Rule.atom_leaf h fuel k rest)⟩

theorem ReadsExpression.parens {top bound : Nat} (h : ReadsExpression (k + 1) us n top bound)
    (starts : Starts us) :
    ReadsPrimary k (.symbol .lparen :: (us ++ [Token.symbol .rparen]))
      (nodeOver .parenthesizedExpression k (.symbol .lparen :: (us ++ [Token.symbol .rparen]))
        [n]) := by
  intro rest fuel enough
  simp only [List.length_append, List.length_cons, List.length_nil] at enough
  obtain ⟨fuel, rfl⟩ : ∃ f, fuel = f + 2 := ⟨fuel - 2, by omega⟩
  have atom : Gives k (.symbol .lparen :: (us ++ [Token.symbol .rparen])) rest
      (Rule.atom (fuel + 1)) (nodeOver .parenthesizedExpression k
        (.symbol .lparen :: (us ++ [Token.symbol .rparen])) [n]) := by
    refine gives_of_takes fun ts => takes_peek (takes_here ((takes_expect _).cons fun _ _ => ?_))
    have ends : Ends (.symbol .rparen :: rest) := ends_of_head (by simp) (by simp) rfl
    refine Gives.bind (h.gives starts (by omega) (Nat.zero_le _) (halts_of_ends ends _)) ?_
    exact (takes_expect _).last fun _ _ => takes_nodeOver (by simp +arith)
  exact ⟨fuel + 1, by simp +arith, Rule.operand_of_atom rfl atom⟩

theorem ReadsPrimary.member (h : ReadsPrimary k us n) (first : n.first = k) (x : String) :
    ReadsPrimary k (us ++ [Token.symbol .dot, .name x])
      (nodeOver .memberExpression k (us ++ [Token.symbol .dot, .name x])
        [n, leaf .propertyName (k + us.length + 1)]) := by
  intro rest fuel enough
  rw [List.length_append, List.length_cons, List.length_singleton] at enough ⊢
  obtain ⟨fuel', left, read⟩ := h ([Token.symbol .dot, .name x] ++ rest) fuel (by omega)
  obtain ⟨fuel', rfl⟩ : ∃ f, fuel' = f + 1 := ⟨fuel' - 1, by omega⟩
  refine ⟨fuel', by omega, ?_⟩
  rw [List.append_assoc, read]
  refine Rule.trailers_member.trans ?_
  rw [Node.join, first]
  simp [nodeOver, leaf, Node.stop, Nat.add_assoc]

theorem ReadsPrimary.call {vs : List Token} {args : Node} (h : ReadsPrimary k us n)
    (first : n.first = k) (starts : Starts us) (list : ArgList (k + us.length) vs args)
    (gives : ∀ rest fuel, 5 * vs.length ≤ fuel →
      Gives (k + us.length) vs rest (Rule.argList fuel) args) :
    ReadsPrimary k (us ++ vs) (nodeOver .callExpression k (us ++ vs) [n, args]) := by
  intro rest fuel enough
  have pos := length_pos_of_starts starts
  have stop := list.range.2
  rw [List.length_append] at enough ⊢
  obtain ⟨fuel', left, read⟩ := h (vs ++ rest) fuel (by omega)
  obtain ⟨fuel', rfl⟩ : ∃ f, fuel' = f + 1 := ⟨fuel' - 1, by omega⟩
  have called := gives rest fuel' (by omega)
  obtain ⟨arguments⟩ := list
  refine ⟨fuel', by rw [List.length_cons]; omega, ?_⟩
  rw [List.append_assoc, read]
  refine (Rule.trailers_call called).trans ?_
  rw [Node.join, first, stop]
  simp [nodeOver, Nat.add_assoc]

theorem ReadsPrimary.expression (h : ReadsPrimary k us n) (starts : Starts us) :
    ReadsExpression k us n noLevel noLevel := by
  intro rest fuel level enough _ halts
  have pos := length_pos_of_starts starts
  obtain ⟨fuel, rfl⟩ : ∃ f, fuel = f + 1 := ⟨fuel - 1, by omega⟩
  obtain ⟨fuel', left, read⟩ := h rest fuel (by omega)
  obtain ⟨fuel', rfl⟩ : ∃ f, fuel' = f + 1 := ⟨fuel' - 1, by omega⟩
  rw [Rule.trailers_end fun t ht => ⟨(halts t ht).1, (halts t ht).2.1⟩] at read
  exact ⟨fuel, by omega, Gives.bind_eq read _⟩

theorem ReadsExpression.unary {t : Token} {level top bound : Nat}
    (h : ReadsExpression (k + 1) us n top bound) (starts : Starts us)
    (stop : n.stop = k + 1 + us.length) (op : unaryLevel? t = some level) (tight : level ≤ top) :
    ReadsExpression k (t :: us) (nodeOver .unaryExpression k (t :: us) [leaf .operator k, n])
      noLevel (min level bound) := by
  intro rest fuel within enough _ halts
  rw [List.length_cons] at enough ⊢
  obtain ⟨fuel, rfl⟩ : ∃ f, fuel = f + 2 := ⟨fuel - 2, by omega⟩
  have read : Gives k (t :: us) rest (Rule.operand (fuel + 1))
      (nodeOver .unaryExpression k (t :: us) [leaf .operator k, n]) := by
    refine gives_of_takes fun ts => takes_peek ?_
    rw [List.cons_append, List.head?_cons, Option.bind_some, op]
    refine takes_leaf.cons fun o ⟨ho, _⟩ => ?_
    refine (h.gives starts (by omega) tight halts).last (takes_pure ?_)
    rw [ho, Node.join, stop]
    simp +arith [Node.first]
  exact ⟨fuel + 1, by omega, Gives.bind_eq read _⟩

theorem ReadsExpression.binary {t : Token} {vs : List Token} {l r : Node}
    {level top bound top' bound' : Nat} (op : binaryLevel? t = some level)
    (left : ReadsExpression k us l top bound)
    (right : ReadsExpression (k + us.length + 1) vs r top' bound') (starts : Starts vs)
    (first : l.first = k) (stop : r.stop = k + us.length + 1 + vs.length) (loose : level < bound)
    (low : bound ≤ top + 1) (tight : rightLevel t level ≤ top') :
    ReadsExpression k (us ++ t :: vs)
      (nodeOver .binaryExpression k (us ++ t :: vs) [l, leaf .operator (k + us.length), r]) level
      (min (rightLevel t level) bound') := by
  intro rest fuel within enough le halts
  rw [List.length_append, List.length_cons] at enough ⊢
  obtain ⟨fuel', fewer, read⟩ :=
    left (t :: vs ++ rest) fuel within (by omega) (by omega) (halts_of_binary op loose)
  obtain ⟨fuel', rfl⟩ : ∃ f, fuel' = f + 1 := ⟨fuel' - 1, by omega⟩
  refine ⟨fuel', by omega, ?_⟩
  have second : Gives (k + us.length + 1) vs rest
      (Rule.expressionWithin fuel' (rightLevel t level)) r :=
    right.gives starts (by omega) tight halts
  rw [List.append_assoc, read, List.cons_append, Rule.operations_succ, op]
  dsimp only
  rw [if_neg (Nat.not_lt.2 le)]
  have operator : Gives (k + us.length) [t] (vs ++ rest) (Rule.leaf .operator)
      (leaf .operator (k + us.length)) := rfl
  refine (operator.bind_eq _).trans ((second.bind_eq _).trans ?_)
  rw [Node.join, first, stop]
  simp +arith [nodeOver]

/-- What is read as arguments in parentheses. -/
def ReadsArguments (k : Nat) (us : List Token) (ns : List Node) : Prop :=
  ∀ rest fuel, 5 * us.length + 1 ≤ fuel →
    Gives k us (.symbol .rparen :: rest) (Rule.arguments fuel) ns

theorem ReadsArguments.argList {ns : List Node} (h : ReadsArguments (k + 1) us ns) (fuel : Nat)
    (enough : 5 * (Token.symbol .lparen :: (us ++ [Token.symbol .rparen])).length ≤ fuel) :
    Gives k (.symbol .lparen :: (us ++ [Token.symbol .rparen])) rest (Rule.argList fuel)
      (nodeOver .argList k (.symbol .lparen :: (us ++ [Token.symbol .rparen])) ns) := by
  simp only [List.length_append, List.length_cons, List.length_nil] at enough
  obtain ⟨fuel, rfl⟩ : ∃ f, fuel = f + 1 := ⟨fuel - 1, by omega⟩
  refine gives_of_takes fun ts => takes_here ((takes_expect _).cons fun _ _ => ?_)
  refine Gives.bind (h rest fuel (by omega)) ?_
  exact (takes_expect _).last fun _ _ => takes_nodeOver (by simp +arith)

theorem readsArguments_nil : ReadsArguments k [] [] := by
  intro rest fuel enough
  obtain ⟨fuel, rfl⟩ : ∃ f, fuel = f + 1 := ⟨fuel - 1, by omega⟩
  rfl

theorem ReadsExpression.lastArgument {top bound : Nat} (h : ReadsExpression k us n top bound)
    (starts : Starts us) : ReadsArguments k us [n] := by
  intro rest fuel enough
  obtain ⟨fuel, rfl⟩ : ∃ f, fuel = f + 1 := ⟨fuel - 1, by omega⟩
  have ends : Ends (.symbol .rparen :: rest) := ends_of_head (by simp) (by simp) rfl
  refine gives_of_takes fun ts => Takes.congr ?_ (Rule.arguments_succ (starts.append _))
  refine (h.gives starts (by omega) (Nat.zero_le _) (halts_of_ends ends _)).last ?_
  exact takes_peek (takes_pure rfl)

theorem ReadsExpression.argument {vs : List Token} {ns : List Node} {top bound : Nat}
    (h : ReadsExpression k us n top bound) (starts : Starts us)
    (more : ReadsArguments (k + us.length + 1) vs ns) :
    ReadsArguments k (us ++ .symbol .comma :: vs) (n :: ns) := by
  intro rest fuel enough
  rw [List.length_append, List.length_cons] at enough
  obtain ⟨fuel, rfl⟩ : ∃ f, fuel = f + 1 := ⟨fuel - 1, by omega⟩
  have ends (rest : List Token) : Ends (.symbol .comma :: rest) :=
    ends_of_head (by simp) (by simp) rfl
  refine gives_of_takes fun ts =>
    Takes.congr ?_ (Rule.arguments_succ ((starts.append _).append _))
  refine Gives.bind (h.gives starts (by omega) (Nat.zero_le _) (halts_of_ends (ends _) _)) ?_
  refine takes_peek (takes_advance.cons fun _ _ => ?_)
  exact (more rest fuel (by omega)).last (takes_pure rfl)

mutual

theorem Primary.reads {k : Nat} {us : List Token} {n : Node} :
    Primary k us n → ReadsPrimary k us n
  | .atom h => readsPrimary_atom h
  | .parens inner => inner.reads.parens inner.starts
  | .member target x => target.reads.member target.range.1 x
  | .call target (.mk h) =>
    target.reads.call target.range.1 target.starts (.mk h) fun _ fuel => h.reads.argList fuel

theorem Expression.reads {k : Nat} {us : List Token} {n : Node} {top bound : Nat} :
    Expression k us n top bound → ReadsExpression k us n top bound
  | .primary h => h.reads.expression h.starts
  | .unary op operand tight => operand.reads.unary operand.starts operand.range.2 op tight
  | .binary op left right loose tight =>
    .binary op left.reads right.reads right.starts left.range.1 right.range.2 loose left.bound_le
      tight

theorem Arguments.reads {k : Nat} {us : List Token} {ns : List Node} :
    Arguments k us ns → ReadsArguments k us ns
  | .nil => readsArguments_nil
  | .last h => h.reads.lastArgument h.starts
  | .cons first rest => first.reads.argument first.starts rest.reads

end

theorem IsExpression.starts (h : IsExpression k us n) : Starts us := by
  obtain ⟨top, bound, h⟩ := h
  exact h.starts

/-- An expression is read before tokens that do not carry it on. -/
theorem IsExpression.gives (h : IsExpression k us n) (ends : Ends rest) :
    Gives k us rest Rule.expression n := by
  obtain ⟨top, bound, h⟩ := h
  have enough : 5 * us.length ≤ Rule.depthBound (us ++ rest).length := by
    rw [Rule.depthBound, List.length_append]
    omega
  refine gives_of_takes fun ts => takes_remaining ?_
  exact (h.reads.gives h.starts enough (Nat.zero_le _) (halts_of_ends ends _)).takes

theorem ArgList.gives (h : ArgList k us n) : Gives k us rest Rule.parenthesized n := by
  obtain ⟨h⟩ := h
  refine gives_of_takes fun ts => takes_remaining (h.reads.argList _ ?_).takes
  rw [Rule.depthBound, List.length_append]
  omega

/-! ## §3 Statements on one line -/

theorem ends_of_head? {t : Token} (next : rest.head? = some t) (dot : t ≠ .symbol .dot)
    (lparen : t ≠ .symbol .lparen) (operator : binaryLevel? t = none) : Ends rest := by
  obtain ⟨rest, rfl⟩ := List.head?_eq_some_iff.1 next
  exact ends_of_head dot lparen operator

section Optional

variable {part : Nat → List Token → Node → Prop} {t : Token} {o : Option Node}

theorem gives_optional_some {r : Rule Node} (h : Gives k (t :: us) rest r n) :
    Gives k (t :: us) rest (Rule.optional t r) (some n) := by
  refine gives_of_takes fun ts => (Rule.takes_optional_some h.takes).imp ?_
  rintro _ ⟨m, rfl, rfl⟩
  rfl

theorem Optionally.gives {r : Rule Node} (h : Optionally part k us o) (absent : rest.head? ≠ some t)
    (marked : ∀ n, part k us n → us.head? = some t)
    (present : ∀ n, part k us n → Gives k us rest r n) :
    Gives k us rest (Rule.optional t r) o := by
  cases h with
  | absent => exact gives_of_takes fun ts => Rule.takes_optional_none absent
  | present h =>
    have gives := present _ h
    obtain ⟨vs, rfl⟩ := List.head?_eq_some_iff.1 (marked _ h)
    exact gives_optional_some gives

/-- Before `rest` stands an optional part, or nothing. -/
theorem Optionally.head (h : Optionally part k us o)
    (marked : ∀ n, part k us n → us.head? = some t) :
    (us ++ rest).head? = some t ∨ (us ++ rest).head? = rest.head? := by
  cases h with
  | absent => exact .inr rfl
  | present h =>
    obtain ⟨vs, rfl⟩ := List.head?_eq_some_iff.1 (marked _ h)
    exact .inl rfl

end Optional

theorem TypeAfter.head {mark : Symbol} (h : TypeAfter mark k us n) :
    us.head? = some (.symbol mark) := by
  cases h
  rfl

theorem TypeAfter.gives {mark : Symbol} (h : TypeAfter mark k us n) (ends : Ends rest) :
    Gives k us rest (Rule.typeAfter mark) n := by
  obtain ⟨h⟩ := h
  refine gives_of_takes fun ts => takes_here ((takes_expect _).cons fun _ _ => ?_)
  exact (h.gives ends).last (takes_nodeOver (by simp +arith))

theorem Value.head (h : Value k us n) : us.head? = some (.symbol .assign) := by
  cases h
  rfl

theorem Value.gives (h : Value k us n) (ends : Ends rest) :
    Gives k us rest Rule.initialValue n := by
  obtain ⟨h⟩ := h
  exact gives_of_takes fun ts => (takes_expect _).cons fun _ _ => (h.gives ends).takes

/-- A target with its type and its value, if it has them, is read up to the end of the line. -/
theorem gives_assignment {vs ws : List Token} {type value : Option Node}
    (target : IsExpression k us n)
    (typed : Optionally (TypeAfter .colon) (k + us.length) vs type)
    (assigned : Optionally Value (k + us.length + vs.length) ws value) :
    Gives k (us ++ (vs ++ ws)) (.newline :: rest) Rule.assignment
      (nodeOver (if type.isSome || value.isSome then .assignStatement else .expressionStatement) k
        (us ++ (vs ++ ws)) (n :: type.toList ++ value.toList)) := by
  have ends : Ends (.newline :: rest) := Rule.ends_newline
  have next : (ws ++ .newline :: rest).head? = some (.symbol .assign) ∨
      (ws ++ .newline :: rest).head? = some .newline := assigned.head fun _ h => h.head
  have ends' : Ends (ws ++ .newline :: rest) := by
    rcases next with next | next <;> exact ends_of_head? next (by simp) (by simp) rfl
  have next' : (vs ++ (ws ++ .newline :: rest)).head? = some (.symbol .colon) ∨
      (vs ++ (ws ++ .newline :: rest)).head? = (ws ++ .newline :: rest).head? :=
    typed.head fun _ h => h.head
  have ends'' : Ends (vs ++ (ws ++ .newline :: rest)) := by
    rcases next' with colon | same
    · exact ends_of_head? colon (by simp) (by simp) rfl
    · intro t ht
      exact ends' t (same ▸ ht)
  refine gives_of_takes fun ts => takes_here ?_
  refine Gives.bind (by rw [List.append_assoc]; exact target.gives ends'') ?_
  refine Gives.bind (typed.gives ?_ (fun _ h => h.head) fun _ h => h.gives ends') ?_
  · rcases next with next | next <;> simp [next]
  refine (assigned.gives (by simp) (fun _ h => h.head) fun _ h => h.gives ends).last ?_
  rw [nodeOver, List.length_append, List.length_append, ← Nat.add_assoc, ← Nat.add_assoc]
  cases type <;> cases value <;> exact takes_close

/-- The tokens start as a statement on one line does. -/
def StartsLine (us : List Token) : Prop :=
  us.head? = some (.keyword .pass) ∨ us.head? = some (.keyword .return_) ∨ Starts us

theorem StartsLine.append (h : StartsLine us) (vs : List Token) : StartsLine (us ++ vs) := by
  rcases h with pass | return_ | h
  · exact .inl (by rw [List.head?_append, pass]; rfl)
  · exact .inr (.inl (by rw [List.head?_append, return_]; rfl))
  · exact .inr (.inr (h.append vs))

theorem Simple.starts (h : Simple k us n) : StartsLine us := by
  cases h with
  | pass => exact .inl rfl
  | return_ h => exact .inr (.inl rfl)
  | expression h => exact .inr (.inr h.starts)
  | assign target typed assigned more => exact .inr (.inr (target.starts.append _))

/-- A line that starts as an expression does is an assignment or an expression. -/
theorem simple_assignment {i : Nat} (h : Starts us) :
    Rule.simple ⟨i, us⟩ =
      (do
        let stmt ← Rule.assignment
        Rule.expect .newline
        return stmt) ⟨i, us⟩ := by
  obtain ⟨t, ht, start⟩ := h
  cases us with
  | nil => cases ht
  | cons u us =>
    cases ht
    cases t with
    | keyword w => cases w <;> first | rfl | cases start
    | _ => rfl

theorem gives_returned {value : Option Node} (h : Optionally IsExpression (k + 1) us value) :
    Gives k (.keyword .return_ :: us) (.newline :: rest) Rule.returned
      (nodeOver .returnStatement k (.keyword .return_ :: us) value.toList) := by
  refine gives_of_takes fun ts => takes_here ((takes_expect _).cons fun _ _ => takes_peek ?_)
  cases h with
  | absent => exact takes_close
  | present h =>
    rw [if_neg]
    · exact (h.gives Rule.ends_newline).last (takes_nodeOver (by simp +arith))
    · obtain ⟨t, ht, start⟩ := h.starts.append (.newline :: rest)
      rw [ht]
      rintro ⟨⟩
      cases start

/-- A statement on one line is read with the end of its line. -/
theorem Simple.gives (h : Simple k us n) : Gives k (us ++ [Token.newline]) rest Rule.simple n := by
  have assigned {m : Node} (starts : Starts us)
      (gives : Gives k us (.newline :: rest) Rule.assignment m) :
      Gives k (us ++ [Token.newline]) rest Rule.simple m := by
    refine gives_of_takes fun ts =>
      Takes.congr ?_ (simple_assignment ((starts.append _).append _))
    exact Gives.bind gives ((takes_expect _).last fun _ _ => takes_pure rfl)
  cases h with
  | pass =>
    refine gives_of_takes fun ts => takes_peek (takes_leaf.cons fun s hs => ?_)
    exact (takes_expect _).last fun _ _ => takes_pure hs.1
  | return_ h =>
    refine gives_of_takes fun ts => takes_peek (Gives.bind (gives_returned h) ?_)
    exact (takes_expect _).last fun _ _ => takes_pure rfl
  | expression h =>
    refine assigned h.starts ?_
    simpa using gives_assignment h .absent .absent
  | @assign _ _ _ _ type value target typed assignedTo more =>
    refine assigned (target.starts.append _) ?_
    have kind : (type.isSome || value.isSome) = true := by simpa using more
    simpa only [kind, if_true] using gives_assignment target typed assignedTo

theorem Parameter.gives (h : Parameter k us n)
    (next : rest.head? = some (.symbol .comma) ∨ rest.head? = some (.symbol .rparen)) :
    Gives k us rest Rule.parameter n := by
  obtain ⟨x, typed⟩ := h
  have ends : Ends rest := by
    rcases next with next | next <;> exact ends_of_head? next (by simp) (by simp) rfl
  refine gives_of_takes fun ts => takes_here (takes_name.cons fun x hx => ?_)
  obtain ⟨rfl, -⟩ := hx
  refine (typed.gives ?_ (fun _ h => h.head) fun _ h => h.gives ends).last ?_
  · rcases next with next | next <;> simp [next]
  · exact takes_nodeOver (by simp +arith)

theorem Parameters.gives {ps : List Node} (h : Parameters k us ps) {fuel : Nat}
    (enough : us.length + 1 ≤ fuel) :
    Gives k us (.symbol .rparen :: rest) (Rule.parameters fuel) ps := by
  induction h generalizing fuel with
  | nil =>
    obtain ⟨fuel, rfl⟩ : ∃ f, fuel = f + 1 := ⟨fuel - 1, by omega⟩
    rfl
  | last h =>
    obtain ⟨fuel, rfl⟩ : ∃ f, fuel = f + 1 := ⟨fuel - 1, by omega⟩
    have read : Gives _ _ (.symbol .rparen :: rest) Rule.parameter _ := h.gives (.inr rfl)
    obtain ⟨x, typed⟩ := h
    refine gives_of_takes fun ts => takes_peek (read.last ?_)
    exact takes_peek (takes_pure rfl)
  | @cons k ts us p ps h _ ih =>
    rw [List.length_append, List.length_cons] at enough
    obtain ⟨fuel, rfl⟩ : ∃ f, fuel = f + 1 := ⟨fuel - 1, by omega⟩
    have read : Gives k ts (.symbol .comma :: us ++ .symbol .rparen :: rest) Rule.parameter p :=
      h.gives (.inl rfl)
    obtain ⟨x, typed⟩ := h
    refine gives_of_takes fun ts => takes_peek (Gives.bind read ?_)
    refine takes_peek (takes_advance.cons fun _ _ => ?_)
    exact (ih (by omega)).last (takes_pure rfl)

theorem ParamList.gives (h : ParamList k us n) : Gives k us rest Rule.paramList n := by
  obtain ⟨h⟩ := h
  refine gives_of_takes fun ts => takes_here ((takes_expect _).cons fun _ _ => takes_remaining ?_)
  refine Gives.bind (h.gives ?_) ?_
  · rw [Rule.depthBound, List.length_append, List.length_append]
    omega
  · exact (takes_expect _).last fun _ _ => takes_nodeOver (by simp +arith)

/-! ## §4 Statements with blocks -/

/-- A statement is read before tokens that are no clause. -/
def ReadsStatement (k : Nat) (us : List Token) (n : Node) : Prop :=
  ∀ rest fuel, us.length ≤ fuel → NoClause rest → Gives k us rest (Rule.statement fuel) n

def ReadsBody (k : Nat) (us : List Token) (n : Node) : Prop :=
  ∀ rest fuel, us.length ≤ fuel → Gives k us rest (Rule.body fuel) n

/-- Statements are read up to the end of the block or of the input. -/
def ReadsStatements (k : Nat) (us : List Token) (ns : List Node) : Prop :=
  ∀ rest fuel, us.length + 1 ≤ fuel → (∀ t ∈ rest.head?, t = .dedent) →
    Gives k us rest (Rule.statements fuel) ns

def ReadsElifs (k : Nat) (us : List Token) (ns : List Node) : Prop :=
  ∀ rest fuel, us.length + 1 ≤ fuel → rest.head? ≠ some (.keyword .elif) →
    Gives k us rest (Rule.elifClauses fuel) ns

def ReadsOtherwise (k : Nat) (us : List Token) (o : Option Node) : Prop :=
  ∀ rest fuel, us.length ≤ fuel → rest.head? ≠ some (.keyword .else_) →
    Gives k us rest (Rule.optional (.keyword .else_) (Rule.elseClause fuel)) o

theorem Body.head (h : Body k us n) : us.head? = some (.symbol .colon) := by
  cases h <;> rfl

/-- A body carries no expression on. -/
theorem Body.ends (h : Body k us n) (rest : List Token) : Ends (us ++ rest) := by
  obtain ⟨us, rfl⟩ := List.head?_eq_some_iff.1 h.head
  exact ends_of_head (by simp) (by simp) rfl

theorem Body.length_pos (h : Body k us n) : 0 < us.length := by
  obtain ⟨us, rfl⟩ := List.head?_eq_some_iff.1 h.head
  simp

theorem StartsLine.startsItem (h : StartsLine us) : StartsItem us := by
  rcases h with pass | return_ | h
  · exact ⟨_, pass, by simp⟩
  · exact ⟨_, return_, by simp⟩
  · exact Rule.startsItem_of_starts h

theorem Statement.starts (h : Statement k us n) : StartsItem us := by
  cases h with
  | simple h => exact (h.starts.append _).startsItem
  | if_ _ _ _ _ => exact ⟨_, rfl, by simp⟩
  | while_ _ _ => exact ⟨_, rfl, by simp⟩
  | function _ _ _ _ => exact ⟨_, rfl, by simp⟩
  | class_ _ _ _ => exact ⟨_, rfl, by simp⟩

/-- Statements, and then the end of the block or of the input: no clause stands there. -/
theorem Statements.noClause {ns : List Node} (h : Statements k us ns)
    (ended : ∀ t ∈ rest.head?, t = .dedent) : NoClause (us ++ rest) := by
  cases h with
  | nil =>
    intro t ht
    simp [ended t ht]
  | cons first more => exact (first.starts.append _).noClause rest

theorem statement_simple {fuel i : Nat} (h : StartsLine us) :
    Rule.statement (fuel + 1) ⟨i, us⟩ = Rule.simple ⟨i, us⟩ := by
  cases us with
  | nil => rfl
  | cons t us =>
    rcases h with pass | return_ | ⟨_, ⟨⟩, start⟩
    · cases pass
      rfl
    · cases return_
      rfl
    · cases t with
      | keyword w => cases w <;> first | rfl | cases start
      | _ => rfl

theorem Simple.readsStatement (h : Simple k us n) : ReadsStatement k (us ++ [Token.newline]) n := by
  intro rest fuel enough _
  rw [List.length_append, List.length_singleton] at enough
  obtain ⟨fuel, rfl⟩ : ∃ f, fuel = f + 1 := ⟨fuel - 1, by omega⟩
  exact (statement_simple ((h.starts.append _).append _)).trans h.gives

theorem readsStatement_if {vs ws xs : List Token} {c b : Node} {clauses : List Node}
    {last : Option Node} (condition : IsExpression (k + 1) us c)
    (block : Body (k + 1 + us.length) vs b) (readsBlock : ReadsBody (k + 1 + us.length) vs b)
    (elifs : ReadsElifs (k + 1 + us.length + vs.length) ws clauses)
    (noElif : xs.head? ≠ some (.keyword .elif))
    (otherwise : ReadsOtherwise (k + 1 + us.length + vs.length + ws.length) xs last) :
    ReadsStatement k (.keyword .if_ :: (us ++ (vs ++ (ws ++ xs))))
      (nodeOver .ifStatement k (.keyword .if_ :: (us ++ (vs ++ (ws ++ xs))))
        (c :: b :: clauses ++ last.toList)) := by
  intro rest fuel enough noClause
  simp only [List.length_cons, List.length_append] at enough
  have pos := block.length_pos
  obtain ⟨fuel, rfl⟩ : ∃ f, fuel = f + 1 := ⟨fuel - 1, by omega⟩
  have noElse : rest.head? ≠ some (.keyword .else_) := fun ht => (noClause _ ht).2 rfl
  have noElif' : (xs ++ rest).head? ≠ some (.keyword .elif) := by
    cases xs with
    | nil => exact fun ht => (noClause _ ht).1 rfl
    | cons x xs => exact noElif
  refine gives_of_takes fun ts => takes_here (takes_peek (takes_advance.cons fun _ _ => ?_))
  refine Gives.bind (by rw [List.append_assoc]; exact condition.gives (block.ends _)) ?_
  refine Gives.bind (readsBlock _ fuel (by omega)) ?_
  refine Gives.bind (elifs _ fuel (by omega) noElif') ?_
  exact (otherwise rest fuel (by omega) noElse).last (takes_nodeOver (by simp +arith))

theorem readsStatement_while {vs : List Token} {c b : Node}
    (condition : IsExpression (k + 1) us c) (block : Body (k + 1 + us.length) vs b)
    (readsBlock : ReadsBody (k + 1 + us.length) vs b) :
    ReadsStatement k (.keyword .while_ :: (us ++ vs))
      (nodeOver .whileStatement k (.keyword .while_ :: (us ++ vs)) [c, b]) := by
  intro rest fuel enough _
  simp only [List.length_cons, List.length_append] at enough
  obtain ⟨fuel, rfl⟩ : ∃ f, fuel = f + 1 := ⟨fuel - 1, by omega⟩
  refine gives_of_takes fun ts => takes_here (takes_peek (takes_advance.cons fun _ _ => ?_))
  refine Gives.bind (condition.gives (block.ends _)) ?_
  exact (readsBlock rest fuel (by omega)).last (takes_nodeOver (by simp +arith))

theorem readsStatement_function (x : String) {vs ws : List Token} {params b : Node}
    {result : Option Node} (parameters : ParamList (k + 2) us params)
    (typed : Optionally (TypeAfter .arrow) (k + 2 + us.length) vs result)
    (block : Body (k + 2 + us.length + vs.length) ws b)
    (readsBlock : ReadsBody (k + 2 + us.length + vs.length) ws b) :
    ReadsStatement k (.keyword .def_ :: .name x :: (us ++ (vs ++ ws)))
      (nodeOver .functionDefinition k (.keyword .def_ :: .name x :: (us ++ (vs ++ ws)))
        (leaf .variableName (k + 1) :: params :: result.toList ++ [b])) := by
  intro rest fuel enough _
  simp only [List.length_cons, List.length_append] at enough
  obtain ⟨fuel, rfl⟩ : ∃ f, fuel = f + 1 := ⟨fuel - 1, by omega⟩
  have colon : (ws ++ rest).head? = some (.symbol .colon) := by
    rw [List.head?_append, block.head]
    rfl
  refine gives_of_takes fun ts => takes_here (takes_peek (takes_advance.cons fun _ _ => ?_))
  refine takes_name.cons fun x hx => ?_
  obtain ⟨rfl, -⟩ := hx
  refine Gives.bind parameters.gives ?_
  refine Gives.bind
    (typed.gives (by simp [colon]) (fun _ h => h.head) fun _ h => h.gives (block.ends rest)) ?_
  exact (readsBlock rest fuel (by omega)).last (takes_nodeOver (by simp +arith))

theorem ArgList.head (h : ArgList k us n) : us.head? = some (.symbol .lparen) := by
  cases h
  rfl

theorem readsStatement_class (x : String) {vs : List Token} {parents : Option Node} {b : Node}
    (arguments : Optionally ArgList (k + 2) us parents) (block : Body (k + 2 + us.length) vs b)
    (readsBlock : ReadsBody (k + 2 + us.length) vs b) :
    ReadsStatement k (.keyword .class_ :: .name x :: (us ++ vs))
      (nodeOver .classDefinition k (.keyword .class_ :: .name x :: (us ++ vs))
        (leaf .variableName (k + 1) :: parents.toList ++ [b])) := by
  intro rest fuel enough _
  simp only [List.length_cons, List.length_append] at enough
  obtain ⟨fuel, rfl⟩ : ∃ f, fuel = f + 1 := ⟨fuel - 1, by omega⟩
  have colon : (vs ++ rest).head? = some (.symbol .colon) := by
    rw [List.head?_append, block.head]
    rfl
  refine gives_of_takes fun ts => takes_here (takes_peek (takes_advance.cons fun _ _ => ?_))
  refine takes_name.cons fun x hx => ?_
  obtain ⟨rfl, -⟩ := hx
  refine Gives.bind (arguments.gives (by simp [colon]) (fun _ h => h.head) fun _ h => h.gives) ?_
  exact (readsBlock rest fuel (by omega)).last (takes_nodeOver (by simp +arith))

theorem body_line {fuel i : Nat} (h : StartsLine us) :
    Rule.body (fuel + 1) ⟨i, .symbol .colon :: us⟩ =
      (do
        Rule.expect (.symbol .colon)
        let stmt ← Rule.simple
        Rule.close .body i [stmt]) ⟨i, .symbol .colon :: us⟩ := by
  cases us with
  | nil => rfl
  | cons t us =>
    cases t with
    | newline =>
      rcases h with pass | return_ | ⟨_, head, start⟩
      · cases pass
      · cases return_
      · cases head
        cases start
    | _ => rfl

/-- A body on the line of its colon. -/
theorem Simple.readsBody (h : Simple (k + 1) us n) :
    ReadsBody k (.symbol .colon :: (us ++ [Token.newline]))
      (nodeOver .body k (.symbol .colon :: (us ++ [Token.newline])) [n]) := by
  intro rest fuel enough
  simp only [List.length_cons] at enough
  obtain ⟨fuel, rfl⟩ : ∃ f, fuel = f + 1 := ⟨fuel - 1, by omega⟩
  refine gives_of_takes fun ts => Takes.congr ?_ (body_line ((h.starts.append _).append _))
  exact (takes_expect _).cons fun _ _ => h.gives.last (takes_nodeOver (by simp +arith))

theorem ReadsStatement.block {vs : List Token} {ns : List Node}
    (first : ReadsStatement (k + 3) us n) (more : Statements (k + 3 + us.length) vs ns)
    (rest : ReadsStatements (k + 3 + us.length) vs ns) :
    ReadsBody k (.symbol .colon :: .newline :: .indent :: (us ++ (vs ++ [Token.dedent])))
      (nodeOver .body k (.symbol .colon :: .newline :: .indent :: (us ++ (vs ++ [Token.dedent])))
        (n :: ns)) := by
  intro rest' fuel enough
  simp only [List.length_cons, List.length_append] at enough
  obtain ⟨fuel, rfl⟩ : ∃ f, fuel = f + 1 := ⟨fuel - 1, by omega⟩
  have ended : ∀ t ∈ (Token.dedent :: rest').head?, t = .dedent := by
    intro t ht
    cases ht
    rfl
  refine gives_of_takes fun ts => takes_here ((takes_expect _).cons fun _ _ => takes_peek ?_)
  refine takes_advance.cons fun _ _ => (takes_expect _).cons fun _ _ => ?_
  refine Gives.bind (first _ fuel (by omega) ?_) ?_
  · rw [List.append_assoc]
    exact more.noClause ended
  refine Gives.bind (rest _ fuel (by omega) ended) ?_
  exact (takes_expect _).last fun _ _ => takes_nodeOver (by simp +arith)

theorem readsStatements_nil : ReadsStatements k [] [] := by
  intro rest fuel enough ended
  obtain ⟨fuel, rfl⟩ : ∃ f, fuel = f + 1 := ⟨fuel - 1, by omega⟩
  cases rest with
  | nil => rfl
  | cons t rest =>
    obtain rfl := ended t rfl
    rfl

theorem ReadsStatement.cons {vs : List Token} {ns : List Node} (first : ReadsStatement k us n)
    (starts : StartsItem us) (more : Statements (k + us.length) vs ns)
    (rest : ReadsStatements (k + us.length) vs ns) : ReadsStatements k (us ++ vs) (n :: ns) := by
  intro rest' fuel enough ended
  have pos : 0 < us.length := by
    obtain ⟨t, ht, -⟩ := starts
    cases us with
    | nil => cases ht
    | cons u us => simp
  rw [List.length_append] at enough
  obtain ⟨fuel, rfl⟩ : ∃ f, fuel = f + 1 := ⟨fuel - 1, by omega⟩
  refine gives_of_takes fun ts =>
    Takes.congr ?_ (Rule.statements_succ ((starts.append _).append _))
  refine Gives.bind (first _ fuel (by omega) (more.noClause ended)) ?_
  exact (rest rest' fuel (by omega) ended).last (takes_pure rfl)

theorem readsElifs_nil : ReadsElifs k [] [] := by
  intro rest fuel enough next
  obtain ⟨fuel, rfl⟩ : ∃ f, fuel = f + 1 := ⟨fuel - 1, by omega⟩
  cases rest with
  | nil => rfl
  | cons t rest =>
    cases t with
    | keyword w =>
      cases w
      case elif => exact absurd rfl next
      all_goals rfl
    | _ => rfl

theorem readsElifs_cons {vs ws : List Token} {c b : Node} {clauses : List Node}
    (condition : IsExpression (k + 1) us c) (block : Body (k + 1 + us.length) vs b)
    (readsBlock : ReadsBody (k + 1 + us.length) vs b)
    (rest : ReadsElifs (k + 1 + us.length + vs.length) ws clauses) :
    ReadsElifs k (.keyword .elif :: (us ++ (vs ++ ws)))
      (nodeOver .elifClause k (.keyword .elif :: (us ++ vs)) [c, b] :: clauses) := by
  intro rest' fuel enough next
  simp only [List.length_cons, List.length_append] at enough
  obtain ⟨fuel, rfl⟩ : ∃ f, fuel = f + 1 := ⟨fuel - 1, by omega⟩
  refine gives_of_takes fun ts => takes_peek (takes_here (takes_advance.cons fun _ _ => ?_))
  refine Gives.bind (by rw [List.append_assoc]; exact condition.gives (block.ends _)) ?_
  refine Gives.bind (readsBlock _ fuel (by omega)) ?_
  have closed : Takes ts (k + 1 + us.length + vs.length) [] (ws ++ rest')
      (Rule.close .elifClause k [c, b]) fun n =>
        n = nodeOver .elifClause k (.keyword .elif :: (us ++ vs)) [c, b] :=
    takes_nodeOver (by simp +arith)
  refine closed.skip fun clause hclause => ?_
  rw [hclause]
  exact (rest rest' fuel (by omega) next).last (takes_pure rfl)

theorem readsOtherwise_absent : ReadsOtherwise k [] none := by
  intro rest fuel _ next
  exact gives_of_takes fun ts => Rule.takes_optional_none next

theorem ReadsBody.otherwise (h : ReadsBody (k + 1) us n) :
    ReadsOtherwise k (.keyword .else_ :: us)
      (some (nodeOver .elseClause k (.keyword .else_ :: us) [n])) := by
  intro rest fuel enough _
  simp only [List.length_cons] at enough
  obtain ⟨fuel, rfl⟩ : ∃ f, fuel = f + 1 := ⟨fuel - 1, by omega⟩
  refine gives_optional_some (gives_of_takes fun ts => takes_here ?_)
  refine (takes_expect _).cons fun _ _ => ?_
  exact (h rest fuel (by omega)).last (takes_nodeOver (by simp +arith))

theorem Otherwise.head_ne_elif {o : Option Node} (h : Otherwise k us o) :
    us.head? ≠ some (.keyword .elif) := by
  cases h <;> simp

mutual

theorem Statement.reads {k : Nat} {us : List Token} {n : Node} :
    Statement k us n → ReadsStatement k us n
  | .simple h => h.readsStatement
  | .if_ condition block elifs otherwise =>
    readsStatement_if condition block block.reads elifs.reads otherwise.head_ne_elif
      otherwise.reads
  | .while_ condition block => readsStatement_while condition block block.reads
  | .function x parameters typed block =>
    readsStatement_function x parameters typed block block.reads
  | .class_ x arguments block => readsStatement_class x arguments block block.reads

theorem Body.reads {k : Nat} {us : List Token} {n : Node} : Body k us n → ReadsBody k us n
  | .line h => h.readsBody
  | .block first rest => first.reads.block rest rest.reads

theorem Statements.reads {k : Nat} {us : List Token} {ns : List Node} :
    Statements k us ns → ReadsStatements k us ns
  | .nil => readsStatements_nil
  | .cons first rest => first.reads.cons first.starts rest rest.reads

theorem Elifs.reads {k : Nat} {us : List Token} {ns : List Node} :
    Elifs k us ns → ReadsElifs k us ns
  | .nil => readsElifs_nil
  | .cons condition block rest => readsElifs_cons condition block block.reads rest.reads

theorem Otherwise.reads {k : Nat} {us : List Token} {o : Option Node} :
    Otherwise k us o → ReadsOtherwise k us o
  | .absent => readsOtherwise_absent
  | .present block => block.reads.otherwise

end

end Grammar

end Serpent
