/-
Serpent.Proofs.Embedding — tokens are read the same way among other tokens.

A rule that has read some tokens reads them again when other tokens stand before and behind them,
and it gives the same nodes, moved. Only where a rule has come to the end of the tokens and looks for
more could the tokens behind make a difference: a conditional would take the clauses that follow it.
On the way it is seen that the parentheses among the tokens that a rule reads are closed.

  §1 Moved nodes
  §2 A rule among other tokens
  §3 Expressions
  §4 Statements
  §5 Scripts
-/
import Serpent.Proofs.ReadStatement

namespace Serpent

open LayoutState

/-! ## §1 Moved nodes -/

namespace Node

mutual

/-- A node over tokens that stand `k` places further to the right. -/
def move (k : Nat) : Node → Node
  | .mk kind first stop parts => .mk kind (first + k) (stop + k) (moveAll k parts)

/-- Nodes over tokens that stand `k` places further to the right. -/
def moveAll (k : Nat) : List Node → List Node
  | [] => []
  | n :: ns => move k n :: moveAll k ns

end

variable {k : Nat}

theorem moveAll_eq_map (k : Nat) (ns : List Node) : moveAll k ns = ns.map (move k) := by
  induction ns with
  | nil => rfl
  | cons n ns ih => rw [moveAll, ih, List.map_cons]

theorem move_mk (kind : Kind) (first stop : Nat) (parts : List Node) :
    (mk kind first stop parts).move k = mk kind (first + k) (stop + k) (parts.map (move k)) := by
  rw [move, moveAll_eq_map]

mutual

theorem move_zero : ∀ n : Node, n.move 0 = n
  | .mk kind first stop parts => by
    rw [move, moveAll_zero parts]
    rfl

theorem moveAll_zero : ∀ ns : List Node, moveAll 0 ns = ns
  | [] => rfl
  | n :: ns => by rw [moveAll, move_zero n, moveAll_zero ns]

end

@[simp] theorem kind_move (n : Node) : (n.move k).kind = n.kind := by
  obtain ⟨kind, first, stop, parts⟩ := n
  rfl

theorem join_move (kind : Kind) (l r : Node) (parts : List Node) :
    join kind (l.move k) (r.move k) (parts.map (move k)) = (join kind l r parts).move k := by
  obtain ⟨_, _, _, _⟩ := l
  obtain ⟨_, _, _, _⟩ := r
  simp only [join, move_mk, first, stop]

theorem join_move_pair (kind : Kind) (l r : Node) :
    join kind (l.move k) (r.move k) [l.move k, r.move k] = (join kind l r [l, r]).move k :=
  join_move kind l r [l, r]

end Node

/-! ## §2 A rule among other tokens -/

namespace Rule

open Node

/-- What is known at a place between two tokens: whether the tokens may end there and others follow,
and how many parentheses are open. -/
structure Spot where
  mayEnd : Prop
  depth : Nat

variable {α β : Type} {k : Nat} {more : List Token} {c : Cursor} {P P₁ P' : Spot}

/-- Where the rule `r` reads tokens, the rule `r'` reads them `k` places further to the right and
before the tokens `more`, unless the tokens end where they may not. What it gives is moved by `g`,
and the parentheses that are open are as many as said. -/
def Repeats (k : Nat) (more : List Token) (c : Cursor) (P : Spot) (r r' : Rule α) (P' : Spot)
    (g : α → α) : Prop :=
  ∀ a c', r c = .ok (a, c') →
    ∃ used, c.rest = used ++ c'.rest ∧ c'.index = c.index + used.length ∧
      used.foldl depthAfter P.depth = P'.depth ∧
      ((c'.rest = [] → P'.mayEnd) → (c.rest = [] → P.mayEnd) ∧
        r' ⟨c.index + k, c.rest ++ more⟩ = .ok (g a, ⟨c'.index + k, c'.rest ++ more⟩))

theorem Repeats.bind {r r' : Rule α} {f f' : α → Rule β} {g : α → α} {h : β → β}
    (first : Repeats k more c P r r' P₁ g)
    (after : ∀ a c', Repeats k more c' P₁ (f a) (f' (g a)) P' h) :
    Repeats k more c P (r >>= f) (r' >>= f') P' h := by
  intro b c₂ ok
  obtain ⟨a, c₁, hr, hf⟩ := bind_eq_ok.1 ok
  obtain ⟨used, rest, index, depth, run⟩ := first a c₁ hr
  obtain ⟨used', rest', index', depth', run'⟩ := after a c₁ b c₂ hf
  refine ⟨used ++ used', ?_, ?_, ?_, fun ends => ?_⟩
  · rw [rest, rest', List.append_assoc]
  · rw [index', index, List.length_append, Nat.add_assoc]
  · rw [List.foldl_append, depth, depth']
  · obtain ⟨mayEnd, hf'⟩ := run' ends
    obtain ⟨mayEnd, hr'⟩ := run mayEnd
    exact ⟨mayEnd, bind_eq_ok.2 ⟨_, _, hr', hf'⟩⟩

theorem Repeats.weaken {r r' : Rule α} {g : α → α} {A B : Prop} {d : Nat}
    (h : Repeats k more c P r r' ⟨A, d⟩ g) (imp : B → A) : Repeats k more c P r r' ⟨B, d⟩ g := by
  intro a c' ok
  obtain ⟨used, rest, index, depth, run⟩ := h a c' ok
  exact ⟨used, rest, index, depth, fun ends => run fun nothing => imp (ends nothing)⟩

theorem repeats_pure {a a' : α} {g : α → α} (same : a' = g a) :
    Repeats k more c P (pure a) (pure a') P g := by
  intro b c' ok
  cases ok
  subst same
  exact ⟨[], rfl, rfl, rfl, fun ends => ⟨ends, rfl⟩⟩

theorem repeats_reject {r' : Rule α} {g : α → α} : Repeats k more c P reject r' P' g := by
  intro a c' ok
  cases ok

theorem repeats_ite {p : Prop} [Decidable p] {r r' s s' : Rule α} {g : α → α}
    (yes : p → Repeats k more c P r r' P' g) (no : ¬p → Repeats k more c P s s' P' g) :
    Repeats k more c P (if p then r else s) (if p then r' else s') P' g := by
  by_cases h : p
  · simpa only [if_pos h] using yes h
  · simpa only [if_neg h] using no h

theorem repeats_here {f f' : Nat → Rule α} {g : α → α}
    (h : Repeats k more c P (f c.index) (f' (c.index + k)) P' g) :
    Repeats k more c P (here >>= f) (here >>= f') P' g := h

theorem repeats_remaining {f f' : Nat → Rule α} {g : α → α}
    (h : Repeats k more c P (f c.rest.length) (f' (c.rest ++ more).length) P' g) :
    Repeats k more c P (remaining >>= f) (remaining >>= f') P' g := h

/-- A look at the next token: at the end of the tokens it must make no difference. -/
theorem repeats_peek {f f' : Option Token → Rule α} {g : α → α}
    (h : ∀ o, c.rest.head? = o → Repeats k more c P (f o) (f' o) P' g)
    (last : ∀ a c', c.rest = [] → f none c = .ok (a, c') → P'.mayEnd → f' more.head? = f' none) :
    Repeats k more c P (peek >>= f) (peek >>= f') P' g := by
  intro a c' ok
  have ok : f c.rest.head? c = .ok (a, c') := ok
  obtain ⟨used, rest, index, depth, run⟩ := h _ rfl a c' ok
  refine ⟨used, rest, index, depth, fun ends => ?_⟩
  obtain ⟨mayEnd, run⟩ := run ends
  refine ⟨mayEnd, ?_⟩
  show f' (c.rest ++ more).head? ⟨c.index + k, c.rest ++ more⟩ = _
  cases tokens : c.rest with
  | cons t ts =>
    rw [tokens] at run
    exact run
  | nil =>
    have ended : c'.rest = [] := (List.append_eq_nil_iff.1 (rest.symm.trans tokens)).2
    rw [tokens] at ok run
    rw [List.nil_append, last a c' tokens ok (ends ended)]
    exact run

/-- Where the tokens may only end if nothing follows, a look at the next token is the same. -/
theorem repeats_look {f f' : Option Token → Rule α} {g : α → α} {d : Nat}
    (h : ∀ o, c.rest.head? = o → Repeats k more c P (f o) (f' o) ⟨more = [], d⟩ g) :
    Repeats k more c P (peek >>= f) (peek >>= f') ⟨more = [], d⟩ g := by
  refine repeats_peek h fun a c' _ _ nothing => ?_
  rw [show more = [] from nothing]
  rfl

section Tokens

variable {A B : Prop} {d : Nat}

theorem repeats_expect {t : Token} :
    Repeats k more c ⟨A, d⟩ (expect t) (expect t) ⟨B, depthAfter d t⟩ id := by
  intro a c' ok
  obtain ⟨index, rest⟩ := c
  unfold expect at ok
  split at ok
  · cases ok
  · rename_i u rest' tokens
    split at ok
    · rename_i same
      cases ok
      obtain rfl : rest = u :: rest' := tokens
      refine ⟨[u], rfl, rfl, by rw [same]; rfl, fun _ => ⟨by simp, ?_⟩⟩
      simp [expect, same, Nat.add_right_comm]
    · cases ok

theorem repeats_advance {t : Token} (next : c.rest.head? = some t) :
    Repeats k more c ⟨A, d⟩ advance advance ⟨B, depthAfter d t⟩ id := by
  intro a c' ok
  obtain ⟨index, rest⟩ := c
  cases rest with
  | nil => cases next
  | cons u rest =>
    cases next
    cases ok
    refine ⟨[t], rfl, rfl, rfl, fun _ => ⟨by simp, ?_⟩⟩
    simp [advance, Nat.add_right_comm]

theorem repeats_leaf {kind : Kind} {t : Token} (next : c.rest.head? = some t)
    (flat : depthAfter d t = d) :
    Repeats k more c ⟨A, d⟩ (leaf kind) (leaf kind) ⟨B, d⟩ (move k) := by
  refine repeats_here ((repeats_advance (B := B) next).bind fun _ c' => ?_)
  rw [flat]
  refine repeats_pure ?_
  rw [move_mk, Nat.add_right_comm]
  rfl

theorem repeats_name {kind : Kind} :
    Repeats k more c ⟨A, d⟩ (name kind) (name kind) ⟨B, d⟩ (move k) := by
  refine repeats_peek (fun o next => ?_) fun a c' _ failed => by cases failed
  split
  · exact repeats_leaf next rfl
  · exact repeats_reject

theorem repeats_close {kind : Kind} {first : Nat} {parts parts' : List Node}
    (same : parts' = parts.map (move k)) :
    Repeats k more c P (close kind first parts) (close kind (first + k) parts') P (move k) := by
  refine repeats_here (repeats_pure ?_)
  rw [same, move_mk]

/-- A part that starts with the token `t` and may be missing. -/
theorem repeats_optional {t : Token} {r r' : Rule α} {g : α → α}
    (h : c.rest.head? = some t → Repeats k more c ⟨A, d⟩ r r' ⟨A, d⟩ g)
    (last : A → more.head? ≠ some t) :
    Repeats k more c ⟨A, d⟩ (optional t r) (optional t r') ⟨A, d⟩ (Option.map g) := by
  refine repeats_peek (fun o next => ?_) fun a c' _ _ mayEnd => ?_
  · refine repeats_ite (fun same => ?_) fun _ => repeats_pure rfl
    exact (h (next.trans same)).bind fun a c' => repeats_pure rfl
  · rw [if_neg (last mayEnd), if_neg (by simp)]

end Tokens

/-! ## §3 Expressions -/

theorem depthAfter_of_unaryLevel? {t : Token} {level : Nat} (h : unaryLevel? t = some level) (d : Nat) :
    depthAfter d t = d := by
  unfold unaryLevel? at h
  split at h <;> first | rfl | cases h

theorem depthAfter_of_binaryLevel? {t : Token} {level : Nat} (h : binaryLevel? t = some level)
    (d : Nat) : depthAfter d t = d := by
  unfold binaryLevel? at h
  split at h <;> first | rfl | cases h

theorem depthAfter_of_atomKind? {t : Token} {kind : Kind} (h : atomKind? t = some kind) (d : Nat) :
    depthAfter d t = d := by
  unfold atomKind? at h
  split at h <;> first | rfl | cases h

/-- Every rule for expressions reads its tokens again among other tokens, if there is at least as
much fuel for its nesting. -/
structure ExprRepeats (k : Nat) (more : List Token) (fuel fuel' : Nat) : Prop where
  expressionWithin : ∀ c A d level, Repeats k more c ⟨A, d⟩ (expressionWithin fuel level)
    (expressionWithin fuel' level) ⟨more = [], d⟩ (move k)
  operand : ∀ c A d, Repeats k more c ⟨A, d⟩ (operand fuel) (operand fuel') ⟨more = [], d⟩ (move k)
  operations : ∀ c d level left, Repeats k more c ⟨more = [], d⟩ (operations fuel level left)
    (operations fuel' level (left.move k)) ⟨more = [], d⟩ (move k)
  atom : ∀ c A d, Repeats k more c ⟨A, d⟩ (atom fuel) (atom fuel') ⟨more = [], d⟩ (move k)
  trailers : ∀ c d target, Repeats k more c ⟨more = [], d⟩ (trailers fuel target)
    (trailers fuel' (target.move k)) ⟨more = [], d⟩ (move k)
  argList : ∀ c A B d, Repeats k more c ⟨A, d⟩ (argList fuel) (argList fuel') ⟨B, d⟩ (move k)
  arguments : ∀ c d, Repeats k more c ⟨more = [], d⟩ (arguments fuel) (arguments fuel')
    ⟨more = [], d⟩ (List.map (move k))

theorem exprRepeats {fuel fuel' : Nat} (le : fuel ≤ fuel') : ExprRepeats k more fuel fuel' := by
  induction fuel generalizing fuel' with
  | zero =>
    constructor
    all_goals intros; exact repeats_reject
  | succ fuel ih =>
    obtain ⟨fuel', rfl⟩ : ∃ n, fuel' = n + 1 := ⟨fuel' - 1, by omega⟩
    have ih := ih (Nat.le_of_succ_le_succ le)
    constructor
    case expressionWithin =>
      intro c A d level
      exact (ih.operand c A d).bind fun first c' => ih.operations c' d level first
    case operand =>
      intro c A d
      refine repeats_look fun o next => ?_
      cases found : o.bind unaryLevel? with
      | some level =>
        obtain ⟨t, ht, unary⟩ := Option.bind_eq_some_iff.1 found
        have flat := depthAfter_of_unaryLevel? unary d
        refine (repeats_leaf (B := A) (next.trans ht) flat).bind fun op c' => ?_
        refine (ih.expressionWithin c' A d level).bind fun e c' => repeats_pure ?_
        exact join_move_pair .unaryExpression op e
      | none => exact (ih.atom c A d).bind fun base c' => ih.trailers c' d base
    case operations =>
      intro c d level left
      refine repeats_look fun o next => ?_
      cases o with
      | none => exact repeats_pure rfl
      | some t =>
        dsimp only
        cases found : binaryLevel? t with
        | none => exact repeats_pure rfl
        | some level' =>
          refine repeats_ite (fun _ => repeats_pure rfl) fun _ => ?_
          have flat := depthAfter_of_binaryLevel? found d
          refine (repeats_leaf (B := more = []) next flat).bind fun op c' => ?_
          refine (ih.expressionWithin c' _ d _).bind fun right c' => ?_
          have joined : join .binaryExpression (left.move k) (right.move k)
              [left.move k, op.move k, right.move k] = _ :=
            join_move .binaryExpression left right [left, op, right]
          rw [joined]
          exact ih.operations c' d level _
    case atom =>
      intro c A d
      refine repeats_look fun o next => ?_
      cases found : o.bind atomKind? with
      | some kind =>
        obtain ⟨t, ht, atom⟩ := Option.bind_eq_some_iff.1 found
        exact repeats_leaf (next.trans ht) (depthAfter_of_atomKind? atom d)
      | none =>
        refine repeats_here ?_
        refine (repeats_expect (B := A)).bind fun _ c' => ?_
        refine (ih.expressionWithin c' A (d + 1) 0).bind fun inner c' => ?_
        refine (repeats_expect (B := more = [])).bind fun _ c' => ?_
        exact repeats_close rfl
    case trailers =>
      intro c d target
      refine repeats_look fun o next => ?_
      split
      · refine (repeats_advance (B := more = []) next).bind fun _ c' => ?_
        refine (repeats_name (B := more = [])).bind fun member c' => ?_
        rw [join_move_pair]
        exact ih.trailers c' d _
      · refine (ih.argList c _ (more = []) d).bind fun args c' => ?_
        rw [join_move_pair]
        exact ih.trailers c' d _
      · exact repeats_pure rfl
    case argList =>
      intro c A B d
      refine repeats_here ?_
      refine (repeats_expect (B := more = [])).bind fun _ c' => ?_
      refine (ih.arguments c' (d + 1)).bind fun args c' => ?_
      refine (repeats_expect (B := B)).bind fun _ c' => ?_
      exact repeats_close rfl
    case arguments =>
      intro c d
      refine repeats_look fun o next => ?_
      split
      · exact repeats_pure rfl
      · refine (ih.expressionWithin c _ d 0).bind fun arg c' => ?_
        refine repeats_look fun o next => ?_
        split
        · refine (repeats_advance (B := more = []) next).bind fun _ c' => ?_
          exact (ih.arguments c' d).bind fun args c' => repeats_pure rfl
        · exact repeats_pure rfl

theorem depthBound_append (ts more : List Token) :
    depthBound ts.length ≤ depthBound (ts ++ more).length := by
  simp only [depthBound, List.length_append]
  omega

theorem repeats_expression {A : Prop} {d : Nat} :
    Repeats k more c ⟨A, d⟩ expression expression ⟨more = [], d⟩ (move k) := by
  exact repeats_remaining ((exprRepeats (depthBound_append c.rest more)).expressionWithin c A d 0)

theorem repeats_parenthesized {A B : Prop} {d : Nat} :
    Repeats k more c ⟨A, d⟩ parenthesized parenthesized ⟨B, d⟩ (move k) := by
  exact repeats_remaining ((exprRepeats (depthBound_append c.rest more)).argList c A B d)

/-! ## §4 Statements -/

section Lines

variable {A B : Prop} {d : Nat}

theorem repeats_typeAfter {mark : Symbol} (flat : ∀ d, depthAfter d (.symbol mark) = d) :
    Repeats k more c ⟨A, d⟩ (typeAfter mark) (typeAfter mark) ⟨more = [], d⟩ (move k) := by
  refine repeats_here ?_
  refine (repeats_expect (B := A)).bind fun _ c' => ?_
  rw [flat]
  refine repeats_expression.bind fun type c' => ?_
  exact repeats_close rfl

theorem repeats_initialValue :
    Repeats k more c ⟨A, d⟩ initialValue initialValue ⟨more = [], d⟩ (move k) :=
  (repeats_expect (B := A)).bind fun _ _ => repeats_expression

/-- Nothing follows where the tokens may only end if nothing does. -/
theorem head?_ne_some {t : Token} (nothing : more = []) : more.head? ≠ some t := by
  rw [nothing]
  simp

theorem repeats_assignment :
    Repeats k more c ⟨A, d⟩ assignment assignment ⟨more = [], d⟩ (move k) := by
  refine repeats_here ?_
  refine repeats_expression.bind fun target c' => ?_
  refine (repeats_optional (fun _ => repeats_typeAfter fun _ => rfl) head?_ne_some).bind
    fun type c' => ?_
  refine (repeats_optional (fun _ => repeats_initialValue) head?_ne_some).bind fun value c' => ?_
  cases type <;> cases value <;> exact repeats_close rfl

theorem repeats_returned : Repeats k more c ⟨A, d⟩ returned returned ⟨more = [], d⟩ (move k) := by
  refine repeats_here ?_
  refine (repeats_expect (B := more = [])).bind fun _ c' => ?_
  refine repeats_look fun o next => ?_
  refine repeats_ite (fun _ => repeats_close rfl) fun _ => ?_
  exact repeats_expression.bind fun e c' => repeats_close rfl

/-- Without a token there is no statement. -/
theorem simple_nil (nothing : c.rest = []) {n : Node} {c' : Cursor} : simple c ≠ .ok (n, c') := by
  obtain ⟨i, rest⟩ := c
  obtain rfl : rest = [] := nothing
  intro read
  cases read

/-- A statement on one line is read up to the end of its line. -/
theorem repeats_simple : Repeats k more c ⟨A, d⟩ simple simple ⟨B, d⟩ (move k) := by
  have ended : ∀ c stmt, Repeats k more c ⟨more = [], d⟩ (do expect .newline; return stmt)
      (do expect .newline; return stmt.move k) ⟨B, d⟩ (move k) :=
    fun c stmt => (repeats_expect (B := B)).bind fun _ c' => repeats_pure rfl
  refine repeats_peek (fun o next => ?_) fun a c' nothing read => ?_
  · split
    · exact (repeats_leaf next rfl).bind fun stmt c' => ended c' stmt
    · exact repeats_returned.bind fun stmt c' => ended c' stmt
    · exact repeats_assignment.bind fun stmt c' => ended c' stmt
  · obtain ⟨i, rest⟩ := c
    obtain rfl : rest = [] := nothing
    have read : simple ⟨i, []⟩ = .ok (a, c') := read
    exact absurd read (simple_nil rfl)

theorem repeats_parameter :
    Repeats k more c ⟨A, d⟩ parameter parameter ⟨more = [], d⟩ (move k) := by
  refine repeats_here ?_
  refine (repeats_name (B := more = [])).bind fun x c' => ?_
  refine (repeats_optional (fun _ => repeats_typeAfter fun _ => rfl) head?_ne_some).bind
    fun type c' => ?_
  cases type <;> exact repeats_close rfl

theorem repeats_parameters {fuel fuel' : Nat} (le : fuel ≤ fuel') (c : Cursor) :
    Repeats k more c ⟨more = [], d⟩ (parameters fuel) (parameters fuel') ⟨more = [], d⟩
      (List.map (move k)) := by
  induction fuel generalizing fuel' c with
  | zero => exact repeats_reject
  | succ fuel ih =>
    obtain ⟨fuel', rfl⟩ : ∃ n, fuel' = n + 1 := ⟨fuel' - 1, by omega⟩
    refine repeats_look fun o next => ?_
    split
    · exact repeats_pure rfl
    · refine repeats_parameter.bind fun param c' => ?_
      refine repeats_look fun o next => ?_
      split
      · refine (repeats_advance (B := more = []) next).bind fun _ c' => ?_
        exact (ih (Nat.le_of_succ_le_succ le) c').bind fun params c' => repeats_pure rfl
      · exact repeats_pure rfl

theorem repeats_paramList : Repeats k more c ⟨A, d⟩ paramList paramList ⟨B, d⟩ (move k) := by
  refine repeats_here ?_
  refine (repeats_expect (B := more = [])).bind fun _ c' => ?_
  refine repeats_remaining ?_
  refine (repeats_parameters (depthBound_append c'.rest more) c').bind fun params c' => ?_
  refine (repeats_expect (B := B)).bind fun _ c' => ?_
  exact repeats_close rfl

end Lines

theorem noClause_of_nil (nothing : more = []) : NoClause more := by
  intro t ht
  rw [nothing] at ht
  cases ht

/-- Every rule for statements reads its tokens again among other tokens, if there is at least as much
fuel for its nesting. A statement may end the tokens unless a clause follows. -/
structure StmtRepeats (k : Nat) (more : List Token) (fuel fuel' : Nat) : Prop where
  statement : ∀ c A d, Repeats k more c ⟨A, d⟩ (statement fuel) (statement fuel')
    ⟨NoClause more, d⟩ (move k)
  body : ∀ c A B d, Repeats k more c ⟨A, d⟩ (body fuel) (body fuel') ⟨B, d⟩ (move k)
  statements : ∀ c d, Repeats k more c ⟨more = [], d⟩ (statements fuel) (statements fuel')
    ⟨more = [], d⟩ (List.map (move k))
  elifClauses : ∀ c d, Repeats k more c ⟨NoClause more, d⟩ (elifClauses fuel) (elifClauses fuel')
    ⟨NoClause more, d⟩ (List.map (move k))
  elseClause : ∀ c A B d, Repeats k more c ⟨A, d⟩ (elseClause fuel) (elseClause fuel') ⟨B, d⟩ (move k)

theorem stmtRepeats {fuel fuel' : Nat} (le : fuel ≤ fuel') : StmtRepeats k more fuel fuel' := by
  induction fuel generalizing fuel' with
  | zero =>
    constructor
    all_goals intros; exact repeats_reject
  | succ fuel ih =>
    obtain ⟨fuel', rfl⟩ : ∃ n, fuel' = n + 1 := ⟨fuel' - 1, by omega⟩
    have ih := ih (Nat.le_of_succ_le_succ le)
    constructor
    case statement =>
      intro c A d
      refine repeats_here (repeats_peek (fun o next => ?_) fun a c' nothing read => ?_)
      · split
        · refine (repeats_advance (B := A) next).bind fun _ c' => ?_
          refine repeats_expression.bind fun cond c' => ?_
          refine (ih.body c' _ (NoClause more) d).bind fun block c' => ?_
          refine (ih.elifClauses c' d).bind fun elifs c' => ?_
          refine (repeats_optional (fun _ => ih.elseClause c' _ _ d) ?_).bind fun last c' => ?_
          · exact fun noClause next => (noClause _ next).2 rfl
          · refine repeats_close ?_
            cases last <;> simp
        · refine (repeats_advance (B := A) next).bind fun _ c' => ?_
          refine repeats_expression.bind fun cond c' => ?_
          refine (ih.body c' _ (NoClause more) d).bind fun block c' => ?_
          exact repeats_close rfl
        · refine (repeats_advance (B := A) next).bind fun _ c' => ?_
          refine (repeats_name (B := A)).bind fun x c' => ?_
          refine (repeats_paramList (B := more = [])).bind fun params c' => ?_
          refine (repeats_optional (fun _ => repeats_typeAfter fun _ => rfl) head?_ne_some).bind
            fun result c' => ?_
          refine (ih.body c' _ (NoClause more) d).bind fun block c' => repeats_close ?_
          cases result <;> rfl
        · refine (repeats_advance (B := A) next).bind fun _ c' => ?_
          refine (repeats_name (B := more = [])).bind fun x c' => ?_
          refine (repeats_optional (fun _ => repeats_parenthesized) head?_ne_some).bind
            fun parents c' => ?_
          refine (ih.body c' _ (NoClause more) d).bind fun block c' => repeats_close ?_
          cases parents <;> rfl
        · exact repeats_simple
      · exact absurd read (simple_nil nothing)
    case body =>
      intro c A B d
      refine repeats_here ?_
      refine (repeats_expect (B := True)).bind fun _ c' => ?_
      refine repeats_peek (fun o next => ?_) fun a c'' nothing read => ?_
      · split
        · refine (repeats_advance (B := True) next).bind fun _ c' => ?_
          refine (repeats_expect (B := True)).bind fun _ c' => ?_
          refine ((ih.statement c' _ d).weaken noClause_of_nil).bind fun stmt c' => ?_
          refine (ih.statements c' d).bind fun more c' => ?_
          refine (repeats_expect (B := B)).bind fun _ c' => ?_
          exact repeats_close rfl
        · exact repeats_simple.bind fun stmt c' => repeats_close rfl
      · obtain ⟨stmt, c₁, read, -⟩ := bind_eq_ok.1 read
        exact absurd read (simple_nil nothing)
    case statements =>
      intro c d
      refine repeats_look fun o next => ?_
      split
      · exact repeats_pure rfl
      · exact repeats_pure rfl
      · refine ((ih.statement c _ d).weaken noClause_of_nil).bind fun stmt c' => ?_
        exact (ih.statements c' d).bind fun stmts c' => repeats_pure rfl
    case elifClauses =>
      intro c d
      refine repeats_peek (fun o next => ?_) fun a c' _ _ noClause => ?_
      · split
        · refine repeats_here ?_
          refine (repeats_advance (B := True) next).bind fun _ c' => ?_
          refine repeats_expression.bind fun cond c' => ?_
          refine (ih.body c' _ (NoClause more) d).bind fun block c' => ?_
          refine (repeats_close rfl).bind fun clause c' => ?_
          exact (ih.elifClauses c' d).bind fun clauses c' => repeats_pure rfl
        · exact repeats_pure rfl
      · split
        · rename_i next
          exact absurd rfl (noClause _ next).1
        · rfl
    case elseClause =>
      intro c A B d
      refine repeats_here ?_
      refine (repeats_expect (B := True)).bind fun _ c' => ?_
      exact (ih.body c' _ B d).bind fun block c' => repeats_close rfl

/-! ## §5 Scripts -/

/-- A rule never gives tokens back. -/
def Shrinks (r : Rule α) : Prop := ∀ c a c', r c = .ok (a, c') → c'.rest.length ≤ c.rest.length

/-- A rule takes at least one token. -/
def Progresses (c : Cursor) (r : Rule α) : Prop :=
  ∀ a c', r c = .ok (a, c') → c'.rest.length < c.rest.length

theorem Shrinks.bind {r : Rule α} {f : α → Rule β} (first : Shrinks r) (after : ∀ a, Shrinks (f a)) :
    Shrinks (r >>= f) := by
  intro c b c₂ ok
  obtain ⟨a, c₁, hr, hf⟩ := bind_eq_ok.1 ok
  exact Nat.le_trans (after a c₁ b c₂ hf) (first c a c₁ hr)

theorem shrinks_of_repeats {r r' : Rule α} {g : α → α} (h : ∀ c, Repeats 0 [] c P r r' P' g) :
    Shrinks r := by
  intro c a c' ok
  obtain ⟨used, rest, -⟩ := h c a c' ok
  rw [rest, List.length_append]
  omega

theorem progresses_here {f : Nat → Rule α} (h : Progresses c (f c.index)) :
    Progresses c (here >>= f) := h

theorem progresses_peek {f : Option Token → Rule α} (h : ∀ o, Progresses c (f o)) :
    Progresses c (peek >>= f) :=
  h c.rest.head?

theorem progresses_advance {r : Rule α} (h : Shrinks r) : Progresses c (advance >>= fun _ => r) := by
  intro a c' ok
  obtain ⟨⟨⟩, c₁, first, rest⟩ := bind_eq_ok.1 ok
  have le := h c₁ a c' rest
  obtain ⟨i, _ | ⟨t, ts⟩⟩ := c
  · cases first
  · cases first
    exact Nat.lt_succ_of_le le

theorem progresses_simple : Progresses c simple := by
  have ended : ∀ {r : Rule Node}, Shrinks r →
      Progresses c (r >>= fun stmt => do expect .newline; return stmt) := by
    intro r shrinks a c' ok
    obtain ⟨stmt, c₁, first, rest⟩ := bind_eq_ok.1 ok
    have le := shrinks c stmt c₁ first
    obtain ⟨⟨⟩, c₂, newline, rest⟩ := bind_eq_ok.1 rest
    cases rest
    obtain ⟨i, _ | ⟨t, ts⟩⟩ := c₁
    · cases newline
    · unfold expect at newline
      simp only at newline
      split at newline
      · cases newline
        exact Nat.lt_of_succ_le le
      · cases newline
  refine progresses_peek fun o => ?_
  split
  · refine ended fun c a c' ok => Nat.le_of_lt (progresses_here (progresses_advance ?_) a c' ok)
    intro c a c' ok
    cases ok
    exact Nat.le_refl _
  · exact ended (shrinks_of_repeats (P := ⟨True, 0⟩) fun c => repeats_returned)
  · exact ended (shrinks_of_repeats (P := ⟨True, 0⟩) fun c => repeats_assignment)

/-- A statement has at least one token. -/
theorem progresses_statement (fuel : Nat) : Progresses c (statement fuel) := by
  cases fuel with
  | zero =>
    intro a c' h
    cases h
  | succ fuel =>
    have rules : StmtRepeats 0 [] fuel fuel := stmtRepeats (Nat.le_refl fuel)
    have expression : Shrinks expression :=
      shrinks_of_repeats (P := ⟨True, 0⟩) fun c => repeats_expression
    have body : Shrinks (body fuel) := shrinks_of_repeats fun c => rules.body c True True 0
    have close : ∀ {kind first parts}, Shrinks (close kind first parts) :=
      shrinks_of_repeats (P := ⟨True, 0⟩) fun c => repeats_close rfl
    have name : Shrinks (name .variableName) :=
      shrinks_of_repeats fun c => repeats_name (A := True) (B := True) (d := 0)
    refine progresses_here (progresses_peek fun o => ?_)
    split
    · refine progresses_advance (expression.bind fun cond => body.bind fun block => ?_)
      have elifs : Shrinks (elifClauses fuel) := shrinks_of_repeats fun c => rules.elifClauses c 0
      have last : Shrinks (optional (.keyword .else_) (elseClause fuel)) :=
        shrinks_of_repeats (P := ⟨True, 0⟩) fun c =>
          repeats_optional (fun _ => rules.elseClause c True True 0) (by simp)
      exact elifs.bind fun elifs => last.bind fun last => close
    · exact progresses_advance (expression.bind fun cond => body.bind fun block => close)
    · have params : Shrinks paramList :=
        shrinks_of_repeats fun c => repeats_paramList (A := True) (B := True) (d := 0)
      have result : Shrinks (optional (.symbol .arrow) (typeAfter .arrow)) :=
        shrinks_of_repeats fun c => repeats_optional
          (fun _ => repeats_typeAfter (d := 0) fun _ => rfl) head?_ne_some
      exact progresses_advance (name.bind fun x => params.bind fun params => result.bind
        fun result => body.bind fun block => close)
    · have parents : Shrinks (optional (.symbol .lparen) parenthesized) :=
        shrinks_of_repeats (P := ⟨True, 0⟩) fun c =>
          repeats_optional (fun _ => repeats_parenthesized) (by simp)
      exact progresses_advance (name.bind fun x => parents.bind
        fun parents => body.bind fun block => close)
    · exact progresses_simple

theorem statements_cons {t : Token} (h : t ≠ .dedent) (fuel i : Nat) (ts : List Token) :
    statements (fuel + 1) ⟨i, t :: ts⟩ =
      (do
        let stmt ← statement fuel
        return stmt :: (← statements fuel)) ⟨i, t :: ts⟩ := by
  cases t with
  | dedent => exact absurd rfl h
  | _ => rfl

/-- There are no more statements than tokens. -/
theorem length_of_statements {fuel : Nat} {c c' : Cursor} {ns : List Node}
    (h : statements fuel c = .ok (ns, c')) : ns.length + c'.rest.length ≤ c.rest.length := by
  induction fuel generalizing c ns with
  | zero => cases h
  | succ fuel ih =>
    obtain ⟨i, _ | ⟨t, ts⟩⟩ := c
    · cases h
      simp
    · by_cases dedent : t = .dedent
      · subst dedent
        cases h
        simp
      · rw [statements_cons dedent] at h
        obtain ⟨n, c₁, first, h⟩ := bind_eq_ok.1 h
        obtain ⟨ns', c₂, rest, h⟩ := bind_eq_ok.1 h
        cases h
        have := progresses_statement fuel n c₁ first
        have := ih rest
        rw [List.length_cons]
        omega

/-- Statements up to the end of some tokens, and then what is read of the tokens behind them. -/
theorem statements_append {fuel fuel' fuel₂ i j : Nat} {ts more : List Token} {ns ns' : List Node}
    {c' : Cursor} (first : statements fuel ⟨i, ts⟩ = .ok (ns, ⟨j, []⟩)) (noClause : NoClause more)
    (second : ∀ n, fuel₂ ≤ n → statements n ⟨j, more⟩ = .ok (ns', c')) (enough : fuel ≤ fuel')
    (enough' : fuel₂ + ns.length ≤ fuel') :
    statements fuel' ⟨i, ts ++ more⟩ = .ok (ns ++ ns', c') := by
  induction fuel generalizing fuel' i ts ns with
  | zero => cases first
  | succ fuel ih =>
    obtain ⟨fuel', rfl⟩ : ∃ n, fuel' = n + 1 := ⟨fuel' - 1, by omega⟩
    cases ts with
    | nil =>
      cases first
      exact second _ enough'
    | cons t ts =>
      by_cases dedent : t = .dedent
      · subst dedent
        cases first
      · rw [statements_cons dedent] at first
        obtain ⟨n, ⟨i₁, rest⟩, head, first⟩ := bind_eq_ok.1 first
        obtain ⟨ns₁, c₂, tail, first⟩ := bind_eq_ok.1 first
        cases first
        have le : fuel ≤ fuel' := by omega
        obtain ⟨used, -, -, -, run⟩ := (stmtRepeats (k := 0) le).statement ⟨i, t :: ts⟩ True 0 n _ head
        obtain ⟨-, head'⟩ := run fun _ => noClause
        rw [move_zero] at head'
        rw [List.length_cons] at enough'
        have tail' := ih tail le (by omega)
        rw [List.cons_append, statements_cons dedent]
        exact bind_eq_ok.2 ⟨_, _, head', bind_eq_ok.2 ⟨_, _, tail', rfl⟩⟩

/-- No statement starts with a mark of blocks or with a clause. -/
theorem statement_rejects {t : Token}
    (h : t ∈ [.indent, .dedent, .keyword .elif, .keyword .else_]) (fuel i : Nat) (ts : List Token) :
    statement fuel ⟨i, t :: ts⟩ = .error i := by
  simp only [List.mem_cons, List.not_mem_nil, or_false] at h
  cases fuel with
  | zero => rfl
  | succ fuel => rcases h with rfl | rfl | rfl | rfl <;> rfl

theorem head_of_statements {fuel i j : Nat} {ts : List Token} {ns : List Node}
    (h : statements fuel ⟨i, ts⟩ = .ok (ns, ⟨j, []⟩)) :
    ∀ t ∈ ts.head?, t ∉ [.indent, .dedent, .keyword .elif, .keyword .else_] := by
  intro t ht rejected
  cases fuel with
  | zero => cases h
  | succ fuel =>
    cases ts with
    | nil => cases ht
    | cons u ts =>
      cases ht
      by_cases dedent : t = .dedent
      · subst dedent
        cases h
      · rw [statements_cons dedent] at h
        obtain ⟨n, c, first, -⟩ := bind_eq_ok.1 h
        rw [statement_rejects rejected] at first
        cases first

theorem script_start (ts : List Token) :
    script ⟨0, ts⟩ =
      (do
        let stmts ← statements (depthBound ts.length)
        match ← peek with
        | none => close .script 0 stmts
        | some _ => reject) ⟨0, ts⟩ :=
  rfl

end Rule

namespace Node

open Rule

theorem ofTokens_eq_ok {ts : List Token} {root : Node} : ofTokens ts = .ok root ↔
    ∃ ns j, statements (depthBound ts.length) ⟨0, ts⟩ = .ok (ns, ⟨j, []⟩) ∧
      root = .mk .script 0 j ns := by
  have opened := script_start ts
  constructor
  · intro h
    obtain ⟨⟨n, c⟩, ran, rfl⟩ := Fallible.map_eq_ok.1 h
    obtain ⟨ns, ⟨j, rest⟩, read, closed⟩ := bind_eq_ok.1 (opened.symm.trans ran)
    cases rest with
    | nil =>
      cases closed
      exact ⟨ns, j, read, rfl⟩
    | cons t rest => cases closed
  · rintro ⟨ns, j, read, rfl⟩
    have h := opened.trans (bind_eq_ok.2 ⟨ns, ⟨j, []⟩, read, rfl⟩)
    exact Fallible.map_eq_ok.2 ⟨_, h, rfl⟩

/-- A script starts with a statement, if it has a token. -/
theorem head_of_ofTokens {ts : List Token} {root : Node} (h : ofTokens ts = .ok root) :
    ∀ t ∈ ts.head?, t ∉ [.indent, .dedent, .keyword .elif, .keyword .else_] := by
  obtain ⟨ns, j, read, -⟩ := ofTokens_eq_ok.1 h
  exact head_of_statements read

/-- The parentheses of a script are closed. -/
theorem foldl_depthAfter {ts : List Token} {root : Node} (h : ofTokens ts = .ok root) (d : Nat) :
    ts.foldl depthAfter d = d := by
  obtain ⟨ns, j, read, -⟩ := ofTokens_eq_ok.1 h
  have rules : StmtRepeats 0 [] _ _ := stmtRepeats (Nat.le_refl (depthBound ts.length))
  obtain ⟨used, rest, -, depth, -⟩ := rules.statements ⟨0, ts⟩ d ns _ read
  obtain rfl : ts = used := rest.trans (List.append_nil used)
  exact depth

/-- The tokens of two scripts, one after the other, are a script of the statements of both. -/
theorem ofTokens_append {ts ts' : List Token} {root root' : Node} (first : ofTokens ts = .ok root)
    (second : ofTokens ts' = .ok root') :
    ∃ joined, ofTokens (ts ++ ts') = .ok joined ∧
      joined.children = root.children ++ root'.children.map (move ts.length) := by
  have starts := head_of_ofTokens second
  obtain ⟨ns, j, read, rfl⟩ := ofTokens_eq_ok.1 first
  obtain ⟨ns', j', read', rfl⟩ := ofTokens_eq_ok.1 second
  have noClause : NoClause ts' := by
    intro t ht
    have := starts t ht
    simp only [List.mem_cons, not_or] at this
    exact ⟨this.2.2.1, this.2.2.2.1⟩
  have few := length_of_statements read
  have index : j = ts.length := by
    have rules : StmtRepeats 0 [] _ _ := stmtRepeats (Nat.le_refl (depthBound ts.length))
    obtain ⟨used, rest, index, -⟩ := rules.statements ⟨0, ts⟩ 0 ns _ read
    obtain rfl : ts = used := rest.trans (List.append_nil used)
    exact index.trans (Nat.zero_add _)
  subst index
  have moved : ∀ n, depthBound ts'.length ≤ n → statements n ⟨ts.length, ts'⟩ =
      .ok (ns'.map (move ts.length), ⟨j' + ts.length, []⟩) := by
    intro n le
    have rules : StmtRepeats ts.length [] _ _ := stmtRepeats le
    obtain ⟨-, -, -, -, run⟩ := rules.statements ⟨0, ts'⟩ 0 ns' _ read'
    have := (run fun _ => rfl).2
    rwa [List.append_nil, Nat.zero_add] at this
  have both : statements (depthBound (ts ++ ts').length) ⟨0, ts ++ ts'⟩ =
      .ok (ns ++ ns'.map (move ts.length), ⟨j' + ts.length, []⟩) := by
    refine statements_append read noClause moved ?_ ?_
    · simp only [depthBound, List.length_append]
      omega
    · simp only [depthBound, List.length_append] at few ⊢
      omega
  exact ⟨_, ofTokens_eq_ok.2 ⟨_, _, both, rfl⟩, rfl⟩

end Node

end Serpent
