/-
Serpent.Proofs.ReadExpression — the tokens of an expression are read as that expression.

A rule is followed over the tokens that it takes, with the tokens behind them given. An operand is a
literal, a name, a call, a member or an expression in parentheses; it may go on with a point or a
parenthesis, so the rule for it is followed up to the place where it looks for more. Operators take
operands only, so no level of binding decides how an expression is read.

  §1 Following a rule
  §2 Operands and expressions
  §3 Literals and names
  §4 Members and calls
  §5 Operators
  §6 All expressions
-/
import Serpent.Proofs.Parsed
import Serpent.Proofs.SourceForm

namespace Serpent

open Fallible

namespace Rule

/-! ## §1 Following a rule -/

section Takes

variable {α β : Type} {ts : List Token} {i : Nat} {used rest : List Token}

/-- At index `i` of the tokens `ts`, before the tokens `rest`, the rule takes exactly `used` and
gives something that `P` admits. -/
def Takes (ts : List Token) (i : Nat) (used rest : List Token) (r : Rule α) (P : α → Prop) : Prop :=
  ts.drop i = used ++ rest →
    ∃ a, r ⟨i, used ++ rest⟩ = .ok (a, ⟨i + used.length, rest⟩) ∧ P a

theorem Takes.bind {r : Rule α} {f : α → Rule β} {us vs : List Token} {P : α → Prop}
    {Q : β → Prop} (first : Takes ts i us (vs ++ rest) r P)
    (after : ∀ a, P a → Takes ts (i + us.length) vs rest (f a) Q) :
    Takes ts i (us ++ vs) rest (r >>= f) Q := by
  intro at_index
  rw [List.append_assoc] at at_index
  obtain ⟨a, hr, ha⟩ := first at_index
  have behind : ts.drop (i + us.length) = vs ++ rest := by
    rw [← List.drop_drop, at_index, List.drop_left]
  obtain ⟨b, hf, hb⟩ := after a ha behind
  refine ⟨b, ?_, hb⟩
  rw [List.append_assoc, List.length_append, ← Nat.add_assoc]
  exact bind_eq_ok.2 ⟨a, _, hr, hf⟩

/-- After the last token nothing more is taken. -/
theorem Takes.last {r : Rule α} {f : α → Rule β} {P : α → Prop} {Q : β → Prop}
    (first : Takes ts i used rest r P)
    (after : ∀ a, P a → Takes ts (i + used.length) [] rest (f a) Q) :
    Takes ts i used rest (r >>= f) Q := by
  have both := first.bind after
  rwa [List.append_nil] at both

/-- Before the first token nothing is taken. -/
theorem Takes.skip {r : Rule α} {f : α → Rule β} {P : α → Prop} {Q : β → Prop}
    (first : Takes ts i [] (used ++ rest) r P)
    (after : ∀ a, P a → Takes ts i used rest (f a) Q) : Takes ts i used rest (r >>= f) Q :=
  first.bind after

theorem Takes.imp {r : Rule α} {P Q : α → Prop} (h : Takes ts i used rest r P)
    (imp : ∀ a, P a → Q a) : Takes ts i used rest r Q := by
  intro at_index
  obtain ⟨a, hr, ha⟩ := h at_index
  exact ⟨a, hr, imp a ha⟩

/-- A rule may be replaced by one that does the same at the cursor. -/
theorem Takes.congr {r r' : Rule α} {P : α → Prop} (h : Takes ts i used rest r' P)
    (same : r ⟨i, used ++ rest⟩ = r' ⟨i, used ++ rest⟩) : Takes ts i used rest r P := by
  intro at_index
  rw [same]
  exact h at_index

theorem takes_pure {a : α} {P : α → Prop} (h : P a) : Takes ts i [] rest (pure a) P :=
  fun _ => ⟨a, rfl, h⟩

theorem takes_peek {f : Option Token → Rule α} {P : α → Prop}
    (h : Takes ts i used rest (f (used ++ rest).head?) P) :
    Takes ts i used rest (peek >>= f) P := h

theorem takes_here {f : Nat → Rule α} {P : α → Prop} (h : Takes ts i used rest (f i) P) :
    Takes ts i used rest (here >>= f) P := h

theorem takes_remaining {f : Nat → Rule α} {P : α → Prop}
    (h : Takes ts i used rest (f (used ++ rest).length) P) :
    Takes ts i used rest (remaining >>= f) P := h

/-- After one token the rest is read from the next index. -/
theorem Takes.cons {r : Rule α} {f : α → Rule β} {t : Token} {P : α → Prop} {Q : β → Prop}
    (first : Takes ts i [t] (used ++ rest) r P)
    (after : ∀ a, P a → Takes ts (i + 1) used rest (f a) Q) :
    Takes ts i (t :: used) rest (r >>= f) Q :=
  first.bind after

theorem takes_expect (t : Token) : Takes ts i [t] rest (expect t) fun _ => True := by
  intro _
  exact ⟨(), by simp [expect], trivial⟩

theorem takes_advance {t : Token} : Takes ts i [t] rest advance fun _ => True :=
  fun _ => ⟨(), rfl, trivial⟩

/-- A leaf stands at the index of its token. -/
theorem takes_leaf {kind : Kind} {t : Token} :
    Takes ts i [t] rest (leaf kind) fun n => n = .mk kind i (i + 1) [] ∧ ts[i]? = some t := by
  intro at_index
  refine ⟨_, rfl, rfl, ?_⟩
  rw [← List.head?_drop, at_index]
  rfl

theorem takes_name {kind : Kind} {x : String} :
    Takes ts i [.name x] rest (name kind) fun n =>
      n = .mk kind i (i + 1) [] ∧ ts[i]? = some (.name x) :=
  takes_peek takes_leaf

theorem takes_close {kind : Kind} {first : Nat} {children : List Node} :
    Takes ts i [] rest (close kind first children) fun n => n = .mk kind first i children :=
  fun _ => ⟨_, rfl, rfl⟩

end Takes

/-! ## §2 Operands and expressions -/

/-- In every tree over the tokens, the node is read as the expression. -/
def StandsFor (e : Expr) (ts : List Token) (n : Node) : Prop :=
  ∀ tree : SourceTree, tree.Spells ts → tree.expr n = .ok e

/-- The tokens do not carry an expression on. -/
def Ends (rest : List Token) : Prop :=
  ∀ t ∈ rest.head?, t ≠ .symbol .dot ∧ t ≠ .symbol .lparen ∧ binaryLevel? t = none

/-- The tokens `us` are read as an operand that `P` admits, up to the place where the rule looks for
a point or a parenthesis. -/
def IsOperand (us : List Token) (P : List Token → Node → Prop) : Prop :=
  ∀ ts i rest fuel, 5 * us.length ≤ fuel → ts.drop i = us ++ rest →
    ∃ n fuel', fuel ≤ fuel' + us.length + 1 ∧
      operand fuel ⟨i, us ++ rest⟩ = trailers fuel' n ⟨i + us.length, rest⟩ ∧ P ts n

/-- The tokens `us` are read as an expression within `level` that `P` admits. -/
def IsExpression (level : Nat) (us : List Token) (P : List Token → Node → Prop) : Prop :=
  ∀ ts i rest fuel, 5 * us.length + 5 ≤ fuel → Ends rest →
    Takes ts i us rest (expressionWithin fuel level) (P ts)

/-- Where no point and no parenthesis follows, an operand ends. -/
theorem trailers_end {fuel i : Nat} {n : Node} {rest : List Token}
    (h : ∀ t ∈ rest.head?, t ≠ .symbol .dot ∧ t ≠ .symbol .lparen) :
    trailers (fuel + 1) n ⟨i, rest⟩ = .ok (n, ⟨i, rest⟩) := by
  cases rest with
  | nil => rfl
  | cons t rest =>
    obtain ⟨dot, lparen⟩ := h t rfl
    cases t with
    | symbol s =>
      cases s
      case dot => exact absurd rfl dot
      case lparen => exact absurd rfl lparen
      all_goals rfl
    | _ => rfl

/-- One more binary operator after `left`, if there is one within the level. -/
theorem operations_succ (fuel level : Nat) (left : Node) (i : Nat) (t : Token)
    (rest : List Token) :
    operations (fuel + 1) level left ⟨i, t :: rest⟩ =
      (match binaryLevel? t with
      | none => (pure left : Rule Node)
      | some found =>
        if found < level then pure left
        else do
          let op ← leaf .operator
          let right ← expressionWithin fuel (rightLevel t found)
          operations fuel level (.join .binaryExpression left right [left, op, right]))
        ⟨i, t :: rest⟩ :=
  rfl

theorem operations_end {fuel level i : Nat} {n : Node} {rest : List Token} (h : Ends rest) :
    operations (fuel + 1) level n ⟨i, rest⟩ = .ok (n, ⟨i, rest⟩) := by
  cases rest with
  | nil => rfl
  | cons t rest =>
    rw [operations_succ, (h t rfl).2.2]
    rfl

/-- The next token says whether an operand starts with a prefix operator. -/
theorem operand_succ (fuel i : Nat) (t : Token) (rest : List Token) :
    operand (fuel + 1) ⟨i, t :: rest⟩ =
      (match unaryLevel? t with
      | some level => do
        let op ← leaf .operator
        let e ← expressionWithin fuel level
        return Node.join .unaryExpression op e [op, e]
      | none => atom fuel >>= trailers fuel) ⟨i, t :: rest⟩ :=
  rfl

/-- Where no prefix operator stands, an operand is an atom and what follows it. -/
theorem operand_of_atom {fuel i : Nat} {t : Token} {us : List Token} {n : Node} {c : Cursor}
    (prefixed : unaryLevel? t = none) (h : atom fuel ⟨i, t :: us⟩ = .ok (n, c)) :
    operand (fuel + 1) ⟨i, t :: us⟩ = trailers fuel n c := by
  rw [operand_succ, prefixed]
  change (atom fuel ⟨i, t :: us⟩ >>= fun p => trailers fuel p.1 p.2) = _
  rw [h]
  rfl

/-- An operand is an expression within every level. -/
theorem IsOperand.isExpression {us : List Token} {P : List Token → Node → Prop}
    (h : IsOperand us P) (level : Nat) : IsExpression level us P := by
  intro ts i rest fuel bound ends at_index
  obtain ⟨fuel, rfl⟩ : ∃ k, fuel = k + 1 := ⟨fuel - 1, by omega⟩
  obtain ⟨n, fuel', left, hoperand, stands⟩ := h ts i rest fuel (by omega) at_index
  obtain ⟨fuel', rfl⟩ : ∃ k, fuel' = k + 1 := ⟨fuel' - 1, by omega⟩
  obtain ⟨fuel, rfl⟩ : ∃ k, fuel = k + 1 := ⟨fuel - 1, by omega⟩
  rw [trailers_end fun t ht => ⟨(ends t ht).1, (ends t ht).2.1⟩] at hoperand
  refine ⟨n, ?_, stands⟩
  exact bind_eq_ok.2 ⟨n, _, hoperand, operations_end ends⟩

/-- An expression in parentheses is an operand. -/
theorem IsExpression.parens {us : List Token} {e : Expr} (h : IsExpression 0 us (StandsFor e)) :
    IsOperand (.symbol .lparen :: us ++ [Token.symbol .rparen]) (StandsFor e) := by
  intro ts i rest fuel bound at_index
  simp only [List.length_append, List.length_cons, List.length_nil] at bound
  obtain ⟨fuel, rfl⟩ : ∃ k, fuel = k + 2 := ⟨fuel - 2, by omega⟩
  have inner : Takes ts i (.symbol .lparen :: (us ++ [Token.symbol .rparen])) rest (atom (fuel + 1))
      (StandsFor e ts) := by
    refine takes_peek (takes_here ((takes_expect _).cons fun _ _ => ?_))
    have ends : Ends ([Token.symbol .rparen] ++ rest) := by simp [Ends, binaryLevel?]
    refine (h ts (i + 1) _ fuel (by omega) ends).bind fun n stands => ?_
    refine (takes_expect _).cons fun _ _ => takes_close.imp ?_
    rintro _ rfl tree spells
    exact stands tree spells
  obtain ⟨n, hatom, stands⟩ := inner at_index
  exact ⟨n, fuel + 1, by simp, operand_of_atom rfl hatom, stands⟩

/-! ## §3 Literals and names -/

/-- The node is a leaf of its kind for the token. -/
def IsLeaf (kind : Kind) (t : Token) (ts : List Token) (n : Node) : Prop :=
  ∃ i, n = .mk kind i (i + 1) [] ∧ ts[i]? = some t

theorem unaryLevel?_of_atom {t : Token} {kind : Kind} (isAtom : atomKind? t = some kind) :
    unaryLevel? t = none := by
  unfold atomKind? at isAtom
  split at isAtom <;> simp_all [unaryLevel?]

/-- The next token says whether an atom is a leaf. -/
theorem atom_succ (fuel i : Nat) (t : Token) (rest : List Token) :
    atom (fuel + 1) ⟨i, t :: rest⟩ =
      (match atomKind? t with
      | some kind => leaf kind
      | none => do
        let first ← here
        expect (.symbol .lparen)
        let inner ← expressionWithin fuel 0
        expect (.symbol .rparen)
        close .parenthesizedExpression first [inner]) ⟨i, t :: rest⟩ :=
  rfl

theorem atom_leaf {t : Token} {kind : Kind} (isAtom : atomKind? t = some kind) (fuel i : Nat)
    (rest : List Token) :
    atom (fuel + 1) ⟨i, t :: rest⟩ = .ok (.mk kind i (i + 1) [], ⟨i + 1, rest⟩) := by
  rw [atom_succ, isAtom]
  rfl

/-- A literal or a name is read as a leaf. -/
theorem isOperand_leaf {t : Token} {kind : Kind} (isAtom : atomKind? t = some kind) :
    IsOperand [t] (IsLeaf kind t) := by
  intro ts i rest fuel bound at_index
  obtain ⟨fuel, rfl⟩ : ∃ k, fuel = k + 2 := ⟨fuel - 2, by rw [List.length_singleton] at bound; omega⟩
  have read := operand_of_atom (unaryLevel?_of_atom isAtom) (atom_leaf isAtom fuel i rest)
  refine ⟨_, fuel + 1, by simp, read, i, rfl, ?_⟩
  rw [← List.head?_drop, at_index]
  rfl

theorem IsOperand.imp {us : List Token} {P Q : List Token → Node → Prop} (h : IsOperand us P)
    (imp : ∀ ts n, P ts n → Q ts n) : IsOperand us Q := by
  intro ts i rest fuel bound at_index
  obtain ⟨n, fuel', left, hoperand, hn⟩ := h ts i rest fuel bound at_index
  exact ⟨n, fuel', left, hoperand, imp ts n hn⟩

/-- The kind of the leaf of a literal. -/
def literalKind : Literal → Kind
  | .none => .none
  | .number _ => .number
  | .bool _ => .boolean

theorem atomKind?_literal (v : Literal) : atomKind? v.token = some (literalKind v) := by
  rcases v with _ | _ | _ | _ <;> rfl

theorem literal_number (tree : SourceTree) (first stop : Nat) :
    tree.literal (.mk .number first stop []) =
      match SourceTree.numeral? (tree.text (.mk .number first stop [])) with
      | some n => .ok (.number n)
      | none => tree.refuse .invalidNumber (.mk .number first stop []) :=
  rfl

theorem literal_of_isLeaf {v : Literal} (h : v.isCanonical = true) {ts : List Token} {n : Node}
    (isLeaf : IsLeaf (literalKind v) v.token ts n) {tree : SourceTree} (spells : tree.Spells ts) :
    tree.literal n = .ok v := by
  obtain ⟨i, rfl, at_index⟩ := isLeaf
  have text : tree.text (.mk (literalKind v) i (i + 1) []) = v.token.text := by
    refine spells.text_leaf at_index ?_ _ _
    rcases v with _ | _ | _ | _ <;> rfl
  cases v with
  | none => rfl
  | number n =>
    rw [literalKind] at text ⊢
    rw [literal_number, text, Literal.token, Token.text, SourceTree.numeral?_text (of_decide_eq_true h)]
  | bool b =>
    change Except.ok (Literal.bool (tree.text (.mk .boolean i (i + 1) []) == "True")) = _
    rw [literalKind] at text
    rw [text]
    cases b <;> rfl

theorem isOperand_literal {v : Literal} (h : v.isCanonical = true) :
    IsOperand [v.token] (StandsFor (.literal none v)) := by
  refine (isOperand_leaf (atomKind?_literal v)).imp fun ts n isLeaf tree spells => ?_
  have read := literal_of_isLeaf h isLeaf spells
  obtain ⟨i, rfl, -⟩ := isLeaf
  have step : tree.expr (.mk (literalKind v) i (i + 1) []) =
      (do return .literal none (← tree.literal (.mk (literalKind v) i (i + 1) []))) := by
    cases v <;> rfl
  rw [step, read]
  rfl

theorem isOperand_var (x : String) : IsOperand [.name x] (StandsFor (.var none x)) := by
  refine (isOperand_leaf rfl).imp ?_
  rintro ts _ ⟨i, rfl, at_index⟩ tree spells
  change Except.ok (Expr.var none (tree.text (.mk .variableName i (i + 1) []))) = _
  rw [spells.name_leaf at_index]

/-! ## §4 Members and calls -/

/-- The tokens that an expression may start with. -/
def startsExpression : Token → Bool
  | .int _ => true
  | .float _ => true
  | .name _ => true
  | .keyword .none => true
  | .keyword .true => true
  | .keyword .false => true
  | .keyword .not => true
  | .symbol .minus => true
  | .symbol .plus => true
  | .symbol .lparen => true
  | _ => false

/-- The tokens start as those of an expression do. -/
def Starts (us : List Token) : Prop := ∃ t ∈ us.head?, startsExpression t = true

theorem Starts.append {us : List Token} (h : Starts us) (vs : List Token) : Starts (us ++ vs) := by
  obtain ⟨t, ht, start⟩ := h
  cases us with
  | nil => cases ht
  | cons u us => exact ⟨t, ht, start⟩

theorem Starts.parenthesized {us : List Token} (h : Starts us) (needed : Bool) :
    Starts (parenthesizedTokens needed us) := by
  cases needed with
  | false => exact h
  | true => exact ⟨_, rfl, rfl⟩

theorem starts_tokens (e : Expr) : Starts e.tokens := by
  induction e with
  | literal ty v => rcases v with _ | _ | _ | _ <;> exact ⟨_, rfl, rfl⟩
  | var ty x => exact ⟨_, rfl, rfl⟩
  | unary ty op e => cases op <;> exact ⟨_, rfl, rfl⟩
  | binary ty op l r ihl => exact (ihl.parenthesized _).append _
  | call ty f args => exact ⟨_, rfl, rfl⟩
  | field ty o m ih => exact (ih.parenthesized _).append _
  | method ty o m args ih => exact ((ih.parenthesized _).append _).append _

/-- Where an expression stands, one more argument is read. -/
theorem arguments_succ {fuel i : Nat} {us : List Token} (h : Starts us) :
    arguments (fuel + 1) ⟨i, us⟩ =
      (do
        let arg ← expressionWithin fuel 0
        match ← peek with
        | some (.symbol .comma) =>
          advance
          return arg :: (← arguments fuel)
        | _ => return [arg]) ⟨i, us⟩ := by
  obtain ⟨t, ht, start⟩ := h
  cases us with
  | nil => cases ht
  | cons u us =>
    cases ht
    cases t with
    | symbol s => cases s <;> first | rfl | cases start
    | _ => rfl

theorem ends_of_head {t : Token} {rest : List Token} (dot : t ≠ .symbol .dot)
    (lparen : t ≠ .symbol .lparen) (operator : binaryLevel? t = none) : Ends (t :: rest) := by
  rintro u ⟨⟩
  exact ⟨dot, lparen, operator⟩

section Arguments

variable {α : Type} {tokens : α → List Token} {P : α → List Token → Node → Prop} {args : List α}

theorem takes_arguments
    (h : ∀ a ∈ args, Starts (tokens a) ∧ IsExpression 0 (tokens a) (P a))
    {ts rest : List Token} {i fuel : Nat}
    (bound : 5 * (commas (args.map tokens)).length + 6 ≤ fuel) :
    Takes ts i (commas (args.map tokens)) (.symbol .rparen :: rest) (arguments fuel) fun ns =>
      List.Forall₂ (fun a n => P a ts n) args ns := by
  induction args generalizing i fuel with
  | nil =>
    obtain ⟨fuel, rfl⟩ : ∃ k, fuel = k + 1 := ⟨fuel - 1, by omega⟩
    exact takes_peek (takes_pure .nil)
  | cons a args ih =>
    obtain ⟨fuel, rfl⟩ : ∃ k, fuel = k + 1 := ⟨fuel - 1, by omega⟩
    obtain ⟨starts, isExpression⟩ := h a (by simp)
    cases args with
    | nil =>
      simp only [List.map_cons, List.map_nil, commas, List.intercalate_singleton] at bound ⊢
      refine Takes.congr ?_ (arguments_succ (starts.append _))
      have first := isExpression ts i (.symbol .rparen :: rest) fuel (by omega)
        (ends_of_head (by simp) (by simp) rfl)
      exact first.last fun n hn => takes_peek (takes_pure (.cons hn .nil))
    | cons b args =>
      simp only [List.map_cons, commas, List.intercalate_cons_cons, List.append_assoc,
        List.length_append, List.singleton_append, List.length_cons] at bound ih ⊢
      refine Takes.congr ?_ (arguments_succ ((starts.append _).append _))
      have first := fun us => isExpression ts i (.symbol .comma :: us) fuel (by omega)
        (ends_of_head (by simp) (by simp) rfl)
      refine Takes.bind (first _) fun n hn => takes_peek ?_
      refine takes_advance.cons fun _ _ => ?_
      refine (ih (fun c hc => h c (by simp [hc])) (by omega)).last fun ns hns => ?_
      exact takes_pure (.cons hn hns)

/-- Arguments in parentheses. -/
theorem takes_argList
    (h : ∀ a ∈ args, Starts (tokens a) ∧ IsExpression 0 (tokens a) (P a))
    {ts rest : List Token} {i fuel : Nat}
    (bound : 5 * (commas (args.map tokens)).length + 7 ≤ fuel) :
    Takes ts i (.symbol .lparen :: commas (args.map tokens) ++ [Token.symbol .rparen]) rest
      (argList fuel) fun n => ∃ first stop ns, n = .mk .argList first stop ns ∧
        List.Forall₂ (fun a n => P a ts n) args ns := by
  obtain ⟨fuel, rfl⟩ : ∃ k, fuel = k + 1 := ⟨fuel - 1, by omega⟩
  refine takes_here ((takes_expect _).cons fun _ _ => ?_)
  refine (takes_arguments h (by omega)).bind fun ns hns => ?_
  refine (takes_expect _).last fun _ _ => ?_
  exact takes_close.imp fun n hn => ⟨_, _, ns, hn, hns⟩

end Arguments

/-- Arguments in order are read from nodes in order. -/
theorem exprs_of_forall₂ {args : List Expr} {ns : List Node} {ts : List Token}
    (h : List.Forall₂ (fun a n => StandsFor a ts n) args ns) {tree : SourceTree}
    (spells : tree.Spells ts) : tree.exprs ns = .ok args := by
  induction h with
  | nil => rfl
  | cons first _ ih =>
    rw [SourceTree.exprs, first tree spells, ih]
    rfl

/-- One more member behind an operand. -/
theorem trailers_member {fuel i : Nat} {n : Node} {m : String} {rest : List Token} :
    trailers (fuel + 1) n ⟨i, .symbol .dot :: .name m :: rest⟩ =
      trailers fuel (.join .memberExpression n (.mk .propertyName (i + 1) (i + 2) [])
        [n, .mk .propertyName (i + 1) (i + 2) []]) ⟨i + 2, rest⟩ :=
  rfl

/-- One more call behind an operand. -/
theorem trailers_call {fuel i : Nat} {n a : Node} {us : List Token} {c : Cursor}
    (h : argList fuel ⟨i, .symbol .lparen :: us⟩ = .ok (a, c)) :
    trailers (fuel + 1) n ⟨i, .symbol .lparen :: us⟩ =
      trailers fuel (.join .callExpression n a [n, a]) c := by
  change (argList fuel ⟨i, .symbol .lparen :: us⟩ >>= fun p =>
    trailers fuel (.join .callExpression n p.1 [n, p.1]) p.2) = _
  rw [h]
  rfl

theorem drop_append_length {ts us rest : List Token} {i : Nat} (h : ts.drop i = us ++ rest) :
    ts.drop (i + us.length) = rest := by
  rw [← List.drop_drop, h, List.drop_left]

/-- The node is a member of an object. -/
def IsMember (o : Expr) (m : String) (ts : List Token) (n : Node) : Prop :=
  ∃ first stop object leaf, n = .mk .memberExpression first stop [object, leaf] ∧
    StandsFor o ts object ∧ IsLeaf .propertyName (.name m) ts leaf

theorem IsOperand.member {us : List Token} {o : Expr} (h : IsOperand us (StandsFor o))
    (m : String) : IsOperand (us ++ [Token.symbol .dot, .name m]) (IsMember o m) := by
  intro ts i rest fuel bound at_index
  rw [List.length_append, List.length_cons, List.length_singleton] at bound ⊢
  rw [List.append_assoc] at at_index ⊢
  obtain ⟨n, fuel', left, hoperand, stands⟩ := h ts i _ fuel (by omega) at_index
  obtain ⟨fuel', rfl⟩ : ∃ k, fuel' = k + 1 := ⟨fuel' - 1, by omega⟩
  have leaf : ts[i + us.length + 1]? = some (.name m) := by
    rw [← List.head?_drop, ← List.drop_drop, drop_append_length at_index]
    rfl
  refine ⟨_, fuel', by omega, hoperand.trans trailers_member, _, _, _, _, rfl, stands, _, rfl, leaf⟩

theorem standsFor_of_isMember {o : Expr} {m : String} {ts : List Token} {n : Node}
    (h : IsMember o m ts n) : StandsFor (.field none o m) ts n := by
  obtain ⟨first, stop, object, _, rfl, stands, i, rfl, at_index⟩ := h
  intro tree spells
  rw [SourceTree.expr, stands tree spells, spells.name_leaf at_index]
  rfl

/-- A call behind an operand, where `P` is what is called. -/
theorem IsOperand.called {us : List Token} {P : List Token → Node → Prop} (h : IsOperand us P)
    {args : List Expr} (hargs : ∀ a ∈ args, IsExpression 0 a.tokens (StandsFor a)) {e : Expr}
    (stands : ∀ ts n ns first stop first' stop', P ts n →
      (∀ tree : SourceTree, tree.Spells ts → tree.exprs ns = .ok args) →
      StandsFor e ts (.mk .callExpression first stop [n, .mk .argList first' stop' ns])) :
    IsOperand (us ++ (.symbol .lparen :: commas (args.map Expr.tokens) ++ [Token.symbol .rparen]))
      (StandsFor e) := by
  intro ts i rest fuel bound at_index
  rw [List.length_append] at bound ⊢
  rw [List.append_assoc] at at_index ⊢
  simp only [List.length_append, List.length_cons, List.length_nil] at bound
  obtain ⟨n, fuel', left, hoperand, hn⟩ := h ts i _ fuel (by omega) at_index
  obtain ⟨fuel', rfl⟩ : ∃ k, fuel' = k + 1 := ⟨fuel' - 1, by omega⟩
  have enough : 5 * (commas (args.map Expr.tokens)).length + 7 ≤ fuel' := by omega
  obtain ⟨_, hlist, first, stop, ns, rfl, hns⟩ :=
    takes_argList (fun a ha => ⟨starts_tokens a, hargs a ha⟩) enough (drop_append_length at_index)
  rw [Nat.add_assoc] at hlist
  refine ⟨_, fuel', ?_, hoperand.trans (trailers_call hlist), ?_⟩
  · simp only [List.length_append, List.length_cons, List.length_nil]
    omega
  · exact stands _ _ _ _ _ _ _ hn fun tree spells => exprs_of_forall₂ hns spells

theorem isOperand_call (f : String) {args : List Expr}
    (hargs : ∀ a ∈ args, IsExpression 0 a.tokens (StandsFor a)) :
    IsOperand (Expr.call none f args).tokens (StandsFor (.call none f args)) := by
  have name : IsOperand [.name f] (IsLeaf .variableName (.name f)) := isOperand_leaf rfl
  rw [Expr.tokens, Expr.tokenLists_eq_map]
  refine name.called hargs ?_
  rintro ts _ ns first stop first' stop' ⟨i, rfl, at_index⟩ areArgs tree spells
  rw [SourceTree.expr, areArgs tree spells]
  simp [spells.name_leaf at_index]

theorem isOperand_method {us : List Token} {o : Expr} (h : IsOperand us (StandsFor o)) (m : String)
    {args : List Expr} (hargs : ∀ a ∈ args, IsExpression 0 a.tokens (StandsFor a)) :
    IsOperand (us ++ [Token.symbol .dot, .name m] ++
      (.symbol .lparen :: commas (args.map Expr.tokens) ++ [Token.symbol .rparen]))
      (StandsFor (.method none o m args)) := by
  refine (h.member m).called hargs ?_
  rintro ts _ ns _ _ _ _ ⟨first, stop, object, _, rfl, stands, i, rfl, at_index⟩ areArgs tree spells
  rw [SourceTree.expr, areArgs tree spells]
  simp [stands tree spells, spells.name_leaf at_index]

/-! ## §5 Operators -/

theorem unaryLevel?_token (op : UnOp) : ∃ level, unaryLevel? op.token = some level := by
  cases op <;> exact ⟨_, rfl⟩

theorem binaryLevel?_token (op : BinOp) : ∃ level, binaryLevel? op.token = some level := by
  cases op <;> exact ⟨_, rfl⟩

/-- An operator is read back from its token. -/
theorem ofText?_unOp (op : UnOp) : UnOp.ofText? op.token.text = some op := by
  cases op <;> rfl

theorem ofText?_binOp (op : BinOp) : BinOp.ofText? op.token.text = some op := by
  cases op <;> rfl

theorem IsOperand.unary {us : List Token} {e : Expr} (h : IsOperand us (StandsFor e)) (op : UnOp)
    (level : Nat) : IsExpression level (op.token :: us) (StandsFor (.unary none op e)) := by
  intro ts i rest fuel bound ends
  rw [List.length_cons] at bound
  obtain ⟨fuel, rfl⟩ : ∃ k, fuel = k + 3 := ⟨fuel - 3, by omega⟩
  obtain ⟨within, hlevel⟩ := unaryLevel?_token op
  have step : Takes ts i (op.token :: us) rest (operand (fuel + 2))
      (StandsFor (.unary none op e) ts) := by
    refine takes_peek ?_
    rw [List.cons_append, List.head?_cons, Option.bind_some, hlevel]
    refine takes_leaf.cons ?_
    rintro _ ⟨rfl, at_index⟩
    refine (h.isExpression within ts (i + 1) rest (fuel + 1) (by omega) ends).last ?_
    intro n stands
    refine takes_pure fun tree spells => ?_
    have text := spells.text_leaf at_index (by cases op <;> rfl) .operator []
    rw [Node.join, SourceTree.expr, text, ofText?_unOp, stands tree spells]
    rfl
  refine step.last fun n stands at_index => ⟨n, ?_, stands⟩
  exact operations_end ends

theorem IsOperand.binary {us vs : List Token} {l r : Expr} (hl : IsOperand us (StandsFor l))
    (hr : IsOperand vs (StandsFor r)) (op : BinOp) :
    IsExpression 0 (us ++ op.token :: vs) (StandsFor (.binary none op l r)) := by
  intro ts i rest fuel bound ends
  rw [List.length_append, List.length_cons] at bound
  obtain ⟨fuel, rfl⟩ : ∃ k, fuel = k + 3 := ⟨fuel - 3, by omega⟩
  obtain ⟨found, hlevel⟩ := binaryLevel?_token op
  have left : Takes ts i us (op.token :: vs ++ rest) (operand (fuel + 2)) (StandsFor l ts) := by
    intro at_index
    obtain ⟨n, fuel', enough, hoperand, stands⟩ := hl ts i _ (fuel + 2) (by omega) at_index
    obtain ⟨fuel', rfl⟩ : ∃ k, fuel' = k + 1 := ⟨fuel' - 1, by omega⟩
    refine ⟨n, hoperand.trans (trailers_end ?_), stands⟩
    rintro t ⟨⟩
    cases op <;> simp [BinOp.token]
  refine left.bind fun n stands => ?_
  refine Takes.congr ?_ (operations_succ _ _ _ _ _ _)
  rw [hlevel]
  refine takes_leaf.cons ?_
  rintro _ ⟨rfl, at_index⟩
  refine (hr.isExpression _ ts _ rest (fuel + 1) (by omega) ends).last fun n' stands' => ?_
  intro _
  refine ⟨_, operations_end ends, fun tree spells => ?_⟩
  have text := spells.text_leaf at_index (by cases op <;> rfl) .operator []
  rw [Node.join, SourceTree.expr, text, ofText?_binOp, stands tree spells, stands' tree spells]
  rfl

/-! ## §6 All expressions -/

/-- An operand in parentheses, if it needs them. -/
theorem isOperand_parenthesized {e : Expr} {needed : Bool}
    (closed : needed = false → IsOperand e.tokens (StandsFor e))
    (whole : IsExpression 0 e.tokens (StandsFor e)) :
    IsOperand (parenthesizedTokens needed e.tokens) (StandsFor e) := by
  cases needed with
  | false => exact closed rfl
  | true => exact whole.parens

/-- What stands before a point. -/
theorem isOperand_receiver {o : Expr}
    (h : (o.isOperation = false → IsOperand o.tokens (StandsFor o)) ∧
      IsExpression 0 o.tokens (StandsFor o)) :
    IsOperand (parenthesizedTokens o.isOpenReceiver o.tokens) (StandsFor o) := by
  refine isOperand_parenthesized (fun notOpen => h.1 ?_) h.2
  unfold Expr.isOpenReceiver at notOpen
  split at notOpen
  · cases notOpen
  · exact notOpen

/-- The tokens of every canonical expression are read as it, and those of an expression that is no
operation as an operand. -/
theorem reads_expr {e : Expr} (h : e.isCanonical = true) :
    (e.isOperation = false → IsOperand e.tokens (StandsFor e)) ∧
      IsExpression 0 e.tokens (StandsFor e) := by
  have both : ∀ {e : Expr}, IsOperand e.tokens (StandsFor e) →
      (e.isOperation = false → IsOperand e.tokens (StandsFor e)) ∧
        IsExpression 0 e.tokens (StandsFor e) :=
    fun h => ⟨fun _ => h, h.isExpression 0⟩
  induction e with
  | literal ty v =>
    simp only [Expr.isCanonical, Bool.and_eq_true, Option.isNone_iff_eq_none] at h
    obtain ⟨rfl, hv⟩ := h
    exact both (isOperand_literal hv)
  | var ty x =>
    simp only [Expr.isCanonical, Bool.and_eq_true, Option.isNone_iff_eq_none] at h
    obtain ⟨rfl, -⟩ := h
    exact both (isOperand_var x)
  | unary ty op e ih =>
    simp only [Expr.isCanonical, Bool.and_eq_true, Option.isNone_iff_eq_none] at h
    obtain ⟨rfl, he⟩ := h
    have operand := isOperand_parenthesized (ih he).1 (ih he).2
    exact ⟨fun operation => (by cases operation), operand.unary op 0⟩
  | binary ty op l r ihl ihr =>
    simp only [Expr.isCanonical, Bool.and_eq_true, Option.isNone_iff_eq_none] at h
    obtain ⟨⟨rfl, hl⟩, hr⟩ := h
    have left := isOperand_parenthesized (ihl hl).1 (ihl hl).2
    have right := isOperand_parenthesized (ihr hr).1 (ihr hr).2
    exact ⟨fun operation => (by cases operation), left.binary right op⟩
  | call ty f args ih =>
    simp only [Expr.isCanonical, Bool.and_eq_true, Option.isNone_iff_eq_none,
      Expr.areCanonical_iff] at h
    obtain ⟨⟨rfl, -⟩, hargs⟩ := h
    exact both (isOperand_call f fun a ha => (ih a ha (hargs a ha)).2)
  | field ty o m ih =>
    simp only [Expr.isCanonical, Bool.and_eq_true, Option.isNone_iff_eq_none] at h
    obtain ⟨⟨rfl, ho⟩, -⟩ := h
    exact both (((isOperand_receiver (ih ho)).member m).imp fun _ _ => standsFor_of_isMember)
  | method ty o m args ih ihargs =>
    simp only [Expr.isCanonical, Bool.and_eq_true, Option.isNone_iff_eq_none,
      Expr.areCanonical_iff] at h
    obtain ⟨⟨⟨rfl, ho⟩, -⟩, hargs⟩ := h
    have method := isOperand_method (isOperand_receiver (ih ho)) m
      fun a ha => (ihargs a ha (hargs a ha)).2
    refine both ?_
    simpa [Expr.tokens, Expr.tokenLists_eq_map] using method

/-- The tokens of an expression are taken by the rule for expressions. -/
theorem takes_expression {us : List Token} {P : List Token → Node → Prop}
    (h : IsExpression 0 us P) {ts rest : List Token} {i : Nat} (ends : Ends rest) :
    Takes ts i us rest expression (P ts) := by
  refine takes_remaining (h ts i rest _ ?_ ends)
  rw [depthBound, List.length_append]
  omega

end Rule

end Serpent
