/-
Serpent.Proofs.Grammar — the grammar of scripts, with the tree of every derivation.

A derivation says which tokens, from which index on, make up a part of a script, and which node
stands for the part. Nothing is said of rules, of lookahead or of how tokens are read. Which operand
an operator belongs to is said by two levels: that of the outermost operator of an expression, and
the least level of an operator that would belong to an operand inside of the expression if it
followed (§1). The levels only choose between trees: a list of tokens has a derivation as soon as it
is made of operands and operators in any way, `exists_isExpression_iff` (§4).

  §1 Expressions
  §2 Statements
  §3 Levels and ranges
  §4 Expressions without levels
-/
import Serpent.Tree.Statement

namespace Serpent.Grammar

/-! ## §1 Expressions -/

/-- A node without parts over the token at index `k`. -/
abbrev leaf (kind : Kind) (k : Nat) : Node := .mk kind k (k + 1) []

/-- A node over the tokens `ts`, the first of which has index `k`. -/
abbrev nodeOver (kind : Kind) (k : Nat) (ts : List Token) (children : List Node) : Node :=
  .mk kind k (k + ts.length) children

/-- A level above those of all operators. -/
def noLevel : Nat := 9

mutual

/-- A literal, a name or an expression in parentheses, with the members and calls that follow it,
grouped from the left. -/
inductive Primary : (k : Nat) → List Token → Node → Prop
  | atom {k : Nat} {t : Token} {kind : Kind} (h : atomKind? t = some kind) :
      Primary k [t] (leaf kind k)
  | parens {k : Nat} {ts : List Token} {e : Node} {top bound : Nat}
      (inner : Expression (k + 1) ts e top bound) :
      Primary k (.symbol .lparen :: (ts ++ [.symbol .rparen]))
        (nodeOver .parenthesizedExpression k (.symbol .lparen :: (ts ++ [.symbol .rparen])) [e])
  | member {k : Nat} {ts : List Token} {e : Node} (target : Primary k ts e) (x : String) :
      Primary k (ts ++ [.symbol .dot, .name x])
        (nodeOver .memberExpression k (ts ++ [.symbol .dot, .name x])
          [e, leaf .propertyName (k + ts.length + 1)])
  | call {k : Nat} {ts us : List Token} {e args : Node} (target : Primary k ts e)
      (arguments : ArgList (k + ts.length) us args) :
      Primary k (ts ++ us) (nodeOver .callExpression k (ts ++ us) [e, args])

/-- An expression. Its outermost operator, if it is a binary one, has the level `top`. A binary
operator behind it would belong to one of its operands if it had the level `bound` or a higher
one. -/
inductive Expression : (k : Nat) → List Token → Node → (top bound : Nat) → Prop
  | primary {k : Nat} {ts : List Token} {e : Node} (h : Primary k ts e) :
      Expression k ts e noLevel noLevel
  | unary {k : Nat} {t : Token} {ts : List Token} {e : Node} {level top bound : Nat}
      (op : unaryLevel? t = some level) (operand : Expression (k + 1) ts e top bound)
      (tight : level ≤ top) :
      Expression k (t :: ts) (nodeOver .unaryExpression k (t :: ts) [leaf .operator k, e]) noLevel
        (min level bound)
  | binary {k : Nat} {t : Token} {ts us : List Token} {l r : Node}
      {level top bound top' bound' : Nat} (op : binaryLevel? t = some level)
      (left : Expression k ts l top bound)
      (right : Expression (k + ts.length + 1) us r top' bound') (loose : level < bound)
      (tight : rightLevel t level ≤ top') :
      Expression k (ts ++ t :: us)
        (nodeOver .binaryExpression k (ts ++ t :: us) [l, leaf .operator (k + ts.length), r]) level
        (min (rightLevel t level) bound')

/-- Arguments in parentheses. -/
inductive ArgList : (k : Nat) → List Token → Node → Prop
  | mk {k : Nat} {ts : List Token} {args : List Node} (h : Arguments (k + 1) ts args) :
      ArgList k (.symbol .lparen :: (ts ++ [.symbol .rparen]))
        (nodeOver .argList k (.symbol .lparen :: (ts ++ [.symbol .rparen])) args)

/-- Expressions with commas between them; one more comma may stand at the end. -/
inductive Arguments : (k : Nat) → List Token → List Node → Prop
  | nil {k : Nat} : Arguments k [] []
  | last {k : Nat} {ts : List Token} {e : Node} {top bound : Nat}
      (h : Expression k ts e top bound) : Arguments k ts [e]
  | cons {k : Nat} {ts us : List Token} {e : Node} {es : List Node} {top bound : Nat}
      (first : Expression k ts e top bound) (rest : Arguments (k + ts.length + 1) us es) :
      Arguments k (ts ++ .symbol .comma :: us) (e :: es)

end

/-- The tokens from index `k` on are an expression, whatever its operators are. -/
def IsExpression (k : Nat) (ts : List Token) (e : Node) : Prop :=
  ∃ top bound, Expression k ts e top bound

/-! ## §2 Statements -/

/-- A part that may be missing. -/
inductive Optionally (part : (k : Nat) → List Token → Node → Prop) :
    (k : Nat) → List Token → Option Node → Prop
  | absent {k : Nat} : Optionally part k [] none
  | present {k : Nat} {ts : List Token} {n : Node} (h : part k ts n) : Optionally part k ts (some n)

/-- A type behind its mark. -/
inductive TypeAfter (mark : Symbol) : (k : Nat) → List Token → Node → Prop
  | mk {k : Nat} {ts : List Token} {e : Node} (h : IsExpression (k + 1) ts e) :
      TypeAfter mark k (.symbol mark :: ts) (nodeOver .typeDef k (.symbol mark :: ts) [e])

/-- The value behind `=`. -/
inductive Value : (k : Nat) → List Token → Node → Prop
  | mk {k : Nat} {ts : List Token} {e : Node} (h : IsExpression (k + 1) ts e) :
      Value k (.symbol .assign :: ts) e

/-- A statement on one line, without the end of the line. -/
inductive Simple : (k : Nat) → List Token → Node → Prop
  | pass {k : Nat} : Simple k [.keyword .pass] (leaf .passStatement k)
  | return_ {k : Nat} {ts : List Token} {value : Option Node}
      (h : Optionally IsExpression (k + 1) ts value) :
      Simple k (.keyword .return_ :: ts)
        (nodeOver .returnStatement k (.keyword .return_ :: ts) value.toList)
  | expression {k : Nat} {ts : List Token} {e : Node} (h : IsExpression k ts e) :
      Simple k ts (nodeOver .expressionStatement k ts [e])
  | assign {k : Nat} {ts us vs : List Token} {e : Node} {type value : Option Node}
      (target : IsExpression k ts e) (typed : Optionally (TypeAfter .colon) (k + ts.length) us type)
      (assigned : Optionally Value (k + ts.length + us.length) vs value)
      (more : type.isSome = true ∨ value.isSome = true) :
      Simple k (ts ++ (us ++ vs))
        (nodeOver .assignStatement k (ts ++ (us ++ vs)) (e :: type.toList ++ value.toList))

/-- A parameter with an optional type. -/
inductive Parameter : (k : Nat) → List Token → Node → Prop
  | mk {k : Nat} (x : String) {ts : List Token} {type : Option Node}
      (typed : Optionally (TypeAfter .colon) (k + 1) ts type) :
      Parameter k (.name x :: ts)
        (nodeOver .param k (.name x :: ts) (leaf .variableName k :: type.toList))

/-- Parameters with commas between them; one more comma may stand at the end. -/
inductive Parameters : (k : Nat) → List Token → List Node → Prop
  | nil {k : Nat} : Parameters k [] []
  | last {k : Nat} {ts : List Token} {p : Node} (h : Parameter k ts p) : Parameters k ts [p]
  | cons {k : Nat} {ts us : List Token} {p : Node} {ps : List Node} (first : Parameter k ts p)
      (rest : Parameters (k + ts.length + 1) us ps) :
      Parameters k (ts ++ .symbol .comma :: us) (p :: ps)

/-- Parameters in parentheses. -/
inductive ParamList : (k : Nat) → List Token → Node → Prop
  | mk {k : Nat} {ts : List Token} {ps : List Node} (h : Parameters (k + 1) ts ps) :
      ParamList k (.symbol .lparen :: (ts ++ [.symbol .rparen]))
        (nodeOver .paramList k (.symbol .lparen :: (ts ++ [.symbol .rparen])) ps)

mutual

/-- A statement. The end of its line belongs to a statement on one line, but not to its node. -/
inductive Statement : (k : Nat) → List Token → Node → Prop
  | simple {k : Nat} {ts : List Token} {s : Node} (h : Simple k ts s) :
      Statement k (ts ++ [.newline]) s
  | if_ {k : Nat} {ts us vs ws : List Token} {c b : Node} {clauses : List Node}
      {last : Option Node} (condition : IsExpression (k + 1) ts c)
      (block : Body (k + 1 + ts.length) us b)
      (elifs : Elifs (k + 1 + ts.length + us.length) vs clauses)
      (otherwise : Otherwise (k + 1 + ts.length + us.length + vs.length) ws last) :
      Statement k (.keyword .if_ :: (ts ++ (us ++ (vs ++ ws))))
        (nodeOver .ifStatement k (.keyword .if_ :: (ts ++ (us ++ (vs ++ ws))))
          (c :: b :: clauses ++ last.toList))
  | while_ {k : Nat} {ts us : List Token} {c b : Node} (condition : IsExpression (k + 1) ts c)
      (block : Body (k + 1 + ts.length) us b) :
      Statement k (.keyword .while_ :: (ts ++ us))
        (nodeOver .whileStatement k (.keyword .while_ :: (ts ++ us)) [c, b])
  | function {k : Nat} (x : String) {ts us vs : List Token} {params b : Node}
      {result : Option Node} (parameters : ParamList (k + 2) ts params)
      (typed : Optionally (TypeAfter .arrow) (k + 2 + ts.length) us result)
      (block : Body (k + 2 + ts.length + us.length) vs b) :
      Statement k (.keyword .def_ :: .name x :: (ts ++ (us ++ vs)))
        (nodeOver .functionDefinition k (.keyword .def_ :: .name x :: (ts ++ (us ++ vs)))
          (leaf .variableName (k + 1) :: params :: result.toList ++ [b]))
  | class_ {k : Nat} (x : String) {ts us : List Token} {parents : Option Node} {b : Node}
      (arguments : Optionally ArgList (k + 2) ts parents) (block : Body (k + 2 + ts.length) us b) :
      Statement k (.keyword .class_ :: .name x :: (ts ++ us))
        (nodeOver .classDefinition k (.keyword .class_ :: .name x :: (ts ++ us))
          (leaf .variableName (k + 1) :: parents.toList ++ [b]))

/-- A colon with a statement on the same line, or with an indented block of statements. -/
inductive Body : (k : Nat) → List Token → Node → Prop
  | line {k : Nat} {ts : List Token} {s : Node} (h : Simple (k + 1) ts s) :
      Body k (.symbol .colon :: (ts ++ [.newline]))
        (nodeOver .body k (.symbol .colon :: (ts ++ [.newline])) [s])
  | block {k : Nat} {ts us : List Token} {s : Node} {ss : List Node}
      (first : Statement (k + 3) ts s) (rest : Statements (k + 3 + ts.length) us ss) :
      Body k (.symbol .colon :: .newline :: .indent :: (ts ++ (us ++ [.dedent])))
        (nodeOver .body k (.symbol .colon :: .newline :: .indent :: (ts ++ (us ++ [.dedent])))
          (s :: ss))

/-- Statements one after the other. -/
inductive Statements : (k : Nat) → List Token → List Node → Prop
  | nil {k : Nat} : Statements k [] []
  | cons {k : Nat} {ts us : List Token} {s : Node} {ss : List Node} (first : Statement k ts s)
      (rest : Statements (k + ts.length) us ss) : Statements k (ts ++ us) (s :: ss)

/-- `elif` clauses, however many. -/
inductive Elifs : (k : Nat) → List Token → List Node → Prop
  | nil {k : Nat} : Elifs k [] []
  | cons {k : Nat} {ts us vs : List Token} {c b : Node} {clauses : List Node}
      (condition : IsExpression (k + 1) ts c) (block : Body (k + 1 + ts.length) us b)
      (rest : Elifs (k + 1 + ts.length + us.length) vs clauses) :
      Elifs k (.keyword .elif :: (ts ++ (us ++ vs)))
        (nodeOver .elifClause k (.keyword .elif :: (ts ++ us)) [c, b] :: clauses)

/-- An `else` clause, or none. -/
inductive Otherwise : (k : Nat) → List Token → Option Node → Prop
  | absent {k : Nat} : Otherwise k [] none
  | present {k : Nat} {ts : List Token} {b : Node} (block : Body (k + 1) ts b) :
      Otherwise k (.keyword .else_ :: ts)
        (some (nodeOver .elseClause k (.keyword .else_ :: ts) [b]))

end

/-- The tokens of a script, with its tree. -/
inductive Script : List Token → Node → Prop
  | mk {ts : List Token} {ss : List Node} (h : Statements 0 ts ss) :
      Script ts (nodeOver .script 0 ts ss)

/-! ## §3 Levels and ranges -/

variable {k : Nat} {ts us : List Token} {n : Node}

theorem unaryLevel_le {t : Token} {level : Nat} (h : unaryLevel? t = some level) :
    level ≤ noLevel := by
  unfold unaryLevel? at h
  split at h <;> cases h <;> decide

/-- The levels of operators are below `noLevel`. -/
theorem level_lt_noLevel {t : Token} {level : Nat} (h : binaryLevel? t = some level) :
    level < noLevel ∧ rightLevel t level ≤ noLevel := by
  cases t with
  | keyword w => cases w <;> cases h <;> decide
  | symbol s => cases s <;> cases h <;> decide
  | _ => cases h

theorem Primary.range (h : Primary k ts n) : n.first = k ∧ n.stop = k + ts.length := by
  cases h <;> exact ⟨rfl, rfl⟩

theorem Expression.range {top bound : Nat} (h : Expression k ts n top bound) :
    n.first = k ∧ n.stop = k + ts.length := by
  cases h with
  | primary h => exact h.range
  | unary op operand tight => exact ⟨rfl, rfl⟩
  | binary op left right loose tight => exact ⟨rfl, rfl⟩

theorem ArgList.range (h : ArgList k ts n) : n.first = k ∧ n.stop = k + ts.length := by
  cases h
  exact ⟨rfl, rfl⟩

/-- An operator behind an expression that binds tighter than its outermost operator belongs to an
operand inside of it. -/
theorem Expression.bound_le {top bound : Nat} (h : Expression k ts n top bound) :
    bound ≤ top + 1 := by
  cases h with
  | primary h => omega
  | unary op operand tight => have := unaryLevel_le op; omega
  | binary op left right loose tight =>
    unfold rightLevel
    split <;> omega

/-! ## §4 Expressions without levels -/

mutual

/-- The tokens of an expression that is made of operands and operators in any way. -/
inductive Plain : List Token → Prop
  | atom {t : Token} {kind : Kind} (h : atomKind? t = some kind) : Plain [t]
  | parens {ts : List Token} (inner : Plain ts) :
      Plain (.symbol .lparen :: (ts ++ [.symbol .rparen]))
  | member {ts : List Token} (target : Plain ts) (x : String) :
      Plain (ts ++ [.symbol .dot, .name x])
  | call {ts us : List Token} (target : Plain ts) (arguments : PlainArguments us) :
      Plain (ts ++ .symbol .lparen :: (us ++ [.symbol .rparen]))
  | unary {t : Token} {ts : List Token} {level : Nat} (op : unaryLevel? t = some level)
      (operand : Plain ts) : Plain (t :: ts)
  | binary {t : Token} {ts us : List Token} {level : Nat} (op : binaryLevel? t = some level)
      (left : Plain ts) (right : Plain us) : Plain (ts ++ t :: us)

/-- The tokens of arguments. -/
inductive PlainArguments : List Token → Prop
  | nil : PlainArguments []
  | last {ts : List Token} (h : Plain ts) : PlainArguments ts
  | cons {ts us : List Token} (first : Plain ts) (rest : PlainArguments us) :
      PlainArguments (ts ++ .symbol .comma :: us)

end

mutual

theorem Primary.plain {k : Nat} {ts : List Token} {n : Node} : Primary k ts n → Plain ts
  | .atom h => .atom h
  | .parens inner => .parens inner.plain
  | .member target x => .member target.plain x
  | .call target (.mk arguments) => .call target.plain arguments.plain

theorem Expression.plain {k : Nat} {ts : List Token} {n : Node} {top bound : Nat} :
    Expression k ts n top bound → Plain ts
  | .primary h => h.plain
  | .unary op operand _ => .unary op operand.plain
  | .binary op left right _ _ => .binary op left.plain right.plain

theorem Arguments.plain {k : Nat} {ts : List Token} {ns : List Node} :
    Arguments k ts ns → PlainArguments ts
  | .nil => .nil
  | .last h => .last h.plain
  | .cons first rest => .cons first.plain rest.plain

end

/-- The index of the first token may be written in another way. -/
theorem Expression.at {k k' : Nat} {top bound : Nat} (h : Expression k ts n top bound)
    (same : k = k') : Expression k' ts n top bound :=
  same ▸ h

/-- One more operator with its operand behind an expression. It belongs to the whole expression if
its level is below the bound, and to the last operand otherwise. -/
theorem Expression.snoc {k : Nat} {ts us : List Token} {t : Token} {e o : Node}
    {level top bound b : Nat} (h : Expression k ts e top bound) (op : binaryLevel? t = some level)
    (right : Expression (k + ts.length + 1) us o noLevel b) :
    ∃ e' top' bound', Expression k (ts ++ t :: us) e' top' bound' ∧
      (top' = top ∨ top' = level ∧ level < bound) := by
  by_cases loose : level < bound
  · exact ⟨_, level, _, .binary op h right loose (level_lt_noLevel op).2, .inr ⟨rfl, loose⟩⟩
  · match h with
    | .primary _ => exact absurd (level_lt_noLevel op).1 loose
    | .unary op₀ operand tight =>
      obtain ⟨e', top', bound', h', place⟩ :=
        operand.snoc op (right.at (by simp only [List.length_cons]; omega))
      exact ⟨_, _, _, .unary op₀ h' (by omega), .inl rfl⟩
    | .binary op₀ left right₀ loose₀ tight =>
      obtain ⟨r', top', bound', h', place⟩ :=
        right₀.snoc op (right.at (by simp only [List.length_append, List.length_cons]; omega))
      rw [List.append_assoc, List.cons_append]
      exact ⟨_, _, _, .binary op₀ left h' loose₀ (by omega), .inl rfl⟩

/-- The tokens of an operand: prefix operators before tokens that are a primary wherever they
stand. -/
inductive Operand : List Token → Prop
  | primary {ts : List Token} (h : ∀ k, ∃ n, Primary k ts n) : Operand ts
  | unary {t : Token} {ts : List Token} {level : Nat} (op : unaryLevel? t = some level)
      (operand : Operand ts) : Operand (t :: ts)

/-- Operands with binary operators between them. -/
inductive Chain : List Token → Prop
  | operand {ts : List Token} (h : Operand ts) : Chain ts
  | snoc {t : Token} {ts us : List Token} {level : Nat} (op : binaryLevel? t = some level)
      (left : Chain ts) (right : Operand us) : Chain (ts ++ t :: us)

/-- What may follow a primary may follow an operand: it belongs to the primary at its end. -/
theorem Operand.append (h : Operand ts)
    (more : ∀ {k vs n}, Primary k vs n → ∃ n', Primary k (vs ++ us) n') : Operand (ts ++ us) := by
  induction h with
  | primary h =>
    refine .primary fun k => ?_
    obtain ⟨n, h⟩ := h k
    exact more h
  | unary op _ ih => exact .unary op ih

/-- What may follow a primary may follow a chain: it belongs to the operand at its end. -/
theorem Chain.append (h : Chain ts)
    (more : ∀ {k vs n}, Primary k vs n → ∃ n', Primary k (vs ++ us) n') : Chain (ts ++ us) := by
  cases h with
  | operand h => exact .operand (h.append more)
  | snoc op left right =>
    rw [List.append_assoc, List.cons_append]
    exact .snoc op left (right.append more)

/-- A prefix operator before a chain belongs to the first operand. -/
theorem Chain.cons {t : Token} {level : Nat} (op : unaryLevel? t = some level) (h : Chain ts) :
    Chain (t :: ts) := by
  induction h with
  | operand h => exact .operand (.unary op h)
  | snoc op' _ right ih => exact .snoc op' ih right

theorem Chain.join {t : Token} {level : Nat} (op : binaryLevel? t = some level) (left : Chain ts)
    (right : Chain us) : Chain (ts ++ t :: us) := by
  induction right with
  | operand h => exact .snoc op left h
  | snoc op' _ right ih =>
    rw [← List.cons_append, ← List.append_assoc]
    exact .snoc op' ih right

/-- An operand is an expression without an outermost binary operator. -/
theorem Operand.expression (h : Operand ts) (k : Nat) :
    ∃ n bound, Expression k ts n noLevel bound := by
  induction h generalizing k with
  | primary h =>
    obtain ⟨n, h⟩ := h k
    exact ⟨n, _, .primary h⟩
  | @unary t ts level op _ ih =>
    obtain ⟨n, bound, h⟩ := ih (k + 1)
    exact ⟨_, _, .unary op h (unaryLevel_le op)⟩

theorem Chain.isExpression (h : Chain ts) (k : Nat) : ∃ n, IsExpression k ts n := by
  induction h with
  | operand h =>
    obtain ⟨n, bound, h⟩ := h.expression k
    exact ⟨n, _, bound, h⟩
  | @snoc t ts us level op _ right ih =>
    obtain ⟨n, top, bound, h⟩ := ih
    obtain ⟨o, b, right⟩ := right.expression (k + ts.length + 1)
    obtain ⟨n', top', bound', h', -⟩ := h.snoc op right
    exact ⟨n', top', bound', h'⟩

mutual

theorem Plain.chain {ts : List Token} : Plain ts → Chain ts
  | .atom h => .operand (.primary fun _ => ⟨_, .atom h⟩)
  | .parens inner => .operand (.primary fun k => by
      obtain ⟨n, top, bound, h⟩ := inner.chain.isExpression (k + 1)
      exact ⟨_, .parens h⟩)
  | .member target x => target.chain.append fun h => ⟨_, .member h x⟩
  | .call target arguments => target.chain.append fun {k vs _} h => by
      obtain ⟨args, h'⟩ := arguments.arguments (k + vs.length + 1)
      exact ⟨_, .call h (.mk h')⟩
  | .unary op operand => operand.chain.cons op
  | .binary op left right => left.chain.join op right.chain

theorem PlainArguments.arguments {ts : List Token} :
    PlainArguments ts → ∀ k, ∃ args, Arguments k ts args
  | .nil, _ => ⟨_, .nil⟩
  | .last h, k => by
    obtain ⟨n, top, bound, h⟩ := h.chain.isExpression k
    exact ⟨_, .last h⟩
  | @PlainArguments.cons us _ first rest, k => by
    obtain ⟨n, top, bound, h⟩ := first.chain.isExpression k
    obtain ⟨ns, hs⟩ := rest.arguments (k + us.length + 1)
    exact ⟨_, .cons h hs⟩

end

/-- The levels never refuse tokens: they only say which tree the tokens have. -/
theorem exists_isExpression_iff (k : Nat) : (∃ n, IsExpression k ts n) ↔ Plain ts := by
  refine ⟨?_, fun h => h.chain.isExpression k⟩
  rintro ⟨n, top, bound, h⟩
  exact h.plain

end Serpent.Grammar
