/-
Serpent.Proofs.Shape — the shape of the trees that the grammar makes.

A node of each kind has the parts that its kind asks for, and a leaf stands for a token of its
kind: where a tree has a name, the tokens have a name at that place. Every rule of the grammar gives
nodes of its shape, whatever the tokens are; the proof goes along the rules, with one lemma for each
way of putting rules together.

  §1 Shapes
  §2 What a rule gives
  §3 Expressions
  §4 Statements
-/
import Serpent.Proofs.Fallible
import Serpent.Tree.Statement

namespace Serpent

/-! ## §1 Shapes -/

namespace Node

section Fields

variable (k : Kind) (first stop : Nat) (parts : List Node)

@[simp] theorem kind_mk : (mk k first stop parts).kind = k := rfl

@[simp] theorem children_mk : (mk k first stop parts).children = parts := rfl

end Fields

/-- The shape of an expression over the tokens `ts`. -/
inductive IsExpr (ts : List Token) : Node → Prop where
  | atom {i : Nat} {t : Token} {kind : Kind} : ts[i]? = some t → atomKind? t = some kind →
      IsExpr ts (.mk kind i (i + 1) [])
  | parenthesized {first stop : Nat} {e : Node} : IsExpr ts e →
      IsExpr ts (.mk .parenthesizedExpression first stop [e])
  | unary {first stop i : Nat} {t : Token} {level : Nat} {e : Node} : ts[i]? = some t →
      unaryLevel? t = some level → IsExpr ts e →
      IsExpr ts (.mk .unaryExpression first stop [.mk .operator i (i + 1) [], e])
  | binary {first stop i : Nat} {t : Token} {level : Nat} {l r : Node} : IsExpr ts l →
      ts[i]? = some t → binaryLevel? t = some level → IsExpr ts r →
      IsExpr ts (.mk .binaryExpression first stop [l, .mk .operator i (i + 1) [], r])
  | member {first stop i : Nat} {x : String} {o : Node} : IsExpr ts o →
      ts[i]? = some (.name x) →
      IsExpr ts (.mk .memberExpression first stop [o, .mk .propertyName i (i + 1) []])
  | call {first stop first' stop' : Nat} {f : Node} {args : List Node} : IsExpr ts f →
      (∀ a ∈ args, IsExpr ts a) →
      IsExpr ts (.mk .callExpression first stop [f, .mk .argList first' stop' args])

/-- The shape of a type with its mark. -/
def IsTypeDef (ts : List Token) (n : Node) : Prop :=
  ∃ first stop e, n = .mk .typeDef first stop [e] ∧ IsExpr ts e

/-- The shape of arguments in parentheses. -/
def IsArgList (ts : List Token) (n : Node) : Prop :=
  ∃ first stop args, n = .mk .argList first stop args ∧ ∀ a ∈ args, IsExpr ts a

/-- A name that stands for itself. -/
def IsName (ts : List Token) (n : Node) : Prop :=
  ∃ i x, n = .mk .variableName i (i + 1) [] ∧ ts[i]? = some (.name x)

/-- The shape of a parameter, with or without a type. -/
def IsParam (ts : List Token) (n : Node) : Prop :=
  ∃ first stop x type, n = .mk .param first stop (x :: Option.toList type) ∧ IsName ts x ∧
    ∀ t ∈ type, IsTypeDef ts t

/-- The statements behind a colon. -/
structure Suite where
  first : Nat
  stop : Nat
  stmts : List Node

def Suite.node (b : Suite) : Node := .mk .body b.first b.stop b.stmts

/-- An `elif` clause. -/
structure Clause where
  first : Nat
  stop : Nat
  cond : Node
  body : Suite

def Clause.node (c : Clause) : Node := .mk .elifClause c.first c.stop [c.cond, c.body.node]

/-- An `else` clause. -/
structure LastClause where
  first : Nat
  stop : Nat
  body : Suite

def LastClause.node (c : LastClause) : Node := .mk .elseClause c.first c.stop [c.body.node]

/-- The shape of a statement over the tokens `ts`. No body is empty. -/
inductive IsStmt (ts : List Token) : Node → Prop where
  | pass {i : Nat} : IsStmt ts (.mk .passStatement i (i + 1) [])
  | expr {first stop : Nat} {e : Node} : IsExpr ts e →
      IsStmt ts (.mk .expressionStatement first stop [e])
  | assign {first stop : Nat} {t e : Node} : IsExpr ts t → IsExpr ts e →
      IsStmt ts (.mk .assignStatement first stop [t, e])
  | define {first stop : Nat} {t type : Node} {value : Option Node} : IsExpr ts t →
      IsTypeDef ts type → (∀ v ∈ value, IsExpr ts v) →
      IsStmt ts (.mk .assignStatement first stop (t :: type :: value.toList))
  | returned {first stop : Nat} (value : Option Node) : (∀ v ∈ value, IsExpr ts v) →
      IsStmt ts (.mk .returnStatement first stop value.toList)
  | while_ {first stop : Nat} {c : Node} {body : Suite} : IsExpr ts c → body.stmts ≠ [] →
      (∀ s ∈ body.stmts, IsStmt ts s) →
      IsStmt ts (.mk .whileStatement first stop [c, body.node])
  | if_ {first stop : Nat} {c : Node} {body : Suite} {elifs : List Clause}
      (last : Option LastClause) : IsExpr ts c → body.stmts ≠ [] →
      (∀ s ∈ body.stmts, IsStmt ts s) →
      (∀ e ∈ elifs, IsExpr ts e.cond ∧ e.body.stmts ≠ []) →
      (∀ e ∈ elifs, ∀ s ∈ e.body.stmts, IsStmt ts s) →
      (∀ l ∈ last, l.body.stmts ≠ []) → (∀ l ∈ last, ∀ s ∈ l.body.stmts, IsStmt ts s) →
      IsStmt ts (.mk .ifStatement first stop
        (c :: body.node :: elifs.map Clause.node ++ (last.map LastClause.node).toList))
  | function {first stop first' stop' : Nat} {x : Node} {params : List Node}
      {result : Option Node} {body : Suite} : IsName ts x → (∀ p ∈ params, IsParam ts p) →
      (∀ r ∈ result, IsTypeDef ts r) → body.stmts ≠ [] → (∀ s ∈ body.stmts, IsStmt ts s) →
      IsStmt ts (.mk .functionDefinition first stop
        (x :: .mk .paramList first' stop' params :: result.toList ++ [body.node]))
  | class_ {first stop : Nat} {x : Node} {parents : Option Node} {body : Suite} :
      IsName ts x → (∀ p ∈ parents, IsArgList ts p) → body.stmts ≠ [] →
      (∀ s ∈ body.stmts, IsStmt ts s) →
      IsStmt ts (.mk .classDefinition first stop (x :: parents.toList ++ [body.node]))

end Node

/-! ## §2 What a rule gives -/

namespace Rule

open Node

variable {α β : Type} {ts : List Token} {c : Cursor}

theorem bind_eq_ok {r : Rule α} {f : α → Rule β} {b : β} {c' : Cursor} :
    (r >>= f) c = .ok (b, c') ↔ ∃ a c₁, r c = .ok (a, c₁) ∧ f a c₁ = .ok (b, c') := by
  change (r c >>= fun p => f p.1 p.2) = .ok (b, c') ↔ _
  rw [Fallible.bind_eq_ok, Prod.exists]

/-- A rule at a cursor in `ts` gives only what `P` admits, and a cursor in `ts`. -/
def Reads (ts : List Token) (c : Cursor) (r : Rule α) (P : α → Prop) : Prop :=
  c.rest = ts.drop c.index → ∀ a c', r c = .ok (a, c') → P a ∧ c'.rest = ts.drop c'.index

theorem Reads.bind {r : Rule α} {f : α → Rule β} {P : α → Prop} {Q : β → Prop}
    (first : Reads ts c r P) (after : ∀ a c', P a → Reads ts c' (f a) Q) :
    Reads ts c (r >>= f) Q := by
  intro hc b c' h
  obtain ⟨a, c₁, hr, hf⟩ := bind_eq_ok.1 h
  obtain ⟨ha, hc₁⟩ := first hc a c₁ hr
  exact after a c₁ ha hc₁ b c' hf

theorem Reads.imp {r : Rule α} {P Q : α → Prop} (h : Reads ts c r P) (imp : ∀ a, P a → Q a) :
    Reads ts c r Q := by
  intro hc a c' hr
  obtain ⟨ha, hc'⟩ := h hc a c' hr
  exact ⟨imp a ha, hc'⟩

theorem reads_pure {a : α} {P : α → Prop} (h : P a) : Reads ts c (pure a) P := by
  intro hc b c' hr
  cases hr
  exact ⟨h, hc⟩

theorem reads_reject {P : α → Prop} : Reads ts c reject P := by
  intro _ _ _ hr
  cases hr

/-- After a look at the next token the cursor is where it was. -/
theorem reads_peek {f : Option Token → Rule α} {P : α → Prop}
    (h : Reads ts c (f c.rest.head?) P) : Reads ts c (peek >>= f) P := by
  intro hc a c' hr
  obtain ⟨t, c₁, hp, hf⟩ := bind_eq_ok.1 hr
  cases hp
  exact h hc a c' hf

theorem reads_here : Reads ts c here fun _ => True := by
  intro hc a c' hr
  cases hr
  exact ⟨trivial, hc⟩

theorem reads_remaining : Reads ts c remaining fun _ => True := by
  intro hc a c' hr
  cases hr
  exact ⟨trivial, hc⟩

theorem drop_succ_of_drop {t : Token} {rest : List Token} {i : Nat} (h : t :: rest = ts.drop i) :
    rest = ts.drop (i + 1) := by
  rw [← List.tail_drop, ← h, List.tail_cons]

theorem reads_advance : Reads ts c advance fun _ => True := by
  intro hc a c' hr
  unfold advance at hr
  split at hr
  · cases hr
  · rename_i t rest hrest
    cases hr
    exact ⟨trivial, drop_succ_of_drop (hrest.symm.trans hc)⟩

theorem reads_expect {t : Token} : Reads ts c (expect t) fun _ => True := by
  intro hc a c' hr
  unfold expect at hr
  split at hr
  · cases hr
  · rename_i u rest hrest
    split at hr
    · cases hr
      exact ⟨trivial, drop_succ_of_drop (hrest.symm.trans hc)⟩
    · cases hr

/-- A leaf stands for the next token. -/
theorem reads_leaf {kind : Kind} {t : Token} (next : c.rest.head? = some t) :
    Reads ts c (leaf kind) fun n => ∃ i, ts[i]? = some t ∧ n = .mk kind i (i + 1) [] := by
  intro hc n c' hr
  obtain ⟨i, c₁, hi, hr⟩ := bind_eq_ok.1 hr
  cases hi
  obtain ⟨u, c₂, ha, hr⟩ := bind_eq_ok.1 hr
  cases hr
  have at_index : ts[c.index]? = some t := by rw [← List.head?_drop, ← hc, next]
  exact ⟨⟨c.index, at_index, rfl⟩, (reads_advance hc u c' ha).2⟩

theorem reads_name {kind : Kind} :
    Reads ts c (name kind) fun n => ∃ i x, ts[i]? = some (.name x) ∧ n = .mk kind i (i + 1) [] := by
  refine reads_peek ?_
  split
  · rename_i x next
    exact (reads_leaf next).imp fun n ⟨i, at_index, hn⟩ => ⟨i, x, at_index, hn⟩
  · exact reads_reject

theorem reads_close {kind : Kind} {first : Nat} {children : List Node} :
    Reads ts c (close kind first children) fun n => ∃ stop, n = .mk kind first stop children := by
  refine reads_here.bind fun stop c' _ => ?_
  exact reads_pure ⟨stop, rfl⟩

theorem reads_optional {t : Token} {r : Rule α} {P : α → Prop} (h : Reads ts c r P) :
    Reads ts c (optional t r) fun o => ∀ a ∈ o, P a := by
  refine reads_peek ?_
  split
  · refine h.bind fun a c' ha => reads_pure ?_
    rintro b ⟨⟩
    exact ha
  · exact reads_pure (by simp)

/-! ## §3 Expressions -/

/-- Every rule for expressions gives nodes of its shape, with `fuel` for its nesting. -/
structure ExprShapes (ts : List Token) (fuel : Nat) : Prop where
  expressionWithin : ∀ c level, Reads ts c (expressionWithin fuel level) (IsExpr ts)
  operand : ∀ c, Reads ts c (operand fuel) (IsExpr ts)
  operations : ∀ c level left, IsExpr ts left →
    Reads ts c (operations fuel level left) (IsExpr ts)
  atom : ∀ c, Reads ts c (atom fuel) (IsExpr ts)
  trailers : ∀ c target, IsExpr ts target → Reads ts c (trailers fuel target) (IsExpr ts)
  argList : ∀ c, Reads ts c (argList fuel) (IsArgList ts)
  arguments : ∀ c, Reads ts c (arguments fuel) fun args => ∀ a ∈ args, IsExpr ts a

theorem exprShapes (ts : List Token) (fuel : Nat) : ExprShapes ts fuel := by
  induction fuel with
  | zero =>
    constructor
    all_goals intros; exact reads_reject
  | succ fuel ih =>
    constructor
    case expressionWithin =>
      intro c level
      refine (ih.operand c).bind fun first c' hfirst => ?_
      exact ih.operations c' level first hfirst
    case operand =>
      intro c
      refine reads_peek ?_
      split
      · rename_i level hlevel
        obtain ⟨t, next, ht⟩ := Option.bind_eq_some_iff.1 hlevel
        refine (reads_leaf next).bind fun op c' ⟨i, at_index, hop⟩ => ?_
        refine (ih.expressionWithin c' level).bind fun e c' he => reads_pure ?_
        subst hop
        exact .unary at_index ht he
      · refine (ih.atom c).bind fun base c' hbase => ?_
        exact ih.trailers c' base hbase
    case operations =>
      intro c level left hleft
      refine reads_peek ?_
      split
      · exact reads_pure hleft
      · rename_i t next
        split
        · exact reads_pure hleft
        · rename_i found hfound
          split
          · exact reads_pure hleft
          · refine (reads_leaf next).bind fun op c' ⟨i, at_index, hop⟩ => ?_
            refine (ih.expressionWithin c' _).bind fun right c' hright => ?_
            subst hop
            exact ih.operations c' level _ (.binary hleft at_index hfound hright)
    case atom =>
      intro c
      refine reads_peek ?_
      split
      · rename_i kind hkind
        obtain ⟨t, next, ht⟩ := Option.bind_eq_some_iff.1 hkind
        refine (reads_leaf next).imp fun n ⟨i, at_index, hn⟩ => ?_
        subst hn
        exact .atom at_index ht
      · refine reads_here.bind fun first c' _ => ?_
        refine reads_expect.bind fun _ c' _ => ?_
        refine (ih.expressionWithin c' 0).bind fun inner c' hinner => ?_
        refine reads_expect.bind fun _ c' _ => ?_
        refine reads_close.imp fun n ⟨stop, hn⟩ => ?_
        subst hn
        exact .parenthesized hinner
    case trailers =>
      intro c target htarget
      refine reads_peek ?_
      split
      · refine reads_advance.bind fun _ c' _ => ?_
        refine reads_name.bind fun member c' ⟨i, x, at_index, hmember⟩ => ?_
        subst hmember
        exact ih.trailers c' _ (.member htarget at_index)
      · refine (ih.argList c).bind fun args c' ⟨first, stop, as, hargs, has⟩ => ?_
        subst hargs
        exact ih.trailers c' _ (.call htarget has)
      · exact reads_pure htarget
    case argList =>
      intro c
      refine reads_here.bind fun first c' _ => ?_
      refine reads_expect.bind fun _ c' _ => ?_
      refine (ih.arguments c').bind fun args c' hargs => ?_
      refine reads_expect.bind fun _ c' _ => ?_
      exact reads_close.imp fun n ⟨stop, hn⟩ => ⟨first, stop, args, hn, hargs⟩
    case arguments =>
      intro c
      refine reads_peek ?_
      split
      · exact reads_pure (by simp)
      · refine (ih.expressionWithin c 0).bind fun arg c' harg => ?_
        refine reads_peek ?_
        split
        · refine reads_advance.bind fun _ c' _ => ?_
          refine (ih.arguments c').bind fun args c' hargs => reads_pure ?_
          simpa [harg] using hargs
        · exact reads_pure (by simpa using harg)

theorem reads_expression : Reads ts c expression (IsExpr ts) := by
  refine reads_remaining.bind fun n c' _ => ?_
  exact (exprShapes ts _).expressionWithin c' 0

theorem reads_parenthesized : Reads ts c parenthesized (IsArgList ts) := by
  refine reads_remaining.bind fun n c' _ => ?_
  exact (exprShapes ts _).argList c'

/-! ## §4 Statements -/

theorem reads_typeAfter {mark : Symbol} : Reads ts c (typeAfter mark) (IsTypeDef ts) := by
  refine reads_here.bind fun first c' _ => ?_
  refine reads_expect.bind fun _ c' _ => ?_
  refine reads_expression.bind fun type c' htype => ?_
  exact reads_close.imp fun n ⟨stop, hn⟩ => ⟨first, stop, type, hn, htype⟩

theorem reads_initialValue : Reads ts c initialValue (IsExpr ts) := by
  refine reads_expect.bind fun _ c' _ => ?_
  exact reads_expression

theorem reads_assignment : Reads ts c assignment (IsStmt ts) := by
  refine reads_here.bind fun first c' _ => ?_
  refine reads_expression.bind fun target c' htarget => ?_
  refine (reads_optional reads_typeAfter).bind fun type c' htype => ?_
  refine (reads_optional reads_initialValue).bind fun value c' hvalue => ?_
  split
  · refine reads_close.imp fun n ⟨stop, hn⟩ => ?_
    subst hn
    exact .expr htarget
  · rename_i some_part
    refine reads_close.imp fun n ⟨stop, hn⟩ => ?_
    subst hn
    cases type with
    | some type => exact .define htarget (htype type rfl) hvalue
    | none =>
      cases value with
      | some value => exact .assign htarget (hvalue value rfl)
      | none => exact absurd rfl (some_part rfl)

theorem reads_returned : Reads ts c returned (IsStmt ts) := by
  refine reads_here.bind fun first c' _ => ?_
  refine reads_expect.bind fun _ c' _ => ?_
  refine reads_peek ?_
  split
  · refine reads_close.imp fun n ⟨stop, hn⟩ => ?_
    subst hn
    exact .returned none (by simp)
  · refine reads_expression.bind fun e c' he => ?_
    refine reads_close.imp fun n ⟨stop, hn⟩ => ?_
    subst hn
    exact .returned (some e) (by simpa using he)

theorem reads_simple : Reads ts c simple (IsStmt ts) := by
  refine reads_peek ?_
  have ended : ∀ c' stmt, IsStmt ts stmt →
      Reads ts c' (do expect .newline; return stmt) (IsStmt ts) := by
    intro c' stmt hstmt
    refine reads_expect.bind fun _ c' _ => ?_
    exact reads_pure hstmt
  split
  · rename_i next
    refine (reads_leaf next).bind fun stmt c' ⟨i, _, hstmt⟩ => ?_
    subst hstmt
    exact ended c' _ .pass
  · exact reads_returned.bind fun stmt c' hstmt => ended c' stmt hstmt
  · exact reads_assignment.bind fun stmt c' hstmt => ended c' stmt hstmt

theorem reads_variable : Reads ts c (name .variableName) (IsName ts) :=
  reads_name.imp fun _ ⟨i, x, at_index, hn⟩ => ⟨i, x, hn, at_index⟩

theorem reads_parameter : Reads ts c parameter (IsParam ts) := by
  refine reads_here.bind fun first c' _ => ?_
  refine reads_variable.bind fun x c' hx => ?_
  refine (reads_optional reads_typeAfter).bind fun type c' htype => ?_
  exact reads_close.imp fun n ⟨stop, hn⟩ => ⟨first, stop, x, type, hn, hx, htype⟩

theorem reads_parameters (fuel : Nat) (c : Cursor) :
    Reads ts c (parameters fuel) fun params => ∀ p ∈ params, IsParam ts p := by
  induction fuel generalizing c with
  | zero => exact reads_reject
  | succ fuel ih =>
    refine reads_peek ?_
    split
    · exact reads_pure (by simp)
    · refine reads_parameter.bind fun param c' hparam => ?_
      refine reads_peek ?_
      split
      · refine reads_advance.bind fun _ c' _ => ?_
        refine (ih c').bind fun params c' hparams => reads_pure ?_
        simpa [hparam] using hparams
      · exact reads_pure (by simpa using hparam)

theorem reads_paramList :
    Reads ts c paramList fun n =>
      ∃ first stop params, n = .mk .paramList first stop params ∧ ∀ p ∈ params, IsParam ts p := by
  refine reads_here.bind fun first c' _ => ?_
  refine reads_expect.bind fun _ c' _ => ?_
  refine reads_remaining.bind fun n c' _ => ?_
  refine (reads_parameters _ c').bind fun params c' hparams => ?_
  refine reads_expect.bind fun _ c' _ => ?_
  exact reads_close.imp fun n ⟨stop, hn⟩ => ⟨first, stop, params, hn, hparams⟩

/-- A suite of the grammar: it holds statements, at least one. -/
def IsSuite (ts : List Token) (n : Node) : Prop :=
  ∃ body : Suite, n = body.node ∧ body.stmts ≠ [] ∧ ∀ s ∈ body.stmts, IsStmt ts s

/-- Every rule for statements gives nodes of its shape, with `fuel` for its nesting. -/
structure StmtShapes (ts : List Token) (fuel : Nat) : Prop where
  statement : ∀ c, Reads ts c (statement fuel) (IsStmt ts)
  body : ∀ c, Reads ts c (body fuel) (IsSuite ts)
  statements : ∀ c, Reads ts c (statements fuel) fun ss => ∀ s ∈ ss, IsStmt ts s
  elifClauses : ∀ c, Reads ts c (elifClauses fuel) fun ns => ∃ elifs : List Clause,
    ns = elifs.map Clause.node ∧ (∀ e ∈ elifs, IsExpr ts e.cond ∧ e.body.stmts ≠ []) ∧
      ∀ e ∈ elifs, ∀ s ∈ e.body.stmts, IsStmt ts s
  elseClause : ∀ c, Reads ts c (elseClause fuel) fun n => ∃ last : LastClause,
    n = last.node ∧ last.body.stmts ≠ [] ∧ ∀ s ∈ last.body.stmts, IsStmt ts s

theorem stmtShapes (ts : List Token) (fuel : Nat) : StmtShapes ts fuel := by
  induction fuel with
  | zero =>
    constructor
    all_goals intros; exact reads_reject
  | succ fuel ih =>
    constructor
    case statement =>
      intro c
      refine reads_here.bind fun first c' _ => ?_
      refine reads_peek ?_
      split
      · refine reads_advance.bind fun _ c' _ => ?_
        refine reads_expression.bind fun cond c' hcond => ?_
        refine (ih.body c').bind fun block c' ⟨body, hblock, some_stmt, hbody⟩ => ?_
        refine (ih.elifClauses c').bind fun elifs c' ⟨clauses, helifs, hconds, hclauses⟩ => ?_
        refine (reads_optional (ih.elseClause c')).bind fun last c' hlast => ?_
        refine reads_close.imp fun n ⟨stop, hn⟩ => ?_
        subst hn hblock helifs
        cases last with
        | none => exact .if_ none hcond some_stmt hbody hconds hclauses (by simp) (by simp)
        | some last =>
          obtain ⟨clause, rfl, some_last, hclause⟩ := hlast last rfl
          exact .if_ (some clause) hcond some_stmt hbody hconds hclauses
            (by simpa using some_last) (by simpa using hclause)
      · refine reads_advance.bind fun _ c' _ => ?_
        refine reads_expression.bind fun cond c' hcond => ?_
        refine (ih.body c').bind fun block c' ⟨body, hblock, some_stmt, hbody⟩ => ?_
        refine reads_close.imp fun n ⟨stop, hn⟩ => ?_
        subst hn hblock
        exact .while_ hcond some_stmt hbody
      · refine reads_advance.bind fun _ c' _ => ?_
        refine reads_variable.bind fun x c' hx => ?_
        refine reads_paramList.bind fun params c' ⟨pfirst, pstop, ps, hparams, hps⟩ => ?_
        refine (reads_optional reads_typeAfter).bind fun result c' hresult => ?_
        refine (ih.body c').bind fun block c' ⟨body, hblock, some_stmt, hbody⟩ => ?_
        refine reads_close.imp fun n ⟨stop, hn⟩ => ?_
        subst hn hblock hparams
        exact .function hx hps hresult some_stmt hbody
      · refine reads_advance.bind fun _ c' _ => ?_
        refine reads_variable.bind fun x c' hx => ?_
        refine (reads_optional reads_parenthesized).bind fun parents c' hparents => ?_
        refine (ih.body c').bind fun block c' ⟨body, hblock, some_stmt, hbody⟩ => ?_
        refine reads_close.imp fun n ⟨stop, hn⟩ => ?_
        subst hn hblock
        exact .class_ hx hparents some_stmt hbody
      · exact reads_simple
    case body =>
      intro c
      refine reads_here.bind fun first c' _ => ?_
      refine reads_expect.bind fun _ c' _ => ?_
      refine reads_peek ?_
      split
      · refine reads_advance.bind fun _ c' _ => ?_
        refine reads_expect.bind fun _ c' _ => ?_
        refine (ih.statement c').bind fun stmt c' hstmt => ?_
        refine (ih.statements c').bind fun more c' hmore => ?_
        refine reads_expect.bind fun _ c' _ => ?_
        refine reads_close.imp fun n ⟨stop, hn⟩ => ⟨⟨first, stop, stmt :: more⟩, hn, by simp, ?_⟩
        simpa [hstmt] using hmore
      · refine reads_simple.bind fun stmt c' hstmt => ?_
        refine reads_close.imp fun n ⟨stop, hn⟩ => ⟨⟨first, stop, [stmt]⟩, hn, by simp, ?_⟩
        simpa using hstmt
    case statements =>
      intro c
      refine reads_peek ?_
      split
      · exact reads_pure (by simp)
      · exact reads_pure (by simp)
      · refine (ih.statement c).bind fun stmt c' hstmt => ?_
        refine (ih.statements c').bind fun more c' hmore => reads_pure ?_
        simpa [hstmt] using hmore
    case elifClauses =>
      intro c
      refine reads_peek ?_
      split
      · refine reads_here.bind fun first c' _ => ?_
        refine reads_advance.bind fun _ c' _ => ?_
        refine reads_expression.bind fun cond c' hcond => ?_
        refine (ih.body c').bind fun block c' ⟨body, hblock, some_stmt, hbody⟩ => ?_
        refine reads_close.bind fun clause c' ⟨stop, hclause⟩ => ?_
        refine (ih.elifClauses c').bind fun more c' ⟨clauses, hmore, hconds, hclauses⟩ => ?_
        refine reads_pure ⟨⟨first, stop, cond, body⟩ :: clauses, ?_, ?_, ?_⟩
        · subst hclause hblock hmore
          rfl
        · simpa [hcond, some_stmt] using hconds
        · simpa using ⟨hbody, hclauses⟩
      · exact reads_pure ⟨[], rfl, by simp, by simp⟩
    case elseClause =>
      intro c
      refine reads_here.bind fun first c' _ => ?_
      refine reads_expect.bind fun _ c' _ => ?_
      refine (ih.body c').bind fun block c' ⟨body, hblock, some_stmt, hbody⟩ => ?_
      refine reads_close.imp fun n ⟨stop, hn⟩ => ⟨⟨first, stop, body⟩, ?_, some_stmt, hbody⟩
      subst hn hblock
      rfl

theorem reads_script :
    Reads ts c script fun n =>
      ∃ first stop stmts, n = .mk .script first stop stmts ∧ ∀ s ∈ stmts, IsStmt ts s := by
  refine reads_here.bind fun first c' _ => ?_
  refine reads_remaining.bind fun n c' _ => ?_
  refine ((stmtShapes ts _).statements c').bind fun stmts c' hstmts => ?_
  refine reads_peek ?_
  split
  · exact reads_close.imp fun n ⟨stop, hn⟩ => ⟨first, stop, stmts, hn, hstmts⟩
  · exact reads_reject

end Rule

/-- The tree of tokens is a script of statements, each of its shape. -/
theorem Node.isStmt_of_ofTokens {ts : List Token} {root : Node} (h : ofTokens ts = .ok root) :
    ∀ s ∈ root.children, IsStmt ts s := by
  obtain ⟨⟨n, c⟩, hn, rfl⟩ := Fallible.map_eq_ok.1 h
  have start : (⟨0, ts⟩ : Cursor).rest = ts.drop 0 := rfl
  obtain ⟨⟨first, stop, stmts, rfl, hstmts⟩, -⟩ := Rule.reads_script start n c hn
  exact hstmts

end Serpent
