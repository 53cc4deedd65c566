/-
Serpent.Proofs.TreeForm — no tree surprises its reader.

A table says for each kind of node which parts it has, in which order and of which kinds (§1). Every
tree of a list of tokens keeps to the table at every node (§2). Whoever reads a tree that keeps to
it finds each part where it looks for it, and no kind of node that has no place there; so what may
be wrong with such a tree is one of the faults that a source text can have (§3, §4).

  §1 The parts of a node
  §2 Trees of tokens
  §3 Expressions and definitions of variables
  §4 Statements, functions and classes
  §5 Programs
-/
import Serpent.Proofs.Diagnostics

namespace Serpent

open Fallible

/-! ## §1 The parts of a node -/

/-- The kinds of expressions. -/
def Kind.isExpression : Kind → Bool
  | .callExpression | .memberExpression | .binaryExpression | .unaryExpression
  | .parenthesizedExpression | .variableName | .number | .float | .boolean | .none => true
  | _ => false

/-- The kinds of statements and definitions. -/
def Kind.isStatement : Kind → Bool
  | .assignStatement | .expressionStatement | .passStatement | .returnStatement | .ifStatement
  | .whileStatement | .functionDefinition | .classDefinition => true
  | _ => false

namespace Node

/-- What a part of a node may be. -/
inductive Part where
  | expression
  | statement
  | exactly (k : Kind)
deriving DecidableEq, Repr

/-- The part may be a node of this kind. -/
def Part.takes : Part → Kind → Bool
  | expression, k => k.isExpression
  | statement, k => k.isStatement
  | exactly k', k => k = k'

@[simp] theorem Part.takes_exactly {k k' : Kind} : (exactly k).takes k' = true ↔ k' = k :=
  decide_eq_true_iff

/-- A place among the parts of a node. -/
inductive Position where
  | one (p : Part)
  | optional (p : Part)
  | many (p : Part)
deriving DecidableEq, Repr

/-- The nodes fill the places, in order. -/
def Filled : List Position → List Node → Prop
  | [], ns => ns = []
  | .one p :: places, ns => ∃ a rest, ns = a :: rest ∧ p.takes a.kind ∧ Filled places rest
  | .optional p :: places, ns =>
    ∃ (a : Option Node) (rest : List Node), ns = a.toList ++ rest ∧ (∀ n ∈ a, p.takes n.kind) ∧
      Filled places rest
  | .many p :: places, ns =>
    ∃ as rest, ns = as ++ rest ∧ (∀ n ∈ as, p.takes n.kind) ∧ Filled places rest

/-- The parts that a node of a kind has. An assignment either has a type or has none. -/
def forms : Kind → List (List Position)
  | .script => [[.many .statement]]
  | .assignStatement =>
    [[.one .expression, .one .expression],
      [.one .expression, .one (.exactly .typeDef), .optional .expression]]
  | .typeDef => [[.one .expression]]
  | .expressionStatement => [[.one .expression]]
  | .passStatement => [[]]
  | .returnStatement => [[.optional .expression]]
  | .ifStatement =>
    [[.one .expression, .one (.exactly .body), .many (.exactly .elifClause),
      .optional (.exactly .elseClause)]]
  | .elifClause => [[.one .expression, .one (.exactly .body)]]
  | .elseClause => [[.one (.exactly .body)]]
  | .whileStatement => [[.one .expression, .one (.exactly .body)]]
  | .functionDefinition =>
    [[.one (.exactly .variableName), .one (.exactly .paramList), .optional (.exactly .typeDef),
      .one (.exactly .body)]]
  | .paramList => [[.many (.exactly .param)]]
  | .param => [[.one (.exactly .variableName), .optional (.exactly .typeDef)]]
  | .classDefinition =>
    [[.one (.exactly .variableName), .optional (.exactly .argList), .one (.exactly .body)]]
  | .argList => [[.many .expression]]
  | .body => [[.one .statement, .many .statement]]
  | .callExpression => [[.one .expression, .one (.exactly .argList)]]
  | .memberExpression => [[.one .expression, .one (.exactly .propertyName)]]
  | .binaryExpression => [[.one .expression, .one (.exactly .operator), .one .expression]]
  | .unaryExpression => [[.one (.exactly .operator), .one .expression]]
  | .parenthesizedExpression => [[.one .expression]]
  | .variableName | .propertyName | .number | .float | .boolean | .none | .operator => [[]]

/-- The parts of a node are those that its kind has. -/
def HasForm (n : Node) : Prop := ∃ form ∈ forms n.kind, Filled form n.children

/-- Most kinds have one form. -/
theorem HasForm.filled {form : List Position} {k : Kind} {first stop : Nat} {parts : List Node}
    (h : (Node.mk k first stop parts).HasForm) (only : forms k = [form]) : Filled form parts := by
  obtain ⟨form', mem, filled⟩ := h
  rw [kind_mk, only, List.mem_singleton] at mem
  exact mem ▸ filled

theorem HasForm.of_kind {form : List Position} {k : Kind} {n : Node} (h : n.HasForm)
    (kind : n.kind = k) (only : forms k = [form]) :
    ∃ first stop parts, n = .mk k first stop parts ∧ Filled form parts := by
  obtain ⟨k', first, stop, parts⟩ := n
  obtain rfl : k' = k := kind
  exact ⟨first, stop, parts, rfl, h.filled only⟩

theorem forall_of_filled {p : Part} {ns : List Node} (h : Filled [.many p] ns) :
    ∀ n ∈ ns, p.takes n.kind := by
  obtain ⟨as, rest, rfl, takes, rfl⟩ := h
  rwa [List.append_nil]

section Filled

variable {p : Part} {places : List Position} {a : Node} {rest : List Node}

theorem filled_nil : Filled [] [] := rfl

theorem filled_one (takes : p.takes a.kind) (h : Filled places rest) :
    Filled (.one p :: places) (a :: rest) :=
  ⟨a, rest, rfl, takes, h⟩

theorem filled_optional {o : Option Node} (takes : ∀ n ∈ o, p.takes n.kind)
    (h : Filled places rest) : Filled (.optional p :: places) (o.toList ++ rest) :=
  ⟨o, rest, rfl, takes, h⟩

theorem filled_many {as : List Node} (takes : ∀ n ∈ as, p.takes n.kind)
    (h : Filled places rest) : Filled (.many p :: places) (as ++ rest) :=
  ⟨as, rest, rfl, takes, h⟩

/-- The last place may be left out. -/
theorem filled_last {o : Option Node} (takes : ∀ n ∈ o, p.takes n.kind) :
    Filled [.optional p] o.toList :=
  ⟨o, [], by simp, takes, rfl⟩

/-- The last place may have any number of nodes. -/
theorem filled_rest {as : List Node} (takes : ∀ n ∈ as, p.takes n.kind) :
    Filled [.many p] as :=
  ⟨as, [], by simp, takes, rfl⟩

end Filled

/-- What holds of a node if it holds of all nodes below it holds of every node of a tree. -/
theorem Everywhere.induct_below {P Q : Node → Prop} {n : Node} (h : n.Everywhere P)
    (step : ∀ m, m.Everywhere P → (∀ c ∈ m.children, ∀ d, c.Has d → Q d) → Q m) : Q n := by
  have all : ∀ d, n.Has d → Q d := by
    induction h with
    | @mk n here below ih =>
      intro d has
      cases has with
      | self => exact step n (.mk here below) ih
      | under part has => exact ih _ part d has
  exact all n .self

/-! ## §2 Trees of tokens -/

open SourceTree (kind_of_isArgList kind_of_isName kind_of_isTypeDef)

variable {ts : List Token} {n : Node}

theorem isExpression_of_isExpr (h : IsExpr ts n) : n.kind.isExpression = true := by
  cases h with
  | atom at_index atom =>
    unfold atomKind? at atom
    split at atom
    all_goals cases atom
    all_goals rfl
  | _ => rfl

theorem isStatement_of_isStmt (h : IsStmt ts n) : n.kind.isStatement = true := by
  cases h <;> rfl

theorem hasForm_leaf {k : Kind} {first stop : Nat} (leaf : forms k = [[]]) :
    (Node.mk k first stop []).Everywhere HasForm :=
  .mk ⟨[], by simp [leaf], rfl⟩ (by simp)

theorem hasForm_isExpr (h : IsExpr ts n) : n.Everywhere HasForm := by
  induction h with
  | atom at_index atom =>
    refine hasForm_leaf ?_
    unfold atomKind? at atom
    split at atom
    all_goals cases atom
    all_goals rfl
  | parenthesized he ih =>
    refine .mk ⟨_, .head _, filled_one (isExpression_of_isExpr he) rfl⟩ ?_
    simpa using ih
  | unary at_index op he ih =>
    refine .mk ⟨_, .head _, filled_one rfl (filled_one (isExpression_of_isExpr he) rfl)⟩ ?_
    simpa using ⟨hasForm_leaf rfl, ih⟩
  | binary hl at_index op hr ihl ihr =>
    refine .mk ⟨_, .head _, filled_one (isExpression_of_isExpr hl)
      (filled_one rfl (filled_one (isExpression_of_isExpr hr) rfl))⟩ ?_
    simpa using ⟨ihl, hasForm_leaf rfl, ihr⟩
  | member ho at_index ih =>
    refine .mk ⟨_, .head _, filled_one (isExpression_of_isExpr ho) (filled_one rfl rfl)⟩ ?_
    simpa using ⟨ih, hasForm_leaf rfl⟩
  | call hf hargs ihf ihargs =>
    refine .mk ⟨_, .head _, filled_one (isExpression_of_isExpr hf) (filled_one rfl rfl)⟩ ?_
    have args := filled_rest (p := .expression) fun a ha => isExpression_of_isExpr (hargs a ha)
    simpa using ⟨ihf, .mk ⟨_, .head _, args⟩ ihargs⟩

theorem hasForm_isTypeDef (h : IsTypeDef ts n) : n.Everywhere HasForm := by
  obtain ⟨first, stop, e, rfl, he⟩ := h
  refine .mk ⟨_, .head _, filled_one (isExpression_of_isExpr he) rfl⟩ ?_
  simpa using hasForm_isExpr he

theorem hasForm_isArgList (h : IsArgList ts n) : n.Everywhere HasForm := by
  obtain ⟨first, stop, args, rfl, hargs⟩ := h
  have filled := filled_rest (p := .expression) fun a ha => isExpression_of_isExpr (hargs a ha)
  exact .mk ⟨_, .head _, filled⟩ fun a ha => hasForm_isExpr (hargs a ha)

theorem hasForm_isName (h : IsName ts n) : n.Everywhere HasForm := by
  obtain ⟨i, x, rfl, -⟩ := h
  exact hasForm_leaf rfl

theorem hasForm_isParam (h : IsParam ts n) : n.Everywhere HasForm := by
  obtain ⟨first, stop, x, type, rfl, hx, htype⟩ := h
  have filled : Filled _ _ := filled_one (Part.takes_exactly.2 (kind_of_isName hx))
    (filled_last fun t ht => Part.takes_exactly.2 (kind_of_isTypeDef (htype t ht)))
  refine .mk ⟨_, .head _, filled⟩ ?_
  simpa using ⟨hasForm_isName hx, fun t ht => hasForm_isTypeDef (htype t ht)⟩

theorem hasForm_suite {body : Suite} (some_stmt : body.stmts ≠ [])
    (isStmt : ∀ s ∈ body.stmts, IsStmt ts s) (each : ∀ s ∈ body.stmts, s.Everywhere HasForm) :
    body.node.Everywhere HasForm := by
  obtain ⟨first, stop, stmts⟩ := body
  cases stmts with
  | nil => contradiction
  | cons s ss =>
    have takes := fun s' hs' => isStatement_of_isStmt (isStmt s' hs')
    obtain ⟨first, rest⟩ := List.forall_mem_cons.1 takes
    exact .mk ⟨_, .head _, filled_one first (filled_rest rest)⟩ each

theorem hasForm_isStmt (h : IsStmt ts n) : n.Everywhere HasForm := by
  induction h with
  | pass => exact hasForm_leaf rfl
  | expr he =>
    refine .mk ⟨_, .head _, filled_one (isExpression_of_isExpr he) rfl⟩ ?_
    simpa using hasForm_isExpr he
  | assign ht he =>
    refine .mk ⟨_, .head _, filled_one (isExpression_of_isExpr ht)
      (filled_one (isExpression_of_isExpr he) rfl)⟩ ?_
    simpa using ⟨hasForm_isExpr ht, hasForm_isExpr he⟩
  | @define first stop t type value ht htype hvalue =>
    have filled := filled_one (p := .expression) (isExpression_of_isExpr ht)
      (filled_one (Part.takes_exactly.2 (kind_of_isTypeDef htype))
        (filled_last (p := .expression) fun v hv => isExpression_of_isExpr (hvalue v hv)))
    refine .mk ⟨_, .tail _ (.head _), filled⟩ ?_
    have values : ∀ v ∈ value, v.Everywhere HasForm := fun v hv => hasForm_isExpr (hvalue v hv)
    simpa using ⟨hasForm_isExpr ht, hasForm_isTypeDef htype, values⟩
  | returned value hvalue =>
    refine .mk ⟨_, .head _, filled_last fun v hv => isExpression_of_isExpr (hvalue v hv)⟩ ?_
    simpa using fun v hv => hasForm_isExpr (hvalue v hv)
  | while_ hc some_stmt hbody ih =>
    refine .mk ⟨_, .head _, filled_one (isExpression_of_isExpr hc) (filled_one rfl rfl)⟩ ?_
    simpa using ⟨hasForm_isExpr hc, hasForm_suite some_stmt hbody ih⟩
  | @if_ first stop c body elifs last hc some_stmt hbody hconds helifs some_last hlast ihbody
      ihelifs ihlast =>
    have elifKinds : ∀ m ∈ elifs.map Clause.node, (Part.exactly .elifClause).takes m.kind := by
      simp [Clause.node]
    have lastKind : ∀ m ∈ last.map LastClause.node, (Part.exactly .elseClause).takes m.kind := by
      simp [LastClause.node]
    have filled := filled_one (p := .expression) (isExpression_of_isExpr hc)
      (filled_one (p := .exactly .body) (a := body.node) rfl
        (filled_many elifKinds (filled_last lastKind)))
    refine .mk ⟨_, .head _, filled⟩ ?_
    have elifForms : ∀ e ∈ elifs, e.node.Everywhere HasForm := by
      intro e he
      refine .mk ⟨_, .head _, filled_one (isExpression_of_isExpr (hconds e he).1)
        (filled_one rfl rfl)⟩ ?_
      simpa [Clause.node] using ⟨hasForm_isExpr (hconds e he).1,
        hasForm_suite (hconds e he).2 (helifs e he) (ihelifs e he)⟩
    have lastForms : ∀ l ∈ last, l.node.Everywhere HasForm := by
      intro l hl
      refine .mk ⟨_, .head _, filled_one rfl rfl⟩ ?_
      simpa [LastClause.node] using hasForm_suite (some_last l hl) (hlast l hl) (ihlast l hl)
    simp only [children_mk, List.cons_append, List.forall_mem_cons, List.forall_mem_append,
      List.forall_mem_map, Option.mem_toList, Option.map_eq_some_iff]
    refine ⟨hasForm_isExpr hc, hasForm_suite some_stmt hbody ihbody, elifForms, ?_⟩
    rintro _ ⟨l, hl, rfl⟩
    exact lastForms l hl
  | @function first stop first' stop' x params result body hx hparams hresult some_stmt hbody ih =>
    have paramKinds : ∀ p ∈ params, (Part.exactly .param).takes p.kind := by
      intro p hp
      obtain ⟨_, _, _, _, rfl, -⟩ := hparams p hp
      rfl
    have filled := filled_one (Part.takes_exactly.2 (kind_of_isName hx))
      (filled_one (p := .exactly .paramList) (a := .mk .paramList first' stop' params) rfl
        (filled_optional (fun r hr => Part.takes_exactly.2 (kind_of_isTypeDef (hresult r hr)))
          (filled_one (p := .exactly .body) (a := body.node) rfl filled_nil)))
    refine .mk ⟨_, .head _, filled⟩ ?_
    have list : (Node.mk .paramList first' stop' params).Everywhere HasForm :=
      .mk ⟨_, .head _, filled_rest paramKinds⟩ fun p hp => hasForm_isParam (hparams p hp)
    have results : ∀ r ∈ result, r.Everywhere HasForm :=
      fun r hr => hasForm_isTypeDef (hresult r hr)
    have suite := hasForm_suite some_stmt hbody ih
    simp only [children_mk, List.cons_append, List.forall_mem_cons, List.forall_mem_append,
      Option.mem_toList]
    exact ⟨hasForm_isName hx, list, results, suite, by simp⟩
  | @class_ first stop x parents body hx hparents some_stmt hbody ih =>
    have filled := filled_one (Part.takes_exactly.2 (kind_of_isName hx))
      (filled_optional (fun p hp => Part.takes_exactly.2 (kind_of_isArgList (hparents p hp)))
        (filled_one (p := .exactly .body) (a := body.node) rfl filled_nil))
    refine .mk ⟨_, .head _, filled⟩ ?_
    have lists : ∀ p ∈ parents, p.Everywhere HasForm :=
      fun p hp => hasForm_isArgList (hparents p hp)
    have suite := hasForm_suite some_stmt hbody ih
    simp only [children_mk, List.cons_append, List.forall_mem_cons, List.forall_mem_append,
      Option.mem_toList]
    exact ⟨hasForm_isName hx, lists, suite, by simp⟩

end Node

/-! ## §3 Expressions and definitions of variables -/

/-- The error names a fault of a source text. -/
def ParseError.IsForeseen : ParseError → Prop
  | .fault f _ _ => f ≠ .unexpected
  | _ => True

/-- What is read fails only with a fault of a source text. -/
def Foreseen {α : Type} (r : Except ParseError α) : Prop := FailsOnly ParseError.IsForeseen r

theorem Foreseen.refuse {α : Type} {tree : SourceTree} {f : Fault} {n : Node}
    (h : f ≠ .unexpected) : Foreseen (tree.refuse f n : Except ParseError α) := by
  intro e failed
  cases failed
  exact h

namespace SourceTree

open Node

variable {tree : SourceTree} {n : Node}

theorem foreseen_literal (kind : n.kind = .none ∨ n.kind = .boolean ∨ n.kind = .number) :
    Foreseen (tree.literal n) := by
  unfold literal
  rcases kind with kind | kind | kind
  · simpa only [kind] using .ok _
  · simpa only [kind] using .ok _
  · simp only [kind]
    split
    · exact .ok _
    · exact Foreseen.refuse (by decide)

theorem foreseen_exprs {args : List Node} (each : ∀ a ∈ args, Foreseen (tree.expr a)) :
    Foreseen (tree.exprs args) := by
  induction args with
  | nil => exact .ok []
  | cons a args ih =>
    refine (each a (by simp)).bind fun e => ?_
    exact (ih fun b hb => each b (by simp [hb])).then_ok _

theorem foreseen_expr (form : n.Everywhere HasForm) (isExpr : n.kind.isExpression = true) :
    Foreseen (tree.expr n) := by
  refine Everywhere.induct_below (Q := fun n => n.kind.isExpression → Foreseen (tree.expr n)) form
    (fun n form below isExpr => ?_) isExpr
  obtain ⟨here, parts⟩ := everywhere_iff.1 form
  have part : ∀ c ∈ n.children, c.kind.isExpression → Foreseen (tree.expr c) :=
    fun c hc => below c hc c .self
  obtain ⟨kind, first, stop, children⟩ := n
  cases kind with
  | callExpression =>
    obtain ⟨f, _, rfl, hf, args, _, rfl, hargs, rfl⟩ := here.filled rfl
    have args_part : args ∈ (Node.mk .callExpression first stop [f, args]).children := by simp
    have f_part : f ∈ (Node.mk .callExpression first stop [f, args]).children := by simp
    obtain ⟨first', stop', as, rfl, filled⟩ :=
      (everywhere_iff.1 (parts _ args_part)).1.of_kind (Part.takes_exactly.1 hargs) rfl
    have each := forall_of_filled filled
    rw [expr]
    refine (foreseen_exprs fun a ha => ?_).bind fun given => ?_
    · exact below _ args_part a (.under ha .self) (each a ha)
    obtain ⟨k, first'', stop'', parts'⟩ := f
    cases k with
    | variableName => exact .ok _
    | memberExpression =>
      obtain ⟨o, _, rfl, ho, x, _, rfl, -, rfl⟩ :=
        (everywhere_iff.1 (parts _ f_part)).1.filled rfl
      exact (below _ f_part o (.under (by simp) .self) ho).then_ok _
    | _ => exact Foreseen.refuse (by decide)
  | memberExpression =>
    obtain ⟨o, _, rfl, ho, x, _, rfl, -, rfl⟩ := here.filled rfl
    rw [expr]
    exact (part o (by simp) ho).then_ok _
  | binaryExpression =>
    obtain ⟨l, _, rfl, hl, op, _, rfl, -, r, _, rfl, hr, rfl⟩ := here.filled rfl
    rw [expr]
    split
    · exact Foreseen.refuse (by decide)
    · exact (part l (by simp) hl).bind fun _ => (part r (by simp) hr).then_ok _
  | unaryExpression =>
    obtain ⟨op, _, rfl, -, e, _, rfl, he, rfl⟩ := here.filled rfl
    rw [expr]
    split
    · exact Foreseen.refuse (by decide)
    · exact (part e (by simp) he).then_ok _
  | parenthesizedExpression =>
    obtain ⟨e, _, rfl, he, rfl⟩ := here.filled rfl
    rw [expr]
    exact part e (by simp) he
  | variableName => exact .ok _
  | number => exact (foreseen_literal (by simp)).then_ok _
  | float => exact Foreseen.refuse (by decide)
  | boolean => exact (foreseen_literal (by simp)).then_ok _
  | none => exact (foreseen_literal (by simp)).then_ok _
  | _ => cases isExpr

theorem foreseen_target (form : n.Everywhere HasForm) : Foreseen (tree.target n) := by
  obtain ⟨here, parts⟩ := everywhere_iff.1 form
  obtain ⟨k, first, stop, children⟩ := n
  cases k with
  | variableName => exact .ok _
  | memberExpression =>
    obtain ⟨o, _, rfl, ho, x, _, rfl, -, rfl⟩ := here.filled rfl
    exact (foreseen_expr (parts o (by simp)) ho).then_ok _
  | _ => exact Foreseen.refuse (by decide)

theorem foreseen_type (form : n.Everywhere HasForm) (kind : n.kind = .typeDef) :
    Foreseen (tree.type n) := by
  obtain ⟨first, stop, _, rfl, e, _, rfl, -, rfl⟩ := (everywhere_iff.1 form).1.of_kind kind rfl
  simp only [type, children_mk]
  split
  · exact .ok _
  · split <;> exact .ok _
  · exact Foreseen.refuse (by decide)

theorem foreseen_initializer : Foreseen (tree.initializer n) := by
  unfold initializer
  split
  · exact foreseen_literal (by simp_all)
  · exact foreseen_literal (by simp_all)
  · exact foreseen_literal (by simp_all)
  · exact Foreseen.refuse (by decide)
  · exact Foreseen.refuse (by decide)

/-- An assignment with a type has its target and its type in front. -/
theorem parts_of_isDefinition (form : n.HasForm) (kind : n.kind = .assignStatement)
    (isDef : isDefinition n = true) :
    ∃ target type value, n.children = target :: type :: value ∧ type.kind = .typeDef := by
  obtain ⟨k, first, stop, children⟩ := n
  obtain rfl : k = .assignStatement := kind
  obtain ⟨f, mem, filled⟩ := form
  rcases List.mem_pair.1 mem with rfl | rfl
  · obtain ⟨t, _, rfl, ht, e, _, rfl, he, rfl⟩ := filled
    have noType : ∀ m : Node, m.kind.isExpression = true → m.kind ≠ .typeDef := by
      rintro m isExpr kind
      rw [kind] at isExpr
      cases isExpr
    simp [isDefinition, child?, noType t ht, noType e he] at isDef
  · obtain ⟨t, _, rfl, -, type, value, rfl, htype, -⟩ := filled
    exact ⟨t, type, value, rfl, Part.takes_exactly.1 htype⟩

theorem foreseen_varDef (form : n.Everywhere HasForm) (kind : n.kind = .assignStatement)
    (isDef : isDefinition n = true) : Foreseen (tree.varDef n) := by
  obtain ⟨here, parts⟩ := everywhere_iff.1 form
  obtain ⟨target, type, value, children, htype⟩ := parts_of_isDefinition here kind isDef
  simp only [varDef, children]
  split
  · exact Foreseen.refuse (by decide)
  · refine (foreseen_type (parts type (by simp [children])) htype).bind fun ty => ?_
    cases value with
    | nil => exact Foreseen.refuse (by decide)
    | cons v _ => exact foreseen_initializer.then_ok _

theorem foreseen_param (form : n.Everywhere HasForm) (kind : n.kind = .param) :
    Foreseen (tree.param n) := by
  obtain ⟨here, parts⟩ := everywhere_iff.1 form
  obtain ⟨first, stop, _, rfl, x, rest, rfl, -⟩ := here.of_kind kind rfl
  simp only [param, children_mk]
  split
  · rename_i t found
    have typed : t.kind = .typeDef := by simpa using List.find?_some found
    exact (foreseen_type (parts t (List.mem_of_find?_eq_some found)) typed).then_ok _
  · intro e failed
    cases failed
    trivial

/-! ## §4 Statements, functions and classes -/

theorem foreseen_statements {place : Place} {body : List Node}
    (each : ∀ s ∈ body, Foreseen (tree.statement place s)) :
    Foreseen (tree.statements place body) := by
  intro e h
  obtain ⟨s, hs, failed⟩ := exists_of_statements_eq_error h
  exact each s hs e failed

/-- The statements of a body, which stands below a node. -/
theorem foreseen_body {place : Place} {body : Node} (form : body.Everywhere HasForm)
    (kind : body.kind = .body)
    (each : ∀ s ∈ body.children, s.kind.isStatement = true → Foreseen (tree.statement place s)) :
    Foreseen (tree.statements place body.children) := by
  obtain ⟨first, stop, _, rfl, s, rest, rfl, hs, hrest⟩ :=
    (everywhere_iff.1 form).1.of_kind kind rfl
  have isStmt : ∀ s' ∈ s :: rest, s'.kind.isStatement = true :=
    List.forall_mem_cons.2 ⟨hs, forall_of_filled hrest⟩
  exact foreseen_statements fun s' hs' => each s' hs' (isStmt s' hs')

/-- The clauses behind the first body of a conditional, with no surprise below them. -/
structure Clauses (tree : SourceTree) (place : Place) (clauses : List Node) : Prop where
  filled : Filled [.many (.exactly .elifClause), .optional (.exactly .elseClause)] clauses
  forms : ∀ c ∈ clauses, c.Everywhere HasForm
  each : ∀ c ∈ clauses, ∀ s, c.Has s → s.kind.isStatement = true →
    Foreseen (tree.statement place s)

namespace Clauses

variable {place : Place} {c : Node} {rest : List Node}

/-- The body of a clause. -/
theorem body {clauses : List Node} (h : tree.Clauses place clauses) (mem : c ∈ clauses) {b : Node}
    (part : b ∈ c.children) (kind : b.kind = .body) :
    Foreseen (tree.statements place b.children) :=
  foreseen_body ((everywhere_iff.1 (h.forms c mem)).2 b part) kind fun s hs =>
    h.each c mem s (.under part (.under hs .self))

/-- Either an `elif` is in front, or there is at most an `else`. -/
theorem cases_front {clauses : List Node} (h : tree.Clauses place clauses) :
    (∃ first stop c b rest, clauses = .mk .elifClause first stop [c, b] :: rest ∧
      Foreseen (tree.expr c) ∧ Foreseen (tree.statements place b.children) ∧
      tree.Clauses place rest) ∨
    (∃ first stop b, clauses = [.mk .elseClause first stop [b]] ∧
      Foreseen (tree.statements place b.children)) ∨ clauses = [] := by
  obtain ⟨elifs, _, rfl, helifs, last, _, rfl, hlast, rfl⟩ := h.filled
  cases elifs with
  | cons e elifs =>
    have mem : e ∈ e :: elifs ++ (last.toList ++ []) := by simp
    obtain ⟨here, parts⟩ := everywhere_iff.1 (h.forms e mem)
    obtain ⟨first, stop, _, rfl, c, _, rfl, hc, b, _, rfl, hb, rfl⟩ :=
      here.of_kind (Part.takes_exactly.1 (helifs e (by simp))) rfl
    refine .inl ⟨first, stop, c, b, _, rfl, foreseen_expr (parts c (by simp)) hc,
      h.body mem (by simp) (Part.takes_exactly.1 hb), ?_⟩
    exact {
      filled := ⟨elifs, _, rfl, fun n hn => helifs n (by simp [hn]), last, _, rfl, hlast, rfl⟩
      forms := fun n hn => h.forms n (List.mem_cons_of_mem _ hn)
      each := fun n hn => h.each n (List.mem_cons_of_mem _ hn) }
  | nil =>
    cases last with
    | none => exact .inr (.inr rfl)
    | some l =>
      have mem : l ∈ [] ++ ((some l).toList ++ []) := by simp
      obtain ⟨first, stop, _, rfl, b, _, rfl, hb, rfl⟩ :=
        (everywhere_iff.1 (h.forms l mem)).1.of_kind (Part.takes_exactly.1 (hlast l rfl)) rfl
      exact .inr (.inl ⟨first, stop, b, rfl, h.body mem (by simp) (Part.takes_exactly.1 hb)⟩)

theorem otherwise {clauses : List Node} (h : tree.Clauses place clauses) :
    Foreseen (tree.otherwise place clauses) := by
  rcases h.cases_front with ⟨first, stop, c, b, rest, rfl, -⟩ | ⟨first, stop, b, rfl, stmts⟩ | rfl
  · exact Foreseen.refuse (by decide)
  · obtain ⟨k, first', stop', ss⟩ := b
    exact stmts.then_ok _
  · exact .ok _

end Clauses

theorem foreseen_statement {place : Place} (form : n.Everywhere HasForm)
    (isStmt : n.kind.isStatement = true) : Foreseen (tree.statement place n) := by
  refine Everywhere.induct_below
    (Q := fun n => n.kind.isStatement → Foreseen (tree.statement place n)) form
    (fun n form below isStmt => ?_) isStmt
  obtain ⟨here, parts⟩ := everywhere_iff.1 form
  -- the statements of a body that is a part
  have block : ∀ b ∈ n.children, b.kind = .body → Foreseen (tree.statements place b.children) :=
    fun b hb kind => foreseen_body (parts b hb) kind fun s hs => below b hb s (.under hs .self)
  obtain ⟨kind, first, stop, children⟩ := n
  cases kind with
  | passStatement => exact .ok _
  | assignStatement =>
    by_cases isDef : isDefinition (.mk .assignStatement first stop children) = true
    · rw [statement_of_isDefinition isDef]
      exact Foreseen.refuse (by decide)
    · obtain ⟨f, mem, filled⟩ := here
      rcases List.mem_pair.1 mem with rfl | rfl
      · obtain ⟨t, _, rfl, -, e, _, rfl, he, rfl⟩ := filled
        simp only [statement, isDef]
        exact (foreseen_target (parts t (by simp))).bind fun _ =>
          (foreseen_expr (parts e (by simp)) he).then_ok _
      · obtain ⟨t, _, rfl, -, type, value, rfl, htype, -⟩ := filled
        refine absurd (List.find?_isSome.2 ⟨type, by simp, ?_⟩) isDef
        simpa using htype
  | expressionStatement =>
    obtain ⟨e, _, rfl, he, rfl⟩ := here.filled rfl
    exact (foreseen_expr (parts e (by simp)) he).then_ok _
  | returnStatement =>
    obtain ⟨value, _, rfl, hvalue, rfl⟩ := here.filled rfl
    cases place with
    | topLevel => exact Foreseen.refuse (by decide)
    | inFunction =>
      cases value with
      | none => exact .ok _
      | some e => exact (foreseen_expr (parts e (by simp)) (hvalue e rfl)).then_ok _
  | whileStatement =>
    obtain ⟨c, _, rfl, hc, body, _, rfl, hbody, rfl⟩ := here.filled rfl
    have stmts := block body (by simp) (Part.takes_exactly.1 hbody)
    obtain ⟨k, first', stop', ss⟩ := body
    exact (foreseen_expr (parts c (by simp)) hc).bind fun _ => stmts.then_ok _
  | ifStatement =>
    obtain ⟨c, _, rfl, hc, body, clauses, rfl, hbody, filled⟩ := here.filled rfl
    have stmts := block body (by simp) (Part.takes_exactly.1 hbody)
    obtain ⟨k, first', stop', ss⟩ := body
    rw [statement.eq_def]
    refine (foreseen_expr (parts c (by simp)) hc).bind fun _ => stmts.bind fun _ => ?_
    have behind : tree.Clauses place clauses :=
      { filled
        forms := fun n hn => parts n (by simp [hn])
        each := fun n hn s has => below n (by simp [hn]) s has }
    rcases behind.cases_front with ⟨first, stop, c', b, rest, rfl, cond, body, others⟩ |
      ⟨first, stop, b, rfl, -⟩ | rfl
    · obtain ⟨k', first'', stop'', ss'⟩ := b
      exact cond.bind fun _ => body.bind fun _ => others.otherwise.then_ok _
    · exact behind.otherwise.then_ok _
    · exact .ok _
  | functionDefinition => exact Foreseen.refuse (by decide)
  | classDefinition => exact Foreseen.refuse (by decide)
  | _ => cases isStmt

/-- A part that is looked up by its kind has that kind. -/
theorem of_child? {k : Kind} {c : Node} (found : n.child? k = some c) :
    c ∈ n.children ∧ c.kind = k :=
  ⟨List.mem_of_find?_eq_some found, by simpa using List.find?_some found⟩

/-- Functions and classes have a body. -/
theorem exists_body (form : n.HasForm)
    (kind : n.kind = .functionDefinition ∨ n.kind = .classDefinition) :
    ∃ body, n.child? .body = some body := by
  have found : ∃ b ∈ n.children, b.kind = .body := by
    rcases kind with kind | kind
    · obtain ⟨_, _, _, rfl, x, _, rfl, -, params, _, rfl, -, result, _, rfl, -, b, _, rfl, hb,
        rfl⟩ := form.of_kind kind rfl
      exact ⟨b, by simp, Part.takes_exactly.1 hb⟩
    · obtain ⟨_, _, _, rfl, x, _, rfl, -, parents, _, rfl, -, b, _, rfl, hb, rfl⟩ :=
        form.of_kind kind rfl
      exact ⟨b, by simp, Part.takes_exactly.1 hb⟩
  obtain ⟨b, part, isBody⟩ := found
  exact Option.isSome_iff_exists.1 (List.find?_isSome.2 ⟨b, part, by simpa using isBody⟩)

theorem foreseen_localDef (form : n.Everywhere HasForm) (isDef : isDefinition n = true) :
    Foreseen (tree.localDef n) := by
  unfold localDef
  split
  · rename_i kind
    exact foreseen_varDef form kind isDef
  · exact Foreseen.refuse (by decide)
  · exact Foreseen.refuse (by decide)
  · -- no other kind of node is a definition
    unfold isDefinition at isDef
    split at isDef <;> simp_all

/-- The definitions in front of a body and the statements behind them. -/
theorem split_of_body (tree : SourceTree) (form : n.Everywhere HasForm) (kind : n.kind = .body) :
    Foreseen ((n.children.takeWhile isDefinition).mapM tree.localDef) ∧
    Foreseen (tree.statements .inFunction (n.children.dropWhile isDefinition)) := by
  obtain ⟨here, parts⟩ := everywhere_iff.1 form
  obtain ⟨first, stop, _, rfl, s, rest, rfl, hs, hrest⟩ := here.of_kind kind rfl
  have isStmt : ∀ s' ∈ s :: rest, s'.kind.isStatement = true :=
    List.forall_mem_cons.2 ⟨hs, forall_of_filled hrest⟩
  constructor
  · refine .mapM fun m hm => foreseen_localDef (parts m (List.takeWhile_subset _ hm)) ?_
    exact List.all_eq_true.1 List.all_takeWhile m hm
  · refine foreseen_statements fun m hm => ?_
    have mem := List.dropWhile_subset _ hm
    exact foreseen_statement (parts m mem) (isStmt m mem)

/-- How a function with a name and parameters is read. -/
theorem funDef_of_children {x params : Node} {rest : List Node}
    (children : n.children = x :: params :: rest) : tree.funDef n = (do
      let params ← params.children.mapM tree.param
      let ty ← tree.result (n.child? .typeDef)
      match n.child? .body with
      | none => tree.refuse .unexpected n
      | some body => do
        let locals ← (body.children.takeWhile isDefinition).mapM tree.localDef
        let stmts ← tree.statements .inFunction (body.children.dropWhile isDefinition)
        return ⟨tree.text x, params, ty, locals, stmts⟩) := by
  rw [funDef, children]
  simp only [← mapM_innerDefinition]
  cases n.child? .typeDef <;> rfl

theorem foreseen_funDef (form : n.Everywhere HasForm) (kind : n.kind = .functionDefinition) :
    Foreseen (tree.funDef n) := by
  obtain ⟨here, parts⟩ := everywhere_iff.1 form
  obtain ⟨body, found⟩ := exists_body here (.inl kind)
  obtain ⟨first, stop, _, rfl, x, _, rfl, -, params, rest, rfl, hparams, -⟩ := here.of_kind kind rfl
  obtain ⟨paramForm, paramParts⟩ := everywhere_iff.1 (parts params (by simp))
  obtain ⟨first', stop', ps, rfl, filled⟩ := paramForm.of_kind (Part.takes_exactly.1 hparams) rfl
  have isParam := forall_of_filled filled
  rw [funDef_of_children rfl, found]
  refine (FailsOnly.mapM fun p hp => ?_).bind fun params => .bind ?_ fun ty => ?_
  · exact foreseen_param (paramParts p hp) (Part.takes_exactly.1 (isParam p hp))
  · unfold SourceTree.result
    split
    · rename_i t typed
      exact foreseen_type (parts t (of_child? typed).1) (of_child? typed).2
    · exact .ok _
  · obtain ⟨mem, isBody⟩ := of_child? found
    obtain ⟨locals, stmts⟩ := split_of_body tree (parts body mem) isBody
    exact locals.bind fun _ => stmts.then_ok _

theorem foreseen_parent : Foreseen (tree.parent n) := by
  unfold parent
  split
  · exact Foreseen.refuse (by decide)
  · split
    · split
      · exact .ok _
      · exact Foreseen.refuse (by decide)
    · exact Foreseen.refuse (by decide)

theorem foreseen_member (form : n.Everywhere HasForm) : Foreseen (tree.member n) := by
  unfold member
  split
  · exact .ok _
  · rename_i kind
    split
    · rename_i isDef
      exact (foreseen_varDef form kind isDef).then_ok _
    · exact Foreseen.refuse (by decide)
  · rename_i kind
    exact (foreseen_funDef form kind).then_ok _
  · exact Foreseen.refuse (by decide)
  · exact Foreseen.refuse (by decide)

theorem foreseen_classDef (form : n.Everywhere HasForm) (kind : n.kind = .classDefinition) :
    Foreseen (tree.classDef n) := by
  obtain ⟨here, parts⟩ := everywhere_iff.1 form
  obtain ⟨body, found⟩ := exists_body here (.inr kind)
  obtain ⟨first, stop, _, rfl, x, rest, rfl, -⟩ := here.of_kind kind rfl
  rw [classDef, children_mk, found]
  have members := (everywhere_iff.1 (parts body (of_child? found).1)).2
  exact foreseen_parent.bind fun _ =>
    (FailsOnly.mapM fun m hm => foreseen_member (members m hm)).then_ok _

theorem foreseen_definition (form : n.Everywhere HasForm) (isDef : isDefinition n = true) :
    Foreseen (tree.definition n) := by
  unfold definition definitionWith
  split
  · rename_i kind
    exact (foreseen_varDef form kind isDef).then_ok _
  · rename_i kind
    exact (foreseen_funDef form kind).then_ok _
  · rename_i kind
    exact (foreseen_classDef form kind).then_ok _
  · unfold isDefinition at isDef
    split at isDef <;> simp_all

/-! ## §5 Programs -/

/-- A script whose nodes keep to the table is no surprise. -/
theorem foreseen_program (kind : tree.root.kind = .script) (form : tree.root.Everywhere HasForm) :
    Foreseen tree.program := by
  obtain ⟨here, parts⟩ := everywhere_iff.1 form
  obtain ⟨first, stop, ns, root, filled⟩ := here.of_kind kind rfl
  have isStmt := forall_of_filled filled
  simp only [root, children_mk] at parts
  simp only [program, root, children_mk]
  refine (FailsOnly.mapM fun n hn => ?_).bind fun defs => FailsOnly.then_ok ?_ _
  · have isDef := List.all_eq_true.1 List.all_takeWhile n hn
    exact foreseen_definition (parts n (List.takeWhile_subset _ hn)) isDef
  · refine foreseen_statements fun n hn => ?_
    have mem := List.dropWhile_subset _ hn
    exact foreseen_statement (parts n mem) (isStmt n mem)

/-- The variables of a function are its leading definitions, each of them one. -/
theorem forall₂_locals_of_funDef {f : FunDef} (read : tree.funDef n = .ok f) :
    ∃ body, n.child? .body = some body ∧
      List.Forall₂ (fun d v => d.kind = .assignStatement ∧ tree.varDef d = .ok v)
        (body.children.takeWhile isDefinition) f.locals := by
  rcases children : n.children with _ | ⟨x, _ | ⟨params, rest⟩⟩
  · rw [funDef, children] at read
    cases read
  · rw [funDef, children] at read
    cases read
  · rw [funDef_of_children children] at read
    obtain ⟨params, -, read⟩ := bind_eq_ok.1 read
    obtain ⟨ty, -, read⟩ := bind_eq_ok.1 read
    split at read
    · cases read
    · rename_i body found
      obtain ⟨locals, hlocals, read⟩ := bind_eq_ok.1 read
      obtain ⟨stmts, -, read⟩ := bind_eq_ok.1 read
      cases read
      refine ⟨body, found, (mapM_eq_ok.1 hlocals).imp fun d v hv => ?_⟩
      unfold localDef at hv
      split at hv
      · exact ⟨‹_›, hv⟩
      all_goals cases hv

end SourceTree

/-- The tree of a list of tokens is a script that keeps to the table everywhere. -/
theorem Node.hasForm_of_ofTokens {ts : List Token} {root : Node} (h : ofTokens ts = .ok root) :
    root.kind = .script ∧ root.Everywhere HasForm := by
  have isStmt := isStmt_of_ofTokens h
  obtain ⟨ns, j, -, rfl⟩ := ofTokens_eq_ok.1 h
  exact ⟨rfl, .mk ⟨_, .head _, filled_rest fun n hn => isStatement_of_isStmt (isStmt n hn)⟩
    fun n hn => hasForm_isStmt (isStmt n hn)⟩

/-- No text is refused for a node where the grammar puts none of its kind. The trees of all lists of
tokens keep to the table, a tree that keeps to the table is refused only for a fault of a source
text, and the leading definitions of a function that is read are assignments with a type, each of
which gives one of its variables. -/
theorem Program.parse_never_unexpected :
    (∀ ts root, Node.ofTokens ts = .ok root →
      root.kind = .script ∧ root.Everywhere Node.HasForm) ∧
    (∀ tree : SourceTree, tree.root.kind = .script → tree.root.Everywhere Node.HasForm →
      ∀ fragment span, tree.program ≠ .error (.fault .unexpected fragment span)) ∧
    (∀ (tree : SourceTree) n f, tree.funDef n = .ok f → ∃ body, n.child? .body = some body ∧
      List.Forall₂ (fun d v => d.kind = .assignStatement ∧ tree.varDef d = .ok v)
        (body.children.takeWhile SourceTree.isDefinition) f.locals) ∧
    ∀ source fragment span, parse source ≠ .error (.fault .unexpected fragment span) := by
  have never : ∀ tree : SourceTree, tree.root.kind = .script →
      tree.root.Everywhere Node.HasForm →
      ∀ fragment span, tree.program ≠ .error (.fault .unexpected fragment span) :=
    fun tree kind form fragment span failed =>
      SourceTree.foreseen_program kind form _ failed rfl
  refine ⟨fun ts root => Node.hasForm_of_ofTokens, never,
    fun tree n f => SourceTree.forall₂_locals_of_funDef, fun source fragment span failed => ?_⟩
  cases lexed : lex source.toList with
  | error e =>
    rw [parse, lexed] at failed
    cases failed
  | ok ls =>
    cases read : SourceTree.ofLexemes source.toList ls with
    | error e =>
      rw [parse, lexed] at failed
      simp only [Except.mapError, ok_bind, read] at failed
      cases failed
    | ok tree =>
      obtain ⟨root, derived, rfl⟩ := SourceTree.ofLexemes_eq_ok read
      obtain ⟨kind, form⟩ := Node.hasForm_of_ofTokens derived
      rw [parse, lexed] at failed
      simp only [Except.mapError, ok_bind, read] at failed
      exact never _ kind form fragment span failed

/-- A function with two variables, and a conditional with one branch too many. -/
def branching : String :=
  "def f(a: int):\n  x: int = 1\n  y: A = None\n  if a: pass\n  elif x: pass\n  elif y: return\n"

/-- The conditional is refused for its second `elif`, with its tree as the table says. -/
theorem Program.parse_never_unexpected_branching :
    parse branching = .error (.fault .multipleElif "elif y: return" ⟨72, 87⟩) ∧
    ∃ ls root, lex branching.toList = .ok ls ∧ Node.ofTokens (ls.map (·.token)) = .ok root ∧
      root.Everywhere Node.HasForm ∧
      ∀ fragment span, parse branching ≠ .error (.fault .unexpected fragment span) := by
  have failed : parse branching = .error (.fault .multipleElif "elif y: return" ⟨72, 87⟩) := by
    decide +kernel
  obtain ⟨trees, -, -, never⟩ := parse_never_unexpected
  refine ⟨failed, ?_⟩
  cases lexed : lex branching.toList with
  | error e =>
    rw [parse, lexed] at failed
    cases failed
  | ok ls =>
    cases read : Node.ofTokens (ls.map (·.token)) with
    | error i =>
      rw [parse, lexed] at failed
      simp only [Except.mapError, ok_bind, SourceTree.ofLexemes, read] at failed
      cases failed
    | ok root => exact ⟨ls, root, rfl, read, (trees _ root read).2, never branching⟩

/-- Other trees can surprise: here a loop has no condition. -/
example : SourceTree.program ⟨[], #[], .mk .script 0 1 [.mk .whileStatement 0 1 []]⟩ =
    .error (.fault .unexpected "" ⟨0, 0⟩) := by
  decide

end Serpent
