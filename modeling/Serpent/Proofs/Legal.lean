/-
Serpent.Proofs.Legal — which trees are programs.

The tree admits more than the language does. What the language asks of a tree is a rule for each
kind of node, about the node and its parts, and that nothing is returned outside of functions. A
program can be read from a tree exactly if every node obeys its rule: what a tree stands for obeys
the rules, part by part, and from a part that obeys them something can be read.

  §1 The rules
  §2 Rules for a node and what is below it
  §3 What stands for something obeys the rules
  §4 What obeys the rules can be read: expressions and variables
  §5 What obeys the rules can be read: statements and programs
  §6 Legal trees
-/
import Serpent.Proofs.Covering
import Serpent.Proofs.Meaning

namespace Serpent

open Fallible

namespace Node

/-! ## §1 The rules -/

/-- An assignment with a type. -/
def IsAnnotated (n : Node) : Prop :=
  n.kind = .assignStatement ∧ ∃ c ∈ n.children, c.kind = .typeDef

/-- A definition by its shape: an assignment with a type, a function or a class. -/
def IsDefinition (n : Node) : Prop :=
  n.IsAnnotated ∨ n.kind = .functionDefinition ∨ n.kind = .classDefinition

/-- Behind the first statement stands no definition. -/
def DefinitionsFirst (ns : List Node) : Prop :=
  ∃ ds ss, ns = ds ++ ss ∧ (∀ d ∈ ds, d.IsDefinition) ∧ ∀ s ∈ ss, ¬ s.IsDefinition

/-- The statements in the body of a node. -/
def block (n : Node) : List Node := (n.children.filter (·.kind = .body)).flatMap children

/-- The node is a name that stands for itself, or a member of something. -/
def IsReference (n : Node) : Prop := n.kind = .variableName ∨ n.kind = .memberExpression

/-- The node is a literal, without parentheses. -/
def IsLiteral (n : Node) : Prop := n.kind = .none ∨ n.kind = .boolean ∨ n.kind = .number

/-- None of the node's operators is the token `t`. -/
def Lacks (ts : List Token) (n : Node) (t : Token) : Prop :=
  ∀ op ∈ n.children, op.kind = .operator → ts[op.first]? ≠ some t

/-- What the language asks of a node over the tokens `ts`. -/
def Admissible (ts : List Token) (n : Node) : Prop :=
  match n.kind with
  | .script => DefinitionsFirst n.children
  | .functionDefinition =>
    DefinitionsFirst n.block ∧ ∀ s ∈ n.block, s.IsDefinition → s.IsAnnotated
  | .classDefinition =>
    (∃ p first stop, .mk .argList first stop [p] ∈ n.children ∧ p.kind = .variableName) ∧
      ∀ s ∈ n.block, s.kind = .passStatement ∨ s.IsAnnotated ∨ s.kind = .functionDefinition
  | .param => ∃ t ∈ n.children, t.kind = .typeDef
  | .typeDef => ∃ t, n.children = [t] ∧ (t.kind = .variableName ∨ t.kind = .none)
  | .assignStatement =>
    (∃ t ∈ n.children.head?, t.IsReference) ∧
      (n.IsAnnotated → ∃ x t v, n.children = [x, t, v] ∧ x.kind = .variableName ∧ v.IsLiteral)
  | .ifStatement =>
    (∀ s ∈ n.block, ¬ s.IsDefinition) ∧ (n.children.filter (·.kind = .elifClause)).length ≤ 1
  | .elifClause => ∀ s ∈ n.block, ¬ s.IsDefinition
  | .elseClause => ∀ s ∈ n.block, ¬ s.IsDefinition
  | .whileStatement => ∀ s ∈ n.block, ¬ s.IsDefinition
  | .callExpression => ∃ f ∈ n.children.head?, f.IsReference
  | .unaryExpression => Lacks ts n (.symbol .plus)
  | .binaryExpression => Lacks ts n (.symbol .slash) ∧ Lacks ts n (.symbol .starStar)
  | .float => False
  | .number => ∀ text, ts[n.first]? = some (.int text) → decimalValue text ≤ 2147483647
  | _ => True

/-- The node `m` is `n` or below it, and no function is between them. -/
inductive Outside : (n m : Node) → Prop
  | self {n : Node} : Outside n n
  | part {n c m : Node} (noFunction : n.kind ≠ .functionDefinition) (part : c ∈ n.children)
      (h : Outside c m) : Outside n m

/-- A tree is legal if every node of it obeys its rule and nothing is returned outside of functions.
-/
structure Legal (ts : List Token) (root : Node) : Prop where
  admissible : root.Everywhere (Admissible ts)
  returns : ∀ n, Outside root n → n.kind ≠ .returnStatement

/-! ## §2 Rules for a node and what is below it -/

variable {ts : List Token} {place : SourceTree.Place} {n : Node}

/-- The node and all nodes below it obey their rules at a place. -/
structure Obeys (ts : List Token) (place : SourceTree.Place) (n : Node) : Prop where
  admissible : n.Everywhere (Admissible ts)
  returns : place = .topLevel → ∀ m, Outside n m → m.kind ≠ .returnStatement

theorem Obeys.here (h : Obeys ts place n) : Admissible ts n := (everywhere_iff.1 h.admissible).1

theorem Obeys.below (h : Obeys ts place n) (noFunction : n.kind ≠ .functionDefinition) {c : Node}
    (part : c ∈ n.children) : Obeys ts place c :=
  ⟨(everywhere_iff.1 h.admissible).2 c part, fun top _ hm =>
    h.returns top _ (.part noFunction part hm)⟩

/-- What is in a function is not outside of functions. -/
theorem Obeys.inside (h : Obeys ts place n) {c : Node} (part : c ∈ n.children) :
    Obeys ts .inFunction c :=
  ⟨(everywhere_iff.1 h.admissible).2 c part, fun top => by cases top⟩

theorem obeys_of {kind : Kind} {first stop : Nat} {parts : List Node}
    (rule : Admissible ts (.mk kind first stop parts))
    (noReturn : place = .topLevel → kind ≠ .returnStatement)
    (parts_obey : ∀ c ∈ parts, Obeys ts place c) : Obeys ts place (.mk kind first stop parts) := by
  refine ⟨.mk rule fun c hc => (parts_obey c hc).admissible, fun top m hm => ?_⟩
  cases hm with
  | self => exact noReturn top
  | part _ part h => exact (parts_obey _ part).returns top m h

/-- A function may be anywhere, with parts that are allowed in a function. -/
theorem obeys_function {first stop : Nat} {parts : List Node}
    (rule : Admissible ts (.mk .functionDefinition first stop parts))
    (parts_obey : ∀ c ∈ parts, Obeys ts .inFunction c) :
    Obeys ts place (.mk .functionDefinition first stop parts) := by
  refine ⟨.mk rule fun c hc => (parts_obey c hc).admissible, fun top m hm => ?_⟩
  cases hm with
  | self => simp
  | part noFunction => exact absurd rfl noFunction

theorem legal_iff : Legal ts n ↔ Obeys ts .topLevel n :=
  ⟨fun h => ⟨h.admissible, fun _ => h.returns⟩, fun h => ⟨h.admissible, h.returns rfl⟩⟩

theorem mem_block {s : Node} : s ∈ n.block ↔ ∃ b ∈ n.children, b.kind = .body ∧ s ∈ b.children := by
  simp [block, and_assoc]

theorem isDefinition_iff : SourceTree.isDefinition n = true ↔ n.IsDefinition := by
  unfold SourceTree.isDefinition IsDefinition IsAnnotated child?
  split <;> simp_all

end Node

/-! ## §3 What stands for something obeys the rules -/

section Meaning

open Node

variable {ts : List Token} {place : SourceTree.Place} {n : Node}

theorem obeys_leaf {kind : Kind} {i : Nat} (rule : Admissible ts (.mk kind i (i + 1) []))
    (noReturn : kind ≠ .returnStatement) : Obeys ts place (.mk kind i (i + 1) []) :=
  obeys_of rule (fun _ => noReturn) (by simp)

theorem NameAt.obeys {x : String} (h : NameAt ts n x) : Obeys ts place n := by
  obtain ⟨token⟩ := h
  exact obeys_leaf trivial (by simp)

theorem LiteralAt.obeys {v : Literal} (h : LiteralAt ts n v) : Obeys ts place n := by
  cases h with
  | number token small =>
    refine obeys_leaf (fun text found => ?_) (by simp)
    rw [Node.first, token] at found
    cases found
    exact small
  | _ => exact obeys_leaf trivial (by simp)

theorem kind_of_nameAt {x : String} (h : NameAt ts n x) : n.kind = .variableName := by
  obtain ⟨token⟩ := h
  rfl

theorem LiteralAt.isLiteral {v : Literal} (h : LiteralAt ts n v) : n.IsLiteral := by
  cases h <;> simp [IsLiteral]

/-- What stands for an expression is none of the parts that the rules ask for. -/
theorem kind_of_exprAt {e : Expr} (h : ExprAt ts n e) :
    n.kind ≠ .typeDef ∧ n.kind ≠ .body ∧ n.kind ≠ .elifClause ∧ n.kind ≠ .operator := by
  cases h with
  | literal h => cases h <;> simp
  | var h => simp [kind_of_nameAt h]
  | _ => simp

theorem lacks_unary {first stop i : Nat} {o : UnOp} (token : ts[i]? = some o.token)
    (operand : n.kind ≠ .operator) :
    Lacks ts (.mk .unaryExpression first stop [.mk .operator i (i + 1) [], n]) (.symbol .plus) := by
  cases o <;> simp [Lacks, Node.first, token, operand, UnOp.token]

theorem lacks_binary {first stop i : Nat} {l r : Node} {o : BinOp} (token : ts[i]? = some o.token)
    (left : l.kind ≠ .operator) (right : r.kind ≠ .operator) {s : Symbol}
    (other : o.token ≠ .symbol s) :
    Lacks ts (.mk .binaryExpression first stop [l, .mk .operator i (i + 1) [], r]) (.symbol s) := by
  simp [Lacks, Node.first, token, left, right, other]

mutual

theorem ExprAt.obeys {n : Node} {e : Expr} : ExprAt ts n e → Obeys ts place n
  | .literal h => h.obeys
  | .var h => h.obeys
  | .parenthesized h => obeys_of trivial (by simp) (by simpa using h.obeys)
  | .unary token h =>
    obeys_of (lacks_unary token (kind_of_exprAt h).2.2.2) (by simp)
      (by simpa using ⟨obeys_leaf trivial (by simp), h.obeys⟩)
  | .binary hl token hr =>
    obeys_of
      ⟨lacks_binary token (kind_of_exprAt hl).2.2.2 (kind_of_exprAt hr).2.2.2
        (by rename_i o _ _; cases o <;> simp [BinOp.token]),
      lacks_binary token (kind_of_exprAt hl).2.2.2 (kind_of_exprAt hr).2.2.2
        (by rename_i o _ _; cases o <;> simp [BinOp.token])⟩
      (by simp) (by simpa using ⟨hl.obeys, obeys_leaf trivial (by simp), hr.obeys⟩)
  | .field h token =>
    obeys_of trivial (by simp) (by simpa using ⟨h.obeys, obeys_leaf trivial (by simp)⟩)
  | .call callee arguments =>
    obeys_of ⟨_, rfl, .inl (kind_of_nameAt callee)⟩ (by simp)
      (by simpa using ⟨callee.obeys, obeys_of trivial (by simp) arguments.obeys⟩)
  | .method h token arguments =>
    obeys_of ⟨_, rfl, .inr rfl⟩ (by simp)
      (by simpa using ⟨obeys_of trivial (by simp) (by simpa using ⟨h.obeys, obeys_leaf trivial (by simp)⟩),
        obeys_of trivial (by simp) arguments.obeys⟩)

theorem ExprsAt.obeys {ns : List Node} {es : List Expr} :
    ExprsAt ts ns es → ∀ n ∈ ns, Obeys ts place n
  | .nil => by simp
  | .cons first rest => by simpa using ⟨first.obeys, rest.obeys⟩

end

theorem TypeAt.obeys {ty : Ty} (h : TypeAt ts n ty) : Obeys ts place n := by
  cases h with
  | none h => exact obeys_of ⟨_, rfl, .inr (by cases h; rfl)⟩ (by simp) (by simpa using h.obeys)
  | name h => exact obeys_of ⟨_, rfl, .inl (kind_of_nameAt h)⟩ (by simp) (by simpa using h.obeys)

theorem kind_of_typeAt {ty : Ty} (h : TypeAt ts n ty) : n.kind = .typeDef := by
  cases h <;> rfl

theorem VarAt.obeys {v : VarDef} (h : VarAt ts n v) : Obeys ts place n := by
  obtain ⟨name, type, value⟩ := h
  refine obeys_of ⟨⟨_, rfl, .inl (kind_of_nameAt name)⟩, fun _ => ?_⟩ (by simp)
    (by simpa using ⟨name.obeys, type.obeys, value.obeys⟩)
  exact ⟨_, _, _, rfl, kind_of_nameAt name, value.isLiteral⟩

theorem VarAt.isAnnotated {v : VarDef} (h : VarAt ts n v) : n.IsAnnotated := by
  obtain ⟨name, type, value⟩ := h
  exact ⟨rfl, _, by simp, kind_of_typeAt type⟩

theorem ParamAt.obeys {p : Param} (h : ParamAt ts n p) : Obeys ts place n := by
  obtain ⟨name, type⟩ := h
  exact obeys_of ⟨_, by simp, kind_of_typeAt type⟩ (by simp)
    (by simpa using ⟨name.obeys, type.obeys⟩)

theorem TargetAt.obeys {t : Target} (h : TargetAt ts n t) : Obeys ts place n := by
  cases h with
  | var h => exact h.obeys
  | member h token => exact (ExprAt.field h token).obeys

theorem TargetAt.isReference {t : Target} (h : TargetAt ts n t) : n.IsReference := by
  cases h with
  | var h => exact .inl (kind_of_nameAt h)
  | member h token => exact .inr rfl

/-- What stands for a statement is no definition. -/
theorem StmtAt.not_isDefinition {s : Stmt} (h : StmtAt ts place n s) : ¬ n.IsDefinition := by
  cases h with
  | assign target value =>
    rcases target.isReference with left | left
    all_goals simp [IsDefinition, IsAnnotated, left, (kind_of_exprAt value).1]
  | _ => simp [IsDefinition, IsAnnotated]

theorem StmtsAt.not_isDefinition {ns : List Node} {ss : List Stmt} (h : StmtsAt ts place ns ss) :
    ∀ n ∈ ns, ¬ n.IsDefinition := by
  induction ns generalizing ss with
  | nil => simp
  | cons n ns ih =>
    cases h with
    | cons first rest => simpa using ⟨first.not_isDefinition, ih rest⟩

/-- The statements of a body that stands among other parts. -/
theorem block_of_body {kind : Kind} {first stop first' stop' : Nat} (before behind : List Node)
    {ns : List Node} (others : ∀ c ∈ before ++ behind, c.kind ≠ .body) :
    (Node.mk kind first stop (before ++ .mk .body first' stop' ns :: behind)).block = ns := by
  have none {cs : List Node} (h : ∀ c ∈ cs, c.kind ≠ .body) :
      cs.filter (fun c => decide (c.kind = .body)) = [] :=
    List.filter_eq_nil_iff.2 (by simpa using h)
  rw [block, children_mk, List.filter_append, List.filter_cons_of_pos (by simp),
    none fun c hc => others c (List.mem_append_left _ hc),
    none fun c hc => others c (List.mem_append_right _ hc)]
  simp

theorem forall_block {kind : Kind} {first stop first' stop' : Nat} (before behind : List Node)
    {ns : List Node} {P : Node → Prop} (others : ∀ c ∈ before ++ behind, c.kind ≠ .body)
    (h : ∀ s ∈ ns, P s) :
    ∀ s ∈ (Node.mk kind first stop (before ++ .mk .body first' stop' ns :: behind)).block, P s := by
  rwa [block_of_body before behind others]

theorem ElifAt.kind {ns : List Node} {elif : Option (Expr × List Stmt)} (h : ElifAt ts place ns elif) :
    (∀ n ∈ ns, n.kind = .elifClause) ∧ ns.length ≤ 1 := by
  cases h <;> simp [Clause.node]

theorem ElseAt.kind {ns : List Node} {orElse : Option (List Stmt)} (h : ElseAt ts place ns orElse) :
    ∀ n ∈ ns, n.kind = .elseClause := by
  cases h <;> simp [LastClause.node]

/-- The rules for a conditional. -/
theorem admissible_if {first stop : Nat} {c : Node} {body : Suite} {elifs last : List Node}
    (cond : c.kind ≠ .body ∧ c.kind ≠ .elifClause) (block : ∀ s ∈ body.stmts, ¬ s.IsDefinition)
    (second : (∀ n ∈ elifs, n.kind = .elifClause) ∧ elifs.length ≤ 1)
    (otherwise : ∀ n ∈ last, n.kind = .elseClause) :
    Admissible ts (.mk .ifStatement first stop (c :: body.node :: elifs ++ last)) := by
  constructor
  · refine forall_block [c] (elifs ++ last) (fun n hn => ?_) block
    rcases List.mem_append.1 hn with hn | hn
    · rw [List.mem_singleton.1 hn]
      exact cond.1
    · rcases List.mem_append.1 hn with hn | hn
      · simp [second.1 n hn]
      · simp [otherwise n hn]
  · have none : last.filter (fun n => decide (n.kind = .elifClause)) = [] :=
      List.filter_eq_nil_iff.2 fun n hn => by simp [otherwise n hn]
    refine Nat.le_trans ?_ second.2
    simp [cond.2, Suite.node, none, List.length_filter_le]

/-- The parts of a body obey the rules, and so does the body. -/
theorem obeys_body {first stop : Nat} {ns : List Node} (h : ∀ n ∈ ns, Obeys ts place n) :
    Obeys ts place (.mk .body first stop ns) :=
  obeys_of trivial (by simp) h

mutual

theorem StmtAt.obeys {n : Node} {s : Stmt} : StmtAt ts place n s → Obeys ts place n
  | .pass => obeys_leaf trivial (by simp)
  | .expr h => obeys_of trivial (by simp) (by simpa using h.obeys)
  | .assign target value =>
    obeys_of ⟨⟨_, rfl, target.isReference⟩, fun annotated =>
      absurd (.inl annotated) (@StmtAt.assign _ .topLevel _ _ _ _ _ _ target value).not_isDefinition⟩
      (by simp) (by simpa using ⟨target.obeys, value.obeys⟩)
  | .return_ inside h => obeys_of trivial (by simp [inside]) (by simpa using h.obeys)
  | .returnNone inside => obeys_of trivial (by simp [inside]) (by simp)
  | @StmtAt.while_ _ _ _ _ c _ _ _ condition block =>
    obeys_of (forall_block [c] [] (by simpa using (kind_of_exprAt condition).2.1)
        block.not_isDefinition) (by simp) (by simpa using ⟨condition.obeys, obeys_body block.obeys⟩)
  | .if_ condition block second otherwise =>
    obeys_of (admissible_if ⟨(kind_of_exprAt condition).2.1, (kind_of_exprAt condition).2.2.1⟩
        block.not_isDefinition second.kind otherwise.kind) (by simp) (by
      intro c hc
      rcases List.mem_append.1 hc with hc | hc
      · rcases List.mem_cons.1 hc with rfl | hc
        · exact condition.obeys
        · rcases List.mem_cons.1 hc with rfl | hc
          · exact obeys_body block.obeys
          · exact second.obeys c hc
      · exact otherwise.obeys c hc)

theorem StmtsAt.obeys {ns : List Node} {ss : List Stmt} :
    StmtsAt ts place ns ss → ∀ n ∈ ns, Obeys ts place n
  | .nil => by simp
  | .cons first rest => by simpa using ⟨first.obeys, rest.obeys⟩

theorem ElifAt.obeys {ns : List Node} {elif : Option (Expr × List Stmt)} :
    ElifAt ts place ns elif → ∀ n ∈ ns, Obeys ts place n
  | .absent => by simp
  | .present condition block => by
    rw [List.forall_mem_singleton]
    refine obeys_of ?_ (by simp) (by simpa using ⟨condition.obeys, obeys_body block.obeys⟩)
    exact forall_block [_] [] (by simpa using (kind_of_exprAt condition).2.1) block.not_isDefinition

theorem ElseAt.obeys {ns : List Node} {orElse : Option (List Stmt)} :
    ElseAt ts place ns orElse → ∀ n ∈ ns, Obeys ts place n
  | .absent => by simp
  | .present block => by
    rw [List.forall_mem_singleton]
    refine obeys_of ?_ (by simp) (List.forall_mem_singleton.2 (obeys_body block.obeys))
    exact forall_block [] [] (by simp) block.not_isDefinition

end

/-- What holds of every node that stands for something holds of all nodes of a list. -/
theorem forall_of_forall₂ {α : Type} {R : Node → α → Prop} {P : Node → Prop} {ns : List Node}
    {as : List α} (h : List.Forall₂ R ns as) (each : ∀ {n a}, R n a → P n) : ∀ n ∈ ns, P n := by
  induction h with
  | nil => simp
  | cons first _ ih => simpa using ⟨each first, ih⟩

theorem ResultAt.kind {r : Option Node} {ty : Ty} (h : ResultAt ts r ty) :
    ∀ t ∈ r, t.kind = .typeDef := by
  cases h with
  | absent => simp
  | present h => simpa using kind_of_typeAt h

theorem ResultAt.obeys {r : Option Node} {ty : Ty} (h : ResultAt ts r ty) :
    ∀ t ∈ r, Obeys ts place t := by
  cases h with
  | absent => simp
  | present h => simpa using h.obeys

theorem block_function {first stop first' stop' first'' stop'' : Nat} {x : Node}
    {ps ns : List Node} {r : Option Node} (name : x.kind = .variableName)
    (result : ∀ t ∈ r, t.kind = .typeDef) :
    (Node.mk .functionDefinition first stop
      (x :: .mk .paramList first' stop' ps :: r.toList ++ [.mk .body first'' stop'' ns])).block = ns := by
  refine block_of_body (x :: .mk .paramList first' stop' ps :: r.toList) [] fun c hc => ?_
  simp only [List.append_nil, List.mem_cons, Option.mem_toList] at hc
  rcases hc with rfl | rfl | hc
  · simp [name]
  · simp
  · simp [result c hc]

theorem FunAt.obeys {f : FunDef} (h : FunAt ts n f) : Obeys ts place n := by
  obtain ⟨name, parameters, result, locals, statements⟩ := h
  rename_i x _ ps _ r _ ds ns _ _
  have definitions : ∀ d ∈ ds, d.IsAnnotated := forall_of_forall₂ locals VarAt.isAnnotated
  refine obeys_function ?_ ?_
  · show DefinitionsFirst (block _) ∧ ∀ s ∈ block _, s.IsDefinition → s.IsAnnotated
    rw [block_function (kind_of_nameAt name) result.kind]
    refine ⟨⟨ds, ns, rfl, fun d hd => .inl (definitions d hd), statements.not_isDefinition⟩, ?_⟩
    intro s hs isDef
    rcases List.mem_append.1 hs with hs | hs
    · exact definitions s hs
    · exact absurd isDef (statements.not_isDefinition s hs)
  · intro c hc
    simp only [List.cons_append, List.mem_cons, List.mem_append, Option.mem_toList, List.not_mem_nil,
      or_false] at hc
    rcases hc with rfl | rfl | hc | rfl
    · exact name.obeys
    · exact obeys_of trivial (by simp) (forall_of_forall₂ parameters ParamAt.obeys)
    · exact result.obeys c hc
    · refine obeys_body fun s hs => ?_
      rcases List.mem_append.1 hs with hs | hs
      · exact forall_of_forall₂ locals VarAt.obeys s hs
      · exact statements.obeys s hs

theorem kind_of_funAt {f : FunDef} (h : FunAt ts n f) : n.kind = .functionDefinition := by
  cases h
  rfl

theorem MembersAt.obeys {ns : List Node} {vs : List VarDef} {fs : List FunDef}
    (h : MembersAt ts ns vs fs) : ∀ n ∈ ns, Obeys ts place n := by
  induction h with
  | nil => simp
  | pass _ ih => exact List.forall_mem_cons.2 ⟨obeys_leaf trivial (by simp), ih⟩
  | field first _ ih => exact List.forall_mem_cons.2 ⟨first.obeys, ih⟩
  | method first _ ih => exact List.forall_mem_cons.2 ⟨first.obeys, ih⟩

theorem MembersAt.isMember {ns : List Node} {vs : List VarDef} {fs : List FunDef}
    (h : MembersAt ts ns vs fs) :
    ∀ n ∈ ns, n.kind = .passStatement ∨ n.IsAnnotated ∨ n.kind = .functionDefinition := by
  induction h with
  | nil => simp
  | pass _ ih => exact List.forall_mem_cons.2 ⟨.inl rfl, ih⟩
  | field first _ ih => exact List.forall_mem_cons.2 ⟨.inr (.inl first.isAnnotated), ih⟩
  | method first _ ih => exact List.forall_mem_cons.2 ⟨.inr (.inr (kind_of_funAt first)), ih⟩

theorem ClassAt.obeys {c : ClassDef} (h : ClassAt ts n c) : Obeys ts place n := by
  obtain ⟨name, super, members⟩ := h
  refine obeys_of ⟨⟨_, _, _, List.mem_cons_of_mem _ List.mem_cons_self, kind_of_nameAt super⟩, ?_⟩
    (by simp) ?_
  · exact forall_block [_, _] [] (by simp [kind_of_nameAt name]) members.isMember
  · simpa using ⟨name.obeys, obeys_of trivial (by simp) (by simpa using super.obeys),
      obeys_body members.obeys⟩

theorem DefAt.obeys {d : Def} (h : DefAt ts n d) : Obeys ts place n := by
  cases h with
  | var h => exact h.obeys
  | function h => exact h.obeys
  | class_ h => exact h.obeys

theorem DefAt.isDefinition {d : Def} (h : DefAt ts n d) : n.IsDefinition := by
  cases h with
  | var h => exact .inl h.isAnnotated
  | function h => exact .inr (.inl (kind_of_funAt h))
  | class_ h =>
    cases h
    exact .inr (.inr rfl)

/-- A tree that stands for a program is legal. -/
theorem ProgramAt.legal {p : Program} (h : ProgramAt ts n p) : Legal ts n := by
  obtain ⟨definitions, statements⟩ := h
  rename_i ds ns _ _
  refine legal_iff.2 (obeys_of ?_ (by simp) fun c hc => ?_)
  · exact ⟨ds, ns, rfl, forall_of_forall₂ definitions DefAt.isDefinition, statements.not_isDefinition⟩
  · rcases List.mem_append.1 hc with hc | hc
    · exact forall_of_forall₂ definitions DefAt.obeys c hc
    · exact statements.obeys c hc

end Meaning

/-! ## §4 What obeys the rules can be read: expressions and variables -/

namespace SourceTree

open Node

variable {tree : SourceTree} {ts : List Token}

/-- The tree is one of a text with the tokens `ts`, none of which is written without a character. -/
structure Written (tree : SourceTree) (ts : List Token) : Prop extends tree.Spells ts where
  text_ne_nil : ∀ {t : Token}, t ∈ ts → t.isMark = false → t.text.toList ≠ []

theorem written_of_lex {source : List Char} {ls : List Lexeme} (h : lex source = .ok ls)
    (root : Node) : Written ⟨source, (ls.map (·.span)).toArray, root⟩ (ls.map (·.token)) where
  toSpells := spells_of_lex h root
  text_ne_nil := by
    intro t ht mark
    obtain ⟨l, hl, rfl⟩ := List.mem_map.1 ht
    exact text_ne_nil_of_lex h l hl mark

theorem numeral?_of_decimalValue {text : String} (digits : text.toList.all Char.isDigit = true)
    (some_digit : text.toList ≠ []) (small : decimalValue text ≤ 2147483647) :
    numeral? text = some (Int32.ofNat (decimalValue text)) := by
  have value : natOfDigits? text.toList = some (decimalValue text) := by
    obtain ⟨c, cs, cons⟩ := List.exists_cons_of_ne_nil some_digit
    rw [cons] at digits
    simp only [natOfDigits?, decimalValue, cons, digits, if_true]
  have bound : decimalValue text < Word.half := Nat.lt_of_le_of_lt small (by decide)
  simp only [numeral?, value, if_pos bound]

/-- A literal that obeys the rules can be read. -/
theorem exists_literal (written : tree.Written ts) {n : Node} (shape : IsExpr ts n)
    (isLiteral : n.IsLiteral) (rule : Admissible ts n) : ∃ v, tree.literal n = .ok v := by
  cases shape with
  | atom token atom =>
    unfold atomKind? at atom
    split at atom
    all_goals cases atom
    case h_1 text =>
      have int := List.mem_of_getElem? token
      refine ⟨.number (Int32.ofNat (decimalValue text)), ?_⟩
      simp only [literal, kind_mk, written.text_leaf token rfl, Token.text,
        numeral?_of_decimalValue (written.isSpelled int rfl) (written.text_ne_nil int rfl)
          (rule text token)]
    case h_2 => exact rule.elim
    case h_6 => simp [IsLiteral] at isLiteral
    all_goals exact ⟨_, rfl⟩
  | _ => simp [IsLiteral] at isLiteral

theorem exists_unOp {t : Token} {level : Nat} (operator : unaryLevel? t = some level)
    (other : t ≠ .symbol .plus) : ∃ o, UnOp.ofText? t.text = some o := by
  unfold unaryLevel? at operator
  split at operator
  all_goals first | exact ⟨_, rfl⟩ | exact absurd rfl other | cases operator

theorem exists_binOp {t : Token} {level : Nat} (operator : binaryLevel? t = some level)
    (other : t ≠ .symbol .slash ∧ t ≠ .symbol .starStar) : ∃ o, BinOp.ofText? t.text = some o := by
  unfold binaryLevel? at operator
  split at operator
  all_goals first
    | exact ⟨_, rfl⟩
    | exact absurd rfl other.1
    | exact absurd rfl other.2
    | cases operator

theorem exists_exprs {ns : List Node} (each : ∀ n ∈ ns, ∃ e, tree.expr n = .ok e) :
    ∃ es, tree.exprs ns = .ok es := by
  induction ns with
  | nil => exact ⟨[], rfl⟩
  | cons n ns ih =>
    obtain ⟨e, he⟩ := each n (by simp)
    obtain ⟨es, hes⟩ := ih fun m hm => each m (by simp [hm])
    exact ⟨e :: es, by rw [exprs, he, ok_bind, hes]; rfl⟩

/-- An expression that obeys the rules can be read. -/
theorem exists_expr (written : tree.Written ts) {n : Node} (shape : IsExpr ts n)
    (rules : n.Everywhere (Admissible ts)) : ∃ e, tree.expr n = .ok e := by
  induction shape with
  | @atom i t kind token atom =>
    have rule := (everywhere_iff.1 rules).1
    have literal (isLiteral : (Node.mk kind i (i + 1) []).IsLiteral) :
        ∃ e, (do return .literal none (← tree.literal (.mk kind i (i + 1) []))) =
          (.ok e : Except ParseError Expr) := by
      obtain ⟨v, hv⟩ := exists_literal written (.atom token atom) isLiteral rule
      exact ⟨.literal none v, by rw [hv]; rfl⟩
    unfold atomKind? at atom
    split at atom
    all_goals cases atom
    case h_2 => exact rule.elim
    case h_6 => exact ⟨_, rfl⟩
    all_goals exact literal (by simp [IsLiteral])
  | parenthesized _ ih =>
    rw [everywhere_iff] at rules
    exact ih (rules.2 _ (by simp))
  | unary token level _ ih =>
    obtain ⟨rule, below⟩ := everywhere_iff.1 rules
    obtain ⟨e, he⟩ := ih (below _ (by simp))
    obtain ⟨o, ho⟩ := exists_unOp level fun plus =>
      rule _ List.mem_cons_self rfl (token.trans (congrArg some plus))
    refine ⟨.unary none o e, ?_⟩
    rw [expr, written.text_leaf token (isMark_of_unaryLevel? level), ho]
    simp only [he, ok_bind, pure_eq_ok]
  | binary _ token level _ ihl ihr =>
    obtain ⟨rule, below⟩ := everywhere_iff.1 rules
    obtain ⟨l, hl⟩ := ihl (below _ (by simp))
    obtain ⟨r, hr⟩ := ihr (below _ (by simp))
    obtain ⟨o, ho⟩ := exists_binOp level
      ⟨fun slash => rule.1 _ (List.mem_cons_of_mem _ List.mem_cons_self) rfl
        (token.trans (congrArg some slash)),
      fun power => rule.2 _ (List.mem_cons_of_mem _ List.mem_cons_self) rfl
        (token.trans (congrArg some power))⟩
    refine ⟨.binary none o l r, ?_⟩
    rw [expr, written.text_leaf token (isMark_of_binaryLevel? level), ho]
    simp only [hl, hr, ok_bind, pure_eq_ok]
  | member _ token ih =>
    obtain ⟨-, below⟩ := everywhere_iff.1 rules
    obtain ⟨e, he⟩ := ih (below _ (by simp))
    exact ⟨_, by rw [expr, he]; rfl⟩
  | call hf _ ihf ihargs =>
    obtain ⟨⟨f, given, reference⟩, below⟩ := everywhere_iff.1 rules
    cases given
    obtain ⟨-, args⟩ := everywhere_iff.1 (below _ (List.mem_cons_of_mem _ List.mem_cons_self))
    obtain ⟨es, hes⟩ := exists_exprs fun n hn => ihargs n hn (args n hn)
    obtain ⟨e, he⟩ := ihf (below _ List.mem_cons_self)
    cases hf with
    | @member _ _ i x o _ token =>
      rw [expr] at he
      obtain ⟨receiver, ho, -⟩ := bind_eq_ok.1 he
      refine ⟨.method none receiver (tree.text (.mk .propertyName i (i + 1) [])) es, ?_⟩
      rw [expr, hes, ok_bind]
      simp only [ho, ok_bind, pure_eq_ok]
    | atom token atom =>
      obtain rfl | kind := reference
      · exact ⟨_, by rw [expr, hes]; rfl⟩
      · unfold atomKind? at atom
        split at atom <;> simp_all
    | _ => simp [IsReference] at reference

theorem exists_type (tree : SourceTree) {n : Node} (shape : IsTypeDef ts n) (rule : Admissible ts n) :
    ∃ ty, tree.type n = .ok ty := by
  obtain ⟨first, stop, e, rfl, he⟩ := shape
  obtain ⟨t, parts, kind⟩ := rule
  cases parts
  simp only [type, children_mk]
  rcases kind with kind | kind
  · simp only [kind]
    split <;> exact ⟨_, rfl⟩
  · simp only [kind]
    exact ⟨_, rfl⟩

theorem exists_initializer (written : tree.Written ts) {n : Node} (shape : IsExpr ts n)
    (isLiteral : n.IsLiteral) (rule : Admissible ts n) : ∃ v, tree.initializer n = .ok v := by
  obtain ⟨v, hv⟩ := exists_literal written shape isLiteral rule
  refine ⟨v, ?_⟩
  rw [initializer]
  rcases isLiteral with kind | kind | kind <;> simp only [kind, hv]

/-- A variable definition that obeys the rules can be read. -/
theorem exists_varDef (written : tree.Written ts) {n : Node} (shape : IsStmt ts n)
    (annotated : n.IsAnnotated) (rules : n.Everywhere (Admissible ts)) :
    ∃ v, tree.varDef n = .ok v := by
  obtain ⟨rule, below⟩ := everywhere_iff.1 rules
  cases shape with
  | assign ht he =>
    obtain ⟨-, c, hc, kind⟩ := annotated
    rcases List.mem_pair.1 hc with rfl | rfl
    · exact absurd kind (kind_of_isExpr ht).1
    · exact absurd kind (kind_of_isExpr he).1
  | @define _ _ target type value ht htype hvalue =>
    obtain ⟨x, t, v, parts, name, isLiteral⟩ := rule.2 annotated
    cases value with
    | none => cases parts
    | some value =>
      cases parts
      obtain ⟨ty, hty⟩ := exists_type tree htype
        (everywhere_iff.1 (below _ (by simp))).1
      obtain ⟨l, hl⟩ := exists_initializer written (hvalue _ rfl) isLiteral
        (everywhere_iff.1 (below _ (by simp))).1
      refine ⟨⟨tree.text target, ty, l⟩, ?_⟩
      simp only [varDef, children_mk, name, Option.toList_some, hty, hl, ok_bind, pure_eq_ok]
      rfl
  | _ => cases annotated.1

theorem exists_param {n : Node} (shape : IsParam ts n) (rules : n.Everywhere (Admissible ts)) :
    ∃ p, tree.param n = .ok p := by
  obtain ⟨rule, below⟩ := everywhere_iff.1 rules
  obtain ⟨first, stop, x, type, rfl, ⟨i, y, rfl, -⟩, htype⟩ := shape
  obtain ⟨t, ht, kind⟩ := rule
  cases type with
  | none =>
    obtain rfl := List.mem_singleton.1 ht
    cases kind
  | some type =>
    obtain ⟨ty, hty⟩ := exists_type tree (htype type rfl)
      (everywhere_iff.1 (below _ (by simp))).1
    obtain ⟨f, s, e, rfl, -⟩ := htype type rfl
    exact ⟨⟨_, ty⟩, by
      change (do return (⟨_, ← tree.type _⟩ : Param)) = _
      rw [hty]
      rfl⟩

theorem exists_target (written : tree.Written ts) {n : Node} (shape : IsExpr ts n)
    (reference : n.IsReference) (rules : n.Everywhere (Admissible ts)) :
    ∃ t, tree.target n = .ok t := by
  cases shape with
  | member ho token =>
    obtain ⟨o, ho⟩ := exists_expr written ho ((everywhere_iff.1 rules).2 _ (by simp))
    exact ⟨_, by rw [target, ho]; rfl⟩
  | atom token atom =>
    obtain rfl | kind := reference
    · exact ⟨_, rfl⟩
    · unfold atomKind? at atom
      split at atom <;> simp_all
  | _ => simp [IsReference] at reference

/-! ## §5 What obeys the rules can be read: statements and programs -/

variable {place : Place} {n : Node}

/-- The statements of a body obey the rules of their place. -/
theorem obeys_of_suite (h : Obeys ts place n) (noFunction : n.kind ≠ .functionDefinition)
    {body : Suite} (part : body.node ∈ n.children) : ∀ s ∈ body.stmts, Obeys ts place s :=
  fun _ hs => (h.below noFunction part).below (by simp [Suite.node]) hs

theorem mem_block_of_suite {body : Suite} (part : body.node ∈ n.children) {s : Node}
    (hs : s ∈ body.stmts) : s ∈ n.block :=
  mem_block.2 ⟨_, part, rfl, hs⟩

theorem exists_statements {ns : List Node} (each : ∀ n ∈ ns, ∃ s, tree.statement place n = .ok s) :
    ∃ ss, tree.statements place ns = .ok ss := by
  induction ns with
  | nil => exact ⟨[], rfl⟩
  | cons n ns ih =>
    obtain ⟨s, hs⟩ := each n (by simp)
    obtain ⟨ss, hss⟩ := ih fun m hm => each m (by simp [hm])
    exact ⟨s :: ss, by rw [statements, hs, ok_bind, hss]; rfl⟩

theorem exists_mapM {α : Type} {f : Node → Except ParseError α} {ns : List Node}
    (each : ∀ n ∈ ns, ∃ a, f n = .ok a) : ∃ as, ns.mapM f = .ok as := by
  obtain ⟨as, h⟩ := exists_forall₂_iff.2 each
  exact ⟨as, mapM_eq_ok.2 h⟩

/-- No conditional that obeys the rules has two `elif` clauses. -/
theorem tail_of_admissible {first stop : Nat} {c : Node} {body : Suite} {elifs : List Clause}
    {last : List Node} (rule : Admissible ts (.mk .ifStatement first stop
      (c :: body.node :: elifs.map Clause.node ++ last))) : elifs.tail = [] := by
  have all : (elifs.map Clause.node).filter (fun n => decide (n.kind = .elifClause)) =
      elifs.map Clause.node := List.filter_eq_self.2 (by simp [Clause.node])
  have among : List.Sublist (elifs.map Clause.node)
      (c :: body.node :: elifs.map Clause.node ++ last) :=
    (((List.Sublist.refl _).cons _).cons _).trans (List.sublist_append_left _ _)
  have count := (among.filter fun n => decide (n.kind = .elifClause)).length_le
  rw [all, List.length_map] at count
  refine List.eq_nil_of_length_eq_zero ?_
  have bound := Nat.le_trans count rule.2
  rw [List.length_tail]
  omega

/-- A statement that obeys the rules can be read. -/
theorem exists_statement (written : tree.Written ts) (shape : IsStmt ts n)
    (obeys : Obeys ts place n) (statement : ¬ n.IsDefinition) :
    ∃ s, tree.statement place n = .ok s := by
  induction shape with
  | pass => exact ⟨_, rfl⟩
  | expr he =>
    obtain ⟨e, he⟩ := exists_expr written he (obeys.below (by simp) (by simp)).admissible
    exact ⟨.expr e, by rw [SourceTree.statement, he]; rfl⟩
  | assign ht he =>
    obtain ⟨t, given, reference⟩ := obeys.here.1
    cases given
    obtain ⟨t, htarget⟩ := exists_target written ht reference
      (obeys.below (by simp) (by simp)).admissible
    obtain ⟨e, hvalue⟩ := exists_expr written he (obeys.below (by simp) (by simp)).admissible
    refine ⟨.assign t e, ?_⟩
    simp only [SourceTree.statement, isDefinition_assign ht he, Bool.false_eq_true, if_false, htarget,
      hvalue, ok_bind, pure_eq_ok]
  | define ht htype hvalue =>
    exact absurd (.inl ⟨rfl, _, by simp, kind_of_isTypeDef htype⟩) statement
  | returned value hvalue =>
    cases place with
    | topLevel => exact absurd rfl (obeys.returns rfl _ .self)
    | inFunction =>
      cases value with
      | none => exact ⟨_, rfl⟩
      | some e =>
        obtain ⟨e, he⟩ := exists_expr written (hvalue e rfl)
          (obeys.below (by simp) (by simp)).admissible
        exact ⟨.return_ e, by simp only [Option.toList_some, SourceTree.statement, he]; rfl⟩
  | while_ hc _ _ ih =>
    obtain ⟨e, he⟩ := exists_expr written hc (obeys.below (by simp) (by simp)).admissible
    obtain ⟨ss, hss⟩ := exists_statements fun s hs =>
      ih s hs (obeys_of_suite obeys (by simp) (by simp) s hs)
        (obeys.here s (mem_block_of_suite (by simp) hs))
    exact ⟨.while_ e ss, by
      rw [Suite.node, SourceTree.statement, he, ok_bind, hss]
      rfl⟩
  | @if_ first stop c suite elifs last hc _ _ hconds _ _ _ ihbody ihelifs ihlast =>
    rw [statement_if, tail_of_admissible obeys.here]
    obtain ⟨e, he⟩ := exists_expr written hc (obeys.below (by simp) (by simp)).admissible
    obtain ⟨ss, hss⟩ := exists_statements fun s hs =>
      ihbody s hs (obeys_of_suite obeys (by simp) (by simp) s hs)
        (obeys.here.1 s (mem_block_of_suite (by simp) hs))
    obtain ⟨second, hsecond⟩ : ∃ second, tree.elif place elifs.head? = .ok second := by
      cases elifs with
      | nil => exact ⟨none, rfl⟩
      | cons clause elifs =>
        have inside : Obeys ts place clause.node := obeys.below (by simp) (by simp)
        obtain ⟨e, he⟩ := exists_expr written (hconds clause (by simp)).1
          (inside.below (by simp [Clause.node]) (by simp [Clause.node])).admissible
        obtain ⟨ss, hss⟩ := exists_statements fun s hs => ihelifs clause (by simp) s hs
          (obeys_of_suite inside (by simp [Clause.node]) (by simp [Clause.node]) s hs)
          (inside.here s (mem_block_of_suite (by simp [Clause.node]) hs))
        exact ⟨some (e, ss), by simp only [List.head?_cons, elif, he, hss]; rfl⟩
    obtain ⟨orElse, hlast⟩ : ∃ orElse,
        tree.otherwise place (last.map LastClause.node).toList = .ok orElse := by
      cases last with
      | none => exact ⟨none, rfl⟩
      | some clause =>
        have inside : Obeys ts place clause.node := obeys.below (by simp) (by simp)
        obtain ⟨ss, hss⟩ := exists_statements fun s hs => ihlast clause rfl s hs
          (obeys_of_suite inside (by simp [LastClause.node]) (by simp [LastClause.node]) s hs)
          (inside.here s (mem_block_of_suite (by simp [LastClause.node]) hs))
        refine ⟨some ss, ?_⟩
        rw [Option.map_some, Option.toList_some, LastClause.node, Suite.node, otherwise, hss]
        rfl
    refine ⟨.if_ e ss second orElse, ?_⟩
    simp only [he, hss, hsecond, List.map_nil, List.nil_append, hlast, ok_bind, pure_eq_ok]
  | function => exact absurd (.inr (.inl rfl)) statement
  | class_ => exact absurd (.inr (.inr rfl)) statement

theorem not_isDefinition_of_dropWhile {ns : List Node} (h : DefinitionsFirst ns) :
    ∀ s ∈ ns.dropWhile isDefinition, ¬ s.IsDefinition := by
  obtain ⟨ds, ss, rfl, definitions, statements⟩ := h
  rw [List.dropWhile_append_of_pos fun d hd => isDefinition_iff.2 (definitions d hd)]
  exact fun s hs => statements s (List.dropWhile_subset _ hs)

theorem isDefinition_of_takeWhile {ns : List Node} :
    ∀ d ∈ ns.takeWhile isDefinition, d.IsDefinition :=
  fun d hd => isDefinition_iff.1 (List.all_eq_true.1 List.all_takeWhile d hd)

/-- A function that obeys the rules can be read. -/
theorem exists_funDef (written : tree.Written ts) (shape : IsStmt ts n)
    (kind : n.kind = .functionDefinition) (obeys : Obeys ts place n) :
    ∃ f, tree.funDef n = .ok f := by
  cases shape with
  | @function first stop first' stop' x ps result body hx hparams hresult _ hbody =>
    have typed : ∀ r ∈ result, r.kind = .typeDef := fun r hr => kind_of_isTypeDef (hresult r hr)
    have block : (Node.mk .functionDefinition first stop
        (x :: .mk .paramList first' stop' ps :: result.toList ++ [body.node])).block = body.stmts :=
      block_function (kind_of_isName hx) typed
    obtain ⟨definitionsFirst, only⟩ := obeys.here
    rw [block] at definitionsFirst only
    rw [funDef_eq (kind_of_isName hx) typed]
    have inside : ∀ s ∈ body.stmts, Obeys ts .inFunction s := fun s hs =>
      (obeys.inside (c := body.node) (by simp)).below (by simp [Suite.node]) hs
    obtain ⟨params, hps⟩ : ∃ params, ps.mapM tree.param = .ok params := exists_mapM fun p hp =>
      exists_param (hparams p hp) ((obeys.inside (c := .mk .paramList first' stop' ps) (by simp)).below
        (by simp) hp).admissible
    obtain ⟨ty, hty⟩ : ∃ ty, tree.result result = .ok ty := by
      cases result with
      | none => exact ⟨_, rfl⟩
      | some r => exact exists_type tree (hresult r rfl) (obeys.inside (by simp)).here
    obtain ⟨locals, hlocals⟩ :
        ∃ vs, (body.stmts.takeWhile isDefinition).mapM tree.localDef = .ok vs := by
      refine exists_mapM fun d hd => ?_
      have hs := List.takeWhile_subset _ hd
      have annotated := only d hs (isDefinition_of_takeWhile d hd)
      obtain ⟨v, hv⟩ := exists_varDef written (hbody d hs) annotated (inside d hs).admissible
      exact ⟨v, by simp only [localDef, annotated.1, hv]⟩
    obtain ⟨stmts, hstmts⟩ : ∃ ss,
        tree.statements .inFunction (body.stmts.dropWhile isDefinition) = .ok ss := by
      refine exists_statements fun s hs => ?_
      have hs' := List.dropWhile_subset _ hs
      exact exists_statement written (hbody s hs') (inside s hs')
        (not_isDefinition_of_dropWhile definitionsFirst s hs)
    refine ⟨⟨tree.text x, params, ty, locals, stmts⟩, ?_⟩
    simp only [hps, hty, hlocals, hstmts, ok_bind, pure_eq_ok]
  | _ => cases kind

theorem exists_member (written : tree.Written ts) (shape : IsStmt ts n) (obeys : Obeys ts place n)
    (isMember : n.kind = .passStatement ∨ n.IsAnnotated ∨ n.kind = .functionDefinition) :
    ∃ m, tree.member n = .ok m := by
  rcases isMember with kind | annotated | kind
  · exact ⟨none, by simp only [member, kind]⟩
  · obtain ⟨v, hv⟩ := exists_varDef written shape annotated obeys.admissible
    have isDef := isDefinition_iff.2 (.inl annotated)
    exact ⟨some (.inl v), by simp only [member, annotated.1, isDef, if_true, hv]; rfl⟩
  · obtain ⟨f, hf⟩ := exists_funDef written shape kind obeys
    exact ⟨some (.inr f), by simp only [member, kind, hf]; rfl⟩

/-- A class that obeys the rules can be read. -/
theorem exists_classDef (written : tree.Written ts) (shape : IsStmt ts n)
    (kind : n.kind = .classDefinition) (obeys : Obeys ts place n) :
    ∃ c, tree.classDef n = .ok c := by
  cases shape with
  | @class_ first stop x parents body hx hparents _ hbody =>
    rw [classDef_eq (kind_of_isName hx) fun p hp => kind_of_isArgList (hparents p hp)]
    obtain ⟨⟨p, first', stop', given, name⟩, only⟩ := obeys.here
    obtain ⟨members, hmembers⟩ : ∃ ms, body.stmts.mapM tree.member = .ok ms := exists_mapM fun s hs =>
      exists_member written (hbody s hs) (obeys_of_suite obeys (by simp) (by simp) s hs)
        (only s (mem_block_of_suite (by simp) hs))
    have isName := kind_of_isName hx
    obtain rfl : parents = some (.mk .argList first' stop' [p]) := by
      simp only [children_mk, List.cons_append, List.mem_cons, List.mem_append, Option.mem_toList,
        List.not_mem_nil, or_false] at given
      rcases given with rfl | given | given
      · cases isName
      · exact given
      · cases given
    have hparent : tree.parent (.mk .classDefinition first stop
        [x, .mk .argList first' stop' [p], body.node]) = .ok (tree.text p) :=
      (parent_eq_ok isName).2 ⟨p, rfl, name, rfl⟩
    refine ⟨⟨tree.text x, tree.text p, members.filterMap (·.bind Sum.getLeft?),
      members.filterMap (·.bind Sum.getRight?)⟩, ?_⟩
    simp only [Option.toList_some, List.cons_append, List.nil_append, hparent, hmembers, ok_bind,
      pure_eq_ok]
  | _ => cases kind

theorem exists_definition (written : tree.Written ts) (shape : IsStmt ts n)
    (isDef : n.IsDefinition) (obeys : Obeys ts place n) : ∃ d, tree.definition n = .ok d := by
  rcases isDef with annotated | kind | kind
  · obtain ⟨v, hv⟩ := exists_varDef written shape annotated obeys.admissible
    exact ⟨.var v, by simp only [definition, definitionWith, annotated.1, hv]; rfl⟩
  · obtain ⟨f, hf⟩ := exists_funDef written shape kind obeys
    exact ⟨.function f, by simp only [definition, definitionWith, kind, hf]; rfl⟩
  · obtain ⟨c, hc⟩ := exists_classDef written shape kind obeys
    exact ⟨.class_ c, by simp only [definition, definitionWith, kind, hc]; rfl⟩

/-- A program can be read from a legal tree. -/
theorem exists_program (written : tree.Written ts) {first stop : Nat} {ns : List Node}
    (root : tree.root = .mk .script first stop ns) (shape : ∀ n ∈ ns, IsStmt ts n)
    (legal : Legal ts tree.root) : ∃ p, tree.program = .ok p := by
  rw [root] at legal
  have obeys := legal_iff.1 legal
  have below : ∀ n ∈ ns, Obeys ts .topLevel n := fun n hn => obeys.below (by simp) hn
  obtain ⟨defs, hdefs⟩ : ∃ ds, (ns.takeWhile isDefinition).mapM tree.definition = .ok ds := by
    refine exists_mapM fun d hd => ?_
    have hd' := List.takeWhile_subset _ hd
    exact exists_definition written (shape d hd') (isDefinition_of_takeWhile d hd) (below d hd')
  obtain ⟨stmts, hstmts⟩ : ∃ ss,
      tree.statements .topLevel (ns.dropWhile isDefinition) = .ok ss := by
    refine exists_statements fun s hs => ?_
    have hs' := List.dropWhile_subset _ hs
    exact exists_statement written (shape s hs') (below s hs')
      (not_isDefinition_of_dropWhile obeys.here s hs)
  refine ⟨⟨defs, stmts⟩, ?_⟩
  rw [program, root]
  simp only [children_mk, hdefs, hstmts, ok_bind, pure_eq_ok]

end SourceTree

/-! ## §6 Legal trees -/

/-- A program can be read from the tree of a text exactly if the tree is legal, and the tree then
stands for that program: each of its statements, definitions, names, literals and operators is one
of the program, in order. -/
theorem program_read_iff_legal (source : List Char) (lexemes : List Lexeme) (tree : SourceTree)
    (lexed : lex source = .ok lexemes) (read : SourceTree.ofLexemes source lexemes = .ok tree) :
    ((∃ p, tree.program = .ok p) ↔ Node.Legal (lexemes.map (·.token)) tree.root) ∧
    ∀ p, tree.program = .ok p → ProgramAt (lexemes.map (·.token)) tree.root p := by
  obtain ⟨root, parsed, rfl⟩ := SourceTree.ofLexemes_eq_ok read
  have written := SourceTree.written_of_lex lexed root
  have shape := Node.isStmt_of_ofTokens parsed
  obtain ⟨statements⟩ := Grammar.ofTokens_iff_script.1 parsed
  have stands {p : Program} (h : SourceTree.program _ = .ok p) :=
    SourceTree.programAt_of_program written.toSpells rfl shape h
  exact ⟨⟨fun ⟨p, h⟩ => (stands h).legal, SourceTree.exists_program written rfl shape⟩,
    fun p h => stands h⟩

/-- A variable is defined, and a member of it is assigned to. -/
def memberText : List Char := "x: int = 1\nx.y = -f(x)\n".toList

def memberLexemes : List Lexeme :=
  [⟨.name "x", ⟨0, 1⟩⟩, ⟨.symbol .colon, ⟨1, 2⟩⟩, ⟨.name "int", ⟨3, 6⟩⟩, ⟨.symbol .assign, ⟨7, 8⟩⟩,
    ⟨.int "1", ⟨9, 10⟩⟩, ⟨.newline, ⟨10, 11⟩⟩, ⟨.name "x", ⟨11, 12⟩⟩, ⟨.symbol .dot, ⟨12, 13⟩⟩,
    ⟨.name "y", ⟨13, 14⟩⟩, ⟨.symbol .assign, ⟨15, 16⟩⟩, ⟨.symbol .minus, ⟨17, 18⟩⟩,
    ⟨.name "f", ⟨18, 19⟩⟩, ⟨.symbol .lparen, ⟨19, 20⟩⟩, ⟨.name "x", ⟨20, 21⟩⟩,
    ⟨.symbol .rparen, ⟨21, 22⟩⟩, ⟨.newline, ⟨22, 23⟩⟩]

def memberProgram : Program :=
  ⟨[.var ⟨"x", .int, .number 1⟩],
    [.assign (.member (.var none "x") "y") (.unary none .neg (.call none "f" [.var none "x"]))]⟩

theorem program_read_of_memberText :
    lex memberText = .ok memberLexemes ∧ ∃ tree,
      SourceTree.ofLexemes memberText memberLexemes = .ok tree ∧
      Node.Legal (memberLexemes.map (·.token)) tree.root ∧
      ProgramAt (memberLexemes.map (·.token)) tree.root memberProgram := by
  have lexed : lex memberText = .ok memberLexemes := by decide +kernel
  obtain ⟨tree, read, reads⟩ : ∃ tree, SourceTree.ofLexemes memberText memberLexemes = .ok tree ∧
      tree.program = .ok memberProgram := ⟨_, rfl, rfl⟩
  obtain ⟨legal, stands⟩ := program_read_iff_legal memberText memberLexemes tree lexed read
  exact ⟨lexed, tree, read, legal.1 ⟨_, reads⟩, stands _ reads⟩

end Serpent
