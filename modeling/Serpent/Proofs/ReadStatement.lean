/-
Serpent.Proofs.ReadStatement — the tokens of statements and definitions are read as they are.

What stands in a block is a sequence of items: statements, and definitions where the block may hold
them. A conditional takes all clauses that follow it, so an item is read before tokens that are not
a clause; no item starts with one, and a block ends with its mark.

  §1 Optional parts
  §2 Items and blocks
  §3 Statements on one line
  §4 Statements with blocks
-/
import Serpent.Proofs.ReadExpression

namespace Serpent

open Fallible SourceTree

namespace Rule

/-! ## §1 Optional parts -/

section

variable {α : Type} {ts : List Token} {i : Nat} {used rest : List Token}

theorem takes_optional_some {t : Token} {r : Rule α} {P : α → Prop}
    (h : Takes ts i (t :: used) rest r P) :
    Takes ts i (t :: used) rest (optional t r) fun o => ∃ a, o = some a ∧ P a := by
  refine takes_peek ?_
  rw [List.cons_append, List.head?_cons, if_pos rfl]
  exact h.last fun a ha => takes_pure ⟨a, rfl, ha⟩

theorem takes_optional_none {t : Token} {r : Rule α} (h : rest.head? ≠ some t) :
    Takes ts i [] rest (optional t r) fun o => o = none := by
  refine takes_peek ?_
  rw [List.nil_append, if_neg h]
  exact takes_pure rfl

/-- What a rule takes has the shape that the rule gives to all that it reads. -/
theorem Takes.and_shape {r : Rule α} {P Q : α → Prop} (h : Takes ts i used rest r P)
    (shape : Reads ts ⟨i, used ++ rest⟩ r Q) :
    Takes ts i used rest r fun a => P a ∧ Q a := by
  intro at_index
  obtain ⟨a, hr, ha⟩ := h at_index
  exact ⟨a, hr, ha, (shape at_index.symm a _ hr).1⟩

end

/-! ## §2 Items and blocks -/

/-- The tokens start as an item of a block does, and not as a clause or the end of the block. -/
def StartsItem (us : List Token) : Prop :=
  ∃ t ∈ us.head?, t ≠ .dedent ∧ t ≠ .keyword .elif ∧ t ≠ .keyword .else_

/-- No clause follows. -/
def NoClause (rest : List Token) : Prop :=
  ∀ t ∈ rest.head?, t ≠ .keyword .elif ∧ t ≠ .keyword .else_

theorem StartsItem.append {us : List Token} (h : StartsItem us) (vs : List Token) :
    StartsItem (us ++ vs) := by
  obtain ⟨t, ht, item⟩ := h
  cases us with
  | nil => cases ht
  | cons u us => exact ⟨t, ht, item⟩

theorem StartsItem.noClause {us : List Token} (h : StartsItem us) (rest : List Token) :
    NoClause (us ++ rest) := by
  obtain ⟨t, ht, -, elif, else_⟩ := h
  cases us with
  | nil => cases ht
  | cons u us =>
    cases ht
    rintro _ ⟨⟩
    exact ⟨elif, else_⟩

/-- The tokens `us` are read as an item that `P` admits. -/
structure IsItem (us : List Token) (P : List Token → Node → Prop) : Prop where
  starts : StartsItem us
  takes : ∀ ts i rest fuel, us.length ≤ fuel → NoClause rest →
    Takes ts i us rest (statement fuel) (P ts)

theorem IsItem.imp {us : List Token} {P Q : List Token → Node → Prop} (h : IsItem us P)
    (imp : ∀ ts n, P ts n → Q ts n) : IsItem us Q where
  starts := h.starts
  takes ts i rest fuel bound clauses := (h.takes ts i rest fuel bound clauses).imp (imp ts)

theorem IsItem.length_pos {us : List Token} {P : List Token → Node → Prop} (h : IsItem us P) :
    0 < us.length := by
  obtain ⟨t, ht, -⟩ := h.starts
  cases us with
  | nil => cases ht
  | cons u us => simp

section Items

variable {α : Type} {tokens : α → List Token} {P : α → List Token → Node → Prop} {xs : List α}

/-- Items, and then the end of the block or of the script. -/
theorem noClause_items (h : ∀ x ∈ xs, IsItem (tokens x) (P x)) {rest : List Token}
    (ended : ∀ t ∈ rest.head?, t = .dedent) : NoClause (xs.flatMap tokens ++ rest) := by
  cases xs with
  | nil =>
    intro t ht
    simp [ended t ht]
  | cons x xs =>
    rw [List.flatMap_cons, List.append_assoc]
    exact (h x (by simp)).starts.noClause _

theorem statements_succ {fuel i : Nat} {us : List Token} (h : StartsItem us) :
    statements (fuel + 1) ⟨i, us⟩ =
      (do
        let stmt ← statement fuel
        return stmt :: (← statements fuel)) ⟨i, us⟩ := by
  obtain ⟨t, ht, dedent, -⟩ := h
  cases us with
  | nil => cases ht
  | cons u us =>
    cases ht
    cases t with
    | dedent => exact absurd rfl dedent
    | _ => rfl

theorem takes_statements (h : ∀ x ∈ xs, IsItem (tokens x) (P x)) {ts rest : List Token}
    {i fuel : Nat} (bound : (xs.flatMap tokens).length + 1 ≤ fuel)
    (ended : ∀ t ∈ rest.head?, t = .dedent) :
    Takes ts i (xs.flatMap tokens) rest (statements fuel) fun ns =>
      List.Forall₂ (fun x n => P x ts n) xs ns := by
  induction xs generalizing i fuel with
  | nil =>
    obtain ⟨fuel, rfl⟩ : ∃ k, fuel = k + 1 := ⟨fuel - 1, by omega⟩
    refine takes_peek ?_
    rw [List.flatMap_nil, List.nil_append]
    cases rest with
    | nil => exact takes_pure .nil
    | cons t rest =>
      obtain rfl := ended t rfl
      exact takes_pure .nil
  | cons x xs ih =>
    have item := h x (by simp)
    have pos := item.length_pos
    have more : ∀ y ∈ xs, IsItem (tokens y) (P y) := fun y hy => h y (by simp [hy])
    rw [List.flatMap_cons, List.length_append] at bound
    obtain ⟨fuel, rfl⟩ : ∃ k, fuel = k + 1 := ⟨fuel - 1, by omega⟩
    rw [List.flatMap_cons]
    refine Takes.congr ?_ (statements_succ ((item.starts.append _).append _))
    refine (item.takes ts i _ fuel (by omega) (noClause_items more ended)).bind fun n hn => ?_
    exact (ih more (by omega)).last fun ns hns => takes_pure (.cons hn hns)

/-- The node is a suite of the items. -/
def IsSuiteOf (P : α → List Token → Node → Prop) (xs : List α) (ts : List Token) (n : Node) :
    Prop :=
  ∃ suite : Node.Suite, n = suite.node ∧ List.Forall₂ (fun x n => P x ts n) xs suite.stmts

/-- An indented block of items, at least one. -/
theorem takes_body (h : ∀ x ∈ xs, IsItem (tokens x) (P x)) (some_item : xs ≠ [])
    {ts rest : List Token} {i fuel : Nat} (bound : (suite (xs.flatMap tokens)).length ≤ fuel) :
    Takes ts i (suite (xs.flatMap tokens)) rest (body fuel) (IsSuiteOf P xs ts) := by
  cases xs with
  | nil => exact absurd rfl some_item
  | cons x xs =>
    have item := h x (by simp)
    have more : ∀ y ∈ xs, IsItem (tokens y) (P y) := fun y hy => h y (by simp [hy])
    simp only [suite, List.flatMap_cons, List.length_append, List.length_cons,
      List.length_nil, List.cons_append, List.append_assoc] at bound ⊢
    obtain ⟨fuel, rfl⟩ : ∃ k, fuel = k + 1 := ⟨fuel - 1, by omega⟩
    have ended : ∀ t ∈ (Token.dedent :: rest).head?, t = .dedent := by
      rintro t ⟨⟩
      rfl
    have clauses : NoClause (xs.flatMap tokens ++ [Token.dedent] ++ rest) := by
      rw [List.append_assoc]
      exact noClause_items more ended
    refine takes_here ((takes_expect _).cons fun _ _ => takes_peek ?_)
    refine takes_advance.cons fun _ _ => (takes_expect _).cons fun _ _ => ?_
    refine (item.takes ts _ _ fuel (by omega) clauses).bind fun n hn => ?_
    refine (takes_statements more (by omega) ended).bind fun ns hns => ?_
    refine (takes_expect _).last fun _ _ => takes_close.imp ?_
    rintro _ rfl
    exact ⟨⟨_, _, n :: ns⟩, rfl, .cons hn hns⟩

end Items

/-! ## §3 Statements on one line -/

/-- In every tree over the tokens, the node is read as the statement. -/
def StatesIn (place : Place) (s : Stmt) (ts : List Token) (n : Node) : Prop :=
  isDefinition n = false ∧ ∀ tree : SourceTree, tree.Spells ts → tree.statement place n = .ok s

/-- In every tree over the tokens, the node is read as the target. -/
def Targets (t : Target) (ts : List Token) (n : Node) : Prop :=
  ∀ tree : SourceTree, tree.Spells ts → tree.target n = .ok t

theorem isExpression_target {t : Target} (h : t.isCanonical = true) :
    IsExpression 0 t.tokens (Targets t) := by
  cases t with
  | var x =>
    have name : IsOperand [.name x] (IsLeaf .variableName (.name x)) := isOperand_leaf rfl
    refine (name.imp ?_).isExpression 0
    rintro ts _ ⟨i, rfl, at_index⟩ tree spells
    change Except.ok (Target.var (tree.text (.mk .variableName i (i + 1) []))) = _
    rw [spells.name_leaf at_index]
  | member o m =>
    simp only [Target.isCanonical, Bool.and_eq_true] at h
    refine (((isOperand_receiver (reads_expr h.1)).member m).imp ?_).isExpression 0
    rintro ts _ ⟨first, stop, object, _, rfl, stands, i, rfl, at_index⟩ tree spells
    rw [target, stands tree spells, spells.name_leaf at_index]
    rfl

theorem startsItem_of_starts {us : List Token} (h : Starts us) : StartsItem us := by
  obtain ⟨t, ht, start⟩ := h
  refine ⟨t, ht, ?_, ?_, ?_⟩
  all_goals
    rintro rfl
    cases start

/-- A statement that starts as an expression does is an assignment or an expression. -/
theorem statement_assignment {fuel i : Nat} {us : List Token} (h : Starts us) :
    statement (fuel + 1) ⟨i, us⟩ =
      (do
        let stmt ← assignment
        expect .newline
        return stmt) ⟨i, us⟩ := by
  obtain ⟨t, ht, start⟩ := h
  cases us with
  | nil => cases ht
  | cons u us =>
    cases ht
    cases t with
    | keyword k => cases k <;> first | rfl | cases start
    | _ => rfl

theorem ends_newline {rest : List Token} : Ends (.newline :: rest) :=
  ends_of_head (by simp) (by simp) rfl

/-- A line that is read as an assignment or an expression. -/
theorem isItem_assignment {us : List Token} {P : List Token → Node → Prop} (starts : Starts us)
    (h : ∀ ts i rest, Takes ts i us (.newline :: rest) assignment (P ts)) :
    IsItem (us ++ [Token.newline]) P where
  starts := startsItem_of_starts (starts.append _)
  takes ts i rest fuel bound _ := by
    rw [List.length_append, List.length_singleton] at bound
    obtain ⟨fuel, rfl⟩ : ∃ k, fuel = k + 1 := ⟨fuel - 1, by omega⟩
    refine Takes.congr ?_ (statement_assignment ((starts.append _).append _))
    exact (h ts i rest).bind fun n hn => (takes_expect _).last fun _ _ => takes_pure hn

theorem isItem_expr {place : Place} {e : Expr} (h : e.isCanonical = true) :
    IsItem (e.tokens ++ [Token.newline]) (StatesIn place (.expr e)) := by
  refine isItem_assignment (starts_tokens e) fun ts i rest => takes_here ?_
  refine (takes_expression (reads_expr h).2 ends_newline).last fun n stands => ?_
  refine (takes_optional_none (by simp)).last ?_
  rintro _ rfl
  refine (takes_optional_none (by simp)).last ?_
  rintro _ rfl
  refine takes_close.imp ?_
  rintro _ rfl
  refine ⟨rfl, fun tree spells => ?_⟩
  rw [SourceTree.statement, stands tree spells]
  rfl

theorem starts_target (t : Target) : Starts t.tokens := by
  cases t with
  | var x => exact ⟨_, rfl, rfl⟩
  | member o m => exact ((starts_tokens o).parenthesized _).append _

/-- An expression that is read has the shape of expressions too. -/
theorem takes_shaped {us : List Token} {P : List Token → Node → Prop} (h : IsExpression 0 us P)
    {ts rest : List Token} {i : Nat} (ends : Ends rest) :
    Takes ts i us rest expression fun n => P ts n ∧ Node.IsExpr ts n :=
  (takes_expression h ends).and_shape reads_expression

/-- The value behind the sign of an assignment. -/
theorem takes_initialValue {us : List Token} {P : List Token → Node → Prop}
    (h : IsExpression 0 us P) {ts rest : List Token} {i : Nat} (ends : Ends rest) :
    Takes ts i (.symbol .assign :: us) rest initialValue fun n => P ts n ∧ Node.IsExpr ts n :=
  (takes_expect _).cons fun _ _ => takes_shaped h ends

theorem ends_assign {rest : List Token} : Ends (.symbol .assign :: rest) :=
  ends_of_head (by simp) (by simp) rfl

theorem isItem_assign {place : Place} {t : Target} {e : Expr} (ht : t.isCanonical = true)
    (he : e.isCanonical = true) :
    IsItem (t.tokens ++ .symbol .assign :: e.tokens ++ [Token.newline])
      (StatesIn place (.assign t e)) := by
  refine isItem_assignment ((starts_target t).append _) fun ts i rest => takes_here ?_
  refine (takes_shaped (isExpression_target ht) ends_assign).bind fun n ⟨targets, isExpr⟩ => ?_
  refine (takes_optional_none (by simp)).skip ?_
  rintro _ rfl
  refine (takes_optional_some (takes_initialValue (reads_expr he).2 ends_newline)).last ?_
  rintro _ ⟨v, rfl, stands, isValue⟩
  refine takes_close.imp ?_
  rintro _ rfl
  refine ⟨isDefinition_assign isExpr isValue, fun tree spells => ?_⟩
  simp only [SourceTree.statement, Option.toList, List.cons_append, List.nil_append,
    isDefinition_assign isExpr isValue, targets tree spells, stands tree spells]
  rfl

/-- In every tree over the tokens, the node is read as the definition of the variable. -/
def DefinesVar (v : VarDef) (ts : List Token) (n : Node) : Prop :=
  n.kind = .assignStatement ∧ isDefinition n = true ∧
    ∀ tree : SourceTree, tree.Spells ts → tree.varDef n = .ok v

/-- The kind of the leaf of a type. -/
def typeKind : Ty → Kind
  | .none => .none
  | _ => .variableName

theorem isExpression_type (ty : Ty) :
    IsExpression 0 [ty.token] (IsLeaf (typeKind ty) ty.token) := by
  refine (isOperand_leaf ?_).isExpression 0
  cases ty <;> rfl

/-- The node is read as the type. -/
def Types (ty : Ty) (ts : List Token) (n : Node) : Prop :=
  n.kind = .typeDef ∧ ∀ tree : SourceTree, tree.Spells ts → tree.type n = .ok ty

/-- A type is read from its name. -/
theorem type_variableName (tree : SourceTree) (first stop i : Nat) :
    tree.type (.mk .typeDef first stop [.mk .variableName i (i + 1) []]) =
      match tree.text (.mk .variableName i (i + 1) []) with
      | "int" => .ok .int
      | "bool" => .ok .bool
      | c => .ok (.object c) :=
  rfl

/-- The name of a type in a tree is read as the type. -/
theorem type_of_isLeaf {ty : Ty} (h : ty.isCanonical = true) {ts : List Token} {leaf : Node}
    (isLeaf : IsLeaf (typeKind ty) ty.token ts leaf) {tree : SourceTree}
    (spells : tree.Spells ts) (first stop : Nat) :
    tree.type (.mk .typeDef first stop [leaf]) = .ok ty := by
  obtain ⟨i, rfl, at_index⟩ := isLeaf
  have name {x : String} (at_index : ts[i]? = some (.name x)) :
      tree.text (.mk .variableName i (i + 1) []) = x := spells.name_leaf at_index
  cases ty with
  | none => rfl
  | int =>
    refine (type_variableName tree first stop i).trans ?_
    rw [name at_index]
    rfl
  | bool =>
    refine (type_variableName tree first stop i).trans ?_
    rw [name at_index]
    rfl
  | object c =>
    refine (type_variableName tree first stop i).trans ?_
    rw [name at_index]
    simp only [Ty.isCanonical, Bool.and_eq_true, bne_iff_ne] at h
    split
    · exact absurd rfl h.1.2
    · exact absurd rfl h.2
    · rfl

theorem takes_typeAfter {ty : Ty} (h : ty.isCanonical = true) (mark : Symbol)
    {ts rest : List Token} {i : Nat} (ends : Ends rest) :
    Takes ts i [.symbol mark, ty.token] rest (typeAfter mark) (Types ty ts) := by
  refine takes_here ((takes_expect _).cons fun _ _ => ?_)
  refine (takes_expression (isExpression_type ty) ends).last fun leaf isLeaf => ?_
  refine takes_close.imp ?_
  rintro _ rfl
  exact ⟨rfl, fun tree spells => type_of_isLeaf h isLeaf spells _ _⟩

theorem ends_colon {rest : List Token} : Ends (.symbol .colon :: rest) :=
  ends_of_head (by simp) (by simp) rfl

theorem isItem_varDef {v : VarDef} (h : v.isCanonical = true) :
    IsItem (v.tokens ++ [Token.newline]) (DefinesVar v) := by
  simp only [VarDef.isCanonical, Bool.and_eq_true] at h
  obtain ⟨⟨hname, hty⟩, hvalue⟩ := h
  have target : IsExpression 0 [.name v.name] (IsLeaf .variableName (.name v.name)) :=
    (isOperand_leaf rfl).isExpression 0
  have value : IsExpression 0 [v.value.token] (IsLeaf (literalKind v.value) v.value.token) :=
    (isOperand_leaf (atomKind?_literal v.value)).isExpression 0
  refine isItem_assignment ⟨_, rfl, rfl⟩ fun ts i rest => takes_here ?_
  refine Takes.cons (takes_expression target ends_colon) ?_
  rintro _ ⟨j, rfl, at_index⟩
  have type : Takes ts (i + 1) [.symbol .colon, v.ty.token]
      ([.symbol .assign, v.value.token] ++ Token.newline :: rest) _ _ :=
    takes_optional_some (takes_typeAfter hty .colon ends_assign)
  refine type.bind ?_
  rintro _ ⟨type, rfl, kind, types⟩
  refine (takes_optional_some (takes_initialValue value ends_newline)).last ?_
  rintro _ ⟨leaf, rfl, isLeaf, -⟩
  refine takes_close.imp ?_
  rintro _ rfl
  refine ⟨rfl, ?_, fun tree spells => ?_⟩
  · simp [isDefinition, Node.child?, kind]
  · have literal := literal_of_isLeaf hvalue isLeaf spells
    obtain ⟨k, rfl, -⟩ := isLeaf
    have initializer : tree.initializer (.mk (literalKind v.value) k (k + 1) []) = .ok v.value := by
      rw [← literal]
      cases v.value <;> rfl
    simp [varDef, types tree spells, initializer, spells.name_leaf at_index]

theorem isItem_pass {P : List Token → Node → Prop}
    (h : ∀ ts i, P ts (.mk .passStatement i (i + 1) [])) :
    IsItem [.keyword .pass, .newline] P where
  starts := ⟨_, rfl, by simp⟩
  takes ts i rest fuel bound _ := by
    rw [List.length_cons, List.length_singleton] at bound
    obtain ⟨fuel, rfl⟩ : ∃ k, fuel = k + 1 := ⟨fuel - 1, by omega⟩
    refine takes_here (takes_peek (takes_peek (takes_leaf.cons ?_)))
    rintro _ ⟨rfl, -⟩
    exact (takes_expect _).last fun _ _ => takes_pure (h ts i)

theorem isItem_return {e : Expr} (h : e.isCanonical = true) :
    IsItem (.keyword .return_ :: e.tokens ++ [Token.newline])
      (StatesIn .inFunction (.return_ e)) where
  starts := ⟨_, rfl, by simp⟩
  takes ts i rest fuel bound _ := by
    simp only [List.length_append, List.length_cons, List.length_nil] at bound
    obtain ⟨fuel, rfl⟩ : ∃ k, fuel = k + 1 := ⟨fuel - 1, by omega⟩
    have behind : (e.tokens ++ Token.newline :: rest).head? ≠ some .newline := by
      obtain ⟨t, ht, start⟩ := (starts_tokens e).append (.newline :: rest)
      rw [Option.mem_def.1 ht]
      rintro ⟨⟩
      cases start
    have stmt : Takes ts i (.keyword .return_ :: e.tokens) (.newline :: rest) returned
        (StatesIn .inFunction (.return_ e) ts) := by
      refine takes_here ((takes_expect _).cons fun _ _ => takes_peek ?_)
      rw [if_neg behind]
      refine (takes_expression (reads_expr h).2 ends_newline).last fun n stands => ?_
      refine takes_close.imp ?_
      rintro _ rfl
      refine ⟨rfl, fun tree spells => ?_⟩
      rw [SourceTree.statement, stands tree spells]
      rfl
    refine takes_here (takes_peek (takes_peek ?_))
    exact stmt.bind fun n hn => (takes_expect _).last fun _ _ => takes_pure hn

/-! ## §4 Statements with blocks -/

theorem listTokens_eq (ss : List Stmt) : Stmt.listTokens ss = ss.flatMap Stmt.tokens := by
  induction ss with
  | nil => rfl
  | cons s ss ih => rw [Stmt.listTokens, ih, List.flatMap_cons]

/-- Statements in order are read from nodes in order. -/
theorem statements_of_forall₂ {place : Place} {ss : List Stmt} {ns : List Node} {ts : List Token}
    (h : List.Forall₂ (fun s n => StatesIn place s ts n) ss ns) {tree : SourceTree}
    (spells : tree.Spells ts) : tree.statements place ns = .ok ss := by
  induction h with
  | nil => rfl
  | cons first _ ih =>
    rw [SourceTree.statements, first.2 tree spells, ih]
    rfl

/-- A body that is not empty, behind a colon. -/
theorem takes_block {place : Place} {ss : List Stmt} (some_stmt : ss ≠ [])
    (h : ∀ s ∈ ss, IsItem s.tokens (StatesIn place s)) {ts rest : List Token} {i fuel : Nat}
    (bound : (suite (Stmt.listTokens ss)).length ≤ fuel) :
    Takes ts i (suite (Stmt.listTokens ss)) rest (body fuel) fun n =>
      ∃ first stop ns, n = .mk .body first stop ns ∧
        ∀ tree : SourceTree, tree.Spells ts → tree.statements place ns = .ok ss := by
  rw [listTokens_eq] at bound ⊢
  refine (takes_body h some_stmt bound).imp ?_
  rintro _ ⟨block, rfl, items⟩
  exact ⟨_, _, _, rfl, fun tree spells => statements_of_forall₂ items spells⟩

theorem isItem_while {place : Place} {c : Expr} {ss : List Stmt} (hc : c.isCanonical = true)
    (some_stmt : ss ≠ []) (h : ∀ s ∈ ss, IsItem s.tokens (StatesIn place s)) :
    IsItem (Stmt.while_ c ss).tokens (StatesIn place (.while_ c ss)) where
  starts := ⟨_, rfl, by simp⟩
  takes ts i rest fuel bound _ := by
    simp only [Stmt.tokens, List.cons_append, List.length_cons, List.length_append] at bound ⊢
    obtain ⟨fuel, rfl⟩ : ∃ k, fuel = k + 1 := ⟨fuel - 1, by omega⟩
    refine takes_here (takes_peek (takes_advance.cons fun _ _ => ?_))
    refine (takes_expression (reads_expr hc).2 ends_colon).bind fun cond stands => ?_
    refine (takes_block some_stmt h (by omega)).last ?_
    rintro _ ⟨first, stop, ns, rfl, stmts⟩
    refine takes_close.imp ?_
    rintro _ rfl
    refine ⟨rfl, fun tree spells => ?_⟩
    rw [SourceTree.statement, stands tree spells, ok_bind, stmts tree spells]
    rfl

/-- The nodes are the `elif` clause, or there is none. -/
def IsElif (place : Place) : Option (Expr × List Stmt) → List Token → List Node → Prop
  | none, _, ns => ns = []
  | some (c, ss), ts, ns => ∃ first stop cond first' stop' body,
      ns = [.mk .elifClause first stop [cond, .mk .body first' stop' body]] ∧
        StandsFor c ts cond ∧
        ∀ tree : SourceTree, tree.Spells ts → tree.statements place body = .ok ss

/-- The node is the `else` clause, or there is none. -/
def IsElse (place : Place) : Option (List Stmt) → List Token → Option Node → Prop
  | none, _, n => n = none
  | some ss, ts, n => ∃ first stop first' stop' body,
      n = some (.mk .elseClause first stop [.mk .body first' stop' body]) ∧
        ∀ tree : SourceTree, tree.Spells ts → tree.statements place body = .ok ss

theorem elifClauses_end {fuel i : Nat} {rest : List Token}
    (h : rest.head? ≠ some (.keyword .elif)) :
    elifClauses (fuel + 1) ⟨i, rest⟩ = .ok ([], ⟨i, rest⟩) := by
  cases rest with
  | nil => rfl
  | cons t rest =>
    cases t with
    | keyword k =>
      cases k
      case elif => exact absurd rfl h
      all_goals rfl
    | _ => rfl

theorem takes_elifClauses {place : Place} {elif : Option (Expr × List Stmt)}
    (h : ∀ e ∈ elif, e.1.isCanonical = true ∧ e.2 ≠ [] ∧
      ∀ s ∈ e.2, IsItem s.tokens (StatesIn place s)) {ts rest : List Token} {i fuel : Nat}
    (bound : (Stmt.elifTokens elif).length + 1 ≤ fuel)
    (clauses : rest.head? ≠ some (.keyword .elif)) :
    Takes ts i (Stmt.elifTokens elif) rest (elifClauses fuel) (IsElif place elif ts) := by
  obtain ⟨fuel, rfl⟩ : ∃ k, fuel = k + 1 := ⟨fuel - 1, by omega⟩
  rcases elif with _ | ⟨c, ss⟩
  · exact fun _ => ⟨[], elifClauses_end clauses, rfl⟩
  · obtain ⟨hc, some_stmt, hss⟩ : c.isCanonical = true ∧ ss ≠ [] ∧
        ∀ s ∈ ss, IsItem s.tokens (StatesIn place s) := h (c, ss) rfl
    simp only [Stmt.elifTokens, List.cons_append, List.length_cons, List.length_append] at bound ⊢
    obtain ⟨fuel, rfl⟩ : ∃ k, fuel = k + 1 := ⟨fuel - 1, by omega⟩
    refine takes_peek (takes_here (takes_advance.cons fun _ _ => ?_))
    refine (takes_expression (reads_expr hc).2 ends_colon).bind fun cond stands => ?_
    refine (takes_block some_stmt hss (by omega)).last ?_
    rintro _ ⟨first, stop, body, rfl, stmts⟩
    refine takes_close.last ?_
    rintro _ rfl
    refine Takes.last (fun _ => ⟨[], elifClauses_end clauses, rfl⟩) ?_
    rintro _ rfl
    exact takes_pure ⟨_, _, cond, _, _, body, rfl, stands, stmts⟩

theorem takes_elseClause {place : Place} {orElse : Option (List Stmt)}
    (h : ∀ ss ∈ orElse, ss ≠ [] ∧ ∀ s ∈ ss, IsItem s.tokens (StatesIn place s))
    {ts rest : List Token} {i fuel : Nat} (bound : (Stmt.elseTokens orElse).length ≤ fuel)
    (clauses : rest.head? ≠ some (.keyword .else_)) :
    Takes ts i (Stmt.elseTokens orElse) rest (optional (.keyword .else_) (elseClause fuel))
      (IsElse place orElse ts) := by
  cases orElse with
  | none => exact takes_optional_none clauses
  | some ss =>
    obtain ⟨some_stmt, hss⟩ := h ss rfl
    simp only [Stmt.elseTokens, List.length_cons] at bound ⊢
    obtain ⟨fuel, rfl⟩ : ∃ k, fuel = k + 1 := ⟨fuel - 1, by omega⟩
    refine (takes_optional_some (P := fun n => ∃ first stop first' stop' body,
      n = .mk .elseClause first stop [.mk .body first' stop' body] ∧
        ∀ tree : SourceTree, tree.Spells ts → tree.statements place body = .ok ss) ?_).imp ?_
    · refine takes_here ((takes_expect _).cons fun _ _ => ?_)
      refine (takes_block some_stmt hss (by omega)).last ?_
      rintro _ ⟨first, stop, body, rfl, stmts⟩
      exact takes_close.imp fun n hn => ⟨_, _, _, _, body, hn, stmts⟩
    · rintro _ ⟨_, rfl, first, stop, first', stop', body, rfl, stmts⟩
      exact ⟨_, _, _, _, body, rfl, stmts⟩

/-- The branches behind the first one, in a tree over the tokens. -/
theorem otherwise_of_isElse {place : Place} {orElse : Option (List Stmt)} {ts : List Token}
    {last : Option Node} (h : IsElse place orElse ts last) {tree : SourceTree}
    (spells : tree.Spells ts) : tree.otherwise place last.toList = .ok orElse := by
  cases orElse with
  | none =>
    obtain rfl : last = none := h
    rfl
  | some ss =>
    obtain ⟨first, stop, first', stop', body, rfl, stmts⟩ := h
    rw [Option.toList_some, otherwise, stmts tree spells]
    rfl

theorem isItem_if {place : Place} {c : Expr} {ss : List Stmt} {elif : Option (Expr × List Stmt)}
    {orElse : Option (List Stmt)} (hc : c.isCanonical = true) (some_stmt : ss ≠ [])
    (hss : ∀ s ∈ ss, IsItem s.tokens (StatesIn place s))
    (helif : ∀ e ∈ elif, e.1.isCanonical = true ∧ e.2 ≠ [] ∧
      ∀ s ∈ e.2, IsItem s.tokens (StatesIn place s))
    (helse : ∀ ss ∈ orElse, ss ≠ [] ∧ ∀ s ∈ ss, IsItem s.tokens (StatesIn place s)) :
    IsItem (Stmt.if_ c ss elif orElse).tokens (StatesIn place (.if_ c ss elif orElse)) where
  starts := ⟨_, rfl, by simp⟩
  takes ts i rest fuel bound clauses := by
    have noElse : rest.head? ≠ some (.keyword .else_) := fun h => (clauses _ h).2 rfl
    have noElif : (Stmt.elseTokens orElse ++ rest).head? ≠ some (.keyword .elif) := by
      cases orElse with
      | none => exact fun h => (clauses _ h).1 rfl
      | some ss => simp [Stmt.elseTokens]
    have colon : 4 ≤ (suite (Stmt.listTokens ss)).length := by simp [suite]
    simp only [Stmt.tokens, List.cons_append, List.append_assoc, List.length_cons,
      List.length_append] at bound ⊢
    obtain ⟨fuel, rfl⟩ : ∃ k, fuel = k + 1 := ⟨fuel - 1, by omega⟩
    refine takes_here (takes_peek (takes_advance.cons fun _ _ => ?_))
    refine (takes_expression (reads_expr hc).2 ends_colon).bind fun cond stands => ?_
    refine (takes_block some_stmt hss (by omega)).bind ?_
    rintro _ ⟨first, stop, body, rfl, stmts⟩
    refine (takes_elifClauses helif (by omega) noElif).bind fun elifs helifs => ?_
    refine (takes_elseClause helse (by omega) noElse).last fun last hlast => ?_
    refine takes_close.imp ?_
    rintro _ rfl
    refine ⟨rfl, fun tree spells => ?_⟩
    have behind := otherwise_of_isElse hlast spells
    rcases elif with _ | ⟨c', ss'⟩
    · obtain rfl : elifs = [] := helifs
      have step : ∀ first' stop', tree.statement place
          (.mk .ifStatement first' stop' (cond :: .mk .body first stop body :: last.toList)) = (do
            let c ← tree.expr cond
            let ss ← tree.statements place body
            return .if_ c ss none (← tree.otherwise place last.toList)) := by
        intro first' stop'
        cases orElse with
        | none =>
          obtain rfl : last = none := hlast
          rfl
        | some ss =>
          obtain ⟨_, _, _, _, _, rfl, -⟩ := hlast
          rfl
      exact (step _ _).trans (by
        rw [stands tree spells, stmts tree spells, behind]
        rfl)
    · obtain ⟨_, _, cond', _, _, body', rfl, stands', stmts'⟩ := helifs
      have step : ∀ a b a' b' d e, tree.statement place (.mk .ifStatement a b
          (cond :: .mk .body first stop body :: .mk .elifClause a' b'
            [cond', .mk .body d e body'] :: last.toList)) = (do
            let c ← tree.expr cond
            let ss ← tree.statements place body
            let c' ← tree.expr cond'
            let ss' ← tree.statements place body'
            return .if_ c ss (some (c', ss')) (← tree.otherwise place last.toList)) := by
        intros
        rfl
      exact (step _ _ _ _ _ _).trans (by
        rw [stands tree spells, stmts tree spells, stands' tree spells, stmts' tree spells, behind]
        rfl)

/-- The tokens of every canonical statement are read as it. -/
theorem isItem_stmt {place : Place} {s : Stmt}
    (h : s.isCanonical (place == .inFunction) = true) : IsItem s.tokens (StatesIn place s) := by
  induction s with
  | pass => exact isItem_pass fun _ _ => ⟨rfl, fun _ _ => rfl⟩
  | assign t e =>
    simp only [Stmt.isCanonical, Bool.and_eq_true] at h
    exact isItem_assign h.1 h.2
  | expr e => exact isItem_expr h
  | return_ e =>
    simp only [Stmt.isCanonical, Bool.and_eq_true, beq_iff_eq] at h
    obtain ⟨rfl, he⟩ := h
    exact isItem_return he
  | while_ c body ih =>
    simp only [Stmt.isCanonical, Bool.and_eq_true, Stmt.isCanonicalBody_iff,
      Stmt.areCanonical_iff] at h
    obtain ⟨hc, some_stmt, hbody⟩ := h
    exact isItem_while hc some_stmt fun s hs => ih s hs (hbody s hs)
  | if_ c body elif orElse ihbody ihelif ihelse =>
    simp only [Stmt.isCanonical_if_iff, Stmt.isCanonicalBody_iff, Stmt.areCanonical_iff] at h
    obtain ⟨hc, ⟨some_stmt, hbody⟩, helif, helse⟩ := h
    refine isItem_if hc some_stmt (fun s hs => ihbody s hs (hbody s hs)) ?_ ?_
    · intro e he
      obtain ⟨hcond, some_stmt', hbody'⟩ := helif e he
      exact ⟨hcond, some_stmt', fun s hs => ihelif e he s hs (hbody' s hs)⟩
    · intro b hb
      obtain ⟨some_stmt', hbody'⟩ := helse b hb
      exact ⟨some_stmt', fun s hs => ihelse b hb s hs (hbody' s hs)⟩

end Rule

end Serpent
