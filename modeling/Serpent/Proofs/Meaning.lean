/-
Serpent.Proofs.Meaning — the program that a tree stands for.

A tree over tokens stands for a program part by part: each name, literal and operator of the program
is written by the token of a leaf, and each statement and definition of the tree is one of the
program, in the same order. What the tree may not hold stands for nothing. The program that is read
from a tree is the one that the tree stands for.

  §1 Leaves
  §2 Expressions
  §3 Variables, types and parameters
  §4 Statements
  §5 Functions, classes and programs
  §6 Expressions as they are read
  §7 Statements as they are read
  §8 Programs as they are read
-/
import Serpent.Proofs.Relocation
import Serpent.Proofs.Spelling

namespace Serpent

open Fallible Node

/-! ## §1 Leaves -/

/-- The name at a leaf. -/
inductive NameAt (ts : List Token) : Node → String → Prop
  | mk {i : Nat} {x : String} (token : ts[i]? = some (.name x)) :
      NameAt ts (.mk .variableName i (i + 1) []) x

/-- The value of decimal digits. -/
def decimalValue (text : String) : Nat := text.toList.foldl (fun n c => 10 * n + digitValue c) 0

/-- The literal at a leaf. A number must fit a word. -/
inductive LiteralAt (ts : List Token) : Node → Literal → Prop
  | none {i : Nat} (token : ts[i]? = some (.keyword .none)) :
      LiteralAt ts (.mk .none i (i + 1) []) .none
  | true_ {i : Nat} (token : ts[i]? = some (.keyword .true)) :
      LiteralAt ts (.mk .boolean i (i + 1) []) (.bool true)
  | false_ {i : Nat} (token : ts[i]? = some (.keyword .false)) :
      LiteralAt ts (.mk .boolean i (i + 1) []) (.bool false)
  | number {i : Nat} {text : String} (token : ts[i]? = some (.int text))
      (small : decimalValue text ≤ 2147483647) :
      LiteralAt ts (.mk .number i (i + 1) []) (.number (Int32.ofNat (decimalValue text)))

/-! ## §2 Expressions -/

mutual

/-- The expression that a node stands for. -/
inductive ExprAt (ts : List Token) : Node → Expr → Prop
  | literal {n : Node} {v : Literal} (h : LiteralAt ts n v) : ExprAt ts n (.literal none v)
  | var {n : Node} {x : String} (h : NameAt ts n x) : ExprAt ts n (.var none x)
  | parenthesized {first stop : Nat} {n : Node} {e : Expr} (h : ExprAt ts n e) :
      ExprAt ts (.mk .parenthesizedExpression first stop [n]) e
  | unary {first stop i : Nat} {n : Node} {o : UnOp} {e : Expr} (token : ts[i]? = some o.token)
      (h : ExprAt ts n e) :
      ExprAt ts (.mk .unaryExpression first stop [.mk .operator i (i + 1) [], n]) (.unary none o e)
  | binary {first stop i : Nat} {l r : Node} {o : BinOp} {left right : Expr}
      (hl : ExprAt ts l left) (token : ts[i]? = some o.token) (hr : ExprAt ts r right) :
      ExprAt ts (.mk .binaryExpression first stop [l, .mk .operator i (i + 1) [], r])
        (.binary none o left right)
  | field {first stop i : Nat} {x : String} {n : Node} {e : Expr} (h : ExprAt ts n e)
      (token : ts[i]? = some (.name x)) :
      ExprAt ts (.mk .memberExpression first stop [n, .mk .propertyName i (i + 1) []])
        (.field none e x)
  | call {first stop first' stop' : Nat} {f : Node} {x : String} {ns : List Node} {es : List Expr}
      (callee : NameAt ts f x) (arguments : ExprsAt ts ns es) :
      ExprAt ts (.mk .callExpression first stop [f, .mk .argList first' stop' ns]) (.call none x es)
  | method {first stop first' stop' first'' stop'' i : Nat} {x : String} {n : Node} {e : Expr}
      {ns : List Node} {es : List Expr} (h : ExprAt ts n e) (token : ts[i]? = some (.name x))
      (arguments : ExprsAt ts ns es) :
      ExprAt ts (.mk .callExpression first stop
        [.mk .memberExpression first'' stop'' [n, .mk .propertyName i (i + 1) []],
          .mk .argList first' stop' ns]) (.method none e x es)

/-- Expressions in order. -/
inductive ExprsAt (ts : List Token) : List Node → List Expr → Prop
  | nil : ExprsAt ts [] []
  | cons {n : Node} {ns : List Node} {e : Expr} {es : List Expr} (first : ExprAt ts n e)
      (rest : ExprsAt ts ns es) : ExprsAt ts (n :: ns) (e :: es)

end

/-! ## §3 Variables, types and parameters -/

/-- The type that a name is for. -/
def Ty.ofName (x : String) : Ty :=
  if x = "int" then .int else if x = "bool" then .bool else .object x

/-- The type in an annotation. -/
inductive TypeAt (ts : List Token) : Node → Ty → Prop
  | none {first stop : Nat} {n : Node} (h : LiteralAt ts n .none) :
      TypeAt ts (.mk .typeDef first stop [n]) .none
  | name {first stop : Nat} {n : Node} {x : String} (h : NameAt ts n x) :
      TypeAt ts (.mk .typeDef first stop [n]) (.ofName x)

/-- The variable that an annotated assignment defines. -/
inductive VarAt (ts : List Token) : Node → VarDef → Prop
  | mk {first stop : Nat} {n t l : Node} {x : String} {ty : Ty} {v : Literal} (name : NameAt ts n x)
      (type : TypeAt ts t ty) (value : LiteralAt ts l v) :
      VarAt ts (.mk .assignStatement first stop [n, t, l]) ⟨x, ty, v⟩

inductive ParamAt (ts : List Token) : Node → Param → Prop
  | mk {first stop : Nat} {n t : Node} {x : String} {ty : Ty} (name : NameAt ts n x)
      (type : TypeAt ts t ty) : ParamAt ts (.mk .param first stop [n, t]) ⟨x, ty⟩

/-! ## §4 Statements -/

/-- What an assignment changes. -/
inductive TargetAt (ts : List Token) : Node → Target → Prop
  | var {n : Node} {x : String} (h : NameAt ts n x) : TargetAt ts n (.var x)
  | member {first stop i : Nat} {x : String} {n : Node} {e : Expr} (h : ExprAt ts n e)
      (token : ts[i]? = some (.name x)) :
      TargetAt ts (.mk .memberExpression first stop [n, .mk .propertyName i (i + 1) []])
        (.member e x)

mutual

/-- The statement that a node stands for. A value can be returned in functions only. -/
inductive StmtAt (ts : List Token) (place : SourceTree.Place) : Node → Stmt → Prop
  | pass {i : Nat} : StmtAt ts place (.mk .passStatement i (i + 1) []) .pass
  | expr {first stop : Nat} {n : Node} {e : Expr} (h : ExprAt ts n e) :
      StmtAt ts place (.mk .expressionStatement first stop [n]) (.expr e)
  | assign {first stop : Nat} {l r : Node} {t : Target} {e : Expr} (target : TargetAt ts l t)
      (value : ExprAt ts r e) :
      StmtAt ts place (.mk .assignStatement first stop [l, r]) (.assign t e)
  | return_ {first stop : Nat} {n : Node} {e : Expr} (inside : place = .inFunction)
      (h : ExprAt ts n e) : StmtAt ts place (.mk .returnStatement first stop [n]) (.return_ e)
  | returnNone {first stop : Nat} (inside : place = .inFunction) :
      StmtAt ts place (.mk .returnStatement first stop []) (.return_ (.literal none .none))
  | while_ {first stop : Nat} {n : Node} {body : Suite} {e : Expr} {ss : List Stmt}
      (condition : ExprAt ts n e) (block : StmtsAt ts place body.stmts ss) :
      StmtAt ts place (.mk .whileStatement first stop [n, body.node]) (.while_ e ss)
  | if_ {first stop : Nat} {n : Node} {body : Suite} {elifs last : List Node} {e : Expr}
      {ss : List Stmt} {elif : Option (Expr × List Stmt)} {orElse : Option (List Stmt)}
      (condition : ExprAt ts n e) (block : StmtsAt ts place body.stmts ss)
      (second : ElifAt ts place elifs elif) (otherwise : ElseAt ts place last orElse) :
      StmtAt ts place (.mk .ifStatement first stop (n :: body.node :: elifs ++ last))
        (.if_ e ss elif orElse)

/-- Statements in order. -/
inductive StmtsAt (ts : List Token) (place : SourceTree.Place) : List Node → List Stmt → Prop
  | nil : StmtsAt ts place [] []
  | cons {n : Node} {ns : List Node} {s : Stmt} {ss : List Stmt} (first : StmtAt ts place n s)
      (rest : StmtsAt ts place ns ss) : StmtsAt ts place (n :: ns) (s :: ss)

/-- At most one `elif` clause. -/
inductive ElifAt (ts : List Token) (place : SourceTree.Place) :
    List Node → Option (Expr × List Stmt) → Prop
  | absent : ElifAt ts place [] none
  | present {clause : Clause} {e : Expr} {ss : List Stmt} (condition : ExprAt ts clause.cond e)
      (block : StmtsAt ts place clause.body.stmts ss) :
      ElifAt ts place [clause.node] (some (e, ss))

/-- At most one `else` clause. -/
inductive ElseAt (ts : List Token) (place : SourceTree.Place) :
    List Node → Option (List Stmt) → Prop
  | absent : ElseAt ts place [] none
  | present {clause : LastClause} {ss : List Stmt}
      (block : StmtsAt ts place clause.body.stmts ss) : ElseAt ts place [clause.node] (some ss)

end

/-! ## §5 Functions, classes and programs -/

/-- The result type of a function, `None` if it is not written. -/
inductive ResultAt (ts : List Token) : Option Node → Ty → Prop
  | absent : ResultAt ts none .none
  | present {n : Node} {ty : Ty} (h : TypeAt ts n ty) : ResultAt ts (some n) ty

/-- The function that a node stands for: variables come first in its body, then statements. -/
inductive FunAt (ts : List Token) : Node → FunDef → Prop
  | mk {first stop first' stop' first'' stop'' : Nat} {n : Node} {x : String} {ps : List Node}
      {params : List Param} {r : Option Node} {ty : Ty} {ds ns : List Node} {vs : List VarDef}
      {ss : List Stmt} (name : NameAt ts n x) (parameters : List.Forall₂ (ParamAt ts) ps params)
      (result : ResultAt ts r ty) (locals : List.Forall₂ (VarAt ts) ds vs)
      (statements : StmtsAt ts .inFunction ns ss) :
      FunAt ts (.mk .functionDefinition first stop
        (n :: .mk .paramList first' stop' ps :: r.toList ++ [.mk .body first'' stop'' (ds ++ ns)]))
        ⟨x, params, ty, vs, ss⟩

/-- The fields and the methods of a class, both in order. -/
inductive MembersAt (ts : List Token) : List Node → List VarDef → List FunDef → Prop
  | nil : MembersAt ts [] [] []
  | pass {i : Nat} {ns : List Node} {vs : List VarDef} {fs : List FunDef}
      (rest : MembersAt ts ns vs fs) : MembersAt ts (.mk .passStatement i (i + 1) [] :: ns) vs fs
  | field {n : Node} {v : VarDef} {ns : List Node} {vs : List VarDef} {fs : List FunDef}
      (first : VarAt ts n v) (rest : MembersAt ts ns vs fs) : MembersAt ts (n :: ns) (v :: vs) fs
  | method {n : Node} {f : FunDef} {ns : List Node} {vs : List VarDef} {fs : List FunDef}
      (first : FunAt ts n f) (rest : MembersAt ts ns vs fs) : MembersAt ts (n :: ns) vs (f :: fs)

/-- The class that a node stands for. -/
inductive ClassAt (ts : List Token) : Node → ClassDef → Prop
  | mk {first stop first' stop' first'' stop'' : Nat} {n p : Node} {x parent : String}
      {ns : List Node} {vs : List VarDef} {fs : List FunDef} (name : NameAt ts n x)
      (super : NameAt ts p parent) (members : MembersAt ts ns vs fs) :
      ClassAt ts (.mk .classDefinition first stop
        [n, .mk .argList first' stop' [p], .mk .body first'' stop'' ns]) ⟨x, parent, vs, fs⟩

/-- The definition that a node stands for. -/
inductive DefAt (ts : List Token) : Node → Def → Prop
  | var {n : Node} {v : VarDef} (h : VarAt ts n v) : DefAt ts n (.var v)
  | function {n : Node} {f : FunDef} (h : FunAt ts n f) : DefAt ts n (.function f)
  | class_ {n : Node} {c : ClassDef} (h : ClassAt ts n c) : DefAt ts n (.class_ c)

/-- The program that a node stands for: definitions come first, then statements. -/
inductive ProgramAt (ts : List Token) : Node → Program → Prop
  | mk {first stop : Nat} {ds ns : List Node} {defs : List Def} {ss : List Stmt}
      (definitions : List.Forall₂ (DefAt ts) ds defs) (statements : StmtsAt ts .topLevel ns ss) :
      ProgramAt ts (.mk .script first stop (ds ++ ns)) ⟨defs, ss⟩

/-! ## §6 Expressions as they are read -/

namespace SourceTree

variable {tree : SourceTree} {ts : List Token}

theorem decimalValue_of_numeral? {text : String} {w : Word} (h : numeral? text = some w) :
    decimalValue text ≤ 2147483647 ∧ w = Int32.ofNat (decimalValue text) := by
  unfold numeral? at h
  split at h
  · rename_i n digits
    split at h
    · rename_i bound
      cases h
      have value : n = decimalValue text := by
        unfold natOfDigits? at digits
        split at digits
        · cases digits
        · split at digits
          · cases digits
            rfl
          · cases digits
      subst value
      exact ⟨Nat.le_sub_one_of_lt bound, rfl⟩
    · cases h
  · cases h

/-- A literal that is read from a leaf stands there. -/
theorem literalAt_of_literal (spells : tree.Spells ts) {i : Nat} {t : Token} {kind : Kind}
    (token : ts[i]? = some t) (atom : atomKind? t = some kind) {v : Literal}
    (h : tree.literal (.mk kind i (i + 1) []) = .ok v) : LiteralAt ts (.mk kind i (i + 1) []) v := by
  unfold atomKind? at atom
  split at atom
  all_goals cases atom
  case h_1 text =>
    simp only [literal, kind_mk, spells.text_leaf token rfl] at h
    split at h
    · rename_i w number
      cases h
      obtain ⟨small, rfl⟩ := decimalValue_of_numeral? number
      exact .number token small
    · cases h
  case h_2 => cases h
  case h_3 =>
    simp only [literal, kind_mk, spells.text_leaf token rfl] at h
    cases h
    exact .true_ token
  case h_4 =>
    simp only [literal, kind_mk, spells.text_leaf token rfl] at h
    cases h
    exact .false_ token
  case h_5 =>
    cases h
    exact .none token
  case h_6 => cases h

/-- A node that is read as a name is a name. -/
theorem nameAt_of_isExpr (spells : tree.Spells ts) {n : Node} (shape : IsExpr ts n)
    (kind : n.kind = .variableName) : NameAt ts n (tree.text n) := by
  cases shape with
  | atom token atom =>
    rename_i t k
    obtain rfl : k = .variableName := kind
    obtain ⟨x, rfl⟩ : ∃ x, t = .name x := by
      unfold atomKind? at atom
      split at atom <;> simp_all
    rw [spells.name_leaf token]
    exact .mk token
  | _ => cases kind

theorem nameAt_of_isName (spells : tree.Spells ts) {n : Node} (h : IsName ts n) :
    NameAt ts n (tree.text n) := by
  obtain ⟨i, x, rfl, token⟩ := h
  rw [spells.name_leaf token]
  exact .mk token

theorem exprsAt_of_exprs {ns : List Node} {es : List Expr}
    (each : ∀ n ∈ ns, ∀ e, tree.expr n = .ok e → ExprAt ts n e) (h : tree.exprs ns = .ok es) :
    ExprsAt ts ns es := by
  induction ns generalizing es with
  | nil =>
    cases h
    exact .nil
  | cons n ns ih =>
    obtain ⟨e, he, h⟩ := bind_eq_ok.1 h
    obtain ⟨rest, hrest, h⟩ := bind_eq_ok.1 h
    cases h
    exact .cons (each n (by simp) e he) (ih (fun m hm => each m (by simp [hm])) hrest)

theorem exprAt_of_atom (spells : tree.Spells ts) {i : Nat} {t : Token} {kind : Kind}
    (token : ts[i]? = some t) (atom : atomKind? t = some kind) {e : Expr}
    (h : tree.expr (.mk kind i (i + 1) []) = .ok e) : ExprAt ts (.mk kind i (i + 1) []) e := by
  have literal (h : (do return .literal none (← tree.literal (.mk kind i (i + 1) []))) =
      (.ok e : Except ParseError Expr)) : ExprAt ts (.mk kind i (i + 1) []) e := by
    obtain ⟨v, hv, h⟩ := bind_eq_ok.1 h
    cases h
    exact .literal (literalAt_of_literal spells token atom hv)
  by_cases name : kind = .variableName
  · subst name
    cases h
    exact .var (nameAt_of_isExpr spells (.atom token atom) rfl)
  · unfold atomKind? at atom
    split at atom
    all_goals cases atom
    case h_2 => cases h
    case h_6 => exact absurd rfl name
    all_goals exact literal h

theorem token_of_unOp {t : Token} {level : Nat} {o : UnOp} (operator : unaryLevel? t = some level)
    (h : UnOp.ofText? t.text = some o) : t = o.token := by
  unfold unaryLevel? at operator
  split at operator
  all_goals cases operator
  all_goals cases h
  all_goals rfl

theorem token_of_binOp {t : Token} {level : Nat} {o : BinOp} (operator : binaryLevel? t = some level)
    (h : BinOp.ofText? t.text = some o) : t = o.token := by
  unfold binaryLevel? at operator
  split at operator
  all_goals cases operator
  all_goals cases h
  all_goals rfl

/-- A node stands for the expression that is read from it. -/
theorem exprAt_of_expr (spells : tree.Spells ts) {n : Node} (shape : IsExpr ts n) {e : Expr}
    (h : tree.expr n = .ok e) : ExprAt ts n e := by
  induction shape generalizing e with
  | atom token atom => exact exprAt_of_atom spells token atom h
  | parenthesized _ ih => exact .parenthesized (ih h)
  | unary token level _ ih =>
    rw [expr, spells.text_leaf token (isMark_of_unaryLevel? level)] at h
    split at h
    · cases h
    · rename_i o found
      obtain ⟨e', he, h⟩ := bind_eq_ok.1 h
      cases h
      exact .unary (token_of_unOp level found ▸ token) (ih he)
  | binary _ token level _ ihl ihr =>
    rw [expr, spells.text_leaf token (isMark_of_binaryLevel? level)] at h
    split at h
    · cases h
    · rename_i o found
      obtain ⟨l, hl, h⟩ := bind_eq_ok.1 h
      obtain ⟨r, hr, h⟩ := bind_eq_ok.1 h
      cases h
      exact .binary (ihl hl) (token_of_binOp level found ▸ token) (ihr hr)
  | member _ token ih =>
    rw [expr] at h
    obtain ⟨o, ho, h⟩ := bind_eq_ok.1 h
    cases h
    rw [spells.name_leaf token]
    exact .field (ih ho) token
  | call hf _ ihf ihargs =>
    rw [expr] at h
    obtain ⟨es, hes, h⟩ := bind_eq_ok.1 h
    have arguments := exprsAt_of_exprs (fun n hn e => ihargs n hn) hes
    split at h
    · rename_i first stop o m _
      obtain ⟨o', ho, h⟩ := bind_eq_ok.1 h
      cases h
      -- what is called stands for a field
      have field : tree.expr (.mk .memberExpression first stop [o, m]) =
          .ok (.field none o' (tree.text m)) := by rw [expr, ho]; rfl
      cases ihf field with
      | field h token => exact .method h token arguments
    · cases h
      exact .call (nameAt_of_isExpr spells hf rfl) arguments
    all_goals cases h

/-! ## §7 Statements as they are read -/

theorem typeAt_of_type (spells : tree.Spells ts) {n : Node} (shape : IsTypeDef ts n) {ty : Ty}
    (h : tree.type n = .ok ty) : TypeAt ts n ty := by
  obtain ⟨first, stop, e, rfl, he⟩ := shape
  simp only [type, children_mk] at h
  split at h
  · rename_i kind
    cases h
    cases he with
    | atom token atom =>
      obtain rfl := kind
      exact .none (literalAt_of_literal spells token atom rfl)
    | _ => cases kind
  · rename_i kind
    have same : ty = .ofName (tree.text e) := by
      unfold Ty.ofName
      split at h
      all_goals cases h
      all_goals simp_all
    rw [same]
    exact .name (nameAt_of_isExpr spells he kind)
  · cases h

theorem literalAt_of_initializer (spells : tree.Spells ts) {n : Node} (shape : IsExpr ts n)
    {v : Literal} (h : tree.initializer n = .ok v) : LiteralAt ts n v := by
  cases shape with
  | atom token atom =>
    unfold initializer at h
    split at h
    case h_4 => cases h
    case h_5 => cases h
    all_goals exact literalAt_of_literal spells token atom h
  | _ => cases h

theorem varAt_of_varDef (spells : tree.Spells ts) {n : Node} (shape : IsStmt ts n)
    (kind : n.kind = .assignStatement) (isDef : isDefinition n = true) {v : VarDef}
    (h : tree.varDef n = .ok v) : VarAt ts n v := by
  cases shape with
  | assign ht he => simp [isDefinition_assign ht he] at isDef
  | define ht htype hvalue =>
    rename_i value
    simp only [varDef, children_mk] at h
    split at h
    · cases h
    · rename_i name
      obtain ⟨ty, hty, h⟩ := bind_eq_ok.1 h
      cases value with
      | none => cases h
      | some value =>
        obtain ⟨l, hl, h⟩ := bind_eq_ok.1 h
        cases h
        exact .mk (nameAt_of_isExpr spells ht (not_not.1 name)) (typeAt_of_type spells htype hty)
          (literalAt_of_initializer spells (hvalue value rfl) hl)
  | _ => cases kind

theorem paramAt_of_param (spells : tree.Spells ts) {n : Node} (shape : IsParam ts n) {p : Param}
    (h : tree.param n = .ok p) : ParamAt ts n p := by
  obtain ⟨first, stop, x, type, rfl, hx, htype⟩ := shape
  have name := nameAt_of_isName spells hx
  obtain ⟨i, y, rfl, -⟩ := hx
  cases type with
  | none => cases h
  | some type =>
    have isType := htype type rfl
    obtain ⟨f, s, e, rfl, -⟩ := htype type rfl
    obtain ⟨ty, hty, h⟩ := bind_eq_ok.1 h
    cases h
    exact .mk name (typeAt_of_type spells isType hty)

theorem targetAt_of_target (spells : tree.Spells ts) {n : Node} (shape : IsExpr ts n) {t : Target}
    (h : tree.target n = .ok t) : TargetAt ts n t := by
  unfold target at h
  split at h
  · obtain ⟨o, ho, h⟩ := bind_eq_ok.1 h
    cases h
    cases shape with
    | member hobj token =>
      rw [spells.name_leaf token]
      exact .member (exprAt_of_expr spells hobj ho) token
  · split at h
    · rename_i kind
      cases h
      exact .var (nameAt_of_isExpr spells shape kind)
    all_goals cases h

theorem stmtsAt_of_statements {place : Place} {ns : List Node} {ss : List Stmt}
    (each : ∀ n ∈ ns, ∀ s, tree.statement place n = .ok s → StmtAt ts place n s)
    (h : tree.statements place ns = .ok ss) : StmtsAt ts place ns ss := by
  induction ns generalizing ss with
  | nil =>
    cases h
    exact .nil
  | cons n ns ih =>
    obtain ⟨s, hs, h⟩ := bind_eq_ok.1 h
    obtain ⟨rest, hrest, h⟩ := bind_eq_ok.1 h
    cases h
    exact .cons (each n (by simp) s hs) (ih (fun m hm => each m (by simp [hm])) hrest)

/-- The branch of an `elif` clause, if there is one. -/
def elif (tree : SourceTree) (place : Place) :
    Option Clause → Except ParseError (Option (Expr × List Stmt))
  | none => .ok none
  | some c => do
    let cond ← tree.expr c.cond
    return some (cond, ← tree.statements place c.body.stmts)

/-- How a conditional of its shape is read. -/
theorem statement_if {place : Place} {first stop : Nat} {c : Node} {body : Suite}
    {elifs : List Clause} {last : Option LastClause} :
    tree.statement place (.mk .ifStatement first stop
      (c :: body.node :: elifs.map Clause.node ++ (last.map LastClause.node).toList)) = (do
        let cond ← tree.expr c
        let ss ← tree.statements place body.stmts
        let elif ← tree.elif place elifs.head?
        let orElse ← tree.otherwise place
          (elifs.tail.map Clause.node ++ (last.map LastClause.node).toList)
        return .if_ cond ss elif orElse) := by
  rw [statement.eq_def]
  cases elifs with
  | nil => cases last <;> rfl
  | cons e elifs =>
    simp only [elif, List.head?_cons, List.tail_cons, bind_assoc, pure_bind]
    rfl

/-- Behind the first clauses of a conditional stands an `else` clause or nothing. -/
theorem elseAt_of_otherwise {place : Place} {elifs : List Clause} {last : Option LastClause}
    (each : ∀ l ∈ last, ∀ n ∈ l.body.stmts, ∀ s, tree.statement place n = .ok s →
      StmtAt ts place n s) {orElse : Option (List Stmt)}
    (h : tree.otherwise place
      (elifs.map Clause.node ++ (last.map LastClause.node).toList) = .ok orElse) :
    elifs = [] ∧ ElseAt ts place (last.map LastClause.node).toList orElse := by
  cases elifs with
  | cons e elifs =>
    rw [List.map_cons, List.cons_append, Clause.node, otherwise] at h
    · cases h
    · rintro _ _ _ _ _ _ ⟨⟩
  | nil =>
    cases last with
    | none =>
      cases h
      exact ⟨rfl, .absent⟩
    | some l =>
      obtain ⟨ss, hss, h⟩ := bind_eq_ok.1 h
      cases h
      exact ⟨rfl, .present (stmtsAt_of_statements (each l rfl) hss)⟩

/-- A node stands for the statement that is read from it. -/
theorem stmtAt_of_statement (spells : tree.Spells ts) {place : Place} {n : Node}
    (shape : IsStmt ts n) {s : Stmt} (h : tree.statement place n = .ok s) :
    StmtAt ts place n s := by
  induction shape generalizing s with
  | pass =>
    cases h
    exact .pass
  | expr he =>
    obtain ⟨e, hres, h⟩ := bind_eq_ok.1 h
    cases h
    exact .expr (exprAt_of_expr spells he hres)
  | assign ht he =>
    simp only [statement, isDefinition_assign ht he, Bool.false_eq_true, if_false] at h
    obtain ⟨t, htarget, h⟩ := bind_eq_ok.1 h
    obtain ⟨e, hres, h⟩ := bind_eq_ok.1 h
    cases h
    exact .assign (targetAt_of_target spells ht htarget) (exprAt_of_expr spells he hres)
  | define ht htype hvalue =>
    obtain ⟨first, stop, e, rfl, -⟩ := htype
    rw [statement.eq_def] at h
    simp [isDefinition, child?, kind_of_isExpr ht, refuse] at h
  | returned value hvalue =>
    cases place with
    | topLevel => cases h
    | inFunction =>
      cases value with
      | none =>
        cases h
        exact .returnNone rfl
      | some e =>
        obtain ⟨r, hr, h⟩ := bind_eq_ok.1 h
        cases h
        exact .return_ rfl (exprAt_of_expr spells (hvalue e rfl) hr)
  | while_ hc _ _ ih =>
    obtain ⟨cond, hcond, h⟩ := bind_eq_ok.1 h
    obtain ⟨body, hbody, h⟩ := bind_eq_ok.1 h
    cases h
    exact .while_ (exprAt_of_expr spells hc hcond) (stmtsAt_of_statements (fun n hn s => ih n hn) hbody)
  | @if_ first stop c suite elifs last hc _ _ hconds _ _ _ ihbody ihelifs ihlast =>
    rw [statement_if] at h
    obtain ⟨cond, hcond, h⟩ := bind_eq_ok.1 h
    obtain ⟨body, hbody, h⟩ := bind_eq_ok.1 h
    obtain ⟨second, hsecond, h⟩ := bind_eq_ok.1 h
    obtain ⟨orElse, hlast, h⟩ := bind_eq_ok.1 h
    cases h
    have condition := exprAt_of_expr spells hc hcond
    have block := stmtsAt_of_statements (fun n hn s => ihbody n hn) hbody
    obtain ⟨alone, otherwise⟩ := elseAt_of_otherwise (fun l hl n hn s => ihlast l hl n hn) hlast
    cases elifs with
    | nil =>
      cases hsecond
      exact .if_ condition block .absent otherwise
    | cons e elifs =>
      obtain rfl : elifs = [] := alone
      obtain ⟨cond', hcond', hsecond⟩ := bind_eq_ok.1 hsecond
      obtain ⟨body', hbody', hsecond⟩ := bind_eq_ok.1 hsecond
      cases hsecond
      have condition' := exprAt_of_expr spells (hconds e (by simp)).1 hcond'
      have block' := stmtsAt_of_statements (fun n hn s => ihelifs e (by simp) n hn) hbody'
      exact .if_ condition block (.present condition' block') otherwise
  | function => cases h
  | class_ => cases h

/-! ## §8 Programs as they are read -/

/-- What is read from each node of a list is what the nodes stand for. -/
theorem forall₂_of_mapM {α : Type} {f : Node → Except ParseError α} {R : Node → α → Prop}
    {ns : List Node} {as : List α} (h : ns.mapM f = .ok as)
    (each : ∀ n ∈ ns, ∀ a, f n = .ok a → R n a) : List.Forall₂ R ns as := by
  have read := mapM_eq_ok.1 h
  clear h
  induction read with
  | nil => exact .nil
  | cons first _ ih =>
    exact .cons (each _ (by simp) _ first) (ih fun n hn => each n (List.mem_cons_of_mem _ hn))

theorem varAt_of_localDef (spells : tree.Spells ts) {n : Node} (shape : IsStmt ts n)
    (isDef : isDefinition n = true) {v : VarDef} (h : tree.localDef n = .ok v) : VarAt ts n v := by
  unfold localDef at h
  split at h
  · rename_i kind
    exact varAt_of_varDef spells shape kind isDef h
  all_goals cases h

theorem resultAt_of_result (spells : tree.Spells ts) {r : Option Node}
    (shape : ∀ t ∈ r, IsTypeDef ts t) {ty : Ty} (h : tree.result r = .ok ty) : ResultAt ts r ty := by
  cases r with
  | none =>
    cases h
    exact .absent
  | some r => exact .present (typeAt_of_type spells (shape r rfl) h)

theorem funAt_of_funDef (spells : tree.Spells ts) {n : Node} (shape : IsStmt ts n)
    (kind : n.kind = .functionDefinition) {f : FunDef} (h : tree.funDef n = .ok f) : FunAt ts n f := by
  cases shape with
  | @function _ _ _ _ x ps result body hx hparams hresult _ hbody =>
    rw [funDef_eq (kind_of_isName hx) fun r hr => kind_of_isTypeDef (hresult r hr)] at h
    obtain ⟨params, hps, h⟩ := bind_eq_ok.1 h
    obtain ⟨ty, hty, h⟩ := bind_eq_ok.1 h
    obtain ⟨locals, hlocals, h⟩ := bind_eq_ok.1 h
    obtain ⟨stmts, hstmts, h⟩ := bind_eq_ok.1 h
    cases h
    have parameters := forall₂_of_mapM hps fun p hp _ => paramAt_of_param spells (hparams p hp)
    have definitions := forall₂_of_mapM hlocals fun n hn _ =>
      varAt_of_localDef spells (hbody n (List.takeWhile_subset _ hn))
        (List.all_eq_true.1 List.all_takeWhile n hn)
    have statements := stmtsAt_of_statements (fun n hn _ =>
      stmtAt_of_statement spells (hbody n (List.dropWhile_subset _ hn))) hstmts
    have whole : body.node = .mk .body body.first body.stop
        (body.stmts.takeWhile isDefinition ++ body.stmts.dropWhile isDefinition) := by
      rw [List.takeWhile_append_dropWhile]
      rfl
    rw [whole]
    exact .mk (nameAt_of_isName spells hx) parameters (resultAt_of_result spells hresult hty) definitions
      statements
  | _ => cases kind

theorem membersAt_of_members (spells : tree.Spells ts) {ns : List Node}
    (shape : ∀ n ∈ ns, IsStmt ts n) {ms : List (Option (VarDef ⊕ FunDef))}
    (h : ns.mapM tree.member = .ok ms) :
    MembersAt ts ns (ms.filterMap (·.bind Sum.getLeft?)) (ms.filterMap (·.bind Sum.getRight?)) := by
  have read := mapM_eq_ok.1 h
  clear h
  induction read with
  | nil => exact .nil
  | @cons n m ns ms first _ ih =>
    have hn := shape n (by simp)
    have rest := ih fun n hn => shape n (List.mem_cons_of_mem _ hn)
    unfold member at first
    split at first
    · rename_i kind
      cases first
      cases hn with
      | pass => exact .pass rest
      | _ => cases kind
    · rename_i kind
      split at first
      · rename_i isDef
        obtain ⟨v, hv, first⟩ := bind_eq_ok.1 first
        cases first
        exact .field (varAt_of_varDef spells hn kind isDef hv) rest
      · cases first
    · rename_i kind
      obtain ⟨f, hf, first⟩ := bind_eq_ok.1 first
      cases first
      exact .method (funAt_of_funDef spells hn kind hf) rest
    · cases first
    · cases first

/-- The parent of a class is the one name in its parentheses. -/
theorem parent_eq_ok {first stop first' stop' : Nat} {x : Node} {args : List Node} {body : Suite}
    (hx : x.kind = .variableName) {parent : String} :
    tree.parent (.mk .classDefinition first stop [x, .mk .argList first' stop' args, body.node]) =
        .ok parent ↔
      ∃ p, args = [p] ∧ p.kind = .variableName ∧ parent = tree.text p := by
  obtain ⟨_, a, b, parts⟩ := x
  cases hx
  constructor
  · intro h
    simp only [SourceTree.parent, child?, Suite.node, children_mk, kind_mk, List.find?_cons,
      reduceCtorEq, decide_false, decide_true] at h
    split at h
    · rename_i p
      split at h
      · rename_i isName
        cases h
        exact ⟨p, rfl, isName, rfl⟩
      · cases h
    · cases h
  · rintro ⟨p, rfl, isName, rfl⟩
    simp [SourceTree.parent, child?, isName]

theorem classAt_of_classDef (spells : tree.Spells ts) {n : Node} (shape : IsStmt ts n)
    (kind : n.kind = .classDefinition) {c : ClassDef} (h : tree.classDef n = .ok c) :
    ClassAt ts n c := by
  cases shape with
  | @class_ first stop x parents body hx hparents _ hbody =>
    rw [classDef_eq (kind_of_isName hx) fun p hp => kind_of_isArgList (hparents p hp)] at h
    obtain ⟨parent, hp, h⟩ := bind_eq_ok.1 h
    obtain ⟨members, hmembers, h⟩ := bind_eq_ok.1 h
    cases h
    have name := nameAt_of_isName spells hx
    obtain ⟨i, y, rfl, -⟩ := hx
    cases parents with
    | none => cases hp
    | some parents =>
      obtain ⟨first', stop', args, rfl, hargs⟩ := hparents _ rfl
      obtain ⟨p, rfl, isName, rfl⟩ := (parent_eq_ok rfl).1 hp
      exact .mk name (nameAt_of_isExpr spells (hargs p (by simp)) isName)
        (membersAt_of_members spells hbody hmembers)
  | _ => cases kind

theorem defAt_of_definition (spells : tree.Spells ts) {n : Node} (shape : IsStmt ts n)
    (isDef : isDefinition n = true) {d : Def} (h : tree.definition n = .ok d) : DefAt ts n d := by
  unfold definition definitionWith at h
  split at h
  · rename_i kind
    obtain ⟨v, hv, h⟩ := bind_eq_ok.1 h
    cases h
    exact .var (varAt_of_varDef spells shape kind isDef hv)
  · rename_i kind
    obtain ⟨f, hf, h⟩ := bind_eq_ok.1 h
    cases h
    exact .function (funAt_of_funDef spells shape kind hf)
  · rename_i kind
    obtain ⟨c, hc, h⟩ := bind_eq_ok.1 h
    cases h
    exact .class_ (classAt_of_classDef spells shape kind hc)
  · cases h

/-- A tree stands for the program that is read from it. -/
theorem programAt_of_program (spells : tree.Spells ts) {first stop : Nat} {ns : List Node}
    (root : tree.root = .mk .script first stop ns) (shape : ∀ n ∈ ns, IsStmt ts n) {p : Program}
    (h : tree.program = .ok p) : ProgramAt ts tree.root p := by
  rw [program, root, children_mk] at h
  obtain ⟨defs, hdefs, h⟩ := bind_eq_ok.1 h
  obtain ⟨stmts, hstmts, h⟩ := bind_eq_ok.1 h
  cases h
  have definitions := forall₂_of_mapM hdefs fun n hn _ =>
    defAt_of_definition spells (shape n (List.takeWhile_subset _ hn))
      (List.all_eq_true.1 List.all_takeWhile n hn)
  have statements := stmtsAt_of_statements (fun n hn _ =>
    stmtAt_of_statement spells (shape n (List.dropWhile_subset _ hn))) hstmts
  rw [root, ← @List.takeWhile_append_dropWhile _ isDefinition ns]
  exact .mk definitions statements

end SourceTree

end Serpent
