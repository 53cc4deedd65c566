/-
Serpent.Proofs.Parsed — what is read from a source text is canonical.

The proof follows the reading of the tree: a part of the tree that has its shape, read in a tree
whose leaves have the spellings of their tokens, gives a canonical part of the program. The names
come from name tokens, which are spelled as identifiers, and the bodies from suites, which hold at
least one statement.

  §1 Names and expressions
  §2 Variables, types and parameters
  §3 Statements
  §4 Functions, classes and programs
-/
import Serpent.Program.Parse
import Serpent.Proofs.Canonical
import Serpent.Proofs.Shape

namespace Serpent

open Fallible Node

namespace SourceTree

variable {tree : SourceTree} {ts : List Token}

/-! ## §1 Names and expressions -/

theorem Spells.name_leaf (spells : tree.Spells ts) {i : Nat} {x : String} {kind : Kind}
    (h : ts[i]? = some (.name x)) : tree.text (.mk kind i (i + 1) []) = x :=
  spells.text_leaf h rfl kind []

theorem Spells.isIdentifier_leaf (spells : tree.Spells ts) {i : Nat} {x : String} {kind : Kind}
    (h : ts[i]? = some (.name x)) :
    isIdentifier (tree.text (.mk kind i (i + 1) [])) = true := by
  rw [spells.name_leaf h]
  exact spells.isSpelled (List.mem_of_getElem? h) rfl

theorem Spells.isIdentifier_name (spells : tree.Spells ts) {n : Node} (h : IsName ts n) :
    isIdentifier (tree.text n) = true := by
  obtain ⟨i, x, rfl, at_index⟩ := h
  exact spells.isIdentifier_leaf at_index

theorem nonneg_of_numeral? {text : String} {w : Word} (h : numeral? text = some w) : 0 ≤ w := by
  unfold numeral? at h
  split at h
  · rename_i n _
    split at h
    · rename_i bound
      cases h
      rw [Int32.le_iff_toInt_le, Int32.toInt_ofNat_of_lt bound]
      simp
    · cases h
  · cases h

theorem isCanonical_of_literal {n : Node} {v : Literal} (h : tree.literal n = .ok v) :
    v.isCanonical = true := by
  unfold literal at h
  split at h
  · cases h
    rfl
  · cases h
    rfl
  · split at h
    · rename_i w hw
      cases h
      exact decide_eq_true (nonneg_of_numeral? hw)
    · cases h
  · cases h

/-- A literal or a name, read as an expression. -/
theorem isCanonical_of_atom (spells : tree.Spells ts) {i : Nat} {t : Token} {kind : Kind}
    (at_index : ts[i]? = some t) (atom : atomKind? t = some kind) {e : Expr}
    (h : tree.expr (.mk kind i (i + 1) []) = .ok e) : e.isCanonical = true := by
  have literal : ∀ {kind}, (do return .literal none (← tree.literal (.mk kind i (i + 1) []))) =
      (.ok e : Except ParseError Expr) → e.isCanonical = true := by
    intro kind h
    obtain ⟨v, hv, h⟩ := bind_eq_ok.1 h
    cases h
    exact isCanonical_of_literal hv
  unfold atomKind? at atom
  split at atom
  all_goals cases atom
  case h_6 x =>
    cases h
    simp [Expr.isCanonical, spells.isIdentifier_leaf at_index]
  case h_2 => cases h
  all_goals exact literal h

theorem isCanonical_of_exprs {args : List Node} {es : List Expr}
    (each : ∀ a ∈ args, ∀ e, tree.expr a = .ok e → e.isCanonical = true)
    (h : tree.exprs args = .ok es) : Expr.areCanonical es = true := by
  induction args generalizing es with
  | nil =>
    cases h
    rfl
  | cons a args ih =>
    obtain ⟨e, he, h⟩ := bind_eq_ok.1 h
    obtain ⟨rest, hrest, h⟩ := bind_eq_ok.1 h
    cases h
    rw [Expr.areCanonical, each a (by simp) e he, ih (fun b hb => each b (by simp [hb])) hrest]
    rfl

/-- Every expression that is read from a part of its shape is canonical. -/
theorem isCanonical_of_expr (spells : tree.Spells ts) {n : Node} (shape : IsExpr ts n) {e : Expr}
    (h : tree.expr n = .ok e) : e.isCanonical = true := by
  induction shape generalizing e with
  | atom at_index kind => exact isCanonical_of_atom spells at_index kind h
  | parenthesized _ ih => exact ih h
  | unary _ _ _ ih =>
    rw [expr] at h
    split at h
    · cases h
    · obtain ⟨e', he, h⟩ := bind_eq_ok.1 h
      cases h
      simpa [Expr.isCanonical] using ih he
  | binary _ _ _ _ ihl ihr =>
    rw [expr] at h
    split at h
    · cases h
    · obtain ⟨l, hl, h⟩ := bind_eq_ok.1 h
      obtain ⟨r, hr, h⟩ := bind_eq_ok.1 h
      cases h
      simp [Expr.isCanonical, ihl hl, ihr hr]
  | member _ at_index ih =>
    rw [expr] at h
    obtain ⟨o, ho, h⟩ := bind_eq_ok.1 h
    cases h
    simp [Expr.isCanonical, ih ho, spells.isIdentifier_leaf at_index]
  | call _ _ ihf ihargs =>
    rw [expr] at h
    obtain ⟨es, hes, h⟩ := bind_eq_ok.1 h
    have hargs := isCanonical_of_exprs (fun a ha e => ihargs a ha) hes
    split at h
    · rename_i first stop o m _ _
      obtain ⟨o', ho, h⟩ := bind_eq_ok.1 h
      cases h
      -- what is called is canonical when read as a field
      have field : tree.expr (.mk .memberExpression first stop [o, m]) =
          .ok (.field none o' (tree.text m)) := by rw [expr, ho]; rfl
      have := ihf field
      simp_all [Expr.isCanonical]
    · cases h
      have := ihf rfl
      simp_all [Expr.isCanonical]
    all_goals cases h

/-! ## §2 Variables, types and parameters -/

/-- An expression of this kind is a name. -/
theorem isIdentifier_of_isExpr (spells : tree.Spells ts) {n : Node} (shape : IsExpr ts n)
    (kind : n.kind = .variableName) : isIdentifier (tree.text n) = true := by
  cases shape with
  | atom at_index atom =>
    rename_i t k
    obtain rfl : k = .variableName := kind
    obtain ⟨x, rfl⟩ : ∃ x, t = .name x := by
      unfold atomKind? at atom
      split at atom <;> simp_all
    exact spells.isIdentifier_leaf at_index
  | _ => cases kind

theorem isCanonical_of_type (spells : tree.Spells ts) {n : Node} (shape : IsTypeDef ts n) {ty : Ty}
    (h : tree.type n = .ok ty) : ty.isCanonical = true := by
  obtain ⟨first, stop, e, rfl, he⟩ := shape
  simp only [type, children_mk] at h
  split at h
  · cases h
    rfl
  · rename_i kind
    have identifier := isIdentifier_of_isExpr spells he kind
    split at h
    · cases h
      rfl
    · cases h
      rfl
    · rename_i int bool
      cases h
      simp_all [Ty.isCanonical]
  · cases h

theorem isCanonical_of_initializer {n : Node} {v : Literal} (h : tree.initializer n = .ok v) :
    v.isCanonical = true := by
  unfold initializer at h
  split at h
  case h_4 => cases h
  case h_5 => cases h
  all_goals exact isCanonical_of_literal h

/-- No expression has the kind of a type with its mark, or of a suite. -/
theorem kind_of_isExpr {n : Node} (shape : IsExpr ts n) : n.kind ≠ .typeDef ∧ n.kind ≠ .body := by
  cases shape with
  | atom at_index atom =>
    unfold atomKind? at atom
    split at atom <;> cases atom <;> simp
  | _ => simp

theorem isDefinition_assign {first stop : Nat} {t e : Node} (ht : IsExpr ts t)
    (he : IsExpr ts e) : isDefinition (.mk .assignStatement first stop [t, e]) = false := by
  simp [isDefinition, child?, kind_of_isExpr ht, kind_of_isExpr he]

/-- A variable definition that is read from a definition of its shape. -/
theorem isCanonical_of_varDef (spells : tree.Spells ts) {n : Node} (shape : IsStmt ts n)
    (kind : n.kind = .assignStatement) (isDef : isDefinition n = true) {v : VarDef}
    (h : tree.varDef n = .ok v) : v.isCanonical = true := by
  cases shape with
  | assign ht he => simp [isDefinition_assign ht he] at isDef
  | define ht htype hvalue =>
    rename_i value
    simp only [varDef, children_mk] at h
    split at h
    · cases h
    · rename_i name
      obtain ⟨ty, hty, h⟩ := bind_eq_ok.1 h
      cases value with
      | none => cases h
      | some value =>
        obtain ⟨l, hl, h⟩ := bind_eq_ok.1 h
        cases h
        simp [VarDef.isCanonical, isIdentifier_of_isExpr spells ht (not_not.1 name),
          isCanonical_of_type spells htype hty, isCanonical_of_initializer hl]
  | _ => cases kind

theorem isCanonical_of_param (spells : tree.Spells ts) {n : Node} (shape : IsParam ts n) {p : Param}
    (h : tree.param n = .ok p) : p.isCanonical = true := by
  obtain ⟨first, stop, x, type, rfl, hx, htype⟩ := shape
  simp only [param, children_mk] at h
  split at h
  · rename_i t found
    obtain ⟨ty, hty, h⟩ := bind_eq_ok.1 h
    cases h
    have ht : IsTypeDef ts t := by
      obtain ⟨i, y, rfl, -⟩ := hx
      refine htype t ?_
      cases type with
      | none => simp [child?] at found
      | some type =>
        obtain ⟨f, s, e, rfl, -⟩ := htype type rfl
        simpa [child?] using found
    simp [Param.isCanonical, spells.isIdentifier_name hx, isCanonical_of_type spells ht hty]
  · cases h

/-! ## §3 Statements -/

theorem isCanonical_of_target (spells : tree.Spells ts) {n : Node} (shape : IsExpr ts n) {t : Target}
    (h : tree.target n = .ok t) : t.isCanonical = true := by
  unfold target at h
  split at h
  · obtain ⟨o, ho, h⟩ := bind_eq_ok.1 h
    cases h
    cases shape with
    | member hobj at_index =>
      simp [Target.isCanonical, isCanonical_of_expr spells hobj ho,
        spells.isIdentifier_leaf at_index]
  · split at h
    · rename_i kind
      cases h
      rw [Target.isCanonical]
      exact isIdentifier_of_isExpr spells shape kind
    all_goals cases h

theorem areCanonical_of_statements {place : Place} {body : List Node} {ss : List Stmt}
    {mayReturn : Bool}
    (each : ∀ n ∈ body, ∀ s, tree.statement place n = .ok s → s.isCanonical mayReturn = true)
    (h : tree.statements place body = .ok ss) : Stmt.areCanonical mayReturn ss = true := by
  induction body generalizing ss with
  | nil =>
    cases h
    rfl
  | cons n body ih =>
    obtain ⟨s, hs, h⟩ := bind_eq_ok.1 h
    obtain ⟨rest, hrest, h⟩ := bind_eq_ok.1 h
    cases h
    rw [Stmt.areCanonical, each n (by simp) s hs, ih (fun m hm => each m (by simp [hm])) hrest]
    rfl

theorem eq_nil_of_statements {place : Place} {body : List Node}
    (h : tree.statements place body = .ok []) : body = [] := by
  cases body with
  | nil => rfl
  | cons n body =>
    obtain ⟨s, hs, h⟩ := bind_eq_ok.1 h
    obtain ⟨rest, hrest, h⟩ := bind_eq_ok.1 h
    cases h

theorem isCanonicalBody_of_statements {place : Place} {body : List Node} {ss : List Stmt}
    {mayReturn : Bool} (some_stmt : body ≠ [])
    (each : ∀ n ∈ body, ∀ s, tree.statement place n = .ok s → s.isCanonical mayReturn = true)
    (h : tree.statements place body = .ok ss) : Stmt.isCanonicalBody mayReturn ss = true := by
  refine Stmt.isCanonicalBody_iff.2 ⟨?_, areCanonical_of_statements each h⟩
  rintro rfl
  exact some_stmt (eq_nil_of_statements h)

/-- Behind the first clauses of a conditional stands an `else` clause or nothing. -/
theorem isCanonicalBody_of_otherwise {place : Place} {elifs : List Clause}
    {last : Option LastClause} {mayReturn : Bool} (some_stmt : ∀ l ∈ last, l.body.stmts ≠ [])
    (each : ∀ l ∈ last, ∀ n ∈ l.body.stmts, ∀ s, tree.statement place n = .ok s →
      s.isCanonical mayReturn = true) {orElse : Option (List Stmt)}
    (h : tree.otherwise place
      (elifs.map Clause.node ++ (last.map LastClause.node).toList) = .ok orElse) :
    ∀ ss ∈ orElse, Stmt.isCanonicalBody mayReturn ss = true := by
  cases elifs with
  | cons e elifs =>
    rw [List.map_cons, List.cons_append, Clause.node, otherwise] at h
    · cases h
    · rintro _ _ _ _ _ _ ⟨⟩
  | nil =>
    cases last with
    | none =>
      cases h
      simp
    | some l =>
      obtain ⟨ss, hss, h⟩ := bind_eq_ok.1 h
      cases h
      rintro _ ⟨⟩
      exact isCanonicalBody_of_statements (some_stmt l rfl) (each l rfl) hss

/-- Every statement that is read from a part of its shape is canonical. -/
theorem isCanonical_of_statement (spells : tree.Spells ts) {place : Place} {n : Node}
    (shape : IsStmt ts n) {s : Stmt} (h : tree.statement place n = .ok s) :
    s.isCanonical (place == .inFunction) = true := by
  induction shape generalizing s with
  | pass =>
    cases h
    rfl
  | expr he =>
    obtain ⟨e, hres, h⟩ := bind_eq_ok.1 h
    cases h
    exact isCanonical_of_expr spells he hres
  | assign ht he =>
    simp only [statement, isDefinition_assign ht he, Bool.false_eq_true, if_false] at h
    obtain ⟨t, htarget, h⟩ := bind_eq_ok.1 h
    obtain ⟨e, hres, h⟩ := bind_eq_ok.1 h
    cases h
    simp [Stmt.isCanonical, isCanonical_of_target spells ht htarget,
      isCanonical_of_expr spells he hres]
  | define ht htype hvalue =>
    obtain ⟨first, stop, e, rfl, -⟩ := htype
    rw [statement.eq_def] at h
    simp [isDefinition, child?, kind_of_isExpr ht, refuse] at h
  | returned value hvalue =>
    cases place with
    | topLevel => cases h
    | inFunction =>
      cases value with
      | none =>
        cases h
        rfl
      | some e =>
        obtain ⟨r, hr, h⟩ := bind_eq_ok.1 h
        cases h
        exact isCanonical_of_expr spells (hvalue e rfl) hr
  | while_ hc some_stmt _ ih =>
    obtain ⟨cond, hcond, h⟩ := bind_eq_ok.1 h
    obtain ⟨body, hbody, h⟩ := bind_eq_ok.1 h
    cases h
    simp [Stmt.isCanonical, isCanonical_of_expr spells hc hcond,
      isCanonicalBody_of_statements some_stmt (fun n hn s => ih n hn) hbody]
  | if_ last hc some_stmt _ hconds _ some_last _ ihbody ihelifs ihlast =>
    rename_i elifs _ _ _
    rw [statement.eq_def] at h
    obtain ⟨cond, hcond, h⟩ := bind_eq_ok.1 h
    obtain ⟨body, hbody, h⟩ := bind_eq_ok.1 h
    have canonical_cond := isCanonical_of_expr spells hc hcond
    have canonical_body := isCanonicalBody_of_statements some_stmt (fun n hn s => ihbody n hn) hbody
    have otherwise := fun elifs orElse => @isCanonicalBody_of_otherwise tree place elifs last _
      some_last (fun l hl n hn s => ihlast l hl n hn) orElse
    cases elifs with
    | nil =>
      obtain ⟨orElse, hlast, h⟩ : ∃ orElse,
          tree.otherwise place (last.map LastClause.node).toList = .ok orElse ∧
            Except.ok (Stmt.if_ cond body none orElse) = .ok s := by
        cases last <;> exact bind_eq_ok.1 h
      cases h
      exact Stmt.isCanonical_if_iff.2
        ⟨canonical_cond, canonical_body, by simp, otherwise [] orElse hlast⟩
    | cons e elifs =>
      obtain ⟨cond', hcond', h⟩ := bind_eq_ok.1 h
      obtain ⟨body', hbody', h⟩ := bind_eq_ok.1 h
      obtain ⟨orElse, hlast, h⟩ := bind_eq_ok.1 h
      cases h
      obtain ⟨shape', some_stmt'⟩ := hconds e (by simp)
      have canonical_cond' := isCanonical_of_expr spells shape' hcond'
      have canonical_body' :=
        isCanonicalBody_of_statements some_stmt' (fun n hn s => ihelifs e (by simp) n hn) hbody'
      refine Stmt.isCanonical_if_iff.2
        ⟨canonical_cond, canonical_body, ?_, otherwise elifs orElse hlast⟩
      rintro _ ⟨⟩
      exact ⟨canonical_cond', canonical_body'⟩
  | function => cases h
  | class_ => cases h

/-! ## §4 Functions, classes and programs -/

theorem all_of_mapM {α β : Type} {f : α → Except ParseError β} {as : List α} {bs : List β}
    {p : β → Bool} (h : as.mapM f = .ok bs) (each : ∀ a ∈ as, ∀ b, f a = .ok b → p b = true) :
    bs.all p = true := by
  refine List.all_eq_true.2 fun b hb => ?_
  obtain ⟨a, ha, hab⟩ := exists_of_forall₂ (mapM_eq_ok.1 h) hb
  exact each a ha b hab

/-- A definition at the start of a function, read as the variable that it must be. -/
def localDef (tree : SourceTree) (node : Node) : Except ParseError VarDef :=
  match node.kind with
  | .assignStatement => tree.varDef node
  | .functionDefinition => tree.refuse .nestedFunction node
  | .classDefinition => tree.refuse .nestedClass node
  | _ => tree.refuse .unexpected node

theorem innerDefinition_eq (tree : SourceTree) (n : Node) :
    tree.innerDefinition n = (tree.localDef n).map .var := by
  unfold innerDefinition definitionWith localDef
  cases n.kind with
  | assignStatement => cases tree.varDef n <;> rfl
  | _ => rfl

/-- All definitions at the start of a function are variables, so that none of them is left out. -/
theorem mapM_innerDefinition {α : Type} (tree : SourceTree) (ns : List Node)
    (k : List VarDef → Except ParseError α) :
    (ns.mapM tree.innerDefinition >>= fun defs => k (defs.filterMap fun
      | .var v => some v
      | _ => none)) = ns.mapM tree.localDef >>= k := by
  induction ns generalizing k with
  | nil => rfl
  | cons n ns ih =>
    rw [List.mapM_cons, List.mapM_cons, innerDefinition_eq]
    cases tree.localDef n with
    | error e => rfl
    | ok v =>
      have rest := ih fun vs => k (v :: vs)
      simpa using rest

theorem isCanonical_of_localDef (spells : tree.Spells ts) {n : Node} (shape : IsStmt ts n)
    (isDef : isDefinition n = true) {v : VarDef} (h : tree.localDef n = .ok v) :
    v.isCanonical = true := by
  unfold localDef at h
  split at h
  · rename_i kind
    exact isCanonical_of_varDef spells shape kind isDef h
  all_goals cases h

theorem kind_of_isName {n : Node} (h : IsName ts n) : n.kind = .variableName := by
  obtain ⟨i, x, rfl, -⟩ := h
  rfl

theorem kind_of_isTypeDef {n : Node} (h : IsTypeDef ts n) : n.kind = .typeDef := by
  obtain ⟨first, stop, e, rfl, -⟩ := h
  rfl

theorem kind_of_isArgList {n : Node} (h : IsArgList ts n) : n.kind = .argList := by
  obtain ⟨first, stop, args, rfl, -⟩ := h
  rfl

/-- The result type of a function, `None` if it is not written. -/
def result (tree : SourceTree) : Option Node → Except ParseError Ty
  | some t => tree.type t
  | none => .ok .none

/-- How a function of its shape is read. -/
theorem funDef_eq {first stop first' stop' : Nat} {x : Node} {params : List Node}
    {result : Option Node} {body : Suite} (hx : x.kind = .variableName)
    (hresult : ∀ r ∈ result, r.kind = .typeDef) :
    tree.funDef (.mk .functionDefinition first stop
      (x :: .mk .paramList first' stop' params :: result.toList ++ [body.node])) = (do
        let params ← params.mapM tree.param
        let ty ← tree.result result
        let locals ← (body.stmts.takeWhile isDefinition).mapM tree.localDef
        let stmts ← tree.statements .inFunction (body.stmts.dropWhile isDefinition)
        return ⟨tree.text x, params, ty, locals, stmts⟩) := by
  obtain ⟨_, a, b, parts⟩ := x
  cases hx
  simp only [← mapM_innerDefinition]
  rcases result with _ | ⟨_, f, s, e⟩
  · rfl
  · cases hresult _ rfl
    rfl

theorem isCanonical_of_result (spells : tree.Spells ts) {result : Option Node}
    (hresult : ∀ r ∈ result, IsTypeDef ts r) {ty : Ty} (h : tree.result result = .ok ty) :
    ty.isCanonical = true := by
  cases result with
  | none =>
    cases h
    rfl
  | some r => exact isCanonical_of_type spells (hresult r rfl) h

theorem isCanonical_of_funDef (spells : tree.Spells ts) {n : Node} (shape : IsStmt ts n)
    (kind : n.kind = .functionDefinition) {f : FunDef} (h : tree.funDef n = .ok f) :
    f.isCanonical = true := by
  cases shape with
  | function hx hparams hresult some_stmt hbody =>
    rw [funDef_eq (kind_of_isName hx) fun r hr => kind_of_isTypeDef (hresult r hr)] at h
    obtain ⟨params, hps, h⟩ := bind_eq_ok.1 h
    obtain ⟨ty, hty, h⟩ := bind_eq_ok.1 h
    obtain ⟨locals, hlocals, h⟩ := bind_eq_ok.1 h
    obtain ⟨stmts, hstmts, h⟩ := bind_eq_ok.1 h
    cases h
    have canonical_params : params.all Param.isCanonical = true :=
      all_of_mapM hps fun p hp _ => isCanonical_of_param spells (hparams p hp)
    have canonical_locals : locals.all VarDef.isCanonical = true :=
      all_of_mapM hlocals fun n hn _ =>
        isCanonical_of_localDef spells (hbody n (List.takeWhile_subset _ hn))
          (List.all_eq_true.1 List.all_takeWhile n hn)
    have canonical_stmts : Stmt.areCanonical true stmts = true :=
      areCanonical_of_statements (fun n hn _ =>
        isCanonical_of_statement spells (hbody n (List.dropWhile_subset _ hn))) hstmts
    -- a suite is not empty, and all of it is read, as variables or as statements
    have some_part : (locals.isEmpty && stmts.isEmpty) = false := by
      refine Bool.eq_false_iff.2 fun both => some_stmt ?_
      obtain ⟨rfl, rfl⟩ : locals = [] ∧ stmts = [] := by simpa using both
      have no_locals := List.forall₂_nil_right_iff.1 (mapM_eq_ok.1 hlocals)
      have no_stmts := eq_nil_of_statements hstmts
      rw [← @List.takeWhile_append_dropWhile _ isDefinition (Suite.stmts _), no_locals, no_stmts]
      rfl
    simp [FunDef.isCanonical, spells.isIdentifier_name hx, canonical_params,
      isCanonical_of_result spells hresult hty, canonical_locals, canonical_stmts, some_part]
  | _ => cases kind

theorem isIdentifier_of_parent (spells : tree.Spells ts) {n : Node} (shape : IsStmt ts n)
    (kind : n.kind = .classDefinition) {x : String} (h : tree.parent n = .ok x) :
    isIdentifier x = true := by
  unfold parent at h
  split at h
  · cases h
  · rename_i parents found
    have isArgs : IsArgList ts parents := by
      cases shape with
      | class_ hx hparents =>
        rename_i given body _ _
        obtain ⟨i, y, rfl, -⟩ := hx
        refine hparents parents ?_
        cases given with
        | none => simp [child?, Suite.node] at found
        | some p =>
          obtain ⟨first, stop, args, rfl, -⟩ := hparents p rfl
          simpa [child?] using found
      | _ => cases kind
    obtain ⟨first, stop, args, rfl, hargs⟩ := isArgs
    split at h
    · rename_i p hp
      split at h
      · rename_i isName
        cases h
        obtain rfl : args = [p] := hp
        exact isIdentifier_of_isExpr spells (hargs p (by simp)) isName
      · cases h
    · cases h

/-- The members of a class: its fields are variables and its methods are functions. -/
theorem isCanonical_of_member (spells : tree.Spells ts) {n : Node} (shape : IsStmt ts n)
    {m : VarDef ⊕ FunDef} (h : tree.member n = .ok (some m)) :
    m.elim VarDef.isCanonical FunDef.isCanonical = true := by
  unfold member at h
  split at h
  · cases h
  · rename_i kind
    split at h
    · rename_i isDef
      obtain ⟨v, hv, h⟩ := bind_eq_ok.1 h
      cases h
      exact isCanonical_of_varDef spells shape kind isDef hv
    · cases h
  · rename_i kind
    obtain ⟨f, hf, h⟩ := bind_eq_ok.1 h
    cases h
    exact isCanonical_of_funDef spells shape kind hf
  · cases h
  · cases h

/-- How a class of its shape is read. -/
theorem classDef_eq {first stop : Nat} {x : Node} {parents : Option Node} {body : Suite}
    (hx : x.kind = .variableName) (hparents : ∀ p ∈ parents, p.kind = .argList) :
    let n := Node.mk .classDefinition first stop (x :: parents.toList ++ [body.node])
    tree.classDef n = (do
      let parent ← tree.parent n
      let members ← body.stmts.mapM tree.member
      return ⟨tree.text x, parent, members.filterMap (·.bind Sum.getLeft?),
        members.filterMap (·.bind Sum.getRight?)⟩) := by
  obtain ⟨_, a, b, parts⟩ := x
  cases hx
  rcases parents with _ | ⟨_, f, s, args⟩
  · rfl
  · cases hparents _ rfl
    rfl

theorem isCanonical_of_classDef (spells : tree.Spells ts) {n : Node} (shape : IsStmt ts n)
    (kind : n.kind = .classDefinition) {c : ClassDef} (h : tree.classDef n = .ok c) :
    c.isCanonical = true := by
  have hparent := fun x => @isIdentifier_of_parent tree ts spells n shape kind x
  cases shape with
  | class_ hx hparents _ hbody =>
    rw [classDef_eq (kind_of_isName hx) fun p hp => kind_of_isArgList (hparents p hp)] at h
    obtain ⟨parent, hp, h⟩ := bind_eq_ok.1 h
    obtain ⟨members, hmembers, h⟩ := bind_eq_ok.1 h
    cases h
    have canonical : ∀ m, some m ∈ members →
        m.elim VarDef.isCanonical FunDef.isCanonical = true := by
      have all := @all_of_mapM _ _ _ _ _
        (fun m => m.all (Sum.elim VarDef.isCanonical FunDef.isCanonical)) hmembers
        fun n hn m hm => by
          cases m with
          | none => rfl
          | some m => exact isCanonical_of_member spells (hbody n hn) hm
      exact fun m hm => List.all_eq_true.1 all _ hm
    have fields : (members.filterMap (·.bind Sum.getLeft?)).all VarDef.isCanonical = true := by
      refine List.all_eq_true.2 fun v hv => ?_
      obtain ⟨m, hm, h⟩ := List.mem_filterMap.1 hv
      obtain ⟨m, rfl, h⟩ := Option.bind_eq_some_iff.1 h
      obtain rfl := Sum.getLeft?_eq_some_iff.1 h
      exact canonical _ hm
    have methods : (members.filterMap (·.bind Sum.getRight?)).all FunDef.isCanonical = true := by
      refine List.all_eq_true.2 fun f hf => ?_
      obtain ⟨m, hm, h⟩ := List.mem_filterMap.1 hf
      obtain ⟨m, rfl, h⟩ := Option.bind_eq_some_iff.1 h
      obtain rfl := Sum.getRight?_eq_some_iff.1 h
      exact canonical _ hm
    simp [ClassDef.isCanonical, spells.isIdentifier_name hx, hparent parent hp, fields, methods]
  | _ => cases kind

theorem isCanonical_of_definition (spells : tree.Spells ts) {n : Node} (shape : IsStmt ts n)
    (isDef : isDefinition n = true) {d : Def} (h : tree.definition n = .ok d) :
    d.isCanonical = true := by
  unfold definition definitionWith at h
  split at h
  · rename_i kind
    obtain ⟨v, hv, h⟩ := bind_eq_ok.1 h
    cases h
    exact isCanonical_of_varDef spells shape kind isDef hv
  · rename_i kind
    obtain ⟨f, hf, h⟩ := bind_eq_ok.1 h
    cases h
    exact isCanonical_of_funDef spells shape kind hf
  · rename_i kind
    obtain ⟨c, hc, h⟩ := bind_eq_ok.1 h
    cases h
    exact isCanonical_of_classDef spells shape kind hc
  · cases h

theorem isCanonical_of_program (spells : tree.Spells ts)
    (shape : ∀ n ∈ tree.root.children, IsStmt ts n) {p : Program} (h : tree.program = .ok p) :
    p.isCanonical = true := by
  obtain ⟨defs, hdefs, h⟩ := bind_eq_ok.1 h
  obtain ⟨stmts, hstmts, h⟩ := bind_eq_ok.1 h
  cases h
  have canonical_defs : defs.all Def.isCanonical = true :=
    all_of_mapM hdefs fun n hn _ =>
      isCanonical_of_definition spells (shape n (List.takeWhile_subset _ hn))
        (List.all_eq_true.1 List.all_takeWhile n hn)
  have canonical_stmts : Stmt.areCanonical false stmts = true :=
    areCanonical_of_statements (fun n hn _ =>
      isCanonical_of_statement spells (shape n (List.dropWhile_subset _ hn))) hstmts
  simp [Program.isCanonical, canonical_defs, canonical_stmts]

end SourceTree

/-- Every program that is read from a source text is canonical. -/
theorem Program.isCanonical_of_parse {source : String} {p : Program}
    (h : Program.parse source = .ok p) : p.isCanonical = true := by
  obtain ⟨lexemes, hlex, h⟩ := bind_eq_ok.1 h
  obtain ⟨tree, htree, h⟩ := bind_eq_ok.1 h
  rw [mapError_eq_ok] at hlex htree
  unfold SourceTree.ofLexemes at htree
  split at htree
  · rename_i root hroot
    cases htree
    exact SourceTree.isCanonical_of_program (SourceTree.spells_of_lex hlex root)
      (isStmt_of_ofTokens hroot) h
  · cases htree

end Serpent
