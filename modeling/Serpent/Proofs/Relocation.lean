/-
Serpent.Proofs.Relocation — a part of a tree is read the same way in another tree.

A tree is read as a program through the texts of its leaves, which are the spellings of tokens. So
where the tokens of one tree stand again in another, `k` places further to the right, the moved
nodes are read there as the same expressions, statements and definitions, or refused in both trees.
What the two refusals say may differ: the text of a node that is refused can take in a comment.

  §1 Readings that agree
  §2 Expressions
  §3 Variables, types and parameters
  §4 Statements
  §5 Functions, classes and parts
-/
import Serpent.Proofs.Embedding
import Serpent.Proofs.Parsed

namespace Serpent

open Fallible Node

namespace Node

variable {k : Nat}

theorem children_move (n : Node) : (n.move k).children = n.children.map (move k) := by
  obtain ⟨kind, first, stop, parts⟩ := n
  rw [move_mk]
  rfl

theorem child?_move (n : Node) (kind : Kind) :
    (n.move k).child? kind = (n.child? kind).map (move k) := by
  rw [child?, children_move, List.find?_map, child?]
  congr 2
  funext m
  simp

end Node

namespace SourceTree

theorem isDefinition_move {k : Nat} (n : Node) : isDefinition (n.move k) = isDefinition n := by
  simp [isDefinition, child?_move]

/-! ## §1 Readings that agree -/

/-- Two readings agree: both give the same, or both refuse. -/
def Same {α : Type} (x y : Except ParseError α) : Prop := x.toOption = y.toOption

namespace Same

variable {α β : Type} {x y : Except ParseError α}

theorem rfl : Same x x := Eq.refl _

theorem ok {a b : α} (h : a = b) : Same (.ok a) (.ok b) := congrArg some h

theorem eq_ok {a : α} (same : Same x y) (h : x = .ok a) : y = .ok a := by
  subst h
  cases y with
  | error e => cases same
  | ok b =>
    cases same
    exact Eq.refl _

theorem bind {f g : α → Except ParseError β} (first : Same x y) (after : ∀ a, Same (f a) (g a)) :
    Same (x >>= f) (y >>= g) := by
  cases x with
  | error e =>
    cases y with
    | error e' => exact Eq.refl _
    | ok b => cases first
  | ok a =>
    have hy := first.eq_ok (Eq.refl _)
    subst hy
    exact after a

/-- Readings agree if what is made of them agrees and tells them apart. -/
theorem of_bind {f : α → β} (same : Same (x >>= fun a => .ok (f a)) (y >>= fun a => .ok (f a)))
    (inj : Function.Injective f) : Same x y := by
  cases x with
  | error e =>
    cases y with
    | error e' => exact Eq.refl _
    | ok b => cases same
  | ok a =>
    cases y with
    | error e' => cases same
    | ok b => exact congrArg some (inj (Option.some.inj same))

theorem map (f : α → β) (same : Same x y) : Same (x.map f) (y.map f) := by
  have map_eq_bind : ∀ z : Except ParseError α, z.map f = z >>= fun a => .ok (f a) := by
    intro z
    cases z <;> exact Eq.refl _
  rw [map_eq_bind, map_eq_bind]
  exact same.bind fun a => rfl

theorem refuse {tree tree' : SourceTree} {f f' : Fault} {n n' : Node} :
    Same (tree.refuse f n : Except ParseError α) (tree'.refuse f' n') := Eq.refl _

end Same

/-- In `tree'` stand the words of `tree`, whose tokens are `ts`, moved by `k` tokens. -/
def Rereads (tree tree' : SourceTree) (ts : List Token) (k : Nat) : Prop :=
  ∀ ⦃i : Nat⦄ ⦃t : Token⦄, ts[i]? = some t → t.isMark = false → ∀ kind : Kind,
    tree'.text ((Node.mk kind i (i + 1) []).move k) = tree.text (.mk kind i (i + 1) [])

theorem rereads_of_spells {tree tree' : SourceTree} {ts ts' : List Token} {k : Nat}
    (spells : tree.Spells ts) (spells' : tree'.Spells ts')
    (again : ∀ ⦃i : Nat⦄ ⦃t : Token⦄, ts[i]? = some t → ts'[i + k]? = some t) :
    Rereads tree tree' ts k := by
  intro i t at_index mark kind
  rw [move_mk, Nat.add_right_comm, spells'.text_leaf (again at_index) mark,
    spells.text_leaf at_index mark]

variable {tree tree' : SourceTree} {ts : List Token} {k : Nat}

theorem same_mapM {β : Type} {f g : Node → Except ParseError β} {ns : List Node}
    (each : ∀ n ∈ ns, Same (f n) (g (n.move k))) :
    Same (ns.mapM f) ((ns.map (move k)).mapM g) := by
  induction ns with
  | nil => exact .rfl
  | cons n ns ih =>
    rw [List.map_cons, List.mapM_cons, List.mapM_cons]
    refine (each n (by simp)).bind fun b => ?_
    exact (ih fun m hm => each m (by simp [hm])).bind fun bs => .rfl

/-! ## §2 Expressions -/

/-- An atom that is no word of the language has the same text. -/
theorem text_move (rereads : Rereads tree tree' ts k) {n : Node} (shape : IsExpr ts n)
    (kind : n.kind ∈ [.variableName, .number, .boolean]) :
    tree'.text (n.move k) = tree.text n := by
  cases shape with
  | @atom i t leaf at_index atom =>
    have mark : t.isMark = false := by
      unfold atomKind? at atom
      split at atom <;> cases atom <;> rfl
    exact rereads at_index mark leaf
  | _ => simp at kind

theorem text_name (rereads : Rereads tree tree' ts k) {n : Node} (h : IsName ts n) :
    tree'.text (n.move k) = tree.text n := by
  obtain ⟨i, x, rfl, at_index⟩ := h
  exact rereads at_index rfl .variableName

theorem same_literal (rereads : Rereads tree tree' ts k) {n : Node} (shape : IsExpr ts n) :
    Same (tree.literal n) (tree'.literal (n.move k)) := by
  unfold literal
  rw [kind_move]
  split
  · exact .rfl
  · rename_i kind
    rw [text_move rereads shape (by simp [kind])]
    exact .rfl
  · rename_i kind
    rw [text_move rereads shape (by simp [kind])]
    split
    · exact .rfl
    · exact .refuse
  · exact .refuse

theorem same_atom (rereads : Rereads tree tree' ts k) {i : Nat} {t : Token} {kind : Kind}
    (at_index : ts[i]? = some t) (atom : atomKind? t = some kind) :
    Same (tree.expr (.mk kind i (i + 1) [])) (tree'.expr ((Node.mk kind i (i + 1) []).move k)) := by
  have shape : IsExpr ts (.mk kind i (i + 1) []) := .atom at_index atom
  have literal := (same_literal rereads shape).bind fun v =>
    Same.rfl (x := Except.ok (Expr.literal none v))
  unfold atomKind? at atom
  split at atom
  all_goals cases atom
  · exact literal
  · exact .refuse
  · exact literal
  · exact literal
  · exact literal
  · exact .ok (congrArg (Expr.var none) (text_move rereads shape (by simp)).symm)

theorem isMark_of_unaryLevel? {t : Token} {level : Nat} (h : unaryLevel? t = some level) :
    t.isMark = false := by
  cases t <;> first | rfl | cases h

theorem isMark_of_binaryLevel? {t : Token} {level : Nat} (h : binaryLevel? t = some level) :
    t.isMark = false := by
  cases t <;> first | rfl | cases h

theorem same_exprs {args : List Node}
    (each : ∀ a ∈ args, Same (tree.expr a) (tree'.expr (a.move k))) :
    Same (tree.exprs args) (tree'.exprs (args.map (move k))) := by
  induction args with
  | nil => exact .rfl
  | cons a args ih =>
    refine (each a (by simp)).bind fun e => ?_
    exact (ih fun b hb => each b (by simp [hb])).bind fun es => .rfl

theorem same_expr (rereads : Rereads tree tree' ts k) {n : Node} (shape : IsExpr ts n) :
    Same (tree.expr n) (tree'.expr (n.move k)) := by
  induction shape with
  | atom at_index kind => exact same_atom rereads at_index kind
  | parenthesized _ ih => exact ih
  | @unary first stop i t level e at_index op he ih =>
    rw [move_mk, List.map_cons, List.map_singleton, expr, expr]
    rw [rereads at_index (isMark_of_unaryLevel? op)]
    split
    · exact .refuse
    · exact ih.bind fun _ => .rfl
  | @binary first stop i t level l r hl at_index op hr ihl ihr =>
    rw [move_mk, List.map_cons, List.map_cons, List.map_singleton, expr, expr]
    rw [rereads at_index (isMark_of_binaryLevel? op)]
    split
    · exact .refuse
    · exact ihl.bind fun _ => ihr.bind fun _ => .rfl
  | @member first stop i x o ho at_index ih =>
    rw [move_mk, List.map_cons, List.map_singleton, expr, expr]
    rw [rereads at_index rfl]
    exact ih.bind fun _ => .rfl
  | @call first stop first' stop' f args hf hargs ihf ihargs =>
    rw [move_mk, List.map_cons, List.map_singleton, move_mk, expr, expr]
    refine (same_exprs ihargs).bind fun args => ?_
    cases hf with
    | atom at_index atom =>
      have shape := IsExpr.atom at_index atom
      unfold atomKind? at atom
      split at atom
      all_goals cases atom
      case h_6 =>
        exact .ok (congrArg (Expr.call none · args) (text_move rereads shape (by simp)).symm)
      all_goals exact .refuse
    | member ho at_index =>
      -- what is called is read as a field when it stands alone
      rw [move_mk, List.map_cons, List.map_singleton, expr, expr, rereads at_index rfl] at ihf
      rw [move_mk, List.map_cons, List.map_singleton]
      simp only [rereads at_index rfl]
      exact (ihf.of_bind fun a b h => by cases h; rfl).bind fun _ => .rfl
    | _ => exact .refuse

/-! ## §3 Variables, types and parameters -/

theorem same_target (rereads : Rereads tree tree' ts k) {n : Node} (shape : IsExpr ts n) :
    Same (tree.target n) (tree'.target (n.move k)) := by
  cases shape with
  | atom at_index atom =>
    have shape := IsExpr.atom at_index atom
    unfold atomKind? at atom
    split at atom
    all_goals cases atom
    case h_6 => exact .ok (congrArg Target.var (text_move rereads shape (by simp)).symm)
    all_goals exact .refuse
  | member ho at_index =>
    rw [move_mk, List.map_cons, List.map_singleton, target, target, rereads at_index rfl]
    exact (same_expr rereads ho).bind fun _ => .rfl
  | _ => exact .refuse

theorem same_type (rereads : Rereads tree tree' ts k) {n : Node} (shape : IsTypeDef ts n) :
    Same (tree.type n) (tree'.type (n.move k)) := by
  obtain ⟨first, stop, e, rfl, he⟩ := shape
  rw [move_mk, List.map_singleton]
  simp only [type, children_mk, kind_move]
  split
  · exact .rfl
  · rename_i kind
    rw [text_move rereads he (by simp [kind])]
    exact .rfl
  · exact .refuse

theorem same_initializer (rereads : Rereads tree tree' ts k) {n : Node} (shape : IsExpr ts n) :
    Same (tree.initializer n) (tree'.initializer (n.move k)) := by
  have literal := same_literal rereads shape
  unfold initializer
  rw [kind_move]
  split
  · exact literal
  · exact literal
  · exact literal
  · exact .refuse
  · exact .refuse

theorem same_varDef (rereads : Rereads tree tree' ts k) {n : Node} (shape : IsStmt ts n)
    (kind : n.kind = .assignStatement) (isDef : isDefinition n = true) :
    Same (tree.varDef n) (tree'.varDef (n.move k)) := by
  cases shape with
  | assign ht he => simp [isDefinition_assign ht he] at isDef
  | @define first stop t type value ht htype hvalue =>
    rw [move_mk, List.map_cons, List.map_cons]
    simp only [varDef, children_mk, kind_move]
    split
    · exact .refuse
    · rename_i name
      rw [text_move rereads ht (by simp [not_not.1 name])]
      refine (same_type rereads htype).bind fun ty => ?_
      cases value with
      | none => exact .refuse
      | some v => exact (same_initializer rereads (hvalue v rfl)).bind fun _ => .rfl
  | _ => cases kind

theorem same_param (rereads : Rereads tree tree' ts k) {n : Node} (shape : IsParam ts n) :
    Same (tree.param n) (tree'.param (n.move k)) := by
  obtain ⟨first, stop, x, type, rfl, ⟨i, y, rfl, at_index⟩, htype⟩ := shape
  cases type with
  | none => exact .rfl
  | some type =>
    have isType := htype type rfl
    obtain ⟨f, s, e, rfl, -⟩ := htype type rfl
    have text := rereads at_index rfl .variableName
    refine (same_type rereads isType).bind fun ty => .ok ?_
    exact congrArg (Param.mk · ty) text.symm

/-! ## §4 Statements -/

theorem same_statements {place : Place} {body : List Node}
    (each : ∀ n ∈ body, Same (tree.statement place n) (tree'.statement place (n.move k))) :
    Same (tree.statements place body) (tree'.statements place (body.map (move k))) := by
  induction body with
  | nil => exact .rfl
  | cons n body ih =>
    refine (each n (by simp)).bind fun s => ?_
    exact (ih fun m hm => each m (by simp [hm])).bind fun ss => .rfl

/-- A definition is refused where a statement is expected. -/
theorem statement_of_isDefinition {place : Place} {n : Node} (h : isDefinition n = true) :
    tree.statement place n = tree.refuse .definitionAfterStatement n := by
  obtain ⟨kind, first, stop, parts⟩ := n
  cases kind
  case assignStatement =>
    rw [statement.eq_def]
    exact if_pos h
  case functionDefinition => rfl
  case classDefinition => rfl
  all_goals cases h

theorem same_otherwise {place : Place} {elifs : List Clause} {last : Option LastClause}
    (each : ∀ l ∈ last, ∀ n ∈ l.body.stmts,
      Same (tree.statement place n) (tree'.statement place (n.move k))) :
    Same (tree.otherwise place (elifs.map Clause.node ++ (last.map LastClause.node).toList))
      (tree'.otherwise place
        ((elifs.map Clause.node ++ (last.map LastClause.node).toList).map (move k))) := by
  cases elifs with
  | cons e elifs => exact .refuse
  | nil =>
    cases last with
    | none => exact .rfl
    | some l =>
      show Same _ (tree'.otherwise place [l.node.move k])
      rw [LastClause.node, move_mk, List.map_singleton, Suite.node, move_mk]
      exact (same_statements (each l rfl)).bind fun ss => .rfl

theorem same_statement (rereads : Rereads tree tree' ts k) {place : Place} {n : Node}
    (shape : IsStmt ts n) :
    Same (tree.statement place n) (tree'.statement place (n.move k)) := by
  induction shape with
  | pass => exact .rfl
  | expr he => exact (same_expr rereads he).bind fun _ => .rfl
  | @assign first stop t e ht he =>
    have moved := isDefinition_move (k := k) (.mk .assignStatement first stop [t, e])
    rw [isDefinition_assign ht he, move_mk, List.map_cons, List.map_singleton] at moved
    rw [move_mk, List.map_cons, List.map_singleton]
    simp only [statement, isDefinition_assign ht he, moved, Bool.false_eq_true, if_false]
    exact (same_target rereads ht).bind fun _ => (same_expr rereads he).bind fun _ => .rfl
  | @define first stop t type value ht htype hvalue =>
    have isDef : isDefinition (.mk .assignStatement first stop (t :: type :: value.toList)) := by
      obtain ⟨f, s, e, rfl, -⟩ := htype
      simp [isDefinition, child?, kind_of_isExpr ht]
    rw [statement_of_isDefinition isDef,
      statement_of_isDefinition ((isDefinition_move _).trans isDef)]
    exact .refuse
  | returned value hvalue =>
    cases place with
    | topLevel => exact .refuse
    | inFunction =>
      cases value with
      | none => exact .rfl
      | some e => exact (same_expr rereads (hvalue e rfl)).bind fun _ => .rfl
  | @while_ first stop c body hc some_stmt _ ih =>
    rw [move_mk, List.map_cons, List.map_singleton, Suite.node, move_mk]
    exact (same_expr rereads hc).bind fun _ => (same_statements ih).bind fun _ => .rfl
  | @if_ first stop c body elifs last hc some_stmt _ hconds _ some_last _ ihbody ihelifs ihlast =>
    rw [move_mk, List.cons_append, List.map_cons, List.cons_append, List.map_cons, Suite.node,
      move_mk, statement.eq_def, statement.eq_def]
    refine (same_expr rereads hc).bind fun cond => (same_statements ihbody).bind fun ss => ?_
    cases elifs with
    | nil =>
      have rest := @same_otherwise tree tree' k place [] last ihlast
      cases last with
      | none => exact rest.bind fun _ => .rfl
      | some l => exact rest.bind fun _ => .rfl
    | cons e elifs =>
      have rest := @same_otherwise tree tree' k place elifs last ihlast
      rw [List.map_cons, List.cons_append, List.map_cons, Clause.node, move_mk, List.map_cons,
        List.map_singleton, Suite.node, move_mk]
      refine (same_expr rereads (hconds e (by simp)).1).bind fun cond' => ?_
      refine (same_statements (ihelifs e (by simp))).bind fun ss' => ?_
      exact rest.bind fun _ => .rfl
  | function => exact .refuse
  | class_ => exact .refuse

/-! ## §5 Functions, classes and parts -/

theorem same_localDef (rereads : Rereads tree tree' ts k) {n : Node} (shape : IsStmt ts n)
    (isDef : isDefinition n = true) : Same (tree.localDef n) (tree'.localDef (n.move k)) := by
  unfold localDef
  rw [kind_move]
  split
  · rename_i kind
    exact same_varDef rereads shape kind isDef
  · exact .refuse
  · exact .refuse
  · exact .refuse

/-- The definitions at the start of nodes are the same after a move. -/
theorem takeWhile_isDefinition_move (ns : List Node) :
    (ns.map (move k)).takeWhile isDefinition = (ns.takeWhile isDefinition).map (move k) := by
  rw [List.takeWhile_map]
  congr 2
  funext n
  exact isDefinition_move n

theorem dropWhile_isDefinition_move (ns : List Node) :
    (ns.map (move k)).dropWhile isDefinition = (ns.dropWhile isDefinition).map (move k) := by
  rw [List.dropWhile_map]
  congr 2
  funext n
  exact isDefinition_move n

theorem same_result (rereads : Rereads tree tree' ts k) {result : Option Node}
    (hresult : ∀ r ∈ result, IsTypeDef ts r) :
    Same (tree.result result) (tree'.result (result.map (move k))) := by
  cases result with
  | none => exact .rfl
  | some r => exact same_type rereads (hresult r rfl)

theorem same_funDef (rereads : Rereads tree tree' ts k) {n : Node} (shape : IsStmt ts n)
    (kind : n.kind = .functionDefinition) : Same (tree.funDef n) (tree'.funDef (n.move k)) := by
  cases shape with
  | @function first stop first' stop' x params result body hx hparams hresult some_stmt hbody =>
    have moved : (Node.mk .functionDefinition first stop
        (x :: .mk .paramList first' stop' params :: result.toList ++ [body.node])).move k =
        .mk .functionDefinition (first + k) (stop + k)
          (x.move k :: .mk .paramList (first' + k) (stop' + k) (params.map (move k)) ::
            (result.map (move k)).toList ++
              [Suite.node ⟨body.first + k, body.stop + k, body.stmts.map (move k)⟩]) := by
      simp [move_mk, Suite.node, Option.toList_map]
    have hresult' : ∀ r ∈ result, r.kind = .typeDef := fun r hr => kind_of_isTypeDef (hresult r hr)
    rw [moved, funDef_eq (kind_of_isName hx) hresult',
      funDef_eq ((kind_move x).trans (kind_of_isName hx)) (by simpa using hresult')]
    refine (same_mapM fun p hp => same_param rereads (hparams p hp)).bind fun params => ?_
    refine (same_result rereads hresult).bind fun ty => ?_
    rw [takeWhile_isDefinition_move, dropWhile_isDefinition_move]
    refine (same_mapM fun n hn => ?_).bind fun locals => (same_statements fun n hn => ?_).bind
      fun stmts => .ok (congrArg (FunDef.mk · params ty locals stmts) (text_name rereads hx).symm)
    · exact same_localDef rereads (hbody n (List.takeWhile_subset _ hn))
        (List.all_eq_true.1 List.all_takeWhile n hn)
    · exact same_statement rereads (hbody n (List.dropWhile_subset _ hn))
  | _ => cases kind

theorem same_parent (rereads : Rereads tree tree' ts k) {n : Node} (shape : IsStmt ts n)
    (kind : n.kind = .classDefinition) : Same (tree.parent n) (tree'.parent (n.move k)) := by
  have isArgs : ∀ parents, n.child? .argList = some parents → IsArgList ts parents := by
    intro parents found
    cases shape with
    | @class_ first stop x given body hx hparents =>
      obtain ⟨i, y, rfl, -⟩ := hx
      refine hparents parents ?_
      cases given with
      | none => simp [child?, Suite.node] at found
      | some p =>
        obtain ⟨first, stop, args, rfl, -⟩ := hparents p rfl
        simpa [child?] using found
    | _ => cases kind
  unfold parent
  rw [child?_move]
  cases found : n.child? .argList with
  | none => exact .refuse
  | some parents =>
    obtain ⟨first, stop, args, rfl, hargs⟩ := isArgs parents found
    rw [Option.map_some, move_mk]
    simp only [children_mk]
    rcases args with _ | ⟨p, _ | ⟨q, more⟩⟩
    · exact .refuse
    · simp only [List.map_singleton, kind_move]
      split
      · rename_i isName
        exact .ok (text_move rereads (hargs p (by simp)) (by simp [isName])).symm
      · exact .refuse
    · exact .refuse

theorem same_member (rereads : Rereads tree tree' ts k) {n : Node} (shape : IsStmt ts n) :
    Same (tree.member n) (tree'.member (n.move k)) := by
  unfold member
  rw [kind_move, isDefinition_move]
  split
  · exact .rfl
  · rename_i kind
    split
    · rename_i isDef
      exact (same_varDef rereads shape kind isDef).bind fun _ => .rfl
    · exact .refuse
  · rename_i kind
    exact (same_funDef rereads shape kind).bind fun _ => .rfl
  · exact .refuse
  · exact .refuse

theorem same_classDef (rereads : Rereads tree tree' ts k) {n : Node} (shape : IsStmt ts n)
    (kind : n.kind = .classDefinition) : Same (tree.classDef n) (tree'.classDef (n.move k)) := by
  have parent := same_parent rereads shape kind
  cases shape with
  | @class_ first stop x parents body hx hparents some_stmt hbody =>
    have moved : (Node.mk .classDefinition first stop
        (x :: parents.toList ++ [body.node])).move k =
        .mk .classDefinition (first + k) (stop + k)
          (x.move k :: (parents.map (move k)).toList ++
            [Suite.node ⟨body.first + k, body.stop + k, body.stmts.map (move k)⟩]) := by
      simp [move_mk, Suite.node, Option.toList_map]
    have hparents' : ∀ p ∈ parents, p.kind = .argList :=
      fun p hp => kind_of_isArgList (hparents p hp)
    rw [moved] at parent ⊢
    rw [classDef_eq (kind_of_isName hx) hparents',
      classDef_eq ((kind_move x).trans (kind_of_isName hx)) (by simpa using hparents')]
    refine parent.bind fun parent => ?_
    refine (same_mapM fun n hn => same_member rereads (hbody n hn)).bind fun members => .ok ?_
    rw [text_name rereads hx]
  | _ => cases kind

theorem same_definition (rereads : Rereads tree tree' ts k) {n : Node} (shape : IsStmt ts n)
    (isDef : isDefinition n = true) : Same (tree.definition n) (tree'.definition (n.move k)) := by
  unfold definition definitionWith
  rw [kind_move]
  split
  · rename_i kind
    exact (same_varDef rereads shape kind isDef).bind fun _ => .rfl
  · rename_i kind
    exact (same_funDef rereads shape kind).bind fun _ => .rfl
  · rename_i kind
    exact (same_classDef rereads shape kind).bind fun _ => .rfl
  · exact .refuse

/-- A part of a script: a definition or a statement. -/
def part (tree : SourceTree) (node : Node) : Except ParseError (Def ⊕ Stmt) :=
  if isDefinition node then (tree.definition node).map .inl
  else (tree.statement .topLevel node).map .inr

/-- A part of a script is read the same way after a move. -/
theorem same_part (rereads : Rereads tree tree' ts k) {n : Node} (shape : IsStmt ts n) :
    Same (tree.part n) (tree'.part (n.move k)) := by
  unfold part
  rw [isDefinition_move]
  split
  · rename_i isDef
    exact (same_definition rereads shape isDef).map _
  · exact (same_statement rereads shape).map _

end SourceTree

end Serpent
