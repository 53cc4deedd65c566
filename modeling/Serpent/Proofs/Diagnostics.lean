/-
Serpent.Proofs.Diagnostics — why a text is no program is said with a place in the text.

A text that cannot be cut into lexemes is refused at one of its characters, and a line that matches
no block at its first lexeme (§1). A tree that is no program is refused at one of its nodes: the
reading goes down the tree, and what it refuses is always the node it has come to or one below it
(§2 to §4). So every error has the span of a node, and its fragment is the text of that node.

  §1 Texts that are not cut into lexemes
  §2 Errors that name a node
  §3 Expressions and definitions of variables
  §4 Statements, functions and classes
  §5 Errors of a program
-/
import Serpent.Proofs.Impossible
import Serpent.Proofs.Joined
import Serpent.Proofs.NodeText

namespace Serpent

open Fallible Node

/-! ## §1 Texts that are not cut into lexemes -/

/-- The scan stops at a character. -/
theorem scanFrom_eq_error {source before cs : List Char} {skip : Nat} {e : LexError}
    (cut : source = before ++ cs) (h : scanFrom (utf8Length before) skip cs = .error e) :
    ∃ p c q, source = p ++ [c] ++ q ∧
      e = .unexpectedInput (String.singleton c) ⟨utf8Length p, utf8Length p + utf8Length [c]⟩ := by
  induction cs generalizing before skip with
  | nil => cases skip <;> cases h
  | cons c cs ih =>
    have cut' : source = before ++ [c] ++ cs := by simpa using cut
    have place : utf8Length before + c.utf8Size = utf8Length (before ++ [c]) := by simp
    cases skip with
    | succ skip =>
      rw [scanFrom, place] at h
      exact ih cut' h
    | zero =>
      rw [scanFrom, place] at h
      cases front : Front.of c cs with
      | gap more =>
        rw [front] at h
        exact ih cut' h
      | token t more =>
        rw [front] at h
        rcases bind_eq_error.1 h with h | ⟨ls, -, h⟩
        · exact ih cut' h
        · cases h
      | nothing =>
        rw [front] at h
        cases h
        exact ⟨before, c, cs, cut', by simp⟩

/-- The layout stops at a lexeme that is no end of a line. -/
theorem layoutFrom_eq_error {source : List Char} {s : LayoutState} {ls : List Lexeme} {e : LexError}
    (h : layoutFrom source s ls = .error e) :
    ∃ l ∈ ls, l.token ≠ .newline ∧ e = .inconsistentDedent (.empty l.span.start) := by
  induction ls generalizing s with
  | nil => cases h
  | cons l ls ih =>
    obtain ⟨t, span⟩ := l
    have later {s : LayoutState} (h : layoutFrom source s ls = .error e) :
        ∃ l ∈ ⟨t, span⟩ :: ls, l.token ≠ .newline ∧
          e = .inconsistentDedent (.empty l.span.start) := by
      obtain ⟨l, hl, found⟩ := ih h
      exact ⟨l, List.mem_cons_of_mem _ hl, found⟩
    by_cases newline : t = .newline
    · subst newline
      rw [layoutFrom_newline] at h
      split at h
      · exact later (map_eq_error.1 h)
      · exact later h
    · cases start : s.lineStart with
      | true =>
        rw [layoutFrom_first newline start] at h
        split at h
        · cases h
          exact ⟨_, List.mem_cons_self, newline, rfl⟩
        · exact later (map_eq_error.1 h)
      | false =>
        rw [layoutFrom_later newline start] at h
        exact later (map_eq_error.1 h)

/-! ## §2 Errors that name a node -/

/-- A node, or one below it. -/
inductive Node.Has : Node → Node → Prop
  | self {n : Node} : Has n n
  | under {n c m : Node} (part : c ∈ n.children) (h : Has c m) : Has n m

theorem Node.Everywhere.of_has {P : Node → Prop} {n m : Node} (h : n.Everywhere P) (has : n.Has m) :
    P m := by
  induction has with
  | self => exact (everywhere_iff.1 h).1
  | under part _ ih => exact ih ((everywhere_iff.1 h).2 _ part)

namespace SourceTree

variable {tree : SourceTree} {ts : List Token}

/-- The error names a node below `n`: with its text, or a parameter with its name. -/
inductive Blames (tree : SourceTree) (ts : List Token) (n : Node) : ParseError → Prop
  | fault {m : Node} (f : Fault) (has : n.Has m) :
      Blames tree ts n (.fault f (tree.text m) (tree.span m))
  | param {p x : Node} (has : n.Has p) (isParam : IsParam ts p) (alone : p.children = [x]) :
      Blames tree ts n (.missingParamType (tree.text x) (tree.span p))

/-- A reading fails only with errors that name a node below `n`. -/
def Answers {α : Type} (tree : SourceTree) (ts : List Token) (n : Node) (r : Except ParseError α) :
    Prop :=
  ∀ e, r = .error e → tree.Blames ts n e

namespace Answers

variable {α β : Type} {n c : Node} {r : Except ParseError α}

theorem ok (a : α) : tree.Answers ts n (.ok a) := FailsOnly.ok a

theorem refuse (f : Fault) : tree.Answers ts n (tree.refuse f n : Except ParseError α) := by
  intro e h
  cases h
  exact .fault f .self

theorem bind {g : α → Except ParseError β} (first : tree.Answers ts n r)
    (after : ∀ a, tree.Answers ts n (g a)) : tree.Answers ts n (r >>= g) :=
  FailsOnly.bind first after

/-- What is made of a result does not matter. -/
theorem then_ok (h : tree.Answers ts n r) (g : α → β) :
    tree.Answers ts n (r >>= fun a => .ok (g a)) :=
  h.bind fun a => .ok (g a)

theorem of_then_ok {g : α → β} (h : tree.Answers ts n (r >>= fun a => .ok (g a))) :
    tree.Answers ts n r :=
  FailsOnly.of_then_ok h

/-- An error below a part is one below the whole. -/
theorem of_part (h : tree.Answers ts c r) (part : c ∈ n.children) : tree.Answers ts n r := by
  intro e failed
  cases h e failed with
  | fault f has => exact .fault f (.under part has)
  | param has isParam alone => exact .param (.under part has) isParam alone

theorem mapM {f : Node → Except ParseError β} {ms : List Node}
    (each : ∀ m ∈ ms, tree.Answers ts n (f m)) : tree.Answers ts n (ms.mapM f) :=
  FailsOnly.mapM each

end Answers

/-! ## §3 Expressions and definitions of variables -/

theorem answers_literal (n : Node) : tree.Answers ts n (tree.literal n) := by
  unfold literal
  split
  · exact .ok _
  · exact .ok _
  · split
    · exact .ok _
    · exact .refuse _
  · exact .refuse _

theorem answers_exprs {n : Node} {args : List Node}
    (each : ∀ a ∈ args, tree.Answers ts n (tree.expr a)) : tree.Answers ts n (tree.exprs args) := by
  induction args with
  | nil => exact .ok []
  | cons a args ih =>
    refine (each a (by simp)).bind fun e => ?_
    exact (ih fun b hb => each b (by simp [hb])).then_ok _

theorem answers_expr {n : Node} (shape : IsExpr ts n) : tree.Answers ts n (tree.expr n) := by
  induction shape with
  | @atom i t kind at_index atom =>
    have literal : tree.Answers ts (.mk kind i (i + 1) [])
        (tree.literal (.mk kind i (i + 1) []) >>= fun v => .ok (Expr.literal none v)) :=
      (answers_literal _).then_ok _
    unfold atomKind? at atom
    split at atom
    all_goals cases atom
    · exact literal
    · exact .refuse _
    · exact literal
    · exact literal
    · exact literal
    · exact .ok _
  | parenthesized _ ih => exact ih.of_part (by simp)
  | @unary first stop i t level e at_index op he ih =>
    rw [expr]
    split
    · exact .of_part (.refuse _) (by simp)
    · exact (ih.of_part (by simp)).then_ok _
  | @binary first stop i t level l r hl at_index op hr ihl ihr =>
    rw [expr]
    split
    · exact .of_part (.refuse _) (by simp)
    · exact (ihl.of_part (by simp)).bind fun _ => (ihr.of_part (by simp)).then_ok _
  | @member first stop i x o ho at_index ih =>
    rw [expr]
    exact (ih.of_part (by simp)).then_ok _
  | @call first stop first' stop' f args hf hargs ihf ihargs =>
    rw [expr]
    have list : tree.Answers ts (.mk .argList first' stop' args) (tree.exprs args) :=
      answers_exprs fun a ha => (ihargs a ha).of_part ha
    refine (list.of_part (by simp)).bind fun given => ?_
    have callee : f ∈ (Node.mk .callExpression first stop
        [f, .mk .argList first' stop' args]).children := by simp
    cases hf with
    | atom at_index atom =>
      unfold atomKind? at atom
      split at atom
      all_goals cases atom
      case h_6 => exact .ok _
      all_goals exact .of_part (.refuse _) callee
    | member ho at_index =>
      -- what is called is read as a field when it stands alone
      rw [expr] at ihf
      exact (ihf.of_then_ok.of_part callee).then_ok _
    | _ => exact .of_part (.refuse _) callee

theorem answers_target {n : Node} (shape : IsExpr ts n) : tree.Answers ts n (tree.target n) := by
  cases shape with
  | atom at_index atom =>
    unfold atomKind? at atom
    split at atom
    all_goals cases atom
    case h_6 => exact .ok _
    all_goals exact .refuse _
  | member ho at_index =>
    rw [target]
    exact ((answers_expr ho).of_part (by simp)).then_ok _
  | _ => exact .refuse _

theorem answers_type {n : Node} (shape : IsTypeDef ts n) : tree.Answers ts n (tree.type n) := by
  obtain ⟨first, stop, e, rfl, he⟩ := shape
  simp only [type, children_mk]
  split
  · exact .ok _
  · split <;> exact .ok _
  · exact .of_part (.refuse _) (by simp)

theorem answers_initializer (n : Node) : tree.Answers ts n (tree.initializer n) := by
  unfold initializer
  split
  · exact answers_literal n
  · exact answers_literal n
  · exact answers_literal n
  · exact .refuse _
  · exact .refuse _

theorem answers_varDef {n : Node} (shape : IsStmt ts n) (kind : n.kind = .assignStatement)
    (isDef : isDefinition n = true) : tree.Answers ts n (tree.varDef n) := by
  cases shape with
  | assign ht he => simp [isDefinition_assign ht he] at isDef
  | @define first stop t type value ht htype hvalue =>
    simp only [varDef, children_mk]
    split
    · exact .of_part (.refuse _) (by simp)
    · refine ((answers_type htype).of_part (by simp)).bind fun ty => ?_
      cases value with
      | none => exact .refuse _
      | some v => exact ((answers_initializer v).of_part (by simp)).then_ok _
  | _ => cases kind

theorem answers_param {n : Node} (shape : IsParam ts n) : tree.Answers ts n (tree.param n) := by
  have isParam := shape
  obtain ⟨first, stop, x, type, rfl, ⟨i, y, rfl, at_index⟩, htype⟩ := shape
  cases type with
  | none =>
    intro e failed
    cases failed
    exact .param .self isParam rfl
  | some type =>
    have answers : tree.Answers ts type (tree.type type) := answers_type (htype type rfl)
    obtain ⟨f, s, e, rfl, -⟩ := htype type rfl
    exact (answers.of_part (by simp)).then_ok _

/-! ## §4 Statements, functions and classes -/

/-- Statements are refused at one of them. -/
theorem exists_of_statements_eq_error {place : Place} {body : List Node} {e : ParseError}
    (h : tree.statements place body = .error e) :
    ∃ m ∈ body, tree.statement place m = .error e := by
  induction body with
  | nil => cases h
  | cons m body ih =>
    rcases bind_eq_error.1 h with h | ⟨s, -, h⟩
    · exact ⟨m, List.mem_cons_self, h⟩
    · rcases bind_eq_error.1 h with h | ⟨ss, -, h⟩
      · obtain ⟨m', hm', failed⟩ := ih h
        exact ⟨m', List.mem_cons_of_mem _ hm', failed⟩
      · cases h

theorem answers_statements {place : Place} {n : Node} {body : List Node}
    (each : ∀ m ∈ body, tree.Answers ts n (tree.statement place m)) :
    tree.Answers ts n (tree.statements place body) := by
  intro e h
  obtain ⟨m, hm, failed⟩ := exists_of_statements_eq_error h
  exact each m hm e failed

/-- Statements that answer for themselves answer below their body. -/
theorem answers_body {place : Place} {body : Suite}
    (each : ∀ m ∈ body.stmts, tree.Answers ts m (tree.statement place m)) :
    tree.Answers ts body.node (tree.statements place body.stmts) :=
  answers_statements fun m hm => (each m hm).of_part hm

theorem answers_otherwise {place : Place} {n : Node} {elifs : List Clause}
    {last : Option LastClause}
    (parts : ∀ m ∈ elifs.map Clause.node ++ (last.map LastClause.node).toList, m ∈ n.children)
    (each : ∀ l ∈ last, ∀ m ∈ l.body.stmts, tree.Answers ts m (tree.statement place m)) :
    tree.Answers ts n
      (tree.otherwise place (elifs.map Clause.node ++ (last.map LastClause.node).toList)) := by
  cases elifs with
  | cons e elifs => exact .of_part (.refuse _) (parts e.node (by simp))
  | nil =>
    cases last with
    | none => exact .ok _
    | some l =>
      have body := answers_body (each l rfl)
      exact ((body.of_part (n := l.node) (by simp [LastClause.node])).of_part
        (parts l.node (by simp))).then_ok _

theorem answers_statement {place : Place} {n : Node} (shape : IsStmt ts n) :
    tree.Answers ts n (tree.statement place n) := by
  induction shape with
  | pass => exact .ok _
  | expr he => exact ((answers_expr he).of_part (by simp)).then_ok _
  | @assign first stop t e ht he =>
    simp only [statement, isDefinition_assign ht he, Bool.false_eq_true, if_false]
    exact ((answers_target ht).of_part (by simp)).bind fun _ =>
      ((answers_expr he).of_part (by simp)).then_ok _
  | @define first stop t type value ht htype hvalue =>
    have isDef : isDefinition (.mk .assignStatement first stop (t :: type :: value.toList)) := by
      obtain ⟨f, s, e, rfl, -⟩ := htype
      simp [isDefinition, child?, kind_of_isExpr ht]
    rw [statement_of_isDefinition isDef]
    exact .refuse _
  | returned value hvalue =>
    cases place with
    | topLevel => exact .refuse _
    | inFunction =>
      cases value with
      | none => exact .ok _
      | some e => exact ((answers_expr (hvalue e rfl)).of_part (by simp)).then_ok _
  | @while_ first stop c body hc some_stmt _ ih =>
    exact ((answers_expr hc).of_part (by simp)).bind fun _ =>
      ((answers_body ih).of_part (by simp)).then_ok _
  | @if_ first stop c body elifs last hc some_stmt _ hconds _ some_last _ ihbody ihelifs ihlast =>
    rw [List.cons_append, List.cons_append, Suite.node, statement.eq_def]
    refine ((answers_expr hc).of_part (by simp)).bind fun cond => ?_
    refine ((answers_body ihbody).of_part (by simp [Suite.node])).bind fun ss => ?_
    cases elifs with
    | nil =>
      have rest : tree.Answers ts (.mk .ifStatement first stop
          (c :: .mk .body body.first body.stop body.stmts :: (last.map LastClause.node).toList))
          (tree.otherwise place ([].map Clause.node ++ (last.map LastClause.node).toList)) :=
        answers_otherwise (fun m hm => by simp_all) ihlast
      cases last with
      | none => exact rest.then_ok _
      | some l => exact rest.then_ok _
    | cons e elifs =>
      have cond' : tree.Answers ts e.cond (tree.expr e.cond) :=
        answers_expr (hconds e (by simp)).1
      have body' := answers_body (ihelifs e (by simp))
      have clause : e.cond ∈ e.node.children ∧ e.body.node ∈ e.node.children := by
        simp [Clause.node]
      refine ((cond'.of_part clause.1).of_part (by simp)).bind fun _ => ?_
      refine ((body'.of_part clause.2).of_part (by simp)).bind fun _ => ?_
      exact (answers_otherwise (fun m hm => by simp_all) ihlast).then_ok _
  | function => exact .refuse _
  | class_ => exact .refuse _

theorem answers_localDef {n : Node} (shape : IsStmt ts n) (isDef : isDefinition n = true) :
    tree.Answers ts n (tree.localDef n) := by
  unfold localDef
  split
  · rename_i kind
    exact answers_varDef shape kind isDef
  · exact .refuse _
  · exact .refuse _
  · exact .refuse _

theorem answers_result {n : Node} {result : Option Node} (parts : ∀ r ∈ result, r ∈ n.children)
    (hresult : ∀ r ∈ result, IsTypeDef ts r) : tree.Answers ts n (tree.result result) := by
  cases result with
  | none => exact .ok _
  | some r => exact (answers_type (hresult r rfl)).of_part (parts r rfl)

theorem answers_funDef {n : Node} (shape : IsStmt ts n) (kind : n.kind = .functionDefinition) :
    tree.Answers ts n (tree.funDef n) := by
  cases shape with
  | @function first stop first' stop' x params result body hx hparams hresult some_stmt hbody =>
    rw [funDef_eq (kind_of_isName hx) fun r hr => kind_of_isTypeDef (hresult r hr)]
    have list : tree.Answers ts (.mk .paramList first' stop' params) (params.mapM tree.param) :=
      .mapM fun p hp => (answers_param (hparams p hp)).of_part hp
    refine (list.of_part (by simp)).bind fun params => ?_
    refine (answers_result (fun r hr => ?_) hresult).bind fun ty => ?_
    · simp [show result = some r from hr]
    have locals : tree.Answers ts body.node
        ((body.stmts.takeWhile isDefinition).mapM tree.localDef) := by
      refine .mapM fun m hm => .of_part ?_ (List.takeWhile_subset _ hm)
      exact answers_localDef (hbody m (List.takeWhile_subset _ hm))
        (List.all_eq_true.1 List.all_takeWhile m hm)
    have stmts : tree.Answers ts body.node
        (tree.statements .inFunction (body.stmts.dropWhile isDefinition)) := by
      refine answers_statements fun m hm => .of_part ?_ (List.dropWhile_subset _ hm)
      exact answers_statement (hbody m (List.dropWhile_subset _ hm))
    exact (locals.of_part (by simp)).bind fun _ => (stmts.of_part (by simp)).then_ok _
  | _ => cases kind

theorem answers_parent (n : Node) : tree.Answers ts n (tree.parent n) := by
  unfold parent
  cases found : n.child? .argList with
  | none => exact .refuse _
  | some parents =>
    have part : parents ∈ n.children := List.mem_of_find?_eq_some found
    simp only
    split
    · split
      · exact .ok _
      · exact .of_part (.refuse _) part
    · exact .of_part (.refuse _) part

theorem answers_member {n : Node} (shape : IsStmt ts n) : tree.Answers ts n (tree.member n) := by
  unfold member
  split
  · exact .ok _
  · rename_i kind
    split
    · rename_i isDef
      exact (answers_varDef shape kind isDef).then_ok _
    · exact .refuse _
  · rename_i kind
    exact (answers_funDef shape kind).then_ok _
  · exact .refuse _
  · exact .refuse _

theorem answers_classDef {n : Node} (shape : IsStmt ts n) (kind : n.kind = .classDefinition) :
    tree.Answers ts n (tree.classDef n) := by
  cases shape with
  | @class_ first stop x parents body hx hparents some_stmt hbody =>
    rw [classDef_eq (kind_of_isName hx) fun p hp => kind_of_isArgList (hparents p hp)]
    have members : tree.Answers ts body.node (body.stmts.mapM tree.member) :=
      .mapM fun m hm => (answers_member (hbody m hm)).of_part hm
    exact (answers_parent _).bind fun _ => (members.of_part (by simp)).then_ok _
  | _ => cases kind

theorem answers_definition {n : Node} (shape : IsStmt ts n) (isDef : isDefinition n = true) :
    tree.Answers ts n (tree.definition n) := by
  unfold definition definitionWith
  split
  · rename_i kind
    exact (answers_varDef shape kind isDef).then_ok _
  · rename_i kind
    exact (answers_funDef shape kind).then_ok _
  · rename_i kind
    exact (answers_classDef shape kind).then_ok _
  · exact .refuse _

/-- A tree that is no program is refused at a node below one of its parts. -/
theorem exists_blames {ns : List Node} (shapes : ∀ n ∈ ns, IsStmt ts n) {e : ParseError}
    (h : tree.programOf ns = .error e) : ∃ n ∈ ns, tree.Blames ts n e := by
  rcases bind_eq_error.1 h with h | ⟨defs, -, h⟩
  · obtain ⟨n, hn, failed⟩ := exists_of_mapM_eq_error h
    have mem := List.takeWhile_subset _ hn
    have isDef := List.all_eq_true.1 List.all_takeWhile n hn
    exact ⟨n, mem, answers_definition (shapes n mem) isDef e failed⟩
  · rcases bind_eq_error.1 h with h | ⟨stmts, -, h⟩
    · obtain ⟨n, hn, failed⟩ := exists_of_statements_eq_error h
      have mem := List.dropWhile_subset _ hn
      exact ⟨n, mem, answers_statement (shapes n mem) e failed⟩
    · cases h

end SourceTree

/-! ## §5 Errors of a program -/

/-- What an error quotes from a text stands there: a character that starts no lexeme; a lexeme that
matches no block; the text of a part without the blanks at its end; the name of a parameter. -/
def ParseError.IsFaithful (source : List Char) : ParseError → Prop
  | .lexical (.unexpectedInput fragment span) =>
    ∃ c, fragment = String.singleton c ∧ span.slice? source = some [c]
  | .lexical (.inconsistentDedent span) =>
    ∃ raw, scan source = .ok raw ∧ ∃ l ∈ raw, l.token ≠ .newline ∧ span = .empty l.span.start
  | .grammar _ => True
  | .fault _ fragment span =>
    ∃ cs, span.slice? source = some cs ∧ fragment = String.ofList (trimEnd cs) ∧ fragment ≠ ""
  | .missingParamType x span =>
    ∃ ls tree i, lex source = .ok ls ∧ SourceTree.ofLexemes source ls = .ok tree ∧
      tree.root.Has (.mk .param i (i + 1) [.mk .variableName i (i + 1) []]) ∧
      ls[i]? = some ⟨.name x, span⟩ ∧ span.slice? source = some x.toList

section

variable {source : List Char} {ls : List Lexeme}

/-- A text that is not cut into lexemes is refused at one of its characters or lexemes. -/
theorem faithful_of_lex {e : LexError} (h : lex source = .error e) :
    e.span.Within source ∧ (ParseError.lexical e).IsFaithful source := by
  rcases bind_eq_error.1 h with h | ⟨raw, scanned, h⟩
  · obtain ⟨p, c, q, cut, rfl⟩ := @scanFrom_eq_error source [] source 0 e rfl h
    refine ⟨⟨Nat.le_add_right _ _, ⟨p, [c] ++ q, ?_, rfl⟩, ⟨p ++ [c], q, cut, ?_⟩⟩, c, rfl, ?_⟩
    · rw [cut, List.append_assoc]
    · exact utf8Length_append p [c]
    · rw [cut]
      exact Span.slice?_append p [c] q
  · obtain ⟨l, hl, newline, rfl⟩ := layoutFrom_eq_error h
    have found := @Cut.isFound source [] _ _ (cutBefore_of_scanFrom scanned).cut rfl l hl
    exact ⟨Span.within_empty found.within.start, raw, scanned, l, hl, newline, rfl⟩

/-- A text whose tokens are no script is refused at a token or at its end. -/
theorem within_of_grammar (lexed : lex source = .ok ls) {e : SyntaxError}
    (h : SourceTree.ofLexemes source ls = .error e) : e.span.Within source := by
  obtain ⟨i, -, rfl⟩ := SourceTree.ofLexemes_eq_error h
  cases found : ls[i]? with
  | none =>
    rw [SourceTree.describe, found]
    exact Span.within_empty (isBoundary_length source)
  | some l =>
    rw [SourceTree.span_describe found]
    exact (places_of_lex lexed).2 l (List.mem_of_getElem? found)

/-- An error that names a node of a tree quotes the text of the tree. -/
theorem SourceTree.Blames.faithful {tree : SourceTree} {n : Node} {e : ParseError}
    (h : tree.Blames (ls.map (·.token)) n e) (lexed : lex source = .ok ls)
    (read : ofLexemes source ls = .ok tree) (mem : n ∈ tree.root.children) :
    e.span.Within source ∧ e.IsFaithful source := by
  obtain ⟨encloses, quotes⟩ := everywhere_of_lex lexed read
  obtain ⟨root, derived, rfl⟩ := ofLexemes_eq_ok read
  cases h with
  | fault f has =>
    exact ⟨(encloses.of_has (.under mem has)).within, (quotes n mem).of_has has⟩
  | @param p x has isParam alone =>
    refine ⟨(encloses.of_has (.under mem has)).within, ?_⟩
    have worded := ((Grammar.ofTokens_iff_script.1 derived).isWorded n mem).of_has has
    obtain ⟨first, stop, y, type, rfl, ⟨i, name, rfl, at_index⟩, -⟩ := isParam
    obtain rfl : type = none := by
      cases type with
      | none => rfl
      | some t => cases alone
    cases alone
    obtain ⟨rfl, rfl⟩ : i = first ∧ i + 1 = stop := worded.param rfl _ rfl
    have text := (spells_of_lex lexed root).text_leaf at_index rfl .variableName []
    rw [List.getElem?_map] at at_index
    obtain ⟨⟨t, span⟩, found, token⟩ := Option.map_eq_some_iff.1 at_index
    obtain rfl : t = .name name := token
    have standing := lex_stands lexed _ (List.mem_of_getElem? found)
    have slice := (standing.resolve_left (by simp [Token.isMark])).1
    rw [text, span_of_token (n := .mk .param i (i + 1) _) lexed found rfl]
    exact ⟨ls, _, i, lexed, read, .under mem has, found, slice⟩

end

/-- Every error of a program points at its text, and what it quotes stands there; and in the tree of
a text the nodes enclose their parts and have texts of their own. -/
theorem Program.diagnostics_point_at_text (source : String) :
    (∀ e, parse source = .error e →
      e.span.Within source.toList ∧ e.IsFaithful source.toList) ∧
    ∀ ls tree, lex source.toList = .ok ls → SourceTree.ofLexemes source.toList ls = .ok tree →
      tree.root.Everywhere tree.Encloses ∧ ∀ c ∈ tree.root.children, c.Everywhere tree.Quotes := by
  refine ⟨fun e failed => ?_, fun ls tree lexed read => SourceTree.everywhere_of_lex lexed read⟩
  cases lexed : lex source.toList with
  | error e' =>
    rw [parse, lexed] at failed
    cases failed
    exact faithful_of_lex lexed
  | ok ls =>
    cases read : SourceTree.ofLexemes source.toList ls with
    | error e' =>
      rw [parse, lexed] at failed
      simp only [Except.mapError, ok_bind, read] at failed
      cases failed
      exact ⟨within_of_grammar lexed read, trivial⟩
    | ok tree =>
      obtain ⟨root, derived, rfl⟩ := SourceTree.ofLexemes_eq_ok read
      rw [parse_eq lexed derived] at failed
      obtain ⟨n, mem, blames⟩ := SourceTree.exists_blames (isStmt_of_ofTokens derived) failed
      exact blames.faithful lexed read mem

/-- A loop in a class, with a comment that still belongs to it. -/
def loopInClass : String := "class A(object):\n  while True:\n    pass\n  # é\n\nx\n"

/-- The span of the loop goes on up to the line that closes it, and its text leaves out the empty
line. -/
theorem Program.diagnostics_point_at_text_loop :
    parse loopInClass =
      .error (.fault .nonDefinitionInClass "while True:\n    pass\n  # é" ⟨19, 48⟩) ∧
    Span.Within loopInClass.toList ⟨19, 48⟩ ∧
    ParseError.IsFaithful loopInClass.toList
      (.fault .nonDefinitionInClass "while True:\n    pass\n  # é" ⟨19, 48⟩) := by
  have failed : parse loopInClass =
      .error (.fault .nonDefinitionInClass "while True:\n    pass\n  # é" ⟨19, 48⟩) := by
    decide +kernel
  obtain ⟨within, faithful⟩ := (diagnostics_point_at_text loopInClass).1 _ failed
  exact ⟨failed, within, faithful⟩

end Serpent
