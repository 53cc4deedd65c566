/-
Serpent.Proofs.RoundTrip — the source form of a program is read as the program.

The tokens of functions and classes are read as they are, and with them those of a whole program. So
reading undoes writing exactly on the canonical programs, which are the programs that are read from
source texts: whatever text a program was read from, its source form says the same.

  §1 Parameters and headers
  §2 Functions
  §3 Classes
  §4 Programs
  §5 Reading and writing
-/
import Serpent.Proofs.ReadStatement

namespace Serpent

open Fallible SourceTree

namespace Rule

/-! ## §1 Parameters and headers -/

/-- In every tree over the tokens, the node is read as the parameter. -/
def Declares (p : Param) (ts : List Token) (n : Node) : Prop :=
  ∀ tree : SourceTree, tree.Spells ts → tree.param n = .ok p

/-- A parameter, before tokens that end its type. -/
theorem takes_parameter {p : Param} (h : p.isCanonical = true) {ts rest : List Token} {i : Nat}
    (ends : Ends rest) : Takes ts i p.tokens rest parameter (Declares p ts) := by
  simp only [Param.isCanonical, Bool.and_eq_true] at h
  refine takes_here (takes_name.cons ?_)
  rintro _ ⟨rfl, at_index⟩
  refine (takes_optional_some (takes_typeAfter h.2 .colon ends)).last ?_
  rintro _ ⟨type, rfl, kind, types⟩
  refine takes_close.imp ?_
  rintro _ rfl tree spells
  simp [param, Node.child?, kind, types tree spells, spells.name_leaf at_index]

theorem takes_parameters {params : List Param} (h : params.all Param.isCanonical = true)
    {ts rest : List Token} {i fuel : Nat}
    (bound : (commas (params.map Param.tokens)).length + 1 ≤ fuel) :
    Takes ts i (commas (params.map Param.tokens)) (.symbol .rparen :: rest) (parameters fuel)
      fun ns => List.Forall₂ (fun p n => Declares p ts n) params ns := by
  induction params generalizing i fuel with
  | nil =>
    obtain ⟨fuel, rfl⟩ : ∃ k, fuel = k + 1 := ⟨fuel - 1, by omega⟩
    exact takes_peek (takes_pure .nil)
  | cons p params ih =>
    simp only [List.all_cons, Bool.and_eq_true] at h
    obtain ⟨fuel, rfl⟩ : ∃ k, fuel = k + 1 := ⟨fuel - 1, by omega⟩
    cases params with
    | nil =>
      simp only [List.map_cons, List.map_nil, commas, List.intercalate_singleton] at bound ⊢
      have ends : Ends (.symbol .rparen :: rest) := ends_of_head (by simp) (by simp) rfl
      refine takes_peek ?_
      exact (takes_parameter h.1 ends).last fun n hn => takes_peek (takes_pure (.cons hn .nil))
    | cons q params =>
      simp only [List.map_cons, commas, List.intercalate_cons_cons, List.append_assoc,
        List.length_append, List.singleton_append, List.length_cons] at bound ih ⊢
      have ends : ∀ us, Ends (.symbol .comma :: us) := fun us =>
        ends_of_head (by simp) (by simp) rfl
      refine takes_peek ?_
      refine (takes_parameter h.1 (ends _)).bind fun n hn => takes_peek ?_
      refine takes_advance.cons fun _ _ => ?_
      exact (ih h.2 (by omega)).last fun ns hns => takes_pure (.cons hn hns)

/-- Parameters in order are read from nodes in order. -/
theorem params_of_forall₂ {params : List Param} {ns : List Node} {ts : List Token}
    (h : List.Forall₂ (fun p n => Declares p ts n) params ns) {tree : SourceTree}
    (spells : tree.Spells ts) : ns.mapM tree.param = .ok params :=
  mapM_eq_ok.2 (h.flip.imp fun _ _ declares => declares tree spells)

theorem takes_paramList {params : List Param} (h : params.all Param.isCanonical = true)
    {ts rest : List Token} {i : Nat} :
    Takes ts i (.symbol .lparen :: commas (params.map Param.tokens) ++ [Token.symbol .rparen]) rest
      paramList fun n => ∃ first stop ns, n = .mk .paramList first stop ns ∧
        ∀ tree : SourceTree, tree.Spells ts → ns.mapM tree.param = .ok params := by
  rw [List.cons_append]
  refine takes_here ((takes_expect _).cons fun _ _ => takes_remaining ?_)
  refine (takes_parameters h ?_).bind fun ns hns => ?_
  · simp only [depthBound, List.length_append]
    omega
  refine (takes_expect _).last fun _ _ => takes_close.imp fun n hn => ?_
  exact ⟨_, _, ns, hn, fun tree spells => params_of_forall₂ hns spells⟩

/-- A result type, if it is written. -/
theorem takes_result {ty : Ty} (h : ty.isCanonical = true) {ts rest : List Token} {i : Nat} :
    Takes ts i (resultTokens ty) (.symbol .colon :: rest)
      (optional (.symbol .arrow) (typeAfter .arrow)) fun o =>
        (∀ n ∈ o, n.kind = .typeDef) ∧
          ∀ tree : SourceTree, tree.Spells ts → tree.result o = .ok ty := by
  unfold resultTokens
  split
  · rename_i none
    subst none
    refine (takes_optional_none (by simp)).imp ?_
    rintro _ rfl
    exact ⟨by simp, fun _ _ => rfl⟩
  · refine (takes_optional_some (takes_typeAfter h .arrow ends_colon)).imp ?_
    rintro _ ⟨type, rfl, kind, types⟩
    exact ⟨by simpa using kind, types⟩

/-! ## §2 Functions -/

/-- In every tree over the tokens, the node is read as the function. -/
def DefinesFun (f : FunDef) (ts : List Token) (n : Node) : Prop :=
  n.kind = .functionDefinition ∧ ∀ tree : SourceTree, tree.Spells ts → tree.funDef n = .ok f

theorem exists_append_of_forall₂ {α β : Type} {R : α → β → Prop} {as as' : List α} {bs : List β}
    (h : List.Forall₂ R (as ++ as') bs) :
    ∃ bs₁ bs₂, bs = bs₁ ++ bs₂ ∧ List.Forall₂ R as bs₁ ∧ List.Forall₂ R as' bs₂ := by
  induction as generalizing bs with
  | nil => exact ⟨[], bs, rfl, .nil, h⟩
  | cons a as ih =>
    obtain _ | ⟨first, more⟩ := h
    obtain ⟨bs₁, bs₂, rfl, left, right⟩ := ih more
    exact ⟨_ :: bs₁, bs₂, rfl, .cons first left, right⟩

/-- Definitions and then statements, among the nodes of a block. -/
theorem split_definitions {α β : Type} {P : α → Node → Prop} {Q : β → Node → Prop} {as : List α}
    {bs : List β} {ns : List Node}
    (h : List.Forall₂ (fun x n => Sum.elim P Q x n) (as.map .inl ++ bs.map .inr) ns)
    (defs : ∀ a n, P a n → isDefinition n = true) (others : ∀ b n, Q b n → isDefinition n = false) :
    List.Forall₂ P as (ns.takeWhile isDefinition) ∧
      List.Forall₂ Q bs (ns.dropWhile isDefinition) := by
  obtain ⟨ns₁, ns₂, rfl, first, second⟩ := exists_append_of_forall₂ h
  rw [List.forall₂_map_left_iff] at first second
  have isDef : ∀ n ∈ ns₁, isDefinition n = true := by
    intro n hn
    obtain ⟨a, -, ha⟩ := exists_of_forall₂ first hn
    exact defs a n ha
  have notDef : ∀ n ∈ ns₂.head?, isDefinition n = false := by
    intro n hn
    obtain ⟨b, -, hb⟩ := exists_of_forall₂ second (List.mem_of_mem_head? hn)
    exact others b n hb
  obtain ⟨taken, dropped⟩ := takeWhile_append_stop isDef notDef
  rw [taken, dropped]
  exact ⟨first, second⟩

/-- What stands in a function: variables, and then statements. -/
def inFunction (f : FunDef) : List (VarDef ⊕ Stmt) := f.locals.map .inl ++ f.body.map .inr

/-- The tokens of one line or one statement of a function. -/
def inFunctionTokens : VarDef ⊕ Stmt → List Token :=
  Sum.elim (fun v => v.tokens ++ [.newline]) Stmt.tokens

theorem isItem_inFunction {f : FunDef} (h : f.isCanonical = true) :
    ∀ x ∈ inFunction f,
      IsItem (inFunctionTokens x) (Sum.elim DefinesVar (StatesIn .inFunction) x) := by
  simp only [FunDef.isCanonical, Bool.and_eq_true, Stmt.areCanonical_iff] at h
  intro x hx
  rcases List.mem_append.1 hx with hx | hx
  · obtain ⟨v, hv, rfl⟩ := List.mem_map.1 hx
    exact isItem_varDef (List.all_eq_true.1 h.1.1.2 v hv)
  · obtain ⟨s, hs, rfl⟩ := List.mem_map.1 hx
    exact isItem_stmt (h.1.2 s hs)

theorem tokens_funDef (f : FunDef) :
    f.tokens = f.headerTokens ++ suite ((inFunction f).flatMap inFunctionTokens) := by
  rw [FunDef.tokens, listTokens_eq, inFunction, List.flatMap_append, List.flatMap_map,
    List.flatMap_map]
  rfl

/-- A function in a block of its own is read from the nodes of the block. -/
theorem funDef_of_items {f : FunDef} {ts : List Token} {block : Node.Suite}
    (items : List.Forall₂ (fun x n => Sum.elim DefinesVar (StatesIn .inFunction) x ts n)
      (inFunction f) block.stmts) {tree : SourceTree} (spells : tree.Spells ts) :
    (block.stmts.takeWhile isDefinition).mapM tree.localDef = .ok f.locals ∧
      tree.statements .inFunction (block.stmts.dropWhile isDefinition) = .ok f.body := by
  obtain ⟨locals, body⟩ := split_definitions
    (P := fun v n => DefinesVar v ts n) (Q := fun s n => StatesIn .inFunction s ts n)
    (items.imp fun x n => by cases x <;> exact id)
    (fun _ _ h => h.2.1) (fun _ _ h => h.1)
  refine ⟨mapM_eq_ok.2 (locals.flip.imp fun n v h => ?_), statements_of_forall₂ body spells⟩
  rw [localDef, h.1]
  exact h.2.2 tree spells

theorem isItem_funDef {f : FunDef} (h : f.isCanonical = true) :
    IsItem f.tokens (DefinesFun f) where
  starts := ⟨_, rfl, by simp⟩
  takes ts i rest fuel bound _ := by
    have items := isItem_inFunction h
    simp only [FunDef.isCanonical, Bool.and_eq_true, Bool.not_eq_true', Bool.and_eq_false_iff,
      List.isEmpty_eq_false_iff] at h
    obtain ⟨⟨⟨⟨⟨hname, hparams⟩, hresult⟩, -⟩, -⟩, some_part⟩ := h
    have some_item : inFunction f ≠ [] := by
      rcases some_part with locals | body
      · simp [inFunction, locals]
      · simp [inFunction, body]
    have tokens : f.tokens = .keyword .def_ :: .name f.name ::
        ((.symbol .lparen :: commas (f.params.map Param.tokens) ++ [Token.symbol .rparen]) ++
          (resultTokens f.result ++ suite ((inFunction f).flatMap inFunctionTokens))) := by
      simp [tokens_funDef, FunDef.headerTokens]
    rw [tokens] at bound ⊢
    simp only [List.length_cons, List.length_append] at bound
    obtain ⟨fuel, rfl⟩ : ∃ k, fuel = k + 1 := ⟨fuel - 1, by omega⟩
    refine takes_here (takes_peek (takes_advance.cons fun _ _ => takes_name.cons ?_))
    rintro _ ⟨rfl, at_index⟩
    refine (takes_paramList hparams).bind ?_
    rintro _ ⟨first, stop, params, rfl, declares⟩
    refine (takes_result hresult).bind ?_
    rintro result ⟨kind, results⟩
    refine (takes_body items some_item (by omega)).last ?_
    rintro _ ⟨block, rfl, stmts⟩
    refine takes_close.imp ?_
    rintro _ rfl
    refine ⟨rfl, fun tree spells => ?_⟩
    obtain ⟨locals, body⟩ := funDef_of_items stmts spells
    rw [funDef_eq rfl kind, declares tree spells, results tree spells, ok_bind, ok_bind, locals,
      ok_bind, body, ok_bind, spells.name_leaf at_index]
    rfl

/-! ## §3 Classes -/

/-- In every tree over the tokens, the node is read as the class. -/
def DefinesClass (c : ClassDef) (ts : List Token) (n : Node) : Prop :=
  n.kind = .classDefinition ∧ ∀ tree : SourceTree, tree.Spells ts → tree.classDef n = .ok c

/-- In every tree over the tokens, the node is read as the member, or as none. -/
def IsMemberOf (m : Option (VarDef ⊕ FunDef)) (ts : List Token) (n : Node) : Prop :=
  ∀ tree : SourceTree, tree.Spells ts → tree.member n = .ok m

/-- The members of a class as they are written. -/
def members (c : ClassDef) : List (Option (VarDef ⊕ FunDef)) :=
  if c.fields = [] ∧ c.methods = [] then [none]
  else c.fields.map (some ∘ .inl) ++ c.methods.map (some ∘ .inr)

/-- The tokens of a member. -/
def memberTokens : Option (VarDef ⊕ FunDef) → List Token
  | none => [.keyword .pass, .newline]
  | some (.inl v) => v.tokens ++ [.newline]
  | some (.inr f) => f.tokens

theorem tokens_members (c : ClassDef) :
    c.memberTokens = (members c).flatMap memberTokens := by
  unfold ClassDef.memberTokens members
  split
  · rfl
  · rw [List.flatMap_append, List.flatMap_map, List.flatMap_map]
    rfl

theorem fields_members (c : ClassDef) :
    (members c).filterMap (·.bind Sum.getLeft?) = c.fields ∧
      (members c).filterMap (·.bind Sum.getRight?) = c.methods := by
  unfold members
  split
  · rename_i none
    simp [none.1, none.2]
  · simp [List.filterMap_append, List.filterMap_map, Function.comp_def]

theorem isItem_member {c : ClassDef} (h : c.isCanonical = true) :
    ∀ m ∈ members c, IsItem (memberTokens m) (IsMemberOf m) := by
  simp only [ClassDef.isCanonical, Bool.and_eq_true] at h
  intro m hm
  unfold members at hm
  split at hm
  · obtain rfl : m = none := by simpa using hm
    exact isItem_pass fun _ _ _ _ => rfl
  · rcases List.mem_append.1 hm with hm | hm
    · obtain ⟨v, hv, rfl⟩ := List.mem_map.1 hm
      refine (isItem_varDef (List.all_eq_true.1 h.1.2 v hv)).imp ?_
      rintro ts n ⟨kind, isDef, read⟩ tree spells
      simp only [member, kind, isDef, if_true, read tree spells]
      rfl
    · obtain ⟨f, hf, rfl⟩ := List.mem_map.1 hm
      refine (isItem_funDef (List.all_eq_true.1 h.2 f hf)).imp ?_
      rintro ts n ⟨kind, read⟩ tree spells
      simp only [member, kind, read tree spells]
      rfl

/-- The parent of a class, in parentheses. -/
theorem takes_parent (x : String) {ts rest : List Token} {i : Nat} :
    Takes ts i [.symbol .lparen, .name x, .symbol .rparen] rest
      (optional (.symbol .lparen) parenthesized) fun o => ∃ first stop leaf,
        o = some (.mk .argList first stop [leaf]) ∧ IsLeaf .variableName (.name x) ts leaf := by
  have name : IsExpression 0 [.name x] (IsLeaf .variableName (.name x)) :=
    (isOperand_leaf rfl).isExpression 0
  have args : ∀ y ∈ [x], Starts [.name y] ∧
      IsExpression 0 [.name y] (IsLeaf .variableName (.name y)) := by
    intro y hy
    obtain rfl := List.mem_singleton.1 hy
    exact ⟨⟨_, rfl, rfl⟩, name⟩
  have inside : Takes ts i [.symbol .lparen, .name x, .symbol .rparen] rest parenthesized _ :=
    takes_remaining (takes_argList args (by simp [commas, depthBound]; omega))
  refine (takes_optional_some inside).imp ?_
  rintro _ ⟨_, rfl, first, stop, ns, rfl, leaves⟩
  obtain _ | ⟨isLeaf, _ | _⟩ := leaves
  exact ⟨first, stop, _, rfl, isLeaf⟩

theorem isItem_classDef {c : ClassDef} (h : c.isCanonical = true) :
    IsItem c.tokens (DefinesClass c) where
  starts := ⟨_, rfl, by simp⟩
  takes ts i rest fuel bound _ := by
    have some_item : members c ≠ [] := by
      unfold members
      split <;> simp_all
    have tokens : c.tokens = .keyword .class_ :: .name c.name ::
        ([Token.symbol .lparen, .name c.parent, .symbol .rparen] ++
          suite ((members c).flatMap memberTokens)) := by
      rw [ClassDef.tokens, tokens_members]
      rfl
    rw [tokens] at bound ⊢
    simp only [List.length_cons, List.length_append] at bound
    obtain ⟨fuel, rfl⟩ : ∃ k, fuel = k + 1 := ⟨fuel - 1, by omega⟩
    refine takes_here (takes_peek (takes_advance.cons fun _ _ => takes_name.cons ?_))
    rintro _ ⟨rfl, at_index⟩
    refine (takes_parent c.parent).bind ?_
    rintro _ ⟨first, stop, _, rfl, j, rfl, at_parent⟩
    refine (takes_body (isItem_member h) some_item (by omega)).last ?_
    rintro _ ⟨block, rfl, items⟩
    refine takes_close.imp ?_
    rintro _ rfl
    refine ⟨rfl, fun tree spells => ?_⟩
    have parts : block.stmts.mapM tree.member = .ok (members c) :=
      mapM_eq_ok.2 (items.flip.imp fun _ _ read => read tree spells)
    rw [classDef_eq rfl (by simp), parts]
    have parent : ∀ a b, tree.parent (.mk .classDefinition a b
        (.mk .variableName (i + 1) (i + 1 + 1) [] ::
          (some (Node.mk .argList first stop [.mk .variableName j (j + 1) []])).toList ++
            [block.node])) = .ok c.parent := by
      intro a b
      have text : tree.text (.mk .variableName j (j + 1) []) = c.parent :=
        spells.name_leaf at_parent
      rw [← text]
      rfl
    rw [parent, ok_bind, ok_bind, (fields_members c).1, (fields_members c).2,
      spells.name_leaf at_index]
    rfl

/-! ## §4 Programs -/

/-- In every tree over the tokens, the node is read as the definition. -/
def Defines (d : Def) (ts : List Token) (n : Node) : Prop :=
  isDefinition n = true ∧ ∀ tree : SourceTree, tree.Spells ts → tree.definition n = .ok d

theorem isItem_def {d : Def} (h : d.isCanonical = true) : IsItem d.tokens (Defines d) := by
  cases d with
  | var v =>
    refine (isItem_varDef h).imp ?_
    rintro ts n ⟨kind, isDef, read⟩
    refine ⟨isDef, fun tree spells => ?_⟩
    simp only [definition, definitionWith, kind, read tree spells]
    rfl
  | function f =>
    refine (isItem_funDef h).imp ?_
    rintro ts n ⟨kind, read⟩
    refine ⟨by simp [isDefinition, kind], fun tree spells => ?_⟩
    simp only [definition, definitionWith, kind, read tree spells]
    rfl
  | class_ c =>
    refine (isItem_classDef h).imp ?_
    rintro ts n ⟨kind, read⟩
    refine ⟨by simp [isDefinition, kind], fun tree spells => ?_⟩
    simp only [definition, definitionWith, kind, read tree spells]
    rfl

/-- What stands in a script: definitions, and then statements. -/
def inScript (p : Program) : List (Def ⊕ Stmt) := p.defs.map .inl ++ p.stmts.map .inr

theorem isItem_inScript {p : Program} (h : p.isCanonical = true) :
    ∀ x ∈ inScript p, IsItem (Sum.elim Def.tokens Stmt.tokens x)
      (Sum.elim Defines (StatesIn .topLevel) x) := by
  simp only [Program.isCanonical, Bool.and_eq_true, Stmt.areCanonical_iff] at h
  intro x hx
  rcases List.mem_append.1 hx with hx | hx
  · obtain ⟨d, hd, rfl⟩ := List.mem_map.1 hx
    exact isItem_def (List.all_eq_true.1 h.1 d hd)
  · obtain ⟨s, hs, rfl⟩ := List.mem_map.1 hx
    exact isItem_stmt (h.2 s hs)

theorem tokens_program (p : Program) :
    p.tokens = (inScript p).flatMap (Sum.elim Def.tokens Stmt.tokens) := by
  rw [Program.tokens, listTokens_eq, inScript, List.flatMap_append, List.flatMap_map,
    List.flatMap_map]
  rfl

/-- The tokens of every canonical program are read as a script of its parts. -/
theorem ofTokens_program {p : Program} (h : p.isCanonical = true) :
    ∃ root, Node.ofTokens p.tokens = .ok root ∧
      List.Forall₂ (fun x n => Sum.elim Defines (StatesIn .topLevel) x p.tokens n) (inScript p)
        root.children := by
  have script : Takes p.tokens 0 p.tokens [] script fun n =>
      List.Forall₂ (fun x n => Sum.elim Defines (StatesIn .topLevel) x p.tokens n) (inScript p)
        n.children := by
    refine takes_here (takes_remaining ?_)
    have bound : p.tokens.length + 1 ≤ depthBound (p.tokens ++ []).length := by
      rw [depthBound, List.append_nil]
      omega
    rw [tokens_program] at bound ⊢
    refine (takes_statements (isItem_inScript h) bound (by simp)).last fun ns hns => ?_
    refine takes_peek (takes_close.imp ?_)
    rintro _ rfl
    exact hns
  obtain ⟨root, hscript, items⟩ := script (by simp)
  rw [List.append_nil] at hscript
  exact ⟨root, map_eq_ok.2 ⟨_, hscript, rfl⟩, items⟩

end Rule

/-! ## §5 Reading and writing -/

namespace Program

/-- A text that is cut into the tokens of a canonical program is read as the program. -/
theorem parse_of_tokens {p : Program} (h : p.isCanonical = true) {source : String}
    (cut : ∃ lexemes, lex source.toList = .ok lexemes ∧ lexemes.map (·.token) = p.tokens) :
    parse source = .ok p := by
  obtain ⟨lexemes, hlex, tokens⟩ := cut
  obtain ⟨root, hroot, items⟩ := Rule.ofTokens_program h
  have spells := spells_of_lex hlex root
  rw [tokens] at spells
  obtain ⟨defs, stmts⟩ := Rule.split_definitions
    (P := fun d n => Rule.Defines d p.tokens n) (Q := fun s n => Rule.StatesIn .topLevel s p.tokens n)
    (items.imp fun x n => by cases x <;> exact id)
    (fun _ _ h => h.1) (fun _ _ h => h.1)
  have readDefs : (root.children.takeWhile isDefinition).mapM (definition ⟨source.toList,
      (lexemes.map (·.span)).toArray, root⟩) = .ok p.defs :=
    mapM_eq_ok.2 (defs.flip.imp fun _ _ read => read.2 _ spells)
  have tree : ofLexemes source.toList lexemes =
      .ok ⟨source.toList, (lexemes.map (·.span)).toArray, root⟩ := by
    simp only [ofLexemes, tokens, hroot]
  rw [parse, hlex]
  simp only [Except.mapError, ok_bind, tree, program, readDefs,
    Rule.statements_of_forall₂ stmts spells]
  rfl

/-- The source form of a canonical program is read as the program. -/
theorem parse_text_of_isCanonical (p : Program) (h : p.isCanonical = true) :
    parse p.text = .ok p :=
  parse_of_tokens h (lex_text h)

/-- A program with a class, a method, a loop and a conditional with all its branches. -/
def counting : Program where
  defs := [
    .class_ ⟨"Counter", "object", [⟨"n", .int, .number 0⟩],
      [⟨"add", [⟨"self", .object "Counter"⟩, ⟨"k", .int⟩], .int, [],
        [.assign (.member (.var none "self") "n")
          (.binary none .add (.field none (.var none "self") "n") (.var none "k")),
         .return_ (.field none (.var none "self") "n")]⟩]⟩,
    .var ⟨"c", .object "Counter", .none⟩,
    .function ⟨"sign", [⟨"x", .int⟩], .int, [⟨"s", .int, .number 1⟩],
      [.if_ (.binary none .lt (.var none "x") (.literal none (.number 0)))
        [.assign (.var "s") (.unary none .neg (.var none "s"))]
        (some (.binary none .eq (.var none "x") (.literal none (.number 0)),
          [.return_ (.literal none (.number 0))]))
        (some [.pass]),
       .return_ (.var none "s")]⟩]
  stmts := [
    .assign (.var "c") (.call none "Counter" []),
    .while_ (.unary none .not (.binary none .ge (.field none (.var none "c") "n")
        (.literal none (.number 3))))
      [.expr (.method none (.var none "c") "add" [.literal none (.number 1)])],
    .expr (.call none "print" [.call none "sign" [.unary none .neg
      (.binary none .sub (.field none (.var none "c") "n") (.literal none (.number 1)))]])]

theorem parse_text_counting : counting.isCanonical = true ∧ parse counting.text = .ok counting :=
  ⟨by decide, parse_text_of_isCanonical counting (by decide)⟩

/-- Whatever text a program was read from, it is canonical, so that its source form is read as it
and written as it was; and reading undoes writing on no other programs. -/
theorem isCanonical_iff_parse_text :
    (∀ source p, parse source = .ok p →
      p.isCanonical = true ∧ parse p.text = .ok p ∧ (parse p.text).map text = .ok p.text) ∧
    ∀ p, parse p.text = .ok p ↔ p.isCanonical = true := by
  refine ⟨fun source p h => ?_, fun p => ⟨isCanonical_of_parse, fun h => ?_⟩⟩
  · have canonical := isCanonical_of_parse h
    have read := parse_of_tokens canonical (lex_text canonical)
    refine ⟨canonical, read, ?_⟩
    rw [read]
    rfl
  · exact parse_of_tokens h (lex_text h)

end Program

end Serpent
