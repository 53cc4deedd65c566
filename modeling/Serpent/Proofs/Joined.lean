/-
Serpent.Proofs.Joined — several files as one source text are the program of their parts in order.

A command joins the files that it is given with an empty line between each two of them. If each of
them is a program alone, the text of all of them has the tokens of each in order, these are read as
the statements of each in order, and the whole is the program of all definitions and all statements,
unless a definition of one file comes behind a statement of an earlier one.

  §1 Programs by their parts
  §2 The script of a text
  §3 Joined files
-/
import Serpent.Command.Compiler
import Serpent.Command.Inspector
import Serpent.Proofs.Adjoining
import Serpent.Proofs.Relocation
import Serpent.Proofs.RoundTrip

namespace Serpent

open Fallible Node Rule

/-! ## §1 Programs by their parts -/

/-- The reading stops at a fault. -/
def Fault.Stops {α : Type} (f : Fault) (x : Except ParseError α) : Prop :=
  ∃ fragment span, x = .error (.fault f fragment span)

theorem Fault.Stops.bind {α β : Type} {f : Fault} {x : Except ParseError α} (h : f.Stops x)
    (g : α → Except ParseError β) : f.Stops (x >>= g) := by
  obtain ⟨fragment, span, rfl⟩ := h
  exact ⟨fragment, span, rfl⟩

namespace SourceTree

variable {tree : SourceTree}

theorem part_eq_inl {n : Node} {d : Def} :
    tree.part n = .ok (.inl d) ↔ isDefinition n = true ∧ tree.definition n = .ok d := by
  unfold part
  split
  · rename_i isDef
    simp [map_eq_ok, isDef]
  · rename_i isStmt
    simp [map_eq_ok, isStmt]

theorem part_eq_inr {n : Node} {s : Stmt} :
    tree.part n = .ok (.inr s) ↔ isDefinition n = false ∧ tree.statement .topLevel n = .ok s := by
  unfold part
  split
  · rename_i isDef
    simp [map_eq_ok, isDef]
  · rename_i isStmt
    simp [map_eq_ok, isStmt]

/-- What is read as a statement is no definition. -/
theorem isDefinition_of_statement {place : Place} {n : Node} {s : Stmt}
    (h : tree.statement place n = .ok s) : isDefinition n = false := by
  by_contra isDef
  rw [statement_of_isDefinition (by simpa using isDef)] at h
  cases h

/-- Parts of a script in their order: no definition stands behind a statement. -/
def InOrder (parts : List (Def ⊕ Stmt)) : Prop := parts.Pairwise fun x y => x.isRight → y.isRight

theorem inOrder_statement {s : Stmt} {parts : List (Def ⊕ Stmt)} :
    InOrder (.inr s :: parts) ↔ ∀ x ∈ Sum.inr s :: parts, x.isRight := by
  constructor
  · intro h x hx
    rcases List.mem_cons.1 hx with rfl | hx
    · rfl
    · exact List.rel_of_pairwise_cons h hx rfl
  · intro h
    exact List.pairwise_of_forall_mem_list fun x _ y hy _ => h y hy

/-- The nodes are read as the parts. -/
def AreRead (tree : SourceTree) (ns : List Node) (parts : List (Def ⊕ Stmt)) : Prop :=
  List.Forall₂ (fun n x => tree.part n = .ok x) ns parts

/-- Parts that are all statements are read as statements, and others are refused. -/
theorem statements_of_parts {ns : List Node} {parts : List (Def ⊕ Stmt)}
    (h : tree.AreRead ns parts) :
    ((∀ x ∈ parts, x.isRight) →
      tree.statements .topLevel ns = .ok (parts.filterMap Sum.getRight?)) ∧
    (¬(∀ x ∈ parts, x.isRight) →
      Fault.definitionAfterStatement.Stops (tree.statements .topLevel ns)) := by
  induction h with
  | nil => exact ⟨fun _ => rfl, fun h => absurd (by simp) h⟩
  | @cons n x ns parts read more ih =>
    cases x with
    | inl d =>
      refine ⟨fun all => by simpa using all (.inl d), fun _ => ?_⟩
      rw [statements, statement_of_isDefinition (part_eq_inl.1 read).1]
      exact ⟨_, _, rfl⟩
    | inr s =>
      rw [statements, (part_eq_inr.1 read).2, ok_bind]
      constructor
      · intro all
        rw [ih.1 fun x hx => all x (by simp [hx])]
        rfl
      · intro some
        exact (ih.2 fun all => some (by simpa using all)).bind _

/-- The program that nodes are read as. -/
def programOf (tree : SourceTree) (ns : List Node) : Except ParseError Program := do
  let defs ← (ns.takeWhile isDefinition).mapM tree.definition
  let stmts ← tree.statements .topLevel (ns.dropWhile isDefinition)
  return ⟨defs, stmts⟩

theorem programOf_definition {n : Node} (isDef : isDefinition n = true) (ns : List Node) :
    tree.programOf (n :: ns) = (do
      let d ← tree.definition n
      let p ← tree.programOf ns
      return ⟨d :: p.defs, p.stmts⟩) := by
  simp only [programOf, List.takeWhile_cons, List.dropWhile_cons, isDef, if_true, List.mapM_cons,
    bind_assoc, pure_bind]

theorem programOf_statement {n : Node} (isStmt : isDefinition n = false) (ns : List Node) :
    tree.programOf (n :: ns) = (do
      let stmts ← tree.statements .topLevel (n :: ns)
      return ⟨[], stmts⟩) := by
  simp only [programOf, List.takeWhile_cons, List.dropWhile_cons, isStmt, Bool.false_eq_true,
    if_false]
  rfl

/-- Nodes that are read as parts are the program of these parts if they are in their order, and
otherwise the first definition behind a statement is refused. -/
theorem programOf_parts {ns : List Node} {parts : List (Def ⊕ Stmt)} (h : tree.AreRead ns parts) :
    (InOrder parts → tree.programOf ns =
      .ok ⟨parts.filterMap Sum.getLeft?, parts.filterMap Sum.getRight?⟩) ∧
    (¬InOrder parts → Fault.definitionAfterStatement.Stops (tree.programOf ns)) := by
  induction h with
  | nil => exact ⟨fun _ => rfl, fun h => absurd List.Pairwise.nil h⟩
  | @cons n x ns parts read more ih =>
    cases x with
    | inl d =>
      have order : InOrder (.inl d :: parts) ↔ InOrder parts := by simp [InOrder]
      obtain ⟨isDef, read⟩ := part_eq_inl.1 read
      rw [programOf_definition isDef, read, ok_bind, order]
      constructor
      · intro sorted
        rw [ih.1 sorted]
        rfl
      · intro unsorted
        exact (ih.2 unsorted).bind _
    | inr s =>
      obtain ⟨all, some⟩ := statements_of_parts (.cons read more)
      rw [programOf_statement (part_eq_inr.1 read).1, inOrder_statement]
      constructor
      · intro sorted
        have noDefs : (Sum.inr s :: parts).filterMap Sum.getLeft? = [] :=
          List.filterMap_eq_nil_iff.2 fun x hx => Sum.getLeft?_eq_none_iff.2 (sorted x hx)
        rw [all sorted, noDefs]
        rfl
      · intro unsorted
        exact (some unsorted).bind _

theorem statements_eq_ok {place : Place} {ns : List Node} {ss : List Stmt} :
    tree.statements place ns = .ok ss ↔
      List.Forall₂ (fun n s => tree.statement place n = .ok s) ns ss := by
  have as_mapM : tree.statements place ns = ns.mapM (tree.statement place) := by
    induction ns with
    | nil => rfl
    | cons n ns ih => rw [statements, List.mapM_cons, ih]
  rw [as_mapM, mapM_eq_ok]

/-- What is read as a program is read as its parts. -/
theorem areRead_of_programOf {ns : List Node} {p : Program} (h : tree.programOf ns = .ok p) :
    tree.AreRead ns (inScript p) := by
  induction ns generalizing p with
  | nil =>
    cases h
    exact .nil
  | cons n ns ih =>
    cases isDef : isDefinition n with
    | true =>
      rw [programOf_definition isDef] at h
      obtain ⟨d, read, h⟩ := bind_eq_ok.1 h
      obtain ⟨p', more, h⟩ := bind_eq_ok.1 h
      cases h
      exact .cons (part_eq_inl.2 ⟨isDef, read⟩) (ih more)
    | false =>
      rw [programOf_statement isDef] at h
      obtain ⟨ss, read, h⟩ := bind_eq_ok.1 h
      cases h
      refine List.forall₂_map_right_iff.2 ((statements_eq_ok.1 read).imp fun m s hm => ?_)
      exact part_eq_inr.2 ⟨isDefinition_of_statement hm, hm⟩

end SourceTree

/-! ## §2 The script of a text -/

/-- The tokens of a text, and the nodes of the statements that they are read as. -/
structure Script where
  tokens : List Token
  nodes : List Node

namespace Script

/-- The script of a text, if it has one. -/
def ofText? (source : String) : Option Script :=
  match lex source.toList with
  | .error _ => none
  | .ok lexemes =>
    match Node.ofTokens (lexemes.map (·.token)) with
    | .error _ => none
    | .ok root => some ⟨lexemes.map (·.token), root.children⟩

/-- One script after the other: the nodes of the second stand behind the tokens of the first. -/
def append (a b : Script) : Script :=
  ⟨a.tokens ++ b.tokens, a.nodes ++ b.nodes.map (move a.tokens.length)⟩

/-- Scripts one after the other. -/
def join (scripts : List Script) : Script := scripts.foldr append ⟨[], []⟩

theorem append_empty (a : Script) : a.append ⟨[], []⟩ = a := by
  simp [append]

end Script

/-- The text has the script, and its nodes are read as the parts. -/
def Script.Holds (source : String) (script : Script) (parts : List (Def ⊕ Stmt)) : Prop :=
  ∃ lexemes root, lex source.toList = .ok lexemes ∧
    Node.ofTokens (lexemes.map (·.token)) = .ok root ∧
    script = ⟨lexemes.map (·.token), root.children⟩ ∧
    SourceTree.AreRead ⟨source.toList, (lexemes.map (·.span)).toArray, root⟩ root.children parts

theorem Program.parse_eq {source : String} {lexemes : List Lexeme} {root : Node}
    (hlex : lex source.toList = .ok lexemes)
    (htree : Node.ofTokens (lexemes.map (·.token)) = .ok root) :
    Program.parse source =
      SourceTree.programOf ⟨source.toList, (lexemes.map (·.span)).toArray, root⟩ root.children := by
  have tree : SourceTree.ofLexemes source.toList lexemes =
      .ok ⟨source.toList, (lexemes.map (·.span)).toArray, root⟩ := by
    simp only [SourceTree.ofLexemes, htree]
  rw [Program.parse, hlex]
  show ((SourceTree.ofLexemes source.toList lexemes).mapError ParseError.grammar >>= _) = _
  rw [tree]
  rfl

/-- Parts of a script are read in every tree that has their words. -/
theorem SourceTree.AreRead.move {tree tree' : SourceTree} {ts : List Token} {k : Nat}
    {ns : List Node} {parts : List (Def ⊕ Stmt)} (h : tree.AreRead ns parts)
    (rereads : Rereads tree tree' ts k) (shapes : ∀ n ∈ ns, IsStmt ts n) :
    tree'.AreRead (ns.map (Node.move k)) parts := by
  induction h with
  | nil => exact .nil
  | @cons n x ns parts read more ih =>
    have first := (same_part rereads (shapes n (by simp))).eq_ok read
    exact .cons first (ih fun m hm => shapes m (by simp [hm]))

namespace Script.Holds

variable {source source' : String} {script script' : Script} {parts parts' : List (Def ⊕ Stmt)}

theorem ofText? (h : Holds source script parts) : ofText? source = some script := by
  obtain ⟨lexemes, root, hlex, htree, rfl, -⟩ := h
  simp [Script.ofText?, hlex, htree]

theorem empty : Holds "" ⟨[], []⟩ [] := ⟨[], _, rfl, rfl, rfl, .nil⟩

/-- What is read from a text is read from its script. -/
theorem of_parse {p : Program} (h : Program.parse source = .ok p) :
    ∃ script, Holds source script (inScript p) := by
  obtain ⟨lexemes, hlex, tree⟩ := bind_eq_ok.1 h
  obtain ⟨tree, htree, -⟩ := bind_eq_ok.1 tree
  rw [mapError_eq_ok] at hlex htree
  unfold SourceTree.ofLexemes at htree
  split at htree
  · rename_i root hroot
    rw [Program.parse_eq hlex hroot] at h
    exact ⟨_, lexemes, root, hlex, hroot, rfl, SourceTree.areRead_of_programOf h⟩
  · cases htree

/-- A text is the program of the parts of its script. -/
theorem parse (h : Holds source script parts) :
    (SourceTree.InOrder parts → Program.parse source =
      .ok ⟨parts.filterMap Sum.getLeft?, parts.filterMap Sum.getRight?⟩) ∧
    (¬SourceTree.InOrder parts →
      Fault.definitionAfterStatement.Stops (Program.parse source)) := by
  obtain ⟨lexemes, root, hlex, htree, -, read⟩ := h
  rw [Program.parse_eq hlex htree]
  exact SourceTree.programOf_parts read

/-- Two texts with an empty line between them have the scripts of both, one after the other, and
they are read as the parts of both. -/
theorem append (first : Holds source script parts) (second : Holds source' script' parts') :
    Holds (source ++ "\n\n" ++ source') (script.append script') (parts ++ parts') := by
  obtain ⟨ls, root, hlex, htree, rfl, read⟩ := first
  obtain ⟨ls', root', hlex', htree', rfl, read'⟩ := second
  have starts : (ls'.map (·.token)).head? ≠ some .indent := by
    intro indent
    exact head_of_ofTokens htree' _ indent (by simp)
  obtain ⟨joined, hjoined, tokens⟩ := lex_join hlex (foldl_depthAfter htree 0) hlex' starts
  obtain ⟨both, hboth, children⟩ := ofTokens_append htree htree'
  have text : source.toList ++ '\n' :: '\n' :: source'.toList =
      (source ++ "\n\n" ++ source').toList := by simp
  rw [← tokens] at hboth
  rw [text] at hjoined
  have spells := SourceTree.spells_of_lex hjoined both
  refine ⟨joined, both, hjoined, hboth, by rw [tokens, children]; rfl, ?_⟩
  -- the tokens of the first text stand where they stood, and those of the second behind them
  have before := SourceTree.rereads_of_spells (k := 0) (SourceTree.spells_of_lex hlex root) spells
    fun i t h => by
      rw [tokens, Nat.add_zero, List.getElem?_append_left (List.getElem?_eq_some_iff.1 h).1, h]
  have behind := SourceTree.rereads_of_spells (k := (ls.map (·.token)).length)
    (SourceTree.spells_of_lex hlex' root') spells fun i t h => by
      rw [tokens, List.getElem?_append_right (Nat.le_add_left _ _), Nat.add_sub_cancel, h]
  have readBefore := read.move before (isStmt_of_ofTokens htree)
  have readBehind := read'.move behind (isStmt_of_ofTokens htree')
  rw [← moveAll_eq_map, moveAll_zero] at readBefore
  rw [children]
  exact List.rel_append readBefore readBehind

end Script.Holds

/-! ## §3 Joined files -/

/-- Source texts with an empty line between each two of them. -/
def joinSources (sources : List String) : String := "\n\n".intercalate sources

theorem joinSources_cons_cons (source source' : String) (sources : List String) :
    joinSources (source :: source' :: sources) =
      source ++ "\n\n" ++ joinSources (source' :: sources) := by
  rw [← String.toList_inj]
  simp [joinSources]

/-- Programs in an order in which they can be joined: no definition stands behind a statement. -/
def Program.Joinable (programs : List Program) : Prop :=
  programs.Pairwise fun p q => p.stmts ≠ [] → q.defs = []

instance (programs : List Program) : Decidable (Program.Joinable programs) :=
  inferInstanceAs (Decidable (programs.Pairwise fun p q => p.stmts ≠ [] → q.defs = []))

/-- Joined texts have the scripts of all of them, and are read as the parts of all of them. -/
theorem Script.holds_joinSources {sources : List String} {programs : List Program}
    (parsed : List.Forall₂ (fun s p => Program.parse s = .ok p) sources programs) :
    ∃ scripts, List.Forall₂ (fun s script => ofText? s = some script) sources scripts ∧
      Holds (joinSources sources) (join scripts) (programs.flatMap inScript) := by
  induction parsed with
  | nil => exact ⟨[], .nil, .empty⟩
  | @cons source p sources programs first more ih =>
    obtain ⟨script, holds⟩ := Holds.of_parse first
    obtain ⟨scripts, each, rest⟩ := ih
    refine ⟨script :: scripts, .cons holds.ofText? each, ?_⟩
    cases more with
    | nil =>
      cases each
      have alone : join [script] = script := script.append_empty
      rw [alone, List.flatMap_singleton]
      exact holds
    | @cons source' p' sources programs second more =>
      rw [joinSources_cons_cons]
      exact holds.append rest

theorem Program.inOrder_flatMap (programs : List Program) :
    SourceTree.InOrder (programs.flatMap inScript) ↔ Joinable programs := by
  have each : ∀ p : Program, SourceTree.InOrder (inScript p) := by
    intro p
    refine List.pairwise_append.2 ⟨?_, ?_, ?_⟩
    · exact List.pairwise_map.2 (List.pairwise_of_forall fun _ _ left => left)
    · exact List.pairwise_map.2 (List.pairwise_of_forall fun _ _ right => right)
    · simp
  have across : ∀ p q : Program, (∀ x ∈ inScript p, ∀ y ∈ inScript q, x.isRight → y.isRight) ↔
      (p.stmts ≠ [] → q.defs = []) := by
    intro p q
    simp only [inScript, List.mem_append, List.mem_map]
    constructor
    · intro h some
      obtain ⟨s, hs⟩ := List.exists_mem_of_ne_nil _ some
      refine List.eq_nil_iff_forall_not_mem.2 fun d hd => ?_
      have := h (.inr s) (.inr ⟨s, hs, rfl⟩) (.inl d) (.inl ⟨d, hd, rfl⟩) rfl
      cases this
    · rintro h _ (⟨d, hd, rfl⟩ | ⟨s, hs, rfl⟩) _ (⟨d', hd', rfl⟩ | ⟨s', hs', rfl⟩) right
      · exact right
      · rfl
      · rw [h (List.ne_nil_of_mem hs)] at hd'
        cases hd'
      · rfl
  rw [SourceTree.InOrder, List.pairwise_flatMap, Joinable]
  simp only [across]
  exact and_iff_right fun p _ => each p

theorem Program.filterMap_flatMap_inScript (programs : List Program) :
    (programs.flatMap inScript).filterMap Sum.getLeft? = programs.flatMap (·.defs) ∧
      (programs.flatMap inScript).filterMap Sum.getRight? = programs.flatMap (·.stmts) := by
  simp [List.filterMap_flatMap, inScript, Function.comp_def]

/-- **Several files are the program of their parts in order.** Where each source text is a program,
both commands take files with these texts as the one text of all of them. It has the tokens of each
text in order, which are read as the statements of each, so nothing of one file reaches into the
next. Unless a definition stands behind a statement of an earlier file, the whole is the program of
all definitions and all statements; and if one does, it is refused. -/
theorem Program.parse_joinSources {sources : List String} {programs : List Program}
    (parsed : List.Forall₂ (fun s p => Program.parse s = .ok p) sources programs) :
    (∀ (files : Files) (paths : List String), paths ≠ [] → files.readEach paths = .ok sources →
      (∀ emit pages, Compiler.runJob files ⟨.files paths, emit, pages⟩ =
        Compiler.runJob files ⟨.code (joinSources sources), emit, pages⟩) ∧
      Inspector.run files paths = Inspector.inspect (joinSources sources)) ∧
    (∃ scripts, List.Forall₂ (fun s script => Script.ofText? s = some script) sources scripts ∧
      Script.ofText? (joinSources sources) = some (Script.join scripts)) ∧
    (Joinable programs → Program.parse (joinSources sources) =
      .ok ⟨programs.flatMap (·.defs), programs.flatMap (·.stmts)⟩) ∧
    (¬Joinable programs →
      Fault.definitionAfterStatement.Stops (Program.parse (joinSources sources))) := by
  obtain ⟨scripts, each, holds⟩ := Script.holds_joinSources parsed
  obtain ⟨program, refused⟩ := holds.parse
  obtain ⟨defs, stmts⟩ := filterMap_flatMap_inScript programs
  rw [inOrder_flatMap, defs, stmts] at program
  rw [inOrder_flatMap] at refused
  refine ⟨fun files paths some read => ?_, ⟨scripts, each, holds.ofText?⟩, program, refused⟩
  have joined : files.readJoined paths = .ok (joinSources sources) := by
    rw [Files.readJoined, read]
    rfl
  constructor
  · intro emit pages
    simp only [Compiler.runJob, joined]
  · simp only [Inspector.run, joined, List.isEmpty_iff, some, if_false]

/-- A function whose last line is a comment three blocks deep, without an end. -/
def nestedSource : String :=
  "x: int = 1\ndef f() -> int:\n    while True:\n        if x < 1:\n            return x\n" ++
  "            # go on"

def nestedProgram : Program :=
  ⟨[.var ⟨"x", .int, .number 1⟩,
    .function ⟨"f", [], .int, [], [.while_ (.literal none (.bool true))
      [.if_ (.binary none .lt (.var none "x") (.literal none (.number 1)))
        [.return_ (.var none "x")] none none]]⟩], []⟩

/-- A conditional whose last line is to be continued. -/
def continuedSource : String := "y: bool = True\nif y:\n    x = 2 \\\n"

def continuedProgram : Program :=
  ⟨[.var ⟨"y", .bool, .bool true⟩],
    [.if_ (.var none "y") [.assign (.var "x") (.literal none (.number 2))] none none]⟩

def calledSource : String := "f()"

def calledProgram : Program := ⟨[], [.expr (.call none "f" [])]⟩

/-- Three files of which the first two end inside blocks are joined; the second one cannot stand
before the first, which has definitions. -/
theorem Program.parse_joinSources_samples :
    List.Forall₂ (fun s p => Program.parse s = .ok p) [nestedSource, continuedSource, calledSource]
      [nestedProgram, continuedProgram, calledProgram] ∧
    Program.parse (joinSources [nestedSource, continuedSource, calledSource]) =
      .ok ⟨nestedProgram.defs ++ continuedProgram.defs,
        continuedProgram.stmts ++ calledProgram.stmts⟩ ∧
    Fault.definitionAfterStatement.Stops
      (Program.parse (joinSources [continuedSource, nestedSource])) := by
  have nested : Program.parse nestedSource = .ok nestedProgram := by decide +kernel
  have continued : Program.parse continuedSource = .ok continuedProgram := by decide +kernel
  have called : Program.parse calledSource = .ok calledProgram := by decide +kernel
  have parsed : List.Forall₂ (fun s p => Program.parse s = .ok p)
      [nestedSource, continuedSource, calledSource]
      [nestedProgram, continuedProgram, calledProgram] :=
    .cons nested (.cons continued (.cons called .nil))
  have parsed' : List.Forall₂ (fun s p => Program.parse s = .ok p)
      [continuedSource, nestedSource] [continuedProgram, nestedProgram] :=
    .cons continued (.cons nested .nil)
  exact ⟨parsed, (parse_joinSources parsed).2.2.1 (by decide),
    (parse_joinSources parsed').2.2.2 (by decide)⟩

end Serpent
