/-
Serpent.Proofs.Lowering — which code belongs to which part of a program.

The relations here say in one place what the names in a part of a program stand for and what its
code looks like. Every later fact about code, that it runs as the program does or that it is valid,
is an induction over them.

  §1 Expressions
  §2 Statements
  §3 The layouts of classes
  §4 The code of an expression
  §5 The code of statements
  §6 Routines
  §7 Images
-/
import Serpent.Image.Lower
import Serpent.Proofs.Evaluate
import Serpent.Proofs.Fallible
import Serpent.Proofs.Lookup

namespace Serpent

open Wasm (Instr)

/-! ## §1 Expressions -/

/-- The layout of the objects of a class. -/
def ClassDef.layout (c : ClassDef) : ClassLayout := .ofFields c.name c.fields

/-- `code` leaves the value of an expression in which all names are known; `names` are the names of
the local variables. -/
inductive Expr.Lowers (p : Program) (names : List String) : Expr → List Instr → Prop
  | literal (ty : Option Ty) (v : Literal) : Lowers p names (.literal ty v) [.const v.word]
  | readLocal (ty : Option Ty) {x : String} (hx : x ∈ names) :
      Lowers p names (.var ty x) [.localGet (varSymbol x)]
  | readGlobal (ty : Option Ty) {x : String} (hx : x ∉ names)
      (known : x ∈ p.globalVars.map (·.name)) :
      Lowers p names (.var ty x) [.globalGet (varSymbol x)]
  | neg (ty : Option Ty) {e : Expr} {code : List Instr} (operand : Lowers p names e code) :
      Lowers p names (.unary ty .neg e) (code ++ [.const (-1), .binary .mul])
  | not (ty : Option Ty) {e : Expr} {code : List Instr} (operand : Lowers p names e code) :
      Lowers p names (.unary ty .not e) (code ++ [.eqz])
  | binary (ty : Option Ty) (op : BinOp) {l r : Expr} {left right : List Instr}
      (hl : Lowers p names l left) (hr : Lowers p names r right) :
      Lowers p names (.binary ty op l r) (left ++ right ++ [.binary (Surroundings.operation op)])
  | print (ty : Option Ty) {e : Expr} {t : Ty} {code : List Instr} (typed : e.ty? = some t)
      (argument : Lowers p names e code) :
      Lowers p names (.call ty printFunction [e])
        (code ++ [.call (importSymbol (Surroundings.printerOf t).name)])
  | construct (ty : Option Ty) {f : String} {c : ClassDef} (notPrint : f ≠ printFunction)
      (found : p.class? f = some c) : Lowers p names (.call ty f []) c.layout.construct
  | call (ty : Option Ty) {f : String} {args : List Expr} {d : FunDef}
      (code : Expr → List Instr) (notPrint : f ≠ printFunction) (noClass : p.class? f = none)
      (found : p.function? f = some d) (arity : d.params.length = args.length)
      (arguments : ∀ a ∈ args, Lowers p names a (code a)) :
      Lowers p names (.call ty f args) (args.flatMap code ++ [.call (functionSymbol f)])
  | field (ty : Option Ty) {o : Expr} {x : String} {c : ClassDef} {k : Word} {code : List Instr}
      (found : p.classOf? o = some c) (place : c.place? x = some k)
      (receiver : Lowers p names o code) :
      Lowers p names (.field ty o x) (code ++ [.const k, .binary .add, .load])
  | method (ty : Option Ty) {o : Expr} {x : String} {args : List Expr} {c : ClassDef}
      {m : FunDef} {self : List Instr} (code : Expr → List Instr)
      (found : p.classOf? o = some c) (member : c.method? x = some m)
      (arity : m.params.length = args.length + 1) (receiver : Lowers p names o self)
      (arguments : ∀ a ∈ args, Lowers p names a (code a)) :
      Lowers p names (.method ty o x args)
        (self ++ args.flatMap code ++ [.call (methodSymbol c.name x)])

/-! ## §2 Statements -/

/-- `code` has the effect of statements in which all names are known. Loops are numbered from the
first number on, and the last number is the first one that is left. A function may return, the top
level of a program may not. -/
inductive Stmt.Lowers (p : Program) (names : List String) (mayReturn : Bool) :
    Nat → List Stmt → List Instr → Nat → Prop
  | nil (n : Nat) : Lowers p names mayReturn n [] [] n
  | pass {n n' : Nat} {ss : List Stmt} {rest : List Instr}
      (tail : Lowers p names mayReturn n ss rest n') :
      Lowers p names mayReturn n (.pass :: ss) rest n'
  | expr {n n' : Nat} {e : Expr} {ss : List Stmt} {code rest : List Instr}
      (value : e.Lowers p names code) (tail : Lowers p names mayReturn n ss rest n') :
      Lowers p names mayReturn n (.expr e :: ss) (code ++ .localSet scratchLocal :: rest) n'
  | assignLocal {n n' : Nat} {x : String} {e : Expr} {ss : List Stmt} {code rest : List Instr}
      (hx : x ∈ names) (value : e.Lowers p names code)
      (tail : Lowers p names mayReturn n ss rest n') :
      Lowers p names mayReturn n (.assign (.var x) e :: ss)
        (code ++ .localSet (varSymbol x) :: rest) n'
  | assignGlobal {n n' : Nat} {x : String} {e : Expr} {ss : List Stmt} {code rest : List Instr}
      (hx : x ∉ names) (known : x ∈ p.globalVars.map (·.name)) (value : e.Lowers p names code)
      (tail : Lowers p names mayReturn n ss rest n') :
      Lowers p names mayReturn n (.assign (.var x) e :: ss)
        (code ++ .globalSet (varSymbol x) :: rest) n'
  | assignMember {n n' : Nat} {o e : Expr} {x : String} {c : ClassDef} {k : Word}
      {ss : List Stmt} {self code rest : List Instr} (found : p.classOf? o = some c)
      (place : c.place? x = some k) (receiver : o.Lowers p names self)
      (value : e.Lowers p names code) (tail : Lowers p names mayReturn n ss rest n') :
      Lowers p names mayReturn n (.assign (.member o x) e :: ss)
        (self ++ [.const k, .binary .add] ++ code ++ .store :: rest) n'
  | return_ {n n' : Nat} {e : Expr} {ss : List Stmt} {code rest : List Instr}
      (allowed : mayReturn = true) (value : e.Lowers p names code)
      (tail : Lowers p names mayReturn n ss rest n') :
      Lowers p names mayReturn n (.return_ e :: ss) (code ++ .return_ :: rest) n'
  | while_ {n n₁ n' : Nat} {c : Expr} {body ss : List Stmt} {cond inner rest : List Instr}
      (condition : c.Lowers p names cond) (round : Lowers p names mayReturn (n + 1) body inner n₁)
      (tail : Lowers p names mayReturn n₁ ss rest n') :
      Lowers p names mayReturn n (.while_ c body :: ss)
        (Surroundings.whileLoop n cond inner :: rest) n'
  | if_ {n n₁ n₂ n' : Nat} {c : Expr} {body ss : List Stmt} {orElse : Option (List Stmt)}
      {cond thn els rest : List Instr} (condition : c.Lowers p names cond)
      (yes : Lowers p names mayReturn n body thn n₁)
      (no : Lowers p names mayReturn n₁ (orElse.getD []) els n₂)
      (tail : Lowers p names mayReturn n₂ ss rest n') :
      Lowers p names mayReturn n (.if_ c body none orElse :: ss) (cond ++ .ifElse thn els :: rest) n'
  | elif {n n₁ n₂ n' : Nat} {c d : Expr} {body other ss : List Stmt}
      {orElse : Option (List Stmt)} {cond thn els rest : List Instr}
      (condition : c.Lowers p names cond) (yes : Lowers p names mayReturn n body thn n₁)
      (no : Lowers p names mayReturn n₁ [.if_ d other none orElse] els n₂)
      (tail : Lowers p names mayReturn n₂ ss rest n') :
      Lowers p names mayReturn n (.if_ c body (some (d, other)) orElse :: ss)
        (cond ++ .ifElse thn els :: rest) n'

/-! ## §3 The layouts of classes -/

/-- The definitions of the classes of a program, the class of all objects first. -/
def Program.allClasses (p : Program) : List ClassDef :=
  ⟨objectClass, objectClass, [], []⟩ :: p.classes

/-- No class is defined twice. -/
def Program.ClassesDiffer (p : Program) : Prop := (p.allClasses.map (·.name)).Nodup

theorem Program.mem_of_class? {p : Program} {f : String} {c : ClassDef} (h : p.class? f = some c) :
    c ∈ p.allClasses ∧ c.name = f :=
  ⟨List.mem_of_find?_eq_some h, by simpa using List.find?_some h⟩

theorem Image.layoutsOf_eq (p : Program) :
    layoutsOf p = (p.allClasses.map fun c => (c.name, c.layout)).reverse := by
  rw [Program.allClasses, List.map_cons, List.reverse_cons]
  rfl

/-- The layout under a name is that of the class of that name. -/
theorem Image.lookup_layoutsOf {p : Program} (h : p.ClassesDiffer) (f : String) :
    (layoutsOf p).lookup f = (p.class? f).map ClassDef.layout := by
  rw [layoutsOf_eq]
  cases found : p.class? f with
  | none =>
    apply lookup_eq_none
    intro mem
    simp only [List.map_reverse, List.mem_reverse, List.map_map, List.mem_map] at mem
    obtain ⟨c, hc, rfl⟩ := mem
    have := List.find?_eq_none.1 found c hc
    simp at this
  | some c =>
    obtain ⟨mem, rfl⟩ := Program.mem_of_class? found
    apply lookup_of_nodup
    · rw [List.map_reverse, List.nodup_reverse, List.map_map]
      exact h
    · rw [List.mem_reverse]
      exact List.mem_map_of_mem mem

/-- Both ways to count the places of fields agree. -/
theorem ClassLayout.offsetAt_eq (i : Nat) : offsetAt i = fieldPlace i := by
  rw [offsetAt, fieldPlace, Nat.mul_add, Int32.ofNat_add, Int32.ofNat_mul, Int32.add_comm]
  rfl

theorem ClassDef.offset?_layout (c : ClassDef) (x : String) : c.layout.offset? x = c.place? x := by
  rw [ClassLayout.offset?, place?, layout, ClassLayout.ofFields, List.mapIdx_eq_zipIdx_map,
    List.find?_map, List.findIdx?_eq_fst_find?_zipIdx, Option.map_map, Option.map_map]
  refine congrArg₂ Option.map ?_ rfl
  funext entry
  exact ClassLayout.offsetAt_eq entry.2

/-! ## §4 The code of an expression -/

section

variable {p : Program} {names : List String}

theorem Program.classOf_eq {o : Expr} {c : ClassDef} (h : p.classOf? o = some c) :
    Surroundings.classOf o = .ok c.name := by
  obtain ⟨name, typed, found⟩ := Option.bind_eq_some_iff.1 h
  obtain ⟨t, ht, isClass⟩ := Option.bind_eq_some_iff.1 typed
  simp [Surroundings.classOf, Surroundings.typeOf, ht, isClass, (mem_of_class? found).2]

theorem Program.class?_of_classOf? {o : Expr} {c : ClassDef} (h : p.classOf? o = some c) :
    p.class? c.name = some c := by
  obtain ⟨name, -, found⟩ := Option.bind_eq_some_iff.1 h
  rw [(mem_of_class? found).2, found]

theorem Program.offsetOf_eq (distinct : p.ClassesDiffer) {o : Expr} {c : ClassDef} {x : String}
    {k : Word} (h : p.classOf? o = some c) (place : c.place? x = some k) :
    (⟨Image.layoutsOf p, names⟩ : Surroundings).offsetOf o x = .ok k := by
  simp [Surroundings.offsetOf, classOf_eq h, Image.lookup_layoutsOf distinct,
    class?_of_classOf? h, ClassDef.offset?_layout, place]

theorem Surroundings.exprs_eq {env : Surroundings} {args : List Expr} {code : Expr → List Instr}
    (h : ∀ a ∈ args, env.expr a = .ok (code a)) : env.exprs args = .ok (args.flatMap code) := by
  induction args with
  | nil => rfl
  | cons a args ih =>
    have first := h a (by simp)
    have rest := ih fun b hb => h b (by simp [hb])
    simp [exprs, first, rest]

/-- A call of anything but `print` makes an object or calls a function. -/
theorem Surroundings.expr_call {env : Surroundings} {ty : Option Ty} {f : String}
    {args : List Expr} (h : f ≠ printFunction) :
    env.expr (.call ty f args) =
      match env.layouts.lookup f with
      | some layout => .ok layout.construct
      | none => do return (← env.exprs args) ++ [.call (functionSymbol f)] := by
  rw [expr.eq_def]
  exact (if_neg h).trans rfl

/-- An expression whose names are known has the code that belongs to it. -/
theorem Expr.Lowers.expr_eq (distinct : p.ClassesDiffer) {e : Expr} {code : List Instr}
    (h : e.Lowers p names code) :
    (⟨Image.layoutsOf p, names⟩ : Surroundings).expr e = .ok code := by
  induction h with
  | literal ty v => rfl
  | readLocal ty hx => simp [Surroundings.expr, Surroundings.getVar, hx]
  | readGlobal ty hx known => simp [Surroundings.expr, Surroundings.getVar, hx]
  | neg ty operand ih => simp [Surroundings.expr, ih]
  | not ty operand ih => simp [Surroundings.expr, ih]
  | binary ty op hl hr ihl ihr => simp [Surroundings.expr, ihl, ihr]
  | print ty typed argument ih =>
    rw [Surroundings.expr]
    simp [ih, Surroundings.typeOf, typed]
  | construct ty notPrint found =>
    simp [Surroundings.expr_call notPrint, Image.lookup_layoutsOf distinct, found]
  | call ty code notPrint noClass found arity arguments ih =>
    simp [Surroundings.expr_call notPrint, Image.lookup_layoutsOf distinct, noClass,
      Surroundings.exprs_eq ih]
  | field ty found place receiver ih =>
    simp [Surroundings.expr, Program.offsetOf_eq distinct found place, ih]
  | method ty code found member arity receiver arguments ih ihargs =>
    simp [Surroundings.expr, Program.classOf_eq found, ih, Surroundings.exprs_eq ihargs]

/-! ## §5 The code of statements -/

/-- An `elif` branch is a conditional inside the `else` branch. -/
theorem Surroundings.stmt_elif (env : Surroundings) (n : Nat) (c d : Expr)
    (body other : List Stmt) (orElse : Option (List Stmt)) :
    env.stmt n (.if_ c body (some (d, other)) orElse) = (do
      let cond ← env.expr c
      let (thn, next) ← env.block n body
      let (els, next) ← env.stmt next (.if_ d other none orElse)
      return (cond ++ [.ifElse thn els], next)) := by
  cases orElse with
  | none => simp [stmt]
  | some orElse => simp [stmt]

/-- Statements whose names are known have the code that belongs to them. -/
theorem Stmt.Lowers.block_eq (distinct : p.ClassesDiffer) {mayReturn : Bool} {n n' : Nat}
    {ss : List Stmt} {code : List Instr} (h : Stmt.Lowers p names mayReturn n ss code n') :
    (⟨Image.layoutsOf p, names⟩ : Surroundings).block n ss = .ok (code, n') := by
  induction h with
  | nil n => rfl
  | pass tail ih => simp [Surroundings.block, Surroundings.stmt, ih]
  | expr value tail ih =>
    simp [Surroundings.block, Surroundings.stmt, value.expr_eq distinct, ih]
  | assignLocal hx value tail ih =>
    simp [Surroundings.block, Surroundings.stmt, value.expr_eq distinct, ih, Surroundings.setVar, hx]
  | assignGlobal hx known value tail ih =>
    simp [Surroundings.block, Surroundings.stmt, value.expr_eq distinct, ih, Surroundings.setVar, hx]
  | assignMember found place receiver value tail ih =>
    simp [Surroundings.block, Surroundings.stmt, Program.offsetOf_eq distinct found place,
      receiver.expr_eq distinct, value.expr_eq distinct, ih]
  | return_ allowed value tail ih =>
    simp [Surroundings.block, Surroundings.stmt, value.expr_eq distinct, ih]
  | while_ condition round tail ihround ih =>
    simp [Surroundings.block, Surroundings.stmt, condition.expr_eq distinct, ihround, ih]
  | @if_ n n₁ n₂ n' c body ss orElse cond thn els rest condition yes no tail ihyes ihno ih =>
    cases orElse with
    | none =>
      cases no
      simp [Surroundings.block, Surroundings.stmt, condition.expr_eq distinct, ihyes, ih]
    | some orElse =>
      rw [Option.getD_some] at ihno
      simp [Surroundings.block, Surroundings.stmt, condition.expr_eq distinct, ihyes, ihno, ih]
  | @elif n n₁ n₂ n' c d body other ss orElse cond thn els rest condition yes no tail ihyes ihno ih =>
    obtain ⟨⟨first, m⟩, hfirst, h⟩ := Fallible.bind_eq_ok.1 ihno
    cases h
    simp [Surroundings.block, Surroundings.stmt_elif, condition.expr_eq distinct, ihyes, hfirst, ih]

end

/-! ## §6 Routines -/

/-- The names of the local variables of a function. -/
def FunDef.localNames (f : FunDef) : List String := f.params.map (·.name) ++ f.locals.map (·.name)

/-- The code that gives the variables of a function their initial values. -/
def FunDef.initCode (f : FunDef) : List Instr :=
  f.locals.flatMap fun v => [.const v.value.word, .localSet (varSymbol v.name)]

/-- The routine of a function whose body has the given code. -/
def FunDef.routine (f : FunDef) (symbol : String) (code : List Instr) : Routine :=
  ⟨symbol, none, f.params.map (varSymbol ·.name), f.locals.map (varSymbol ·.name), true,
    f.initCode ++ code ++ [.const 0]⟩

/-- The routines of functions whose names are known. -/
inductive Routine.Lowers (p : Program) : Nat → List (String × FunDef) → List Routine → Nat → Prop
  | nil (n : Nat) : Lowers p n [] [] n
  | cons {n n₁ n' : Nat} {symbol : String} {f : FunDef} {fs : List (String × FunDef)}
      {code : List Instr} {rs : List Routine}
      (body : Stmt.Lowers p f.localNames true n f.body code n₁) (tail : Lowers p n₁ fs rs n') :
      Lowers p n ((symbol, f) :: fs) (f.routine symbol code :: rs) n'

theorem FunDef.initVars_locals (layouts : List (String × ClassLayout)) (f : FunDef) :
    (⟨layouts, f.localNames⟩ : Surroundings).initVars f.locals = f.initCode := by
  refine List.flatMap_congr fun v hv => ?_
  have : v.name ∈ f.localNames := List.mem_append_right _ (List.mem_map_of_mem hv)
  simp [Surroundings.setVar, this]

theorem Routine.Lowers.routinesOf_eq {p : Program} (distinct : p.ClassesDiffer) {n n' : Nat}
    {fs : List (String × FunDef)} {rs : List Routine} (h : Routine.Lowers p n fs rs n') :
    Image.routinesOf (Image.layoutsOf p) n fs = .ok (rs, n') := by
  induction h with
  | nil n => rfl
  | @cons n n₁ n' symbol f fs code rs body tail ih =>
    have first : Image.routineOf (Image.layoutsOf p) n symbol f =
        .ok (f.routine symbol code, n₁) := by
      have code_eq := body.block_eq distinct
      rw [FunDef.localNames] at code_eq
      rw [FunDef.routine, ← FunDef.initVars_locals (Image.layoutsOf p)]
      simp [Image.routineOf, code_eq, FunDef.localNames]
    simp [Image.routinesOf, first, ih]

/-! ## §7 Images -/

/-- A program in which every name is known, and in which no name that becomes a symbol is declared
twice in its place. -/
structure Program.IsResolved (p : Program) : Prop where
  classes : p.ClassesDiffer
  functions : (p.functions.map (·.name)).Nodup
  globals : (p.globalVars.map (·.name)).Nodup
  /-- No function has the name of a class. -/
  apart : ∀ f ∈ p.functions, p.class? f.name = none
  methods : ∀ c ∈ p.classes, (c.methods.map (·.name)).Nodup
  /-- A method that constructs takes the object only. -/
  inits : ∀ c ∈ p.classes, ∀ m ∈ c.methods, m.name = initMethod → m.params.length = 1
  locals : ∀ entry ∈ Image.functionsOf p, entry.2.localNames.Nodup
  bodies : ∀ entry ∈ Image.functionsOf p, ∀ n,
    ∃ code n', Stmt.Lowers p entry.2.localNames true n entry.2.body code n'
  stmts : ∀ n, ∃ code n', Stmt.Lowers p [] false n p.stmts code n'

/-- The code that gives the global variables their initial values. -/
def Program.initCode (p : Program) : List Instr :=
  p.globalVars.flatMap fun v => [.const v.value.word, .globalSet (varSymbol v.name)]

/-- The entry of a program whose statements have the given code. -/
def Program.entry (p : Program) (code : List Instr) : Routine :=
  ⟨entrySymbol, some Wasm.Host.entryName, [], [], Image.hasValue p,
    p.initCode ++ code ++ if Image.hasValue p then [.localGet scratchLocal] else []⟩

/-- The image of a program has a routine for each function and the entry. -/
structure Image.Lowers (p : Program) (i : Image) : Prop where
  globals : i.globals = p.globalVars.map (varSymbol ·.name)
  code : ∃ n code n', Routine.Lowers p 0 (Image.functionsOf p) i.routines n ∧
    Stmt.Lowers p [] false n p.stmts code n' ∧ i.entry = p.entry code

theorem Routine.exists_lowers {p : Program} {fs : List (String × FunDef)}
    (h : ∀ entry ∈ fs, ∀ n, ∃ code n',
      Stmt.Lowers p entry.2.localNames true n entry.2.body code n') (n : Nat) :
    ∃ rs n', Routine.Lowers p n fs rs n' := by
  induction fs generalizing n with
  | nil => exact ⟨[], n, .nil n⟩
  | cons entry fs ih =>
    obtain ⟨code, n₁, body⟩ := h entry (by simp) n
    obtain ⟨rs, n', tail⟩ := ih (fun other mem => h other (by simp [mem])) n₁
    exact ⟨_, n', .cons body tail⟩

/-- A program in which every name is known has an image. -/
theorem Program.IsResolved.exists_image {p : Program} (h : p.IsResolved) :
    ∃ i, Image.ofProgram p = .ok i ∧ i.Lowers p := by
  obtain ⟨rs, n, routines⟩ := Routine.exists_lowers h.bodies 0
  obtain ⟨code, n', stmts⟩ := h.stmts n
  have globals : (⟨Image.layoutsOf p, []⟩ : Surroundings).initVars p.globalVars = p.initCode := by
    simp [Surroundings.initVars, Surroundings.setVar, initCode]
  refine ⟨⟨p.globalVars.map (varSymbol ·.name), rs, p.entry code⟩, ?_, rfl, n, code, n', routines,
    stmts, rfl⟩
  simp [Image.ofProgram, routines.routinesOf_eq h.classes, Image.entryOf, stmts.block_eq h.classes,
    globals, entry]

end Serpent
