/-
Serpent.Proofs.WellFormed — the module of a checked program is well formed.

A module is made of the imports, the globals, the routines of functions and methods, and the entry.
No two of them share a symbol, because a word holds no `$` and each kind of symbol has its
own place for one. So every name in the code of a module is declared exactly once, and the text of
the module is read as the module.

  §1 Declarations
  §2 The functions of an image
  §3 What a module offers to its code
  §4 Valid functions
  §5 Valid modules
  §6 Spelling
-/
import Serpent.Proofs.Validity

namespace Serpent

open Wasm (Instr Func Module Names Height Printer NameKind)
open Wasm.Instr (listLabels listSymbols)

/-! ## §1 Declarations -/

/-- The names that are declared for the body of a function. -/
def Wasm.Module.declarations (m : Module) (f : Func) : NameKind → List String
  | .localVar => f.params ++ f.locals
  | .globalVar => m.globals.map (·.name)
  | .function => m.signatures.map (·.1)
  | .label => m.funcs.flatMap fun g => listLabels g.body

/-- Every name in the body of a function is declared once as what it stands for. -/
def Wasm.Module.DeclaresOnce (m : Module) (f : Func) : Prop :=
  ∀ s ∈ listSymbols f.body, (m.declarations f s.1).count s.2 = 1

theorem Wasm.areDistinct_of_nodup {xs : List String} (h : xs.Nodup) : areDistinct xs = true :=
  decide_eq_true (h.filter _)

/-! ## §2 The functions of an image -/

section

variable {p : Program} {i : Image}

theorem Routine.Lowers.exists_of_mem {n n' : Nat} {fs : List (String × FunDef)} {rs : List Routine}
    (h : Routine.Lowers p n fs rs n') {r : Routine} (mem : r ∈ rs) :
    ∃ symbol f code k k', (symbol, f) ∈ fs ∧ r = f.routine symbol code ∧
      Stmt.Lowers p f.localNames true k f.body code k' := by
  induction h with
  | nil n => cases mem
  | cons body tail ih =>
    rcases List.mem_cons.1 mem with rfl | mem
    · exact ⟨_, _, _, _, _, List.mem_cons_self, rfl, body⟩
    · obtain ⟨symbol, f, code, k, k', hf, eq, hcode⟩ := ih mem
      exact ⟨symbol, f, code, k, k', List.mem_cons_of_mem _ hf, eq, hcode⟩

/-- A function of the module is the routine of a function or method, or the entry. -/
theorem Image.Lowers.mem_funcs (h : i.Lowers p) {g : Func} (hg : g ∈ i.toModule.funcs) :
    (∃ symbol f code k k', (symbol, f) ∈ Image.functionsOf p ∧
      g = (f.routine symbol code).toFunc ∧ Stmt.Lowers p f.localNames true k f.body code k') ∨
    ∃ code k k', g = (p.entry code).toFunc ∧ Stmt.Lowers p [] false k p.stmts code k' := by
  obtain ⟨n, code, n', routines, stmts, entry⟩ := h.code
  rcases List.mem_append.1 hg with hg | hg
  · obtain ⟨r, hr, rfl⟩ := List.mem_map.1 hg
    obtain ⟨symbol, f, code, k, k', hf, rfl, hcode⟩ := routines.exists_of_mem hr
    exact .inl ⟨symbol, f, code, k, k', hf, rfl, hcode⟩
  · rw [List.mem_singleton.1 hg, entry]
    exact .inr ⟨code, n, n', rfl, stmts⟩

theorem FunDef.listLabels_initCode (f : FunDef) : listLabels f.initCode = [] :=
  Wasm.Instr.listLabels_flatMap fun _ _ => rfl

theorem Routine.Lowers.listLabels_eq {n n' : Nat} {fs : List (String × FunDef)} {rs : List Routine}
    (h : Routine.Lowers p n fs rs n') :
    n ≤ n' ∧ (rs.flatMap fun r => listLabels r.body) = loopLabels n n' := by
  induction h with
  | nil n => exact ⟨Nat.le_refl n, (loopLabels_self n).symm⟩
  | @cons n n₁ n' symbol f fs code rs body tail ih =>
    obtain ⟨le, labels⟩ := body.listLabels_eq
    have first : listLabels (f.routine symbol code).body = loopLabels n n₁ := by
      simp only [FunDef.routine, Wasm.Instr.listLabels_append, f.listLabels_initCode, labels]
      exact List.append_nil _
    refine ⟨Nat.le_trans le ih.1, ?_⟩
    rw [List.flatMap_cons, first, ih.2, loopLabels_append le ih.1]

/-- The loops of a module are numbered from 0 on, through all of its functions. -/
theorem Image.Lowers.listLabels_eq (h : i.Lowers p) :
    ∃ n, (i.toModule.funcs.flatMap fun g => listLabels g.body) = loopLabels 0 n := by
  obtain ⟨n, code, n', routines, stmts, entry⟩ := h.code
  obtain ⟨le, labels⟩ := stmts.listLabels_eq
  obtain ⟨le', labels'⟩ := routines.listLabels_eq
  have globals : listLabels p.initCode = [] := Wasm.Instr.listLabels_flatMap fun _ _ => rfl
  have value : listLabels (if Image.hasValue p then [.localGet scratchLocal] else []) = [] := by
    split <;> rfl
  have last : listLabels i.entry.toFunc.body = loopLabels n n' := by
    rw [entry]
    simp only [Program.entry, Routine.toFunc, Wasm.Instr.listLabels_append, globals, labels, value,
      List.append_nil, List.nil_append]
  refine ⟨n', ?_⟩
  rw [Image.toModule, List.flatMap_append, List.flatMap_map, List.flatMap_singleton, last]
  rw [← loopLabels_append le' le, ← labels']
  rfl

/-! ## §3 What a module offers to its code -/

theorem Image.signatures_toModule (i : Image) : i.toModule.signatures =
    (Printer.all.map fun pr => (importSymbol pr.name, 1, 1)) ++
      i.toModule.funcs.map fun f => (f.name, f.params.length, f.results) := rfl

/-- No two functions of a module, imported or not, have one symbol. -/
theorem Image.Lowers.signatures_nodup (h : i.Lowers p) (resolved : p.IsResolved)
    (ids : p.HasWords) : (i.toModule.signatures.map (·.1)).Nodup := by
  have names : (i.toModule.funcs.map fun f => (f.name, f.params.length, f.results)).map (·.1) =
      i.toModule.funcs.map (·.name) := by
    rw [List.map_map]
    rfl
  rw [Image.signatures_toModule, List.map_append, names, List.nodup_append]
  refine ⟨by decide, h.names_nodup resolved ids, ?_⟩
  intro x hx y hy
  rw [List.map_map] at hx
  obtain ⟨pr, -, rfl⟩ := List.mem_map.1 hx
  rw [h.names] at hy
  rcases List.mem_append.1 hy with hy | hy
  · obtain ⟨entry, mem, rfl⟩ := List.mem_map.1 hy
    exact (ids.symbol_ne mem (by cases pr <;> decide)).symm
  · rw [List.mem_singleton.1 hy]
    cases pr <;> decide

/-- No global variable is declared twice, and none is the heap pointer. -/
theorem Image.Lowers.globals_nodup (h : i.Lowers p) (resolved : p.IsResolved)
    (ids : p.HasWords) : (i.toModule.globals.map (·.name)).Nodup := by
  have names : i.toModule.globals.map (·.name) =
      heapPointer :: (p.globalVars.map (·.name)).map varSymbol := by
    simp [Image.toModule, h.globals, Image.heapGlobal]
  rw [names, List.nodup_cons]
  refine ⟨?_, resolved.globals.map fun x y same => varSymbol_inj.1 same⟩
  intro mem
  obtain ⟨x, hx, same⟩ := List.mem_map.1 mem
  obtain ⟨v, hv, rfl⟩ := List.mem_map.1 hx
  exact varSymbol_ne (ids.globals v hv) (by decide) same

/-- A module declares what the code of its functions needs. -/
theorem Image.Lowers.covers (h : i.Lowers p) (resolved : p.IsResolved) (ids : p.HasWords)
    {g : Func} {names : List String} (helpers : ∀ x ∈ [scratchLocal, allocLocal], x ∈ g.locals)
    (locals : ∀ x ∈ names, varSymbol x ∈ g.params ++ g.locals) :
    (i.toModule.namesFor g).Covers p names := by
  have signatures := h.signatures_nodup resolved ids
  constructor
  case scratch => exact List.mem_append_right _ (helpers _ (by simp))
  case alloc => exact List.mem_append_right _ (helpers _ (by simp))
  case locals => exact locals
  case heap => exact ⟨Image.heapGlobal, List.mem_cons_self, rfl, rfl⟩
  case globals =>
    intro x hx
    obtain ⟨v, hv, rfl⟩ := List.mem_map.1 hx
    have mem : varSymbol v.name ∈ i.globals := by
      rw [h.globals]
      exact List.mem_map_of_mem (f := fun v : VarDef => varSymbol v.name) hv
    exact ⟨⟨varSymbol v.name, true, 0⟩, List.mem_cons_of_mem _ (List.mem_map_of_mem mem), rfl, rfl⟩
  case memory => rfl
  case printers =>
    intro pr
    refine lookup_of_nodup signatures ?_
    rw [Image.signatures_toModule]
    refine List.mem_append_left _ (List.mem_map.2 ⟨pr, ?_, rfl⟩)
    cases pr <;> decide
  case routines =>
    intro entry mem
    obtain ⟨_, _, _, routines, -, -⟩ := h.code
    obtain ⟨code, k, k', hr, -⟩ := routines.exists_routine mem
    refine lookup_of_nodup signatures ?_
    rw [Image.signatures_toModule]
    refine List.mem_append_right _ (List.mem_map.2
      ⟨(entry.2.routine entry.1 code).toFunc, List.mem_append_left _ (List.mem_map_of_mem hr), ?_⟩)
    simp [FunDef.routine, Routine.toFunc]

/-! ## §4 Valid functions -/

/-- The locals of a routine are the helpers and the variables of the function. -/
theorem FunDef.perm_locals (f : FunDef) (symbol : String) (code : List Instr) :
    ((f.routine symbol code).toFunc.params ++ (f.routine symbol code).toFunc.locals).Perm
      (scratchLocal :: allocLocal :: f.localNames.map varSymbol) := by
  simp only [FunDef.routine, Routine.toFunc, FunDef.localNames, List.map_append, List.map_map]
  exact List.perm_middle.trans (List.perm_middle.cons _)

/-- No local variable of a function is declared twice, and none is a helper. -/
theorem FunDef.locals_nodup {f : FunDef} (distinct : f.localNames.Nodup)
    (ids : ∀ x ∈ f.localNames, isSourceWord x = true) (symbol : String) (code : List Instr) :
    ((f.routine symbol code).toFunc.params ++ (f.routine symbol code).toFunc.locals).Nodup := by
  have symbols : (f.localNames.map varSymbol).Nodup :=
    distinct.map fun x y same => varSymbol_inj.1 same
  have other : ∀ helper ∈ [scratchLocal, allocLocal], helper ∉ f.localNames.map varSymbol := by
    intro helper hhelper mem
    obtain ⟨x, hx, same⟩ := List.mem_map.1 mem
    refine varSymbol_ne (ids x hx) ?_ same
    revert hhelper
    simp only [List.mem_cons, List.not_mem_nil, or_false]
    rintro (rfl | rfl) <;> decide
  rw [(f.perm_locals symbol code).nodup_iff, List.nodup_cons, List.nodup_cons]
  exact ⟨by simpa using ⟨(by decide : scratchLocal ≠ allocLocal), by simpa using other _ (by simp)⟩,
    other _ (by simp), symbols⟩

/-- A body leaves exactly the results of its function. -/
def Wasm.Module.BodyFits (m : Module) (g : Func) : Prop :=
  ((Instr.heights? (m.namesFor g) [] ⟨0, false⟩ g.body).map (·.isExactly g.results)).getD false = true

/-- The body of a routine fits, also behind a return. -/
theorem Image.Lowers.bodyFits_routine (h : i.Lowers p) (resolved : p.IsResolved)
    (ids : p.HasWords) (symbol : String) {f : FunDef} {code : List Instr} {k k' : Nat}
    (body : Stmt.Lowers p f.localNames true k f.body code k') :
    i.toModule.BodyFits (f.routine symbol code).toFunc := by
  have localNames : ∀ x ∈ f.localNames, varSymbol x ∈
      (f.routine symbol code).toFunc.params ++ (f.routine symbol code).toFunc.locals := by
    intro x hx
    rw [(f.perm_locals symbol code).mem_iff]
    exact .tail _ (.tail _ (List.mem_map_of_mem hx))
  have covers := h.covers resolved ids (g := (f.routine symbol code).toFunc)
    (by simp [Routine.toFunc]) localNames
  have start : Wasm.Moves (i.toModule.namesFor (f.routine symbol code).toFunc) 0 0 f.initCode :=
    .each fun v hv => (Wasm.Moves.const _).append (.localSet (covers.locals _
      (List.mem_append_right _ (List.mem_map_of_mem hv))))
  have code := (start.balances []).append (body.balances resolved covers (fun _ => rfl) [])
  exact code.isExactly (.const 0)

/-- The body of the entry fits. -/
theorem Image.Lowers.bodyFits_entry (h : i.Lowers p) (resolved : p.IsResolved)
    (ids : p.HasWords) {code : List Instr} {k k' : Nat}
    (stmts : Stmt.Lowers p [] false k p.stmts code k') :
    i.toModule.BodyFits (p.entry code).toFunc := by
  have covers : (i.toModule.namesFor (p.entry code).toFunc).Covers p [] :=
    h.covers resolved ids (by simp [Routine.toFunc]) (by simp)
  have start : Wasm.Moves (i.toModule.namesFor (p.entry code).toFunc) 0 0 p.initCode :=
    .each fun v hv => (Wasm.Moves.const _).append (.globalSet (covers.globals _
      (List.mem_map_of_mem hv)))
  have body := (start.balances []).append (stmts.balances resolved covers (by simp) [])
  rw [Module.BodyFits]
  cases value : Image.hasValue p with
  | true =>
    have result := body.isExactly (.localGet covers.scratch)
    simpa [Program.entry, Routine.toFunc, value] using result
  | false =>
    have result := body.isExactly .nil
    simpa [Program.entry, Routine.toFunc, value] using result

theorem Image.Lowers.bodyFits (h : i.Lowers p) (resolved : p.IsResolved) (ids : p.HasWords)
    {g : Func} (hg : g ∈ i.toModule.funcs) : i.toModule.BodyFits g := by
  rcases h.mem_funcs hg with ⟨symbol, f, code, k, k', mem, rfl, body⟩ | ⟨code, k, k', rfl, stmts⟩
  · exact h.bodyFits_routine resolved ids symbol body
  · exact h.bodyFits_entry resolved ids stmts

theorem Image.Lowers.locals_nodup (h : i.Lowers p) (resolved : p.IsResolved)
    (ids : p.HasWords) {g : Func} (hg : g ∈ i.toModule.funcs) :
    (g.params ++ g.locals).Nodup := by
  rcases h.mem_funcs hg with ⟨symbol, f, code, k, k', mem, rfl, body⟩ | ⟨code, k, k', rfl, stmts⟩
  · exact FunDef.locals_nodup (resolved.locals _ mem) (ids.locals mem) symbol code
  · exact (by decide : [scratchLocal, allocLocal].Nodup)

/-- Every name in a function of the module is declared exactly once. -/
theorem Image.Lowers.declaresOnce (h : i.Lowers p) (resolved : p.IsResolved)
    (ids : p.HasWords) {g : Func} (hg : g ∈ i.toModule.funcs) :
    i.toModule.DeclaresOnce g := by
  have fits := h.bodyFits resolved ids hg
  rw [Module.BodyFits] at fits
  cases heights : Instr.heights? (i.toModule.namesFor g) [] ⟨0, false⟩ g.body with
  | none => simp [heights] at fits
  | some last =>
    rintro ⟨kind, x⟩ hx
    have declared := Wasm.Instr.declares_listSymbols g.body heights _ hx
    cases kind with
    | localVar => exact List.count_eq_one_of_mem (h.locals_nodup resolved ids hg) declared
    | globalVar => exact List.count_eq_one_of_mem (h.globals_nodup resolved ids) declared
    | function => exact List.count_eq_one_of_mem (h.signatures_nodup resolved ids) declared
    | label =>
      obtain ⟨n, labels⟩ := h.listLabels_eq
      have nodup := loopLabels_nodup 0 n
      rw [← labels] at nodup
      exact List.count_eq_one_of_mem nodup (List.mem_flatMap.2 ⟨g, hg, declared⟩)

/-! ## §5 Valid modules -/

/-- No function or method of a program has more than `n` parameters. -/
def Program.ParamsAtMost (p : Program) (n : Nat) : Prop :=
  (∀ f ∈ p.functions, f.params.length ≤ n) ∧
    ∀ c ∈ p.classes, ∀ m ∈ c.methods, m.params.length ≤ n

/-- Checking changes no parameters. -/
theorem Program.ParamsAtMost.congr {p q : Program} {n : Nat} (h : p.ParamsAtMost n)
    (same : q.bare = p.bare) : q.ParamsAtMost n := by
  have params : ∀ {f f₀ : FunDef}, f₀.bare = f.bare → f.params = f₀.params :=
    fun eq => (congrArg FunDef.params eq).symm
  constructor
  · intro f hf
    obtain ⟨f₀, hf₀, eq⟩ := exists_function_of_bare same hf
    rw [params eq]
    exact h.1 f₀ hf₀
  · intro c hc m hm
    obtain ⟨c₀, hc₀, m₀, hm₀, eq⟩ := exists_method_of_bare same hc hm
    rw [params eq]
    exact h.2 c₀ hc₀ m₀ hm₀

theorem Program.ParamsAtMost.functionsOf {n : Nat} (h : p.ParamsAtMost n) (one : 1 ≤ n)
    {symbol : String} {f : FunDef} (mem : (symbol, f) ∈ Image.functionsOf p) :
    f.params.length ≤ n := by
  rcases Image.mem_functionsOf mem with ⟨c, -, rfl⟩ | ⟨c, hc, hf, -⟩ | ⟨hf, -⟩
  · exact one
  · exact h.2 c hc f hf
  · exact h.1 f hf

theorem Image.Lowers.params_le (h : i.Lowers p) {n : Nat} (small : p.ParamsAtMost n) (one : 1 ≤ n)
    {g : Func} (hg : g ∈ i.toModule.funcs) : g.params.length ≤ n := by
  rcases h.mem_funcs hg with ⟨symbol, f, code, k, k', mem, rfl, -⟩ | ⟨code, k, k', rfl, -⟩
  · simpa [FunDef.routine, Routine.toFunc] using small.functionsOf one mem
  · exact Nat.zero_le n

/-- The module of a program whose functions have few enough parameters is valid. -/
theorem Image.Lowers.isValid (h : i.Lowers p) (resolved : p.IsResolved) (ids : p.HasWords)
    (small : p.ParamsAtMost Wasm.maxParams) : i.toModule.isValid = true := by
  have params := fun g (hg : g ∈ i.toModule.funcs) => h.params_le small (by decide) hg
  have exports : i.toModule.funcs.flatMap (·.exports) = [Wasm.Host.entryName] := by
    obtain ⟨n, code, n', routines, -, entry⟩ := h.code
    have none : (i.routines.map Routine.toFunc).flatMap (·.exports) = [] := by
      rw [List.flatMap_map, List.flatMap_eq_nil_iff]
      intro r hr
      simp [Routine.toFunc, routines.exportName_eq r hr]
    rw [Image.toModule, List.flatMap_append, none, entry]
    rfl
  simp only [Module.isValid, Bool.and_eq_true, List.all_eq_true]
  refine ⟨⟨⟨⟨⟨⟨?_, ?_⟩, ?_⟩, by rfl⟩, ?_⟩, ?_⟩, ?_⟩
  · exact Wasm.areDistinct_of_nodup (h.signatures_nodup resolved ids)
  · exact Wasm.areDistinct_of_nodup (h.globals_nodup resolved ids)
  · rw [exports]
    decide
  · intro memory hm
    rw [show i.toModule.memories = [(1, none)] from rfl, List.mem_singleton] at hm
    subst hm
    decide
  · intro signature hs
    rw [Image.signatures_toModule] at hs
    rcases List.mem_append.1 hs with hs | hs
    · obtain ⟨pr, -, rfl⟩ := List.mem_map.1 hs
      rfl
    · obtain ⟨g, hg, rfl⟩ := List.mem_map.1 hs
      exact decide_eq_true (params g hg)
  · intro g hg
    rw [Module.isValidFunc, Bool.and_eq_true, Bool.and_eq_true, decide_eq_true_eq]
    exact ⟨⟨params g hg, Wasm.areDistinct_of_nodup (h.locals_nodup resolved ids hg)⟩,
      h.bodyFits resolved ids hg⟩

/-! ## §6 Spelling -/

theorem Wasm.isWordChar_of_isNamePart {c : Char} (h : isNamePart c = true) :
    Part.isWordChar c = true := by
  rw [isNamePart, Bool.or_eq_true, beq_iff_eq] at h
  rcases h with h | rfl
  · simp [Part.isWordChar, h]
  · decide

/-- A `$` with characters of a word after it, at least one, is a symbol. -/
theorem Wasm.isSymbol_of_toList {s : String} {cs : List Char} (h : s.toList = '$' :: cs)
    (nonempty : cs ≠ []) (chars : ∀ d ∈ cs, Part.isWordChar d = true) : isSymbol s = true := by
  obtain ⟨c, cs, rfl⟩ := List.exists_cons_of_ne_nil nonempty
  have name : isName s = true := by
    rw [isName, h]
    rfl
  have dollar : Part.isWordChar '$' = true := by decide
  rw [isSymbol, name, h, List.all_cons, dollar, Bool.true_and, Bool.true_and, List.all_eq_true]
  exact chars

/-- A word of a source text is one of a module text, and is not empty. -/
theorem isWordChar_of_isSourceWord {x : String} (h : isSourceWord x = true) :
    x.toList ≠ [] ∧ ∀ d ∈ x.toList, Wasm.Part.isWordChar d = true := by
  refine ⟨?_, fun d hd => Wasm.isWordChar_of_isNamePart (isNamePart_of_mem_sourceWord h hd)⟩
  obtain ⟨c, cs, hx, -⟩ := isSourceWord_iff.1 h
  simp [hx]

theorem isSymbol_varSymbol {x : String} (h : isSourceWord x = true) :
    Wasm.isSymbol (varSymbol x) = true := by
  obtain ⟨nonempty, chars⟩ := isWordChar_of_isSourceWord h
  exact Wasm.isSymbol_of_toList (toList_varSymbol x) nonempty chars

theorem isSymbol_methodSymbol {c m : String} (hc : isSourceWord c = true)
    (hm : isSourceWord m = true) : Wasm.isSymbol (methodSymbol c m) = true := by
  refine Wasm.isSymbol_of_toList (toList_methodSymbol c m) (by simp) fun d hd => ?_
  rcases List.mem_append.1 hd with hd | hd
  · exact (isWordChar_of_isSourceWord hc).2 d hd
  rcases List.mem_cons.1 hd with rfl | hd
  · decide
  · exact (isWordChar_of_isSourceWord hm).2 d hd

theorem isSymbol_loopLabel {n n' : Nat} {l : String} (h : l ∈ loopLabels n n') :
    Wasm.isSymbol l = true := by
  obtain ⟨k, -, hl⟩ := List.mem_flatMap.1 h
  have digits : ∀ d ∈ Nat.toDigits 10 k, Wasm.Part.isWordChar d = true :=
    fun d => Wasm.isWordChar_of_mem_toDigits
  have start : ∀ d ∈ "while$".toList, Wasm.Part.isWordChar d = true :=
    List.all_eq_true.1 (by decide)
  have finish : ∀ d ∈ "$loop".toList, Wasm.Part.isWordChar d = true :=
    List.all_eq_true.1 (by decide)
  have split : "$while$".toList = '$' :: "while$".toList := by decide
  simp only [List.mem_cons, List.not_mem_nil, or_false] at hl
  rcases hl with rfl | rfl
  · have text := Surroundings.toList_leaveLabel k
    rw [split, List.cons_append] at text
    refine Wasm.isSymbol_of_toList text (by simp) fun d hd => ?_
    exact (List.mem_append.1 hd).elim (start d) (digits d)
  · have text := Surroundings.toList_againLabel k
    rw [split, List.cons_append] at text
    refine Wasm.isSymbol_of_toList text (by simp) fun d hd => ?_
    rcases List.mem_append.1 hd with hd | hd
    · exact start d hd
    · exact (List.mem_append.1 hd).elim (digits d) (finish d)

/-- A method under its symbol is one of the class, or the one that is added. -/
theorem Image.eq_or_mem_of_mem_methodsOf {c : ClassDef} {entry : String × FunDef}
    (h : entry ∈ methodsOf c) : entry.2 ∈ c.methods ∨ entry.2.name = initMethod := by
  rw [methodsOf] at h
  split at h
  · obtain ⟨m, hm, rfl⟩ := List.mem_map.1 h
    exact .inl hm
  rcases List.mem_append.1 h with h | h
  · obtain ⟨m, hm, rfl⟩ := List.mem_map.1 h
    exact .inl hm
  · rw [List.mem_singleton.1 h]
    exact .inr rfl

/-- The symbols of functions and methods are symbols. -/
theorem Program.HasWords.isSymbol (ids : p.HasWords) {entry : String × FunDef}
    (mem : entry ∈ Image.functionsOf p) : Wasm.isSymbol entry.1 = true := by
  rw [Image.functionsOf_eq] at mem
  rcases List.mem_append.1 mem with mem | mem
  · obtain ⟨c, hc, mem⟩ := List.mem_flatMap.1 mem
    rw [Image.symbol_of_mem_methodsOf mem]
    refine isSymbol_methodSymbol (ids.allClasses hc) ?_
    rcases Image.eq_or_mem_of_mem_methodsOf mem with hm | name
    · rcases List.mem_cons.1 hc with rfl | hc
      · cases hm
      · exact (ids.methods c hc _ hm).1
    · rw [name]
      decide
  · obtain ⟨f, hf, rfl⟩ := List.mem_map.1 mem
    exact isSymbol_varSymbol (ids.functions f hf).1

theorem Image.Lowers.isSymbol_name (h : i.Lowers p) (ids : p.HasWords) {g : Func}
    (hg : g ∈ i.toModule.funcs) : Wasm.isSymbol g.name = true := by
  have mem := List.mem_map_of_mem (f := Func.name) hg
  rw [h.names] at mem
  rcases List.mem_append.1 mem with mem | mem
  · obtain ⟨entry, hentry, same⟩ := List.mem_map.1 mem
    rw [← same]
    exact ids.isSymbol hentry
  · rw [List.mem_singleton.1 mem]
    decide

/-- All that is declared in a module is a symbol. -/
theorem Image.Lowers.isSymbol_declarations (h : i.Lowers p) (ids : p.HasWords) {g : Func}
    (hg : g ∈ i.toModule.funcs) (kind : NameKind) :
    ∀ x ∈ i.toModule.declarations g kind, Wasm.isSymbol x = true := by
  cases kind with
  | localVar =>
    have helpers : ∀ x ∈ [scratchLocal, allocLocal], Wasm.isSymbol x = true := by decide
    rcases h.mem_funcs hg with ⟨symbol, f, code, k, k', mem, rfl, -⟩ | ⟨code, k, k', rfl, -⟩
    · intro x hx
      rw [Module.declarations, (f.perm_locals symbol code).mem_iff] at hx
      rcases List.mem_append.1 (show x ∈ [scratchLocal, allocLocal] ++ _ from hx) with hx | hx
      · exact helpers x hx
      · obtain ⟨y, hy, rfl⟩ := List.mem_map.1 hx
        exact isSymbol_varSymbol (ids.locals mem y hy)
    · exact helpers
  | globalVar =>
    intro x hx
    obtain ⟨global, hglobal, rfl⟩ := List.mem_map.1 hx
    rcases List.mem_cons.1 hglobal with rfl | hglobal
    · decide
    · rw [h.globals, List.map_map] at hglobal
      obtain ⟨v, hv, rfl⟩ := List.mem_map.1 hglobal
      exact isSymbol_varSymbol (ids.globals v hv)
  | function =>
    intro x hx
    obtain ⟨signature, hs, rfl⟩ := List.mem_map.1 hx
    rw [Image.signatures_toModule] at hs
    rcases List.mem_append.1 hs with hs | hs
    · obtain ⟨pr, -, rfl⟩ := List.mem_map.1 hs
      cases pr <;> decide
    · obtain ⟨g', hg', rfl⟩ := List.mem_map.1 hs
      exact h.isSymbol_name ids hg'
  | label =>
    intro x hx
    obtain ⟨n, labels⟩ := h.listLabels_eq
    rw [Module.declarations, labels] at hx
    exact isSymbol_loopLabel hx

theorem Image.imports_isSpelled : ∀ imported ∈ imports, imported.IsSpelled := by
  intro imported mem
  rcases List.mem_cons.1 mem with rfl | mem
  · exact ⟨List.all_eq_true.1 (by decide), List.all_eq_true.1 (by decide), fun n hn => by cases hn⟩
  · obtain ⟨pr, -, rfl⟩ := List.mem_map.1 mem
    cases pr <;> exact ⟨List.all_eq_true.1 (by decide), List.all_eq_true.1 (by decide),
      (by decide : Wasm.isSymbol _ = true)⟩

/-- All names in a module are names, and what is quoted can be quoted. -/
theorem Image.Lowers.isSpelled (h : i.Lowers p) (resolved : p.IsResolved) (ids : p.HasWords) :
    i.toModule.IsSpelled := by
  constructor
  case imports => exact Image.imports_isSpelled
  case globals =>
    intro global mem
    have entry : i.entry.toFunc ∈ i.toModule.funcs := List.mem_append_right _ (by simp)
    exact h.isSymbol_declarations ids entry .globalVar _ (List.mem_map_of_mem mem)
  case funcs =>
    intro g hg
    constructor
    case name => exact h.isSymbol_name ids hg
    case exports =>
      rcases h.mem_funcs hg with ⟨symbol, f, code, k, k', mem, rfl, -⟩ | ⟨code, k, k', rfl, -⟩
      · exact fun e he => by cases he
      · intro e he
        cases List.mem_singleton.1 he
        exact List.all_eq_true.1 (by decide)
    case params =>
      exact fun x hx => h.isSymbol_declarations ids hg .localVar x (List.mem_append_left _ hx)
    case locals =>
      exact fun x hx => h.isSymbol_declarations ids hg .localVar x (List.mem_append_right _ hx)
    case body =>
      rintro ⟨kind, x⟩ hx
      have once : (i.toModule.declarations g kind).count x = 1 := h.declaresOnce resolved ids hg _ hx
      exact h.isSymbol_declarations ids hg kind x (List.count_pos_iff.1 (by omega))

/-- The text of an image is read as its module. -/
theorem Image.Lowers.read?_text (h : i.Lowers p) (resolved : p.IsResolved) (ids : p.HasWords) :
    Module.read? i.text = some i.toModule :=
  Wasm.Module.read?_text (h.isSpelled resolved ids)

/-- What the text of a program gives is what its module gives, if the host takes it. -/
theorem Image.Lowers.run_text (h : i.Lowers p) (resolved : p.IsResolved) (ids : p.HasWords)
    (small : p.ParamsAtMost Wasm.maxParams) {limits : Wasm.Limits} (positive : 1 ≤ limits.pages)
    (bound : limits.pages ≤ Wasm.Host.maxPages) :
    Wasm.run i.text limits = i.toModule.run limits := by
  rw [Wasm.run, if_neg (by omega), h.read?_text resolved ids]
  simp [h.isValid resolved ids small]

end

end Serpent
