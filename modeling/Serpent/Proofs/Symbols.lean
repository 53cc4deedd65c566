/-
Serpent.Proofs.Symbols — different things have different symbols.

The names in a source text are words, and a word holds no `$`. So the symbols made of them never
meet the symbols that code generation uses for itself, and the symbol of a method tells its class
and its name.

  §1 Symbols made of words
  §2 Programs whose names are words
  §3 The symbols of routines
-/
import Serpent.Proofs.Canonical
import Serpent.Proofs.Resolution

namespace Serpent

/-! ## §1 Symbols made of words -/

/-- Whether a text is a word. A reserved word is one too, though it is no identifier. -/
def isSourceWord (x : String) : Bool :=
  match x.toList with
  | [] => false
  | c :: cs => isNameStart c && cs.all isNamePart

/-- The characters of a word. -/
theorem isSourceWord_iff {x : String} : isSourceWord x = true ↔
    ∃ c cs, x.toList = c :: cs ∧ isNameStart c = true ∧ ∀ d ∈ cs, isNamePart d = true := by
  unfold isSourceWord
  cases x.toList with
  | nil => simp
  | cons c cs => simp

theorem isSourceWord_of_isIdentifier {x : String} (h : isIdentifier x = true) :
    isSourceWord x = true := by
  obtain ⟨c, cs, hx, start, parts, -⟩ := isIdentifier_iff.1 h
  exact isSourceWord_iff.2 ⟨c, cs, hx, start, parts⟩

theorem isNamePart_of_mem_sourceWord {x : String} (h : isSourceWord x = true) {c : Char}
    (hc : c ∈ x.toList) : isNamePart c = true := by
  obtain ⟨d, ds, hx, hd, hds⟩ := isSourceWord_iff.1 h
  rw [hx, List.mem_cons] at hc
  rcases hc with rfl | hc
  · exact isNamePart_of_isNameStart hd
  · exact hds c hc

theorem dollar_notMem {x : String} (h : isSourceWord x = true) : '$' ∉ x.toList := by
  intro mem
  have := isNamePart_of_mem_sourceWord h mem
  revert this
  decide

theorem toList_varSymbol (x : String) : (varSymbol x).toList = '$' :: x.toList := by
  simp [varSymbol]

theorem toList_methodSymbol (c m : String) :
    (methodSymbol c m).toList = '$' :: (c.toList ++ '$' :: m.toList) := by
  simp [methodSymbol]

theorem varSymbol_inj {x y : String} : varSymbol x = varSymbol y ↔ x = y := by
  rw [← String.toList_inj, toList_varSymbol, toList_varSymbol, List.cons_inj_right,
    String.toList_inj]

/-- The symbol of a variable or function is none that holds a second `$`. -/
theorem varSymbol_ne {x symbol : String} (h : isSourceWord x = true)
    (second : '$' ∈ symbol.toList.tail) : varSymbol x ≠ symbol := by
  rintro rfl
  rw [toList_varSymbol, List.tail_cons] at second
  exact dollar_notMem h second

/-- The symbol of a method is none that starts with two `$`. -/
theorem methodSymbol_ne {c m symbol : String} (h : isSourceWord c = true)
    (second : symbol.toList.tail.head? = some '$') : methodSymbol c m ≠ symbol := by
  rintro rfl
  obtain ⟨d, ds, hc, -⟩ := isSourceWord_iff.1 h
  have no := dollar_notMem h
  rw [hc] at no
  rw [toList_methodSymbol, List.tail_cons, hc, List.cons_append, List.head?_cons] at second
  cases second
  exact no List.mem_cons_self

/-- The symbol of a method tells its class and its name. -/
theorem methodSymbol_inj {c c' m m' : String} (h : isSourceWord c = true)
    (h' : isSourceWord c' = true) (same : methodSymbol c m = methodSymbol c' m') :
    c = c' ∧ m = m' := by
  rw [← String.toList_inj, toList_methodSymbol, toList_methodSymbol, List.cons_inj_right] at same
  have stop : ∀ {x : String}, isSourceWord x = true → ∀ rest,
      (x.toList ++ '$' :: rest).takeWhile (· != '$') = x.toList := by
    intro x hx rest
    rw [List.takeWhile_append_of_pos]
    · simp
    · intro d hd
      have : d ≠ '$' := fun eq => dollar_notMem hx (eq ▸ hd)
      simpa using this
  have classes : c.toList = c'.toList := by
    rw [← stop h m.toList, ← stop h' m'.toList, same]
  rw [classes, List.append_cancel_left_eq, List.cons_inj_right] at same
  exact ⟨String.toList_inj.1 classes, String.toList_inj.1 same⟩

/-! ## §2 Programs whose names are words -/

/-- The name of a function and its local names are words. -/
def FunDef.HasWords (f : FunDef) : Prop :=
  isSourceWord f.name = true ∧ ∀ x ∈ f.localNames, isSourceWord x = true

/-- All names that become symbols are words. -/
structure Program.HasWords (p : Program) : Prop where
  globals : ∀ v ∈ p.globalVars, isSourceWord v.name = true
  functions : ∀ f ∈ p.functions, f.HasWords
  classes : ∀ c ∈ p.classes, isSourceWord c.name = true
  methods : ∀ c ∈ p.classes, ∀ m ∈ c.methods, m.HasWords

theorem FunDef.hasWords_of_isCanonical {f : FunDef} (h : f.isCanonical = true) :
    f.HasWords := by
  simp only [isCanonical, Bool.and_eq_true, List.all_eq_true] at h
  obtain ⟨⟨⟨⟨⟨name, params⟩, -⟩, locals⟩, -⟩, -⟩ := h
  refine ⟨isSourceWord_of_isIdentifier name, fun x hx => isSourceWord_of_isIdentifier ?_⟩
  rcases List.mem_append.1 hx with hx | hx
  · obtain ⟨a, ha, rfl⟩ := List.mem_map.1 hx
    have := params a ha
    simp only [Param.isCanonical, Bool.and_eq_true] at this
    exact this.1
  · obtain ⟨v, hv, rfl⟩ := List.mem_map.1 hx
    have := locals v hv
    simp only [VarDef.isCanonical, Bool.and_eq_true] at this
    exact this.1.1

/-- The names of a program that can be written in a source text are words. -/
theorem Program.hasWords_of_isCanonical {p : Program} (h : p.isCanonical = true) :
    p.HasWords := by
  simp only [isCanonical, Bool.and_eq_true, List.all_eq_true] at h
  have defs := h.1
  have classes : ∀ c ∈ p.classes, isSourceWord c.name = true ∧ ∀ m ∈ c.methods,
      m.isCanonical = true := by
    intro c hc
    have := defs _ (mem_classes.1 hc)
    simp only [Def.isCanonical, ClassDef.isCanonical, Bool.and_eq_true, List.all_eq_true] at this
    exact ⟨isSourceWord_of_isIdentifier this.1.1.1, this.2⟩
  constructor
  case globals =>
    intro v hv
    obtain ⟨d, hd, eq⟩ := List.mem_filterMap.1 hv
    cases d <;> cases eq
    have := defs _ hd
    simp only [Def.isCanonical, VarDef.isCanonical, Bool.and_eq_true] at this
    exact isSourceWord_of_isIdentifier this.1.1
  case functions =>
    exact fun f hf => FunDef.hasWords_of_isCanonical (defs _ (mem_functions.1 hf))
  case classes => exact fun c hc => (classes c hc).1
  case methods => exact fun c hc m hm => FunDef.hasWords_of_isCanonical ((classes c hc).2 m hm)

theorem FunDef.HasWords.congr {f g : FunDef} (h : f.HasWords) (same : g.bare = f.bare) :
    g.HasWords := by
  obtain ⟨name, params, result, locals, body⟩ := f
  obtain ⟨name', params', result', locals', body'⟩ := g
  cases same
  exact h

/-- Programs that differ in their code only have the same functions but for their code. -/
theorem Program.exists_function_of_bare {p q : Program} (same : q.bare = p.bare) {f : FunDef}
    (hf : f ∈ q.functions) : ∃ f₀ ∈ p.functions, f₀.bare = f.bare := by
  have functions : q.functions.map FunDef.bare = p.functions.map FunDef.bare := by
    rw [← functions_bare, ← functions_bare, same]
  have mem := List.mem_map_of_mem (f := FunDef.bare) hf
  rw [functions] at mem
  exact List.mem_map.1 mem

theorem Program.exists_class_of_bare {p q : Program} (same : q.bare = p.bare) {c : ClassDef}
    (hc : c ∈ q.classes) : ∃ c₀ ∈ p.classes, c₀.bare = c.bare := by
  have classes : q.classes.map ClassDef.bare = p.classes.map ClassDef.bare := by
    rw [← classes_bare, ← classes_bare, same]
  have mem := List.mem_map_of_mem (f := ClassDef.bare) hc
  rw [classes] at mem
  exact List.mem_map.1 mem

theorem Program.exists_method_of_bare {p q : Program} (same : q.bare = p.bare) {c : ClassDef}
    (hc : c ∈ q.classes) {m : FunDef} (hm : m ∈ c.methods) :
    ∃ c₀ ∈ p.classes, ∃ m₀ ∈ c₀.methods, m₀.bare = m.bare := by
  obtain ⟨c₀, hc₀, eq⟩ := exists_class_of_bare same hc
  have methods : c₀.methods.map FunDef.bare = c.methods.map FunDef.bare :=
    congrArg ClassDef.methods eq
  have mem := List.mem_map_of_mem (f := FunDef.bare) hm
  rw [← methods] at mem
  exact ⟨c₀, hc₀, List.mem_map.1 mem⟩

/-- Bodies do not matter to whether the names that are defined are words. -/
theorem Program.HasWords.congr {p q : Program} (h : p.HasWords)
    (same : q.bare = p.bare) : q.HasWords := by
  constructor
  case globals =>
    rw [← globalVars_bare, same, globalVars_bare]
    exact h.globals
  case functions =>
    intro f hf
    obtain ⟨f₀, hf₀, eq⟩ := exists_function_of_bare same hf
    exact (h.functions f₀ hf₀).congr eq.symm
  case classes =>
    intro c hc
    obtain ⟨c₀, hc₀, eq⟩ := exists_class_of_bare same hc
    have name : c₀.bare.name = c.bare.name := congrArg ClassDef.name eq
    change isSourceWord c.bare.name = true
    rw [← name]
    exact h.classes c₀ hc₀
  case methods =>
    intro c hc m hm
    obtain ⟨c₀, hc₀, m₀, hm₀, eq⟩ := exists_method_of_bare same hc hm
    exact (h.methods c₀ hc₀ m₀ hm₀).congr eq.symm

/-- The local names of everything that becomes a routine are words. -/
theorem Program.HasWords.locals {p : Program} (h : p.HasWords) {symbol : String}
    {f : FunDef} (mem : (symbol, f) ∈ Image.functionsOf p) :
    ∀ x ∈ f.localNames, isSourceWord x = true := by
  rcases Image.mem_functionsOf mem with ⟨c, -, rfl⟩ | ⟨c, hc, hf, -⟩ | ⟨hf, -⟩
  · intro x hx
    cases List.mem_singleton.1 hx
    exact (by decide : isSourceWord "self" = true)
  · exact (h.methods c hc f hf).2
  · exact (h.functions f hf).2

/-! ## §3 The symbols of routines -/

theorem Image.functionsOf_eq (p : Program) : functionsOf p =
    p.allClasses.flatMap methodsOf ++ p.functions.map fun f => (functionSymbol f.name, f) := by
  rw [Program.allClasses, List.flatMap_cons]
  rfl

theorem Program.HasWords.allClasses {p : Program} (h : p.HasWords) {c : ClassDef}
    (hc : c ∈ p.allClasses) : isSourceWord c.name = true := by
  rcases List.mem_cons.1 hc with rfl | hc
  · exact (by decide : isSourceWord objectClass = true)
  · exact h.classes c hc

/-- The symbols of the methods of a class are made of its name. -/
theorem Image.symbol_of_mem_methodsOf {c : ClassDef} {entry : String × FunDef}
    (h : entry ∈ methodsOf c) : entry.1 = methodSymbol c.name entry.2.name := by
  rw [methodsOf] at h
  split at h
  · obtain ⟨m, -, rfl⟩ := List.mem_map.1 h
    rfl
  · rcases List.mem_append.1 h with h | h
    · obtain ⟨m, -, rfl⟩ := List.mem_map.1 h
      rfl
    · cases List.mem_singleton.1 h
      rfl

/-- The names of the methods of a class, with the one that constructs, are different. -/
theorem Image.methodsOf_nodup {c : ClassDef} (h : (c.methods.map (·.name)).Nodup) :
    ((methodsOf c).map (·.2.name)).Nodup := by
  rw [methodsOf]
  split
  · rw [List.map_map]
    exact h
  · rename_i missing
    rw [List.map_append, List.map_map, List.nodup_append]
    refine ⟨h, List.nodup_singleton _, ?_⟩
    intro x hx y hy same
    cases List.mem_singleton.1 hy
    obtain ⟨m, hm, rfl⟩ := List.mem_map.1 hx
    exact missing (List.any_eq_true.2 ⟨m, hm, decide_eq_true same⟩)

theorem Image.symbols_methodsOf (c : ClassDef) :
    (methodsOf c).map (·.1) = (methodsOf c).map fun entry => methodSymbol c.name entry.2.name :=
  List.map_congr_left fun _ => symbol_of_mem_methodsOf

/-- No two routines of a program have one symbol. -/
theorem Program.IsResolved.symbols_nodup {p : Program} (h : p.IsResolved) (ids : p.HasWords) :
    ((Image.functionsOf p).map (·.1)).Nodup := by
  have methods : ∀ c ∈ p.allClasses, (c.methods.map (·.name)).Nodup := by
    intro c hc
    rcases List.mem_cons.1 hc with rfl | hc
    · exact List.nodup_nil
    · exact h.methods c hc
  rw [Image.functionsOf_eq, List.map_append, List.map_flatMap, List.map_map, List.nodup_append]
  refine ⟨List.nodup_flatMap.2 ⟨fun c hc => ?_, ?_⟩, ?_, ?_⟩
  · rw [Image.symbols_methodsOf, ← Function.comp_def (methodSymbol c.name), ← List.map_map]
    have ident := ids.allClasses hc
    refine (Image.methodsOf_nodup (methods c hc)).map fun m m' same => ?_
    exact (methodSymbol_inj ident ident same).2
  · have distinct := List.pairwise_map.1 h.classes
    refine distinct.imp_of_mem fun {c c'} hc hc' differ => ?_
    intro symbol mem mem'
    obtain ⟨entry, hentry, rfl⟩ := List.mem_map.1 mem
    obtain ⟨entry', hentry', same⟩ := List.mem_map.1 mem'
    rw [Image.symbol_of_mem_methodsOf hentry, Image.symbol_of_mem_methodsOf hentry'] at same
    exact differ (methodSymbol_inj (ids.allClasses hc') (ids.allClasses hc) same).1.symm
  · have names := h.functions.map (f := functionSymbol) fun x y same => varSymbol_inj.1 same
    rw [List.map_map] at names
    exact names
  · intro symbol mem symbol' mem' same
    obtain ⟨c, hc, mem⟩ := List.mem_flatMap.1 mem
    obtain ⟨entry, hentry, rfl⟩ := List.mem_map.1 mem
    obtain ⟨f, hf, rfl⟩ := List.mem_map.1 mem'
    rw [Image.symbol_of_mem_methodsOf hentry] at same
    refine varSymbol_ne (ids.functions f hf).1 ?_ same.symm
    rw [toList_methodSymbol]
    simp

/-- No routine has a symbol that starts with two `$`. -/
theorem Program.HasWords.symbol_ne {p : Program} (ids : p.HasWords)
    {entry : String × FunDef} (mem : entry ∈ Image.functionsOf p) {symbol : String}
    (second : symbol.toList.tail.head? = some '$') : entry.1 ≠ symbol := by
  rw [Image.functionsOf_eq] at mem
  rcases List.mem_append.1 mem with mem | mem
  · obtain ⟨c, hc, mem⟩ := List.mem_flatMap.1 mem
    rw [Image.symbol_of_mem_methodsOf mem]
    exact methodSymbol_ne (ids.allClasses hc) second
  · obtain ⟨f, hf, rfl⟩ := List.mem_map.1 mem
    exact varSymbol_ne (ids.functions f hf).1 (List.mem_of_head? second)

theorem Program.mem_functionsOf_function {p : Program} {f : String} {d : FunDef}
    (h : p.function? f = some d) : (functionSymbol f, d) ∈ Image.functionsOf p := by
  rw [Image.functionsOf_eq, List.mem_append, List.mem_map]
  have name : d.name = f := by simpa using List.find?_some h
  exact .inr ⟨d, List.mem_of_find?_eq_some h, by rw [name]⟩

theorem Image.mem_methodsOf {c : ClassDef} {m : FunDef} (h : m ∈ c.methods) :
    (methodSymbol c.name m.name, m) ∈ methodsOf c := by
  have own := List.mem_map_of_mem (f := fun m => (methodSymbol c.name m.name, m)) h
  rw [methodsOf]
  split
  · exact own
  · exact List.mem_append_left _ own

theorem Program.mem_functionsOf_method {p : Program} {c : ClassDef} {x : String} {m : FunDef}
    (hc : c ∈ p.allClasses) (h : c.method? x = some m) :
    (methodSymbol c.name x, m) ∈ Image.functionsOf p := by
  have name : m.name = x := by simpa using List.find?_some h
  rw [Image.functionsOf_eq, List.mem_append, List.mem_flatMap, ← name]
  exact .inl ⟨c, hc, Image.mem_methodsOf (List.mem_of_find?_eq_some h)⟩

/-- Every class has a routine that constructs its objects. -/
theorem Program.mem_functionsOf_init {p : Program} {c : ClassDef} (hc : c ∈ p.allClasses) :
    (methodSymbol c.name initMethod, c.init) ∈ Image.functionsOf p := by
  cases found : c.method? initMethod with
  | some m =>
    rw [ClassDef.init, found, Option.getD_some]
    exact mem_functionsOf_method hc found
  | none =>
    rw [Image.functionsOf_eq, List.mem_append, List.mem_flatMap]
    refine .inl ⟨c, hc, ?_⟩
    have missing : c.methods.any (·.name = initMethod) = false := by
      rw [← Bool.not_eq_true, List.any_eq_true]
      rintro ⟨m, hm, isInit⟩
      exact List.find?_eq_none.1 found m hm isInit
    rw [Image.methodsOf, missing, ClassDef.init, found, Option.getD_none]
    exact List.mem_append_right _ (List.mem_singleton.2 rfl)

theorem Program.IsResolved.init_params {p : Program} (h : p.IsResolved) {c : ClassDef}
    (hc : c ∈ p.allClasses) : c.init.params.length = 1 := by
  cases found : c.method? initMethod with
  | none => rw [ClassDef.init, found, Option.getD_none]; rfl
  | some m =>
    rw [ClassDef.init, found, Option.getD_some]
    have mem := List.mem_of_find?_eq_some found
    have isInit : m.name = initMethod := by simpa using List.find?_some found
    rcases List.mem_cons.1 hc with rfl | hc
    · cases mem
    · exact h.inits c hc m mem isInit

end Serpent
