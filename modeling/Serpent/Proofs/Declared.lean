/-
Serpent.Proofs.Declared — what the names of a program mean, as checking finds it.

Names are collected from definitions without their bodies, so a program and its checked form give
the same meaning to every name. Collecting them succeeds exactly if the definitions are in order,
and what it finds is `Program.names`.

  §1 Definitions without their bodies
  §2 Names that must be new
  §3 Members of classes
  §4 All classes
  §5 Programs
  §6 What the names of a program mean
-/
import Serpent.Proofs.Fallible
import Serpent.Proofs.Lowering
import Serpent.Proofs.Typing
import Serpent.Typing.Program

namespace Serpent

open Fallible

/-! ## §1 Definitions without their bodies -/

/-- A function without its body. -/
def FunDef.bare (f : FunDef) : FunDef := { f with body := [] }

/-- A class without the bodies of its methods. -/
def ClassDef.bare (c : ClassDef) : ClassDef := { c with methods := c.methods.map FunDef.bare }

/-- A definition without bodies. -/
def Def.bare : Def → Def
  | .var v => .var v
  | .function f => .function f.bare
  | .class_ c => .class_ c.bare

/-- The definitions of a program without bodies. -/
def Program.bare (p : Program) : Program := ⟨p.defs.map Def.bare, []⟩

namespace Program

theorem mem_globalVars {p : Program} {v : VarDef} : v ∈ p.globalVars ↔ .var v ∈ p.defs := by
  rw [globalVars, List.mem_filterMap]
  constructor
  · rintro ⟨d, hd, eq⟩
    cases d <;> cases eq
    exact hd
  · intro h
    exact ⟨_, h, rfl⟩

theorem mem_functions {p : Program} {f : FunDef} : f ∈ p.functions ↔ .function f ∈ p.defs := by
  rw [functions, List.mem_filterMap]
  constructor
  · rintro ⟨d, hd, eq⟩
    cases d <;> cases eq
    exact hd
  · intro h
    exact ⟨_, h, rfl⟩

theorem mem_classes {p : Program} {c : ClassDef} : c ∈ p.classes ↔ .class_ c ∈ p.defs := by
  rw [classes, List.mem_filterMap]
  constructor
  · rintro ⟨d, hd, eq⟩
    cases d <;> cases eq
    exact hd
  · intro h
    exact ⟨_, h, rfl⟩

theorem globalVars_bare (p : Program) : p.bare.globalVars = p.globalVars := by
  rw [globalVars, bare, List.filterMap_map]
  refine List.filterMap_congr fun d _ => ?_
  cases d <;> rfl

theorem functions_bare (p : Program) :
    p.bare.functions = p.functions.map FunDef.bare := by
  rw [functions, bare, List.filterMap_map, functions, List.map_filterMap]
  refine List.filterMap_congr fun d _ => ?_
  cases d <;> rfl

theorem classes_bare (p : Program) : p.bare.classes = p.classes.map ClassDef.bare := by
  rw [classes, bare, List.filterMap_map, classes, List.map_filterMap]
  refine List.filterMap_congr fun d _ => ?_
  cases d <;> rfl

end Program

theorem ClassTable.addMembers_bare (table : ClassTable) (c : ClassDef) :
    table.addMembers c.bare = table.addMembers c := by
  simp only [addMembers, ClassDef.bare, List.foldlM_map]
  rfl

/-- Bodies do not matter to what names mean. -/
theorem Program.context_bare (p : Program) : p.bare.context = p.context := by
  rw [context, globalVars_bare, functions_bare, classes_bare]
  simp only [List.foldlM_map, ClassTable.addMembers_bare]
  rfl

theorem Context.function_eq_ok {Γ : Context} {name : String} {f f' : FunDef} :
    Γ.function name f = .ok f' ↔
      ∃ scope body, f.scope Γ.classes = .ok scope ∧
        Context.block { Γ with frame := some ⟨name, f.result, scope⟩ } f.body = .ok body ∧
        (f.result ≠ .none → Stmt.anyReturns f.body = true) ∧ f' = { f with body } := by
  constructor
  · intro h
    obtain ⟨scope, hscope, h⟩ := bind_eq_ok.1 h
    obtain ⟨body, hbody, h⟩ := bind_eq_ok.1 h
    obtain ⟨returns, h⟩ := guard_eq_ok.1 h
    cases h
    exact ⟨scope, body, hscope, hbody, by simpa using returns, rfl⟩
  · rintro ⟨scope, body, hscope, hbody, returns, rfl⟩
    refine bind_eq_ok.2 ⟨scope, hscope, bind_eq_ok.2 ⟨body, hbody, guard_eq_ok.2 ⟨?_, rfl⟩⟩⟩
    simpa using returns

theorem Context.bare_function {Γ : Context} {name : String} {f f' : FunDef}
    (h : Γ.function name f = .ok f') : f'.bare = f.bare := by
  obtain ⟨_, _, -, -, -, rfl⟩ := function_eq_ok.1 h
  rfl

/-- Checking changes nothing of a definition but bodies. -/
theorem Context.bare_definition {Γ : Context} {d d' : Def} (h : Γ.definition d = .ok d') :
    d'.bare = d.bare := by
  cases d with
  | var v =>
    cases h
    rfl
  | function f =>
    obtain ⟨f', hf, h⟩ := bind_eq_ok.1 h
    cases h
    exact congrArg Def.function (bare_function hf)
  | class_ c =>
    obtain ⟨methods, hmethods, h⟩ := bind_eq_ok.1 h
    cases h
    have same : methods.map FunDef.bare = c.methods.map FunDef.bare :=
      map_eq_of_forall₂ (mapM_eq_ok.1 hmethods) fun _ _ => bare_function
    simp [Def.bare, ClassDef.bare, same]

/-- Checking changes nothing of the definitions of a program but bodies. -/
theorem Program.bare_of_check {p q : Program} (h : p.check = .ok q) : q.bare = p.bare := by
  obtain ⟨Γ, -, h⟩ := bind_eq_ok.1 h
  obtain ⟨defs, hdefs, h⟩ := bind_eq_ok.1 h
  obtain ⟨stmts, -, h⟩ := bind_eq_ok.1 h
  cases h
  have same : defs.map Def.bare = p.defs.map Def.bare :=
    map_eq_of_forall₂ (mapM_eq_ok.1 hdefs) fun _ _ => Context.bare_definition
  rw [bare, bare, same]

/-- A checked program gives the same meaning to its names as the program itself. -/
theorem Program.context_of_check {p q : Program} (h : p.check = .ok q) : q.context = p.context := by
  rw [← context_bare, ← context_bare p, bare_of_check h]

/-! ## §2 Names that must be new -/

theorem Scope.requireFresh_eq_ok {classes : ClassTable} {scope : Scope} {x : String} :
    scope.requireFresh classes x = .ok () ↔ classes.has x = false ∧ scope.lookup x = none := by
  rw [requireFresh]
  by_cases known : classes.has x
  · simp [known]
  by_cases found : (scope.lookup x).isSome
  · simp [known, found, Option.isSome_iff_ne_none.1 found]
  · simp [known, Option.not_isSome_iff_eq_none.1 found]

theorem VarDef.checkInitializer_eq_ok {v : VarDef} :
    v.checkInitializer = .ok () ↔ v.value.ty.Fits v.ty := by
  rw [checkInitializer, Ty.fits_iff]
  split
  · simp [*]
  · simp [*]

theorem Scope.declareParam_eq_ok {classes : ClassTable} {scope scope' : Scope} {a : Param} :
    scope.declareParam classes a = .ok scope' ↔
      scope' = (a.name, .variable a.ty) :: scope ∧ scope.lookup a.name = none ∧
        classes.has a.name = false := by
  constructor
  · intro h
    obtain ⟨⟨⟩, fresh, h⟩ := bind_eq_ok.1 h
    cases h
    obtain ⟨noClass, new⟩ := requireFresh_eq_ok.1 fresh
    exact ⟨rfl, new, noClass⟩
  · rintro ⟨rfl, new, noClass⟩
    exact bind_eq_ok.2 ⟨(), requireFresh_eq_ok.2 ⟨noClass, new⟩, rfl⟩

theorem Scope.declareVariable_eq_ok {classes : ClassTable} {scope scope' : Scope} {v : VarDef} :
    scope.declareVariable classes v = .ok scope' ↔
      scope' = (v.name, .variable v.ty) :: scope ∧ scope.lookup v.name = none ∧
        classes.has v.name = false ∧ v.value.ty.Fits v.ty := by
  constructor
  · intro h
    obtain ⟨⟨⟩, fresh, h⟩ := bind_eq_ok.1 h
    obtain ⟨⟨⟩, value, h⟩ := bind_eq_ok.1 h
    cases h
    obtain ⟨noClass, new⟩ := requireFresh_eq_ok.1 fresh
    exact ⟨rfl, new, noClass, VarDef.checkInitializer_eq_ok.1 value⟩
  · rintro ⟨rfl, new, noClass, value⟩
    exact bind_eq_ok.2 ⟨(), requireFresh_eq_ok.2 ⟨noClass, new⟩,
      bind_eq_ok.2 ⟨(), VarDef.checkInitializer_eq_ok.2 value, rfl⟩⟩

theorem Scope.declareLocal_eq_ok {classes : ClassTable} {scope scope' : Scope} {v : VarDef} :
    scope.declareLocal classes v = .ok scope' ↔
      scope' = (v.name, .variable v.ty) :: scope ∧ scope.lookup v.name = none ∧
        classes.has v.name = false ∧ v.value.ty.Fits v.ty ∧ classes.requireType v.ty = .ok () := by
  constructor
  · intro h
    obtain ⟨⟨⟩, type, h⟩ := bind_eq_ok.1 h
    obtain ⟨rfl, new, noClass, value⟩ := declareVariable_eq_ok.1 h
    exact ⟨rfl, new, noClass, value, type⟩
  · rintro ⟨rfl, new, noClass, value, type⟩
    exact bind_eq_ok.2 ⟨(), type, declareVariable_eq_ok.2 ⟨rfl, new, noClass, value⟩⟩

/-- The signature that a function announces. -/
def FunDef.signature (f : FunDef) : Signature := ⟨f.params.map (·.ty), f.result⟩

/-- The types that a function announces are known. -/
def ClassTable.KnowsTypes (classes : ClassTable) (f : FunDef) : Prop :=
  (∀ a ∈ f.params, classes.requireType a.ty = .ok ()) ∧ classes.requireType f.result = .ok ()

theorem ClassTable.signature_eq_ok {classes : ClassTable} {f : FunDef} {sig : Signature} :
    classes.signature f = .ok sig ↔ sig = f.signature ∧ classes.KnowsTypes f := by
  constructor
  · intro h
    obtain ⟨⟨⟩, params, h⟩ := bind_eq_ok.1 h
    obtain ⟨⟨⟩, result, h⟩ := bind_eq_ok.1 h
    cases h
    exact ⟨rfl, forM_eq_ok.1 params, result⟩
  · rintro ⟨rfl, params, result⟩
    exact bind_eq_ok.2 ⟨(), forM_eq_ok.2 params, bind_eq_ok.2 ⟨(), result, rfl⟩⟩

theorem Scope.declareFunction_eq_ok {classes : ClassTable} {scope scope' : Scope} {f : FunDef} :
    scope.declareFunction classes f = .ok scope' ↔
      scope' = (f.name, .function f.signature) :: scope ∧ scope.lookup f.name = none ∧
        f.name ≠ printFunction ∧ classes.has f.name = false ∧ classes.KnowsTypes f := by
  rw [declareFunction]
  constructor
  · intro h
    obtain ⟨notPrint, h⟩ := guard_eq_ok.1 h
    obtain ⟨⟨⟩, fresh, h⟩ := bind_eq_ok.1 h
    obtain ⟨sig, hsig, h⟩ := bind_eq_ok.1 h
    cases h
    obtain ⟨noClass, new⟩ := requireFresh_eq_ok.1 fresh
    obtain ⟨rfl, types⟩ := ClassTable.signature_eq_ok.1 hsig
    exact ⟨rfl, new, notPrint, noClass, types⟩
  · rintro ⟨rfl, new, notPrint, noClass, types⟩
    exact guard_eq_ok.2 ⟨notPrint, bind_eq_ok.2 ⟨(), requireFresh_eq_ok.2 ⟨noClass, new⟩,
      bind_eq_ok.2 ⟨_, ClassTable.signature_eq_ok.2 ⟨rfl, types⟩, rfl⟩⟩⟩

/-- The local names of a function with their types, the last one first. -/
def FunDef.bindings (f : FunDef) : Scope :=
  (f.locals.map fun v => (v.name, .variable v.ty)).reverse ++
    (f.params.map fun a => (a.name, .variable a.ty)).reverse

theorem FunDef.keys_bindings (f : FunDef) : f.bindings.map (·.1) = f.localNames.reverse := by
  simp [bindings, localNames, Function.comp_def]

theorem FunDef.keys_vars (f : FunDef) : f.vars.map (·.1) = f.localNames := by
  simp [vars, localNames, Function.comp_def]

theorem FunDef.mem_bindings {f : FunDef} {x : String} {b : Binding} :
    (x, b) ∈ f.bindings ↔ ∃ t, (x, t) ∈ f.vars ∧ b = .variable t := by
  simp only [bindings, vars, List.mem_append, List.mem_reverse, List.mem_map, Prod.mk.injEq]
  constructor
  · rintro (⟨v, hv, rfl, rfl⟩ | ⟨a, ha, rfl, rfl⟩)
    · exact ⟨v.ty, .inr ⟨v, hv, rfl, rfl⟩, rfl⟩
    · exact ⟨a.ty, .inl ⟨a, ha, rfl, rfl⟩, rfl⟩
  · rintro ⟨t, ⟨a, ha, rfl, rfl⟩ | ⟨v, hv, rfl, rfl⟩, rfl⟩
    · exact .inr ⟨a, ha, rfl, rfl⟩
    · exact .inl ⟨v, hv, rfl, rfl⟩

theorem FunDef.scope_eq_ok {classes : ClassTable} {f : FunDef} {scope : Scope} :
    f.scope classes = .ok scope ↔
      scope = f.bindings ∧ f.localNames.Nodup ∧ (∀ x ∈ f.localNames, classes.has x = false) ∧
        ∀ v ∈ f.locals, v.value.ty.Fits v.ty ∧ classes.requireType v.ty = .ok () := by
  have params : ∀ {params}, f.params.foldlM (Scope.declareParam classes) [] = .ok params ↔ _ :=
    foldlM_push_eq_ok List.nodup_nil fun _ _ _ => Scope.declareParam_eq_ok
  have locals : ∀ {start scope}, (start.map (·.1)).Nodup →
      (f.locals.foldlM (Scope.declareLocal classes) start = .ok scope ↔ _) :=
    fun start => foldlM_push_eq_ok start fun _ _ _ => Scope.declareLocal_eq_ok
  have distinct : (f.bindings.map (·.1)).Nodup ↔ f.localNames.Nodup := by
    rw [keys_bindings, List.nodup_reverse]
  have names : (∀ x ∈ f.localNames, classes.has x = false) ↔
      (∀ a ∈ f.params, classes.has a.name = false) ∧ ∀ v ∈ f.locals, classes.has v.name = false := by
    simp [localNames, or_imp, forall_and]
  constructor
  · intro h
    obtain ⟨start, hstart, h⟩ := bind_eq_ok.1 h
    obtain ⟨rfl, startDiffer, paramNames⟩ := params.1 hstart
    obtain ⟨rfl, differ, each⟩ := (locals startDiffer).1 h
    rw [List.append_nil] at differ ⊢
    exact ⟨rfl, distinct.1 differ, names.2 ⟨paramNames, fun v hv => (each v hv).1⟩,
      fun v hv => (each v hv).2⟩
  · rintro ⟨rfl, differ, noClass, each⟩
    obtain ⟨paramNames, localNames⟩ := names.1 noClass
    have differ := distinct.2 differ
    have startDiffer : ((f.params.map fun a => (a.name, Binding.variable a.ty)).reverse.map
        (·.1)).Nodup := by
      rw [bindings, List.map_append] at differ
      exact differ.of_append_right
    refine bind_eq_ok.2 ⟨_, params.2 ⟨rfl, ?_, paramNames⟩, ?_⟩
    · rw [List.append_nil]
      exact startDiffer
    · rw [List.append_nil]
      exact (locals startDiffer).2 ⟨rfl, differ, fun v hv => ⟨localNames v hv, each v hv⟩⟩

/-! ## §3 Members of classes -/

/-- The members that a class announces. -/
def ClassDef.info (c : ClassDef) : ClassInfo :=
  ⟨(c.fields.map fun v => (v.name, v.ty)).reverse,
    (c.methods.map fun m => (m.name, ⟨m.signature.params.drop 1, m.result⟩)).reverse⟩

namespace ClassTable

theorem addField_eq_ok {table : ClassTable} {fields fields' : List (String × Ty)} {v : VarDef} :
    table.addField fields v = .ok fields' ↔
      fields' = (v.name, v.ty) :: fields ∧ fields.lookup v.name = none ∧
        table.requireType v.ty = .ok () ∧ v.value.ty.Fits v.ty := by
  rw [addField]
  constructor
  · intro h
    obtain ⟨new, h⟩ := guard_eq_ok.1 h
    obtain ⟨⟨⟩, type, h⟩ := bind_eq_ok.1 h
    obtain ⟨⟨⟩, value, h⟩ := bind_eq_ok.1 h
    cases h
    exact ⟨rfl, Option.not_isSome_iff_eq_none.1 new, type, VarDef.checkInitializer_eq_ok.1 value⟩
  · rintro ⟨rfl, new, type, value⟩
    exact guard_eq_ok.2 ⟨Option.not_isSome_iff_eq_none.2 new, bind_eq_ok.2 ⟨(), type,
      bind_eq_ok.2 ⟨(), VarDef.checkInitializer_eq_ok.2 value, rfl⟩⟩⟩

/-- What is asked of a method besides a new name. -/
structure Admits (table : ClassTable) (c : String) (m : FunDef) : Prop where
  receiver : m.params.head?.map (·.ty) = some (.object c)
  init : m.name = initMethod → m.params.length = 1 ∧ m.result = .none
  types : table.KnowsTypes m

theorem addMethod_eq_ok {table : ClassTable} {c : String} {fields : List (String × Ty)}
    {methods methods' : List (String × Signature)} {m : FunDef} :
    table.addMethod c fields methods m = .ok methods' ↔
      methods' = (m.name, ⟨m.signature.params.drop 1, m.result⟩) :: methods ∧
        methods.lookup m.name = none ∧ fields.lookup m.name = none ∧ table.Admits c m := by
  rw [addMethod]
  constructor
  · intro h
    obtain ⟨new, h⟩ := guard_eq_ok.1 h
    obtain ⟨noField, h⟩ := guard_eq_ok.1 h
    obtain ⟨receiver, h⟩ := guard_eq_ok.1 h
    obtain ⟨constructs, h⟩ := guard_eq_ok.1 h
    obtain ⟨sig, hsig, h⟩ := bind_eq_ok.1 h
    cases h
    obtain ⟨rfl, types⟩ := signature_eq_ok.1 hsig
    exact ⟨rfl, Option.not_isSome_iff_eq_none.1 new, Option.not_isSome_iff_eq_none.1 noField,
      not_not.1 receiver, by simpa using constructs, types⟩
  · rintro ⟨rfl, new, noField, receiver, init, types⟩
    refine guard_eq_ok.2 ⟨Option.not_isSome_iff_eq_none.2 new, guard_eq_ok.2
      ⟨Option.not_isSome_iff_eq_none.2 noField, guard_eq_ok.2 ⟨not_not.2 receiver, guard_eq_ok.2
        ⟨by simpa using init, bind_eq_ok.2 ⟨_, signature_eq_ok.2 ⟨rfl, types⟩, rfl⟩⟩⟩⟩⟩

/-- What is asked of a class. -/
structure AdmitsClass (table : ClassTable) (c : ClassDef) : Prop where
  parent : table.has c.parent = true
  other : c.parent ≠ c.name
  fields : ∀ v ∈ c.fields, table.requireType v.ty = .ok () ∧ v.value.ty.Fits v.ty
  methods : ∀ m ∈ c.methods, table.Admits c.name m
  distinct : (c.fields.map (·.name) ++ c.methods.map (·.name)).Nodup

theorem addMembers_eq_ok {table table' : ClassTable} {c : ClassDef} :
    table.addMembers c = .ok table' ↔
      table.AdmitsClass c ∧ table' = table.install c.name c.info := by
  have fields : ∀ {fields}, c.fields.foldlM table.addField [] = .ok fields ↔ _ :=
    foldlM_push_eq_ok List.nodup_nil fun _ _ _ => addField_eq_ok
  have methods : ∀ {fields methods},
      c.methods.foldlM (table.addMethod c.name fields) [] = .ok methods ↔ _ :=
    foldlM_push_eq_ok List.nodup_nil fun _ _ _ => addMethod_eq_ok
  have apart : (∀ m ∈ c.methods, c.info.fields.lookup m.name = none) ↔
      ∀ x ∈ c.fields.map (·.name), ∀ y ∈ c.methods.map (·.name), x ≠ y := by
    simp only [List.lookup_eq_none_iff, ClassDef.info, List.mem_reverse, List.forall_mem_map,
      bne_iff_ne]
    exact ⟨fun h v hv m hm => (h m hm v hv).symm, fun h m hm v hv => (h v hv m hm).symm⟩
  have fieldKeys : ((c.fields.map fun v => (v.name, v.ty)).reverse.map (·.1)).Nodup ↔
      (c.fields.map (·.name)).Nodup := by
    rw [List.map_reverse, List.nodup_reverse, List.map_map]
    rfl
  have methodKeys : ((c.methods.map fun m =>
        (m.name, (⟨m.signature.params.drop 1, m.result⟩ : Signature))).reverse.map (·.1)).Nodup ↔
      (c.methods.map (·.name)).Nodup := by
    rw [List.map_reverse, List.nodup_reverse, List.map_map]
    rfl
  rw [addMembers]
  constructor
  · intro h
    obtain ⟨parent, h⟩ := guard_eq_ok.1 h
    obtain ⟨fs, hfields, h⟩ := bind_eq_ok.1 h
    obtain ⟨ms, hmethods, h⟩ := bind_eq_ok.1 h
    cases h
    obtain ⟨rfl, fieldsDiffer, eachField⟩ := fields.1 hfields
    obtain ⟨rfl, methodsDiffer, eachMethod⟩ := methods.1 hmethods
    simp only [List.append_nil] at *
    rw [not_or, Bool.not_eq_false] at parent
    refine ⟨⟨parent.2, parent.1, eachField, fun m hm => (eachMethod m hm).2, ?_⟩, rfl⟩
    exact List.nodup_append.2 ⟨fieldKeys.1 fieldsDiffer, methodKeys.1 methodsDiffer,
      apart.1 fun m hm => (eachMethod m hm).1⟩
  · rintro ⟨⟨parent, other, eachField, eachMethod, distinct⟩, rfl⟩
    obtain ⟨fieldsDiffer, methodsDiffer, disjoint⟩ := List.nodup_append.1 distinct
    refine guard_eq_ok.2 ⟨by simp [parent, other], bind_eq_ok.2 ⟨c.info.fields, fields.2 ?_,
      bind_eq_ok.2 ⟨c.info.methods, methods.2 ?_, rfl⟩⟩⟩
    · exact ⟨(List.append_nil _).symm, fieldKeys.2 fieldsDiffer, eachField⟩
    · exact ⟨(List.append_nil _).symm, methodKeys.2 methodsDiffer,
        fun m hm => ⟨apart.2 disjoint m hm, eachMethod m hm⟩⟩

end ClassTable

/-! ## §4 All classes -/

namespace ClassTable

theorem declare_eq_ok {globals : Scope} {table table' : ClassTable} {c : ClassDef} :
    table.declare globals c = .ok table' ↔
      table' = (c.name, {}) :: table ∧ table.lookup c.name = none ∧
        c.name ≠ printFunction ∧ globals.lookup c.name = none := by
  rw [declare]
  by_cases isPrint : c.name = printFunction
  · simp [isPrint]
  by_cases known : table.has c.name
  · simp [isPrint, known, Option.isSome_iff_ne_none.1 known]
  have unknown : table.lookup c.name = none := Option.not_isSome_iff_eq_none.1 known
  by_cases found : (globals.lookup c.name).isSome
  · simp [isPrint, known, found, Option.isSome_iff_ne_none.1 found]
  · simp [isPrint, known, unknown, Option.not_isSome_iff_eq_none.1 found, eq_comm]

@[simp] theorem keys_install (table : ClassTable) (c : String) (info : ClassInfo) :
    (table.install c info).map (·.1) = table.map (·.1) := by
  rw [install, List.map_map]
  refine List.map_congr_left fun entry _ => ?_
  by_cases same : entry.1 = c
  · simp [same]
  · simp [same]

theorem has_congr {table table' : ClassTable} (same : table.map (·.1) = table'.map (·.1)) :
    table.has = table'.has := by
  funext c
  rw [Bool.eq_iff_iff, has, has, lookup_isSome_iff, lookup_isSome_iff, same]

theorem requireType_congr {table table' : ClassTable} (same : table.has = table'.has) :
    table.requireType = table'.requireType := by
  funext t
  cases t with
  | object c => simp only [requireType, same]
  | int => rfl
  | bool => rfl
  | none => rfl

/-- What is asked of a class does not depend on the members of other classes. -/
theorem AdmitsClass.congr {table table' : ClassTable} {c : ClassDef} (h : table.AdmitsClass c)
    (same : table.map (·.1) = table'.map (·.1)) : table'.AdmitsClass c := by
  have has := has_congr same
  have type := requireType_congr has
  constructor
  case parent => exact has ▸ h.parent
  case other => exact h.other
  case fields => exact type ▸ h.fields
  case methods =>
    intro m hm
    obtain ⟨receiver, init, types⟩ := h.methods m hm
    refine ⟨receiver, init, ?_⟩
    rw [KnowsTypes, ← type]
    exact types
  case distinct => exact h.distinct

/-- Giving every class its members changes each entry on its own. -/
theorem foldl_install {cs : List ClassDef} (distinct : (cs.map (·.name)).Nodup)
    (table : ClassTable) :
    cs.foldl (fun t c => t.install c.name c.info) table =
      table.map fun entry =>
        ((cs.find? (·.name = entry.1)).map fun c => (c.name, c.info)).getD entry := by
  induction cs generalizing table with
  | nil => simp
  | cons c cs ih =>
    rw [List.map_cons, List.nodup_cons] at distinct
    rw [List.foldl_cons, ih distinct.2, install, List.map_map]
    refine List.map_congr_left fun entry _ => ?_
    by_cases same : entry.1 = c.name
    · have last : cs.find? (·.name = c.name) = none := by
        rw [List.find?_eq_none]
        intro d hd h
        exact distinct.1 (List.mem_map.2 ⟨d, hd, by simpa using h⟩)
      simp [same, last]
    · simp [same, Ne.symm same]

end ClassTable

namespace Program

/-- The classes of a program with their members, the last one first. -/
def table (p : Program) : ClassTable :=
  (p.classes.map fun c => (c.name, c.info)).reverse ++ ClassTable.initial

/-- The classes of a program before they have members. -/
def bareTable (p : Program) : ClassTable :=
  (p.classes.map fun c => (c.name, ({} : ClassInfo))).reverse ++ ClassTable.initial

theorem keys_table (p : Program) : p.table.map (·.1) = (p.allClasses.map (·.name)).reverse := by
  simp [table, allClasses, ClassTable.initial, Function.comp_def]

theorem keys_bareTable (p : Program) : p.bareTable.map (·.1) = p.table.map (·.1) := by
  simp [bareTable, table, Function.comp_def]

theorem classesDiffer_iff {p : Program} : p.ClassesDiffer ↔
    (p.classes.map (·.name)).Nodup ∧ ∀ c ∈ p.classes, c.name ≠ objectClass := by
  rw [ClassesDiffer, allClasses, List.map_cons, List.nodup_cons, and_comm]
  simp [eq_comm]

theorem declareClasses_eq_ok {p : Program} {globals : Scope} {table : ClassTable} :
    p.classes.foldlM (ClassTable.declare globals) .initial = .ok table ↔
      table = p.bareTable ∧ p.ClassesDiffer ∧
        ∀ c ∈ p.classes, c.name ≠ printFunction ∧ globals.lookup c.name = none := by
  have loop : p.classes.foldlM (ClassTable.declare globals) .initial = .ok table ↔ _ :=
    foldlM_push_eq_ok (List.nodup_singleton _) fun _ _ _ => ClassTable.declare_eq_ok
  refine loop.trans (and_congr_right ?_)
  rintro rfl
  refine and_congr_left fun _ => ?_
  rw [← bareTable, keys_bareTable, keys_table, List.nodup_reverse]
  rfl

theorem addAllMembers_eq_ok {p : Program} (differ : p.ClassesDiffer) {table : ClassTable} :
    p.classes.foldlM ClassTable.addMembers p.bareTable = .ok table ↔
      table = p.table ∧ ∀ c ∈ p.classes, p.table.AdmitsClass c := by
  have loop : p.classes.foldlM ClassTable.addMembers p.bareTable = .ok table ↔ _ := foldlM_eq_ok
    (I := fun t => t.map (·.1) = p.table.map (·.1)) (P := p.table.AdmitsClass) p.keys_bareTable
    (fun t same c t' => by
      rw [ClassTable.addMembers_eq_ok]
      exact and_congr_left fun _ => ⟨(·.congr same), (·.congr same.symm)⟩)
    (fun t same c => by rw [ClassTable.keys_install, same])
  obtain ⟨distinct, notObject⟩ := classesDiffer_iff.1 differ
  have installed : p.classes.foldl (fun t c => t.install c.name c.info) p.bareTable = p.table := by
    rw [ClassTable.foldl_install distinct, bareTable, List.map_append, List.map_reverse,
      List.map_map, Program.table]
    refine congrArg₂ _ (congrArg _ (List.map_congr_left fun c hc => ?_)) ?_
    · simp [find?_of_nodup distinct hc]
    · have unknown : p.classes.find? (·.name = objectClass) = none := by
        simpa [List.find?_eq_none] using notObject
      simp [ClassTable.initial, unknown]
  rw [loop, installed, and_comm]

/-- The class table knows the classes of the program. -/
theorem has_table {p : Program} {c : String} : p.table.has c = true ↔ p.IsClass c := by
  rw [ClassTable.has, lookup_isSome_iff, keys_table, List.mem_reverse, allClasses, List.map_cons,
    List.mem_cons, List.mem_map]
  rfl

theorem requireType_table {p : Program} {t : Ty} :
    p.table.requireType t = .ok () ↔ p.IsType t := by
  cases t with
  | object c =>
    rw [IsType, ← has_table, ClassTable.requireType]
    by_cases known : p.table.has c
    · simp [known]
    · simp [known]
  | int => simp [ClassTable.requireType, IsType]
  | bool => simp [ClassTable.requireType, IsType]
  | none => simp [ClassTable.requireType, IsType]

theorem knowsTypes_table {p : Program} {f : FunDef} :
    p.table.KnowsTypes f ↔ f.IsDeclared p := by
  simp only [ClassTable.KnowsTypes, requireType_table]
  exact ⟨fun h => ⟨h.1, h.2⟩, fun h => ⟨h.params, h.result⟩⟩

theorem admitsClass_table {p : Program} {c : ClassDef} :
    p.table.AdmitsClass c ↔ c.IsDeclared p := by
  constructor
  · intro h
    constructor
    case parent => exact has_table.1 h.parent
    case other => exact h.other
    case fields => exact fun v hv => ⟨requireType_table.1 (h.fields v hv).1, (h.fields v hv).2⟩
    case methods => exact fun m hm => knowsTypes_table.1 (h.methods m hm).types
    case distinct => exact h.distinct
    case receivers => exact fun m hm => (h.methods m hm).receiver
    case inits => exact fun m hm => (h.methods m hm).init
  · intro h
    constructor
    case parent => exact has_table.2 h.parent
    case other => exact h.other
    case fields => exact fun v hv => ⟨requireType_table.2 (h.fields v hv).ty, (h.fields v hv).value⟩
    case methods =>
      exact fun m hm => ⟨h.receivers m hm, h.inits m hm, knowsTypes_table.2 (h.methods m hm)⟩
    case distinct => exact h.distinct

end Program

/-! ## §5 Programs -/

namespace Program

/-- The global variables of a program, the last one first. -/
def varScope (p : Program) : Scope := (p.globalVars.map fun v => (v.name, .variable v.ty)).reverse

/-- The global variables and functions of a program, the last one first. -/
def scope (p : Program) : Scope :=
  (p.functions.map fun f => (f.name, .function f.signature)).reverse ++ p.varScope

/-- What the names of a program mean outside of its functions. -/
def names (p : Program) : Context := { classes := p.table, globals := p.scope }

theorem keys_varScope (p : Program) :
    p.varScope.map (·.1) = (p.globalVars.map (·.name)).reverse := by
  simp [varScope, Function.comp_def]

theorem keys_scope (p : Program) : p.scope.map (·.1) =
    (p.globalVars.map (·.name) ++ p.functions.map (·.name)).reverse := by
  simp [scope, keys_varScope, Function.comp_def]

theorem has_initial {x : String} : ClassTable.has .initial x = false ↔ x ≠ objectClass := by
  rw [← Bool.not_eq_true, ClassTable.has, lookup_isSome_iff]
  simp [ClassTable.initial]

theorem declareVars_eq_ok {p : Program} {scope : Scope} :
    p.globalVars.foldlM (Scope.declareVariable .initial) [] = .ok scope ↔
      scope = p.varScope ∧ (p.globalVars.map (·.name)).Nodup ∧
        ∀ v ∈ p.globalVars, v.name ≠ objectClass ∧ v.value.ty.Fits v.ty := by
  have loop : p.globalVars.foldlM (Scope.declareVariable .initial) [] = .ok scope ↔ _ :=
    foldlM_push_eq_ok List.nodup_nil fun _ _ _ => Scope.declareVariable_eq_ok
  rw [loop, List.append_nil]
  refine and_congr_right ?_
  rintro rfl
  rw [← varScope, keys_varScope, List.nodup_reverse]
  simp only [has_initial]

theorem declareFunctions_eq_ok {p : Program} (vars : (p.globalVars.map (·.name)).Nodup)
    {scope : Scope} :
    p.functions.foldlM (Scope.declareFunction p.table) p.varScope = .ok scope ↔
      scope = p.scope ∧ (p.globalVars.map (·.name) ++ p.functions.map (·.name)).Nodup ∧
        ∀ f ∈ p.functions, f.name ≠ printFunction ∧ ¬p.IsClass f.name ∧ f.IsDeclared p := by
  have start : (p.varScope.map (·.1)).Nodup := by
    rw [keys_varScope, List.nodup_reverse]
    exact vars
  have loop : p.functions.foldlM (Scope.declareFunction p.table) p.varScope = .ok scope ↔ _ :=
    foldlM_push_eq_ok start fun _ _ _ => Scope.declareFunction_eq_ok
  refine loop.trans (and_congr_right ?_)
  rintro rfl
  rw [← Program.scope, keys_scope, List.nodup_reverse]
  simp only [knowsTypes_table, ← has_table, Bool.not_eq_true]

theorem IsDeclared.classesDiffer {p : Program} (h : p.IsDeclared) : p.ClassesDiffer :=
  classesDiffer_iff.2 ⟨h.classesDistinct, fun c hc => (h.classNames c hc).1⟩

theorem IsDeclared.not_isClass {p : Program} (h : p.IsDeclared) {f : FunDef}
    (hf : f ∈ p.functions) : ¬p.IsClass f.name := by
  rintro (isObject | ⟨c, hc, same⟩)
  · exact (h.functionNames f hf).2 isObject
  · exact (h.classNames c hc).2.2.2 (List.mem_map.2 ⟨f, hf, same.symm⟩)

/-- Names can be collected exactly if the definitions are in order. -/
theorem context_eq_ok {p : Program} {Γ : Context} :
    p.context = .ok Γ ↔ Γ = p.names ∧ p.IsDeclared := by
  have outside : ∀ {x : String}, p.varScope.lookup x = none ↔ x ∉ p.globalVars.map (·.name) := by
    intro x
    rw [← Option.not_isSome_iff_eq_none, lookup_isSome_iff, keys_varScope, List.mem_reverse]
  have types : ∀ {t : Ty}, p.bareTable.requireType t = .ok () ↔ p.IsType t := by
    intro t
    rw [ClassTable.requireType_congr (ClassTable.has_congr p.keys_bareTable), requireType_table]
  constructor
  · intro h
    obtain ⟨_, hvars, h⟩ := bind_eq_ok.1 h
    obtain ⟨_, hknown, h⟩ := bind_eq_ok.1 h
    obtain ⟨⟨⟩, htypes, h⟩ := bind_eq_ok.1 h
    obtain ⟨_, hclasses, h⟩ := bind_eq_ok.1 h
    obtain ⟨_, hfunctions, h⟩ := bind_eq_ok.1 h
    cases h
    obtain ⟨rfl, varsDiffer, eachVar⟩ := declareVars_eq_ok.1 hvars
    obtain ⟨rfl, classesDiffer, eachClass⟩ := declareClasses_eq_ok.1 hknown
    obtain ⟨rfl, members⟩ := (addAllMembers_eq_ok classesDiffer).1 hclasses
    obtain ⟨rfl, distinct, eachFunction⟩ := (declareFunctions_eq_ok varsDiffer).1 hfunctions
    obtain ⟨classNamesDiffer, notObject⟩ := classesDiffer_iff.1 classesDiffer
    refine ⟨rfl, ?_⟩
    constructor
    case distinct => exact distinct
    case classesDistinct => exact classNamesDiffer
    case classNames =>
      intro c hc
      obtain ⟨notPrint, noVar⟩ := eachClass c hc
      refine ⟨notObject c hc, notPrint, outside.1 noVar, fun mem => ?_⟩
      obtain ⟨f, hf, same⟩ := List.mem_map.1 mem
      exact (eachFunction f hf).2.1 (.inr ⟨c, hc, same.symm⟩)
    case functionNames =>
      exact fun f hf => ⟨(eachFunction f hf).1, fun same => (eachFunction f hf).2.1 (.inl same)⟩
    case varNames => exact fun v hv => (eachVar v hv).1
    case vars => exact fun v hv => ⟨types.1 (forM_eq_ok.1 htypes v hv), (eachVar v hv).2⟩
    case functions => exact fun f hf => (eachFunction f hf).2.2
    case classes => exact fun c hc => admitsClass_table.1 (members c hc)
  · rintro ⟨rfl, h⟩
    have varsDiffer : (p.globalVars.map (·.name)).Nodup := h.distinct.of_append_left
    refine bind_eq_ok.2 ⟨_, declareVars_eq_ok.2 ⟨rfl, varsDiffer, fun v hv => ?_⟩,
      bind_eq_ok.2 ⟨_, declareClasses_eq_ok.2 ⟨rfl, h.classesDiffer, fun c hc => ?_⟩,
      bind_eq_ok.2 ⟨(), forM_eq_ok.2 fun v hv => types.2 (h.vars v hv).ty,
      bind_eq_ok.2 ⟨_, (addAllMembers_eq_ok h.classesDiffer).2 ⟨rfl, fun c hc => ?_⟩,
      bind_eq_ok.2 ⟨_, (declareFunctions_eq_ok varsDiffer).2 ⟨rfl, h.distinct, fun f hf => ?_⟩,
        rfl⟩⟩⟩⟩⟩
    · exact ⟨h.varNames v hv, (h.vars v hv).value⟩
    · obtain ⟨-, notPrint, noVar, -⟩ := h.classNames c hc
      exact ⟨notPrint, outside.2 noVar⟩
    · exact admitsClass_table.2 (h.classes c hc)
    · exact ⟨(h.functionNames f hf).1, h.not_isClass hf, h.functions f hf⟩

end Program

/-! ## §6 What the names of a program mean -/

/-- What the global names and the classes of a program mean. -/
structure Program.Declares (p : Program) (Γ : Context) : Prop where
  globals : Γ.globals = (p.functions.map fun f => (f.name, .function f.signature)).reverse ++
    (p.globalVars.map fun v => (v.name, .variable v.ty)).reverse
  distinct : (Γ.globals.map (·.1)).Nodup
  classes : Γ.classes.map (·.1) = (p.allClasses.map (·.name)).reverse
  classesDiffer : p.ClassesDiffer
  /-- Every class has its own members; the class of all objects has none. -/
  members : ∀ c info, (c, info) ∈ Γ.classes → info = {} ∨ ∃ d ∈ p.classes, d.name = c ∧ info = d.info
  apart : ∀ f ∈ p.functions, Γ.classes.has f.name = false
  methods : ∀ c ∈ p.classes, (c.methods.map (·.name)).Nodup ∧
    ∀ m ∈ c.methods, m.params ≠ [] ∧ (m.name = initMethod → m.params.length = 1)

/-- Global names mean the same inside of functions. -/
theorem Program.Declares.within {p : Program} {Γ : Context} (h : p.Declares Γ)
    (frame : Option Frame) : p.Declares { Γ with frame } :=
  ⟨h.globals, h.distinct, h.classes, h.classesDiffer, h.members, h.apart, h.methods⟩

theorem Program.frame_of_context {p : Program} {Γ : Context} (h : p.context = .ok Γ) :
    Γ.frame = none := by
  obtain ⟨rfl, -⟩ := context_eq_ok.1 h
  rfl

theorem Program.declares_of_context {p : Program} {Γ : Context} (h : p.context = .ok Γ) :
    p.Declares Γ := by
  obtain ⟨rfl, declared⟩ := context_eq_ok.1 h
  constructor
  case globals => rfl
  case distinct =>
    rw [names, keys_scope, List.nodup_reverse]
    exact declared.distinct
  case classes => exact p.keys_table
  case classesDiffer => exact declared.classesDiffer
  case members =>
    intro c info mem
    simp only [names, table, ClassTable.initial, List.mem_append, List.mem_reverse, List.mem_map,
      List.mem_singleton, Prod.mk.injEq] at mem
    rcases mem with ⟨d, hd, rfl, rfl⟩ | ⟨-, rfl⟩
    · exact .inr ⟨d, hd, rfl, rfl⟩
    · exact .inl rfl
  case apart =>
    intro f hf
    rw [← Bool.not_eq_true, names, has_table]
    exact declared.not_isClass hf
  case methods =>
    intro c hc
    have members := declared.classes c hc
    refine ⟨members.distinct.of_append_right, fun m hm => ⟨fun none => ?_, fun init => ?_⟩⟩
    · have receiver := members.receivers m hm
      rw [none] at receiver
      cases receiver
    · exact (members.inits m hm init).1

end Serpent
