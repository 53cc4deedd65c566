/-
Serpent.Proofs.Names — the names that checking knows are those that the definitions give.

At every place of a program whose definitions are in order, looking a name up finds what the name
stands for there.

  §1 Tables of a program
  §2 Members of classes
  §3 Places
-/
import Serpent.Proofs.Declared

namespace Serpent

variable {p : Program}

/-! ## §1 Tables of a program -/

namespace Program

theorem mem_scope {x : String} {b : Binding} : (x, b) ∈ p.scope ↔
    (∃ f ∈ p.functions, f.name = x ∧ b = .function f.signature) ∨
      ∃ v ∈ p.globalVars, v.name = x ∧ b = .variable v.ty := by
  simp only [scope, varScope, List.mem_append, List.mem_reverse, List.mem_map, Prod.mk.injEq,
    eq_comm (b := b)]

theorem IsDeclared.lookup_scope (h : p.IsDeclared) {x : String} {b : Binding} :
    p.scope.lookup x = some b ↔
      (∃ f ∈ p.functions, f.name = x ∧ b = .function f.signature) ∨
        ∃ v ∈ p.globalVars, v.name = x ∧ b = .variable v.ty := by
  have distinct : (p.scope.map (·.1)).Nodup := by
    rw [keys_scope, List.nodup_reverse]
    exact h.distinct
  rw [lookup_eq_some_iff distinct, mem_scope]

/-- No global variable or function has the name of a class. -/
theorem IsDeclared.lookup_scope_of_isClass (h : p.IsDeclared) {c : String} (hc : p.IsClass c) :
    p.scope.lookup c = none := by
  rw [lookup_eq_none_iff, keys_scope, List.mem_reverse, List.mem_append, List.mem_map, List.mem_map]
  rintro (⟨v, hv, rfl⟩ | ⟨f, hf, rfl⟩)
  · rcases hc with isObject | ⟨d, hd, same⟩
    · exact h.varNames v hv isObject
    · exact (h.classNames d hd).2.2.1 (List.mem_map.2 ⟨v, hv, same.symm⟩)
  · exact h.not_isClass hf hc

theorem IsDeclared.lookup_table (h : p.IsDeclared) {c : String} {info : ClassInfo} :
    p.table.lookup c = some info ↔
      (c = objectClass ∧ info = {}) ∨ ∃ d ∈ p.classes, d.name = c ∧ info = d.info := by
  have distinct : (p.table.map (·.1)).Nodup := by
    rw [keys_table, List.nodup_reverse]
    exact h.classesDiffer
  rw [lookup_eq_some_iff distinct]
  simp only [table, ClassTable.initial, List.mem_append, List.mem_reverse, List.mem_map,
    List.mem_singleton, Prod.mk.injEq, eq_comm (b := info), or_comm]

/-! ## §2 Members of classes -/

theorem IsDeclared.field?_eq_some (h : p.IsDeclared) {c x : String} {t : Ty} :
    p.table.field? c x = some t ↔ p.HasField c x t := by
  have fields : ∀ d ∈ p.classes, ∀ {x t}, d.info.fields.lookup x = some t ↔
      ∃ v ∈ d.fields, v.name = x ∧ v.ty = t := by
    intro d hd x t
    have distinct : (d.info.fields.map (·.1)).Nodup := by
      rw [ClassDef.info, List.map_reverse, List.nodup_reverse, List.map_map]
      exact (h.classes d hd).distinct.of_append_left
    rw [lookup_eq_some_iff distinct]
    simp [ClassDef.info]
  rw [ClassTable.field?, Option.bind_eq_some_iff]
  constructor
  · rintro ⟨info, found, field⟩
    rcases h.lookup_table.1 found with ⟨-, rfl⟩ | ⟨d, hd, rfl, rfl⟩
    · cases field
    · exact ⟨d, hd, rfl, (fields d hd).1 field⟩
  · rintro ⟨d, hd, rfl, field⟩
    exact ⟨d.info, h.lookup_table.2 (.inr ⟨d, hd, rfl, rfl⟩), (fields d hd).2 field⟩

theorem IsDeclared.method?_eq_some (h : p.IsDeclared) {c x : String} {sig : Signature} :
    p.table.method? c x = some sig ↔
      ∃ m, p.HasMethod c x m ∧ sig = ⟨(m.params.drop 1).map (·.ty), m.result⟩ := by
  have methods : ∀ d ∈ p.classes, ∀ {x sig}, d.info.methods.lookup x = some sig ↔
      ∃ m ∈ d.methods, m.name = x ∧ sig = ⟨(m.params.drop 1).map (·.ty), m.result⟩ := by
    intro d hd x sig
    have distinct : (d.info.methods.map (·.1)).Nodup := by
      rw [ClassDef.info, List.map_reverse, List.nodup_reverse, List.map_map]
      exact (h.classes d hd).distinct.of_append_right
    rw [lookup_eq_some_iff distinct]
    simp [ClassDef.info, FunDef.signature, eq_comm]
  rw [ClassTable.method?, Option.bind_eq_some_iff]
  constructor
  · rintro ⟨info, found, method⟩
    rcases h.lookup_table.1 found with ⟨-, rfl⟩ | ⟨d, hd, rfl, rfl⟩
    · cases method
    · obtain ⟨m, hm, name, eq⟩ := (methods d hd).1 method
      exact ⟨m, ⟨d, hd, rfl, hm, name⟩, eq⟩
  · rintro ⟨m, ⟨d, hd, rfl, hm, name⟩, eq⟩
    exact ⟨d.info, h.lookup_table.2 (.inr ⟨d, hd, rfl, rfl⟩), (methods d hd).2 ⟨m, hm, name, eq⟩⟩

end Program

/-! ## §3 Places -/

/-- Looking names up finds what they stand for at a place in a program. -/
structure Context.Means (Γ : Context) (p : Program) (site : Site) : Prop where
  vars : ∀ {x t}, Γ.lookup? x = some (.variable t) ↔ site.HasVar p x t
  functions : ∀ {x sig}, Γ.lookup? x = some (.function sig) ↔
    ∃ d, site.HasFunction p x d ∧ sig = d.signature
  classes : ∀ {c}, Γ.classes.has c = true ↔ p.IsClass c
  apart : ∀ {c}, p.IsClass c → Γ.lookup? c = none
  fields : ∀ {c x t}, Γ.classes.field? c x = some t ↔ p.HasField c x t
  methods : ∀ {c x sig}, Γ.classes.method? c x = some sig ↔
    ∃ m, p.HasMethod c x m ∧ sig = ⟨(m.params.drop 1).map (·.ty), m.result⟩
  result : Γ.frame.map (·.result) = site.map (·.result)
  own : ∀ {x}, Γ.isOuter x = false ↔ site = none ∨ x ∈ site.names

/-- What names mean at a place in a program; messages call the function there `label`. -/
def Program.namesAt (p : Program) (label : String) (site : Site) : Context :=
  { p.names with frame := site.map fun f => ⟨label, f.result, f.bindings⟩ }

/-- The local names at a place, the last one first. -/
def Site.bindings : Site → Scope
  | some f => f.bindings
  | none => []

namespace Site

theorem keys_bindings (site : Site) : site.bindings.map (·.1) = site.names.reverse := by
  cases site with
  | none => rfl
  | some f => rw [bindings, f.keys_bindings, names, vars, f.keys_vars]

theorem mem_bindings {site : Site} {x : String} {b : Binding} :
    (x, b) ∈ site.bindings ↔ ∃ t, (x, t) ∈ site.vars ∧ b = .variable t := by
  cases site with
  | none => simp [bindings, vars]
  | some f => exact f.mem_bindings

theorem mem_names {site : Site} {x : String} {t : Ty} (h : (x, t) ∈ site.vars) : x ∈ site.names :=
  List.mem_map.2 ⟨_, h, rfl⟩

end Site

theorem Program.locals_namesAt (p : Program) (label : String) (site : Site) :
    (p.namesAt label site).locals = site.bindings := by
  cases site <;> rfl

/-- Where the local names are distinct and no classes, names are found as what they stand for. -/
theorem Program.IsDeclared.means (h : p.IsDeclared) (label : String) (site : Site)
    (distinct : site.names.Nodup) (noClass : ∀ x ∈ site.names, ¬p.IsClass x) :
    (p.namesAt label site).Means p site := by
  have lookup : ∀ x, (p.namesAt label site).lookup? x =
      (site.bindings.lookup x).or (p.scope.lookup x) := by
    intro x
    rw [Context.lookup?, locals_namesAt]
    rfl
  have known : ∀ {x b}, site.bindings.lookup x = some b ↔ ∃ t, (x, t) ∈ site.vars ∧ b = .variable t := by
    intro x b
    rw [lookup_eq_some_iff (by rw [site.keys_bindings, List.nodup_reverse]; exact distinct),
      Site.mem_bindings]
  have unknown : ∀ {x}, site.bindings.lookup x = none ↔ x ∉ site.names := by
    intro x
    rw [lookup_eq_none_iff, site.keys_bindings, List.mem_reverse]
  constructor
  case vars =>
    intro x t
    rw [lookup, Option.or_eq_some_iff, known, unknown, h.lookup_scope]
    constructor
    · rintro (⟨u, own, eq⟩ | ⟨seen, ⟨f, -, -, eq⟩ | ⟨v, hv, rfl, eq⟩⟩)
      · cases eq
        exact .own own
      · cases eq
      · cases eq
        exact .global hv seen
    · rintro (own | ⟨hv, seen⟩)
      · exact .inl ⟨t, own, rfl⟩
      · exact .inr ⟨seen, .inr ⟨_, hv, rfl, rfl⟩⟩
  case functions =>
    intro x sig
    rw [lookup, Option.or_eq_some_iff, known, unknown, h.lookup_scope]
    constructor
    · rintro (⟨u, -, eq⟩ | ⟨seen, ⟨f, hf, name, eq⟩ | ⟨v, -, -, eq⟩⟩)
      · cases eq
      · cases eq
        exact ⟨f, ⟨hf, name, seen⟩, rfl⟩
      · cases eq
    · rintro ⟨d, ⟨hd, name, seen⟩, rfl⟩
      exact .inr ⟨seen, .inl ⟨d, hd, name, rfl⟩⟩
  case classes => exact has_table
  case apart =>
    intro c hc
    rw [lookup, unknown.2 fun own => noClass c own hc, Option.none_or, h.lookup_scope_of_isClass hc]
  case fields => exact h.field?_eq_some
  case methods => exact h.method?_eq_some
  case result => cases site <;> rfl
  case own =>
    intro x
    rw [Context.isOuter, locals_namesAt]
    cases site with
    | none => simp [namesAt]
    | some f =>
      rw [show (p.namesAt label (some f)).frame.isSome = true from rfl, Bool.true_and,
        ← Bool.not_eq_true, Option.isNone_iff_eq_none, unknown, not_not]
      simp

end Serpent
