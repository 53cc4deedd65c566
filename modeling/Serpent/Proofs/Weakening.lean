/-
Serpent.Proofs.Weakening — what checking finds stays true where more is defined.

What a name stands for is read off the definitions, so it stays what it is where there are more of
them (§1), and what is well typed stays well typed, with the same types (§2). Checking therefore
writes the same types into a body, whatever else the program defines and wherever (§3). Two
consequences: the order of definitions does not matter to checking (§4), and one more definition
leaves all that was written into the others as it was (§5).

  §1 What names stand for
  §2 Types
  §3 Bodies and definitions
  §4 The order of definitions
  §5 One more definition
-/
import Mathlib.Data.List.InsertIdx
import Serpent.Proofs.Checking

namespace Serpent

open Fallible

variable {p p' : Program} {site : Site} {Γ Γ' : Context}

/-! ## §1 What names stand for -/

namespace Program

theorem globalVars_mono (within : p.defs ⊆ p'.defs) : p.globalVars ⊆ p'.globalVars :=
  fun _ h => mem_globalVars.2 (within (mem_globalVars.1 h))

theorem functions_mono (within : p.defs ⊆ p'.defs) : p.functions ⊆ p'.functions :=
  fun _ h => mem_functions.2 (within (mem_functions.1 h))

theorem classes_mono (within : p.defs ⊆ p'.defs) : p.classes ⊆ p'.classes :=
  fun _ h => mem_classes.2 (within (mem_classes.1 h))

theorem IsClass.mono (within : p.defs ⊆ p'.defs) {c : String} (h : p.IsClass c) : p'.IsClass c := by
  rcases h with isObject | ⟨d, hd, name⟩
  · exact .inl isObject
  · exact .inr ⟨d, classes_mono within hd, name⟩

theorem IsType.mono (within : p.defs ⊆ p'.defs) {t : Ty} (h : p.IsType t) : p'.IsType t := by
  cases t with
  | object c => exact IsClass.mono within h
  | int => trivial
  | bool => trivial
  | none => trivial

theorem HasField.mono (within : p.defs ⊆ p'.defs) {c x : String} {t : Ty} (h : p.HasField c x t) :
    p'.HasField c x t := by
  obtain ⟨d, hd, found⟩ := h
  exact ⟨d, classes_mono within hd, found⟩

theorem HasMethod.mono (within : p.defs ⊆ p'.defs) {c x : String} {m : FunDef}
    (h : p.HasMethod c x m) : p'.HasMethod c x m := by
  obtain ⟨d, hd, found⟩ := h
  exact ⟨d, classes_mono within hd, found⟩

end Program

namespace Site

theorem HasVar.mono (within : p.defs ⊆ p'.defs) {x : String} {t : Ty} (h : site.HasVar p x t) :
    site.HasVar p' x t := by
  cases h with
  | own h => exact .own h
  | global h seen => exact .global (Program.globalVars_mono within h) seen

theorem HasFunction.mono (within : p.defs ⊆ p'.defs) {x : String} {d : FunDef}
    (h : site.HasFunction p x d) : site.HasFunction p' x d :=
  ⟨Program.functions_mono within h.mem, h.name, h.seen⟩

end Site

/-! ## §2 Types -/

mutual

theorem HasType.mono (within : p.defs ⊆ p'.defs) {e : Expr} {t : Ty} :
    HasType p site e t → HasType p' site e t
  | .literal a v => .literal a v
  | .var a h => .var a (h.mono within)
  | .unary a operand h => .unary a (operand.mono within) h
  | .binary a left right h => .binary a (left.mono within) (right.mono within) h
  | .print a argument => .print a (argument.mono within)
  | .call a other found arguments =>
    .call a other (found.mono within) (arguments.mono within)
  | .construct a other found => .construct a other (found.mono within)
  | .field a receiver found => .field a (receiver.mono within) (found.mono within)
  | .method a receiver found arguments =>
    .method a (receiver.mono within) (found.mono within) (arguments.mono within)

theorem Accepts.mono (within : p.defs ⊆ p'.defs) {es : List Expr} {ts : List Ty} :
    Accepts p site es ts → Accepts p' site es ts
  | .nil => .nil
  | .cons first fits rest => .cons (first.mono within) fits (rest.mono within)

end

theorem Target.HasType.mono (within : p.defs ⊆ p'.defs) {target : Target} {t : Ty}
    (h : target.HasType p site t) : target.HasType p' site t := by
  cases h with
  | own h => exact .own h
  | global h outside => exact .global (Program.globalVars_mono within h) outside
  | member receiver found => exact .member (receiver.mono within) (found.mono within)

theorem Stmt.IsTyped.mono (within : p.defs ⊆ p'.defs) {s : Stmt} (h : s.IsTyped p site) :
    s.IsTyped p' site := by
  induction h with
  | pass => exact .pass
  | assign place value fits => exact .assign (place.mono within) (value.mono within) fits
  | expr value => exact .expr (value.mono within)
  | return_ inside value fits => exact .return_ inside (value.mono within) fits
  | while_ condition round ih => exact .while_ (condition.mono within) ih
  | if_ condition yes conditions maybe no ihyes ihmaybe ihno =>
    exact .if_ (condition.mono within) ihyes (fun d hd => (conditions d hd).mono within) ihmaybe
      ihno

theorem Expr.HoldsType.mono (within : p.defs ⊆ p'.defs) {e : Expr} (h : e.HoldsType p site) :
    e.HoldsType p' site := by
  obtain ⟨t, written, typed⟩ := h
  exact ⟨t, written, typed.mono within⟩

theorem VarDef.IsDeclared.mono (within : p.defs ⊆ p'.defs) {v : VarDef} (h : v.IsDeclared p) :
    v.IsDeclared p' :=
  ⟨h.ty.mono within, h.value⟩

theorem FunDef.IsDeclared.mono (within : p.defs ⊆ p'.defs) {f : FunDef} (h : f.IsDeclared p) :
    f.IsDeclared p' :=
  ⟨fun a ha => (h.params a ha).mono within, h.result.mono within⟩

theorem ClassDef.IsDeclared.mono (within : p.defs ⊆ p'.defs) {c : ClassDef} (h : c.IsDeclared p) :
    c.IsDeclared p' where
  parent := h.parent.mono within
  other := h.other
  fields v hv := (h.fields v hv).mono within
  methods m hm := (h.methods m hm).mono within
  distinct := h.distinct
  receivers := h.receivers
  inits := h.inits

/-- A function stays well typed where more is defined, unless one of its variables then has the name
of a class. -/
theorem FunDef.IsTyped.mono (within : p.defs ⊆ p'.defs) {f : FunDef} (h : f.IsTyped p)
    (noClass : ∀ x ∈ f.vars.map (·.1), ¬p'.IsClass x) : f.IsTyped p' where
  locals v hv := (h.locals v hv).mono within
  distinct := h.distinct
  noClass := noClass
  body s hs := (h.body s hs).mono within
  returns := h.returns

/-! ## §3 Bodies and definitions -/

namespace Context

/-- Bodies that differ by written types only are checked alike. -/
theorem block_congr {ss ss' : List Stmt} (same : Stmt.eraseAll ss = Stmt.eraseAll ss') :
    Γ.block ss = Γ.block ss' := by
  have unwritten : ∀ ss, Γ.block (Stmt.eraseAll ss) = Γ.block ss := fun ss =>
    block_erase Γ fun s _ => stmt_erase Γ s
  rw [← unwritten ss, same, unwritten ss']

/-- Where more is defined, the same types are written into a body. -/
theorem Means.block_mono (within : p.defs ⊆ p'.defs) (means : Γ.Means p site)
    (means' : Γ'.Means p' site) {ss ss' : List Stmt} (h : Γ.block ss = .ok ss') :
    Γ'.block ss = .ok ss' := by
  have same : Stmt.eraseAll ss' = Stmt.eraseAll ss := erase_of_block h fun _ _ _ => erase_of_stmt
  have settled : Γ.block ss' = .ok ss' := (block_congr same).trans h
  obtain ⟨typed, holds⟩ := means.block_self_iff.1 settled
  have settled' : Γ'.block ss' = .ok ss' := means'.block_self_iff.2
    ⟨fun s hs => (typed s hs).mono within, fun e he => (holds e he).mono within⟩
  exact (block_congr same.symm).trans settled'

end Context

namespace Program.IsDeclared

/-- Where more is defined, the same types are written into a function that is still well typed. -/
theorem function_mono (declared : p.IsDeclared) (declared' : p'.IsDeclared)
    (within : p.defs ⊆ p'.defs) {label : String} {f f₁ : FunDef} (typed : f.IsTyped p')
    (h : p.names.function label f = .ok f₁) : p'.names.function label f = .ok f₁ := by
  obtain ⟨before, body, hbody, rfl⟩ := declared.function_eq_ok.1 h
  have means := declared.means_of_function before.distinct before.noClass label
  have means' := declared'.means_of_function typed.distinct typed.noClass label
  exact declared'.function_eq_ok.2 ⟨typed, body, means.block_mono within means' hbody, rfl⟩

/-- Where more is defined, the same types are written into a definition that still has no error. -/
theorem definition_mono (declared : p.IsDeclared) (declared' : p'.IsDeclared)
    (within : p.defs ⊆ p'.defs) {d d₁ : Def} (accepted : ∃ d₂, p'.names.definition d = .ok d₂)
    (h : p.names.definition d = .ok d₁) : p'.names.definition d = .ok d₁ := by
  obtain ⟨functions, methods⟩ := declared'.definition_iff.1 accepted
  cases d with
  | var v => exact h
  | function f =>
    obtain ⟨f₁, hf, h⟩ := bind_eq_ok.1 h
    cases h
    exact bind_eq_ok.2 ⟨f₁, declared.function_mono declared' within (functions f rfl) hf, rfl⟩
  | class_ c =>
    obtain ⟨ms, hms, h⟩ := bind_eq_ok.1 h
    cases h
    have each := (List.forall₂_and_left _ _).2 ⟨methods c rfl, mapM_eq_ok.1 hms⟩
    refine bind_eq_ok.2 ⟨ms, mapM_eq_ok.2 (each.imp fun m m₁ h => ?_), rfl⟩
    exact declared.function_mono declared' within h.1 h.2

end Program.IsDeclared

namespace Program

/-- A definition with the types that checking writes into it. -/
def annotated (p : Program) (d : Def) : Def :=
  match p.names.definition d with
  | .ok d₁ => d₁
  | .error _ => d

theorem annotated_of_definition {d d₁ : Def} (h : p.names.definition d = .ok d₁) :
    p.annotated d = d₁ := by
  rw [annotated, h]

theorem definition_of_check {q : Program} (h : p.check = .ok q) {d : Def} (hd : d ∈ p.defs) :
    p.names.definition d = .ok (p.annotated d) := by
  obtain ⟨d₁, hd₁⟩ := exists_forall₂_iff.1 ⟨_, (check_eq_ok.1 h).2.1⟩ d hd
  rw [annotated_of_definition hd₁, hd₁]

theorem defs_of_check {q : Program} (h : p.check = .ok q) : q.defs = p.defs.map p.annotated := by
  have each := map_eq_of_forall₂ (f := p.annotated) (g := id) (check_eq_ok.1 h).2.1
    fun _ _ hd => (annotated_of_definition hd).symm
  rw [← each, List.map_id]

/-- Of two programs that are both accepted and have the same statements, one may define more than
the other: what both define, and the statements, have the same types written into them. -/
theorem check_mono {q q' : Program} (within : p.defs ⊆ p'.defs) (same : p.stmts = p'.stmts)
    (h : p.check = .ok q) (h' : p'.check = .ok q') :
    q.stmts = q'.stmts ∧ ∀ d ∈ p.defs, p'.annotated d = p.annotated d := by
  obtain ⟨declared, -, stmts⟩ := check_eq_ok.1 h
  obtain ⟨declared', -, stmts'⟩ := check_eq_ok.1 h'
  constructor
  · have kept := declared.means_outside.block_mono within declared'.means_outside stmts
    rw [same, stmts'] at kept
    exact (Except.ok.inj kept).symm
  · intro d hd
    exact annotated_of_definition (declared.definition_mono declared' within
      ⟨_, definition_of_check h' (within hd)⟩ (definition_of_check h hd))

end Program

/-! ## §4 The order of definitions -/

namespace Program

theorem IsDeclared.perm (perm : p.defs.Perm p'.defs) (h : p.IsDeclared) : p'.IsDeclared := by
  have within : p.defs ⊆ p'.defs := perm.subset
  have vars : p.globalVars.Perm p'.globalVars := perm.filterMap _
  have functions : p.functions.Perm p'.functions := perm.filterMap _
  have classes : p.classes.Perm p'.classes := perm.filterMap _
  constructor
  case distinct =>
    exact ((vars.map _).append (functions.map _)).nodup_iff.1 h.distinct
  case classesDistinct =>
    exact (classes.map _).nodup_iff.1 h.classesDistinct
  case classNames =>
    intro c hc
    obtain ⟨object, print, noVar, noFunction⟩ := h.classNames c (classes.mem_iff.2 hc)
    rw [(vars.map _).mem_iff] at noVar
    rw [(functions.map _).mem_iff] at noFunction
    exact ⟨object, print, noVar, noFunction⟩
  case functionNames => exact fun f hf => h.functionNames f (functions.mem_iff.2 hf)
  case varNames => exact fun v hv => h.varNames v (vars.mem_iff.2 hv)
  case vars => exact fun v hv => (h.vars v (vars.mem_iff.2 hv)).mono within
  case functions => exact fun f hf => (h.functions f (functions.mem_iff.2 hf)).mono within
  case classes => exact fun c hc => (h.classes c (classes.mem_iff.2 hc)).mono within

theorem IsTyped.perm (perm : p.defs.Perm p'.defs) (same : p.stmts = p'.stmts) (h : p.IsTyped) :
    p'.IsTyped := by
  have within : p.defs ⊆ p'.defs := perm.subset
  have back : p'.defs ⊆ p.defs := perm.symm.subset
  have function : ∀ {f : FunDef}, f.IsTyped p → f.IsTyped p' := fun typed =>
    typed.mono within fun x hx isClass => typed.noClass x hx (isClass.mono back)
  constructor
  case declared => exact h.declared.perm perm
  case functions => exact fun f hf => function (h.functions f (functions_mono back hf))
  case methods => exact fun c hc m hm => function (h.methods c (classes_mono back hc) m hm)
  case stmts => exact fun s hs => (h.stmts s (same ▸ hs)).mono within

/-- Programs with the same statements and the same definitions in another order are both accepted or
both refused. Checking writes the same types into their statements, and into a definition it writes
types that do not depend on where the definition stands. -/
theorem check_of_perm {p p' : Program} (perm : p.defs.Perm p'.defs) (same : p.stmts = p'.stmts) :
    ((∃ q, p.check = .ok q) ↔ ∃ q', p'.check = .ok q') ∧
      ∀ q q', p.check = .ok q → p'.check = .ok q' →
        q.stmts = q'.stmts ∧
          (∃ annotate : Def → Def, q.defs = p.defs.map annotate ∧ q'.defs = p'.defs.map annotate) ∧
          (∀ i j : Nat, p.defs[i]? = p'.defs[j]? → q.defs[i]? = q'.defs[j]?) ∧
          q.defs.Perm q'.defs := by
  constructor
  · rw [← isTyped_iff, ← isTyped_iff]
    exact ⟨IsTyped.perm perm same, IsTyped.perm perm.symm same.symm⟩
  · intro q q' h h'
    obtain ⟨stmts, annotated⟩ := check_mono perm.subset same h h'
    have defs : q.defs = p.defs.map p.annotated := defs_of_check h
    have defs' : q'.defs = p'.defs.map p.annotated := by
      rw [defs_of_check h']
      exact List.map_congr_left fun d hd => annotated d (perm.mem_iff.2 hd)
    refine ⟨stmts, ⟨p.annotated, defs, defs'⟩, fun i j place => ?_, ?_⟩
    · rw [defs, defs', List.getElem?_map, List.getElem?_map, place]
    · rw [defs, defs']
      exact perm.map _

/-- The definitions of a program whose function comes before its class may be turned around. -/
theorem check_forward_reverse : ∃ q q', forward.check = .ok q ∧
    check ⟨forward.defs.reverse, forward.stmts⟩ = .ok q' ∧
    q.stmts = q'.stmts ∧ q.defs[1]? = q'.defs[1]? := by
  have perm : forward.defs.Perm (mk forward.defs.reverse forward.stmts).defs :=
    (List.reverse_perm _).symm
  obtain ⟨accepted, annotations⟩ := check_of_perm perm rfl
  have isOk : forward.check.isOk = true := by decide
  cases checked : forward.check with
  | error e =>
    rw [checked] at isOk
    cases isOk
  | ok q =>
    obtain ⟨q', checked'⟩ := accepted.1 ⟨q, checked⟩
    obtain ⟨stmts, -, defs, -⟩ := annotations q q' checked checked'
    exact ⟨q, q', rfl, checked', stmts, defs 1 1 rfl⟩

end Program

/-! ## §5 One more definition -/

namespace Program

/-- A program with one more definition, which stands at a place among the others. -/
def insert (p : Program) (i : Nat) (d : Def) : Program := { p with defs := p.defs.insertIdx i d }

/-- One more definition leaves the types that are written into the other definitions and into the
statements as they are. -/
theorem check_insert {i : Nat} {d : Def} {q q' : Program} (h : p.check = .ok q)
    (h' : (p.insert i d).check = .ok q') : q' = q.insert i ((p.insert i d).annotated d) := by
  have within : p.defs ⊆ (p.insert i d).defs := List.subset_insertIdx _ _ _
  obtain ⟨stmts, annotated⟩ := check_mono within rfl h h'
  have defs : q'.defs = q.defs.insertIdx i ((p.insert i d).annotated d) := by
    rw [defs_of_check h', defs_of_check h, ← List.map_congr_left annotated]
    exact List.map_insertIdx _ _ _ _
  obtain ⟨defs', stmts'⟩ := q'
  obtain rfl : stmts' = q.stmts := stmts.symm
  obtain rfl : defs' = _ := defs
  rfl

end Program

end Serpent
