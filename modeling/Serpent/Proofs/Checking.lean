/-
Serpent.Proofs.Checking — checking decides whether a program is well typed.

A form is checked without an error exactly if it is well typed (§1 to §3), and it is checked to
itself exactly if moreover every expression in it has its type written into it (§4). Since checking
does not look at written types, the checked program is the only one that differs from the program by
written types and has them all right (§5).

  §1 Expressions
  §2 Statements
  §3 Programs
  §4 Written types
  §5 The checked program
-/
import Serpent.Proofs.Erasure
import Serpent.Proofs.Names

namespace Serpent

open Fallible

variable {p : Program} {site : Site} {Γ : Context}

namespace Context.Means

/-! ## §1 Expressions -/

theorem accepts_iff {args : List Expr} {params : List Ty}
    (ih : ∀ a ∈ args, ∀ {t}, HasType p site a t ↔ ∃ a', Γ.expr a = .ok (a', t)) :
    Accepts p site args params ↔ ∃ args', Γ.Passes args params args' := by
  induction args generalizing params with
  | nil =>
    constructor
    · rintro ⟨⟩
      exact ⟨[], .nil⟩
    · rintro ⟨_, ⟨⟩⟩
      exact .nil
  | cons a args ihargs =>
    rw [List.forall_mem_cons] at ih
    constructor
    · intro h
      cases h with
      | cons first fits rest =>
        obtain ⟨a', ha⟩ := ih.1.1 first
        obtain ⟨args', hargs⟩ := (ihargs ih.2).1 rest
        exact ⟨a' :: args', .cons ha fits hargs⟩
    · rintro ⟨_, h⟩
      cases h with
      | cons first fits rest =>
        exact .cons (ih.1.2 ⟨_, first⟩) fits ((ihargs ih.2).2 ⟨_, rest⟩)

/-- An expression has a type exactly if checking finds it. -/
theorem hasType_iff (means : Γ.Means p site) {e : Expr} {t : Ty} :
    HasType p site e t ↔ ∃ e', Γ.expr e = .ok (e', t) := by
  induction e generalizing t with
  | literal a v =>
    constructor
    · rintro ⟨⟩
      exact ⟨_, expr_literal.2 ⟨rfl, rfl⟩⟩
    · rintro ⟨_, h⟩
      obtain ⟨rfl, -⟩ := expr_literal.1 h
      exact .literal a v
  | var a x =>
    constructor
    · intro h
      cases h with
      | var _ found => exact ⟨_, expr_var.2 ⟨means.vars.2 found, rfl⟩⟩
    · rintro ⟨_, h⟩
      exact .var a (means.vars.1 (expr_var.1 h).1)
  | unary a op e ih =>
    constructor
    · intro h
      cases h with
      | unary _ operand takes =>
        obtain ⟨e₁, he⟩ := ih.1 operand
        exact ⟨_, expr_unary.2 ⟨e₁, _, he, takes, rfl⟩⟩
    · rintro ⟨_, h⟩
      obtain ⟨e₁, u, operand, takes, -⟩ := expr_unary.1 h
      exact .unary a (ih.2 ⟨e₁, operand⟩) takes
  | binary a op l r ihl ihr =>
    constructor
    · intro h
      cases h with
      | binary _ left right takes =>
        obtain ⟨l₁, hl⟩ := ihl.1 left
        obtain ⟨r₁, hr⟩ := ihr.1 right
        exact ⟨_, expr_binary.2 ⟨l₁, _, r₁, _, hl, hr, takes, rfl⟩⟩
    · rintro ⟨_, h⟩
      obtain ⟨l₁, u, r₁, v, left, right, takes, -⟩ := expr_binary.1 h
      exact .binary a (ihl.2 ⟨l₁, left⟩) (ihr.2 ⟨r₁, right⟩) takes
  | call a f args ih =>
    constructor
    · intro h
      cases h with
      | print _ argument =>
        obtain ⟨e₁, he⟩ := (ih _ (by simp)).1 argument
        exact ⟨_, expr_print.2 ⟨_, e₁, _, rfl, he, rfl, rfl⟩⟩
      | call _ other found arguments =>
        obtain ⟨args', passes⟩ := (accepts_iff ih).1 arguments
        exact ⟨_, (expr_call other).2 (.inl ⟨_, args', means.functions.2 ⟨_, found, rfl⟩, passes,
          rfl, rfl⟩)⟩
      | construct _ other found =>
        exact ⟨_, (expr_call other).2 (.inr ⟨means.apart found, means.classes.2 found, rfl, rfl,
          rfl⟩)⟩
    · rintro ⟨_, h⟩
      by_cases isPrint : f = printFunction
      · subst isPrint
        obtain ⟨e, e₁, u, rfl, argument, rfl, -⟩ := expr_print.1 h
        exact .print a ((ih e (by simp)).2 ⟨e₁, argument⟩)
      · rcases (expr_call isPrint).1 h with ⟨sig, args', found, passes, rfl, -⟩ |
          ⟨-, known, rfl, rfl, -⟩
        · obtain ⟨d, hd, rfl⟩ := means.functions.1 found
          exact .call a isPrint hd ((accepts_iff ih).2 ⟨args', passes⟩)
        · exact .construct a isPrint (means.classes.1 known)
  | field a o x ih =>
    constructor
    · intro h
      cases h with
      | field _ receiver found =>
        obtain ⟨o₁, ho⟩ := ih.1 receiver
        exact ⟨_, expr_field.2 ⟨o₁, _, ho, means.fields.2 found, rfl⟩⟩
    · rintro ⟨_, h⟩
      obtain ⟨o₁, c, receiver, found, -⟩ := expr_field.1 h
      exact .field a (ih.2 ⟨o₁, receiver⟩) (means.fields.1 found)
  | method a o x args ih ihargs =>
    constructor
    · intro h
      cases h with
      | method _ receiver found arguments =>
        obtain ⟨o₁, ho⟩ := ih.1 receiver
        obtain ⟨args', passes⟩ := (accepts_iff ihargs).1 arguments
        exact ⟨_, expr_method.2 ⟨o₁, _, _, args', ho, means.methods.2 ⟨_, found, rfl⟩, passes, rfl,
          rfl⟩⟩
    · rintro ⟨_, h⟩
      obtain ⟨o₁, c, sig, args', receiver, found, passes, rfl, -⟩ := expr_method.1 h
      obtain ⟨m, hm, rfl⟩ := means.methods.1 found
      exact .method a (ih.2 ⟨o₁, receiver⟩) hm ((accepts_iff ihargs).2 ⟨args', passes⟩)

/-! ## §2 Statements -/

theorem target_iff (means : Γ.Means p site) {target : Target} {t : Ty} :
    target.HasType p site t ↔ ∃ target', Γ.target target = .ok (target', t) := by
  cases target with
  | var x =>
    constructor
    · intro h
      cases h with
      | own own =>
        exact ⟨_, target_var.2 ⟨means.vars.2 (.own own), means.own.2 (.inr (Site.mem_names own)), rfl⟩⟩
      | global hv outside =>
        subst outside
        exact ⟨_, target_var.2 ⟨means.vars.2 (.global hv (by simp [Site.names, Site.vars])),
          means.own.2 (.inl rfl), rfl⟩⟩
    · rintro ⟨_, h⟩
      obtain ⟨found, own, -⟩ := target_var.1 h
      cases means.vars.1 found with
      | own own => exact .own own
      | global hv seen => exact .global hv ((means.own.1 own).resolve_right seen)
  | member o x =>
    constructor
    · intro h
      cases h with
      | member receiver found =>
        obtain ⟨o₁, ho⟩ := means.hasType_iff.1 receiver
        exact ⟨_, target_member.2 ⟨o₁, _, ho, means.fields.2 found, rfl⟩⟩
    · rintro ⟨_, h⟩
      obtain ⟨o₁, c, receiver, found, -⟩ := target_member.1 h
      exact .member (means.hasType_iff.2 ⟨o₁, receiver⟩) (means.fields.1 found)

theorem block_iff {ss : List Stmt} (each : ∀ s ∈ ss, s.IsTyped p site ↔ ∃ s', Γ.stmt s = .ok s') :
    (∀ s ∈ ss, s.IsTyped p site) ↔ ∃ ss', Γ.block ss = .ok ss' := by
  simp only [block_eq_ok, exists_forall₂_iff]
  exact forall₂_congr each

/-- A statement is well typed exactly if it is checked without an error. -/
theorem isTyped_iff (means : Γ.Means p site) {s : Stmt} :
    s.IsTyped p site ↔ ∃ s', Γ.stmt s = .ok s' := by
  induction s with
  | pass => exact ⟨fun _ => ⟨_, stmt_pass.2 rfl⟩, fun _ => .pass⟩
  | assign target e =>
    constructor
    · intro h
      cases h with
      | assign place value fits =>
        obtain ⟨target', htarget⟩ := means.target_iff.1 place
        obtain ⟨e', he⟩ := means.hasType_iff.1 value
        exact ⟨_, stmt_assign.2 ⟨target', _, e', _, htarget, he, fits, rfl⟩⟩
    · rintro ⟨_, h⟩
      obtain ⟨target', expected, e', found, htarget, he, fits, -⟩ := stmt_assign.1 h
      exact .assign (means.target_iff.2 ⟨target', htarget⟩) (means.hasType_iff.2 ⟨e', he⟩) fits
  | expr e =>
    constructor
    · intro h
      cases h with
      | expr value =>
        obtain ⟨e', he⟩ := means.hasType_iff.1 value
        exact ⟨_, stmt_expr.2 ⟨e', _, he, rfl⟩⟩
    · rintro ⟨_, h⟩
      obtain ⟨e', t, he, -⟩ := stmt_expr.1 h
      exact .expr (means.hasType_iff.2 ⟨e', he⟩)
  | return_ e =>
    have result := means.result
    constructor
    · intro h
      cases h with
      | return_ inside value fits =>
        subst inside
        obtain ⟨e', he⟩ := means.hasType_iff.1 value
        obtain ⟨frame, hframe, same⟩ := Option.map_eq_some_iff.1 result
        exact ⟨_, stmt_return.2 ⟨frame, e', _, hframe, he, same ▸ fits, rfl⟩⟩
    · rintro ⟨_, h⟩
      obtain ⟨frame, e', t, hframe, he, fits, -⟩ := stmt_return.1 h
      rw [hframe] at result
      obtain ⟨f, inside, same⟩ := Option.map_eq_some_iff.1 result.symm
      exact .return_ inside (means.hasType_iff.2 ⟨e', he⟩) (same ▸ fits)
  | while_ c body ih =>
    constructor
    · intro h
      cases h with
      | while_ condition round =>
        obtain ⟨c', hc⟩ := means.hasType_iff.1 condition
        obtain ⟨body', hbody⟩ := (block_iff ih).1 round
        exact ⟨_, stmt_while.2 ⟨c', body', hc, hbody, rfl⟩⟩
    · rintro ⟨_, h⟩
      obtain ⟨c', body', hc, hbody, -⟩ := stmt_while.1 h
      exact .while_ (means.hasType_iff.2 ⟨c', hc⟩) ((block_iff ih).2 ⟨body', hbody⟩)
  | if_ c body elif orElse ihbody ihelif ihelse =>
    constructor
    · intro h
      cases h with
      | if_ condition yes conditions maybe no =>
        obtain ⟨c', hc⟩ := means.hasType_iff.1 condition
        obtain ⟨body', hbody⟩ := (block_iff ihbody).1 yes
        have clause : ∃ elif' : Option (Expr × List Stmt), Option.Rel (fun d d' =>
            Γ.expr d.1 = .ok (d'.1, .bool) ∧ Γ.block d.2 = .ok d'.2) elif elif' := by
          rcases elif with _ | d
          · exact ⟨none, .none⟩
          · obtain ⟨d', hd⟩ := means.hasType_iff.1 (conditions d rfl)
            obtain ⟨other', hother⟩ := (block_iff (ihelif d rfl)).1 (maybe d rfl)
            exact ⟨some (d', other'), .some ⟨hd, hother⟩⟩
        have last : ∃ orElse', Option.Rel (fun b b' => Γ.block b = .ok b') orElse orElse' := by
          rcases orElse with _ | b
          · exact ⟨none, .none⟩
          · obtain ⟨b', hb⟩ := (block_iff (ihelse b rfl)).1 (no b rfl)
            exact ⟨some b', .some hb⟩
        obtain ⟨elif', helif⟩ := clause
        obtain ⟨orElse', horElse⟩ := last
        exact ⟨_, stmt_if.2 ⟨c', body', elif', orElse', hc, hbody, helif, horElse, rfl⟩⟩
    · rintro ⟨_, h⟩
      obtain ⟨c', body', elif', orElse', hc, hbody, helif, horElse, -⟩ := stmt_if.1 h
      refine .if_ (means.hasType_iff.2 ⟨c', hc⟩) ((block_iff ihbody).2 ⟨body', hbody⟩) ?_ ?_ ?_
      · rintro d ⟨⟩
        cases helif with
        | some hd => exact means.hasType_iff.2 ⟨_, hd.1⟩
      · rintro d ⟨⟩
        cases helif with
        | some hd => exact (block_iff (ihelif d rfl)).2 ⟨_, hd.2⟩
      · rintro b ⟨⟩
        cases horElse with
        | some hb => exact (block_iff (ihelse b rfl)).2 ⟨_, hb⟩

end Context.Means

/-! ## §3 Programs -/

/-- The context in which the body of a function is checked, with all that its names mean. -/
theorem Program.IsDeclared.means_of_function (h : p.IsDeclared) {f : FunDef}
    (distinct : (f.vars.map (·.1)).Nodup) (noClass : ∀ x ∈ f.vars.map (·.1), ¬p.IsClass x)
    (label : String) :
    Context.Means { p.names with frame := some ⟨label, f.result, f.bindings⟩ } p (some f) :=
  h.means label (some f) distinct noClass

theorem Program.IsDeclared.function_eq_ok (h : p.IsDeclared) {label : String} {f f' : FunDef} :
    p.names.function label f = .ok f' ↔
      f.IsTyped p ∧ ∃ body,
        Context.block { p.names with frame := some ⟨label, f.result, f.bindings⟩ } f.body = .ok body ∧
        f' = { f with body } := by
  have names : ∀ x, p.names.classes.has x = false ↔ ¬p.IsClass x := by
    intro x
    rw [← Bool.not_eq_true]
    exact not_congr has_table
  have returns : Stmt.anyReturns f.body = true ↔ ∃ s ∈ f.body, s.Returns := by
    simp only [Stmt.anyReturns_iff, Stmt.returns_iff]
  rw [Context.function_eq_ok]
  constructor
  · rintro ⟨scope, body, hscope, hbody, path, rfl⟩
    obtain ⟨rfl, distinct, noClass, locals⟩ := FunDef.scope_eq_ok.1 hscope
    rw [← f.keys_vars] at distinct noClass
    have noClass : ∀ x ∈ f.vars.map (·.1), ¬p.IsClass x := fun x hx => (names x).1 (noClass x hx)
    have means := h.means_of_function distinct noClass label
    refine ⟨⟨?_, distinct, noClass, ?_, fun some => returns.1 (path some)⟩, body, hbody, rfl⟩
    · exact fun v hv => ⟨requireType_table.1 (locals v hv).2, (locals v hv).1⟩
    · exact (Context.Means.block_iff fun s _ => means.isTyped_iff).2 ⟨body, hbody⟩
  · rintro ⟨typed, body, hbody, rfl⟩
    refine ⟨f.bindings, body, FunDef.scope_eq_ok.2 ⟨rfl, ?_, ?_, ?_⟩, hbody,
      fun some => returns.2 (typed.returns some), rfl⟩
    · exact f.keys_vars ▸ typed.distinct
    · exact fun x hx => (names x).2 (typed.noClass x (f.keys_vars ▸ hx))
    · exact fun v hv => ⟨(typed.locals v hv).value, requireType_table.2 (typed.locals v hv).ty⟩

/-- A function is checked without an error exactly if it is well typed. -/
theorem Program.IsDeclared.isTyped_function_iff (h : p.IsDeclared) (label : String) {f : FunDef} :
    f.IsTyped p ↔ ∃ f', p.names.function label f = .ok f' := by
  constructor
  · intro typed
    have means := h.means_of_function typed.distinct typed.noClass label
    obtain ⟨body, hbody⟩ := (Context.Means.block_iff fun s _ => means.isTyped_iff).1 typed.body
    exact ⟨_, h.function_eq_ok.2 ⟨typed, body, hbody, rfl⟩⟩
  · rintro ⟨f', hf⟩
    exact (h.function_eq_ok.1 hf).1

/-- A definition is checked without an error exactly if the functions in it are well typed. -/
theorem Program.IsDeclared.definition_iff (h : p.IsDeclared) {d : Def} :
    (∃ d', p.names.definition d = .ok d') ↔
      (∀ f, d = .function f → f.IsTyped p) ∧
        ∀ c, d = .class_ c → ∀ m ∈ c.methods, m.IsTyped p := by
  cases d with
  | var v => simp [Context.definition]
  | function f =>
    simp only [Def.function.injEq, forall_eq', reduceCtorEq, false_imp_iff, implies_true, and_true]
    rw [h.isTyped_function_iff f.name]
    constructor
    · rintro ⟨_, hd⟩
      obtain ⟨f', hf, -⟩ := bind_eq_ok.1 hd
      exact ⟨f', hf⟩
    · rintro ⟨f', hf⟩
      exact ⟨_, bind_eq_ok.2 ⟨f', hf, rfl⟩⟩
  | class_ c =>
    simp only [Def.class_.injEq, forall_eq', reduceCtorEq, false_imp_iff, implies_true, true_and]
    have methods : (∀ m ∈ c.methods, m.IsTyped p) ↔ ∃ methods, c.methods.mapM
        (fun m => p.names.function (c.name ++ "." ++ m.name) m) = .ok methods := by
      simp only [mapM_eq_ok, exists_forall₂_iff]
      exact forall₂_congr fun m _ => h.isTyped_function_iff _
    rw [methods]
    constructor
    · rintro ⟨_, hd⟩
      obtain ⟨ms, hms, -⟩ := bind_eq_ok.1 hd
      exact ⟨ms, hms⟩
    · rintro ⟨ms, hms⟩
      exact ⟨_, bind_eq_ok.2 ⟨ms, hms, rfl⟩⟩

theorem Program.check_eq_ok {p q : Program} : p.check = .ok q ↔
    p.IsDeclared ∧ List.Forall₂ (fun d d' => p.names.definition d = .ok d') p.defs q.defs ∧
      p.names.block p.stmts = .ok q.stmts := by
  constructor
  · intro h
    obtain ⟨Γ, hΓ, h⟩ := bind_eq_ok.1 h
    obtain ⟨rfl, declared⟩ := context_eq_ok.1 hΓ
    obtain ⟨defs, hdefs, h⟩ := bind_eq_ok.1 h
    obtain ⟨stmts, hstmts, h⟩ := bind_eq_ok.1 h
    cases h
    exact ⟨declared, mapM_eq_ok.1 hdefs, hstmts⟩
  · rintro ⟨declared, hdefs, hstmts⟩
    exact bind_eq_ok.2 ⟨_, context_eq_ok.2 ⟨rfl, declared⟩, bind_eq_ok.2 ⟨_, mapM_eq_ok.2 hdefs,
      bind_eq_ok.2 ⟨_, hstmts, rfl⟩⟩⟩

theorem Program.IsDeclared.means_outside (h : p.IsDeclared) : p.names.Means p none :=
  h.means "" none List.nodup_nil (by simp [Site.names, Site.vars])

/-- A program is well typed exactly if it is checked without an error. -/
theorem Program.isTyped_iff : p.IsTyped ↔ ∃ q, p.check = .ok q := by
  constructor
  · intro h
    have declared := h.declared
    have defs : ∃ defs, List.Forall₂ (fun d d' => p.names.definition d = .ok d') p.defs defs := by
      rw [exists_forall₂_iff]
      intro d hd
      rw [declared.definition_iff]
      constructor
      · rintro f rfl
        exact h.functions f (mem_functions.2 hd)
      · rintro c rfl
        exact h.methods c (mem_classes.2 hd)
    obtain ⟨defs, hdefs⟩ := defs
    obtain ⟨stmts, hstmts⟩ :=
      (Context.Means.block_iff fun s _ => declared.means_outside.isTyped_iff).1 h.stmts
    exact ⟨⟨defs, stmts⟩, check_eq_ok.2 ⟨declared, hdefs, hstmts⟩⟩
  · rintro ⟨q, h⟩
    obtain ⟨declared, hdefs, hstmts⟩ := check_eq_ok.1 h
    have each : ∀ d ∈ p.defs, ∃ d', p.names.definition d = .ok d' :=
      exists_forall₂_iff.1 ⟨_, hdefs⟩
    constructor
    case declared => exact declared
    case functions =>
      exact fun f hf => (declared.definition_iff.1 (each _ (mem_functions.1 hf))).1 f rfl
    case methods =>
      exact fun c hc => (declared.definition_iff.1 (each _ (mem_classes.1 hc))).2 c rfl
    case stmts =>
      exact (Context.Means.block_iff fun s _ => declared.means_outside.isTyped_iff).2 ⟨_, hstmts⟩

/-! ## §4 Written types -/

theorem Expr.mem_allParts {s : Expr} {es : List Expr} : s ∈ allParts es ↔ ∃ e ∈ es, s ∈ e.parts := by
  induction es with
  | nil => simp [allParts]
  | cons e es ih => simp [allParts, ih]

theorem Stmt.mem_allParts {e : Expr} {ss : List Stmt} : e ∈ allParts ss ↔ ∃ s ∈ ss, e ∈ s.parts := by
  induction ss with
  | nil => simp [allParts]
  | cons s ss ih => simp [allParts, ih]

theorem Stmt.mem_parts_if {e c : Expr} {body : List Stmt} {elif : Option (Expr × List Stmt)}
    {orElse : Option (List Stmt)} : e ∈ (Stmt.if_ c body elif orElse).parts ↔
      e ∈ c.parts ∨ e ∈ allParts body ∨ (∃ d ∈ elif, e ∈ d.1.parts ∨ e ∈ allParts d.2) ∨
        ∃ b ∈ orElse, e ∈ allParts b := by
  rcases elif with _ | ⟨d, other⟩ <;> rcases orElse with _ | orElse <;> simp [parts, or_assoc]

namespace Context

/-- Checking writes the type of an expression into it. -/
theorem ty?_of_expr {e e' : Expr} {t : Ty} (h : Γ.expr e = .ok (e', t)) : e'.ty? = some t := by
  cases e with
  | literal a v =>
    obtain ⟨rfl, rfl⟩ := expr_literal.1 h
    rfl
  | var a x =>
    obtain ⟨-, rfl⟩ := expr_var.1 h
    rfl
  | unary a op e =>
    obtain ⟨_, _, -, -, rfl⟩ := expr_unary.1 h
    rfl
  | binary a op l r =>
    obtain ⟨_, _, _, _, -, -, -, rfl⟩ := expr_binary.1 h
    rfl
  | call a f args =>
    by_cases isPrint : f = printFunction
    · subst isPrint
      obtain ⟨_, _, _, -, -, rfl, rfl⟩ := expr_print.1 h
      rfl
    · rcases (expr_call isPrint).1 h with ⟨_, _, -, -, -, rfl⟩ | ⟨-, -, -, -, rfl⟩
      · rfl
      · rfl
  | field a o x =>
    obtain ⟨_, _, -, -, rfl⟩ := expr_field.1 h
    rfl
  | method a o x args =>
    obtain ⟨_, _, _, _, -, -, -, -, rfl⟩ := expr_method.1 h
    rfl

namespace Means

/-- An expression that is checked to itself has its type written into it. -/
theorem holdsType_of_self (means : Γ.Means p site) {e : Expr} {t : Ty}
    (h : Γ.expr e = .ok (e, t)) : e.HoldsType p site :=
  ⟨t, ty?_of_expr h, means.hasType_iff.2 ⟨e, h⟩⟩

theorem passes_self {args args' : List Expr} {params : List Ty} (h : Γ.Passes args params args')
    (each : ∀ a ∈ args, ∀ a' t, Γ.expr a = .ok (a', t) → a' = a) : args' = args := by
  induction h with
  | nil => rfl
  | cons first fits rest ih =>
    rw [List.forall_mem_cons] at each
    rw [each.1 _ _ first, ih each.2]

/-- Where all types are written, checking changes nothing. -/
theorem expr_self (means : Γ.Means p site) {e e' : Expr} {t : Ty}
    (holds : ∀ s ∈ e.parts, s.HoldsType p site) (h : Γ.expr e = .ok (e', t)) : e' = e := by
  -- what is written at the root is the type that checking finds
  have root : ∀ {e : Expr}, e.HoldsType p site → ∀ {e' t}, Γ.expr e = .ok (e', t) →
      e.ty? = some t := by
    rintro e ⟨u, written, typed⟩ e' t h
    obtain ⟨_, found⟩ := means.hasType_iff.1 typed
    cases found.symm.trans h
    exact written
  induction e generalizing e' t with
  | literal a v =>
    have written := root (holds _ (by simp [Expr.parts])) h
    obtain ⟨-, rfl⟩ := expr_literal.1 h
    rw [← written]
    rfl
  | var a x =>
    have written := root (holds _ (by simp [Expr.parts])) h
    obtain ⟨-, rfl⟩ := expr_var.1 h
    rw [← written]
    rfl
  | unary a op e ih =>
    simp only [Expr.parts, List.forall_mem_cons] at holds
    have written := root holds.1 h
    obtain ⟨e₁, u, operand, -, rfl⟩ := expr_unary.1 h
    rw [ih holds.2 operand, ← written]
    rfl
  | binary a op l r ihl ihr =>
    simp only [Expr.parts, List.forall_mem_cons, List.forall_mem_append] at holds
    have written := root holds.1 h
    obtain ⟨l₁, u, r₁, v, left, right, -, rfl⟩ := expr_binary.1 h
    rw [ihl holds.2.1 left, ihr holds.2.2 right, ← written]
    rfl
  | call a f args ih =>
    simp only [Expr.parts, List.forall_mem_cons] at holds
    have written := root holds.1 h
    have each : ∀ b ∈ args, ∀ b' u, Γ.expr b = .ok (b', u) → b' = b := fun b hb b' u =>
      ih b hb fun s hs => holds.2 s (Expr.mem_allParts.2 ⟨b, hb, hs⟩)
    by_cases isPrint : f = printFunction
    · subst isPrint
      obtain ⟨e, e₁, u, rfl, argument, rfl, rfl⟩ := expr_print.1 h
      rw [each e (by simp) e₁ u argument, ← written]
      rfl
    · rcases (expr_call isPrint).1 h with ⟨sig, args', -, passes, -, rfl⟩ | ⟨-, -, rfl, -, rfl⟩
      · rw [passes_self passes each, ← written]
        rfl
      · rw [← written]
        rfl
  | field a o x ih =>
    simp only [Expr.parts, List.forall_mem_cons] at holds
    have written := root holds.1 h
    obtain ⟨o₁, c, receiver, -, rfl⟩ := expr_field.1 h
    rw [ih holds.2 receiver, ← written]
    rfl
  | method a o x args ih ihargs =>
    simp only [Expr.parts, List.forall_mem_cons, List.forall_mem_append] at holds
    have written := root holds.1 h
    obtain ⟨o₁, c, sig, args', receiver, -, passes, -, rfl⟩ := expr_method.1 h
    have each : ∀ b ∈ args, ∀ b' u, Γ.expr b = .ok (b', u) → b' = b := fun b hb b' u =>
      ihargs b hb fun s hs => holds.2.2 s (Expr.mem_allParts.2 ⟨b, hb, hs⟩)
    rw [ih holds.2.1 receiver, passes_self passes each, ← written]
    rfl

theorem target_self (means : Γ.Means p site) {target target' : Target} {t : Ty}
    (holds : ∀ e ∈ target.parts, e.HoldsType p site) (h : Γ.target target = .ok (target', t)) :
    target' = target := by
  cases target with
  | var x => exact (target_var.1 h).2.2
  | member o x =>
    obtain ⟨o₁, c, receiver, -, rfl⟩ := target_member.1 h
    rw [means.expr_self holds receiver]

theorem block_self {ss ss' : List Stmt} (h : Γ.block ss = .ok ss')
    (each : ∀ s ∈ ss, ∀ s', Γ.stmt s = .ok s' → s' = s) : ss' = ss := by
  have checked := block_eq_ok.1 h
  clear h
  induction checked with
  | nil => rfl
  | cons first rest ih =>
    rw [List.forall_mem_cons] at each
    rw [each.1 _ first, ih each.2]

theorem stmt_self (means : Γ.Means p site) {s s' : Stmt}
    (holds : ∀ e ∈ s.parts, e.HoldsType p site) (h : Γ.stmt s = .ok s') : s' = s := by
  induction s generalizing s' with
  | pass => exact stmt_pass.1 h
  | assign target e =>
    rw [Stmt.parts, List.forall_mem_append] at holds
    obtain ⟨target', _, e', _, htarget, he, -, rfl⟩ := stmt_assign.1 h
    rw [means.target_self holds.1 htarget, means.expr_self holds.2 he]
  | expr e =>
    obtain ⟨e', t, he, rfl⟩ := stmt_expr.1 h
    rw [means.expr_self holds he]
  | return_ e =>
    obtain ⟨_, e', t, -, he, -, rfl⟩ := stmt_return.1 h
    rw [means.expr_self holds he]
  | while_ c body ih =>
    rw [Stmt.parts, List.forall_mem_append] at holds
    obtain ⟨c', body', hc, hbody, rfl⟩ := stmt_while.1 h
    rw [means.expr_self holds.1 hc, block_self hbody fun s hs s' =>
      ih s hs fun e he => holds.2 e (Stmt.mem_allParts.2 ⟨s, hs, he⟩)]
  | if_ c body elif orElse ihbody ihelif ihelse =>
    simp only [Stmt.mem_parts_if] at holds
    obtain ⟨c', body', elif', orElse', hc, hbody, helif, horElse, rfl⟩ := stmt_if.1 h
    have yes : body' = body := block_self hbody fun s hs s' =>
      ihbody s hs fun e he => holds e (.inr (.inl (Stmt.mem_allParts.2 ⟨s, hs, he⟩)))
    have maybe : elif' = elif := by
      cases helif with
      | none => rfl
      | @some d d' hd =>
        have condition : d'.1 = d.1 :=
          means.expr_self (fun e he => holds e (.inr (.inr (.inl ⟨d, rfl, .inl he⟩)))) hd.1
        have body : d'.2 = d.2 := block_self hd.2 fun s hs s' => ihelif d rfl s hs fun e he =>
          holds e (.inr (.inr (.inl ⟨d, rfl, .inr (Stmt.mem_allParts.2 ⟨s, hs, he⟩)⟩)))
        exact congrArg some (Prod.ext condition body)
    have no : orElse' = orElse := by
      cases horElse with
      | none => rfl
      | @some b b' hb =>
        exact congrArg some (block_self hb fun s hs s' => ihelse b rfl s hs fun e he =>
          holds e (.inr (.inr (.inr ⟨b, rfl, Stmt.mem_allParts.2 ⟨s, hs, he⟩⟩))))
    rw [means.expr_self (fun e he => holds e (.inl he)) hc, yes, maybe, no]

end Means

/-- An expression is checked to itself. -/
def Settled (Γ : Context) (e : Expr) : Prop := ∃ t, Γ.expr e = .ok (e, t)

theorem Passes.settled {args : List Expr} {params : List Ty} (h : Γ.Passes args params args) :
    ∀ a ∈ args, Γ.Settled a := by
  induction args generalizing params with
  | nil => simp
  | cons a args ih =>
    cases h with
    | cons first fits rest => exact List.forall_mem_cons.2 ⟨⟨_, first⟩, ih rest⟩

/-- If an expression is checked to itself then so is every expression inside of it. -/
theorem Settled.parts {e : Expr} (h : Γ.Settled e) : ∀ s ∈ e.parts, Γ.Settled s := by
  have all : ∀ {es : List Expr}, (∀ e ∈ es, Γ.Settled e → ∀ s ∈ e.parts, Γ.Settled s) →
      (∀ e ∈ es, Γ.Settled e) → ∀ s ∈ Expr.allParts es, Γ.Settled s := by
    intro es ih settled s hs
    obtain ⟨e, he, mem⟩ := Expr.mem_allParts.1 hs
    exact ih e he (settled e he) s mem
  induction e with
  | literal a v =>
    simp only [Expr.parts, List.mem_singleton, forall_eq]
    exact h
  | var a x =>
    simp only [Expr.parts, List.mem_singleton, forall_eq]
    exact h
  | unary a op e ih =>
    rw [Expr.parts, List.forall_mem_cons]
    refine ⟨h, ?_⟩
    obtain ⟨t, checked⟩ := h
    obtain ⟨_, u, operand, -, same⟩ := expr_unary.1 checked
    cases same
    exact ih ⟨u, operand⟩
  | binary a op l r ihl ihr =>
    rw [Expr.parts, List.forall_mem_cons, List.forall_mem_append]
    refine ⟨h, ?_⟩
    obtain ⟨t, checked⟩ := h
    obtain ⟨_, u, _, v, left, right, -, same⟩ := expr_binary.1 checked
    cases same
    exact ⟨ihl ⟨u, left⟩, ihr ⟨v, right⟩⟩
  | call a f args ih =>
    rw [Expr.parts, List.forall_mem_cons]
    refine ⟨h, all ih ?_⟩
    obtain ⟨t, checked⟩ := h
    by_cases isPrint : f = printFunction
    · subst isPrint
      obtain ⟨e, _, u, rfl, argument, -, same⟩ := expr_print.1 checked
      cases same
      simpa using ⟨u, argument⟩
    · rcases (expr_call isPrint).1 checked with ⟨sig, _, -, passes, -, same⟩ | ⟨-, -, rfl, -⟩
      · cases same
        exact passes.settled
      · simp
  | field a o x ih =>
    rw [Expr.parts, List.forall_mem_cons]
    refine ⟨h, ?_⟩
    obtain ⟨t, checked⟩ := h
    obtain ⟨_, c, receiver, -, same⟩ := expr_field.1 checked
    cases same
    exact ih ⟨_, receiver⟩
  | method a o x args ih ihargs =>
    rw [Expr.parts, List.forall_mem_cons, List.forall_mem_append]
    refine ⟨h, ?_⟩
    obtain ⟨t, checked⟩ := h
    obtain ⟨_, c, sig, _, receiver, -, passes, -, same⟩ := expr_method.1 checked
    cases same
    exact ⟨ih ⟨_, receiver⟩, all ihargs passes.settled⟩

theorem settled_of_block {ss : List Stmt}
    (each : ∀ s ∈ ss, Γ.stmt s = .ok s → ∀ e ∈ s.parts, Γ.Settled e)
    (h : Γ.block ss = .ok ss) : ∀ e ∈ Stmt.allParts ss, Γ.Settled e := by
  intro e he
  obtain ⟨s, hs, mem⟩ := Stmt.mem_allParts.1 he
  exact each s hs (List.forall₂_same.1 (block_eq_ok.1 h) s hs) e mem

theorem settled_of_stmt {s : Stmt} (h : Γ.stmt s = .ok s) : ∀ e ∈ s.parts, Γ.Settled e := by
  induction s with
  | pass => simp [Stmt.parts]
  | assign target e =>
    rw [Stmt.parts, List.forall_mem_append]
    obtain ⟨_, _, _, _, htarget, he, -, same⟩ := stmt_assign.1 h
    cases same
    refine ⟨?_, Settled.parts ⟨_, he⟩⟩
    cases target with
    | var x => simp [Target.parts]
    | member o x =>
      obtain ⟨_, c, receiver, -, same⟩ := target_member.1 htarget
      cases same
      exact Settled.parts ⟨_, receiver⟩
  | expr e =>
    obtain ⟨_, t, he, same⟩ := stmt_expr.1 h
    cases same
    exact Settled.parts ⟨t, he⟩
  | return_ e =>
    obtain ⟨_, _, t, -, he, -, same⟩ := stmt_return.1 h
    cases same
    exact Settled.parts ⟨t, he⟩
  | while_ c body ih =>
    rw [Stmt.parts, List.forall_mem_append]
    obtain ⟨_, _, hc, hbody, same⟩ := stmt_while.1 h
    cases same
    exact ⟨Settled.parts ⟨_, hc⟩, settled_of_block ih hbody⟩
  | if_ c body elif orElse ihbody ihelif ihelse =>
    intro e part
    obtain ⟨_, _, _, _, hc, hbody, helif, horElse, same⟩ := stmt_if.1 h
    cases same
    rcases Stmt.mem_parts_if.1 part with mem | mem | ⟨d, hd, mem⟩ | ⟨b, hb, mem⟩
    · exact Settled.parts ⟨_, hc⟩ e mem
    · exact settled_of_block ihbody hbody e mem
    · cases hd
      cases helif with
      | some hd =>
        rcases mem with mem | mem
        · exact Settled.parts ⟨_, hd.1⟩ e mem
        · exact settled_of_block (ihelif d rfl) hd.2 e mem
    · cases hb
      cases horElse with
      | some hb => exact settled_of_block (ihelse b rfl) hb e mem

/-- A body is checked to itself exactly if it is well typed and all types are written into it. -/
theorem Means.block_self_iff (means : Γ.Means p site) {ss : List Stmt} :
    Γ.block ss = .ok ss ↔
      (∀ s ∈ ss, s.IsTyped p site) ∧ ∀ e ∈ Stmt.allParts ss, e.HoldsType p site := by
  have typed : (∀ s ∈ ss, s.IsTyped p site) ↔ ∃ ss', Γ.block ss = .ok ss' :=
    block_iff fun s _ => means.isTyped_iff
  constructor
  · intro h
    refine ⟨typed.2 ⟨ss, h⟩, fun e he => ?_⟩
    obtain ⟨t, settled⟩ := settled_of_block (fun s _ => settled_of_stmt) h e he
    exact means.holdsType_of_self settled
  · rintro ⟨each, holds⟩
    obtain ⟨ss', h⟩ := typed.1 each
    have same : ss' = ss := block_self h fun s hs s' =>
      means.stmt_self fun e he => holds e (Stmt.mem_allParts.2 ⟨s, hs, he⟩)
    exact same ▸ h

end Context

/-! ## §5 The checked program -/

namespace Program

theorem IsDeclared.function_self_iff (h : p.IsDeclared) (label : String) {f : FunDef} :
    p.names.function label f = .ok f ↔
      f.IsTyped p ∧ ∀ e ∈ Stmt.allParts f.body, e.HoldsType p (some f) := by
  rw [h.function_eq_ok]
  refine and_congr_right fun typed => ?_
  have means := h.means_of_function typed.distinct typed.noClass label
  constructor
  · rintro ⟨body, hbody, same⟩
    have same : f.body = body := congrArg FunDef.body same
    rw [← same] at hbody
    exact (means.block_self_iff.1 hbody).2
  · intro holds
    exact ⟨f.body, means.block_self_iff.2 ⟨typed.body, holds⟩, rfl⟩

theorem IsDeclared.definition_self_iff (h : p.IsDeclared) {d : Def} :
    p.names.definition d = .ok d ↔
      (∀ f, d = .function f → f.IsTyped p ∧ ∀ e ∈ Stmt.allParts f.body, e.HoldsType p (some f)) ∧
        ∀ c, d = .class_ c → ∀ m ∈ c.methods,
          m.IsTyped p ∧ ∀ e ∈ Stmt.allParts m.body, e.HoldsType p (some m) := by
  cases d with
  | var v => simp [Context.definition]
  | function f =>
    simp only [Def.function.injEq, forall_eq', reduceCtorEq, false_imp_iff, implies_true, and_true]
    rw [← h.function_self_iff f.name]
    constructor
    · intro hd
      obtain ⟨f', hf, same⟩ := bind_eq_ok.1 hd
      cases same
      exact hf
    · intro hf
      exact bind_eq_ok.2 ⟨f, hf, rfl⟩
  | class_ c =>
    simp only [Def.class_.injEq, forall_eq', reduceCtorEq, false_imp_iff, implies_true, true_and]
    have methods : (c.methods.mapM fun m => p.names.function (c.name ++ "." ++ m.name) m) =
          .ok c.methods ↔
        ∀ m ∈ c.methods, m.IsTyped p ∧ ∀ e ∈ Stmt.allParts m.body, e.HoldsType p (some m) := by
      rw [mapM_eq_ok, List.forall₂_same]
      exact forall₂_congr fun m _ => h.function_self_iff _
    rw [← methods]
    constructor
    · intro hd
      obtain ⟨ms, hms, same⟩ := bind_eq_ok.1 hd
      simp only [pure_eq_ok, Except.ok.injEq, Def.class_.injEq] at same
      have same : ms = c.methods := congrArg ClassDef.methods same
      exact same ▸ hms
    · intro hms
      exact bind_eq_ok.2 ⟨_, hms, rfl⟩

/-- A program is checked to itself exactly if it is well typed and all types are written into it. -/
theorem check_self_iff : p.check = .ok p ↔ p.IsTyped ∧ p.HoldsTypes := by
  constructor
  · intro h
    refine ⟨isTyped_iff.2 ⟨p, h⟩, ?_⟩
    obtain ⟨declared, hdefs, hstmts⟩ := check_eq_ok.1 h
    have each := fun d hd => declared.definition_self_iff.1 (List.forall₂_same.1 hdefs d hd)
    constructor
    case functions => exact fun f hf => ((each _ (mem_functions.1 hf)).1 f rfl).2
    case methods => exact fun c hc m hm => ((each _ (mem_classes.1 hc)).2 c rfl m hm).2
    case stmts => exact (declared.means_outside.block_self_iff.1 hstmts).2
  · rintro ⟨typed, holds⟩
    have declared := typed.declared
    refine check_eq_ok.2 ⟨declared, List.forall₂_same.2 fun d hd => ?_,
      declared.means_outside.block_self_iff.2 ⟨typed.stmts, holds.stmts⟩⟩
    rw [declared.definition_self_iff]
    constructor
    · rintro f rfl
      exact ⟨typed.functions f (mem_functions.2 hd), holds.functions f (mem_functions.2 hd)⟩
    · rintro c rfl m hm
      exact ⟨typed.methods c (mem_classes.2 hd) m hm, holds.methods c (mem_classes.2 hd) m hm⟩

theorem isTyped_of_check {q : Program} (h : p.check = .ok q) : q.IsTyped :=
  (check_self_iff.1 (check_eq_ok_iff.1 h).2).1

/-- Checking decides whether a program is well typed. What comes out is the program with the type of
every expression written into it: of the programs that differ by written types only, it is the one
in which each expression, subexpressions and receivers of assignments among them, has its type. -/
theorem check_eq_ok_iff_isTyped (p : Program) :
    ((∃ q, p.check = .ok q) ↔ p.IsTyped) ∧
      ∀ q, p.check = .ok q ↔ p.IsTyped ∧ q.erase = p.erase ∧ q.HoldsTypes := by
  refine ⟨isTyped_iff.symm, fun q => ?_⟩
  have same : q.erase = p.erase → (p.IsTyped ↔ q.IsTyped) := by
    intro same
    have check : p.check = q.check := by rw [← check_erase, ← same, check_erase]
    rw [isTyped_iff, isTyped_iff, check]
  constructor
  · intro h
    obtain ⟨erased, self⟩ := check_eq_ok_iff.1 h
    obtain ⟨typed, holds⟩ := check_self_iff.1 self
    exact ⟨(same erased).2 typed, erased, holds⟩
  · rintro ⟨typed, erased, holds⟩
    exact check_eq_ok_iff.2 ⟨erased, check_self_iff.2 ⟨(same erased).1 typed, holds⟩⟩

/-- A function that refers to a later class, and whose parameter hides a global variable of another
type. -/
def forward : Program where
  defs := [.var ⟨"x", .bool, .bool true⟩,
    .function ⟨"f", [⟨"x", .object "Cell"⟩], .int, [],
      [.return_ (.field none (.var none "x") "content")]⟩,
    .class_ ⟨"Cell", objectClass, [⟨"content", .int, .number 0⟩], []⟩]
  stmts := [.assign (.var "x") (.binary none .eq (.call none "f" [.call none "Cell" []])
    (.literal none (.number 0)))]

/-- The global variable may be set to a comparison, but not passed to the function. -/
theorem isTyped_forward : forward.IsTyped ∧
    ¬IsTyped { forward with stmts := [.expr (.call none "f" [.var none "x"])] } := by
  constructor
  · refine (check_eq_ok_iff_isTyped forward).1.1 ?_
    cases checked : forward.check with
    | ok q => exact ⟨q, rfl⟩
    | error e =>
      have isOk : forward.check.isOk = true := by decide
      rw [checked] at isOk
      cases isOk
  · rw [← (check_eq_ok_iff_isTyped _).1]
    rintro ⟨q, checked⟩
    have isError : (check { forward with
      stmts := [.expr (.call none "f" [.var none "x"])] }).isOk = false := by decide
    rw [checked] at isError
    cases isError

end Program

end Serpent
