/-
Serpent.Proofs.Resolution — in a checked program every name is known.

Checking an expression finds what each name in it stands for, and the program has it under the same
name. So every part of a checked program has code, `Program.isResolved_of_check`.

  §1 What names stand for
  §2 Expressions
  §3 Statements
  §4 Programs
-/
import Serpent.Proofs.Checked
import Serpent.Proofs.Declared

namespace Serpent

open Fallible

variable {p : Program} {Γ : Context} {names : List String}

/-! ## §1 What names stand for -/

namespace Program.Declares

/-- A name that stands for a variable is that of a global variable. -/
theorem mem_globalVars (h : p.Declares Γ) {x : String} {t : Ty}
    (found : Γ.globals.lookup x = some (.variable t)) : x ∈ p.globalVars.map (·.name) := by
  have mem := mem_of_lookup found
  rw [h.globals] at mem
  simp only [List.mem_append, List.mem_reverse, List.mem_map, Prod.mk.injEq] at mem
  rcases mem with ⟨f, -, -, eq⟩ | ⟨v, hv, rfl, -⟩
  · cases eq
  · exact List.mem_map_of_mem hv

theorem functions_nodup (h : p.Declares Γ) : (p.functions.map (·.name)).Nodup := by
  have distinct := h.distinct
  rw [h.globals, List.map_append, List.map_reverse, List.map_map] at distinct
  exact List.nodup_reverse.1 distinct.of_append_left

theorem globalVars_nodup (h : p.Declares Γ) : (p.globalVars.map (·.name)).Nodup := by
  have distinct := h.distinct
  rw [h.globals, List.map_append, List.map_reverse (l := p.globalVars.map _), List.map_map]
    at distinct
  exact List.nodup_reverse.1 distinct.of_append_right

/-- A name is that of a class exactly if the class table knows it. -/
theorem class?_eq_none (h : p.Declares Γ) {c : String} (unknown : Γ.classes.has c = false) :
    p.class? c = none := by
  rw [class?, List.find?_eq_none]
  intro d hd same
  have mem : d.name ∈ Γ.classes.map (·.1) := by
    rw [h.classes, List.mem_reverse]
    exact List.mem_map_of_mem hd
  rw [ClassTable.has, ← (by simpa using same : d.name = c), lookup_isSome_iff.2 mem] at unknown
  cases unknown

/-- A name that stands for a function is that of a function with as many parameters. -/
theorem function?_eq_some (h : p.Declares Γ) {f : String} {sig : Signature}
    (found : Γ.globals.lookup f = some (.function sig)) :
    p.class? f = none ∧
      ∃ d, p.function? f = some d ∧ d.params.length = sig.params.length := by
  have mem := mem_of_lookup found
  rw [h.globals] at mem
  simp only [List.mem_append, List.mem_reverse, List.mem_map, Prod.mk.injEq] at mem
  rcases mem with ⟨d, hd, rfl, eq⟩ | ⟨v, -, -, eq⟩
  · cases eq
    refine ⟨h.class?_eq_none (h.apart d hd), d, find?_of_nodup h.functions_nodup hd, ?_⟩
    simp [FunDef.signature]
  · cases eq

/-- A class that is known is a class of the program, which has the members that are known of it. -/
theorem class?_eq_some (h : p.Declares Γ) {c : String} {info : ClassInfo}
    (found : Γ.classes.lookup c = some info) :
    ∃ d, p.class? c = some d ∧ (info = {} ∨ d ∈ p.classes ∧ info = d.info) := by
  have find : ∀ d ∈ p.allClasses, p.class? d.name = some d :=
    fun d hd => find?_of_nodup h.classesDiffer hd
  rcases h.members c info (mem_of_lookup found) with rfl | ⟨d, hd, rfl, rfl⟩
  · have mem : c ∈ Γ.classes.map (·.1) := lookup_isSome_iff.1 (by rw [found]; rfl)
    rw [h.classes, List.mem_reverse] at mem
    obtain ⟨d, hd, rfl⟩ := List.mem_map.1 mem
    exact ⟨d, find d hd, .inl rfl⟩
  · exact ⟨d, find d (List.mem_cons_of_mem _ hd), .inr ⟨hd, rfl⟩⟩

/-- A field that is known has its place. -/
theorem exists_place (h : p.Declares Γ) {c x : String} {t : Ty}
    (found : Γ.classes.field? c x = some t) :
    ∃ d k, p.class? c = some d ∧ d.place? x = some k := by
  obtain ⟨info, hinfo, member⟩ := Option.bind_eq_some_iff.1 found
  obtain ⟨d, hd, rfl | ⟨-, rfl⟩⟩ := h.class?_eq_some hinfo
  · cases member
  · have mem := mem_of_lookup member
    simp only [ClassDef.info, List.mem_reverse, List.mem_map, Prod.mk.injEq] at mem
    obtain ⟨v, hv, rfl, -⟩ := mem
    have some : (d.fields.findIdx? (·.name = v.name)).isSome = true := by
      rw [List.findIdx?_isSome, List.any_eq_true]
      exact ⟨v, hv, by simp⟩
    obtain ⟨i, hi⟩ := Option.isSome_iff_exists.1 some
    exact ⟨d, fieldPlace i, hd, by rw [ClassDef.place?, hi]; rfl⟩

/-- A method that is known is there, and takes the receiver besides its other parameters. -/
theorem exists_method (h : p.Declares Γ) {c x : String} {sig : Signature}
    (found : Γ.classes.method? c x = some sig) :
    ∃ d m, p.class? c = some d ∧ d.method? x = some m ∧
      m.params.length = sig.params.length + 1 := by
  obtain ⟨info, hinfo, member⟩ := Option.bind_eq_some_iff.1 found
  obtain ⟨d, hd, rfl | ⟨mem, rfl⟩⟩ := h.class?_eq_some hinfo
  · cases member
  · have known := mem_of_lookup member
    simp only [ClassDef.info, List.mem_reverse, List.mem_map, Prod.mk.injEq] at known
    obtain ⟨m, hm, rfl, rfl⟩ := known
    obtain ⟨distinct, each⟩ := h.methods d mem
    refine ⟨d, m, hd, find?_of_nodup distinct hm, ?_⟩
    have some := List.length_pos_iff.2 (each m hm).1
    simp [FunDef.signature]
    omega

end Program.Declares

/-- The local names of a context. -/
structure Context.Binds (Γ : Context) (names : List String) : Prop where
  keys : ∀ x, x ∈ names ↔ (Γ.locals.lookup x).isSome = true
  typed : ∀ x b, Γ.locals.lookup x = some b → ∃ t, b = .variable t

/-- A name that stands for a variable is a local one or a global one. -/
theorem Context.Binds.mem_globalVars (declares : p.Declares Γ) (binds : Γ.Binds names) {x : String}
    {t : Ty} (found : Γ.lookup? x = some (.variable t)) (hx : x ∉ names) :
    x ∈ p.globalVars.map (·.name) := by
  rw [binds.keys, Bool.not_eq_true, Option.isSome_eq_false_iff, Option.isNone_iff_eq_none] at hx
  rw [lookup?, hx, Option.none_or] at found
  exact declares.mem_globalVars found

theorem Context.Binds.function?_eq_some (declares : p.Declares Γ) (binds : Γ.Binds names)
    {f : String} {sig : Signature} (found : Γ.lookup? f = some (.function sig)) :
    p.class? f = none ∧
      ∃ d, p.function? f = some d ∧ d.params.length = sig.params.length := by
  rw [lookup?] at found
  cases here : Γ.locals.lookup f with
  | some b =>
    obtain ⟨t, rfl⟩ := binds.typed f b here
    rw [here] at found
    cases found
  | none =>
    rw [here, Option.none_or] at found
    exact declares.function?_eq_some found

/-! ## §2 Expressions -/

/-- What is shown of every checked argument gives the code of all of them. -/
theorem Context.Passes.exists_codes {args args' : List Expr} {params : List Ty}
    (checked : Γ.Passes args params args')
    (ih : ∀ a ∈ args, ∀ a' t, Γ.expr a = .ok (a', t) →
      a'.ty? = some t ∧ ∃ code, a'.Lowers p names code) :
    args'.length = params.length ∧
      ∃ code : Expr → List Wasm.Instr, ∀ a ∈ args', a.Lowers p names (code a) := by
  have each : args'.length = params.length ∧ ∀ a' ∈ args', ∃ code, a'.Lowers p names code := by
    induction checked with
    | nil => exact ⟨rfl, by simp⟩
    | cons first fits rest ihrest =>
      obtain ⟨arity, others⟩ := ihrest fun a ha => ih a (List.mem_cons_of_mem _ ha)
      exact ⟨congrArg Nat.succ arity,
        List.forall_mem_cons.2 ⟨(ih _ List.mem_cons_self _ _ first).2, others⟩⟩
  obtain ⟨arity, each⟩ := each
  choose! code hcode using each
  exact ⟨arity, code, hcode⟩

theorem Program.classOf?_eq {o : Expr} {c : String} (h : o.ty? = some (.object c)) :
    p.classOf? o = p.class? c := by
  simp [classOf?, h, Ty.class?]

/-- A checked expression holds its type, and there is code for it. -/
theorem Context.lowers_of_expr (declares : p.Declares Γ) (binds : Γ.Binds names) {e e' : Expr}
    {t : Ty} (h : Γ.expr e = .ok (e', t)) :
    e'.ty? = some t ∧ ∃ code, e'.Lowers p names code := by
  induction e generalizing e' t with
  | literal ty v =>
    obtain ⟨rfl, rfl⟩ := expr_literal.1 h
    exact ⟨rfl, _, .literal _ v⟩
  | var ty x =>
    obtain ⟨found, rfl⟩ := expr_var.1 h
    by_cases hx : x ∈ names
    · exact ⟨rfl, _, .readLocal _ hx⟩
    · exact ⟨rfl, _, .readGlobal _ hx (binds.mem_globalVars declares found hx)⟩
  | unary ty op e ih =>
    obtain ⟨e₁, u, operand, -, rfl⟩ := expr_unary.1 h
    obtain ⟨-, code, lowers⟩ := ih operand
    cases op with
    | neg => exact ⟨rfl, _, .neg _ lowers⟩
    | not => exact ⟨rfl, _, .not _ lowers⟩
  | binary ty op l r ihl ihr =>
    obtain ⟨l₁, u, r₁, v, left, right, -, rfl⟩ := expr_binary.1 h
    obtain ⟨-, _, hl⟩ := ihl left
    obtain ⟨-, _, hr⟩ := ihr right
    exact ⟨rfl, _, .binary _ op hl hr⟩
  | call ty f args ih =>
    by_cases isPrint : f = printFunction
    · subst isPrint
      obtain ⟨e, e₁, u, rfl, argument, rfl, rfl⟩ := expr_print.1 h
      obtain ⟨typed, _, lowers⟩ := ih e (by simp) argument
      exact ⟨rfl, _, .print _ typed lowers⟩
    · rcases (expr_call isPrint).1 h with ⟨sig, args', found, passes, rfl, rfl⟩ |
        ⟨-, known, rfl, rfl, rfl⟩
      · obtain ⟨arity, code, lowers⟩ := passes.exists_codes fun a ha a' t => ih a ha
        obtain ⟨noClass, d, hd, params⟩ := binds.function?_eq_some declares found
        exact ⟨rfl, _, .call _ code isPrint noClass hd (params.trans arity.symm) lowers⟩
      · obtain ⟨info, found⟩ := Option.isSome_iff_exists.1 known
        obtain ⟨c, hc, -⟩ := declares.class?_eq_some found
        exact ⟨rfl, _, .construct _ isPrint hc⟩
  | field ty o x ih =>
    obtain ⟨o₁, c, receiver, found, rfl⟩ := expr_field.1 h
    obtain ⟨typed, _, lowers⟩ := ih receiver
    obtain ⟨d, k, hd, place⟩ := declares.exists_place found
    exact ⟨rfl, _, .field _ ((Program.classOf?_eq typed).trans hd) place lowers⟩
  | method ty o x args ih ihargs =>
    obtain ⟨o₁, c, sig, args', receiver, found, passes, rfl, rfl⟩ := expr_method.1 h
    obtain ⟨typed, _, lowers⟩ := ih receiver
    obtain ⟨arity, code, lowersAll⟩ := passes.exists_codes fun a ha a' t => ihargs a ha
    obtain ⟨d, m, hd, hm, params⟩ := declares.exists_method found
    refine ⟨rfl, _, .method _ code ((Program.classOf?_eq typed).trans hd) hm ?_ lowers lowersAll⟩
    rw [params, arity]

/-! ## §3 Statements -/

/-- There is code for statements, wherever the numbers of their loops start. -/
def Stmt.HasCode (p : Program) (names : List String) (mayReturn : Bool) (ss : List Stmt) : Prop :=
  ∀ n, ∃ code n', Stmt.Lowers p names mayReturn n ss code n'

/-- Statements that are checked one by one have code if each has code in front of code. -/
theorem Context.hasCode_of_block {mayReturn : Bool} {ss ss' : List Stmt}
    (h : Γ.block ss = .ok ss')
    (each : ∀ s ∈ ss, ∀ s', Γ.stmt s = .ok s' → ∀ rest, Stmt.HasCode p names mayReturn rest →
      Stmt.HasCode p names mayReturn (s' :: rest)) :
    Stmt.HasCode p names mayReturn ss' := by
  have checked := block_eq_ok.1 h
  induction checked with
  | nil => exact fun n => ⟨[], n, .nil n⟩
  | cons first rest ih =>
    exact each _ (by simp) _ first _ (ih (block_eq_ok.2 rest) fun t ht => each t (by simp [ht]))

namespace Stmt.HasCode

variable {mayReturn : Bool}

theorem nil : HasCode p names mayReturn [] := fun n => ⟨[], n, .nil n⟩

theorem if_ {c : Expr} {cond : List Wasm.Instr} {body rest : List Stmt}
    {orElse : Option (List Stmt)} (condition : c.Lowers p names cond)
    (yes : HasCode p names mayReturn body) (no : HasCode p names mayReturn (orElse.getD []))
    (tail : HasCode p names mayReturn rest) :
    HasCode p names mayReturn (.if_ c body none orElse :: rest) := by
  intro n
  obtain ⟨_, n₁, hyes⟩ := yes n
  obtain ⟨_, n₂, hno⟩ := no n₁
  obtain ⟨_, n', htail⟩ := tail n₂
  exact ⟨_, n', .if_ condition hyes hno htail⟩

theorem elif {c d : Expr} {cond cond' : List Wasm.Instr} {body other rest : List Stmt}
    {orElse : Option (List Stmt)} (condition : c.Lowers p names cond)
    (condition' : d.Lowers p names cond') (yes : HasCode p names mayReturn body)
    (maybe : HasCode p names mayReturn other) (no : HasCode p names mayReturn (orElse.getD []))
    (tail : HasCode p names mayReturn rest) :
    HasCode p names mayReturn (.if_ c body (some (d, other)) orElse :: rest) := by
  intro n
  obtain ⟨_, n₁, hyes⟩ := yes n
  obtain ⟨_, n₂, hno⟩ := if_ condition' maybe no nil n₁
  obtain ⟨_, n', htail⟩ := tail n₂
  exact ⟨_, n', .elif condition hyes hno htail⟩

end Stmt.HasCode

/-- A checked statement has code in front of code. -/
theorem Context.hasCode_of_stmt (declares : p.Declares Γ) (binds : Γ.Binds names) {s s' : Stmt}
    (h : Γ.stmt s = .ok s') {rest : List Stmt}
    (tail : Stmt.HasCode p names Γ.frame.isSome rest) :
    Stmt.HasCode p names Γ.frame.isSome (s' :: rest) := by
  induction s generalizing s' rest with
  | pass =>
    obtain rfl := stmt_pass.1 h
    intro n
    obtain ⟨code, n', htail⟩ := tail n
    exact ⟨code, n', .pass htail⟩
  | assign target e =>
    obtain ⟨target', expected, e', found, htarget, he, -, rfl⟩ := stmt_assign.1 h
    obtain ⟨-, _, value⟩ := lowers_of_expr declares binds he
    intro n
    obtain ⟨_, n', htail⟩ := tail n
    cases target with
    | var x =>
      obtain ⟨known, -, rfl⟩ := target_var.1 htarget
      by_cases hx : x ∈ names
      · exact ⟨_, n', .assignLocal hx value htail⟩
      · exact ⟨_, n', .assignGlobal hx (binds.mem_globalVars declares known hx) value htail⟩
    | member o x =>
      obtain ⟨o₁, c, ho, hu, rfl⟩ := target_member.1 htarget
      obtain ⟨typed, _, receiver⟩ := lowers_of_expr declares binds ho
      obtain ⟨d, k, hd, place⟩ := declares.exists_place hu
      exact ⟨_, n', .assignMember ((Program.classOf?_eq typed).trans hd) place receiver value htail⟩
  | expr e =>
    obtain ⟨e', t, he, rfl⟩ := stmt_expr.1 h
    obtain ⟨-, _, value⟩ := lowers_of_expr declares binds he
    intro n
    obtain ⟨_, n', htail⟩ := tail n
    exact ⟨_, n', .expr value htail⟩
  | return_ e =>
    obtain ⟨frame, e', t, hframe, he, -, rfl⟩ := stmt_return.1 h
    obtain ⟨-, _, value⟩ := lowers_of_expr declares binds he
    intro n
    obtain ⟨_, n', htail⟩ := tail n
    exact ⟨_, n', .return_ (by rw [hframe]; rfl) value htail⟩
  | while_ c body ih =>
    obtain ⟨c', body', hc, hbody, rfl⟩ := stmt_while.1 h
    obtain ⟨-, _, condition⟩ := lowers_of_expr declares binds hc
    have round := hasCode_of_block hbody fun s hs s' h rest => ih s hs h
    intro n
    obtain ⟨_, n₁, hround⟩ := round (n + 1)
    obtain ⟨_, n', htail⟩ := tail n₁
    exact ⟨_, n', .while_ condition hround htail⟩
  | if_ c body elif orElse ihbody ihelif ihelse =>
    obtain ⟨c', body', elif', orElse', hc, hbody, helif, horElse, rfl⟩ := stmt_if.1 h
    obtain ⟨-, _, condition⟩ := lowers_of_expr declares binds hc
    have yes := hasCode_of_block hbody fun s hs s' h rest => ihbody s hs h
    have no : Stmt.HasCode p names Γ.frame.isSome (orElse'.getD []) := by
      cases horElse with
      | none => exact .nil
      | some hb => exact hasCode_of_block hb fun s hs s' h rest => ihelse _ rfl s hs h
    cases helif with
    | none => exact .if_ condition yes no tail
    | some hd =>
      obtain ⟨-, _, condition'⟩ := lowers_of_expr declares binds hd.1
      exact .elif condition condition' yes
        (hasCode_of_block hd.2 fun s hs s' h rest => ihelif _ rfl s hs h) no tail

/-- A checked body has code. -/
theorem Context.hasCode_of_checked (declares : p.Declares Γ) (binds : Γ.Binds names)
    {ss ss' : List Stmt} (h : Γ.block ss = .ok ss') :
    Stmt.HasCode p names Γ.frame.isSome ss' :=
  hasCode_of_block h fun _ _ _ hs _ tail => hasCode_of_stmt declares binds hs tail

/-! ## §4 Programs -/

/-- The local names of a function are those that checking its body knows. -/
theorem FunDef.binds_bindings (f : FunDef) (name : String) :
    Context.Binds { Γ with frame := some ⟨name, f.result, f.bindings⟩ } f.localNames where
  keys x := by
    rw [Context.locals, Option.map_some, Option.getD_some, lookup_isSome_iff, keys_bindings,
      List.mem_reverse]
  typed x b h := by
    obtain ⟨t, -, rfl⟩ := mem_bindings.1 (mem_of_lookup h)
    exact ⟨t, rfl⟩

theorem Context.binds_nil (h : Γ.frame = none) : Γ.Binds [] where
  keys x := by simp [locals, h]
  typed x b found := by simp [locals, h] at found

/-- A checked function has distinct local names, and its body has code. -/
theorem Context.hasCode_of_function (declares : p.Declares Γ) {name : String} {f f' : FunDef}
    (h : Γ.function name f = .ok f') :
    f'.localNames.Nodup ∧ Stmt.HasCode p f'.localNames true f'.body := by
  obtain ⟨scope, body, hscope, hbody, -, rfl⟩ := function_eq_ok.1 h
  obtain ⟨rfl, distinct, -⟩ := FunDef.scope_eq_ok.1 hscope
  exact ⟨distinct, hasCode_of_checked (declares.within _) (f.binds_bindings name) hbody⟩

theorem Image.hasCode_plainInit (p : Program) (c : String) :
    Stmt.HasCode p (plainInit c).localNames true (plainInit c).body :=
  fun n => ⟨[], n, .pass (.nil n)⟩

/-- Everything that becomes a routine is a method, a function, or a method that does nothing. -/
theorem Image.mem_functionsOf {p : Program} {symbol : String} {f : FunDef}
    (h : (symbol, f) ∈ functionsOf p) :
    (∃ c, symbol = methodSymbol c initMethod ∧ f = plainInit c) ∨
      (∃ c ∈ p.classes, f ∈ c.methods ∧ symbol = methodSymbol c.name f.name) ∨
      (f ∈ p.functions ∧ symbol = functionSymbol f.name) := by
  simp only [functionsOf, List.cons_append, List.mem_cons, Prod.mk.injEq, List.mem_append,
    List.mem_flatMap, List.mem_map] at h
  rcases h with ⟨rfl, rfl⟩ | ⟨c, hc, mem⟩ | ⟨g, hg, rfl, rfl⟩
  · exact .inl ⟨objectClass, rfl, rfl⟩
  · have own : ∀ {entry}, entry ∈ c.methods.map (fun m => (methodSymbol c.name m.name, m)) →
        entry = (symbol, f) → f ∈ c.methods ∧ symbol = methodSymbol c.name f.name := by
      rintro entry mem rfl
      obtain ⟨m, hm, eq⟩ := List.mem_map.1 mem
      cases eq
      exact ⟨hm, rfl⟩
    rw [methodsOf] at mem
    split at mem
    · exact .inr (.inl ⟨c, hc, own mem rfl⟩)
    · rcases List.mem_append.1 mem with mem | mem
      · exact .inr (.inl ⟨c, hc, own mem rfl⟩)
      · cases List.mem_singleton.1 mem
        exact .inl ⟨c.name, rfl, rfl⟩
  · exact .inr (.inr ⟨hg, rfl⟩)

/-- What becomes a routine of a checked program has been checked, or does nothing. -/
theorem Program.checked_of_mem_functionsOf {p q : Program}
    (checked : List.Forall₂ (fun d d' => Γ.definition d = .ok d') p.defs q.defs)
    {symbol : String} {f : FunDef} (h : (symbol, f) ∈ Image.functionsOf q) :
    (∃ c, f = Image.plainInit c) ∨ ∃ name f₀, Γ.function name f₀ = .ok f := by
  rcases Image.mem_functionsOf h with ⟨c, -, rfl⟩ | ⟨c, hc, hf, -⟩ | ⟨hf, -⟩
  · exact .inl ⟨c, rfl⟩
  · obtain ⟨d, -, hd⟩ := exists_of_forall₂ checked (mem_classes.1 hc)
    cases d with
    | var v => cases hd
    | function f₀ =>
      obtain ⟨_, -, hd⟩ := bind_eq_ok.1 hd
      cases hd
    | class_ c₀ =>
      obtain ⟨methods, hmethods, hd⟩ := bind_eq_ok.1 hd
      cases hd
      obtain ⟨f₀, -, hf₀⟩ := exists_of_forall₂ (mapM_eq_ok.1 hmethods) hf
      exact .inr ⟨_, f₀, hf₀⟩
  · obtain ⟨d, -, hd⟩ := exists_of_forall₂ checked (mem_functions.1 hf)
    cases d with
    | var v => cases hd
    | function f₀ =>
      obtain ⟨f', hf', hd⟩ := bind_eq_ok.1 hd
      cases hd
      exact .inr ⟨_, f₀, hf'⟩
    | class_ c₀ =>
      obtain ⟨_, -, hd⟩ := bind_eq_ok.1 hd
      cases hd

/-- In a checked program every name is known, and no name is declared twice in its place. -/
theorem Program.isResolved_of_check {p q : Program} (h : p.check = .ok q) : q.IsResolved := by
  have context := context_of_check h
  obtain ⟨Γ, hΓ, h⟩ := bind_eq_ok.1 h
  obtain ⟨defs, hdefs, h⟩ := bind_eq_ok.1 h
  obtain ⟨stmts, hstmts, h⟩ := bind_eq_ok.1 h
  cases h
  rw [hΓ] at context
  have declares := declares_of_context context
  have outside := frame_of_context context
  have checked : List.Forall₂ (fun d d' => Γ.definition d = .ok d') p.defs
    (Program.mk defs stmts).defs := mapM_eq_ok.1 hdefs
  have routine : ∀ entry ∈ Image.functionsOf ⟨defs, stmts⟩, entry.2.localNames.Nodup ∧
      Stmt.HasCode ⟨defs, stmts⟩ entry.2.localNames true entry.2.body := by
    rintro ⟨symbol, f⟩ mem
    rcases checked_of_mem_functionsOf checked mem with ⟨c, rfl⟩ | ⟨name, f₀, hf₀⟩
    · exact ⟨List.nodup_singleton _, Image.hasCode_plainInit _ c⟩
    · exact Context.hasCode_of_function declares hf₀
  constructor
  case classes => exact declares.classesDiffer
  case functions => exact declares.functions_nodup
  case globals => exact declares.globalVars_nodup
  case apart => exact fun f hf => declares.class?_eq_none (declares.apart f hf)
  case methods => exact fun c hc => (declares.methods c hc).1
  case inits => exact fun c hc m hm => ((declares.methods c hc).2 m hm).2
  case locals => exact fun entry mem => (routine entry mem).1
  case bodies => exact fun entry mem => (routine entry mem).2
  case stmts =>
    have code := Context.hasCode_of_checked declares (Context.binds_nil outside) hstmts
    rw [outside] at code
    exact code

end Serpent
