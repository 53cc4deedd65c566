/-
Serpent.Proofs.Parts — what the code of a well typed program is made of.

The code of a program consists of a few kinds of instructions. It calls printers and the routines of
the program only, and sets the global variables of the program only, the latter at its top level and
nowhere else.

  §1 Kinds of instructions
  §2 Expressions and statements
  §3 Functions
-/
import Serpent.Proofs.Code
import Serpent.Proofs.Names
import Serpent.Proofs.WellFormed

namespace Serpent

open Wasm (Func Instr Printer)
open Wasm.Instr (Built)

/-! ## §1 Kinds of instructions -/

/-- Whether an instruction neither sets a global, nor drops an operand, nor calls. -/
def Wasm.Instr.isInner : Instr → Bool
  | .globalSet _ | .drop | .call _ => false
  | _ => true

/-- A kind of instructions that has everything which the code of a program needs inside of
functions. -/
structure Program.CodeKind (p : Program) (ok : Instr → Prop) : Prop where
  inner : ∀ i : Instr, i.isInner = true → ok i
  printers : ∀ pr : Printer, ok (.call (importSymbol pr.name))
  calls : ∀ entry ∈ Image.functionsOf p, ok (.call entry.1)
  objects : ∀ c ∈ p.allClasses, Built ok c.layout.construct

section

variable {ok : Instr → Prop}

theorem Wasm.Instr.Built.append {c c' : List Instr} (h : Built ok c) (h' : Built ok c') :
    Built ok (c ++ c') := by
  induction h with
  | nil => exact h'
  | simple isSimple h rest ih => exact .simple isSimple h ih
  | ifElse h yes no rest _ _ ih => exact .ifElse h yes no ih
  | block h inner rest _ ih => exact .block h inner ih
  | loop h inner rest _ ih => exact .loop h inner ih

theorem Wasm.Instr.Built.flatMap {α : Type} {as : List α} {code : α → List Instr}
    (h : ∀ a ∈ as, Built ok (code a)) : Built ok (as.flatMap code) := by
  induction as with
  | nil => exact .nil
  | cons a as ih =>
    rw [List.flatMap_cons]
    exact (h a (by simp)).append (ih fun b hb => h b (by simp [hb]))

/-- Code in a row without control inside of it. -/
theorem Wasm.Instr.Built.of_forall {code : List Instr}
    (h : ∀ i ∈ code, i.isSimple = true ∧ ok i) : Built ok code := by
  induction code with
  | nil => exact .nil
  | cons i code ih =>
    obtain ⟨isSimple, hi⟩ := h i (by simp)
    exact .simple isSimple hi (ih fun j hj => h j (by simp [hj]))

/-- The code that gives the fields of a new object their values. -/
theorem ClassDef.built_slots (inner : ∀ i : Instr, i.isInner = true → ok i) (c : ClassDef) :
    Built ok ((c.fields.zipIdx.map slotAt).flatMap ClassLayout.initSlot) := by
  refine .flatMap fun slot _ => .of_forall fun i hi => ?_
  have simple : i.isSimple = true ∧ i.isInner = true := by
    simp only [ClassLayout.initSlot, List.mem_cons, List.not_mem_nil, or_false] at hi
    rcases hi with rfl | rfl | rfl | rfl | rfl <;> exact ⟨rfl, rfl⟩
  exact ⟨simple.1, inner i simple.2⟩

/-- The code that makes an object also moves the first free address, drops the result of the method
that constructs, and calls it. -/
theorem ClassDef.built_construct (inner : ∀ i : Instr, i.isInner = true → ok i)
    (pointer : ok (.globalSet heapPointer)) (drop : ok .drop) (c : ClassDef)
    (init : ok (.call (methodSymbol c.name initMethod))) : Built ok c.layout.construct := by
  rw [construct_layout, prologue, List.append_assoc]
  refine (c.built_slots inner).append ?_
  exact .simple rfl (inner _ rfl) <| .simple rfl (inner _ rfl) <| .simple rfl (inner _ rfl) <|
    .simple rfl (inner _ rfl) <| .simple rfl (inner _ rfl) <| .simple rfl pointer <|
    .simple rfl (inner _ rfl) <| .simple rfl init <| .simple rfl drop <|
    .simple rfl (inner _ rfl) .nil

end

/-! ## §2 Expressions and statements -/

section

variable {p : Program} {ok : Instr → Prop}

namespace Program.CodeKind

theorem row (kind : p.CodeKind ok) {code : List Instr}
    (h : ∀ i ∈ code, i.isSimple = true ∧ i.isInner = true) : Built ok code :=
  .of_forall fun i hi => ⟨(h i hi).1, kind.inner i (h i hi).2⟩

theorem call (kind : p.CodeKind ok) {entry : String × FunDef}
    (h : entry ∈ Image.functionsOf p) : Built ok [.call entry.1] :=
  .simple rfl (kind.calls entry h) .nil

end Program.CodeKind

theorem Expr.Lowers.built (kind : p.CodeKind ok) {names : List String} {e : Expr}
    {code : List Instr} (h : e.Lowers p names code) : Built ok code := by
  induction h with
  | literal | readLocal | readGlobal => exact kind.row (by simp [Instr.isSimple, Instr.isInner])
  | neg ty operand ih | not ty operand ih | field ty found place operand ih =>
    exact ih.append (kind.row (by simp [Instr.isSimple, Instr.isInner]))
  | binary ty op hl hr ihl ihr =>
    exact (ihl.append ihr).append (kind.row (by simp [Instr.isSimple, Instr.isInner]))
  | print ty typed argument ih => exact ih.append (.simple rfl (kind.printers _) .nil)
  | construct ty notPrint found => exact kind.objects _ (p.mem_of_class? found).1
  | call ty code notPrint noClass found arity arguments ih =>
    exact (Built.flatMap ih).append (kind.call (p.mem_functionsOf_function found))
  | method ty code found member arity receiver arguments ih iharguments =>
    exact (ih.append (Built.flatMap iharguments)).append
      (kind.call (Program.mem_functionsOf_method
        (Program.mem_of_class? (Program.class?_of_classOf? found)).1 member))

/-- Only at the top level is a global variable set. -/
theorem Stmt.Lowers.built (kind : p.CodeKind ok) (site : Site)
    (sets : site = none → ∀ v ∈ p.globalVars, ok (.globalSet (varSymbol v.name)))
    {mayReturn : Bool} {n n' : Nat} {ss : List Stmt} {code : List Instr}
    (h : Stmt.Lowers p site.names mayReturn n ss code n')
    (typed : ∀ s ∈ ss, s.IsTyped p site) : Built ok code := by
  induction h with
  | nil => exact .nil
  | pass tail ih => exact ih fun s hs => typed s (by simp [hs])
  | expr value tail ih | assignLocal hx value tail ih | return_ allowed value tail ih =>
    refine (value.built kind).append (.simple rfl (kind.inner _ rfl) (ih fun s hs => ?_))
    exact typed s (by simp [hs])
  | @assignGlobal n n' x e ss code rest hx known value tail ih =>
    refine (value.built kind).append (.simple rfl ?_ (ih fun s hs => typed s (by simp [hs])))
    -- the target is no variable of the place, so it is a global one, and no function is around it
    cases typed (.assign (.var x) e) (by simp) with
    | assign place value fits =>
      cases place with
      | own h => exact absurd (Site.mem_names h) hx
      | @global v h outside => exact sets outside v h
  | assignMember found place receiver value tail ih =>
    refine (((receiver.built kind).append (kind.row ?_)).append (value.built kind)).append
      (.simple rfl (kind.inner _ rfl) (ih fun s hs => typed s (by simp [hs])))
    simp [Instr.isSimple, Instr.isInner]
  | @while_ n n₁ n' c body ss cond inner rest condition round tail ihround ih =>
    have tail := ih fun s hs => typed s (by simp [hs])
    cases typed (.while_ c body) (by simp) with
    | while_ _ typedBody =>
      refine .block (kind.inner _ rfl) (.loop (kind.inner _ rfl) ?_ .nil) tail
      refine (((condition.built kind).append (kind.row ?_)).append (ihround typedBody)).append
        (kind.row ?_) <;>
      simp [Instr.isSimple, Instr.isInner]
  | @if_ n n₁ n₂ n' c body ss orElse cond thn els rest condition yes no tail ihyes ihno ih =>
    have tail := ih fun s hs => typed s (by simp [hs])
    cases typed (.if_ c body none orElse) (by simp) with
    | if_ _ typedYes _ _ typedNo =>
      refine (condition.built kind).append
        (.ifElse (kind.inner _ rfl) (ihyes typedYes) (ihno ?_) tail)
      cases orElse with
      | none => simp
      | some orElse => exact typedNo orElse rfl
  | @elif n n₁ n₂ n' c d body other ss orElse cond thn els rest condition yes no tail ihyes ihno ih =>
    have tail := ih fun s hs => typed s (by simp [hs])
    cases typed (.if_ c body (some (d, other)) orElse) (by simp) with
    | if_ _ typedYes conditions maybe typedNo =>
      refine (condition.built kind).append
        (.ifElse (kind.inner _ rfl) (ihyes typedYes) (ihno ?_) tail)
      intro s hs
      rw [List.mem_singleton.1 hs]
      exact .if_ (conditions _ rfl) (maybe _ rfl) (by simp) (by simp) typedNo

end

/-! ## §3 Functions -/

section

variable {p : Program} {ok : Instr → Prop}

/-- What becomes a routine of a well typed program has a well typed body. -/
theorem Program.IsTyped.body (typed : p.IsTyped) {symbol : String} {f : FunDef}
    (h : (symbol, f) ∈ Image.functionsOf p) : ∀ s ∈ f.body, s.IsTyped p (some f) := by
  rcases Image.mem_functionsOf h with ⟨c, -, rfl⟩ | ⟨c, hc, hf, -⟩ | ⟨hf, -⟩
  · intro s hs
    rw [List.mem_singleton.1 hs]
    exact .pass
  · exact (typed.methods c hc f hf).body
  · exact (typed.functions f hf).body

/-- The code of a routine sets no global variable. -/
theorem Program.CodeKind.built_routine (kind : p.CodeKind ok) (typed : p.IsTyped)
    {symbol : String} {f : FunDef} (mem : (symbol, f) ∈ Image.functionsOf p) {n n' : Nat}
    {code : List Instr} (h : Stmt.Lowers p f.localNames true n f.body code n') :
    Built ok (f.routine symbol code).body := by
  rw [← Site.names_some] at h
  refine (Built.append (Built.flatMap fun v _ => kind.row ?_) (h.built kind (some f) ?_ ?_)).append
    (kind.row ?_)
  · simp [Instr.isSimple, Instr.isInner]
  · exact fun outside => by cases outside
  · exact typed.body mem
  · simp [Instr.isSimple, Instr.isInner]

/-- The code of the entry sets the global variables of the program. -/
theorem Program.CodeKind.built_entry (kind : p.CodeKind ok) (typed : p.IsTyped)
    (sets : ∀ v ∈ p.globalVars, ok (.globalSet (varSymbol v.name))) {n n' : Nat}
    {code : List Instr} (h : Stmt.Lowers p [] false n p.stmts code n') :
    Built ok (p.entry code).body := by
  refine (Built.append (Built.flatMap fun v hv => ?_)
    (h.built kind none (fun _ => sets) typed.stmts)).append ?_
  · exact .simple rfl (kind.inner _ rfl) (.simple rfl (sets v hv) .nil)
  · refine kind.row ?_
    split <;> simp [Instr.isSimple, Instr.isInner]

end

end Serpent
