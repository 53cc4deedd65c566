/-
Serpent.Proofs.Validity — the code of a checked program is valid.

Code of an expression leaves one operand more than there was, whatever there was. Code of statements
starts and ends without operands, also where it follows a return. What code needs of its
surroundings is said once, in `Names.Covers`; that a module offers it is a fact about its
declarations.

  §1 Stacks
  §2 What code needs
  §3 Expressions
  §4 Statements
  §5 Labels
  §6 Names in valid code
-/
import Serpent.Proofs.ModuleText
import Serpent.Proofs.Preservation
import Serpent.Wasm.Valid

namespace Serpent

open Wasm (Instr Height Names)

/-! ## §1 Stacks -/

namespace Wasm

theorem Height.pop?_push (n : Nat) (h : Height) : (h.push n).pop? n = some h := by
  simp [pop?, push]

theorem Height.push_push (n k : Nat) (h : Height) : (h.push n).push k = h.push (n + k) := by
  simp [push, Nat.add_assoc]

theorem Instr.heights?_append (names : Names) (labels : List String) (h : Height)
    (is js : List Instr) : heights? names labels h (is ++ js) =
      (heights? names labels h is).bind fun h' => heights? names labels h' js := by
  induction is generalizing h with
  | nil => rfl
  | cons i is ih =>
    rw [List.cons_append, heights?, heights?]
    cases height? names labels h i with
    | none => rfl
    | some h' => exact ih h'

/-- Code that takes `n` operands and leaves `k`, whatever lies below them. -/
def Moves (names : Names) (n k : Nat) (code : List Instr) : Prop :=
  ∀ labels (h : Height), Instr.heights? names labels (h.push n) code = some (h.push k)

namespace Moves

variable {names : Names} {n k m : Nat} {code code' : List Instr}

theorem nil : Moves names n n [] := fun _ _ => rfl

theorem append (h : Moves names n k code) (h' : Moves names k m code') :
    Moves names n m (code ++ code') := by
  intro labels height
  rw [Instr.heights?_append, h, Option.bind_some, h']

/-- What lies below stays. -/
theorem frame (j : Nat) (h : Moves names n k code) : Moves names (j + n) (j + k) code := by
  intro labels height
  rw [← Height.push_push, ← Height.push_push]
  exact h labels (height.push j)

/-- One instruction. -/
theorem single {i : Instr}
    (h : ∀ labels (h : Height), Instr.height? names labels (h.push n) i = some (h.push k)) :
    Moves names n k [i] := by
  intro labels height
  rw [Instr.heights?, h]
  rfl

/-- Code of arguments, one after the other. -/
theorem flatMap {α : Type} {code : α → List Instr} {xs : List α}
    (h : ∀ x ∈ xs, Moves names 0 1 (code x)) : Moves names 0 xs.length (xs.flatMap code) := by
  induction xs with
  | nil => exact nil
  | cons x xs ih =>
    have tail := (ih fun y hy => h y (by simp [hy])).frame 1
    rw [List.flatMap_cons, List.length_cons, Nat.add_comm]
    exact (h x (by simp)).append tail

/-- Code that leaves as much as it takes, any number of times. -/
theorem each {α : Type} {code : α → List Instr} {xs : List α}
    (h : ∀ x ∈ xs, Moves names n n (code x)) : Moves names n n (xs.flatMap code) := by
  induction xs with
  | nil => exact nil
  | cons x xs ih =>
    rw [List.flatMap_cons]
    exact (h x (by simp)).append (ih fun y hy => h y (by simp [hy]))

theorem const (w : Word) : Moves names 0 1 [.const w] := single fun _ _ => rfl

theorem localGet {x : String} (hx : x ∈ names.locals) : Moves names 0 1 [.localGet x] :=
  single fun _ _ => if_pos hx

theorem localSet {x : String} (hx : x ∈ names.locals) : Moves names 1 0 [.localSet x] :=
  single fun _ h => (if_pos hx).trans (h.pop?_push 1)

theorem binary (op : BinaryOp) : Moves names 2 1 [.binary op] :=
  single fun _ h => congrArg (Option.map (Height.push 1)) (h.pop?_push 2)

theorem eqz : Moves names 1 1 [.eqz] :=
  single fun _ h => congrArg (Option.map (Height.push 1)) (h.pop?_push 1)

theorem load (memory : names.hasMemory = true) : Moves names 1 1 [.load] :=
  single fun _ h => (if_pos memory).trans (congrArg (Option.map (Height.push 1)) (h.pop?_push 1))

theorem store (memory : names.hasMemory = true) : Moves names 2 0 [.store] :=
  single fun _ h => (if_pos memory).trans (h.pop?_push 2)

theorem drop : Moves names 1 0 [.drop] := single fun _ h => h.pop?_push 1

theorem call {f : String} {params results : Nat}
    (found : names.funcs.lookup f = some (params, results)) :
    Moves names params results [.call f] := by
  refine single fun labels h => ?_
  rw [Instr.height?, found]
  simp [Height.pop?_push]

end Moves

/-- Code that starts without operands and ends without operands. -/
def Balances (names : Names) (labels : List String) (code : List Instr) : Prop :=
  ∀ h : Height, h.count = 0 → ∃ h', Instr.heights? names labels h code = some h' ∧ h'.count = 0

theorem Balances.nil {names : Names} {labels : List String} : Balances names labels [] :=
  fun h empty => ⟨h, rfl, empty⟩

theorem Moves.balances {names : Names} {code : List Instr} (h : Moves names 0 0 code)
    (labels : List String) : Balances names labels code :=
  fun height empty => ⟨height, h labels height, empty⟩

theorem Balances.append {names : Names} {labels : List String} {code code' : List Instr}
    (h : Balances names labels code) (h' : Balances names labels code') :
    Balances names labels (code ++ code') := by
  intro height empty
  obtain ⟨middle, first, middleEmpty⟩ := h height empty
  obtain ⟨last, second, lastEmpty⟩ := h' middle middleEmpty
  exact ⟨last, by rw [Instr.heights?_append, first, Option.bind_some, second], lastEmpty⟩

theorem Balances.balanced {names : Names} {labels : List String} {code : List Instr}
    (h : Balances names labels code) : Instr.balanced names labels code = true := by
  obtain ⟨last, heights, empty⟩ := h ⟨0, false⟩ rfl
  cases code with
  | nil => rfl
  | cons i is =>
    rw [Instr.heights?] at heights
    rw [Instr.balanced]
    cases first : Instr.height? names labels ⟨0, false⟩ i with
    | none => simp [first] at heights
    | some h' =>
      simp only [first] at heights
      simp [heights, Height.isExactly, empty]

/-- A body that ends without operands and then leaves its results. -/
theorem Balances.isExactly {names : Names} {k : Nat} {code value : List Instr}
    (h : Balances names [] code) (results : Moves names 0 k value) :
    ((Instr.heights? names [] ⟨0, false⟩ (code ++ value)).map (·.isExactly k)).getD false = true := by
  obtain ⟨last, heights, empty⟩ := h ⟨0, false⟩ rfl
  have final := results [] last
  rw [show last.push 0 = last from rfl] at final
  rw [Instr.heights?_append, heights, Option.bind_some, final]
  simp [Height.isExactly, Height.push, empty]

/-- A global that can be written. -/
def Names.HasGlobal (names : Names) (x : String) : Prop :=
  ∃ g ∈ names.globals, g.name = x ∧ g.isMutable = true

theorem Moves.globalGet {names : Names} {x : String} (hx : names.HasGlobal x) :
    Moves names 0 1 [.globalGet x] := by
  obtain ⟨g, hg, name, -⟩ := hx
  exact single fun _ _ => if_pos (List.any_eq_true.2 ⟨g, hg, by simp [name]⟩)

theorem Moves.globalSet {names : Names} {x : String} (hx : names.HasGlobal x) :
    Moves names 1 0 [.globalSet x] := by
  obtain ⟨g, hg, name, writable⟩ := hx
  refine single fun _ h => (if_pos ?_).trans (h.pop?_push 1)
  exact List.any_eq_true.2 ⟨g, hg, by simp [name, writable]⟩

end Wasm

/-! ## §2 What code needs -/

/-- The names that the code of a program may use where `names` are its local variables. -/
structure Wasm.Names.Covers (declared : Names) (p : Program) (names : List String) : Prop where
  scratch : scratchLocal ∈ declared.locals
  alloc : allocLocal ∈ declared.locals
  locals : ∀ x ∈ names, varSymbol x ∈ declared.locals
  heap : declared.HasGlobal heapPointer
  globals : ∀ x ∈ p.globalVars.map (·.name), declared.HasGlobal (varSymbol x)
  memory : declared.hasMemory = true
  printers : ∀ pr : Wasm.Printer, declared.funcs.lookup (importSymbol pr.name) = some (1, 1)
  routines : ∀ entry ∈ Image.functionsOf p,
    declared.funcs.lookup entry.1 = some (entry.2.params.length, 1)

/-! ## §3 Expressions -/

open Wasm (Moves Balances)

section

variable {p : Program} {names : List String} {declared : Names}

/-- The code that makes an object leaves its address. -/
theorem ClassDef.moves_construct (resolved : p.IsResolved) (covers : declared.Covers p names)
    {c : ClassDef} (hc : c ∈ p.allClasses) : Moves declared 0 1 c.layout.construct := by
  have init : declared.funcs.lookup (methodSymbol c.name initMethod) = some (1, 1) := by
    have found := covers.routines _ (Program.mem_functionsOf_init hc)
    rwa [resolved.init_params hc] at found
  have slots : Moves declared 0 0 (c.layout.slots.flatMap ClassLayout.initSlot) :=
    .each fun slot _ => (Moves.globalGet covers.heap).append (((Moves.const _).frame 1).append
      ((Moves.binary .add).append (((Moves.const _).frame 1).append (.store covers.memory))))
  refine slots.append ?_
  -- the address is kept in a local while the object is constructed
  have keep := (Moves.globalGet covers.heap).append (.localSet covers.alloc)
  have move := (Moves.globalGet covers.heap).append (((Moves.const c.layout.size).frame 1).append
    ((Moves.binary .add).append (.globalSet covers.heap)))
  have run := (Moves.localGet covers.alloc).append ((Moves.call init).append
    (Moves.drop.append (.localGet covers.alloc)))
  exact keep.append (move.append run)

/-- The code of an expression leaves its value. -/
theorem Expr.Lowers.moves (resolved : p.IsResolved) (covers : declared.Covers p names) {e : Expr}
    {code : List Instr} (h : e.Lowers p names code) : Moves declared 0 1 code := by
  induction h with
  | literal ty v => exact .const _
  | readLocal ty hx => exact .localGet (covers.locals _ hx)
  | readGlobal ty hx known => exact .globalGet (covers.globals _ known)
  | neg ty operand ih => exact ih.append (((Moves.const _).frame 1).append (.binary .mul))
  | not ty operand ih => exact ih.append .eqz
  | binary ty op hl hr ihl ihr => exact (ihl.append (ihr.frame 1)).append (.binary _)
  | print ty typed argument ih => exact ih.append (.call (covers.printers _))
  | construct ty notPrint found =>
    exact ClassDef.moves_construct resolved covers (Program.mem_of_class? found).1
  | call ty code notPrint noClass found arity arguments ih =>
    have callee := covers.routines _ (Program.mem_functionsOf_function found)
    rw [arity] at callee
    exact (Moves.flatMap ih).append (.call callee)
  | field ty found place receiver ih =>
    exact ih.append (((Moves.const _).frame 1).append ((Moves.binary .add).append
      (.load covers.memory)))
  | method ty code found member arity receiver arguments ih ihargs =>
    have callee := covers.routines _ (Program.mem_functionsOf_method
      (Program.mem_of_class? (Program.class?_of_classOf? found)).1 member)
    rw [arity, Nat.add_comm] at callee
    exact (ih.append ((Moves.flatMap ihargs).frame 1)).append (.call callee)

/-! ## §4 Statements -/

/-- An instruction that takes the value of an expression, and the code after it. -/
theorem Wasm.Moves.thenBalances {labels : List String} {code rest : List Instr} {i : Instr}
    (value : Moves declared 0 1 code)
    (step : ∀ h : Height, ∃ h', Instr.height? declared labels (h.push 1) i = some h' ∧
      (h.count = 0 → h'.count = 0))
    (tail : Balances declared labels rest) : Balances declared labels (code ++ i :: rest) := by
  intro h empty
  obtain ⟨middle, first, middleEmpty⟩ := step h
  obtain ⟨last, heights, lastEmpty⟩ := tail middle (middleEmpty empty)
  have start := value labels h
  rw [show h.push 0 = h from rfl] at start
  refine ⟨last, ?_, lastEmpty⟩
  rw [Instr.heights?_append, start, Option.bind_some, Instr.heights?, first]
  exact heights

/-- An instruction that takes one operand and does nothing else to the stack. -/
theorem Wasm.Height.step_of_eq {labels : List String} {i : Instr}
    (step : ∀ h : Height, Instr.height? declared labels (h.push 1) i = (h.push 1).pop? 1) (h : Height) :
    ∃ h', Instr.height? declared labels (h.push 1) i = some h' ∧ (h.count = 0 → h'.count = 0) :=
  ⟨h, by rw [step, Height.pop?_push], id⟩

/-- A loop is balanced if its body is, with its two labels at hand. -/
theorem Surroundings.balances_whileLoop {n : Nat} {cond inner : List Instr} {labels : List String}
    (condition : Moves declared 0 1 cond)
    (body : Balances declared (againLabel n :: leaveLabel n :: labels) inner) :
    Balances declared labels [whileLoop n cond inner] := by
  have again : Balances declared (againLabel n :: leaveLabel n :: labels) [.br (againLabel n)] := by
    intro h empty
    refine ⟨.unreachable, ?_, rfl⟩
    simp [Instr.heights?, Instr.height?]
  have test : Balances declared (againLabel n :: leaveLabel n :: labels)
      ((cond ++ [Instr.eqz]) ++ [Instr.brIf (leaveLabel n)]) := by
    refine (condition.append .eqz).thenBalances (Height.step_of_eq fun h => ?_) .nil
    simp [Instr.height?]
  have round := ((test.append body).append again).balanced
  intro h empty
  refine ⟨h, ?_, empty⟩
  have loop : Instr.balanced declared (leaveLabel n :: labels)
      [.loop (againLabel n) (cond ++ [Instr.eqz, .brIf (leaveLabel n)] ++ inner ++
        [.br (againLabel n)])] = true := by
    refine Balances.balanced fun h empty => ⟨h, ?_, empty⟩
    rw [Instr.heights?, Instr.height?, if_pos (by simpa using round)]
    rfl
  rw [whileLoop, Instr.heights?, Instr.height?, if_pos loop]
  rfl

/-- The code of statements starts and ends without operands. -/
theorem Stmt.Lowers.balances (resolved : p.IsResolved) (covers : declared.Covers p names)
    {mayReturn : Bool} (results : mayReturn = true → declared.results = 1) {n n' : Nat}
    {ss : List Stmt} {code : List Instr} (h : Stmt.Lowers p names mayReturn n ss code n')
    (labels : List String) : Balances declared labels code := by
  induction h generalizing labels with
  | nil n => exact .nil
  | pass tail ih => exact ih labels
  | expr value tail ih =>
    refine (value.moves resolved covers).thenBalances (Height.step_of_eq fun h => ?_) (ih labels)
    exact if_pos covers.scratch
  | assignLocal hx value tail ih =>
    refine (value.moves resolved covers).thenBalances (Height.step_of_eq fun h => ?_) (ih labels)
    exact if_pos (covers.locals _ hx)
  | assignGlobal hx known value tail ih =>
    have set := (value.moves resolved covers).append (.globalSet (covers.globals _ known))
    simpa using (set.balances labels).append (ih labels)
  | @assignMember n n' o e x c k ss self code rest found place receiver value tail ih =>
    have address := (receiver.moves resolved covers).append
      (((Moves.const k).frame 1).append (.binary .add))
    have set := (address.append ((value.moves resolved covers).frame 1)).append (.store covers.memory)
    simpa using (set.balances labels).append (ih labels)
  | return_ allowed value tail ih =>
    refine (value.moves resolved covers).thenBalances (fun h => ⟨.unreachable, ?_, fun _ => rfl⟩)
      (ih labels)
    rw [Instr.height?, results allowed, Wasm.Height.pop?_push]
    rfl
  | @while_ n n₁ n' c body ss cond inner rest condition round tail ihround ih =>
    have loop : Balances declared labels [Surroundings.whileLoop n cond inner] :=
      Surroundings.balances_whileLoop (condition.moves resolved covers) (ihround _)
    exact loop.append (ih labels)
  | if_ condition yes no tail ihyes ihno ih =>
    refine (condition.moves resolved covers).thenBalances (Height.step_of_eq fun h => ?_) (ih labels)
    rw [Instr.height?, (ihyes labels).balanced, (ihno labels).balanced]
    rfl
  | elif condition yes no tail ihyes ihno ih =>
    refine (condition.moves resolved covers).thenBalances (Height.step_of_eq fun h => ?_) (ih labels)
    rw [Instr.height?, (ihyes labels).balanced, (ihno labels).balanced]
    rfl

/-! ## §5 Labels -/

namespace Wasm.Instr

mutual

/-- The labels that an instruction declares, an outer one before those inside it. -/
def labels : Instr → List String
  | .block l body | .loop l body => l :: listLabels body
  | .ifElse thn els => listLabels thn ++ listLabels els
  | _ => []

/-- The labels that instructions declare. -/
def listLabels : List Instr → List String
  | [] => []
  | i :: is => labels i ++ listLabels is

end

theorem listLabels_append (is js : List Instr) :
    listLabels (is ++ js) = listLabels is ++ listLabels js := by
  induction is with
  | nil => rfl
  | cons i is ih => simp [listLabels, ih]

theorem listLabels_flatMap {α : Type} {code : α → List Instr} {xs : List α}
    (h : ∀ x ∈ xs, listLabels (code x) = []) : listLabels (xs.flatMap code) = [] := by
  induction xs with
  | nil => rfl
  | cons x xs ih =>
    rw [List.flatMap_cons, listLabels_append, h x (by simp), ih fun y hy => h y (by simp [hy])]
    rfl

end Wasm.Instr

open Wasm.Instr (listLabels listLabels_append listLabels_flatMap)

/-- The code of an expression declares no label. -/
theorem Expr.Lowers.listLabels_eq {e : Expr} {code : List Instr} (h : e.Lowers p names code) :
    listLabels code = [] := by
  induction h with
  | construct ty notPrint found =>
    rw [ClassLayout.construct, listLabels_append, listLabels_flatMap fun _ _ => rfl]
    rfl
  | call ty code notPrint noClass found arity arguments ih =>
    rw [listLabels_append, listLabels_flatMap ih]
    rfl
  | method ty code found member arity receiver arguments ih ihargs =>
    rw [listLabels_append, listLabels_append, ih, listLabels_flatMap ihargs]
    rfl
  | _ => simp_all [listLabels_append, listLabels, Wasm.Instr.labels]

/-- The labels of the loops with the numbers from `n` up to `n'`. -/
def loopLabels (n n' : Nat) : List String :=
  (List.range' n (n' - n)).flatMap fun k => [Surroundings.leaveLabel k, Surroundings.againLabel k]

theorem loopLabels_append {n m n' : Nat} (h : n ≤ m) (h' : m ≤ n') :
    loopLabels n m ++ loopLabels m n' = loopLabels n n' := by
  have range : List.range' n (m - n) ++ List.range' m (n' - m) = List.range' n (n' - n) := by
    have := List.range'_append_1 (s := n) (m := m - n) (n := n' - m)
    rwa [show n + (m - n) = m by omega, show m - n + (n' - m) = n' - n by omega] at this
  rw [loopLabels, loopLabels, loopLabels, ← List.flatMap_append, range]

theorem loopLabels_self (n : Nat) : loopLabels n n = [] := by
  simp [loopLabels]

theorem loopLabels_succ (n : Nat) :
    loopLabels n (n + 1) = [Surroundings.leaveLabel n, Surroundings.againLabel n] := by
  simp [loopLabels]

/-- Code declares the labels of the loops that are numbered in it, each once and in order. -/
theorem Stmt.Lowers.listLabels_eq {mayReturn : Bool} {n n' : Nat} {ss : List Stmt}
    {code : List Instr} (h : Stmt.Lowers p names mayReturn n ss code n') :
    n ≤ n' ∧ listLabels code = loopLabels n n' := by
  induction h with
  | nil n => exact ⟨Nat.le_refl n, (loopLabels_self n).symm⟩
  | pass tail ih => exact ih
  | expr value tail ih | assignLocal hx value tail ih | assignGlobal hx known value tail ih
  | return_ allowed value tail ih =>
    refine ⟨ih.1, ?_⟩
    rw [listLabels_append, value.listLabels_eq]
    exact ih.2
  | assignMember found place receiver value tail ih =>
    refine ⟨ih.1, ?_⟩
    simp only [listLabels_append, receiver.listLabels_eq, value.listLabels_eq]
    exact ih.2
  | @while_ n n₁ n' c body ss cond inner rest condition round tail ihround ih =>
    have inside : listLabels [Surroundings.whileLoop n cond inner] = loopLabels n n₁ := by
      rw [← loopLabels_append (Nat.le_succ n) ihround.1, loopLabels_succ, ← ihround.2]
      simp [Surroundings.whileLoop, listLabels, Wasm.Instr.labels, listLabels_append,
        condition.listLabels_eq]
    refine ⟨by omega, ?_⟩
    rw [← loopLabels_append (m := n₁) (by omega) ih.1, ← inside, ← ih.2, ← listLabels_append]
    rfl
  | @if_ n n₁ n₂ n' c body ss orElse cond thn els rest condition yes no tail ihyes ihno ih
  | @elif n n₁ n₂ n' c d body other ss orElse cond thn els rest condition yes no tail ihyes ihno ih =>
    refine ⟨by omega, ?_⟩
    rw [← loopLabels_append (m := n₂) (by omega) ih.1, ← loopLabels_append ihyes.1 ihno.1, ← ih.2,
      ← ihno.2, ← ihyes.2, listLabels_append, condition.listLabels_eq]
    rfl

end

theorem Surroundings.toList_leaveLabel (n : Nat) :
    (leaveLabel n).toList = "$while$".toList ++ Nat.toDigits 10 n := by
  simp [leaveLabel]

theorem Surroundings.toList_againLabel (n : Nat) :
    (againLabel n).toList = "$while$".toList ++ (Nat.toDigits 10 n ++ "$loop".toList) := by
  simp [againLabel]

theorem toDigits_inj {n k : Nat} (h : Nat.toDigits 10 n = Nat.toDigits 10 k) : n = k := by
  have := natOfDigits?_toDigits n
  rw [h, natOfDigits?_toDigits] at this
  exact (Option.some.inj this).symm

theorem Surroundings.leaveLabel_inj {n k : Nat} (h : leaveLabel n = leaveLabel k) : n = k := by
  have same := congrArg String.toList h
  rw [toList_leaveLabel, toList_leaveLabel, List.append_cancel_left_eq] at same
  exact toDigits_inj same

theorem Surroundings.againLabel_inj {n k : Nat} (h : againLabel n = againLabel k) : n = k := by
  have same := congrArg String.toList h
  rw [toList_againLabel, toList_againLabel, List.append_cancel_left_eq,
    List.append_cancel_right_eq] at same
  exact toDigits_inj same

/-- A label that leaves a loop ends in a digit, so it is none that starts a loop again. -/
theorem Surroundings.leaveLabel_ne (n k : Nat) : leaveLabel n ≠ againLabel k := by
  intro h
  have same := congrArg String.toList h
  rw [toList_leaveLabel, toList_againLabel, List.append_cancel_left_eq] at same
  have dollar : '$' ∈ Nat.toDigits 10 n := by
    rw [same]
    exact List.mem_append_right _ (by decide)
  exact absurd (isDigit_of_mem_toDigits dollar) (by decide)

theorem loopLabels_nodup (n n' : Nat) : (loopLabels n n').Nodup := by
  refine List.nodup_flatMap.2 ⟨fun k _ => ?_, ?_⟩
  · simpa using Surroundings.leaveLabel_ne k k
  · refine (List.nodup_range' (s := n) (n := n' - n)).imp fun {k k'} differ => ?_
    intro label mem mem'
    simp only [List.mem_cons, List.not_mem_nil, or_false] at mem mem'
    rcases mem with rfl | rfl <;> rcases mem' with same | same
    · exact differ (Surroundings.leaveLabel_inj same)
    · exact Surroundings.leaveLabel_ne _ _ same
    · exact Surroundings.leaveLabel_ne _ _ same.symm
    · exact differ (Surroundings.againLabel_inj same)

/-! ## §6 Names in valid code -/

namespace Wasm

/-- A name is declared as what it stands for. -/
def Names.Declares (names : Names) (labels : List String) : NameKind × String → Prop
  | (.localVar, x) => x ∈ names.locals
  | (.globalVar, x) => x ∈ names.globals.map (·.name)
  | (.function, f) => f ∈ names.funcs.map (·.1)
  | (.label, l) => l ∈ labels

theorem Names.Declares.mono {names : Names} {labels labels' : List String} {s : NameKind × String}
    (h : names.Declares labels s) (sub : labels ⊆ labels') : names.Declares labels' s := by
  obtain ⟨kind, x⟩ := s
  cases kind with
  | label => exact sub h
  | _ => exact h

theorem Instr.exists_of_balanced {names : Names} {labels : List String} {is : List Instr}
    (h : balanced names labels is = true) : ∃ h', heights? names labels ⟨0, false⟩ is = some h' := by
  cases is with
  | nil => exact ⟨_, rfl⟩
  | cons i is =>
    rw [balanced] at h
    rw [heights?]
    cases first : height? names labels ⟨0, false⟩ i with
    | none => simp [first] at h
    | some middle =>
      cases rest : heights? names labels middle is with
      | none => simp [first, rest] at h
      | some last => exact ⟨last, rest⟩

mutual

/-- Every name in an instruction that is valid is declared, a label outside or inside of it. -/
theorem Instr.declares_symbols {names : Names} :
    ∀ (i : Instr) {labels : List String} {h h' : Height}, height? names labels h i = some h' →
      ∀ s ∈ i.symbols, names.Declares (labels ++ i.labels) s
  | .localGet x, _, _, _, valid, s, hs => by
    rw [height?, Option.ite_none_right_eq_some] at valid
    cases List.mem_singleton.1 hs
    exact valid.1
  | .localSet x, _, _, _, valid, s, hs => by
    rw [height?, Option.ite_none_right_eq_some] at valid
    cases List.mem_singleton.1 hs
    exact valid.1
  | .globalGet x, _, _, _, valid, s, hs => by
    rw [height?, Option.ite_none_right_eq_some, List.any_eq_true] at valid
    obtain ⟨⟨g, hg, name⟩, -⟩ := valid
    cases List.mem_singleton.1 hs
    exact List.mem_map.2 ⟨g, hg, by simpa using name⟩
  | .globalSet x, _, _, _, valid, s, hs => by
    rw [height?, Option.ite_none_right_eq_some, List.any_eq_true] at valid
    obtain ⟨⟨g, hg, name⟩, -⟩ := valid
    rw [Bool.and_eq_true] at name
    cases List.mem_singleton.1 hs
    exact List.mem_map.2 ⟨g, hg, by simpa using name.1⟩
  | .call f, _, _, _, valid, s, hs => by
    rw [height?] at valid
    cases List.mem_singleton.1 hs
    cases found : names.funcs.lookup f with
    | none => simp [found] at valid
    | some signature => exact List.mem_map_of_mem (f := Prod.fst) (mem_of_lookup found)
  | .br l, _, _, _, valid, s, hs => by
    rw [height?, Option.ite_none_right_eq_some] at valid
    cases List.mem_singleton.1 hs
    exact List.mem_append_left _ valid.1
  | .brIf l, _, _, _, valid, s, hs => by
    rw [height?, Option.ite_none_right_eq_some] at valid
    cases List.mem_singleton.1 hs
    exact List.mem_append_left _ valid.1
  | .ifElse thn els, labels, _, _, valid, s, hs => by
    rw [height?, Option.ite_none_right_eq_some, Bool.and_eq_true] at valid
    obtain ⟨_, yes⟩ := exists_of_balanced valid.1.1
    obtain ⟨_, no⟩ := exists_of_balanced valid.1.2
    rcases List.mem_append.1 hs with hs | hs
    · refine (declares_listSymbols thn yes s hs).mono fun l hl => ?_
      simp only [Instr.labels, List.mem_append] at hl ⊢
      tauto
    · refine (declares_listSymbols els no s hs).mono fun l hl => ?_
      simp only [Instr.labels, List.mem_append] at hl ⊢
      tauto
  | .block l body, labels, _, _, valid, s, hs | .loop l body, labels, _, _, valid, s, hs => by
    rw [height?, Option.ite_none_right_eq_some] at valid
    obtain ⟨_, inner⟩ := exists_of_balanced valid.1
    rcases List.mem_cons.1 hs with rfl | hs
    · exact List.mem_append_right _ List.mem_cons_self
    · refine (declares_listSymbols body inner s hs).mono fun l' hl => ?_
      simp only [Instr.labels, List.mem_append, List.mem_cons] at hl ⊢
      tauto
  | .const _, _, _, _, _, _, hs | .binary _, _, _, _, _, _, hs | .eqz, _, _, _, _, _, hs
  | .load, _, _, _, _, _, hs | .store, _, _, _, _, _, hs | .drop, _, _, _, _, _, hs
  | .return_, _, _, _, _, _, hs => by cases hs

theorem Instr.declares_listSymbols {names : Names} :
    ∀ (is : List Instr) {labels : List String} {h h' : Height}, heights? names labels h is = some h' →
      ∀ s ∈ listSymbols is, names.Declares (labels ++ listLabels is) s
  | [], _, _, _, _, _, hs => by cases hs
  | i :: is, labels, h, h', valid, s, hs => by
    rw [heights?] at valid
    cases first : height? names labels h i with
    | none => simp [first] at valid
    | some middle =>
      simp only [first] at valid
      rcases List.mem_append.1 hs with hs | hs
      · refine (declares_symbols i first s hs).mono fun l hl => ?_
        simp only [listLabels, List.mem_append] at hl ⊢
        tauto
      · refine (declares_listSymbols is valid s hs).mono fun l hl => ?_
        simp only [listLabels, List.mem_append] at hl ⊢
        tauto

end

end Wasm

end Serpent
