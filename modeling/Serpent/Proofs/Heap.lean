/-
Serpent.Proofs.Heap — the objects of a running program and what their fields hold.

Objects lie one behind the other from address 4 on. As long as their addresses do not wrap around,
no two of them share a byte, so a field that is written leaves all other fields as they are.

  §1 Words in memory
  §2 Objects that lie one behind the other
  §3 Words that stand for values of a type
  §4 Worlds in which everything fits its type
  §5 Reading and writing
  §6 Making an object
-/
import Mathlib.Algebra.GroupWithZero.Nat
import Serpent.Proofs.Evaluate
import Serpent.Proofs.Lookup
import Serpent.Proofs.Typing

namespace Serpent

open Wasm (Bindings Memory)

/-! ## §1 Words in memory -/

namespace Word

theorem ofNat_address (w : Word) : Int32.ofNat w.address = w := by
  unfold address
  rw [← UInt32.toInt32_ofNat', UInt32.ofNat_toNat, Int32.toInt32_toUInt32]

theorem address_lt (w : Word) : w.address < count := w.toUInt32.toNat_lt

/-- A sum of addresses is the address of the sum, if it does not wrap around. -/
theorem address_add {a b : Word} (h : a.address + b.address < count) :
    (a + b).address = a.address + b.address := by
  unfold address at *
  rw [Int32.toUInt32_add, UInt32.toNat_add]
  exact Nat.mod_eq_of_lt h

theorem address_ofNat {n : Nat} (h : n < count) : address (Int32.ofNat n) = n := by
  unfold address
  rw [Int32.toUInt32_ofNat', UInt32.toNat_ofNat']
  exact Nat.mod_eq_of_lt h

theorem ofBytes_byte (w : Word) :
    ofBytes (w.byte 0) (w.byte 1) (w.byte 2) (w.byte 3) = w := by
  have bound := w.address_lt
  have same : (w.byte 0).toNat + 256 * (w.byte 1).toNat + 65536 * (w.byte 2).toNat +
      16777216 * (w.byte 3).toNat = w.address := by
    simp only [byte, UInt8.toNat_ofNat', Nat.shiftRight_eq_div_pow, count] at *
    omega
  rw [ofBytes, same, ofNat_address]

end Word

namespace Wasm.Memory

theorem load?_of_store? {m m' : Memory} {a : Nat} {w : Word} (h : m.store? a w = some m') :
    m'.load? a = some w := by
  unfold store? at h
  split at h
  · rename_i inside
    cases h
    simp [load?, inside, byte_setByte, Word.ofBytes_byte]
  · cases h

/-- A word that is written leaves the words that share no byte with it. -/
theorem load?_of_store?_apart {m m' : Memory} {a b : Nat} {w : Word} (h : m.store? a w = some m')
    (apart : b + 4 ≤ a ∨ a + 4 ≤ b) : m'.load? b = m.load? b := by
  unfold store? at h
  split at h
  · cases h
    have bytes : ∀ i j, i < 4 → j < 4 → a + i ≠ b + j := by omega
    have bytesLeft : ∀ j, j < 4 → a ≠ b + j := by omega
    have bytesRight : ∀ i, i < 4 → a + i ≠ b := by omega
    have first : a ≠ b := by omega
    simp [load?, byte_setByte, bytes, bytesLeft, bytesRight, first]
  · cases h

theorem exists_store? {m : Memory} {a : Nat} {v : Word} (h : m.load? a = some v) (w : Word) :
    ∃ m', m.store? a w = some m' := by
  unfold load? at h
  split at h
  · rename_i inside
    exact ⟨_, if_pos inside⟩
  · cases h

end Wasm.Memory

/-! ## §2 Objects that lie one behind the other -/

/-- How many bytes an object of a class takes: one word, and one for each field. -/
def ClassDef.bytes (c : ClassDef) : Nat := 4 * (c.fields.length + 1)

/-- The objects that a program has made, the oldest one first: their addresses and classes. -/
abbrev Objects := List (Word × ClassDef)

namespace Objects

/-- How many bytes objects take. -/
def bytes (objects : Objects) : Nat := (objects.map fun o => o.2.bytes).sum

@[simp] theorem bytes_nil : bytes [] = 0 := rfl

@[simp] theorem bytes_cons (o : Word × ClassDef) (objects : Objects) :
    bytes (o :: objects) = o.2.bytes + bytes objects := by
  simp [bytes]

@[simp] theorem bytes_append (objects others : Objects) :
    bytes (objects ++ others) = bytes objects + bytes others := by
  simp [bytes]

/-- The first object is at an address, and every other one right behind the one before it. -/
def Laid : Nat → Objects → Prop
  | _, [] => True
  | start, o :: rest => o.1.address = start ∧ Laid (start + o.2.bytes) rest

theorem laid_append {start : Nat} {objects others : Objects} :
    Laid start (objects ++ others) ↔ Laid start objects ∧ Laid (start + objects.bytes) others := by
  induction objects generalizing start with
  | nil => simp [Laid]
  | cons o objects ih => simp [Laid, ih, and_assoc, Nat.add_assoc]

/-- Every object lies between the start and the end of all of them. -/
theorem Laid.bounds {start : Nat} {objects : Objects} (h : Laid start objects)
    {o : Word × ClassDef} (ho : o ∈ objects) :
    start ≤ o.1.address ∧ o.1.address + o.2.bytes ≤ start + objects.bytes := by
  induction objects generalizing start with
  | nil => cases ho
  | cons first objects ih =>
    obtain ⟨here, rest⟩ := h
    rw [bytes_cons]
    rcases List.mem_cons.1 ho with rfl | ho
    · omega
    · have := ih rest ho
      omega

/-- Two objects that share a byte are the same one. -/
theorem Laid.eq_of_overlap {start : Nat} {objects : Objects} (h : Laid start objects)
    {o o' : Word × ClassDef} (ho : o ∈ objects) (ho' : o' ∈ objects) {b : Nat}
    (inside : o.1.address ≤ b ∧ b < o.1.address + o.2.bytes)
    (inside' : o'.1.address ≤ b ∧ b < o'.1.address + o'.2.bytes) : o = o' := by
  induction objects generalizing start with
  | nil => cases ho
  | cons first objects ih =>
    obtain ⟨here, rest⟩ := h
    rcases List.mem_cons.1 ho with rfl | later
    · rcases List.mem_cons.1 ho' with rfl | later'
      · rfl
      · have := rest.bounds later'
        omega
    · rcases List.mem_cons.1 ho' with rfl | later'
      · have := rest.bounds later
        omega
      · exact ih rest later later'

end Objects

theorem ClassDef.bytes_pos (c : ClassDef) : 0 < c.bytes := by
  unfold bytes
  omega

/-! ## §3 Words that stand for values of a type -/

/-- A word stands for a value of a type: any word for a number, 0 or 1 for a truth value, 0 for
`None`, and for an object 0 or the address of an object that was made as one of its class. -/
def Represents (objects : Objects) : Ty → Word → Prop
  | .int, _ => True
  | .bool, w => w = 0 ∨ w = 1
  | .none, w => w = 0
  | .object c, w => w = 0 ∨ ∃ d, (w, d) ∈ objects ∧ d.name = c

namespace Represents

variable {objects objects' : Objects} {t u : Ty} {w : Word}

/-- The word 0 stands for a value of every type. -/
theorem zero (objects : Objects) (t : Ty) : Represents objects t 0 := by
  cases t with
  | int => trivial
  | bool => exact .inl rfl
  | none => rfl
  | object c => exact .inl rfl

theorem fits (h : Represents objects t w) (hu : t.Fits u) : Represents objects u w := by
  cases hu with
  | none =>
    obtain rfl : w = 0 := h
    exact zero objects u
  | same => exact h

/-- More objects change nothing. -/
theorem mono (h : Represents objects t w) (more : objects ⊆ objects') :
    Represents objects' t w := by
  cases t with
  | int => trivial
  | bool => exact h
  | none => exact h
  | object c =>
    rcases h with rfl | ⟨d, hd, name⟩
    · exact .inl rfl
    · exact .inr ⟨d, more hd, name⟩

theorem ofBool (objects : Objects) (b : Bool) : Represents objects .bool (Word.ofBool b) := by
  cases b with
  | true => exact .inr rfl
  | false => exact .inl rfl

theorem literal (objects : Objects) (v : Literal) : Represents objects v.ty v.word := by
  cases v with
  | none => rfl
  | number n => trivial
  | bool b => exact ofBool objects b

theorem unary {op : UnOp} (h : op.Takes t u) (objects : Objects) (w : Word) :
    Represents objects u (op.apply w) := by
  cases h with
  | neg => trivial
  | not => exact ofBool objects _

/-- Operators on values give values; the bits of truth values are combined to truth values. -/
theorem binary {op : BinOp} {l r : Ty} {a b : Word} (h : op.Takes l r t)
    (ha : Represents objects l a) (hb : Represents objects r b) (result : op.apply a b = .ok w) :
    Represents objects t w := by
  cases h with
  | arithmetic h => trivial
  | order h =>
    simp only [List.mem_cons, List.not_mem_nil, or_false] at h
    rcases h with rfl | rfl | rfl | rfl <;> cases result <;> exact ofBool objects _
  | equality h ht =>
    simp only [List.mem_cons, List.not_mem_nil, or_false] at h
    rcases h with rfl | rfl <;> cases result <;> exact ofBool objects _
  | logic h =>
    simp only [List.mem_cons, List.not_mem_nil, or_false] at h
    show w = 0 ∨ w = 1
    rcases ha with rfl | rfl <;> rcases hb with rfl | rfl <;> rcases h with rfl | rfl <;>
      cases result <;> decide
  | is hl hr =>
    cases result
    exact ofBool objects _

end Represents

/-! ## §4 Worlds in which everything fits its type -/

/-- Named words fit named types, in the same order. -/
def Fit (objects : Objects) (vars : List (String × Ty)) (words : Bindings) : Prop :=
  List.Forall₂ (fun v e => e.1 = v.1 ∧ Represents objects v.2 e.2) vars words

namespace Fit

variable {objects objects' : Objects} {vars : List (String × Ty)} {words : Bindings}

theorem keys (h : Fit objects vars words) : words.map (·.1) = vars.map (·.1) := by
  induction h with
  | nil => rfl
  | cons first _ ih => rw [List.map_cons, List.map_cons, first.1, ih]

theorem mono (h : Fit objects vars words) (more : objects ⊆ objects') :
    Fit objects' vars words :=
  h.imp fun _ _ first => ⟨first.1, first.2.mono more⟩

/-- Declared variables fit if the word that each of them has stands for a value of its type. -/
theorem of_varDefs {defs : List VarDef} {word : VarDef → Word}
    (h : ∀ v ∈ defs, Represents objects v.ty (word v)) :
    Fit objects (defs.map fun v => (v.name, v.ty)) (defs.map fun v => (v.name, word v)) := by
  unfold Fit
  rw [List.forall₂_map_left_iff, List.forall₂_map_right_iff, List.forall₂_same]
  exact fun v hv => ⟨rfl, h v hv⟩

theorem exists_of_mem (h : Fit objects vars words) {x : String} {t : Ty} (hx : (x, t) ∈ vars) :
    ∃ w, (x, w) ∈ words ∧ Represents objects t w := by
  induction h with
  | nil => cases hx
  | @cons v e vars words first _ ih =>
    rcases List.mem_cons.1 hx with rfl | hx
    · obtain ⟨y, w⟩ := e
      obtain ⟨rfl, represents⟩ := first
      exact ⟨w, List.mem_cons_self, represents⟩
    · obtain ⟨w, hw, represents⟩ := ih hx
      exact ⟨w, List.mem_cons_of_mem _ hw, represents⟩

/-- A name has a word that stands for a value of its type. -/
theorem lookup (h : Fit objects vars words) (distinct : (vars.map (·.1)).Nodup) {x : String}
    {t : Ty} (hx : (x, t) ∈ vars) : ∃ w, words.lookup x = some w ∧ Represents objects t w := by
  obtain ⟨w, hw, represents⟩ := h.exists_of_mem hx
  refine ⟨w, lookup_of_nodup ?_ hw, represents⟩
  rw [h.keys]
  exact distinct

theorem set (h : Fit objects vars words) (distinct : (vars.map (·.1)).Nodup) {x : String} {t : Ty}
    (hx : (x, t) ∈ vars) {w : Word} (hw : Represents objects t w) :
    Fit objects vars (words.set x w) := by
  have each : ∀ v ∈ vars, v.1 = x → Represents objects v.2 w := by
    intro v hv same
    have found := lookup_of_nodup distinct (x := x) (a := v.2) (by rw [← same]; exact hv)
    rw [lookup_of_nodup distinct hx] at found
    cases found
    exact hw
  clear hx hw distinct
  unfold Fit Bindings.set at *
  induction h with
  | nil => exact .nil
  | @cons v e vars words first _ ih =>
    rw [List.forall_mem_cons] at each
    refine .cons ?_ (ih each.2)
    by_cases same : e.1 = x
    · simp only [same, if_true]
      have named : v.1 = x := by rw [← first.1, same]
      exact ⟨named.symm, each.1 named⟩
    · simp only [same, if_false]
      exact first

end Fit

/-- Everything in a world fits its type: the global variables, and every field of every object. The
objects lie one behind the other, and the first free address is right behind them. -/
structure World.Fits (p : Program) (objects : Objects) (W : World) : Prop where
  laid : Objects.Laid 4 objects
  free : W.free.address = 4 + objects.bytes
  classes : ∀ o ∈ objects, p.class? o.2.name = some o.2
  globals : Fit objects (p.globalVars.map fun v => (v.name, v.ty)) W.globals
  slots : ∀ o ∈ objects, ∀ i v, o.2.fields[i]? = some v →
    ∃ w, W.memory.load? (o.1 + fieldPlace i).address = some w ∧ Represents objects v.ty w

namespace World.Fits

variable {p : Program} {objects : Objects} {W : World}

/-! ## §5 Reading and writing -/

/-- The address of a field, if it does not wrap around. -/
theorem address_field {a : Word} {i : Nat} (h : a.address + 4 * (i + 1) < Word.count) :
    (a + fieldPlace i).address = a.address + 4 * (i + 1) := by
  have place : (fieldPlace i).address = 4 * (i + 1) := Word.address_ofNat (by omega)
  rw [Word.address_add (by omega), place]

theorem address_slot (h : W.Fits p objects) {o : Word × ClassDef} (ho : o ∈ objects) {i : Nat}
    {v : VarDef} (hv : o.2.fields[i]? = some v) :
    (o.1 + fieldPlace i).address = o.1.address + 4 * (i + 1) ∧ i < o.2.fields.length := by
  obtain ⟨hi, -⟩ := List.getElem?_eq_some_iff.1 hv
  have bounds := h.laid.bounds ho
  have bound := W.free.address_lt
  rw [h.free] at bound
  unfold ClassDef.bytes at bounds
  exact ⟨address_field (by omega), hi⟩

/-- A field of an object is written: all other fields are left as they are. -/
theorem store (h : W.Fits p objects) {o : Word × ClassDef} (ho : o ∈ objects) {i : Nat} {v : VarDef}
    (hv : o.2.fields[i]? = some v) {w : Word} (hw : Represents objects v.ty w) :
    ∃ memory, W.memory.store? (o.1 + fieldPlace i).address w = some memory ∧
      World.Fits p objects { W with memory } := by
  obtain ⟨old, hold, -⟩ := h.slots o ho i v hv
  obtain ⟨memory, stored⟩ := Wasm.Memory.exists_store? hold w
  refine ⟨memory, stored, h.laid, h.free, h.classes, h.globals, ?_⟩
  intro o' ho' j v' hv'
  obtain ⟨place, hi⟩ := h.address_slot ho hv
  obtain ⟨place', hj⟩ := h.address_slot ho' hv'
  by_cases same : (o.1 + fieldPlace i).address = (o'.1 + fieldPlace j).address
  · -- the same address is the same field of the same object
    have eq : o = o' := by
      refine h.laid.eq_of_overlap ho ho' (b := (o.1 + fieldPlace i).address) ?_ ?_
      · unfold ClassDef.bytes
        omega
      · unfold ClassDef.bytes
        omega
    subst eq
    have index : i = j := by omega
    subst index
    rw [hv] at hv'
    cases hv'
    exact ⟨w, Wasm.Memory.load?_of_store? stored, hw⟩
  · have apart : (o'.1 + fieldPlace j).address + 4 ≤ (o.1 + fieldPlace i).address ∨
        (o.1 + fieldPlace i).address + 4 ≤ (o'.1 + fieldPlace j).address := by
      by_cases eq : o = o'
      · subst eq
        omega
      · by_contra overlap
        refine eq (h.laid.eq_of_overlap ho ho'
          (b := max (o.1 + fieldPlace i).address (o'.1 + fieldPlace j).address) ?_ ?_)
        · unfold ClassDef.bytes
          omega
        · unfold ClassDef.bytes
          omega
    show ∃ u, memory.load? _ = some u ∧ _
    rw [Wasm.Memory.load?_of_store?_apart stored apart]
    exact h.slots o' ho' j v' hv'

/-- A word behind all objects is written: all fields are left as they are. -/
theorem storeBehind (h : W.Fits p objects) {k : Nat}
    (room : 4 + objects.bytes + 4 * (k + 1) < Word.count) {w : Word} {memory : Memory}
    (stored : W.memory.store? (W.free + fieldPlace k).address w = some memory) :
    World.Fits p objects { W with memory } := by
  refine ⟨h.laid, h.free, h.classes, h.globals, fun o ho i v hv => ?_⟩
  obtain ⟨place, hi⟩ := h.address_slot ho hv
  have bounds := h.laid.bounds ho
  rw [← h.free] at room bounds
  unfold ClassDef.bytes at bounds
  have apart : (o.1 + fieldPlace i).address + 4 ≤ (W.free + fieldPlace k).address := by
    rw [place, address_field room]
    omega
  show ∃ u, memory.load? _ = some u ∧ _
  rw [Wasm.Memory.load?_of_store?_apart stored (.inl apart)]
  exact h.slots o ho i v hv

theorem setGlobal (h : W.Fits p objects) (distinct : (p.globalVars.map (·.name)).Nodup)
    {v : VarDef} (hv : v ∈ p.globalVars) {w : Word} (hw : Represents objects v.ty w) :
    World.Fits p objects { W with globals := W.globals.set v.name w } := by
  refine ⟨h.laid, h.free, h.classes, h.globals.set ?_ (List.mem_map.2 ⟨v, hv, rfl⟩) hw, h.slots⟩
  rw [List.map_map]
  exact distinct

theorem setOutput (h : W.Fits p objects) (output : String) :
    World.Fits p objects { W with output } :=
  ⟨h.laid, h.free, h.classes, h.globals, h.slots⟩

end World.Fits

/-! ## §6 Making an object -/

/-- The fields from a number on get their initial values: these fields hold them, and all words that
share no byte with these fields are as before. -/
theorem initFields_from {self : Word} {fields : List VarDef} {k : Nat}
    (small : self.address + 4 * (k + fields.length + 1) ≤ Word.count) {W V : World}
    (h : ((fields.zipIdx k).forM fun (v, i) => Eval.store (self + fieldPlace i) v.value.word :
      Eval Unit) W = .ok ((), V)) :
    (∃ memory, V = { W with memory }) ∧
      (∀ i v, fields[i]? = some v →
        V.memory.load? (self.address + 4 * (k + i + 1)) = some v.value.word) ∧
      ∀ b, (b + 4 ≤ self.address + 4 * (k + 1) ∨ self.address + 4 * (k + fields.length + 1) ≤ b) →
        V.memory.load? b = W.memory.load? b := by
  induction fields generalizing k W with
  | nil =>
    cases h
    exact ⟨⟨_, rfl⟩, by simp, fun _ _ => rfl⟩
  | cons v fields ih =>
    rw [List.length_cons] at small ⊢
    rw [List.zipIdx_cons] at h
    obtain ⟨⟨⟩, U, first, rest⟩ := Eval.bind_eq_ok.1 h
    change Eval.store (self + fieldPlace k) v.value.word W = _ at first
    have place : (self + fieldPlace k).address = self.address + 4 * (k + 1) :=
      World.Fits.address_field (by omega)
    cases stored : W.memory.store? (self + fieldPlace k).address v.value.word with
    | none =>
      rw [Eval.store_of_none stored] at first
      cases first
    | some memory =>
      rw [Eval.store_of_some stored] at first
      cases first
      rw [place] at stored
      obtain ⟨⟨memory', rfl⟩, hold, same⟩ := ih (k := k + 1) (by omega) rest
      refine ⟨⟨memory', rfl⟩, ?_, ?_⟩
      · intro i u hu
        cases i with
        | zero =>
          rw [List.getElem?_cons_zero] at hu
          cases hu
          rw [Nat.add_zero, same _ (by omega)]
          exact Wasm.Memory.load?_of_store? stored
        | succ i =>
          rw [List.getElem?_cons_succ] at hu
          have := hold i u hu
          rwa [show k + 1 + i + 1 = k + (i + 1) + 1 by omega] at this
      · intro b apart
        rw [same b (by omega)]
        exact Wasm.Memory.load?_of_store?_apart stored (by omega)

/-- A new object is made behind the others: its fields hold their initial values, and the objects
before it are as they were. -/
theorem World.Fits.make {p : Program} {objects : Objects} {W V : World} (h : W.Fits p objects)
    {c : ClassDef} (hc : p.class? c.name = some c)
    (fields : ∀ v ∈ c.fields, v.value.ty.Fits v.ty)
    (made : initFields W.free c.fields W = .ok ((), V))
    (small : objects.bytes + c.bytes < Word.count - 4) :
    World.Fits p (objects ++ [(W.free, c)])
      { V with free := W.free + fieldPlace c.fields.length } := by
  have count : Word.count = 4294967296 := rfl
  have free := h.free
  unfold ClassDef.bytes at small
  obtain ⟨⟨memory, rfl⟩, hold, same⟩ :=
    initFields_from (k := 0) (by rw [free]; omega) made
  have more : objects ⊆ objects ++ [(W.free, c)] := List.subset_append_left _ _
  constructor
  case laid =>
    rw [Objects.laid_append]
    exact ⟨h.laid, free, trivial⟩
  case free =>
    rw [World.Fits.address_field (by omega), free]
    simp only [Objects.bytes_append, Objects.bytes_cons, Objects.bytes_nil, ClassDef.bytes]
    omega
  case classes =>
    intro o ho
    rcases List.mem_append.1 ho with ho | ho
    · exact h.classes o ho
    · cases List.mem_singleton.1 ho
      exact hc
  case globals => exact h.globals.mono more
  case slots =>
    intro o ho i v hv
    rcases List.mem_append.1 ho with ho | ho
    · obtain ⟨w, hw, represents⟩ := h.slots o ho i v hv
      obtain ⟨place, hi⟩ := h.address_slot ho hv
      have bounds := h.laid.bounds ho
      unfold ClassDef.bytes at bounds
      refine ⟨w, ?_, represents.mono more⟩
      rw [← hw]
      exact same _ (by omega)
    · cases List.mem_singleton.1 ho
      obtain ⟨hi, -⟩ : ∃ hi : i < c.fields.length, _ := List.getElem?_eq_some_iff.1 hv
      have place : (W.free + fieldPlace i).address = W.free.address + 4 * (0 + i + 1) := by
        rw [World.Fits.address_field (by omega)]
        omega
      refine ⟨v.value.word, ?_, ?_⟩
      · rw [place]
        exact hold i v hv
      · exact (Represents.literal _ v.value).fits (fields v (List.mem_of_getElem? hv))

end Serpent
