/-
Serpent.Proofs.Construction — the code that makes an object writes that object and nothing else.

The fields of a new object get their initial values by one store each, from the first free address
on. What these stores do together is said on the memory first, byte by byte (§1); the code then does
nothing else but to move the first free address, to keep the address of the object in a local, and
to pass it to the method that constructs (§2, §3).

  §1 Words one behind the other
  §2 The code in front of the constructor
  §3 The code around the constructor
-/
import Serpent.Proofs.Allocation

namespace Serpent

open Wasm (Bindings Func Instr Memory Module Outcome State Store)

/-! ## §1 Words one behind the other -/

namespace Wasm.Memory

/-- The memory with words written one behind the other from an address on, if all of them are inside
the memory. -/
def storeAll? (m : Memory) (a : Nat) : List Word → Option Memory
  | [] => some m
  | w :: ws => (m.store? a w).bind fun m' => m'.storeAll? (a + 4) ws

/-- Words stand one behind the other from an address on, and all other bytes are as before. -/
structure Writes (m m' : Memory) (a : Nat) (ws : List Word) : Prop where
  size : m'.size = m.size
  words : ∀ i w, ws[i]? = some w → m'.load? (a + 4 * i) = some w
  others : ∀ b, (b < a ∨ a + 4 * ws.length ≤ b) → m'.byte b = m.byte b

theorem store?_eq_none {m : Memory} {a : Nat} {w : Word} :
    m.store? a w = none ↔ m.size < a + 4 := by
  unfold store?
  split
  · simpa using by omega
  · simpa using by omega

theorem size_of_store? {m m' : Memory} {a : Nat} {w : Word} (h : m.store? a w = some m') :
    m'.size = m.size := by
  unfold store? at h
  split at h
  · cases h
    rfl
  · cases h

theorem byte_of_store? {m m' : Memory} {a b : Nat} {w : Word} (h : m.store? a w = some m')
    (apart : b < a ∨ a + 4 ≤ b) : m'.byte b = m.byte b := by
  unfold store? at h
  split at h
  · cases h
    have first : a ≠ b := by omega
    have others : a + 1 ≠ b ∧ a + 2 ≠ b ∧ a + 3 ≠ b := by omega
    simp [byte_setByte, first, others]
  · cases h

/-- Bytes that are the same make the same word. -/
theorem load?_congr {m m' : Memory} {a : Nat} (size : m'.size = m.size)
    (bytes : ∀ b, a ≤ b → b < a + 4 → m'.byte b = m.byte b) : m'.load? a = m.load? a := by
  rw [load?, load?, size, bytes a (by omega) (by omega), bytes (a + 1) (by omega) (by omega),
    bytes (a + 2) (by omega) (by omega), bytes (a + 3) (by omega) (by omega)]

/-- Words do not fit exactly if there are some and the last byte of the last one is outside. -/
theorem storeAll?_eq_none {m : Memory} {a : Nat} {ws : List Word} :
    m.storeAll? a ws = none ↔ ws ≠ [] ∧ m.size < a + 4 * ws.length := by
  induction ws generalizing m a with
  | nil => simp [storeAll?]
  | cons w ws ih =>
    rw [storeAll?, List.length_cons]
    cases stored : m.store? a w with
    | none =>
      have outside := store?_eq_none.1 stored
      simpa using by omega
    | some m' =>
      have inside : ¬ m.size < a + 4 := by
        rw [← store?_eq_none (w := w), stored]
        simp
      rw [Option.bind_some, ih, size_of_store? stored]
      -- what is left may be empty, and the first word is inside
      cases ws with
      | nil => simpa using by omega
      | cons v ws => simpa using by omega

theorem writes_of_storeAll? {m m' : Memory} {a : Nat} {ws : List Word}
    (h : m.storeAll? a ws = some m') : Writes m m' a ws := by
  induction ws generalizing m a with
  | nil =>
    cases h
    exact ⟨rfl, by simp, fun _ _ => rfl⟩
  | cons w ws ih =>
    rw [storeAll?] at h
    obtain ⟨m₁, stored, h⟩ := Option.bind_eq_some_iff.1 h
    have rest := ih h
    refine ⟨rest.size.trans (size_of_store? stored), fun i v hv => ?_, fun b apart => ?_⟩
    · cases i with
      | zero =>
        -- the later words lie behind the first one
        cases hv
        rw [load?_congr rest.size fun b lower upper => rest.others b (.inl (by omega))]
        exact load?_of_store? stored
      | succ i =>
        have later := rest.words i v hv
        rwa [show a + 4 + 4 * i = a + 4 * (i + 1) by omega] at later
    · rw [List.length_cons] at apart
      rw [rest.others b (by omega), byte_of_store? stored (by omega)]

end Wasm.Memory

/-! ## §2 The code in front of the constructor -/

/-- A store with another first free address. -/
def Wasm.Store.setFree (store : Store) (w : Word) : Store :=
  { store with globals := store.globals.set heapPointer w }

theorem Wasm.Store.free?_setFree {store : Store} {w : Word} (h : store.free? = some w) (v : Word) :
    (store.setFree v).free? = some v := by
  have known : (store.globals.lookup heapPointer).isSome = true := by
    rw [← free?, h]
    rfl
  exact Bindings.lookup_set_self (lookup_isSome_iff.1 known)

section

variable (m : Module) (fuel : Nat) (call : Func → List Word → Store → Outcome)

/-- The code of the fields from a number on stores their initial values one behind the other. -/
theorem run_slots (fields : List VarDef) (k : Nat) {s : State} {p : Word}
    (free : s.store.free? = some p)
    (room : p.address + 4 * (k + fields.length + 1) ≤ Word.count) :
    Instr.runAll m fuel call (((fields.zipIdx k).map slotAt).flatMap ClassLayout.initSlot) s =
      match s.store.memory.storeAll? (p.address + 4 * (k + 1)) (fields.map (·.value.word)) with
      | some memory => .next { s with store := { s.store with memory } }
      | none => .trapped .outOfBounds s.store.output := by
  induction fields generalizing k s with
  | nil => rfl
  | cons v fields ih =>
    rw [List.length_cons] at room
    have place : (p + fieldPlace k).address = p.address + 4 * (k + 1) :=
      World.Fits.address_field (by omega)
    have pointer : s.store.globals.lookup heapPointer = some p := free
    rw [List.zipIdx_cons, List.map_cons, List.flatMap_cons, Instr.runAll_append, List.map_cons,
      Memory.storeAll?]
    simp only [ClassLayout.initSlot, slotAt, Instr.runAll, Instr.run, State.step, pointer,
      Wasm.BinaryOp.apply, place]
    cases s.store.memory.store? (p.address + 4 * (k + 1)) v.value.word with
    | none => rfl
    | some memory =>
      simp only [Outcome.andThen, Option.bind_some]
      exact ih (k + 1) (s := { s with store := { s.store with memory } }) free (by omega)

theorem run_reserve_of_free (c : ClassDef) {s : State} {p : Word} (free : s.store.free? = some p)
    (alloc : allocLocal ∈ s.locals.map (·.1)) :
    Instr.runAll m fuel call c.reserve s =
      .next ⟨p :: s.stack, s.locals.set allocLocal p,
        s.store.setFree (p + fieldPlace c.fields.length)⟩ := by
  have pointer : s.store.globals.lookup heapPointer = some p := free
  have kept : (s.locals.set allocLocal p).lookup allocLocal = some p :=
    Bindings.lookup_set_self alloc
  simp only [ClassDef.reserve, Instr.runAll, Instr.run, State.step, pointer, Wasm.BinaryOp.apply,
    kept]
  rfl

/-- From one state to another, an object with the given fields has been put at the address `p`, and
`p` has been pushed. -/
structure Wasm.State.MakesObject (fields : List VarDef) (p : Word) (s t : State) : Prop where
  /-- The address is on top of the operands. -/
  stack : t.stack = p :: s.stack
  /-- The first free address is behind the object. -/
  free : ∃ q, t.store.free? = some q ∧ q.address = p.address + 4 + 4 * fields.length
  /-- The fields have their initial values. -/
  values : ∀ i v, fields[i]? = some v →
    t.store.memory.load? (p.address + 4 + 4 * i) = some v.value.word
  /-- All other bytes are as before. -/
  bytes : ∀ b, (b < p.address + 4 ∨ p.address + 4 + 4 * fields.length ≤ b) →
    t.store.memory.byte b = s.store.memory.byte b
  size : t.store.memory.size = s.store.memory.size
  output : t.store.output = s.store.output
  /-- All other globals are as before. -/
  globals : ∀ x, x ≠ heapPointer → t.store.globals.lookup x = s.store.globals.lookup x
  /-- One local keeps the address. -/
  alloc : t.locals.lookup allocLocal = some p
  /-- All other locals are as before. -/
  locals : ∀ x, x ≠ allocLocal → t.locals.lookup x = s.locals.lookup x

/-- The code in front of the constructor leaves the memory if the object has fields and does not
fit, and otherwise makes the object. -/
theorem ClassDef.run_prologue (c : ClassDef) {s : State} {p : Word} (free : s.store.free? = some p)
    (alloc : allocLocal ∈ s.locals.map (·.1))
    (room : p.address + 4 + 4 * c.fields.length < Word.count) :
    (0 < c.fields.length ∧ s.store.memory.size < p.address + 4 + 4 * c.fields.length →
      Instr.runAll m fuel call c.prologue s = .trapped .outOfBounds s.store.output) ∧
    (¬ (0 < c.fields.length ∧ s.store.memory.size < p.address + 4 + 4 * c.fields.length) →
      ∃ t, Instr.runAll m fuel call c.prologue s = .next t ∧ s.MakesObject c.fields p t) := by
  have slots := run_slots m fuel call c.fields 0 free (by omega)
  have fits : s.store.memory.storeAll? (p.address + 4) (c.fields.map (·.value.word)) = none ↔ _ :=
    Memory.storeAll?_eq_none
  rw [List.length_map, ← List.length_pos_iff, List.length_map] at fits
  rw [← fits, prologue, Instr.runAll_append, slots, Nat.zero_add, Nat.mul_one]
  cases stored : s.store.memory.storeAll? (p.address + 4) (c.fields.map (·.value.word)) with
  | none => exact ⟨fun _ => rfl, fun inside => absurd rfl inside⟩
  | some memory =>
    refine ⟨(by cases ·), fun _ => ?_⟩
    have writes := Memory.writes_of_storeAll? stored
    have place : (p + fieldPlace c.fields.length).address =
        p.address + 4 + 4 * c.fields.length := by
      rw [World.Fits.address_field (by omega)]
      omega
    have free' : Store.free? { s.store with memory } = some p := free
    refine ⟨_, run_reserve_of_free m fuel call c (s := { s with store := { s.store with memory } })
      free' alloc, ?_⟩
    exact {
      stack := rfl
      free := ⟨_, Store.free?_setFree free' _, place⟩
      values := fun i v hv => writes.words i _ (by rw [List.getElem?_map, hv]; rfl)
      bytes := fun b apart => writes.others b (by rwa [List.length_map])
      size := writes.size
      output := rfl
      globals := fun x other => Bindings.lookup_set_of_ne other
      alloc := Bindings.lookup_set_self alloc
      locals := fun x other => Bindings.lookup_set_of_ne other }

end

/-! ## §3 The code around the constructor -/

/-- The code that leaves the address of an object in place of what its constructor has left. -/
def yieldCode : List Instr := [.drop, .localGet allocLocal]

/-- The code of a construction calls the method that constructs after its prologue. -/
theorem ClassDef.construct_eq_prologue (c : ClassDef) : c.layout.construct =
    c.prologue ++ .call (methodSymbol c.name initMethod) :: yieldCode :=
  c.construct_layout

section

variable {m : Module} {fuel : Nat} {call : Func → List Word → Store → Outcome}

theorem run_yieldCode {v w : Word} {stack : List Word} {locals : Bindings} {store : Store}
    (kept : locals.lookup allocLocal = some w) :
    Instr.runAll m fuel call yieldCode ⟨v :: stack, locals, store⟩ =
      .next ⟨w :: stack, locals, store⟩ := by
  simp only [yieldCode, Instr.runAll, Instr.run, State.step, kept]

/-- Once the method that constructs has returned, the address of the object is what is left,
whatever that method has done. -/
theorem ClassDef.run_construct (c : ClassDef) {s t : State} {p : Word}
    (made : Instr.runAll m fuel call c.prologue s = .next t) (object : s.MakesObject c.fields p t)
    {g : Func} (callee : m.callee? (methodSymbol c.name initMethod) = some (.func g))
    (params : g.params.length = 1) (results : g.results = 1) :
    (∀ u, (call g [p] t.store).result? = some u → u.stack ≠ [] →
      Instr.runAll m fuel call c.layout.construct s = .next ⟨p :: s.stack, t.locals, u.store⟩) ∧
    ∀ trap output, call g [p] t.store = .trapped trap output →
      Instr.runAll m fuel call c.layout.construct s = .trapped trap output := by
  obtain ⟨stack, locals, store⟩ := t
  obtain rfl : stack = p :: s.stack := object.stack
  have arguments : ((p :: s.stack).take g.params.length).reverse = [p] := by rw [params]; rfl
  have below : (p :: s.stack).drop g.params.length = s.stack := by rw [params]; rfl
  rw [construct_eq_prologue, Instr.runAll_append, made, Outcome.andThen, Instr.runAll_cons,
    Instr.run]
  simp only [callee, arguments, below, results]
  constructor
  · intro u returned some
    obtain ⟨w, rest, operands⟩ := List.exists_cons_of_ne_nil some
    cases outcome : call g [p] store with
    | next v | returned v =>
      rw [outcome] at returned
      cases returned
      simp only [operands, List.take_succ_cons, List.take_zero, List.cons_append, List.nil_append,
        Outcome.andThen]
      exact run_yieldCode object.alloc
    | _ =>
      rw [outcome] at returned
      cases returned
  · intro trap output trapped
    rw [trapped]
    rfl

end

/-- Making an object writes exactly one fresh object. The code in front of the method that
constructs leaves the memory exactly if the object has fields and its last byte is outside;
otherwise it puts the object at the first free address `p`, changes nothing else, and leaves `p`,
which is the only argument of the method. Once the method has returned, whatever it has done, `p` is
on top of the operands that were there before. -/
theorem ClassLayout.construct_writes_one_object (name : String) (fields : List VarDef) (m : Module)
    (fuel depth : Nat) (s : State) (p : Word) (free : s.store.free? = some p)
    (alloc : allocLocal ∈ s.locals.map (·.1))
    (room : p.address + 4 + 4 * fields.length < 2 ^ 32) :
    ∃ before, (ClassLayout.ofFields name fields).construct =
        before ++ [Instr.call (methodSymbol name initMethod), .drop, .localGet allocLocal] ∧
      (Wasm.exec m fuel depth before s = .trapped .outOfBounds s.store.output ↔
        0 < fields.length ∧ s.store.memory.size < p.address + 4 + 4 * fields.length) ∧
      (¬ (0 < fields.length ∧ s.store.memory.size < p.address + 4 + 4 * fields.length) →
        ∃ t, Wasm.exec m fuel depth before s = .next t ∧ s.MakesObject fields p t ∧
          ∀ g, m.callee? (methodSymbol name initMethod) = some (.func g) →
            g.params.length = 1 → g.results = 1 →
            (∀ u, (m.call fuel depth g [p] t.store).result? = some u → u.stack ≠ [] →
              Wasm.exec m fuel depth (ClassLayout.ofFields name fields).construct s =
                .next ⟨p :: s.stack, t.locals, u.store⟩) ∧
            ∀ trap output, m.call fuel depth g [p] t.store = .trapped trap output →
              Wasm.exec m fuel depth (ClassLayout.ofFields name fields).construct s =
                .trapped trap output) := by
  let c : ClassDef := ⟨name, objectClass, fields, []⟩
  obtain ⟨outside, inside⟩ := c.run_prologue m fuel (m.call fuel depth) free alloc room
  rw [Wasm.exec_eq]
  refine ⟨c.prologue, c.construct_eq_prologue, ⟨fun trapped => ?_, outside⟩, fun fits => ?_⟩
  · by_contra fits
    obtain ⟨t, made, -⟩ := inside fits
    rw [made] at trapped
    cases trapped
  · obtain ⟨t, made, object⟩ := inside fits
    exact ⟨t, made, object, fun g callee params results =>
      c.run_construct made object callee params results⟩

/-- A module whose only function constructs points: it takes more of the memory, and returns 7. -/
def pointModule : Module :=
  ⟨[], [], [⟨"$Point$__init__", [], ["$self"], 1, [],
    [.const 99, .globalSet heapPointer, .const 7]⟩]⟩

/-- A state with one operand, one variable and 28 bytes of memory, 16 of which are taken. -/
def pointState : State := ⟨[42], [("$x", 5), (allocLocal, 0)],
  ⟨[(heapPointer, 16), ("$g", 3)], { size := 28 }, "before"⟩⟩

/-- Two fields fill the memory to its last byte; a third one would leave it. -/
theorem ClassLayout.construct_writes_one_object_point :
    (∃ t, pointState.MakesObject [⟨"x", .int, .number (-2)⟩, ⟨"on", .bool, .bool true⟩] 16 t ∧
      t.store.memory.load? 20 = some (-2) ∧ t.store.memory.load? 24 = some 1 ∧
      ∃ store, Wasm.exec pointModule 0 1 (ClassLayout.ofFields "Point"
        [⟨"x", .int, .number (-2)⟩, ⟨"on", .bool, .bool true⟩]).construct pointState =
        .next ⟨[16, 42], t.locals, store⟩) ∧
    Wasm.exec pointModule 0 1 (ClassLayout.ofFields "Point" [⟨"x", .int, .number (-2)⟩,
      ⟨"on", .bool, .bool true⟩, ⟨"next", .object "Point", .none⟩]).construct pointState =
      .trapped .outOfBounds "before" := by
  have alloc : allocLocal ∈ pointState.locals.map (·.1) := by decide
  constructor
  · obtain ⟨before, -, -, inside⟩ := construct_writes_one_object "Point"
      [⟨"x", .int, .number (-2)⟩, ⟨"on", .bool, .bool true⟩] pointModule 0 1 pointState 16 rfl alloc
      (by decide)
    obtain ⟨t, -, object, ends⟩ := inside (by decide)
    obtain ⟨returns, -⟩ := ends _ rfl rfl rfl
    exact ⟨t, object, object.values 0 _ rfl, object.values 1 _ rfl, _, returns _ rfl (by simp)⟩
  · obtain ⟨before, code, traps, -⟩ := construct_writes_one_object "Point"
      [⟨"x", .int, .number (-2)⟩, ⟨"on", .bool, .bool true⟩, ⟨"next", .object "Point", .none⟩]
      pointModule 0 1 pointState 16 rfl alloc (by decide)
    have trapped := traps.2 (by decide)
    rw [Wasm.exec_eq] at trapped ⊢
    rw [code, Instr.runAll_append, trapped]
    rfl

end Serpent
