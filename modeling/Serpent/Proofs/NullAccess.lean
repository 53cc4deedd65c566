/-
Serpent.Proofs.NullAccess — what a field of `None` shares with objects.

`None` is the word 0, and objects start at address 4, so no object is at the address 0. But the
field with number `k` of an object is `4 * (k + 1)` bytes behind its address: through `None`, it is
the word at `4 * (k + 1)`, and that is where the objects are. So an access through `None` reads or
writes a word of an object as soon as the objects take more than `4 * k` bytes, and only then.

  §1 Objects that fill the memory
  §2 Accesses through `None`
-/
import Serpent.Proofs.Soundness

namespace Serpent

/-! ## §1 Objects that fill the memory -/

namespace Objects

/-- The word at an address shares a byte with an object. -/
def Touched (objects : Objects) (a : Nat) : Prop :=
  ∃ o ∈ objects, ∃ b, (a ≤ b ∧ b < a + 4) ∧ o.1.address ≤ b ∧ b < o.1.address + o.2.bytes

/-- There is no gap between objects. -/
theorem Placed.exists_of_inside {start b : Nat} {objects : Objects} (h : Placed start objects)
    (lower : start ≤ b) (upper : b < start + objects.bytes) (bound : b < Word.count) :
    ∃ o ∈ objects, o.1.address ≤ b ∧ b < o.1.address + o.2.bytes := by
  induction objects generalizing start with
  | nil =>
    rw [bytes_nil] at upper
    omega
  | cons o objects ih =>
    obtain ⟨here, rest⟩ := h
    rw [bytes_cons] at upper
    by_cases inside : b < start + o.2.bytes
    · have address : o.1.address = start := by
        rw [here]
        exact Word.address_ofNat (by omega)
      exact ⟨o, by simp, by omega, by omega⟩
    · obtain ⟨o', mem, found⟩ := ih rest (by omega) (by omega)
      exact ⟨o', List.mem_cons_of_mem _ mem, found⟩

/-- Objects that fill the memory from address 4 on share the word at `4 * (k + 1)` exactly if they
take more than `4 * k` bytes. -/
theorem Placed.touched_iff {objects : Objects} (h : Placed 4 objects) {k : Nat}
    (bound : 4 * (k + 1) < Word.count) : objects.Touched (4 * (k + 1)) ↔ 4 * k < objects.bytes := by
  constructor
  · rintro ⟨o, mem, b, ⟨lower, upper⟩, inside⟩
    by_cases room : 4 + objects.bytes ≤ Word.count
    · have := (h.laid room).bounds mem
      omega
    · -- so many objects take every byte
      omega
  · intro some
    obtain ⟨o, mem, inside⟩ := @Placed.exists_of_inside 4 (4 * (k + 1)) objects h (by omega)
      (by omega) bound
    exact ⟨o, mem, 4 * (k + 1), ⟨by omega, by omega⟩, inside⟩

end Objects

/-! ## §2 Accesses through `None` -/

/-- The objects of a run fill the memory from address 4 on. -/
theorem Image.Performs.placed {i : Image} {p : Program} {limits : Wasm.Limits}
    {before after : List Moment} {T : List Wasm.Snapshot} {u : View}
    (h : i.Performs p limits (before ++ after) T u) : (made before).Placed 4 := by
  have all := (Enacts.accounts h).placed 4 rfl
  rw [made_append, Objects.placed_append] at all
  exact all.1

/-- An access through `None` shares a byte with an object exactly if the objects made so far take
more bytes than the fields in front of the accessed one. This holds at every moment of every run of
a checked program, whatever its objects and fields are, and what its module goes through enacts
these moments. -/
theorem Program.null_access_touches_iff {source : String} {p q : Program}
    (parsed : Program.parse source = .ok p) (checked : p.check = .ok q) :
    ∃ i, Image.ofProgram q = .ok i ∧
      ∀ limits : Wasm.Limits, 1 ≤ limits.pages → limits.pages ≤ Wasm.Host.maxPages →
        i.toModule.run limits =
          (((q.watch limits).outcome (q.initialWorld limits.pages)).map
            fun r => ⟨r.1, r.2.output⟩).mapError Halt.error ∧
        (∃ u, i.Performs q limits (q.log limits) (i.toModule.trace limits) u) ∧
        ∀ (before : List Moment) (m : Moment) (after : List Moment) (place : Word),
          q.log limits = before ++ m :: after → m.event = .access 0 place →
          ∃ c ∈ q.classes, ∃ k < c.fields.length, place = fieldPlace k ∧
            (c.fields.length < 2 ^ 30 →
              ((made before).Touched (0 + place).address ↔ 4 * k < (made before).bytes)) := by
  obtain ⟨i, hi, lowers, resolved, ids⟩ := exists_image_of_check parsed checked
  refine ⟨i, hi, fun limits positive _ => ?_⟩
  obtain ⟨u, performs, -⟩ := lowers.performs resolved ids limits
  refine ⟨lowers.run_eq_watch resolved ids positive, ⟨u, performs⟩,
    fun before m after place split event => ?_⟩
  have follows := Enacts.allFollow performs before m after split
  rw [split] at performs
  rw [event] at follows
  obtain ⟨c, mem, k, hk, rfl⟩ := follows
  refine ⟨c, mem, k, hk, rfl, fun few => ?_⟩
  have bound : 4 * (k + 1) < Word.count := by
    rw [Word.count]
    omega
  have address : (0 + fieldPlace k).address = 4 * (k + 1) := by
    rw [Int32.zero_add]
    exact Word.address_ofNat bound
  rw [address]
  exact performs.placed.touched_iff bound

/-- Whether an event is an access through a word at a place. -/
def Event.isAccess (receiver place : Word) : Event → Bool
  | .access r k => r = receiver && k = place
  | _ => false

theorem Event.eq_of_isAccess {receiver place : Word} {event : Event}
    (h : event.isAccess receiver place = true) : event = .access receiver place := by
  cases event with
  | access r k =>
    simp only [isAccess, Bool.and_eq_true, decide_eq_true_eq] at h
    rw [h.1, h.2]
  | _ => cases h

/-- The second field of `None` is read when there is one object, which has no fields. -/
def Program.peeking : Program where
  defs := [.class_ ⟨"E", objectClass, [], []⟩,
    .class_ ⟨"A", objectClass, [⟨"x", .int, .number 1⟩, ⟨"y", .int, .number 2⟩], []⟩,
    .var ⟨"e", .object "E", .none⟩, .var ⟨"a", .object "A", .none⟩]
  stmts := [.assign (.var "e") (.call none "E" []), .expr (.field none (.var none "a") "y")]

/-- One object of 4 bytes does not reach up to address 8. -/
theorem Program.null_access_touches_iff_peeking :
    ∃ (q : Program) (before : List Moment) (m : Moment) (after : List Moment),
    peeking.check = .ok q ∧ q.log ⟨1, 10, 10⟩ = before ++ m :: after ∧ m.event = .access 0 8 ∧
    (made before).bytes = 4 ∧ ¬ (made before).Touched 8 := by
  have shown : (peeking.check.toOption.map fun q =>
      ((q.log ⟨1, 10, 10⟩)[7]?.any (fun m => m.event.isAccess 0 8),
        (made ((q.log ⟨1, 10, 10⟩).take 7)).bytes, q.classes.all (·.fields.length ≤ 2))) =
      some (true, 4, true) := by decide +kernel
  obtain ⟨q, checked, facts⟩ := Option.map_eq_some_iff.1 shown
  rw [Fallible.toOption_eq_some] at checked
  rw [Prod.mk.injEq, Prod.mk.injEq] at facts
  obtain ⟨accessed, bytes, few⟩ := facts
  obtain ⟨m, after, split, access⟩ := exists_split accessed
  have event := Event.eq_of_isAccess access
  have parsed := parse_of_tokens (by decide) (lex_text (p := peeking) (by decide))
  obtain ⟨i, -, law⟩ := null_access_touches_iff parsed checked
  obtain ⟨c, mem, k, hk, place, touched⟩ :=
    (law ⟨1, 10, 10⟩ (by decide) (by decide)).2.2 _ m after 8 split event
  have small : c.fields.length ≤ 2 := by simpa using List.all_eq_true.1 few c mem
  refine ⟨q, _, m, after, checked, split, event, bytes, fun shares => ?_⟩
  have more := (touched (by omega)).1 shares
  -- the first field is at another place, and the second one is not reached
  obtain rfl : k = 0 := by omega
  cases (by decide : fieldPlace 0 ≠ 8) place.symm

/-- The second field of `None` is written when there is an object. -/
def clobbering : String :=
  "class A(object):\n    x: int = 1\n    y: int = 2\na: A = None\nb: A = None\na = A()\n" ++
    "b.y = 99\na.x\n"

/-- The first field of the object is what has been written to the second one of `None`. -/
theorem Program.null_access_changes_object :
    ∃ (p q : Program) (i : Image) (before : List Moment) (m : Moment) (after : List Moment),
    parse clobbering = .ok p ∧ p.check = .ok q ∧ p.PrintsApart ∧ Image.ofProgram q = .ok i ∧
    q.log ⟨1, 10, 10⟩ = before ++ m :: after ∧ m.event = .access 0 8 ∧
    (made before).Touched 8 ∧ i.toModule.run ⟨1, 10, 10⟩ = .ok ⟨some 99, ""⟩ := by
  have shown : ((parse clobbering).toOption.bind fun p => p.check.toOption.map fun q =>
      (p.used.all (! ·.isPrint), (q.log ⟨1, 10, 10⟩)[8]?.any (fun m => m.event.isAccess 0 8),
        (made ((q.log ⟨1, 10, 10⟩).take 8)).bytes, (q.evaluate ⟨1, 10, 10⟩).toOption)) =
      some (true, true, 12, some ⟨some 99, ""⟩) := by decide +kernel
  obtain ⟨p, parsed, rest⟩ := Option.bind_eq_some_iff.1 shown
  obtain ⟨q, checked, facts⟩ := Option.map_eq_some_iff.1 rest
  rw [Fallible.toOption_eq_some] at parsed checked
  rw [Prod.mk.injEq, Prod.mk.injEq, Prod.mk.injEq, Fallible.toOption_eq_some] at facts
  obtain ⟨apart, accessed, bytes, value⟩ := facts
  obtain ⟨m, after, split, access⟩ := exists_split accessed
  obtain ⟨i, hi, lowers, resolved, ids⟩ := exists_image_of_check parsed checked
  have run : i.toModule.run ⟨1, 10, 10⟩ = _ := (lowers.run_eq resolved ids (by decide)).1
  rw [value] at run
  obtain ⟨u, performs, -⟩ := lowers.performs resolved ids ⟨1, 10, 10⟩
  rw [split] at performs
  have touched := (performs.placed.touched_iff (k := 1) (by decide)).2 (by omega)
  have printsApart : p.PrintsApart := by simpa [PrintsApart] using apart
  exact ⟨p, q, i, _, m, after, parsed, checked, printsApart, hi, split,
    Event.eq_of_isAccess access, touched, run⟩

end Serpent
