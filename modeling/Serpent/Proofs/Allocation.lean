/-
Serpent.Proofs.Allocation — objects never overlap.

Every construction takes the place of its object at the first free address, and moves this address
behind the object. So objects lie one behind the other from address 4 on, and no two of them share a
byte, as long as their addresses do not wrap around. This is said of every snapshot of every run:
the objects are those whose construction has begun in the program up to there, and what a construction
has given back is the address of one of them.

  §1 Objects one behind the other
  §2 Snapshots and their objects
-/
import Serpent.Proofs.Checking
import Serpent.Proofs.Compiled
import Serpent.Proofs.History

namespace Serpent

open Wasm (Module Store)

/-! ## §1 Objects one behind the other -/

section

variable {n : Nat}

theorem Objects.Laid.pairwise {objects : Objects} (h : objects.Laid n) :
    objects.Pairwise fun o o' => o.1.address + o.2.bytes ≤ o'.1.address := by
  induction objects generalizing n with
  | nil => exact .nil
  | cons o objects ih =>
    obtain ⟨rfl, rest⟩ := h
    exact .cons (fun o' ho' => (rest.bounds ho').1) (ih rest)

theorem Objects.Laid.aligned {objects : Objects} (h : objects.Laid n) (start : n % 4 = 0)
    {o : Word × ClassDef} (ho : o ∈ objects) : o.1.address % 4 = 0 := by
  induction objects generalizing n with
  | nil => cases ho
  | cons first objects ih =>
    obtain ⟨rfl, rest⟩ := h
    rcases List.mem_cons.1 ho with rfl | ho
    · exact start
    · refine ih rest ?_ ho
      rw [ClassDef.bytes]
      omega

theorem Objects.Laid.nodup {objects : Objects} (h : objects.Laid n) :
    (objects.map (·.1)).Nodup := by
  refine List.pairwise_map.2 (h.pairwise.imp fun {o o'} le same => ?_)
  have := o.2.bytes_pos
  rw [same] at le
  omega

end

/-! ## §2 Snapshots and their objects -/

/-- The first free address. -/
def Wasm.Store.free? (store : Store) : Option Word := store.globals.lookup heapPointer

section

variable {i : Image} {p : Program} {limits : Wasm.Limits} {before : List Wasm.Snapshot}
  {a : Wasm.Snapshot} {log : List Moment} {v : View}

/-- What has been enacted from the start of the module accounts for its objects. -/
theorem Image.Performs.accounts (h : i.Performs p limits log before v) :
    v.world.free = Int32.ofNat (4 + (made log).bytes) ∧ (made log).Placed 4 ∧
      (finished p log ++ v.building).Perm (made log) := by
  have accounts : (p.start i.entry.toFunc limits.pages).Accounts p log v := Enacts.accounts h
  refine ⟨?_, accounts.placed 4 rfl, ?_⟩
  · rw [accounts.free, Int32.ofNat_add]
    rfl
  · simpa [Program.start] using accounts.built

/-- The first free address of a snapshot is behind all objects. -/
theorem Image.Shows.exists_free (h : i.Shows p limits before a log v)
    (small : 4 + (made log).bytes < Word.count) :
    ∃ w, a.state.store.free? = some w ∧ w.address = 4 + (made log).bytes := by
  refine ⟨v.world.free, h.shown.held.world.free, ?_⟩
  rw [h.performed.accounts.1]
  exact Word.address_ofNat small

end

/-- Objects never overlap. What the module of a program goes through enacts what happens in the
program: each construction takes its object from the first free address on, begins, and leaves the
address. At every snapshot, the objects whose construction has begun are those that have been given
back and those still in construction; as long as they take fewer than `2 ^ 32 - 4` bytes, the first
free address is behind all of them, each one lies behind the ones before it and behind address 3, at
a multiple of 4, and the references that constructions have given back are different addresses of
these objects and not 0. Once a program has given its value, every object has been given back. -/
theorem Program.objects_never_overlap {source : String} {p q : Program}
    (parsed : Program.parse source = .ok p) (checked : p.check = .ok q) :
    ∃ i, Image.ofProgram q = .ok i ∧ Module.read? i.text = some i.toModule ∧ ∀ limits,
      (∃ u, i.Performs q limits (q.log limits) (i.toModule.trace limits) u) ∧
      (∀ outcome, i.toModule.run limits = .ok outcome →
        (finished q (q.log limits)).Perm (made (q.log limits))) ∧
      ∀ before a after, i.toModule.trace limits = before ++ a :: after →
        ∃ log v, i.Shows q limits before a log v ∧
          (finished q log ++ v.building).Perm (made log) ∧
          ((made log).bytes < 2 ^ 32 - 4 →
            (∃ w, a.state.store.free? = some w ∧ w.address = 4 + (made log).bytes) ∧
            (made log).Pairwise (fun o o' => o.1.address + o.2.bytes ≤ o'.1.address) ∧
            (∀ o ∈ made log, 4 ≤ o.1.address ∧ o.1.address % 4 = 0 ∧
              o.1.address + o.2.bytes ≤ 4 + (made log).bytes) ∧
            ((finished q log).map (·.1)).Nodup ∧
            ∀ o ∈ finished q log, o.1 ≠ 0 ∧ o ∈ made log) := by
  obtain ⟨i, hi, lowers, resolved, ids⟩ := exists_image_of_check parsed checked
  refine ⟨i, hi, lowers.read?_text resolved ids, fun limits => ?_⟩
  obtain ⟨u, performs, ends⟩ := lowers.performs resolved ids limits
  refine ⟨⟨u, performs⟩, fun outcome ran => ?_, fun before a after split => ?_⟩
  · have built := performs.accounts.2.2
    rwa [(ends outcome ran).1, List.append_nil] at built
  · obtain ⟨log, v, shows, -⟩ := performs.exists_shows split
    obtain ⟨-, placed, built⟩ := shows.performed.accounts
    refine ⟨log, v, shows, built, fun small => ?_⟩
    have fits : 4 + (made log).bytes < Word.count := by
      rw [Word.count]
      omega
    have laid := placed.laid (Nat.le_of_lt fits)
    have within : finished q log ⊆ made log := fun o ho =>
      built.subset (List.mem_append_left _ ho)
    refine ⟨shows.exists_free fits, laid.pairwise, fun o ho => ?_, ?_, fun o ho => ⟨?_, within ho⟩⟩
    · obtain ⟨lower, upper⟩ := laid.bounds ho
      exact ⟨lower, laid.aligned rfl ho, upper⟩
    · have all : ((finished q log ++ v.building).map (·.1)).Nodup :=
        (built.map _).nodup_iff.2 laid.nodup
      rw [List.map_append] at all
      exact all.of_append_left
    · intro zero
      have lower := (laid.bounds (within ho)).1
      rw [zero] at lower
      exact absurd lower (by decide)

/-- A box makes what is inside of it while it is made itself. -/
def Program.boxing : Program where
  defs := [.class_ ⟨"Inner", objectClass, [⟨"v", .int, .number 7⟩], []⟩,
    .class_ ⟨"Box", objectClass, [⟨"inner", .object "Inner", .none⟩, ⟨"tag", .int, .number 3⟩],
      [⟨initMethod, [⟨"self", .object "Box"⟩], .none, [],
        [.assign (.member (.var none "self") "inner") (.call none "Inner" [])]⟩]⟩,
    .var ⟨"box", .object "Box", .none⟩]
  stmts := [.assign (.var "box") (.call none "Box" []),
    .expr (.call none "print" [.field none (.field none (.var none "box") "inner") "v"])]

/-- The box is begun first and given back last. When the program is at its end, the two objects take
the 20 bytes from address 4 on. -/
theorem Program.objects_never_overlap_boxing : ∃ q i before a log v, boxing.check = .ok q ∧
    Image.ofProgram q = .ok i ∧ i.toModule.trace ⟨1, 10, 10⟩ = before ++ [a] ∧
    i.Shows q ⟨1, 10, 10⟩ before a log v ∧ a.state.store.free? = some 24 ∧
    (made log).bytes = 20 ∧
    (made (q.log ⟨1, 10, 10⟩)).map (fun o => (o.1, o.2.bytes)) = [(4, 12), (16, 8)] ∧
    (finished q (q.log ⟨1, 10, 10⟩)).map (fun o => (o.1, o.2.bytes)) = [(16, 8), (4, 12)] := by
  have shown : (boxing.check.toOption.bind fun q => (Image.ofProgram q).toOption.map fun i =>
      ((i.toModule.trace ⟨1, 10, 10⟩).getLast?.bind (·.state.store.free?),
        (made (q.log ⟨1, 10, 10⟩)).map (fun o => (o.1, o.2.bytes)),
        (finished q (q.log ⟨1, 10, 10⟩)).map (fun o => (o.1, o.2.bytes)))) =
      some (some 24, [(4, 12), (16, 8)], [(16, 8), (4, 12)]) := by decide +kernel
  obtain ⟨q, checked, rest⟩ := Option.bind_eq_some_iff.1 shown
  obtain ⟨i, hi, facts⟩ := Option.map_eq_some_iff.1 rest
  rw [Fallible.toOption_eq_some] at checked hi
  rw [Prod.mk.injEq, Prod.mk.injEq] at facts
  obtain ⟨free, objects, references⟩ := facts
  obtain ⟨a, last, free⟩ := Option.bind_eq_some_iff.1 free
  have split := (List.dropLast_append_getLast? a last).symm
  have parsed := parse_of_tokens (by decide) (lex_text (p := boxing) (by decide))
  obtain ⟨i', hi', -, law⟩ := objects_never_overlap parsed checked
  cases hi.symm.trans hi'
  obtain ⟨log, v, shows, -, small⟩ := (law ⟨1, 10, 10⟩).2.2 _ _ _ split
  -- no more objects have been made than there are in the end
  obtain ⟨later, soFar⟩ := shows.soFar
  have total : (made (q.log ⟨1, 10, 10⟩)).bytes = 20 := by
    have := congrArg (fun l => (l.map (·.2)).sum) objects
    simpa [Objects.bytes, Function.comp_def] using this
  rw [← soFar, made_append, Objects.bytes_append] at total
  obtain ⟨w, found, address⟩ := (small (by omega)).1
  cases free.symm.trans found
  have bytes : (made log).bytes = 20 := by
    have : Word.address 24 = 24 := rfl
    omega
  exact ⟨q, i, _, a, log, v, checked, hi, split, shows, free, bytes, objects, references⟩

end Serpent
