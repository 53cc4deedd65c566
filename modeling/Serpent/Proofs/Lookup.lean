/-
Serpent.Proofs.Lookup — looking things up by name.

Where no name stands twice, what a name finds does not depend on the order of the list. Named words
keep their names when one of the words changes.

  §1 Lists without repeated names
  §2 Named words
-/
import Mathlib.Data.List.Nodup
import Serpent.Wasm.Machine

namespace Serpent

variable {α β : Type}

/-! ## §1 Lists without repeated names -/

/-- What stands in a list without repeated names is found by its name. -/
theorem find?_of_nodup {name : α → String} {l : List α} (h : (l.map name).Nodup) {a : α}
    (ha : a ∈ l) : l.find? (fun b => name b = name a) = some a := by
  induction l with
  | nil => cases ha
  | cons b l ih =>
    rw [List.map_cons, List.nodup_cons] at h
    rcases List.mem_cons.1 ha with rfl | ha
    · simp
    · have other : name b ≠ name a := by
        intro same
        exact h.1 (same ▸ List.mem_map_of_mem ha)
      rw [List.find?_cons_of_neg (by simpa using other)]
      exact ih h.2 ha

/-- A table made of a list finds what the list has under the name. -/
theorem lookup_map (l : List α) (name : α → String) (value : α → β) (x : String) :
    (l.map fun a => (name a, value a)).lookup x = (l.find? (name · = x)).map value := by
  induction l with
  | nil => rfl
  | cons a l ih =>
    by_cases same : name a = x
    · simp [same]
    · have : (x == name a) = false := by simpa using Ne.symm same
      simp [List.lookup_cons, this, same, ih]

theorem lookup_of_nodup {l : List (String × α)} (h : (l.map (·.1)).Nodup) {x : String} {a : α}
    (ha : (x, a) ∈ l) : l.lookup x = some a := by
  have found := find?_of_nodup h ha
  have eq := lookup_map l (·.1) (·.2) x
  rw [List.map_id' l] at eq
  rw [eq, found]
  rfl

theorem mem_of_lookup {l : List (String × α)} {x : String} {a : α} (h : l.lookup x = some a) :
    (x, a) ∈ l := by
  obtain ⟨before, after, rfl, -⟩ := List.lookup_eq_some_iff.1 h
  simp

theorem lookup_eq_some_iff {l : List (String × α)} (h : (l.map (·.1)).Nodup) {x : String} {a : α} :
    l.lookup x = some a ↔ (x, a) ∈ l :=
  ⟨mem_of_lookup, lookup_of_nodup h⟩

/-- A table has a name exactly if the name is one of its names. -/
theorem lookup_isSome_iff {l : List (String × α)} {x : String} :
    (l.lookup x).isSome = true ↔ x ∈ l.map (·.1) := by
  rw [List.lookup_isSome_iff, List.mem_map]
  constructor
  · rintro ⟨a, ha, same⟩
    exact ⟨a, ha, (by simpa using same : x = a.1).symm⟩
  · rintro ⟨a, ha, rfl⟩
    exact ⟨a, ha, by simp⟩

theorem exists_lookup {l : List (String × α)} {x : String} (h : x ∈ l.map (·.1)) :
    ∃ a, l.lookup x = some a :=
  Option.isSome_iff_exists.1 (lookup_isSome_iff.2 h)

theorem lookup_eq_none_iff {l : List (String × α)} {x : String} :
    l.lookup x = none ↔ x ∉ l.map (·.1) := by
  rw [← Option.not_isSome_iff_eq_none, lookup_isSome_iff]

theorem lookup_eq_none {l : List (String × α)} {x : String} (h : x ∉ l.map (·.1)) :
    l.lookup x = none :=
  lookup_eq_none_iff.2 h

/-! ## §2 Named words -/

namespace Wasm.Bindings

@[simp] theorem keys_set (b : Bindings) (x : String) (w : Word) :
    (b.set x w).map (·.1) = b.map (·.1) := by
  induction b with
  | nil => rfl
  | cons entry b ih =>
    rw [set, List.map_cons, List.map_cons, List.map_cons]
    refine congrArg₂ _ ?_ ih
    by_cases same : entry.1 = x
    · simp [same]
    · simp [same]

theorem lookup_set (b : Bindings) (x y : String) (w : Word) :
    (b.set x w).lookup y = if y = x then (b.lookup y).map fun _ => w else b.lookup y := by
  induction b with
  | nil => simp [set]
  | cons entry b ih =>
    obtain ⟨z, v⟩ := entry
    rw [set, List.map_cons]
    by_cases here : z = x
    · subst here
      by_cases same : y = z
      · simp [same]
      · have : (y == z) = false := by simpa using same
        simp only [if_true, List.lookup_cons, this, if_neg same]
        rw [← set, ih, if_neg same]
    · by_cases same : y = z
      · subst same
        simp [here]
      · have : (y == z) = false := by simpa using same
        simp only [if_neg here, List.lookup_cons, this]
        rw [← set, ih]

theorem lookup_set_self {b : Bindings} {x : String} {w : Word} (h : x ∈ b.map (·.1)) :
    (b.set x w).lookup x = some w := by
  obtain ⟨v, hv⟩ := exists_lookup h
  rw [lookup_set, if_pos rfl, hv]
  rfl

theorem lookup_set_of_ne {b : Bindings} {x y : String} {w : Word} (h : y ≠ x) :
    (b.set x w).lookup y = b.lookup y := by
  rw [lookup_set, if_neg h]

theorem set_of_notMem {b : Bindings} {x : String} (h : x ∉ b.map (·.1)) (w : Word) :
    b.set x w = b := by
  refine (List.map_congr_left fun entry mem => ?_).trans (List.map_id b)
  have other : entry.1 ≠ x := fun same => h (same ▸ List.mem_map_of_mem mem)
  exact if_neg other

end Wasm.Bindings

end Serpent
