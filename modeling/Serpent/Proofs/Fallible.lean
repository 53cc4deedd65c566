/-
Serpent.Proofs.Fallible — computations that may stop with an error.

What is known of a computation that has come to its end is known of each of its steps. The lemmas
here take a computation apart: `bind` at its first step, and the loops over lists element by
element.

  §1 One step after the other
  §2 Loops over lists
  §3 What a computation can stop with
-/
import Mathlib.Data.List.Forall2
import Mathlib.Data.List.Nodup

namespace Serpent.Fallible

variable {ε ε' α β γ σ : Type}

/-! ## §1 One step after the other -/

@[simp] theorem ok_bind (a : α) (f : α → Except ε β) : (Except.ok a >>= f) = f a := rfl

@[simp] theorem error_bind (e : ε) (f : α → Except ε β) :
    ((Except.error e : Except ε α) >>= f) = .error e := rfl

@[simp] theorem pure_eq_ok (a : α) : (pure a : Except ε α) = .ok a := rfl

@[simp] theorem throw_eq_error (e : ε) : (throw e : Except ε α) = .error e := rfl

/-- A computation ends well exactly if its first step does and the rest does after it. -/
theorem bind_eq_ok {x : Except ε α} {f : α → Except ε β} {b : β} :
    (x >>= f) = .ok b ↔ ∃ a, x = .ok a ∧ f a = .ok b := by
  cases x with
  | ok a => simp
  | error e => simp

/-- A computation stops in its first step or after it. -/
theorem bind_eq_error {x : Except ε α} {f : α → Except ε β} {e : ε} :
    (x >>= f) = .error e ↔ x = .error e ∨ ∃ a, x = .ok a ∧ f a = .error e := by
  cases x with
  | ok a => simp
  | error e' => simp

theorem toOption_eq_some {x : Except ε α} {a : α} : x.toOption = some a ↔ x = .ok a := by
  cases x with
  | ok b => simp [Except.toOption]
  | error e => simp [Except.toOption]

@[simp] theorem map_ok (f : α → β) (a : α) : (Except.ok a : Except ε α).map f = .ok (f a) := rfl

@[simp] theorem map_error (f : α → β) (e : ε) :
    (Except.error e : Except ε α).map f = .error e := rfl

theorem map_eq_ok {x : Except ε α} {f : α → β} {b : β} :
    x.map f = .ok b ↔ ∃ a, x = .ok a ∧ f a = b := by
  cases x with
  | ok a => simp
  | error e => simp

theorem map_eq_error {x : Except ε α} {f : α → β} {e : ε} :
    x.map f = .error e ↔ x = .error e := by
  cases x with
  | ok a => simp
  | error e' => simp

theorem map_map (x : Except ε α) (f : α → β) (g : β → γ) :
    (x.map f).map g = x.map fun a => g (f a) := by
  cases x <;> rfl

theorem mapError_eq_ok {x : Except ε α} {f : ε → ε'} {a : α} :
    x.mapError f = .ok a ↔ x = .ok a := by
  cases x with
  | ok b => simp [Except.mapError]
  | error e => simp [Except.mapError]

/-- A test that stops with an error has been passed where the computation ends well. -/
theorem guard_eq_ok {c : Prop} [Decidable c] {e : ε} {k : Unit → Except ε α} {a : α} :
    (if c then (throw e : Except ε Unit) >>= k else k ()) = .ok a ↔ ¬c ∧ k () = .ok a := by
  by_cases h : c
  · simp [h]
  · simp [h]

/-! ## §2 Loops over lists -/

/-- A loop that collects results ends well exactly if every element gives its result. -/
theorem mapM_eq_ok {f : α → Except ε β} {as : List α} {bs : List β} :
    as.mapM f = .ok bs ↔ List.Forall₂ (fun a b => f a = .ok b) as bs := by
  induction as generalizing bs with
  | nil =>
    cases bs with
    | nil => simp
    | cons b bs => simp
  | cons a as ih =>
    rw [List.mapM_cons, bind_eq_ok]
    constructor
    · rintro ⟨b, hb, h⟩
      obtain ⟨bs', hbs, h⟩ := bind_eq_ok.1 h
      cases h
      exact .cons hb (ih.1 hbs)
    · rintro (_ | ⟨hb, hbs⟩)
      exact ⟨_, hb, by rw [ih.2 hbs]; rfl⟩

/-- Where such a loop stops, it stops at one of the elements. -/
theorem exists_of_mapM_eq_error {f : α → Except ε β} {as : List α} {e : ε}
    (h : as.mapM f = .error e) : ∃ a ∈ as, f a = .error e := by
  induction as with
  | nil => cases h
  | cons a as ih =>
    rw [List.mapM_cons] at h
    rcases bind_eq_error.1 h with h | ⟨b, -, h⟩
    · exact ⟨a, List.mem_cons_self, h⟩
    · rcases bind_eq_error.1 h with h | ⟨bs, -, h⟩
      · obtain ⟨a', ha', failed⟩ := ih h
        exact ⟨a', List.mem_cons_of_mem _ ha', failed⟩
      · cases h

theorem exists_of_forall₂ {R : α → β → Prop} {as : List α} {bs : List β}
    (h : List.Forall₂ R as bs) {b : β} (hb : b ∈ bs) : ∃ a ∈ as, R a b := by
  induction h with
  | nil => cases hb
  | cons first _ ih =>
    rcases List.mem_cons.1 hb with rfl | hb
    · exact ⟨_, List.mem_cons_self, first⟩
    · obtain ⟨a, ha, hab⟩ := ih hb
      exact ⟨a, List.mem_cons_of_mem _ ha, hab⟩

theorem exists_forall₂_iff {R : α → β → Prop} {as : List α} :
    (∃ bs, List.Forall₂ R as bs) ↔ ∀ a ∈ as, ∃ b, R a b := by
  induction as with
  | nil => simp
  | cons a as ih =>
    rw [List.forall_mem_cons, ← ih]
    constructor
    · rintro ⟨_, h⟩
      cases h with
      | cons first rest => exact ⟨⟨_, first⟩, _, rest⟩
    · rintro ⟨⟨b, first⟩, bs, rest⟩
      exact ⟨b :: bs, .cons first rest⟩

theorem map_eq_of_forall₂ {R : α → β → Prop} {as : List α} {bs : List β} {f : α → γ} {g : β → γ}
    (h : List.Forall₂ R as bs) (same : ∀ a b, R a b → g b = f a) : bs.map g = as.map f := by
  induction h with
  | nil => rfl
  | cons first _ ih => rw [List.map_cons, List.map_cons, same _ _ first, ih]

/-- A loop that only tests ends well exactly if every element passes. -/
theorem forM_eq_ok {f : α → Except ε Unit} {as : List α} :
    as.forM f = .ok () ↔ ∀ a ∈ as, f a = .ok () := by
  induction as with
  | nil => simp
  | cons a as ih =>
    show (f a >>= fun _ => as.forM f) = .ok () ↔ _
    rw [bind_eq_ok, List.forall_mem_cons]
    constructor
    · rintro ⟨⟨⟩, first, rest⟩
      exact ⟨first, ih.1 rest⟩
    · rintro ⟨first, rest⟩
      exact ⟨(), first, ih.2 rest⟩

/-- A loop ends well exactly if every element passes a test of its own, and it does what the loop
without tests does. The turns are known only for states that the loop can be in. -/
theorem foldlM_eq_ok {f : σ → α → Except ε σ} {g : σ → α → σ} {I : σ → Prop} {P : α → Prop}
    {as : List α} {s s' : σ} (start : I s)
    (turn : ∀ t, I t → ∀ a t', f t a = .ok t' ↔ P a ∧ t' = g t a)
    (keeps : ∀ t, I t → ∀ a, I (g t a)) :
    as.foldlM f s = .ok s' ↔ (∀ a ∈ as, P a) ∧ s' = as.foldl g s := by
  induction as generalizing s with
  | nil => simp [eq_comm]
  | cons a as ih =>
    rw [List.foldlM_cons, bind_eq_ok, List.forall_mem_cons, List.foldl_cons]
    constructor
    · rintro ⟨t, first, rest⟩
      obtain ⟨passes, rfl⟩ := (turn s start a t).1 first
      obtain ⟨others, rfl⟩ := (ih (keeps s start a)).1 rest
      exact ⟨⟨passes, others⟩, rfl⟩
    · rintro ⟨⟨passes, others⟩, rfl⟩
      exact ⟨g s a, (turn s start a _).2 ⟨passes, rfl⟩, (ih (keeps s start a)).2 ⟨others, rfl⟩⟩

/-- A loop whose every turn puts a new entry in front of a table leaves the entries in reverse. -/
theorem foldlM_push_eq_ok {f : List (String × β) → α → Except ε (List (String × β))}
    {entry : α → String × β} {P : α → Prop} {as : List α} {s s' : List (String × β)}
    (start : (s.map (·.1)).Nodup)
    (turn : ∀ a t t', f t a = .ok t' ↔
      t' = entry a :: t ∧ t.lookup (entry a).1 = none ∧ P a) :
    as.foldlM f s = .ok s' ↔
      s' = (as.map entry).reverse ++ s ∧ (s'.map (·.1)).Nodup ∧ ∀ a ∈ as, P a := by
  induction as generalizing s with
  | nil =>
    constructor
    · intro h
      cases h
      exact ⟨rfl, start, by simp⟩
    · rintro ⟨rfl, -⟩
      rfl
  | cons a as ih =>
    have unseen : s.lookup (entry a).1 = none ↔ ((entry a :: s).map (·.1)).Nodup := by
      rw [List.map_cons, List.nodup_cons, and_iff_left start, List.lookup_eq_none_iff]
      simp only [bne_iff_ne, List.mem_map, not_exists, not_and]
      exact forall₂_congr fun _ _ => ne_comm
    have shape : ((a :: as).map entry).reverse ++ s = (as.map entry).reverse ++ entry a :: s := by
      simp
    rw [List.foldlM_cons, bind_eq_ok, List.forall_mem_cons, shape]
    constructor
    · rintro ⟨t, first, rest⟩
      obtain ⟨rfl, fresh, passes⟩ := (turn a s t).1 first
      obtain ⟨rfl, distinct, others⟩ := (ih (unseen.1 fresh)).1 rest
      exact ⟨rfl, distinct, passes, others⟩
    · rintro ⟨rfl, distinct, passes, others⟩
      have front : ((entry a :: s).map (·.1)).Nodup := by
        rw [List.map_append] at distinct
        exact distinct.of_append_right
      exact ⟨_, (turn a s _).2 ⟨rfl, unseen.2 front, passes⟩, (ih front).2 ⟨rfl, distinct, others⟩⟩

/-! ## §3 What a computation can stop with -/

/-- A computation stops only with errors that are as `P` says. -/
def FailsOnly (P : ε → Prop) (x : Except ε α) : Prop := ∀ e, x = .error e → P e

namespace FailsOnly

variable {P : ε → Prop} {x : Except ε α}

theorem ok (a : α) : FailsOnly P (.ok a) := by
  intro e h
  cases h

theorem bind {f : α → Except ε β} (first : FailsOnly P x) (after : ∀ a, FailsOnly P (f a)) :
    FailsOnly P (x >>= f) := by
  intro e h
  rcases bind_eq_error.1 h with h | ⟨a, -, h⟩
  · exact first e h
  · exact after a e h

/-- What is made of a result does not matter. -/
theorem then_ok (h : FailsOnly P x) (f : α → β) : FailsOnly P (x >>= fun a => .ok (f a)) :=
  h.bind fun a => .ok (f a)

theorem of_then_ok {f : α → β} (h : FailsOnly P (x >>= fun a => .ok (f a))) : FailsOnly P x :=
  fun e failed => h e (bind_eq_error.2 (.inl failed))

theorem mapM {f : α → Except ε β} {as : List α} (each : ∀ a ∈ as, FailsOnly P (f a)) :
    FailsOnly P (as.mapM f) := by
  intro e h
  obtain ⟨a, ha, failed⟩ := exists_of_mapM_eq_error h
  exact each a ha e failed

end FailsOnly

end Serpent.Fallible
