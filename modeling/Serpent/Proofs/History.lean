/-
Serpent.Proofs.History — what the log of a program says about its objects and values.

Some facts hold of every run, whether the program is typed or not, and whatever its fields are used
for. Each object is put right behind the one before it; every object that has been made is in
construction or has been given back by its constructor; a field that is accessed is at the place of
a field of a class; the value of `print` is that of its argument, which stands right before it in
the log; and what `is` compares to a literal stands right before the literal. All of this follows,
by induction on what has been enacted, from what one instruction does.

  §1 Objects of a log
  §2 Objects and the first free address
  §3 What has happened so far
  §4 Moments and what they follow
-/
import Serpent.Proofs.Enactment

namespace Serpent

open Wasm (Module)

/-! ## §1 Objects of a log -/

/-- The objects that are made in the course of a log. -/
def made (log : List Moment) : Objects :=
  log.filterMap fun m =>
    match m.event with
    | .made c self => some (self, c)
    | _ => none

/-- The objects whose constructors have given them back in the course of a log: the values of the
calls of classes, and the classes. -/
def finished (p : Program) (log : List Moment) : Objects :=
  log.filterMap fun m =>
    match m.event with
    | .value e w => (p.constructed? e).map (w, ·)
    | _ => none

@[simp] theorem made_nil : made [] = [] := rfl

@[simp] theorem made_append (log log' : List Moment) : made (log ++ log') = made log ++ made log' :=
  List.filterMap_append

theorem made_subset (log log' : List Moment) : made log ⊆ made (log ++ log') := by
  rw [made_append]
  exact List.subset_append_left _ _

theorem bytes_made_le (log log' log'' : List Moment) (n : Nat) :
    (made log).bytes + (made log').bytes + n ≤ (made (log ++ (log' ++ log''))).bytes + n := by
  simp only [made_append, Objects.bytes_append]
  omega

@[simp] theorem finished_append (p : Program) (log log' : List Moment) :
    finished p (log ++ log') = finished p log ++ finished p log' :=
  List.filterMap_append

/-- A log goes on behind the front of it with the moment that has its number. -/
theorem exists_split {log : List Moment} {n : Nat} {f : Moment → Bool}
    (h : log[n]?.any f = true) : ∃ m after, log = log.take n ++ m :: after ∧ f m = true := by
  cases found : log[n]? with
  | none =>
    rw [found] at h
    cases h
  | some m =>
    rw [found] at h
    obtain ⟨bound, rfl⟩ := List.getElem?_eq_some_iff.1 found
    refine ⟨log[n], log.drop (n + 1), ?_, h⟩
    rw [← List.drop_eq_getElem_cons bound, List.take_append_drop]

/-- The expression that has got its value, and the value. -/
def Event.value? : Event → Option (Expr × Word)
  | .value e w => some (e, w)
  | _ => none

theorem Event.eq_of_value? {event : Event} {e : Expr} {w : Word}
    (h : event.value? = some (e, w)) : event = .value e w := by
  cases event <;> cases h
  rfl

namespace Objects

/-- The first object is at an address, and every other one right behind the one before it; addresses
wrap around. -/
def Placed : Nat → Objects → Prop
  | _, [] => True
  | start, o :: rest => o.1 = Int32.ofNat start ∧ Placed (start + o.2.bytes) rest

theorem placed_append {start : Nat} {objects others : Objects} :
    Placed start (objects ++ others) ↔
      Placed start objects ∧ Placed (start + objects.bytes) others := by
  induction objects generalizing start with
  | nil => simp [Placed]
  | cons o objects ih => simp [Placed, ih, and_assoc, Nat.add_assoc]

/-- Objects that end before the last address do not wrap around. -/
theorem Placed.laid {start : Nat} {objects : Objects} (h : Placed start objects)
    (room : start + objects.bytes ≤ Word.count) : Laid start objects := by
  induction objects generalizing start with
  | nil => trivial
  | cons o objects ih =>
    obtain ⟨here, rest⟩ := h
    rw [bytes_cons] at room
    have pos := o.2.bytes_pos
    exact ⟨by rw [here]; exact Word.address_ofNat (by omega), ih rest (by omega)⟩

end Objects

/-! ## §2 Objects and the first free address -/

/-- How many bytes an object in the making takes. -/
def View.pending (v : View) : Nat := (v.making.map ClassDef.bytes).getD 0

/-- The objects are accounted for between two views: each one is put at the first free address,
which moves behind it; what was in the making is made or still in the making; and what is made is
given back or still in construction. -/
structure View.Accounts (p : Program) (v : View) (log : List Moment) (u : View) : Prop where
  placed : ∀ n, v.world.free = Int32.ofNat n → (made log).Placed n
  free : u.world.free = v.world.free + Int32.ofNat (made log).bytes
  pending : v.pending ≤ (made log).bytes + u.pending
  built : (finished p log ++ u.building).Perm (made log ++ v.building)

namespace View.Accounts

variable {p : Program} {v u t : View} {log log' : List Moment}

/-- No object is made or given back. -/
theorem of_none (made : made log = []) (finished : finished p log = [])
    (free : u.world.free = v.world.free) (pending : v.pending ≤ u.pending)
    (building : u.building = v.building) : v.Accounts p log u where
  placed n _ := by rw [made]; trivial
  free := by rw [made, free]; exact (Int32.add_zero _).symm
  pending := by rw [made]; exact Nat.le_trans pending (Nat.le_add_left ..)
  built := by rw [made, finished, building]

theorem append (first : v.Accounts p log u) (rest : u.Accounts p log' t) :
    v.Accounts p (log ++ log') t where
  placed n start := by
    rw [made_append, Objects.placed_append]
    refine ⟨first.placed n start, rest.placed _ ?_⟩
    rw [first.free, start, Int32.ofNat_add]
  free := by
    rw [rest.free, first.free, made_append, Objects.bytes_append, Int32.ofNat_add, Int32.add_assoc]
  pending := by
    have := first.pending
    have := rest.pending
    rw [made_append, Objects.bytes_append]
    omega
  built := by
    rw [finished_append, made_append, List.append_assoc, List.append_assoc]
    have later : (finished p log ++ (finished p log' ++ t.building)).Perm
        (made log' ++ (finished p log ++ u.building)) :=
      (rest.built.append_left _).trans (List.perm_append_comm_assoc ..)
    have earlier : (made log' ++ (finished p log ++ u.building)).Perm
        (made log ++ (made log' ++ v.building)) :=
      (first.built.append_left _).trans (List.perm_append_comm_assoc ..)
    exact later.trans earlier

/-- A function is entered. -/
theorem of_body {x : Moment} (body : t.Accounts p log u) (entered : x.event = .entered)
    (free : t.world.free = v.world.free) (idle : v.making = none)
    (building : t.building = v.building) : v.Accounts p (x :: log) u := by
  have silent : v.Accounts p [x] t :=
    .of_none (by simp [made, entered]) (by simp [finished, entered]) free
      (by simp [View.pending, idle]) building
  exact silent.append body

end View.Accounts

/-- One instruction makes at most the object that is in the making. -/
theorem View.Step.accounts {p : Program} {m : Module} {s : Wasm.State} {v u : View}
    {code : List Wasm.Instr} {log : List Moment} (h : v.Step p m s code log u) :
    v.Accounts p log u := by
  cases h with
  | @made c below rest u making top set =>
    subst set
    refine ⟨fun n start => ⟨start, trivial⟩, rfl, ?_, List.Perm.refl _⟩
    simp [View.pending, making, Serpent.made, View.moment]
  | setLocal top set | setGlobal top set | write field operands stored set =>
    subst set
    exact .of_none rfl rfl rfl (Nat.le_refl _) rfl
  | _ => exact .of_none rfl rfl rfl (Nat.le_refl _) rfl

section

variable {p : Program} {m : Module} {fuel : Nat} {v u : View} {log : List Moment}
  {T : List Wasm.Snapshot}

theorem Enacts.accounts (h : Enacts p m fuel v log T u) : v.Accounts p log u := by
  induction h with
  | nil v | border held border => exact .of_none rfl rfl rfl (Nat.le_refl _) rfl
  | append first rest ihfirst ihrest => exact ihfirst.append ihrest
  | step held step => exact step.accounts
  | making mem idle => exact .of_none rfl rfl rfl (by simp [View.pending, idle]) rfl
  | @call v u _ _ f _ args _ log _ calls body ih =>
    have inside : v.Accounts p (⟨some f, f.initialLocals args, v.world, .entered⟩ :: log) u :=
      ih.of_body rfl rfl calls.idle rfl
    exact ⟨inside.placed, inside.free, inside.pending, inside.built⟩
  | inside calls body ih => exact ih.of_body rfl rfl calls.idle rfl
  | value other ran follows leaves ih =>
    refine ih.append (.of_none rfl ?_ rfl (Nat.le_refl _) rfl)
    simp [finished, View.moment, other]
  | @construct v u V W e c self log T T' constructs makes begun ran leaves ihmakes ihran =>
    subst begun
    rw [← List.append_assoc]
    refine (ihmakes.append ihran).append
      ⟨fun _ _ => trivial, (Int32.add_zero _).symm, Nat.le_add_left .., ?_⟩
    simp [finished, made, View.moment, constructs]

/-! ## §3 What has happened so far -/

/-- When a snapshot is taken, a part of the log has been enacted, and the snapshot shows what the
program has then. The objects so far take no more bytes than those in the end, if the one in the
making is counted. -/
theorem Enacts.exists_before (h : Enacts p m fuel v log T u) {before after : List Wasm.Snapshot}
    {a : Wasm.Snapshot} (split : T = before ++ a :: after) :
    ∃ log₁ log₂ t, log = log₁ ++ log₂ ∧ Enacts p m fuel v log₁ before t ∧ t.ShownBy p a ∧
      (made log₁).bytes + t.pending ≤ (made log).bytes + u.pending := by
  induction h generalizing before after with
  | nil v => simp at split
  | @append v u t log log' T T' first rest ihfirst ihrest =>
    have pending := rest.accounts.pending
    rcases exists_of_append_eq split with ⟨later, here⟩ | ⟨middle, rfl, here⟩
    · obtain ⟨log₁, log₂, t, rfl, enacts, shown, bytes⟩ := ihfirst here
      refine ⟨log₁, log₂ ++ log', t, List.append_assoc .., enacts, shown, ?_⟩
      simp only [made_append, Objects.bytes_append] at bytes ⊢
      omega
    · obtain ⟨log₁, log₂, t, rfl, enacts, shown, bytes⟩ := ihrest here
      refine ⟨log ++ log₁, log₂, t, (List.append_assoc ..).symm, first.append enacts, shown, ?_⟩
      simp only [made_append, Objects.bytes_append] at bytes ⊢
      omega
  | @step v _ _ _ _ held step =>
    have pending := step.accounts.pending
    cases before with
    | nil =>
      cases split
      exact ⟨[], _, v, rfl, .nil v, ⟨rfl, held⟩, by simpa using pending⟩
    | cons b before => simp at split
  | @border v _ _ held _ =>
    cases before with
    | nil =>
      cases split
      exact ⟨[], _, v, rfl, .nil v, ⟨rfl, held⟩, Nat.le_refl _⟩
    | cons b before => simp at split
  | making mem idle => simp at split
  | @call v u s symbol f g args rest log T calls body ih
  | @inside v u s symbol f g args rest log T calls body ih =>
    cases before with
    | nil =>
      cases split
      exact ⟨[], _, v, rfl, .nil v, ⟨rfl, calls.held⟩, by simp [View.pending, calls.idle]⟩
    | cons b before =>
      cases split
      obtain ⟨log₁, log₂, t, rfl, enacts, shown, bytes⟩ := ih rfl
      exact ⟨_ :: log₁, log₂, t, rfl, .inside calls enacts, shown, bytes⟩
  | value other ran follows leaves ih =>
    obtain ⟨log₁, log₂, t, rfl, enacts, shown, bytes⟩ := ih split
    refine ⟨log₁, _, t, List.append_assoc .., enacts, shown, ?_⟩
    rw [made_append, Objects.bytes_append]
    exact Nat.le_trans bytes (Nat.add_le_add_right (Nat.le_add_right ..) _)
  | @construct v u V W e c self log T T' constructs makes begun ran leaves ihmakes ihran =>
    subst begun
    rcases exists_of_append_eq split with ⟨later, here⟩ | ⟨middle, rfl, here⟩
    · obtain ⟨log₁, log₂, t, eq, enacts, shown, bytes⟩ := ihmakes here
      refine ⟨log₁, _, t, by rw [eq, List.append_assoc], enacts, shown,
        Nat.le_trans ?_ (bytes_made_le _ log _ v.pending)⟩
      exact Nat.le_trans bytes (Nat.add_le_add_right (Nat.le_add_right ..) _)
    · obtain ⟨log₁, log₂, t, rfl, enacts, shown, bytes⟩ := ihran here
      refine ⟨_, log₂ ++ [View.moment { v with world := W } (.value e self)], t, ?_,
        makes.append enacts, shown, Nat.le_trans ?_ (bytes_made_le _ (log₁ ++ log₂) _ v.pending)⟩
      · simp only [List.append_assoc]
      · rw [made_append, Objects.bytes_append, Nat.add_assoc, Nat.add_assoc]
        exact Nat.add_le_add_left bytes _

/-! ## §4 Moments and what they follow -/

/-- An event follows what has happened before. -/
def Event.Follows (p : Program) (before : List Moment) : Event → Prop
  | .value e w => e.ValueAfter before w
  | .access _ place => p.HasPlace place
  | _ => True

/-- What has happened before that does not matter. -/
theorem Expr.ValueAfter.append {before : List Moment} {e : Expr} {w : Word}
    (h : e.ValueAfter before w) (earlier : List Moment) : e.ValueAfter (earlier ++ before) w where
  printed a arg eq := by
    obtain ⟨first, x, rfl, event⟩ := h.printed a arg eq
    exact ⟨earlier ++ first, x, (List.append_assoc ..).symm, event⟩
  compared a l b v eq := by
    obtain ⟨first, x, y, w', rfl, rest⟩ := h.compared a l b v eq
    exact ⟨earlier ++ first, x, y, w', (List.append_assoc ..).symm, rest⟩

theorem Event.Follows.append {before : List Moment} {event : Event} (h : event.Follows p before)
    (earlier : List Moment) : event.Follows p (earlier ++ before) := by
  cases event with
  | value e w => exact Expr.ValueAfter.append h earlier
  | access receiver place => exact h
  | _ => trivial

theorem View.Step.follows {s : Wasm.State} {code : List Wasm.Instr} (h : v.Step p m s code log u)
    (before : List Moment) : ∀ x ∈ log, x.event.Follows p before := by
  cases h with
  | read field address | write field operands stored set | miss field operands outside =>
    simp [View.moment, Event.Follows, field]
  | _ => simp [View.moment, Event.Follows]

/-- Every moment of a log follows those before it. -/
def AllFollow (p : Program) (log : List Moment) : Prop :=
  ∀ before x after, log = before ++ x :: after → x.event.Follows p before

namespace AllFollow

variable {log' : List Moment}

/-- What is known of the value of an expression that stands in a log. -/
theorem value (h : AllFollow p log) {before after : List Moment} {x : Moment} {e : Expr} {w : Word}
    (split : log = before ++ x :: after) (event : x.event = .value e w) :
    e.ValueAfter before w := by
  have follows := h before x after split
  rwa [event] at follows

theorem of_mem (h : ∀ before, ∀ x ∈ log, x.event.Follows p before) : AllFollow p log :=
  fun before x _ split => h before x (by simp [split])

theorem append (first : AllFollow p log) (rest : AllFollow p log') : AllFollow p (log ++ log') := by
  intro before x after split
  rcases exists_of_append_eq split with ⟨later, here⟩ | ⟨middle, rfl, here⟩
  · exact first before x later here
  · exact (rest middle x after here).append log

theorem cons {x : Moment} (h : AllFollow p log) (entered : x.event = .entered) :
    AllFollow p (x :: log) := by
  have first : AllFollow p [x] := .of_mem (by simp [entered, Event.Follows])
  exact first.append h

/-- The value of an expression comes last. -/
theorem concat {x : Moment} {e : Expr} {w : Word} (h : AllFollow p log)
    (event : x.event = .value e w) (follows : e.ValueAfter log w) : AllFollow p (log ++ [x]) := by
  intro before y after split
  rcases exists_of_append_eq split with ⟨later, here⟩ | ⟨middle, rfl, here⟩
  · exact h before y later here
  · cases middle with
    | nil =>
      cases here
      rw [event, List.append_nil]
      exact follows
    | cons z middle => simp at here

end AllFollow

theorem Enacts.allFollow (h : Enacts p m fuel v log T u) : AllFollow p log := by
  induction h with
  | nil v | border held border => exact .of_mem (by simp)
  | append first rest ihfirst ihrest => exact ihfirst.append ihrest
  | step held step => exact .of_mem step.follows
  | making mem idle => exact .of_mem (by simp [View.moment, Event.Follows])
  | call calls body ih | inside calls body ih => exact ih.cons rfl
  | value other ran follows leaves ih => exact ih.concat rfl follows
  | @construct v u V W e c self log T T' constructs makes begun ran leaves ihmakes ihran =>
    refine ihmakes.append (ihran.concat rfl ⟨?_, ?_⟩)
    · rintro a arg rfl
      simp [Program.constructed?] at constructs
    · rintro a l b v rfl
      cases constructs

end

end Serpent
