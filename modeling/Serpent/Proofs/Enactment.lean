/-
Serpent.Proofs.Enactment — what a program goes through, and what its module goes through.

The log of a program says what happens when the program is evaluated; the trace of its module says
what the machine goes through. Here the two are put side by side. Every snapshot holds the variables
and the world that the program has where it is (`View.HeldBy`), and what an instruction changes of
them is what the events say that happen with it (`View.Step`). A trace enacts a log (`Enacts`) if
the steps of the machine, one after the other, bring about the moments of the log and nothing else.

  §1 States that hold a world
  §2 Views
  §3 What one instruction does
  §4 Traces that enact a log
  §5 Where nothing happens
-/
import Serpent.Proofs.Heap
import Serpent.Proofs.Symbols
import Serpent.Proofs.Trace
import Serpent.Proofs.Watch

namespace Serpent

open Wasm

/-! ## §1 States that hold a world -/

/-- The locals of the machine hold the local variables of the given names, and the two locals that
code uses for itself are there. -/
structure HoldsLocals (names : List String) (vars locals : Bindings) : Prop where
  keys : vars.map (·.1) = names
  lookup : ∀ x, isSourceWord x = true → locals.lookup (varSymbol x) = vars.lookup x
  scratch : scratchLocal ∈ locals.map (·.1)
  alloc : allocLocal ∈ locals.map (·.1)

/-- The store of the machine holds a world. -/
structure HoldsWorld (p : Program) (W : World) (store : Store) : Prop where
  keys : W.globals.map (·.1) = p.globalVars.map (·.name)
  lookup : ∀ x, isSourceWord x = true → store.globals.lookup (varSymbol x) = W.globals.lookup x
  free : store.globals.lookup heapPointer = some W.free
  memory : store.memory = W.memory
  output : store.output = W.output

namespace HoldsLocals

variable {names : List String} {vars locals : Bindings}

theorem setVar (h : HoldsLocals names vars locals) (x : String) (w : Word) :
    HoldsLocals names (vars.set x w) (locals.set (varSymbol x) w) where
  keys := by rw [Bindings.keys_set, h.keys]
  lookup y hy := by
    rw [Bindings.lookup_set, Bindings.lookup_set, h.lookup y hy]
    simp only [varSymbol_inj]
  scratch := by rw [Bindings.keys_set]; exact h.scratch
  alloc := by rw [Bindings.keys_set]; exact h.alloc

/-- Locals whose symbols hold a second `$` are no variables. -/
theorem setOther (h : HoldsLocals names vars locals) (symbol : String)
    (second : '$' ∈ symbol.toList.tail) (w : Word) :
    HoldsLocals names vars (locals.set symbol w) where
  keys := h.keys
  lookup y hy := by rw [Bindings.lookup_set_of_ne (varSymbol_ne hy second), h.lookup y hy]
  scratch := by rw [Bindings.keys_set]; exact h.scratch
  alloc := by rw [Bindings.keys_set]; exact h.alloc

end HoldsLocals

namespace HoldsWorld

variable {p : Program} {W : World} {store : Store}

theorem setGlobal (h : HoldsWorld p W store) {x : String} (hx : isSourceWord x = true) (w : Word) :
    HoldsWorld p { W with globals := W.globals.set x w }
      { store with globals := store.globals.set (varSymbol x) w } where
  keys := by rw [Bindings.keys_set, h.keys]
  lookup y hy := by
    rw [Bindings.lookup_set, Bindings.lookup_set, h.lookup y hy]
    simp only [varSymbol_inj]
  free := by
    have : heapPointer ≠ varSymbol x := (varSymbol_ne hx (by decide)).symm
    rw [Bindings.lookup_set_of_ne this, h.free]
  memory := h.memory
  output := h.output

theorem setFree (h : HoldsWorld p W store) (w : Word) :
    HoldsWorld p { W with free := w }
      { store with globals := store.globals.set heapPointer w } where
  keys := h.keys
  lookup y hy := by
    rw [Bindings.lookup_set_of_ne (varSymbol_ne hy (by decide)), h.lookup y hy]
  free := by rw [Bindings.lookup_set, if_pos rfl, h.free]; rfl
  memory := h.memory
  output := h.output

theorem setMemory (h : HoldsWorld p W store) (memory : Memory) :
    HoldsWorld p { W with memory } { store with memory } :=
  ⟨h.keys, h.lookup, h.free, rfl, h.output⟩

theorem setOutput (h : HoldsWorld p W store) (output : String) :
    HoldsWorld p { W with output } { store with output } :=
  ⟨h.keys, h.lookup, h.free, h.memory, rfl⟩

end HoldsWorld

/-! ## §2 Views -/

/-- What a program has where it is: the place, the function of the module that runs what stands
there, the local variables, the world, the class of the object whose fields are just getting their
initial values, and the objects whose construction has begun and not come to its end, the newest one
first. -/
structure View where
  site : Site
  func : Func
  vars : Bindings
  world : World
  making : Option ClassDef
  building : Objects

/-- Something happens now. -/
def View.moment (v : View) (event : Event) : Moment := ⟨v.site, v.vars, v.world, event⟩

/-- A state of the machine holds the variables and the world. -/
structure View.HeldBy (p : Program) (v : View) (s : State) : Prop where
  locals : HoldsLocals v.site.names v.vars s.locals
  world : HoldsWorld p v.world s.store

/-- A snapshot is taken in the function of a view, and its state holds the view. -/
structure View.ShownBy (p : Program) (v : View) (a : Snapshot) : Prop where
  func : a.func = v.func
  held : v.HeldBy p a.state

/-- The local variables of a function before any of them has its initial value. -/
def FunDef.zeroLocals (f : FunDef) (args : List Word) : Bindings :=
  (f.params.map (·.name)).zip args ++ f.locals.map fun v => (v.name, 0)

/-! ## §3 What one instruction does -/

/-- Whether an instruction leaves all variables, the memory and the first free address as they are,
and neither calls nor returns. -/
def Wasm.Instr.isQuiet : Instr → Bool
  | .localSet x => x = scratchLocal ∨ x = allocLocal
  | .globalSet _ | .load | .store | .call _ | .return_ => false
  | _ => true

/-- A word is the place of a field of some class. -/
def Program.HasPlace (p : Program) (place : Word) : Prop :=
  ∃ c ∈ p.classes, ∃ k < c.fields.length, place = fieldPlace k

/-- A place where a field is found is that of a field of a class. -/
theorem Program.hasPlace {p : Program} {o : Expr} {x : String} {c : ClassDef} {place : Word}
    (known : p.classOf? o = some c) (located : c.place? x = some place) : p.HasPlace place := by
  obtain ⟨name, -, known⟩ := Option.bind_eq_some_iff.1 known
  obtain ⟨k, index, rfl⟩ := Option.map_eq_some_iff.1 located
  obtain ⟨bound, -⟩ := List.findIdx?_eq_some_iff_getElem.1 index
  refine ⟨c, ?_, k, bound, rfl⟩
  -- the class of all objects has no fields
  rcases List.mem_cons.1 (List.mem_of_find?_eq_some known) with rfl | mem
  · cases bound
  · exact mem

/-- What happens with the first instruction of code, and what the program has behind it. -/
inductive View.Step (p : Program) (m : Module) (s : State) (v : View) :
    List Instr → List Moment → View → Prop
  | quiet {i : Instr} {rest : List Instr} (h : i.isQuiet = true) : Step p m s v (i :: rest) [] v
  | print {f : String} {pr : Printer} {w : Word} {below : List Word} {rest : List Instr}
      (callee : m.callee? f = some (.host pr)) (top : s.stack = w :: below) :
      Step p m s v (.call f :: rest) []
        { v with world := { v.world with output := v.world.output ++ pr.format w ++ "\n" } }
  /-- No more call can be opened. -/
  | full {f : String} {g : Func} {rest : List Instr} (callee : m.callee? f = some (.func g)) :
      Step p m s v (.call f :: rest) [] v
  /-- A local variable gets its initial value. -/
  | initLocal {symbol : String} {f : FunDef} {d : VarDef} {below : List Word} {rest : List Instr}
      (inside : v.site = some f) (function : (symbol, f) ∈ Image.functionsOf p) (mem : d ∈ f.locals)
      (top : s.stack = d.value.word :: below) : Step p m s v (.localSet (varSymbol d.name) :: rest)
        [] { v with vars := v.vars.set d.name d.value.word }
  /-- A global variable gets its initial value. -/
  | initGlobal {d : VarDef} {below : List Word} {rest : List Instr} (mem : d ∈ p.globalVars)
      (top : s.stack = d.value.word :: below) : Step p m s v (.globalSet (varSymbol d.name) :: rest)
        [] { v with world := { v.world with globals := v.world.globals.set d.name d.value.word } }
  | setLocal {x : String} {w : Word} {below : List Word} {rest : List Instr} {u : View}
      (top : s.stack = w :: below) (set : u = { v with vars := v.vars.set x w }) :
      Step p m s v (.localSet (varSymbol x) :: rest) [u.moment .assigned] u
  | setGlobal {x : String} {w : Word} {below : List Word} {rest : List Instr} {u : View}
      (top : s.stack = w :: below)
      (set : u = { v with world := { v.world with globals := v.world.globals.set x w } }) :
      Step p m s v (.globalSet (varSymbol x) :: rest) [u.moment .assigned] u
  | read {receiver place : Word} {below : List Word} {rest : List Instr} (field : p.HasPlace place)
      (address : s.stack = (receiver + place) :: below) :
      Step p m s v (.load :: rest) [v.moment (.access receiver place)] v
  | write {receiver place w : Word} {below : List Word} {rest : List Instr} {memory : Memory}
      {u : View} (field : p.HasPlace place) (operands : s.stack = w :: (receiver + place) :: below)
      (stored : v.world.memory.store? (receiver + place).address w = some memory)
      (set : u = { v with world := { v.world with memory } }) :
      Step p m s v (.store :: rest) [v.moment (.access receiver place), u.moment .assigned] u
  | miss {receiver place w : Word} {below : List Word} {rest : List Instr}
      (field : p.HasPlace place) (operands : s.stack = w :: (receiver + place) :: below)
      (outside : v.world.memory.store? (receiver + place).address w = none) :
      Step p m s v (.store :: rest) [v.moment (.access receiver place)] v
  /-- A field of the object in the making gets its initial value. -/
  | initField {c : ClassDef} {k : Nat} {d : VarDef} {below : List Word} {rest : List Instr}
      {memory : Memory} (making : v.making = some c) (found : c.fields[k]? = some d)
      (operands : s.stack = d.value.word :: (v.world.free + fieldPlace k) :: below)
      (stored : v.world.memory.store? (v.world.free + fieldPlace k).address d.value.word =
        some memory) :
      Step p m s v (.store :: rest) [] { v with world := { v.world with memory } }
  | missField {c : ClassDef} {k : Nat} {d : VarDef} {below : List Word} {rest : List Instr}
      (making : v.making = some c) (found : c.fields[k]? = some d)
      (operands : s.stack = d.value.word :: (v.world.free + fieldPlace k) :: below)
      (outside : v.world.memory.store? (v.world.free + fieldPlace k).address d.value.word = none) :
      Step p m s v (.store :: rest) [] v
  /-- The first free address is moved behind the object, whose construction begins. -/
  | made {c : ClassDef} {below : List Word} {rest : List Instr} {u : View}
      (making : v.making = some c)
      (top : s.stack = (v.world.free + fieldPlace c.fields.length) :: below)
      (set : u = { v with
        world := { v.world with free := v.world.free + fieldPlace c.fields.length }
        making := none
        building := (v.world.free, c) :: v.building }) :
      Step p m s v (.globalSet heapPointer :: .localGet allocLocal ::
        .call (methodSymbol c.name initMethod) :: rest) [u.moment (.made c v.world.free)] u
  | returning {w : Word} {below : List Word} {rest : List Instr} (top : s.stack = w :: below) :
      Step p m s v (.return_ :: rest) [v.moment (.returning w)] v
  | ended : Step p m s v [.const 0] [v.moment .ended] v

/-! ## §4 Traces that enact a log -/

/-- Snapshots are those of the code of an expression, which leaves the word `w` on top of the
operands, and the world `W`. -/
inductive View.Leaves (p : Program) (m : Module) (fuel : Nat) (v : View) (e : Expr) (w : Word)
    (W : World) : List Snapshot → Prop
  | intro {depth : Nat} {code rest : List Instr} {s s' : State}
      (compiled : (⟨Image.layoutsOf p, v.site.names⟩ : Surroundings).expr e = .ok code)
      (ran : exec m fuel depth code s = .next s') (top : s'.stack = w :: s.stack)
      (held : View.HeldBy p { v with world := W } s') : Leaves p m fuel v e w W
        (Instr.trace m fuel (m.call fuel depth) (m.enter fuel depth) v.func rest code s)

/-- The class whose objects an expression constructs. -/
def Program.constructed? (p : Program) : Expr → Option ClassDef
  | .call _ f _ => if f = printFunction then none else p.class? f
  | _ => none

/-- What stands in a log right before the value of an expression. -/
structure Expr.ValueAfter (before : List Moment) (e : Expr) (w : Word) : Prop where
  /-- The value of `print` is that of its argument. -/
  printed : ∀ a arg, e = .call a printFunction [arg] →
    ∃ (earlier : List Moment) (x : Moment), before = earlier ++ [x] ∧ x.event = .value arg w
  /-- What is compared to a literal comes before the literal. -/
  compared : ∀ a l b v, e = .binary a .is l (.literal b v) →
    ∃ (earlier : List Moment) (x y : Moment) (u : Word),
      before = earlier ++ [x, y] ∧ x.event = .value l u ∧ w = Word.ofBool (u = v.word)

/-- A call is reached: of the function `g`, which is that of `f`, with arguments that are on top of
the operands. -/
structure View.Calls (p : Program) (m : Module) (v : View) (s : State) (symbol : String)
    (f : FunDef) (g : Func) (args : List Word) : Prop where
  held : v.HeldBy p s
  callee : m.callee? symbol = some (.func g)
  function : (symbol, f) ∈ Image.functionsOf p
  arity : args.length = f.params.length
  passed : s.stack.take args.length = args.reverse
  idle : v.making = none

/-- A function that is called has zero for its variables, and the moment at which it is entered says
what they will have. -/
def View.callee (v : View) (f : FunDef) (g : Func) (args : List Word) : View :=
  ⟨some f, g, f.zeroLocals args, v.world, none, v.building⟩

/-- A trace enacts a log, from what the program has before to what it has in the end. That may be
inside of a function that has not come back. -/
inductive Enacts (p : Program) (m : Module) (fuel : Nat) :
    View → List Moment → List Snapshot → View → Prop
  | nil (v : View) : Enacts p m fuel v [] [] v
  | append {v u t : View} {log log' : List Moment} {T T' : List Snapshot}
      (first : Enacts p m fuel v log T u) (rest : Enacts p m fuel u log' T' t) :
      Enacts p m fuel v (log ++ log') (T ++ T') t
  | step {v u : View} {s : State} {code : List Instr} {log : List Moment} (held : v.HeldBy p s)
      (step : v.Step p m s code log u) : Enacts p m fuel v log [⟨v.func, .reached code, s⟩] u
  | border {v : View} {s : State} {point : Point} (held : v.HeldBy p s)
      (border : point = .entered ∨ point = .left) : Enacts p m fuel v [] [⟨v.func, point, s⟩] v
  /-- The fields of a new object are going to get their initial values. -/
  | making {v : View} {c : ClassDef} (mem : c ∈ p.allClasses) (idle : v.making = none) :
      Enacts p m fuel v [v.moment (.making c v.world.free)] [] { v with making := some c }
  | call {v u : View} {s : State} {symbol : String} {f : FunDef} {g : Func} {args : List Word}
      {rest : List Instr} {log : List Moment} {T : List Snapshot}
      (calls : v.Calls p m s symbol f g args) (body : Enacts p m fuel (v.callee f g args) log T u) :
      Enacts p m fuel v (⟨some f, f.initialLocals args, v.world, .entered⟩ :: log)
        (⟨v.func, .reached (.call symbol :: rest), s⟩ :: T)
        { u with site := v.site, func := v.func, vars := v.vars }
  /-- The function has not come back. -/
  | inside {v u : View} {s : State} {symbol : String} {f : FunDef} {g : Func} {args : List Word}
      {rest : List Instr} {log : List Moment} {T : List Snapshot}
      (calls : v.Calls p m s symbol f g args) (body : Enacts p m fuel (v.callee f g args) log T u) :
      Enacts p m fuel v (⟨some f, f.initialLocals args, v.world, .entered⟩ :: log)
        (⟨v.func, .reached (.call symbol :: rest), s⟩ :: T) u
  | value {v : View} {W : World} {e : Expr} {w : Word} {log : List Moment} {T : List Snapshot}
      (other : p.constructed? e = none) (ran : Enacts p m fuel v log T { v with world := W })
      (follows : e.ValueAfter log w) (leaves : v.Leaves p m fuel e w W T) :
      Enacts p m fuel v (log ++ [View.moment { v with world := W } (.value e w)]) T
        { v with world := W }
  /-- An object is made, and its construction comes to its end. -/
  | construct {v u : View} {V W : World} {e : Expr} {c : ClassDef} {self : Word}
      {log : List Moment} {T T' : List Snapshot} (constructs : p.constructed? e = some c)
      (makes : Enacts p m fuel v [v.moment (.making c self), u.moment (.made c self)] T u)
      (begun : u = { v with world := V, building := (self, c) :: v.building })
      (ran : Enacts p m fuel u log T' { u with world := W })
      (leaves : v.Leaves p m fuel e self W (T ++ T')) :
      Enacts p m fuel v ([v.moment (.making c self), u.moment (.made c self)] ++
        (log ++ [View.moment { v with world := W } (.value e self)])) (T ++ T')
        { v with world := W }

/-! ## §5 Where nothing happens -/

section

variable {p : Program} {m : Module} {fuel : Nat} {v u : View} {log : List Moment}

theorem Enacts.of_border {g : Func} {s : State} {point : Point} (func : v.func = g)
    (held : v.HeldBy p s) (border : point = .entered ∨ point = .left) :
    Enacts p m fuel v [] [⟨g, point, s⟩] v :=
  func ▸ .border held border

/-- Nothing happens at first. -/
theorem Enacts.silent_append {t : View} {T T' : List Snapshot} (first : Enacts p m fuel v [] T u)
    (rest : Enacts p m fuel u log T' t) : Enacts p m fuel v log (T ++ T') t :=
  first.append rest

/-- Nothing happens at last. -/
theorem Enacts.append_silent {t : View} {T T' : List Snapshot} (first : Enacts p m fuel v log T u)
    (rest : Enacts p m fuel u [] T' t) : Enacts p m fuel v log (T ++ T') t :=
  List.append_nil log ▸ first.append rest

end

end Serpent
