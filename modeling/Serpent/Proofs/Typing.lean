/-
Serpent.Proofs.Typing — when a program is well typed, said of the program itself.

What a name stands for is read off the definitions: no table of names is built, and the order of
definitions does not matter. Types that are written into expressions are not looked at (§1 to §5);
§6 takes them away, and §7 says when they are all there and right.

  §1 Types that fit
  §2 What names stand for
  §3 Expressions
  §4 Statements
  §5 Functions, classes and programs
  §6 Programs without types written into them
  §7 Programs with all types written into them
-/
import Serpent.Program

namespace Serpent

/-! ## §1 Types that fit -/

/-- A value of one type may stand where the other is asked for. -/
inductive Ty.Fits : Ty → Ty → Prop
  | none (t : Ty) : Fits .none t
  | same (t : Ty) : Fits t t

theorem Ty.fits_iff {found expected : Ty} :
    found.Fits expected ↔ found.assignableTo expected = true := by
  simp only [assignableTo, Bool.or_eq_true, decide_eq_true_eq]
  constructor
  · rintro (_ | _)
    · exact .inl rfl
    · exact .inr rfl
  · rintro (rfl | rfl)
    · exact .none _
    · exact .same _

/-- The types whose values are compared by `is`. -/
inductive Ty.IsReference : Ty → Prop
  | none : IsReference .none
  | object (c : String) : IsReference (.object c)

/-- The operand and the result of a prefix operator. -/
inductive UnOp.Takes : UnOp → Ty → Ty → Prop
  | neg : Takes .neg .int .int
  | not : Takes .not .bool .bool

/-- The operands and the result of a binary operator. -/
inductive BinOp.Takes : BinOp → Ty → Ty → Ty → Prop
  | arithmetic {op : BinOp} (h : op ∈ [.add, .sub, .mul, .floorDiv, .mod]) : Takes op .int .int .int
  | order {op : BinOp} (h : op ∈ [.le, .ge, .lt, .gt]) : Takes op .int .int .bool
  | equality {op : BinOp} {t : Ty} (h : op ∈ [.eq, .ne]) (ht : t = .int ∨ t = .bool) :
      Takes op t t .bool
  | logic {op : BinOp} (h : op ∈ [.and, .or]) : Takes op .bool .bool .bool
  | is {l r : Ty} (hl : l.IsReference) (hr : r.IsReference) : Takes .is l r .bool

/-! ## §2 What names stand for -/

/-- The parameters and variables of a function with their types. -/
def FunDef.vars (f : FunDef) : List (String × Ty) :=
  f.params.map (fun a => (a.name, a.ty)) ++ f.locals.map fun v => (v.name, v.ty)

/-- The function around a place in a program; outside of functions there is none. -/
abbrev Site := Option FunDef

namespace Site

/-- The local variables of a place with their types. -/
def vars : Site → List (String × Ty)
  | some f => f.vars
  | none => []

/-- The names of the local variables of a place. -/
def names (site : Site) : List String := site.vars.map (·.1)

/-- A name stands for a variable: a local one, or a global one that no local one hides. -/
inductive HasVar (p : Program) (site : Site) : String → Ty → Prop
  | own {x : String} {t : Ty} (h : (x, t) ∈ site.vars) : HasVar p site x t
  | global {v : VarDef} (h : v ∈ p.globalVars) (seen : v.name ∉ site.names) :
      HasVar p site v.name v.ty

/-- A name stands for a function that no local variable hides. -/
structure HasFunction (p : Program) (site : Site) (x : String) (d : FunDef) : Prop where
  mem : d ∈ p.functions
  name : d.name = x
  seen : x ∉ site.names

end Site

namespace Program

/-- A name is that of a class. The class of all objects needs no definition. -/
def IsClass (p : Program) (c : String) : Prop := c = objectClass ∨ ∃ d ∈ p.classes, d.name = c

/-- A type may be named: it is no class, or a class of the program. -/
def IsType (p : Program) : Ty → Prop
  | .object c => p.IsClass c
  | _ => True

/-- The objects of a class have a field of that name and type. -/
def HasField (p : Program) (c x : String) (t : Ty) : Prop :=
  ∃ d ∈ p.classes, d.name = c ∧ ∃ v ∈ d.fields, v.name = x ∧ v.ty = t

/-- A class has a method of that name. -/
def HasMethod (p : Program) (c x : String) (m : FunDef) : Prop :=
  ∃ d ∈ p.classes, d.name = c ∧ m ∈ d.methods ∧ m.name = x

end Program

/-! ## §3 Expressions -/

mutual

/-- An expression at a place in a program has a type. -/
inductive HasType (p : Program) (site : Site) : Expr → Ty → Prop
  | literal (a : Option Ty) (v : Literal) : HasType p site (.literal a v) v.ty
  | var (a : Option Ty) {x : String} {t : Ty} (h : site.HasVar p x t) :
      HasType p site (.var a x) t
  | unary (a : Option Ty) {op : UnOp} {e : Expr} {t r : Ty} (operand : HasType p site e t)
      (h : op.Takes t r) : HasType p site (.unary a op e) r
  | binary (a : Option Ty) {op : BinOp} {l r : Expr} {t u v : Ty} (left : HasType p site l t)
      (right : HasType p site r u) (h : op.Takes t u v) : HasType p site (.binary a op l r) v
  | print (a : Option Ty) {e : Expr} {t : Ty} (argument : HasType p site e t) :
      HasType p site (.call a printFunction [e]) .none
  | call (a : Option Ty) {x : String} {args : List Expr} {d : FunDef} (other : x ≠ printFunction)
      (found : site.HasFunction p x d) (arguments : Accepts p site args (d.params.map (·.ty))) :
      HasType p site (.call a x args) d.result
  | construct (a : Option Ty) {c : String} (other : c ≠ printFunction) (found : p.IsClass c) :
      HasType p site (.call a c []) (.object c)
  | field (a : Option Ty) {o : Expr} {c x : String} {t : Ty}
      (receiver : HasType p site o (.object c)) (found : p.HasField c x t) :
      HasType p site (.field a o x) t
  | method (a : Option Ty) {o : Expr} {c x : String} {args : List Expr} {m : FunDef}
      (receiver : HasType p site o (.object c)) (found : p.HasMethod c x m)
      (arguments : Accepts p site args ((m.params.drop 1).map (·.ty))) :
      HasType p site (.method a o x args) m.result

/-- There is one argument for each parameter, and its type fits that of the parameter. -/
inductive Accepts (p : Program) (site : Site) : List Expr → List Ty → Prop
  | nil : Accepts p site [] []
  | cons {e : Expr} {es : List Expr} {found expected : Ty} {ts : List Ty}
      (first : HasType p site e found) (fits : found.Fits expected) (rest : Accepts p site es ts) :
      Accepts p site (e :: es) (expected :: ts)

end

/-- The target of an assignment asks for a type. A function assigns to its own variables only. -/
inductive Target.HasType (p : Program) (site : Site) : Target → Ty → Prop
  | own {x : String} {t : Ty} (h : (x, t) ∈ site.vars) : HasType p site (.var x) t
  | global {v : VarDef} (h : v ∈ p.globalVars) (outside : site = none) :
      HasType p site (.var v.name) v.ty
  | member {o : Expr} {c x : String} {t : Ty} (receiver : Serpent.HasType p site o (.object c))
      (found : p.HasField c x t) : HasType p site (.member o x) t

/-! ## §4 Statements -/

/-- A statement at a place in a program is well typed. -/
inductive Stmt.IsTyped (p : Program) (site : Site) : Stmt → Prop
  | pass : IsTyped p site .pass
  | assign {target : Target} {e : Expr} {found expected : Ty} (place : target.HasType p site expected)
      (value : HasType p site e found) (fits : found.Fits expected) :
      IsTyped p site (.assign target e)
  | expr {e : Expr} {t : Ty} (value : HasType p site e t) : IsTyped p site (.expr e)
  | return_ {f : FunDef} {e : Expr} {t : Ty} (inside : site = some f) (value : HasType p site e t)
      (fits : t.Fits f.result) : IsTyped p site (.return_ e)
  | while_ {c : Expr} {body : List Stmt} (condition : HasType p site c .bool)
      (round : ∀ s ∈ body, IsTyped p site s) : IsTyped p site (.while_ c body)
  | if_ {c : Expr} {body : List Stmt} {elif : Option (Expr × List Stmt)}
      {orElse : Option (List Stmt)} (condition : HasType p site c .bool)
      (yes : ∀ s ∈ body, IsTyped p site s) (conditions : ∀ d ∈ elif, HasType p site d.1 .bool)
      (maybe : ∀ d ∈ elif, ∀ s ∈ d.2, IsTyped p site s)
      (no : ∀ b ∈ orElse, ∀ s ∈ b, IsTyped p site s) : IsTyped p site (.if_ c body elif orElse)

/-- Every path through a statement returns: it is a `return`, or a conditional with an `else` branch
each of whose branches has such a statement. -/
inductive Stmt.Returns : Stmt → Prop
  | return_ (e : Expr) : Returns (.return_ e)
  | if_ (c : Expr) {body orElse : List Stmt} {s u : Stmt} (hs : s ∈ body) (yes : Returns s)
      (hu : u ∈ orElse) (no : Returns u) : Returns (.if_ c body none (some orElse))
  | elif (c d : Expr) {body other orElse : List Stmt} {s t u : Stmt} (hs : s ∈ body)
      (yes : Returns s) (ht : t ∈ other) (maybe : Returns t) (hu : u ∈ orElse) (no : Returns u) :
      Returns (.if_ c body (some (d, other)) (some orElse))

/-! ## §5 Functions, classes and programs -/

/-- A variable is declared: its type may be named, and its initial value fits the type. -/
structure VarDef.IsDeclared (p : Program) (v : VarDef) : Prop where
  ty : p.IsType v.ty
  value : v.value.ty.Fits v.ty

/-- A function or method is declared: the types of its parameters and its result may be named. -/
structure FunDef.IsDeclared (p : Program) (f : FunDef) : Prop where
  params : ∀ a ∈ f.params, p.IsType a.ty
  result : p.IsType f.result

/-- A class is declared. -/
structure ClassDef.IsDeclared (p : Program) (c : ClassDef) : Prop where
  parent : p.IsClass c.parent
  other : c.parent ≠ c.name
  fields : ∀ v ∈ c.fields, v.IsDeclared p
  methods : ∀ m ∈ c.methods, m.IsDeclared p
  /-- No two fields or methods share a name. -/
  distinct : (c.fields.map (·.name) ++ c.methods.map (·.name)).Nodup
  receivers : ∀ m ∈ c.methods, m.params.head?.map (·.ty) = some (.object c.name)
  inits : ∀ m ∈ c.methods, m.name = initMethod → m.params.length = 1 ∧ m.result = .none

namespace Program

/-- The definitions of a program are in order, whatever the bodies of its functions are. -/
structure IsDeclared (p : Program) : Prop where
  /-- No two global variables or functions share a name. -/
  distinct : (p.globalVars.map (·.name) ++ p.functions.map (·.name)).Nodup
  classesDistinct : (p.classes.map (·.name)).Nodup
  classNames : ∀ c ∈ p.classes, c.name ≠ objectClass ∧ c.name ≠ printFunction ∧
    c.name ∉ p.globalVars.map (·.name) ∧ c.name ∉ p.functions.map (·.name)
  functionNames : ∀ f ∈ p.functions, f.name ≠ printFunction ∧ f.name ≠ objectClass
  varNames : ∀ v ∈ p.globalVars, v.name ≠ objectClass
  vars : ∀ v ∈ p.globalVars, v.IsDeclared p
  functions : ∀ f ∈ p.functions, f.IsDeclared p
  classes : ∀ c ∈ p.classes, c.IsDeclared p

end Program

/-- The variables and the body of a function or method are well typed. -/
structure FunDef.IsTyped (p : Program) (f : FunDef) : Prop where
  locals : ∀ v ∈ f.locals, v.IsDeclared p
  distinct : (f.vars.map (·.1)).Nodup
  noClass : ∀ x ∈ f.vars.map (·.1), ¬p.IsClass x
  body : ∀ s ∈ f.body, s.IsTyped p (some f)
  /-- A function that has a result returns on every path. -/
  returns : f.result ≠ .none → ∃ s ∈ f.body, s.Returns

/-- A program is well typed: its definitions are in order, and so are all bodies and statements. -/
structure Program.IsTyped (p : Program) : Prop where
  declared : p.IsDeclared
  functions : ∀ f ∈ p.functions, f.IsTyped p
  methods : ∀ c ∈ p.classes, ∀ m ∈ c.methods, m.IsTyped p
  stmts : ∀ s ∈ p.stmts, s.IsTyped p none

/-! ## §6 Programs without types written into them -/

namespace Expr

mutual

/-- An expression without the types that are written into it. -/
def erase : Expr → Expr
  | .literal _ v => .literal none v
  | .var _ x => .var none x
  | .unary _ op e => .unary none op (erase e)
  | .binary _ op l r => .binary none op (erase l) (erase r)
  | .call _ f args => .call none f (eraseAll args)
  | .field _ o x => .field none (erase o) x
  | .method _ o x args => .method none (erase o) x (eraseAll args)

/-- Expressions without the types that are written into them. -/
def eraseAll : List Expr → List Expr
  | [] => []
  | e :: es => erase e :: eraseAll es

end

end Expr

/-- A target without the types that are written into it. -/
def Target.erase : Target → Target
  | .var x => .var x
  | .member o x => .member o.erase x

namespace Stmt

mutual

/-- A statement without the types that are written into it. -/
def erase : Stmt → Stmt
  | .pass => .pass
  | .assign target e => .assign target.erase e.erase
  | .expr e => .expr e.erase
  | .return_ e => .return_ e.erase
  | .while_ c body => .while_ c.erase (eraseAll body)
  | .if_ c body none none => .if_ c.erase (eraseAll body) none none
  | .if_ c body none (some orElse) =>
    .if_ c.erase (eraseAll body) none (some (eraseAll orElse))
  | .if_ c body (some (d, other)) none =>
    .if_ c.erase (eraseAll body) (some (d.erase, eraseAll other)) none
  | .if_ c body (some (d, other)) (some orElse) =>
    .if_ c.erase (eraseAll body) (some (d.erase, eraseAll other)) (some (eraseAll orElse))

/-- Statements without the types that are written into them. -/
def eraseAll : List Stmt → List Stmt
  | [] => []
  | s :: ss => erase s :: eraseAll ss

end

end Stmt

/-- A function without the types that are written into its body. -/
def FunDef.erase (f : FunDef) : FunDef := { f with body := Stmt.eraseAll f.body }

/-- A definition without the types that are written into bodies. -/
def Def.erase : Def → Def
  | .var v => .var v
  | .function f => .function f.erase
  | .class_ c => .class_ { c with methods := c.methods.map FunDef.erase }

/-- A program without the types that are written into it. -/
def Program.erase (p : Program) : Program := ⟨p.defs.map Def.erase, Stmt.eraseAll p.stmts⟩

/-! ## §7 Programs with all types written into them -/

namespace Expr

mutual

/-- All expressions inside of an expression, itself among them. -/
def parts : Expr → List Expr
  | .literal a v => [.literal a v]
  | .var a x => [.var a x]
  | .unary a op e => .unary a op e :: parts e
  | .binary a op l r => .binary a op l r :: (parts l ++ parts r)
  | .call a f args => .call a f args :: allParts args
  | .field a o x => .field a o x :: parts o
  | .method a o x args => .method a o x args :: (parts o ++ allParts args)

/-- All expressions inside of expressions. -/
def allParts : List Expr → List Expr
  | [] => []
  | e :: es => parts e ++ allParts es

end

end Expr

/-- All expressions inside of a target. -/
def Target.parts : Target → List Expr
  | .var _ => []
  | .member o _ => o.parts

namespace Stmt

mutual

/-- All expressions inside of a statement. -/
def parts : Stmt → List Expr
  | .pass => []
  | .assign target e => target.parts ++ e.parts
  | .expr e => e.parts
  | .return_ e => e.parts
  | .while_ c body => c.parts ++ allParts body
  | .if_ c body none none => c.parts ++ allParts body
  | .if_ c body none (some orElse) => c.parts ++ allParts body ++ allParts orElse
  | .if_ c body (some (d, other)) none =>
    c.parts ++ allParts body ++ (d.parts ++ allParts other)
  | .if_ c body (some (d, other)) (some orElse) =>
    c.parts ++ allParts body ++ (d.parts ++ allParts other) ++ allParts orElse

/-- All expressions inside of statements. -/
def allParts : List Stmt → List Expr
  | [] => []
  | s :: ss => parts s ++ allParts ss

end

end Stmt

/-- An expression has its type written into it. -/
def Expr.HoldsType (p : Program) (site : Site) (e : Expr) : Prop :=
  ∃ t, e.ty? = some t ∧ HasType p site e t

/-- Every expression of a program has its type written into it. -/
structure Program.HoldsTypes (p : Program) : Prop where
  functions : ∀ f ∈ p.functions, ∀ e ∈ Stmt.allParts f.body, e.HoldsType p (some f)
  methods : ∀ c ∈ p.classes, ∀ m ∈ c.methods, ∀ e ∈ Stmt.allParts m.body, e.HoldsType p (some m)
  stmts : ∀ e ∈ Stmt.allParts p.stmts, e.HoldsType p none

end Serpent
