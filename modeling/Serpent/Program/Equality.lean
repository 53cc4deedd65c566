/-
Serpent.Program.Equality — equality of programs can be decided.

Expressions and statements hold lists of themselves, so their equality is first a Boolean function
by recursion on both sides, and then shown to be equality.
-/
import Serpent.Program

namespace Serpent

namespace Expr

mutual

/-- Whether two expressions are the same, annotations included. -/
def same : Expr → Expr → Bool
  | .literal t v, .literal t' v' => t = t' && v = v'
  | .var t x, .var t' x' => t = t' && x = x'
  | .unary t op e, .unary t' op' e' => t = t' && op = op' && same e e'
  | .binary t op l r, .binary t' op' l' r' => t = t' && op = op' && same l l' && same r r'
  | .call t f as, .call t' f' as' => t = t' && f = f' && sameList as as'
  | .field t o m, .field t' o' m' => t = t' && same o o' && m = m'
  | .method t o m as, .method t' o' m' as' =>
    t = t' && same o o' && m = m' && sameList as as'
  | _, _ => false

/-- Whether two lists of expressions are the same. -/
def sameList : List Expr → List Expr → Bool
  | [], [] => true
  | e :: es, e' :: es' => same e e' && sameList es es'
  | _, _ => false

end

mutual

theorem same_iff : (a b : Expr) → (same a b = true ↔ a = b)
  | .literal .., b => by cases b <;> simp [same]
  | .var .., b => by cases b <;> simp [same]
  | .unary _ _ e, b => by
    cases b <;> simp [same, same_iff e, and_assoc]
  | .binary _ _ l r, b => by
    cases b <;> simp [same, same_iff l, same_iff r, and_assoc]
  | .call _ _ as, b => by
    cases b <;> simp [same, sameList_iff as, and_assoc]
  | .field _ o _, b => by
    cases b <;> simp [same, same_iff o, and_assoc]
  | .method _ o _ as, b => by
    cases b <;> simp [same, same_iff o, sameList_iff as, and_assoc]

theorem sameList_iff : (as bs : List Expr) → (sameList as bs = true ↔ as = bs)
  | [], bs => by cases bs <;> simp [sameList]
  | a :: as, bs => by
    cases bs <;> simp [sameList, same_iff a, sameList_iff as]

end

instance : DecidableEq Expr := fun a b => decidable_of_iff _ (same_iff a b)

end Expr

deriving instance DecidableEq for Target

namespace Stmt

mutual

/-- Whether two statements are the same, annotations included. -/
def same : Stmt → Stmt → Bool
  | .pass, .pass => true
  | .assign t e, .assign t' e' => t = t' && e = e'
  | .expr e, .expr e' => e = e'
  | .return_ e, .return_ e' => e = e'
  | .while_ c b, .while_ c' b' => c = c' && sameList b b'
  | .if_ c b none none, .if_ c' b' none none => c = c' && sameList b b'
  | .if_ c b none (some e), .if_ c' b' none (some e') =>
    c = c' && sameList b b' && sameList e e'
  | .if_ c b (some (d, f)) none, .if_ c' b' (some (d', f')) none =>
    c = c' && sameList b b' && d = d' && sameList f f'
  | .if_ c b (some (d, f)) (some e), .if_ c' b' (some (d', f')) (some e') =>
    c = c' && sameList b b' && d = d' && sameList f f' && sameList e e'
  | _, _ => false

/-- Whether two lists of statements are the same. -/
def sameList : List Stmt → List Stmt → Bool
  | [], [] => true
  | s :: ss, s' :: ss' => same s s' && sameList ss ss'
  | _, _ => false

end

mutual

theorem same_iff : (a b : Stmt) → (same a b = true ↔ a = b)
  | .pass, b => by cases b <;> simp [same]
  | .assign .., b => by cases b <;> simp [same]
  | .expr _, b => by cases b <;> simp [same]
  | .return_ _, b => by cases b <;> simp [same]
  | .while_ _ body, b => by
    cases b <;> simp [same, sameList_iff body]
  | .if_ _ body none none, b => by
    cases b with
    | if_ c' b' elif' else' =>
      cases elif' <;> cases else' <;> simp [same, sameList_iff body]
    | _ => simp [same]
  | .if_ _ body none (some e), b => by
    cases b with
    | if_ c' b' elif' else' =>
      cases elif' <;> cases else' <;> simp [same, sameList_iff body, sameList_iff e, and_assoc]
    | _ => simp [same]
  | .if_ _ body (some (_, f)) none, b => by
    cases b with
    | if_ c' b' elif' else' =>
      cases elif' <;> cases else' <;>
        simp [same, sameList_iff body, sameList_iff f, and_assoc, Prod.ext_iff]
    | _ => simp [same]
  | .if_ _ body (some (_, f)) (some e), b => by
    cases b with
    | if_ c' b' elif' else' =>
      cases elif' <;> cases else' <;>
        simp [same, sameList_iff body, sameList_iff f, sameList_iff e, and_assoc, Prod.ext_iff]
    | _ => simp [same]

theorem sameList_iff : (as bs : List Stmt) → (sameList as bs = true ↔ as = bs)
  | [], bs => by cases bs <;> simp [sameList]
  | a :: as, bs => by
    cases bs <;> simp [sameList, same_iff a, sameList_iff as]

end

instance : DecidableEq Stmt := fun a b => decidable_of_iff _ (same_iff a b)

end Stmt

deriving instance DecidableEq for FunDef
deriving instance DecidableEq for ClassDef
deriving instance DecidableEq for Def
deriving instance DecidableEq for Program

end Serpent
