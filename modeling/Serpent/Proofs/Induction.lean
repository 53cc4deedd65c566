/-
Serpent.Proofs.Induction — induction on expressions and statements.

An expression holds lists of expressions, and a statement holds bodies of statements. What is to be
shown of a form may be assumed of each element of its lists.
-/
import Serpent.Program

namespace Serpent

@[elab_as_elim, induction_eliminator]
theorem Expr.induct {P : Expr → Prop}
    (literal : ∀ ty v, P (.literal ty v))
    (var : ∀ ty x, P (.var ty x))
    (unary : ∀ ty op e, P e → P (.unary ty op e))
    (binary : ∀ ty op l r, P l → P r → P (.binary ty op l r))
    (call : ∀ ty f args, (∀ a ∈ args, P a) → P (.call ty f args))
    (field : ∀ ty o m, P o → P (.field ty o m))
    (method : ∀ ty o m args, P o → (∀ a ∈ args, P a) → P (.method ty o m args))
    (e : Expr) : P e :=
  @Expr.rec P (fun es => ∀ a ∈ es, P a) literal var unary binary call field method
    (fun _ h => absurd h List.not_mem_nil)
    (fun _ _ first rest => List.forall_mem_cons.2 ⟨first, rest⟩) e

@[elab_as_elim, induction_eliminator]
theorem Stmt.induct {P : Stmt → Prop}
    (pass : P .pass)
    (assign : ∀ t e, P (.assign t e))
    (expr : ∀ e, P (.expr e))
    (return_ : ∀ e, P (.return_ e))
    (while_ : ∀ c body, (∀ s ∈ body, P s) → P (.while_ c body))
    (if_ : ∀ c body elif orElse, (∀ s ∈ body, P s) → (∀ e ∈ elif, ∀ s ∈ e.2, P s) →
      (∀ b ∈ orElse, ∀ s ∈ b, P s) → P (.if_ c body elif orElse))
    (s : Stmt) : P s :=
  @Stmt.rec P (fun ss => ∀ s ∈ ss, P s) (fun elif => ∀ e ∈ elif, ∀ s ∈ e.2, P s)
    (fun orElse => ∀ b ∈ orElse, ∀ s ∈ b, P s) (fun clause => ∀ s ∈ clause.2, P s)
    pass assign expr return_ while_ if_
    (fun _ h => absurd h List.not_mem_nil)
    (fun _ _ first rest => List.forall_mem_cons.2 ⟨first, rest⟩)
    (fun _ h => nomatch h)
    (fun _ h _ mem => Option.mem_some.1 mem ▸ h)
    (fun _ h => nomatch h)
    (fun _ h _ mem => Option.mem_some.1 mem ▸ h)
    (fun _ _ h => h) s

end Serpent
