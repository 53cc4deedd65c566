/-
Serpent.Proofs.Covering — exactly the scripts of the grammar are read, and their trees cover them.

A list of tokens is read if and only if it has a derivation, and what is read is the tree of the
derivation, so no two derivations of one list have different trees. In the tree the parts of a node
stand in the order of their tokens, apart from each other and inside of the node, and a leaf stands
for one token of its kind. Derivations are followed once more for this: what is said of nodes side
by side is said of the tokens one after the other.

  §1 Nodes that cover tokens
  §2 Nodes side by side
  §3 Expressions
  §4 Statements
  §5 Scripts
-/
import Serpent.Proofs.Derivation
import Serpent.Proofs.Embedding
import Serpent.Proofs.Recognition

namespace Serpent

/-! ## §1 Nodes that cover tokens -/

/-- The kinds of nodes that stand for one token. -/
def Kind.isLeaf : Kind → Bool
  | .variableName | .propertyName | .number | .float | .boolean | .none | .operator
  | .passStatement => true
  | _ => false

/-- Whether a node of a kind may stand for a token. -/
def Kind.standsFor : Kind → Token → Bool
  | .variableName, .name _ => true
  | .propertyName, .name _ => true
  | .number, .int _ => true
  | .float, .float _ => true
  | .boolean, .keyword .true => true
  | .boolean, .keyword .false => true
  | .none, .keyword .none => true
  | .operator, t => (unaryLevel? t).isSome || (binaryLevel? t).isSome
  | .passStatement, .keyword .pass => true
  | _, _ => false

namespace Node

/-- The nodes without parts that are no leaves: `return` alone, parentheses around nothing and the
script without statements. -/
def IsBare (n : Node) : Prop :=
  (n.kind = .returnStatement ∧ n.stop = n.first + 1) ∨
  ((n.kind = .argList ∨ n.kind = .paramList) ∧ n.stop = n.first + 2) ∨
  (n.kind = .script ∧ n.stop = n.first)

/-- A node covers its tokens: its parts are not empty, in order, apart from each other and inside of
it, and a leaf is exactly one token of its kind. -/
structure Covers (ts : List Token) (n : Node) : Prop where
  inside : ∀ c ∈ n.children, n.first ≤ c.first ∧ c.first < c.stop ∧ c.stop ≤ n.stop
  apart : n.children.Pairwise fun a b => a.stop ≤ b.first
  leaf : n.kind.isLeaf = true →
    n.children = [] ∧ n.stop = n.first + 1 ∧ ∃ t, ts[n.first]? = some t ∧ n.kind.standsFor t = true
  inner : n.kind.isLeaf = false → n.children = [] → n.IsBare

/-- A property of a node and of all nodes below it. -/
inductive Everywhere (P : Node → Prop) : Node → Prop
  | mk {n : Node} (here : P n) (below : ∀ c ∈ n.children, Everywhere P c) : Everywhere P n

theorem everywhere_iff {P : Node → Prop} {n : Node} :
    n.Everywhere P ↔ P n ∧ ∀ c ∈ n.children, c.Everywhere P :=
  ⟨fun ⟨here, below⟩ => ⟨here, below⟩, fun ⟨here, below⟩ => .mk here below⟩

theorem Everywhere.imp {P Q : Node → Prop} {n : Node} (h : n.Everywhere P)
    (imp : ∀ m, P m → Q m) : n.Everywhere Q := by
  induction h with
  | mk here _ ih => exact .mk (imp _ here) ih

end Node

namespace Grammar

open Node (Covers Everywhere IsBare)

variable {k : Nat} {ts us vs : List Token} {n : Node} {ns ms : List Node}

/-! ## §2 Nodes side by side -/

/-- The nodes are not empty and stand one behind the other from `a` on, up to `b`. -/
def Spread : (a b : Nat) → List Node → Prop
  | a, b, [] => a ≤ b
  | a, b, n :: ns => a ≤ n.first ∧ n.first < n.stop ∧ Spread n.stop b ns

theorem Spread.le {a b : Nat} (h : Spread a b ns) : a ≤ b := by
  induction ns generalizing a with
  | nil => exact h
  | cons n ns ih =>
    have := ih h.2.2
    have := h.1
    have := h.2.1
    omega

theorem Spread.append {a m b : Nat} (first : Spread a m ns) (second : Spread m b ms) :
    Spread a b (ns ++ ms) := by
  induction ns generalizing a with
  | nil =>
    cases ms with
    | nil => exact Nat.le_trans first second
    | cons m ms => exact ⟨Nat.le_trans first second.1, second.2⟩
  | cons n ns ih => exact ⟨first.1, first.2.1, ih first.2.2⟩

theorem Spread.inside {a b : Nat} (h : Spread a b ns) :
    ∀ n ∈ ns, a ≤ n.first ∧ n.first < n.stop ∧ n.stop ≤ b := by
  induction ns generalizing a with
  | nil => simp
  | cons n ns ih =>
    obtain ⟨start, pos, rest⟩ := h
    intro m hm
    rcases List.mem_cons.1 hm with rfl | hm
    · exact ⟨start, pos, rest.le⟩
    · obtain ⟨low, pos', high⟩ := ih rest m hm
      exact ⟨by omega, pos', high⟩

theorem Spread.apart {a b : Nat} (h : Spread a b ns) :
    ns.Pairwise fun m n => m.stop ≤ n.first := by
  induction ns generalizing a with
  | nil => exact .nil
  | cons n ns ih => exact .cons (fun m hm => (h.2.2.inside m hm).1) (ih h.2.2)

/-- The nodes stand in the tokens `us`, which start at index `k`, and where `ts` has these tokens
there, each of the nodes covers its part of `ts`. -/
structure Fits (ts : List Token) (k : Nat) (us : List Token) (ns : List Node) : Prop where
  spread : Spread k (k + us.length) ns
  covers : us <+: ts.drop k → ∀ n ∈ ns, n.Everywhere (Covers ts)

theorem fits_nil : Fits ts k [] [] := ⟨Nat.le_refl k, by simp⟩

theorem fits_token (t : Token) : Fits ts k [t] [] := ⟨Nat.le_succ k, by simp⟩

theorem Fits.append (first : Fits ts k us ns) (second : Fits ts (k + us.length) vs ms) :
    Fits ts k (us ++ vs) (ns ++ ms) := by
  constructor
  · rw [List.length_append, ← Nat.add_assoc]
    exact first.spread.append second.spread
  · rintro ⟨rest, at_index⟩ n hn
    rw [List.append_assoc] at at_index
    rcases List.mem_append.1 hn with hn | hn
    · exact first.covers ⟨_, at_index⟩ n hn
    · refine second.covers ⟨rest, ?_⟩ n hn
      rw [← List.drop_drop, ← at_index, List.drop_left]

/-- A token without a node of its own, before or behind the others. -/
theorem Fits.skip (t : Token) (h : Fits ts (k + 1) us ns) : Fits ts k (t :: us) ns :=
  (fits_token t).append h

theorem Fits.ended (h : Fits ts k us ns) (t : Token) : Fits ts k (us ++ [t]) ns := by
  simpa using h.append (fits_token t)

theorem Fits.cons {t : Token} (first : Fits ts k [t] ns) (second : Fits ts (k + 1) us ms) :
    Fits ts k (t :: us) (ns ++ ms) :=
  first.append second

/-- A leaf on its token. -/
theorem fits_leaf {t : Token} {kind : Kind} (isLeaf : kind.isLeaf = true)
    (stands : kind.standsFor t = true) : Fits ts k [t] [leaf kind k] := by
  constructor
  · exact ⟨Nat.le_refl k, Nat.lt_succ_self k, Nat.le_refl _⟩
  · rintro ⟨rest, at_index⟩ n hn
    obtain rfl := List.mem_singleton.1 hn
    have here : ts[k]? = some t := by
      rw [← List.head?_drop, ← at_index]
      rfl
    refine .mk ⟨?_, .nil, fun _ => ⟨rfl, rfl, t, here, stands⟩, fun inner => ?_⟩ ?_
    · intro c hc
      cases hc
    · exact absurd isLeaf (by simpa using inner)
    · intro c hc
      cases hc

/-- A node over all of the tokens, with the nodes as its parts, if there are any. -/
theorem Fits.bare {kind : Kind} (h : Fits ts k us ns) (pos : 0 < us.length)
    (inner : kind.isLeaf = false) (bare : ns = [] → (nodeOver kind k us ns).IsBare) :
    Fits ts k us [nodeOver kind k us ns] := by
  constructor
  · exact ⟨Nat.le_refl k, Nat.lt_add_of_pos_right pos, Nat.le_refl _⟩
  · intro at_index n hn
    obtain rfl := List.mem_singleton.1 hn
    refine .mk ⟨h.spread.inside, h.spread.apart, fun isLeaf => ?_, fun _ => bare⟩ ?_
    · exact absurd isLeaf (by simpa using inner)
    · exact h.covers at_index

/-- A node over all of the tokens, with the nodes as its parts. -/
theorem Fits.node {kind : Kind} (h : Fits ts k us (n :: ns)) (inner : kind.isLeaf = false) :
    Fits ts k us [nodeOver kind k us (n :: ns)] := by
  obtain ⟨start, pos, rest⟩ := h.spread
  have := rest.le
  exact h.bare (by omega) inner (by simp)

/-- Parentheses, with or without nodes between them. -/
theorem Fits.parens {kind : Kind} (h : Fits ts (k + 1) us ns) (empty : ns = [] → us = [])
    (list : kind = .argList ∨ kind = .paramList) :
    Fits ts k (.symbol .lparen :: (us ++ [Token.symbol .rparen]))
      [nodeOver kind k (.symbol .lparen :: (us ++ [Token.symbol .rparen])) ns] := by
  refine ((h.ended _).skip _).bare (by simp) ?_ fun none => .inr (.inl ⟨list, ?_⟩)
  · rcases list with rfl | rfl <;> rfl
  · rw [empty none]
    rfl

theorem Optionally.fits {part : Nat → List Token → Node → Prop} {o : Option Node}
    (h : Optionally part k us o) (present : ∀ n, part k us n → Fits ts k us [n]) :
    Fits ts k us o.toList := by
  cases h with
  | absent => exact fits_nil
  | present h => exact present _ h

/-! ## §3 Expressions -/

theorem isLeaf_of_atom {t : Token} {kind : Kind} (h : atomKind? t = some kind) :
    kind.isLeaf = true ∧ kind.standsFor t = true := by
  unfold atomKind? at h
  split at h <;> cases h <;> exact ⟨rfl, rfl⟩

theorem Arguments.nil_of_nil (h : Arguments k us []) : us = [] := by
  cases h
  rfl

mutual

theorem Primary.fits {k : Nat} {us : List Token} {n : Node} (ts : List Token) :
    Primary k us n → Fits ts k us [n]
  | .atom h => fits_leaf (isLeaf_of_atom h).1 (isLeaf_of_atom h).2
  | .parens inner => ((inner.fits ts).ended _ |>.skip _).node rfl
  | .member target x =>
    ((target.fits ts).append ((fits_leaf rfl rfl).skip _)).node rfl
  | .call target (.mk arguments) =>
    ((target.fits ts).append
      ((arguments.fits ts).parens (fun none => (none ▸ arguments).nil_of_nil) (.inl rfl))).node rfl

theorem Expression.fits {k : Nat} {us : List Token} {n : Node} {top bound : Nat}
    (ts : List Token) : Expression k us n top bound → Fits ts k us [n]
  | .primary h => h.fits ts
  | .unary op operand _ =>
    ((fits_leaf rfl (by simp [Kind.standsFor, op])).cons (operand.fits ts)).node rfl
  | .binary op left right _ _ =>
    ((left.fits ts).append
      ((fits_leaf rfl (by simp [Kind.standsFor, op])).cons (right.fits ts))).node rfl

theorem Arguments.fits {k : Nat} {us : List Token} {ns : List Node} (ts : List Token) :
    Arguments k us ns → Fits ts k us ns
  | .nil => fits_nil
  | .last h => h.fits ts
  | .cons first rest => (first.fits ts).append ((rest.fits ts).skip _)

end

theorem ArgList.fits (ts : List Token) (h : ArgList k us n) : Fits ts k us [n] := by
  obtain ⟨h⟩ := h
  exact (h.fits ts).parens (fun none => (none ▸ h).nil_of_nil) (.inl rfl)

theorem IsExpression.fits (ts : List Token) (h : IsExpression k us n) : Fits ts k us [n] := by
  obtain ⟨top, bound, h⟩ := h
  exact h.fits ts

/-! ## §4 Statements -/

theorem TypeAfter.fits {mark : Symbol} (ts : List Token) (h : TypeAfter mark k us n) :
    Fits ts k us [n] := by
  obtain ⟨h⟩ := h
  exact ((h.fits ts).skip _).node rfl

theorem Value.fits (ts : List Token) (h : Value k us n) : Fits ts k us [n] := by
  obtain ⟨h⟩ := h
  exact (h.fits ts).skip _

theorem Simple.fits (ts : List Token) (h : Simple k us n) : Fits ts k us [n] := by
  cases h with
  | pass => exact fits_leaf rfl rfl
  | return_ h =>
    refine ((h.fits fun _ h => h.fits ts).skip _).bare (by simp) rfl fun none => ?_
    cases h with
    | absent => exact .inl ⟨rfl, rfl⟩
    | present h => cases none
  | expression h => exact (h.fits ts).node rfl
  | assign target typed assigned more =>
    exact ((target.fits ts).append
      ((typed.fits fun _ h => h.fits ts).append (assigned.fits fun _ h => h.fits ts))).node rfl

theorem Parameter.fits (ts : List Token) (h : Parameter k us n) : Fits ts k us [n] := by
  obtain ⟨x, typed⟩ := h
  exact ((fits_leaf rfl rfl).cons (typed.fits fun _ h => h.fits ts)).node rfl

theorem Parameters.fits (ts : List Token) (h : Parameters k us ns) : Fits ts k us ns := by
  induction h with
  | nil => exact fits_nil
  | last h => exact h.fits ts
  | cons first _ ih => exact (first.fits ts).append (ih.skip _)

theorem ParamList.fits (ts : List Token) (h : ParamList k us n) : Fits ts k us [n] := by
  obtain ⟨h⟩ := h
  refine (h.fits ts).parens (fun none => ?_) (.inr rfl)
  cases h with
  | nil => rfl
  | last h => cases none
  | cons first rest => cases none

mutual

theorem Statement.fits {k : Nat} {us : List Token} {n : Node} (ts : List Token) :
    Statement k us n → Fits ts k us [n]
  | .simple h => (h.fits ts).ended _
  | .if_ condition block elifs otherwise =>
    ((condition.fits ts).append ((block.fits ts).append
      ((elifs.fits ts).append (otherwise.fits ts))) |>.skip _).node rfl
  | .while_ condition block => ((condition.fits ts).append (block.fits ts) |>.skip _).node rfl
  | .function x parameters typed block =>
    ((fits_leaf rfl rfl).cons ((parameters.fits ts).append
      ((typed.fits fun _ h => h.fits ts).append (block.fits ts))) |>.skip _).node rfl
  | .class_ x arguments block =>
    ((fits_leaf rfl rfl).cons
      ((arguments.fits fun _ h => h.fits ts).append (block.fits ts)) |>.skip _).node rfl

theorem Body.fits {k : Nat} {us : List Token} {n : Node} (ts : List Token) :
    Body k us n → Fits ts k us [n]
  | .line h => ((h.fits ts).ended _ |>.skip _).node rfl
  | .block first rest =>
    ((first.fits ts).append ((rest.fits ts).ended _) |>.skip _ |>.skip _ |>.skip _).node rfl

theorem Statements.fits {k : Nat} {us : List Token} {ns : List Node} (ts : List Token) :
    Statements k us ns → Fits ts k us ns
  | .nil => fits_nil
  | .cons first rest => (first.fits ts).append (rest.fits ts)

theorem Elifs.fits {k : Nat} {us : List Token} {ns : List Node} (ts : List Token) :
    Elifs k us ns → Fits ts k us ns
  | .nil => fits_nil
  | @Elifs.cons k vs ws _ c b _ condition block rest => by
    have clause : Fits ts k (.keyword .elif :: (vs ++ ws))
        [nodeOver .elifClause k (.keyword .elif :: (vs ++ ws)) [c, b]] :=
      ((condition.fits ts).append (block.fits ts) |>.skip _).node rfl
    have behind : k + 1 + vs.length + ws.length =
        k + (Token.keyword .elif :: (vs ++ ws)).length := by simp +arith
    have more := rest.fits ts
    rw [behind] at more
    simpa using clause.append more

theorem Otherwise.fits {k : Nat} {us : List Token} {o : Option Node} (ts : List Token) :
    Otherwise k us o → Fits ts k us o.toList
  | .absent => fits_nil
  | .present block => ((block.fits ts).skip _).node rfl

end

/-! ## §5 Scripts -/

/-- The tree of a script covers all of its tokens. -/
theorem Script.covers (h : Script ts n) :
    n.first = 0 ∧ n.stop = ts.length ∧ n.Everywhere (Covers ts) := by
  obtain ⟨h⟩ := h
  have fits := h.fits ts
  refine ⟨rfl, Nat.zero_add _, .mk ⟨fits.spread.inside, fits.spread.apart, ?_, ?_⟩ ?_⟩
  · intro isLeaf
    cases isLeaf
  · intro _ none
    obtain rfl : ts = [] := by
      cases h with
      | nil => rfl
      | cons first rest => cases none
    exact .inr (.inr ⟨rfl, rfl⟩)
  · exact fits.covers (List.prefix_refl ts)

/-- A list of tokens is read if and only if it has a derivation, and then as its tree. -/
theorem ofTokens_iff_script : Node.ofTokens ts = .ok n ↔ Script ts n := by
  rw [Node.ofTokens_eq_ok]
  constructor
  · rintro ⟨ns, j, read, rfl⟩
    obtain ⟨us, rest, rfl, cursor, h⟩ := (stmtDerives _).statements 0 ts ns _ read
    cases cursor
    rw [List.append_nil]
    exact .mk h
  · rintro ⟨h⟩
    have enough : ts.length + 1 ≤ Rule.depthBound ts.length := by
      unfold Rule.depthBound
      omega
    have read := h.reads [] _ enough (by simp)
    rw [Rule.Gives, List.append_nil] at read
    exact ⟨_, _, read, rfl⟩

/-- Exactly the scripts of the grammar are read, each as the tree of its derivation; the levels of
operators refuse no expression; and the tree covers the tokens. -/
theorem ofTokens_recognizes (ts : List Token) :
    (∀ n, Node.ofTokens ts = .ok n ↔ Script ts n) ∧
    (∀ k us, (∃ e, IsExpression k us e) ↔ Plain us) ∧
    ∀ n, Node.ofTokens ts = .ok n →
      n.first = 0 ∧ n.stop = ts.length ∧ n.Everywhere (Covers ts) :=
  ⟨fun _ => ofTokens_iff_script, fun k _ => exists_isExpression_iff k,
    fun _ read => (ofTokens_iff_script.1 read).covers⟩

/-- The tokens of `while not x: f(-1,)`, with the end of the line. -/
def loopTokens : List Token :=
  [.keyword .while_, .keyword .not, .name "x", .symbol .colon, .name "f", .symbol .lparen,
    .symbol .minus, .int "1", .symbol .comma, .symbol .rparen, .newline]

/-- The tree of the loop. -/
def loopTree : Node :=
  .mk .script 0 11 [.mk .whileStatement 0 11
    [.mk .unaryExpression 1 3 [leaf .operator 1, leaf .variableName 2],
      .mk .body 3 11 [.mk .expressionStatement 4 10 [.mk .callExpression 4 10
        [leaf .variableName 4, .mk .argList 5 10 [.mk .unaryExpression 6 8
          [leaf .operator 6, leaf .number 7]]]]]]]

theorem ofTokens_recognizes_loop :
    Node.ofTokens loopTokens = .ok loopTree ∧ Script loopTokens loopTree ∧
      loopTree.Everywhere (Covers loopTokens) := by
  have read : Node.ofTokens loopTokens = .ok loopTree := rfl
  obtain ⟨recognizes, -, covers⟩ := ofTokens_recognizes loopTokens
  exact ⟨read, (recognizes loopTree).1 read, (covers loopTree read).2.2⟩

end Grammar

/-- The tree of a text has the root that is read from the tokens of its lexemes. -/
theorem SourceTree.ofLexemes_eq_ok {source : List Char} {lexemes : List Lexeme} {tree : SourceTree}
    (h : ofLexemes source lexemes = .ok tree) :
    ∃ root, Node.ofTokens (lexemes.map (·.token)) = .ok root ∧
      tree = ⟨source, (lexemes.map (·.span)).toArray, root⟩ := by
  rw [ofLexemes] at h
  split at h
  case h_1 root read =>
    cases h
    exact ⟨root, read, rfl⟩
  case h_2 => cases h

end Serpent
