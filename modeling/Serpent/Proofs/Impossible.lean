/-
Serpent.Proofs.Impossible — a script is refused at its first impossible token.

Where a rule fails, the tokens that were read up to there can be completed: each part of a script
that has been started has some end. So the tokens before the one that is named are the start of a
script, and with the named token they are the start of none, since a rule looks no further than that
token.

  §1 Where a rule stops
  §2 Expressions
  §3 Statements on one line
  §4 Statements with blocks
  §5 The first impossible token
-/
import Serpent.Proofs.Covering
import Serpent.Proofs.Lookahead

namespace Serpent

/-! ## §1 Where a rule stops -/

namespace Rule

variable {α β : Type} {k : Nat} {ts : List Token}

theorem bind_eq_error {r : Rule α} {f : α → Rule β} {c : Cursor} {i : Nat} :
    (r >>= f) c = .error i ↔
      r c = .error i ∨ ∃ a c', r c = .ok (a, c') ∧ f a c' = .error i := by
  rw [bind_apply]
  cases r c with
  | error j => simp [Bind.bind, Except.bind]
  | ok p =>
    obtain ⟨a, c'⟩ := p
    simp [Bind.bind, Except.bind]

/-- Where the rule fails at index `k`, before the tokens `ts`, it has read tokens from their front,
and `V` holds of those. -/
def Stops (k : Nat) (ts : List Token) (r : Rule α) (V : List Token → Prop) : Prop :=
  ∀ i, r ⟨k, ts⟩ = .error i → ∃ us rest, ts = us ++ rest ∧ i = k + us.length ∧ V us

variable {V W : List Token → Prop}

theorem Stops.imp {r : Rule α} (h : Stops k ts r V) (imp : ∀ us, V us → W us) :
    Stops k ts r W := by
  intro i failed
  obtain ⟨us, rest, tokens, index, hus⟩ := h i failed
  exact ⟨us, rest, tokens, index, imp us hus⟩

/-- Two rules one after the other stop where the first does, or the second behind what the first has
taken. -/
theorem Stops.bind {r : Rule α} {f : α → Rule β} {P : List Token → List Token → α → Prop}
    (first : Stops k ts r V) (yields : Yields k ts r P)
    (after : ∀ us rest a, P us rest a → Stops (k + us.length) rest (f a) fun vs => V (us ++ vs)) :
    Stops k ts (r >>= f) V := by
  intro i failed
  rcases bind_eq_error.1 failed with failed | ⟨a, c', given, failed⟩
  · exact first i failed
  · obtain ⟨us, rest, rfl, rfl, ha⟩ := yields a c' given
    obtain ⟨vs, rest', rfl, rfl, hvs⟩ := after us rest a ha i failed
    exact ⟨us ++ vs, rest', by simp, by simp [Nat.add_assoc], hvs⟩

theorem stops_pure {a : α} : Stops k ts (pure a) V := by
  intro i failed
  cases failed

theorem stops_reject (h : V []) : Stops k ts (reject : Rule α) V := by
  intro i failed
  cases failed
  exact ⟨[], ts, rfl, rfl, h⟩

theorem stops_peek {f : Option Token → Rule α} (h : Stops k ts (f ts.head?) V) :
    Stops k ts (peek >>= f) V := h

theorem stops_here {f : Nat → Rule α} (h : Stops k ts (f k) V) : Stops k ts (here >>= f) V := h

theorem stops_remaining {f : Nat → Rule α} (h : Stops k ts (f ts.length) V) :
    Stops k ts (remaining >>= f) V := h

theorem stops_close {kind : Kind} {first : Nat} {children : List Node} :
    Stops k ts (close kind first children) V :=
  stops_here stops_pure

theorem stops_closed {kind : Kind} {first : Nat} {children : List Node} {f : Node → Rule α}
    (h : Stops k ts (f (.mk kind first k children)) V) :
    Stops k ts (close kind first children >>= f) V := h

/-- One token is taken, and what follows stops behind it. -/
theorem Stops.cons {f : Rule α} {t : Token} {rest : List Token}
    (h : Stops (k + 1) rest f fun us => V (t :: us)) {i : Nat} (failed : f ⟨k + 1, rest⟩ = .error i) :
    ∃ us rest', t :: rest = us ++ rest' ∧ i = k + us.length ∧ V us := by
  obtain ⟨us, rest', rfl, rfl, hus⟩ := h i failed
  exact ⟨t :: us, rest', rfl, by simp +arith, hus⟩

theorem stops_advance {t : Token} {f : Unit → Rule α} (next : ts.head? = some t)
    (after : ∀ rest, Stops (k + 1) rest (f ()) fun us => V (t :: us)) :
    Stops k ts (advance >>= f) V := by
  obtain ⟨rest, rfl⟩ := List.head?_eq_some_iff.1 next
  intro i failed
  exact (after rest).cons failed

theorem stops_leaf {t : Token} {kind : Kind} {f : Node → Rule α} (next : ts.head? = some t)
    (after : ∀ rest, Stops (k + 1) rest (f (.mk kind k (k + 1) [])) fun us => V (t :: us)) :
    Stops k ts (leaf kind >>= f) V := by
  obtain ⟨rest, rfl⟩ := List.head?_eq_some_iff.1 next
  intro i failed
  exact (after rest).cons failed

theorem stops_expect {t : Token} {f : Unit → Rule α} (missing : V [])
    (after : ∀ rest, Stops (k + 1) rest (f ()) fun us => V (t :: us)) :
    Stops k ts (expect t >>= f) V := by
  intro i failed
  rw [bind_apply] at failed
  cases ts with
  | nil =>
    cases failed
    exact ⟨[], [], rfl, rfl, missing⟩
  | cons u rest =>
    by_cases same : u = t
    · subst same
      simp only [expect, if_true] at failed
      exact (after rest).cons failed
    · simp only [expect, if_neg same] at failed
      cases failed
      exact ⟨[], u :: rest, rfl, rfl, missing⟩

theorem stops_name {kind : Kind} {f : Node → Rule α} (missing : V [])
    (after : ∀ x rest, Stops (k + 1) rest (f (.mk kind k (k + 1) [])) fun us => V (.name x :: us)) :
    Stops k ts (name kind >>= f) V := by
  rw [name, bind_assoc]
  refine stops_peek ?_
  split
  · rename_i x next
    exact stops_leaf next (after x)
  · refine Stops.bind (stops_reject missing) (P := fun _ _ _ => False) ?_ (by simp)
    intro a c' ok
    cases ok

theorem stops_optional {t : Token} {r : Rule α} (h : Stops k ts r V) :
    Stops k ts (optional t r) V := by
  refine stops_peek ?_
  split
  · intro i failed
    rcases bind_eq_error.1 failed with failed | ⟨a, c', given, failed⟩
    · exact h i failed
    · cases failed
  · exact stops_pure

end Rule

namespace Grammar

open Rule (Stops stops_pure stops_reject stops_peek stops_here stops_remaining stops_close
  stops_closed stops_advance stops_leaf stops_expect stops_name stops_optional)

variable {k : Nat} {ts us : List Token}

/-! ## §2 Expressions -/

/-- The tokens are the start of an expression. -/
def StartsPlain (us : List Token) : Prop := ∃ ws, Plain (us ++ ws)

/-- The tokens are the start of arguments in parentheses. -/
def StartsArgList (us : List Token) : Prop :=
  ∃ ws vs, us ++ ws = .symbol .lparen :: (vs ++ [.symbol .rparen]) ∧ PlainArguments vs

theorem plain_name : Plain [.name "x"] := .atom rfl

theorem Plain.startsPlain (h : Plain us) : StartsPlain us := ⟨[], by rwa [List.append_nil]⟩

theorem startsPlain_nil : StartsPlain [] := ⟨_, plain_name⟩

/-- A call that has been started is the start of an expression. -/
theorem StartsArgList.call {vs : List Token} (h : StartsArgList us) (target : Plain vs) :
    StartsPlain (vs ++ us) := by
  obtain ⟨ws, args, tokens, h⟩ := h
  refine ⟨ws, ?_⟩
  rw [List.append_assoc, tokens]
  exact .call target h

/-- Where a rule for expressions fails, it has read the start of what it is for. A rule that goes on
from a node is given the tokens of the node. -/
structure ExprStops (fuel : Nat) : Prop where
  expressionWithin : ∀ k ts level, level ≤ noLevel →
    Stops k ts (Rule.expressionWithin fuel level) StartsPlain
  operand : ∀ k ts, Stops k ts (Rule.operand fuel) StartsPlain
  operations : ∀ k ts level left vs, Plain vs →
    Stops k ts (Rule.operations fuel level left) fun us => StartsPlain (vs ++ us)
  atom : ∀ k ts, Stops k ts (Rule.atom fuel) StartsPlain
  trailers : ∀ k ts target vs, Plain vs →
    Stops k ts (Rule.trailers fuel target) fun us => StartsPlain (vs ++ us)
  argList : ∀ k ts, Stops k ts (Rule.argList fuel) StartsArgList
  arguments : ∀ k ts, Stops k ts (Rule.arguments fuel) fun us => ∃ ws, PlainArguments (us ++ ws)

theorem ExprStops.operand_succ {fuel : Nat} (ih : ExprStops fuel) (k : Nat) (ts : List Token) :
    Stops k ts (Rule.operand (fuel + 1)) StartsPlain := by
  refine stops_peek ?_
  split
  · rename_i level hlevel
    obtain ⟨t, next, op⟩ := Option.bind_eq_some_iff.1 hlevel
    refine stops_leaf next fun rest => ?_
    have started (us : List Token) (h : StartsPlain us) : StartsPlain (t :: us) := by
      obtain ⟨ws, h⟩ := h
      exact ⟨ws, .unary op h⟩
    exact ((ih.expressionWithin _ rest level (unaryLevel_le op)).imp started).bind
      ((exprDerives fuel).expressionWithin _ rest level (unaryLevel_le op)) fun _ _ _ _ => stops_pure
  · refine (ih.atom k ts).bind ((exprDerives fuel).atom k ts) fun us rest base h => ?_
    exact ih.trailers _ rest base us h.plain

theorem ExprStops.operations_succ {fuel : Nat} (ih : ExprStops fuel) (k : Nat) (ts : List Token)
    (level : Nat) (left : Node) (vs : List Token) (h : Plain vs) :
    Stops k ts (Rule.operations (fuel + 1) level left) fun us => StartsPlain (vs ++ us) := by
  refine stops_peek ?_
  split
  · exact stops_pure
  · rename_i t next
    split
    · exact stops_pure
    · rename_i found op
      split
      · exact stops_pure
      · refine stops_leaf next fun rest => ?_
        have started (us : List Token) (right : StartsPlain us) :
            StartsPlain (vs ++ t :: us) := by
          obtain ⟨ws, right⟩ := right
          exact ⟨ws, by simpa using Plain.binary op h right⟩
        have tight := (level_lt_noLevel op).2
        refine ((ih.expressionWithin _ rest _ tight).imp started).bind
          ((exprDerives fuel).expressionWithin _ rest _ tight) ?_
        intro us rest right ⟨top, bound, hright, _⟩
        refine (ih.operations _ rest level _ (vs ++ t :: us) (.binary op h hright.plain)).imp ?_
        intro ws hws
        simpa using hws

theorem ExprStops.trailers_succ {fuel : Nat} (ih : ExprStops fuel) (k : Nat) (ts : List Token)
    (target : Node) (vs : List Token) (h : Plain vs) :
    Stops k ts (Rule.trailers (fuel + 1) target) fun us => StartsPlain (vs ++ us) := by
  refine stops_peek ?_
  split
  · rename_i next
    refine stops_advance next fun rest => stops_name ?_ fun x rest => ?_
    · exact ⟨[.name "x"], by simpa using Plain.member h "x"⟩
    · refine (ih.trailers _ rest _ (vs ++ [Token.symbol .dot, .name x]) (.member h x)).imp ?_
      intro us hus
      simpa using hus
  · refine ((ih.argList k ts).imp fun us hus => hus.call h).bind
      ((exprDerives fuel).argList k ts) ?_
    rintro us rest args ⟨hargs⟩
    refine (ih.trailers _ rest _ _ (.call h hargs.plain)).imp fun ws hws => ?_
    simpa using hws
  · exact stops_pure

theorem exprStops (fuel : Nat) : ExprStops fuel := by
  induction fuel with
  | zero =>
    constructor
    case operations => exact fun k ts _ _ vs h => stops_reject (by simpa using h.startsPlain)
    case trailers => exact fun k ts _ vs h => stops_reject (by simpa using h.startsPlain)
    case argList => exact fun k ts => stops_reject ⟨_, [], rfl, .nil⟩
    case arguments => exact fun k ts => stops_reject ⟨[], .nil⟩
    all_goals intros; exact stops_reject startsPlain_nil
  | succ fuel ih =>
    constructor
    case expressionWithin =>
      intro k ts level tight
      refine (ih.operand k ts).bind ((exprDerives fuel).operand k ts) ?_
      intro us rest first ⟨bound, h, _⟩
      exact ih.operations _ rest level first us h.plain
    case operand => exact ih.operand_succ
    case operations => exact ih.operations_succ
    case atom =>
      intro k ts
      refine stops_peek ?_
      split
      · rename_i kind hkind
        obtain ⟨t, next, ht⟩ := Option.bind_eq_some_iff.1 hkind
        obtain ⟨rest, rfl⟩ := List.head?_eq_some_iff.1 next
        intro i failed
        cases failed
      · refine stops_here (stops_expect startsPlain_nil fun rest => ?_)
        have started (us : List Token) (h : StartsPlain us) :
            StartsPlain (.symbol .lparen :: us) := by
          obtain ⟨ws, h⟩ := h
          exact ⟨ws ++ [Token.symbol .rparen], by simpa using Plain.parens h⟩
        refine ((ih.expressionWithin _ rest 0 (Nat.zero_le _)).imp started).bind
          ((exprDerives fuel).expressionWithin _ rest 0 (Nat.zero_le _)) ?_
        intro us rest inner ⟨top, bound, h, _⟩
        refine stops_expect ?_ fun rest => stops_close
        exact ⟨[.symbol .rparen], by simpa using Plain.parens h.plain⟩
    case trailers => exact ih.trailers_succ
    case argList =>
      intro k ts
      refine stops_here (stops_expect ⟨_, [], rfl, .nil⟩ fun rest => ?_)
      have started (us : List Token) (h : ∃ ws, PlainArguments (us ++ ws)) :
          StartsArgList (.symbol .lparen :: us) := by
        obtain ⟨ws, h⟩ := h
        exact ⟨ws ++ [Token.symbol .rparen], us ++ ws, by simp, h⟩
      refine ((ih.arguments _ rest).imp started).bind ((exprDerives fuel).arguments _ rest) ?_
      intro us rest args h
      refine stops_expect ?_ fun rest => stops_close
      exact ⟨[.symbol .rparen], us, by simp, h.plain⟩
    case arguments =>
      intro k ts
      refine stops_peek ?_
      split
      · exact stops_pure
      · have started (us : List Token) (h : StartsPlain us) :
            ∃ ws, PlainArguments (us ++ ws) := by
          obtain ⟨ws, h⟩ := h
          exact ⟨ws, .last h⟩
        refine ((ih.expressionWithin k ts 0 (Nat.zero_le _)).imp started).bind
          ((exprDerives fuel).expressionWithin k ts 0 (Nat.zero_le _)) ?_
        intro us rest arg ⟨top, bound, h, _⟩
        refine stops_peek ?_
        split
        · rename_i next
          refine stops_advance next fun rest => ?_
          have started (vs : List Token) (more : ∃ ws, PlainArguments (vs ++ ws)) :
              ∃ ws, PlainArguments (us ++ Token.symbol .comma :: vs ++ ws) := by
            obtain ⟨ws, more⟩ := more
            exact ⟨ws, by simpa using PlainArguments.cons h.plain more⟩
          exact ((ih.arguments _ rest).imp started).bind ((exprDerives fuel).arguments _ rest)
            fun _ _ _ _ => stops_pure
        · exact stops_pure

/-! ## §3 Statements on one line -/

/-- The tokens are the start of a part. -/
def Begins {α : Type} (part : List Token → α → Prop) (us : List Token) : Prop :=
  ∃ ws a, part (us ++ ws) a

theorem begins_of {α : Type} {part : List Token → α → Prop} {a : α} (ws : List Token)
    (h : part (us ++ ws) a) : Begins part us := ⟨ws, a, h⟩

/-- What is whole with a part between other tokens begins with them and the start of the part. -/
theorem Begins.within {α β : Type} {part : List Token → α → Prop} {whole : List Token → β → Prop}
    (h : Begins part us) (before behind : List Token)
    (imp : ∀ ws a, part ws a → ∃ b, whole (before ++ (ws ++ behind)) b) :
    Begins whole (before ++ us) := by
  obtain ⟨ws, a, h⟩ := h
  obtain ⟨b, hb⟩ := imp _ _ h
  exact ⟨ws ++ behind, b, by simpa using hb⟩

/-- What is whole with a part at its end begins with the start of the part. -/
theorem Begins.after {α β : Type} {part : List Token → α → Prop} {whole : List Token → β → Prop}
    (h : Begins part us) (before : List Token)
    (imp : ∀ ws a, part ws a → ∃ b, whole (before ++ ws) b) : Begins whole (before ++ us) :=
  h.within before [] fun ws a ha => by
    obtain ⟨b, hb⟩ := imp ws a ha
    exact ⟨b, by simpa using hb⟩

theorem StartsPlain.begins (h : StartsPlain us) (k : Nat) : Begins (IsExpression k) us := by
  obtain ⟨ws, h⟩ := h
  obtain ⟨n, hn⟩ := (exists_isExpression_iff k).2 h
  exact ⟨ws, n, hn⟩

theorem isExpression_name (k : Nat) : IsExpression k [.name "x"] (leaf .variableName k) :=
  ⟨_, _, .primary (.atom rfl)⟩

theorem stops_expression (k : Nat) (ts : List Token) :
    Stops k ts Rule.expression (Begins (IsExpression k)) :=
  stops_remaining (((exprStops _).expressionWithin k ts 0 (Nat.zero_le _)).imp
    fun _ h => h.begins k)

theorem stops_parenthesized (k : Nat) (ts : List Token) :
    Stops k ts Rule.parenthesized (Begins (ArgList k)) := by
  refine stops_remaining (((exprStops _).argList k ts).imp ?_)
  rintro us ⟨ws, vs, tokens, h⟩
  obtain ⟨args, h⟩ := h.arguments (k + 1)
  exact begins_of ws (tokens.symm ▸ ArgList.mk h)

theorem stops_typeAfter (mark : Symbol) (k : Nat) (ts : List Token) :
    Stops k ts (Rule.typeAfter mark) (Begins (TypeAfter mark k)) := by
  refine stops_here (stops_expect ?_ fun rest => ?_)
  · exact begins_of [.symbol mark, .name "x"] (.mk (isExpression_name _))
  · exact ((stops_expression _ rest).imp fun us h => h.after [_] fun ws e h => ⟨_, .mk h⟩).bind
      (yields_expression _ rest) fun _ _ _ _ => stops_close

theorem stops_initialValue (k : Nat) (ts : List Token) :
    Stops k ts Rule.initialValue (Begins (Value k)) := by
  refine stops_expect ?_ fun rest => ?_
  · exact begins_of [.symbol .assign, .name "x"] (.mk (isExpression_name _))
  · exact (stops_expression _ rest).imp fun us h => h.after [_] fun ws e h => ⟨_, .mk h⟩

theorem stops_assignment (k : Nat) (ts : List Token) :
    Stops k ts Rule.assignment (Begins (Simple k)) := by
  refine stops_here ?_
  refine ((stops_expression k ts).imp fun us h => ?_).bind (yields_expression k ts) ?_
  · exact h.after [] fun ws e h => ⟨_, .expression h⟩
  intro us rest target htarget
  refine ((stops_optional (stops_typeAfter .colon _ rest)).imp fun vs h => ?_).bind
    (yields_optionalType .colon _ rest) ?_
  · exact h.within us [] fun ws e h => ⟨_, .assign htarget (.present h) .absent (.inl rfl)⟩
  intro vs rest type typed
  refine ((stops_optional (stops_initialValue _ rest)).imp fun xs h => ?_).bind
    (yields_optional .absent (yields_initialValue _ rest)) ?_
  · rw [← List.append_assoc]
    refine h.after (us ++ vs) fun ws e h => ?_
    rw [List.append_assoc]
    exact ⟨_, .assign htarget typed (.present h) (.inr rfl)⟩
  intro ws rest value _
  split <;> exact stops_close

theorem stops_returned (k : Nat) (ts : List Token) :
    Stops k ts Rule.returned (Begins (Simple k)) := by
  refine stops_here (stops_expect (begins_of _ (.return_ .absent)) fun rest => stops_peek ?_)
  split
  · exact stops_close
  · refine ((stops_expression _ rest).imp fun us h => ?_).bind (yields_expression _ rest)
      fun _ _ _ _ => stops_close
    exact h.after [_] fun ws e h => ⟨_, .return_ (.present h)⟩

/-- A statement on one line, with the end of the line. -/
def Line (k : Nat) (us : List Token) (n : Node) : Prop := ∃ vs, us = vs ++ [.newline] ∧ Simple k vs n

theorem stops_simple (k : Nat) (ts : List Token) :
    Stops k ts Rule.simple (Begins (Line k)) := by
  have started {us : List Token} (h : Begins (Simple k) us) : Begins (Line k) us :=
    h.within [] [.newline] fun ws s h => ⟨s, ws, rfl, h⟩
  have ended {i : Nat} {us rest : List Token} {s : Node} (h : Simple k us s) :
      Stops i rest (do Rule.expect .newline; return s) fun vs => Begins (Line k) (us ++ vs) :=
    stops_expect (by simpa using begins_of [.newline] ⟨us, rfl, h⟩) fun _ => stops_pure
  refine stops_peek ?_
  split
  · rename_i next
    exact stops_leaf next fun rest => ended .pass
  · exact ((stops_returned k ts).imp fun us h => started h).bind (yields_returned k ts)
      fun us rest s h => ended h
  · exact ((stops_assignment k ts).imp fun us h => started h).bind (yields_assignment k ts)
      fun us rest s h => ended h

theorem stops_parameter (k : Nat) (ts : List Token) :
    Stops k ts Rule.parameter (Begins (Parameter k)) := by
  refine stops_here (stops_name (begins_of [.name "x"] (.mk "x" .absent)) fun x rest => ?_)
  refine ((stops_optional (stops_typeAfter .colon _ rest)).imp fun us h => ?_).bind
    (yields_optionalType .colon _ rest) fun _ _ _ _ => stops_close
  exact h.after [_] fun ws e h => ⟨_, .mk x (.present h)⟩

theorem stops_parameters (fuel k : Nat) (ts : List Token) :
    Stops k ts (Rule.parameters fuel) (Begins (Parameters k)) := by
  induction fuel generalizing k ts with
  | zero => exact stops_reject (begins_of [] .nil)
  | succ fuel ih =>
    refine stops_peek ?_
    split
    · exact stops_pure
    · refine ((stops_parameter k ts).imp fun us h => ?_).bind (yields_parameter k ts) ?_
      · exact h.after [] fun ws p h => ⟨_, .last h⟩
      intro us rest p hp
      refine stops_peek ?_
      split
      · rename_i next
        refine stops_advance next fun rest => ?_
        refine ((ih _ rest).imp fun vs h => ?_).bind (yields_parameters fuel _ rest)
          fun _ _ _ _ => stops_pure
        rw [List.append_cons]
        refine h.after (us ++ [Token.symbol .comma]) fun ws ps h => ?_
        rw [← List.append_cons]
        exact ⟨_, .cons hp h⟩
      · exact stops_pure

theorem stops_paramList (k : Nat) (ts : List Token) :
    Stops k ts Rule.paramList (Begins (ParamList k)) := by
  refine stops_here (stops_expect (begins_of _ (.mk .nil)) fun rest => stops_remaining ?_)
  refine ((stops_parameters _ _ rest).imp fun us h => ?_).bind (yields_parameters _ _ rest) ?_
  · exact h.within [_] [.symbol .rparen] fun ws ps h => ⟨_, .mk h⟩
  intro us rest ps h
  refine stops_expect ?_ fun rest => stops_close
  exact begins_of [.symbol .rparen] (by simpa using ParamList.mk h)

/-! ## §4 Statements with blocks -/

/-- The tokens of the shortest body. -/
def passTokens : List Token := [.symbol .colon, .keyword .pass, .newline]

theorem body_pass (k : Nat) : ∃ b, Body k passTokens b := ⟨_, .line .pass⟩

/-- What has been read where a rule for statements fails is the start of what the rule is about. -/
structure StmtStops (fuel : Nat) : Prop where
  statement : ∀ k ts, Stops k ts (Rule.statement fuel) (Begins (Statement k))
  body : ∀ k ts, Stops k ts (Rule.body fuel) (Begins (Body k))
  statements : ∀ k ts, Stops k ts (Rule.statements fuel) (Begins (Statements k))
  elifClauses : ∀ k ts, Stops k ts (Rule.elifClauses fuel) (Begins (Elifs k))
  elseClause : ∀ k ts, Stops k ts (Rule.elseClause fuel)
    (Begins fun us (n : Node) => Otherwise k us (some n))

theorem StmtStops.if_ {fuel : Nat} (ih : StmtStops fuel) (k : Nat) (ts : List Token) :
    Stops (k + 1) ts (do
      let cond ← Rule.expression
      let block ← Rule.body fuel
      let elifs ← Rule.elifClauses fuel
      let last ← Rule.optional (.keyword .else_) (Rule.elseClause fuel)
      Rule.close .ifStatement k (cond :: block :: elifs ++ last.toList))
      fun us => Begins (Statement k) (.keyword .if_ :: us) := by
  refine ((stops_expression _ ts).imp fun us h => ?_).bind (yields_expression _ ts) ?_
  · refine h.within [_] passTokens fun ws c h => ?_
    obtain ⟨b, hb⟩ := body_pass (k + 1 + ws.length)
    exact ⟨_, .if_ h hb .nil .absent⟩
  intro us rest c hc
  refine ((ih.body _ rest).imp fun vs h => ?_).bind ((stmtDerives fuel).body _ rest) ?_
  · refine h.within (.keyword .if_ :: us) [] fun ws b h => ?_
    exact ⟨_, .if_ hc h .nil .absent⟩
  intro vs rest b hb
  refine ((ih.elifClauses _ rest).imp fun ws h => ?_).bind ((stmtDerives fuel).elifClauses _ rest) ?_
  · rw [← List.append_assoc us]
    refine h.within (.keyword .if_ :: (us ++ vs)) [] fun ws clauses h => ?_
    rw [List.cons_append, List.append_assoc us]
    exact ⟨_, .if_ hc hb h .absent⟩
  intro ws rest clauses hclauses
  refine ((stops_optional (ih.elseClause _ rest)).imp fun xs h => ?_).bind
    (yields_optional .absent ((stmtDerives fuel).elseClause _ rest)) fun _ _ _ _ => stops_close
  rw [← List.append_assoc vs, ← List.append_assoc us]
  refine h.after (.keyword .if_ :: (us ++ (vs ++ ws))) fun xs n h => ?_
  rw [List.cons_append, List.append_assoc us, List.append_assoc vs]
  exact ⟨_, .if_ hc hb hclauses h⟩

theorem StmtStops.while_ {fuel : Nat} (ih : StmtStops fuel) (k : Nat) (ts : List Token) :
    Stops (k + 1) ts (do
      let cond ← Rule.expression
      let block ← Rule.body fuel
      Rule.close .whileStatement k [cond, block])
      fun us => Begins (Statement k) (.keyword .while_ :: us) := by
  refine ((stops_expression _ ts).imp fun us h => ?_).bind (yields_expression _ ts) ?_
  · refine h.within [_] passTokens fun ws c h => ?_
    obtain ⟨b, hb⟩ := body_pass (k + 1 + ws.length)
    exact ⟨_, (Statement.while_ h hb :)⟩
  intro us rest c hc
  refine ((ih.body _ rest).imp fun vs h => ?_).bind ((stmtDerives fuel).body _ rest)
    fun _ _ _ _ => stops_close
  exact h.after (.keyword .while_ :: us) fun ws b h => ⟨_, .while_ hc h⟩

theorem StmtStops.function {fuel : Nat} (ih : StmtStops fuel) (k : Nat) (ts : List Token) :
    Stops (k + 1) ts (do
      let x ← Rule.name .variableName
      let params ← Rule.paramList
      let result ← Rule.optional (.symbol .arrow) (Rule.typeAfter .arrow)
      let block ← Rule.body fuel
      Rule.close .functionDefinition k (x :: params :: result.toList ++ [block]))
      fun us => Begins (Statement k) (.keyword .def_ :: us) := by
  refine stops_name ?_ fun x rest => ?_
  · obtain ⟨b, hb⟩ := body_pass (k + 2 + 2)
    exact begins_of _ (.function "x" (.mk .nil) .absent hb)
  refine ((stops_paramList _ rest).imp fun us h => ?_).bind (yields_paramList _ rest) ?_
  · refine h.within [_, _] passTokens fun ws params h => ?_
    obtain ⟨b, hb⟩ := body_pass (k + 2 + ws.length)
    exact ⟨_, (Statement.function x h .absent hb :)⟩
  intro us rest params hparams
  refine ((stops_optional (stops_typeAfter .arrow _ rest)).imp fun vs h => ?_).bind
    (yields_optionalType .arrow _ rest) ?_
  · refine h.within (.keyword .def_ :: .name x :: us) passTokens fun ws type h => ?_
    obtain ⟨b, hb⟩ := body_pass (k + 2 + us.length + ws.length)
    exact ⟨_, .function x hparams (.present h) hb⟩
  intro vs rest result hresult
  refine ((ih.body _ rest).imp fun ws h => ?_).bind ((stmtDerives fuel).body _ rest)
    fun _ _ _ _ => stops_close
  rw [← List.append_assoc us]
  refine h.after (.keyword .def_ :: .name x :: (us ++ vs)) fun ws b h => ?_
  rw [List.cons_append, List.cons_append, List.append_assoc us]
  exact ⟨_, .function x hparams hresult h⟩

theorem StmtStops.class_ {fuel : Nat} (ih : StmtStops fuel) (k : Nat) (ts : List Token) :
    Stops (k + 1) ts (do
      let x ← Rule.name .variableName
      let parents ← Rule.optional (.symbol .lparen) Rule.parenthesized
      let block ← Rule.body fuel
      Rule.close .classDefinition k (x :: parents.toList ++ [block]))
      fun us => Begins (Statement k) (.keyword .class_ :: us) := by
  refine stops_name ?_ fun x rest => ?_
  · obtain ⟨b, hb⟩ := body_pass (k + 2)
    exact begins_of _ (.class_ "x" .absent hb)
  refine ((stops_optional (stops_parenthesized _ rest)).imp fun us h => ?_).bind
    (yields_optional .absent (yields_parenthesized _ rest)) ?_
  · refine h.within [_, _] passTokens fun ws parents h => ?_
    obtain ⟨b, hb⟩ := body_pass (k + 2 + ws.length)
    exact ⟨_, (Statement.class_ x (.present h) hb :)⟩
  intro us rest parents hparents
  refine ((ih.body _ rest).imp fun vs h => ?_).bind ((stmtDerives fuel).body _ rest)
    fun _ _ _ _ => stops_close
  exact h.after (.keyword .class_ :: .name x :: us) fun ws b h => ⟨_, .class_ x hparents h⟩

theorem StmtStops.statement_succ {fuel : Nat} (ih : StmtStops fuel) (k : Nat) (ts : List Token) :
    Stops k ts (Rule.statement (fuel + 1)) (Begins (Statement k)) := by
  refine stops_here (stops_peek ?_)
  split
  · rename_i next
    exact stops_advance next (ih.if_ k)
  · rename_i next
    exact stops_advance next (ih.while_ k)
  · rename_i next
    exact stops_advance next (ih.function k)
  · rename_i next
    exact stops_advance next (ih.class_ k)
  · refine (stops_simple k ts).imp fun us h => h.after [] ?_
    rintro _ s ⟨vs, rfl, h⟩
    exact ⟨s, .simple h⟩

theorem StmtStops.body_succ {fuel : Nat} (ih : StmtStops fuel) (k : Nat) (ts : List Token) :
    Stops k ts (Rule.body (fuel + 1)) (Begins (Body k)) := by
  refine stops_here (stops_expect ?_ fun rest => stops_peek ?_)
  · exact begins_of _ (.line .pass)
  split
  · rename_i next
    refine stops_advance next fun rest => stops_expect ?_ fun rest => ?_
    · exact begins_of _ (.block (.simple .pass) .nil)
    refine ((ih.statement _ rest).imp fun us h => ?_).bind ((stmtDerives fuel).statement _ rest) ?_
    · exact h.within [_, _, _] [.dedent] fun ws s h => ⟨_, (Body.block h .nil :)⟩
    intro us rest s hs
    refine ((ih.statements _ rest).imp fun vs h => ?_).bind ((stmtDerives fuel).statements _ rest) ?_
    · exact h.within (.symbol .colon :: .newline :: .indent :: us) [.dedent]
        fun ws ss h => ⟨_, .block hs h⟩
    intro vs rest ss hss
    refine stops_expect ?_ fun rest => stops_close
    exact begins_of [.dedent] (by simpa using Body.block hs hss)
  · refine ((stops_simple _ rest).imp fun us h => ?_).bind (yields_simple _ rest)
      fun _ _ _ _ => stops_close
    refine h.after [_] ?_
    rintro _ s ⟨vs, rfl, h⟩
    exact ⟨_, .line h⟩

theorem StmtStops.statements_succ {fuel : Nat} (ih : StmtStops fuel) (k : Nat) (ts : List Token) :
    Stops k ts (Rule.statements (fuel + 1)) (Begins (Statements k)) := by
  refine stops_peek ?_
  split
  · exact stops_pure
  · exact stops_pure
  · refine ((ih.statement k ts).imp fun us h => ?_).bind ((stmtDerives fuel).statement k ts) ?_
    · exact h.within [] [] fun ws s h => ⟨_, (Statements.cons h .nil :)⟩
    intro us rest s hs
    refine ((ih.statements _ rest).imp fun vs h => ?_).bind ((stmtDerives fuel).statements _ rest)
      fun _ _ _ _ => stops_pure
    exact h.after us fun ws ss h => ⟨_, .cons hs h⟩

theorem StmtStops.elifClauses_succ {fuel : Nat} (ih : StmtStops fuel) (k : Nat) (ts : List Token) :
    Stops k ts (Rule.elifClauses (fuel + 1)) (Begins (Elifs k)) := by
  refine stops_peek ?_
  split
  · rename_i next
    refine stops_here (stops_advance next fun rest => ?_)
    refine ((stops_expression _ rest).imp fun us h => ?_).bind (yields_expression _ rest) ?_
    · refine h.within [_] passTokens fun ws c h => ?_
      obtain ⟨b, hb⟩ := body_pass (k + 1 + ws.length)
      exact ⟨_, (Elifs.cons h hb .nil :)⟩
    intro us rest c hc
    refine ((ih.body _ rest).imp fun vs h => ?_).bind ((stmtDerives fuel).body _ rest) ?_
    · exact h.within (.keyword .elif :: us) [] fun ws b h => ⟨_, .cons hc h .nil⟩
    intro vs rest b hb
    refine stops_closed ?_
    refine ((ih.elifClauses _ rest).imp fun ws h => ?_).bind
      ((stmtDerives fuel).elifClauses _ rest) fun _ _ _ _ => stops_pure
    rw [← List.append_assoc us]
    refine h.after (.keyword .elif :: (us ++ vs)) fun ws clauses h => ?_
    rw [List.cons_append, List.append_assoc us]
    exact ⟨_, .cons hc hb h⟩
  · exact stops_pure

theorem StmtStops.elseClause_succ {fuel : Nat} (ih : StmtStops fuel) (k : Nat) (ts : List Token) :
    Stops k ts (Rule.elseClause (fuel + 1))
      (Begins fun us (n : Node) => Otherwise k us (some n)) := by
  refine stops_here (stops_expect ?_ fun rest => ?_)
  · exact ⟨_, _, .present (.line .pass)⟩
  refine ((ih.body _ rest).imp fun us h => ?_).bind ((stmtDerives fuel).body _ rest)
    fun _ _ _ _ => stops_close
  exact h.after [_] fun ws b h => ⟨_, .present h⟩

theorem stmtStops (fuel : Nat) : StmtStops fuel := by
  induction fuel with
  | zero =>
    constructor
    case statement => exact fun k ts => stops_reject ⟨_, _, (Statement.simple .pass :)⟩
    case body => exact fun k ts => stops_reject (begins_of _ (.line .pass))
    case statements => exact fun k ts => stops_reject (begins_of [] .nil)
    case elifClauses => exact fun k ts => stops_reject (begins_of [] .nil)
    case elseClause =>
      exact fun k ts => stops_reject ⟨_, _, .present (.line .pass)⟩
  | succ fuel ih =>
    exact ⟨ih.statement_succ, ih.body_succ, ih.statements_succ, ih.elifClauses_succ,
      ih.elseClause_succ⟩

theorem stops_script (ts : List Token) : Stops 0 ts Rule.script (Begins Script) := by
  refine stops_here (stops_remaining ?_)
  refine (((stmtStops _).statements 0 ts).imp fun us h => ?_).bind
    ((stmtDerives _).statements 0 ts) ?_
  · exact h.after [] fun ws ss h => ⟨_, .mk h⟩
  intro us rest ss h
  refine stops_peek ?_
  split
  · exact stops_close
  · exact stops_reject (begins_of [] (by simpa using Script.mk h))

end Grammar

/-! ## §5 The first impossible token -/

/-- The tokens of some text that is a script. -/
def Accepted (ts : List Token) : Prop :=
  ∃ source lexemes tree, lexemes.map Lexeme.token = ts ∧
    SourceTree.ofLexemes source lexemes = .ok tree

theorem accepted_iff {ts : List Token} : Accepted ts ↔ ∃ n, Node.ofTokens ts = .ok n := by
  constructor
  · rintro ⟨source, lexemes, tree, rfl, read⟩
    obtain ⟨root, h, -⟩ := SourceTree.ofLexemes_eq_ok read
    exact ⟨root, h⟩
  · rintro ⟨n, read⟩
    let lexemes : List Lexeme := ts.map (⟨·, .empty 0⟩)
    have tokens : lexemes.map Lexeme.token = ts := by simp [lexemes, Function.comp_def]
    refine ⟨[], lexemes, ⟨[], (lexemes.map Lexeme.span).toArray, n⟩, tokens, ?_⟩
    simp only [SourceTree.ofLexemes, tokens, read]

theorem SourceTree.ofLexemes_eq_error {source : List Char} {lexemes : List Lexeme}
    {e : SyntaxError} (h : ofLexemes source lexemes = .error e) :
    ∃ i, Node.ofTokens (lexemes.map (·.token)) = .error i ∧ e = describe source lexemes i := by
  rw [ofLexemes] at h
  split at h
  case h_1 => cases h
  case h_2 i failed =>
    cases h
    exact ⟨i, failed, rfl⟩

/-- A token in words is never the end of the input. -/
theorem SourceTree.found_describe (source : List Char) (lexemes : List Lexeme) (i : Nat) :
    (describe source lexemes i).found = "end of input" ↔ lexemes.length ≤ i := by
  rw [← List.getElem?_eq_none_iff, describe]
  split
  case h_1 none => simp [none]
  case h_5 l span _ _ _ some =>
    simp only [some, reduceCtorEq, iff_false]
    intro same
    simpa using congrArg String.toList same
  all_goals simp_all

theorem SourceTree.span_describe {source : List Char} {lexemes : List Lexeme} {i : Nat}
    {l : Lexeme} (h : lexemes[i]? = some l) : (describe source lexemes i).span = l.span := by
  obtain ⟨token, span⟩ := l
  cases token <;> simp only [describe, h]

theorem Node.take_of_ofTokens {ts : List Token} {i : Nat} (failed : ofTokens ts = .error i) :
    i ≤ ts.length ∧ ∃ ws n, ofTokens (ts.take i ++ ws) = .ok n := by
  obtain ⟨us, rest, rfl, rfl, ws, n, h⟩ := Grammar.stops_script ts i (script_of_ofTokens failed)
  refine ⟨by simp, ws, n, ?_⟩
  rw [Nat.zero_add, List.take_left]
  exact Grammar.ofTokens_iff_script.2 h

/-- A syntax error stands at the first token that cannot follow the ones before it: those are the
start of some script, and with that token they are the start of none. The error is at the end of the
input exactly if all tokens are the start of a script. -/
theorem syntax_error_at_first_impossible (source : List Char) (lexemes : List Lexeme)
    (e : SyntaxError) (refused : SourceTree.ofLexemes source lexemes = .error e) :
    ∃ i ≤ lexemes.length,
      Node.ofTokens (lexemes.map (·.token)) = .error i ∧
      e = SourceTree.describe source lexemes i ∧
      (e.found = "end of input" ↔ i = lexemes.length) ∧
      (∀ l, lexemes[i]? = some l → e.span = l.span) ∧
      (∃ ts, (lexemes.map (·.token)).take i <+: ts ∧ Accepted ts) ∧
      (i < lexemes.length → ∀ ts, (lexemes.map (·.token)).take (i + 1) <+: ts → ¬ Accepted ts) := by
  obtain ⟨i, failed, rfl⟩ := SourceTree.ofLexemes_eq_error refused
  obtain ⟨bound, ws, n, completed⟩ := Node.take_of_ofTokens failed
  rw [List.length_map] at bound
  refine ⟨i, bound, failed, rfl, ?_, fun l => SourceTree.span_describe, ?_, ?_⟩
  · rw [SourceTree.found_describe]
    omega
  · exact ⟨_, List.prefix_append _ _, accepted_iff.2 ⟨n, completed⟩⟩
  · rintro inside _ ⟨ws, rfl⟩ accepted
    obtain ⟨n, read⟩ := accepted_iff.1 accepted
    have again : Node.ofTokens ((lexemes.map (·.token)).take (i + 1) ++ ws) = .error i :=
      Node.ofTokens_error_of_take failed (by
        rw [List.take_append_of_le_length (by simp; omega), List.take_take, Nat.min_self])
    rw [again] at read
    cases read

/-- The lexemes of `x = = 1` on a line. -/
def twiceAssigned : List Lexeme :=
  [⟨.name "x", ⟨0, 1⟩⟩, ⟨.symbol .assign, ⟨2, 3⟩⟩, ⟨.symbol .assign, ⟨4, 5⟩⟩, ⟨.int "1", ⟨6, 7⟩⟩,
    ⟨.newline, ⟨7, 8⟩⟩]

theorem syntax_error_at_second_assign :
    SourceTree.ofLexemes "x = = 1\n".toList twiceAssigned = .error ⟨"`=`", ⟨4, 5⟩⟩ ∧
    (∃ ts, [.name "x", .symbol .assign] <+: ts ∧ Accepted ts) ∧
    ∀ ts, [.name "x", .symbol .assign, .symbol .assign] <+: ts → ¬ Accepted ts := by
  have refused : SourceTree.ofLexemes "x = = 1\n".toList twiceAssigned = .error ⟨"`=`", ⟨4, 5⟩⟩ :=
    rfl
  obtain ⟨i, -, failed, -, -, -, possible, impossible⟩ :=
    syntax_error_at_first_impossible _ _ _ refused
  have second : Node.ofTokens (twiceAssigned.map (·.token)) = .error 2 := rfl
  rw [second] at failed
  cases failed
  exact ⟨refused, possible, impossible (by decide)⟩

end Serpent
