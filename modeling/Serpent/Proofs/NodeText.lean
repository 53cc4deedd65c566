/-
Serpent.Proofs.NodeText — every node of a tree stands for a part of the source text.

A node covers tokens, and the spans of these tokens stand one behind the other in the text. So the
span of a node covers whole characters, takes in the spans of its parts, and these stand in the
order of the text. Marks cover no text of their own or only the end of a line, but every node below
the root has a token that is a word or a symbol, so its text is not empty.

  §1 Nodes with a word
  §2 Spans of nodes
  §3 Texts of nodes
-/
import Serpent.Proofs.Covering
import Serpent.Proofs.Marks
import Serpent.Proofs.Relocation

namespace Serpent

/-! ## §1 Nodes with a word -/

/-- A node has a token that is no mark, and a parameter without a type is no more than its name. -/
structure Node.IsWorded (ts : List Token) (n : Node) : Prop where
  word : ∃ i t, n.first ≤ i ∧ i < n.stop ∧ ts[i]? = some t ∧ t.isMark = false
  param : n.kind = .param → ∀ x, n.children = [x] → x.first = n.first ∧ x.stop = n.stop

namespace Grammar

open Node (IsWorded)
open SourceTree (isMark_of_unaryLevel? isMark_of_binaryLevel?)

variable {k : Nat} {ts us vs : List Token} {n : Node} {ns ms : List Node}

/-- Where `ts` has the tokens `us` at index `k`, each of the nodes has a word there. -/
def Words (ts : List Token) (k : Nat) (us : List Token) (ns : List Node) : Prop :=
  us <+: ts.drop k → ∀ n ∈ ns, n.Everywhere (IsWorded ts)

/-- Some of the tokens is no mark. -/
def HasWord (us : List Token) : Prop := ∃ t ∈ us, t.isMark = false

theorem hasWord_cons {t : Token} (h : t.isMark = false) : HasWord (t :: us) := ⟨t, by simp, h⟩

theorem HasWord.left (h : HasWord us) : HasWord (us ++ vs) := by
  obtain ⟨t, ht, word⟩ := h
  exact ⟨t, by simp [ht], word⟩

theorem HasWord.right (h : HasWord vs) : HasWord (us ++ vs) := by
  obtain ⟨t, ht, word⟩ := h
  exact ⟨t, by simp [ht], word⟩

/-- A node over tokens with a word has this word. -/
theorem HasWord.exists_index (h : HasWord us) (at_index : us <+: ts.drop k) :
    ∃ i t, k ≤ i ∧ i < k + us.length ∧ ts[i]? = some t ∧ t.isMark = false := by
  obtain ⟨t, ht, word⟩ := h
  obtain ⟨j, found⟩ := List.mem_iff_getElem?.1 ht
  obtain ⟨rest, eq⟩ := at_index
  obtain ⟨bound, -⟩ := List.getElem?_eq_some_iff.1 found
  refine ⟨k + j, t, Nat.le_add_right k j, by omega, ?_, word⟩
  rw [← List.getElem?_drop, ← eq, List.getElem?_append_left bound, found]

theorem words_nil : Words ts k us [] := by simp [Words]

theorem Words.append (first : Words ts k us ns) (second : Words ts (k + us.length) vs ms) :
    Words ts k (us ++ vs) (ns ++ ms) := by
  rintro ⟨rest, at_index⟩ n hn
  rw [List.append_assoc] at at_index
  rcases List.mem_append.1 hn with hn | hn
  · exact first ⟨_, at_index⟩ n hn
  · refine second ⟨rest, ?_⟩ n hn
    rw [← List.drop_drop, ← at_index, List.drop_left]

theorem Words.cons {t : Token} (first : Words ts k [t] ns) (second : Words ts (k + 1) us ms) :
    Words ts k (t :: us) (ns ++ ms) :=
  first.append second

theorem Words.skip (t : Token) (h : Words ts (k + 1) us ns) : Words ts k (t :: us) ns :=
  words_nil.cons h

theorem Words.ended (h : Words ts k us ns) (t : Token) : Words ts k (us ++ [t]) ns := by
  simpa using h.append words_nil

theorem Words.node {kind : Kind} (h : Words ts k us ns) (word : HasWord us)
    (noParam : kind ≠ .param) : Words ts k us [nodeOver kind k us ns] := by
  intro at_index n hn
  obtain rfl := List.mem_singleton.1 hn
  exact .mk ⟨word.exists_index at_index, fun param => absurd param noParam⟩ (h at_index)

theorem words_leaf {t : Token} {kind : Kind} (word : t.isMark = false) (noParam : kind ≠ .param) :
    Words ts k [t] [leaf kind k] :=
  words_nil.node (hasWord_cons word) noParam

theorem Optionally.words {part : Nat → List Token → Node → Prop} {o : Option Node}
    (h : Optionally part k us o) (present : ∀ n, part k us n → Words ts k us [n]) :
    Words ts k us o.toList := by
  cases h with
  | absent => exact words_nil
  | present h => exact present _ h

theorem isMark_of_atomKind? {t : Token} {kind : Kind} (h : atomKind? t = some kind) :
    t.isMark = false ∧ kind ≠ .param := by
  unfold atomKind? at h
  split at h <;> cases h <;> exact ⟨rfl, by decide⟩

theorem ArgList.hasWord (h : ArgList k us n) : HasWord us := by
  cases h
  exact hasWord_cons rfl

theorem IsExpression.hasWord (h : IsExpression k us n) : HasWord us := by
  obtain ⟨top, bound, h⟩ := h
  cases h with
  | primary h =>
    cases h with
    | atom h => exact hasWord_cons (isMark_of_atomKind? h).1
    | parens inner => exact hasWord_cons rfl
    | member target x => exact .right ⟨.name x, by simp, rfl⟩
    | call target arguments => exact .right arguments.hasWord
  | unary op operand tight => exact hasWord_cons (isMark_of_unaryLevel? op)
  | binary op left right loose tight => exact .right (hasWord_cons (isMark_of_binaryLevel? op))

mutual

theorem Primary.words {k : Nat} {us : List Token} {n : Node} (ts : List Token) :
    Primary k us n → Words ts k us [n]
  | .atom h => words_leaf (isMark_of_atomKind? h).1 (isMark_of_atomKind? h).2
  | .parens inner => ((inner.words ts).ended _ |>.skip _).node (hasWord_cons rfl) (by decide)
  | .member target x =>
    ((target.words ts).append ((words_leaf rfl (by decide)).skip _)).node
      (.right ⟨.name x, by simp, rfl⟩) (by decide)
  | .call target (.mk arguments) =>
    ((target.words ts).append
      (((arguments.words ts).ended _ |>.skip _).node (hasWord_cons rfl) (by decide))).node
      (.right (hasWord_cons rfl)) (by decide)

theorem Expression.words {k : Nat} {us : List Token} {n : Node} {top bound : Nat}
    (ts : List Token) : Expression k us n top bound → Words ts k us [n]
  | .primary h => h.words ts
  | .unary op operand _ =>
    ((words_leaf (isMark_of_unaryLevel? op) (by decide)).cons (operand.words ts)).node
      (hasWord_cons (isMark_of_unaryLevel? op)) (by decide)
  | .binary op left right _ _ =>
    ((left.words ts).append
      ((words_leaf (isMark_of_binaryLevel? op) (by decide)).cons (right.words ts))).node
      (.right (hasWord_cons (isMark_of_binaryLevel? op))) (by decide)

theorem Arguments.words {k : Nat} {us : List Token} {ns : List Node} (ts : List Token) :
    Arguments k us ns → Words ts k us ns
  | .nil => words_nil
  | .last h => h.words ts
  | .cons first rest => (first.words ts).append ((rest.words ts).skip _)

end

theorem ArgList.words (ts : List Token) (h : ArgList k us n) : Words ts k us [n] := by
  obtain ⟨h⟩ := h
  exact ((h.words ts).ended _ |>.skip _).node (hasWord_cons rfl) (by decide)

theorem IsExpression.words (ts : List Token) (h : IsExpression k us n) : Words ts k us [n] := by
  obtain ⟨top, bound, h⟩ := h
  exact h.words ts

theorem TypeAfter.words {mark : Symbol} (ts : List Token) (h : TypeAfter mark k us n) :
    Words ts k us [n] := by
  obtain ⟨h⟩ := h
  exact ((h.words ts).skip _).node (hasWord_cons rfl) (by decide)

theorem Value.words (ts : List Token) (h : Value k us n) : Words ts k us [n] := by
  obtain ⟨h⟩ := h
  exact (h.words ts).skip _

theorem Simple.words (ts : List Token) (h : Simple k us n) : Words ts k us [n] := by
  cases h with
  | pass => exact words_leaf rfl (by decide)
  | return_ h =>
    exact ((h.words fun _ h => h.words ts).skip _).node (hasWord_cons rfl) (by decide)
  | expression h => exact (h.words ts).node h.hasWord (by decide)
  | assign target typed assigned more =>
    exact ((target.words ts).append ((typed.words fun _ h => h.words ts).append
      (assigned.words fun _ h => h.words ts))).node target.hasWord.left (by decide)

/-- A parameter without a type is no more than its name. -/
theorem Parameter.words (ts : List Token) (h : Parameter k us n) : Words ts k us [n] := by
  obtain ⟨x, typed⟩ := h
  intro at_index m hm
  obtain rfl := List.mem_singleton.1 hm
  have name : Words ts k [.name x] [leaf .variableName k] := words_leaf rfl (by decide)
  have parts := name.cons (typed.words fun _ h => h.words ts)
  refine .mk ⟨(hasWord_cons rfl).exists_index at_index, fun _ y alone => ?_⟩ (parts at_index)
  cases typed with
  | absent =>
    cases alone
    exact ⟨rfl, rfl⟩
  | present h => cases alone

theorem Parameters.words (ts : List Token) (h : Parameters k us ns) : Words ts k us ns := by
  induction h with
  | nil => exact words_nil
  | last h => exact h.words ts
  | cons first _ ih => exact (first.words ts).append (ih.skip _)

theorem ParamList.words (ts : List Token) (h : ParamList k us n) : Words ts k us [n] := by
  obtain ⟨h⟩ := h
  exact ((h.words ts).ended _ |>.skip _).node (hasWord_cons rfl) (by decide)

mutual

theorem Statement.words {k : Nat} {us : List Token} {n : Node} (ts : List Token) :
    Statement k us n → Words ts k us [n]
  | .simple h => (h.words ts).ended _
  | .if_ condition block elifs otherwise =>
    ((condition.words ts).append ((block.words ts).append
      ((elifs.words ts).append (otherwise.words ts))) |>.skip _).node (hasWord_cons rfl) (by decide)
  | .while_ condition block =>
    ((condition.words ts).append (block.words ts) |>.skip _).node (hasWord_cons rfl) (by decide)
  | .function x parameters typed block =>
    ((words_leaf rfl (by decide)).cons ((parameters.words ts).append
      ((typed.words fun _ h => h.words ts).append (block.words ts))) |>.skip _).node
      (hasWord_cons rfl) (by decide)
  | .class_ x arguments block =>
    ((words_leaf rfl (by decide)).cons
      ((arguments.words fun _ h => h.words ts).append (block.words ts)) |>.skip _).node
      (hasWord_cons rfl) (by decide)

theorem Body.words {k : Nat} {us : List Token} {n : Node} (ts : List Token) :
    Body k us n → Words ts k us [n]
  | .line h => ((h.words ts).ended _ |>.skip _).node (hasWord_cons rfl) (by decide)
  | .block first rest =>
    ((first.words ts).append ((rest.words ts).ended _) |>.skip _ |>.skip _ |>.skip _).node
      (hasWord_cons rfl) (by decide)

theorem Statements.words {k : Nat} {us : List Token} {ns : List Node} (ts : List Token) :
    Statements k us ns → Words ts k us ns
  | .nil => words_nil
  | .cons first rest => (first.words ts).append (rest.words ts)

theorem Elifs.words {k : Nat} {us : List Token} {ns : List Node} (ts : List Token) :
    Elifs k us ns → Words ts k us ns
  | .nil => words_nil
  | @Elifs.cons k vs ws _ c b _ condition block rest => by
    have clause : Words ts k (.keyword .elif :: (vs ++ ws))
        [nodeOver .elifClause k (.keyword .elif :: (vs ++ ws)) [c, b]] :=
      ((condition.words ts).append (block.words ts) |>.skip _).node (hasWord_cons rfl) (by decide)
    have behind : k + 1 + vs.length + ws.length =
        k + (Token.keyword .elif :: (vs ++ ws)).length := by simp +arith
    have more := rest.words ts
    rw [behind] at more
    simpa using clause.append more

theorem Otherwise.words {k : Nat} {us : List Token} {o : Option Node} (ts : List Token) :
    Otherwise k us o → Words ts k us o.toList
  | .absent => words_nil
  | .present block => ((block.words ts).skip _).node (hasWord_cons rfl) (by decide)

end

/-- Every node of a script below its root has a word. -/
theorem Script.isWorded (h : Script ts n) : ∀ c ∈ n.children, c.Everywhere (IsWorded ts) := by
  obtain ⟨h⟩ := h
  exact h.words ts (List.prefix_refl ts)

end Grammar

/-! ## §2 Spans of nodes -/

section

variable {source : List Char} {ls : List Lexeme} {root n : Node}

/-- Of two lexemes, the second does not start or end before the first. -/
theorem Lexeme.InOrder.le {a b : Nat} (h : InOrder a b ls) {i j : Nat} {l m : Lexeme}
    (first : ls[i]? = some l) (second : ls[j]? = some m) (le : i ≤ j) :
    l.span.start ≤ m.span.start ∧ l.span.start ≤ m.span.stop ∧ l.span.stop ≤ m.span.stop ∧
      (i < j → l.span.stop ≤ m.span.start) := by
  have ordered : ∀ l ∈ ls, l.span.start ≤ l.span.stop := fun l hl => (h.bounds.2 l hl).2
  have hl := ordered l (List.mem_of_getElem? first)
  have hm := ordered m (List.mem_of_getElem? second)
  rcases Nat.lt_or_eq_of_le le with lt | rfl
  · obtain ⟨hi, rfl⟩ := List.getElem?_eq_some_iff.1 first
    obtain ⟨hj, rfl⟩ := List.getElem?_eq_some_iff.1 second
    have apart := List.pairwise_iff_getElem.1 h.pairwise i j hi hj lt
    exact ⟨by omega, by omega, by omega, fun _ => apart⟩
  · cases first.symm.trans second
    exact ⟨Nat.le_refl _, hl, Nat.le_refl _, fun lt => absurd lt (Nat.lt_irrefl i)⟩

namespace SourceTree

/-- A node over some tokens goes from the start of the first to the end of the last. -/
theorem span_eq (sorted : Lexeme.InOrder 0 (utf8Length source) ls) (pos : n.first < n.stop)
    (bound : n.stop ≤ ls.length) :
    ∃ l m, ls[n.first]? = some l ∧ ls[n.stop - 1]? = some m ∧
      span ⟨source, (ls.map (·.span)).toArray, root⟩ n = ⟨l.span.start, m.span.stop⟩ := by
  have first : ls[n.first]? = some ls[n.first] := List.getElem?_eq_getElem (by omega)
  have last : ls[n.stop - 1]? = some ls[n.stop - 1] := List.getElem?_eq_getElem (by omega)
  have order := (sorted.le first last (by omega)).2.1
  refine ⟨_, _, first, last, ?_⟩
  simp [span, first, last, pos, Nat.max_eq_right order]

/-- A node over one token has the span of the token. -/
theorem span_of_token (lexed : lex source = .ok ls) {l : Lexeme} (found : ls[n.first]? = some l)
    (one : n.stop = n.first + 1) :
    span ⟨source, (ls.map (·.span)).toArray, root⟩ n = l.span := by
  obtain ⟨bound, -⟩ := List.getElem?_eq_some_iff.1 found
  obtain ⟨l', m, first, last, place⟩ :=
    @span_eq source ls root n (places_of_lex lexed).1 (by omega) (by omega)
  rw [one, Nat.add_sub_cancel, found] at last
  rw [found] at first
  cases first
  cases last
  exact place

/-- The span of a node covers whole characters, takes in the spans of its parts, and these stand in
the order of the text. -/
structure Encloses (tree : SourceTree) (n : Node) : Prop where
  within : (tree.span n).Within tree.source
  parts : ∀ c ∈ n.children,
    (tree.span n).start ≤ (tree.span c).start ∧ (tree.span c).stop ≤ (tree.span n).stop
  order : n.children.Pairwise fun a b => (tree.span a).stop ≤ (tree.span b).start

theorem within_span (lexed : lex source = .ok ls) (le : n.first ≤ n.stop)
    (bound : n.stop ≤ ls.length) :
    (span ⟨source, (ls.map (·.span)).toArray, root⟩ n).Within source := by
  obtain ⟨sorted, within⟩ := places_of_lex lexed
  rcases Nat.lt_or_eq_of_le le with pos | none
  · obtain ⟨l, m, first, last, span⟩ := @span_eq source ls root n sorted pos bound
    rw [span]
    exact ⟨(sorted.le first last (by omega)).2.1, (within l (List.mem_of_getElem? first)).start,
      (within m (List.mem_of_getElem? last)).stop⟩
  · simp only [span, none, Nat.lt_irrefl, if_false, Nat.max_self]
    refine Span.within_empty ?_
    cases at_index : ls[n.stop]? with
    | none => simpa [at_index] using isBoundary_length source
    | some l => simpa [at_index] using (within l (List.mem_of_getElem? at_index)).start

theorem encloses_of_covers (lexed : lex source = .ok ls)
    (covers : n.Covers (ls.map (·.token))) (le : n.first ≤ n.stop) (bound : n.stop ≤ ls.length) :
    Encloses ⟨source, (ls.map (·.span)).toArray, root⟩ n := by
  obtain ⟨sorted, within⟩ := places_of_lex lexed
  refine ⟨within_span lexed le bound, fun c hc => ?_, ?_⟩
  · obtain ⟨start, pos, stop⟩ := covers.inside c hc
    obtain ⟨l, m, first, last, outer⟩ := @span_eq source ls root n sorted (by omega) bound
    obtain ⟨l', m', first', last', inner⟩ := @span_eq source ls root c sorted pos (by omega)
    rw [outer, inner]
    exact ⟨(sorted.le first first' start).1, (sorted.le last' last (by omega)).2.2.1⟩
  · refine covers.apart.imp_of_mem fun {a b} ha hb apart => ?_
    obtain ⟨-, pos, stop⟩ := covers.inside a ha
    obtain ⟨-, pos', stop'⟩ := covers.inside b hb
    obtain ⟨l, m, first, last, left⟩ := @span_eq source ls root a sorted pos (by omega)
    obtain ⟨l', m', first', last', right⟩ := @span_eq source ls root b sorted pos' (by omega)
    rw [left, right]
    exact (sorted.le last first' (by omega)).2.2.2 (by omega)

/-! ## §3 Texts of nodes -/

/-- The text of a node is what its span covers without the blanks at its end, and not empty. -/
def Quotes (tree : SourceTree) (n : Node) : Prop :=
  ∃ cs, (tree.span n).slice? tree.source = some cs ∧
    tree.text n = String.ofList (trimEnd cs) ∧ tree.text n ≠ ""

theorem trimEnd_ne_nil {c : Char} {cs : List Char} (mem : c ∈ cs) (h : isBlank c = false) :
    trimEnd cs ≠ [] := by
  intro nothing
  obtain ⟨blanks, whole, all⟩ := trimEnd_append cs
  rw [nothing, List.nil_append] at whole
  have blank := all c (whole ▸ mem)
  rw [h] at blank
  cases blank

/-- What a span covers stands in what a span around it covers. -/
theorem mem_of_slice? {inner outer : Span} {cs ds : List Char} (h : outer.Within source)
    (slice : outer.slice? source = some ds) (h' : inner.Within source)
    (slice' : inner.slice? source = some cs) (start : outer.start ≤ inner.start)
    (stop : inner.stop ≤ outer.stop) : ∀ c ∈ cs, c ∈ ds := by
  obtain ⟨before, w, behind, cut, rfl⟩ := h.exists_parts
  obtain ⟨before', w', behind', cut', rfl⟩ := h'.exists_parts
  obtain rfl : w = ds := by
    rw [cut, Span.slice?_append] at slice
    exact Option.some.inj slice
  obtain rfl : w' = cs := by
    rw [cut', Span.slice?_append] at slice'
    exact Option.some.inj slice'
  have both : before ++ (w ++ behind) = before' ++ (w' ++ behind') := by
    rw [← List.append_assoc, ← List.append_assoc, ← cut, ← cut']
  obtain ⟨left, rfl, rest⟩ := append_eq_append_of_le both start
  have rest' : (left ++ w') ++ behind' = w ++ behind := by rw [rest, List.append_assoc]
  simp only [utf8Length_append] at stop
  obtain ⟨right, rfl, -⟩ := append_eq_append_of_le rest' (by rw [utf8Length_append]; omega)
  intro c hc
  simp [hc]

/-- A node with a word has a text. -/
theorem quotes_of_isWorded (lexed : lex source = .ok ls) (worded : n.IsWorded (ls.map (·.token)))
    (pos : n.first < n.stop) (bound : n.stop ≤ ls.length) :
    Quotes ⟨source, (ls.map (·.span)).toArray, root⟩ n := by
  obtain ⟨sorted, within⟩ := places_of_lex lexed
  obtain ⟨i, t, start, stop, at_index, word⟩ := worded.word
  rw [List.getElem?_map] at at_index
  obtain ⟨k, found, rfl⟩ := Option.map_eq_some_iff.1 at_index
  have inside := @within_span source ls root n lexed (Nat.le_of_lt pos) bound
  obtain ⟨l, m, first, last, span⟩ := @span_eq source ls root n sorted pos bound
  obtain ⟨before, w, behind, cut, place⟩ := inside.exists_parts
  have slice : (SourceTree.span ⟨source, (ls.map (·.span)).toArray, root⟩ n).slice? source =
      some w := by
    rw [place, cut, Span.slice?_append]
  have mem := List.mem_of_getElem? found
  obtain ⟨standing, spelled⟩ := (lex_stands lexed k mem).resolve_left (by simp [word])
  obtain ⟨c, hc⟩ := List.exists_mem_of_ne_nil _ (text_ne_nil_of_lex lexed k mem word)
  have covered := mem_of_slice? inside slice (within k mem) standing
    (by rw [span]; exact (sorted.le first found start).1)
    (by rw [span]; exact (sorted.le found last (by omega)).2.2.1) c hc
  refine ⟨w, slice, by rw [SourceTree.text, slice]; rfl, ?_⟩
  rw [SourceTree.text, slice, Option.getD_some]
  intro empty
  refine trimEnd_ne_nil covered (Token.isBlank_of_mem_text spelled hc) ?_
  simpa using congrArg String.toList empty

end SourceTree

end

/-- A node covers some of the tokens, and so do the nodes below it. -/
theorem Node.everywhere_pos {ts : List Token} {n : Node} (h : n.Everywhere (Covers ts))
    (pos : n.first < n.stop) {bound : Nat} (le : n.stop ≤ bound) :
    n.Everywhere fun m => m.first < m.stop ∧ m.stop ≤ bound := by
  induction h with
  | mk here below ih =>
    refine .mk ⟨pos, le⟩ fun c hc => ?_
    obtain ⟨-, pos', stop⟩ := here.inside c hc
    exact ih c hc pos' (Nat.le_trans stop le)

theorem Node.Everywhere.and {P Q : Node → Prop} {n : Node} (h : n.Everywhere P)
    (h' : n.Everywhere Q) : n.Everywhere fun m => P m ∧ Q m := by
  induction h with
  | mk here below ih =>
    obtain ⟨here', below'⟩ := everywhere_iff.1 h'
    exact .mk ⟨here, here'⟩ fun c hc => ih c hc (below' c hc)

/-- In the tree of a text every node encloses its parts, and every node below the root quotes a part
of the text. -/
theorem SourceTree.everywhere_of_lex {source : List Char} {ls : List Lexeme} {tree : SourceTree}
    (lexed : lex source = .ok ls) (read : ofLexemes source ls = .ok tree) :
    tree.root.Everywhere tree.Encloses ∧ ∀ c ∈ tree.root.children, c.Everywhere tree.Quotes := by
  obtain ⟨root, derived, rfl⟩ := ofLexemes_eq_ok read
  have script := Grammar.ofTokens_iff_script.1 derived
  obtain ⟨first, stop, covers⟩ := script.covers
  rw [List.length_map] at stop
  obtain ⟨here, below⟩ := Node.everywhere_iff.1 covers
  have bounds : ∀ c ∈ root.children,
      c.Everywhere fun m => m.first < m.stop ∧ m.stop ≤ ls.length := by
    intro c hc
    obtain ⟨-, pos, le⟩ := here.inside c hc
    exact Node.everywhere_pos (below c hc) pos (stop ▸ le)
  have top : Encloses ⟨source, (ls.map (·.span)).toArray, root⟩ root :=
    encloses_of_covers lexed here (by omega) (by omega)
  refine ⟨.mk top fun c hc => ?_, fun c hc => ?_⟩
  · refine ((below c hc).and (bounds c hc)).imp fun m h => ?_
    exact encloses_of_covers lexed h.1 (Nat.le_of_lt h.2.1) h.2.2
  · refine ((script.isWorded c hc).and (bounds c hc)).imp fun m h => ?_
    exact quotes_of_isWorded lexed h.1 h.2.1 h.2.2

end Serpent
