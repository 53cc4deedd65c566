/-
Serpent.Proofs.Marks — the marks of lines and blocks among the lexemes of a text.

The layout keeps every lexeme of the scan but the ends of lines that mean nothing, and adds marks
that take no place of their own. So the lexemes of a text with their marks still stand one behind
the other. What the layout may do with one lexeme is said once (§1), and each fact about the marks
is an induction over that.

  §1 The layout, lexeme by lexeme
  §2 Places of marks
  §3 Blocks that are opened and closed
  §4 Which mark may follow
  §5 The lexemes of a text
-/
import Serpent.Proofs.Adjoining
import Serpent.Proofs.LongestMatch
import Serpent.Proofs.Offside

namespace Serpent

open Fallible LayoutState

/-! ## §1 The layout, lexeme by lexeme -/

/-- From a state, these lexemes are laid out as those. -/
inductive LaidOut (source : List Char) : LayoutState → List Lexeme → List Lexeme → Prop
  | finished {s : LayoutState} : LaidOut source s []
      (s.ending.map (⟨·, .empty (utf8Length source)⟩))
  | lineEnd {blocks : List Nat} {span : Span} {ls out : List Lexeme}
      (more : LaidOut source ⟨blocks, 0, true⟩ ls out) :
      LaidOut source ⟨blocks, 0, false⟩ (⟨.newline, span⟩ :: ls) (⟨.newline, span⟩ :: out)
  | passed {s : LayoutState} {span : Span} {ls out : List Lexeme}
      (inside : ¬ (s.depth = 0 ∧ s.lineStart = false)) (more : LaidOut source s ls out) :
      LaidOut source s (⟨.newline, span⟩ :: ls) out
  | first {blocks blocks' : List Nat} {d : Nat} {t : Token} {span : Span} {marks : List Token}
      {ls out : List Lexeme} (noEnd : t ≠ .newline)
      (enter : enterLine? blocks (columnAt source span.start) = some (marks, blocks'))
      (more : LaidOut source ⟨blocks', depthAfter d t, false⟩ ls out) :
      LaidOut source ⟨blocks, d, true⟩ (⟨t, span⟩ :: ls)
        (marks.map (⟨·, .empty span.start⟩) ++ ⟨t, span⟩ :: out)
  | later {blocks : List Nat} {d : Nat} {t : Token} {span : Span} {ls out : List Lexeme}
      (noEnd : t ≠ .newline) (more : LaidOut source ⟨blocks, depthAfter d t, false⟩ ls out) :
      LaidOut source ⟨blocks, d, false⟩ (⟨t, span⟩ :: ls) (⟨t, span⟩ :: out)

theorem laidOut_of_layoutFrom {source : List Char} {s : LayoutState} {ls out : List Lexeme}
    (h : layoutFrom source s ls = .ok out) : LaidOut source s ls out := by
  induction ls generalizing s out with
  | nil =>
    have ending : layoutFrom source s [] =
        .ok (s.ending.map (⟨·, .empty (utf8Length source)⟩)) := by
      cases start : s.lineStart <;> simp [layoutFrom, ending, start]
    rw [ending] at h
    cases h
    exact .finished
  | cons l ls ih =>
    obtain ⟨t, span⟩ := l
    obtain ⟨blocks, d, start⟩ := s
    by_cases newline : t = .newline
    · subst newline
      rw [layoutFrom_newline] at h
      split at h
      · rename_i ends
        obtain ⟨rfl, rfl⟩ := ends
        obtain ⟨marked, hm, rfl⟩ := map_eq_ok.1 h
        exact .lineEnd (ih hm)
      · exact .passed ‹_› (ih h)
    · cases start with
      | true =>
        rw [layoutFrom_first newline rfl] at h
        split at h
        · cases h
        · obtain ⟨marked, hm, rfl⟩ := map_eq_ok.1 h
          exact .first newline ‹_› (ih hm)
      | false =>
        rw [layoutFrom_later newline rfl] at h
        obtain ⟨marked, hm, rfl⟩ := map_eq_ok.1 h
        exact .later newline (ih hm)

theorem LaidOut.layoutFrom_eq {source : List Char} {s : LayoutState} {ls out : List Lexeme}
    (h : LaidOut source s ls out) : layoutFrom source s ls = .ok out := by
  induction h with
  | @finished s => cases start : s.lineStart <;> simp [layoutFrom, ending, start]
  | lineEnd more ih =>
    rw [layoutFrom_newline, if_pos ⟨rfl, rfl⟩, ih]
    rfl
  | passed inside more ih => rw [layoutFrom_newline, if_neg inside, ih]
  | first noEnd enter more ih =>
    rw [layoutFrom_first noEnd rfl, enter]
    simp only [ih]
    rfl
  | later noEnd more ih =>
    rw [layoutFrom_later noEnd rfl, ih]
    rfl

section

variable {source : List Char} {s : LayoutState} {ls out : List Lexeme}

/-! ## §2 Places of marks -/

/-- Marks without a place of their own may be put before lexemes. -/
theorem Lexeme.InOrder.marks {a b n : Nat} (le : a ≤ n) (h : InOrder n b ls) (marks : List Token) :
    InOrder a b (marks.map (⟨·, .empty n⟩) ++ ls) := by
  induction marks generalizing a with
  | nil => exact h.mono le
  | cons t marks ih => exact ⟨le, Nat.le_refl n, ih (Nat.le_refl n)⟩

/-- The layout leaves lexemes in their order. -/
theorem LaidOut.inOrder (h : LaidOut source s ls out) {a : Nat}
    (sorted : Lexeme.InOrder a (utf8Length source) ls) :
    Lexeme.InOrder a (utf8Length source) out := by
  induction h generalizing a with
  | @finished s =>
    have ended : Lexeme.InOrder (utf8Length source) (utf8Length source) [] := Nat.le_refl _
    simpa using ended.marks sorted s.ending
  | lineEnd more ih | later noEnd more ih => exact ⟨sorted.1, sorted.2.1, ih sorted.2.2⟩
  | passed inside more ih =>
    exact ih (sorted.2.2.mono (Nat.le_trans sorted.1 sorted.2.1))
  | @first _ _ _ t span marks ls out noEnd enter more ih =>
    have behind : Lexeme.InOrder span.start (utf8Length source) (⟨t, span⟩ :: out) :=
      ⟨Nat.le_refl _, sorted.2.1, ih sorted.2.2⟩
    exact behind.marks sorted.1 marks

theorem Lexeme.InOrder.bounds {a b : Nat} (h : InOrder a b ls) :
    a ≤ b ∧ ∀ l ∈ ls, a ≤ l.span.start ∧ l.span.start ≤ l.span.stop := by
  induction ls generalizing a with
  | nil => exact ⟨h, by simp⟩
  | cons l ls ih =>
    obtain ⟨start, stop, rest⟩ := h
    obtain ⟨le, each⟩ := ih rest
    refine ⟨by omega, List.forall_mem_cons.2 ⟨⟨start, stop⟩, fun m hm => ?_⟩⟩
    have := each m hm
    omega

/-- Lexemes in their order stand one behind the other. -/
theorem Lexeme.InOrder.pairwise {a b : Nat} (h : InOrder a b ls) :
    ls.Pairwise fun l m => l.span.stop ≤ m.span.start := by
  induction ls generalizing a with
  | nil => exact .nil
  | cons l ls ih => exact .cons (fun m hm => (h.2.2.bounds.2 m hm).1) (ih h.2.2)

/-- The layout puts marks only where lexemes start, and at the end of the text. -/
theorem LaidOut.mem (h : LaidOut source s ls out) :
    ∀ l ∈ out, l ∈ ls ∨ ∃ n ∈ utf8Length source :: ls.map (·.span.start), l.span = .empty n := by
  have weaken {l m : Lexeme} {ls : List Lexeme}
      (h : l ∈ ls ∨ ∃ n ∈ utf8Length source :: ls.map (·.span.start), l.span = .empty n) :
      l ∈ m :: ls ∨
        ∃ n ∈ utf8Length source :: (m :: ls).map (·.span.start), l.span = .empty n := by
    rcases h with hl | ⟨n, hn, place⟩
    · exact .inl (List.mem_cons_of_mem _ hl)
    · refine .inr ⟨n, ?_, place⟩
      rcases List.mem_cons.1 hn with rfl | hn
      · exact List.mem_cons_self
      · exact List.mem_cons_of_mem _ (List.mem_cons_of_mem _ hn)
  induction h with
  | finished =>
    intro l hl
    obtain ⟨t, -, rfl⟩ := List.mem_map.1 hl
    exact .inr ⟨_, List.mem_cons_self, rfl⟩
  | lineEnd more ih | later noEnd more ih =>
    rw [List.forall_mem_cons]
    exact ⟨.inl List.mem_cons_self, fun l hl => weaken (ih l hl)⟩
  | passed inside more ih => exact fun l hl => weaken (ih l hl)
  | first noEnd enter more ih =>
    rw [List.forall_mem_append, List.forall_mem_cons]
    refine ⟨fun l hl => ?_, .inl List.mem_cons_self, fun l hl => weaken (ih l hl)⟩
    obtain ⟨t, -, rfl⟩ := List.mem_map.1 hl
    exact .inr ⟨_, List.mem_cons_of_mem _ List.mem_cons_self, rfl⟩

theorem LaidOut.within (h : LaidOut source s ls out) (given : ∀ l ∈ ls, l.span.Within source) :
    ∀ l ∈ out, l.span.Within source := by
  intro l hl
  rcases h.mem l hl with hl | ⟨n, hn, place⟩
  · exact given l hl
  · rw [place]
    rcases List.mem_cons.1 hn with rfl | hn
    · exact Span.within_empty (isBoundary_length source)
    · obtain ⟨m, hm, rfl⟩ := List.mem_map.1 hn
      exact Span.within_empty (given m hm).start

/-! ## §3 Blocks that are opened and closed -/

/-- Before the first token of a line one block is opened, or some are closed. -/
theorem enterLine?_marks {blocks blocks' : List Nat} {col : Nat} {marks : List Token}
    (h : enterLine? blocks col = some (marks, blocks')) :
    (marks = [.indent] ∧ blocks'.length = blocks.length + 1) ∨
      ∃ n, marks = List.replicate n .dedent ∧ blocks.length = n + blocks'.length := by
  rw [enterLine?] at h
  split at h
  · cases h
    exact .inl ⟨rfl, rfl⟩
  · simp only at h
    split at h
    · cases h
      refine .inr ⟨_, rfl, ?_⟩
      rw [← List.length_append, List.takeWhile_append_dropWhile]
    · cases h

/-- Where `depth` blocks are open, the tokens close these and the blocks that they open, and no
others. -/
def Settles : (depth : Nat) → List Token → Prop
  | depth, [] => depth = 0
  | depth, .indent :: ts => Settles (depth + 1) ts
  | depth, .dedent :: ts => ∃ d, depth = d + 1 ∧ Settles d ts
  | depth, _ :: ts => Settles depth ts

theorem settles_cons {depth : Nat} {t : Token} {ts : List Token} (indent : t ≠ .indent)
    (dedent : t ≠ .dedent) : Settles depth (t :: ts) ↔ Settles depth ts := by
  cases t with
  | indent => exact absurd rfl indent
  | dedent => exact absurd rfl dedent
  | _ => exact Iff.rfl

theorem Settles.dedents {depth : Nat} {ts : List Token} (h : Settles depth ts) (n : Nat) :
    Settles (n + depth) (List.replicate n .dedent ++ ts) := by
  induction n with
  | zero => rwa [Nat.zero_add]
  | succ n ih => exact ⟨n + depth, Nat.add_right_comm n 1 depth, ih⟩

/-- Blocks are opened before they are closed, and all of them are closed in the end. -/
structure Balanced (ts : List Token) : Prop where
  front : ∀ us, us <+: ts → us.count .dedent ≤ us.count .indent
  whole : ts.count .dedent = ts.count .indent

/-- Behind some of the tokens as many blocks are open as these open more than they close. -/
theorem Settles.behind {depth : Nat} {us vs : List Token} (h : Settles depth (us ++ vs)) :
    ∃ d, us.count .dedent + d = depth + us.count .indent ∧ Settles d vs := by
  induction us generalizing depth with
  | nil => exact ⟨depth, by simp, h⟩
  | cons t us ih =>
    by_cases indent : t = .indent
    · subst indent
      obtain ⟨d, count, rest⟩ := ih h
      refine ⟨d, ?_, rest⟩
      rw [List.count_cons_self, List.count_cons_of_ne (by simp)]
      omega
    · by_cases dedent : t = .dedent
      · subst dedent
        obtain ⟨depth, rfl, h⟩ := h
        obtain ⟨d, count, rest⟩ := ih h
        refine ⟨d, ?_, rest⟩
        rw [List.count_cons_self, List.count_cons_of_ne (by simp)]
        omega
      · obtain ⟨d, count, rest⟩ := ih ((settles_cons indent dedent).1 h)
        refine ⟨d, ?_, rest⟩
        rwa [List.count_cons_of_ne indent, List.count_cons_of_ne dedent]

theorem Settles.balanced {ts : List Token} (h : Settles 0 ts) : Balanced ts where
  front := by
    rintro us ⟨vs, rfl⟩
    obtain ⟨d, count, -⟩ := h.behind
    omega
  whole := by
    rw [← List.append_nil ts] at h
    obtain ⟨d, count, rfl⟩ := h.behind
    omega

theorem settles_ending (s : LayoutState) : Settles (s.blocks.length - 1) s.ending := by
  have dedents := Settles.dedents (show Settles 0 [] from rfl) (s.blocks.length - 1)
  rw [Nat.add_zero, List.append_nil] at dedents
  cases start : s.lineStart with
  | true => simpa [ending, start] using dedents
  | false => simpa [ending, start, Settles] using dedents

theorem map_token_marks (marks : List Token) (span : Span) :
    (marks.map fun t => (⟨t, span⟩ : Lexeme)).map (·.token) = marks := by
  simp [Function.comp_def]

theorem Nested.length_pos {blocks : List Nat} (h : Nested blocks) : 0 < blocks.length := by
  obtain ⟨deep, rfl, -⟩ := h
  simp

/-- The layout closes all blocks that are open or that it opens. -/
theorem LaidOut.settles (h : LaidOut source s ls out) (nested : Nested s.blocks)
    (content : ∀ l ∈ ls, l.IsContent) : Settles (s.blocks.length - 1) (out.map (·.token)) := by
  induction h with
  | @finished s =>
    rw [map_token_marks]
    exact settles_ending s
  | lineEnd more ih => exact ih nested (List.forall_mem_cons.1 content).2
  | passed inside more ih => exact ih nested (List.forall_mem_cons.1 content).2
  | later noEnd more ih =>
    rw [List.forall_mem_cons] at content
    rw [List.map_cons, settles_cons content.1.1 content.1.2]
    exact ih nested content.2
  | @first blocks blocks' d t span marks ls out noEnd enter more ih =>
    rw [List.forall_mem_cons] at content
    have nested' := nested_enterLine? nested enter
    have some := Nested.length_pos nested'
    have rest : Settles (blocks'.length - 1) (t :: out.map (·.token)) :=
      (settles_cons content.1.1 content.1.2).2 (ih nested' content.2)
    rw [List.map_append, map_token_marks, List.map_cons]
    show Settles (blocks.length - 1) _
    rcases enterLine?_marks enter with ⟨rfl, length⟩ | ⟨n, rfl, length⟩
    · have outer : 0 < blocks.length := Nested.length_pos nested
      have depth : blocks'.length - 1 = blocks.length - 1 + 1 := by omega
      rw [depth] at rest
      exact rest
    · have depth : blocks.length - 1 = n + (blocks'.length - 1) := by omega
      rw [depth]
      exact rest.dedents n

/-! ## §4 Which mark may follow -/

/-- Whether a token may follow the token before it, if there is one. -/
def Token.MayFollow (before : Option Token) : Token → Prop
  | .indent => before = none ∨ before = some .newline
  | .dedent => before = some .newline ∨ before = some .dedent
  | .newline => ∃ t, before = some t ∧ t.isMark = false
  | _ => True

/-- Each token may follow the one before it. -/
def Follow : (before : Option Token) → List Token → Prop
  | _, [] => True
  | before, t :: ts => t.MayFollow before ∧ Follow (some t) ts

theorem Token.mayFollow_of_isMark {t : Token} (h : t.isMark = false) (before : Option Token) :
    t.MayFollow before := by
  cases t with
  | newline | indent | dedent => cases h
  | _ => trivial

theorem Lexeme.IsContent.isMark {l : Lexeme} (h : l.IsContent) (noEnd : l.token ≠ .newline) :
    l.token.isMark = false := by
  obtain ⟨token, span⟩ := l
  cases token with
  | newline => exact absurd rfl noEnd
  | indent => exact absurd rfl h.1
  | dedent => exact absurd rfl h.2
  | _ => rfl

theorem Follow.dedents {before : Option Token} {ts : List Token} {n : Nat}
    (start : 0 < n → Token.MayFollow before .dedent)
    (rest : Follow (if n = 0 then before else some .dedent) ts) :
    Follow before (List.replicate n .dedent ++ ts) := by
  induction n generalizing before with
  | zero => exact rest
  | succ n ih =>
    refine ⟨start (Nat.succ_pos n), ih (fun _ => .inr rfl) ?_⟩
    split
    · exact rest
    · exact rest

theorem Follow.mayFollow {before : Option Token} {front back : List Token} {t : Token}
    (h : Follow before (front ++ t :: back)) : t.MayFollow (front.getLast?.or before) := by
  induction front generalizing before with
  | nil => exact h.1
  | cons u front ih =>
    have later := ih h.2
    cases front with
    | nil => exact later
    | cons v front => exact later

/-- What is known of the last token before a state: at the start of a line it is the end of a line,
or there is none and no block is open; inside of a line it is no mark. -/
def LayoutState.IsAfter (s : LayoutState) (before : Option Token) : Prop :=
  if s.lineStart then before = some .newline ∨ before = none ∧ s.blocks.length = 1
  else ∃ t, before = some t ∧ t.isMark = false

theorem LayoutState.IsAfter.ending {before : Option Token} (h : s.IsAfter before) :
    Follow before s.ending := by
  obtain ⟨blocks, d, start⟩ := s
  have dedents {before : Option Token}
      (after : 0 < blocks.length - 1 → Token.MayFollow before .dedent) :
      Follow before (List.replicate (blocks.length - 1) .dedent) := by
    have follow := Follow.dedents after (show Follow _ [] from trivial)
    rwa [List.append_nil] at follow
  cases start with
  | true =>
    refine dedents fun pos => ?_
    rcases h with newline | ⟨-, one⟩
    · exact .inl newline
    · have one : blocks.length = 1 := one
      omega
  | false => exact ⟨h, dedents fun _ => .inl rfl⟩

/-- The layout puts marks only where they may stand. -/
theorem LaidOut.follow (h : LaidOut source s ls out) (nested : Nested s.blocks)
    (content : ∀ l ∈ ls, l.IsContent) {before : Option Token} (after : s.IsAfter before) :
    Follow before (out.map (·.token)) := by
  induction h generalizing before with
  | @finished s =>
    rw [map_token_marks]
    exact after.ending
  | lineEnd more ih => exact ⟨after, ih nested (List.forall_mem_cons.1 content).2 (.inl rfl)⟩
  | passed inside more ih => exact ih nested (List.forall_mem_cons.1 content).2 after
  | later noEnd more ih =>
    rw [List.forall_mem_cons] at content
    have isMark := content.1.isMark noEnd
    exact ⟨Token.mayFollow_of_isMark isMark _, ih nested content.2 ⟨_, rfl, isMark⟩⟩
  | @first blocks blocks' d t span marks ls out noEnd enter more ih =>
    rw [List.forall_mem_cons] at content
    have isMark := content.1.isMark noEnd
    have nested' := nested_enterLine? nested enter
    have some := Nested.length_pos nested'
    have rest (before : Option Token) : Follow before (t :: out.map (·.token)) :=
      ⟨Token.mayFollow_of_isMark isMark _, ih nested' content.2 ⟨_, rfl, isMark⟩⟩
    rw [List.map_append, map_token_marks, List.map_cons]
    rcases enterLine?_marks enter with ⟨rfl, -⟩ | ⟨n, rfl, length⟩
    · exact ⟨after.elim .inr fun none => .inl none.1, rest _⟩
    · refine .dedents (fun pos => ?_) (rest _)
      rcases after with newline | ⟨-, one⟩
      · exact .inl newline
      · have one : blocks.length = 1 := one
        omega

/-- A line is ended, and blocks are closed behind it. -/
def EndsLine (ts : List Token) : Prop :=
  ∃ front n, ts = front ++ .newline :: List.replicate n .dedent

theorem EndsLine.append {ts : List Token} (h : EndsLine ts) (us : List Token) :
    EndsLine (us ++ ts) := by
  obtain ⟨front, n, rfl⟩ := h
  exact ⟨us ++ front, n, (List.append_assoc ..).symm⟩

/-- The layout ends the last line, and then closes blocks. Where no line is left, it closes the
blocks that are open. -/
theorem LaidOut.endsLine (h : LaidOut source s ls out) :
    EndsLine (out.map (·.token)) ∨
      s.lineStart = true ∧ out.map (·.token) = List.replicate (s.blocks.length - 1) .dedent := by
  induction h with
  | @finished s =>
    rw [map_token_marks]
    cases start : s.lineStart with
    | true => exact .inr ⟨rfl, by simp [ending, start]⟩
    | false => exact .inl ⟨[], s.blocks.length - 1, by simp [ending, start]⟩
  | @lineEnd blocks span ls out more ih =>
    refine .inl ?_
    rcases ih with ends | ⟨-, dedents⟩
    · exact ends.append [.newline]
    · exact ⟨[], blocks.length - 1, congrArg _ dedents⟩
  | passed inside more ih => exact ih
  | first noEnd enter more ih =>
    rcases ih with ends | ⟨start, -⟩
    · rw [List.map_append, List.map_cons]
      exact .inl ((ends.append [_]).append _)
    · cases start
  | later noEnd more ih =>
    rcases ih with ends | ⟨start, -⟩
    · exact .inl (ends.append [_])
    · cases start

end

/-! ## §5 The lexemes of a text -/

/-- The lexemes of a text stand in their order and cover whole characters. -/
theorem places_of_lex {source : List Char} {ls : List Lexeme} (lexed : lex source = .ok ls) :
    Lexeme.InOrder 0 (utf8Length source) ls ∧ ∀ l ∈ ls, l.span.Within source := by
  obtain ⟨raw, scanned, laid⟩ := bind_eq_ok.1 lexed
  have cut : Cut 0 source raw := (cutBefore_of_scanFrom scanned).cut
  have laidOut := laidOut_of_layoutFrom laid
  refine ⟨laidOut.inOrder (by simpa using cut.inOrder), laidOut.within fun l hl => ?_⟩
  exact (@Cut.isFound source [] _ _ cut rfl l hl).within

/-- Cutting a text into lexemes with their marks loses nothing of it and adds nothing but marks. -/
theorem lex_loses_nothing (source : List Char) (out : List Lexeme) (lexed : lex source = .ok out) :
    ∃ raw, scan source = .ok raw ∧
      out.filter (!·.token.isMark) = raw.filter (·.token ≠ .newline) ∧
      (∀ l ∈ out, l.token.isMark = false →
        l.span.slice? source = some l.token.text.toList ∧ l.IsFound source) ∧
      Spaced source 0 (out.filter (!·.token.isMark)) ∧
      (∀ l ∈ out, l.span.Within source) ∧
      (out.IsChain fun l m => l.span.stop ≤ m.span.start) ∧
      Balanced (out.map (·.token)) ∧
      (∀ front t back, out.map (·.token) = front ++ t :: back → t.MayFollow front.getLast?) ∧
      (out ≠ [] → EndsLine (out.map (·.token))) := by
  obtain ⟨raw, scanned, laid⟩ := bind_eq_ok.1 lexed
  have cut : Cut 0 source raw := (cutBefore_of_scanFrom scanned).cut
  have content := isContent_of_scan scanned
  have laidOut := laidOut_of_layoutFrom laid
  have found : ∀ l ∈ raw, l.IsFound source := @Cut.isFound source [] _ _ cut rfl
  have kept : out.filter (!·.token.isMark) = raw.filter (·.token ≠ .newline) := by
    rw [filter_layoutFrom laid]
    refine List.filter_congr fun l hl => ?_
    by_cases newline : l.token = .newline
    · simp [newline, Token.isMark]
    · simp [newline, (content l hl).isMark newline]
  refine ⟨raw, scanned, kept, fun l hl isMark => ?_, ?_, ?_, ?_, ?_, ?_, ?_⟩
  · have slice := (lex_stands lexed l hl).resolve_left (by simp [isMark])
    have scanned := (mem_of_mem_layoutFrom laid l hl).resolve_right (by simp [isMark])
    exact ⟨slice.1, found l scanned⟩
  · rw [kept]
    exact @Cut.spaced source [] [] _ _ cut rfl .nil
  · exact (places_of_lex lexed).2
  · exact (places_of_lex lexed).1.pairwise.isChain
  · exact (laidOut.settles nested_start content).balanced
  · intro front t back tokens
    have start : LayoutState.IsAfter {} none := .inr ⟨rfl, rfl⟩
    have follow := laidOut.follow nested_start content start
    rw [tokens] at follow
    simpa using follow.mayFollow
  · intro some
    rcases laidOut.endsLine with ends | ⟨-, empty⟩
    · exact ends
    · exact absurd (by simpa using empty) some

/-- A block in which a float, a name that starts like a keyword and a comment stand in parentheses
on two lines. -/
def spacedText : List Char := "if a: # é\n\tb(1.,\r\nnota)->\n".toList

def spacedTokens : List Token :=
  [.keyword .if_, .name "a", .symbol .colon, .newline, .indent, .name "b", .symbol .lparen,
    .float "1.", .symbol .comma, .name "nota", .symbol .rparen, .symbol .arrow, .newline, .dedent]

theorem lex_loses_nothing_spaced : ∃ out, lex spacedText = .ok out ∧
    out.map (·.token) = spacedTokens ∧ Spaced spacedText 0 (out.filter (!·.token.isMark)) ∧
    (out.IsChain fun l m => l.span.stop ≤ m.span.start) ∧ Balanced spacedTokens := by
  obtain ⟨out, lexed, tokens⟩ : ∃ out, lex spacedText = .ok out ∧
      out.map (·.token) = spacedTokens := ⟨_, rfl, rfl⟩
  obtain ⟨-, -, -, -, spaced, -, chain, balanced, -⟩ := lex_loses_nothing spacedText out lexed
  exact ⟨out, lexed, tokens, spaced, chain, tokens ▸ balanced⟩

end Serpent
