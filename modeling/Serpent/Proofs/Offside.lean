/-
Serpent.Proofs.Offside — which lines stand in place, and how deep they are.

The layout keeps the columns of the open blocks. Which columns those are depends on the indentation
of all lines so far and on nothing else: a column is open if no later line is as far to the left. So
it can be said without them when a line stands in place, and how many blocks it is in: one looks
back from the line to the nearest one that is not further to the right.

  §1 Logical lines and their indentation
  §2 Lines in place, and their depth
  §3 The columns of the open blocks
  §4 One line
  §5 All lines
  §6 Places of lexemes
  §7 The offside rule
-/
import Mathlib.Data.List.DropRight
import Serpent.Proofs.Lexeme

namespace Serpent

open Fallible LayoutState

/-! ## §1 Logical lines and their indentation -/

/-- The lexemes cut into lines, with `depth` parentheses open before them. An end of line counts
where no parenthesis is open; a line may be empty. -/
def logicalLines : (depth : Nat) → List Lexeme → List (List Lexeme)
  | _, [] => [[]]
  | depth, l :: ls =>
    if l.token = .newline then
      if depth = 0 then [] :: logicalLines 0 ls else logicalLines depth ls
    else (logicalLines (depthAfter depth l.token) ls).modifyHead (l :: ·)

/-- The first lexeme of each line that has one. -/
def lineHeads (ls : List Lexeme) : List Lexeme := (logicalLines 0 ls).filterMap List.head?

/-- How far to the right a text reaches that has no line feed: a tab goes to the next multiple of
eight, and any other character takes one column. -/
def textWidth (cs : List Char) : Nat :=
  cs.foldl (fun w c => if c = '\t' then (w / 8 + 1) * 8 else w + 1) 0

/-- The column of a lexeme: the width of what stands before it and behind the last line feed. -/
def indentation (source : List Char) (l : Lexeme) : Nat :=
  textWidth (((takeBytes? l.span.start source).getD []).rtakeWhile (· ≠ '\n'))

theorem foldl_nextColumn (cs : List Char) :
    cs.foldl nextColumn 0 = textWidth (cs.rtakeWhile (· ≠ '\n')) := by
  induction cs using List.reverseRecOn with
  | nil => rfl
  | append_singleton cs c ih =>
    rw [List.foldl_append, ih, List.rtakeWhile_concat]
    by_cases feed : c = '\n'
    · subst feed
      rfl
    · rw [if_pos (by simpa using feed), textWidth, textWidth, List.foldl_append]
      simp only [List.foldl_cons, List.foldl_nil, nextColumn]
      split <;> simp_all

theorem columnAt_eq (source : List Char) (l : Lexeme) :
    columnAt source l.span.start = indentation source l :=
  foldl_nextColumn _

/-- The first lexemes of the lines, read from the left: `start` says whether the line has none yet.
-/
def headsFrom : (depth : Nat) → (start : Bool) → List Lexeme → List Lexeme
  | _, _, [] => []
  | depth, start, l :: ls =>
    if l.token = .newline then headsFrom depth (start || depth == 0) ls
    else (if start then [l] else []) ++ headsFrom (depthAfter depth l.token) false ls

theorem logicalLines_ne_nil (depth : Nat) (ls : List Lexeme) : logicalLines depth ls ≠ [] := by
  induction ls generalizing depth with
  | nil => exact List.cons_ne_nil _ _
  | cons l ls ih =>
    rw [logicalLines]
    split
    · split
      · exact List.cons_ne_nil _ _
      · exact ih depth
    · simpa using ih _

theorem headsFrom_eq (depth : Nat) (ls : List Lexeme) :
    headsFrom depth true ls = (logicalLines depth ls).filterMap List.head? ∧
      headsFrom depth false ls = (logicalLines depth ls).tail.filterMap List.head? := by
  induction ls generalizing depth with
  | nil => exact ⟨rfl, rfl⟩
  | cons l ls ih =>
    rw [headsFrom, headsFrom, logicalLines]
    by_cases newline : l.token = .newline
    · rw [if_pos newline, if_pos newline, if_pos newline]
      by_cases zero : depth = 0
      · subst zero
        exact ⟨(ih 0).1, (ih 0).1⟩
      · rw [if_neg zero, beq_false_of_ne zero]
        exact ih depth
    · rw [if_neg newline, if_neg newline, if_neg newline, (ih _).2]
      obtain ⟨line, lines, cut⟩ :=
        List.exists_cons_of_ne_nil (logicalLines_ne_nil (depthAfter depth l.token) ls)
      rw [cut]
      exact ⟨rfl, rfl⟩

theorem lineHeads_eq (ls : List Lexeme) : lineHeads ls = headsFrom 0 true ls :=
  (headsFrom_eq 0 ls).1.symm

/-! ## §2 Lines in place, and their depth -/

/-- A line of width `w` stands in place behind lines of the widths `before`: the nearest of them
that is not further to the right is the one just before it, or it has the same width. -/
def Fits (before : List Nat) (w : Nat) : Prop :=
  ∃ far v near, before = far ++ v :: near ∧ v ≤ w ∧ (∀ u ∈ near, ¬ u ≤ w) ∧ (near = [] ∨ v = w)

/-- Every line but the first stands in place behind the ones before it. -/
def InPlace (widths : List Nat) : Prop :=
  ∀ before w after, widths = before ++ w :: after → before ≠ [] → Fits before w

/-- How many blocks a line of width `w` is in behind lines of the widths `before`: none if it is not
indented, else one more than the nearest line of smaller width. -/
inductive BlockDepth : (before : List Nat) → (w : Nat) → Nat → Prop
  | outer {before : List Nat} : BlockDepth before 0 0
  | inner {far near : List Nat} {v w d : Nat} (smaller : v < w) (nearest : ∀ u ∈ near, ¬ u < w)
      (h : BlockDepth far v d) : BlockDepth (far ++ v :: near) w (d + 1)

/-- Some member is the last one with a property, if any has it. -/
theorem exists_nearest {p : Nat → Prop} {before : List Nat} (h : ∃ v ∈ before, p v) :
    ∃ far v near, before = far ++ v :: near ∧ p v ∧ ∀ u ∈ near, ¬ p u := by
  induction before using List.reverseRecOn with
  | nil => simp at h
  | append_singleton before u ih =>
    by_cases last : p u
    · exact ⟨before, u, [], rfl, last, by simp⟩
    · obtain ⟨v, hv, pv⟩ := h
      have inside : v ∈ before := by
        rcases List.mem_append.1 hv with hv | hv
        · exact hv
        · obtain rfl : v = u := by simpa using hv
          exact absurd pv last
      obtain ⟨far, v, near, rfl, pv, none⟩ := ih ⟨v, inside, pv⟩
      refine ⟨far, v, near ++ [u], by simp, pv, ?_⟩
      simpa [or_imp, forall_and, last] using none

/-- The nearest line can be searched for. -/
theorem fits_iff {before : List Nat} {w : Nat} :
    Fits before w ↔
      (∃ v ∈ before.getLast?, v ≤ w) ∨ before.reverse.find? (· ≤ w) = some w := by
  constructor
  · rintro ⟨far, v, near, rfl, le, nearest, rfl | rfl⟩
    · exact .inl ⟨v, by simp, le⟩
    · refine .inr (List.find?_eq_some_iff_append.2 ⟨by simp, near.reverse, far.reverse, by simp, ?_⟩)
      simpa using nearest
  · rintro (⟨v, last, le⟩ | found)
    · obtain ⟨far, rfl⟩ := List.getLast?_eq_some_iff.1 last
      exact ⟨far, v, [], rfl, le, by simp, .inl rfl⟩
    · obtain ⟨-, near, far, cut, nearest⟩ := List.find?_eq_some_iff_append.1 found
      refine ⟨far.reverse, w, near.reverse, by simpa using congrArg List.reverse cut, le_rfl, ?_,
        .inr rfl⟩
      simpa using nearest

instance (before : List Nat) (w : Nat) : Decidable (Fits before w) :=
  decidable_of_iff _ fits_iff.symm

/-! ## §3 The columns of the open blocks -/

/-- The columns that are open behind lines of the given widths, with the innermost first: a line
leaves open what is to the left of it. -/
def openAfter (widths : List Nat) : List Nat :=
  widths.foldl (fun blocks w => w :: blocks.dropWhile (w ≤ ·)) []

theorem openAfter_concat (widths : List Nat) (w : Nat) :
    openAfter (widths ++ [w]) = w :: (openAfter widths).dropWhile (w ≤ ·) := by
  simp [openAfter]

theorem dropWhile_dropWhile {p q : Nat → Bool} (h : ∀ x, q x = true → p x = true) (xs : List Nat) :
    (xs.dropWhile q).dropWhile p = xs.dropWhile p := by
  induction xs with
  | nil => rfl
  | cons x xs ih =>
    cases hq : q x with
    | true => rw [List.dropWhile_cons_of_pos hq, ih, List.dropWhile_cons_of_pos (h x hq)]
    | false => rw [List.dropWhile_cons_of_neg (by simp [hq])]

/-- What is dropped from some column to the right does not depend on lines that are that far to the
right. -/
theorem dropWhile_openAfter {p : Nat → Bool} (up : ∀ u x, u ≤ x → p u = true → p x = true)
    {far near : List Nat} (h : ∀ u ∈ near, p u = true) :
    (openAfter (far ++ near)).dropWhile p = (openAfter far).dropWhile p := by
  induction near using List.reverseRecOn with
  | nil => rw [List.append_nil]
  | append_singleton near u ih =>
    have pu : p u = true := h u (by simp)
    rw [← List.append_assoc, openAfter_concat, List.dropWhile_cons_of_pos pu,
      dropWhile_dropWhile fun x hx => up u x (by simpa using hx) pu]
    exact ih fun v hv => h v (by simp [hv])

/-- Closing the blocks to the right of the nearest line that is not there leaves that line's. -/
theorem dropWhile_openAfter_nearest {p : Nat → Bool} (up : ∀ u x, u ≤ x → p u = true → p x = true)
    {far near : List Nat} {v : Nat} (hv : p v = false) (h : ∀ u ∈ near, p u = true) :
    (openAfter (far ++ v :: near)).dropWhile p = openAfter (far ++ [v]) := by
  rw [List.append_cons, dropWhile_openAfter up h, openAfter_concat,
    List.dropWhile_cons_of_neg (by simp [hv])]

/-- The depth of a line is the number of columns that are open at it, without the outermost. -/
theorem exists_blockDepth (before : List Nat) (w : Nat) (h : w = 0 ∨ 0 ∈ before) :
    ∃ d, BlockDepth before w d ∧ (openAfter (before ++ [w])).length = d + 1 := by
  by_cases zero : w = 0
  · subst zero
    refine ⟨0, .outer, ?_⟩
    rw [openAfter_concat, List.dropWhile_eq_nil_iff.2 (by simp)]
    rfl
  · obtain ⟨far, v, near, rfl, smaller, nearest⟩ :=
      exists_nearest (p := (· < w)) ⟨0, h.resolve_left zero, by omega⟩
    have left : v = 0 ∨ 0 ∈ far := by
      by_contra none
      have := nearest 0
      grind
    obtain ⟨d, hd, length⟩ := exists_blockDepth far v left
    refine ⟨d + 1, .inner smaller nearest hd, ?_⟩
    rw [openAfter_concat, dropWhile_openAfter_nearest (by grind) (by simpa using smaller)
      (by simpa using nearest), List.length_cons, length]
termination_by before.length

/-! ## §4 One line -/

theorem headD_openAfter_concat (widths : List Nat) (w : Nat) :
    (openAfter (widths ++ [w])).headD 0 = w := by
  rw [openAfter_concat, List.headD_cons]

/-- What remains open to the left of a line, and at it. -/
theorem dropWhile_lt_openAfter {far near : List Nat} {v w : Nat} (le : v ≤ w)
    (nearest : ∀ u ∈ near, ¬ u ≤ w) :
    (openAfter (far ++ v :: near)).dropWhile (w < ·) = openAfter (far ++ [v]) :=
  dropWhile_openAfter_nearest (by grind) (by simpa using le) (by simpa using nearest)

/-- A line that stands in place is entered, and then what its width leaves open is open. -/
theorem enterLine?_of_fits {before : List Nat} {w : Nat} (h : Fits before w) :
    ∃ marks, enterLine? (openAfter before) w = some (marks, openAfter (before ++ [w])) := by
  obtain ⟨far, v, near, rfl, le, nearest, just⟩ := h
  rcases Nat.lt_or_eq_of_le le with smaller | rfl
  · obtain rfl : near = [] := just.resolve_right (by omega)
    refine ⟨[.indent], ?_⟩
    have same := @dropWhile_openAfter_nearest (w ≤ ·) (by grind) far [] v (by simpa using smaller)
      (by simp)
    rw [enterLine?, if_pos (by rwa [headD_openAfter_concat]), openAfter_concat _ w, same]
  · have notLess : ¬ (openAfter (far ++ v :: near)).headD 0 < v := by
      cases near using List.reverseRecOn with
      | nil => rw [headD_openAfter_concat]; exact Nat.lt_irrefl v
      | append_singleton near u =>
        have := nearest u (by simp)
        rw [← List.cons_append, ← List.append_assoc, headD_openAfter_concat]
        omega
    have kept : (openAfter (far ++ v :: near)).dropWhile (v < ·) = openAfter (far ++ [v]) :=
      dropWhile_lt_openAfter le nearest
    have after : openAfter (far ++ v :: near ++ [v]) = openAfter (far ++ [v]) := by
      rw [openAfter_concat, openAfter_concat, dropWhile_openAfter (by grind)]
      simpa using fun u hu => Nat.le_of_not_le (nearest u hu)
    rw [enterLine?, if_neg notLess, after]
    simp only [kept, headD_openAfter_concat, if_true]
    exact ⟨_, rfl⟩

/-- Only a line that stands in place is entered. -/
theorem fits_of_enterLine? {before : List Nat} {w : Nat} (zero : 0 ∈ before)
    {entered : List Token × List Nat} (h : enterLine? (openAfter before) w = some entered) :
    Fits before w := by
  rw [enterLine?] at h
  split at h
  · rename_i less
    obtain rfl | ⟨far, v, rfl⟩ := List.eq_nil_or_concat before
    · simp at zero
    · rw [List.concat_eq_append, headD_openAfter_concat] at less
      exact ⟨far, v, [], by simp, less.le, by simp, .inl rfl⟩
  · obtain ⟨far, v, near, rfl, le, nearest⟩ := exists_nearest (p := (· ≤ w)) ⟨0, zero, by simp⟩
    simp only [dropWhile_lt_openAfter le nearest, headD_openAfter_concat] at h
    split at h
    · exact ⟨far, v, near, rfl, le, nearest, .inr ‹_›⟩
    · cases h

/-- The marks before a line open and close as many blocks as there are more or fewer behind them. -/
theorem enterLine?_balance {blocks blocks' : List Nat} {w : Nat} {marks : List Token}
    (h : enterLine? blocks w = some (marks, blocks')) :
    marks.count .indent + blocks.length = marks.count .dedent + blocks'.length := by
  rw [enterLine?] at h
  split at h
  · cases h
    simp +arith
  · simp only at h
    split at h
    · cases h
      have parts := congrArg List.length (List.takeWhile_append_dropWhile (p := (w < ·)) (l := blocks))
      rw [List.length_append] at parts
      have none : (List.replicate (blocks.takeWhile (w < ·)).length Token.dedent).count .indent = 0 := by
        simp [List.count_replicate]
      rw [none, List.count_replicate_self]
      omega
    · cases h

/-! ## §5 All lines -/

/-- Lines of these widths stand in place one after the other, behind lines of the widths `before`.
-/
def AllFit : (before : List Nat) → List Nat → Prop
  | _, [] => True
  | before, w :: ws => Fits before w ∧ AllFit (before ++ [w]) ws

theorem allFit_iff {before ws : List Nat} :
    AllFit before ws ↔ ∀ pre w post, ws = pre ++ w :: post → Fits (before ++ pre) w := by
  induction ws generalizing before with
  | nil => simp [AllFit]
  | cons v ws ih =>
    rw [AllFit, ih]
    constructor
    · rintro ⟨first, rest⟩ pre w post cut
      cases pre with
      | nil =>
        cases cut
        simpa using first
      | cons u pre =>
        cases cut
        simpa using rest pre w post rfl
    · intro all
      refine ⟨by simpa using all [] v ws rfl, ?_⟩
      rintro pre w post rfl
      simpa using all (v :: pre) w post rfl

theorem inPlace_iff {v : Nat} {ws : List Nat} : InPlace (v :: ws) ↔ AllFit [v] ws := by
  rw [allFit_iff]
  constructor
  · rintro all pre w post rfl
    exact all (v :: pre) w post rfl (by simp)
  · intro all before w after cut some
    obtain ⟨u, pre, rfl⟩ := List.exists_cons_of_ne_nil some
    cases cut
    exact all pre w after rfl

instance decidableAllFit : (before ws : List Nat) → Decidable (AllFit before ws)
  | _, [] => .isTrue trivial
  | before, w :: ws =>
    have := decidableAllFit (before ++ [w]) ws
    inferInstanceAs (Decidable (_ ∧ _))

/-- Where not all lines stand in place, one is the first that does not. -/
theorem exists_first_misplaced {source : List Char} {before : List Nat} {ls : List Lexeme}
    (h : ¬ AllFit before (ls.map (indentation source))) :
    ∃ pre l post, ls = pre ++ l :: post ∧ AllFit before (pre.map (indentation source)) ∧
      ¬ Fits (before ++ pre.map (indentation source)) (indentation source l) := by
  induction ls generalizing before with
  | nil => exact absurd trivial h
  | cons m ls ih =>
    by_cases first : Fits before (indentation source m)
    · obtain ⟨pre, l, post, rfl, fit, misplaced⟩ := ih fun rest => h ⟨first, rest⟩
      exact ⟨m :: pre, l, post, rfl, ⟨first, fit⟩, by simpa using misplaced⟩
    · exact ⟨[], m, ls, rfl, trivial, by simpa using first⟩

/-- The lexeme is no block mark. -/
def Lexeme.IsContent (l : Lexeme) : Prop := l.token ≠ .indent ∧ l.token ≠ .dedent

/-- Each of the lines' first lexemes stands among the marked lexemes behind as many openings and
closings as lead from the blocks that are open at first to the blocks that are open at the line. -/
def Marked (source : List Char) (before : List Nat) (ls out : List Lexeme) : Prop :=
  ∀ pre l post, ls = pre ++ l :: post → ∃ front back, out = front ++ l :: back ∧
    (front.map (·.token)).count .indent + (openAfter before).length =
      (front.map (·.token)).count .dedent +
        (openAfter (before ++ pre.map (indentation source) ++ [indentation source l])).length

theorem marked_nil {source : List Char} {before : List Nat} {out : List Lexeme} :
    Marked source before [] out := by
  intro pre l post cut
  simp at cut

theorem Marked.cons {source : List Char} {before : List Nat} {ls out : List Lexeme} {l : Lexeme}
    (h : Marked source before ls out) (content : l.IsContent) : Marked source before ls (l :: out) := by
  intro pre m post cut
  obtain ⟨front, back, rfl, balance⟩ := h pre m post cut
  refine ⟨l :: front, back, rfl, ?_⟩
  rwa [List.map_cons, List.count_cons_of_ne content.1, List.count_cons_of_ne content.2]

/-- The first lexeme of a line, behind the marks of the line. -/
theorem Marked.line {source : List Char} {before : List Nat} {ls out : List Lexeme} {l : Lexeme}
    {marks : List Token} {here : Span}
    (h : Marked source (before ++ [indentation source l]) ls out) (content : l.IsContent)
    (enter : enterLine? (openAfter before) (indentation source l) =
      some (marks, openAfter (before ++ [indentation source l]))) :
    Marked source before (l :: ls) (marks.map (⟨·, here⟩) ++ l :: out) := by
  have balance := enterLine?_balance enter
  have tokens : (marks.map fun t => (⟨t, here⟩ : Lexeme)).map (·.token) = marks := by
    simp [Function.comp_def]
  intro pre m post cut
  cases pre with
  | nil =>
    cases cut
    refine ⟨_, out, rfl, ?_⟩
    simpa [tokens] using balance
  | cons u pre =>
    cases cut
    obtain ⟨front, back, rfl, later⟩ := h pre m post rfl
    refine ⟨marks.map (⟨·, here⟩) ++ l :: front, back, by simp, ?_⟩
    rw [List.map_append, tokens, List.map_cons, List.count_append, List.count_append,
      List.count_cons_of_ne content.1, List.count_cons_of_ne content.2, List.map_cons,
      List.append_cons before]
    omega

theorem headsFrom_newline {depth : Nat} {start : Bool} {l : Lexeme} {ls : List Lexeme}
    (h : l.token = .newline) :
    headsFrom depth start (l :: ls) = headsFrom depth (start || depth == 0) ls := by
  rw [headsFrom, if_pos h]

theorem headsFrom_first {depth : Nat} {l : Lexeme} {ls : List Lexeme} (h : l.token ≠ .newline) :
    headsFrom depth true (l :: ls) = l :: headsFrom (depthAfter depth l.token) false ls := by
  rw [headsFrom, if_neg h]
  rfl

theorem headsFrom_later {depth : Nat} {l : Lexeme} {ls : List Lexeme} (h : l.token ≠ .newline) :
    headsFrom depth false (l :: ls) = headsFrom (depthAfter depth l.token) false ls := by
  rw [headsFrom, if_neg h]
  rfl

/-- An end of line that means nothing leaves the flag as it is. -/
theorem start_of_not_ends {depth : Nat} {start : Bool} (h : ¬ (depth = 0 ∧ start = false)) :
    (start || depth == 0) = start := by
  cases start <;> simp_all

/-- The layout succeeds where all lines stand in place. -/
theorem layoutFrom_of_allFit {source : List Char} {depth : Nat} {start : Bool} {ls : List Lexeme}
    {before : List Nat} (content : ∀ l ∈ ls, l.IsContent)
    (fit : AllFit before ((headsFrom depth start ls).map (indentation source))) :
    ∃ out, layoutFrom source ⟨openAfter before, depth, start⟩ ls = .ok out ∧
      Marked source before (headsFrom depth start ls) out := by
  induction ls generalizing depth start before with
  | nil => exact ⟨_, rfl, marked_nil⟩
  | cons l ls ih =>
    obtain ⟨t, span⟩ := l
    rw [List.forall_mem_cons] at content
    by_cases newline : t = .newline
    · subst newline
      rw [layoutFrom_newline]
      rw [headsFrom_newline rfl] at fit ⊢
      split
      · rename_i ends
        obtain ⟨rfl, rfl⟩ := ends
        obtain ⟨out, marked, h⟩ := ih content.2 fit
        exact ⟨_, map_eq_ok.2 ⟨out, marked, rfl⟩, h.cons content.1⟩
      · rename_i ends
        rw [start_of_not_ends ends] at fit ⊢
        exact ih content.2 fit
    · cases start with
      | false =>
        rw [layoutFrom_later newline rfl]
        rw [headsFrom_later newline] at fit ⊢
        obtain ⟨out, marked, h⟩ := ih content.2 fit
        exact ⟨_, map_eq_ok.2 ⟨out, marked, rfl⟩, h.cons content.1⟩
      | true =>
        rw [layoutFrom_first newline rfl, columnAt_eq source ⟨t, span⟩]
        rw [headsFrom_first newline] at fit ⊢
        obtain ⟨marks, enter⟩ := enterLine?_of_fits fit.1
        obtain ⟨out, marked, h⟩ := ih content.2 fit.2
        rw [enter]
        exact ⟨_, map_eq_ok.2 ⟨out, marked, rfl⟩, h.line content.1 enter⟩

/-- The layout fails at the first line that does not stand in place. -/
theorem layoutFrom_of_misplaced {source : List Char} {depth : Nat} {start : Bool} {ls : List Lexeme}
    {before : List Nat} (zero : 0 ∈ before) {pre post : List Lexeme} {l : Lexeme}
    (heads : headsFrom depth start ls = pre ++ l :: post)
    (fit : AllFit before (pre.map (indentation source)))
    (misplaced : ¬ Fits (before ++ pre.map (indentation source)) (indentation source l)) :
    layoutFrom source ⟨openAfter before, depth, start⟩ ls =
      .error (.inconsistentDedent (.empty l.span.start)) := by
  induction ls generalizing depth start before pre with
  | nil => simp [headsFrom] at heads
  | cons m ls ih =>
    obtain ⟨t, span⟩ := m
    by_cases newline : t = .newline
    · subst newline
      rw [layoutFrom_newline]
      rw [headsFrom_newline rfl] at heads
      split
      · rename_i ends
        obtain ⟨rfl, rfl⟩ := ends
        have failed := ih zero heads fit misplaced
        simp only [Bool.false_or, beq_self_eq_true] at failed
        rw [failed]
        rfl
      · rename_i ends
        rw [start_of_not_ends ends] at heads
        exact ih zero heads fit misplaced
    · cases start with
      | false =>
        rw [headsFrom_later newline] at heads
        rw [layoutFrom_later newline rfl, ih zero heads fit misplaced]
        rfl
      | true =>
        rw [headsFrom_first newline] at heads
        rw [layoutFrom_first newline rfl, columnAt_eq source ⟨t, span⟩]
        cases pre with
        | nil =>
          cases heads
          have none : enterLine? (openAfter before) (indentation source ⟨t, span⟩) = none := by
            refine Option.eq_none_iff_forall_ne_some.2 fun entered enter => misplaced ?_
            simpa using fits_of_enterLine? zero enter
          rw [none]
        | cons m pre =>
          obtain ⟨rfl, heads'⟩ := List.cons.inj heads
          obtain ⟨marks, enter⟩ := enterLine?_of_fits fit.1
          have failed := ih (by simp [zero]) heads' fit.2 (by simpa using misplaced)
          simp only [enter, failed]
          rfl

/-! ## §6 Places of lexemes -/

theorem isContent_of_scan {source : List Char} {ls : List Lexeme} (h : scan source = .ok ls) :
    ∀ l ∈ ls, l.IsContent := by
  refine scanFrom_tokens (P := fun t => t ≠ .indent ∧ t ≠ .dedent) ?_ h
  intro c cs t more front
  rcases Front.spells_of front with rfl | ⟨text, -⟩
  · simp
  · constructor <;> rintro rfl <;> simp [Token.text] at text

/-- The scan goes forward. -/
theorem scanFrom_forward {pos skip : Nat} {cs : List Char} {ls : List Lexeme}
    (h : scanFrom pos skip cs = .ok ls) :
    (∀ l ∈ ls, pos ≤ l.span.start) ∧ ls.Pairwise (fun l m => l.span.start < m.span.start) := by
  induction cs generalizing pos skip ls with
  | nil =>
    simp only [scanFrom] at h
    cases h
    simp
  | cons c cs ih =>
    have wide : 0 < c.utf8Size := c.utf8Size_pos
    have later {skip : Nat} {ls : List Lexeme} (h : scanFrom (pos + c.utf8Size) skip cs = .ok ls) :
        (∀ l ∈ ls, pos < l.span.start) ∧ ls.Pairwise (fun l m => l.span.start < m.span.start) := by
      obtain ⟨bound, sorted⟩ := ih h
      exact ⟨fun l hl => by have := bound l hl; omega, sorted⟩
    cases skip with
    | succ skip =>
      rw [scanFrom] at h
      exact ⟨fun l hl => ((later h).1 l hl).le, (later h).2⟩
    | zero =>
      rw [scanFrom] at h
      split at h
      · exact ⟨fun l hl => ((later h).1 l hl).le, (later h).2⟩
      · obtain ⟨rest, hrest, h⟩ := bind_eq_ok.1 h
        cases h
        obtain ⟨bound, sorted⟩ := later hrest
        exact ⟨List.forall_mem_cons.2 ⟨le_rfl, fun l hl => (bound l hl).le⟩,
          List.pairwise_cons.2 ⟨bound, sorted⟩⟩
      · cases h

theorem nodup_of_scan {source : List Char} {ls : List Lexeme} (h : scan source = .ok ls) :
    ls.Nodup :=
  (scanFrom_forward h).2.imp fun {l m} less same => by
    subst same
    exact Nat.lt_irrefl _ less

/-- The layout keeps the lexemes that are no marks, in their order. -/
theorem filter_layoutFrom {source : List Char} {s : LayoutState} {ls out : List Lexeme}
    (h : layoutFrom source s ls = .ok out) :
    out.filter (!·.token.isMark) = ls.filter (!·.token.isMark) := by
  induction ls generalizing s out with
  | nil =>
    refine List.filter_eq_nil_iff.2 fun l hl => ?_
    simpa using mem_of_mem_layoutFrom h l hl
  | cons l ls ih =>
    obtain ⟨t, span⟩ := l
    by_cases newline : t = .newline
    · subst newline
      rw [layoutFrom_newline] at h
      split at h
      · obtain ⟨marked, hm, rfl⟩ := map_eq_ok.1 h
        rw [List.filter_cons, List.filter_cons, ih hm]
      · rw [ih h]
        rfl
    · cases start : s.lineStart with
      | true =>
        rw [layoutFrom_first newline start] at h
        split at h
        · cases h
        · rename_i marks blocks enter
          obtain ⟨marked, hm, rfl⟩ := map_eq_ok.1 h
          have none : (marks.map fun t => (⟨t, .empty span.start⟩ : Lexeme)).filter
              (!·.token.isMark) = [] := by
            refine List.filter_eq_nil_iff.2 fun l hl => ?_
            obtain ⟨mark, hmark, rfl⟩ := List.mem_map.1 hl
            simpa using isMark_of_enterLine? enter mark hmark
          rw [List.filter_append, none, List.nil_append, List.filter_cons, List.filter_cons, ih hm]
      | false =>
        rw [layoutFrom_later newline start] at h
        obtain ⟨marked, hm, rfl⟩ := map_eq_ok.1 h
        rw [List.filter_cons, List.filter_cons, ih hm]

/-- A lexeme that is no mark stands at one place of the marked lexemes. -/
theorem place_unique {source : List Char} {raw out : List Lexeme} (scanned : scan source = .ok raw)
    (marked : layoutFrom source {} raw = .ok out) {l : Lexeme} (content : l.token.isMark = false)
    {front back front' back' : List Lexeme} (here : out = front ++ l :: back)
    (there : out = front' ++ l :: back') : front = front' := by
  have once : out.count l ≤ 1 := by
    rw [← List.count_filter (p := (!·.token.isMark)) (by simp [content]), filter_layoutFrom marked]
    exact (List.filter_sublist.count_le l).trans (List.nodup_iff_count_le_one.1 (nodup_of_scan scanned) l)
  rw [here, List.count_append, List.count_cons_self] at once
  have before : l ∉ front := List.count_eq_zero.1 (by omega)
  have behind : l ∉ back := List.count_eq_zero.1 (by omega)
  exact ((List.append_cons_inj_of_notMem before behind).1 (here.symm.trans there)).1

theorem isMark_of_mem_headsFrom {depth : Nat} {start : Bool} {ls : List Lexeme}
    (content : ∀ l ∈ ls, l.IsContent) : ∀ l ∈ headsFrom depth start ls, l.token.isMark = false := by
  induction ls generalizing depth start with
  | nil => simp [headsFrom]
  | cons l ls ih =>
    rw [List.forall_mem_cons] at content
    intro m hm
    rw [headsFrom] at hm
    split at hm
    · exact ih content.2 m hm
    · rename_i newline
      rcases List.mem_append.1 hm with hm | hm
      · obtain rfl : m = l := by
          cases start <;> simp_all
        obtain ⟨noIndent, noDedent⟩ := content.1
        cases token : m.token <;> simp_all [Token.isMark]
      · exact ih content.2 m hm

/-! ## §7 The offside rule -/

/-- The offside rule. A text can be cut into blocks exactly if its lines stand in place behind a
line of width 0, and otherwise the fault is at the first token of the first line that does not.
Before the first token of a line, as many blocks have been opened and not closed as the line is in.
-/
theorem offside_rule (source : List Char) (raw : List Lexeme) (scanned : scan source = .ok raw) :
    ((∃ out, lex source = .ok out) ↔ InPlace (0 :: (lineHeads raw).map (indentation source))) ∧
    ∀ pre l post, lineHeads raw = pre ++ l :: post →
      (InPlace (0 :: pre.map (indentation source)) →
        ¬ Fits (0 :: pre.map (indentation source)) (indentation source l) →
        lex source = .error (.inconsistentDedent (.empty l.span.start))) ∧
      ∀ out, lex source = .ok out →
        l ∈ out ∧ ∃ d, BlockDepth (0 :: pre.map (indentation source)) (indentation source l) d ∧
          ∀ front back, out = front ++ l :: back →
            (front.map (·.token)).count .indent = (front.map (·.token)).count .dedent + d := by
  have lexed : lex source = layoutFrom source ⟨openAfter [0], 0, true⟩ raw := by
    rw [lex, scanned]
    rfl
  have content := isContent_of_scan scanned
  rw [lineHeads_eq, lexed]
  have misplaced {pre post : List Lexeme} {l : Lexeme} (cut : headsFrom 0 true raw = pre ++ l :: post)
      (fit : AllFit [0] (pre.map (indentation source)))
      (not : ¬ Fits (0 :: pre.map (indentation source)) (indentation source l)) :
      layoutFrom source ⟨openAfter [0], 0, true⟩ raw =
        .error (.inconsistentDedent (.empty l.span.start)) :=
    layoutFrom_of_misplaced (by simp) cut fit not
  have allFit {out : List Lexeme} (ok : layoutFrom source ⟨openAfter [0], 0, true⟩ raw = .ok out) :
      AllFit [0] ((headsFrom 0 true raw).map (indentation source)) := by
    by_contra not
    obtain ⟨pre, l, post, cut, fit, not⟩ := exists_first_misplaced not
    rw [misplaced cut fit not] at ok
    cases ok
  refine ⟨?_, fun pre l post cut => ⟨?_, ?_⟩⟩
  · rw [inPlace_iff]
    exact ⟨fun ⟨out, ok⟩ => allFit ok, fun fit =>
      (layoutFrom_of_allFit content fit).imp fun _ h => h.1⟩
  · rw [inPlace_iff]
    exact misplaced cut
  · intro out ok
    obtain ⟨out', ok', marked⟩ := layoutFrom_of_allFit content (allFit ok)
    obtain rfl : out' = out := Except.ok.inj (ok'.symm.trans ok)
    obtain ⟨front, back, here, balance⟩ := marked pre l post cut
    obtain ⟨d, hd, length⟩ := exists_blockDepth (0 :: pre.map (indentation source))
      (indentation source l) (by simp)
    refine ⟨by simp [here], d, hd, fun front' back' there => ?_⟩
    have unmarked := isMark_of_mem_headsFrom content l (by rw [cut]; simp)
    obtain rfl := place_unique scanned ok unmarked here there
    rw [List.singleton_append, length] at balance
    have one : (openAfter [0]).length = 1 := rfl
    omega

/-- A line is indented by a tab, and the next one by two blanks. -/
def unaligned : List Char := "a\n\tb\n  c\n".toList

theorem offside_rule_unaligned :
    scan unaligned = .ok [⟨.name "a", ⟨0, 1⟩⟩, ⟨.newline, ⟨1, 2⟩⟩, ⟨.name "b", ⟨3, 4⟩⟩,
      ⟨.newline, ⟨4, 5⟩⟩, ⟨.name "c", ⟨7, 8⟩⟩, ⟨.newline, ⟨8, 9⟩⟩] ∧
    lex unaligned = .error (.inconsistentDedent ⟨7, 7⟩) := by
  have scanned : scan unaligned = .ok [⟨.name "a", ⟨0, 1⟩⟩, ⟨.newline, ⟨1, 2⟩⟩, ⟨.name "b", ⟨3, 4⟩⟩,
      ⟨.newline, ⟨4, 5⟩⟩, ⟨.name "c", ⟨7, 8⟩⟩, ⟨.newline, ⟨8, 9⟩⟩] := by decide +kernel
  refine ⟨scanned, ((offside_rule _ _ scanned).2 [⟨.name "a", ⟨0, 1⟩⟩, ⟨.name "b", ⟨3, 4⟩⟩]
    ⟨.name "c", ⟨7, 8⟩⟩ [] (by decide +kernel)).1 ?_ (by decide +kernel)⟩
  rw [inPlace_iff]
  decide +kernel

end Serpent
