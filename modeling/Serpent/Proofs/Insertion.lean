/-
Serpent.Proofs.Insertion — lines that mean nothing may be put into a text.

A lexeme ends at the end of a line at the latest, so a text can be cut behind any lexeme and a line
put in there: the scan finds the same lexemes before it and, further to the right, behind it. What
the layout makes of them depends on the columns of the lexemes that start logical lines, and these
stay as they are: behind a line that ends, columns are counted anew, and between parentheses no
logical line starts.

  §1 Lexemes and what stands behind them
  §2 Texts cut in two
  §3 Columns
  §4 The layout with more ends of lines
  §5 Lines that mean nothing
  §6 Programs
-/
import Serpent.Proofs.Joined
import Serpent.Proofs.Marks

namespace Serpent

open Fallible LayoutState

/-! ## §1 Lexemes and what stands behind them -/

section Lists

variable {α : Type} {p : α → Bool}

/-- What is taken from the front of a list, if it ends there, is taken without what follows. -/
theorem takeWhile_append_of_le {as bs : List α}
    (h : ((as ++ bs).takeWhile p).length ≤ as.length) :
    (as ++ bs).takeWhile p = as.takeWhile p := by
  rw [List.takeWhile_append] at h ⊢
  split
  · rename_i all
    rw [if_pos all, List.length_append] at h
    have whole : as.takeWhile p = as := (List.takeWhile_sublist p).eq_of_length all
    have nothing : bs.takeWhile p = [] := List.eq_nil_of_length_eq_zero (by omega)
    rw [nothing, List.append_nil, whole]
  · rfl

theorem dropWhile_append_of_le {as bs : List α}
    (h : ((as ++ bs).takeWhile p).length ≤ as.length) :
    (as ++ bs).dropWhile p = as.dropWhile p ++ bs := by
  have both : (as ++ bs).takeWhile p ++ (as ++ bs).dropWhile p =
      as.takeWhile p ++ (as.dropWhile p ++ bs) := by
    rw [List.takeWhile_append_dropWhile, ← List.append_assoc, List.takeWhile_append_dropWhile]
  rw [takeWhile_append_of_le h] at both
  exact List.append_cancel_left both

end Lists

namespace Front

variable {c d : Char} {cs ds : List Char}

theorem number_append (h : (number c (cs ++ ds)).more ≤ cs.length) :
    number c (cs ++ ds) = number c cs := by
  have few : ((cs ++ ds).takeWhile Char.isDigit).length ≤ cs.length := by
    simp only [number] at h
    split at h
    · simp only [more] at h
      omega
    · exact h
  simp only [number, takeWhile_append_of_le few, dropWhile_append_of_le few] at h ⊢
  have whole := congrArg List.length
    (List.takeWhile_append_dropWhile (p := Char.isDigit) (l := cs))
  rw [List.length_append] at whole
  cases left : cs.dropWhile Char.isDigit with
  | nil =>
    rw [left] at h whole
    cases ds with
    | nil => rfl
    | cons e es =>
      by_cases point : e = '.'
      · subst point
        simp [more] at h whole
        omega
      · simp [point]
  | cons e es =>
    rw [left] at h whole
    by_cases point : e = '.'
    · subst point
      simp only [List.cons_append, more, List.length_cons] at h whole ⊢
      rw [takeWhile_append_of_le (by omega)]
    · simp [point]

theorem symbol_append (h : (symbol c (cs ++ ds)).more ≤ cs.length) :
    symbol c (cs ++ ds) = symbol c cs := by
  cases cs with
  | nil =>
    unfold symbol at h ⊢
    split <;> first | rfl | simp_all [more]
  | cons e es => exact symbol_cons c e _ _

/-- What stands at the front of a text is found without what follows it. -/
theorem of_append (h : (of c (cs ++ ds)).more ≤ cs.length) : of c (cs ++ ds) = of c cs := by
  unfold of at h ⊢
  split
  · rfl
  · rename_i gap
    rw [if_neg gap] at h
    split
    · rename_i comment
      rw [if_pos comment] at h
      rw [takeWhile_append_of_le h]
    · rename_i comment
      rw [if_neg comment] at h
      split
      · rename_i digit
        rw [if_pos digit] at h
        exact number_append h
      · rename_i digit
        rw [if_neg digit] at h
        split
        · rename_i start
          rw [if_pos start] at h
          simp only [word, takeWhile_append_of_le h]
        · rename_i start
          rw [if_neg start] at h
          split at h
          · rename_i feed
            rcases cs with _ | ⟨e, es⟩
            · simp [more] at h
            · cases feed
              rfl
          · rename_i feed
            rcases cs with _ | ⟨e, _ | ⟨e', es⟩⟩
            · simp [more] at h
            · simp [more] at h
            · cases feed
              rfl
          · rfl
          · rename_i feed
            rcases cs with _ | ⟨e, es⟩
            · simp [more] at h
            · cases feed
              rfl
          · rename_i feed slash slash' return_
            rw [symbol_append h]
            split
            · exact (slash _ rfl rfl).elim
            · exact (slash' _ rfl rfl).elim
            · exact (feed rfl).elim
            · exact (return_ _ rfl rfl).elim
            · rfl

/-- What stands at the front of a text and ends there is also found before the end of a line. -/
theorem of_before_line_end (hd : isLineEnd d = true) {f : Front} (h : of c (cs ++ ds) = f)
    (known : f ≠ .nothing) (few : f.more ≤ cs.length) (rest : List Char) :
    of c (cs ++ d :: rest) = f := by
  subst h
  rw [of_append few] at known ⊢
  exact of_line_end hd known rest

end Front

/-! ## §2 Texts cut in two -/

/-- Where a span stands after `k` bytes have been put in at byte `n`. -/
def Span.shift (n k : Nat) (s : Span) : Span :=
  let far := if n ≤ s.start then k else 0
  ⟨s.start + far, s.stop + far⟩

theorem Span.shift_of_le {n : Nat} {s : Span} (h : n ≤ s.start) (k : Nat) :
    s.shift n k = ⟨s.start + k, s.stop + k⟩ := by
  simp only [shift, if_pos h]

theorem Span.shift_of_lt {n : Nat} {s : Span} (h : s.start < n) (k : Nat) : s.shift n k = s := by
  simp only [shift, if_neg (Nat.not_le.2 h)]
  rfl

/-- Where a lexeme stands after `k` bytes have been put in at byte `n`. -/
def Lexeme.shift (n k : Nat) (l : Lexeme) : Lexeme := ⟨l.token, l.span.shift n k⟩

namespace CutBefore

variable {behind : List Char} {pos : Nat} {text : List Char} {ls : List Lexeme}

theorem scanFrom_eq (h : CutBefore [] pos text ls) : scanFrom pos 0 text = .ok ls := by
  induction h with
  | nil => rfl
  | gap front more ih =>
    rw [List.append_nil] at front
    rw [List.cons_append, scanFrom, front]
    simp only [scanFrom_skip _ (List.length _), List.take_left, List.drop_left]
    rw [Nat.add_assoc, ← utf8Length_cons, ih]
  | token front more ih =>
    rw [List.append_nil] at front
    rw [List.cons_append, scanFrom, front]
    simp only [scanFrom_skip _ (List.length _), List.take_left, List.drop_left]
    rw [Nat.add_assoc, ← utf8Length_cons, ih]
    rfl

theorem append {u v : List Char} {ms : List Lexeme} (h : CutBefore (v ++ behind) pos u ls)
    (h' : CutBefore behind (pos + utf8Length u) v ms) :
    CutBefore behind pos (u ++ v) (ls ++ ms) := by
  induction h with
  | nil => exact h'
  | gap front more ih =>
    rw [List.append_assoc]
    refine .gap ?_ (ih ?_)
    · simpa using front
    · simpa [Nat.add_assoc] using h'
  | token front more ih =>
    rw [List.append_assoc]
    refine .token ?_ (ih ?_)
    · simpa using front
    · simpa [Nat.add_assoc] using h'

/-- A text is cut the same way before the end of a line. -/
theorem before_line_end (h : CutBefore behind pos text ls) {d : Char} (hd : isLineEnd d = true)
    (rest : List Char) : CutBefore (d :: rest) pos text ls := by
  induction h with
  | nil => exact .nil
  | gap front more ih =>
    exact .gap (Front.of_before_line_end hd front (by simp) (by simp [Front.more]) rest) ih
  | token front more ih =>
    exact .token (Front.of_before_line_end hd front (by simp) (by simp [Front.more]) rest) ih

/-- A text is cut the same way further to the right. -/
theorem shift {n : Nat} (h : CutBefore behind pos text ls) (le : n ≤ pos) (k : Nat) :
    CutBefore behind (pos + k) text (ls.map (·.shift n k)) := by
  induction h with
  | nil => exact .nil
  | gap front more ih =>
    refine .gap front ?_
    rw [Nat.add_right_comm]
    exact ih (by omega)
  | token front more ih =>
    rw [List.map_cons, Lexeme.shift, Span.shift_of_le le, Nat.add_right_comm]
    refine .token front ?_
    rw [Nat.add_right_comm]
    exact ih (by omega)

/-- A text can be cut before and behind each of its lexemes. -/
theorem exists_cut {front back : List Lexeme} {l : Lexeme}
    (h : CutBefore behind pos text (front ++ l :: back)) :
    ∃ u w v, text = u ++ (w ++ v) ∧ IsLexeme w l.token ∧
      l.span = ⟨pos + utf8Length u, pos + utf8Length (u ++ w)⟩ ∧
      CutBefore (w ++ v ++ behind) pos u front ∧
      CutBefore (v ++ behind) (pos + utf8Length u) w [l] ∧
      CutBefore behind (pos + utf8Length (u ++ w)) v back := by
  generalize lexemes : front ++ l :: back = ls at h
  induction h generalizing front with
  | nil => simp at lexemes
  | @gap pos c w₀ rest ls gap more ih =>
    obtain ⟨u, w, v, rfl, isLexeme, span, first, single, last⟩ := ih lexemes
    refine ⟨c :: w₀ ++ u, w, v, by simp, isLexeme, ?_, .gap (by simpa using gap) first, ?_, ?_⟩
    · simpa [Nat.add_assoc] using span
    · simpa [Nat.add_assoc] using single
    · simpa [Nat.add_assoc] using last
  | @token pos c w₀ rest t ls token more ih =>
    cases front with
    | nil =>
      cases lexemes
      have isLexeme := Front.isLexeme_of token
      rw [List.append_assoc, List.take_left] at isLexeme
      refine ⟨[], c :: w₀, rest, rfl, isLexeme, rfl, .nil, ?_, more⟩
      have single : CutBefore (rest ++ behind) pos (c :: w₀ ++ []) _ :=
        .token (by simpa using token) .nil
      simpa using single
    | cons f front =>
      cases lexemes
      obtain ⟨u, w, v, rfl, isLexeme, span, first, single, last⟩ := ih rfl
      have whole : CutBefore _ pos (c :: w₀ ++ u) _ := .token (by simpa using token) first
      refine ⟨c :: w₀ ++ u, w, v, by simp, isLexeme, ?_, whole, ?_, ?_⟩
      · simpa [Nat.add_assoc] using span
      · simpa [Nat.add_assoc] using single
      · simpa [Nat.add_assoc] using last

/-- Every lexeme starts at a character of the text and ends in it. -/
theorem exists_before (h : CutBefore behind pos text ls) :
    ∀ l ∈ ls, ∃ p c q, text = p ++ c :: q ∧ l.span.start = pos + utf8Length p ∧
      l.span.stop ≤ pos + utf8Length text := by
  induction h with
  | nil => simp
  | @gap pos c w rest ls front more ih =>
    intro l hl
    obtain ⟨p, d, q, rfl, start, stop⟩ := ih l hl
    refine ⟨c :: w ++ p, d, q, by simp, by simpa [Nat.add_assoc] using start, ?_⟩
    simpa [Nat.add_assoc] using stop
  | @token pos c w rest t ls front more ih =>
    intro l hl
    rcases List.mem_cons.1 hl with rfl | hl
    · exact ⟨[], c, w ++ rest, rfl, rfl, by simp⟩
    · obtain ⟨p, d, q, rfl, start, stop⟩ := ih l hl
      refine ⟨c :: w ++ p, d, q, by simp, by simpa [Nat.add_assoc] using start, ?_⟩
      simpa [Nat.add_assoc] using stop

end CutBefore

/-! ## §3 Columns -/

theorem columnAt_append (before behind : List Char) :
    columnAt (before ++ behind) (utf8Length before) = before.foldl nextColumn 0 := by
  rw [columnAt, takeBytes?_append, Option.getD_some]

/-- Behind the end of a line, columns are counted anew. -/
theorem foldl_nextColumn_of_mem {cs : List Char} (h : '\n' ∈ cs) (a b : Nat) :
    cs.foldl nextColumn a = cs.foldl nextColumn b := by
  induction cs generalizing a b with
  | nil => cases h
  | cons c cs ih =>
    rcases List.mem_cons.1 h with rfl | h
    · rfl
    · exact ih h _ _

section

variable {before new behind : List Char}

/-- The lexeme of a text stands in the same column after something new has been put in. -/
def Lexeme.Aligned (before new behind : List Char) (l : Lexeme) : Prop :=
  columnAt (before ++ new ++ behind)
      (l.span.shift (utf8Length before) (utf8Length new)).start =
    columnAt (before ++ behind) l.span.start

/-- Lexemes before what is put in stay where they are. -/
theorem shift_eq_self {rest : List Char} {ls : List Lexeme} (h : CutBefore rest 0 before ls)
    (k : Nat) : ∀ l ∈ ls, l.shift (utf8Length before) k = l := by
  intro l hl
  obtain ⟨p, c, q, rfl, start, -⟩ := h.exists_before l hl
  have pos := c.utf8Size_pos
  rw [Nat.zero_add] at start
  rw [Lexeme.shift, Span.shift_of_lt]
  simp only [start, utf8Length_append, utf8Length_cons]
  omega

theorem aligned_before {rest : List Char} {ls : List Lexeme} (h : CutBefore rest 0 before ls)
    (new behind : List Char) : ∀ l ∈ ls, l.Aligned before new behind := by
  intro l hl
  have same := congrArg Lexeme.span (shift_eq_self h (utf8Length new) l hl)
  simp only [Lexeme.shift] at same
  obtain ⟨p, c, q, rfl, start, -⟩ := h.exists_before l hl
  rw [Lexeme.Aligned, same, start, Nat.zero_add]
  simp only [List.append_assoc, columnAt_append]

/-- Lexemes behind what is put in stay in their columns, if columns are counted there as before. -/
theorem aligned_behind {l : Lexeme} {p q : List Char}
    (start : l.span.start = utf8Length before + utf8Length p)
    (columns : p.foldl nextColumn ((before ++ new).foldl nextColumn 0) =
      p.foldl nextColumn (before.foldl nextColumn 0)) :
    l.Aligned before new (p ++ q) := by
  have shifted : (l.span.shift (utf8Length before) (utf8Length new)).start =
      utf8Length (before ++ new ++ p) := by
    rw [Span.shift_of_le (by omega), start]
    simp only [utf8Length_append]
    omega
  rw [Lexeme.Aligned, shifted, start, ← utf8Length_append, ← List.append_assoc _ p q,
    ← List.append_assoc _ p q, columnAt_append, columnAt_append, List.foldl_append, columns,
    ← List.foldl_append]

theorem aligned_of_columns {ls : List Lexeme} (h : CutBefore [] (utf8Length before) behind ls)
    (columns : (before ++ new).foldl nextColumn 0 = before.foldl nextColumn 0) :
    ∀ l ∈ ls, l.Aligned before new behind := by
  intro l hl
  obtain ⟨p, c, q, rfl, start, -⟩ := h.exists_before l hl
  exact aligned_behind start (by rw [columns])

theorem mem_of_isLexeme_newline {w : List Char} (h : IsLexeme w .newline) : '\n' ∈ w := by
  cases h <;> simp

/-- Whatever is put in, lexemes behind the next end of a line stay in their columns. -/
theorem aligned_after_line {p q : List Char} {ls : List Lexeme}
    (h : CutBefore [] (utf8Length before + utf8Length p) q ls) :
    ls.Pairwise fun l m => l.token = .newline → m.Aligned before new (p ++ q) := by
  generalize place : utf8Length before + utf8Length p = pos at h
  induction h generalizing p with
  | nil => exact .nil
  | @gap pos c w rest ls front more ih =>
    have again := @ih (p ++ c :: w) (by simp; omega)
    rwa [List.append_assoc] at again
  | @token pos c w rest t ls front more ih =>
    have again := @ih (p ++ c :: w) (by simp; omega)
    rw [List.append_assoc] at again
    refine List.pairwise_cons.2 ⟨fun m hm newline => ?_, again⟩
    obtain ⟨p', d, q', rfl, start, -⟩ := more.exists_before m hm
    have isLexeme := Front.isLexeme_of front
    rw [List.append_nil, List.take_left, show t = .newline from newline] at isLexeme
    have line : '\n' ∈ p ++ (c :: w) ++ p' :=
      List.mem_append_left p' (List.mem_append_right p (mem_of_isLexeme_newline isLexeme))
    have aligned : m.Aligned before new (p ++ (c :: w) ++ p' ++ d :: q') :=
      aligned_behind (by simp only [utf8Length_append]; omega) (foldl_nextColumn_of_mem line _ _)
    simpa using aligned

/-! ## §4 The layout with more ends of lines -/

/-- Whether a line has no token yet, after a token with `d` parentheses open before it. -/
def startAfter (d : Nat) (start : Bool) : Token → Bool
  | .newline => start || d == 0
  | _ => false

theorem startAfter_token {t : Token} (h : t ≠ .newline) (d : Nat) (start : Bool) :
    startAfter d start t = false := by
  cases t with
  | newline => exact absurd rfl h
  | _ => rfl

/-- Whether a line has no token yet after some tokens. -/
def startsLine : (d : Nat) → (start : Bool) → List Token → Bool
  | _, start, [] => start
  | d, start, t :: ts => startsLine (depthAfter d t) (startAfter d start t) ts

/-- The lexemes of a text are those of another, moved, with ends of lines between them where these
mean nothing. Only a lexeme that starts a line has to stay in its column. -/
inductive Redrawn (before new behind : List Char) :
    (d : Nat) → (start : Bool) → List Lexeme → List Lexeme → Prop
  | nil {d : Nat} {start : Bool} : Redrawn before new behind d start [] []
  | lexeme {d : Nat} {start : Bool} {l : Lexeme} {ls ls' : List Lexeme}
      (column : start = true → l.Aligned before new behind)
      (more : Redrawn before new behind (depthAfter d l.token) (startAfter d start l.token)
        ls ls') :
      Redrawn before new behind d start (l :: ls)
        (l.shift (utf8Length before) (utf8Length new) :: ls')
  | added {d : Nat} {start : Bool} {span : Span} {ls ls' : List Lexeme}
      (inside : ¬ (d = 0 ∧ start = false)) (more : Redrawn before new behind d start ls ls') :
      Redrawn before new behind d start ls (⟨.newline, span⟩ :: ls')

theorem Lexeme.shift_marks (marks : List Token) (n k a : Nat) :
    (marks.map fun t => (⟨t, .empty a⟩ : Lexeme)).map (Lexeme.shift n k) =
      marks.map (⟨·, .empty (a + if n ≤ a then k else 0)⟩) :=
  List.map_map

/-- The lexemes are laid out the same way, and the marks move with them. -/
theorem Redrawn.laidOut {d : Nat} {start : Bool} {ls ls' : List Lexeme}
    (h : Redrawn before new behind d start ls ls') {blocks : List Nat} {out : List Lexeme}
    (laid : LaidOut (before ++ behind) ⟨blocks, d, start⟩ ls out) :
    LaidOut (before ++ new ++ behind) ⟨blocks, d, start⟩ ls'
      (out.map (·.shift (utf8Length before) (utf8Length new))) := by
  induction h generalizing blocks out with
  | nil =>
    cases laid with
    | finished =>
      have last : utf8Length (before ++ behind) + utf8Length new =
          utf8Length (before ++ new ++ behind) := by
        simp only [utf8Length_append]
        omega
      rw [Lexeme.shift_marks, if_pos (by simp), last]
      exact .finished
  | added inside more ih => exact .passed inside (ih laid)
  | @lexeme d start l ls ls' column more ih =>
    cases laid with
    | lineEnd more' => exact .lineEnd (ih more')
    | @passed _ span _ _ inside more' =>
      have same : startAfter d start .newline = start := by
        cases start with
        | true => rfl
        | false => simpa [startAfter] using inside
      have again := @ih blocks out (by rw [same]; exact more')
      rw [same] at again
      exact .passed inside again
    | @first _ _ _ t span marks _ out noEnd enter more' =>
      have again := @ih _ out (by rw [startAfter_token noEnd]; exact more')
      rw [startAfter_token noEnd] at again
      rw [List.map_append, Lexeme.shift_marks, List.map_cons]
      refine .first noEnd ?_ again
      rw [← enter]
      exact congrArg _ (column rfl)
    | later noEnd more' =>
      have again := @ih blocks _ (by rw [startAfter_token noEnd]; exact more')
      rw [startAfter_token noEnd] at again
      exact .later noEnd again

theorem Redrawn.of_aligned {ls : List Lexeme} (h : ∀ l ∈ ls, l.Aligned before new behind) (d : Nat)
    (start : Bool) : Redrawn before new behind d start ls
      (ls.map (·.shift (utf8Length before) (utf8Length new))) := by
  induction ls generalizing d start with
  | nil => exact .nil
  | cons l ls ih =>
    rw [List.forall_mem_cons] at h
    exact .lexeme (fun _ => h.1) (ih h.2 _ _)

/-- Inside of a line, only lexemes behind its end have to stay in their columns. -/
theorem Redrawn.of_aligned_after_line {ls : List Lexeme}
    (h : ls.Pairwise fun l m => l.token = .newline → m.Aligned before new behind) (d : Nat) :
    Redrawn before new behind d false ls
      (ls.map (·.shift (utf8Length before) (utf8Length new))) := by
  induction ls generalizing d with
  | nil => exact .nil
  | cons l ls ih =>
    obtain ⟨first, rest⟩ := List.pairwise_cons.1 h
    refine .lexeme (by simp) ?_
    by_cases newline : l.token = .newline
    · exact .of_aligned (fun m hm => first m hm newline) _ _
    · rw [startAfter_token newline]
      exact ih rest _

/-- Lexemes before what is put in stay as they are. -/
theorem Redrawn.append {front back ls' : List Lexeme} {d : Nat} {start : Bool}
    (same : ∀ l ∈ front, l.shift (utf8Length before) (utf8Length new) = l)
    (aligned : ∀ l ∈ front, l.Aligned before new behind)
    (more : Redrawn before new behind ((front.map (·.token)).foldl depthAfter d)
      (startsLine d start (front.map (·.token))) back ls') :
    Redrawn before new behind d start (front ++ back) (front ++ ls') := by
  induction front generalizing d start with
  | nil => exact more
  | cons l front ih =>
    rw [List.forall_mem_cons] at same aligned
    have first := Redrawn.lexeme (fun _ => aligned.1) (ih same.2 aligned.2 more)
    rwa [same.1] at first

/-- Behind an end of line, another one means nothing. -/
theorem inside_of_newline (d : Nat) (start : Bool) (ts : List Token) :
    ¬ ((ts ++ [Token.newline]).foldl depthAfter d = 0 ∧
      startsLine d start (ts ++ [Token.newline]) = false) := by
  induction ts generalizing d start with
  | nil =>
    rintro ⟨rfl, starts⟩
    simp [startsLine, startAfter] at starts
  | cons t ts ih => exact ih _ _

/-- Where parentheses are open, no line starts. -/
theorem depth_of_startsLine {d : Nat} {start : Bool} (h : start = true → d = 0) {ts : List Token}
    (starts : startsLine d start ts = true) : ts.foldl depthAfter d = 0 := by
  induction ts generalizing d start with
  | nil => exact h starts
  | cons t ts ih =>
    refine ih (fun first => ?_) starts
    by_cases newline : t = .newline
    · subst newline
      rcases Bool.or_eq_true_iff.1 first with first | zero
      · exact h first
      · exact beq_iff_eq.1 zero
    · rw [startAfter_token newline] at first
      cases first

end

/-! ## §5 Lines that mean nothing -/

/-- A line of blanks, which may end with a comment. -/
inductive IsBlankLine : List Char → Prop
  | blank {gaps nl : List Char} (h : ∀ c ∈ gaps, isGap c = true) (ends : IsLexeme nl .newline) :
      IsBlankLine (gaps ++ nl)
  | comment {gaps cs nl : List Char} (h : ∀ c ∈ gaps, isGap c = true)
      (inLine : ∀ c ∈ cs, isLineEnd c = false) (ends : IsLexeme nl .newline) :
      IsBlankLine (gaps ++ '#' :: cs ++ nl)

/-- What may be put between the text `before` and the text `behind` and means nothing there: a blank
line where a line starts, and between parentheses an end of line with blanks. -/
inductive Inserts : (before new behind : List Char) → Prop
  | start {line behind : List Char} (blank : IsBlankLine line) : Inserts [] line behind
  | line {before line behind : List Char} {front back : List Lexeme} {l : Lexeme}
      (scanned : scan (before ++ behind) = .ok (front ++ l :: back)) (newline : l.token = .newline)
      (ends : l.span.stop = utf8Length before) (blank : IsBlankLine line) :
      Inserts before line behind
  | fold {before nl gaps behind : List Char} {front back : List Lexeme} {l : Lexeme}
      (scanned : scan (before ++ behind) = .ok (front ++ l :: back))
      (ends : l.span.stop = utf8Length before)
      (inside : 0 < ((front ++ [l]).map (·.token)).foldl depthAfter 0)
      (newline : IsLexeme nl .newline) (blanks : ∀ c ∈ gaps, isGap c = true) :
      Inserts before (nl ++ gaps) behind

section

variable {before new behind : List Char} {pos : Nat}

theorem cutBefore_gaps {gaps : List Char} (h : ∀ c ∈ gaps, isGap c = true) :
    CutBefore behind pos gaps [] := by
  induction gaps generalizing pos with
  | nil => exact .nil
  | cons c gaps ih =>
    rw [List.forall_mem_cons] at h
    refine .gap (w := []) ?_ (ih h.2)
    simp [Front.of, h.1]

theorem cutBefore_newline {w : List Char} (h : IsLexeme w .newline) :
    CutBefore behind pos w [⟨.newline, pos, pos + utf8Length w⟩] := by
  cases h with
  | lineFeed => exact .token (w := []) rfl .nil
  | carriageReturn => exact .token (w := ['\n']) rfl .nil

theorem cutBefore_comment {cs : List Char} (h : ∀ c ∈ cs, isLineEnd c = false) {d : Char}
    (hd : isLineEnd d = true) : CutBefore (d :: behind) pos ('#' :: cs) [] := by
  have all : ∀ c ∈ cs, (!isLineEnd c) = true := by simpa using h
  have comment : Front.of '#' (cs ++ [] ++ d :: behind) = .gap cs.length := by
    rw [List.append_nil]
    show Front.gap (List.takeWhile _ _).length = _
    rw [List.takeWhile_append_of_pos all, List.takeWhile_cons_of_neg (by simp [hd]),
      List.append_nil]
  have cut : CutBefore (d :: behind) pos ('#' :: cs ++ []) [] := .gap comment .nil
  rwa [List.append_nil] at cut

theorem exists_line_end {w : List Char} (h : IsLexeme w .newline) :
    ∃ d v, w = d :: v ∧ isLineEnd d = true := by
  cases h with
  | lineFeed => exact ⟨'\n', [], rfl, rfl⟩
  | carriageReturn => exact ⟨'\r', ['\n'], rfl, rfl⟩

/-- A blank line has no lexeme but its end. -/
theorem IsBlankLine.cutBefore {line : List Char} (h : IsBlankLine line) (behind : List Char)
    (pos : Nat) : ∃ span, CutBefore behind pos line [⟨.newline, span⟩] := by
  cases h with
  | blank h ends => exact ⟨_, (cutBefore_gaps h).append (cutBefore_newline ends)⟩
  | comment h inLine ends =>
    obtain ⟨d, v, rfl, hd⟩ := exists_line_end ends
    have text : CutBefore (d :: (v ++ behind)) pos _ ([] ++ []) :=
      (cutBefore_gaps h).append (cutBefore_comment inLine hd)
    exact ⟨_, text.append (cutBefore_newline ends)⟩

theorem foldl_nextColumn_newline {w : List Char} (h : IsLexeme w .newline) (a : Nat) :
    w.foldl nextColumn a = 0 := by
  cases h <;> rfl

theorem IsBlankLine.foldl_nextColumn {line : List Char} (h : IsBlankLine line) (a : Nat) :
    line.foldl nextColumn a = 0 := by
  cases h with
  | blank h ends => rw [List.foldl_append, foldl_nextColumn_newline ends]
  | comment h inLine ends => rw [List.foldl_append, foldl_nextColumn_newline ends]

/-- An end of line, maybe with blanks around it, is put in between lexemes. -/
theorem redrawn_of_cutBefore {front back : List Lexeme} {span : Span}
    (first : CutBefore (new ++ behind) 0 before front)
    (line : CutBefore behind (utf8Length before) new [⟨.newline, span⟩])
    (last : CutBefore [] (utf8Length before) behind back)
    (inside : ¬ ((front.map (·.token)).foldl depthAfter 0 = 0 ∧
      startsLine 0 true (front.map (·.token)) = false))
    (redrawn : Redrawn before new behind ((front.map (·.token)).foldl depthAfter 0)
      (startsLine 0 true (front.map (·.token))) back
      (back.map (·.shift (utf8Length before) (utf8Length new)))) :
    ∃ raw', scan (before ++ new ++ behind) = .ok raw' ∧
      Redrawn before new behind 0 true (front ++ back) raw' := by
  have shifted := last.shift (Nat.le_refl _) (utf8Length new)
  have rest : CutBefore [] (utf8Length before) (new ++ behind) _ :=
    CutBefore.append (by simpa using line) shifted
  have whole : CutBefore [] 0 (before ++ (new ++ behind)) _ :=
    CutBefore.append (by simpa using first) (by simpa using rest)
  rw [← List.append_assoc] at whole
  exact ⟨_, whole.scanFrom_eq,
    .append (shift_eq_self first _) (aligned_before first new behind) (.added inside redrawn)⟩

theorem append_inj_of_utf8Length {as bs cs ds : List Char} (h : as ++ bs = cs ++ ds)
    (length : utf8Length as = utf8Length cs) : as = cs ∧ bs = ds := by
  obtain ⟨es, rfl, rfl⟩ := append_eq_append_of_le h (Nat.le_of_eq length)
  cases es with
  | nil => exact ⟨(List.append_nil as).symm, rfl⟩
  | cons c es =>
    have pos := c.utf8Size_pos
    rw [utf8Length_append, utf8Length_cons] at length
    omega

/-- A text can be cut where a lexeme ends. -/
theorem exists_cutBefore {front back : List Lexeme} {l : Lexeme}
    (scanned : scan (before ++ behind) = .ok (front ++ l :: back))
    (ends : l.span.stop = utf8Length before) :
    ∃ u w, before = u ++ w ∧ IsLexeme w l.token ∧
      l.span = ⟨utf8Length u, utf8Length u + utf8Length w⟩ ∧
      CutBefore (w ++ behind) 0 u front ∧ CutBefore behind (0 + utf8Length u) w [l] ∧
      CutBefore [] (utf8Length before) behind back := by
  obtain ⟨u, w, v, cut, isLexeme, span, first, single, last⟩ :=
    (cutBefore_of_scanFrom scanned).exists_cut
  simp only [Nat.zero_add] at span last
  rw [span] at ends
  rw [← List.append_assoc] at cut
  obtain ⟨rfl, rfl⟩ := append_inj_of_utf8Length cut ends.symm
  rw [List.append_nil] at first single
  exact ⟨u, w, rfl, isLexeme, by rw [span, utf8Length_append], first, single, last⟩

/-- What may be put in means nothing to the layout. -/
theorem Inserts.redrawn (h : Inserts before new behind) {raw : List Lexeme}
    (scanned : scan (before ++ behind) = .ok raw) :
    ∃ front back raw', raw = front ++ back ∧ CutBefore behind 0 before front ∧
      CutBefore [] (utf8Length before) behind back ∧
      scan (before ++ new ++ behind) = .ok raw' ∧ Redrawn before new behind 0 true raw raw' := by
  cases h with
  | start blank =>
    obtain ⟨span, line⟩ := blank.cutBefore behind 0
    have last : CutBefore [] (utf8Length []) behind raw := cutBefore_of_scanFrom scanned
    have aligned := aligned_of_columns last (blank.foldl_nextColumn 0)
    obtain ⟨raw', scanned', redrawn⟩ :=
      redrawn_of_cutBefore .nil line last (by simp [startsLine]) (.of_aligned aligned 0 true)
    exact ⟨[], raw, raw', rfl, .nil, last, scanned', redrawn⟩
  | @line _ _ _ front back l scanned₀ newline ends blank =>
    cases scanned.symm.trans scanned₀
    obtain ⟨u, w, rfl, isLexeme, span, first, single, last⟩ := exists_cutBefore scanned ends
    obtain ⟨span', line⟩ := blank.cutBefore behind (utf8Length (u ++ w))
    obtain ⟨t, s⟩ := l
    obtain rfl : t = .newline := newline
    obtain rfl : s = _ := span
    obtain ⟨d, v, rfl, hd⟩ := exists_line_end isLexeme
    have columns : (u ++ d :: v ++ new).foldl nextColumn 0 = (u ++ d :: v).foldl nextColumn 0 := by
      rw [List.foldl_append, blank.foldl_nextColumn, List.foldl_append,
        foldl_nextColumn_newline isLexeme]
    have aligned := aligned_of_columns last columns
    have first' : CutBefore (new ++ behind) 0 (u ++ d :: v) _ :=
      (first.before_line_end hd (v ++ (new ++ behind))).append (cutBefore_newline isLexeme)
    rw [Nat.zero_add] at first'
    have inside := inside_of_newline 0 true (front.map (·.token))
    obtain ⟨raw', scanned', redrawn⟩ := redrawn_of_cutBefore first' line last
      (by simpa using inside) (.of_aligned aligned _ _)
    exact ⟨_, back, raw', by simp, first.append single, last, scanned', by simpa using redrawn⟩
  | @fold _ nl gaps _ front back l scanned₀ ends inside newline blanks =>
    cases scanned.symm.trans scanned₀
    obtain ⟨u, w, rfl, isLexeme, span, first, single, last⟩ := exists_cutBefore scanned ends
    obtain ⟨d, v, rfl, hd⟩ := exists_line_end newline
    have first' := (first.append single).before_line_end hd (v ++ gaps ++ behind)
    have line : CutBefore behind (utf8Length (u ++ w)) (d :: v ++ gaps) _ :=
      (cutBefore_newline newline).append (cutBefore_gaps blanks)
    have inLine : startsLine 0 true ((front ++ [l]).map (·.token)) = false := by
      refine Bool.eq_false_iff.2 fun starts => Nat.ne_of_gt inside ?_
      exact depth_of_startsLine (fun _ => rfl) starts
    have aligned := @aligned_after_line (u ++ w) (d :: v ++ gaps) [] behind back last
    obtain ⟨raw', scanned', redrawn⟩ := redrawn_of_cutBefore first' line last
      (by omega) (by rw [inLine]; exact .of_aligned_after_line aligned _)
    exact ⟨_, back, raw', by simp, first.append single, last, scanned', by simpa using redrawn⟩

/-- A span that lies before or behind what is put in still covers the same text. -/
theorem Span.Within.slice?_shift {s : Span} (h : s.Within (before ++ behind))
    (apart : s.stop ≤ utf8Length before ∨ utf8Length before ≤ s.start) (new : List Char) :
    ∃ text, s.slice? (before ++ behind) = some text ∧
      (s.shift (utf8Length before) (utf8Length new)).slice? (before ++ new ++ behind) =
        some text := by
  obtain ⟨p, text, q, cut, rfl⟩ := h.exists_parts
  refine ⟨text, by rw [cut, slice?_append], ?_⟩
  by_cases far : utf8Length before ≤ utf8Length p
  · rw [List.append_assoc] at cut
    obtain ⟨r, rfl, rfl⟩ := append_eq_append_of_le cut far
    rw [shift_of_le far]
    have moved := slice?_append (before ++ new ++ r) text q
    have length : utf8Length (before ++ r) + utf8Length new = utf8Length (before ++ new ++ r) := by
      simp only [utf8Length_append]
      omega
    rw [← length] at moved
    rw [Nat.add_right_comm]
    simpa using moved
  · have near : utf8Length (p ++ text) ≤ utf8Length before := by
      rw [utf8Length_append]
      exact apart.resolve_right far
    obtain ⟨r, rfl, rfl⟩ := append_eq_append_of_le cut.symm near
    rw [shift_of_lt (Nat.not_le.1 far)]
    simpa using slice?_append p text (r ++ new ++ behind)

/-- A text in which something has been put that means nothing has the same lexemes, moved. -/
theorem Inserts.lex_eq (h : Inserts before new behind) {ls : List Lexeme}
    (lexed : lex (before ++ behind) = .ok ls) :
    lex (before ++ new ++ behind) =
        .ok (ls.map (·.shift (utf8Length before) (utf8Length new))) ∧
      ∀ l ∈ ls, l.span.stop ≤ utf8Length before ∨ utf8Length before ≤ l.span.start := by
  obtain ⟨raw, scanned, laid⟩ := bind_eq_ok.1 lexed
  obtain ⟨front, back, raw', rfl, first, last, scanned', redrawn⟩ := h.redrawn scanned
  have laidOut := laidOut_of_layoutFrom laid
  refine ⟨?_, fun l hl => ?_⟩
  · rw [lex, scanned', ok_bind]
    exact (redrawn.laidOut laidOut).layoutFrom_eq
  · rcases laidOut.mem l hl with hl | ⟨n, -, place⟩
    · rcases List.mem_append.1 hl with hl | hl
      · obtain ⟨p, c, q, -, -, stop⟩ := first.exists_before l hl
        exact .inl (by simpa using stop)
      · obtain ⟨p, c, q, -, start, -⟩ := last.exists_before l hl
        exact .inr (by omega)
    · rw [place]
      exact Nat.le_total n _

end

/-! ## §6 Programs -/

/-- Parts with the same words are read as the same program. -/
theorem SourceTree.same_programOf {tree tree' : SourceTree} {ts : List Token}
    (rereads : Rereads tree tree' ts 0) {ns : List Node} (shapes : ∀ n ∈ ns, Node.IsStmt ts n) :
    Same (tree.programOf ns) (tree'.programOf ns) := by
  have still (ms : List Node) : ms.map (Node.move 0) = ms := by
    rw [← Node.moveAll_eq_map, Node.moveAll_zero]
  have defs : Same ((ns.takeWhile isDefinition).mapM tree.definition)
      ((ns.takeWhile isDefinition).mapM tree'.definition) := by
    rw [← still (ns.takeWhile isDefinition)]
    nth_rewrite 1 [still]
    exact same_mapM fun n hn => same_definition rereads (shapes n (List.takeWhile_subset _ hn))
      (List.all_eq_true.1 List.all_takeWhile n hn)
  have stmts : Same (tree.statements .topLevel (ns.dropWhile isDefinition))
      (tree'.statements .topLevel (ns.dropWhile isDefinition)) := by
    rw [← still (ns.dropWhile isDefinition)]
    nth_rewrite 1 [still]
    exact same_statements fun n hn =>
      same_statement rereads (shapes n (List.dropWhile_subset _ hn))
  exact defs.bind fun _ => stmts.bind fun _ => .rfl

/-- The same tokens are read as the same program. -/
theorem Program.same_parse {source source' : String} {ls ls' : List Lexeme}
    (lexed : lex source.toList = .ok ls) (lexed' : lex source'.toList = .ok ls')
    (tokens : ls'.map (·.token) = ls.map (·.token)) :
    SourceTree.Same (parse source) (parse source') := by
  cases read : Node.ofTokens (ls.map (·.token)) with
  | error i =>
    have refused {source : String} {ls : List Lexeme} (lexed : lex source.toList = .ok ls)
        (read : Node.ofTokens (ls.map (·.token)) = .error i) :
        (parse source).toOption = none := by
      rw [parse, lexed]
      show ((SourceTree.ofLexemes source.toList ls).mapError ParseError.grammar >>= _).toOption = _
      simp only [SourceTree.ofLexemes, read]
      rfl
    exact (refused lexed read).trans (refused lexed' (tokens ▸ read)).symm
  | ok root =>
    rw [parse_eq lexed read, parse_eq lexed' (tokens ▸ read)]
    refine SourceTree.same_programOf (SourceTree.rereads_of_spells
      (SourceTree.spells_of_lex lexed root) (SourceTree.spells_of_lex lexed' root) ?_)
      (Node.isStmt_of_ofTokens read)
    intro i t at_index
    rwa [tokens]

/-- Lines that mean nothing may be put into a text, and between parentheses lines may be broken:
the text has the same tokens with the same texts, and is read as the same program or refused as
before. -/
theorem Program.insignificant_lines (before new behind : List Char) (ls : List Lexeme)
    (lexed : lex (before ++ behind) = .ok ls) (inserts : Inserts before new behind) :
    ∃ ls', lex (before ++ new ++ behind) = .ok ls' ∧
      List.Forall₂ (fun l l' => l'.token = l.token ∧ ∃ text,
        l.span.slice? (before ++ behind) = some text ∧
        l'.span.slice? (before ++ new ++ behind) = some text) ls ls' ∧
      (parse (String.ofList (before ++ new ++ behind))).toOption =
        (parse (String.ofList (before ++ behind))).toOption := by
  obtain ⟨lexed', apart⟩ := inserts.lex_eq lexed
  have within := (places_of_lex lexed).2
  refine ⟨_, lexed', List.forall₂_map_right_iff.2 (List.forall₂_same.2 fun l hl => ?_), ?_⟩
  · exact ⟨rfl, (within l hl).slice?_shift (apart l hl) new⟩
  · have tokens : (ls.map (·.shift (utf8Length before) (utf8Length new))).map (·.token) =
        ls.map (·.token) := by
      simp [Lexeme.shift, Function.comp_def]
    rw [← @String.toList_ofList (before ++ behind)] at lexed
    rw [← @String.toList_ofList (before ++ new ++ behind)] at lexed'
    exact (same_parse lexed lexed' tokens).symm

/-- The lexemes of a call with two arguments and of one without. -/
def twoCalls : List Lexeme :=
  [⟨.name "f", 0, 1⟩, ⟨.symbol .lparen, 1, 2⟩, ⟨.int "1", 2, 3⟩, ⟨.symbol .comma, 3, 4⟩,
    ⟨.int "2", 4, 5⟩, ⟨.symbol .rparen, 5, 6⟩, ⟨.newline, 6, 7⟩, ⟨.name "g", 7, 8⟩,
    ⟨.symbol .lparen, 8, 9⟩, ⟨.symbol .rparen, 9, 10⟩]

/-- A line is broken behind a comma, and a comment put between two lines. -/
theorem Program.insignificant_lines_calls :
    scan "f(1,2)\ng()".toList = .ok twoCalls ∧
    (parse (String.ofList ("f(1,".toList ++ "\r\n\t".toList ++ "2)\ng()".toList))).toOption =
      (parse (String.ofList ("f(1,".toList ++ "2)\ng()".toList))).toOption ∧
    (parse (String.ofList ("f(1,2)\n".toList ++ " # é\r\n".toList ++ "g()".toList))).toOption =
      (parse (String.ofList ("f(1,2)\n".toList ++ "g()".toList))).toOption ∧
    parse "f(1,2)\ng()" = .ok ⟨[], [.expr (.call none "f" [.literal none (.number 1),
      .literal none (.number 2)]), .expr (.call none "g" [])]⟩ := by
  have scanned : scan "f(1,2)\ng()".toList = .ok twoCalls := by decide +kernel
  obtain ⟨ls, lexed⟩ : ∃ ls, lex "f(1,2)\ng()".toList = .ok ls := ⟨_, rfl⟩
  have fold : Inserts "f(1,".toList "\r\n\t".toList "2)\ng()".toList :=
    @Inserts.fold _ ['\r', '\n'] ['\t'] _ (twoCalls.take 3) (twoCalls.drop 4)
      ⟨.symbol .comma, 3, 4⟩ scanned rfl (by decide) .carriageReturn (by simp [isGap])
  have line : Inserts "f(1,2)\n".toList " # é\r\n".toList "g()".toList :=
    @Inserts.line _ _ _ (twoCalls.take 6) (twoCalls.drop 7) ⟨.newline, 6, 7⟩ scanned rfl rfl
      (@IsBlankLine.comment [' '] [' ', 'é'] ['\r', '\n'] (by simp [isGap]) (by simp [isLineEnd])
        .carriageReturn)
  obtain ⟨-, -, -, folded⟩ := insignificant_lines _ _ _ ls lexed fold
  obtain ⟨-, -, -, commented⟩ := insignificant_lines _ _ _ ls lexed line
  exact ⟨scanned, folded, commented, by decide +kernel⟩

end Serpent
