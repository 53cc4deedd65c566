/-
Serpent.Proofs.LongestMatch — a text is cut into the longest lexemes, and nothing of it is lost.

Which texts are lexemes, and which are passed over, is said by patterns that know nothing of how a
text is read. The scan takes, wherever a lexeme starts, the longest text that a pattern matches
there, and a reserved word rather than a name. What it leaves between two lexemes is made of texts
that are passed over.

  §1 Patterns
  §2 The longest match at the front
  §3 Texts cut into lexemes
  §4 Places in a text
  §5 What stands between lexemes
-/
import Serpent.Proofs.Adjoining
import Serpent.Proofs.Spelling

namespace Serpent

open Fallible

/-! ## §1 Patterns -/

/-- The texts that spell a token. A reserved word has the form of a name, too. -/
inductive IsLexeme : List Char → Token → Prop
  | keyword (k : Keyword) : IsLexeme k.text.toList (.keyword k)
  | symbol (s : Symbol) : IsLexeme s.text.toList (.symbol s)
  | float {whole fraction : List Char} (some : whole ≠ [])
      (digits : ∀ c ∈ whole ++ fraction, c.isDigit = true) :
      IsLexeme (whole ++ '.' :: fraction) (.float (String.ofList (whole ++ '.' :: fraction)))
  | int {digits : List Char} (some : digits ≠ []) (h : ∀ c ∈ digits, c.isDigit = true) :
      IsLexeme digits (.int (String.ofList digits))
  | name {c : Char} {cs : List Char} (start : isNameStart c = true)
      (parts : ∀ d ∈ cs, isNamePart d = true) :
      IsLexeme (c :: cs) (.name (String.ofList (c :: cs)))
  | lineFeed : IsLexeme ['\n'] .newline
  | carriageReturn : IsLexeme ['\r', '\n'] .newline

/-- The texts that are passed over: blanks, comments, and the end of a line that is continued. -/
inductive IsSkipped : List Char → Prop
  | blanks {cs : List Char} (some : cs ≠ []) (h : ∀ c ∈ cs, isGap c = true) : IsSkipped cs
  | comment {cs : List Char} (h : ∀ c ∈ cs, isLineEnd c = false) : IsSkipped ('#' :: cs)
  | lineFeed : IsSkipped ['\\', '\n']
  | carriageReturn : IsSkipped ['\\', '\r', '\n']

/-- Some pattern matches the text. -/
def IsMatch (w : List Char) : Prop := (∃ t, IsLexeme w t) ∨ IsSkipped w

/-- No pattern matches more than `w` at the front of `w` and what follows it. -/
def Longest (w rest : List Char) : Prop := ∀ v, v <+: w ++ rest → IsMatch v → v.length ≤ w.length

/-- The token is what is found at the front of `w` and what follows it, and `w` is its lexeme. -/
structure IsFirst (w rest : List Char) (t : Token) : Prop where
  lexeme : IsLexeme w t
  longest : Longest w rest
  /-- A reserved word is no name. -/
  reserved : ∀ k : Keyword, k.text.toList = w → t = .keyword k

/-! ## §2 The longest match at the front -/

theorem length_le_takeWhile {p : Char → Bool} {v cs : List Char} (h : v <+: cs)
    (all : ∀ c ∈ v, p c = true) : v.length ≤ (cs.takeWhile p).length := by
  obtain ⟨rest, rfl⟩ := h
  rw [List.takeWhile_append_of_pos all, List.length_append]
  exact Nat.le_add_right _ _

namespace Front

variable {c : Char} {cs : List Char} {t : Token} {more : Nat}

theorem of_isDigit (h : c.isDigit = true) (cs : List Char) : of c cs = number c cs := by
  obtain ⟨gap, comment⟩ := not_isGap_of_isNamePart (isNamePart_of_isDigit h)
  simp only [of, gap, comment, h, Bool.false_eq_true, if_false, if_true]

theorem of_isNameStart (h : isNameStart c = true) (cs : List Char) : of c cs = word c cs := by
  obtain ⟨gap, comment⟩ := not_isGap_of_isNamePart (isNamePart_of_isNameStart h)
  simp only [of, gap, comment, not_isDigit_of_isNameStart h, h, Bool.false_eq_true, if_false,
    if_true]

/-- A word takes every character that may stand in it. -/
theorem le_more_of_word {v : List Char} (start : isNameStart c = true) (within : v <+: cs)
    (parts : ∀ d ∈ v, isNamePart d = true) (h : of c cs = .token t more) : v.length ≤ more := by
  rw [of_isNameStart start, word] at h
  cases h
  exact length_le_takeWhile within parts

/-- A number takes every digit. -/
theorem le_more_of_digits {v : List Char} (digit : c.isDigit = true) (within : v <+: cs)
    (digits : ∀ d ∈ v, d.isDigit = true) (h : of c cs = .token t more) : v.length ≤ more := by
  have few := length_le_takeWhile within digits
  rw [of_isDigit digit, number] at h
  split at h
  · cases h
    omega
  · cases h
    exact few

/-- A number takes a point and the digits behind it. -/
theorem le_more_of_point {v fraction : List Char} (digit : c.isDigit = true)
    (within : v ++ '.' :: fraction <+: cs) (digits : ∀ d ∈ v, d.isDigit = true)
    (behind : ∀ d ∈ fraction, d.isDigit = true) (h : of c cs = .token t more) :
    (v ++ '.' :: fraction).length ≤ more := by
  obtain ⟨rest, rfl⟩ := within
  have stop : ∀ d ∈ ('.' :: (fraction ++ rest)).head?, d.isDigit = false := by
    rintro d ⟨⟩
    rfl
  obtain ⟨whole, point⟩ := takeWhile_append_stop digits stop
  have few := length_le_takeWhile (List.prefix_append fraction rest) behind
  rw [of_isDigit digit, number, List.append_assoc, List.cons_append] at h
  simp only [whole, point] at h
  cases h
  rw [List.length_append, List.length_cons]
  omega

/-- A symbol of two characters is taken as a whole. -/
theorem le_more_of_symbol (s : Symbol) (h : of c cs = .token t more)
    (within : s.text.toList <+: c :: cs) : s.text.toList.length ≤ more + 1 := by
  -- a symbol of one character is never too long
  by_cases one : s.text.toList.length = 1
  · omega
  · cases s
    case arrow | eqEq | notEq | ltEq | gtEq | starStar | slashSlash =>
      obtain ⟨rfl, rest, rfl⟩ := List.cons_prefix_cons.1 within
      cases h
      exact Nat.le_refl 2
    all_goals exact absurd rfl one

/-- Where a text starts that is passed over, no token does. -/
theorem not_token_of_isSkipped {v : List Char} (skipped : IsSkipped v) (within : v <+: c :: cs) :
    of c cs ≠ .token t more := by
  intro h
  cases skipped with
  | blanks some blank =>
    obtain ⟨d, ds, rfl⟩ := List.exists_cons_of_ne_nil some
    obtain ⟨rfl, -⟩ := List.cons_prefix_cons.1 within
    simp only [of, blank d (by simp), if_true] at h
    cases h
  | comment text =>
    obtain ⟨rfl, -⟩ := List.cons_prefix_cons.1 within
    cases h
  | lineFeed | carriageReturn =>
    obtain ⟨rfl, rest, rfl⟩ := List.cons_prefix_cons.1 within
    cases h

/-- Where a token stands at the front of a text, no pattern matches more of the text. -/
theorem le_more_of_isMatch {v : List Char} (h : of c cs = .token t more) (within : v <+: c :: cs)
    (matched : IsMatch v) : v.length ≤ more + 1 := by
  rcases matched with ⟨u, lexeme⟩ | skipped
  · cases lexeme with
    | keyword k =>
      obtain ⟨d, ds, text, start, parts⟩ := exists_word_of_keyword k
      rw [text] at within ⊢
      obtain ⟨rfl, rest⟩ := List.cons_prefix_cons.1 within
      exact Nat.succ_le_succ (le_more_of_word start rest parts h)
    | name start parts =>
      obtain ⟨rfl, rest⟩ := List.cons_prefix_cons.1 within
      exact Nat.succ_le_succ (le_more_of_word start rest parts h)
    | int some digits =>
      obtain ⟨d, ds, rfl⟩ := List.exists_cons_of_ne_nil some
      obtain ⟨rfl, rest⟩ := List.cons_prefix_cons.1 within
      rw [List.forall_mem_cons] at digits
      exact Nat.succ_le_succ (le_more_of_digits digits.1 rest digits.2 h)
    | @float whole fraction some digits =>
      obtain ⟨d, ds, rfl⟩ := List.exists_cons_of_ne_nil some
      obtain ⟨rfl, rest⟩ := List.cons_prefix_cons.1 within
      rw [List.cons_append, List.forall_mem_cons, List.forall_mem_append] at digits
      exact Nat.succ_le_succ (le_more_of_point digits.1 rest digits.2.1 digits.2.2 h)
    | symbol s => exact le_more_of_symbol s h within
    | lineFeed => exact Nat.le_add_left 1 more
    | carriageReturn =>
      obtain ⟨rfl, rest, rfl⟩ := List.cons_prefix_cons.1 within
      cases h
      exact Nat.le_refl 2
  · exact absurd h (not_token_of_isSkipped skipped within)

theorem isLexeme_number (digit : c.isDigit = true) (h : number c cs = .token t more) :
    IsLexeme (c :: cs.take more) t := by
  have whole : ∀ d ∈ cs.takeWhile Char.isDigit, d.isDigit = true :=
    List.all_eq_true.1 List.all_takeWhile
  have text := (spells_number digit h).1
  simp only [number] at h
  split at h
  · rename_i rest point
    cases h
    have fraction : ∀ d ∈ rest.takeWhile Char.isDigit, d.isDigit = true :=
      List.all_eq_true.1 List.all_takeWhile
    rw [← text, Token.text, String.toList_ofList]
    refine .float (List.cons_ne_nil _ _) ?_
    rw [List.cons_append, List.forall_mem_cons, List.forall_mem_append]
    exact ⟨digit, whole, fraction⟩
  · cases h
    rw [← text, Token.text, String.toList_ofList]
    exact .int (List.cons_ne_nil _ _) (List.forall_mem_cons.2 ⟨digit, whole⟩)

theorem isLexeme_word (start : isNameStart c = true) (h : word c cs = .token t more) :
    IsLexeme (c :: cs.take more) t := by
  have text := (spells_word start h).1
  simp only [word, Token.ofWord] at h
  split at h
  · cases h
    rw [← text]
    exact .keyword _
  · cases h
    rw [← text, Token.text, String.toList_ofList]
    exact .name start (List.all_eq_true.1 List.all_takeWhile)

theorem isLexeme_symbol (h : symbol c cs = .token t more) : IsLexeme (c :: cs.take more) t := by
  have text := (spells_symbol h).1
  unfold symbol at h
  split at h
  all_goals cases h
  all_goals rw [← text]
  all_goals exact .symbol _

/-- A token at the front of a text stands there with a lexeme of its own. -/
theorem isLexeme_of (h : of c cs = .token t more) : IsLexeme (c :: cs.take more) t := by
  unfold of at h
  split at h
  · cases h
  · split at h
    · cases h
    · split at h
      · rename_i digit
        exact isLexeme_number digit h
      · split at h
        · rename_i start
          exact isLexeme_word start h
        · split at h
          · cases h
          · cases h
          · cases h
            exact .lineFeed
          · cases h
            exact .carriageReturn
          · exact isLexeme_symbol h

/-- A reserved word at the front of a text is its keyword. -/
theorem keyword_of (h : of c cs = .token t more) {k : Keyword}
    (text : k.text.toList = c :: cs.take more) : t = .keyword k := by
  obtain ⟨d, ds, word, start, -⟩ := exists_word_of_keyword k
  obtain ⟨rfl, rfl⟩ := List.cons.inj (word.symm.trans text)
  rw [of_isNameStart start, Front.word] at h
  cases h
  rw [← takeWhile_eq_take] at text
  rw [Token.ofWord, ← text, String.ofList_toList, Keyword.ofText?_text]

/-- What is found at the front of a text is the longest lexeme there. -/
theorem isFirst_of (h : of c cs = .token t more) :
    IsFirst (c :: cs.take more) (cs.drop more) t where
  lexeme := isLexeme_of h
  longest v within matched := by
    rw [List.cons_append, List.take_append_drop] at within
    have few := le_more_of_isMatch h within matched
    have inside := within.length_le
    rw [List.length_cons] at inside ⊢
    rw [List.length_take]
    omega
  reserved k text := keyword_of h text

/-- What is passed over at the front of a text is a text that may be. -/
theorem isSkipped_of (h : of c cs = .gap more) : IsSkipped (c :: cs.take more) := by
  unfold of at h
  split at h
  · rename_i blank
    cases h
    exact .blanks (List.cons_ne_nil _ _) (by simpa using blank)
  · split at h
    · rename_i comment
      cases h
      obtain rfl : c = '#' := by simpa using comment
      rw [← takeWhile_eq_take]
      exact .comment fun d hd => by simpa using List.all_eq_true.1 List.all_takeWhile d hd
    · split at h
      · rw [number] at h
        split at h <;> cases h
      · split at h
        · cases h
        · split at h
          · cases h
            exact .lineFeed
          · cases h
            exact .carriageReturn
          · cases h
          · cases h
          · unfold symbol at h
            split at h <;> cases h

end Front

/-! ## §3 Texts cut into lexemes -/

/-- The scan cuts a text whose first character stands at byte `pos` into lexemes, and none of them
goes on in the text `behind` that follows. -/
inductive CutBefore (behind : List Char) : (pos : Nat) → List Char → List Lexeme → Prop
  | nil {pos : Nat} : CutBefore behind pos [] []
  | gap {pos : Nat} {c : Char} {w rest : List Char} {ls : List Lexeme}
      (front : Front.of c (w ++ rest ++ behind) = .gap w.length)
      (more : CutBefore behind (pos + utf8Length (c :: w)) rest ls) :
      CutBefore behind pos (c :: w ++ rest) ls
  | token {pos : Nat} {c : Char} {w rest : List Char} {t : Token} {ls : List Lexeme}
      (front : Front.of c (w ++ rest ++ behind) = .token t w.length)
      (more : CutBefore behind (pos + utf8Length (c :: w)) rest ls) :
      CutBefore behind pos (c :: w ++ rest) (⟨t, pos, pos + utf8Length (c :: w)⟩ :: ls)

/-- The scan cuts a text into its lexemes. The induction is on the length of the text, since the
scan goes on behind what it has found. -/
theorem cutBefore_of_scanFrom {pos : Nat} {cs : List Char} {ls : List Lexeme}
    (h : scanFrom pos 0 cs = .ok ls) : CutBefore [] pos cs ls := by
  induction size : cs.length using Nat.strongRecOn generalizing pos cs ls with
  | ind n ih =>
    cases cs with
    | nil =>
      cases h
      exact .nil
    | cons c cs =>
      have behind {more : Nat} {ls : List Lexeme}
          (h : scanFrom (pos + c.utf8Size) more cs = .ok ls) :
          CutBefore [] (pos + utf8Length (c :: cs.take more)) (cs.drop more) ls := by
        rw [scanFrom_skip, Nat.add_assoc] at h
        refine ih _ ?_ h rfl
        rw [← size, List.length_drop, List.length_cons]
        omega
      have whole (more : Nat) : c :: cs = c :: cs.take more ++ cs.drop more := by
        rw [List.cons_append, List.take_append_drop]
      have few := Front.more_of c cs
      rw [scanFrom] at h
      cases front : Front.of c cs with
      | gap more =>
        rw [front] at h few
        have length : (cs.take more).length = more := List.length_take_of_le few
        rw [whole more]
        exact .gap (by rw [List.take_append_drop, List.append_nil, front, length]) (behind h)
      | token t more =>
        rw [front] at h few
        have length : (cs.take more).length = more := List.length_take_of_le few
        obtain ⟨rest, scanned, h⟩ := bind_eq_ok.1 h
        cases h
        rw [whole more]
        exact .token (by rw [List.take_append_drop, List.append_nil, front, length])
          (behind scanned)
      | nothing =>
        rw [front] at h
        cases h

/-- A text whose first character stands at byte `pos` is cut into lexemes: at each place stands the
longest lexeme, or something that is passed over. -/
inductive Cut : (pos : Nat) → List Char → List Lexeme → Prop
  | nil {pos : Nat} : Cut pos [] []
  | skip {pos : Nat} {w rest : List Char} {ls : List Lexeme} (skipped : IsSkipped w)
      (more : Cut (pos + utf8Length w) rest ls) : Cut pos (w ++ rest) ls
  | token {pos : Nat} {w rest : List Char} {t : Token} {ls : List Lexeme}
      (first : IsFirst w rest t) (more : Cut (pos + utf8Length w) rest ls) :
      Cut pos (w ++ rest) (⟨t, pos, pos + utf8Length w⟩ :: ls)

theorem CutBefore.cut {pos : Nat} {cs : List Char} {ls : List Lexeme} (h : CutBefore [] pos cs ls) :
    Cut pos cs ls := by
  induction h with
  | nil => exact .nil
  | gap front more ih =>
    have skipped := Front.isSkipped_of front
    rw [List.append_nil, List.take_left] at skipped
    exact .skip skipped ih
  | token front more ih =>
    have first := Front.isFirst_of front
    rw [List.append_nil, List.take_left, List.drop_left] at first
    exact .token first ih

/-! ## §4 Places in a text -/

/-- The place stands between two characters of a text or at one of its ends. -/
def IsBoundary (source : List Char) (n : Nat) : Prop :=
  ∃ before behind, source = before ++ behind ∧ utf8Length before = n

/-- A span that covers whole characters of a text. -/
structure Span.Within (source : List Char) (s : Span) : Prop where
  ordered : s.start ≤ s.stop
  start : IsBoundary source s.start
  stop : IsBoundary source s.stop

/-- Of two texts that start the same text, the shorter one starts the longer. -/
theorem append_eq_append_of_le {as bs cs ds : List Char} (h : as ++ bs = cs ++ ds)
    (le : utf8Length as ≤ utf8Length cs) : ∃ es, cs = as ++ es ∧ bs = es ++ ds := by
  rcases List.append_eq_append_iff.1 h with found | ⟨es, rfl, rfl⟩
  · exact found
  · cases es with
    | nil => exact ⟨[], by simp, rfl⟩
    | cons c es =>
      have pos := c.utf8Size_pos
      rw [utf8Length_append, utf8Length_cons] at le
      omega

/-- A span that covers whole characters cuts a text into three. -/
theorem Span.Within.exists_parts {source : List Char} {s : Span} (h : s.Within source) :
    ∃ before w behind, source = before ++ w ++ behind ∧
      s = ⟨utf8Length before, utf8Length before + utf8Length w⟩ := by
  obtain ⟨start, stop⟩ := s
  obtain ⟨ordered, ⟨before, rest, cut, rfl⟩, ⟨upto, behind, cut', rfl⟩⟩ := h
  obtain ⟨w, rfl, rfl⟩ := append_eq_append_of_le (cut.symm.trans cut') ordered
  exact ⟨before, w, behind, by simp [cut], by simp⟩

theorem isBoundary_length (source : List Char) : IsBoundary source (utf8Length source) :=
  ⟨source, [], (List.append_nil source).symm, rfl⟩

theorem Span.within_empty {source : List Char} {n : Nat} (h : IsBoundary source n) :
    (Span.empty n).Within source :=
  ⟨Nat.le_refl n, h, h⟩

/-- The lexeme covers what is found at its place: the longest lexeme there. -/
def Lexeme.IsFound (source : List Char) (l : Lexeme) : Prop :=
  ∃ before w behind, source = before ++ w ++ behind ∧
    l.span = ⟨utf8Length before, utf8Length before + utf8Length w⟩ ∧ IsFirst w behind l.token

theorem Lexeme.IsFound.within {source : List Char} {l : Lexeme} (h : l.IsFound source) :
    l.span.Within source := by
  obtain ⟨before, w, behind, cut, span, -⟩ := h
  rw [span]
  refine ⟨Nat.le_add_right _ _, ⟨before, w ++ behind, ?_, rfl⟩, ⟨before ++ w, behind, cut, ?_⟩⟩
  · rw [cut, List.append_assoc]
  · exact utf8Length_append before w

/-- Every lexeme of a text that is cut covers what is found at its place. -/
theorem Cut.isFound {source before cs : List Char} {ls : List Lexeme}
    (h : Cut (utf8Length before) cs ls) (cut : source = before ++ cs) :
    ∀ l ∈ ls, l.IsFound source := by
  generalize place : utf8Length before = pos at h
  induction h generalizing before with
  | nil => simp
  | @skip pos w rest ls skipped more ih =>
    subst place
    have cut' : source = before ++ w ++ rest := by simp [cut]
    exact ih cut' (by simp)
  | @token pos w rest t ls first more ih =>
    subst place
    refine List.forall_mem_cons.2 ⟨⟨before, w, rest, by simp [cut], rfl, first⟩, ?_⟩
    have cut' : source = before ++ w ++ rest := by simp [cut]
    exact ih cut' (by simp)

/-- Lexemes that stand one behind the other from byte `a` on, up to byte `b`. -/
def Lexeme.InOrder : (a b : Nat) → List Lexeme → Prop
  | a, b, [] => a ≤ b
  | a, b, l :: ls => a ≤ l.span.start ∧ l.span.start ≤ l.span.stop ∧ InOrder l.span.stop b ls

theorem Lexeme.InOrder.mono {a a' b : Nat} {ls : List Lexeme} (h : InOrder a b ls) (le : a' ≤ a) :
    InOrder a' b ls := by
  cases ls with
  | nil => exact Nat.le_trans le h
  | cons l ls => exact ⟨Nat.le_trans le h.1, h.2⟩

/-- The lexemes of a text that is cut stand one behind the other. -/
theorem Cut.inOrder {pos : Nat} {cs : List Char} {ls : List Lexeme} (h : Cut pos cs ls) :
    Lexeme.InOrder pos (pos + utf8Length cs) ls := by
  induction h with
  | nil => exact Nat.le_refl _
  | skip skipped more ih =>
    rw [utf8Length_append, ← Nat.add_assoc]
    exact ih.mono (Nat.le_add_right _ _)
  | token first more ih =>
    rw [utf8Length_append, ← Nat.add_assoc]
    exact ⟨Nat.le_refl _, Nat.le_add_right _ _, ih⟩

/-! ## §5 What stands between lexemes -/

/-- A text without lexemes of its own: it is passed over, line by line. -/
inductive IsFiller : List Char → Prop
  | nil : IsFiller []
  | skip {w rest : List Char} (h : IsSkipped w) (more : IsFiller rest) : IsFiller (w ++ rest)
  | line {w rest : List Char} (h : IsLexeme w .newline) (more : IsFiller rest) :
      IsFiller (w ++ rest)

theorem IsFiller.append {v w : List Char} (h : IsFiller v) (h' : IsFiller w) :
    IsFiller (v ++ w) := by
  induction h with
  | nil => exact h'
  | skip h more ih => exact List.append_assoc .. ▸ .skip h ih
  | line h more ih => exact List.append_assoc .. ▸ .line h ih

/-- The span covers a text without lexemes. -/
def Span.IsFiller (source : List Char) (s : Span) : Prop :=
  ∃ w, s.slice? source = some w ∧ Serpent.IsFiller w

/-- Behind byte `pos` stand these lexemes, and no others before, between and behind them. -/
def Spaced (source : List Char) : (pos : Nat) → List Lexeme → Prop
  | pos, [] => Span.IsFiller source ⟨pos, utf8Length source⟩
  | pos, l :: ls => Span.IsFiller source ⟨pos, l.span.start⟩ ∧ Spaced source l.span.stop ls

theorem Span.isFiller_of_append {source before w behind : List Char}
    (cut : source = before ++ w ++ behind) (h : Serpent.IsFiller w) :
    Span.IsFiller source ⟨utf8Length before, utf8Length (before ++ w)⟩ := by
  refine ⟨w, ?_, h⟩
  rw [cut, utf8Length_append]
  exact Span.slice?_append before w behind

/-- The induction goes along the lexemes; `filler` is what has been passed over behind the last one
that is no end of a line. -/
theorem Cut.spaced {source before filler cs : List Char} {ls : List Lexeme}
    (h : Cut (utf8Length (before ++ filler)) cs ls) (cut : source = before ++ filler ++ cs)
    (isFiller : IsFiller filler) :
    Spaced source (utf8Length before) (ls.filter (·.token ≠ .newline)) := by
  generalize place : utf8Length (before ++ filler) = pos at h
  induction h generalizing before filler with
  | nil =>
    have whole := Span.isFiller_of_append cut isFiller
    rwa [← List.append_nil (before ++ filler), ← cut] at whole
  | @skip pos w rest ls skipped more ih =>
    subst place
    have cut' : source = before ++ (filler ++ w) ++ rest := by simp [cut]
    refine ih cut' ?_ (by simp; omega)
    exact isFiller.append (by simpa using IsFiller.skip skipped .nil)
  | @token pos w rest t ls first more ih =>
    subst place
    by_cases newline : t = .newline
    · subst newline
      rw [List.filter_cons_of_neg (by simp)]
      have cut' : source = before ++ (filler ++ w) ++ rest := by simp [cut]
      refine ih cut' ?_ (by simp; omega)
      exact isFiller.append (by simpa using IsFiller.line first.lexeme .nil)
    · rw [List.filter_cons_of_pos (by simpa using newline)]
      have cut' : source = before ++ filler ++ w ++ [] ++ rest := by simp [cut]
      refine ⟨Span.isFiller_of_append cut isFiller, ?_⟩
      have later := ih cut' .nil (by simp [Nat.add_assoc])
      rwa [utf8Length_append (before ++ filler)] at later

end Serpent
