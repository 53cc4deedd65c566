/-
Serpent.Proofs.Blocks — lines that are written in blocks are marked as those blocks again.

A block is written as the line before it and then its own lines, one level deeper. The layout marks
the end of each line, the opening of a block before its first line, and the closing of a block
before the next line that is not in it, or at the end of the text. So the closing of a block is
marked where the text goes on, and what follows a block must first be known to close it.

  §1 One line
  §2 Open blocks
  §3 Lines in blocks
-/
import Serpent.Proofs.Spelling
import Serpent.Token.Layout

namespace Serpent

open Fallible LayoutState

/-! ## §1 One line -/

/-- Tokens within a line: none of them ends the line, and the parentheses among them are closed. -/
structure Inline (ts : List Token) : Prop where
  no_newline : ∀ t ∈ ts, t ≠ .newline
  balanced : ∀ n, ts.foldl depthAfter n = n

/-- The text of a line holds the tokens `ts`, at least one. -/
structure IsLine (text : String) (ts : List Token) : Prop where
  some_token : ts ≠ []
  scans : ∀ rest, Scans text.toList ts ('\n' :: rest)
  inline : Inline ts

/-- The tokens of the text `cs`, which stands behind `pre` at the start of a line, where the blocks
at the columns `blocks` are open. -/
def lexFrom (pre : List Char) (blocks : List Nat) (cs : List Char) :
    Except LexError (List Token) := do
  let ls ← scanFrom (utf8Length pre) 0 cs
  (layoutFrom (pre ++ cs) ⟨blocks, 0, true⟩ ls).map (·.map (·.token))

/-- The text ends with the end of a line, or it is empty. -/
def AtLineStart (pre : List Char) : Prop := pre.foldl nextColumn 0 = 0

/-- The characters of lines. -/
def chars (ls : List Line) : List Char := (Line.renderAll "    " ls).toList

@[simp] theorem chars_nil : chars [] = [] := rfl

theorem chars_cons (l : Line) (ls : List Line) :
    chars (l :: ls) = List.replicate (4 * l.depth) ' ' ++ l.text.toList ++ '\n' :: chars ls := by
  have blanks : ∀ d, (String.join (List.replicate d "    ")).toList = List.replicate (4 * d) ' ' := by
    intro d
    rw [String.toList_join]
    induction d with
    | zero => rfl
    | succ d ih =>
      rw [List.replicate_succ, List.flatMap_cons, ih, Nat.mul_succ, Nat.add_comm,
        List.replicate_add]
      rfl
  simp [chars, Line.renderAll, Line.render, String.toList_join, blanks]

theorem chars_append (ls ms : List Line) : chars (ls ++ ms) = chars ls ++ chars ms := by
  simp [chars, Line.renderAll, String.toList_join]

theorem AtLineStart.append_chars {pre : List Char} (h : AtLineStart pre) (ls : List Line) :
    AtLineStart (pre ++ chars ls) := by
  induction ls generalizing pre with
  | nil => simpa using h
  | cons l ls ih =>
    have line : AtLineStart (pre ++ (List.replicate (4 * l.depth) ' ' ++ l.text.toList ++ ['\n'])) := by
      simp [AtLineStart, List.foldl_append, nextColumn]
    have := ih line
    rw [chars_cons]
    simpa using this

/-- Blanks are passed over. -/
theorem scanFrom_blanks (pos n : Nat) (cs : List Char) :
    scanFrom pos 0 (List.replicate n ' ' ++ cs) = scanFrom (pos + n) 0 cs := by
  induction n generalizing pos with
  | zero => rfl
  | succ n ih =>
    rw [List.replicate_succ, List.cons_append, Nat.add_comm n, ← Nat.add_assoc, ← ih]
    rfl

theorem scanFrom_newline (pos : Nat) (cs : List Char) :
    scanFrom pos 0 ('\n' :: cs) =
      (scanFrom (pos + 1) 0 cs).map (⟨.newline, pos, pos + 1⟩ :: ·) := by
  change (scanFrom (pos + 1) 0 cs >>= _) = _
  cases scanFrom (pos + 1) 0 cs <;> rfl

/-- The tokens of a line after its first one. -/
theorem layoutFrom_within {source : List Char} {blocks : List Nat} {n : Nat} {ls rest : List Lexeme}
    (h : ∀ l ∈ ls, l.token ≠ .newline) :
    layoutFrom source ⟨blocks, n, false⟩ (ls ++ rest) =
      (layoutFrom source ⟨blocks, (ls.map (·.token)).foldl depthAfter n, false⟩ rest).map
        (ls ++ ·) := by
  induction ls generalizing n with
  | nil => cases h : layoutFrom source ⟨blocks, n, false⟩ rest <;> simp_all
  | cons l ls ih =>
    rw [List.cons_append, layoutFrom_later (h l (by simp)) rfl, ih fun m hm => h m (by simp [hm]),
      map_map]
    rfl

/-- The layout of a whole line with its end. -/
theorem layoutFrom_line {source : List Char} {blocks blocks' : List Nat} {marks : List Token}
    {ls rest : List Lexeme} {nl : Lexeme} {ts : List Token} {col : Nat}
    (tokens : ls.map (·.token) = ts) (some_token : ts ≠ []) (inline : Inline ts)
    (isNewline : nl.token = .newline)
    (column : ∀ l ∈ ls.head?, columnAt source l.span.start = col)
    (enter : enterLine? blocks col = some (marks, blocks')) :
    (layoutFrom source ⟨blocks, 0, true⟩ (ls ++ nl :: rest)).map (·.map (·.token)) =
      ((layoutFrom source ⟨blocks', 0, true⟩ rest).map (·.map (·.token))).map
        (marks ++ ts ++ .newline :: ·) := by
  obtain ⟨t, span⟩ := nl
  obtain rfl : t = .newline := isNewline
  subst tokens
  cases ls with
  | nil => exact absurd rfl some_token
  | cons l ls =>
    have later : ∀ m ∈ ls, m.token ≠ .newline := fun m hm =>
      inline.no_newline m.token (List.mem_map_of_mem (List.mem_cons_of_mem l hm))
    have closed : (ls.map (·.token)).foldl depthAfter (depthAfter 0 l.token) = 0 :=
      inline.balanced 0
    rw [List.cons_append, layoutFrom_first (inline.no_newline l.token (by simp)) rfl,
      column l rfl, enter]
    simp only [layoutFrom_within later, closed, layoutFrom_newline, and_self, if_true, map_map]
    cases layoutFrom source ⟨blocks', 0, true⟩ rest with
    | error e => rfl
    | ok out => simp [List.map_map, Function.comp_def]

theorem utf8Length_blanks (n : Nat) : utf8Length (List.replicate n ' ') = n := by
  induction n with
  | zero => rfl
  | succ n ih =>
    rw [List.replicate_succ, utf8Length_cons, ih, Nat.add_comm]
    rfl

theorem foldl_nextColumn_blanks (n col : Nat) :
    (List.replicate n ' ').foldl nextColumn col = col + n := by
  induction n generalizing col with
  | zero => rfl
  | succ n ih =>
    rw [List.replicate_succ, List.foldl_cons, ih, Nat.add_comm n, ← Nat.add_assoc]
    rfl

/-- The column of the text that stands behind `n` blanks at the start of a line. -/
theorem columnAt_blanks {pre : List Char} (start : AtLineStart pre) (n : Nat) (cs : List Char) :
    columnAt (pre ++ (List.replicate n ' ' ++ cs)) (utf8Length pre + n) = n := by
  have place : utf8Length pre + n = utf8Length (pre ++ List.replicate n ' ') := by
    rw [utf8Length_append, utf8Length_blanks]
  rw [columnAt, place, ← List.append_assoc, takeBytes?_append, Option.getD_some,
    List.foldl_append, start, foldl_nextColumn_blanks, Nat.zero_add]

/-- A line is read, and the text after it as it would be without the line. -/
theorem lexFrom_line {pre rest : List Char} {blocks blocks' : List Nat} {marks ts : List Token}
    {d : Nat} {text : String} (start : AtLineStart pre) (line : IsLine text ts)
    (enter : enterLine? blocks (4 * d) = some (marks, blocks')) :
    lexFrom pre blocks (chars [⟨d, text⟩] ++ rest) =
      (lexFrom (pre ++ chars [⟨d, text⟩]) blocks' rest).map (marks ++ ts ++ .newline :: ·) := by
  have cut : chars [⟨d, text⟩] ++ rest =
      List.replicate (4 * d) ' ' ++ (text.toList ++ '\n' :: rest) := by
    simp [chars_cons]
  have place : utf8Length pre + 4 * d + utf8Length text.toList + 1 =
      utf8Length (pre ++ chars [⟨d, text⟩]) := by
    simp only [chars_cons, utf8Length_append, utf8Length_blanks, utf8Length_cons, chars_nil,
      utf8Length_nil, Nat.add_assoc]
    rfl
  obtain ⟨ls, tokens, first, scan⟩ := line.scans rest (utf8Length pre + 4 * d)
  have column : ∀ m ∈ ls.head?, columnAt (pre ++ (chars [⟨d, text⟩] ++ rest)) m.span.start =
      4 * d := by
    intro m hm
    rw [first m hm, cut, columnAt_blanks start]
  rw [lexFrom, lexFrom, List.append_assoc, ← place]
  conv_lhs => rw [cut, scanFrom_blanks, scan, scanFrom_newline, ← cut]
  cases scanFrom (utf8Length pre + 4 * d + utf8Length text.toList + 1) 0 rest with
  | error e => rfl
  | ok more =>
    exact layoutFrom_line tokens line.some_token line.inline rfl column enter

/-! ## §2 Open blocks -/

/-- The columns of the open blocks, the innermost first, in a block of depth `d`. -/
def openBlocks : Nat → List Nat
  | 0 => [0]
  | d + 1 => 4 * (d + 1) :: openBlocks d

theorem length_openBlocks (d : Nat) : (openBlocks d).length = d + 1 := by
  induction d with
  | zero => rfl
  | succ d ih => rw [openBlocks, List.length_cons, ih]

theorem headD_openBlocks (d : Nat) : (openBlocks d).headD 0 = 4 * d := by
  cases d <;> rfl

/-- A line one level deeper opens a block. -/
theorem enterLine?_deeper (d : Nat) :
    enterLine? (openBlocks d) (4 * (d + 1)) = some ([.indent], openBlocks (d + 1)) := by
  rw [enterLine?, headD_openBlocks, if_pos (by omega)]
  rfl

/-- A line that is not deeper closes the blocks that it does not stand in. -/
theorem enterLine?_openBlocks {d e : Nat} (h : d ≤ e) :
    enterLine? (openBlocks e) (4 * d) =
      some (List.replicate (e - d) .dedent, openBlocks d) := by
  have blocks : ((openBlocks e).takeWhile (4 * d < ·)).length = e - d ∧
      (openBlocks e).dropWhile (4 * d < ·) = openBlocks d := by
    induction e with
    | zero =>
      obtain rfl : d = 0 := by omega
      decide
    | succ e ih =>
      by_cases eq : d = e + 1
      · subst eq
        simp [openBlocks]
      · obtain ⟨closed, kept⟩ := ih (by omega)
        have deeper : 4 * d < 4 * (e + 1) := by omega
        simp only [openBlocks, List.takeWhile_cons, List.dropWhile_cons, deeper, decide_true,
          if_true, List.length_cons, closed, kept, and_true]
        omega
  rw [enterLine?, headD_openBlocks, if_neg (by omega)]
  simp only [blocks.1, blocks.2, headD_openBlocks, if_true]

/-! ## §3 Lines in blocks -/

/-- Lines in a block of depth `d`, with their tokens. A line may have a block behind it. -/
inductive Laid : (d : Nat) → List Line → List Token → Prop where
  | nil {d : Nat} : Laid d [] []
  | line {d : Nat} {text : String} {ts : List Token} {ls : List Line} {us : List Token} :
      IsLine text ts → Laid d ls us → Laid d (⟨d, text⟩ :: ls) (ts ++ .newline :: us)
  | block {d : Nat} {text : String} {ts : List Token} {body ls : List Line}
      {us vs : List Token} : IsLine text ts → body ≠ [] → Laid (d + 1) body us → Laid d ls vs →
      Laid d (⟨d, text⟩ :: body ++ ls) (ts ++ .newline :: .indent :: us ++ .dedent :: vs)

theorem Laid.append {d : Nat} {ls ms : List Line} {ts us : List Token} (first : Laid d ls ts)
    (second : Laid d ms us) : Laid d (ls ++ ms) (ts ++ us) := by
  induction first with
  | nil => exact second
  | line line more ih => simpa using Laid.line line (ih second)
  | block line some_line body more ihbody ihmore =>
    simpa using Laid.block line some_line body (ihmore second)

/-- What follows starts by closing all blocks that are deeper than `d`. -/
def Closes (d : Nat) (pre rest : List Char) : Prop :=
  ∀ e, d ≤ e → lexFrom pre (openBlocks e) rest =
    (lexFrom pre (openBlocks d) rest).map (List.replicate (e - d) .dedent ++ ·)

theorem Closes.deeper {d : Nat} {pre rest : List Char} (h : Closes d pre rest) :
    Closes (d + 1) pre rest := by
  intro e he
  have : e - d = e - (d + 1) + 1 := by omega
  rw [h e (by omega), h (d + 1) (by omega), map_map, this, List.replicate_add]
  simp

/-- A line that stands in a block of depth `d` closes the deeper ones. -/
theorem closes_line {d : Nat} {text : String} {ts : List Token} {pre rest : List Char}
    (start : AtLineStart pre) (line : IsLine text ts) :
    Closes d pre (chars [⟨d, text⟩] ++ rest) := by
  intro e he
  rw [lexFrom_line start line (enterLine?_openBlocks he),
    lexFrom_line start line (enterLine?_openBlocks (Nat.le_refl d)), map_map]
  simp

theorem Laid.head {d : Nat} {ls : List Line} {ts : List Token} (h : Laid d ls ts) (ne : ls ≠ []) :
    ∃ text us ls', ls = ⟨d, text⟩ :: ls' ∧ IsLine text us := by
  cases h with
  | nil => exact absurd rfl ne
  | line line more => exact ⟨_, _, _, rfl, line⟩
  | block line some_line body more => exact ⟨_, _, _, rfl, line⟩

theorem Laid.closes {d : Nat} {ls : List Line} {ts : List Token} (h : Laid d ls ts)
    {pre rest : List Char} (start : AtLineStart pre) (closes : Closes d (pre ++ chars ls) rest) :
    Closes d pre (chars ls ++ rest) := by
  by_cases ne : ls = []
  · subst ne
    simpa using closes
  · obtain ⟨text, us, ls', rfl, line⟩ := h.head ne
    rw [← List.singleton_append, chars_append, List.append_assoc]
    exact closes_line start line

/-- The first line of a block opens it. -/
theorem Laid.opens {d : Nat} {ls : List Line} {ts : List Token} (h : Laid (d + 1) ls ts)
    (ne : ls ≠ []) {pre rest : List Char} (start : AtLineStart pre) :
    lexFrom pre (openBlocks d) (chars ls ++ rest) =
      (lexFrom pre (openBlocks (d + 1)) (chars ls ++ rest)).map (.indent :: ·) := by
  obtain ⟨text, us, ls', rfl, line⟩ := h.head ne
  rw [← List.singleton_append, chars_append, List.append_assoc,
    lexFrom_line start line (enterLine?_deeper d),
    lexFrom_line start line (enterLine?_openBlocks (Nat.le_refl (d + 1))), map_map]
  simp

/-- Lines in a block are read as their tokens, before a text that closes the deeper blocks. -/
theorem Laid.run {d : Nat} {ls : List Line} {ts : List Token} (h : Laid d ls ts)
    {pre rest : List Char} (start : AtLineStart pre) (closes : Closes d (pre ++ chars ls) rest) :
    lexFrom pre (openBlocks d) (chars ls ++ rest) =
      (lexFrom (pre ++ chars ls) (openBlocks d) rest).map (ts ++ ·) := by
  induction h generalizing pre rest with
  | @nil d =>
    simp only [chars_nil, List.nil_append, List.append_nil]
    cases lexFrom pre (openBlocks d) rest <;> rfl
  | line line more ih =>
    rw [← List.singleton_append, chars_append, ← List.append_assoc] at closes ⊢
    rw [List.append_assoc, lexFrom_line start line (enterLine?_openBlocks (Nat.le_refl _)),
      ih (start.append_chars _) closes, map_map]
    simp
  | @block d text ts body ls us vs line some_line isLaid more ihbody ihmore =>
    rw [← List.singleton_append, chars_append, chars_append, ← List.append_assoc,
      ← List.append_assoc] at closes ⊢
    have start₁ := start.append_chars [⟨d, text⟩]
    have start₂ := start₁.append_chars body
    -- what follows the block closes it, and the lines after the block are read from there
    have closes₂ := more.closes start₂ closes
    rw [List.append_assoc, List.append_assoc,
      lexFrom_line start line (enterLine?_openBlocks (Nat.le_refl _)),
      isLaid.opens some_line start₁, ihbody start₁ closes₂.deeper, closes₂ _ (Nat.le_succ _),
      ihmore start₂ closes]
    simp only [map_map]
    simp

/-- The text of laid lines is cut into their tokens. -/
theorem Laid.lex {ls : List Line} {ts : List Token} (h : Laid 0 ls ts) :
    ∃ lexemes, lex (chars ls) = .ok lexemes ∧ lexemes.map (·.token) = ts := by
  have ended : ∀ pre e, lexFrom pre (openBlocks e) [] = .ok (List.replicate e .dedent) := by
    intro pre e
    simp [lexFrom, scanFrom, layoutFrom, length_openBlocks]
  have closes : Closes 0 ([] ++ chars ls) [] := by
    intro e _
    simp [ended]
  have start : AtLineStart [] := rfl
  have run := h.run start closes
  rw [List.append_nil, ended, map_ok] at run
  obtain ⟨scanned, hscan, run⟩ := bind_eq_ok.1 run
  obtain ⟨lexemes, hlayout, tokens⟩ := map_eq_ok.1 run
  refine ⟨lexemes, ?_, by simpa using tokens⟩
  exact bind_eq_ok.2 ⟨scanned, hscan, hlayout⟩

end Serpent
