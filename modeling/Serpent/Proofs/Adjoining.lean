/-
Serpent.Proofs.Adjoining — two texts with an empty line between them have the tokens of both.

Which tokens a text has depends on its characters and on the columns of its tokens, and not on the
bytes that stand before it. So the scan and the layout are restated without places: the scan gives
tokens with their columns, and the layout is a machine that reads them one by one. An end of line
ends every lexeme that a text could leave unfinished, and two of them leave the machine at the start
of a line; the first token of the next text, if it is not indented, closes the blocks that are open.

  §1 What stands at the front before the end of a line
  §2 Tokens with their columns
  §3 The layout, token by token
  §4 Open blocks and parentheses
  §5 Two texts
-/
import Serpent.Proofs.Lexeme

namespace Serpent

open Fallible LayoutState

/-! ## §1 What stands at the front before the end of a line -/

section Lists

variable {α : Type} {p : α → Bool} {a : α}

theorem takeWhile_append_cons (h : p a = false) (as bs : List α) :
    (as ++ a :: bs).takeWhile p = as.takeWhile p := by
  induction as with
  | nil => simp [h]
  | cons b as ih => simp [List.takeWhile_cons, ih]

theorem dropWhile_append_cons (h : p a = false) (as bs : List α) :
    (as ++ a :: bs).dropWhile p = as.dropWhile p ++ a :: bs := by
  induction as with
  | nil => simp [h]
  | cons b as ih =>
    rw [List.cons_append, List.dropWhile_cons, List.dropWhile_cons, ih]
    split <;> rfl

end Lists

namespace Front

/-- How many characters belong to what stands at the front, after the first. -/
def more : Front → Nat
  | gap n => n
  | token _ n => n
  | nothing => 0

variable {c d : Char} {cs : List Char}

theorem isLineEnd_iff : isLineEnd d = true ↔ d = '\r' ∨ d = '\n' := by
  simp [isLineEnd]

theorem number_line_end (hd : isLineEnd d = true) (c : Char) (cs rest : List Char) :
    number c (cs ++ d :: rest) = number c cs := by
  have digit : Char.isDigit d = false := by
    rcases isLineEnd_iff.1 hd with rfl | rfl <;> rfl
  simp only [number, takeWhile_append_cons digit, dropWhile_append_cons digit]
  cases cs.dropWhile Char.isDigit with
  | nil => rcases isLineEnd_iff.1 hd with rfl | rfl <;> rfl
  | cons e es =>
    by_cases point : e = '.'
    · subst point
      simp only [List.cons_append, takeWhile_append_cons digit]
    · simp [point]

theorem more_number (c : Char) (cs : List Char) : (number c cs).more ≤ cs.length := by
  have cut := List.takeWhile_append_dropWhile (p := Char.isDigit) (l := cs)
  have whole := congrArg List.length cut
  simp only [number]
  split
  · rename_i rest point
    have fraction := (List.takeWhile_sublist Char.isDigit (l := rest)).length_le
    rw [point, List.length_append, List.length_cons] at whole
    simp only [more]
    omega
  · rw [List.length_append] at whole
    simp only [more]
    omega

/-- A symbol has at most two characters. -/
theorem symbol_cons (c e : Char) (cs ds : List Char) : symbol c (e :: cs) = symbol c (e :: ds) := by
  unfold symbol
  split <;> first | rfl | simp_all

theorem symbol_line_end (hd : isLineEnd d = true) (h : symbol c cs ≠ .nothing)
    (rest : List Char) : symbol c (cs ++ d :: rest) = symbol c cs := by
  cases cs with
  | nil =>
    unfold symbol at h ⊢
    rcases isLineEnd_iff.1 hd with rfl | rfl <;> split <;> first | rfl | simp_all
  | cons e es => exact symbol_cons c e _ _

theorem more_symbol (c : Char) (cs : List Char) : (symbol c cs).more ≤ cs.length := by
  unfold symbol
  split <;> simp [more]

/-- What stands at the front of a text ends at the end of a line that is put behind the text. -/
theorem of_line_end (hd : isLineEnd d = true) (h : of c cs ≠ .nothing) (rest : List Char) :
    of c (cs ++ d :: rest) = of c cs := by
  unfold of at h ⊢
  split
  · rfl
  · split
    · rw [takeWhile_append_cons (p := fun c => !isLineEnd c) (by simp [hd])]
    · split
      · exact number_line_end hd c cs rest
      · split
        · have part : isNamePart d = false := by
            rcases isLineEnd_iff.1 hd with rfl | rfl <;> rfl
          simp only [word, takeWhile_append_cons part]
        · rename_i gap comment digit start
          rw [if_neg gap, if_neg comment, if_neg digit, if_neg start] at h
          split at h
          · rfl
          · rfl
          · rfl
          · rfl
          · rw [← symbol_line_end hd h rest]
            split
            · exact absurd rfl h
            · exact absurd rfl h
            · exact absurd rfl h
            · exact absurd rfl h
            · rfl

theorem more_of (c : Char) (cs : List Char) : (of c cs).more ≤ cs.length := by
  unfold of
  split
  · exact Nat.zero_le _
  · split
    · exact (List.takeWhile_sublist _).length_le
    · split
      · exact more_number c cs
      · split
        · exact (List.takeWhile_sublist _).length_le
        · split
          · simp [more]
          · simp [more]
          · simp [more]
          · simp [more]
          · exact more_symbol _ _

end Front

/-! ## §2 Tokens with their columns -/

/-- A token and the column where it starts. -/
abbrev Placed := Token × Nat

/-- A lexeme of a source text without its place, but with its column. -/
def Lexeme.placed (source : List Char) (l : Lexeme) : Placed :=
  (l.token, columnAt source l.span.start)

/-- The tokens of a text whose first character stands at column `col`; the first `skip` characters
belong to what came before. -/
def scanPlaced : (col skip : Nat) → List Char → Option (List Placed)
  | _, _, [] => some []
  | col, skip + 1, c :: cs => scanPlaced (nextColumn col c) skip cs
  | col, 0, c :: cs =>
    match Front.of c cs with
    | .gap more => scanPlaced (nextColumn col c) more cs
    | .token t more => (scanPlaced (nextColumn col c) more cs).map ((t, col) :: ·)
    | .nothing => none

/-- The scan gives these tokens at these columns. -/
theorem scanFrom_placed {source pre cs : List Char} (cut : source = pre ++ cs) (skip : Nat) :
    (scanFrom (utf8Length pre) skip cs).toOption.map (·.map (·.placed source)) =
      scanPlaced (pre.foldl nextColumn 0) skip cs := by
  induction cs generalizing pre skip with
  | nil => cases skip <;> rfl
  | cons c cs ih =>
    have cut' : source = pre ++ [c] ++ cs := by simpa using cut
    have place : utf8Length pre + c.utf8Size = utf8Length (pre ++ [c]) := by simp
    have column : nextColumn (pre.foldl nextColumn 0) c = (pre ++ [c]).foldl nextColumn 0 := by simp
    cases skip with
    | succ skip =>
      rw [scanFrom, scanPlaced, place, column]
      exact ih cut' skip
    | zero =>
      rw [scanFrom, scanPlaced, place, column]
      cases Front.of c cs with
      | gap more => exact ih cut' more
      | token t more =>
        have here : columnAt source (utf8Length pre) = pre.foldl nextColumn 0 := by
          rw [columnAt, cut, takeBytes?_append, Option.getD_some]
        simp only [← ih cut' more]
        cases scanFrom (utf8Length (pre ++ [c])) more cs with
        | error e => rfl
        | ok ls => simp [Except.toOption, Lexeme.placed, here]
      | nothing => rfl

/-- A text before the end of a line has the tokens that it has alone. -/
theorem scanPlaced_line_end {col skip : Nat} {cs : List Char} {ps : List Placed}
    (h : scanPlaced col skip cs = some ps) (le : skip ≤ cs.length) (rest : List Char) :
    scanPlaced col skip (cs ++ '\n' :: rest) =
      (scanPlaced 0 0 rest).map (ps ++ (.newline, cs.foldl nextColumn col) :: ·) := by
  induction cs generalizing col skip ps with
  | nil =>
    obtain rfl : skip = 0 := Nat.le_zero.1 le
    cases h
    rfl
  | cons c cs ih =>
    cases skip with
    | succ skip => exact ih h (Nat.le_of_succ_le_succ le)
    | zero =>
      rw [scanPlaced] at h
      have known : Front.of c cs ≠ .nothing := by
        intro nothing
        rw [nothing] at h
        cases h
      have few := Front.more_of c cs
      rw [List.cons_append, scanPlaced, Front.of_line_end rfl known]
      cases front : Front.of c cs with
      | gap more =>
        rw [front] at h few
        exact ih h few
      | token t more =>
        rw [front] at h few
        obtain ⟨ps', scanned, rfl⟩ := Option.map_eq_some_iff.1 h
        simp only [ih scanned few, Option.map_map]
        rfl
      | nothing => exact absurd front known

/-! ## §3 The layout, token by token -/

namespace LayoutState

/-- What one token adds to the output, and what is known after it; none where its column matches no
open block. -/
def step (s : LayoutState) : Placed → Option (List Token × LayoutState)
  | (.newline, _) =>
    if s.depth = 0 ∧ s.lineStart = false then some ([.newline], { s with lineStart := true })
    else some ([], s)
  | (t, col) =>
    if s.lineStart then
      (enterLine? s.blocks col).map fun entered =>
        (entered.1 ++ [t], ⟨entered.2, depthAfter s.depth t, false⟩)
    else some ([t], { s with depth := depthAfter s.depth t })

/-- What tokens add to the output one after the other. -/
def run (s : LayoutState) : List Placed → Option (List Token × LayoutState)
  | [] => some ([], s)
  | p :: ps =>
    (s.step p).bind fun first =>
      (run first.2 ps).map fun more => (first.1 ++ more.1, more.2)

/-- What is added at the end of the text. -/
def ending (s : LayoutState) : List Token :=
  (if s.lineStart then [] else [.newline]) ++ List.replicate (s.blocks.length - 1) .dedent

/-- The output of a whole text. -/
def layout (s : LayoutState) (ps : List Placed) : Option (List Token) :=
  (s.run ps).map fun r => r.1 ++ r.2.ending

theorem step_newline (s : LayoutState) (col : Nat) :
    s.step (.newline, col) =
      if s.depth = 0 ∧ s.lineStart = false then some ([.newline], { s with lineStart := true })
      else some ([], s) := rfl

theorem step_token {t : Token} (ht : t ≠ .newline) (s : LayoutState) (col : Nat) :
    s.step (t, col) =
      if s.lineStart then
        (enterLine? s.blocks col).map fun entered =>
          (entered.1 ++ [t], ⟨entered.2, depthAfter s.depth t, false⟩)
      else some ([t], { s with depth := depthAfter s.depth t }) := by
  cases t with
  | newline => exact absurd rfl ht
  | _ => rfl

theorem run_append {s s' : LayoutState} {ps : List Placed} {out : List Token}
    (h : s.run ps = some (out, s')) (qs : List Placed) :
    s.run (ps ++ qs) = (s'.run qs).map fun r => (out ++ r.1, r.2) := by
  induction ps generalizing s out with
  | nil =>
    cases h
    simp
  | cons p ps ih =>
    obtain ⟨first, stepped, h⟩ := Option.bind_eq_some_iff.1 h
    obtain ⟨more, ran, h⟩ := Option.map_eq_some_iff.1 h
    cases h
    rw [List.cons_append, run, stepped, Option.bind_some, ih ran, Option.map_map]
    simp [Function.comp_def]

theorem layout_append {s s' : LayoutState} {ps : List Placed} {out : List Token}
    (h : s.run ps = some (out, s')) (qs : List Placed) :
    s.layout (ps ++ qs) = (s'.layout qs).map (out ++ ·) := by
  rw [layout, run_append h, layout, Option.map_map, Option.map_map]
  simp [Function.comp_def]

theorem layout_cons (s : LayoutState) (p : Placed) (ps : List Placed) :
    s.layout (p :: ps) =
      (s.step p).bind fun first => (first.2.layout ps).map (first.1 ++ ·) := by
  rw [layout, run, Option.map_bind]
  congr 1
  funext first
  rw [Function.comp_apply, layout, Option.map_map, Option.map_map]
  simp [Function.comp_def]

end LayoutState

/-- The tokens of a layout are the output of the machine. -/
theorem layoutFrom_layout (source : List Char) (s : LayoutState) (ls : List Lexeme) :
    (layoutFrom source s ls).toOption.map (·.map (·.token)) =
      s.layout (ls.map (·.placed source)) := by
  induction ls generalizing s with
  | nil =>
    simp only [layoutFrom, layout, LayoutState.run, ending, Except.toOption, List.map_nil,
      Option.map_some, List.map_append, List.map_replicate, List.nil_append]
    cases s.lineStart <;> rfl
  | cons l ls ih =>
    obtain ⟨t, span⟩ := l
    rw [List.map_cons, layout_cons]
    show _ = (s.step (t, columnAt source span.start)).bind _
    by_cases ht : t = .newline
    · subst ht
      rw [layoutFrom_newline, step_newline]
      split
      · simp only [Option.bind_some, ← ih]
        cases layoutFrom source { s with lineStart := true } ls <;> rfl
      · simp only [Option.bind_some, ← ih, List.nil_append]
        cases layoutFrom source s ls <;> rfl
    · rw [step_token ht]
      cases start : s.lineStart with
      | true =>
        rw [layoutFrom_first ht start, if_pos rfl]
        cases enterLine? s.blocks (columnAt source span.start) with
        | none => rfl
        | some entered =>
          simp only [Option.map_some, Option.bind_some, ← ih]
          cases layoutFrom source ⟨entered.2, depthAfter s.depth t, false⟩ ls with
          | error e => rfl
          | ok out => simp [Except.toOption, Function.comp_def]
      | false =>
        rw [layoutFrom_later ht start, if_neg (by simp)]
        simp only [Option.bind_some, ← ih, start]
        cases layoutFrom source ⟨s.blocks, depthAfter s.depth t, false⟩ ls <;> rfl

/-- The tokens of a text are the output of the machine for its scan. -/
theorem lex_tokens_iff {source : List Char} {ts : List Token} :
    (∃ ls, lex source = .ok ls ∧ ls.map (·.token) = ts) ↔
      ∃ ps, scanPlaced 0 0 source = some ps ∧ layout {} ps = some ts := by
  have scanned : (scan source).toOption.map (·.map (·.placed source)) = scanPlaced 0 0 source :=
    @scanFrom_placed source [] source rfl 0
  rw [lex, ← scanned]
  cases scan source with
  | error e => simp [Except.toOption]
  | ok ls =>
    have laid := layoutFrom_layout source {} ls
    simp only [Except.toOption, Option.map_some, Option.some.injEq, exists_eq_left', ← laid,
      ok_bind]
    cases layoutFrom source {} ls with
    | error e => simp
    | ok out => simp

/-! ## §4 Open blocks and parentheses -/

namespace LayoutState

/-- Columns of open blocks: the outermost is column 0, and it is the only one there. -/
def Nested (blocks : List Nat) : Prop := ∃ deep, blocks = deep ++ [0] ∧ ∀ col ∈ deep, 0 < col

theorem nested_start : Nested [0] := ⟨[], rfl, by simp⟩

/-- A line leaves blocks nested. -/
theorem nested_enterLine? {blocks blocks' : List Nat} {col : Nat} {marks : List Token}
    (h : Nested blocks) (entered : enterLine? blocks col = some (marks, blocks')) :
    Nested blocks' := by
  obtain ⟨deep, rfl, positive⟩ := h
  rw [enterLine?] at entered
  split at entered
  · rename_i right
    cases entered
    refine ⟨col :: deep, rfl, ?_⟩
    rintro b (_ | ⟨_, hb⟩)
    · exact Nat.zero_lt_of_lt right
    · exact positive b hb
  · have kept : (deep ++ [0]).dropWhile (col < ·) = deep.dropWhile (col < ·) ++ [0] :=
      dropWhile_append_cons (by simp) deep []
    simp only at entered
    split at entered
    · cases entered
      refine ⟨_, kept, fun b hb => positive b ?_⟩
      exact (List.dropWhile_sublist _).subset hb
    · cases entered

/-- A line at column 0 closes all blocks. -/
theorem enterLine?_zero {blocks : List Nat} (h : Nested blocks) :
    enterLine? blocks 0 = some (List.replicate (blocks.length - 1) .dedent, [0]) := by
  obtain ⟨deep, rfl, positive⟩ := h
  have all : ∀ b ∈ deep, decide (0 < b) = true := by simpa using positive
  have closed : (deep ++ [0]).takeWhile (0 < ·) = deep := by
    simp [List.takeWhile_append_of_pos all]
  have kept : (deep ++ [0]).dropWhile (0 < ·) = [0] := by
    simp [List.dropWhile_append_of_pos all]
  rw [enterLine?, if_neg (Nat.not_lt_zero _)]
  simp [closed, kept]

theorem nested_step {s s' : LayoutState} {p : Placed} {out : List Token} (h : Nested s.blocks)
    (stepped : s.step p = some (out, s')) : Nested s'.blocks := by
  obtain ⟨t, col⟩ := p
  by_cases ht : t = .newline
  · subst ht
    rw [step_newline] at stepped
    split at stepped
    · cases stepped
      exact h
    · cases stepped
      exact h
  · rw [step_token ht] at stepped
    split at stepped
    · obtain ⟨entered, enter, stepped⟩ := Option.map_eq_some_iff.1 stepped
      cases stepped
      exact nested_enterLine? h enter
    · cases stepped
      exact h

theorem foldl_depthAfter_marks {ts : List Token} (h : ∀ t ∈ ts, t.isMark = true) (d : Nat) :
    ts.foldl depthAfter d = d := by
  induction ts with
  | nil => rfl
  | cons t ts ih =>
    have mark : depthAfter d t = d := by
      cases t with
      | symbol s => cases h (.symbol s) (by simp)
      | _ => rfl
    rw [List.foldl_cons, mark]
    exact ih fun u hu => h u (by simp [hu])

/-- The parentheses that are open after a token are those of the output. -/
theorem depth_step {s s' : LayoutState} {p : Placed} {out : List Token}
    (stepped : s.step p = some (out, s')) : s'.depth = out.foldl depthAfter s.depth := by
  obtain ⟨t, col⟩ := p
  by_cases ht : t = .newline
  · subst ht
    rw [step_newline] at stepped
    split at stepped
    · cases stepped
      rfl
    · cases stepped
      rfl
  · rw [step_token ht] at stepped
    split at stepped
    · obtain ⟨⟨marks, blocks⟩, enter, stepped⟩ := Option.map_eq_some_iff.1 stepped
      cases stepped
      rw [List.foldl_append, foldl_depthAfter_marks (isMark_of_enterLine? enter)]
      rfl
    · cases stepped
      rfl

end LayoutState

/-- What a run keeps: blocks stay nested, and the open parentheses are those of the output. -/
theorem LayoutState.run_spec {s s' : LayoutState} {ps : List Placed} {out : List Token}
    (h : Nested s.blocks) (ran : s.run ps = some (out, s')) :
    Nested s'.blocks ∧ s'.depth = out.foldl depthAfter s.depth := by
  induction ps generalizing s out with
  | nil =>
    cases ran
    exact ⟨h, rfl⟩
  | cons p ps ih =>
    obtain ⟨⟨first, s₁⟩, stepped, ran⟩ := Option.bind_eq_some_iff.1 ran
    obtain ⟨⟨more, s₂⟩, later, ran⟩ := Option.map_eq_some_iff.1 ran
    cases ran
    obtain ⟨nested, depth⟩ := ih (nested_step h stepped) later
    rw [depth_step stepped] at depth
    exact ⟨nested, by rw [depth, List.foldl_append]⟩

/-! ## §5 Two texts -/

namespace LayoutState

theorem isMark_of_mem_ending (s : LayoutState) : ∀ t ∈ s.ending, t.isMark = true := by
  intro t ht
  rcases List.mem_append.1 ht with ht | ht
  · split at ht
    · cases ht
    · obtain rfl := List.mem_singleton.1 ht
      rfl
  · obtain rfl := (List.mem_replicate.1 ht).2
    rfl

/-- The end of a line without tokens adds nothing. -/
theorem layout_empty_line (blocks : List Nat) (d col : Nat) (ps : List Placed) :
    layout ⟨blocks, d, true⟩ ((.newline, col) :: ps) = layout ⟨blocks, d, true⟩ ps := by
  simp [layout_cons, step_newline]

/-- The end of a line with tokens, outside parentheses, ends the line. -/
theorem layout_line_end (blocks : List Nat) (col : Nat) (ps : List Placed) :
    layout ⟨blocks, 0, false⟩ ((.newline, col) :: ps) =
      (layout ⟨blocks, 0, true⟩ ps).map (.newline :: ·) := by
  simp [layout_cons, step_newline]

/-- A text that does not start with an indented line closes the blocks that are open before it. -/
theorem layout_closes {blocks : List Nat} {qs : List Placed} {us : List Token}
    (h : Nested blocks) (alone : layout {} qs = some us) (starts : us.head? ≠ some .indent) :
    layout ⟨blocks, 0, true⟩ qs = some (List.replicate (blocks.length - 1) .dedent ++ us) := by
  induction qs with
  | nil =>
    cases alone
    simp [layout, run, ending]
  | cons q qs ih =>
    obtain ⟨t, col⟩ := q
    by_cases ht : t = .newline
    · subst ht
      rw [layout_empty_line] at alone ⊢
      exact ih alone
    · rw [layout_cons, step_token ht, if_pos rfl] at alone ⊢
      have left : col = 0 := by
        by_contra right
        have entered : enterLine? [0] col = some ([.indent], [col, 0]) :=
          if_pos (Nat.pos_of_ne_zero right)
        rw [entered] at alone
        obtain ⟨more, -, rfl⟩ := Option.map_eq_some_iff.1 alone
        exact starts rfl
      subst left
      rw [enterLine?_zero nested_start] at alone
      rw [enterLine?_zero h]
      obtain ⟨more, later, rfl⟩ := Option.map_eq_some_iff.1 alone
      simp [later]

/-- Two texts with two ends of lines between them. -/
theorem layout_join {ps qs : List Placed} {ts us : List Token} (first : layout {} ps = some ts)
    (closed : ts.foldl depthAfter 0 = 0) (second : layout {} qs = some us)
    (starts : us.head? ≠ some .indent) (col col' : Nat) :
    layout {} (ps ++ (.newline, col) :: (.newline, col') :: qs) = some (ts ++ us) := by
  obtain ⟨⟨out, s⟩, ran, rfl⟩ := Option.map_eq_some_iff.1 first
  obtain ⟨nested, depth⟩ := run_spec nested_start ran
  have depth : s.depth = 0 := by
    rw [List.foldl_append, foldl_depthAfter_marks s.isMark_of_mem_ending] at closed
    exact depth.trans closed
  obtain ⟨blocks, d, lineStart⟩ := s
  subst depth
  have closes := layout_closes nested second starts
  rw [layout_append ran]
  cases lineStart with
  | true =>
    rw [layout_empty_line, layout_empty_line, closes]
    simp [ending]
  | false =>
    rw [layout_line_end, layout_empty_line, closes]
    simp [ending]

end LayoutState

/-- Two texts with an empty line between them have the tokens of both, if the parentheses of the
first are closed and the second does not start with an indented line. -/
theorem lex_join {source source' : List Char} {ls ls' : List Lexeme} (first : lex source = .ok ls)
    (closed : (ls.map (·.token)).foldl depthAfter 0 = 0) (second : lex source' = .ok ls')
    (starts : (ls'.map (·.token)).head? ≠ some .indent) :
    ∃ joined, lex (source ++ '\n' :: '\n' :: source') = .ok joined ∧
      joined.map (·.token) = ls.map (·.token) ++ ls'.map (·.token) := by
  obtain ⟨ps, scanned, laid⟩ := lex_tokens_iff.1 ⟨ls, first, rfl⟩
  obtain ⟨qs, scanned', laid'⟩ := lex_tokens_iff.1 ⟨ls', second, rfl⟩
  have line : scanPlaced 0 0 ('\n' :: source') = some ((.newline, 0) :: qs) := by
    show (scanPlaced 0 0 source').map _ = _
    rw [scanned', Option.map_some]
  refine lex_tokens_iff.2 ⟨_, ?_, layout_join laid closed laid' starts (source.foldl nextColumn 0) 0⟩
  rw [scanPlaced_line_end scanned (Nat.zero_le _), line, Option.map_some]

end Serpent
