/-
Serpent.Proofs.Sexp — reading what is written in words, strings and parentheses.

Text is described from its end to its front: what follows a word must start with a blank or a
parenthesis. Lines end in a line feed, so anything may follow them. Parts nest as the parentheses
do.

  §1 Characters of words
  §2 Parts of a text
  §3 Lines
  §4 Nesting
-/
import Mathlib.Tactic.Common
import Serpent.Text.Line
import Serpent.Wasm.Sexp

namespace Serpent.Wasm

open Serpent.Wasm.Part

/-! ## §1 Characters of words -/

/-- A character of a word is none that ends a word. -/
theorem ne_of_isWordChar {c d : Char} (h : isWordChar c = true) (hd : isWordChar d = false) :
    c ≠ d := by
  rintro rfl
  rw [h] at hd
  cases hd

theorem isWordChar_of_isSpace {c : Char} (h : isSpace c = true) : isWordChar c = false := by
  simp only [isSpace, Bool.or_eq_true, beq_iff_eq] at h
  rcases h with ((rfl | rfl) | rfl) | rfl <;> decide

/-- Whether a text is a word. -/
def isWord (w : String) : Bool := w ≠ "" && w.toList.all isWordChar

/-- Whether a text can follow a word: it is empty, or starts with a blank or a parenthesis. -/
def isBoundary : List Char → Bool
  | [] => true
  | c :: _ => isSpace c || c == '(' || c == ')'

theorem isBoundary_append {cs rest : List Char} (h : isBoundary cs = true)
    (hrest : isBoundary rest = true) : isBoundary (cs ++ rest) = true := by
  cases cs with
  | nil => exact hrest
  | cons c cs => exact h

/-! ## §2 Parts of a text -/

/-! What a mode makes of one character, stated per mode so that a proof can take one step. -/

theorem readFrom_nil : readFrom .between [] = some [] := rfl

theorem readFrom_between_cons (c : Char) (cs : List Char) :
    readFrom .between (c :: cs) =
      if isSpace c then readFrom .between cs
      else if c == '(' then (readFrom .between cs).map (.opening :: ·)
      else if c == ')' then (readFrom .between cs).map (.closing :: ·)
      else if c == '"' then readFrom (.inString []) cs
      else if c == ';' then readFrom .semicolon cs
      else if isWordChar c then readFrom (.inWord [c]) cs
      else none := rfl

theorem readFrom_inWord_cons (before : List Char) (c : Char) (cs : List Char) :
    readFrom (.inWord before) (c :: cs) =
      if isWordChar c then readFrom (.inWord (c :: before)) cs
      else if isSpace c then (readFrom .between cs).map (ofReversed before :: ·)
      else if c == '(' then (readFrom .between cs).map ([ofReversed before, .opening] ++ ·)
      else if c == ')' then (readFrom .between cs).map ([ofReversed before, .closing] ++ ·)
      else if c == ';' then (readFrom .semicolon cs).map (ofReversed before :: ·)
      else none := rfl

theorem readFrom_inString_cons (before : List Char) (c : Char) (cs : List Char) :
    readFrom (.inString before) (c :: cs) =
      if c == '"' then (readFrom .between cs).map (.string (String.ofList before.reverse) :: ·)
      else if c == '\\' || c.toNat < 32 then none
      else readFrom (.inString (c :: before)) cs := rfl

/-- A word ends where a blank or a parenthesis follows. -/
theorem readFrom_inWord_of_isBoundary {before rest : List Char} (h : isBoundary rest = true) :
    readFrom (.inWord before) rest = (readFrom .between rest).map (ofReversed before :: ·) := by
  cases rest with
  | nil => rfl
  | cons c rest =>
    simp only [isBoundary, Bool.or_eq_true, beq_iff_eq] at h
    rcases h with (space | rfl) | rfl
    · simp [readFrom_inWord_cons, readFrom_between_cons, isWordChar_of_isSpace space, space]
    · have noWord : isWordChar '(' = false := by decide
      have noSpace : isSpace '(' = false := by decide
      simp [readFrom_inWord_cons, readFrom_between_cons, noWord, noSpace, Function.comp_def]
    · have noWord : isWordChar ')' = false := by decide
      have noSpace : isSpace ')' = false := by decide
      simp [readFrom_inWord_cons, readFrom_between_cons, noWord, noSpace, Function.comp_def]

/-- A word that has been started is read up to its end. -/
theorem readFrom_inWord {before cs rest : List Char} (h : ∀ c ∈ cs, isWordChar c = true)
    (boundary : isBoundary rest = true) :
    readFrom (.inWord before) (cs ++ rest) =
      (readFrom .between rest).map (.word (String.ofList (before.reverse ++ cs)) :: ·) := by
  induction cs generalizing before with
  | nil => rw [List.nil_append, List.append_nil, readFrom_inWord_of_isBoundary boundary, ofReversed]
  | cons c cs ih =>
    have word := h c (by simp)
    rw [List.cons_append, readFrom_inWord_cons, if_pos word, ih fun d hd => h d (by simp [hd])]
    simp

/-- The characters that a string can hold. -/
def isStringChar (c : Char) : Bool := c != '"' && c != '\\' && decide (32 ≤ c.toNat)

theorem readFrom_inString {before cs rest : List Char} (h : ∀ c ∈ cs, isStringChar c = true) :
    readFrom (.inString before) (cs ++ '"' :: rest) =
      (readFrom .between rest).map (.string (String.ofList (before.reverse ++ cs)) :: ·) := by
  induction cs generalizing before with
  | nil => simp [readFrom_inString_cons]
  | cons c cs ih =>
    have char := h c (by simp)
    simp only [isStringChar, Bool.and_eq_true, bne_iff_ne, ne_eq, decide_eq_true_eq] at char
    obtain ⟨⟨quote, backslash⟩, printable⟩ := char
    rw [List.cons_append, readFrom_inString_cons, if_neg (by simpa using quote),
      if_neg (by simp [backslash]; omega), ih fun d hd => h d (by simp [hd])]
    simp

/-- A text is read as parts, whatever follows it that can follow a word. -/
def Reads (cs : List Char) (ps : List Part) : Prop :=
  ∀ rest, isBoundary rest = true →
    readFrom .between (cs ++ rest) = (readFrom .between rest).map (ps ++ ·)

namespace Reads

variable {cs ds : List Char} {ps qs : List Part}

theorem nil : Reads [] [] := by
  intro rest _
  simp

theorem space (h : Reads cs ps) : Reads (' ' :: cs) ps := by
  intro rest boundary
  rw [List.cons_append, readFrom_between_cons, if_pos (by decide), h rest boundary]

theorem opening (h : Reads cs ps) : Reads ('(' :: cs) (.opening :: ps) := by
  intro rest boundary
  rw [List.cons_append, readFrom_between_cons, if_neg (by decide), if_pos (by decide),
    h rest boundary]
  simp [Function.comp_def]

theorem closing (h : Reads cs ps) : Reads (')' :: cs) (.closing :: ps) := by
  intro rest boundary
  rw [List.cons_append, readFrom_between_cons, if_neg (by decide), if_neg (by decide),
    if_pos (by decide), h rest boundary]
  simp [Function.comp_def]

theorem string {s : String} (chars : ∀ c ∈ s.toList, isStringChar c = true) (h : Reads cs ps) :
    Reads ('"' :: s.toList ++ '"' :: cs) (.string s :: ps) := by
  intro rest boundary
  simp only [List.cons_append, List.append_assoc]
  rw [readFrom_between_cons, if_neg (by decide), if_neg (by decide), if_neg (by decide),
    if_pos (by decide), readFrom_inString chars, h rest boundary]
  simp [Function.comp_def]

theorem word {w : String} (isWord : isWord w = true) (follows : isBoundary cs = true)
    (h : Reads cs ps) : Reads (w.toList ++ cs) (.word w :: ps) := by
  intro rest boundary
  simp only [Wasm.isWord, Bool.and_eq_true, decide_eq_true_eq, List.all_eq_true] at isWord
  obtain ⟨nonempty, chars⟩ := isWord
  cases hw : w.toList with
  | nil => exact absurd (String.toList_eq_nil_iff.1 hw) nonempty
  | cons c tail =>
    rw [hw] at chars
    have first := chars c (by simp)
    have noSpace : isSpace c = false := by
      by_contra space
      rw [Bool.not_eq_false] at space
      rw [isWordChar_of_isSpace space] at first
      cases first
    have split : (c :: tail ++ cs) ++ rest = c :: (tail ++ (cs ++ rest)) := by simp
    rw [split, readFrom_between_cons, if_neg (by simp [noSpace]),
      if_neg (by simpa using ne_of_isWordChar first (by decide)),
      if_neg (by simpa using ne_of_isWordChar first (by decide)),
      if_neg (by simpa using ne_of_isWordChar first (by decide)),
      if_neg (by simpa using ne_of_isWordChar first (by decide)), if_pos first,
      readFrom_inWord (fun d hd => chars d (by simp [hd])) (isBoundary_append follows boundary),
      h rest boundary]
    have name : String.ofList ([c].reverse ++ tail) = w := by
      rw [← String.ofList_toList (s := w), hw]
      rfl
    rw [name]
    simp [Function.comp_def]

/-- A word on its own. -/
theorem ofWord {w : String} (isWord : isWord w = true) : Reads w.toList [.word w] := by
  simpa using word isWord rfl .nil

theorem append (h : Reads cs ps) (h' : Reads ds qs) (follows : isBoundary ds = true) :
    Reads (cs ++ ds) (ps ++ qs) := by
  intro rest boundary
  rw [List.append_assoc, h _ (isBoundary_append follows boundary), h' rest boundary]
  simp [Function.comp_def]

end Reads

/-! ## §3 Lines -/

/-- Lines are read as parts, whatever follows them. -/
def ReadsLines (ls : List Line) (ps : List Part) : Prop :=
  ∀ rest, readFrom .between ((Line.renderAll "  " ls).toList ++ rest) =
    (readFrom .between rest).map (ps ++ ·)

theorem renderAll_cons (l : Line) (ls : List Line) :
    Line.renderAll "  " (l :: ls) = l.render "  " ++ Line.renderAll "  " ls := by
  simp [Line.renderAll]

theorem renderAll_append (ls ls' : List Line) :
    Line.renderAll "  " (ls ++ ls') = Line.renderAll "  " ls ++ Line.renderAll "  " ls' := by
  simp [Line.renderAll]

/-- Indentation is skipped. -/
theorem readFrom_indent (depth : Nat) (cs : List Char) :
    readFrom .between ((String.join (List.replicate depth "  ")).toList ++ cs) =
      readFrom .between cs := by
  induction depth with
  | zero => simp
  | succ depth ih =>
    have split : (String.join (List.replicate (depth + 1) "  ")).toList ++ cs =
        ' ' :: ' ' :: ((String.join (List.replicate depth "  ")).toList ++ cs) := by
      simp [List.replicate_succ]
    rw [split, readFrom_between_cons, if_pos (by decide), readFrom_between_cons,
      if_pos (by decide), ih]

namespace ReadsLines

variable {ls ls' : List Line} {ps qs : List Part}

theorem nil : ReadsLines [] [] := by
  intro rest
  simp [Line.renderAll]

theorem cons {depth : Nat} {text : String} (h : Reads text.toList ps) (h' : ReadsLines ls qs) :
    ReadsLines (⟨depth, text⟩ :: ls) (ps ++ qs) := by
  intro rest
  have split : (Line.renderAll "  " (⟨depth, text⟩ :: ls)).toList ++ rest =
      (String.join (List.replicate depth "  ")).toList ++
        (text.toList ++ '\n' :: ((Line.renderAll "  " ls).toList ++ rest)) := by
    simp [renderAll_cons, Line.render]
  rw [split, readFrom_indent, h _ rfl, readFrom_between_cons, if_pos (by decide), h' rest]
  simp [Function.comp_def]

theorem append (h : ReadsLines ls ps) (h' : ReadsLines ls' qs) :
    ReadsLines (ls ++ ls') (ps ++ qs) := by
  intro rest
  rw [renderAll_append, String.toList_append, List.append_assoc, h, h' rest]
  simp [Function.comp_def]

end ReadsLines

/-! ## §4 Nesting -/

namespace Sexp

mutual

/-- The parts of an item. -/
def parts : Sexp → List Part
  | .word w => [.word w]
  | .string s => [.string s]
  | .list items => .opening :: (listParts items ++ [.closing])

/-- The parts of items one after the other. -/
def listParts : List Sexp → List Part
  | [] => []
  | item :: items => item.parts ++ listParts items

end

theorem listParts_append (xs ys : List Sexp) :
    listParts (xs ++ ys) = listParts xs ++ listParts ys := by
  induction xs with
  | nil => rfl
  | cons x xs ih => simp [listParts, ih]

mutual

/-- The parts of an item put it at the end of the innermost open list. -/
theorem ofParts_parts (l : List Sexp) (ls : List (List Sexp)) (rest : List Part) :
    ∀ item : Sexp, ofParts (l :: ls) (item.parts ++ rest) = ofParts ((item :: l) :: ls) rest
  | .word w => by simp [parts, ofParts, push]
  | .string s => by simp [parts, ofParts, push]
  | .list items => by
    simp only [parts, List.cons_append, List.append_assoc]
    rw [ofParts, ofParts_listParts [] (l :: ls) _ items]
    simp [ofParts, push]

theorem ofParts_listParts (l : List Sexp) (ls : List (List Sexp)) (rest : List Part) :
    ∀ items : List Sexp,
      ofParts (l :: ls) (listParts items ++ rest) = ofParts ((items.reverse ++ l) :: ls) rest
  | [] => by simp [listParts]
  | item :: items => by
    rw [listParts, List.append_assoc, ofParts_parts l ls _ item,
      ofParts_listParts (item :: l) ls rest items]
    simp

end

/-- Texts that are read as an item each, and that can follow a word. -/
theorem reads_join {α : Type} {f : α → String} {g : α → Sexp} (xs : List α)
    (boundary : ∀ x ∈ xs, isBoundary (f x).toList = true)
    (h : ∀ x ∈ xs, Reads (f x).toList (g x).parts) :
    Reads (String.join (xs.map f)).toList (listParts (xs.map g)) ∧
      isBoundary (String.join (xs.map f)).toList = true := by
  induction xs with
  | nil => exact ⟨by simpa [listParts] using Reads.nil, by simp [isBoundary]⟩
  | cons x xs ih =>
    obtain ⟨tail, tailBoundary⟩ := ih (fun y hy => boundary y (by simp [hy]))
      (fun y hy => h y (by simp [hy]))
    have split : (String.join ((x :: xs).map f)).toList =
        (f x).toList ++ (String.join (xs.map f)).toList := by simp
    rw [split]
    exact ⟨(h x (by simp)).append tail tailBoundary,
      isBoundary_append (boundary x (by simp)) tailBoundary⟩

/-- Lines that are read as an item each time. -/
theorem readsLines_flatMap {α : Type} {f : α → List Line} {g : α → Sexp} {xs : List α}
    (h : ∀ x ∈ xs, ReadsLines (f x) (g x).parts) :
    ReadsLines (xs.flatMap f) (listParts (xs.map g)) := by
  induction xs with
  | nil => exact .nil
  | cons x xs ih => exact (h x (by simp)).append (ih fun y hy => h y (by simp [hy]))

/-- Lines that are read as the parts of items are read as these items. -/
theorem readAll_renderAll {ls : List Line} {items : List Sexp}
    (h : ReadsLines ls (listParts items)) :
    readAll (Line.renderAll "  " ls) = some items := by
  have parts : Part.readAll (Line.renderAll "  " ls).toList = some (listParts items) := by
    have := h []
    simpa [Part.readAll, readFrom_nil] using this
  have nested := ofParts_listParts [] [] [] items
  rw [readAll, parts, Option.bind_some]
  simpa [ofParts] using nested

end Sexp

end Serpent.Wasm
