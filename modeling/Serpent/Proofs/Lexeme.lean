/-
Serpent.Proofs.Lexeme — every lexeme stands where its span says.

A token other than a mark of lines and blocks has a spelling. In a text that can be cut into lexemes
the span of each such lexeme cuts out the spelling of its token, and the token is of the form that
its class asks for: a name is an identifier, a number is made of digits. So a leaf of the tree of a
text has the spelling of its token as its text.

  §1 Identifiers and spellings
  §2 What stands at the front
  §3 The scan and the layout
  §4 The text of a leaf
-/
import Serpent.Proofs.Fallible
import Serpent.Tree.Source

namespace Serpent

open Fallible

/-! ## §1 Identifiers and spellings -/

/-- Whether a text is an identifier: a word that is not reserved. -/
def isIdentifier (x : String) : Bool :=
  match x.toList with
  | [] => false
  | c :: cs => isNameStart c && cs.all isNamePart && (Keyword.ofText? x).isNone

namespace Token

/-- How a token is written. The marks of lines and blocks are not written. -/
def text : Token → String
  | .keyword k => k.text
  | .symbol s => s.text
  | .float t => t
  | .int t => t
  | .name t => t
  | _ => ""

/-- Whether a token only marks lines and blocks. -/
def isMark : Token → Bool
  | .newline => true
  | .indent => true
  | .dedent => true
  | _ => false

/-- Whether the spelling of a token is one of its class. -/
def IsSpelled : Token → Prop
  | .name x => isIdentifier x = true
  | .int x => x.toList.all Char.isDigit = true
  | .float x => x.toList.all (fun c => c.isDigit || c == '.') = true
  | _ => True

end Token

theorem isNamePart_of_isNameStart {c : Char} (h : isNameStart c = true) : isNamePart c = true := by
  simp only [isNameStart, isNamePart, Char.isAlphanum, Bool.or_eq_true] at h ⊢
  tauto

theorem isNamePart_of_isDigit {c : Char} (h : c.isDigit = true) : isNamePart c = true := by
  simp [isNamePart, Char.isAlphanum, h]

/-- The code point of a character of a word lies between those of `0` and `z`. -/
theorem toNat_of_isNamePart {c : Char} (h : isNamePart c = true) :
    48 ≤ c.toNat ∧ c.toNat ≤ 122 := by
  delta isNamePart Char.isAlphanum Char.isAlpha Char.isUpper Char.isLower Char.isDigit at h
  simp only [Bool.or_eq_true, Bool.and_eq_true, decide_eq_true_eq, beq_iff_eq, ge_iff_le,
    UInt32.le_iff_toNat_le] at h
  have code : c.toNat = c.val.toNat := rfl
  rcases h with ((⟨lo, hi⟩ | ⟨lo, hi⟩) | ⟨lo, hi⟩) | rfl
  · have : 'A'.val.toNat = 65 := rfl
    have : 'Z'.val.toNat = 90 := rfl
    omega
  · have : 'a'.val.toNat = 97 := rfl
    have : 'z'.val.toNat = 122 := rfl
    omega
  · have : '0'.val.toNat = 48 := rfl
    have : '9'.val.toNat = 57 := rfl
    omega
  · decide

theorem isBlank_of_isNamePart {c : Char} (h : isNamePart c = true) : isBlank c = false := by
  have := toNat_of_isNamePart h
  simp only [isBlank, inRanges, blankRanges, List.any_cons, List.any_nil, Bool.or_false,
    Bool.or_eq_false_iff, Bool.and_eq_false_iff, decide_eq_false_iff_not]
  omega

/-- The characters of an identifier. -/
theorem isIdentifier_iff {x : String} :
    isIdentifier x = true ↔
      ∃ c cs, x.toList = c :: cs ∧ isNameStart c = true ∧ (∀ d ∈ cs, isNamePart d = true) ∧
        Keyword.ofText? x = none := by
  unfold isIdentifier
  cases x.toList with
  | nil => simp
  | cons c cs => simp [and_assoc]

theorem isNamePart_of_mem_identifier {x : String} (h : isIdentifier x = true) {c : Char}
    (hc : c ∈ x.toList) : isNamePart c = true := by
  obtain ⟨d, ds, hx, hd, hds, -⟩ := isIdentifier_iff.1 h
  rw [hx, List.mem_cons] at hc
  rcases hc with rfl | hc
  · exact isNamePart_of_isNameStart hd
  · exact hds c hc

/-- No character of a spelling is blank. -/
theorem Token.isBlank_of_mem_text {t : Token} (h : t.IsSpelled) {c : Char}
    (hc : c ∈ t.text.toList) : isBlank c = false := by
  cases t with
  | keyword k =>
    have noBlank : (Token.keyword k).text.toList.all (fun c => !isBlank c) = true := by
      cases k <;> decide
    simpa using List.all_eq_true.1 noBlank c hc
  | symbol s =>
    have noBlank : (Token.symbol s).text.toList.all (fun c => !isBlank c) = true := by
      cases s <;> decide
    simpa using List.all_eq_true.1 noBlank c hc
  | name x => exact isBlank_of_isNamePart (isNamePart_of_mem_identifier h hc)
  | int x => exact isBlank_of_isNamePart (isNamePart_of_isDigit (List.all_eq_true.1 h c hc))
  | float x =>
    have hd := List.all_eq_true.1 h c hc
    rw [Bool.or_eq_true, beq_iff_eq] at hd
    rcases hd with hd | rfl
    · exact isBlank_of_isNamePart (isNamePart_of_isDigit hd)
    · decide
  | newline => simp [Token.text] at hc
  | indent => simp [Token.text] at hc
  | dedent => simp [Token.text] at hc

/-! ## §2 What stands at the front -/

namespace Front

/-- What it means that a token is at the front of a text: the first character and the next `more`
ones spell it. -/
def Spells (c : Char) (cs : List Char) (t : Token) (more : Nat) : Prop :=
  t.text.toList = c :: cs.take more ∧ t.IsSpelled

theorem takeWhile_eq_take (p : Char → Bool) (cs : List Char) :
    cs.takeWhile p = cs.take (cs.takeWhile p).length :=
  List.prefix_iff_eq_take.1 (List.takeWhile_prefix p)

theorem spells_number {c : Char} {cs : List Char} {t : Token} {more : Nat}
    (digit : c.isDigit = true) (h : number c cs = .token t more) : Spells c cs t more := by
  have all : (cs.takeWhile Char.isDigit).all Char.isDigit = true := List.all_takeWhile
  simp only [number] at h
  split at h
  · rename_i rest hrest
    cases h
    have cut : cs = cs.takeWhile Char.isDigit ++ '.' :: rest := by
      rw [← hrest, List.takeWhile_append_dropWhile]
    have fraction : (rest.takeWhile Char.isDigit).all Char.isDigit = true := List.all_takeWhile
    constructor
    · generalize cs.takeWhile Char.isDigit = digits at cut
      rw [cut, Nat.add_assoc, List.take_length_add_append, Nat.add_comm 1, List.take_succ_cons,
        ← takeWhile_eq_take]
      simp [Token.text]
    · simp only [List.all_eq_true] at all fraction
      simp only [Token.IsSpelled, String.toList_ofList, List.all_eq_true, List.cons_append,
        List.mem_cons, List.mem_append, Bool.or_eq_true, beq_iff_eq]
      rintro d (rfl | hd | rfl | hd)
      · exact .inl digit
      · exact .inl (all d hd)
      · exact .inr rfl
      · exact .inl (fraction d hd)
  · cases h
    constructor
    · simp only [Token.text, String.toList_ofList, ← takeWhile_eq_take]
    · simp [Token.IsSpelled, digit, all]

theorem spells_word {c : Char} {cs : List Char} {t : Token} {more : Nat}
    (start : isNameStart c = true) (h : word c cs = .token t more) : Spells c cs t more := by
  have all : ∀ d ∈ cs.takeWhile isNamePart, isNamePart d = true :=
    List.all_eq_true.1 List.all_takeWhile
  simp only [word, Token.ofWord] at h
  split at h
  · rename_i k hk
    cases h
    refine ⟨?_, trivial⟩
    rw [Token.text, Keyword.text_of_ofText? hk, String.toList_ofList, ← takeWhile_eq_take]
  · rename_i hk
    cases h
    constructor
    · rw [Token.text, String.toList_ofList, ← takeWhile_eq_take]
    · exact isIdentifier_iff.2 ⟨c, _, String.toList_ofList, start, all, hk⟩

theorem spells_symbol {c : Char} {cs : List Char} {t : Token} {more : Nat}
    (h : symbol c cs = .token t more) : Spells c cs t more := by
  unfold symbol at h
  split at h
  all_goals cases h
  all_goals exact ⟨rfl, trivial⟩

/-- A token at the front of a text is spelled there, or it is the end of a line. -/
theorem spells_of {c : Char} {cs : List Char} {t : Token} {more : Nat}
    (h : of c cs = .token t more) : t = .newline ∨ Spells c cs t more := by
  unfold of at h
  split at h
  · cases h
  · split at h
    · cases h
    · split at h
      · rename_i digit
        exact .inr (spells_number digit h)
      · split at h
        · rename_i start
          exact .inr (spells_word start h)
        · split at h
          · cases h
          · cases h
          · cases h
            exact .inl rfl
          · cases h
            exact .inl rfl
          · exact .inr (spells_symbol h)

end Front

/-! ## §3 The scan and the layout -/

/-- A lexeme is a mark, or its span cuts its spelling out of the source. -/
def Lexeme.Stands (source : List Char) (l : Lexeme) : Prop :=
  l.token.isMark = true ∨
    l.span.slice? source = some l.token.text.toList ∧ l.token.IsSpelled

/-- The invariant of the scan: what has been passed over is `pre`. -/
theorem scanFrom_stands {source pre cs : List Char} {skip : Nat} {ls : List Lexeme}
    (h : scanFrom (utf8Length pre) skip cs = .ok ls) (cut : source = pre ++ cs) :
    ∀ l ∈ ls, l.Stands source := by
  induction cs generalizing pre skip ls with
  | nil =>
    simp only [scanFrom] at h
    cases h
    simp
  | cons c cs ih =>
    have cut' : source = pre ++ [c] ++ cs := by simpa using cut
    have place : utf8Length pre + c.utf8Size = utf8Length (pre ++ [c]) := by simp
    cases skip with
    | succ skip =>
      rw [scanFrom, place] at h
      exact ih h cut'
    | zero =>
      rw [scanFrom, place] at h
      split at h
      · exact ih h cut'
      · rename_i t more front
        obtain ⟨rest, hrest, h⟩ := bind_eq_ok.1 h
        cases h
        intro l hl
        rw [List.mem_cons] at hl
        rcases hl with rfl | hl
        · rcases Front.spells_of front with rfl | ⟨text, spelled⟩
          · exact .inl rfl
          · refine .inr ⟨?_, spelled⟩
            have split : source = pre ++ (c :: cs.take more) ++ cs.drop more := by
              rw [cut, List.append_assoc, List.cons_append, List.take_append_drop]
            rw [split, text]
            exact Span.slice?_append _ _ _
        · exact ih hrest cut' l hl
      · cases h

theorem scan_stands {source : List Char} {ls : List Lexeme} (h : scan source = .ok ls) :
    ∀ l ∈ ls, l.Stands source :=
  @scanFrom_stands source [] source 0 ls h rfl

/-- What holds of every token that stands at the front of a text holds of every token of a scan. -/
theorem scanFrom_tokens {P : Token → Prop}
    (each : ∀ {c cs t more}, Front.of c cs = .token t more → P t) {pos skip : Nat} {cs : List Char}
    {ls : List Lexeme} (h : scanFrom pos skip cs = .ok ls) : ∀ l ∈ ls, P l.token := by
  induction cs generalizing pos skip ls with
  | nil =>
    simp only [scanFrom] at h
    cases h
    simp
  | cons c cs ih =>
    cases skip with
    | succ skip =>
      rw [scanFrom] at h
      exact ih h
    | zero =>
      rw [scanFrom] at h
      split at h
      · exact ih h
      · rename_i t more front
        obtain ⟨rest, hrest, h⟩ := bind_eq_ok.1 h
        cases h
        exact List.forall_mem_cons.2 ⟨each front, ih hrest⟩
      · cases h

section Layout

open LayoutState

/-- The layout of a token that is not the end of a line, first on its line. -/
theorem layoutFrom_first {source : List Char} {s : LayoutState} {t : Token} {span : Span}
    {rest : List Lexeme} (ht : t ≠ .newline) (start : s.lineStart = true) :
    layoutFrom source s (⟨t, span⟩ :: rest) =
      match enterLine? s.blocks (columnAt source span.start) with
      | none => .error (.inconsistentDedent (.empty span.start))
      | some (marks, blocks) =>
        (layoutFrom source ⟨blocks, depthAfter s.depth t, false⟩ rest).map fun marked =>
          marks.map (⟨·, .empty span.start⟩) ++ ⟨t, span⟩ :: marked := by
  rw [layoutFrom.eq_3 _ _ _ _ _ (by simpa using ht)]
  simp only [start, if_true]
  cases enterLine? s.blocks (columnAt source span.start) with
  | none => rfl
  | some entered => cases layoutFrom source ⟨entered.2, depthAfter s.depth t, false⟩ rest <;> rfl

/-- The layout of a token that is not the end of a line, later on its line. -/
theorem layoutFrom_later {source : List Char} {s : LayoutState} {t : Token} {span : Span}
    {rest : List Lexeme} (ht : t ≠ .newline) (start : s.lineStart = false) :
    layoutFrom source s (⟨t, span⟩ :: rest) =
      (layoutFrom source { s with depth := depthAfter s.depth t } rest).map fun marked =>
        ⟨t, span⟩ :: marked := by
  rw [layoutFrom.eq_3 _ _ _ _ _ (by simpa using ht)]
  simp only [start, Bool.false_eq_true, if_false]
  cases layoutFrom source _ rest <;> rfl

/-- The layout of the end of a line. -/
theorem layoutFrom_newline {source : List Char} {s : LayoutState} {span : Span}
    {rest : List Lexeme} :
    layoutFrom source s (⟨.newline, span⟩ :: rest) =
      if s.depth = 0 ∧ s.lineStart = false then
        (layoutFrom source { s with lineStart := true } rest).map (⟨.newline, span⟩ :: ·)
      else layoutFrom source s rest := by
  rw [layoutFrom]
  split
  · cases layoutFrom source _ rest <;> rfl
  · rfl

/-- Only marks are put before the first token of a line. -/
theorem isMark_of_enterLine? {blocks blocks' : List Nat} {col : Nat} {marks : List Token}
    (h : enterLine? blocks col = some (marks, blocks')) : ∀ t ∈ marks, t.isMark = true := by
  unfold enterLine? at h
  intro t ht
  split at h
  · cases h
    rw [List.mem_singleton] at ht
    subst ht
    rfl
  · simp only at h
    split at h
    · cases h
      rw [(List.mem_replicate.1 ht).2]
      rfl
    · cases h

/-- The layout adds marks and nothing else. -/
theorem mem_of_mem_layoutFrom {source : List Char} {s : LayoutState} {ls out : List Lexeme}
    (h : layoutFrom source s ls = .ok out) :
    ∀ l ∈ out, l ∈ ls ∨ l.token.isMark = true := by
  induction ls generalizing s out with
  | nil =>
    simp only [layoutFrom] at h
    cases h
    intro l hl
    right
    rw [List.mem_append, List.mem_replicate] at hl
    rcases hl with hl | ⟨-, rfl⟩
    · split at hl
      · simp at hl
      · rw [List.mem_singleton] at hl
        subst hl
        rfl
    · rfl
  | cons l ls ih =>
    obtain ⟨t, span⟩ := l
    -- what the layout of the rest adds is added to the whole
    have later : ∀ {s out}, layoutFrom source s ls = .ok out →
        ∀ l ∈ out, l ∈ (⟨t, span⟩ : Lexeme) :: ls ∨ l.token.isMark = true := by
      intro s out h l hl
      exact (ih h l hl).imp_left (List.mem_cons_of_mem _)
    intro l hl
    by_cases ht : t = .newline
    · subst ht
      rw [layoutFrom_newline] at h
      split at h
      · obtain ⟨marked, hm, rfl⟩ := map_eq_ok.1 h
        rcases List.mem_cons.1 hl with rfl | hl
        · exact .inr rfl
        · exact later hm l hl
      · exact later h l hl
    · cases start : s.lineStart with
      | true =>
        rw [layoutFrom_first ht start] at h
        split at h
        · cases h
        · rename_i marks blocks enter
          obtain ⟨marked, hm, rfl⟩ := map_eq_ok.1 h
          rcases List.mem_append.1 hl with hl | hl
          · obtain ⟨mark, hmark, rfl⟩ := List.mem_map.1 hl
            exact .inr (isMark_of_enterLine? enter mark hmark)
          · rcases List.mem_cons.1 hl with rfl | hl
            · exact .inl List.mem_cons_self
            · exact later hm l hl
      | false =>
        rw [layoutFrom_later ht start] at h
        obtain ⟨marked, hm, rfl⟩ := map_eq_ok.1 h
        rcases List.mem_cons.1 hl with rfl | hl
        · exact .inl List.mem_cons_self
        · exact later hm l hl

end Layout

/-- Every lexeme of a text stands where its span says. -/
theorem lex_stands {source : List Char} {ls : List Lexeme} (h : lex source = .ok ls) :
    ∀ l ∈ ls, l.Stands source := by
  obtain ⟨scanned, hs, h⟩ := bind_eq_ok.1 h
  intro l hl
  rcases mem_of_mem_layoutFrom h l hl with hl | mark
  · exact scan_stands hs l hl
  · exact .inl mark

/-- Every lexeme that is not a mark is written with some character. -/
theorem text_ne_nil_of_lex {source : List Char} {ls : List Lexeme} (h : lex source = .ok ls) :
    ∀ l ∈ ls, l.token.isMark = false → l.token.text.toList ≠ [] := by
  obtain ⟨scanned, hs, h⟩ := bind_eq_ok.1 h
  have written : ∀ l ∈ scanned, l.token.isMark = false → l.token.text.toList ≠ [] := by
    refine scanFrom_tokens (P := fun t => t.isMark = false → t.text.toList ≠ []) ?_ hs
    intro c cs t more front mark
    rcases Front.spells_of front with rfl | ⟨text, -⟩
    · cases mark
    · rw [text]
      exact List.cons_ne_nil _ _
  intro l hl mark
  rcases mem_of_mem_layoutFrom h l hl with hl | isMark
  · exact written l hl mark
  · simp [mark] at isMark

/-! ## §4 The text of a leaf -/

theorem trimEnd_eq_self {cs : List Char} (h : ∀ c ∈ cs, isBlank c = false) : trimEnd cs = cs := by
  have keep : cs.reverse.dropWhile isBlank = cs.reverse := by
    cases hr : cs.reverse with
    | nil => rfl
    | cons c rest =>
      have hc : isBlank c = false := h c (List.mem_reverse.1 (hr ▸ List.mem_cons_self))
      rw [List.dropWhile_cons_of_neg (by simp [hc])]
  rw [trimEnd, keep, List.reverse_reverse]

namespace SourceTree

/-- The tree is one of a text whose tokens are `ts`: a leaf has the spelling of its token as its
text, and the tokens are spelled as their classes ask. -/
structure Spells (tree : SourceTree) (ts : List Token) : Prop where
  text_leaf : ∀ {i : Nat} {t : Token}, ts[i]? = some t → t.isMark = false →
    ∀ (kind : Kind) (parts : List Node), tree.text (.mk kind i (i + 1) parts) = t.text
  isSpelled : ∀ {t : Token}, t ∈ ts → t.isMark = false → t.IsSpelled

theorem le_of_slice? {s : Span} {source cs : List Char} (h : s.slice? source = some cs) :
    s.start ≤ s.stop := by
  unfold Span.slice? at h
  split at h
  · assumption
  · cases h

/-- The tree of a text that has been cut into lexemes has their spellings. -/
theorem spells_of_lex {source : List Char} {ls : List Lexeme} (h : lex source = .ok ls)
    (root : Node) :
    Spells ⟨source, (ls.map (·.span)).toArray, root⟩ (ls.map (·.token)) where
  text_leaf := by
    intro i t ht mark kind parts
    rw [List.getElem?_map] at ht
    obtain ⟨l, hl, rfl⟩ := Option.map_eq_some_iff.1 ht
    rcases lex_stands h l (List.mem_of_getElem? hl) with isMark | ⟨slice, spelled⟩
    · simp [mark] at isMark
    · have order := le_of_slice? slice
      have span : SourceTree.span ⟨source, (ls.map (·.span)).toArray, root⟩
          (.mk kind i (i + 1) parts) = l.span := by
        simp [SourceTree.span, Node.first, Node.stop, hl, Nat.max_eq_right order]
      rw [SourceTree.text, span, slice, Option.getD_some,
        trimEnd_eq_self fun c => Token.isBlank_of_mem_text spelled, String.ofList_toList]
  isSpelled := by
    intro t ht mark
    obtain ⟨l, hl, rfl⟩ := List.mem_map.1 ht
    rcases lex_stands h l hl with isMark | ⟨-, spelled⟩
    · simp [mark] at isMark
    · exact spelled

end SourceTree

end Serpent
