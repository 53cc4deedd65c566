/-
Serpent.Proofs.Spelling — the source form of an expression is cut into its tokens again.

Every part of an expression has its tokens, and the source form is their spellings with blanks
between some of them. The scan takes the longest lexeme, so the spelling of a token gives the token
back only if the text does not go on in a way that makes the lexeme longer: after a token stands a
separator, and after a number no point.

  §1 Tokens of an expression
  §2 Texts that are cut into given tokens
  §3 One token
  §4 Expressions
-/
import Serpent.Program.Source
import Serpent.Proofs.Canonical
import Serpent.Proofs.Decimal
import Serpent.Proofs.Induction

namespace Serpent

open Fallible

/-! ## §1 Tokens of an expression -/

/-- The token of a type. -/
def Ty.token : Ty → Token
  | .int => .name "int"
  | .bool => .name "bool"
  | .none => .keyword .none
  | .object c => .name c

/-- The token of a literal. -/
def Literal.token : Literal → Token
  | .none => .keyword .none
  | .number n => .int (Word.text n)
  | .bool true => .keyword .true
  | .bool false => .keyword .false

/-- The token of a prefix operator. -/
def UnOp.token : UnOp → Token
  | .neg => .symbol .minus
  | .not => .keyword .not

/-- The token of a binary operator. -/
def BinOp.token : BinOp → Token
  | .add => .symbol .plus
  | .sub => .symbol .minus
  | .mul => .symbol .star
  | .floorDiv => .symbol .slashSlash
  | .mod => .symbol .percent
  | .eq => .symbol .eqEq
  | .ne => .symbol .notEq
  | .le => .symbol .ltEq
  | .ge => .symbol .gtEq
  | .lt => .symbol .lt
  | .gt => .symbol .gt
  | .and => .keyword .and
  | .or => .keyword .or
  | .is => .keyword .is

/-- Tokens in parentheses, if they need them. -/
def parenthesizedTokens (needed : Bool) (ts : List Token) : List Token :=
  if needed then .symbol .lparen :: ts ++ [.symbol .rparen] else ts

/-- Lists of tokens with commas between them. -/
def commas (tss : List (List Token)) : List Token := List.intercalate [.symbol .comma] tss

namespace Expr

mutual

/-- The tokens of an expression. -/
def tokens : Expr → List Token
  | .literal _ v => [v.token]
  | .var _ x => [.name x]
  | .unary _ op e => op.token :: parenthesizedTokens e.isOperation (tokens e)
  | .binary _ op l r =>
    parenthesizedTokens l.isOperation (tokens l) ++ op.token ::
      parenthesizedTokens r.isOperation (tokens r)
  | .call _ f args => .name f :: .symbol .lparen :: commas (tokenLists args) ++ [.symbol .rparen]
  | .field _ o m =>
    parenthesizedTokens o.isOpenReceiver (tokens o) ++ [.symbol .dot, .name m]
  | .method _ o m args =>
    parenthesizedTokens o.isOpenReceiver (tokens o) ++ .symbol .dot :: .name m ::
      .symbol .lparen :: commas (tokenLists args) ++ [.symbol .rparen]

/-- The tokens of each expression of a list. -/
def tokenLists : List Expr → List (List Token)
  | [] => []
  | e :: es => tokens e :: tokenLists es

end

theorem tokenLists_eq_map (es : List Expr) : tokenLists es = es.map tokens := by
  induction es with
  | nil => rfl
  | cons e es ih => rw [tokenLists, ih, List.map_cons]

theorem texts_eq_map (es : List Expr) : texts es = es.map text := by
  induction es with
  | nil => rfl
  | cons e es ih => rw [texts, ih, List.map_cons]

theorem tokens_ne_nil (e : Expr) : e.tokens ≠ [] := by
  cases e <;> simp [tokens]

end Expr

theorem parenthesizedTokens_ne_nil {needed : Bool} {e : Expr} :
    parenthesizedTokens needed e.tokens ≠ [] := by
  cases needed <;> simp [parenthesizedTokens, e.tokens_ne_nil]

/-! ## §2 Texts that are cut into given tokens -/

/-- Before `rest`, the text `cs` is cut into lexemes with the tokens `ts`, and the first of them
starts where the text starts. -/
def Scans (cs : List Char) (ts : List Token) (rest : List Char) : Prop :=
  ∀ pos, ∃ ls : List Lexeme, ls.map (·.token) = ts ∧ (∀ l ∈ ls.head?, l.span.start = pos) ∧
    scanFrom pos 0 (cs ++ rest) = (scanFrom (pos + utf8Length cs) 0 rest).map (ls ++ ·)

theorem Scans.append {cs ds rest : List Char} {ts us : List Token} (some_token : ts ≠ [])
    (first : Scans cs ts (ds ++ rest)) (second : Scans ds us rest) :
    Scans (cs ++ ds) (ts ++ us) rest := by
  intro pos
  obtain ⟨ls, tokens, start, scan⟩ := first pos
  obtain ⟨ls', tokens', -, scan'⟩ := second (pos + utf8Length cs)
  refine ⟨ls ++ ls', by simp [tokens, tokens'], ?_, ?_⟩
  · cases ls with
    | nil => simp [some_token.symm] at tokens
    | cons l ls => exact start
  · rw [List.append_assoc, scan, scan', map_map, utf8Length_append, Nat.add_assoc]
    simp only [List.append_assoc]

theorem scans_blank {cs rest : List Char} {ts : List Token} (h : Scans cs ts (' ' :: rest)) :
    Scans (cs ++ [' ']) ts rest := by
  intro pos
  obtain ⟨ls, tokens, start, scan⟩ := h pos
  refine ⟨ls, tokens, start, ?_⟩
  rw [List.append_assoc, List.singleton_append, scan, utf8Length_append, ← Nat.add_assoc]
  rfl

/-- A token at the front of a text. -/
theorem scans_of_front {c : Char} {cs rest : List Char} {t : Token}
    (h : Front.of c (cs ++ rest) = .token t cs.length) : Scans (c :: cs) [t] rest := by
  intro pos
  refine ⟨[⟨t, pos, pos + utf8Length (c :: cs)⟩], rfl, by simp, ?_⟩
  rw [List.cons_append, scanFrom, h]
  simp only [scanFrom_skip _ cs.length, List.take_left, List.drop_left, utf8Length_cons,
    Nat.add_assoc]
  cases scanFrom (pos + (c.utf8Size + utf8Length cs)) 0 rest <;> rfl

/-! ## §3 One token -/

/-- The characters that may stand after any token. -/
def isSeparator (c : Char) : Bool := c ∈ [' ', '(', ')', ',', ':', '.', '\n']

/-- The text starts with a separator, if it is not empty. -/
def Separated (rest : List Char) : Prop := ∀ c ∈ rest.head?, isSeparator c = true

theorem separated_of_head {c : Char} {rest : List Char} (h : isSeparator c = true) :
    Separated (c :: rest) := by
  rintro d ⟨⟩
  exact h

theorem not_isNamePart_of_isSeparator {c : Char} (h : isSeparator c = true) :
    isNamePart c = false := by
  simp only [isSeparator, List.mem_cons, List.not_mem_nil, or_false, decide_eq_true_eq] at h
  rcases h with rfl | rfl | rfl | rfl | rfl | rfl | rfl <;> rfl

theorem takeWhile_append_stop {α : Type} {p : α → Bool} {cs rest : List α}
    (all : ∀ c ∈ cs, p c = true) (stop : ∀ c ∈ rest.head?, p c = false) :
    (cs ++ rest).takeWhile p = cs ∧ (cs ++ rest).dropWhile p = rest := by
  rw [List.takeWhile_append_of_pos all, List.dropWhile_append_of_pos all]
  cases rest with
  | nil => simp
  | cons c rest => simp [stop c rfl]

theorem not_isGap_of_isNamePart {c : Char} (h : isNamePart c = true) :
    isGap c = false ∧ (c == '#') = false := by
  have := toNat_of_isNamePart h
  constructor
  · simp only [isGap, Bool.or_eq_false_iff, beq_eq_false_iff_ne]
    refine ⟨⟨?_, ?_⟩, ?_⟩ <;> rintro rfl <;> exact absurd this (by decide)
  · rw [beq_eq_false_iff_ne]
    rintro rfl
    exact absurd this (by decide)

theorem not_isDigit_of_isNameStart {c : Char} (h : isNameStart c = true) : c.isDigit = false := by
  rw [Bool.eq_false_iff]
  intro digit
  delta isNameStart Char.isAlpha Char.isUpper Char.isLower at h
  delta Char.isDigit at digit
  simp only [Bool.or_eq_true, Bool.and_eq_true, decide_eq_true_eq, beq_iff_eq, ge_iff_le,
    UInt32.le_iff_toNat_le] at h digit
  have : 'A'.val.toNat = 65 := rfl
  have : 'a'.val.toNat = 97 := rfl
  have : '9'.val.toNat = 57 := rfl
  rcases h with (⟨lo, -⟩ | ⟨lo, -⟩) | rfl
  · omega
  · omega
  · exact absurd digit (by decide)

/-- A word ends where the text goes on with a separator. -/
theorem front_word {c : Char} {cs rest : List Char} (start : isNameStart c = true)
    (parts : ∀ d ∈ cs, isNamePart d = true) (sep : Separated rest) :
    Front.of c (cs ++ rest) = .token (Token.ofWord (c :: cs)) cs.length := by
  obtain ⟨gap, comment⟩ := not_isGap_of_isNamePart (isNamePart_of_isNameStart start)
  have word := takeWhile_append_stop parts fun d hd => not_isNamePart_of_isSeparator (sep d hd)
  simp only [Front.of, gap, comment, not_isDigit_of_isNameStart start, start, Front.word, word.1,
    Bool.false_eq_true, if_false, if_true]

/-- A number ends where the text goes on with a separator that is not a point. -/
theorem front_int {c : Char} {cs rest : List Char} (digits : ∀ d ∈ c :: cs, d.isDigit = true)
    (sep : Separated rest) (point : rest.head? ≠ some '.') :
    Front.of c (cs ++ rest) = .token (.int (String.ofList (c :: cs))) cs.length := by
  have digit : c.isDigit = true := digits c (by simp)
  obtain ⟨gap, comment⟩ := not_isGap_of_isNamePart (isNamePart_of_isDigit digit)
  have stop : ∀ d ∈ rest.head?, d.isDigit = false := by
    intro d hd
    have part := not_isNamePart_of_isSeparator (sep d hd)
    rw [Bool.eq_false_iff]
    intro isDigit
    simp [isNamePart_of_isDigit isDigit] at part
  have more : ∀ d ∈ cs, d.isDigit = true := fun d hd => digits d (by simp [hd])
  have number := takeWhile_append_stop more stop
  simp only [Front.of, gap, comment, digit, Front.number, number.1, number.2, Bool.false_eq_true,
    if_false, if_true]
  split
  · simp at point
  · rfl

/-- A symbol ends where the text goes on with a separator. -/
theorem scans_symbol (s : Symbol) {rest : List Char} (sep : Separated rest) :
    Scans s.text.toList [.symbol s] rest := by
  cases rest with
  | nil => cases s <;> exact scans_of_front rfl
  | cons c rest =>
    have hc := sep c rfl
    simp only [isSeparator, List.mem_cons, List.not_mem_nil, or_false, decide_eq_true_eq] at hc
    rcases hc with rfl | rfl | rfl | rfl | rfl | rfl | rfl
    all_goals cases s <;> exact scans_of_front rfl

theorem scans_name {x : String} (h : isIdentifier x = true) {rest : List Char}
    (sep : Separated rest) : Scans x.toList [.name x] rest := by
  obtain ⟨c, cs, hx, start, parts, notKeyword⟩ := isIdentifier_iff.1 h
  have word : Token.ofWord (c :: cs) = .name x := by
    rw [Token.ofWord, ← hx, String.ofList_toList, notKeyword]
  rw [hx]
  exact scans_of_front (word ▸ front_word start parts sep)

/-- A keyword is written as a word. -/
theorem exists_word_of_keyword (k : Keyword) : ∃ c cs, k.text.toList = c :: cs ∧
    isNameStart c = true ∧ ∀ d ∈ cs, isNamePart d = true := by
  cases k <;> exact ⟨_, _, rfl, by decide, List.all_eq_true.1 (by decide)⟩

theorem scans_keyword (k : Keyword) {rest : List Char} (sep : Separated rest) :
    Scans k.text.toList [.keyword k] rest := by
  obtain ⟨c, cs, hk, start, parts⟩ := exists_word_of_keyword k
  have word : Token.ofWord (c :: cs) = .keyword k := by
    rw [Token.ofWord, ← hk, String.ofList_toList, Keyword.ofText?_text]
  rw [hk]
  exact scans_of_front (word ▸ front_word start parts sep)

theorem scans_type {ty : Ty} (h : ty.isCanonical = true) {rest : List Char}
    (sep : Separated rest) : Scans ty.text.toList [ty.token] rest := by
  cases ty with
  | int => exact scans_name (by decide) sep
  | bool => exact scans_name (by decide) sep
  | none => exact scans_keyword .none sep
  | object c =>
    simp only [Ty.isCanonical, Bool.and_eq_true] at h
    exact scans_name h.1.1 sep

theorem scans_literal {v : Literal} (h : v.isCanonical = true) {rest : List Char}
    (sep : Separated rest) (point : rest.head? ≠ some '.') :
    Scans v.text.toList [v.token] rest := by
  cases v with
  | none => exact scans_keyword .none sep
  | bool b => cases b <;> exact scans_keyword _ sep
  | number n =>
    have digits := Word.toList_text_of_nonneg (of_decide_eq_true h)
    cases text : (Word.text n).toList with
    | nil => exact absurd (digits.symm.trans text) Nat.toDigits_ne_nil
    | cons c cs =>
      have all : ∀ d ∈ c :: cs, d.isDigit = true := by
        rw [← text, digits]
        exact fun d => isDigit_of_mem_toDigits
      have number : Literal.token (.number n) = .int (String.ofList (c :: cs)) := by
        rw [← text, String.ofList_toList, Literal.token]
      rw [Literal.text, text, number]
      exact scans_of_front (front_int all sep point)

theorem scans_binOp (op : BinOp) {rest : List Char} :
    Scans (op.text.toList ++ [' ']) [op.token] rest := by
  have sep : Separated (' ' :: rest) := separated_of_head rfl
  -- the token says which symbol or keyword the text is that of
  have symbol : ∀ s, op.token = .symbol s → op.text = s.text →
      Scans op.text.toList [op.token] (' ' :: rest) := by
    intro s token text
    rw [token, text]
    exact scans_symbol s sep
  have keyword : ∀ k, op.token = .keyword k → op.text = k.text →
      Scans op.text.toList [op.token] (' ' :: rest) := by
    intro k token text
    rw [token, text]
    exact scans_keyword k sep
  refine scans_blank ?_
  cases op
  case and | or | is => exact keyword _ rfl rfl
  all_goals exact symbol _ rfl rfl

/-! ## §4 Expressions -/

/-- What may follow an expression: a separator, and no point if the expression would take it. -/
def Expr.Before (e : Expr) (rest : List Char) : Prop :=
  Separated rest ∧ (e.isOpenReceiver = true → rest.head? ≠ some '.')

theorem Expr.before_of_head {e : Expr} {c : Char} {rest : List Char} (sep : isSeparator c = true)
    (point : c ≠ '.') : e.Before (c :: rest) := by
  exact ⟨separated_of_head sep, fun _ => by simpa using point⟩

theorem scans_lparen {rest : List Char} : Scans ['('] [.symbol .lparen] rest :=
  scans_of_front rfl

theorem scans_rparen {rest : List Char} : Scans [')'] [.symbol .rparen] rest :=
  scans_of_front rfl

theorem scans_minus {rest : List Char} (h : rest.head? ≠ some '>') :
    Scans ['-'] [.symbol .minus] rest := by
  refine scans_of_front ?_
  change Front.symbol '-' rest = _
  rw [Front.symbol]
  · rfl
  · rintro cs rfl
    simp at h

/-- Whether a text starts as expressions do: with a word, a parenthesis or a sign. -/
def startsExpr : List Char → Bool
  | [] => false
  | c :: _ => isNamePart c || c == '(' || c == '-'

theorem startsExpr_append {cs : List Char} (h : startsExpr cs = true) (ds : List Char) :
    startsExpr (cs ++ ds) = true := by
  cases cs with
  | nil => cases h
  | cons c cs => exact h

theorem head_ne_of_startsExpr {cs : List Char} (h : startsExpr cs = true) :
    cs.head? ≠ some '>' := by
  cases cs with
  | nil => simp
  | cons c cs =>
    simp only [List.head?_cons, ne_eq, Option.some.injEq]
    rintro rfl
    cases h

theorem startsExpr_identifier {x : String} (h : isIdentifier x = true) :
    startsExpr x.toList = true := by
  obtain ⟨c, cs, hx, start, -⟩ := isIdentifier_iff.1 h
  simp [hx, startsExpr, isNamePart_of_isNameStart start]

theorem startsExpr_literal {v : Literal} (h : v.isCanonical = true) :
    startsExpr v.text.toList = true := by
  cases v with
  | none => decide
  | bool b => cases b <;> decide
  | number n =>
    have digits := Word.toList_text_of_nonneg (of_decide_eq_true h)
    cases text : (Word.text n).toList with
    | nil => exact absurd (digits.symm.trans text) Nat.toDigits_ne_nil
    | cons c cs =>
      have digit : c.isDigit = true :=
        isDigit_of_mem_toDigits (digits ▸ text ▸ List.mem_cons_self)
      simp [Literal.text, text, startsExpr, isNamePart_of_isDigit digit]

theorem startsExpr_operand {needed : Bool} {text : String} (h : startsExpr text.toList = true) :
    startsExpr (parenthesizedIf needed text).toList = true := by
  cases needed with
  | false => exact h
  | true => simp [parenthesizedIf, startsExpr]

theorem startsExpr_text {e : Expr} (h : e.isCanonical = true) :
    startsExpr e.text.toList = true := by
  induction e with
  | literal ty v =>
    simp only [Expr.isCanonical, Bool.and_eq_true] at h
    exact startsExpr_literal h.2
  | var ty x =>
    simp only [Expr.isCanonical, Bool.and_eq_true] at h
    exact startsExpr_identifier h.2
  | unary ty op e => cases op <;> simp [Expr.text, startsExpr, isNamePart]
  | binary ty op l r ihl =>
    simp only [Expr.isCanonical, Bool.and_eq_true] at h
    simp only [Expr.text, String.append_assoc, String.toList_append]
    exact startsExpr_append (startsExpr_operand (ihl h.1.2)) _
  | call ty f args =>
    simp only [Expr.isCanonical, Bool.and_eq_true] at h
    simp only [Expr.text, String.append_assoc, String.toList_append]
    exact startsExpr_append (startsExpr_identifier h.1.2) _
  | field ty o m ih =>
    simp only [Expr.isCanonical, Bool.and_eq_true] at h
    simp only [Expr.text, String.append_assoc, String.toList_append]
    exact startsExpr_append (startsExpr_operand (ih h.1.2)) _
  | method ty o m args ih =>
    simp only [Expr.isCanonical, Bool.and_eq_true] at h
    simp only [Expr.text, String.append_assoc, String.toList_append]
    exact startsExpr_append (startsExpr_operand (ih h.1.1.2)) _

/-- The tokens of an expression are cut out of its source form, before what may follow it. -/
def Expr.IsScanned (e : Expr) : Prop :=
  ∀ rest, e.Before rest → Scans e.text.toList e.tokens rest

theorem scans_operand {e : Expr} (h : e.IsScanned) {needed : Bool} {rest : List Char}
    (before : needed = false → e.Before rest) :
    Scans (parenthesizedIf needed e.text).toList (parenthesizedTokens needed e.tokens) rest := by
  cases needed with
  | false => exact h rest (before rfl)
  | true =>
    have inner := h (')' :: rest) (Expr.before_of_head rfl (by decide))
    simpa [parenthesizedIf, parenthesizedTokens] using
      scans_lparen.append (by simp) (inner.append e.tokens_ne_nil scans_rparen)

theorem scans_comma {rest : List Char} : Scans [',', ' '] [.symbol .comma] rest :=
  @scans_blank [','] rest _ (scans_of_front rfl)

/-- Texts with commas between them, before the parenthesis that closes them. -/
theorem scans_commas {texts : List String} {tss : List (List Token)} {rest : List Char}
    (h : List.Forall₂ (fun text ts => ts ≠ [] ∧ ∀ c rest, isSeparator c = true → c ≠ '.' →
      Scans text.toList ts (c :: rest)) texts tss) :
    Scans ((String.intercalate ", " texts).toList ++ [')']) (commas tss ++ [Token.symbol .rparen])
      rest := by
  induction h with
  | nil => exact scans_rparen
  | cons first more ih =>
    obtain ⟨some_token, scans⟩ := first
    cases more with
    | nil =>
      simpa [commas] using (scans ')' rest rfl (by decide)).append some_token scans_rparen
    | cons second more =>
      have behind := scans_comma.append (by simp) ih
      simpa [commas, List.intercalate_cons_cons] using
        (scans ',' _ rfl (by decide)).append some_token behind

theorem scans_arguments {args : List Expr} {rest : List Char} (h : ∀ a ∈ args, a.IsScanned) :
    Scans ((String.intercalate ", " (Expr.texts args)).toList ++ [')'])
      (commas (Expr.tokenLists args) ++ [Token.symbol .rparen]) rest := by
  refine scans_commas ?_
  rw [Expr.texts_eq_map, Expr.tokenLists_eq_map, List.forall₂_map_left_iff,
    List.forall₂_map_right_iff, List.forall₂_same]
  intro a ha
  exact ⟨a.tokens_ne_nil, fun c rest sep point => h a ha _ (Expr.before_of_head sep point)⟩

theorem scans_dot {rest : List Char} : Scans ['.'] [.symbol .dot] rest :=
  scans_of_front rfl

/-- What stands before a point. -/
theorem scans_receiver {o : Expr} (h : o.IsScanned) {rest : List Char} :
    Scans (parenthesizedIf o.isOpenReceiver o.text).toList
      (parenthesizedTokens o.isOpenReceiver o.tokens) ('.' :: rest) := by
  refine scans_operand h fun closed => ⟨separated_of_head rfl, ?_⟩
  simp [closed]

/-- The source form of every canonical expression is cut into its tokens. -/
theorem isScanned {e : Expr} (h : e.isCanonical = true) : e.IsScanned := by
  induction e with
  | literal ty v =>
    simp only [Expr.isCanonical, Bool.and_eq_true] at h
    rintro rest ⟨sep, point⟩
    cases v with
    | number n => exact scans_literal h.2 sep (point rfl)
    | none => exact scans_keyword .none sep
    | bool b => cases b <;> exact scans_keyword _ sep
  | var ty x =>
    simp only [Expr.isCanonical, Bool.and_eq_true] at h
    rintro rest ⟨sep, -⟩
    exact scans_name h.2 sep
  | unary ty op e ih =>
    simp only [Expr.isCanonical, Bool.and_eq_true] at h
    rintro rest ⟨sep, point⟩
    have operand : Scans (parenthesizedIf e.isOperation e.text).toList
        (parenthesizedTokens e.isOperation e.tokens) rest :=
      scans_operand (ih h.2) fun _ => ⟨sep, fun _ => point rfl⟩
    cases op with
    | neg =>
      have start := head_ne_of_startsExpr
        (startsExpr_append (@startsExpr_operand e.isOperation _ (startsExpr_text h.2)) rest)
      simpa [Expr.text, Expr.tokens, UnOp.token] using
        (scans_minus start).append (by simp) operand
    | not =>
      have word : Scans ['n', 'o', 't', ' '] [.keyword .not]
          ((parenthesizedIf e.isOperation e.text).toList ++ rest) :=
        scans_blank (scans_keyword .not (separated_of_head rfl))
      simpa [Expr.text, Expr.tokens, UnOp.token] using word.append (by simp) operand
  | binary ty op l r ihl ihr =>
    simp only [Expr.isCanonical, Bool.and_eq_true] at h
    rintro rest ⟨sep, point⟩
    have right : Scans (parenthesizedIf r.isOperation r.text).toList
        (parenthesizedTokens r.isOperation r.tokens) rest :=
      scans_operand (ihr h.2) fun _ => ⟨sep, fun _ => point rfl⟩
    have left : ∀ rest, Scans ((parenthesizedIf l.isOperation l.text).toList ++ [' '])
        (parenthesizedTokens l.isOperation l.tokens) rest := fun rest =>
      scans_blank (scans_operand (ihl h.1.2) fun _ => Expr.before_of_head rfl (by decide))
    have behind := (scans_binOp op).append (by simp) right
    simpa [Expr.text, Expr.tokens] using (left _).append parenthesizedTokens_ne_nil behind
  | call ty f args ih =>
    simp only [Expr.isCanonical, Bool.and_eq_true, Expr.areCanonical_iff] at h
    rintro rest -
    have arguments := @scans_arguments args rest fun a ha => ih a ha (h.2 a ha)
    have behind := scans_lparen.append (by simp) arguments
    have name := (scans_name h.1.2 (separated_of_head (c := '(') rfl)).append (by simp) behind
    simpa [Expr.text, Expr.tokens] using name
  | field ty o m ih =>
    simp only [Expr.isCanonical, Bool.and_eq_true] at h
    rintro rest ⟨sep, -⟩
    have behind := scans_dot.append (by simp) (scans_name h.2 sep)
    simpa [Expr.text, Expr.tokens] using
      (scans_receiver (ih h.1.2)).append parenthesizedTokens_ne_nil behind
  | method ty o m args ih ihargs =>
    simp only [Expr.isCanonical, Bool.and_eq_true, Expr.areCanonical_iff] at h
    rintro rest -
    have arguments := @scans_arguments args rest fun a ha => ihargs a ha (h.2 a ha)
    have behind := scans_lparen.append (by simp) arguments
    have name := (scans_name h.1.2 (separated_of_head (c := '(') rfl)).append (by simp) behind
    have member := scans_dot.append (by simp) name
    simpa [Expr.text, Expr.tokens] using
      (scans_receiver (ih h.1.1.2)).append parenthesizedTokens_ne_nil member

end Serpent
