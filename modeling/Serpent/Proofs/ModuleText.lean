/-
Serpent.Proofs.ModuleText — the text of a module is read as that module.

Every instruction is written as one item, so code is read item by item. A function starts with runs
of declarations, and no instruction looks like a declaration. All that is asked of a module is that
its names are names and that what stands in quotes can be quoted.

  §1 Symbols
  §2 Instructions as items
  §3 Lines of instructions
  §4 Instructions of items
  §5 Functions
  §6 Globals and imports
  §7 Modules
-/
import Serpent.Proofs.Decimal
import Serpent.Proofs.Sexp
import Serpent.Wasm.Print
import Serpent.Wasm.Read

namespace Serpent.Wasm

/-! ## §1 Symbols -/

/-- Whether a text is a name and a word. -/
def isSymbol (s : String) : Bool := isName s && s.toList.all Part.isWordChar

theorem isName_of_isSymbol {s : String} (h : isSymbol s = true) : isName s = true := by
  rw [isSymbol, Bool.and_eq_true] at h
  exact h.1

theorem isWord_of_isSymbol {s : String} (h : isSymbol s = true) : isWord s = true := by
  rw [isSymbol, Bool.and_eq_true] at h
  have nonempty : s ≠ "" := by
    rintro rfl
    exact absurd h.1 (by decide)
  simp [isWord, nonempty, h.2]

theorem isWordChar_of_isDigit {c : Char} (h : c.isDigit = true) : Part.isWordChar c = true := by
  simp [Part.isWordChar, Char.isAlphanum, h]

theorem isWord_iff {w : String} :
    isWord w = true ↔ w.toList ≠ [] ∧ ∀ c ∈ w.toList, Part.isWordChar c = true := by
  rw [isWord, Bool.and_eq_true, decide_eq_true_eq, List.all_eq_true, ← String.toList_eq_nil_iff.ne]

theorem isWordChar_of_mem_toDigits {n : Nat} {c : Char} (h : c ∈ Nat.toDigits 10 n) :
    Part.isWordChar c = true :=
  isWordChar_of_isDigit (isDigit_of_mem_toDigits h)

theorem isWord_text (w : Word) : isWord (Word.text w) = true := by
  rw [isWord_iff]
  by_cases h : 0 ≤ w
  · rw [Word.toList_text_of_nonneg h]
    exact ⟨Nat.toDigits_ne_nil, fun c => isWordChar_of_mem_toDigits⟩
  · rw [Word.toList_text_of_neg h]
    refine ⟨by simp, ?_⟩
    intro c hc
    rcases List.mem_cons.1 hc with rfl | hc
    · decide
    · exact isWordChar_of_mem_toDigits hc

theorem isWord_repr (n : Nat) : isWord n.repr = true := by
  rw [isWord_iff, Nat.toList_repr]
  exact ⟨Nat.toDigits_ne_nil, fun c => isWordChar_of_mem_toDigits⟩

theorem nat?_repr (n : Nat) : nat? n.repr = some n := by
  rw [nat?, Nat.toList_repr, natOfDigits?_toDigits]

/-- A number is no name. -/
theorem isName_repr (n : Nat) : isName n.repr = false := by
  rw [isName, Nat.toList_repr]
  split
  · rename_i digits
    have dollar := isDigit_of_mem_toDigits (n := n) (c := '$') (by rw [digits]; simp)
    exact absurd dollar (by decide)
  · rfl

/-- What a name in code stands for. -/
inductive NameKind where
  | localVar
  | globalVar
  | function
  | label
deriving DecidableEq, Repr

namespace Instr

mutual

/-- The names in an instruction, with what they stand for. -/
def symbols : Instr → List (NameKind × String)
  | .localGet x | .localSet x => [(.localVar, x)]
  | .globalGet x | .globalSet x => [(.globalVar, x)]
  | .call f => [(.function, f)]
  | .br l | .brIf l => [(.label, l)]
  | .ifElse thn els => listSymbols thn ++ listSymbols els
  | .block l body | .loop l body => (.label, l) :: listSymbols body
  | .const _ | .binary _ | .eqz | .load | .store | .drop | .return_ => []

/-- The names in instructions that follow each other. -/
def listSymbols : List Instr → List (NameKind × String)
  | [] => []
  | i :: is => symbols i ++ listSymbols is

end

theorem listSymbols_append (is js : List Instr) :
    listSymbols (is ++ js) = listSymbols is ++ listSymbols js := by
  induction is with
  | nil => rfl
  | cons i is ih => simp [listSymbols, ih]

/-! ## §2 Instructions as items -/

mutual

/-- The item that an instruction is written as. -/
def sexp : Instr → Sexp
  | .const w => .list [.word "i32.const", .word (Word.text w)]
  | .localGet x => .list [.word "local.get", .word x]
  | .localSet x => .list [.word "local.set", .word x]
  | .globalGet x => .list [.word "global.get", .word x]
  | .globalSet x => .list [.word "global.set", .word x]
  | .binary op => .word op.text
  | .eqz => .word "i32.eqz"
  | .load => .word "i32.load"
  | .store => .word "i32.store"
  | .drop => .word "drop"
  | .call f => .list [.word "call", .word f]
  | .return_ => .word "return"
  | .ifElse thn [] => .list [.word "if", .list (.word "then" :: sexps thn)]
  | .ifElse thn (e :: els) =>
    .list [.word "if", .list (.word "then" :: sexps thn),
      .list (.word "else" :: sexp e :: sexps els)]
  | .block l body => .list (.word "block" :: .word l :: sexps body)
  | .loop l body => .list (.word "loop" :: .word l :: sexps body)
  | .br l => .list [.word "br", .word l]
  | .brIf l => .list [.word "br_if", .word l]

/-- The items of instructions that follow each other. -/
def sexps : List Instr → List Sexp
  | [] => []
  | i :: is => sexp i :: sexps is

end

end Instr

/-! ## §3 Lines of instructions -/

/-- A word and a name or a number in parentheses. -/
theorem Reads.immediate {w a : String} (hw : isWord w = true) (ha : isWord a = true) :
    Reads ("(" ++ w ++ " " ++ a ++ ")").toList (Sexp.list [.word w, .word a]).parts := by
  have split : ("(" ++ w ++ " " ++ a ++ ")").toList =
      '(' :: (w.toList ++ ' ' :: (a.toList ++ ')' :: [])) := by simp
  rw [split]
  exact .opening (.word hw rfl (.space (.word ha rfl (.closing .nil))))

/-- The start of a list. -/
theorem Reads.start {w : String} (hw : isWord w = true) :
    Reads ("(" ++ w).toList [.opening, .word w] := by
  rw [String.toList_append]
  exact .opening (.ofWord hw)

/-- The start of a list that has a name. -/
theorem Reads.startNamed {w l : String} (hw : isWord w = true) (hl : isWord l = true) :
    Reads ("(" ++ w ++ " " ++ l).toList [.opening, .word w, .word l] := by
  have split : ("(" ++ w ++ " " ++ l).toList = '(' :: (w.toList ++ ' ' :: l.toList) := by simp
  rw [split]
  exact .opening (.word hw rfl (.space (.ofWord hl)))

theorem ReadsLines.single {depth : Nat} {text : String} {ps : List Part}
    (h : Reads text.toList ps) : ReadsLines [⟨depth, text⟩] ps := by
  simpa using ReadsLines.cons h .nil

theorem ReadsLines.item {ls : List Line} {item : Sexp} (h : ReadsLines ls item.parts) :
    ReadsLines ls (Sexp.listParts [item]) := by
  simpa [Sexp.listParts] using h

/-- A list over several lines: what stands in its first line, and the lines inside of it. -/
theorem ReadsLines.nested (depth : Nat) {text : String} (items : List Sexp) {body : List Sexp}
    {ls : List Line}
    (first : Reads text.toList (.opening :: Sexp.listParts items))
    (inner : ReadsLines ls (Sexp.listParts body)) :
    ReadsLines (⟨depth, text⟩ :: ls ++ [⟨depth, ")"⟩]) (Sexp.list (items ++ body)).parts := by
  have last : ReadsLines [⟨depth, ")"⟩] [.closing] := .single (.closing .nil)
  have opened : ReadsLines (⟨depth, text⟩ :: ls) _ := .cons first inner
  simpa [Sexp.parts, Sexp.listParts_append] using opened.append last

namespace Instr

theorem isWord_text_binary (op : BinaryOp) : isWord op.text = true := by
  cases op <;> decide

mutual

/-- The lines of an instruction are read as its item. -/
theorem readsLines_lines (depth : Nat) :
    ∀ i : Instr, (∀ s ∈ i.symbols, isSymbol s.2 = true) → ReadsLines (i.lines depth) i.sexp.parts
  | .const w, _ => .single (.immediate (w := "i32.const") (by decide) (isWord_text w))
  | .localGet x, h =>
    .single (.immediate (w := "local.get") (by decide) (isWord_of_isSymbol (h _ (.head _))))
  | .localSet x, h =>
    .single (.immediate (w := "local.set") (by decide) (isWord_of_isSymbol (h _ (.head _))))
  | .globalGet x, h =>
    .single (.immediate (w := "global.get") (by decide) (isWord_of_isSymbol (h _ (.head _))))
  | .globalSet x, h =>
    .single (.immediate (w := "global.set") (by decide) (isWord_of_isSymbol (h _ (.head _))))
  | .binary op, _ => .single (.ofWord (isWord_text_binary op))
  | .eqz, _ => .single (.ofWord (w := "i32.eqz") (by decide))
  | .load, _ => .single (.ofWord (w := "i32.load") (by decide))
  | .store, _ => .single (.ofWord (w := "i32.store") (by decide))
  | .drop, _ => .single (.ofWord (w := "drop") (by decide))
  | .call f, h =>
    .single (.immediate (w := "call") (by decide) (isWord_of_isSymbol (h _ (.head _))))
  | .return_, _ => .single (.ofWord (w := "return") (by decide))
  | .ifElse thn [], h => by
    have inner := readsLines_listLines (depth + 2) thn fun s hs => h s (by simp [symbols, hs])
    have branch := ReadsLines.nested (depth + 1) [.word "then"]
      (Reads.start (w := "then") (by decide)) inner
    have whole := ReadsLines.nested depth [.word "if"] (Reads.start (w := "if") (by decide))
      branch.item
    simpa [lines, sexp] using whole
  | .ifElse thn (e :: els), h => by
    have inner := readsLines_listLines (depth + 2) thn fun s hs => h s (by simp [symbols, hs])
    have first := readsLines_lines (depth + 2) e fun s hs =>
      h s (by simp [symbols, listSymbols, hs])
    have others := readsLines_listLines (depth + 2) els fun s hs =>
      h s (by simp [symbols, listSymbols, hs])
    have yes := ReadsLines.nested (depth + 1) [.word "then"]
      (Reads.start (w := "then") (by decide)) inner
    have code : ReadsLines _ (Sexp.listParts (sexp e :: sexps els)) := first.append others
    have no := ReadsLines.nested (depth + 1) [.word "else"]
      (Reads.start (w := "else") (by decide)) code
    have branches : ReadsLines _ (Sexp.listParts
        [.list (.word "then" :: sexps thn), .list (.word "else" :: sexp e :: sexps els)]) :=
      yes.append no.item
    have whole := ReadsLines.nested depth [.word "if"] (Reads.start (w := "if") (by decide)) branches
    simpa [lines, sexp] using whole
  | .block l body, h => by
    have inner := readsLines_listLines (depth + 1) body fun s hs => h s (by simp [symbols, hs])
    exact .nested depth [.word "block", .word l]
      (Reads.startNamed (w := "block") (by decide) (isWord_of_isSymbol (h _ (.head _)))) inner
  | .loop l body, h => by
    have inner := readsLines_listLines (depth + 1) body fun s hs => h s (by simp [symbols, hs])
    exact .nested depth [.word "loop", .word l]
      (Reads.startNamed (w := "loop") (by decide) (isWord_of_isSymbol (h _ (.head _)))) inner
  | .br l, h => .single (.immediate (w := "br") (by decide) (isWord_of_isSymbol (h _ (.head _))))
  | .brIf l, h =>
    .single (.immediate (w := "br_if") (by decide) (isWord_of_isSymbol (h _ (.head _))))

theorem readsLines_listLines (depth : Nat) :
    ∀ is : List Instr, (∀ s ∈ listSymbols is, isSymbol s.2 = true) →
      ReadsLines (listLines depth is) (Sexp.listParts (sexps is))
  | [], _ => .nil
  | i :: is, h =>
    .append (readsLines_lines depth i fun s hs => h s (by simp [listSymbols, hs]))
      (readsLines_listLines depth is fun s hs => h s (by simp [listSymbols, hs]))

end

/-! ## §4 Instructions of items -/

theorem plain?_text (op : BinaryOp) : plain? op.text = some (.binary op) := by
  cases op <;> rfl

/-- An instruction that is one word is read as a word. -/
theorem ofItems?_plain {w : String} {i : Instr} (h : plain? w = some i) (rest : List Sexp) :
    ofItems? (.word w :: rest) = (ofItems? rest).map (i :: ·) := by
  rw [ofItems?.eq_def]
  simp only [h]
  cases ofItems? rest <;> rfl

/-- An instruction in parentheses is read as an item. -/
theorem ofItems?_list {items : List Sexp} {i : Instr} (h : ofItem? (.list items) = some [i])
    (rest : List Sexp) : ofItems? (.list items :: rest) = (ofItems? rest).map (i :: ·) := by
  rw [ofItems?.eq_def]
  simp only [h]
  cases ofItems? rest <;> rfl

/-- A word with a name or a number after it is read as its instruction. -/
theorem ofItem?_immediate {w arg : String} {i : Instr} (own : immediate? w arg = some i) :
    ofItem? (.list [.word w, .word arg]) = some [i] := by
  rw [ofItem?.eq_def]
  split
  case h_1 | h_2 | h_3 =>
    -- no structured instruction is a word with a name after it
    simp_all [immediate?]
  case h_5 noArgument same =>
    simp only [Sexp.list.injEq, List.cons.injEq] at same
    exact absurd same.2.symm (noArgument arg [])
  all_goals simp_all [operands?]

mutual

/-- The item of an instruction is read as that instruction. -/
theorem ofItems?_sexp (rest : List Sexp) :
    ∀ i : Instr, (∀ s ∈ i.symbols, isSymbol s.2 = true) →
      ofItems? (i.sexp :: rest) = (ofItems? rest).map (i :: ·)
  | .const w, _ => ofItems?_list (ofItem?_immediate (by simp [immediate?, word?_text])) rest
  | .localGet x, h => ofItems?_list (ofItem?_immediate (by
      simp [immediate?, isName_of_isSymbol (h _ (.head _))])) rest
  | .localSet x, h => ofItems?_list (ofItem?_immediate (by
      simp [immediate?, isName_of_isSymbol (h _ (.head _))])) rest
  | .globalGet x, h => ofItems?_list (ofItem?_immediate (by
      simp [immediate?, isName_of_isSymbol (h _ (.head _))])) rest
  | .globalSet x, h => ofItems?_list (ofItem?_immediate (by
      simp [immediate?, isName_of_isSymbol (h _ (.head _))])) rest
  | .binary op, _ => ofItems?_plain (plain?_text op) rest
  | .eqz, _ => ofItems?_plain rfl rest
  | .load, _ => ofItems?_plain rfl rest
  | .store, _ => ofItems?_plain rfl rest
  | .drop, _ => ofItems?_plain rfl rest
  | .call f, h => ofItems?_list (ofItem?_immediate (by
      simp [immediate?, isName_of_isSymbol (h _ (.head _))])) rest
  | .return_, _ => ofItems?_plain rfl rest
  | .ifElse thn [], h => ofItems?_list (by
      have inner := ofItems?_sexps thn fun s hs => h s (by simp [symbols, hs])
      simp [ofItem?, branches?, inner]) rest
  | .ifElse thn (e :: els), h => ofItems?_list (by
      have inner := ofItems?_sexps thn fun s hs => h s (by simp [symbols, hs])
      have first := ofItems?_sexp (sexps els) e fun s hs => h s (by simp [symbols, listSymbols, hs])
      have others := ofItems?_sexps els fun s hs => h s (by simp [symbols, listSymbols, hs])
      simp [ofItem?, branches?, inner, first, others]) rest
  | .block l body, h => ofItems?_list (by
      have name := isName_of_isSymbol (h _ (.head _))
      have inner := ofItems?_sexps body fun s hs => h s (by simp [symbols, hs])
      simp [ofItem?, name, inner]) rest
  | .loop l body, h => ofItems?_list (by
      have name := isName_of_isSymbol (h _ (.head _))
      have inner := ofItems?_sexps body fun s hs => h s (by simp [symbols, hs])
      simp [ofItem?, name, inner]) rest
  | .br l, h => ofItems?_list (ofItem?_immediate (by
      simp [immediate?, isName_of_isSymbol (h _ (.head _))])) rest
  | .brIf l, h => ofItems?_list (ofItem?_immediate (by
      simp [immediate?, isName_of_isSymbol (h _ (.head _))])) rest

/-- The items of instructions are read as these instructions. -/
theorem ofItems?_sexps :
    ∀ is : List Instr, (∀ s ∈ listSymbols is, isSymbol s.2 = true) → ofItems? (sexps is) = some is
  | [], _ => rfl
  | i :: is, h => by
    have tail := ofItems?_sexps is fun s hs => h s (by simp [listSymbols, hs])
    rw [sexps, ofItems?_sexp (sexps is) i fun s hs => h s (by simp [listSymbols, hs]), tail]
    rfl

end

end Instr

/-! ## §5 Functions -/

/-- The word that a list starts with. -/
def Sexp.keyword? : Sexp → Option String
  | .list (.word k :: _) => some k
  | _ => none

theorem export?_eq_none {s : Sexp} (h : s.keyword? ≠ some "export") : export? s = none := by
  rw [export?.eq_def]
  split
  · exact absurd rfl h
  · rfl

theorem importNames?_eq_none {s : Sexp} (h : s.keyword? ≠ some "import") :
    importNames? s = none := by
  rw [importNames?.eq_def]
  split
  · exact absurd rfl h
  · rfl

theorem declared?_eq_none {s : Sexp} {keyword : String} (h : s.keyword? ≠ some keyword) :
    declared? keyword s = none := by
  rw [declared?.eq_def]
  split
  · rw [if_neg fun same => h (congrArg some same)]
  · rw [if_neg fun same => h (congrArg some same)]
  · rfl

/-- What a function starts with: its own name, the names under which it is exported, what it is
imported as, and its declarations. -/
def declarationKeywords : List String := ["export", "import", "param", "result", "local"]

/-- No instruction looks like a declaration. -/
theorem Instr.keyword?_sexp (i : Instr) {k : String} (hk : k ∈ declarationKeywords) :
    i.sexp.keyword? ≠ some k := by
  intro same
  have : i.sexp.keyword?.all (· ∉ declarationKeywords) = true := by
    cases i with
    | ifElse thn els => cases els <;> rfl
    | _ => rfl
  simp [same, hk] at this

/-- No item of a list starts with a keyword. -/
def Lacks (k : String) (items : List Sexp) : Prop := ∀ s ∈ items, s.keyword? ≠ some k

theorem Lacks.append {k : String} {xs ys : List Sexp} (hx : Lacks k xs) (hy : Lacks k ys) :
    Lacks k (xs ++ ys) := by
  intro s hs
  exact (List.mem_append.1 hs).elim (hx s) (hy s)

theorem Lacks.map {α : Type} {k k' : String} {g : α → Sexp} {xs : List α}
    (h : ∀ x, (g x).keyword? = some k') (ne : k' ≠ k) : Lacks k (xs.map g) := by
  intro s hs
  obtain ⟨x, -, rfl⟩ := List.mem_map.1 hs
  rw [h x]
  exact fun same => ne (Option.some.inj same)

theorem Lacks.sexps {k : String} (hk : k ∈ declarationKeywords) (is : List Instr) :
    Lacks k (Instr.sexps is) := by
  induction is with
  | nil => intro s hs; cases hs
  | cons i is ih =>
    intro s hs
    rcases List.mem_cons.1 hs with rfl | hs
    · exact i.keyword?_sexp hk
    · exact ih s hs

/-- A run ends where nothing can be taken any more. -/
theorem takeRun_append {α β γ : Type} {f : α → Option β} {g : γ → α} {h : γ → β} (xs : List γ)
    {rest : List α} (taken : ∀ x ∈ xs, f (g x) = some (h x)) (stop : ∀ y ∈ rest, f y = none) :
    takeRun f (xs.map g ++ rest) = (xs.map h, rest) := by
  induction xs with
  | nil =>
    cases rest with
    | nil => rfl
    | cons y rest => simp [takeRun, stop y]
  | cons x xs ih =>
    have first := taken x (by simp)
    have tail := ih fun y hy => taken y (by simp [hy])
    simp [takeRun, first, tail]

/-- A declaration of a name. -/
def declaration (keyword x : String) : Sexp := .list [.word keyword, .word x, .word "i32"]

/-- A result. -/
def resultItem : Sexp := .list [.word "result", .word "i32"]

def exportItem (e : String) : Sexp := .list [.word "export", .string e]

theorem declared?_declaration {keyword x : String} (h : isSymbol x = true) :
    declared? keyword (declaration keyword x) = some [x] := by
  simp [declaration, declared?, isName_of_isSymbol h]

theorem reads_declaration {k x : String} (hk : isWord k = true) (hx : isSymbol x = true) :
    Reads ("(" ++ k ++ " " ++ x ++ " i32)").toList (declaration k x).parts := by
  have split : ("(" ++ k ++ " " ++ x ++ " i32)").toList =
      '(' :: (k.toList ++ ' ' :: (x.toList ++ ' ' :: ("i32".toList ++ [')']))) := by
    simp
  rw [split]
  have type : Reads (' ' :: ("i32".toList ++ [')'])) [.word "i32", .closing] :=
    .space (.word (by decide) rfl (.closing .nil))
  exact .opening (.word hk rfl (.space (.word (isWord_of_isSymbol hx) rfl type)))

theorem reads_result : Reads "(result i32)".toList resultItem.parts :=
  .opening (.word (w := "result") (by decide) rfl
    (.space (.word (w := "i32") (by decide) rfl (.closing .nil))))

theorem reads_export {e : String} (h : ∀ c ∈ e.toList, isStringChar c = true) :
    Reads ("(export \"" ++ e ++ "\")").toList (exportItem e).parts := by
  have split : ("(export \"" ++ e ++ "\")").toList =
      '(' :: ("export".toList ++ ' ' :: ('"' :: e.toList ++ '"' :: [')'])) := by
    simp
  rw [split]
  exact .opening (.word (by decide) rfl (.space (.string h (.closing .nil))))

namespace Func

/-- The items of a function from its locals on. -/
def fromLocals (f : Func) : List Sexp :=
  f.locals.map (declaration "local") ++ Instr.sexps f.body

/-- The items of a function from its results on. -/
def fromResults (f : Func) : List Sexp :=
  (List.replicate f.results ()).map (fun _ => resultItem) ++ f.fromLocals

/-- The items of a function from its parameters on. -/
def fromParams (f : Func) : List Sexp := f.params.map (declaration "param") ++ f.fromResults

/-- The item that a function is written as. -/
def sexp (f : Func) : Sexp :=
  .list (.word "func" :: .word f.name :: (f.exports.map exportItem ++ f.fromParams))

/-- The names in a function are names, and what it is exported under can be quoted. -/
structure IsSpelled (f : Func) : Prop where
  name : isSymbol f.name = true
  exports : ∀ e ∈ f.exports, ∀ c ∈ e.toList, isStringChar c = true
  params : ∀ x ∈ f.params, isSymbol x = true
  locals : ∀ x ∈ f.locals, isSymbol x = true
  body : ∀ s ∈ Instr.listSymbols f.body, isSymbol s.2 = true

/-- What stands in the first line of a function, after the word that it starts with. -/
def headItems (f : Func) : List Sexp :=
  .word f.name :: (f.exports.map exportItem ++ (f.params.map (declaration "param") ++
    (List.replicate f.results ()).map fun _ => resultItem))

theorem sexp_eq (f : Func) : f.sexp = .list ((.word "func" :: f.headItems) ++ f.fromLocals) := by
  simp [sexp, headItems, fromParams, fromResults]

/-- The first line of a function is read as the start of its item. -/
theorem reads_header {f : Func} (h : f.IsSpelled) :
    Reads f.header.toList (.opening :: Sexp.listParts (.word "func" :: f.headItems)) := by
  obtain ⟨results, resultsBoundary⟩ := Sexp.reads_join (List.replicate f.results ())
    (f := fun _ => " (result i32)") (fun _ _ => rfl) (fun _ _ => .space reads_result)
  obtain ⟨params, paramsBoundary⟩ := Sexp.reads_join f.params
    (f := fun x => " (param " ++ x ++ " i32)") (g := declaration "param")
    (fun x _ => by simp [isBoundary, Part.isSpace])
    (fun x hx => by simpa using (reads_declaration (k := "param") (by decide) (h.params x hx)).space)
  obtain ⟨exports, exportsBoundary⟩ := Sexp.reads_join f.exports
    (f := fun e => " (export \"" ++ e ++ "\")") (g := exportItem)
    (fun e _ => by simp [isBoundary, Part.isSpace])
    (fun e he => by simpa using (reads_export (h.exports e he)).space)
  have boundary := isBoundary_append paramsBoundary resultsBoundary
  have declarations := exports.append (params.append results resultsBoundary) boundary
  have whole := Reads.opening (.word (w := "func") (by decide) rfl (.space
    (.word (isWord_of_isSymbol h.name) (isBoundary_append exportsBoundary boundary) declarations)))
  simpa [header, headItems, Sexp.listParts, Sexp.parts, Sexp.listParts_append] using whole

/-- The lines of a function are read as its item. -/
theorem readsLines_lines {f : Func} (h : f.IsSpelled) : ReadsLines f.lines f.sexp.parts := by
  have locals : ReadsLines (f.locals.flatMap fun x => [⟨2, "(local " ++ x ++ " i32)"⟩])
      (Sexp.listParts (f.locals.map (declaration "local"))) :=
    Sexp.readsLines_flatMap fun x hx =>
      .single (reads_declaration (k := "local") (by decide) (h.locals x hx))
  have body := Instr.readsLines_listLines 2 f.body h.body
  have inner := locals.append body
  rw [← Sexp.listParts_append] at inner
  have whole := ReadsLines.nested 1 (.word "func" :: f.headItems) (reads_header h) inner
  rw [sexp_eq]
  simpa [lines, fromLocals, List.map_eq_flatMap] using whole

-- what follows a run of declarations has no declaration of its kind

theorem lacks_fromLocals {k : String} (h : k ∈ ["export", "import", "param", "result"]) (f : Func) :
    Lacks k f.fromLocals := by
  have declared : k ∈ declarationKeywords := by
    revert h
    simp only [declarationKeywords, List.mem_cons]
    tauto
  have ne : "local" ≠ k := by
    rintro rfl
    exact absurd h (by decide)
  exact (Lacks.map (fun _ => rfl) ne).append (.sexps declared f.body)

theorem lacks_fromResults {k : String} (h : k ∈ ["export", "import", "param"]) (f : Func) :
    Lacks k f.fromResults := by
  have ne : "result" ≠ k := by
    rintro rfl
    exact absurd h (by decide)
  exact (Lacks.map (fun _ => rfl) ne).append
    (f.lacks_fromLocals (List.mem_append_left ["result"] h))

theorem lacks_fromParams {k : String} (h : k ∈ ["export", "import"]) (f : Func) :
    Lacks k f.fromParams := by
  have ne : "param" ≠ k := by
    rintro rfl
    exact absurd h (by decide)
  exact (Lacks.map (fun _ => rfl) ne).append
    (f.lacks_fromResults (List.mem_append_left ["param"] h))

theorem takeRun_locals {f : Func} (h : f.IsSpelled) :
    takeRun (declared? "local") f.fromLocals = (f.locals.map ([·]), Instr.sexps f.body) :=
  takeRun_append f.locals (fun x hx => declared?_declaration (h.locals x hx))
    fun s hs => declared?_eq_none (Lacks.sexps (by decide) f.body s hs)

theorem takeRun_results (f : Func) :
    takeRun (declared? "result") f.fromResults =
      ((List.replicate f.results ()).map (fun _ => [""]), f.fromLocals) :=
  takeRun_append (List.replicate f.results ()) (fun _ _ => rfl)
    fun s hs => declared?_eq_none (f.lacks_fromLocals (by decide) s hs)

theorem takeRun_params {f : Func} (h : f.IsSpelled) :
    takeRun (declared? "param") f.fromParams = (f.params.map ([·]), f.fromResults) :=
  takeRun_append f.params (fun x hx => declared?_declaration (h.params x hx))
    fun s hs => declared?_eq_none (f.lacks_fromResults (by decide) s hs)

theorem takeRun_origin (f : Func) : takeRun importNames? f.fromParams = ([], f.fromParams) :=
  takeRun_append (g := id) (h := fun _ => ("", "")) [] (by simp)
    fun s hs => importNames?_eq_none (f.lacks_fromParams (by decide) s hs)

theorem takeRun_exports (f : Func) :
    takeRun export? (f.exports.map exportItem ++ f.fromParams) = (f.exports.map id, f.fromParams) :=
  takeRun_append f.exports (fun _ _ => rfl)
    fun s hs => export?_eq_none (f.lacks_fromParams (by decide) s hs)

/-- The item of a function is read as that function. -/
theorem ofSexp?_sexp {f : Func} (h : f.IsSpelled) : Field.ofSexp? f.sexp = some (.func f) := by
  have singletons : ∀ xs : List String, (xs.map ([·])).flatten = xs := by
    intro xs
    rw [← List.flatMap_def, List.flatMap_singleton']
  rw [sexp, Field.ofSexp?, Field.func?]
  simp [takeName, isName_of_isSymbol h.name, takeRun_exports, takeRun_origin, takeRun_params h,
    takeRun_results, takeRun_locals h, Instr.ofItems?_sexps f.body h.body, singletons]

end Func

/-! ## §6 Globals and imports -/

theorem reads_const (w : Word) :
    Reads ("(i32.const " ++ Word.text w ++ ")").toList (Instr.const w).sexp.parts :=
  .immediate (w := "i32.const") (by decide) (isWord_text w)

/-- The item that a global variable is written as. -/
def Global.sexp (g : Global) : Sexp :=
  .list [.word "global", .word g.name,
    if g.isMutable then .list [.word "mut", .word "i32"] else .word "i32", (Instr.const g.value).sexp]

theorem Global.reads_text {g : Global} (h : isSymbol g.name = true) :
    Reads g.text.toList g.sexp.parts := by
  have value : Reads (' ' :: (("(i32.const " ++ Word.text g.value ++ ")").toList ++ [')'])) _ :=
    .space ((reads_const g.value).append (.closing .nil) rfl)
  have type : Reads (if g.isMutable then " (mut i32)" else " i32").toList
      (if g.isMutable then .list [.word "mut", .word "i32"] else Sexp.word "i32").parts := by
    cases g.isMutable with
    | true => exact .space (.immediate (w := "mut") (a := "i32") (by decide) (by decide))
    | false => exact .space (.ofWord (w := "i32") (by decide))
  have boundary : isBoundary (if g.isMutable then " (mut i32)" else " i32").toList = true := by
    cases g.isMutable <;> rfl
  have whole := Reads.opening (.word (w := "global") (by decide) rfl (.space
    (.word (isWord_of_isSymbol h) (isBoundary_append boundary rfl) (type.append value rfl))))
  simpa [text, sexp, Sexp.parts, Sexp.listParts] using whole

theorem Global.ofSexp?_sexp {g : Global} (h : isSymbol g.name = true) :
    Field.ofSexp? g.sexp = some (.global g) := by
  obtain ⟨name, isMutable, value⟩ := g
  cases isMutable <;>
    simp [sexp, Instr.sexp, Field.ofSexp?, isName_of_isSymbol h, word?_text]

namespace Import

/-- A parameter without a name. -/
def paramItem : Sexp := .list [.word "param", .word "i32"]

/-- The names under which an import is offered. -/
def namesItem (i : Import) : Sexp := .list [.word "import", .string i.space, .string i.name]

/-- The item that an import is written as. -/
def sexp (i : Import) : Sexp :=
  match i.item with
  | .memory min max =>
    .list [.word "import", .string i.space, .string i.name,
      .list (.word "memory" :: .word (toString min) :: max.toList.map fun n => .word (toString n))]
  | .func f params results =>
    .list (.word "func" :: .word f :: i.namesItem ::
      ((List.replicate params ()).map (fun _ => paramItem) ++
        (List.replicate results ()).map fun _ => resultItem))

/-- What an import is offered under can be quoted, the function has a name, and the bounds on the
memory are in order. -/
structure IsSpelled (i : Import) : Prop where
  space : ∀ c ∈ i.space.toList, isStringChar c = true
  name : ∀ c ∈ i.name.toList, isStringChar c = true
  item : match i.item with
    | .memory min max => ∀ n ∈ max, min ≤ n
    | .func f _ _ => isSymbol f = true

/-- The two names of an import in quotes, with what follows them. -/
theorem reads_names {i : Import} (h : i.IsSpelled) {cs : List Char} {ps : List Part}
    (rest : Reads cs ps) :
    Reads ("import \"".toList ++ (i.space.toList ++ ("\" \"".toList ++ (i.name.toList ++ '"' :: cs))))
      (.word "import" :: .string i.space :: .string i.name :: ps) :=
  .word (w := "import") (by decide) rfl (.space (.string h.space (.space (.string h.name rest))))

theorem reads_text {i : Import} (h : i.IsSpelled) : Reads i.text.toList i.sexp.parts := by
  obtain ⟨space, name, item⟩ := i
  cases item with
  | memory min max =>
    have closing : Reads [')', ')'] [.closing, .closing] := .closing (.closing .nil)
    cases max with
    | none =>
      have bounds := Reads.word (isWord_repr min) rfl closing
      have whole := Reads.opening (reads_names h (.space (.opening
        (.word (w := "memory") (by decide) rfl (.space bounds)))))
      simpa [text, sexp, Sexp.parts, Sexp.listParts] using whole
    | some max =>
      have bounds := Reads.word (isWord_repr min) rfl
        (.space (.word (isWord_repr max) rfl closing))
      have whole := Reads.opening (reads_names h (.space (.opening
        (.word (w := "memory") (by decide) rfl (.space bounds)))))
      simpa [text, sexp, Sexp.parts, Sexp.listParts] using whole
  | func f params results =>
    obtain ⟨results, resultsBoundary⟩ := Sexp.reads_join (List.replicate results ())
      (f := fun _ => " (result i32)") (fun _ _ => rfl) (fun _ _ => .space reads_result)
    obtain ⟨params, paramsBoundary⟩ := Sexp.reads_join (List.replicate params ())
      (f := fun _ => " (param i32)") (g := fun _ => paramItem) (fun _ _ => rfl)
      (fun _ _ => .space (.immediate (w := "param") (a := "i32") (by decide) (by decide)))
    have signature := params.append (results.append (.closing .nil) rfl)
      (isBoundary_append resultsBoundary rfl)
    have whole := Reads.opening (.word (w := "func") (by decide) rfl (.space
      (.word (isWord_of_isSymbol h.item) rfl (.space (.opening
        (reads_names h (.closing signature)))))))
    simpa [text, sexp, namesItem, Sexp.parts, Sexp.listParts, Sexp.listParts_append] using whole

/-- The item of an imported function is read as that function. -/
theorem ofSexp?_func {i : Import} {f : String} {params results : Nat} (hf : isSymbol f = true)
    (hi : i.item = .func f params results) : Field.ofSexp? i.sexp = some (.import_ i) := by
  have noParam : Lacks "param" ((List.replicate results ()).map fun _ => resultItem) :=
    .map (fun _ => rfl) (by decide)
  have noImport : Lacks "import" ((List.replicate params ()).map (fun _ => paramItem) ++
      (List.replicate results ()).map fun _ => resultItem) :=
    .append (.map (fun _ => rfl) (by decide)) (.map (fun _ => rfl) (by decide))
  have exports : ∀ items, takeRun export? (i.namesItem :: items) = ([], i.namesItem :: items) :=
    fun _ => rfl
  have origin := takeRun_append [()] (f := importNames?) (g := fun _ => i.namesItem)
    (h := fun _ => (i.space, i.name)) (fun _ _ => rfl)
    (fun s hs => importNames?_eq_none (noImport s hs))
  have runParams := takeRun_append (List.replicate params ()) (f := declared? "param")
    (g := fun _ => paramItem) (h := fun _ => [""]) (fun _ _ => rfl)
    (fun s hs => declared?_eq_none (noParam s hs))
  have runResults := takeRun_append (List.replicate results ()) (f := declared? "result")
    (g := fun _ => resultItem) (h := fun _ => [""]) (fun _ _ => rfl) (List.forall_mem_nil _)
  rw [List.append_nil] at runResults
  rw [List.map_cons, List.map_nil, List.singleton_append] at origin
  simp only [sexp, hi, Field.ofSexp?, Field.func?, takeName, isName_of_isSymbol hf, if_true, exports,
    origin, runParams, runResults]
  obtain ⟨space, name, item⟩ := i
  simp only at hi
  simp [hi]

/-- The item of an import is read as that import. -/
theorem ofSexp?_sexp {i : Import} (h : i.IsSpelled) : Field.ofSexp? i.sexp = some (.import_ i) := by
  obtain ⟨space, name, item⟩ := i
  cases item with
  | memory min max =>
    cases max with
    | none => simp [sexp, Field.ofSexp?, takeName, isName_repr, limits?, nat?_repr]
    | some max =>
      have ordered : min ≤ max := h.item max rfl
      simp [sexp, Field.ofSexp?, takeName, isName_repr, limits?, nat?_repr, ordered]
  | func f params results => exact ofSexp?_func h.item rfl

end Import

/-! ## §7 Modules -/

namespace Module

/-- The items of a module. -/
def items (m : Module) : List Sexp :=
  m.imports.map Import.sexp ++ (m.globals.map Global.sexp ++ m.funcs.map Func.sexp)

/-- All names in a module are names, and all that is quoted can be quoted. -/
structure IsSpelled (m : Module) : Prop where
  imports : ∀ i ∈ m.imports, i.IsSpelled
  globals : ∀ g ∈ m.globals, isSymbol g.name = true
  funcs : ∀ f ∈ m.funcs, f.IsSpelled

theorem readsLines_lines {m : Module} (h : m.IsSpelled) :
    ReadsLines m.lines (Sexp.list (.word "module" :: m.items)).parts := by
  have imports : ReadsLines (m.imports.flatMap fun i => [⟨1, i.text⟩]) _ :=
    Sexp.readsLines_flatMap fun i hi => .single (Import.reads_text (h.imports i hi))
  have globals : ReadsLines (m.globals.flatMap fun g => [⟨1, g.text⟩]) _ :=
    Sexp.readsLines_flatMap fun g hg => .single (Global.reads_text (h.globals g hg))
  have funcs : ReadsLines (m.funcs.flatMap Func.lines) _ :=
    Sexp.readsLines_flatMap fun f hf => Func.readsLines_lines (h.funcs f hf)
  have inner := imports.append (globals.append funcs)
  rw [← Sexp.listParts_append, ← Sexp.listParts_append] at inner
  have whole := ReadsLines.nested 0 [.word "module"] (Reads.start (w := "module") (by decide)) inner
  simpa [lines, items, List.map_eq_flatMap] using whole

/-- The fields of a module, in the order in which they are written. -/
def fields (m : Module) : List Field :=
  m.imports.map .import_ ++ (m.globals.map .global ++ m.funcs.map .func)

theorem mapM_map_eq_some {α β γ : Type} {f : β → Option γ} {g : α → β} {k : α → γ} {xs : List α}
    (h : ∀ x ∈ xs, f (g x) = some (k x)) : (xs.map g).mapM f = some (xs.map k) := by
  induction xs with
  | nil => rfl
  | cons x xs ih => simp [h x, ih fun y hy => h y (by simp [hy])]

theorem mapM_items {m : Module} (h : m.IsSpelled) :
    m.items.mapM Field.ofSexp? = some m.fields := by
  have imports := mapM_map_eq_some fun i hi => Import.ofSexp?_sexp (h.imports i hi)
  have globals := mapM_map_eq_some fun g hg => Global.ofSexp?_sexp (h.globals g hg)
  have funcs := mapM_map_eq_some fun f hf => Func.ofSexp?_sexp (h.funcs f hf)
  simp [items, fields, List.mapM_append, imports, globals, funcs]

theorem ofFields?_fields (m : Module) : ofFields? m.fields = some m := by
  have nothing : ∀ {α β : Type} (xs : List α), xs.filterMap (fun _ => (none : Option β)) = [] :=
    fun xs => List.filterMap_eq_nil_iff.2 fun _ _ => rfl
  simp only [ofFields?, fields, List.filterMap_append, List.filterMap_map, Function.comp_def, nothing,
    List.filterMap_some, List.append_nil, List.nil_append, List.foldlM_nil]
  rw [if_neg]
  · rfl
  -- past the imports at the front, no field is an import
  rw [List.dropWhile_append_of_pos (by simp)]
  simp only [List.any_eq_true, not_exists, not_and]
  intro field later
  have mem := (List.dropWhile_sublist _).subset later
  simp only [List.mem_append, List.mem_map] at mem
  rcases mem with ⟨g, -, rfl⟩ | ⟨f, -, rfl⟩ <;> simp

/-- No item of a module stands outside of parentheses, so a module has no name. -/
theorem takeName_items (m : Module) : takeName m.items = ("", m.items) := by
  have lists : ∀ s ∈ m.items, ∃ xs, s = .list xs := by
    intro s hs
    simp only [items, List.mem_append, List.mem_map] at hs
    rcases hs with ⟨i, -, rfl⟩ | ⟨g, -, rfl⟩ | ⟨f, -, rfl⟩
    · rw [Import.sexp]
      split <;> exact ⟨_, rfl⟩
    · exact ⟨_, rfl⟩
    · exact ⟨_, rfl⟩
  cases hm : m.items with
  | nil => rfl
  | cons s rest =>
    obtain ⟨xs, rfl⟩ := lists s (by simp [hm])
    rfl

/-- The text of a module is read as that module. -/
theorem read?_text {m : Module} (h : m.IsSpelled) : read? m.text = some m := by
  have items : Sexp.readAll m.text = some [.list (.word "module" :: m.items)] :=
    Sexp.readAll_renderAll (readsLines_lines h).item
  rw [read?, items]
  simp [takeName_items, mapM_items h, ofFields?_fields]

end Module

end Serpent.Wasm
