/-
Serpent.Text.Span — places in a source text.

Places are counted in bytes of the UTF-8 form, so a character may be one to four places wide.
`Span.slice?` cuts a span out of a text; it has no answer when an end of the span falls inside a
character or past the end of the text.
-/

namespace Serpent

/-- The number of bytes that a text takes in UTF-8. -/
def utf8Length : List Char → Nat
  | [] => 0
  | c :: cs => c.utf8Size + utf8Length cs

@[simp] theorem utf8Length_nil : utf8Length [] = 0 := rfl

@[simp] theorem utf8Length_cons (c : Char) (cs : List Char) :
    utf8Length (c :: cs) = c.utf8Size + utf8Length cs := rfl

@[simp] theorem utf8Length_append (as bs : List Char) :
    utf8Length (as ++ bs) = utf8Length as + utf8Length bs := by
  induction as with
  | nil => simp
  | cons a as ih => simp [ih, Nat.add_assoc]

/-- The text that follows the first `n` bytes. -/
def dropBytes? : Nat → List Char → Option (List Char)
  | 0, cs => some cs
  | _ + 1, [] => none
  | n + 1, c :: cs => if c.utf8Size ≤ n + 1 then dropBytes? (n + 1 - c.utf8Size) cs else none

/-- The first `n` bytes as a text. -/
def takeBytes? : Nat → List Char → Option (List Char)
  | 0, _ => some []
  | _ + 1, [] => none
  | n + 1, c :: cs =>
    if c.utf8Size ≤ n + 1 then (takeBytes? (n + 1 - c.utf8Size) cs).map (c :: ·) else none

/-- Dropping exactly the bytes of a leading text leaves what follows it. -/
theorem dropBytes?_append (as bs : List Char) :
    dropBytes? (utf8Length as) (as ++ bs) = some bs := by
  induction as with
  | nil => simp [dropBytes?]
  | cons a as ih =>
    have pos : 0 < a.utf8Size := a.utf8Size_pos
    obtain ⟨n, hn⟩ : ∃ n, a.utf8Size + utf8Length as = n + 1 :=
      ⟨a.utf8Size + utf8Length as - 1, by omega⟩
    have left : n + 1 - a.utf8Size = utf8Length as := by omega
    simp only [utf8Length_cons, List.cons_append, hn, dropBytes?, left, ih]
    simp
    omega

/-- Taking exactly the bytes of a leading text gives that text. -/
theorem takeBytes?_append (as bs : List Char) :
    takeBytes? (utf8Length as) (as ++ bs) = some as := by
  induction as with
  | nil => cases bs <;> simp [takeBytes?]
  | cons a as ih =>
    have pos : 0 < a.utf8Size := a.utf8Size_pos
    obtain ⟨n, hn⟩ : ∃ n, a.utf8Size + utf8Length as = n + 1 :=
      ⟨a.utf8Size + utf8Length as - 1, by omega⟩
    have left : n + 1 - a.utf8Size = utf8Length as := by omega
    simp only [utf8Length_cons, List.cons_append, hn, takeBytes?, left, ih]
    simp
    omega

/-- A half-open range of bytes of a text. -/
structure Span where
  start : Nat
  stop : Nat
deriving DecidableEq, Repr, Inhabited

namespace Span

/-- The span of no bytes that stands at `n`. -/
def empty (n : Nat) : Span := ⟨n, n⟩

/-- A span is written `3..5`. -/
def render (s : Span) : String := toString s.start ++ ".." ++ toString s.stop

/-- The text that a span covers. -/
def slice? (s : Span) (source : List Char) : Option (List Char) :=
  if s.start ≤ s.stop then
    (dropBytes? s.start source).bind (takeBytes? (s.stop - s.start))
  else none

/-- A span that covers a part of a text cuts out that part. -/
theorem slice?_append (as bs cs : List Char) :
    slice? ⟨utf8Length as, utf8Length as + utf8Length bs⟩ (as ++ bs ++ cs) = some bs := by
  simp [slice?, dropBytes?_append, takeBytes?_append]

end Span

end Serpent
