/-
Serpent.Proofs.Decimal — numbers are read back from their decimal digits.

The digits of a number have its value again, and the text of a word is read as that word, both
where a numeral has no sign and where it may have one.

  §1 Digits
  §2 Words
-/
import Serpent.Program.Parse
import Serpent.Wasm.Read

namespace Serpent

/-! ## §1 Digits -/

theorem isDigit_of_mem_toDigits {n : Nat} {c : Char} (h : c ∈ Nat.toDigits 10 n) :
    c.isDigit = true :=
  Nat.isDigit_of_mem_toDigits (by omega) (by omega) h

/-- The digits of a number have the value of the number. -/
theorem natOfDigits?_toDigits (n : Nat) : natOfDigits? (Nat.toDigits 10 n) = some n := by
  have digits : (Nat.toDigits 10 n).all Char.isDigit = true :=
    List.all_eq_true.2 fun c hc => isDigit_of_mem_toDigits hc
  have value : (Nat.toDigits 10 n).foldl (fun k c => 10 * k + digitValue c) 0 = n := by
    have h := Nat.ofDigitChars_ten_toDigits (n := n)
    rwa [Nat.ofDigitChars_eq_foldl] at h
  cases h : Nat.toDigits 10 n with
  | nil => exact absurd h Nat.toDigits_ne_nil
  | cons c cs =>
    rw [h] at digits value
    simp only [natOfDigits?, digits, value, if_true]

/-! ## §2 Words -/

theorem Word.toInt_nonneg {w : Word} (h : 0 ≤ w) : 0 ≤ w.toInt := by
  simpa [Int32.le_iff_toInt_le] using h

theorem Word.toInt_neg {w : Word} (h : ¬ 0 ≤ w) : w.toInt < 0 := by
  rw [Int32.le_iff_toInt_le] at h
  simpa using h

/-- A word that is not negative is written in digits only. -/
theorem Word.toList_text_of_nonneg {w : Word} (h : 0 ≤ w) :
    (Word.text w).toList = Nat.toDigits 10 w.toInt.toNat := by
  obtain ⟨n, hn⟩ := Int.eq_ofNat_of_zero_le (Word.toInt_nonneg h)
  simp [Word.text, hn, Int.toString_eq_repr, Int.repr]

/-- A negative word is written as a sign and digits. -/
theorem Word.toList_text_of_neg {w : Word} (h : ¬ 0 ≤ w) :
    (Word.text w).toList = '-' :: Nat.toDigits 10 (-w.toInt).toNat := by
  obtain ⟨n, hn⟩ := Int.eq_negSucc_of_lt_zero (Word.toInt_neg h)
  simp [Word.text, hn, Int.toString_eq_repr, Int.repr]

theorem Word.ofNat_toInt_toNat {w : Word} (h : 0 ≤ w) : Int32.ofNat w.toInt.toNat = w :=
  Int32.ofNat_toNatClampNeg w h

/-- The numeral of a word that is not negative has the word as its value. -/
theorem SourceTree.numeral?_text {w : Word} (h : 0 ≤ w) :
    SourceTree.numeral? (Word.text w) = some w := by
  have bound : w.toInt.toNat < Word.half := by
    have := w.toInt_lt
    simp only [Word.half]
    omega
  rw [SourceTree.numeral?, Word.toList_text_of_nonneg h, natOfDigits?_toDigits]
  simp only [bound, if_true, Word.ofNat_toInt_toNat h]

/-- A numeral without a sign that starts with a digit is a word if its value fits 32 bits. -/
theorem Wasm.word?_of_digits {text : String} {c : Char} {cs : List Char}
    (h : text.toList = c :: cs) (digit : c.isDigit = true) :
    Wasm.word? text = (natOfDigits? (c :: cs)).bind fun n =>
      if n < Word.count then some (Int32.ofNat n) else none := by
  have minus : c ≠ '-' := by
    rintro rfl
    exact absurd digit (by decide)
  have plus : c ≠ '+' := by
    rintro rfl
    exact absurd digit (by decide)
  rw [Wasm.word?, h]
  split
  · simp_all
  · simp_all
  · rfl

/-- The text of a word is read as that word. -/
theorem Wasm.word?_text (w : Word) : Wasm.word? (Word.text w) = some w := by
  by_cases h : 0 ≤ w
  · have text := Word.toList_text_of_nonneg h
    cases hd : Nat.toDigits 10 w.toInt.toNat with
    | nil => exact absurd hd Nat.toDigits_ne_nil
    | cons c cs =>
      have digit : c.isDigit = true :=
        isDigit_of_mem_toDigits (n := w.toInt.toNat) (by rw [hd]; exact List.mem_cons_self)
      have bound : w.toInt.toNat < Word.count := by
        have := w.toInt_lt
        simp only [Word.count]
        omega
      rw [Wasm.word?_of_digits (text.trans hd) digit, ← hd, natOfDigits?_toDigits,
        Option.bind_some, if_pos bound, Word.ofNat_toInt_toNat h]
  · have negative := Word.toInt_neg h
    have bound : (-w.toInt).toNat ≤ Word.half := by
      have := w.le_toInt
      simp only [Word.half]
      omega
    have value : -((-w.toInt).toNat : Int) = w.toInt := by omega
    rw [Wasm.word?, Word.toList_text_of_neg h]
    simp only [natOfDigits?_toDigits, Option.bind_some, bound, if_true, value, Int32.ofInt_toInt]

end Serpent
