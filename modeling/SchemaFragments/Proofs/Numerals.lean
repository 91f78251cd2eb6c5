import Mathlib
import SchemaFragments.Document.Grammar
import SchemaFragments.Document.Printer
/-!
# Written numbers

Integers and floats are written as digits without a leading zero, after an optional minus sign and, in
floats that are not whole, before a point and more digits. The texts are what the tokens of a document
allow, and integers and whole floats are read as the number that was written.
-/

namespace SchemaFragments.Number

/-- Digits without a leading zero. -/
structure IsNumeral (digits : List Char) : Prop where
  digits_ne_nil : digits ≠ []
  isDigit : ∀ c ∈ digits, c.isDigit = true
  leading : digits = ['0'] ∨ digits.head? ≠ some '0'

/-- What stands before the digits of a number. -/
def signText (negative : Bool) : List Char := if negative then ['-'] else []

theorem isDigit_toDigits {n : Nat} {c : Char} (h : c ∈ Nat.toDigits 10 n) : c.isDigit = true :=
  Nat.isDigit_of_mem_toDigits (by decide) (by decide) h

theorem head?_toDigits_ne {n : Nat} (h : n ≠ 0) : (Nat.toDigits 10 n).head? ≠ some '0' := by
  induction n using Nat.strongRecOn with
  | ind n ih =>
    rw [Nat.toDigits_eq_if (by decide)]
    split
    · simpa [Nat.digitChar_eq_zero] using h
    · rename_i hn
      have hrest := ih (n / 10) (by omega) (by omega)
      rwa [List.head?_append_of_ne_nil _ Nat.toDigits_ne_nil]

theorem isNumeral_toDigits_append {n : Nat} (zeros : Nat) (h : n ≠ 0 ∨ zeros = 0) :
    IsNumeral (Nat.toDigits 10 n ++ List.replicate zeros '0') where
  digits_ne_nil := by simp
  isDigit c hc := by
    rcases List.mem_append.1 hc with hc | hc
    · exact isDigit_toDigits hc
    · rw [List.eq_of_mem_replicate hc]
      rfl
  leading := by
    by_cases hn : n = 0
    · obtain rfl := h.resolve_left (not_not_intro hn)
      simp [hn]
    · rw [List.head?_append_of_ne_nil _ Nat.toDigits_ne_nil]
      exact .inr (head?_toDigits_ne hn)

theorem isNumeral_toDigits (n : Nat) : IsNumeral (Nat.toDigits 10 n) := by
  simpa using isNumeral_toDigits_append (n := n) 0 (.inr rfl)

theorem natOfDigits_eq (digits : List Char) : natOfDigits digits = Nat.ofDigitChars 10 digits 0 := by
  rw [natOfDigits, Nat.ofDigitChars_eq_foldl]
  congr
  funext total c
  rw [Nat.mul_comm, digitValue]

theorem natOfDigits_toDigits_append (n zeros : Nat) :
    natOfDigits (Nat.toDigits 10 n ++ List.replicate zeros '0') = n * 10 ^ zeros := by
  rw [natOfDigits_eq, Nat.ofDigitChars_append, Nat.ofDigitChars_ten_toDigits,
    Nat.ofDigitChars_replicate_zero, Nat.mul_comm]

theorem natOfDigits_toDigits (n : Nat) : natOfDigits (Nat.toDigits 10 n) = n := by
  simpa using natOfDigits_toDigits_append n 0

/-- The digits of a number, with zeros in front of them so that one stands before the last `scale`. -/
def padded (n scale : Nat) : List Char :=
  List.replicate (scale + 1 - (Nat.toDigits 10 n).length) '0' ++ Nat.toDigits 10 n

theorem lt_length_padded (n scale : Nat) : scale < (padded n scale).length := by
  simp only [padded, List.length_append, List.length_replicate]
  omega

theorem isDigit_padded {n scale : Nat} {c : Char} (h : c ∈ padded n scale) : c.isDigit = true := by
  rcases List.mem_append.1 h with h | h
  · rw [List.eq_of_mem_replicate h]
    rfl
  · exact isDigit_toDigits h

theorem IsNumeral.take {digits : List Char} {count : Nat} (h : IsNumeral digits) (hcount : 0 < count) :
    IsNumeral (digits.take count) := by
  obtain ⟨count, rfl⟩ := Nat.exists_eq_add_of_lt hcount
  obtain ⟨first, rest, rfl⟩ := List.exists_cons_of_ne_nil h.digits_ne_nil
  refine ⟨by simp, fun c hc => h.isDigit c (List.mem_of_mem_take hc), ?_⟩
  exact h.leading.imp (fun hzero => by simp [hzero]) (fun hne => by simpa using hne)

/-- The digits in front of a point are some of those of a number, or a single zero. -/
theorem isNumeral_take_padded (n scale : Nat) :
    IsNumeral ((padded n scale).take ((padded n scale).length - scale)) := by
  -- without enough digits for a whole part there are zeros in front, and one of them is left of the point
  by_cases hlong : scale < (Nat.toDigits 10 n).length
  · have hpadded : padded n scale = Nat.toDigits 10 n := by simp [padded, Nat.sub_eq_zero_of_le hlong]
    rw [hpadded]
    exact (isNumeral_toDigits n).take (by omega)
  · obtain ⟨zeros, hzeros⟩ := Nat.exists_eq_add_of_le (Nat.le_of_not_lt hlong)
    have hpadded : padded n scale = '0' :: (List.replicate zeros '0' ++ Nat.toDigits 10 n) := by
      rw [padded, show scale + 1 - (Nat.toDigits 10 n).length = zeros + 1 by omega, List.replicate_succ,
        List.cons_append]
    have hcount : (padded n scale).length - scale = 1 := by
      simp only [padded, List.length_append, List.length_replicate]
      omega
    rw [hcount, hpadded]
    exact ⟨by simp, by simp, .inl rfl⟩

/-! ## Shortest decimals -/

namespace Shortest

theorem digits_trimZeros {bound : Nat} {s : Shortest} (h : s.digits ≠ 0) :
    (trimZeros bound s).digits ≠ 0 := by
  induction bound generalizing s with
  | zero => exact h
  | succ bound ih =>
    rw [trimZeros]
    split
    · exact ih (by simp only; omega)
    · exact h

theorem some_of_ite {α : Type} {first second : Bool} {a b c : α}
    (h : (if first then some a else if second then some b else none) = some c) :
    first = true ∧ a = c ∨ second = true ∧ b = c := by
  cases first <;> cases second <;> simp_all

/-- Zero is no decimal that reads back: the lower end of the interval is positive. -/
theorem digits_withDigits? {tie : Tie} {mantissa count : Nat} {exponent magnitude : Int} {s : Shortest}
    (hm : mantissa ≠ 0) (h : withDigits? tie mantissa exponent magnitude count = some s) : s.digits ≠ 0 := by
  intro hs
  have htwos : 0 < Nat.pow 2 (exponent - 2).toNat * Nat.pow 10 (-(magnitude - count)).toNat :=
    Nat.mul_pos (Nat.pow_pos (by decide)) (Nat.pow_pos (by decide))
  have hlow : 0 < (quarters mantissa exponent).1 := by
    simp only [quarters]
    split <;> omega
  have hend := Nat.mul_pos hlow htwos
  unfold withDigits? at h
  dsimp only at h
  generalize (quarters mantissa exponent).1 * _ = low at h hend
  obtain ⟨hreads, rfl⟩ | ⟨hreads, rfl⟩ := some_of_ite h
  all_goals
    simp only at hs
    simp only [hs, Nat.zero_mul] at hreads
    split at hreads
    · simp at hreads
      omega
    · simp at hreads

theorem digits_of {tie : Tie} {mantissa : Nat} {exponent : Int} (hm : mantissa ≠ 0) :
    (of tie mantissa exponent).digits ≠ 0 := by
  rw [of, if_neg hm]
  refine digits_trimZeros ?_
  cases hfound : (List.range 17).findSome? _ with
  | none => exact hm
  | some s =>
    obtain ⟨n, -, hn⟩ := List.exists_of_findSome?_eq_some hfound
    exact digits_withDigits? hm hn

/-- Digits of a whole number that are nought have no zeros behind them. -/
theorem digits_of_or_exponent (tie : Tie) (mantissa : Nat) (exponent : Int) :
    (of tie mantissa exponent).digits ≠ 0 ∨ (of tie mantissa exponent).exponent = 0 := by
  by_cases hm : mantissa = 0
  · exact .inr (by simp [of, hm])
  · exact .inl (digits_of hm)

end Shortest

/-! ## Integers -/

/-- A text is an optional minus sign and a numeral that together stand for a number. -/
def WritesInteger (text : List Char) (n : Int) : Prop :=
  ∃ negative digits, IsNumeral digits ∧ text = signText negative ++ digits ∧
    n = if negative then -(natOfDigits digits : Int) else natOfDigits digits

theorem writesInteger_toString (n : Int) : WritesInteger (toString n).toList n := by
  cases n with
  | ofNat n =>
    exact ⟨false, _, isNumeral_toDigits n, by simp [signText, toString, Int.repr], by
      simp [natOfDigits_toDigits]⟩
  | negSucc n =>
    exact ⟨true, _, isNumeral_toDigits (n + 1), by simp [signText, toString, Int.repr], by
      simp [natOfDigits_toDigits, Int.negSucc_eq]⟩

/-! ## Floats -/

/-- The whole number that a float is written as, if it is written without a point. -/
def writtenWhole? : Binary64 → Option Int
  | .infinite _ => none
  | .finite negative mantissa exponent =>
    let shortest := Shortest.of .up mantissa exponent
    if 0 ≤ shortest.exponent then
      let size : Int := (shortest.digits * 10 ^ shortest.exponent.toNat : Nat)
      some (if negative then -size else size)
    else none

theorem writesInteger_float {float : Binary64} {n : Int} (h : writtenWhole? float = some n) :
    WritesInteger (Document.floatLayout.write float).toList n := by
  cases float with
  | infinite => cases h
  | finite negative mantissa exponent =>
    simp only [writtenWhole?] at h
    split at h
    · rename_i hexponent
      refine ⟨negative, _, isNumeral_toDigits_append (n := (Shortest.of .up mantissa exponent).digits)
        (Shortest.of .up mantissa exponent).exponent.toNat ?_, ?_, ?_⟩
      · have := Shortest.digits_of_or_exponent .up mantissa exponent
        omega
      · cases negative <;> simp [Layout.write, Document.floatLayout, positionalText, hexponent, signText]
      · rw [natOfDigits_toDigits_append]
        exact (Option.some.inj h).symm
    · cases h

/-- A float that is not whole has digits on both sides of its point. -/
theorem write_point {negative : Bool} {mantissa : Nat} {exponent : Int}
    (h : writtenWhole? (.finite negative mantissa exponent) = none) :
    ∃ whole fraction, IsNumeral whole ∧ fraction ≠ [] ∧ (∀ c ∈ fraction, c.isDigit = true) ∧
      (Document.floatLayout.write (.finite negative mantissa exponent)).toList =
        signText negative ++ whole ++ '.' :: fraction := by
  simp only [writtenWhole?, ite_eq_right_iff, reduceCtorEq, imp_false] at h
  generalize hdigits : (Shortest.of .up mantissa exponent).digits = digits
  generalize hscale : (-(Shortest.of .up mantissa exponent).exponent).toNat = scale
  have hlength := lt_length_padded digits scale
  refine ⟨(padded digits scale).take ((padded digits scale).length - scale),
    (padded digits scale).drop ((padded digits scale).length - scale), isNumeral_take_padded digits scale,
    ?_, fun c hc => isDigit_padded (List.mem_of_mem_drop hc), ?_⟩
  · rw [List.ne_nil_iff_length_pos, List.length_drop]
    omega
  · simp only [Layout.write, Document.floatLayout, positionalText, h, hdigits, hscale, padded, signText]
    cases negative <;> simp

end SchemaFragments.Number
