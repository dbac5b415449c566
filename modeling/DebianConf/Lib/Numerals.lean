import Mathlib.Data.BitVec
import Mathlib.Data.List.TakeWhile

/-!
# Decimal numerals of C

The conversions `%d` and `%lld` of `printf`, and `strtoul` with base 10 for a 64-bit
`unsigned long`, on byte strings. A number printed with a sign is read back modulo `2 ^ 64`.
-/

namespace DebianConf.Lib

/-- The decimal digits of `n`, most significant first. -/
def digits (n : ℕ) : List UInt8 :=
  if n < 10 then [UInt8.ofNat (48 + n)] else digits (n / 10) ++ [UInt8.ofNat (48 + n % 10)]
termination_by n

/-- What `printf` writes for a signed integer with `%d` or `%lld`. -/
def printSigned (z : ℤ) : List UInt8 :=
  if z < 0 then 45 :: digits z.natAbs else digits z.natAbs

/-- `isdigit` in the C locale. -/
def isDigit (b : UInt8) : Bool := 48 ≤ b && b ≤ 57

/-- `isspace` in the C locale. -/
def isSpace (b : UInt8) : Bool := b == 32 || (9 ≤ b && b ≤ 13)

/-- The value of a string of digits, read after a number with value `acc`. -/
def digitsValue (acc : ℕ) (ds : List UInt8) : ℕ :=
  ds.foldl (fun acc b => 10 * acc + (b.toNat - 48)) acc

/-- `strtoul(s, &endptr, 10)`: skips white space, takes a sign and the digits after it. A
value that does not fit gives `ULONG_MAX`, any other is negated after a minus sign. -/
def strtoul (s : List UInt8) : BitVec 64 :=
  let s := s.dropWhile isSpace
  let negative := s.head? == some 45
  let s := if negative || s.head? == some 43 then s.tail else s
  let value := digitsValue 0 (s.takeWhile isDigit)
  if 2 ^ 64 ≤ value then BitVec.allOnes 64
  else if negative then -BitVec.ofNat 64 value
  else BitVec.ofNat 64 value

/-! ## Digits -/

theorem isDigit_iff {b : UInt8} : isDigit b = true ↔ 48 ≤ b.toNat ∧ b.toNat ≤ 57 := by
  simp [isDigit, UInt8.le_iff_toNat_le]

theorem digit_toNat {n : ℕ} (small : n < 10) : (UInt8.ofNat (48 + n)).toNat = 48 + n := by
  rw [UInt8.toNat_ofNat']
  omega

theorem isDigit_digit {n : ℕ} (small : n < 10) : isDigit (UInt8.ofNat (48 + n)) = true := by
  rw [isDigit_iff, digit_toNat small]
  omega

theorem isSpace_digit {b : UInt8} (digit : isDigit b = true) : isSpace b = false := by
  have range := isDigit_iff.mp digit
  simp only [isSpace, Bool.or_eq_false_iff, beq_eq_false_iff_ne, Bool.and_eq_false_iff,
    decide_eq_false_iff_not, UInt8.le_iff_toNat_le, ne_eq, ← UInt8.toNat_inj]
  exact ⟨by change ¬ b.toNat = 32; omega, Or.inr (by change ¬ b.toNat ≤ 13; omega)⟩

theorem digit_ne_sign {b : UInt8} (digit : isDigit b = true) : b ≠ 45 ∧ b ≠ 43 := by
  have range := isDigit_iff.mp digit
  constructor <;> rintro rfl <;> simp at range

theorem digits_all (n : ℕ) : ∀ b ∈ digits n, isDigit b = true := by
  induction n using digits.induct with
  | case1 n small =>
    rw [digits, if_pos small]
    simpa using isDigit_digit small
  | case2 n large ih =>
    rw [digits, if_neg large]
    intro b member
    rcases List.mem_append.mp member with front | last
    · exact ih b front
    · rw [List.mem_singleton.mp last]
      exact isDigit_digit (Nat.mod_lt n (by omega))

theorem digits_cons (n : ℕ) : ∃ b rest, digits n = b :: rest ∧ isDigit b = true := by
  cases shape : digits n with
  | nil =>
    rw [digits] at shape
    split at shape <;> simp at shape
  | cons b rest => exact ⟨b, rest, rfl, digits_all n b (shape ▸ List.mem_cons_self)⟩

theorem digitsValue_digits (n : ℕ) : digitsValue 0 (digits n) = n := by
  induction n using digits.induct with
  | case1 n small =>
    rw [digits, if_pos small]
    simp only [digitsValue, List.foldl_cons, List.foldl_nil, digit_toNat small]
    omega
  | case2 n large ih =>
    rw [digits, if_neg large]
    unfold digitsValue at ih ⊢
    rw [List.foldl_append, ih]
    have small : n % 10 < 10 := Nat.mod_lt n (by omega)
    simp only [List.foldl_cons, List.foldl_nil, digit_toNat small]
    omega

/-! ## Printing and reading back -/

theorem takeWhile_digits (n : ℕ) : (digits n).takeWhile isDigit = digits n :=
  List.takeWhile_eq_self_iff.mpr (digits_all n)

/-- What is printed has only a minus sign and digits. -/
theorem printSigned_digit {n : ℕ} (small : n < 10) : printSigned n = [UInt8.ofNat (48 + n)] := by
  rw [printSigned, if_neg (by omega), Int.natAbs_natCast, digits, if_pos small]

theorem mem_printSigned {z : ℤ} {b : UInt8} (member : b ∈ printSigned z) :
    b = 45 ∨ isDigit b = true := by
  unfold printSigned at member
  split at member
  · rcases List.mem_cons.mp member with rfl | digit
    · exact Or.inl rfl
    · exact Or.inr (digits_all _ b digit)
  · exact Or.inr (digits_all _ b member)

theorem printSigned_ne_nil (z : ℤ) : printSigned z ≠ [] := by
  obtain ⟨b, rest, shape, -⟩ := digits_cons z.natAbs
  unfold printSigned
  split <;> simp [shape]

/-- `strtoul` gives back a printed number modulo `2 ^ 64`. -/
theorem strtoul_printSigned {z : ℤ} (fits : z.natAbs < 2 ^ 64) :
    strtoul (printSigned z) = BitVec.ofInt 64 z := by
  have value : digitsValue 0 ((digits z.natAbs).takeWhile isDigit) = z.natAbs := by
    rw [takeWhile_digits, digitsValue_digits]
  unfold printSigned
  by_cases negative : z < 0
  · have skip : (45 :: digits z.natAbs).dropWhile isSpace = 45 :: digits z.natAbs := rfl
    have sign : z = -(z.natAbs : ℤ) := by omega
    simp only [if_pos negative, strtoul, skip, List.head?_cons, beq_self_eq_true, Bool.true_or,
      if_true, List.tail_cons, value, if_neg (Nat.not_le.mpr fits)]
    conv_rhs => rw [sign, BitVec.ofInt_neg, BitVec.ofInt_natCast]
  · obtain ⟨b, rest, shape, digit⟩ := digits_cons z.natAbs
    have skip : (digits z.natAbs).dropWhile isSpace = digits z.natAbs := by
      rw [shape, List.dropWhile_cons_of_neg (by simp [isSpace_digit digit])]
    have sign : (z.natAbs : ℤ) = z := by omega
    have head : (digits z.natAbs).head? = some b := by rw [shape, List.head?_cons]
    simp only [if_neg negative, strtoul, skip, head, Option.some_beq_some,
      beq_eq_false_iff_ne.mpr (digit_ne_sign digit).1,
      beq_eq_false_iff_ne.mpr (digit_ne_sign digit).2, Bool.or_self, Bool.false_eq_true, if_false,
      value, if_neg (Nat.not_le.mpr fits)]
    conv_rhs => rw [← sign, BitVec.ofInt_natCast]

end DebianConf.Lib
