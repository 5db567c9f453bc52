import Mathlib

/-!
# Double-precision numbers

The bits of a number in the binary format of 64 bits, with its addition and its conversions from and
to integers. A finite number is an integer in units of the least subnormal, `2 ^ (-1074)`, so the
sum of two numbers is known exactly before it is rounded to nearest, ties to even. A result that is
not a number has one bit pattern here; nothing reads the others apart.

`ofInt` and `truncate` are inverse on the integers below `2 ^ 53` (`truncate_ofInt`), which are
added exactly (`add_ofInt`).
-/

namespace Meld.Lib.Double

/-! ### The fields -/

/-- The biased exponent. -/
def exponent (x : UInt64) : ℕ := x.toNat / 2 ^ 52 % 2 ^ 11

/-- The bits of the significand. -/
def fraction (x : UInt64) : ℕ := x.toNat % 2 ^ 52

/-- The sign. -/
def negative (x : UInt64) : Bool := decide (2 ^ 63 ≤ x.toNat)

/-- Infinities and what is not a number. -/
def isSpecial (x : UInt64) : Bool := exponent x == 2047

/-- The bits of a result that is not a number. -/
def nan : UInt64 := 0x7FF8000000000000

/-- The absolute value of a finite number, in units of the least subnormal. -/
def magnitude (x : UInt64) : ℕ :=
  if exponent x = 0 then fraction x else (2 ^ 52 + fraction x) * 2 ^ (exponent x - 1)

/-- A finite number, in units of the least subnormal. -/
def units (x : UInt64) : ℤ := if negative x then -(magnitude x : ℤ) else magnitude x

/-! ### Rounding -/

/-- `n / 2 ^ q`, rounded to the nearest integer, ties to even. -/
def roundShift (n q : ℕ) : ℕ :=
  let m := n / 2 ^ q
  let r := n % 2 ^ q
  if 2 ^ q < 2 * r ∨ 2 * r = 2 ^ q ∧ m % 2 = 1 then m + 1 else m

/-- The bits of the absolute value `n` without the sign: a significand that rounds up to the next
power of two carries into the exponent, and what is too large is infinite. -/
def encodeMagnitude (n : ℕ) : ℕ :=
  let q := n.log2 - 52
  min (q * 2 ^ 52 + roundShift n q) (2047 * 2 ^ 52)

/-- The number nearest to `z` units. -/
def encode (z : ℤ) : UInt64 :=
  UInt64.ofNat ((if z < 0 then 2 ^ 63 else 0) + encodeMagnitude z.natAbs)

/-! ### Arithmetic -/

/-- The sum of two numbers. -/
def add (x y : UInt64) : UInt64 :=
  if isSpecial x && fraction x != 0 || isSpecial y && fraction y != 0 then nan
  else if isSpecial x then if isSpecial y && negative x != negative y then nan else x
  else if isSpecial y then y
  -- the sum of two negative zeros is a negative zero
  else if negative x && negative y && magnitude x + magnitude y == 0 then x
  else encode (units x + units y)

/-- The number one, in units of the least subnormal. -/
def one : ℤ := 2 ^ 1074

theorem one_pos : 0 < one := Int.pow_pos (by decide)

/-- The number nearest to an integer. -/
def ofInt (z : ℤ) : UInt64 := encode (z * one)

/-- The integer part of a finite number. -/
def truncate (x : UInt64) : Option ℤ :=
  if isSpecial x then none else some ((units x).tdiv one)

/-! ### Numbers that are not rounded -/

/-- A number of units that a significand can hold has the bits of its significand. -/
theorem encodeMagnitude_eq {n : ℕ} (hdvd : 2 ^ (n.log2 - 52) ∣ n) (hle : n.log2 ≤ 2097) :
    ∃ q m, n = m * 2 ^ q ∧ q ≤ 2045 ∧ m < 2 ^ 53 ∧ (q = 0 ∨ 2 ^ 52 ≤ m) ∧
      encodeMagnitude n = q * 2 ^ 52 + m := by
  obtain ⟨m, hm⟩ := hdvd
  have hpos : 0 < 2 ^ (n.log2 - 52) := Nat.two_pow_pos _
  have hround : roundShift n (n.log2 - 52) = m := by
    have hdiv : n / 2 ^ (n.log2 - 52) = m := by
      exact Nat.div_eq_of_eq_mul_right hpos hm
    have hmod : n % 2 ^ (n.log2 - 52) = 0 := Nat.mod_eq_zero_of_dvd ⟨m, hm⟩
    rw [roundShift, hdiv, hmod, if_neg]
    rintro (h | ⟨h, -⟩) <;> omega
  have hlt : m < 2 ^ 53 := by
    have hn : 2 ^ (n.log2 - 52) * m < 2 ^ (n.log2 - 52) * 2 ^ 53 := by
      rw [← hm, ← Nat.pow_add]
      exact Nat.lt_log2_self.trans_le (Nat.pow_le_pow_right Nat.two_pos (by omega))
    exact lt_of_mul_lt_mul_left hn (Nat.zero_le _)
  have hnormal : n.log2 - 52 = 0 ∨ 2 ^ 52 ≤ m := by
    refine or_iff_not_imp_left.mpr fun hq => ?_
    have hn : 2 ^ (n.log2 - 52) * 2 ^ 52 ≤ 2 ^ (n.log2 - 52) * m := by
      rw [← hm, ← Nat.pow_add, Nat.sub_add_cancel (by omega)]
      refine Nat.log2_self_le ?_
      rintro rfl
      exact hq (by simp)
    exact le_of_mul_le_mul_left hn hpos
  refine ⟨n.log2 - 52, m, by rw [Nat.mul_comm]; exact hm, by omega, hlt, hnormal, ?_⟩
  simp only [encodeMagnitude, hround]
  omega

/-- The fields of a sign and the bits of a significand. -/
theorem fields_eq {s q m : ℕ} (hs : s = 0 ∨ s = 2 ^ 63) (hq : q ≤ 2045) (hm : m < 2 ^ 53)
    (hnormal : q = 0 ∨ 2 ^ 52 ≤ m) :
    let x := UInt64.ofNat (s + (q * 2 ^ 52 + m))
    isSpecial x = false ∧ magnitude x = m * 2 ^ q ∧ negative x = decide (s = 2 ^ 63) := by
  intro x
  have hx : x.toNat = s + (q * 2 ^ 52 + m) := UInt64.toNat_ofNat_of_lt' (by
    rw [UInt64.size]
    omega)
  have hneg : negative x = decide (s = 2 ^ 63) := by
    rw [negative, hx]
    exact decide_eq_decide.mpr (by omega)
  rcases Nat.lt_or_ge m (2 ^ 52) with hlt | hge
  · obtain rfl := hnormal.resolve_right (by omega)
    have hexp : exponent x = 0 := by
      rw [exponent, hx]
      omega
    have hfrac : fraction x = m := by
      rw [fraction, hx]
      omega
    refine ⟨by rw [isSpecial, hexp]; rfl, ?_, hneg⟩
    rw [magnitude, if_pos hexp, hfrac, Nat.pow_zero, Nat.mul_one]
  · have hexp : exponent x = q + 1 := by
      rw [exponent, hx]
      omega
    have hfrac : 2 ^ 52 + fraction x = m := by
      rw [fraction, hx]
      omega
    refine ⟨?_, ?_, hneg⟩
    · rw [isSpecial, hexp]
      exact beq_false_of_ne (by omega)
    · rw [magnitude, if_neg (by rw [hexp]; exact Nat.succ_ne_zero q), hfrac, hexp,
        Nat.add_sub_cancel]

/-- What a significand can hold is encoded as it is. -/
theorem units_encode {z : ℤ} (hdvd : 2 ^ (z.natAbs.log2 - 52) ∣ z.natAbs)
    (hle : z.natAbs.log2 ≤ 2097) :
    isSpecial (encode z) = false ∧ units (encode z) = z ∧ negative (encode z) = decide (z < 0) := by
  obtain ⟨q, m, hz, hq, hm, hnormal, hbits⟩ := encodeMagnitude_eq hdvd hle
  obtain ⟨hspecial, hmag, hneg⟩ := fields_eq (s := if z < 0 then 2 ^ 63 else 0)
    (by split_ifs <;> simp) hq hm hnormal
  have hneg' : negative (encode z) = decide (z < 0) := by
    rw [encode, hbits, hneg]
    split_ifs with hlt <;> simp [hlt]
  refine ⟨by rw [encode, hbits]; exact hspecial, ?_, hneg'⟩
  rw [units, hneg', encode, hbits, hmag, ← hz]
  by_cases hlt : z < 0
  · simp only [hlt, decide_true, if_true]
    omega
  · simp only [hlt, decide_false, Bool.false_eq_true, if_false]
    omega

/-! ### Integers -/

/-- An integer that a significand can hold, times a power of two. -/
theorem units_encode_mul {z : ℤ} {e : ℕ} (hz : z.natAbs < 2 ^ 53) (he : e ≤ 2045) :
    isSpecial (encode (z * 2 ^ e)) = false ∧ units (encode (z * 2 ^ e)) = z * 2 ^ e ∧
      negative (encode (z * 2 ^ e)) = decide (z < 0) := by
  have hpos : (0 : ℤ) < 2 ^ e := by positivity
  have habs : (z * 2 ^ e).natAbs = z.natAbs * 2 ^ e := by
    rw [Int.natAbs_mul, Int.natAbs_pow]
    rfl
  have hneg : z * 2 ^ e < 0 ↔ z < 0 :=
    ⟨fun h => neg_of_mul_neg_left h hpos.le, fun h => mul_neg_of_neg_of_pos h hpos⟩
  have hlog : (z * 2 ^ e).natAbs.log2 < 53 + e := by
    rw [habs]
    by_cases hzero : z.natAbs = 0
    · rw [hzero, Nat.zero_mul, Nat.log2_zero]
      omega
    · rw [Nat.log2_lt (Nat.mul_ne_zero hzero (Nat.two_pow_pos e).ne'), Nat.pow_add]
      exact Nat.mul_lt_mul_of_pos_right hz (Nat.two_pow_pos e)
  obtain ⟨hspecial, hunits, hnegative⟩ := units_encode (z := z * 2 ^ e)
    (by
      refine (Nat.pow_dvd_pow 2 (by omega : _ ≤ e)).trans ?_
      rw [habs]
      exact Nat.dvd_mul_left _ _)
    (by omega)
  exact ⟨hspecial, hunits, hnegative.trans (decide_eq_decide.mpr hneg)⟩

/-- The integers that are not rounded. -/
theorem units_ofInt {z : ℤ} (hz : z.natAbs < 2 ^ 53) :
    isSpecial (ofInt z) = false ∧ units (ofInt z) = z * one ∧
      negative (ofInt z) = decide (z < 0) :=
  units_encode_mul hz (by decide)

theorem truncate_ofInt {z : ℤ} (hz : z.natAbs < 2 ^ 53) : truncate (ofInt z) = some z := by
  obtain ⟨hspecial, hunits, -⟩ := units_ofInt hz
  rw [truncate, hspecial, hunits, Int.mul_tdiv_cancel _ one_pos.ne']
  rfl

/-- Integers are added exactly while their sum is not rounded. -/
theorem add_ofInt {x y : ℤ} (hx : x.natAbs < 2 ^ 53) (hy : y.natAbs < 2 ^ 53) :
    add (ofInt x) (ofInt y) = ofInt (x + y) := by
  obtain ⟨hspecial, hunits, hneg⟩ := units_ofInt hx
  obtain ⟨hspecial', hunits', hneg'⟩ := units_ofInt hy
  rw [add, hspecial, hspecial', hunits, hunits', ← Int.add_mul]
  -- a zero that comes from an integer is positive
  have hzero : (negative (ofInt x) && negative (ofInt y) &&
      magnitude (ofInt x) + magnitude (ofInt y) == 0) = false := by
    by_contra hne
    simp only [Bool.not_eq_false, Bool.and_eq_true, beq_iff_eq, Nat.add_eq_zero_iff] at hne
    obtain ⟨⟨hlt, -⟩, hmag, -⟩ := hne
    rw [units, hlt, hmag] at hunits
    rw [hneg, decide_eq_true_eq] at hlt
    have hnonzero : x * one ≠ 0 := mul_ne_zero hlt.ne one_pos.ne'
    exact hnonzero (by simpa using hunits.symm)
  simp only [Bool.false_and, Bool.or_self, Bool.false_eq_true, if_false, hzero]
  rfl

end Meld.Lib.Double
