import Mathlib

/-!
# Blocks of equal size

The numbers below `total` in `num` blocks of the same size, of which the last one also takes the
rest. The block of a number is found by a division, which is clamped to the last block.
-/

namespace Meld.Lib

/-- A division into blocks. -/
structure Blocks where
  total : ℕ
  num : ℕ
  size : ℕ
  num_pos : 0 < num
  size_pos : 0 < size
  le_total : num * size ≤ total

namespace Blocks

/-- As many numbers for each block as the division gives. -/
def ofDiv (total num : ℕ) (h : 0 < total / num) : Blocks where
  total := total
  num := num
  size := total / num
  num_pos := Nat.pos_of_ne_zero fun hnum => by
    rw [hnum, Nat.div_zero] at h
    exact Nat.lt_irrefl 0 h
  size_pos := h
  le_total := Nat.mul_div_le total num

variable (b : Blocks)

/-- The first number of a block. -/
def first (i : ℕ) : ℕ := i * b.size

/-- The end of a block. -/
def last (i : ℕ) : ℕ := if i + 1 = b.num then b.total else (i + 1) * b.size

/-- The block of a number. -/
def owner (x : ℕ) : ℕ := min (x / b.size) (b.num - 1)

variable {b} {i x : ℕ}

theorem owner_lt (x : ℕ) : b.owner x < b.num := by
  have h := b.num_pos
  rw [owner]
  omega

theorem last_le (hi : i < b.num) : b.last i ≤ b.total := by
  rw [last]
  split_ifs
  · exact le_rfl
  · exact (Nat.mul_le_mul_right b.size hi).trans b.le_total

/-- The blocks are disjoint and cover all numbers: a number is in its own block and in no other. -/
theorem mem_iff (hi : i < b.num) (hx : x < b.total) :
    b.first i ≤ x ∧ x < b.last i ↔ b.owner x = i := by
  have hfirst : b.first i ≤ x ↔ i ≤ x / b.size := (Nat.le_div_iff_mul_le b.size_pos).symm
  rw [hfirst, last, owner]
  split_ifs with hlast
  · rw [and_iff_left hx]
    omega
  · rw [← Nat.div_lt_iff_lt_mul b.size_pos]
    omega

end Blocks

end Meld.Lib
