import Mathlib

/-!
# Binary heaps in level order

The entries of a binary heap stand in a list, level by level: the children of the entry at `i`
stand at `2 * i + 1` and `2 * i + 2`, its parent at `parent i`. `Ordered key l` says that no entry
has a smaller key than its parent.

Restoring the order moves one entry along a path. `UpHole key l i` says that the entry at `i` may
be smaller than its parent and that the order holds otherwise, `DownHole key l i` that it may be
larger than its children. Both also order the children of `i` with the parent of `i`, so that the
exchange with the parent (`UpHole.move`) or with the smaller child (`DownHole.move`) leads to the
same situation one level further.
-/

namespace Meld.Lib.Heap

variable {α κ : Type} [LinearOrder κ] {key : α → κ} {l : List α} {i j c : ℕ} {x y z : α}

/-- The index of the parent. -/
def parent (i : ℕ) : ℕ := (i - 1) / 2

theorem parent_lt (h : 0 < i) : parent i < i := by
  unfold parent
  omega

/-- An index below a parent is a left or a right child. -/
theorem parent_eq_iff (h : 0 < j) : parent j = i ↔ j = 2 * i + 1 ∨ j = 2 * i + 2 := by
  unfold parent
  omega

/-- No entry is smaller than its parent. -/
def Ordered (key : α → κ) (l : List α) : Prop :=
  ∀ ⦃j x y⦄, 0 < j → l[parent j]? = some x → l[j]? = some y → key x ≤ key y

/-- The order with the exception of the entry at `i` and its parent. -/
structure UpHole (key : α → κ) (l : List α) (i : ℕ) : Prop where
  ordered : ∀ ⦃j x y⦄, 0 < j → j ≠ i → l[parent j]? = some x → l[j]? = some y → key x ≤ key y
  skip : ∀ ⦃j x y⦄, 0 < i → 0 < j → parent j = i → l[parent i]? = some x → l[j]? = some y →
    key x ≤ key y

/-- The order with the exception of the entry at `i` and its children. -/
structure DownHole (key : α → κ) (l : List α) (i : ℕ) : Prop where
  ordered : ∀ ⦃j x y⦄, 0 < j → parent j ≠ i → l[parent j]? = some x → l[j]? = some y →
    key x ≤ key y
  skip : ∀ ⦃j x y⦄, 0 < i → 0 < j → parent j = i → l[parent i]? = some x → l[j]? = some y →
    key x ≤ key y

/-- Exchanging two entries. -/
def exchange (l : List α) (i j : ℕ) (x y : α) : List α := (l.set i y).set j x

theorem exchange_perm (hx : l[i]? = some x) (hy : l[j]? = some y) :
    (exchange l i j x y).Perm l := by
  obtain ⟨hi, rfl⟩ := List.getElem?_eq_some_iff.mp hx
  obtain ⟨hj, rfl⟩ := List.getElem?_eq_some_iff.mp hy
  exact List.set_set_perm hi hj

/-- The last entry in the place of another. -/
theorem set_last_perm {last : α} (hx : l[i]? = some x) (hlast : l.getLast? = some last)
    (hi : i + 1 < l.length) : (x :: l.dropLast.set i last).Perm l := by
  have hsplit : l = l.dropLast ++ [last] := by
    obtain ⟨init, hinit⟩ := List.getLast?_eq_some_iff.mp hlast
    rw [hinit, List.dropLast_concat]
  have hx' : l.dropLast[i]? = some x := by
    rw [List.getElem?_dropLast, if_pos (by omega)]
    exact hx
  obtain ⟨hi', rfl⟩ := List.getElem?_eq_some_iff.mp hx'
  have hset := (List.set_perm_cons_eraseIdx hi' last).cons l.dropLast[i]
  have herase := (List.getElem_cons_eraseIdx_perm hi').cons last
  have happend : (last :: l.dropLast).Perm l := by
    conv_rhs => rw [hsplit]
    exact (List.perm_append_singleton _ _).symm
  exact hset.trans ((List.Perm.swap _ _ _).trans (herase.trans happend))

/-- The list without its last entry. -/
theorem cons_dropLast_perm (hlast : l.getLast? = some x) : (x :: l.dropLast).Perm l := by
  obtain ⟨init, rfl⟩ := List.getLast?_eq_some_iff.mp hlast
  rw [List.dropLast_concat]
  exact (List.perm_append_singleton _ _).symm

@[simp] theorem exchange_length : (exchange l i j x y).length = l.length := by
  simp [exchange]

theorem exchange_get (hx : l[i]? = some x) (hy : l[j]? = some y) (k : ℕ) :
    (exchange l i j x y)[k]? = if j = k then some x else if i = k then some y else l[k]? := by
  have hi := (List.getElem?_eq_some_iff.mp hx).1
  have hj := (List.getElem?_eq_some_iff.mp hy).1
  simp [exchange, List.getElem?_set, hi, hj]

/-! ### The root -/

/-- The root of an ordered heap is smallest. -/
theorem Ordered.root_le (h : Ordered key l) (hroot : l[0]? = some x) :
    ∀ (j : ℕ) (y : α), l[j]? = some y → key x ≤ key y := by
  intro j
  induction j using Nat.strong_induction_on with
  | _ j ih =>
    intro y hy
    rcases Nat.eq_zero_or_pos j with rfl | hpos
    · rw [hroot, Option.some.injEq] at hy
      exact hy ▸ le_rfl
    · have hlt := parent_lt hpos
      have hlen := (List.getElem?_eq_some_iff.mp hy).1
      have hp := List.getElem?_eq_getElem (hlt.trans hlen)
      exact (ih _ hlt _ hp).trans (h hpos hp hy)

/-! ### Moving up -/

theorem Ordered.push (h : Ordered key l) (x : α) : UpHole key (l ++ [x]) l.length where
  ordered j y z hj hne hy hz := by
    have hlen : j < l.length := by
      have := (List.getElem?_eq_some_iff.mp hz).1
      simp only [List.length_append, List.length_singleton] at this
      omega
    rw [List.getElem?_append_left hlen] at hz
    rw [List.getElem?_append_left ((parent_lt hj).trans hlen)] at hy
    exact h hj hy hz
  skip j y z _ hj hp _ hz := by
    have hlt := parent_lt hj
    have := (List.getElem?_eq_some_iff.mp hz).1
    simp only [List.length_append, List.length_singleton] at this
    omega

/-- The entry changes places with its larger parent. -/
theorem UpHole.move (h : UpHole key l i) (hi : 0 < i) (hx : l[parent i]? = some x)
    (hy : l[i]? = some y) (hlt : key y < key x) :
    UpHole key (exchange l (parent i) i x y) (parent i) := by
  have hpi := parent_lt hi
  constructor
  · intro j v w hj hne hv hw
    rw [exchange_get hx hy] at hv hw
    by_cases hji : i = j
    · subst hji
      rw [if_pos rfl, Option.some.injEq] at hw
      rw [if_neg (by omega), if_pos rfl, Option.some.injEq] at hv
      exact hv ▸ hw ▸ hlt.le
    · rw [if_neg hji, if_neg (by omega)] at hw
      by_cases hpj : i = parent j
      · -- a child of the place the entry leaves
        rw [if_pos hpj, Option.some.injEq] at hv
        exact hv ▸ h.skip hi hj hpj.symm hx hw
      · rw [if_neg hpj] at hv
        by_cases hpp : parent i = parent j
        · -- the sibling of the place the entry leaves
          rw [if_pos hpp, Option.some.injEq] at hv
          have := h.ordered hj (Ne.symm hji) (hpp ▸ hx) hw
          exact hv ▸ hlt.le.trans this
        · rw [if_neg hpp] at hv
          exact h.ordered hj (Ne.symm hji) hv hw
  · intro j v w hi' hj hpj hv hw
    have hppi := parent_lt hi'
    rw [exchange_get hx hy] at hv hw
    rw [if_neg (by omega), if_neg (by omega)] at hv
    have hvx := h.ordered hi' hpi.ne hv hx
    by_cases hji : i = j
    · rw [if_pos hji, Option.some.injEq] at hw
      exact hw ▸ hvx
    · have hlt' := parent_lt hj
      rw [if_neg hji, if_neg (by omega)] at hw
      exact hvx.trans (h.ordered hj (Ne.symm hji) (hpj.symm ▸ hx) hw)

theorem UpHole.ordered_of_root (h : UpHole key l 0) : Ordered key l :=
  fun _ _ _ hj hx hy => h.ordered hj hj.ne' hx hy

theorem UpHole.ordered_of_le (h : UpHole key l i) (hx : l[parent i]? = some x)
    (hy : l[i]? = some y) (hle : key x ≤ key y) : Ordered key l := by
  intro j v w hj hv hw
  by_cases hji : j = i
  · subst hji
    rw [hx, Option.some.injEq] at hv
    rw [hy, Option.some.injEq] at hw
    exact hv ▸ hw ▸ hle
  · exact h.ordered hj hji hv hw

/-- Another entry takes the place `i`: it may be smaller than the parent, and is no larger than
it. -/
theorem Ordered.replace_up (h : Ordered key l) (hx : l[i]? = some x) (hi : 0 < i)
    (hz : l[parent i]? = some z) (hle : key y ≤ key z) : UpHole key (l.set i y) i := by
  have hpi := parent_lt hi
  have hlen := (List.getElem?_eq_some_iff.mp hx).1
  constructor
  · intro j v w hj hne hv hw
    rw [List.getElem?_set_ne (Ne.symm hne)] at hw
    by_cases hpj : i = parent j
    · rw [← hpj, List.getElem?_set_self hlen, Option.some.injEq] at hv
      exact hv ▸ hle.trans ((h hi hz hx).trans (h hj (hpj ▸ hx) hw))
    · rw [List.getElem?_set_ne hpj] at hv
      exact h hj hv hw
  · intro j v w _ hj hpj hv hw
    have hlt := parent_lt hj
    rw [List.getElem?_set_ne (by omega)] at hv hw
    exact (h hi hv hx).trans (h hj (hpj.symm ▸ hx) hw)

/-! ### Moving down -/

/-- Another entry takes the place `i`: it may be larger than the children, but must not be smaller
than the parent. -/
theorem Ordered.replace (h : Ordered key l) (hx : l[i]? = some x)
    (hle : ∀ z, 0 < i → l[parent i]? = some z → key z ≤ key y) : DownHole key (l.set i y) i := by
  have hi := (List.getElem?_eq_some_iff.mp hx).1
  constructor
  · intro j v w hj hne hv hw
    rw [List.getElem?_set_ne (Ne.symm hne)] at hv
    by_cases hji : i = j
    · subst hji
      rw [List.getElem?_set_self hi, Option.some.injEq] at hw
      exact hw ▸ hle v hj hv
    · rw [List.getElem?_set_ne hji] at hw
      exact h hj hv hw
  · intro j v w hi' hj hpj hv hw
    have hlt := parent_lt hi'
    have hlt' := parent_lt hj
    rw [List.getElem?_set_ne (by omega)] at hv hw
    exact (h hi' hv hx).trans (h hj (hpj.symm ▸ hx) hw)

/-- The entry changes places with its smallest child. -/
theorem DownHole.move (h : DownHole key l i) (hc : 0 < c) (hpc : parent c = i)
    (hx : l[i]? = some x) (hy : l[c]? = some y) (hlt : key y < key x)
    (hmin : ∀ (j : ℕ) (z : α), 0 < j → parent j = i → l[j]? = some z → key y ≤ key z) :
    DownHole key (exchange l i c x y) c := by
  have hic := parent_lt hc
  constructor
  · intro j v w hj hne hv hw
    have hlt' := parent_lt hj
    rw [exchange_get hx hy] at hv hw
    rw [if_neg (Ne.symm hne)] at hv
    by_cases hpj : i = parent j
    · -- the children of `i`: the old entry, or its sibling
      rw [if_pos hpj, Option.some.injEq] at hv
      by_cases hcj : c = j
      · rw [if_pos hcj, Option.some.injEq] at hw
        exact hv ▸ hw ▸ hlt.le
      · rw [if_neg hcj, if_neg (by omega)] at hw
        exact hv ▸ hmin j w hj hpj.symm hw
    · rw [if_neg hpj] at hv
      have hcj : c ≠ j := fun he => hpj (by rw [← he, hpc])
      rw [if_neg hcj] at hw
      by_cases hij : i = j
      · -- the smaller child below the parent of `i`
        subst hij
        rw [if_pos rfl, Option.some.injEq] at hw
        exact hw ▸ h.skip hj hc hpc hv hy
      · rw [if_neg hij] at hw
        exact h.ordered hj (Ne.symm hpj) hv hw
  · intro j v w _ hj hpj hv hw
    have hlt' := parent_lt hj
    rw [exchange_get hx hy, hpc, if_neg (by omega), if_pos rfl, Option.some.injEq] at hv
    rw [exchange_get hx hy, if_neg (by omega), if_neg (by omega)] at hw
    exact hv ▸ h.ordered hj (by omega) (hpj.symm ▸ hy) hw

theorem DownHole.ordered_of_le (h : DownHole key l i) (hx : l[i]? = some x)
    (hle : ∀ (j : ℕ) (z : α), 0 < j → parent j = i → l[j]? = some z → key x ≤ key z) : Ordered key l := by
  intro j v w hj hv hw
  by_cases hpj : parent j = i
  · rw [hpj, hx, Option.some.injEq] at hv
    exact hv ▸ hle j w hj hpj hw
  · exact h.ordered hj hpj hv hw

theorem Ordered.dropLast (h : Ordered key l) : Ordered key l.dropLast := by
  intro j x y hj hx hy
  rw [List.getElem?_dropLast] at hx hy
  split_ifs at hx hy
  exact h hj hx hy

end Meld.Lib.Heap
