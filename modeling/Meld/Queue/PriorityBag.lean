import Meld.Queue.HeapQueue

/-!
# The priority queue as a multiset

What the queue is for: it holds a multiset of elements with priorities, and `pop` takes out an
element whose priority may stand before all others. `Bag.Step` says so for each operation.

The code does this as long as no operation runs into one of its limits, which `Meets` collects.
`remove` puts the last element of the vector in the place of the removed one and moves it down
only, so it must not have to go up; and the search of `remove` takes the element for absent when
it may stand before all entries of a level, so on every level above there must be an entry that
comes strictly before it. Without these, the order is lost or an assertion fails
(`run_bag_broken`).
-/

namespace Meld.Queue

open Lib Lib.Heap Vm

/-! ### The order of the priorities -/

/-- The priority as an integer, small values first. -/
def HeapType.key (typ : HeapType) (p : HeapPriority) : ℤ :=
  match typ with
  | .intAsc => p.intPriority
  | .intDesc => -p.intPriority
  | .floatAsc => floatKey p.floatPriority
  | .floatDesc => -floatKey p.floatPriority

/-- The priority can be compared: no NaN where doubles are compared. -/
def HeapType.Comparable (typ : HeapType) (p : HeapPriority) : Prop :=
  typ = .intAsc ∨ typ = .intDesc ∨ isNaN p.floatPriority = false

theorem heapCompare_iff {typ : HeapType} {x y : HeapPriority} (hx : typ.Comparable x)
    (hy : typ.Comparable y) : heapCompare typ x y = true ↔ typ.key x ≤ typ.key y := by
  cases typ with
  | intAsc => simp [heapCompare, HeapType.key]
  | intDesc => simp [heapCompare, HeapType.key]
  | floatAsc =>
    simp only [HeapType.Comparable, reduceCtorEq, false_or] at hx hy
    simp [heapCompare, HeapType.key, floatLe, hx, hy]
  | floatDesc =>
    simp only [HeapType.Comparable, reduceCtorEq, false_or] at hx hy
    simp [heapCompare, HeapType.key, floatLe, hx, hy]

theorem heapCompare_eq_false {typ : HeapType} {x y : HeapPriority} (hx : typ.Comparable x)
    (hy : typ.Comparable y) : heapCompare typ x y = false ↔ typ.key y < typ.key x := by
  rw [← Bool.not_eq_true, heapCompare_iff hx hy, not_le]

namespace HeapQueue

variable {T : Type} {q q' : HeapQueue T} {o x y : HeapObject T} {i j : ℕ}

/-- The key of an entry. -/
def entryKey (q : HeapQueue T) (o : HeapObject T) : ℤ := q.typ.key o.val

/-- Every index of the vector fits, and every priority can be compared. -/
structure Fits (q : HeapQueue T) : Prop where
  size : (q.heap.length : ℤ) ≤ maxInt
  comparable : ∀ o ∈ q.heap, q.typ.Comparable o.val

/-- The invariant between two operations. -/
structure Inv (q : HeapQueue T) : Prop extends Fits q where
  ordered : Ordered q.entryKey q.heap

/-! ### Reading the vector -/

/-- An index computed from one of the vector, before it is compared with the size. -/
private theorem child_cases (hsize : (q.heap.length : ℤ) ≤ maxInt) (hi : i < q.heap.length)
    (d : ℕ) (hd : d = 1 ∨ d = 2) :
    wrap32 (wrap32 (i * 2) + d) = (2 * i + d : ℕ) ∧ ((2 * i + d : ℕ) : ℤ) ≤ maxInt ∨
      wrap32 (wrap32 (i * 2) + d) < 0 ∧ maxInt < (2 * i + d : ℕ) := by
  simp only [maxInt] at hsize ⊢
  by_cases h₁ : (i * 2 : ℤ) ≤ 2147483647
  · rw [wrap32_of_mem (x := i * 2) (by simp only [maxInt]; omega) (by simp only [maxInt]; omega)]
    by_cases h₂ : (i * 2 + d : ℤ) ≤ 2147483647
    · rw [wrap32_of_mem (by simp only [maxInt]; omega) (by simp only [maxInt]; omega)]
      omega
    · rw [wrap32_of_gt (by simp only [maxInt]; omega) (by simp only [maxInt]; omega)]
      simp only [maxInt]
      omega
  · rw [wrap32_of_gt (x := i * 2) (by simp only [maxInt]; omega) (by simp only [maxInt]; omega),
      wrap32_of_mem (by simp only [maxInt]; omega) (by simp only [maxInt]; omega)]
    simp only [maxInt]
    omega

theorem left_cases (hsize : (q.heap.length : ℤ) ≤ maxInt) (hi : i < q.heap.length) :
    q.left i = (2 * i + 1 : ℕ) ∧ 2 * i + 1 < q.heap.length ∨
      ¬0 ≤ q.left i ∧ q.heap.length ≤ 2 * i + 1 := by
  have hlen : wrap32 q.heap.length = q.heap.length :=
    wrap32_of_mem (by simp only [maxInt] at hsize ⊢; omega) hsize
  have hchild := child_cases hsize hi 1 (.inl rfl)
  simp only [left, hlen, Int.cast_ofNat_Int] at hchild ⊢
  split_ifs <;> omega

theorem right_cases (hsize : (q.heap.length : ℤ) ≤ maxInt) (hi : i < q.heap.length) :
    q.right i = (2 * i + 2 : ℕ) ∧ 2 * i + 2 < q.heap.length ∨
      ¬0 ≤ q.right i ∧ q.heap.length ≤ 2 * i + 2 := by
  have hlen : wrap32 q.heap.length = q.heap.length :=
    wrap32_of_mem (by simp only [maxInt] at hsize ⊢; omega) hsize
  have hchild := child_cases hsize hi 2 (.inr rfl)
  simp only [right, hlen, Int.cast_ofNat_Int] at hchild ⊢
  split_ifs <;> omega

theorem parent_eq (hi : 0 < i) : HeapQueue.parent (i : ℤ) = (Heap.parent i : ℕ) := by
  obtain ⟨k, rfl⟩ := Nat.exists_eq_succ_of_ne_zero hi.ne'
  rw [HeapQueue.parent, if_pos (by omega), Heap.parent]
  simp

theorem get_eq (h : q.heap[i]? = some x) : q.get i = .ok x := by
  rw [get, if_pos (by omega), Int.toNat_natCast, h, deref_some]

theorem compareAt_eq (hx : q.heap[i]? = some x) (hy : q.heap[j]? = some y) :
    q.compareAt i j = .ok (heapCompare q.typ x.val y.val) := by
  rw [compareAt, get_eq hx, get_eq hy]
  rfl

theorem swap_eq (hx : q.heap[i]? = some x) (hy : q.heap[j]? = some y) :
    q.swap i j = .ok { q with heap := exchange q.heap i j x y } := by
  rw [swap, get_eq hx, get_eq hy]
  rfl

theorem compare_iff (h : ∀ o ∈ q.heap, q.typ.Comparable o.val) (hx : q.heap[i]? = some x)
    (hy : q.heap[j]? = some y) :
    heapCompare q.typ x.val y.val = true ↔ q.entryKey x ≤ q.entryKey y :=
  heapCompare_iff (h x (List.mem_of_getElem? hx)) (h y (List.mem_of_getElem? hy))

theorem compare_eq_false (h : ∀ o ∈ q.heap, q.typ.Comparable o.val) (hx : q.heap[i]? = some x)
    (hy : q.heap[j]? = some y) :
    heapCompare q.typ x.val y.val = false ↔ q.entryKey y < q.entryKey x :=
  heapCompare_eq_false (h x (List.mem_of_getElem? hx)) (h y (List.mem_of_getElem? hy))

/-- Another order of the entries. -/
structure Permuted (q q' : HeapQueue T) : Prop where
  typ : q'.typ = q.typ
  perm : q'.heap.Perm q.heap

theorem Permuted.refl (q : HeapQueue T) : Permuted q q := ⟨rfl, .refl _⟩

theorem Permuted.trans {q'' : HeapQueue T} (h : Permuted q q') (h' : Permuted q' q'') :
    Permuted q q'' := ⟨h'.typ.trans h.typ, h'.perm.trans h.perm⟩

theorem Permuted.exchange (hx : q.heap[i]? = some x) (hy : q.heap[j]? = some y) :
    Permuted q { q with heap := exchange q.heap i j x y } := ⟨rfl, exchange_perm hx hy⟩

theorem Permuted.comparable (hp : Permuted q q') (h : ∀ o ∈ q.heap, q.typ.Comparable o.val) :
    ∀ o ∈ q'.heap, q'.typ.Comparable o.val :=
  fun o ho => hp.typ ▸ h o (hp.perm.mem_iff.mp ho)

theorem Fits.permuted (h : Fits q) (hp : Permuted q q') : Fits q' :=
  ⟨hp.perm.length_eq ▸ h.size, hp.comparable h.comparable⟩

/-! ### The two sifts -/

/-- `heapifyup` restores the order below a hole, in a vector of any size. -/
theorem heapifyup_ordered (hcomp : ∀ o ∈ q.heap, q.typ.Comparable o.val)
    (hhole : UpHole q.entryKey q.heap i) (hi : i < q.heap.length) :
    ∃ q' moved, q.heapifyup i = .ok (q', moved) ∧ Permuted q q' ∧
      Ordered q'.entryKey q'.heap := by
  have key : ∃ r, q.heapifyup i = .ok r ∧ (Permuted q r.1 ∧ Ordered r.1.entryKey r.1.heap) := by
    refine iterate_of_variant
      (fun s : HeapQueue T × ℤ × Bool => ∃ k : ℕ, s.2.1 = k ∧ k < s.1.heap.length ∧
        Permuted q s.1 ∧ UpHole s.1.entryKey s.1.heap k)
      (fun r : HeapQueue T × Bool => Permuted q r.1 ∧ Ordered r.1.entryKey r.1.heap)
      (fun s => s.2.1.toNat) ?_ ⟨i, rfl, hi, .refl q, hhole⟩
      (by change (i : ℤ).toNat < q.heap.length + 1; omega)
    rintro ⟨r, index, moved⟩ ⟨k, rfl, hk, hperm, hole⟩
    simp only at hk hperm hole ⊢
    have hr := hperm.comparable hcomp
    rcases Nat.eq_zero_or_pos k with rfl | hpos
    · exact .inr ⟨(r, moved), by simp [heapifyupStep], hperm, hole.ordered_of_root⟩
    · have hlt := parent_lt hpos
      have hx := List.getElem?_eq_getElem (hlt.trans hk)
      have hy := List.getElem?_eq_getElem hk
      have hparent : Heap.parent k < r.heap.length := hlt.trans hk
      by_cases hle : r.entryKey r.heap[Heap.parent k] ≤ r.entryKey r.heap[k]
      · refine .inr ⟨(r, moved), ?_, hperm, hole.ordered_of_le hx hy hle⟩
        simp [heapifyupStep, parent_eq hpos, hpos, compareAt_eq hx hy, (compare_iff hr hx hy).mpr hle]
      · have hlt' := not_le.mp hle
        refine .inl ⟨({ r with heap := exchange r.heap _ k _ _ }, (Heap.parent k : ℕ), true), ?_,
          ⟨Heap.parent k, rfl, by simpa using hlt.trans hk, hperm.trans (.exchange hx hy),
            hole.move hpos hx hy hlt'⟩, by simpa using hlt⟩
        simp [heapifyupStep, parent_eq hpos, hpos, compareAt_eq hx hy, swap_eq hx hy,
          (compare_eq_false hr hx hy).mpr hlt']
  obtain ⟨⟨q', moved⟩, hrun, hperm, hord⟩ := key
  exact ⟨q', moved, hrun, hperm, hord⟩

/-- `heapifyup` restores the invariant below a hole. -/
theorem heapifyup_spec (hfits : Fits q) (hhole : UpHole q.entryKey q.heap i)
    (hi : i < q.heap.length) :
    ∃ q' moved, q.heapifyup i = .ok (q', moved) ∧ Permuted q q' ∧ Inv q' := by
  obtain ⟨q', moved, hrun, hperm, hord⟩ := heapifyup_ordered hfits.comparable hhole hi
  exact ⟨q', moved, hrun, hperm, hfits.permuted hperm, hord⟩

/-- One call of `heapifydown` at an entry with two children. -/
theorem heapifydownStep_two {l r : ℕ} {z : HeapObject T} (hl : q.left i = l) (hr : q.right i = r)
    (hx : q.heap[i]? = some x) (hy : q.heap[l]? = some y) (hz : q.heap[r]? = some z) :
    heapifydownStep (q, i) =
      if heapCompare q.typ x.val y.val = true ∧ heapCompare q.typ x.val z.val = true then
        .ok (.inr q)
      else if heapCompare q.typ z.val y.val = true then
        .ok (.inl ({ q with heap := exchange q.heap i r x z }, r))
      else .ok (.inl ({ q with heap := exchange q.heap i l x y }, l)) := by
  have hlpos : (0 : ℤ) ≤ l := Int.natCast_nonneg l
  have hrpos : (0 : ℤ) ≤ r := Int.natCast_nonneg r
  simp only [heapifydownStep, hl, hr, hlpos, hrpos, compareAt_eq hx hy, compareAt_eq hx hz,
    compareAt_eq hz hy, not_true, and_false, if_false, if_true, ok_bind, and_true, pure_eq_ok]
  cases heapCompare q.typ x.val y.val <;> cases heapCompare q.typ x.val z.val <;>
    cases heapCompare q.typ z.val y.val <;> simp [swap_eq hx hy, swap_eq hx hz]

/-- One call of `heapifydown` at an entry with a left child only. -/
theorem heapifydownStep_one {l : ℕ} (hl : q.left i = l) (hr : ¬0 ≤ q.right i)
    (hx : q.heap[i]? = some x) (hy : q.heap[l]? = some y) :
    heapifydownStep (q, i) =
      if heapCompare q.typ x.val y.val = true then .ok (.inr q)
      else .ok (.inl ({ q with heap := exchange q.heap i l x y }, l)) := by
  have hlpos : (0 : ℤ) ≤ l := Int.natCast_nonneg l
  simp only [heapifydownStep, hl, hr, hlpos, compareAt_eq hx hy, not_true, false_and, if_false,
    if_true, ok_bind, and_false, pure_eq_ok]
  cases heapCompare q.typ x.val y.val <;> simp [swap_eq hx hy]

/-- One call of `heapifydown` ends with an ordered vector or goes on one level further down. -/
theorem heapifydownStep_spec (hfits : Fits q) (hhole : DownHole q.entryKey q.heap i)
    (hi : i < q.heap.length) :
    heapifydownStep (q, i) = .ok (.inr q) ∧ Ordered q.entryKey q.heap ∨
      ∃ c x y, i < c ∧ c < q.heap.length ∧ q.heap[i]? = some x ∧ q.heap[c]? = some y ∧
        heapifydownStep (q, i) = .ok (.inl ({ q with heap := exchange q.heap i c x y }, c)) ∧
        DownHole q.entryKey (exchange q.heap i c x y) c := by
  obtain ⟨x, hx⟩ : ∃ x, q.heap[i]? = some x := ⟨_, List.getElem?_eq_getElem hi⟩
  -- what stands below `i`, by the number of children
  rcases left_cases hfits.size hi with ⟨hl, hllt⟩ | ⟨hl, hllen⟩
  · obtain ⟨y, hy⟩ : ∃ y, q.heap[2 * i + 1]? = some y := ⟨_, List.getElem?_eq_getElem hllt⟩
    have hpl : Heap.parent (2 * i + 1) = i := (parent_eq_iff (by omega)).mpr (.inl rfl)
    rcases right_cases hfits.size hi with ⟨hr, hrlt⟩ | ⟨hr, hrlen⟩
    · obtain ⟨z, hz⟩ : ∃ z, q.heap[2 * i + 2]? = some z := ⟨_, List.getElem?_eq_getElem hrlt⟩
      have hpr : Heap.parent (2 * i + 2) = i := (parent_eq_iff (by omega)).mpr (.inr rfl)
      have hchildren : ∀ k, k ≤ q.entryKey y → k ≤ q.entryKey z → ∀ (j : ℕ) (w : HeapObject T),
          0 < j → Heap.parent j = i → q.heap[j]? = some w → k ≤ q.entryKey w := by
        intro k hky hkz j w hj hp hw
        rcases (parent_eq_iff hj).mp hp with rfl | rfl
        · exact (Option.some.inj (hy.symm.trans hw)) ▸ hky
        · exact (Option.some.inj (hz.symm.trans hw)) ▸ hkz
      have hxy := compare_iff hfits.comparable hx hy
      have hxz := compare_iff hfits.comparable hx hz
      rw [heapifydownStep_two hl hr hx hy hz]
      split_ifs with hstay hzy <;> rw [hxy, hxz] at hstay
      · exact .inl ⟨rfl, hhole.ordered_of_le hx (hchildren _ hstay.1 hstay.2)⟩
      · have hzy' := (compare_iff hfits.comparable hz hy).mp hzy
        refine .inr ⟨2 * i + 2, x, z, by omega, hrlt, hx, hz, rfl,
          hhole.move (by omega) hpr hx hz ?_ (hchildren _ hzy' le_rfl)⟩
        exact lt_of_not_ge fun hxz => hstay ⟨hxz.trans hzy', hxz⟩
      · rw [compare_iff hfits.comparable hz hy, not_le] at hzy
        have hyz := hzy.le
        refine .inr ⟨2 * i + 1, x, y, by omega, hllt, hx, hy, rfl,
          hhole.move (by omega) hpl hx hy ?_ (hchildren _ le_rfl hyz)⟩
        exact lt_of_not_ge fun hxy => hstay ⟨hxy, hxy.trans hyz⟩
    · have hchildren : ∀ k, k ≤ q.entryKey y → ∀ (j : ℕ) (w : HeapObject T),
          0 < j → Heap.parent j = i → q.heap[j]? = some w → k ≤ q.entryKey w := by
        intro k hky j w hj hp hw
        have := (List.getElem?_eq_some_iff.mp hw).1
        rcases (parent_eq_iff hj).mp hp with rfl | rfl
        · exact (Option.some.inj (hy.symm.trans hw)) ▸ hky
        · omega
      have hxy := compare_iff hfits.comparable hx hy
      rw [heapifydownStep_one hl hr hx hy]
      split_ifs with hstay <;> rw [hxy] at hstay
      · exact .inl ⟨rfl, hhole.ordered_of_le hx (hchildren _ hstay)⟩
      · exact .inr ⟨2 * i + 1, x, y, by omega, hllt, hx, hy, rfl,
          hhole.move (by omega) hpl hx hy (not_le.mp hstay) (hchildren _ le_rfl)⟩
  · refine .inl ⟨?_, hhole.ordered_of_le hx fun j w hj hp hw => ?_⟩
    · rcases right_cases hfits.size hi with ⟨hr, hrlt⟩ | ⟨hr, hrlen⟩
      · omega
      · simp [heapifydownStep, hl, hr]
    · have := (List.getElem?_eq_some_iff.mp hw).1
      rcases (parent_eq_iff hj).mp hp with rfl | rfl <;> omega

/-- `heapifydown` restores the order below a hole. -/
theorem heapifydown_spec (hfits : Fits q) (hhole : DownHole q.entryKey q.heap i)
    (hi : i < q.heap.length) :
    ∃ q', q.heapifydown i = .ok q' ∧ Permuted q q' ∧ Inv q' := by
  refine iterate_of_variant
    (fun s : HeapQueue T × ℤ => ∃ k : ℕ, s.2 = k ∧ k < s.1.heap.length ∧ Fits s.1 ∧
      Permuted q s.1 ∧ DownHole s.1.entryKey s.1.heap k)
    (fun r => Permuted q r ∧ Inv r) (fun s => s.1.heap.length - s.2.toNat) ?_
    ⟨i, rfl, hi, hfits, .refl q, hhole⟩ (by simp only; omega)
  rintro ⟨r, index⟩ ⟨k, rfl, hk, hr, hperm, hole⟩
  rcases heapifydownStep_spec hr hole hk with ⟨hstep, hord⟩ | ⟨c, x, y, hkc, hc, hx, hy, hstep, hole'⟩
  · exact .inr ⟨r, hstep, hperm, hr, hord⟩
  · refine .inl ⟨_, hstep, ⟨c, rfl, by simpa using hc, hr.permuted (.exchange hx hy),
      hperm.trans (.exchange hx hy), hole'⟩, ?_⟩
    simp only [exchange_length, Int.toNat_natCast] at hk ⊢
    omega

/-! ### The operations between two invariants -/

/-- `insert` adds the element. -/
theorem Inv.insert (h : Inv q) (el : T) {prio : HeapPriority} (hsize : (q.heap.length : ℤ) < maxInt)
    (hprio : q.typ.Comparable prio) :
    ∃ q', q.insert el prio = .ok q' ∧ q'.typ = q.typ ∧ q'.heap.Perm (⟨el, prio⟩ :: q.heap) ∧
      Inv q' := by
  have hlen : (q.heap ++ [(⟨el, prio⟩ : HeapObject T)]).length = q.heap.length + 1 := by simp
  have hfits : Fits ({ q with heap := q.heap ++ [⟨el, prio⟩] } : HeapQueue T) := by
    refine ⟨by rw [hlen]; omega, fun o ho => ?_⟩
    rcases List.mem_append.mp ho with ho | ho
    · exact h.comparable o ho
    · rw [List.mem_singleton.mp ho]
      exact hprio
  obtain ⟨q', moved, hrun, hperm, hinv⟩ :=
    heapifyup_spec hfits (h.ordered.push ⟨el, prio⟩) (by rw [hlen]; omega)
  have hindex : wrap32 ((q.heap ++ [(⟨el, prio⟩ : HeapObject T)]).length - 1) =
      q.heap.length := by
    rw [hlen, Int.natCast_add, Int.natCast_one, Int.add_sub_cancel]
    exact wrap32_of_mem (by simp only [maxInt] at *; omega) hsize.le
  refine ⟨q', ?_, hperm.typ, hperm.perm.trans (List.perm_append_singleton _ _), hinv⟩
  simp only [HeapQueue.insert, hindex, hrun, ok_bind, pure_eq_ok]

/-- The last element takes the place of the one at `i`. -/
theorem heapifydown_last (hsize : (q.heap.length : ℤ) ≤ maxInt + 1)
    (hcomp : ∀ o ∈ q.heap, q.typ.Comparable o.val) (hord : Ordered q.entryKey q.heap)
    {last : HeapObject T} (hx : q.heap[i]? = some x)
    (hlast : q.heap.getLast? = some last) (hi : i + 1 < q.heap.length)
    (hle : ∀ z, 0 < i → q.heap[Heap.parent i]? = some z → q.entryKey z ≤ q.entryKey last) :
    ∃ q', heapifydown { q with heap := q.heap.dropLast.set i last } i = .ok q' ∧
      q'.typ = q.typ ∧ (x :: q'.heap).Perm q.heap ∧ Inv q' := by
  have hlen : q.heap.dropLast.length = q.heap.length - 1 := List.length_dropLast
  have hget : ∀ j, j + 1 < q.heap.length → q.heap.dropLast[j]? = q.heap[j]? := by
    intro j hj
    rw [List.getElem?_dropLast, if_pos (by omega)]
  have hx' := (hget i hi).trans hx
  -- what the replacement leaves in the vector
  have hset := set_last_perm hx hlast hi
  have hfits : Fits ({ q with heap := q.heap.dropLast.set i last } : HeapQueue T) := by
    refine ⟨?_, fun o ho => hcomp o (hset.subset (List.mem_cons_of_mem _ ho))⟩
    rw [List.length_set, hlen]
    omega
  have hhole : DownHole q.entryKey (q.heap.dropLast.set i last) i := by
    refine hord.dropLast.replace hx' fun z hpos hz => hle z hpos ?_
    have := parent_lt hpos
    rwa [hget _ (by omega)] at hz
  obtain ⟨q', hrun, hperm, hinv⟩ := heapifydown_spec hfits hhole (by rw [List.length_set, hlen]; omega)
  exact ⟨q', hrun, hperm.typ, (hperm.perm.cons _).trans hset, hinv⟩

/-- The last element may take the place of the one at `slot`. -/
def LastFits (q : HeapQueue T) (slot : ℕ) : Prop :=
  0 < slot → slot + 1 < q.heap.length → ∀ above last, q.heap[Heap.parent slot]? = some above →
    q.heap.getLast? = some last → heapCompare q.typ above.val last.val = true

/-- `remove_by_index` takes out the element at the index. -/
theorem Inv.removeByIndex (h : Inv q) (hx : q.heap[i]? = some x) (hlast : q.LastFits i) :
    ∃ q', q.removeByIndex i = .ok q' ∧ q'.typ = q.typ ∧ (x :: q'.heap).Perm q.heap ∧ Inv q' := by
  have hi := (List.getElem?_eq_some_iff.mp hx).1
  have hne : q.heap ≠ [] := List.ne_nil_of_length_pos (by omega)
  have hgetLast : q.heap.getLast? = some (q.heap.getLast hne) := List.getLast?_eq_some_getLast hne
  have hlen : q.heap.dropLast.length = q.heap.length - 1 := List.length_dropLast
  by_cases hend : i + 1 < q.heap.length
  · obtain ⟨q', hrun, hspec⟩ := heapifydown_last (by have := h.size; omega) h.comparable
      h.ordered hx hgetLast hend fun z hpos hz =>
      (compare_iff h.comparable hz (List.getLast?_eq_getElem? ▸ hgetLast)).mp
        (hlast hpos hend z _ hz hgetLast)
    have hcond : (!({ q with heap := q.heap.dropLast } : HeapQueue T).empty) = true ∧
        i ≠ q.heap.dropLast.length := by
      refine ⟨?_, by omega⟩
      rw [Bool.not_eq_true', HeapQueue.empty, List.isEmpty_eq_false_iff]
      exact List.ne_nil_of_length_pos (by simp only [hlen]; omega)
    have hwrap : wrap32 (i : ℤ) = i :=
      wrap32_of_mem (by simp only [maxInt]; omega) (by have := h.size; omega)
    refine ⟨q', ?_, hspec⟩
    rw [HeapQueue.removeByIndex, hx, hgetLast, deref_some, ok_bind, deref_some, ok_bind]
    simp only [hcond, if_true, hwrap, true_and, ne_eq, not_false_eq_true]
    exact hrun
  · have hi' : i = q.heap.length - 1 := by omega
    have hxlast : q.heap.getLast hne = x := by
      rw [← Option.some.injEq, ← hx, ← hgetLast, List.getLast?_eq_getElem?, hi']
    refine ⟨{ q with heap := q.heap.dropLast }, ?_, rfl, ?_, ?_⟩
    · rw [HeapQueue.removeByIndex, hx, hgetLast, deref_some, ok_bind, deref_some, ok_bind]
      simp only [hlen, hi', ne_eq, not_true, and_false, if_false, pure_eq_ok]
    · have happend := (List.perm_append_singleton x q.heap.dropLast).symm
      rwa [← hxlast, List.dropLast_append_getLast hne, hxlast] at happend
    · refine ⟨⟨?_, fun o ho => h.comparable o (List.dropLast_subset _ ho)⟩, h.ordered.dropLast⟩
      have := h.size
      simp only [hlen]
      omega

/-- There is nothing to move in an empty vector. -/
theorem heapifydown_nil (typ : HeapType) :
    heapifydown (⟨typ, []⟩ : HeapQueue T) 0 = .ok ⟨typ, []⟩ := by
  have hl : ¬wrap32 (wrap32 (0 * 2) + 1) < wrap32 ((0 : ℕ) : ℤ) := by decide
  have hr : ¬wrap32 (wrap32 (0 * 2) + 2) < wrap32 ((0 : ℕ) : ℤ) := by decide
  have hneg : ¬(0 : ℤ) ≤ -1 := by decide
  simp only [heapifydown, List.length_nil, iterate, heapifydownStep, left, right, hl, hr, hneg,
    if_false, not_false_eq_true, and_self, if_true, pure_eq_ok, ok_bind]

/-- `pop` takes out the first entry, which may stand before all others. -/
theorem Inv.pop_root (h : Inv q) {o : HeapObject T} (hroot : q.heap[0]? = some o) :
    ∃ q', q.pop = .ok (q', o.data) ∧ q'.typ = q.typ ∧ (o :: q'.heap).Perm q.heap ∧
      (∀ x ∈ q.heap, heapCompare q.typ o.val x.val = true) ∧ Inv q' := by
  obtain ⟨rest, hheap⟩ : ∃ rest, q.heap = o :: rest := by
    rw [← List.head?_eq_getElem?] at hroot
    exact ⟨_, (List.cons_head?_tail hroot).symm⟩
  have hbest : ∀ x ∈ q.heap, heapCompare q.typ o.val x.val = true := by
    intro x hx
    obtain ⟨j, hj⟩ := List.getElem?_of_mem hx
    exact (compare_iff h.comparable hroot hj).mpr (h.ordered.root_le hroot j x hj)
  rcases List.eq_nil_or_concat' rest with rfl | ⟨init, last, rfl⟩
  · -- the only element: there is nothing to move down
    refine ⟨{ q with heap := [] }, ?_, rfl, by rw [hheap], hbest, ?_⟩
    · rw [HeapQueue.pop, hheap]
      simp only [List.getElem?_cons_zero, List.getLast?_singleton, deref_some, ok_bind,
        List.set_cons_zero, List.dropLast_singleton, heapifydown_nil, pure_eq_ok]
    · exact ⟨⟨by simp [maxInt], by simp⟩, fun j x y _ hx => by simp at hx⟩
  · have hlen : 0 + 1 < q.heap.length := by simp [hheap]
    have hgetLast : q.heap.getLast? = some last := by
      rw [hheap, ← List.cons_append, List.getLast?_concat]
    obtain ⟨q', hrun, htyp, hperm, hinv⟩ := heapifydown_last (by have := h.size; omega)
      h.comparable h.ordered hroot hgetLast hlen fun z hpos => absurd hpos (lt_irrefl 0)
    have hset : (q.heap.set 0 last).dropLast = q.heap.dropLast.set 0 last := by
      rw [hheap, List.set_cons_zero, ← List.cons_append, List.dropLast_concat, ← List.cons_append,
        List.dropLast_concat, List.set_cons_zero]
    refine ⟨q', ?_, htyp, hperm, hbest, hinv⟩
    rw [HeapQueue.pop, hroot, hgetLast, deref_some, ok_bind, deref_some, ok_bind]
    simp only [hset]
    rw [show (0 : ℤ) = ((0 : ℕ) : ℤ) from rfl, hrun]
    rfl

/-- `pop` takes out an entry that may stand before all others. -/
theorem Inv.pop (h : Inv q) (hne : q.heap ≠ []) :
    ∃ q' o, q.pop = .ok (q', o.data) ∧ q'.typ = q.typ ∧ (o :: q'.heap).Perm q.heap ∧
      (∀ x ∈ q.heap, heapCompare q.typ o.val x.val = true) ∧ Inv q' := by
  obtain ⟨o, rest, hheap⟩ := List.exists_cons_of_ne_nil hne
  obtain ⟨q', hpop⟩ := h.pop_root (o := o) (by rw [hheap]; rfl)
  exact ⟨q', o, hpop⟩

/-! ### The search of `remove` -/

/-- `slot` is the first index that holds the element. -/
def FirstAt (q : HeapQueue T) (val : T) (slot : ℕ) : Prop :=
  (∃ o, q.heap[slot]? = some o ∧ o.data = val) ∧
    ∀ i < slot, ∀ o, q.heap[i]? = some o → o.data ≠ val

/-- On every level before the one of `slot` some entry comes strictly before the priority. -/
def LevelsBefore (q : HeapQueue T) (prio : HeapPriority) (slot : ℕ) : Prop :=
  ∀ level : ℕ, 2 ^ (level + 1) - 1 ≤ slot → ∃ i o, 2 ^ level - 1 ≤ i ∧ i < 2 ^ (level + 1) - 1 ∧
    q.heap[i]? = some o ∧ heapCompare q.typ prio o.val = false

theorem exists_firstAt (h : o ∈ q.heap) : ∃ slot, q.FirstAt o.data slot := by
  classical
  have hex : ∃ i : ℕ, ∃ x : HeapObject T, q.heap[i]? = some x ∧ x.data = o.data := by
    obtain ⟨i, hi⟩ := List.getElem?_of_mem h
    exact ⟨i, o, hi, rfl⟩
  exact ⟨Nat.find hex, Nat.find_spec hex, fun i hi x hx he => Nat.find_min hex hi ⟨x, hx, he⟩⟩

/-- The state of the search within the level `level`, before the first index of the element. -/
structure Searching (q : HeapQueue T) (prio : HeapPriority) (slot level : ℕ) (s : Search) :
    Prop where
  shift : s.shift = (2 ^ level : ℕ)
  remain_pos : 0 < s.remain
  remain_le : s.remain ≤ (2 ^ level : ℕ)
  index : s.index + s.remain + 1 = (2 ^ (level + 1) : ℕ)
  index_le : s.index ≤ slot
  all : s.all = true → ∀ i o, 2 ^ level - 1 ≤ i → i < s.index → q.heap[i]? = some o →
    heapCompare q.typ prio o.val = true

theorem removeStep_found [DecidableEq T] {prio : HeapPriority} {s : Search}
    (hx : q.heap[s.index]? = some x) : removeStep q x.data prio s = .ok (.inr s.index) := by
  have hlt := (List.getElem?_eq_some_iff.mp hx).1
  simp only [removeStep, hlt, if_true, hx, deref_some, ok_bind, pure_eq_ok]

theorem removeStep_next [DecidableEq T] {val : T} {prio : HeapPriority} {s : Search}
    (hx : q.heap[s.index]? = some x) (hne : x.data ≠ val) :
    removeStep q val prio s =
      if wrap32 (s.remain - 1) = 0 then do
        assert ((s.all && heapCompare q.typ prio x.val) = false)
        return .inl ⟨s.index + 1, wrap32 (s.shift * 2), wrap32 (s.shift * 2), true⟩
      else
        .ok (.inl ⟨s.index + 1, s.shift, wrap32 (s.remain - 1),
          s.all && heapCompare q.typ prio x.val⟩) := by
  have hlt := (List.getElem?_eq_some_iff.mp hx).1
  simp only [removeStep, hlt, if_true, hx, deref_some, ok_bind, pure_eq_ok, hne, if_false]

/-- The search finds the first index of the element. -/
theorem search_spec [DecidableEq T] {val : T} {prio : HeapPriority} {slot : ℕ}
    (hsize : (q.heap.length : ℤ) ≤ maxInt) (hfirst : q.FirstAt val slot)
    (hlevels : q.LevelsBefore prio slot) :
    iterate (removeStep q val prio) (q.heap.length + 1) ⟨0, 1, 1, true⟩ = .ok slot := by
  obtain ⟨⟨found, hfound, rfl⟩, hbefore⟩ := hfirst
  have hslot := (List.getElem?_eq_some_iff.mp hfound).1
  have hstep : ∀ s, (∃ level, Searching q prio slot level s) →
      (∃ s', removeStep q found.data prio s = .ok (.inl s') ∧
        (∃ level, Searching q prio slot level s') ∧
        q.heap.length - s'.index < q.heap.length - s.index) ∨
      ∃ a, removeStep q found.data prio s = .ok (.inr a) ∧ a = slot := by
    rintro s ⟨level, h⟩
    have hlt : s.index < q.heap.length := h.index_le.trans_lt hslot
    obtain ⟨x, hx⟩ : ∃ x, q.heap[s.index]? = some x := ⟨_, List.getElem?_eq_getElem hlt⟩
    rcases h.index_le.eq_or_lt with heq | hltslot
    · rw [heq, hfound, Option.some.injEq] at hx
      exact .inr ⟨s.index, removeStep_found (heq ▸ hfound), heq⟩
    · have hpow : 2 ^ (level + 1) = 2 * 2 ^ level := Nat.pow_succ'
      have hindex := h.index
      have hpos := h.remain_pos
      have hle := h.remain_le
      rw [hpow] at hindex
      -- the level begins at or before `slot`, so its size fits
      have hlevel : ((2 ^ level : ℕ) : ℤ) ≤ maxInt := by omega
      have hremain : wrap32 (s.remain - 1) = s.remain - 1 := by
        refine wrap32_of_mem ?_ ?_ <;> simp only [maxInt] at hlevel ⊢ <;> omega
      have hall : (s.all && heapCompare q.typ prio x.val) = true → ∀ i o, 2 ^ level - 1 ≤ i →
          i < s.index + 1 → q.heap[i]? = some o → heapCompare q.typ prio o.val = true := by
        intro ha i o hi hlt' ho
        rw [Bool.and_eq_true] at ha
        rcases Nat.lt_succ_iff_lt_or_eq.mp hlt' with hlt' | rfl
        · exact h.all ha.1 i o hi hlt' ho
        · rw [hx, Option.some.injEq] at ho
          exact ho ▸ ha.2
      rw [removeStep_next hx (hbefore _ hltslot x hx), hremain]
      left
      by_cases hzero : s.remain - 1 = 0
      · -- the level ends before `slot`: some entry of it comes strictly before the priority
        obtain ⟨i, o, hi, hi', ho, hstrict⟩ := hlevels level (by omega)
        have hnot : (s.all && heapCompare q.typ prio x.val) = false := by
          rw [Bool.eq_false_iff]
          intro ha
          rw [hall ha i o hi (by omega) ho] at hstrict
          cases hstrict
        have hshift : wrap32 (s.shift * 2) = (2 ^ (level + 1) : ℕ) := by
          rw [h.shift, hpow]
          refine (wrap32_of_mem ?_ ?_).trans ?_ <;> (try simp only [maxInt] at hsize ⊢) <;> omega
        rw [if_pos hzero, assert_pos hnot, ok_bind, hshift]
        refine ⟨_, rfl, ⟨level + 1, rfl, Int.natCast_pos.mpr (Nat.two_pow_pos _), le_rfl, ?_,
          hltslot, ?_⟩, ?_⟩
        · rw [Nat.pow_succ' (n := level + 1), hpow]
          generalize 2 ^ level = p at *
          simp only
          omega
        · intro _ i o hi hi'
          simp only [hpow] at hi hi'
          generalize 2 ^ level = p at *
          omega
        · simp only
          omega
      · rw [if_neg hzero]
        refine ⟨_, rfl, ⟨level, h.shift, ?_, ?_, ?_, hltslot, hall⟩, ?_⟩ <;> simp only
        · omega
        · omega
        · rw [hpow]
          generalize 2 ^ level = p at *
          omega
        · omega
  obtain ⟨a, hrun, rfl⟩ := iterate_of_variant _ _ (fun s : Search => q.heap.length - s.index) hstep
    (s := ⟨0, 1, 1, true⟩) ⟨0, by simp, by simp, by simp, by simp, by simp, by simp⟩
    (show q.heap.length - 0 < q.heap.length + 1 by omega)
  exact hrun

/-- `remove` takes out the element. -/
theorem Inv.remove [DecidableEq T] (h : Inv q) {slot : ℕ} {val : T} {prio : HeapPriority}
    (hfirst : q.FirstAt val slot) (hslot : q.heap[slot]? = some ⟨val, prio⟩)
    (hlevels : q.LevelsBefore prio slot) (hlast : q.LastFits slot) :
    ∃ q', q.remove val prio = .ok q' ∧ q'.typ = q.typ ∧ (⟨val, prio⟩ :: q'.heap).Perm q.heap ∧
      Inv q' := by
  obtain ⟨q', hrun, hspec⟩ := h.removeByIndex hslot hlast
  refine ⟨q', ?_, hspec⟩
  rw [HeapQueue.remove, search_spec h.size hfirst hlevels, ok_bind]
  exact hrun

end HeapQueue

/-! ### Sequences of operations -/

/-- An operation on the queue. -/
inductive Op (T : Type)
  | insert (el : T) (prio : HeapPriority)
  | remove (val : T) (prio : HeapPriority)
  | pop
  | clear
  deriving DecidableEq

variable {T : Type} [DecidableEq T]

/-- One operation of the code, and the element it returns. -/
def HeapQueue.step (q : HeapQueue T) : Op T → Exec (HeapQueue T × Option T)
  | .insert el prio => do return (← q.insert el prio, none)
  | .remove val prio => do return (← q.remove val prio, none)
  | .pop => do
    let (q, el) ← q.pop
    return (q, some el)
  | .clear => return (q.clear, none)

/-- A sequence of operations of the code, with the elements they return. -/
def HeapQueue.run (q : HeapQueue T) : List (Op T) → Exec (HeapQueue T × List (Option T))
  | [] => return (q, [])
  | op :: ops => do
    let (q, out) ← q.step op
    let (q, outs) ← q.run ops
    return (q, out :: outs)

/-- What an operation is for, on the multiset of the elements with their priorities. -/
inductive Bag.Step (typ : HeapType) :
    Multiset (HeapObject T) → Op T → Option T → Multiset (HeapObject T) → Prop
  | insert (b el prio) : Bag.Step typ b (.insert el prio) none (⟨el, prio⟩ ::ₘ b)
  | remove (b val prio) : Bag.Step typ (⟨val, prio⟩ ::ₘ b) (.remove val prio) none b
  | pop (b o) (hbest : ∀ x ∈ o ::ₘ b, heapCompare typ o.val x.val = true) :
    Bag.Step typ (o ::ₘ b) .pop (some o.data) b
  | clear (b) : Bag.Step typ b .clear none 0

/-- A sequence of operations on the multiset. -/
inductive Bag.Steps (typ : HeapType) :
    Multiset (HeapObject T) → List (Op T) → List (Option T) → Multiset (HeapObject T) → Prop
  | nil (b) : Bag.Steps typ b [] [] b
  | cons {b b' b'' op ops out outs} (hstep : Bag.Step typ b op out b')
    (hsteps : Bag.Steps typ b' ops outs b'') : Bag.Steps typ b (op :: ops) (out :: outs) b''

namespace HeapQueue

variable {q : HeapQueue T}

/-- The multiset that the vector holds. -/
def bag (q : HeapQueue T) : Multiset (HeapObject T) := q.heap

/-- An operation that has an element to return or to take out. -/
def Present (q : HeapQueue T) : Op T → Prop
  | .remove val prio => ⟨val, prio⟩ ∈ q.bag
  | .pop => q.bag ≠ 0
  | .insert _ _ | .clear => True

/-- The limits of the code: the vector does not outgrow the indices and holds no NaN that would be
compared; an element that is removed stands where it was inserted with this priority, has some
entry strictly before it on every level above, and leaves a place where the last element need not
move up. -/
def Meets (q : HeapQueue T) : Op T → Prop
  | .insert _ prio => (q.heap.length : ℤ) < maxInt ∧ q.typ.Comparable prio
  | .remove val prio => ∀ slot, q.FirstAt val slot →
    q.heap[slot]? = some ⟨val, prio⟩ ∧ q.LevelsBefore prio slot ∧ q.LastFits slot
  | .pop | .clear => True

instance (q : HeapQueue T) : DecidablePred q.Present
  | .remove val prio => inferInstanceAs (Decidable (⟨val, prio⟩ ∈ q.bag))
  | .pop => inferInstanceAs (Decidable (q.bag ≠ 0))
  | .insert _ _ | .clear => inferInstanceAs (Decidable True)

/-- The property at the state before each operation of the run. -/
def Along (P : HeapQueue T → Op T → Prop) (q : HeapQueue T) : List (Op T) → Prop
  | [] => True
  | op :: ops => P q op ∧
    match q.step op with
    | .ok (q', _) => Along P q' ops
    | .error _ => True

instance decidableAlong (P : HeapQueue T → Op T → Prop) [∀ q, DecidablePred (P q)]
    (q : HeapQueue T) : (ops : List (Op T)) → Decidable (q.Along P ops)
  | [] => inferInstanceAs (Decidable True)
  | op :: ops =>
    match h : q.step op with
    | .ok (q', out) =>
      have := decidableAlong P q' ops
      decidable_of_iff (P q op ∧ q'.Along P ops) (by rw [Along, h])
    | .error _ => decidable_of_iff (P q op) (by rw [Along, h, and_true])

theorem Along.tail {P : HeapQueue T → Op T → Prop} {op : Op T} {ops : List (Op T)}
    {q' : HeapQueue T} {out : Option T} (h : q.Along P (op :: ops))
    (hstep : q.step op = .ok (q', out)) : q'.Along P ops := by
  have htail := h.2
  rwa [hstep] at htail

theorem Along.cons {P : HeapQueue T → Op T → Prop} {op : Op T} {ops : List (Op T)}
    (q' : HeapQueue T) (out : Option T) (hop : P q op) (hstep : q.step op = .ok (q', out))
    (h : q'.Along P ops) : q.Along P (op :: ops) := by
  refine ⟨hop, ?_⟩
  rwa [hstep]

/-- One operation keeps the invariant and does on the multiset what it is for. -/
theorem Inv.step (h : Inv q) {op : Op T} (hpresent : q.Present op) (hmeets : q.Meets op) :
    ∃ q' out, q.step op = .ok (q', out) ∧ q'.typ = q.typ ∧ Bag.Step q.typ q.bag op out q'.bag ∧
      Inv q' := by
  cases op with
  | insert el prio =>
    obtain ⟨q', hrun, htyp, hperm, hinv⟩ := h.insert el hmeets.1 hmeets.2
    refine ⟨q', none, by simp only [HeapQueue.step, hrun, ok_bind, pure_eq_ok], htyp, ?_, hinv⟩
    have hbag : q'.bag = ⟨el, prio⟩ ::ₘ q.bag := Multiset.coe_eq_coe.mpr hperm
    exact hbag ▸ .insert _ _ _
  | remove val prio =>
    obtain ⟨slot, hfirst⟩ := exists_firstAt (Multiset.mem_coe.mp hpresent)
    obtain ⟨hslot, hlevels, hlast⟩ := hmeets slot hfirst
    obtain ⟨q', hrun, htyp, hperm, hinv⟩ := h.remove hfirst hslot hlevels hlast
    refine ⟨q', none, by simp only [HeapQueue.step, hrun, ok_bind, pure_eq_ok], htyp, ?_, hinv⟩
    have hbag : ⟨val, prio⟩ ::ₘ q'.bag = q.bag := Multiset.coe_eq_coe.mpr hperm
    exact hbag ▸ .remove _ _ _
  | pop =>
    have hne : q.heap ≠ [] := fun he => hpresent (by rw [bag, he]; rfl)
    obtain ⟨q', o, hrun, htyp, hperm, hbest, hinv⟩ := h.pop hne
    refine ⟨q', some o.data, by simp only [HeapQueue.step, hrun, ok_bind, pure_eq_ok], htyp, ?_,
      hinv⟩
    have hbag : o ::ₘ q'.bag = q.bag := Multiset.coe_eq_coe.mpr hperm
    rw [← hbag]
    refine .pop _ _ fun x hx => hbest x ?_
    rwa [hbag] at hx
  | clear =>
    exact ⟨q.clear, none, rfl, rfl, .clear _,
      ⟨⟨by simp [HeapQueue.clear, maxInt], by simp [HeapQueue.clear]⟩,
        fun j x y _ hx => by simp [HeapQueue.clear] at hx⟩⟩

/-- A run from a queue with the invariant. -/
theorem Inv.run (h : Inv q) {ops : List (Op T)} (hpresent : q.Along Present ops)
    (hmeets : q.Along Meets ops) :
    ∃ q' outs, q.run ops = .ok (q', outs) ∧ Bag.Steps q.typ q.bag ops outs q'.bag := by
  induction ops generalizing q with
  | nil => exact ⟨q, [], rfl, .nil _⟩
  | cons op ops ih =>
    obtain ⟨q₁, out, hstep, htyp, hbag, hinv⟩ := h.step hpresent.1 hmeets.1
    obtain ⟨q₂, outs, hrun, hsteps⟩ := ih hinv (hpresent.tail hstep) (hmeets.tail hstep)
    refine ⟨q₂, out :: outs, ?_, .cons hbag (htyp ▸ hsteps)⟩
    simp only [HeapQueue.run, hstep, ok_bind, hrun, pure_eq_ok]

omit [DecidableEq T] in
theorem inv_new (typ : HeapType) : Inv (HeapQueue.new typ : HeapQueue T) :=
  ⟨⟨by simp [HeapQueue.new, maxInt], by simp [HeapQueue.new]⟩,
    fun j x y _ hx => by simp [HeapQueue.new] at hx⟩

/-- Every sequence of operations that stays within the limits of the code runs without a failed
assertion and does on the multiset of the elements what it is for. -/
theorem run_bag (typ : HeapType) (ops : List (Op T))
    (hpresent : (new typ : HeapQueue T).Along Present ops)
    (hmeets : (new typ : HeapQueue T).Along Meets ops) :
    ∃ q outs, (new typ : HeapQueue T).run ops = .ok (q, outs) ∧
      Bag.Steps typ 0 ops outs q.bag :=
  (inv_new typ).run hpresent hmeets

/-- Two elements, of which the second is removed. -/
theorem run_bag_pair :
    ∃ q outs, (new .intAsc : HeapQueue ℕ).run
        [.insert 1 (.ofInt 5), .insert 2 (.ofInt 7), .remove 2 (.ofInt 7), .pop] = .ok (q, outs) ∧
      Bag.Steps .intAsc 0
        [.insert 1 (.ofInt 5), .insert 2 (.ofInt 7), .remove 2 (.ofInt 7), .pop] outs q.bag := by
  refine run_bag .intAsc _ (by decide +kernel) ?_
  refine .cons ⟨.intAsc, [⟨1, .ofInt 5⟩]⟩ none
    ⟨by decide, .inl rfl⟩ (by decide +kernel) ?_
  refine .cons ⟨.intAsc, [⟨1, .ofInt 5⟩, ⟨2, .ofInt 7⟩]⟩ none
    ⟨by decide, .inl rfl⟩ (by decide +kernel) ?_
  refine .cons ⟨.intAsc, [⟨1, .ofInt 5⟩]⟩ none ?_ (by decide +kernel)
    ⟨trivial, by split <;> trivial⟩
  rintro slot ⟨⟨o, ho, hdata⟩, -⟩
  have hslot : slot = 1 := by
    match slot, ho with
    | 0, ho =>
      rw [List.getElem?_cons_zero, Option.some.injEq] at ho
      rw [← ho] at hdata
      cases hdata
    | 1, _ => rfl
  subst hslot
  refine ⟨rfl, fun level hlevel => ?_, fun _ hlt => by simp at hlt⟩
  rcases Nat.eq_zero_or_pos level with rfl | hpos
  · exact ⟨0, ⟨1, .ofInt 5⟩, by decide, by decide, rfl, by decide +kernel⟩
  · have := Nat.pow_le_pow_right (n := 2) (by decide) (Nat.succ_le_succ hpos)
    omega

/-- Where the limits are left. Of two elements with one priority the second cannot be removed: the
search takes it for absent. And after the removals of 11, 2 and 3 the order is lost: 4 stands below
10, which is popped before it. -/
theorem run_bag_broken :
    ((new .intAsc : HeapQueue ℕ).Along Present
        [.insert 1 (.ofInt 5), .insert 2 (.ofInt 5), .remove 2 (.ofInt 5)] ∧
      (new .intAsc : HeapQueue ℕ).run
        [.insert 1 (.ofInt 5), .insert 2 (.ofInt 5), .remove 2 (.ofInt 5)] = .error .assertion) ∧
    ∃ ops q outs q', (new .intAsc : HeapQueue ℕ).Along Present ops ∧
      (new .intAsc : HeapQueue ℕ).run ops = .ok (q, outs) ∧ ⟨4, .ofInt 4⟩ ∈ q.heap ∧
      q.step .pop = .ok (q', some 10) ∧
      heapCompare .intAsc (.ofInt 10) (.ofInt 4) = false := by
  refine ⟨by decide +kernel,
    [.insert 1 (.ofInt 1), .insert 10 (.ofInt 10), .insert 2 (.ofInt 2), .insert 11 (.ofInt 11),
      .insert 13 (.ofInt 13), .insert 3 (.ofInt 3), .insert 4 (.ofInt 4), .remove 11 (.ofInt 11),
      .insert 20 (.ofInt 20), .remove 2 (.ofInt 2), .remove 3 (.ofInt 3), .pop],
    ⟨.intAsc, [⟨10, .ofInt 10⟩, ⟨4, .ofInt 4⟩, ⟨20, .ofInt 20⟩, ⟨13, .ofInt 13⟩]⟩,
    List.replicate 11 none ++ [some 1],
    ⟨.intAsc, [⟨4, .ofInt 4⟩, ⟨13, .ofInt 13⟩, ⟨20, .ofInt 20⟩]⟩, ?_⟩
  decide +kernel

end HeapQueue

end Meld.Queue
