import Meld.Queue.PriorityBag

/-!
# The contents of the priority queue

What an operation of the queue does to its contents, whatever the order of the vector: the two sifts
only exchange entries. The operations that pick an entry, `remove` and `pop`, take out that entry
when they return.
-/

namespace Meld.Queue.HeapQueue

open Lib Lib.Heap

variable {T : Type} {q q' : HeapQueue T}

theorem get_eq_ok {i : ℤ} {o : HeapObject T} (h : q.get i = .ok o) :
    0 ≤ i ∧ q.heap[i.toNat]? = some o := by
  rw [get] at h
  split_ifs at h with hi
  exact ⟨hi, deref_eq_ok.mp h⟩

theorem permuted_swap {i j : ℤ} (h : q.swap i j = .ok q') : Permuted q q' := by
  obtain ⟨x, hx, h⟩ := bind_eq_ok.mp h
  obtain ⟨y, hy, h⟩ := bind_eq_ok.mp h
  rw [pure_eq_ok, Except.ok.injEq] at h
  subst h
  exact .exchange (get_eq_ok hx).2 (get_eq_ok hy).2

theorem permuted_heapifyup {index : ℤ} {moved : Bool}
    (h : q.heapifyup index = .ok (q', moved)) : Permuted q q' := by
  have hstep : ∀ s s' : HeapQueue T × ℤ × Bool, Permuted q s.1 →
      heapifyupStep s = .ok (.inl s') → Permuted q s'.1 := by
    rintro ⟨r, index, moved⟩ s' hr hs
    simp only [heapifyupStep] at hs
    split_ifs at hs
    · obtain ⟨before, -, hs⟩ := bind_eq_ok.mp hs
      split_ifs at hs
      · cases hs
      · obtain ⟨r', hswap, hs⟩ := bind_eq_ok.mp hs
        cases hs
        exact hr.trans (permuted_swap hswap)
    · cases hs
  have hend : ∀ (s : HeapQueue T × ℤ × Bool) (r : HeapQueue T × Bool), Permuted q s.1 →
      heapifyupStep s = .ok (.inr r) → Permuted q r.1 := by
    rintro ⟨r, index, moved⟩ r' hr hs
    simp only [heapifyupStep] at hs
    split_ifs at hs
    · obtain ⟨before, -, hs⟩ := bind_eq_ok.mp hs
      split_ifs at hs
      · cases hs
        exact hr
      · obtain ⟨r', -, hs⟩ := bind_eq_ok.mp hs
        cases hs
    · cases hs
      exact hr
  exact iterate_of_invariant (α := HeapQueue T × Bool) hstep hend (.refl q) h

/-- A call of `heapifydown` ends, or goes on after an exchange. -/
theorem heapifydownStep_cases {index : ℤ} {next : (HeapQueue T × ℤ) ⊕ HeapQueue T}
    (h : heapifydownStep (q, index) = .ok next) :
    next = .inr q ∨ ∃ q' c, next = .inl (q', c) ∧ q.swap index c = .ok q' := by
  simp only [heapifydownStep] at h
  split at h
  · cases h
    exact .inl rfl
  · split at h
    all_goals
      obtain ⟨leftFirst, -, h⟩ := bind_eq_ok.mp h
      split at h
      all_goals
        obtain ⟨rightFirst, -, h⟩ := bind_eq_ok.mp h
        split at h
        · cases h
          exact .inl rfl
        · split at h
          all_goals
            obtain ⟨useRight, -, h⟩ := bind_eq_ok.mp h
            obtain ⟨q', hswap, h⟩ := bind_eq_ok.mp h
            cases h
            exact .inr ⟨q', _, rfl, hswap⟩

theorem permuted_heapifydown {index : ℤ} (h : q.heapifydown index = .ok q') : Permuted q q' := by
  have hstep : ∀ s s' : HeapQueue T × ℤ, Permuted q s.1 →
      heapifydownStep s = .ok (.inl s') → Permuted q s'.1 := by
    rintro ⟨r, index⟩ s' hr hs
    rcases heapifydownStep_cases hs with heq | ⟨r', c, heq, hswap⟩
    · cases heq
    · cases heq
      exact hr.trans (permuted_swap hswap)
  have hend : ∀ (s : HeapQueue T × ℤ) (r : HeapQueue T), Permuted q s.1 →
      heapifydownStep s = .ok (.inr r) → Permuted q r := by
    rintro ⟨r, index⟩ r' hr hs
    rcases heapifydownStep_cases hs with heq | ⟨r', c, heq, -⟩
    · cases heq
      exact hr
    · cases heq
  exact iterate_of_invariant hstep hend (.refl q) h

/-- `insert` adds the element. -/
theorem insert_perm {el : T} {prio : HeapPriority} (h : q.insert el prio = .ok q') :
    q'.heap.Perm (⟨el, prio⟩ :: q.heap) := by
  obtain ⟨⟨r, moved⟩, hup, h⟩ := bind_eq_ok.mp h
  cases h
  exact (permuted_heapifyup hup).perm.trans (List.perm_append_singleton _ _)

/-- `remove_by_index` takes out the entry at the index. -/
theorem removeByIndex_perm {index : ℕ} (h : q.removeByIndex index = .ok q') :
    ∃ o, q.heap[index]? = some o ∧ (o :: q'.heap).Perm q.heap := by
  obtain ⟨o, ho, h⟩ := bind_eq_ok.mp h
  obtain ⟨last, hlast, h⟩ := bind_eq_ok.mp h
  rw [deref_eq_ok] at ho hlast
  refine ⟨o, ho, ?_⟩
  have hlt := (List.getElem?_eq_some_iff.mp ho).1
  simp only at h
  split_ifs at h with hmove
  · have hne : index + 1 < q.heap.length := by
      have hlen : q.heap.dropLast.length = q.heap.length - 1 := List.length_dropLast
      omega
    exact ((permuted_heapifydown h).perm.cons o).trans (set_last_perm ho hlast hne)
  · rw [pure_eq_ok, Except.ok.injEq] at h
    subst h
    -- the entry is the last one
    have hindex : index = q.heap.length - 1 := by
      have hlen : q.heap.dropLast.length = q.heap.length - 1 := List.length_dropLast
      rw [not_and_or, Bool.not_eq_true, Bool.not_eq_false', HeapQueue.empty,
        List.isEmpty_iff_length_eq_zero, not_not] at hmove
      simp only at hmove
      omega
    have heq : q.heap.getLast? = some o := by
      rw [List.getLast?_eq_getElem?, ← hindex, ho]
    exact cons_dropLast_perm heq

/-- `remove` takes out the element. -/
theorem remove_perm [DecidableEq T] {val : T} {prio : HeapPriority}
    (h : q.remove val prio = .ok q') : ∃ o, o.data = val ∧ (o :: q'.heap).Perm q.heap := by
  obtain ⟨index, hsearch, h⟩ := bind_eq_ok.mp h
  have hend : ∀ (s : Search) (index : ℕ), True → removeStep q val prio s = .ok (.inr index) →
      ∃ o, q.heap[index]? = some o ∧ o.data = val := by
    intro s index _ hs
    simp only [removeStep] at hs
    split at hs
    · obtain ⟨o, ho, hs⟩ := bind_eq_ok.mp hs
      rw [deref_eq_ok] at ho
      split at hs
      · rename_i hdata
        cases hs
        exact ⟨o, ho, hdata⟩
      · split at hs
        · obtain ⟨_, -, hs⟩ := bind_eq_ok.mp hs
          cases hs
        · cases hs
    · cases hs
  obtain ⟨o, ho, hdata⟩ := iterate_of_invariant (fun _ _ _ _ => trivial) hend trivial hsearch
  obtain ⟨o', ho', hperm⟩ := removeByIndex_perm h
  rw [ho, Option.some.injEq] at ho'
  exact ⟨o', ho' ▸ hdata, hperm⟩

/-- `pop` takes out the element that it returns. -/
theorem pop_perm {el : T} (h : q.pop = .ok (q', el)) :
    ∃ o, o.data = el ∧ (o :: q'.heap).Perm q.heap := by
  obtain ⟨o, ho, h⟩ := bind_eq_ok.mp h
  obtain ⟨last, hlast, h⟩ := bind_eq_ok.mp h
  obtain ⟨r, hdown, h⟩ := bind_eq_ok.mp h
  rw [deref_eq_ok] at ho hlast
  rw [pure_eq_ok, Except.ok.injEq, Prod.mk.injEq] at h
  obtain ⟨rfl, rfl⟩ := h
  refine ⟨o, rfl, ((permuted_heapifydown hdown).perm.cons o).trans ?_⟩
  rcases Nat.lt_or_ge 1 q.heap.length with hlt | hle
  · have hset : (q.heap.set 0 last).dropLast = q.heap.dropLast.set 0 last := by
      obtain ⟨init, hinit⟩ := List.getLast?_eq_some_iff.mp hlast
      obtain ⟨x, rest, rfl⟩ : ∃ x rest, init = x :: rest := by
        cases init with
        | nil =>
          rw [hinit] at hlt
          simp at hlt
        | cons x rest => exact ⟨x, rest, rfl⟩
      rw [hinit, List.dropLast_concat, List.cons_append, List.set_cons_zero, ← List.cons_append,
        List.dropLast_concat, List.set_cons_zero]
    rw [hset]
    exact set_last_perm ho hlast hlt
  · obtain ⟨x, hx⟩ : ∃ x, q.heap = [x] := by
      have hpos := (List.getElem?_eq_some_iff.mp ho).1
      exact List.length_eq_one_iff.mp (by omega)
    rw [hx, List.getElem?_cons_zero, Option.some.injEq] at ho
    rw [hx, ho]
    exact .refl _

end Meld.Queue.HeapQueue
