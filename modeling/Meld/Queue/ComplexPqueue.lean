import Meld.Queue.PriorityBag

/-!
# The priority queue of nodes

`intrusive_safe_complex_pqueue` keeps pointers to its elements in the vector of a binary heap. Each
element has fields for its priority, for its index in the vector and for the flag that it is in the
queue, so that it can be taken out from the middle or moved to another priority.

The functions on the vector are macros that `heap_queue` uses as well. `view` is the vector with the
priorities of the elements: a sift of the queue is one of its view, and also keeps the indices that
are stored in the elements (`Placed`).
-/

namespace Meld.Queue

open Lib Lib.Heap Vm

/-- The queue, and the fields of the elements that it uses. -/
structure ComplexPqueue where
  typ : HeapType
  heap : List ℕ
  priority : ℕ → HeapPriority
  inPriorityQueue : ℕ → Bool
  pos : ℕ → ℤ

namespace ComplexPqueue

/-- The vector with the priorities of its elements. -/
def view (q : ComplexPqueue) : HeapQueue ℕ := ⟨q.typ, q.heap.map fun a => ⟨a, q.priority a⟩⟩

/-! ### The macros of the heap -/

def empty (q : ComplexPqueue) : Bool := q.heap.isEmpty

/-- The index of the left child, `-1` if there is none. -/
def left (q : ComplexPqueue) (parent : ℤ) : ℤ := q.view.left parent

/-- The index of the right child, `-1` if there is none. -/
def right (q : ComplexPqueue) (parent : ℤ) : ℤ := q.view.right parent

/-- `heap[i]`. -/
def get (q : ComplexPqueue) (i : ℤ) : Exec ℕ :=
  if 0 ≤ i then deref q.heap[i.toNat]? else throw .dangling

/-- `HEAP_COMPARE` of the priorities of `heap[i]` and `heap[j]`. -/
def compareAt (q : ComplexPqueue) (i j : ℤ) : Exec Bool := do
  let x ← q.get i
  let y ← q.get j
  return heapCompare q.typ (q.priority x) (q.priority y)

/-- `HEAP_SET_INDEX`. -/
def setIndex (q : ComplexPqueue) (i : ℤ) (obj : ℕ) : Exec ComplexPqueue :=
  if 0 ≤ i ∧ i < q.heap.length then
    pure { q with heap := q.heap.set i.toNat obj, pos := Function.update q.pos obj i }
  else throw .dangling

/-- `heap[i]` and `heap[j]` change places. -/
def swap (q : ComplexPqueue) (i j : ℤ) : Exec ComplexPqueue := do
  let obj ← q.get i
  let other ← q.get j
  let q ← q.setIndex i other
  q.setIndex j obj

/-- The body of the loop of `heapifyup`. -/
def heapifyupStep (s : ComplexPqueue × ℤ × Bool) :
    Exec ((ComplexPqueue × ℤ × Bool) ⊕ (ComplexPqueue × Bool)) := do
  let (q, index, moved) := s
  if 0 < index ∧ 0 ≤ HeapQueue.parent index then
    if ← q.compareAt (HeapQueue.parent index) index then
      return .inr (q, moved)
    else
      return .inl (← q.swap (HeapQueue.parent index) index, HeapQueue.parent index, true)
  else
    return .inr (q, moved)

/-- `heapifyup`. -/
def heapifyup (q : ComplexPqueue) (index : ℤ) : Exec (ComplexPqueue × Bool) :=
  iterate heapifyupStep (q.heap.length + 1) (q, index, false)

/-- One call of `heapifydown`; the call at its end is the next step. -/
def heapifydownStep (s : ComplexPqueue × ℤ) : Exec ((ComplexPqueue × ℤ) ⊕ ComplexPqueue) := do
  let (q, index) := s
  let l := q.left index
  let r := q.right index
  if ¬0 ≤ l ∧ ¬0 ≤ r then
    return .inr q
  let leftFirst ← if 0 ≤ l then q.compareAt index l else pure false
  let rightFirst ← if leftFirst ∧ 0 ≤ r then q.compareAt index r else pure leftFirst
  if leftFirst ∧ rightFirst then
    return .inr q
  let useRight ← if 0 ≤ r then q.compareAt r l else pure false
  let smaller := if useRight then r else l
  return .inl (← q.swap index smaller, smaller)

/-- `heapifydown`. -/
def heapifydown (q : ComplexPqueue) (index : ℤ) : Exec ComplexPqueue :=
  iterate heapifydownStep (q.heap.length + 1) (q, index)

/-! ### The operations -/

/-- `insert`. -/
def insert (q : ComplexPqueue) (node : ℕ) (prio : HeapPriority) : Exec ComplexPqueue := do
  assert (q.inPriorityQueue node = false)
  let q := { q with
    priority := Function.update q.priority node prio
    inPriorityQueue := Function.update q.inPriorityQueue node true
    heap := q.heap ++ [node] }
  let q := { q with pos := Function.update q.pos node (wrap32 (q.heap.length - 1)) }
  let (q, _) ← q.heapifyup (wrap32 (q.heap.length - 1))
  return q

/-- `pop`; null when the queue is empty. -/
def pop (q : ComplexPqueue) : Exec (ComplexPqueue × Option ℕ) := do
  if q.empty then
    return (q, none)
  let min ← deref q.heap[0]?
  let last ← deref q.heap.getLast?
  let q := { q with
    heap := (q.heap.set 0 last).dropLast
    pos := Function.update q.pos last 0 }
  let q ← q.heapifydown 0
  assert (q.inPriorityQueue min = true)
  return ({ q with inPriorityQueue := Function.update q.inPriorityQueue min false }, some min)

/-- `remove`. -/
def remove (q : ComplexPqueue) (obj : ℕ) : Exec ComplexPqueue := do
  let index := q.pos obj
  let tmp ← deref q.heap.getLast?
  let q := { q with
    heap := q.heap.dropLast
    inPriorityQueue := Function.update q.inPriorityQueue obj false }
  if !q.empty ∧ index ≠ q.heap.length then
    let q ← q.setIndex index tmp
    if HeapQueue.parent index ≠ -1 then
      let above ← q.get (HeapQueue.parent index)
      if heapCompare q.typ (q.priority tmp) (q.priority above) then
        let (q, _) ← q.heapifyup index
        return q
      else
        q.heapifydown index
    else
      q.heapifydown index
  else
    return q

/-- `move_node`. -/
def moveNode (q : ComplexPqueue) (node : ℕ) (newPrio : HeapPriority) : Exec ComplexPqueue := do
  let q ← q.remove node
  q.insert node newPrio

/-! ### The view of a queue -/

variable {q q' : ComplexPqueue} {a b : ℕ} {i j : ℕ}

@[simp] theorem view_typ (q : ComplexPqueue) : q.view.typ = q.typ := rfl

@[simp] theorem view_length (q : ComplexPqueue) : q.view.heap.length = q.heap.length := by
  simp [view]

theorem view_get (h : q.heap[i]? = some a) : q.view.heap[i]? = some ⟨a, q.priority a⟩ := by
  simp [view, h]

/-- The index that an element stores is the one at which it stands. -/
def Placed (q : ComplexPqueue) : Prop := ∀ i a, q.heap[i]? = some a → q.pos a = (i : ℕ)

/-- An element stands at one index. -/
theorem Placed.inj (h : Placed q) (hi : q.heap[i]? = some a) (hj : q.heap[j]? = some a) : i = j := by
  have := (h i a hi).symm.trans (h j a hj)
  omega

/-- The queues have the same elements, in another order. -/
structure Reordered (q q' : ComplexPqueue) : Prop where
  typ : q'.typ = q.typ
  priority : q'.priority = q.priority
  flag : q'.inPriorityQueue = q.inPriorityQueue
  perm : q'.heap.Perm q.heap

theorem Reordered.refl (q : ComplexPqueue) : Reordered q q := ⟨rfl, rfl, rfl, .refl _⟩

theorem Reordered.trans {q'' : ComplexPqueue} (h : Reordered q q') (h' : Reordered q' q'') :
    Reordered q q'' :=
  ⟨h'.typ.trans h.typ, h'.priority.trans h.priority, h'.flag.trans h.flag, h'.perm.trans h.perm⟩

theorem get_view_eq_ok {k : ℤ} {x : HeapObject ℕ} (h : q.view.get k = .ok x) :
    ∃ i a : ℕ, k = i ∧ q.heap[i]? = some a ∧ x = ⟨a, q.priority a⟩ := by
  rw [HeapQueue.get] at h
  split_ifs at h with hk
  obtain ⟨i, rfl⟩ := Int.eq_ofNat_of_zero_le hk
  have hget := deref_eq_ok.mp h
  rw [Int.toNat_natCast, view, List.getElem?_map, Option.map_eq_some_iff] at hget
  obtain ⟨a, ha, rfl⟩ := hget
  exact ⟨i, a, rfl, ha, rfl⟩

theorem get_eq (h : q.heap[i]? = some a) : q.get i = .ok a := by
  rw [get, if_pos (by omega), Int.toNat_natCast, h, deref_some]

theorem compareAt_view (q : ComplexPqueue) (k m : ℤ) : q.compareAt k m = q.view.compareAt k m := by
  have hget : ∀ k, q.view.get k = (do let a ← q.get k; pure ⟨a, q.priority a⟩) := by
    intro k
    rw [HeapQueue.get, get]
    split_ifs
    · cases ha : q.heap[k.toNat]? with
      | none => simp [view, ha]; rfl
      | some a => simp [view, ha]
    · rfl
  rw [compareAt, HeapQueue.compareAt, hget, hget]
  cases q.get k with
  | error e => rfl
  | ok x =>
    cases q.get m with
    | error e => rfl
    | ok y => rfl

/-- An exchange is one in the view, and keeps the indices. -/
theorem swap_view {k m : ℤ} {v : HeapQueue ℕ} (hq : Placed q) (h : q.view.swap k m = .ok v) :
    ∃ q', q.swap k m = .ok q' ∧ q'.view = v ∧ Placed q' ∧ Reordered q q' := by
  obtain ⟨x, hx, h⟩ := bind_eq_ok.mp h
  obtain ⟨y, hy, h⟩ := bind_eq_ok.mp h
  obtain ⟨i, a, rfl, ha, rfl⟩ := get_view_eq_ok hx
  obtain ⟨j, b, rfl, hb, rfl⟩ := get_view_eq_ok hy
  rw [pure_eq_ok, Except.ok.injEq] at h
  have hi := (List.getElem?_eq_some_iff.mp ha).1
  have hj := (List.getElem?_eq_some_iff.mp hb).1
  refine ⟨{ q with
      heap := exchange q.heap i j a b
      pos := Function.update (Function.update q.pos b i) a j }, ?_, ?_, fun k c hc => ?_,
    rfl, rfl, rfl, exchange_perm ha hb⟩
  · simp only [swap, get_eq ha, get_eq hb, ok_bind, setIndex]
    rw [if_pos (by omega)]
    simp only [pure_eq_ok, ok_bind, List.length_set]
    rw [if_pos (by omega)]
    rfl
  · rw [← h]
    simp [view, exchange, List.map_set]
  · rw [exchange_get ha hb] at hc
    simp only
    split_ifs at hc with hjk hik
    · obtain rfl := Option.some.inj hc
      rw [Function.update_self, hjk]
    · obtain rfl := Option.some.inj hc
      have hne : b ≠ a := by
        rintro rfl
        exact hjk ((hq.inj hb ha).trans hik)
      rw [Function.update_of_ne hne, Function.update_self, hik]
    · have hca : c ≠ a := by
        rintro rfl
        exact hik (hq.inj ha hc)
      have hcb : c ≠ b := by
        rintro rfl
        exact hjk (hq.inj hb hc)
      rw [Function.update_of_ne hca, Function.update_of_ne hcb, hq k c hc]

/-! ### The sifts -/

/-- A queue that was reached from `q` by exchanges, and its view. -/
def Simulates (q q' : ComplexPqueue) (v : HeapQueue ℕ) : Prop :=
  q'.view = v ∧ Placed q' ∧ Reordered q q'

/-- A step of `heapifyup` is one of the view. -/
private theorem heapifyupStep_view {r : ComplexPqueue} {k : ℤ} {m : Bool}
    {next : (HeapQueue ℕ × ℤ × Bool) ⊕ (HeapQueue ℕ × Bool)} (hr : Simulates q r r.view)
    (h : HeapQueue.heapifyupStep (r.view, k, m) = .ok next) :
    (∃ v k' m' r', next = .inl (v, k', m') ∧ heapifyupStep (r, k, m) = .ok (.inl (r', k', m')) ∧
      Simulates q r' v) ∨
    next = .inr (r.view, m) ∧ heapifyupStep (r, k, m) = .ok (.inr (r, m)) := by
  obtain ⟨-, hplaced, hre⟩ := hr
  simp only [HeapQueue.heapifyupStep, ← compareAt_view] at h
  simp only [heapifyupStep]
  split_ifs at h ⊢ with hcond
  · obtain ⟨before, hbefore, h⟩ := bind_eq_ok.mp h
    rw [hbefore, ok_bind]
    split_ifs at h ⊢
    · cases h
      exact .inr ⟨rfl, rfl⟩
    · obtain ⟨v, hswap, h⟩ := bind_eq_ok.mp h
      obtain ⟨r', hrun, hview, hplaced', hre'⟩ := swap_view hplaced hswap
      cases h
      exact .inl ⟨v, _, _, r', rfl, by rw [hrun]; rfl, hview, hplaced', hre.trans hre'⟩
  · cases h
    exact .inr ⟨rfl, rfl⟩

/-- `heapifyup` is the one of the view. -/
theorem heapifyup_view {k : ℤ} {v : HeapQueue ℕ} {moved : Bool} (hq : Placed q)
    (h : q.view.heapifyup k = .ok (v, moved)) :
    ∃ q', q.heapifyup k = .ok (q', moved) ∧ Simulates q q' v := by
  rw [HeapQueue.heapifyup, view_length] at h
  have hrun : ∃ r, q.heapifyup k = .ok r ∧ (Simulates q r.1 v ∧ r.2 = moved) := by
    refine iterate_simulates (fun s t => Simulates q s.1 t.1 ∧ s.2 = t.2)
      (fun (r : ComplexPqueue × Bool) (t : HeapQueue ℕ × Bool) => Simulates q r.1 t.1 ∧ r.2 = t.2)
      ?_ ?_ ⟨⟨rfl, hq, .refl q⟩, rfl⟩ h
    · rintro ⟨r, k, m⟩ ⟨_, _⟩ t' ⟨⟨rfl, hr⟩, hkm⟩ ht
      obtain rfl : (k, m) = _ := hkm
      rcases heapifyupStep_view ⟨rfl, hr⟩ ht with ⟨v, k', m', r', hnext, hstep, hr'⟩ | ⟨hnext, -⟩
      · cases hnext
        exact ⟨_, hstep, hr', rfl⟩
      · cases hnext
    · rintro ⟨r, k, m⟩ ⟨_, _⟩ t' ⟨⟨rfl, hr⟩, hkm⟩ ht
      obtain rfl : (k, m) = _ := hkm
      rcases heapifyupStep_view ⟨rfl, hr⟩ ht with ⟨v, k', m', r', hnext, hstep, hr'⟩ | ⟨hnext, hstep⟩
      · cases hnext
      · cases hnext
        exact ⟨_, hstep, ⟨rfl, hr⟩, rfl⟩
  obtain ⟨⟨q', m⟩, hrun, hsim, rfl⟩ := hrun
  exact ⟨q', hrun, hsim⟩

/-- The child that `heapifydown` goes on with, if it does: `l` and `r` are the indices of the
children. -/
private def choose (cmp : ℤ → ℤ → Exec Bool) (index l r : ℤ) : Exec (Option ℤ) := do
  if ¬0 ≤ l ∧ ¬0 ≤ r then
    return none
  let leftFirst ← if 0 ≤ l then cmp index l else pure false
  let rightFirst ← if leftFirst ∧ 0 ≤ r then cmp index r else pure leftFirst
  if leftFirst ∧ rightFirst then
    return none
  let useRight ← if 0 ≤ r then cmp r l else pure false
  return some (if useRight then r else l)

/-- The comparisons of `heapifydown` come before what it does. -/
private theorem choose_bind {β : Type} (cmp : ℤ → ℤ → Exec Bool) (index l r : ℤ) (stop : Exec β)
    (go : ℤ → Exec β) :
    (do
      if ¬0 ≤ l ∧ ¬0 ≤ r then
        stop
      else do
      let leftFirst ← if 0 ≤ l then cmp index l else pure false
      let rightFirst ← if leftFirst ∧ 0 ≤ r then cmp index r else pure leftFirst
      if leftFirst ∧ rightFirst then
        stop
      else do
      let useRight ← if 0 ≤ r then cmp r l else pure false
      go (if useRight then r else l)) =
    (do
      match ← choose cmp index l r with
      | none => stop
      | some c => go c) := by
  rw [choose]
  by_cases hl : 0 ≤ l
  · cases cmp index l with
    | error e => simp [hl]
    | ok leftFirst =>
      by_cases hr : 0 ≤ r
      · cases leftFirst with
        | false => simp [hl, hr]
        | true =>
          cases cmp index r with
          | error e => simp [hl, hr]
          | ok rightFirst => cases rightFirst <;> simp [hl, hr]
      · cases leftFirst <;> simp [hl, hr]
  · by_cases hr : 0 ≤ r <;> simp [hl, hr]

private theorem heapifydownStep_view_eq (v : HeapQueue ℕ) (k : ℤ) :
    HeapQueue.heapifydownStep (v, k) = (do
      match ← choose v.compareAt k (v.left k) (v.right k) with
      | none => pure (.inr v)
      | some c => pure (.inl (← v.swap k c, c))) := by
  rw [← choose_bind]
  rfl

private theorem heapifydownStep_eq (r : ComplexPqueue) (k : ℤ) :
    heapifydownStep (r, k) = (do
      match ← choose r.compareAt k (r.left k) (r.right k) with
      | none => pure (.inr r)
      | some c => pure (.inl (← r.swap k c, c))) := by
  rw [← choose_bind]
  rfl

/-- A call of `heapifydown` is one of the view. -/
private theorem heapifydownStep_view {r : ComplexPqueue} {k : ℤ}
    {next : (HeapQueue ℕ × ℤ) ⊕ HeapQueue ℕ} (hr : Simulates q r r.view)
    (h : HeapQueue.heapifydownStep (r.view, k) = .ok next) :
    (∃ v k' r', next = .inl (v, k') ∧ heapifydownStep (r, k) = .ok (.inl (r', k')) ∧
      Simulates q r' v) ∨
    next = .inr r.view ∧ heapifydownStep (r, k) = .ok (.inr r) := by
  obtain ⟨-, hplaced, hre⟩ := hr
  have hcmp : r.view.compareAt = r.compareAt := by
    funext i j
    exact (r.compareAt_view i j).symm
  rw [heapifydownStep_view_eq, hcmp] at h
  rw [heapifydownStep_eq]
  obtain ⟨c, hc, h⟩ := bind_eq_ok.mp h
  rw [left, right, hc, ok_bind]
  cases c with
  | none =>
    cases h
    exact .inr ⟨rfl, rfl⟩
  | some c =>
    obtain ⟨v, hswap, h⟩ := bind_eq_ok.mp h
    obtain ⟨r', hrun, hview, hplaced', hre'⟩ := swap_view hplaced hswap
    cases h
    exact .inl ⟨v, c, r', rfl, by simp only [hrun]; rfl, hview, hplaced', hre.trans hre'⟩

/-- `heapifydown` is the one of the view. -/
theorem heapifydown_view {k : ℤ} {v : HeapQueue ℕ} (hq : Placed q)
    (h : q.view.heapifydown k = .ok v) :
    ∃ q', q.heapifydown k = .ok q' ∧ Simulates q q' v := by
  rw [HeapQueue.heapifydown, view_length] at h
  refine iterate_simulates (fun s t => Simulates q s.1 t.1 ∧ s.2 = t.2) (Simulates q) ?_ ?_
    ⟨⟨rfl, hq, .refl q⟩, rfl⟩ h
  · rintro ⟨r, k⟩ ⟨_, _⟩ t' ⟨⟨rfl, hr⟩, hk⟩ ht
    obtain rfl : k = _ := hk
    rcases heapifydownStep_view ⟨rfl, hr⟩ ht with ⟨v, k', r', hnext, hstep, hr'⟩ | ⟨hnext, -⟩
    · cases hnext
      exact ⟨_, hstep, hr', rfl⟩
    · cases hnext
  · rintro ⟨r, k⟩ ⟨_, _⟩ t' ⟨⟨rfl, hr⟩, hk⟩ ht
    obtain rfl : k = _ := hk
    rcases heapifydownStep_view ⟨rfl, hr⟩ ht with ⟨v, k', r', hnext, hstep, hr'⟩ | ⟨hnext, hstep⟩
    · cases hnext
    · cases hnext
      exact ⟨_, hstep, rfl, hr⟩

/-! ### The invariant -/

/-- The vector is an ordered heap, and every element stores its index. -/
structure Arranged (q : ComplexPqueue) : Prop where
  comparable : ∀ o ∈ q.view.heap, q.typ.Comparable o.val
  ordered : Ordered q.view.entryKey q.view.heap
  placed : Placed q

/-- The invariant between two operations: the flag is set for the elements of the vector. -/
structure Inv (q : ComplexPqueue) : Prop extends Arranged q where
  flag : ∀ a, q.inPriorityQueue a = true ↔ a ∈ q.heap

theorem Placed.nodup (h : Placed q) : q.heap.Nodup := by
  rw [List.nodup_iff_getElem?_ne_getElem?]
  intro i j hij hj he
  have ha := List.getElem?_eq_getElem hj
  exact hij.ne (h.inj (he.trans ha) ha)

/-- Exchanges that end with an ordered view restore the order. -/
theorem Simulates.reordered {v : HeapQueue ℕ} (h : Simulates q q' v)
    (hord : Ordered v.entryKey v.heap) :
    Placed q' ∧ Reordered q q' ∧ Ordered q'.view.entryKey q'.view.heap := by
  obtain ⟨rfl, hplaced, hre⟩ := h
  exact ⟨hplaced, hre, hord⟩

theorem heapifyup_spec (hq : Placed q) (hcomp : ∀ o ∈ q.view.heap, q.typ.Comparable o.val)
    (hhole : UpHole q.view.entryKey q.view.heap i) (hi : i < q.heap.length) :
    ∃ q' moved, q.heapifyup i = .ok (q', moved) ∧ Placed q' ∧ Reordered q q' ∧
      Ordered q'.view.entryKey q'.view.heap := by
  obtain ⟨v, moved, hrun, -, hord⟩ := HeapQueue.heapifyup_ordered hcomp hhole (by simpa using hi)
  obtain ⟨q', hrun', hsim⟩ := heapifyup_view hq hrun
  exact ⟨q', moved, hrun', hsim.reordered hord⟩

/-- The last element takes the place of the one at `i`. -/
def refill (q : ComplexPqueue) (i : ℕ) (last : ℕ) : ComplexPqueue :=
  { q with
    heap := q.heap.dropLast.set i last
    pos := Function.update q.pos last i }

theorem refill_view (q : ComplexPqueue) (i last : ℕ) :
    (q.refill i last).view =
      { q.view with heap := q.view.heap.dropLast.set i ⟨last, q.priority last⟩ } := by
  simp [refill, view, List.map_dropLast, List.map_set]

theorem Placed.refill (h : Placed q) {last : ℕ} (hlast : q.heap.getLast? = some last)
    (hi : i + 1 < q.heap.length) : Placed (q.refill i last) := by
  intro k c hc
  have hlast' : q.heap[q.heap.length - 1]? = some last := List.getLast?_eq_getElem? ▸ hlast
  simp only [ComplexPqueue.refill] at hc ⊢
  by_cases hik : i = k
  · subst hik
    rw [List.getElem?_set_self (by rw [List.length_dropLast]; omega)] at hc
    rw [← Option.some.inj hc, Function.update_self]
  · rw [List.getElem?_set_ne hik, List.getElem?_dropLast] at hc
    split_ifs at hc with hk
    have hne : c ≠ last := by
      rintro rfl
      have := h.inj hc hlast'
      omega
    rw [Function.update_of_ne hne, h k c hc]

/-- Moving the last element down from the place `i` restores the order. -/
theorem Arranged.refill_down (h : Arranged q) (hsize : (q.heap.length : ℤ) ≤ maxInt + 1) {last : ℕ}
    (hx : q.heap[i]? = some a) (hlast : q.heap.getLast? = some last) (hi : i + 1 < q.heap.length)
    (hle : ∀ z, 0 < i → q.heap[Heap.parent i]? = some z →
      heapCompare q.typ (q.priority z) (q.priority last) = true) :
    ∃ q', (q.refill i last).heapifydown i = .ok q' ∧ Placed q' ∧ Reordered (q.refill i last) q' ∧
      Ordered q'.view.entryKey q'.view.heap := by
  have hlast' : q.view.heap.getLast? = some ⟨last, q.priority last⟩ := by
    simp [view, hlast]
  have hmem : q.view.heap[q.heap.length - 1]? = some ⟨last, q.priority last⟩ :=
    view_get (List.getLast?_eq_getElem? ▸ hlast)
  obtain ⟨v, hrun, -, -, hinv⟩ := HeapQueue.heapifydown_last (by simpa using hsize) h.comparable
    h.ordered (view_get hx) hlast' (by simpa using hi) fun z hpos hz => by
      obtain ⟨b, hb, rfl⟩ := Option.map_eq_some_iff.mp ((List.getElem?_map ..).symm.trans hz)
      exact (HeapQueue.compare_iff h.comparable hz hmem).mp (hle b hpos hb)
  rw [← refill_view] at hrun
  obtain ⟨q', hrun', hsim⟩ := heapifydown_view (h.placed.refill hlast hi) hrun
  exact ⟨q', hrun', hsim.reordered hinv.ordered⟩

/-- The elements that stay when the last one takes the place `i`. -/
theorem refill_perm {last : ℕ} (hx : q.heap[i]? = some a) (hlast : q.heap.getLast? = some last)
    (hi : i + 1 < q.heap.length) : (a :: (q.refill i last).heap).Perm q.heap :=
  set_last_perm hx hlast hi

theorem refill_comparable (h : ∀ o ∈ q.view.heap, q.typ.Comparable o.val) {last : ℕ}
    (hx : q.heap[i]? = some a) (hlast : q.heap.getLast? = some last)
    (hi : i + 1 < q.heap.length) :
    ∀ o ∈ (q.refill i last).view.heap, q.typ.Comparable o.val := by
  intro o ho
  obtain ⟨b, hb, rfl⟩ := List.mem_map.mp ho
  refine h _ (List.mem_map.mpr ⟨b, ?_, rfl⟩)
  exact (refill_perm hx hlast hi).subset (List.mem_cons_of_mem _ hb)

/-- Moving the last element up from the place `i` restores the order. -/
theorem Arranged.refill_up (h : Arranged q) {last z : ℕ} (hx : q.heap[i]? = some a)
    (hlast : q.heap.getLast? = some last) (hi : i + 1 < q.heap.length) (hpos : 0 < i)
    (hz : q.heap[Heap.parent i]? = some z)
    (hle : heapCompare q.typ (q.priority last) (q.priority z) = true) :
    ∃ q' moved, (q.refill i last).heapifyup i = .ok (q', moved) ∧ Placed q' ∧
      Reordered (q.refill i last) q' ∧ Ordered q'.view.entryKey q'.view.heap := by
  have hlen : q.view.heap.length = q.heap.length := q.view_length
  have hget : ∀ j, j + 1 < q.heap.length → q.view.heap.dropLast[j]? = q.view.heap[j]? := by
    intro j hj
    rw [List.getElem?_dropLast, if_pos (by omega)]
  have hparent := parent_lt hpos
  have hmem : q.view.heap[q.heap.length - 1]? = some ⟨last, q.priority last⟩ :=
    view_get (List.getLast?_eq_getElem? ▸ hlast)
  have hhole : UpHole (q.refill i last).view.entryKey (q.refill i last).view.heap i := by
    rw [refill_view]
    refine h.ordered.dropLast.replace_up ((hget i hi).trans (view_get hx)) hpos
      ((hget _ (by omega)).trans (view_get hz)) ?_
    exact (HeapQueue.compare_iff h.comparable hmem (view_get hz)).mp hle
  refine heapifyup_spec (h.placed.refill hlast hi)
    (refill_comparable h.comparable hx hlast hi) hhole ?_
  simp only [refill, List.length_set, List.length_dropLast]
  omega

/-- What is left to restore after the exchanges: nothing. -/
theorem Inv.of_reordered (hcomp : ∀ o ∈ q.view.heap, q.typ.Comparable o.val)
    (hflag : ∀ a, q.inPriorityQueue a = true ↔ a ∈ q.heap) (hplaced : Placed q')
    (hre : Reordered q q') (hord : Ordered q'.view.entryKey q'.view.heap) : Inv q' where
  comparable o ho := by
    obtain ⟨b, hb, rfl⟩ := List.mem_map.mp ho
    rw [hre.typ, hre.priority]
    exact hcomp _ (List.mem_map.mpr ⟨b, hre.perm.subset hb, rfl⟩)
  ordered := hord
  placed := hplaced
  flag a := by rw [hre.flag, hflag, hre.perm.mem_iff]

/-! ### The operations -/

/-- `insert` adds the element. -/
theorem Inv.insert (h : Inv q) (hsize : (q.heap.length : ℤ) ≤ maxInt) (ha : a ∉ q.heap)
    {prio : HeapPriority} (hprio : q.typ.Comparable prio) :
    ∃ q', q.insert a prio = .ok q' ∧ Inv q' ∧ q'.typ = q.typ ∧
      q'.priority = Function.update q.priority a prio ∧ q'.heap.Perm (a :: q.heap) := by
  have hflag : q.inPriorityQueue a = false := by
    rw [← Bool.not_eq_true, h.flag]
    exact ha
  -- the queue before the element moves up
  obtain ⟨q₁, hq₁⟩ : ∃ q₁ : ComplexPqueue, q₁ = { q with
      priority := Function.update q.priority a prio
      inPriorityQueue := Function.update q.inPriorityQueue a true
      heap := q.heap ++ [a]
      pos := Function.update q.pos a q.heap.length } := ⟨_, rfl⟩
  have hview : q₁.view = { q.view with heap := q.view.heap ++ [⟨a, prio⟩] } := by
    have hold : q.heap.map (fun b => (⟨b, Function.update q.priority a prio b⟩ : HeapObject ℕ)) =
        q.heap.map fun b => ⟨b, q.priority b⟩ := by
      refine List.map_congr_left fun b hb => ?_
      have hne : b ≠ a := fun he => ha (he ▸ hb)
      rw [Function.update_of_ne hne]
    rw [hq₁]
    simp [view, hold]
  have hcomp : ∀ o ∈ q₁.view.heap, q₁.typ.Comparable o.val := by
    rw [hview, hq₁]
    intro o ho
    rcases List.mem_append.mp ho with ho | ho
    · exact h.comparable o ho
    · rw [List.mem_singleton.mp ho]
      exact hprio
  have hplaced : Placed q₁ := by
    rw [hq₁]
    intro k c hc
    simp only at hc ⊢
    rcases Nat.lt_or_ge k q.heap.length with hk | hk
    · rw [List.getElem?_append_left hk] at hc
      have hne : c ≠ a := fun he => ha (he ▸ List.mem_of_getElem? hc)
      rw [Function.update_of_ne hne, h.placed k c hc]
    · obtain ⟨hk', hca⟩ := List.getElem?_eq_some_iff.mp hc
      rw [List.length_append, List.length_singleton] at hk'
      obtain rfl : k = q.heap.length := by omega
      rw [List.getElem_append_right le_rfl] at hca
      simp only [Nat.sub_self, List.getElem_cons_zero] at hca
      rw [← hca, Function.update_self]
  have hlen : q₁.heap.length = q.heap.length + 1 := by simp [hq₁]
  have hhole : UpHole q₁.view.entryKey q₁.view.heap q.heap.length := by
    have := h.ordered.push (⟨a, prio⟩ : HeapObject ℕ)
    rw [view_length] at this
    rw [hview]
    exact this
  obtain ⟨q', moved, hrun, hplaced', hre, hord⟩ := heapifyup_spec hplaced hcomp hhole (by omega)
  have hflag₁ : ∀ b, q₁.inPriorityQueue b = true ↔ b ∈ q₁.heap := by
    intro b
    by_cases hb : b = a
    · simp [hq₁, hb]
    · simp [hq₁, hb, h.flag]
  have hindex : wrap32 (((q.heap ++ [a]).length : ℤ) - 1) = q.heap.length := by
    rw [List.length_append, List.length_singleton, Int.natCast_add, Int.natCast_one,
      Int.add_sub_cancel]
    exact wrap32_of_mem (by simp only [maxInt] at *; omega) hsize
  refine ⟨q', ?_, .of_reordered hcomp hflag₁ hplaced' hre hord, hre.typ.trans (by rw [hq₁]),
    hre.priority.trans (by rw [hq₁]), hre.perm.trans ?_⟩
  · simp only [ComplexPqueue.insert, assert_pos hflag, ok_bind, hindex]
    rw [← hq₁, hrun]
    rfl
  · rw [hq₁]
    exact List.perm_append_singleton a q.heap

/-- The flag of an element that was taken out. -/
theorem flag_erase (h : Inv q) {l : List ℕ} (hl : (a :: l).Perm q.heap) (b : ℕ) :
    Function.update q.inPriorityQueue a false b = true ↔ b ∈ l := by
  have hnodup := hl.nodup_iff.mpr h.placed.nodup
  by_cases hb : b = a
  · subst hb
    simp [(List.nodup_cons.mp hnodup).1]
  · rw [Function.update_of_ne hb, h.flag, ← hl.mem_iff, List.mem_cons, or_iff_right hb]

/-- `remove` takes out the element. -/
theorem Inv.remove (h : Inv q) (hsize : (q.heap.length : ℤ) ≤ maxInt + 1) (ha : a ∈ q.heap) :
    ∃ q', q.remove a = .ok q' ∧ Inv q' ∧ q'.typ = q.typ ∧ q'.priority = q.priority ∧
      (a :: q'.heap).Perm q.heap := by
  obtain ⟨i, hx⟩ := List.getElem?_of_mem ha
  have hi := (List.getElem?_eq_some_iff.mp hx).1
  have hpos := h.placed i a hx
  obtain ⟨last, hlast⟩ : ∃ last, q.heap.getLast? = some last :=
    ⟨_, List.getLast?_eq_some_getLast (List.ne_nil_of_mem ha)⟩
  have hlen : q.heap.dropLast.length = q.heap.length - 1 := List.length_dropLast
  -- the element is marked as outside before the heap is rearranged
  obtain ⟨q₁, hq₁⟩ : ∃ q₁ : ComplexPqueue, q₁ = { q with
    inPriorityQueue := Function.update q.inPriorityQueue a false } := ⟨_, rfl⟩
  have h₁ : Arranged q₁ := hq₁ ▸ ⟨h.comparable, h.ordered, h.placed⟩
  have hheap : q₁.heap = q.heap := by rw [hq₁]
  -- the last element takes the place of the one that is removed
  by_cases hend : i + 1 < q.heap.length
  · have hend' : i + 1 < q₁.heap.length := hheap ▸ hend
    have hx₁ : q₁.heap[i]? = some a := hheap ▸ hx
    have hlast₁ : q₁.heap.getLast? = some last := hheap ▸ hlast
    have hperm : (a :: (q₁.refill i last).heap).Perm q.heap := hheap ▸ refill_perm hx₁ hlast₁ hend'
    have hflag : ∀ b, (q₁.refill i last).inPriorityQueue b = true ↔ b ∈ (q₁.refill i last).heap := by
      have := flag_erase h hperm
      simpa only [refill, hq₁] using this
    have hcomp := refill_comparable h₁.comparable hx₁ hlast₁ hend'
    have hrun : q.remove a = (do
        if HeapQueue.parent (i : ℤ) ≠ -1 then
          let above ← (q₁.refill i last).get (HeapQueue.parent i)
          if heapCompare q.typ (q.priority last) (q.priority above) then
            let (q, _) ← (q₁.refill i last).heapifyup i
            return q
          else
            (q₁.refill i last).heapifydown i
        else
          (q₁.refill i last).heapifydown i) := by
      have hcond : (!q.heap.dropLast.isEmpty) = true ∧ (i : ℤ) ≠ q.heap.dropLast.length := by
        refine ⟨?_, by omega⟩
        rw [Bool.not_eq_true', List.isEmpty_eq_false_iff]
        exact List.ne_nil_of_length_pos (by omega)
      have hin : (0 : ℤ) ≤ i ∧ (i : ℤ) < q.heap.dropLast.length := by omega
      simp only [ComplexPqueue.remove, hpos, hlast, deref_some, ok_bind, empty, if_pos hcond,
        setIndex, if_pos hin, pure_eq_ok, Int.toNat_natCast, refill, hq₁]
    have hdone : ∀ q', Placed q' → Reordered (q₁.refill i last) q' →
        Ordered q'.view.entryKey q'.view.heap → Inv q' ∧ q'.typ = q.typ ∧
          q'.priority = q.priority ∧ (a :: q'.heap).Perm q.heap := by
      intro q' hplaced hre hord
      exact ⟨.of_reordered hcomp hflag hplaced hre hord, hre.typ.trans (by rw [hq₁]; rfl),
        hre.priority.trans (by rw [hq₁]; rfl), (hre.perm.cons a).trans hperm⟩
    have hsize₁ : (q₁.heap.length : ℤ) ≤ maxInt + 1 := hheap ▸ hsize
    -- at the root it can only go down
    rcases Nat.eq_zero_or_pos i with rfl | hipos
    · obtain ⟨q', hdown, hplaced, hre, hord⟩ := h₁.refill_down hsize₁ hx₁ hlast₁ hend'
        fun z hpos => absurd hpos (lt_irrefl 0)
      refine ⟨q', ?_, hdone q' hplaced hre hord⟩
      rw [hrun, ← hdown]
      rfl
    · have hparent := parent_lt hipos
      obtain ⟨z, hz⟩ : ∃ z, q₁.heap[Heap.parent i]? = some z :=
        ⟨_, List.getElem?_eq_getElem (by omega)⟩
      have hget : (q₁.refill i last).heap[Heap.parent i]? = some z := by
        rw [refill, List.getElem?_set_ne (by omega), List.getElem?_dropLast, if_pos (by omega), hz]
      have hne : ((Heap.parent i : ℕ) : ℤ) ≠ -1 := by omega
      rw [HeapQueue.parent_eq hipos, if_pos hne, get_eq hget, ok_bind] at hrun
      have htyp : q₁.typ = q.typ := by rw [hq₁]
      have hprio : q₁.priority = q.priority := by rw [hq₁]
      have hvz := view_get hz
      have hvlast : q₁.view.heap[q₁.heap.length - 1]? = some ⟨last, q₁.priority last⟩ :=
        view_get (List.getLast?_eq_getElem? ▸ hlast₁)
      -- it goes up while it is better than its parent
      by_cases hle : heapCompare q.typ (q.priority last) (q.priority z) = true
      · obtain ⟨q', moved, hup, hplaced, hre, hord⟩ := h₁.refill_up hx₁ hlast₁ hend' hipos hz
          (by rw [htyp, hprio]; exact hle)
        refine ⟨q', ?_, hdone q' hplaced hre hord⟩
        rw [hrun, if_pos hle, hup]
        rfl
      · -- the last element is larger than the parent, so it may only be larger than the children
        have hge : heapCompare q₁.typ (q₁.priority z) (q₁.priority last) = true := by
          refine (HeapQueue.compare_iff h₁.comparable hvz hvlast).mpr (le_of_lt ?_)
          rw [← htyp, ← hprio, Bool.not_eq_true] at hle
          exact (HeapQueue.compare_eq_false h₁.comparable hvlast hvz).mp hle
        obtain ⟨q', hdown, hplaced, hre, hord⟩ := h₁.refill_down hsize₁ hx₁ hlast₁ hend'
          fun z' _ hz' => Option.some.inj (hz.symm.trans hz') ▸ hge
        refine ⟨q', ?_, hdone q' hplaced hre hord⟩
        rw [hrun, if_neg hle, hdown]
  · -- the element is the last one itself
    have hlasta : last = a := by
      rw [List.getLast?_eq_getElem?, show q.heap.length - 1 = i by omega, hx] at hlast
      exact (Option.some.inj hlast).symm
    subst hlasta
    have hperm : (last :: q.heap.dropLast).Perm q.heap := cons_dropLast_perm hlast
    have hcond : ¬((!q.heap.dropLast.isEmpty) = true ∧ (i : ℤ) ≠ q.heap.dropLast.length) :=
      fun hc => hc.2 (by omega)
    refine ⟨{ q₁ with heap := q.heap.dropLast }, ?_, ⟨⟨?_, ?_, ?_⟩, ?_⟩, by rw [hq₁], by rw [hq₁],
      hperm⟩
    · simp only [ComplexPqueue.remove, hpos, hlast, deref_some, ok_bind, empty, if_neg hcond,
        pure_eq_ok, hq₁]
    · intro o ho
      obtain ⟨b, hb, rfl⟩ := List.mem_map.mp ho
      rw [hq₁]
      exact h.comparable _ (List.mem_map.mpr ⟨b, List.dropLast_subset _ hb, rfl⟩)
    · have hview : ({ q₁ with heap := q.heap.dropLast } : ComplexPqueue).view =
          { q.view with heap := q.view.heap.dropLast } := by
        rw [hq₁]
        simp [view, List.map_dropLast]
      rw [hview]
      exact h.ordered.dropLast
    · intro k c hc
      simp only [List.getElem?_dropLast] at hc
      split_ifs at hc
      rw [hq₁]
      exact h.placed k c hc
    · have := flag_erase h hperm
      simpa only [hq₁] using this

/-- `pop` takes out an element of best priority. -/
theorem Inv.pop (h : Inv q) (hsize : (q.heap.length : ℤ) ≤ maxInt + 1) (hne : q.heap ≠ []) :
    ∃ q' a, q.pop = .ok (q', some a) ∧ Inv q' ∧ q'.typ = q.typ ∧ q'.priority = q.priority ∧
      (a :: q'.heap).Perm q.heap ∧
      ∀ b ∈ q.heap, heapCompare q.typ (q.priority a) (q.priority b) = true := by
  obtain ⟨a, rest, hheap⟩ := List.exists_cons_of_ne_nil hne
  have hroot : q.heap[0]? = some a := by rw [hheap]; rfl
  have hbest : ∀ b ∈ q.heap, heapCompare q.typ (q.priority a) (q.priority b) = true := by
    intro b hb
    obtain ⟨j, hj⟩ := List.getElem?_of_mem hb
    exact (HeapQueue.compare_iff h.comparable (view_get hroot) (view_get hj)).mpr
      (h.ordered.root_le (view_get hroot) j _ (view_get hj))
  have hflag : q.inPriorityQueue a = true := (h.flag a).mpr (by simp [hheap])
  have hempty : q.empty = false := by simp [empty, hheap]
  have hdone : ∀ q₁ q', q₁.typ = q.typ → q₁.priority = q.priority →
      q₁.inPriorityQueue = q.inPriorityQueue → (a :: q₁.heap).Perm q.heap →
      Placed q' → Reordered q₁ q' → Ordered q'.view.entryKey q'.view.heap →
      q'.inPriorityQueue a = true ∧
        Inv { q' with inPriorityQueue := Function.update q'.inPriorityQueue a false } ∧
        q'.typ = q.typ ∧ q'.priority = q.priority ∧ (a :: q'.heap).Perm q.heap := by
    intro q₁ q' htyp hprio hflag₁ hperm hplaced hre hord
    have hperm' := (hre.perm.cons a).trans hperm
    refine ⟨by rw [hre.flag, hflag₁, hflag], ⟨⟨fun o ho => ?_, hord, hplaced⟩, fun b => ?_⟩,
      hre.typ.trans htyp, hre.priority.trans hprio, hperm'⟩
    · obtain ⟨b, hb, rfl⟩ := List.mem_map.mp ho
      simp only [hre.typ, htyp, hre.priority, hprio]
      exact h.comparable _
        (List.mem_map.mpr ⟨b, hperm'.subset (List.mem_cons_of_mem _ hb), rfl⟩)
    · rw [hre.flag, hflag₁]
      exact flag_erase h hperm' b
  rcases List.eq_nil_or_concat' rest with rfl | ⟨init, last, rfl⟩
  · -- the only element: there is nothing to move down
    obtain ⟨q₁, hq₁⟩ : ∃ q₁ : ComplexPqueue, q₁ = { q with
      heap := [], pos := Function.update q.pos a 0 } := ⟨_, rfl⟩
    have hview : q₁.view = ⟨q.typ, []⟩ := by rw [hq₁]; rfl
    obtain ⟨q', hrun, hsim⟩ := heapifydown_view (q := q₁) (k := 0) (v := ⟨q.typ, []⟩)
      (by rw [hq₁]; exact fun k c hc => by simp at hc)
      (by rw [hview]; exact HeapQueue.heapifydown_nil q.typ)
    obtain ⟨hplaced, hre, hord⟩ := hsim.reordered (fun j x y _ hx => by simp at hx)
    obtain ⟨hflag', hinv, hrest⟩ := hdone q₁ q' (by rw [hq₁]) (by rw [hq₁]) (by rw [hq₁])
      (by rw [hq₁, hheap]) hplaced hre hord
    refine ⟨_, a, ?_, hinv, hrest.1, hrest.2.1, hrest.2.2, hbest⟩
    simp only [ComplexPqueue.pop, hempty, hheap, List.getElem?_cons_zero, List.getLast?_singleton,
      deref_some, ok_bind, List.set_cons_zero, List.dropLast_singleton]
    rw [← hq₁, hrun, ok_bind, assert_pos hflag']
    rfl
  · have hlen : 0 + 1 < q.heap.length := by simp [hheap]
    have hlast : q.heap.getLast? = some last := by
      rw [hheap, ← List.cons_append, List.getLast?_concat]
    obtain ⟨q', hrun, hplaced, hre, hord⟩ := h.refill_down hsize hroot hlast hlen
      fun z hpos => absurd hpos (lt_irrefl 0)
    obtain ⟨hflag', hinv, hrest⟩ := hdone (q.refill 0 last) q' rfl rfl rfl
      (refill_perm hroot hlast hlen) hplaced hre hord
    have hset : (q.heap.set 0 last).dropLast = q.heap.dropLast.set 0 last := by
      rw [hheap, List.set_cons_zero, ← List.cons_append, List.dropLast_concat, ← List.cons_append,
        List.dropLast_concat, List.set_cons_zero]
    refine ⟨_, a, ?_, hinv, hrest.1, hrest.2.1, hrest.2.2, hbest⟩
    have hrefill : ({ q with
        heap := (q.heap.set 0 last).dropLast
        pos := Function.update q.pos last 0 } : ComplexPqueue) = q.refill 0 last := by
      rw [hset]
      rfl
    rw [ComplexPqueue.pop, hempty, if_neg Bool.false_ne_true, hroot, deref_some, ok_bind, hlast,
      deref_some, ok_bind]
    simp only [hrefill]
    rw [show (0 : ℤ) = ((0 : ℕ) : ℤ) from rfl, hrun, ok_bind, assert_pos hflag']
    rfl


end ComplexPqueue

end Meld.Queue
