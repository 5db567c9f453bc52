import Meld.Lib.Loop

/-!
# The queues of delayed facts

`general_pqueue` orders its items by a comparator for `std::priority_queue`, which serves a maximal
item. The collectors of delayed facts release the first item as long as it is due and stop at the
first that is not, so they need the earliest due time to come first; the comparator puts the latest
first. A collection is right if and only if no item is due, or all of them are and have one due time
(`collects_iff`).
-/

namespace Meld.Queue

open Lib

/-! ### The heap of the standard library -/

/-- `std::priority_queue` with a comparator: what it holds, and that it serves a maximal element. -/
structure StdPriorityQueue (α : Type) (less : α → α → Bool) where
  Heap : Type
  contents : Heap → Multiset α
  new : Heap
  push : Heap → α → Heap
  top : Heap → Option α
  pop : Heap → Heap
  contents_new : contents new = 0
  contents_push : ∀ h x, contents (push h x) = x ::ₘ contents h
  top_eq_none : ∀ h, top h = none ↔ contents h = 0
  top_max : ∀ h x, top h = some x → ∀ y ∈ contents h, less x y = false
  contents_pop : ∀ h x, top h = some x → x ::ₘ contents (pop h) = contents h

/-! ### The queue -/

/-- `queue_item`. -/
structure QueueItem (T P : Type) where
  item : T
  priority : P
  deriving DecidableEq, Repr

/-- `queue_item_comparator`. -/
def queueItemComparator {T P : Type} [LinearOrder P] (a b : QueueItem T P) : Bool :=
  decide (a.priority < b.priority)

variable {T P : Type} [LinearOrder P]

/-- `general_pqueue`, over a heap of the standard library. -/
structure GeneralPqueue (Q : StdPriorityQueue (QueueItem T P) queueItemComparator) where
  data : Q.Heap

namespace GeneralPqueue

variable {Q : StdPriorityQueue (QueueItem T P) queueItemComparator}

/-- The items in the queue. -/
def contents (q : GeneralPqueue Q) : Multiset (QueueItem T P) := Q.contents q.data

/-- `push`. -/
def push (q : GeneralPqueue Q) (item : T) (priority : P) : GeneralPqueue Q :=
  ⟨Q.push q.data ⟨item, priority⟩⟩

/-- `empty`. -/
def empty (q : GeneralPqueue Q) : Bool := (Q.top q.data).isNone

/-- `top_priority`. -/
def topPriority (q : GeneralPqueue Q) : Exec P := do return (← deref (Q.top q.data)).priority

/-- `pop`. -/
def pop (q : GeneralPqueue Q) : Exec (T × GeneralPqueue Q) := do
  let ret ← deref (Q.top q.data)
  return (ret.item, ⟨Q.pop q.data⟩)

/-! ### The collectors -/

/-- One turn of the loop of a collector, with the items released so far and their due times. -/
def releaseStep (now : P) (s : List (QueueItem T P) × GeneralPqueue Q) :
    Exec ((List (QueueItem T P) × GeneralPqueue Q) ⊕ (List (QueueItem T P) × GeneralPqueue Q)) := do
  let (ls, q) := s
  if q.empty then return .inr (ls, q)
  let best ← q.topPriority
  if best < now then
    let (item, q) ← q.pop
    return .inl (ls ++ [⟨item, best⟩], q)
  else return .inr (ls, q)

/-- `sim_node::add_delayed_tuples`: the items whose tuples are appended to the list. -/
def addDelayedTuples (q : GeneralPqueue Q) (now : P) :
    Exec (List (QueueItem T P) × GeneralPqueue Q) :=
  iterate (releaseStep now) (q.contents.card + 1) ([], q)

/-- `sim_sched::check_delayed_queue`: the items that are sent. -/
def checkDelayedQueue (q : GeneralPqueue Q) (now : P) :
    Exec (List (QueueItem T P) × GeneralPqueue Q) :=
  iterate (releaseStep now) (q.contents.card + 1) ([], q)

/-- `sim_node::delayed_available`. -/
def delayedAvailable (q : GeneralPqueue Q) (now : P) : Exec Bool := do
  if q.empty then return false
  let best ← q.topPriority
  return decide (best < now)

/-! ### What should be released -/

/-- A collection released the items that are due, the earliest first, and kept the others. -/
structure Releases (before : Multiset (QueueItem T P)) (now : P) (ls : List (QueueItem T P))
    (after : Multiset (QueueItem T P)) : Prop where
  released : (ls : Multiset (QueueItem T P)) = before.filter (·.priority < now)
  kept : after = before.filter fun x => ¬x.priority < now
  ordered : ls.Pairwise (·.priority ≤ ·.priority)

/-- The collectors return what should be released, and `delayed_available` says whether it is
anything. -/
structure Collects (q : GeneralPqueue Q) (now : P) : Prop where
  node : ∃ ls q', q.addDelayedTuples now = .ok (ls, q') ∧ Releases q.contents now ls q'.contents
  scheduler : ∃ ls q', q.checkDelayedQueue now = .ok (ls, q') ∧
    Releases q.contents now ls q'.contents
  available : ∃ b, q.delayedAvailable now = .ok b ∧ (b = true ↔ ∃ x ∈ q.contents, x.priority < now)

/-! ### What is released -/

section

variable {q : GeneralPqueue Q} {now : P}

theorem empty_iff : q.empty = true ↔ q.contents = 0 := by
  rw [empty, Option.isNone_iff_eq_none, Q.top_eq_none]
  rfl

/-- The first item has the latest due time. -/
theorem exists_top (h : q.contents ≠ 0) :
    ∃ x, Q.top q.data = some x ∧ x ∈ q.contents ∧ ∀ y ∈ q.contents, y.priority ≤ x.priority := by
  have htop : Q.top q.data ≠ none := fun hnone => h ((Q.top_eq_none _).mp hnone)
  obtain ⟨x, hx⟩ := Option.ne_none_iff_exists'.mp htop
  refine ⟨x, hx, ?_, fun y hy => ?_⟩
  · rw [contents, ← Q.contents_pop _ x hx]
    exact Multiset.mem_cons_self x _
  · exact not_lt.mp (of_decide_eq_false (Q.top_max _ x hx y hy))

theorem releaseStep_of_empty {ls : List (QueueItem T P)} (h : q.contents = 0) :
    releaseStep now (ls, q) = .ok (.inr (ls, q)) := by
  simp only [releaseStep, empty_iff.mpr h, if_true, pure_eq_ok]

theorem releaseStep_of_top {ls : List (QueueItem T P)} {x : QueueItem T P}
    (hx : Q.top q.data = some x) :
    releaseStep now (ls, q) =
      if x.priority < now then .ok (.inl (ls ++ [x], ⟨Q.pop q.data⟩)) else .ok (.inr (ls, q)) := by
  simp [releaseStep, empty, topPriority, pop, hx]

/-- When an item is not due, nothing is released. -/
theorem release_of_not_due {x : QueueItem T P} (hx : x ∈ q.contents) (hdue : ¬x.priority < now) :
    q.addDelayedTuples now = .ok ([], q) := by
  have hne : q.contents ≠ 0 := fun h => Multiset.notMem_zero x (h ▸ hx)
  obtain ⟨top, htop, -, hmax⟩ := exists_top hne
  have hlate : ¬top.priority < now := fun hlt => hdue (lt_of_le_of_lt (hmax x hx) hlt)
  rw [addDelayedTuples, iterate, releaseStep_of_top htop, if_neg hlate]
  rfl

/-- When all items are due, all are released, the latest first. -/
theorem release_of_due (hdue : ∀ x ∈ q.contents, x.priority < now) :
    ∃ ls q', q.addDelayedTuples now = .ok (ls, q') ∧ (ls : Multiset _) = q.contents ∧
      q'.contents = 0 ∧ ls.Pairwise (·.priority ≥ ·.priority) := by
  have key : ∃ r, q.addDelayedTuples now = .ok r ∧ (r.1 : Multiset _) = q.contents ∧
      r.2.contents = 0 ∧ r.1.Pairwise (·.priority ≥ ·.priority) := by
    refine iterate_of_variant
      (fun s : List (QueueItem T P) × GeneralPqueue Q =>
        (s.1 : Multiset _) + s.2.contents = q.contents ∧ s.1.Pairwise (·.priority ≥ ·.priority) ∧
          ∀ x ∈ s.1, ∀ y ∈ s.2.contents, y.priority ≤ x.priority)
      _ (fun s => s.2.contents.card) ?_ ⟨Multiset.zero_add _, .nil, List.forall_mem_nil _⟩
      (Nat.lt_succ_self _)
    rintro ⟨ls, q'⟩ ⟨hall, hsorted, hbelow⟩
    by_cases hempty : q'.contents = 0
    · refine .inr ⟨(ls, q'), releaseStep_of_empty hempty, ?_, hempty, hsorted⟩
      rw [← hall, hempty, Multiset.add_zero]
    · obtain ⟨x, htop, hx, hmax⟩ := exists_top hempty
      have hpop : x ::ₘ (⟨Q.pop q'.data⟩ : GeneralPqueue Q).contents = q'.contents :=
        Q.contents_pop _ x htop
      have hlt : x.priority < now := hdue x (hall ▸ Multiset.mem_add.mpr (.inr hx))
      refine .inl ⟨(ls ++ [x], ⟨Q.pop q'.data⟩), ?_, ⟨?_, ?_, ?_⟩, ?_⟩
      · rw [releaseStep_of_top htop, if_pos hlt]
      · rw [← hall, ← hpop, ← Multiset.coe_add, Multiset.add_assoc]
        rfl
      · rw [List.pairwise_append]
        refine ⟨hsorted, List.pairwise_singleton _ x, fun y hy z hz => ?_⟩
        rcases List.mem_singleton.mp hz with rfl
        exact hbelow y hy z hx
      · intro y hy z hz
        have hrest : z ∈ q'.contents := hpop ▸ Multiset.mem_cons_of_mem hz
        rcases List.mem_append.mp hy with hy | hy
        · exact hbelow y hy z hrest
        · rcases List.mem_singleton.mp hy with rfl
          exact hmax z hrest
      · change Multiset.card _ < q'.contents.card
        rw [← hpop, Multiset.card_cons]
        exact Nat.lt_succ_self _
  obtain ⟨⟨ls, q'⟩, hrun, hpost⟩ := key
  exact ⟨ls, q', hrun, hpost⟩

/-- `delayed_available` says whether the item with the latest due time is due. -/
theorem delayedAvailable_spec (q : GeneralPqueue Q) (now : P) :
    ∃ b, q.delayedAvailable now = .ok b ∧
      (b = true ↔ q.contents ≠ 0 ∧ ∀ x ∈ q.contents, x.priority < now) := by
  by_cases hempty : q.contents = 0
  · refine ⟨false, ?_, by simp [hempty]⟩
    simp only [delayedAvailable, empty_iff.mpr hempty, if_true, pure_eq_ok]
  · obtain ⟨x, htop, hx, hmax⟩ := exists_top hempty
    refine ⟨decide (x.priority < now), by simp [delayedAvailable, empty, topPriority, htop], ?_⟩
    rw [decide_eq_true_iff, and_iff_right hempty]
    exact ⟨fun hlt y hy => lt_of_le_of_lt (hmax y hy) hlt, fun hdue => hdue x hx⟩

/-- What the collectors release is what should be released when all items are due and have one due
time. -/
theorem releases_iff_of_due (hdue : ∀ x ∈ q.contents, x.priority < now)
    {ls : List (QueueItem T P)} {after : Multiset (QueueItem T P)}
    (hall : (ls : Multiset _) = q.contents) (hnone : after = 0)
    (hsorted : ls.Pairwise (·.priority ≥ ·.priority)) :
    Releases q.contents now ls after ↔
      ∀ x ∈ q.contents, ∀ y ∈ q.contents, y.priority = x.priority := by
  have hmem : ∀ x, x ∈ q.contents ↔ x ∈ ls := fun x => by rw [← hall, Multiset.mem_coe]
  constructor
  · intro h x hx y hy
    have heq : ls.Pairwise fun x y => y.priority = x.priority :=
      (h.ordered.and hsorted).imp fun hxy => le_antisymm hxy.2 hxy.1
    exact List.Pairwise.forall_of_forall_of_flip
      (R := fun x y : QueueItem T P => y.priority = x.priority) (fun _ _ => rfl) heq
      (heq.imp fun h => Eq.symm h) ((hmem x).mp hx) ((hmem y).mp hy)
  · intro h
    refine ⟨?_, ?_, hsorted.imp_of_mem fun hx hy _ => ?_⟩
    · rw [Multiset.filter_eq_self.mpr hdue, hall]
    · rw [hnone, eq_comm, Multiset.filter_eq_nil]
      exact fun x hx => not_not_intro (hdue x hx)
    · exact (h _ ((hmem _).mpr hy) _ ((hmem _).mpr hx)).le

/-- The collectors return what should be released if and only if no item is due, or all items are
due and have one due time. -/
theorem collects_iff (q : GeneralPqueue Q) (now : P) :
    q.Collects now ↔
      (∀ x ∈ q.contents, ¬x.priority < now) ∨
        ∀ x ∈ q.contents, x.priority < now ∧ ∀ y ∈ q.contents, y.priority = x.priority := by
  obtain ⟨b, hb, hbtrue⟩ := delayedAvailable_spec q now
  by_cases hdue : ∀ x ∈ q.contents, x.priority < now
  · obtain ⟨ls, q', hrun, hall, hnone, hsorted⟩ := release_of_due hdue
    have hreleases := releases_iff_of_due hdue hall hnone hsorted
    constructor
    · intro h
      obtain ⟨ls', q'', hrun', h⟩ := h.node
      cases hrun.symm.trans hrun'
      exact .inr fun x hx => ⟨hdue x hx, hreleases.mp h x hx⟩
    · intro h
      have hone : ∀ x ∈ q.contents, ∀ y ∈ q.contents, y.priority = x.priority := by
        rcases h with h | h
        · exact fun x hx => absurd (hdue x hx) (h x hx)
        · exact fun x hx => (h x hx).2
      refine ⟨⟨ls, q', hrun, hreleases.mpr hone⟩, ⟨ls, q', hrun, hreleases.mpr hone⟩, b, hb, ?_⟩
      rw [hbtrue]
      constructor
      · rintro ⟨hne, -⟩
        obtain ⟨x, hx⟩ := Multiset.exists_mem_of_ne_zero hne
        exact ⟨x, hx, hdue x hx⟩
      · rintro ⟨x, hx, -⟩
        exact ⟨fun h => Multiset.notMem_zero x (h ▸ hx), hdue⟩
  · simp only [not_forall] at hdue
    obtain ⟨x, hx, hlate⟩ := hdue
    have hrun := release_of_not_due hx hlate
    constructor
    · intro h
      obtain ⟨ls, q', hrun', h⟩ := h.node
      cases hrun.symm.trans hrun'
      exact .inl (Multiset.filter_eq_nil.mp h.released.symm)
    · intro h
      have hnone : ∀ y ∈ q.contents, ¬y.priority < now := by
        rcases h with h | h
        · exact h
        · exact absurd (h x hx).1 hlate
      have hreleases : Releases q.contents now [] q.contents :=
        ⟨(Multiset.filter_eq_nil.mpr hnone).symm, (Multiset.filter_eq_self.mpr hnone).symm, .nil⟩
      refine ⟨⟨[], q, hrun, hreleases⟩, ⟨[], q, hrun, hreleases⟩, b, hb, ?_⟩
      rw [hbtrue]
      refine iff_of_false (fun h => hlate (h.2 x hx)) ?_
      rintro ⟨y, hy, hlt⟩
      exact hnone y hy hlt

end

end GeneralPqueue

/-! ### A heap -/

/-- A heap of items with times, as a list with the latest first. -/
def listHeap (T P : Type) [LinearOrder P] : StdPriorityQueue (QueueItem T P) queueItemComparator where
  Heap := { l : List (QueueItem T P) // l.Pairwise (·.priority ≥ ·.priority) }
  contents h := h.1
  new := ⟨[], .nil⟩
  push h x := ⟨h.1.orderedInsert (·.priority ≥ ·.priority) x, by
    have : Std.Total fun a b : QueueItem T P => a.priority ≥ b.priority :=
      ⟨fun a b => le_total b.priority a.priority⟩
    have : IsTrans (QueueItem T P) fun a b => a.priority ≥ b.priority :=
      ⟨fun _ _ _ hab hbc => le_trans hbc hab⟩
    exact h.2.orderedInsert x h.1⟩
  top h := h.1.head?
  pop h := ⟨h.1.tail, h.2.tail⟩
  contents_new := rfl
  contents_push h x := Multiset.coe_eq_coe.mpr (List.perm_orderedInsert _ x h.1)
  top_eq_none h := List.head?_eq_none_iff.trans (Multiset.coe_eq_zero h.1).symm
  top_max h x hx y hy := by
    obtain ⟨l, hl⟩ := h
    cases l with
    | nil => cases hx
    | cons z l =>
      cases hx
      rw [queueItemComparator, decide_eq_false_iff_not, not_lt]
      rcases List.mem_cons.mp hy with rfl | hy
      · exact le_rfl
      · exact List.rel_of_pairwise_cons hl hy
  contents_pop h x hx := by
    obtain ⟨l, hl⟩ := h
    cases l with
    | nil => cases hx
    | cons z l =>
      cases hx
      rfl

/-- One fact is due, but another with a later due time comes before it. -/
theorem not_collects :
    ∃ (q : GeneralPqueue (listHeap ℕ (Fin (2 ^ 64)))) (now : Fin (2 ^ 64)),
      q = (GeneralPqueue.push ⟨(listHeap ℕ (Fin (2 ^ 64))).new⟩ 1 10).push 2 100 ∧
        ¬q.Collects now := by
  refine ⟨_, 50, rfl, fun h => ?_⟩
  obtain ⟨b, hb, hdue⟩ := h.available
  cases hb
  have hmem : (⟨1, 10⟩ : QueueItem ℕ (Fin (2 ^ 64))) ∈
      ((GeneralPqueue.push ⟨(listHeap ℕ (Fin (2 ^ 64))).new⟩ 1 10).push 2 100).contents :=
    Multiset.mem_coe.mpr (List.mem_cons_of_mem _ List.mem_cons_self)
  exact absurd (hdue.mpr ⟨_, hmem, by decide⟩) (by decide)

end Meld.Queue
