import Meld.Queue.BoundedBins
import Meld.Queue.ComplexRuns
import Meld.Thread.Prio

/-!
# No node is lost by the priority scheduler

Every node is at one of four places: it is idle, it is the current node, it waits in the normal
queue, or it is in the priority queue. `Settled` says what the fields of a node are at its place,
and `Inv` that the two queues and the current node are those of the places. An operation moves one
node, or two when the current node is replaced, and leaves the others as they are.
-/

namespace Meld.Thread

open Lib Queue Vm

variable {C T : Type} [LawfulBin C T]

/-! ### Doubles -/

section

variable {x y : UInt64}

theorem floatLt_irrefl (x : UInt64) : floatLt x x = false := by simp [floatLt]

theorem not_isNaN_of_floatLt (h : floatLt x y = true) : isNaN y = false := by
  simp only [floatLt, Bool.and_eq_true, Bool.not_eq_true'] at h
  exact h.1.2

/-- A double that is not below zero and not zero is positive. -/
theorem floatLt_zero (hle : floatLe 0 x = true) (hne : floatEq x 0 = false) :
    floatLt 0 x = true := by
  simp only [floatLe, Bool.and_eq_true, Bool.not_eq_true', decide_eq_true_eq] at hle
  obtain ⟨⟨hzero, hx⟩, hkey⟩ := hle
  simp only [floatLt, hzero, hx, Bool.not_false, Bool.true_and, decide_eq_true_eq]
  refine lt_of_le_of_ne hkey fun he => ?_
  have hbits : isZero x = true := by
    have hkey0 : floatKey 0 = 0 := by decide
    rw [hkey0, floatKey] at he
    have hlt := x.toNat_lt
    simp only [isZero, beq_iff_eq]
    split_ifs at he <;> omega
  have hzero' : isZero 0 = true := by decide
  simp [floatEq, hzero, hx, hbits, hzero'] at hne

end

/-! ### The facts of a node -/

/-- The queue holds facts of the levels below `range`. -/
def Facts (range : ℕ) (q : BoundedPqueue C) : Prop :=
  ∃ t items, Represents q t items ∧ range ≤ t.leaves.length

/-- The node has facts: an iteration over its queue visits some. -/
def ThreadsPrio.Pending (s : ThreadsPrio C) (node : ℕ) : Prop :=
  ∃ facts : List T, (s.queue node).elements = .ok facts ∧ facts ≠ []

section

variable {range level : ℕ} {q : BoundedPqueue C}

theorem Facts.new (h : 0 < range) :
    ∃ q : BoundedPqueue C, BoundedPqueue.new range = .ok q ∧ Facts range q ∧ q.isEmpty = true := by
  obtain ⟨q, t, hrun, hq, hle⟩ := Represents.new (C := C) h
  refine ⟨q, hrun, ⟨t, _, hq, hle⟩, ?_⟩
  rw [BoundedPqueue.isEmpty, hq.total]
  simp [AddrTree.sum]

theorem Facts.push (h : Facts range q) (tuple : T) (hlevel : level < range) :
    ∃ q', q.push tuple level = .ok q' ∧ Facts range q' ∧ q'.isEmpty = false := by
  obtain ⟨t, items, hq, hle⟩ := h
  have hlt : level < t.leaves.length := by omega
  have ha : t.leaves[level]? = some t.leaves[level] := List.getElem?_eq_getElem hlt
  obtain ⟨q', hrun, hq'⟩ := hq.push ha tuple
  refine ⟨q', hrun, ⟨t, _, hq', hle⟩, ?_⟩
  have hsize := t.size_le_sum
    (fun a => (Function.update items t.leaves[level] (items t.leaves[level] ++ [tuple]) a).length)
    (List.getElem_mem hlt)
  simp only [Function.update_self, List.length_append, List.length_singleton] at hsize
  rw [← hq'.total] at hsize
  simp only [BoundedPqueue.isEmpty, beq_eq_false_iff_ne]
  omega

theorem Facts.topList (h : Facts range q) :
    ∃ q' ls, q.topList [] = .ok (q', ls) ∧ Facts range q' := by
  obtain ⟨t, items, hq, hle⟩ := h
  rcases Nat.eq_zero_or_pos q.total with hzero | hpos
  · refine ⟨q, [], ?_, t, items, hq, hle⟩
    simp [BoundedPqueue.topList, BoundedPqueue.isEmpty, hzero]
  · obtain ⟨xs, a, ys, q', -, -, -, hrun, hq'⟩ := hq.topList hpos
    exact ⟨q', items a, hrun, t, _, hq', hle⟩

/-- `has_work` says whether there are facts. -/
theorem Facts.pending_iff {s : ThreadsPrio C} {a : ℕ} (h : Facts range (s.queue a)) :
    s.Pending a ↔ s.nodeHasWork a = true := by
  obtain ⟨t, items, hq, -⟩ := h
  have hlen : (t.leaves.flatMap items).length = (s.queue a).total := by
    rw [hq.total, List.length_flatMap]
    rfl
  simp only [ThreadsPrio.Pending, hq.elements, Except.ok.injEq, exists_eq_left',
    ThreadsPrio.nodeHasWork, BoundedPqueue.isEmpty, Bool.not_eq_true', beq_eq_false_iff_ne]
  rw [← hlen, ne_eq, ne_eq, List.length_eq_zero_iff]

end

/-! ### Places -/

/-- The program's priorities are doubles, the nodes of the thread are different and their number is
an `int`, as the program's number of nodes is, and `init` is a fact of one of the levels. -/
structure PrioSetup.WellFormed (p : PrioSetup T) : Prop where
  float : p.priorityType = .floatAsc ∨ p.priorityType = .floatDesc
  nodup : p.nodes.Nodup
  count : (p.nodes.length : ℤ) ≤ maxInt
  level : p.initLevel < p.maxStratLevel

/-- Where a node is. -/
inductive Place
  | idle
  | current
  | waiting
  | prio
  deriving DecidableEq

namespace ThreadsPrio

variable {p : PrioSetup T} {s s' : ThreadsPrio C} {place : ℕ → Place} {xs : List ℕ} {a b : ℕ}
  {pl : Place}

/-- The fields of a node are those of its place. -/
structure Settled (p : PrioSetup T) (s : ThreadsPrio C) (a : ℕ) (pl : Place) : Prop where
  flagged : s.inQueue a = true ↔ pl ≠ .idle
  idle : pl = .idle → s.nodeHasWork a = false
  work : pl = .waiting ∨ pl = .prio → s.nodeHasWork a = true
  waiting : pl = .waiting → s.hasPriorityLevel a = false
  prio : pl = .prio → s.hasPriorityLevel a = true ∧ s.prioQueue.priority a = s.priorityLevel a
  facts : Facts p.maxStratLevel (s.queue a)
  still : s.movingAround a = false

/-- The two queues and the current node are those of the places. -/
structure Whereabouts (p : PrioSetup T) (prioQueue : ComplexPqueue) (queueNodes : IntrusiveQueue)
    (current : Option ℕ) (place : ℕ → Place) (xs : List ℕ) : Prop where
  typ : prioQueue.typ = p.priorityType
  deque : IntrusiveQueue.IntrusiveDeque queueNodes xs
  heap : prioQueue.Inv
  waiting : ∀ a, a ∈ xs ↔ place a = .waiting
  prio : ∀ a, a ∈ prioQueue.heap ↔ place a = .prio
  current : ∀ a, current = some a ↔ place a = .current
  known : ∀ a, place a ≠ .idle → a ∈ p.nodes

/-- Every node is at its place. -/
structure Inv (p : PrioSetup T) (s : ThreadsPrio C) (place : ℕ → Place) (xs : List ℕ) : Prop where
  typ : s.priorityType = p.priorityType
  whereabouts : Whereabouts p s.prioQueue s.queueNodes s.currentNode place xs
  settled : ∀ a, Settled p s a (place a)

/-- A node whose fields have not changed is settled as before. -/
theorem Settled.congr (h : Settled p s a pl) (htyp : s'.priorityType = s.priorityType)
    (hflag : s'.inQueue a = s.inQueue a) (hlevel : s'.priorityLevel a = s.priorityLevel a)
    (hmoving : s'.movingAround a = s.movingAround a) (hqueue : s'.queue a = s.queue a)
    (hprio : s'.prioQueue.priority a = s.prioQueue.priority a) : Settled p s' a pl where
  flagged := hflag ▸ h.flagged
  idle hpl := by rw [nodeHasWork, hqueue]; exact h.idle hpl
  work hpl := by rw [nodeHasWork, hqueue]; exact h.work hpl
  waiting hpl := by rw [hasPriorityLevel, htyp, hlevel]; exact h.waiting hpl
  prio hpl := by rw [hasPriorityLevel, htyp, hlevel, hprio]; exact h.prio hpl
  facts := hqueue ▸ h.facts
  still := hmoving ▸ h.still

/-- One node has changed its place. -/
theorem Inv.of_update (htyp : s.priorityType = p.priorityType)
    (hw : Whereabouts p s.prioQueue s.queueNodes s.currentNode (Function.update place a pl) xs)
    (hothers : ∀ b, b ≠ a → Settled p s b (place b)) (ha : Settled p s a pl) :
    Inv p s (Function.update place a pl) xs := by
  refine ⟨htyp, hw, fun b => ?_⟩
  rcases eq_or_ne b a with rfl | hne
  · rw [Function.update_self]
    exact ha
  · rw [Function.update_of_ne hne]
    exact hothers b hne

/-! ### Entering and leaving the queues -/

namespace Whereabouts

variable {q : ComplexPqueue} {nodes : IntrusiveQueue} {cur : Option ℕ}

/-- The nodes of the priority queue are not more than fit into it. -/
theorem heap_length (h : Whereabouts p q nodes cur place xs) (hp : p.WellFormed) :
    (q.heap.length : ℤ) ≤ maxInt := by
  have hnodes : ∀ a ∈ q.heap, a ∈ p.nodes := fun a ha =>
    h.known a (by rw [(h.prio a).mp ha]; nofun)
  have hle : q.heap.length ≤ p.nodes.length := (h.heap.placed.nodup.subperm hnodes).length_le
  have hcount := hp.count
  omega

/-- The places after one node went to another place: where the lists have it, the other places are
as before. -/
private theorem mem_update_iff {l l' : List ℕ} {target : Place}
    (hl : ∀ b, b ∈ l ↔ place b = target) (hothers : ∀ b, b ≠ a → (b ∈ l' ↔ b ∈ l))
    (ha : a ∈ l' ↔ pl = target) (b : ℕ) : b ∈ l' ↔ Function.update place a pl b = target := by
  rcases eq_or_ne b a with rfl | hne
  · rw [Function.update_self, ha]
  · rw [Function.update_of_ne hne, hothers b hne, hl]

private theorem current_update_iff (hcur : ∀ b, cur = some b ↔ place b = .current)
    (ha : place a ≠ .current) (hpl : pl ≠ .current) (b : ℕ) :
    cur = some b ↔ Function.update place a pl b = .current := by
  rcases eq_or_ne b a with rfl | hne
  · rw [Function.update_self, hcur]
    exact iff_of_false ha hpl
  · rw [Function.update_of_ne hne, hcur]

private theorem known_update (hknown : ∀ b, place b ≠ .idle → b ∈ p.nodes)
    (ha : pl ≠ .idle → a ∈ p.nodes) (b : ℕ) (hb : Function.update place a pl b ≠ .idle) :
    b ∈ p.nodes := by
  rcases eq_or_ne b a with rfl | hne
  · rw [Function.update_self] at hb
    exact ha hb
  · rw [Function.update_of_ne hne] at hb
    exact hknown b hb

theorem enterPrio (h : Whereabouts p q nodes cur place xs) (hp : p.WellFormed)
    (ha : place a = .idle) (hknown : a ∈ p.nodes) {x : UInt64} (hx : floatLt 0 x = true) :
    ∃ q', q.insert a ⟨x⟩ = .ok q' ∧ q'.priority = Function.update q.priority a ⟨x⟩ ∧
      Whereabouts p q' nodes cur (Function.update place a .prio) xs := by
  have hmem : a ∉ q.heap := fun hm => by rw [(h.prio a).mp hm] at ha; cases ha
  obtain ⟨q', hrun, hinv, htyp, hprio, hperm⟩ := h.heap.insert (h.heap_length hp) hmem
    (.inr (.inr (not_isNaN_of_floatLt hx)) : q.typ.Comparable ⟨x⟩)
  refine ⟨q', hrun, hprio, ⟨htyp.trans h.typ, h.deque, hinv, ?_, ?_, ?_, ?_⟩⟩
  · refine mem_update_iff h.waiting (fun _ _ => Iff.rfl) ?_
    rw [h.waiting, ha]
    exact iff_of_false nofun nofun
  · refine mem_update_iff h.prio (fun b hb => ?_) ?_
    · rw [hperm.mem_iff, List.mem_cons, or_iff_right hb]
    · rw [hperm.mem_iff]
      simp
  · exact current_update_iff h.current (by rw [ha]; nofun) nofun
  · exact known_update h.known fun _ => hknown

theorem enterWaiting (h : Whereabouts p q nodes cur place xs) (ha : place a = .idle)
    (hknown : a ∈ p.nodes) :
    ∃ nodes', nodes.pushTailNode a = .ok nodes' ∧
      Whereabouts p q nodes' cur (Function.update place a .waiting) (xs ++ [a]) := by
  have hmem : a ∉ xs := fun hm => by rw [(h.waiting a).mp hm] at ha; cases ha
  obtain ⟨nodes', hrun, hdeque⟩ := h.deque.push hmem
  refine ⟨nodes', hrun, ⟨h.typ, hdeque, h.heap, ?_, ?_, ?_, ?_⟩⟩
  · refine mem_update_iff h.waiting (fun b hb => ?_) (by simp)
    simp [hb]
  · refine mem_update_iff h.prio (fun _ _ => Iff.rfl) ?_
    rw [h.prio, ha]
    exact iff_of_false nofun nofun
  · exact current_update_iff h.current (by rw [ha]; nofun) nofun
  · exact known_update h.known fun _ => hknown

/-- A node has left the priority queue. -/
theorem ofLeftPrio (h : Whereabouts p q nodes cur place xs) {q' : ComplexPqueue} (hinv : q'.Inv)
    (htyp : q'.typ = q.typ) (hperm : (a :: q'.heap).Perm q.heap) :
    Whereabouts p q' nodes cur (Function.update place a .idle) xs := by
  have ha : place a = .prio := (h.prio a).mp (hperm.mem_iff.mp List.mem_cons_self)
  have hnot : a ∉ q'.heap :=
    (List.nodup_cons.mp (hperm.nodup_iff.mpr h.heap.placed.nodup)).1
  refine ⟨htyp.trans h.typ, h.deque, hinv, ?_, ?_, ?_, ?_⟩
  · refine mem_update_iff h.waiting (fun _ _ => Iff.rfl) ?_
    rw [h.waiting, ha]
    exact iff_of_false nofun nofun
  · refine mem_update_iff h.prio (fun b hb => ?_) (iff_of_false hnot nofun)
    rw [← hperm.mem_iff, List.mem_cons, or_iff_right hb]
  · exact current_update_iff h.current (by rw [ha]; nofun) nofun
  · exact known_update h.known nofun

theorem leavePrio (h : Whereabouts p q nodes cur place xs) (hp : p.WellFormed)
    (ha : place a = .prio) :
    ∃ q', q.remove a = .ok q' ∧ q'.priority = q.priority ∧
      Whereabouts p q' nodes cur (Function.update place a .idle) xs := by
  have hsize := h.heap_length hp
  obtain ⟨q', hrun, hinv, htyp, hprio, hperm⟩ :=
    h.heap.remove (by omega) ((h.prio a).mpr ha)
  exact ⟨q', hrun, hprio, h.ofLeftPrio hinv htyp hperm⟩

/-- The node that leaves the priority queue has the best priority. -/
theorem popPrio (h : Whereabouts p q nodes cur place xs) (hp : p.WellFormed)
    (hne : q.heap ≠ []) :
    ∃ q' a, q.pop = .ok (q', some a) ∧ a ∈ q.heap ∧ q'.priority = q.priority ∧
      (∀ b ∈ q.heap, heapCompare q.typ (q.priority a) (q.priority b) = true) ∧
      Whereabouts p q' nodes cur (Function.update place a .idle) xs := by
  have hsize := h.heap_length hp
  obtain ⟨q', a, hrun, hinv, htyp, hprio, hperm, hbest⟩ := h.heap.pop (by omega) hne
  exact ⟨q', a, hrun, hperm.mem_iff.mp List.mem_cons_self, hprio, hbest,
    h.ofLeftPrio hinv htyp hperm⟩

/-- A node has left the normal queue. -/
theorem ofLeftWaiting (h : Whereabouts p q nodes cur place xs) {nodes' : IntrusiveQueue}
    (ha : a ∈ xs) (hdeque : IntrusiveQueue.IntrusiveDeque nodes' (xs.erase a)) :
    Whereabouts p q nodes' cur (Function.update place a .idle) (xs.erase a) := by
  have hpl : place a = .waiting := (h.waiting a).mp ha
  refine ⟨h.typ, hdeque, h.heap, ?_, ?_, ?_, ?_⟩
  · refine mem_update_iff h.waiting (fun b hb => ?_) (iff_of_false ?_ nofun)
    · rw [List.mem_erase_of_ne hb]
    · rw [h.deque.nodup.mem_erase_iff]
      exact fun hm => hm.1 rfl
  · refine mem_update_iff h.prio (fun _ _ => Iff.rfl) ?_
    rw [h.prio, hpl]
    exact iff_of_false nofun nofun
  · exact current_update_iff h.current (by rw [hpl]; nofun) nofun
  · exact known_update h.known nofun

theorem leaveWaiting (h : Whereabouts p q nodes cur place xs) (ha : place a = .waiting) :
    ∃ nodes', nodes.remove a = .ok nodes' ∧
      Whereabouts p q nodes' cur (Function.update place a .idle) (xs.erase a) := by
  have hmem := (h.waiting a).mpr ha
  obtain ⟨nodes', hrun, hdeque⟩ := h.deque.remove hmem
  exact ⟨nodes', hrun, h.ofLeftWaiting hmem hdeque⟩

theorem popWaiting (h : Whereabouts p q nodes cur place (a :: xs)) :
    ∃ nodes', nodes.pop = .ok (nodes', some a) ∧
      Whereabouts p q nodes' cur (Function.update place a .idle) xs := by
  obtain ⟨nodes', hrun, hdeque⟩ := h.deque.pop
  have herase : IntrusiveQueue.IntrusiveDeque nodes' ((a :: xs).erase a) := by
    rw [List.erase_cons_head]
    exact hdeque
  have hleft := h.ofLeftWaiting List.mem_cons_self herase
  rw [List.erase_cons_head] at hleft
  exact ⟨nodes', hrun, hleft⟩

/-- An idle node becomes the current one. -/
theorem setCurrent (h : Whereabouts p q nodes none place xs) (ha : place a = .idle)
    (hknown : a ∈ p.nodes) :
    Whereabouts p q nodes (some a) (Function.update place a .current) xs := by
  refine ⟨h.typ, h.deque, h.heap, ?_, ?_, fun b => ?_, known_update h.known fun _ => hknown⟩
  · refine mem_update_iff h.waiting (fun _ _ => Iff.rfl) ?_
    rw [h.waiting, ha]
    exact iff_of_false nofun nofun
  · refine mem_update_iff h.prio (fun _ _ => Iff.rfl) ?_
    rw [h.prio, ha]
    exact iff_of_false nofun nofun
  · rcases eq_or_ne b a with rfl | hne
    · rw [Function.update_self]
      exact iff_of_true rfl rfl
    · rw [Function.update_of_ne hne, ← h.current, Option.some.injEq]
      exact iff_of_false (Ne.symm hne) nofun

/-- The current node becomes idle. -/
theorem clearCurrent (h : Whereabouts p q nodes (some a) place xs) :
    Whereabouts p q nodes none (Function.update place a .idle) xs := by
  have ha : place a = .current := (h.current a).mp rfl
  refine ⟨h.typ, h.deque, h.heap, ?_, ?_, fun b => ?_, known_update h.known nofun⟩
  · refine mem_update_iff h.waiting (fun _ _ => Iff.rfl) ?_
    rw [h.waiting, ha]
    exact iff_of_false nofun nofun
  · refine mem_update_iff h.prio (fun _ _ => Iff.rfl) ?_
    rw [h.prio, ha]
    exact iff_of_false nofun nofun
  · rcases eq_or_ne b a with rfl | hne
    · rw [Function.update_self]
      exact iff_of_false nofun nofun
    · rw [Function.update_of_ne hne, ← h.current, Option.some.injEq]
      exact iff_of_false nofun (Ne.symm hne)

end Whereabouts

/-! ### Places and fields -/

theorem Inv.hasPriorityLevel_eq (h : Inv p s place xs) (hp : p.WellFormed) (a : ℕ) :
    s.hasPriorityLevel a = floatLt 0 (s.priorityLevel a).floatPriority := by
  rw [hasPriorityLevel, h.typ]
  rcases hp.float with htyp | htyp <;> rw [htyp]

theorem Inv.idle_iff (h : Inv p s place xs) (a : ℕ) : s.inQueue a = false ↔ place a = .idle := by
  rw [← Bool.not_eq_true, (h.settled a).flagged, not_not]

/-! ### Facts for a node -/

/-- A node that is set into a queue, its flag having been set, goes to the one of its level. -/
theorem addToQueue_spec (hp : p.WellFormed) (htyp : s.priorityType = p.priorityType)
    (hw : Whereabouts p s.prioQueue s.queueNodes s.currentNode place xs)
    (hothers : ∀ b, b ≠ a → Settled p s b (place b)) (ha : place a = .idle)
    (hknown : a ∈ p.nodes) (hflag : s.inQueue a = true) (hwork : s.nodeHasWork a = true)
    (hfacts : Facts p.maxStratLevel (s.queue a)) (hstill : s.movingAround a = false) :
    ∃ s' pl xs', s.addToQueue a = .ok s' ∧ Inv p s' (Function.update place a pl) xs' ∧
      pl ≠ .idle ∧ s'.nodeHasWork a = true ∧ s'.owned = s.owned := by
  have hlevel : s.hasPriorityLevel a = floatLt 0 (s.priorityLevel a).floatPriority := by
    rw [hasPriorityLevel, htyp]
    rcases hp.float with htyp | htyp <;> rw [htyp]
  cases hpos : s.hasPriorityLevel a with
  | true =>
    obtain ⟨q', hrun, hprio, hw'⟩ := hw.enterPrio hp ha hknown (hlevel ▸ hpos)
    refine ⟨{ s with prioQueue := q' }, .prio, xs, ?_, .of_update htyp hw' (fun b hb => ?_) ?_,
      nofun, hwork, rfl⟩
    · simp only [addToQueue, hpos, if_true, addToPriorityQueue]
      rw [show s.priorityLevel a = ⟨(s.priorityLevel a).floatPriority⟩ from rfl, hrun]
      rfl
    · exact (hothers b hb).congr rfl rfl rfl rfl rfl (by simp [hprio, Function.update_of_ne hb])
    · exact ⟨iff_of_true hflag nofun, nofun, fun _ => hwork, nofun,
        fun _ => ⟨hpos, by simp [hprio, HeapPriority.floatPriority]⟩, hfacts, hstill⟩
  | false =>
    obtain ⟨nodes', hrun, hw'⟩ := hw.enterWaiting ha hknown
    refine ⟨{ s with queueNodes := nodes' }, .waiting, xs ++ [a], ?_,
      .of_update htyp hw' (fun b hb => ?_) ?_, nofun, hwork, rfl⟩
    · simp only [addToQueue, hpos, Bool.false_eq_true, if_false, hrun, ok_bind, pure_eq_ok]
    · exact (hothers b hb).congr rfl rfl rfl rfl rfl rfl
    · exact ⟨iff_of_true hflag nofun, nofun, fun _ => hwork, fun _ => hpos, nofun, hfacts, hstill⟩

/-- A fact for a node of the thread: the node is then current or in a queue. -/
theorem Inv.pushWork (h : Inv p s place xs) (hp : p.WellFormed) {w : NodeWork T}
    (hknown : w.node ∈ p.nodes) (hlevel : w.stratLevel < p.maxStratLevel) :
    ∃ s' pl xs', s.pushWork w = .ok s' ∧ Inv p s' (Function.update place w.node pl) xs' ∧
      pl ≠ .idle ∧ s'.nodeHasWork w.node = true ∧ s'.owned = s.owned := by
  have hset := h.settled w.node
  obtain ⟨q, hrun, hfacts, hne⟩ := hset.facts.push w.tuple hlevel
  have hadd : s.addWork w = .ok { s with queue := Function.update s.queue w.node q } := by
    rw [addWork, hrun]
    rfl
  have hwork : ∀ s' : ThreadsPrio C, s'.queue = Function.update s.queue w.node q →
      s'.nodeHasWork w.node = true := fun s' hs' => by
    rw [nodeHasWork, hs', Function.update_self, hne]
    rfl
  have hothers : ∀ s' : ThreadsPrio C, s'.priorityType = s.priorityType →
      s'.priorityLevel = s.priorityLevel → s'.movingAround = s.movingAround →
      s'.prioQueue = s.prioQueue → s'.queue = Function.update s.queue w.node q →
      (∀ b, b ≠ w.node → s'.inQueue b = s.inQueue b) →
      ∀ b, b ≠ w.node → Settled p s' b (place b) :=
    fun s' h₁ h₂ h₃ h₄ h₅ h₆ b hb => (h.settled b).congr h₁ (h₆ b hb) (by rw [h₂]) (by rw [h₃])
      (by rw [h₅, Function.update_of_ne hb]) (by rw [h₄])
  cases hflag : s.inQueue w.node with
  | true =>
    have hpl := hset.flagged.mp hflag
    refine ⟨{ s with queue := Function.update s.queue w.node q }, place w.node, xs, ?_, ?_, hpl,
      hwork _ rfl, rfl⟩
    · simp only [ThreadsPrio.pushWork, hadd, ok_bind, hflag, if_true, pure_eq_ok]
    · refine .of_update h.typ (by rw [Function.update_eq_self]; exact h.whereabouts)
        (hothers _ rfl rfl rfl rfl rfl fun _ _ => rfl) ?_
      exact ⟨hset.flagged, fun hidle => absurd hidle hpl, fun _ => hwork _ rfl, hset.waiting,
        hset.prio, by simp only [Function.update_self]; exact hfacts, hset.still⟩
  | false =>
    have hpl := (h.idle_iff _).mp hflag
    obtain ⟨s', pl, xs', hrun', hinv, hne', hwork', howned⟩ := addToQueue_spec (a := w.node)
      (s := { s with
        queue := Function.update s.queue w.node q
        inQueue := Function.update s.inQueue w.node true }) hp h.typ h.whereabouts
      (hothers _ rfl rfl rfl rfl rfl fun b hb => by simp [Function.update_of_ne hb]) hpl hknown
      (by simp) (hwork _ rfl) (by simp only [Function.update_self]; exact hfacts) hset.still
    refine ⟨s', pl, xs', ?_, hinv, hne', hwork', howned⟩
    simp only [ThreadsPrio.pushWork, hadd, ok_bind, hflag, Bool.false_eq_true, if_false, setInQueue]
    rw [assert_pos (by simp), ok_bind, pure_eq_ok, ok_bind]
    exact hrun'

/-! ### Priorities -/

/-- The fields of a node that are not about its priority are as before. -/
theorem Inv.others (h : Inv p s place xs) (a : ℕ) (htyp : s'.priorityType = s.priorityType)
    (hflag : s'.inQueue = s.inQueue) (hmoving : s'.movingAround = s.movingAround)
    (hqueue : s'.queue = s.queue) {level : HeapPriority}
    (hlevel : s'.priorityLevel = Function.update s.priorityLevel a level)
    (hprio : ∀ b, b ≠ a → s'.prioQueue.priority b = s.prioQueue.priority b) :
    ∀ b, b ≠ a → Settled p s' b (place b) := fun b hb =>
  (h.settled b).congr htyp (by rw [hflag]) (by rw [hlevel, Function.update_of_ne hb])
    (by rw [hmoving]) (by rw [hqueue]) (hprio b hb)

/-- The level of a node in no queue may be anything. -/
theorem Inv.setLevel (h : Inv p s place xs) (hpl : place a = .idle ∨ place a = .current)
    (level : HeapPriority) : Inv p (s.setPriorityLevel a level) place xs := by
  have hset := h.settled a
  rw [← Function.update_eq_self a place]
  refine .of_update h.typ (by rw [Function.update_eq_self]; exact h.whereabouts)
    (h.others a rfl rfl rfl rfl rfl fun _ _ => rfl) ?_
  refine ⟨hset.flagged, hset.idle, hset.work, fun hw => ?_, fun hw => ?_, hset.facts, hset.still⟩
  · rcases hpl with hpl | hpl <;> rw [hpl] at hw <;> cases hw
  · rcases hpl with hpl | hpl <;> rw [hpl] at hw <;> cases hw

/-- A node in the priority queue: its new priority puts it into the normal queue, moves it up or
changes nothing. -/
theorem Inv.setQueuedPriority (h : Inv p s place xs) (hp : p.WellFormed) (ha : place a = .prio)
    {x : UInt64} (hx : floatLe 0 x = true) :
    ∃ s' place' xs', s.setQueuedPriority a x = .ok s' ∧ Inv p s' place' xs' ∧
      s'.inQueue = s.inQueue ∧ s'.owned = s.owned := by
  have hset := h.settled a
  have hflag : s.inQueue a = true := hset.flagged.mpr (by simp [ha])
  have hknown := h.whereabouts.known a (by simp [ha])
  have hwork := hset.work (.inr ha)
  simp only [ThreadsPrio.setQueuedPriority]
  split_ifs with heq hzero
  · exact ⟨s, place, xs, rfl, h, rfl, rfl⟩
  · -- the node goes to the normal queue
    obtain ⟨q', hrun, hprio, hw⟩ := h.whereabouts.leavePrio hp ha
    obtain ⟨nodes', hrun', hw'⟩ := hw.enterWaiting (Function.update_self ..) hknown
    rw [Function.update_idem] at hw'
    refine ⟨{ s.setFloatPriorityLevel a 0 with prioQueue := q', queueNodes := nodes' }, _, _, ?_,
      .of_update h.typ hw' (h.others a rfl rfl rfl rfl rfl fun b _ => ?_) ?_, rfl, rfl⟩
    · simp only [setFloatPriorityLevel, setPriorityLevel, hrun, hrun', ok_bind, pure_eq_ok]
    · exact congrFun hprio b
    · refine ⟨iff_of_true hflag (by simp), by simp, fun _ => hwork, fun _ => ?_, by simp, hset.facts,
        hset.still⟩
      rcases hp.float with htyp | htyp <;>
        simp [hasPriorityLevel, h.typ, htyp, setFloatPriorityLevel, setPriorityLevel,
          HeapPriority.floatPriority, floatLt_irrefl]
  · have hpos : floatLt 0 x = true := floatLt_zero hx (Bool.not_eq_true _ ▸ hzero)
    rw [assert_pos hpos, ok_bind]
    -- the program's priorities are floats, so they can be compared
    obtain ⟨change, hchange⟩ : ∃ change,
        mustChange s.priorityType (s.priorityLevel a).floatPriority x = .ok change := by
      rw [h.typ]
      rcases hp.float with htyp | htyp <;> rw [htyp] <;> exact ⟨_, rfl⟩
    rw [hchange, ok_bind]
    cases change with
    | false => exact ⟨s, place, xs, rfl, h, rfl, rfl⟩
    | true =>
      obtain ⟨q', hrun, hprio, hw⟩ := h.whereabouts.leavePrio hp ha
      obtain ⟨q'', hrun', hprio', hw'⟩ := hw.enterPrio hp (Function.update_self ..) hknown hpos
      rw [Function.update_idem] at hw'
      refine ⟨{ s.setFloatPriorityLevel a x with prioQueue := q'' }, _, _, ?_,
        .of_update h.typ hw' (h.others a rfl rfl rfl rfl rfl fun b hb => ?_) ?_, rfl, rfl⟩
      · simp only [if_true, setFloatPriorityLevel, setPriorityLevel, hflag, assert_pos,
          ComplexPqueue.moveNode, hrun, hrun', ok_bind, pure_eq_ok]
      · simp only [hprio', hprio, Function.update_of_ne hb]
      · refine ⟨iff_of_true hflag (by simp), by simp, fun _ => hwork, by simp, fun _ => ⟨?_, ?_⟩,
          hset.facts, hset.still⟩
        · rcases hp.float with htyp | htyp <;>
            simp [hasPriorityLevel, h.typ, htyp, setFloatPriorityLevel, setPriorityLevel,
              HeapPriority.floatPriority, hpos]
        · simp [hprio', setFloatPriorityLevel, setPriorityLevel]

/-- A node in the normal queue goes to the priority queue when its new priority is positive. -/
theorem Inv.setWaitingPriority (h : Inv p s place xs) (hp : p.WellFormed)
    (ha : place a = .waiting) (x : UInt64) :
    ∃ s' place' xs', s.setWaitingPriority a x = .ok s' ∧ Inv p s' place' xs' ∧
      s'.inQueue = s.inQueue ∧ s'.owned = s.owned := by
  have hset := h.settled a
  have hflag : s.inQueue a = true := hset.flagged.mpr (by simp [ha])
  have hknown := h.whereabouts.known a (by simp [ha])
  have hwork := hset.work (.inl ha)
  have hnot : s.prioQueue.inPriorityQueue a = false := by
    rw [← Bool.not_eq_true, h.whereabouts.heap.flag, h.whereabouts.prio, ha]
    simp
  simp only [ThreadsPrio.setWaitingPriority]
  split_ifs with hpos
  · obtain ⟨nodes', hrun, hw⟩ := h.whereabouts.leaveWaiting ha
    obtain ⟨q', hrun', hprio, hw'⟩ := hw.enterPrio hp (Function.update_self ..) hknown hpos
    rw [Function.update_idem] at hw'
    refine ⟨{ s.setFloatPriorityLevel a x with prioQueue := q', queueNodes := nodes' }, _, _, ?_,
      .of_update h.typ hw' (h.others a rfl rfl rfl rfl rfl fun b hb => ?_) ?_, rfl, rfl⟩
    · simp only [setFloatPriorityLevel, setPriorityLevel, hrun, ok_bind, hnot, assert_pos,
        addToPriorityQueue, Function.update_self, hrun', pure_eq_ok]
    · simp only [hprio, Function.update_of_ne hb]
    · refine ⟨iff_of_true hflag (by simp), by simp, fun _ => hwork, by simp, fun _ => ⟨?_, ?_⟩,
        hset.facts, hset.still⟩
      · rcases hp.float with htyp | htyp <;>
          simp [hasPriorityLevel, h.typ, htyp, setFloatPriorityLevel, setPriorityLevel,
            HeapPriority.floatPriority, hpos]
      · simp [hprio, setFloatPriorityLevel, setPriorityLevel]
  · exact ⟨s, place, xs, rfl, h, rfl, rfl⟩

/-- A priority that is not below zero. -/
theorem Inv.setNodePriority (h : Inv p s place xs) (hp : p.WellFormed)
    (howned : s.owned a = true) {x : UInt64} (hx : floatLe 0 x = true) :
    ∃ s' place' xs', s.setNodePriority a x = .ok s' ∧ Inv p s' place' xs' ∧
      s'.owned = s.owned := by
  rw [ThreadsPrio.setNodePriority, assert_pos howned, ok_bind]
  split_ifs with hcur hqueued hprio
  · have hlevel := h.setLevel (.inr ((h.whereabouts.current a).mp hcur)) ⟨x⟩
    exact ⟨_, place, xs, rfl, ⟨hlevel.typ, hlevel.whereabouts,
      fun b => (hlevel.settled b).congr rfl rfl rfl rfl rfl rfl⟩, rfl⟩
  · rw [h.whereabouts.heap.flag, h.whereabouts.prio] at hprio
    obtain ⟨s', place', xs', hrun, hinv, hflag, hown⟩ := h.setQueuedPriority hp hprio hx
    have hflag' : s'.inQueue a = true := by rw [hflag]; exact hqueued.1
    refine ⟨s', place', xs', ?_, hinv, hown⟩
    simp only [hrun, ok_bind, hflag', assert_pos, pure_eq_ok]
  · have hwaiting : place a = .waiting := by
      have hidle := (h.settled a).flagged.mp hqueued.1
      rw [h.whereabouts.heap.flag, h.whereabouts.prio] at hprio
      rw [h.whereabouts.current] at hcur
      cases hpl : place a with
      | idle => exact absurd hpl hidle
      | current => exact absurd hpl hcur
      | waiting => rfl
      | prio => exact absurd hpl hprio
    obtain ⟨s', place', xs', hrun, hinv, hflag, hown⟩ := h.setWaitingPriority hp hwaiting x
    have hflag' : s'.inQueue a = true := by rw [hflag]; exact hqueued.1
    refine ⟨s', place', xs', ?_, hinv, hown⟩
    simp only [hrun, ok_bind, hflag', assert_pos, pure_eq_ok]
  · have hidle : place a = .idle := by
      rw [← h.idle_iff, ← Bool.not_eq_true]
      exact fun hflag => hqueued ⟨hflag, (h.settled a).still⟩
    exact ⟨_, place, xs, rfl, h.setLevel (.inl hidle) ⟨x⟩, rfl⟩

end ThreadsPrio

end Meld.Thread
