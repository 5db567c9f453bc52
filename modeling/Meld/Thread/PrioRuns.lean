import Meld.Thread.PrioInvariant

/-!
# The runs of the priority scheduler

`set_next_node` releases a current node without facts and takes the next one, of best priority when
there is one in the priority queue. With what the other operations do to the places of the nodes,
every state of a run after initialisation has all nodes accounted for (`scheduler_accounts`).
-/

namespace Meld.Thread

open Lib Queue Vm

variable {C T : Type} [LawfulBin C T]

namespace ThreadsPrio

variable {p : PrioSetup T} {s s' : ThreadsPrio C} {place : ℕ → Place} {xs : List ℕ} {a b : ℕ}

/-! ### The next node -/

/-- The new current node is one of best priority among those of the priority queue. -/
def TakesBest (s s' : ThreadsPrio C) : Prop :=
  ∃ a ∈ s.prioQueue.heap, s'.currentNode = some a ∧
    ∀ b ∈ s.prioQueue.heap,
      heapCompare s.priorityType (s.priorityLevel a) (s.priorityLevel b) = true

/-- The scheduler whose current node `c` has no facts, without it. -/
def released (s : ThreadsPrio C) (c : ℕ) : ThreadsPrio C :=
  { s with
    inQueue := Function.update s.inQueue c false
    priorityLevel := Function.update s.priorityLevel c ⟨0⟩
    currentNode := none }

theorem Inv.released (h : Inv p s place xs) {c : ℕ} (hcur : s.currentNode = some c)
    (hwork : s.nodeHasWork c = false) :
    Inv p (s.released c) (Function.update place c .idle) xs := by
  have hw := h.whereabouts
  rw [hcur] at hw
  have hset := h.settled c
  refine .of_update h.typ hw.clearCurrent (fun b hb => ?_) ?_
  · exact (h.settled b).congr rfl (Function.update_of_ne hb ..) (Function.update_of_ne hb ..) rfl
      rfl rfl
  · refine ⟨?_, fun _ => hwork, fun hpl => ?_, nofun, nofun, hset.facts, hset.still⟩
    · simp [ThreadsPrio.released]
    · rcases hpl with hpl | hpl <;> cases hpl

/-- A node that is popped from the priority queue becomes the current one. -/
theorem Inv.takePrio (h : Inv p s place xs) (hp : p.WellFormed) (hcur : s.currentNode = none)
    (hne : s.prioQueue.heap ≠ []) :
    ∃ q' a, s.prioQueue.pop = .ok (q', some a) ∧
      Inv p { s with prioQueue := q', currentNode := some a, takenFromPriorityQueue := true }
        (Function.update place a .current) xs ∧
      s.prioQueue.inPriorityQueue a = true ∧ s.nodeHasWork a = true ∧ s.inQueue a = true ∧
      TakesBest s { s with
        prioQueue := q', currentNode := some a, takenFromPriorityQueue := true } := by
  have hw := h.whereabouts
  obtain ⟨q', a, hrun, ha, hprio, hbest, hw'⟩ := hw.popPrio hp hne
  have hpl := (hw.prio a).mp ha
  have hset := h.settled a
  have hflag : s.inQueue a = true := hset.flagged.mpr (by rw [hpl]; nofun)
  rw [hcur] at hw'
  have hw'' := hw'.setCurrent (Function.update_self ..) (hw.known a (by rw [hpl]; nofun))
  rw [Function.update_idem] at hw''
  refine ⟨q', a, hrun, .of_update h.typ hw'' (fun b hb => ?_) ?_, (hw.heap.flag a).mpr ha,
    hset.work (.inr hpl), hflag, a, ha, rfl, fun b hb => ?_⟩
  · exact (h.settled b).congr rfl rfl rfl rfl rfl (congrFun hprio b)
  · refine ⟨iff_of_true hflag nofun, nofun, fun hpl => ?_, nofun, nofun, hset.facts, hset.still⟩
    rcases hpl with hpl | hpl <;> cases hpl
  · rw [h.typ, ← hw.typ, ← (hset.prio hpl).2, ← ((h.settled b).prio ((hw.prio b).mp hb)).2]
    exact hbest b hb

/-- A node that is popped from the normal queue becomes the current one. -/
theorem Inv.takeWaiting (h : Inv p s place (a :: xs)) (hcur : s.currentNode = none) :
    ∃ nodes', s.queueNodes.pop = .ok (nodes', some a) ∧
      Inv p { s with queueNodes := nodes', currentNode := some a, takenFromPriorityQueue := false }
        (Function.update place a .current) xs ∧
      s.nodeHasWork a = true ∧ s.inQueue a = true := by
  have hw := h.whereabouts
  have hpl : place a = .waiting := (hw.waiting a).mp List.mem_cons_self
  have hset := h.settled a
  have hflag : s.inQueue a = true := hset.flagged.mpr (by rw [hpl]; nofun)
  obtain ⟨nodes', hrun, hw'⟩ := hw.popWaiting
  rw [hcur] at hw'
  have hw'' := hw'.setCurrent (Function.update_self ..) (hw.known a (by rw [hpl]; nofun))
  rw [Function.update_idem] at hw''
  refine ⟨nodes', hrun, .of_update h.typ hw'' (fun b hb => ?_) ?_, hset.work (.inl hpl), hflag⟩
  · exact (h.settled b).congr rfl rfl rfl rfl rfl rfl
  · refine ⟨iff_of_true hflag nofun, nofun, fun hpl => ?_, nofun, nofun, hset.facts, hset.still⟩
    rcases hpl with hpl | hpl <;> cases hpl

theorem empty_iff : s.prioQueue.empty = false ↔ s.prioQueue.heap ≠ [] := by
  rw [ComplexPqueue.empty, List.isEmpty_eq_false_iff]

theorem clearPriorityLevel_eq {s : ThreadsPrio C}
    (h : s.priorityType = .floatAsc ∨ s.priorityType = .floatDesc) (a : ℕ) :
    s.clearPriorityLevel a = s.setFloatPriorityLevel a 0 := by
  rw [clearPriorityLevel]
  rcases h with h | h <;> rw [h]

/-- A current node with facts stays. -/
theorem check_of_work {c : ℕ} (hcur : s.currentNode = some c) (hflag : s.inQueue c = true)
    (hwork : s.nodeHasWork c = true) : s.checkIfCurrentUseless = .ok (s, false) := by
  simp [checkIfCurrentUseless, hcur, hflag, hwork, assert_pos]

/-- The current node stays when it has facts; otherwise one of best priority takes its place, or
none when the priority queue is empty. -/
theorem Inv.check (h : Inv p s place xs) (hp : p.WellFormed) {c : ℕ}
    (hcur : s.currentNode = some c) :
    ∃ s' b place' xs', s.checkIfCurrentUseless = .ok (s', b) ∧ Inv p s' place' xs' ∧
      s'.owned = s.owned ∧
      (s' = s ∨ s.prioQueue.heap ≠ [] ∧ TakesBest s s' ∨
        s.prioQueue.heap = [] ∧ s'.prioQueue.heap = [] ∧ s'.currentNode = none) := by
  have hpl := (h.whereabouts.current c).mp hcur
  have hset := h.settled c
  have hflag : s.inQueue c = true := hset.flagged.mpr (by simp [hpl])
  cases hwork : s.nodeHasWork c with
  | true => exact ⟨s, false, place, xs, check_of_work hcur hflag hwork, h, rfl, .inl rfl⟩
  | false =>
    have hrel := h.released hcur hwork
    have hset : s.setInQueue c false =
        .ok { s with inQueue := Function.update s.inQueue c false } := by
      rw [setInQueue, hflag, assert_pos (by simp)]
      rfl
    have hfloat : s.priorityType = .floatAsc ∨ s.priorityType = .floatDesc := h.typ ▸ hp.float
    have hnot : s.prioQueue.inPriorityQueue c = false := by
      rw [← Bool.not_eq_true, h.whereabouts.heap.flag, h.whereabouts.prio, hpl]
      simp
    cases hempty : s.prioQueue.empty with
    | false =>
      have hne := empty_iff.mp hempty
      obtain ⟨q', a, hrun, hinv, -, -, -, b, hb, hsome, hbest⟩ := hrel.takePrio hp rfl hne
      refine ⟨_, false, _, _, ?_, hinv, rfl, .inr (.inl ⟨hne, b, hb, hsome, fun d hd => ?_⟩)⟩
      · have hpop : s.prioQueue.pop = .ok (q', some a) := hrun
        simp only [checkIfCurrentUseless, hcur, deref_some, ok_bind, hflag, assert_pos, hempty,
          hwork, and_self, if_true, hset, clearPriorityLevel_eq, hfloat, setFloatPriorityLevel,
          setPriorityLevel, Function.update_self, hnot, hpop, pure_eq_ok]
        rfl
      · have hne' : ∀ e ∈ s.prioQueue.heap, e ≠ c := fun e he hec => by
          rw [hec, h.whereabouts.prio, hpl] at he
          cases he
        have hlevel : ∀ e ∈ s.prioQueue.heap, (s.released c).priorityLevel e = s.priorityLevel e :=
          fun e he => Function.update_of_ne (hne' e he) ..
        rw [← hlevel b hb, ← hlevel d hd]
        exact hbest d hd
    | true =>
      have hnil : s.prioQueue.heap = [] := by rwa [ComplexPqueue.empty, List.isEmpty_iff] at hempty
      refine ⟨s.released c, true, _, _, ?_, hrel, rfl, .inr (.inr ⟨hnil, hnil, rfl⟩)⟩
      simp only [checkIfCurrentUseless, hcur, deref_some, ok_bind, hflag, assert_pos, hempty,
        hwork, Bool.true_eq_false, false_and, if_false, if_true, hset, clearPriorityLevel_eq,
        hfloat, setFloatPriorityLevel, setPriorityLevel, Function.update_self, pure_eq_ok]
      rfl

theorem Whereabouts.empty_iff {q : ComplexPqueue} {nodes : IntrusiveQueue} {cur : Option ℕ}
    (h : Whereabouts p q nodes cur place xs) : nodes.empty = true ↔ xs = [] := by
  rw [IntrusiveQueue.empty, h.deque.head, Option.isNone_iff_eq_none, List.head?_eq_none_iff]

/-- A turn of the loop of `set_next_node` takes a node that has facts. -/
theorem Inv.takeNode (h : Inv p s place xs) (hp : p.WellFormed) (hcur : s.currentNode = none)
    (hwork : s.hasWork = true) :
    ∃ s' place' xs', s.takeNode = .ok s' ∧ Inv p s' place' xs' ∧ s'.owned = s.owned ∧
      s'.currentNode ≠ none ∧ (s.prioQueue.heap ≠ [] → TakesBest s s') := by
  cases hempty : s.prioQueue.empty with
  | false =>
    obtain ⟨q', a, hrun, hinv, -, hwork', hflag, hbest⟩ :=
      h.takePrio hp hcur (ThreadsPrio.empty_iff.mp hempty)
    refine ⟨_, _, _, ?_, hinv, rfl, by simp, fun _ => hbest⟩
    simp only [ThreadsPrio.takeNode, hempty, if_true, hrun, ok_bind]
    rw [assert_pos (by simp), ok_bind, check_of_work (by exact rfl) (by exact hflag) (by exact hwork')]
    rfl
  | true =>
    have hnil : s.prioQueue.heap = [] := by rwa [ComplexPqueue.empty, List.isEmpty_iff] at hempty
    have hwaiting : s.queueNodes.empty = false := by
      simpa [hasWork, hempty] using hwork
    obtain ⟨a, ys, rfl⟩ : ∃ a ys, xs = a :: ys := by
      refine List.exists_cons_of_ne_nil fun hxs => ?_
      rw [h.whereabouts.empty_iff.mpr hxs] at hwaiting
      cases hwaiting
    obtain ⟨nodes', hrun, hinv, hwork', hflag⟩ := h.takeWaiting hcur
    refine ⟨_, _, _, ?_, hinv, rfl, by simp, fun hne => absurd hnil hne⟩
    simp only [ThreadsPrio.takeNode, hempty, Bool.true_eq_false, if_false, hwaiting, if_true, hrun,
      ok_bind, reduceCtorEq]
    rw [check_of_work (by exact rfl) (by exact hflag) (by exact hwork')]
    rfl

/-- The loop of `set_next_node`. -/
theorem Inv.nextLoop (h : Inv p s place xs) (hp : p.WellFormed) (n : ℕ) :
    ∃ s' b place' xs', iterate setNextNodeStep (n + 2) s = .ok (s', b) ∧ Inv p s' place' xs' ∧
      s'.owned = s.owned ∧ (s.currentNode ≠ none → s' = s) ∧
      (s.currentNode = none → s.prioQueue.heap ≠ [] → TakesBest s s') := by
  by_cases hcur : s.currentNode = none
  · cases hwork : s.hasWork with
    | false =>
      refine ⟨s, false, place, xs, ?_, h, rfl, fun _ => rfl, fun _ hne => ?_⟩
      · simp [iterate, setNextNodeStep, hcur, hwork]
      · have hempty := ThreadsPrio.empty_iff.mpr hne
        simp [hasWork, hempty] at hwork
    | true =>
      obtain ⟨s', place', xs', hrun, hinv, howned, hsome, hbest⟩ := h.takeNode hp hcur hwork
      refine ⟨s', true, place', xs', ?_, hinv, howned, fun hne => absurd hcur hne,
        fun _ => hbest⟩
      simp [iterate, setNextNodeStep, hcur, hwork, hrun, hsome, assert_pos]
  · refine ⟨s, true, place, xs, ?_, h, rfl, fun _ => rfl, fun hnone => absurd hnone hcur⟩
    simp [iterate, setNextNodeStep, hcur]

/-- `set_next_node` returns, and where it replaces the current node while the priority queue has
nodes, it takes one of best priority. -/
theorem Inv.setNextNode (h : Inv p s place xs) (hp : p.WellFormed) :
    ∃ s' b place' xs', s.setNextNode = .ok (s', b) ∧ Inv p s' place' xs' ∧ s'.owned = s.owned ∧
      (s'.currentNode ≠ s.currentNode → s.prioQueue.heap ≠ [] → TakesBest s s') := by
  cases hcur : s.currentNode with
  | none =>
    obtain ⟨s', b, place', xs', hrun, hinv, howned, -, hbest⟩ := h.nextLoop hp _
    refine ⟨s', b, place', xs', ?_, hinv, howned, fun _ => hbest hcur⟩
    simp only [ThreadsPrio.setNextNode, hcur, ne_eq, not_true_eq_false, if_false, pure_eq_ok,
      ok_bind]
    exact hrun
  | some c =>
    obtain ⟨s₁, b₁, place₁, xs₁, hcheck, hinv₁, howned₁, hcases⟩ := h.check hp hcur
    obtain ⟨s', b, place', xs', hrun, hinv, howned, hstay, -⟩ := hinv₁.nextLoop hp _
    refine ⟨s', b, place', xs', ?_, hinv, howned.trans howned₁, fun hchange hne => ?_⟩
    · simp only [ThreadsPrio.setNextNode, hcur, ne_eq, reduceCtorEq, not_false_eq_true, if_true,
        hcheck]
      exact hrun
    · rcases hcases with rfl | ⟨-, hbest⟩ | ⟨hnil, -, -⟩
      · rw [hstay (by rw [hcur]; nofun), hcur] at hchange
        exact absurd rfl hchange
      · obtain ⟨a, ha, hsome, hle⟩ := hbest
        rw [hstay (by rw [hsome]; nofun)]
        exact ⟨a, ha, hsome, hle⟩
      · exact absurd hnil hne

/-! ### The current node takes facts -/

theorem Inv.gatherNextTuples (h : Inv p s place xs) {c : ℕ} (hcur : s.currentNode = some c) :
    ∃ s' ls, s.gatherNextTuples c [] = .ok (s', ls) ∧ Inv p s' place xs ∧ s'.owned = s.owned := by
  have hpl := (h.whereabouts.current c).mp hcur
  have hset := h.settled c
  obtain ⟨q', ls, hrun, hfacts⟩ := hset.facts.topList
  refine ⟨{ s with queue := Function.update s.queue c q' }, ls, ?_, ?_, rfl⟩
  · rw [ThreadsPrio.gatherNextTuples, hrun]
    rfl
  · refine ⟨h.typ, h.whereabouts, fun b => ?_⟩
    rcases eq_or_ne b c with rfl | hne
    · rw [hpl] at hset ⊢
      refine ⟨hset.flagged, nofun, fun hw => ?_, nofun, nofun, ?_, hset.still⟩
      · rcases hw with hw | hw <;> cases hw
      · simp only [Function.update_self]
        exact hfacts
    · exact (h.settled b).congr rfl rfl rfl rfl (Function.update_of_ne hne ..) rfl

/-! ### Runs -/

/-- Before `init` no node has a place. -/
theorem inv_new {queue : BoundedPqueue C} (hfacts : Facts p.maxStratLevel queue)
    (hempty : queue.isEmpty = true) : Inv p (new p queue) (fun _ => .idle) [] where
  typ := rfl
  whereabouts := {
    typ := rfl
    deque := IntrusiveQueue.IntrusiveDeque.new
    heap := ComplexPqueue.inv_new p.priorityType p.heapPriority p.heapPos
    waiting := fun a => iff_of_false nofun nofun
    prio := fun a => iff_of_false nofun nofun
    current := fun a => iff_of_false nofun nofun
    known := fun a h => absurd rfl h }
  settled a :=
    { flagged := iff_of_false nofun fun h => h rfl
      idle := fun _ => by simp [nodeHasWork, new, hempty]
      work := by simp
      waiting := nofun
      prio := nofun
      facts := hfacts
      still := rfl }

theorem Inv.newWork (h : Inv p s place xs) (hp : p.WellFormed) {w : NodeWork T}
    (hknown : w.node ∈ p.nodes) (hlevel : w.stratLevel < p.maxStratLevel) :
    ∃ s' pl xs', s.newWork w = .ok s' ∧ Inv p s' (Function.update place w.node pl) xs' ∧
      s'.inQueue w.node = true ∧ s'.nodeHasWork w.node = true ∧ s'.owned = s.owned := by
  obtain ⟨s', pl, xs', hrun, hinv, hpl, hwork, howned⟩ := h.pushWork hp hknown hlevel
  have hflag : s'.inQueue w.node = true := by
    rw [(hinv.settled _).flagged, Function.update_self]
    exact hpl
  refine ⟨s', pl, xs', ?_, hinv, hflag, hwork, howned⟩
  simp only [ThreadsPrio.newWork, hrun, ok_bind, hflag, assert_pos, pure_eq_ok]

/-- The node gets its level and its first fact. -/
theorem Inv.initNode (h : Inv p s place xs) (hp : p.WellFormed) (hknown : a ∈ p.nodes)
    (ha : place a = .idle) :
    ∃ s' pl xs', initNode p s a = .ok s' ∧ Inv p s' (Function.update place a pl) xs' ∧
      s'.owned = Function.update s.owned a true := by
  obtain ⟨s', pl, xs', hrun, hinv, hflag, hwork, howned⟩ :=
    (h.setLevel (.inl ha) p.initialPriority).newWork hp (w := ⟨a, p.initTuple a, p.initLevel⟩)
      hknown hp.level
  refine ⟨{ s' with owned := Function.update s'.owned a true }, pl, xs', ?_,
    ⟨hinv.typ, hinv.whereabouts, fun b => (hinv.settled b).congr rfl rfl rfl rfl rfl rfl⟩, ?_⟩
  · have hwork' : ({ s' with owned := Function.update s'.owned a true } :
        ThreadsPrio C).nodeHasWork a = true := hwork
    have hflag' : s'.inQueue a = true := hflag
    simp only [ThreadsPrio.initNode, hrun, ok_bind, Function.update_self, assert_pos, hflag',
      hwork', pure_eq_ok]
  · simp only [howned]
    rfl

/-- The loop of `init`. -/
theorem Inv.initNodes (hp : p.WellFormed) {l : List ℕ} (h : Inv p s place xs) (hl : l.Nodup)
    (hknown : ∀ a ∈ l, a ∈ p.nodes) (hidle : ∀ a ∈ l, place a = .idle) :
    ∃ s' place' xs', l.foldlM (ThreadsPrio.initNode p) s = .ok s' ∧ Inv p s' place' xs' ∧
      ∀ b, s'.owned b = true ↔ b ∈ l ∨ s.owned b = true := by
  induction l generalizing s place xs with
  | nil => exact ⟨s, place, xs, rfl, h, fun b => by simp⟩
  | cons a l ih =>
    obtain ⟨hnot, hl⟩ := List.nodup_cons.mp hl
    obtain ⟨s₁, pl, xs₁, hrun₁, hinv₁, howned₁⟩ :=
      h.initNode hp (hknown a List.mem_cons_self) (hidle a List.mem_cons_self)
    obtain ⟨s', place', xs', hrun, hinv, howned⟩ := ih hinv₁ hl
      (fun b hb => hknown b (List.mem_cons_of_mem a hb)) fun b hb => by
        have hne : b ≠ a := fun he => hnot (he ▸ hb)
        rw [Function.update_of_ne hne]
        exact hidle b (List.mem_cons_of_mem a hb)
    refine ⟨s', place', xs', ?_, hinv, fun b => ?_⟩
    · rw [List.foldlM_cons, hrun₁, ok_bind, hrun]
    · rw [howned, howned₁, List.mem_cons]
      rcases eq_or_ne b a with rfl | hne
      · simp
      · rw [Function.update_of_ne hne, or_iff_right hne]

variable {addFloat : UInt64 → UInt64 → UInt64}

/-- A node that is scheduled next gets a priority that is not below zero. -/
theorem Inv.scheduleNext (h : Inv p s place xs) (hp : p.WellFormed)
    (hadd : ∀ x, floatLt 0 x = true → floatLe 0 (addFloat x hundred) = true)
    (howned : s.owned a = true) :
    ∃ s' place' xs', s.scheduleNext addFloat a = .ok s' ∧ Inv p s' place' xs' ∧
      s'.owned = s.owned := by
  cases hempty : s.prioQueue.empty with
  | true =>
    obtain ⟨s', place', xs', hrun, hinv, hown⟩ :=
      h.setNodePriority hp howned (x := hundred) (by decide)
    refine ⟨s', place', xs', ?_, hinv, hown⟩
    simp only [ThreadsPrio.scheduleNext, hempty, if_true, pure_eq_ok, ok_bind, hrun]
  | false =>
    obtain ⟨b, rest, hheap⟩ := List.exists_cons_of_ne_nil (ThreadsPrio.empty_iff.mp hempty)
    have hb : b ∈ s.prioQueue.heap := by rw [hheap]; exact List.mem_cons_self
    obtain ⟨hpos, hprio⟩ := (h.settled b).prio ((h.whereabouts.prio b).mp hb)
    rw [h.hasPriorityLevel_eq hp, ← hprio] at hpos
    have hmin : s.prioQueue.minValue = .ok (s.prioQueue.priority b) := by
      rw [ComplexPqueue.minValue, hheap]
      rfl
    obtain ⟨s', place', xs', hrun, hinv, hown⟩ := h.setNodePriority hp howned (hadd _ hpos)
    refine ⟨s', place', xs', ?_, hinv, hown⟩
    simp only [ThreadsPrio.scheduleNext, hempty, Bool.false_eq_true, if_false, hmin]
    exact hrun

/-- An operation of the thread. -/
theorem Inv.step (h : Inv p s place xs) (hp : p.WellFormed)
    (hadd : ∀ x, floatLt 0 x = true → floatLe 0 (addFloat x hundred) = true)
    (howned : ∀ b, s.owned b = true ↔ b ∈ p.nodes) {op : Op T} (hop : op.Legal p addFloat s) :
    ∃ s' place' xs', op.run addFloat s = .ok s' ∧ Inv p s' place' xs' ∧ s'.owned = s.owned ∧
      (op = .setNextNode → s'.currentNode ≠ s.currentNode → s.prioQueue.heap ≠ [] →
        TakesBest s s') := by
  cases op with
  | newWork w =>
    obtain ⟨s', pl, xs', hrun, hinv, -, -, hown⟩ := h.newWork hp ((howned _).mp hop.1) hop.2
    exact ⟨s', _, xs', hrun, hinv, hown, nofun⟩
  | newAgg w =>
    obtain ⟨s', pl, xs', hrun, hinv, -, -, hown⟩ := h.pushWork hp ((howned _).mp hop.1) hop.2
    exact ⟨s', _, xs', hrun, hinv, hown, nofun⟩
  | setNodePriority n priority =>
    obtain ⟨s', place', xs', hrun, hinv, hown⟩ := h.setNodePriority hp hop.1 hop.2
    exact ⟨s', place', xs', hrun, hinv, hown, nofun⟩
  | addNodePriority n priority =>
    obtain ⟨s', place', xs', hrun, hinv, hown⟩ := h.setNodePriority hp hop.1 hop.2
    exact ⟨s', place', xs', hrun, hinv, hown, nofun⟩
  | scheduleNext n =>
    obtain ⟨s', place', xs', hrun, hinv, hown⟩ := h.scheduleNext hp hadd hop
    exact ⟨s', place', xs', hrun, hinv, hown, nofun⟩
  | setNextNode =>
    obtain ⟨s', b, place', xs', hrun, hinv, hown, hbest⟩ := h.setNextNode hp
    refine ⟨s', place', xs', ?_, hinv, hown, fun _ => hbest⟩
    rw [Op.run, hrun]
    rfl
  | gatherNextTuples =>
    obtain ⟨c, hcur⟩ := Option.ne_none_iff_exists'.mp hop
    obtain ⟨s', ls, hrun, hinv, hown⟩ := h.gatherNextTuples hcur
    refine ⟨s', place, xs, ?_, hinv, hown, nofun⟩
    rw [Op.run, hcur, deref_some, ok_bind, hrun]
    rfl

/-- Where the nodes are: `xs` are those that are found along the links of `queue_nodes`. -/
structure Accounted (s : ThreadsPrio C) (xs : List ℕ) : Prop where
  listed : follow s.queueNodes.next s.queueNodes.size s.queueNodes.head = .ok xs
  once : xs.Nodup ∧ s.prioQueue.heap.Nodup
  /-- a node with facts is the current one or in exactly one of the queues -/
  pending : ∀ a, s.owned a = true → s.Pending a →
    s.currentNode = some a ∨ a ∈ xs ∧ a ∉ s.prioQueue.heap ∨ a ∉ xs ∧ a ∈ s.prioQueue.heap
  current : ∀ a, s.currentNode = some a → a ∉ xs ∧ a ∉ s.prioQueue.heap
  /-- a node in a queue has facts, and its level says which queue it is -/
  queued : ∀ a, a ∈ xs ∨ a ∈ s.prioQueue.heap → s.currentNode ≠ some a →
    s.Pending a ∧ (a ∈ s.prioQueue.heap ↔ floatLt 0 (s.priorityLevel a).floatPriority = true)
  unflagged : ∀ a, s.inQueue a = false → a ∉ xs ∧ a ∉ s.prioQueue.heap

theorem Inv.accounted (h : Inv p s place xs) (hp : p.WellFormed) : Accounted s xs := by
  have hw := h.whereabouts
  have hpending : ∀ a, s.Pending a ↔ s.nodeHasWork a = true := fun a =>
    (h.settled a).facts.pending_iff
  refine ⟨?_, ⟨hw.deque.nodup, hw.heap.placed.nodup⟩, fun a _ ha => ?_, fun a ha => ?_,
    fun a ha _ => ?_, fun a ha => ?_⟩
  · have hforth := hw.deque.linked.forward.follow_eq
    rw [← hw.deque.total, ← hw.deque.head] at hforth
    exact hforth
  · rw [hpending] at ha
    rw [hw.current, hw.waiting, hw.prio]
    have hidle := (h.settled a).idle
    cases hpl : place a with
    | idle => rw [hidle hpl] at ha; cases ha
    | current => exact .inl rfl
    | waiting => exact .inr (.inl ⟨rfl, nofun⟩)
    | prio => exact .inr (.inr ⟨nofun, rfl⟩)
  · rw [hw.current] at ha
    rw [hw.waiting, hw.prio, ha]
    exact ⟨nofun, nofun⟩
  · rw [hw.waiting, hw.prio] at ha
    rw [hpending, hw.prio, ← h.hasPriorityLevel_eq hp]
    refine ⟨(h.settled a).work ha, fun hpl => ((h.settled a).prio hpl).1, fun hpos => ?_⟩
    refine ha.resolve_left fun hpl => ?_
    rw [(h.settled a).waiting hpl] at hpos
    cases hpos
  · rw [h.idle_iff] at ha
    rw [hw.waiting, hw.prio, ha]
    exact ⟨nofun, nofun⟩

theorem exists_init (hp : p.WellFormed) :
    ∃ s : ThreadsPrio C, init p = .ok s ∧ (∃ place xs, Inv p s place xs) ∧
      ∀ b, s.owned b = true ↔ b ∈ p.nodes := by
  have hrange : 0 < p.maxStratLevel := Nat.zero_lt_of_lt hp.level
  obtain ⟨queue, hqueue, hfacts, hempty⟩ := Facts.new (C := C) hrange
  obtain ⟨s, place, xs, hrun, hinv, howned⟩ := Inv.initNodes hp (inv_new hfacts hempty) hp.nodup
    (fun _ ha => ha) fun _ _ => rfl
  refine ⟨s, ?_, ⟨place, xs, hinv⟩, fun b => ?_⟩
  · rw [init, hqueue, ok_bind, hrun]
  · rw [howned]
    exact or_iff_left nofun

/-- In every state of a run after initialisation the nodes are accounted for, every operation of
the thread succeeds, and `set_next_node` takes a node of best priority when it replaces the current
one while the priority queue has nodes. -/
theorem scheduler_accounts (p : PrioSetup T) (hp : p.WellFormed)
    (addFloat : UInt64 → UInt64 → UInt64)
    (hadd : ∀ x, floatLt 0 x = true → floatLe 0 (addFloat x hundred) = true) :
    (∃ s : ThreadsPrio C, init p = .ok s) ∧
    ∀ s : ThreadsPrio C, (system p addFloat).Reachable s →
      (∃ xs, Accounted s xs) ∧
      ∀ op : Op T, op.Legal p addFloat s → ∃ s', op.run addFloat s = .ok s' ∧
        (op = .setNextNode → s'.currentNode ≠ s.currentNode → s.prioQueue.heap ≠ [] →
          TakesBest s s') := by
  obtain ⟨s₀, hinit, hinv₀, howned₀⟩ := exists_init (C := C) hp
  refine ⟨⟨s₀, hinit⟩, fun s hs => ?_⟩
  obtain ⟨⟨place, xs, hinv⟩, howned⟩ : (∃ place xs, Inv p s place xs) ∧
      ∀ b, s.owned b = true ↔ b ∈ p.nodes := by
    refine hs.invariant (I := fun s => (∃ place xs, Inv p s place xs) ∧
      ∀ b, s.owned b = true ↔ b ∈ p.nodes) (fun s h => ?_) fun s s' hI h => ?_
    · obtain rfl : s₀ = s := Except.ok.inj (hinit.symm.trans h)
      exact ⟨hinv₀, howned₀⟩
    · obtain ⟨⟨place, xs, hinv⟩, howned⟩ := hI
      obtain ⟨op, hlegal, hrun⟩ := h
      obtain ⟨s'', place', xs', hrun', hinv', hown, -⟩ := hinv.step hp hadd howned hlegal
      obtain rfl : s'' = s' := Except.ok.inj (hrun'.symm.trans hrun)
      exact ⟨⟨place', xs', hinv'⟩, fun b => by rw [hown, howned]⟩
  refine ⟨⟨xs, hinv.accounted hp⟩, fun op hlegal => ?_⟩
  obtain ⟨s', place', xs', hrun, -, -, hbest⟩ := hinv.step hp hadd howned hlegal
  exact ⟨s', hrun, hbest⟩

/-- Two nodes with priorities in descending order. -/
def sampleSetup : PrioSetup ℕ := ⟨.floatDesc, ⟨0⟩, 2, [3, 5], id, 0, fun _ => ⟨0⟩, fun _ => 0⟩

/-- The addition of doubles, where one of them is zero or both are `100.0`. -/
def sampleAdd (x y : UInt64) : UInt64 :=
  if isZero x then y else if isZero y then x
  else if x = hundred ∧ y = hundred then 0x4069000000000000 else hundred

theorem scheduler_accounts_sample :
    (∃ s : ThreadsPrio (PushSafeBin ℕ), init sampleSetup = .ok s) ∧
    ∀ s : ThreadsPrio (PushSafeBin ℕ), (system sampleSetup sampleAdd).Reachable s →
      (∃ xs, Accounted s xs) ∧
      ∀ op : Op ℕ, op.Legal sampleSetup sampleAdd s → ∃ s', op.run sampleAdd s = .ok s' ∧
        (op = .setNextNode → s'.currentNode ≠ s.currentNode → s.prioQueue.heap ≠ [] →
          TakesBest s s') := by
  refine scheduler_accounts sampleSetup ⟨.inr rfl, by decide, by decide, by decide⟩ sampleAdd
    fun x hx => ?_
  have hzero : isZero hundred = false := by decide
  have hsum : floatLe 0 0x4069000000000000 = true := by decide
  have hhundred : floatLe 0 hundred = true := by decide
  simp only [sampleAdd, hzero, Bool.false_eq_true, if_false]
  split_ifs
  · exact hhundred
  · exact hsum
  · exact hhundred

end ThreadsPrio

end Meld.Thread
