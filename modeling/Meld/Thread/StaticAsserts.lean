import Meld.Thread.StaticSteps

/-!
# The assertions about the nodes of the static scheduler

A node of the run queue of a thread is flagged as being in a queue, and so is the current node until
`check_if_current_useless` lets it go: `in_queue` is the flag of the node, and no thread but its
owner writes it. What the threads assert about their nodes and about the threads they wake is
`asserts`. That a run queue has no node twice, only nodes of its thread and only such that are
flagged (`FlagsAt`) is kept by every step (`Flags.stepOf`), and with the invariant of the scheduler
it gives that no assertion fails (`Flags.asserts`).
-/

namespace Meld.Thread

open Lib

variable {size : ℕ} {φ : Type}

/-- Whether a thread that has a current node has seen that it has facts. -/
def Pc.seen : Pc size φ → Bool
  | .nextNode | .activate .node | .activateLocked .node | .barrierActive .node => true
  | _ => false

namespace Static

variable (owner : ℕ → Fin size)

/-! ### The assertions -/

/-- `push_tail_node` asks that the node is in no run queue, when a node that is not flagged is put
into one. -/
def assertPush (s : Static size φ) (dest : ℕ) : Bool :=
  s.inQueue dest || decide (∀ j, dest ∉ s.queueNodes j)

/-- The assertions at the end of `get_work`. -/
def assertGetWork (s : Static size φ) (i : Fin size) : Bool :=
  (s.currentNode i).any fun node => s.inQueue node && !(s.queue node).isEmpty

/-- The assertions of `finish_work`. -/
def assertFinishWork (s : Static size φ) (i : Fin size) : Bool :=
  (s.currentNode i).any fun node => s.inQueue node && decide (owner node = i)

/-- The assertions that the thread `i` makes in its next step, beside those about its own state and
the barrier. -/
def asserts (s : Static size φ) (i : Fin size) (work : Work φ) : Bool :=
  match s.pc i with
  | .checkUseless =>
    -- `set_in_queue(false)`
    (s.currentNode i).all fun node => !(s.queue node).isEmpty || s.inQueue node
  | .nextNode =>
    -- the end of `check_if_current_useless`
    (s.currentNode i).all fun node => !(s.queue node).isEmpty
  | .added _ dest => s.assertPush dest
  | .queued c dest =>
    -- `set_in_queue(true)`, and the end of `new_work`
    !s.inQueue dest && (c != .work || (s.setInQueue dest true).inQueue dest)
  | .barrierWake _ j =>
    -- behind `owner->set_active()`
    decide (s.tstate j = .active)
  | .popNode => (s.queueNodes i).head?.all s.inQueue
  | .activate .node => decide (s.tstate i = .inactive) || s.assertGetWork i
  | .activateLocked .node =>
    (s.lock i).isSome || decide (s.tstate i = .inactive) || s.assertGetWork i
  | .barrierActive .node => s.assertGetWork i
  | .working =>
    match work with
    | .finish => s.assertFinishWork owner i
    | .gather | .route _ _ => true
  | _ => true

variable {owner} {level : φ → ℕ} {s s' : Static size φ} {i j : Fin size}

/-! ### The nodes of a thread -/

/-- What holds of the run queue and of the current node of the thread `i`. -/
structure FlagsAt (owner : ℕ → Fin size) (s : Static size φ) (i : Fin size) : Prop where
  owned : ∀ n ∈ s.queueNodes i, owner n = i
  nodup : (s.queueNodes i).Nodup
  /-- A node of the run queue is flagged, or is about to be. -/
  flagged : ∀ n ∈ s.queueNodes i, s.inQueue n = true ∨ ∃ c, s.pc i = .queued c n
  current : ∀ n, s.currentNode i = some n →
    owner n = i ∧ s.inQueue n = true ∧ n ∉ s.queueNodes i
  added : ∀ c n, s.pc i = .added c n → owner n = i
  queued : ∀ c n, s.pc i = .queued c n → owner n = i ∧ s.inQueue n = false
  facts : (s.pc i).seen = true → ∀ n, s.currentNode i = some n → s.queue n ≠ []

/-- The flags of all threads' nodes. -/
def Flags (owner : ℕ → Fin size) (s : Static size φ) : Prop := ∀ i, FlagsAt owner s i

/-- What is seen of a thread is as before, and the nodes that it owns have their flags and do not
lose their facts. -/
theorem FlagsAt.congr (h : FlagsAt owner s j) (hpc : s'.pc j = s.pc j)
    (hcurrent : s'.currentNode j = s.currentNode j) (hqueue : s'.queueNodes j = s.queueNodes j)
    (hin : ∀ n, owner n = j → s'.inQueue n = s.inQueue n)
    (hfacts : ∀ n, owner n = j → s.queue n ≠ [] → s'.queue n ≠ []) : FlagsAt owner s' j := by
  refine ⟨?_, ?_, ?_, ?_, ?_, ?_, ?_⟩
  · rw [hqueue]
    exact h.owned
  · rw [hqueue]
    exact h.nodup
  · intro n hn
    rw [hqueue] at hn
    rw [hin n (h.owned n hn), hpc]
    exact h.flagged n hn
  · intro n hn
    rw [hcurrent] at hn
    obtain ⟨hown, hflag, hmem⟩ := h.current n hn
    rw [hin n hown, hqueue]
    exact ⟨hown, hflag, hmem⟩
  · rw [hpc]
    exact h.added
  · intro c n hc
    rw [hpc] at hc
    obtain ⟨hown, hflag⟩ := h.queued c n hc
    rw [hin n hown]
    exact ⟨hown, hflag⟩
  · intro hseen n hn
    rw [hpc] at hseen
    rw [hcurrent] at hn
    exact hfacts n (h.current n hn).1 (h.facts hseen n hn)

/-- A thread that goes on with the same nodes. -/
theorem FlagsAt.goes (h : FlagsAt owner s i) (hcurrent : s'.currentNode i = s.currentNode i)
    (hqueue : s'.queueNodes i = s.queueNodes i) (hin : s'.inQueue = s.inQueue)
    (hold : ∀ c n, s.pc i ≠ .queued c n) (hadded : ∀ c n, s'.pc i = .added c n → owner n = i)
    (hqueued : ∀ c n, s'.pc i ≠ .queued c n)
    (hfacts : (s'.pc i).seen = true → ∀ n, s.currentNode i = some n → s'.queue n ≠ []) :
    FlagsAt owner s' i := by
  refine ⟨?_, ?_, ?_, ?_, hadded, ?_, ?_⟩
  · rw [hqueue]
    exact h.owned
  · rw [hqueue]
    exact h.nodup
  · intro n hn
    rw [hqueue] at hn
    rcases h.flagged n hn with hflag | ⟨c, hc⟩
    · left
      rw [hin]
      exact hflag
    · exact absurd hc (hold c n)
  · rw [hcurrent, hqueue, hin]
    exact h.current
  · intro c n hc
    exact absurd hc (hqueued c n)
  · rw [hcurrent]
    exact hfacts

/-- A step of the thread `i`, which changes no other thread and no node of another thread. -/
theorem Flags.local (h : s.Flags owner)
    (hothers : ∀ j, j ≠ i → s'.pc j = s.pc j ∧ s'.currentNode j = s.currentNode j ∧
      s'.queueNodes j = s.queueNodes j)
    (hnodes : ∀ n, owner n ≠ i → s'.inQueue n = s.inQueue n ∧ s'.queue n = s.queue n)
    (hi : FlagsAt owner s' i) : s'.Flags owner := by
  intro j
  rcases eq_or_ne j i with rfl | hj
  · exact hi
  · obtain ⟨hpc, hcurrent, hqueue⟩ := hothers j hj
    refine (h j).congr hpc hcurrent hqueue ?_ ?_
    · intro n hn
      exact (hnodes n (by rw [hn]; exact hj)).1
    · intro n hn
      rw [(hnodes n (by rw [hn]; exact hj)).2]
      exact id

/-- A step of the thread `i` that leaves the nodes and the run queues as they are. -/
theorem Flags.goTo (h : s.Flags owner) {pc : Pc size φ} (hold : ∀ c n, s.pc i ≠ .queued c n)
    (hadded : ∀ c n, pc ≠ .added c n) (hqueued : ∀ c n, pc ≠ .queued c n)
    (hseen : pc.seen = true → ∀ n, s.currentNode i = some n → s.queue n ≠ []) :
    (s.goTo i pc).Flags owner := by
  refine h.local (fun j hj => ⟨goTo_pc_of_ne hj, rfl, rfl⟩) (fun n _ => ⟨rfl, rfl⟩) ?_
  refine (h i).goes rfl rfl rfl hold ?_ ?_ ?_
  · intro c n hc
    rw [goTo_pc_self] at hc
    exact absurd hc (hadded c n)
  · rw [goTo_pc_self]
    exact hqueued
  · rw [goTo_pc_self]
    exact hseen

/-- A step that leaves the nodes, the run queues and the places as they are. -/
theorem Flags.same (h : s.Flags owner) (hpc : s'.pc = s.pc)
    (hcurrent : s'.currentNode = s.currentNode) (hqueue : s'.queueNodes = s.queueNodes)
    (hin : s'.inQueue = s.inQueue) (hfacts : s'.queue = s.queue) : s'.Flags owner := by
  intro j
  refine (h j).congr (by rw [hpc]) (by rw [hcurrent]) (by rw [hqueue]) ?_ ?_
  · intro n _
    rw [hin]
  · intro n _
    rw [hfacts]
    exact id

/-! ### What the steps do to the nodes -/

/-- A fact is put into a node of the thread. -/
theorem Flags.newWork (h : s.Flags owner) {c : Caller} {dest : ℕ} (fact : φ)
    (hold : ∀ c n, s.pc i ≠ .queued c n) (hown : owner dest = i) :
    (s.newWork i c dest fact).Flags owner := by
  have hpc : (s.newWork i c dest fact).pc i = .added c dest := goTo_pc_self
  refine h.local (fun j hj => ⟨goTo_pc_of_ne hj, rfl, rfl⟩) ?_ ?_
  · intro n hn
    refine ⟨rfl, Function.update_of_ne ?_ _ _⟩
    rintro rfl
    exact hn hown
  · refine (h i).goes rfl rfl rfl hold ?_ ?_ ?_
    · intro c' n hc
      rw [hpc, Pc.added.injEq] at hc
      rw [← hc.2]
      exact hown
    · intro c' n hc
      rw [hpc] at hc
      cases hc
    · intro hseen
      rw [hpc] at hseen
      cases hseen

/-- A fact is pushed into an inbox. -/
theorem Flags.newWorkOther (h : s.Flags owner) {c : Caller} {dest : ℕ} (fact : φ)
    (hold : ∀ c n, s.pc i ≠ .queued c n) : (s.newWorkOther owner i c dest fact).Flags owner := by
  have hbuffer : (s.setBuffer (owner dest) (s.buffer (owner dest) ++ [(dest, fact)])).Flags
      owner := h.same rfl rfl rfl rfl rfl
  exact hbuffer.goTo hold (by simp) (by simp) (by simp [Pc.seen])

/-- A node without facts is let go, and is not flagged any more. -/
theorem Flags.checkUseless (h : s.Flags owner) {node : ℕ} (hold : ∀ c n, s.pc i ≠ .queued c n)
    (hcurrent : s.currentNode i = some node) :
    (((s.setInQueue node false).setCurrent i none).goTo i .nextNode).Flags owner := by
  obtain ⟨hown, -, hmem⟩ := (h i).current node hcurrent
  have hin : ∀ n, n ≠ node →
      (((s.setInQueue node false).setCurrent i none).goTo i .nextNode).inQueue n = s.inQueue n :=
    fun n hn => Function.update_of_ne hn _ _
  have hnone : (((s.setInQueue node false).setCurrent i none).goTo i .nextNode).currentNode i =
      none := Function.update_self _ _ _
  refine h.local (fun j hj => ⟨goTo_pc_of_ne hj, Function.update_of_ne hj _ _, rfl⟩) ?_ ?_
  · intro n hn
    refine ⟨hin n ?_, rfl⟩
    rintro rfl
    exact hn hown
  · refine ⟨(h i).owned, (h i).nodup, ?_, ?_, ?_, ?_, ?_⟩
    · intro n hn
      rcases (h i).flagged n hn with hflag | ⟨c, hc⟩
      · left
        rw [hin n ?_]
        · exact hflag
        · rintro rfl
          exact hmem hn
      · exact absurd hc (hold c n)
    · intro n hn
      rw [hnone] at hn
      cases hn
    · intro c n hc
      rw [goTo_pc_self] at hc
      cases hc
    · intro c n hc
      rw [goTo_pc_self] at hc
      cases hc
    · intro _ n hn
      rw [hnone] at hn
      cases hn

/-- A node that is not flagged is in no run queue. -/
theorem Flags.notMem (h : s.Flags owner) {n : ℕ} (hown : owner n = i)
    (hflag : s.inQueue n = false) (hold : ∀ c, s.pc i ≠ .queued c n) (j : Fin size) :
    n ∉ s.queueNodes j := by
  intro hmem
  have hj : j = i := ((h j).owned n hmem).symm.trans hown
  rw [hj] at hmem
  rcases (h i).flagged n hmem with hin | ⟨c, hc⟩
  · rw [hflag] at hin
    cases hin
  · exact hold c hc

/-- A node that has got a fact and is not flagged is put into the run queue. -/
theorem Flags.addToQueue (h : s.Flags owner) {c : Caller} {dest : ℕ}
    (hpc : s.pc i = .added c dest) (hflag : s.inQueue dest = false) :
    ((s.setQueueNodes i (s.queueNodes i ++ [dest])).goTo i (.queued c dest)).Flags owner := by
  have hown := (h i).added c dest hpc
  -- a node that is not flagged stands in no queue
  have hmem : dest ∉ s.queueNodes i := h.notMem hown hflag (by simp [hpc]) i
  have hqueue : ((s.setQueueNodes i (s.queueNodes i ++ [dest])).goTo i
      (.queued c dest)).queueNodes i = s.queueNodes i ++ [dest] := Function.update_self _ _ _
  refine h.local (fun j hj => ⟨goTo_pc_of_ne hj, rfl, Function.update_of_ne hj _ _⟩)
    (fun n _ => ⟨rfl, rfl⟩) ?_
  refine ⟨?_, ?_, ?_, ?_, ?_, ?_, ?_⟩
  · rw [hqueue]
    intro n hn
    rw [List.mem_append, List.mem_singleton] at hn
    rcases hn with hn | rfl
    · exact (h i).owned n hn
    · exact hown
  · rw [hqueue, List.nodup_append]
    refine ⟨(h i).nodup, List.nodup_singleton dest, ?_⟩
    intro n hn m hm heq
    rw [List.mem_singleton] at hm
    rw [heq, hm] at hn
    exact hmem hn
  · rw [hqueue, goTo_pc_self]
    intro n hn
    rw [List.mem_append, List.mem_singleton] at hn
    rcases hn with hn | rfl
    · rcases (h i).flagged n hn with hin | ⟨c', hc⟩
      · exact .inl hin
      · rw [hpc] at hc
        cases hc
    · exact .inr ⟨c, rfl⟩
  · intro n hn
    obtain ⟨hown', hin, hnot⟩ := (h i).current n hn
    refine ⟨hown', hin, ?_⟩
    rw [hqueue, List.mem_append, List.mem_singleton]
    rintro (hn' | rfl)
    · exact hnot hn'
    · rw [show s.inQueue n = false from hflag] at hin
      cases hin
  · intro c' n hc
    rw [goTo_pc_self] at hc
    cases hc
  · intro c' n hc
    rw [goTo_pc_self, Pc.queued.injEq] at hc
    rw [← hc.2]
    exact ⟨hown, hflag⟩
  · intro hseen
    rw [goTo_pc_self] at hseen
    cases hseen

/-- The node that was put into the run queue is flagged. -/
theorem Flags.queued (h : s.Flags owner) {c : Caller} {dest : ℕ}
    (hpc : s.pc i = .queued c dest) :
    ((s.setInQueue dest true).goTo i c.resume).Flags owner := by
  obtain ⟨hown, -⟩ := (h i).queued c dest hpc
  have hself : ((s.setInQueue dest true).goTo i c.resume).inQueue dest = true :=
    Function.update_self _ _ _
  have hin : ∀ n, n ≠ dest →
      ((s.setInQueue dest true).goTo i c.resume).inQueue n = s.inQueue n :=
    fun n hn => Function.update_of_ne hn _ _
  have hresume : ∀ c' n, ((s.setInQueue dest true).goTo i c.resume).pc i ≠ .added c' n ∧
      ((s.setInQueue dest true).goTo i c.resume).pc i ≠ .queued c' n := by
    rw [goTo_pc_self]
    cases c <;> simp [Caller.resume]
  refine h.local (fun j hj => ⟨goTo_pc_of_ne hj, rfl, rfl⟩) ?_ ?_
  · intro n hn
    refine ⟨hin n ?_, rfl⟩
    rintro rfl
    exact hn hown
  · refine ⟨(h i).owned, (h i).nodup, ?_, ?_, ?_, ?_, ?_⟩
    · intro n hn
      left
      rcases eq_or_ne n dest with rfl | hne
      · exact hself
      · rw [hin n hne]
        rcases (h i).flagged n hn with hflag | ⟨c', hc⟩
        · exact hflag
        · rw [hpc, Pc.queued.injEq] at hc
          exact absurd hc.2.symm hne
    · intro n hn
      obtain ⟨hown', hflag, hmem⟩ := (h i).current n hn
      refine ⟨hown', ?_, hmem⟩
      rcases eq_or_ne n dest with rfl | hne
      · exact hself
      · rw [hin n hne]
        exact hflag
    · intro c' n hc
      exact absurd hc (hresume c' n).1
    · intro c' n hc
      exact absurd hc (hresume c' n).2
    · intro hseen
      rw [goTo_pc_self] at hseen
      cases c <;> cases hseen

/-- The first node of the run queue becomes the current node. -/
theorem Flags.popNode (h : s.Flags owner) (hpc : s.pc i = .popNode) {node : ℕ} {nodes : List ℕ}
    (hqueue : s.queueNodes i = node :: nodes) :
    (((s.setQueueNodes i nodes).setCurrent i (some node)).goTo i .checkUseless).Flags owner := by
  have hi := h i
  have hnodup := hi.nodup
  rw [hqueue, List.nodup_cons] at hnodup
  have hmem : ∀ n, n ∈ nodes → n ∈ s.queueNodes i := by
    intro n hn
    rw [hqueue]
    exact List.mem_cons_of_mem _ hn
  have hhead : node ∈ s.queueNodes i := by
    rw [hqueue]
    exact List.mem_cons_self
  have hflag : ∀ n ∈ s.queueNodes i, s.inQueue n = true := by
    intro n hn
    rcases hi.flagged n hn with hin | ⟨c, hc⟩
    · exact hin
    · rw [hpc] at hc
      cases hc
  have hqueue' : (((s.setQueueNodes i nodes).setCurrent i (some node)).goTo i
      .checkUseless).queueNodes i = nodes := Function.update_self _ _ _
  have hcurrent : (((s.setQueueNodes i nodes).setCurrent i (some node)).goTo i
      .checkUseless).currentNode i = some node := Function.update_self _ _ _
  refine h.local (fun j hj => ⟨goTo_pc_of_ne hj, Function.update_of_ne hj _ _,
    Function.update_of_ne hj _ _⟩) (fun n _ => ⟨rfl, rfl⟩) ?_
  refine ⟨?_, ?_, ?_, ?_, ?_, ?_, ?_⟩
  · rw [hqueue']
    exact fun n hn => hi.owned n (hmem n hn)
  · rw [hqueue']
    exact hnodup.2
  · rw [hqueue']
    exact fun n hn => .inl (hflag n (hmem n hn))
  · intro n hn
    rw [hcurrent, Option.some.injEq] at hn
    rw [← hn, hqueue']
    exact ⟨hi.owned node hhead, hflag node hhead, hnodup.1⟩
  · intro c n hc
    rw [goTo_pc_self] at hc
    cases hc
  · intro c n hc
    rw [goTo_pc_self] at hc
    cases hc
  · intro hseen
    rw [goTo_pc_self] at hseen
    cases hseen

/-- The rules take facts of the current node. -/
theorem Flags.gather (h : s.Flags owner) (level : φ → ℕ) (hpc : s.pc i = .working) {node : ℕ}
    (hcurrent : s.currentNode i = some node) :
    (s.setQueue node (topList level (s.queue node))).Flags owner := by
  obtain ⟨hown, -⟩ := (h i).current node hcurrent
  refine h.local (i := i) (fun _ _ => ⟨rfl, rfl, rfl⟩) ?_ ?_
  · intro n hn
    refine ⟨rfl, Function.update_of_ne ?_ _ _⟩
    rintro rfl
    exact hn hown
  · refine (h i).goes rfl rfl rfl (by simp [hpc]) ?_ ?_ ?_
    · exact (h i).added
    · intro c n hc
      rw [show (s.setQueue node (topList level (s.queue node))).pc i = s.pc i from rfl, hpc] at hc
      cases hc
    · intro hseen
      rw [show (s.setQueue node (topList level (s.queue node))).pc i = s.pc i from rfl, hpc]
        at hseen
      cases hseen

theorem Flags.doWork (h : s.Flags owner) (hpc : s.pc i = .working) (work : Work φ) :
    (s.doWork owner level i work).Flags owner := by
  have hfailed : (s.goTo i .failed).Flags owner :=
    h.goTo (by simp [hpc]) (by simp) (by simp) (by simp [Pc.seen])
  cases work with
  | gather =>
    rw [Static.doWork]
    split
    · rename_i node hcurrent
      exact h.gather level hpc hcurrent
    · exact hfailed
  | route dest fact =>
    rw [Static.doWork]
    split_ifs with hown
    · exact h.newWork fact (by simp [hpc]) hown
    · exact h.newWorkOther fact (by simp [hpc])
    · exact hfailed
  | finish => exact h.goTo (by simp [hpc]) (by simp) (by simp) (by simp [Pc.seen])

/-! ### Every step -/

/-- The places where a thread goes on. -/
theorem resume_ne {c : Caller} : (∀ c' n, (c.resume : Pc size φ) ≠ .added c' n) ∧
    (∀ c' n, (c.resume : Pc size φ) ≠ .queued c' n) ∧
    (c.resume : Pc size φ).seen = false := by
  cases c <;> simp [Caller.resume, Pc.seen]

theorem done_ne {c : Caller} : (∀ c' n, (c.done : Pc size φ) ≠ .added c' n) ∧
    (∀ c' n, (c.done : Pc size φ) ≠ .queued c' n) ∧ (c.done : Pc size φ).seen = false := by
  cases c <;> simp [Caller.done, Pc.seen]

theorem activator_resume_ne {a : Activator} : (∀ c' n, (a.resume : Pc size φ) ≠ .added c' n) ∧
    (∀ c' n, (a.resume : Pc size φ) ≠ .queued c' n) ∧
    (a.resume : Pc size φ).seen = false := by
  cases a <;> simp [Activator.resume, Pc.seen]

/-- A step to a place at which nothing is asked of the facts of the current node. -/
theorem Flags.goTo_of_not_seen (h : s.Flags owner) {pc : Pc size φ}
    (hold : ∀ c n, s.pc i ≠ .queued c n) (hpc : (∀ c n, pc ≠ .added c n) ∧
      (∀ c n, pc ≠ .queued c n) ∧ pc.seen = false) : (s.goTo i pc).Flags owner := by
  refine h.goTo hold hpc.1 hpc.2.1 ?_
  intro hseen
  rw [hpc.2.2] at hseen
  cases hseen

/-- A step on the way to a node that the thread has seen to have facts. -/
theorem Flags.goTo_of_seen (h : s.Flags owner) {pc : Pc size φ}
    (hold : ∀ c n, s.pc i ≠ .queued c n) (hpc : (∀ c n, pc ≠ .added c n) ∧
      ∀ c n, pc ≠ .queued c n) (hseen : pc.seen = true → (s.pc i).seen = true) :
    (s.goTo i pc).Flags owner :=
  h.goTo hold hpc.1 hpc.2 fun hpc' => (h i).facts (hseen hpc')

theorem Flags.stepOf (h : s.Flags owner) (hnone : s.pc i = .popNode → s.currentNode i = none)
    (work : Work φ) : (s.stepOf owner level i work).Flags owner := by
  -- where nodes or flags change there is a lemma, elsewhere the thread only goes on
  rw [Static.stepOf]
  cases hpc : s.pc i with
  | getWork =>
    have hold : ∀ c n, s.pc i ≠ .queued c n := by simp [hpc]
    simp only
    split_ifs with hsome
    · exact h.goTo_of_not_seen hold (by simp [Pc.seen])
    · refine h.goTo hold (by simp) (by simp) ?_
      intro _ n hn
      rw [hn] at hsome
      exact absurd rfl hsome
  | checkUseless =>
    have hold : ∀ c n, s.pc i ≠ .queued c n := by simp [hpc]
    simp only
    split
    · rename_i node hcurrent
      split_ifs with hempty
      · exact h.checkUseless hold hcurrent
      · refine h.goTo hold (by simp) (by simp) ?_
        intro _ n hn hqueue
        rw [hcurrent, Option.some.injEq] at hn
        rw [hn, hqueue] at hempty
        exact hempty rfl
    · exact h.goTo_of_not_seen hold (by simp [Pc.seen])
  | nextNode =>
    simp only
    split_ifs with hsome
    · exact h.goTo_of_seen (by simp [hpc]) (by simp) (by simp [hpc, Pc.seen])
    · exact h.goTo_of_not_seen (by simp [hpc]) (by simp [Pc.seen])
  | retrieve c =>
    simp only
    split
    · exact h.goTo_of_not_seen (by simp [hpc]) done_ne
    · rename_i dest fact facts hbuffer
      have hpop : (s.setBuffer i facts).Flags owner := h.same rfl rfl rfl rfl rfl
      exact hpop.goTo_of_not_seen (by simp [Static.setBuffer, hpc]) (by simp [Pc.seen])
  | popped c dest fact =>
    simp only
    split_ifs with hown
    · exact h.newWork fact (by simp [hpc]) hown
    · exact h.newWorkOther fact (by simp [hpc])
  | added c dest =>
    simp only
    split_ifs with hin
    · exact h.goTo_of_not_seen (by simp [hpc]) resume_ne
    · exact h.addToQueue hpc (by simpa using hin)
  | queued c dest => exact h.queued hpc
  | wake c j =>
    have hold : ∀ c n, s.pc i ≠ .queued c n := by simp [hpc]
    simp only
    split_ifs
    · exact h.goTo_of_not_seen hold resume_ne
    · exact h
    · have hset : (s.setState i j .active).Flags owner := h.same rfl rfl rfl rfl rfl
      exact hset.goTo_of_not_seen hold (by simp [Pc.seen])
    · exact h.goTo_of_not_seen hold resume_ne
  | barrierWake c j =>
    have hold : ∀ c n, s.pc i ≠ .queued c n := by simp [hpc]
    simp only
    split_ifs
    · have hset : (s.barrierIsActive j).Flags owner := h.same rfl rfl rfl rfl rfl
      exact hset.goTo_of_not_seen hold resume_ne
    · exact h.goTo_of_not_seen hold (by simp [Pc.seen])
  | checkWork | spin | makeInactive | checkDone =>
    simp only
    split_ifs <;> exact h.goTo_of_not_seen (by simp [hpc]) (by simp [Pc.seen])
  | makeInactiveLocked =>
    have hold : ∀ c n, s.pc i ≠ .queued c n := by simp [hpc]
    simp only
    split_ifs
    · exact h
    · have hset : (s.setState i i .inactive).Flags owner := h.same rfl rfl rfl rfl rfl
      exact hset.goTo_of_not_seen hold (by simp [Pc.seen])
    · exact h.goTo_of_not_seen hold (by simp [Pc.seen])
    · exact h.goTo_of_not_seen hold (by simp [Pc.seen])
  | barrierInactive =>
    have hold : ∀ c n, s.pc i ≠ .queued c n := by simp [hpc]
    simp only
    split_ifs
    · have hset : (s.barrierIsInactive i).Flags owner := h.same rfl rfl rfl rfl rfl
      exact hset.goTo_of_not_seen hold (by simp [Pc.seen])
    · exact h.goTo_of_not_seen hold (by simp [Pc.seen])
  | activate a =>
    simp only
    split_ifs
    · refine h.goTo_of_seen (by simp [hpc]) (by simp) ?_
      cases a <;> simp [hpc, Pc.seen]
    · exact h.goTo_of_not_seen (by simp [hpc]) activator_resume_ne
  | activateLocked a =>
    have hold : ∀ c n, s.pc i ≠ .queued c n := by simp [hpc]
    simp only
    split_ifs
    · exact h
    · have hset : (s.setState i i .active).Flags owner := h.same rfl rfl rfl rfl rfl
      refine hset.goTo_of_seen hold (by simp) ?_
      cases a <;> simp [Static.setState, hpc, Pc.seen]
    · exact h.goTo_of_not_seen hold activator_resume_ne
  | barrierActive a =>
    have hold : ∀ c n, s.pc i ≠ .queued c n := by simp [hpc]
    simp only
    split_ifs
    · have hset : (s.barrierIsActive i).Flags owner := h.same rfl rfl rfl rfl rfl
      exact hset.goTo_of_not_seen hold activator_resume_ne
    · exact h.goTo_of_not_seen hold (by simp [Pc.seen])
  | waitEnd =>
    simp only
    split_ifs <;> exact h.goTo_of_not_seen (by simp [hpc]) (by simp [Pc.seen])
  | popNode =>
    simp only
    split
    · refine h.goTo (by simp [hpc]) (by simp) (by simp) ?_
      rw [hnone hpc]
      simp
    · rename_i node nodes hqueue
      exact h.popNode hpc hqueue
  | working => exact h.doWork hpc work
  | left | failed => exact h

/-! ### No assertion fails -/

/-- A current node is flagged, and has facts where the thread has seen that it has. -/
theorem Flags.assertGetWork (h : s.Flags owner) (hsome : (s.currentNode i).isSome)
    (hseen : (s.pc i).seen = true) : s.assertGetWork i = true := by
  obtain ⟨node, hcurrent⟩ := Option.isSome_iff_exists.mp hsome
  have hfacts := (h i).facts hseen node hcurrent
  rw [Static.assertGetWork, hcurrent, Option.any_some, ((h i).current node hcurrent).2.1]
  simpa using hfacts

theorem Flags.assertPush (h : s.Flags owner) {dest : ℕ} (hown : owner dest = i)
    (hold : ∀ c, s.pc i ≠ .queued c dest) : s.assertPush dest = true := by
  rw [Static.assertPush]
  cases hin : s.inQueue dest with
  | true => rfl
  | false =>
    rw [Bool.false_or, decide_eq_true_iff]
    exact h.notMem hown hin hold

/-- With the invariant of the scheduler no assertion of a thread fails. -/
theorem Flags.asserts (h : s.Flags owner) (hinv : Inv owner s) (i : Fin size) (work : Work φ) :
    s.asserts owner i work = true := by
  have hok := hinv.pcOk i
  rw [Static.asserts.eq_def]
  cases hpc : s.pc i with
  -- a node that is current is the thread's own
  | checkUseless =>
    simp only
    rw [Option.all_eq_true]
    intro node hcurrent
    rw [((h i).current node hcurrent).2.1, Bool.or_true]
  | nextNode =>
    simp only
    rw [Option.all_eq_true]
    intro node hcurrent
    have hfacts := (h i).facts (by rw [hpc]; rfl) node hcurrent
    simpa using hfacts
  -- a node that got a fact is not queued yet
  | added c dest => exact h.assertPush ((h i).added c dest hpc) (by simp [hpc])
  | queued c dest =>
    have hself : (s.setInQueue dest true).inQueue dest = true := Function.update_self _ _ _
    simp only
    rw [((h i).queued c dest hpc).2, hself]
    simp
  -- the state of the other thread is what the barrier counts
  | barrierWake c j =>
    simp only
    rw [decide_eq_true_iff]
    refine hinv.locks.state i j _ ?_
    rw [hpc]
    rfl
  -- the first node of the queue is flagged
  | popNode =>
    simp only
    rw [Option.all_eq_true]
    intro node hhead
    rcases (h i).flagged node (List.mem_of_mem_head? hhead) with hin | ⟨c, hc⟩
    · exact hin
    · rw [hpc] at hc
      cases hc
  -- a thread that is active has a current node or none
  | activate a =>
    rw [hpc] at hok
    cases a with
    | wait => rfl
    | node =>
      simp only
      rw [h.assertGetWork hok (by rw [hpc]; rfl), Bool.or_true]
  | activateLocked a =>
    rw [hpc] at hok
    cases a with
    | wait => rfl
    | node =>
      simp only
      rw [h.assertGetWork hok (by rw [hpc]; rfl), Bool.or_true]
  | barrierActive a =>
    rw [hpc] at hok
    cases a with
    | wait => rfl
    | node => exact h.assertGetWork hok (by rw [hpc]; rfl)
  | working =>
    rw [hpc] at hok
    cases work with
    | gather | route => rfl
    | finish =>
      obtain ⟨node, hcurrent⟩ := Option.isSome_iff_exists.mp hok.2
      obtain ⟨hown, hin, -⟩ := (h i).current node hcurrent
      simp only
      rw [Static.assertFinishWork, hcurrent, Option.any_some, hin, hown]
      simp
  | getWork | retrieve | popped | wake | checkWork | spin | makeInactive | makeInactiveLocked
  | barrierInactive | checkDone | waitEnd | left | failed => rfl

end Static

end Meld.Thread
