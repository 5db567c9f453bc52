import Meld.Thread.StaticInvariant

/-!
# The steps of the static scheduler

Every step of a thread keeps the invariant: `Inv.local` is about the steps that no other thread
sees, `Inv.setState` and `Inv.release` about the locks and the barrier.
-/

namespace Meld.Thread

open Lib

variable {size : ℕ} {φ : Type}

namespace Static

variable {s s' : Static size φ} {i j k : Fin size} {owner : ℕ → Fin size} {level : φ → ℕ}

/-! ### Facts on their way -/

/-- A fact is taken out of the inbox. -/
theorem Inv.pop (h : Inv owner s) {c : Caller} (hpc : s.pc i = .retrieve c) {dest : ℕ} {fact : φ}
    {facts : List (ℕ × φ)} (hbuffer : s.buffer i = (dest, fact) :: facts) :
    Inv owner ((s.setBuffer i facts).goTo i (.popped c dest fact)) := by
  have hok := h.pcOk i
  rw [hpc] at hok
  have hsub : ∀ j, ∀ f ∈ ((s.setBuffer i facts).goTo i (.popped c dest fact)).buffer j,
      f ∈ s.buffer j := by
    intro j f hf
    rcases eq_or_ne j i with rfl | hne
    · rw [hbuffer]
      rw [show ((s.setBuffer j facts).goTo j (.popped c dest fact)).buffer j = facts from
        Function.update_self _ _ _] at hf
      exact List.mem_cons_of_mem _ hf
    · rwa [show ((s.setBuffer i facts).goTo i (.popped c dest fact)).buffer j = s.buffer j from
        Function.update_of_ne hne _ _] at hf
  refine ⟨h.locks.congr rfl rfl rfl fun k => ?_, h.inbox.mono hsub fun j _ hawake => ?_,
    ⟨(h.nodes.goTo (i := i) (.popped c dest fact) (by simp [hpc])).queue, h.nodes.inQueue⟩,
    fun j => ?_⟩
  · rcases eq_or_ne k i with rfl | hne
    · rw [goTo_pc_self, hpc]
      rfl
    · rw [goTo_pc_of_ne hne]
      rfl
  · exact hawake.congr (i := i) .intro (.inl (by rw [hpc]; exact nofun)) fun k hk =>
      goTo_pc_of_ne hk
  · rcases eq_or_ne j i with rfl | hne
    · rw [goTo_pc_self]
      exact ⟨hok.1, hok.2, h.inbox.owned j (dest, fact) (by rw [hbuffer]; exact .head _)⟩
    · rw [goTo_pc_of_ne hne]
      refine (h.pcOk j).congr id rfl rfl (fun hwork => ?_) id
      rw [hasWork, show ((s.setBuffer i facts).goTo i (.popped c dest fact)).buffer j =
        s.buffer j from Function.update_of_ne hne _ _]
      exact hwork

/-- A step of the thread `i` that leaves the inboxes, the states and the locks as they are, and of
the threads changes only `i`. -/
theorem Inv.local (h : Inv owner s) (hbuffer : s'.buffer = s.buffer)
    (htstate : s'.tstate = s.tstate) (hlock : s'.lock = s.lock)
    (hactive : s'.activeThreads = s.activeThreads) (hdone : s'.done = s.done)
    (hpending : (s'.pc i).pending i = (s.pc i).pending i)
    (hwaking : (s'.pc i).waking = (s.pc i).waking)
    (hothers : ∀ j, j ≠ i → s'.pc j = s.pc j ∧ s'.currentNode j = s.currentNode j ∧
      s'.queueNodes j = s.queueNodes j)
    (hnodes : Nodes owner s') (hok : PcOk owner s' i (s'.pc i)) : Inv owner s' := by
  refine ⟨h.locks.congr htstate hlock hactive fun k => ?_,
    h.inbox.mono (fun j f hf => hbuffer ▸ hf) fun j _ hawake => ?_, hnodes, fun j => ?_⟩
  · rcases eq_or_ne k i with rfl | hne
    · exact hpending
    · rw [(hothers k hne).1]
  · refine hawake.congr (i := i) ?_ (.inr hwaking) fun k hk => (hothers k hk).1
    rw [htstate, hlock]
    exact .intro
  · rcases eq_or_ne j i with rfl | hne
    · exact hok
    · obtain ⟨hpc, hcurrent, hqueue⟩ := hothers j hne
      rw [hpc]
      refine (h.pcOk j).congr (by rw [htstate]; exact id) hcurrent hqueue ?_
        (by rw [hdone]; exact id)
      rw [hasWork, hasWork, hqueue, hbuffer]
      exact id

/-- A fact is put into a node. -/
theorem Inv.newWork (h : Inv owner s) {c : Caller} {dest : ℕ} (fact : φ)
    (hpending : (s.pc i).pending i = none) (hwaking : (s.pc i).waking = none)
    (hadded : ∀ c n, s.pc i ≠ .added c n) (hok : s.CallerOk i c) (howner : owner dest = i) :
    Inv owner (s.newWork i c dest fact) := by
  have hpc : (s.newWork i c dest fact).pc i = .added c dest := goTo_pc_self
  refine h.local (i := i) rfl rfl rfl rfl rfl
    (by rw [hpc, hpending]; rfl) (by rw [hpc, hwaking]; rfl)
    (fun j hj => ⟨goTo_pc_of_ne hj, rfl, rfl⟩) ?_ (by rw [hpc]; exact ⟨hok, howner⟩)
  refine ⟨fun n hn => ?_, h.nodes.inQueue⟩
  rcases eq_or_ne n dest with rfl | hne
  · exact .inr (.inr ⟨c, by rw [howner, hpc]⟩)
  · rw [show (s.newWork i c dest fact).queue n = s.queue n from Function.update_of_ne hne _ _] at hn
    exact (h.nodes.goTo (.added c dest) hadded).queue n hn

/-- The node that has got a fact is in the run queue, or is put there. -/
theorem Inv.addToQueue (h : Inv owner s) {c : Caller} {dest : ℕ} (hpc : s.pc i = .added c dest) :
    Inv owner ((s.setQueueNodes i (s.queueNodes i ++ [dest])).goTo i (.queued c dest)) := by
  have hok := h.pcOk i
  rw [hpc] at hok
  have hpc' : ((s.setQueueNodes i (s.queueNodes i ++ [dest])).goTo i (.queued c dest)).pc i =
      .queued c dest := goTo_pc_self
  have hself : ((s.setQueueNodes i (s.queueNodes i ++ [dest])).goTo i
      (.queued c dest)).queueNodes i = s.queueNodes i ++ [dest] := Function.update_self _ _ _
  have hothers : ∀ j, j ≠ i → ((s.setQueueNodes i (s.queueNodes i ++ [dest])).goTo i
      (.queued c dest)).queueNodes j = s.queueNodes j := fun j hj => Function.update_of_ne hj _ _
  have hmono : ∀ j, ∀ n ∈ s.queueNodes j, n ∈ ((s.setQueueNodes i (s.queueNodes i ++ [dest])).goTo
      i (.queued c dest)).queueNodes j := by
    intro j n hn
    rcases eq_or_ne j i with rfl | hne
    · rw [hself]
      exact List.mem_append_left _ hn
    · rwa [hothers j hne]
  refine h.local (i := i) rfl rfl rfl rfl rfl (by rw [hpc, hpc']; rfl) (by rw [hpc, hpc']; rfl)
    (fun j hj => ⟨goTo_pc_of_ne hj, rfl, hothers j hj⟩) ⟨fun n hn => ?_, fun n hn => ?_⟩ ?_
  · rcases h.nodes.queue n hn with hmem | hcurrent | ⟨c', hadded⟩
    · exact .inl (hmono _ n hmem)
    · exact .inr (.inl hcurrent)
    · rcases eq_or_ne (owner n) i with heq | hne
      · rw [heq, hpc] at hadded
        cases hadded
        left
        rw [heq, hself]
        exact List.mem_append_right _ (List.mem_singleton_self _)
      · exact .inr (.inr ⟨c', by rw [goTo_pc_of_ne hne]; exact hadded⟩)
  · exact (h.nodes.inQueue n hn).imp_left (hmono _ n)
  · rw [hpc']
    refine ⟨hok.1.congr id rfl, hok.2, ?_⟩
    rw [hself]
    exact List.mem_append_right _ (List.mem_singleton_self _)

theorem Inv.added (h : Inv owner s) {c : Caller} {dest : ℕ} (hpc : s.pc i = .added c dest)
    (hin : s.inQueue dest = true) : Inv owner (s.goTo i c.resume) := by
  have hok := h.pcOk i
  rw [hpc] at hok
  refine h.local (i := i) rfl rfl rfl rfl rfl
    (by rw [goTo_pc_self, hpc, pending_caller_resume]; rfl) (by rw [goTo_pc_self, hpc]; cases c <;> rfl) (fun j hj => ⟨goTo_pc_of_ne hj, rfl, rfl⟩)
    ⟨fun n hn => ?_, h.nodes.inQueue⟩ ?_
  · rcases h.nodes.queue n hn with hmem | hcurrent | ⟨c', hadded⟩
    · exact .inl hmem
    · exact .inr (.inl hcurrent)
    · rcases eq_or_ne (owner n) i with heq | hne
      · rw [heq, hpc] at hadded
        cases hadded
        exact (h.nodes.inQueue dest hin).imp_right .inl
      · exact .inr (.inr ⟨c', by rw [goTo_pc_of_ne hne]; exact hadded⟩)
  · rw [goTo_pc_self]
    exact (hok.1.congr id rfl).resume

theorem Inv.queued (h : Inv owner s) {c : Caller} {dest : ℕ} (hpc : s.pc i = .queued c dest) :
    Inv owner ((s.setInQueue dest true).goTo i c.resume) := by
  have hok := h.pcOk i
  rw [hpc] at hok
  refine h.local (i := i) rfl rfl rfl rfl rfl
    (by rw [goTo_pc_self, hpc, pending_caller_resume]; rfl) (by rw [goTo_pc_self, hpc]; cases c <;> rfl) (fun j hj => ⟨goTo_pc_of_ne hj, rfl, rfl⟩)
    ⟨(h.nodes.goTo c.resume (by simp [hpc])).queue, fun n hn => ?_⟩ ?_
  · rcases eq_or_ne n dest with rfl | hne
    · left
      rw [hok.2.1]
      exact hok.2.2
    · rw [show ((s.setInQueue dest true).goTo i c.resume).inQueue n = s.inQueue n from
        Function.update_of_ne hne _ _] at hn
      exact h.nodes.inQueue n hn
  · rw [goTo_pc_self]
    exact (hok.1.congr id rfl).resume

/-- A fact is pushed into the inbox of another thread. -/
theorem Inv.newWorkOther (h : Inv owner s) (hpc : s.pc i = .working) {dest : ℕ} (fact : φ)
    (howner : owner dest ≠ i) : Inv owner (s.newWorkOther owner i .work dest fact) := by
  have hok := h.pcOk i
  rw [hpc] at hok
  have hpc' : (s.newWorkOther owner i .work dest fact).pc i = .wake .work (owner dest) :=
    goTo_pc_self
  have hself : (s.newWorkOther owner i .work dest fact).buffer (owner dest) =
      s.buffer (owner dest) ++ [(dest, fact)] := Function.update_self _ _ _
  have hothers : ∀ j, j ≠ owner dest →
      (s.newWorkOther owner i .work dest fact).buffer j = s.buffer j :=
    fun j hj => Function.update_of_ne hj _ _
  refine ⟨h.locks.congr rfl rfl rfl fun k => ?_, ⟨fun j hj => ?_, fun j f hf => ?_⟩,
    ⟨(h.nodes.goTo (i := i) (.wake .work (owner dest)) (by simp [hpc])).queue, h.nodes.inQueue⟩,
    fun j => ?_⟩
  · rcases eq_or_ne k i with rfl | hne
    · rw [hpc', hpc]
      rfl
    · rw [show (s.newWorkOther owner i .work dest fact).pc k = s.pc k from goTo_pc_of_ne hne]
  · rcases eq_or_ne j (owner dest) with rfl | hne
    · exact .inr ⟨i, by rw [hpc']; rfl⟩
    · rw [hothers j hne] at hj
      exact (h.inbox.awake j hj).congr (i := i) .intro (.inl (by rw [hpc]; exact nofun))
        fun k hk => goTo_pc_of_ne hk
  · rcases eq_or_ne j (owner dest) with rfl | hne
    · rw [hself, List.mem_append, List.mem_singleton] at hf
      rcases hf with hf | rfl
      · exact h.inbox.owned _ f hf
      · rfl
    · rw [hothers j hne] at hf
      exact h.inbox.owned j f hf
  · rcases eq_or_ne j i with rfl | hne
    · rw [hpc']
      exact ⟨rfl, CallerOk.congr (c := .work) hok id rfl, howner.symm⟩
    · rw [show (s.newWorkOther owner i .work dest fact).pc j = s.pc j from goTo_pc_of_ne hne]
      refine (h.pcOk j).congr id rfl rfl (fun hwork => ?_) id
      rcases eq_or_ne j (owner dest) with rfl | hj
      · rw [hasWork, hself]
        simp
      · rw [hasWork, hothers j hj]
        exact hwork

/-! ### The current node -/

/-- A node without facts stops being the current node. -/
theorem Inv.checkUseless (h : Inv owner s) (hpc : s.pc i = .checkUseless) {node : ℕ}
    (hcurrent : s.currentNode i = some node) (hempty : s.queue node = []) :
    Inv owner (((s.setInQueue node false).setCurrent i none).goTo i .nextNode) := by
  have hin_of_ne : ∀ n, n ≠ node →
      (((s.setInQueue node false).setCurrent i none).goTo i .nextNode).inQueue n = s.inQueue n :=
    fun n hn => Function.update_of_ne hn _ _
  have hcurrent_of_ne : ∀ j, j ≠ i →
      (((s.setInQueue node false).setCurrent i none).goTo i .nextNode).currentNode j =
        s.currentNode j := fun j hj => Function.update_of_ne hj _ _
  -- only the node itself had the thread's current node as its witness
  have hkeep : ∀ n, n ≠ node → s.currentNode (owner n) = some n →
      (((s.setInQueue node false).setCurrent i none).goTo i .nextNode).currentNode (owner n) =
        some n := by
    intro n hn hc
    rw [hcurrent_of_ne, hc]
    intro heq
    rw [heq, hcurrent, Option.some.injEq] at hc
    exact hn hc.symm
  refine h.local (i := i) rfl rfl rfl rfl rfl (by rw [goTo_pc_self, hpc]; rfl)
    (by rw [goTo_pc_self, hpc]; rfl) (fun j hj => ⟨goTo_pc_of_ne hj, hcurrent_of_ne j hj, rfl⟩)
    ⟨fun n hn => ?_, fun n hn => ?_⟩ (by rw [goTo_pc_self]; trivial)
  · have hne : n ≠ node := by
      rintro rfl
      exact hn hempty
    rcases (h.nodes.goTo (i := i) .nextNode (by simp [hpc])).queue n hn with hmem | hc | hadded
    · exact .inl hmem
    · exact .inr (.inl (hkeep n hne hc))
    · exact .inr (.inr hadded)
  · have hne : n ≠ node := by
      rintro rfl
      rw [show (((s.setInQueue n false).setCurrent i none).goTo i .nextNode).inQueue n = false from
        Function.update_self _ _ _] at hn
      cases hn
    rw [hin_of_ne n hne] at hn
    exact (h.nodes.inQueue n hn).imp_right (hkeep n hne)

/-- A node of the run queue becomes the current node. -/
theorem Inv.popNode (h : Inv owner s) (hpc : s.pc i = .popNode) {node : ℕ} {nodes : List ℕ}
    (hqueue : s.queueNodes i = node :: nodes) :
    Inv owner (((s.setQueueNodes i nodes).setCurrent i (some node)).goTo i .checkUseless) := by
  have hok := h.pcOk i
  rw [hpc] at hok
  have hqueue_self : (((s.setQueueNodes i nodes).setCurrent i (some node)).goTo i
      .checkUseless).queueNodes i = nodes := Function.update_self _ _ _
  have hcurrent_self : (((s.setQueueNodes i nodes).setCurrent i (some node)).goTo i
      .checkUseless).currentNode i = some node := Function.update_self _ _ _
  have hothers : ∀ j, j ≠ i →
      (((s.setQueueNodes i nodes).setCurrent i (some node)).goTo i .checkUseless).currentNode j =
        s.currentNode j ∧
      (((s.setQueueNodes i nodes).setCurrent i (some node)).goTo i .checkUseless).queueNodes j =
        s.queueNodes j := fun j hj =>
    ⟨Function.update_of_ne hj _ _, Function.update_of_ne hj _ _⟩
  -- a node that was seen is still seen
  have hkeep : ∀ n, n ∈ s.queueNodes (owner n) ∨ s.currentNode (owner n) = some n →
      n ∈ (((s.setQueueNodes i nodes).setCurrent i (some node)).goTo i
        .checkUseless).queueNodes (owner n) ∨
      (((s.setQueueNodes i nodes).setCurrent i (some node)).goTo i
        .checkUseless).currentNode (owner n) = some n := by
    intro n hn
    rcases eq_or_ne (owner n) i with heq | hne
    · rw [heq, hqueue_self, hcurrent_self]
      rw [heq, hqueue, hok] at hn
      rcases hn with hmem | hc
      · rcases List.mem_cons.mp hmem with rfl | hmem
        · exact .inr rfl
        · exact .inl hmem
      · cases hc
    · rw [(hothers _ hne).1, (hothers _ hne).2]
      exact hn
  refine h.local (i := i) rfl rfl rfl rfl rfl (by rw [goTo_pc_self, hpc]; rfl)
    (by rw [goTo_pc_self, hpc]; rfl) (fun j hj => ⟨goTo_pc_of_ne hj, hothers j hj⟩)
    ⟨fun n hn => ?_, fun n hn => hkeep n (h.nodes.inQueue n hn)⟩ ?_
  · rcases (h.nodes.goTo (i := i) .checkUseless (by simp [hpc])).queue n hn with
      hmem | hc | hadded
    · exact (hkeep n (.inl hmem)).imp_right .inl
    · exact (hkeep n (.inr hc)).imp_right .inl
    · exact .inr (.inr hadded)
  · rw [goTo_pc_self, PcOk, hcurrent_self]
    rfl

/-- The rules take facts of a node. -/
theorem Inv.gather (h : Inv owner s) (level : φ → ℕ) (node : ℕ) :
    Inv owner (s.setQueue node (topList level (s.queue node))) := by
  refine ⟨h.locks.congr rfl rfl rfl fun _ => rfl,
    h.inbox.mono (fun _ _ hf => hf) fun _ _ hawake => hawake, ⟨fun n hn => h.nodes.queue n ?_,
    h.nodes.inQueue⟩, fun j => (h.pcOk j).congr id rfl rfl id id⟩
  intro hempty
  refine hn ?_
  rcases eq_or_ne n node with rfl | hne
  · rw [show (s.setQueue n (topList level (s.queue n))).queue n = topList level (s.queue n) from
      Function.update_self _ _ _, hempty]
    rfl
  · rw [show (s.setQueue node (topList level (s.queue node))).queue n = s.queue n from
      Function.update_of_ne hne _ _, hempty]

/-! ### The states of the threads -/

/-- A thread takes a lock and changes the state. -/
theorem Inv.setState (h : Inv owner s) {state : ThreadState} {pc : Pc size φ}
    (hlock : s.lock j = none) (hne : s.tstate j ≠ state) (hold : (s.pc i).pending i = none)
    (hadded : ∀ c n, s.pc i ≠ .added c n) (hpc : pc.pending i = some (j, state))
    (hwaking : pc.waking = (s.pc i).waking)
    (hinactive : state = .inactive → i = j ∧ s.buffer j = [])
    (hok : PcOk owner ((s.setState i j state).goTo i pc) i pc) :
    Inv owner ((s.setState i j state).goTo i pc) := by
  have hpc_of_ne : ∀ k, k ≠ i → ((s.setState i j state).goTo i pc).pc k = s.pc k :=
    fun k hk => goTo_pc_of_ne hk
  have hstate_of_ne : ∀ k, k ≠ j → ((s.setState i j state).goTo i pc).tstate k = s.tstate k ∧
      ((s.setState i j state).goTo i pc).lock k = s.lock k := fun k hk =>
    ⟨Function.update_of_ne hk _ _, Function.update_of_ne hk _ _⟩
  refine ⟨h.locks.setState hlock hne hold hpc, h.inbox.mono (fun _ _ hf => hf)
    fun k hk hawake => hawake.congr (i := i) (fun hactive hfree => ?_)
      (.inr (by rw [goTo_pc_self, hwaking])) hpc_of_ne,
    ⟨(h.nodes.goTo pc hadded).queue, h.nodes.inQueue⟩, fun k => ?_⟩
  · rcases eq_or_ne k j with rfl | hkj
    · cases state with
      | active => exact absurd hactive hne
      | inactive => exact absurd (hinactive rfl).2 hk
    · rw [(hstate_of_ne k hkj).1, (hstate_of_ne k hkj).2]
      exact ⟨hactive, hfree⟩
  · rcases eq_or_ne k i with rfl | hki
    · rw [goTo_pc_self]
      exact hok
    · rw [hpc_of_ne k hki]
      refine (h.pcOk k).congr (fun hactive => ?_) rfl rfl id id
      rcases eq_or_ne k j with rfl | hkj
      · cases state with
        | active => exact Function.update_self _ _ _
        | inactive => exact absurd (hinactive rfl).1.symm hki
      · rw [(hstate_of_ne k hkj).1]
        exact hactive

/-- A thread releases a lock after its update of the barrier. -/
theorem Inv.release (h : Inv owner s) {state : ThreadState}
    (hold : (s.pc i).pending i = some (j, state)) (hbuffer : s'.buffer = s.buffer)
    (htstate : s'.tstate = s.tstate) (hlock : s'.lock = Function.update s.lock j none)
    (hpc : ∀ k, k ≠ i → s'.pc k = s.pc k) (hcurrent : s'.currentNode = s.currentNode)
    (hqueue : s'.queueNodes = s.queueNodes) (hdone : s.done = true → s'.done = true)
    (hwaking : ∀ k, (s.pc i).waking = some k → k = j ∧ state = .active) (hlocks : s'.Locks)
    (hnodes : Nodes owner s') (hok : PcOk owner s' i (s'.pc i)) : Inv owner s' := by
  have hstate := h.locks.state i j state hold
  have hheld := (h.locks.holder i j).mpr ⟨state, hold⟩
  refine ⟨hlocks, h.inbox.mono (fun k f hf => hbuffer ▸ hf) fun k _ hawake => ?_, hnodes,
    fun k => ?_⟩
  · by_cases hwoken : (s.pc i).waking = some k
    · -- the thread that is woken is active from now on
      obtain ⟨rfl, rfl⟩ := hwaking k hwoken
      left
      rw [htstate, hlock, Function.update_self]
      exact ⟨hstate, rfl⟩
    · refine hawake.congr (i := i) (fun hactive hfree => ?_) (.inl hwoken) hpc
      rw [htstate, hlock]
      refine ⟨hactive, ?_⟩
      rw [Function.update_of_ne]
      · exact hfree
      · rintro rfl
        rw [hheld] at hfree
        cases hfree
  · rcases eq_or_ne k i with rfl | hne
    · exact hok
    · rw [hpc k hne]
      refine (h.pcOk k).congr (by rw [htstate]; exact id) (by rw [hcurrent]) (by rw [hqueue]) ?_
        hdone
      rw [hasWork, hasWork, hqueue, hbuffer]
      exact id

theorem tstate_eq_active (h : s.tstate i ≠ .inactive) : s.tstate i = .active := by
  cases hstate : s.tstate i
  · rfl
  · exact absurd hstate h

theorem buffer_eq_nil (h : s.hasWork i = false) : s.queueNodes i = [] ∧ s.buffer i = [] := by
  rw [hasWork, Bool.or_eq_false_iff, Bool.not_eq_false', Bool.not_eq_false', List.isEmpty_iff,
    List.isEmpty_iff] at h
  exact h

/-- A thread that does not wake the owner of the inbox: the owner is active, or has seen the
inbox. -/
theorem Inv.wakeNot (h : Inv owner s) {c : Caller} (hpc : s.pc i = .wake c j)
    (hlock : s.lock j = none) (hnot : ¬(s.tstate j = .inactive ∧ s.hasWork j = true)) :
    Inv owner (s.goTo i c.resume) := by
  have hok := h.pcOk i
  rw [hpc] at hok
  refine ⟨h.locks.goTo (by rw [hpc, pending_caller_resume]; rfl),
    h.inbox.mono (fun _ _ hf => hf) fun k hk hawake => ?_, h.nodes.goTo c.resume (by simp [hpc]),
    fun k => ?_⟩
  · rcases eq_or_ne k j with rfl | hkj
    · left
      refine ⟨tstate_eq_active fun hinactive => hnot ⟨hinactive, ?_⟩, hlock⟩
      by_contra hwork
      exact hk (buffer_eq_nil (Bool.eq_false_of_not_eq_true hwork)).2
    · refine hawake.congr (i := i) .intro (.inl ?_) fun m hm => goTo_pc_of_ne hm
      rw [hpc]
      exact fun heq => hkj (Option.some.inj heq).symm
  · rcases eq_or_ne k i with rfl | hne
    · rw [goTo_pc_self]
      exact (hok.2.1.congr id rfl).resume
    · rw [goTo_pc_of_ne hne]
      exact (h.pcOk k).congr id rfl rfl id id

/-- A thread is counted again by the barrier. -/
theorem Inv.barrierIsActive (h : Inv owner s) {pc : Pc size φ}
    (hold : (s.pc i).pending i = some (j, .active)) (hadded : ∀ c n, s.pc i ≠ .added c n)
    (hwaking : ∀ k, (s.pc i).waking = some k → k = j) (hpc : pc.pending i = none)
    (hok : PcOk owner s i pc) : Inv owner ((s.barrierIsActive j).goTo i pc) :=
  h.release hold rfl rfl rfl (fun k hk => goTo_pc_of_ne hk) rfl rfl id
    (fun k hk => ⟨hwaking k hk, rfl⟩) (h.locks.barrierIsActive hold hpc).2
    ⟨(h.nodes.goTo pc hadded).queue, h.nodes.inQueue⟩
    (by rw [goTo_pc_self]; exact hok.congr id rfl rfl id id)

theorem Inv.barrierIsInactive (h : Inv owner s) (hpc : s.pc i = .barrierInactive) :
    Inv owner ((s.barrierIsInactive i).goTo i .checkDone) := by
  have hok := h.pcOk i
  have hold : (s.pc i).pending i = some (i, .inactive) := by
    rw [hpc]
    rfl
  rw [hpc] at hok
  have hdone : s.done = true → (s.barrierIsInactive i).done = true := fun hdone => by
    rw [Static.barrierIsInactive, hdone, ite_self]
  exact h.release hold rfl rfl rfl (fun k hk => goTo_pc_of_ne hk) rfl rfl hdone
    (by rw [hpc]; exact nofun) (h.locks.barrierIsInactive hold rfl).2
    ⟨(h.nodes.goTo .checkDone (by simp [hpc])).queue, h.nodes.inQueue⟩
    (by rw [goTo_pc_self]; exact hok.1)

theorem Inv.doWork (h : Inv owner s) (hpc : s.pc i = .working) (work : Work φ) :
    Inv owner (s.doWork owner level i work) := by
  have hok := h.pcOk i
  rw [hpc] at hok
  obtain ⟨node, hnode⟩ := Option.isSome_iff_exists.mp hok.2
  cases work with
  | gather =>
    rw [Static.doWork, hnode]
    exact h.gather level node
  | route dest fact =>
    rw [Static.doWork]
    split_ifs with howner
    · exact h.newWork fact (by rw [hpc]; rfl) (by rw [hpc]; rfl) (by simp [hpc]) hok howner
    · exact h.newWorkOther hpc fact howner
    · exact absurd hok.1 ‹_›
  | finish =>
    exact h.goTo (by rw [hpc]; rfl) rfl (by rw [hpc]; rfl) (by simp [hpc]) trivial

theorem Inv.stepOf (h : Inv owner s) (work : Work φ) :
    Inv owner (s.stepOf owner level i work) := by
  have hok := h.pcOk i
  rw [Static.stepOf]
  cases hpc : s.pc i with
  | getWork =>
    refine h.goTo (by rw [hpc]; rfl) (by split_ifs <;> rfl) (by rw [hpc]; rfl) (by simp [hpc]) ?_
    split_ifs with hsome
    · exact hsome
    · trivial
  | checkUseless =>
    rw [hpc] at hok
    obtain ⟨node, hnode⟩ := Option.isSome_iff_exists.mp hok
    simp only [hnode]
    split_ifs with hempty
    · exact h.checkUseless hpc hnode (List.isEmpty_iff.mp hempty)
    · exact h.goTo (by rw [hpc]; rfl) rfl (by rw [hpc]; rfl) (by simp [hpc]) trivial
  | nextNode =>
    refine h.goTo (by rw [hpc]; rfl) (by split_ifs <;> rfl) (by rw [hpc]; rfl) (by simp [hpc]) ?_
    split_ifs with hsome
    · exact hsome
    · exact ⟨nofun, Option.not_isSome_iff_eq_none.mp hsome⟩
  | retrieve c =>
    rw [hpc] at hok
    simp only
    split
    · refine h.goTo (by rw [hpc]; rfl) pending_caller_done (by rw [hpc]; rfl) (by simp [hpc]) ?_
      cases c with
      | work => exact absurd rfl hok.1
      -- an inbox that is empty sends the caller back to where it was
      | next | busy => exact hok.2
    · rename_i hbuffer
      exact h.pop hpc hbuffer
  | popped c dest fact =>
    rw [hpc] at hok
    obtain ⟨hc, hnone, howner⟩ := hok
    simp only
    rw [if_pos howner]
    refine h.newWork fact (by rw [hpc]; rfl) (by rw [hpc]; rfl) (by simp [hpc]) ?_ howner
    cases c with
    | work => exact absurd rfl hc
    | next | busy => exact hnone
  | added c dest =>
    simp only
    -- a node that is queued already is not queued again
    split_ifs with hin
    · exact h.added hpc hin
    · exact h.addToQueue hpc
  | queued c dest => exact h.queued hpc
  | wake c j =>
    rw [hpc] at hok
    obtain ⟨hc, hcaller, hne⟩ := hok
    simp only
    -- a thread does not wake itself
    rw [if_neg hne]
    split_ifs with hlock hwake
    · -- the lock of the other thread is taken: the step waits
      exact h
    · refine h.setState (not_not.mp hlock) (by rw [hwake.1]; exact nofun) (by rw [hpc]; rfl)
        (by simp [hpc]) rfl (by rw [hpc]; rfl) nofun ⟨hc, hcaller.congr ?_ rfl, hne⟩
      intro hactive
      exact (Function.update_of_ne hne _ _).trans hactive
    · exact h.wakeNot hpc (not_not.mp hlock) hwake
  | barrierWake c j =>
    rw [hpc] at hok
    have hold : (s.pc i).pending i = some (j, .active) := by
      rw [hpc]
      rfl
    simp only
    rw [if_pos (h.locks.barrierIsActive hold (pending_caller_resume (c := c))).1]
    refine h.barrierIsActive hold (by simp [hpc]) (fun k hk => ?_) pending_caller_resume
      hok.2.1.resume
    rw [hpc] at hk
    exact (Option.some.inj hk).symm
  | checkWork =>
    rw [hpc] at hok
    refine h.goTo (by rw [hpc]; rfl) (by split_ifs <;> rfl) (by rw [hpc]; rfl) (by simp [hpc]) ?_
    split_ifs <;> exact hok
  | spin =>
    rw [hpc] at hok
    refine h.goTo (by rw [hpc]; rfl) (by split_ifs <;> rfl) (by rw [hpc]; rfl) (by simp [hpc]) ?_
    split_ifs with hwork
    · exact ⟨hok, hwork⟩
    · exact ⟨nofun, hok⟩
  | makeInactive =>
    rw [hpc] at hok
    refine h.goTo (by rw [hpc]; rfl) (by split_ifs <;> rfl) (by rw [hpc]; rfl) (by simp [hpc]) ?_
    split_ifs <;> exact hok
  | makeInactiveLocked =>
    rw [hpc] at hok
    simp only
    split_ifs with hlock hwork hactive
    · exact h
    · rw [Bool.not_eq_true'] at hwork
      exact h.setState (not_not.mp hlock) (by rw [hactive]; exact nofun) (by rw [hpc]; rfl)
        (by simp [hpc]) rfl (by rw [hpc]; rfl) (fun _ => ⟨rfl, (buffer_eq_nil hwork).2⟩)
        ⟨hok, (buffer_eq_nil hwork).1⟩
    · exact h.goTo (by rw [hpc]; rfl) rfl (by rw [hpc]; rfl) (by simp [hpc]) hok
    · refine h.goTo (by rw [hpc]; rfl) rfl (by rw [hpc]; rfl) (by simp [hpc]) ⟨hok, ?_⟩
      simpa using hwork
  | barrierInactive =>
    have hold : (s.pc i).pending i = some (i, .inactive) := by
      rw [hpc]
      rfl
    simp only
    rw [if_pos (h.locks.barrierIsInactive hold (pending_caller_resume (c := .work))).1]
    exact h.barrierIsInactive hpc
  | checkDone =>
    rw [hpc] at hok
    refine h.goTo (by rw [hpc]; rfl) (by split_ifs <;> rfl) (by rw [hpc]; rfl) (by simp [hpc]) ?_
    split_ifs with hdone
    · exact hdone
    · exact hdone
    · exact hok
  | activate a =>
    rw [hpc] at hok
    refine h.goTo (by rw [hpc]; rfl) ?_ (by rw [hpc]; rfl) (by simp [hpc]) ?_
    · split_ifs
      · rfl
      · exact pending_activator_resume
    · split_ifs with hinactive
      · exact hok
      · exact ActivatorOk.resume hok (tstate_eq_active hinactive)
  | activateLocked a =>
    rw [hpc] at hok
    simp only
    split_ifs with hlock hinactive
    · exact h
    · exact h.setState (not_not.mp hlock) (by rw [hinactive]; exact nofun) (by rw [hpc]; rfl)
        (by simp [hpc]) rfl (by rw [hpc]; rfl) nofun (ActivatorOk.congr hok rfl id)
    · exact h.goTo (by rw [hpc]; rfl) pending_activator_resume (by rw [hpc]; rfl) (by simp [hpc])
        (ActivatorOk.resume hok (tstate_eq_active hinactive))
  | barrierActive a =>
    rw [hpc] at hok
    have hold : (s.pc i).pending i = some (i, .active) := by
      rw [hpc]
      rfl
    simp only
    rw [if_pos (h.locks.barrierIsActive hold (pending_activator_resume (a := a))).1]
    exact h.barrierIsActive hold (by simp [hpc]) (by rw [hpc]; exact nofun)
      pending_activator_resume (ActivatorOk.resume hok (h.locks.state i i _ hold))
  | waitEnd =>
    rw [hpc] at hok
    simp only
    rw [if_pos ⟨hok.2, hok.1.2⟩]
    exact h.goTo (by rw [hpc]; rfl) rfl (by rw [hpc]; rfl) (by simp [hpc]) hok.1.1
  | popNode =>
    simp only
    split
    · exact h.goTo (by rw [hpc]; rfl) rfl (by rw [hpc]; rfl) (by simp [hpc]) trivial
    · rename_i hqueue
      exact h.popNode hpc hqueue
  | working => exact h.doWork hpc work
  | left => exact h
  | failed => exact h

end Static

end Meld.Thread
