import Meld.Thread.RoundsPhases

/-!
# The threads of the static scheduler go through the iterations together

Every step keeps the phases (`exists_inPhase`). So no thread begins an iteration before all have
ended the one before and have made their aggregates, every iteration begins in a state from which
the results about one iteration start, and the threads end the program together, with no fact left
(`iterations_inStep`).
-/

namespace Meld.Thread

open Lib

variable {size : ℕ} {φ : Type} {owner : ℕ → Fin size} {level : φ → ℕ} {nodes : List ℕ}
  {i j : Fin size}

namespace Rounds

variable {r r' : Rounds size φ} {n : ℕ}

/-! ### The threads work -/

theorem WorkingAt.congr (h : r.WorkingAt n j) (hround : r'.round j = r.round j)
    (hiter : r'.iteration j = r.iteration j)
    (hthread : r'.threadRoundState j = r.threadRoundState j)
    (hpc : r'.threads.pc j = r.threads.pc j) (hstate : r'.roundState = r.roundState) :
    r'.WorkingAt n j := by
  simp only [WorkingAt, Knows, Late, hround, hiter, hthread, hpc, hstate] at h ⊢
  exact h

/-- A thread that is late goes on. -/
theorem Working.moveTo (h : r.Working owner n) {pc : RoundPc}
    (hplace : (r.moveTo i pc).WorkingAt n i) : (r.moveTo i pc).Working owner n := by
  refine ⟨h.inv, h.done, h.total, ?_⟩
  intro j
  rcases eq_or_ne j i with rfl | hj
  · exact hplace
  · exact (h.place j).congr (Function.update_of_ne hj _ _) rfl rfl rfl rfl

/-- When the barrier is done, the threads begin to leave. -/
theorem Working.over (h : r.Working owner n) {s : Static size φ} (hinv : s.Inv owner)
    (hover : s.Over) (hdone : s.done = true)
    (hpc : ∀ j, r.round j ≠ .running → s.pc j = r.threads.pc j) :
    (r.setThreads s).Closing owner n := by
  refine ⟨hover.settled hinv, hdone, ?_, ?_, ?_⟩
  · rw [show (r.setThreads s).totalInAgg = r.totalInAgg from rfl, h.total,
      Finset.filter_true_of_mem fun j _ => .inl (h.place j).1, Finset.card_univ, Fintype.card_fin]
  · rw [show (r.setThreads s).threads.activeThreads = s.activeThreads from rfl, hinv.locks.count]
    refine congrArg Finset.card (Finset.filter_congr ?_)
    intro j _
    refine iff_of_false ?_ ?_
    · rw [Static.Counted, hover.tstate, hover.lock]
      simp
    · intro hactive
      have hstate := hactive.1
      rw [show (r.setThreads s).threads.tstate j = s.tstate j from rfl, hover.tstate] at hstate
      cases hstate
  · intro j
    obtain ⟨hiter, hplace⟩ := h.place j
    have hspent : (r.setThreads s).Spent n j := ⟨hiter, hover.tstate j, hover.queueNodes j⟩
    have hlate : r.round j ≠ .running → r.Late j → (r.setThreads s).Late j := by
      rintro hne ⟨hleader, hnext, hgetWork⟩
      exact ⟨hleader, hnext, (hpc j hne).trans hgetWork⟩
    rw [ClosingAt, show (r.setThreads s).round j = r.round j from rfl]
    cases hround : r.round j with
    | running =>
      rw [hround] at hplace
      refine ⟨hspent, hplace, hover.idle j, ?_⟩
      intro hretrieve
      have hok := hinv.pcOk j
      rw [show s.pc j = .retrieve .work from hretrieve] at hok
      exact hok.1 rfl
    | spinRound =>
      rw [hround] at hplace hlate
      exact .inl ⟨hspent, hlate (by simp) hplace⟩
    | checkRound | storeRound =>
      rw [hround] at hplace hlate
      exact ⟨hspent, hlate (by simp) hplace⟩
    | assertIteration | startRound | generateAggs | setActive | barrierActive | decrement | waitAgg
    | computeMoreWork | resetBarrier | resetTotal | nextRound | noRound | assertEnd | ended
    | failed =>
      rw [hround] at hplace
      exact hplace.elim

/-- What a thread does while the threads work. -/
theorem Working.stepOf (h : r.Working owner n) (hflags : r.threads.Flags owner)
    (hlatch : r.threads.LatchOk i) (work : Work φ) (agg : Option (ℕ × φ)) :
    (r.stepOf owner level nodes i work agg).InPhase owner n := by
  obtain ⟨hiter, hplace⟩ := h.place i
  cases hpc : r.round i with
  | running =>
    have hleft : (r.threads.pc i).returnsNull = false := by
      have hok := h.inv.pcOk i
      cases hpci : r.threads.pc i with
      | left =>
        rw [hpci, Static.PcOk, h.done] at hok
        cases hok
      | _ => rfl
    have hinv : (r.threads.stepOf owner level i work).Inv owner := h.inv.stepOf work
    -- only the place of the thread that steps is changed
    have hnot : ∀ j, r.round j ≠ .running →
        (r.threads.stepOf owner level i work).pc j = r.threads.pc j := by
      intro j hj
      refine Static.stepOf_pc_of_ne work ?_
      rintro rfl
      exact hj hpc
    simp only [Rounds.stepOf, hpc]
    rw [if_neg (by rw [hleft]; simp), if_pos (hflags.asserts h.inv i work)]
    cases hdone : (r.threads.stepOf owner level i work).done with
    | false =>
      refine .inl ⟨hinv, hdone, h.total, ?_⟩
      intro j
      by_cases hj : r.round j = .running
      · obtain ⟨hiterj, hplacej⟩ := h.place j
        rw [hj] at hplacej
        refine ⟨hiterj, ?_⟩
        rw [show (r.setThreads (r.threads.stepOf owner level i work)).round j = .running from hj]
        exact hplacej
      · exact (h.place j).congr rfl rfl rfl (hnot j hj) rfl
    -- the last thread has counted itself out: the iteration is over
    | true =>
      have hover := Static.over_stepOf h.inv (by rw [h.done]; simp) work hlatch hdone
      exact .inr (.inl (h.over hinv hover hdone hnot))
  | spinRound =>
    rw [hpc] at hplace
    simp only [Rounds.stepOf, hpc]
    split_ifs with hspin
    · exact .inl h
    · refine .inl (h.moveTo ⟨hiter, ?_⟩)
      rw [moveTo_round_self]
      exact hplace
  | checkRound =>
    rw [hpc] at hplace
    simp only [Rounds.stepOf, hpc]
    rw [if_pos hplace.2.1.symm]
    refine .inl (h.moveTo ⟨hiter, ?_⟩)
    rw [moveTo_round_self]
    exact hplace
  | storeRound =>
    rw [hpc] at hplace
    simp only [Rounds.stepOf, hpc]
    rw [if_pos hplace.2.1]
    refine .inl ⟨h.inv, h.done, h.total, ?_⟩
    intro j
    rcases eq_or_ne j i with rfl | hj
    · refine ⟨hiter, ?_⟩
      rw [moveTo_round_self]
      exact fun _ => (Function.update_self _ _ _).trans hplace.2.1
    · exact (h.place j).congr (Function.update_of_ne hj _ _) rfl (Function.update_of_ne hj _ _)
        rfl rfl
  | assertIteration | startRound | generateAggs | setActive | barrierActive | decrement | waitAgg
  | computeMoreWork | resetBarrier | resetTotal | nextRound | noRound | assertEnd | ended
  | failed =>
    rw [hpc] at hplace
    exact hplace.elim

/-! ### The leader decides -/

/-- Aggregates gave work to exactly the active threads: the next iteration can begin. -/
theorem Leading.start (h : r.Leading owner n) (hdone : r.threads.done = false) :
    r.threads.Start owner := by
  refine ⟨fun i => (h.place i).2.1.2, h.settled.currentNode, h.settled.lock, ?_, ?_,
    h.settled.queue, h.settled.inQueue, ?_, hdone⟩
  · intro i hinactive
    rw [h.settled.hasWork_eq_false]
    by_contra hqueue
    have hactive := (h.place i).1.mpr hqueue
    rw [hinactive] at hactive
    cases hactive
  · intro i fact hfact
    rw [h.settled.buffer] at hfact
    exact absurd hfact List.not_mem_nil
  · rw [h.active, Fintype.card_subtype]

/-- Beside the leader all threads wait for the next round. -/
theorem Leading.others (h : r.Leading owner n) (hi : i.val = 0) (hj : j ≠ i) :
    r.round j = .spinRound ∧ j.val ≠ 0 ∧ r.threadRoundState j = r.roundState := by
  have hne : j.val ≠ 0 := fun heq => hj (Fin.ext (heq.trans hi.symm))
  have hplace := (h.place j).2.2
  cases hround : r.round j with
  | spinRound =>
    rw [hround] at hplace
    exact ⟨rfl, hplace⟩
  | computeMoreWork | resetBarrier | resetTotal | nextRound | noRound =>
    rw [hround] at hplace
    exact absurd hplace.1 hne
  | running | assertIteration | startRound | generateAggs | setActive | barrierActive | decrement
  | waitAgg | checkRound | storeRound | assertEnd | ended | failed =>
    rw [hround] at hplace
    exact hplace.elim

/-- A step of the leader that keeps the states of the threads. -/
theorem Leading.step (h : r.Leading owner n) (hi : i.val = 0)
    (hsame : ∀ j, j ≠ i → SameAt r r' j) (hround : r'.roundState = r.roundState)
    (hsettled : r'.threads.Settled owner) (hstate : r'.threads.tstate = r.threads.tstate)
    (hcount : r'.threads.activeThreads = r.threads.activeThreads)
    (hplace : r'.LeadingAt n i) : r'.Leading owner n := by
  refine ⟨hsettled, ?_, ?_⟩
  · rw [hcount, hstate]
    exact h.active
  · intro j
    rcases eq_or_ne j i with rfl | hj
    · exact hplace
    · obtain ⟨hspin, hne, hthread⟩ := h.others hi hj
      obtain ⟨hready, ⟨hiter, hpc⟩, -⟩ := h.place j
      have hsamej := hsame j hj
      refine ⟨?_, ⟨hsamej.iteration.trans hiter, hsamej.pc.trans hpc⟩, ?_⟩
      · rw [Ready, hsamej.tstate, hsamej.queueNodes]
        exact hready
      · rw [hsamej.round, hspin]
        exact ⟨hne, by rw [hsamej.threadRoundState, hround, hthread]⟩

/-- The next iteration begins. -/
theorem Leading.nextRound (h : r.Leading owner n) (hpc : r.round i = .nextRound)
    (work : Work φ) (agg : Option (ℕ × φ)) :
    (r.stepOf owner level nodes i work agg).Working owner (n + 1) := by
  obtain ⟨-, hout, hplace⟩ := h.place i
  rw [hpc] at hplace
  obtain ⟨hi, hdone, htotal⟩ := hplace
  simp only [Rounds.stepOf, hpc]
  refine ⟨(h.start hdone).inv, hdone, htotal, ?_⟩
  intro j
  rcases eq_or_ne j i with rfl | hj
  · refine ⟨hout.1, ?_⟩
    rw [moveTo_round_self]
    exact fun hne => absurd hi hne
  · obtain ⟨hspin, hne, hthread⟩ := h.others hi hj
    have hround : ((r.setRoundState (getNext r.roundState)).moveTo i .running).round j =
        .spinRound := (Function.update_of_ne hj _ _).trans hspin
    refine ⟨(h.place j).2.1.1, ?_⟩
    rw [hround]
    -- the round state that the thread knows is the one before
    exact ⟨hne, congrArg getNext hthread, (h.place j).2.1.2⟩

/-- No thread is active: the program is over. -/
theorem Leading.noRound (h : r.Leading owner n) (hpc : r.round i = .noRound)
    (work : Work φ) (agg : Option (ℕ × φ)) :
    (r.stepOf owner level nodes i work agg).Finished owner n := by
  obtain ⟨-, -, hplace⟩ := h.place i
  rw [hpc] at hplace
  obtain ⟨hi, hdone, hzero⟩ := hplace
  have hspent : ∀ j, r.Spent (n + 1) j := by
    intro j
    have hinactive : r.threads.tstate j ≠ .active := by
      intro hactive
      have hempty := h.active
      rw [hzero] at hempty
      have hmem : j ∈ Finset.univ.filter fun k => r.threads.tstate k = .active :=
        Finset.mem_filter.mpr ⟨Finset.mem_univ j, hactive⟩
      rw [Finset.card_eq_zero.mp hempty.symm] at hmem
      exact absurd hmem (Finset.notMem_empty j)
    refine ⟨(h.place j).2.1.1, ?_, ?_⟩
    · cases hstate : r.threads.tstate j with
      | active => exact absurd hstate hinactive
      | inactive => rfl
    · by_contra hqueue
      exact hinactive ((h.place j).1.mpr hqueue)
  simp only [Rounds.stepOf, hpc]
  refine ⟨h.settled, hdone, rfl, ?_⟩
  intro j
  refine ⟨hspent j, ?_⟩
  rcases eq_or_ne j i with rfl | hj
  · rw [moveTo_round_self]
    exact (h.place j).2.1.2
  · have hround : ((r.setRoundState 0).moveTo i .assertEnd).round j = .spinRound :=
      (Function.update_of_ne hj _ _).trans (h.others hi hj).1
    rw [hround]
    exact (h.place j).2.1.2

/-- What a thread does while the leader decides. -/
theorem Leading.stepOf (h : r.Leading owner n) (work : Work φ) (agg : Option (ℕ × φ)) :
    ∃ m, (r.stepOf owner level nodes i work agg).InPhase owner m := by
  obtain ⟨hready, hout, hplace⟩ := h.place i
  cases hpc : r.round i with
  | spinRound =>
    rw [hpc] at hplace
    simp only [Rounds.stepOf, hpc]
    rw [if_pos hplace.2.symm]
    exact ⟨n, .inr (.inr (.inl h))⟩
  | computeMoreWork =>
    rw [hpc] at hplace
    simp only [Rounds.stepOf, hpc]
    refine ⟨n, .inr (.inr (.inl (h.step hplace.1 (fun j hj => (SameAt.refl r j).moveTo hj _) rfl
      h.settled
      rfl rfl ⟨hready, hout, ?_⟩)))⟩
    rw [moveTo_round_self]
    split_ifs with hactive
    · exact hplace
    · exact ⟨hplace.1, hplace.2, Nat.eq_zero_of_not_pos hactive⟩
  | resetBarrier =>
    rw [hpc] at hplace
    have hsame : ∀ j, SameAt r (r.setThreads r.threads.resetBarrier) j := fun _ =>
      ⟨rfl, rfl, rfl, rfl, rfl, rfl⟩
    simp only [Rounds.stepOf, hpc]
    refine ⟨n, .inr (.inr (.inl (h.step hplace.1 (fun j hj => (hsame j).moveTo hj _) rfl
      h.settled.resetBarrier
      rfl rfl ⟨hready, hout, ?_⟩)))⟩
    rw [moveTo_round_self]
    exact ⟨hplace.1, rfl⟩
  | resetTotal =>
    rw [hpc] at hplace
    have hsame : ∀ j, SameAt r (r.setTotal size) j := fun _ => ⟨rfl, rfl, rfl, rfl, rfl, rfl⟩
    simp only [Rounds.stepOf, hpc]
    refine ⟨n, .inr (.inr (.inl (h.step hplace.1 (fun j hj => (hsame j).moveTo hj _) rfl h.settled
      rfl rfl ⟨hready, hout, ?_⟩)))⟩
    rw [moveTo_round_self]
    exact ⟨hplace.1, hplace.2, rfl⟩
  | nextRound => exact ⟨n + 1, .inl (h.nextRound hpc work agg)⟩
  | noRound => exact ⟨n, .inr (.inr (.inr (h.noRound hpc work agg)))⟩
  | running | assertIteration | startRound | generateAggs | setActive | barrierActive | decrement
  | waitAgg | checkRound | storeRound | assertEnd | ended | failed =>
    rw [hpc] at hplace
    exact hplace.elim

/-! ### The program is over -/

theorem Finished.moveTo (h : r.Finished owner n) {pc : RoundPc}
    (hplace : (r.moveTo i pc).FinishedAt n i) : (r.moveTo i pc).Finished owner n := by
  refine ⟨h.settled, h.done, h.roundState, ?_⟩
  intro j
  rcases eq_or_ne j i with rfl | hj
  · exact hplace
  · refine ⟨(h.place j).1, ?_⟩
    rw [show (r.moveTo i pc).round j = r.round j from Function.update_of_ne hj _ _]
    exact (h.place j).2

theorem getNext_ne_zero (x : ℕ) : getNext x ≠ 0 := by
  rw [getNext]
  split_ifs <;> simp

/-- What a thread does when the program is over. -/
theorem Finished.stepOf (h : r.Finished owner n) (work : Work φ) (agg : Option (ℕ × φ)) :
    (r.stepOf owner level nodes i work agg).Finished owner n := by
  obtain ⟨hspent, hplace⟩ := h.place i
  cases hpc : r.round i with
  | spinRound =>
    rw [hpc] at hplace
    simp only [Rounds.stepOf, hpc]
    split_ifs
    · exact h
    · refine h.moveTo ⟨hspent, ?_⟩
      rw [moveTo_round_self]
      exact hplace
  | checkRound =>
    rw [hpc] at hplace
    simp only [Rounds.stepOf, hpc]
    rw [h.roundState, if_neg (getNext_ne_zero _).symm]
    refine h.moveTo ⟨hspent, ?_⟩
    rw [moveTo_round_self]
    exact hplace
  | assertEnd =>
    rw [hpc] at hplace
    have hended : r.threads.Ended owner nodes i :=
      h.settled.ended nodes h.done hspent.2.1 hspent.2.2
    simp only [Rounds.stepOf, hpc]
    rw [if_pos hended]
    refine h.moveTo ⟨hspent, ?_⟩
    rw [moveTo_round_self]
    exact hplace
  | ended =>
    simp only [Rounds.stepOf, hpc]
    exact h
  | running | assertIteration | startRound | generateAggs | setActive | barrierActive | decrement
  | waitAgg | computeMoreWork | resetBarrier | resetTotal | nextRound | noRound | storeRound
  | failed =>
    rw [hpc] at hplace
    exact hplace.elim

/-! ### All iterations -/

theorem Start.working (h : r.Start owner) : r.Working owner 0 := by
  refine ⟨h.threads.inv, h.threads.done, h.totalInAgg, ?_⟩
  intro i
  refine ⟨h.iteration i, ?_⟩
  rw [h.round i]
  exact fun _ => (h.threadRoundState i).trans h.roundState.symm

/-- The nodes in the run queues are flagged when the program begins. -/
theorem Start.flags (h : r.Start owner) : r.threads.Flags owner := by
  intro i
  have hpc := h.threads.pc i
  refine ⟨h.owned i, h.nodup i, fun n hn => .inl (h.inQueue i n hn), ?_, ?_, ?_, ?_⟩
  · intro n hn
    rw [h.threads.currentNode] at hn
    cases hn
  · simp [hpc]
  · simp [hpc]
  · intro _ n hn
    rw [h.threads.currentNode] at hn
    cases hn

theorem InPhase.stepOf (h : r.InPhase owner n) (hflags : r.threads.Flags owner)
    (hlatch : r.threads.LatchOk i) (work : Work φ) {agg : Option (ℕ × φ)}
    (hagg : ∀ fact ∈ agg, owner fact.1 = i) :
    ∃ m, (r.stepOf owner level nodes i work agg).InPhase owner m := by
  rcases h with hworking | hclosing | hleading | hfinished
  · exact ⟨n, hworking.stepOf hflags hlatch work agg⟩
  · exact ⟨n, hclosing.stepOf hflags work hagg⟩
  · exact hleading.stepOf work agg
  · exact ⟨n, .inr (.inr (.inr (hfinished.stepOf work agg)))⟩

/-- A thread that looks for a node in its run queue has none. -/
theorem InPhase.popNode (h : r.InPhase owner n) (hpc : r.threads.pc i = .popNode) :
    r.threads.currentNode i = none := by
  rcases h with hworking | hclosing | hleading | hfinished
  · have hok := hworking.inv.pcOk i
    rw [hpc] at hok
    exact hok
  · exact hclosing.settled.currentNode i
  · exact hleading.settled.currentNode i
  · exact hfinished.settled.currentNode i

/-- A thread that generates aggregates is at the call of `get_work` that comes next. -/
theorem InPhase.generateAggs (h : r.InPhase owner n) (hround : r.round i = .generateAggs) :
    r.threads.pc i = .getWork := by
  rcases h with hworking | hclosing | hleading | hfinished
  · have hplace := (hworking.place i).2
    rw [hround] at hplace
    exact hplace.elim
  · have hplace := hclosing.place i
    rw [ClosingAt, hround] at hplace
    exact hplace.2.2.2
  · exact (hleading.place i).2.1.2
  · have hplace := (hfinished.place i).2
    rw [hround] at hplace
    exact hplace.elim

/-- Every step of `do_loop` keeps the flags of the nodes. -/
theorem InPhase.flags (h : r.InPhase owner n) (hflags : r.threads.Flags owner) (work : Work φ)
    {agg : Option (ℕ × φ)} (hagg : ∀ fact ∈ agg, owner fact.1 = i) :
    (r.stepOf owner level nodes i work agg).threads.Flags owner := by
  cases hround : r.round i with
  | running =>
    simp only [Rounds.stepOf, hround]
    split_ifs with hleft
    · refine hflags.goTo_of_not_seen (i := i) ?_ (by simp [Pc.seen])
      intro c n hc
      rw [hc] at hleft
      cases hleft
    · exact hflags.stepOf h.popNode work
    · exact hflags
  | generateAggs =>
    simp only [Rounds.stepOf, hround]
    cases agg with
    | none => exact hflags
    | some fact =>
      simp only
      split_ifs
      · exact hflags.newAgg fact.2 (hagg fact rfl) (h.generateAggs hround)
      · exact hflags
  | setActive | barrierActive | resetBarrier =>
    simp only [Rounds.stepOf, hround]
    first
    | exact hflags.same rfl rfl rfl rfl rfl
    | (split_ifs <;> exact hflags.same rfl rfl rfl rfl rfl)
  | assertIteration | startRound | decrement | waitAgg | computeMoreWork | resetTotal
  | nextRound | noRound | spinRound | checkRound | storeRound | assertEnd | ended | failed =>
    simp only [Rounds.stepOf, hround]
    first
    | exact hflags
    | (split_ifs <;> exact hflags)

/-- Every run is in one of the phases. -/
theorem exists_inPhase (h : (staticRounds owner level nodes).Reachable r) :
    ∃ n, r.InPhase owner n := by
  -- a phase is left without a failed assertion because the flags of the nodes are right
  have hboth : (∃ n, r.InPhase owner n) ∧ r.threads.Flags owner := by
    refine h.invariant (I := fun r => (∃ n, r.InPhase owner n) ∧ r.threads.Flags owner)
      (fun r (hr : r.Start owner) => ⟨⟨0, .inl hr.working⟩, hr.flags⟩) ?_
    rintro r _ ⟨⟨n, hphase⟩, hflags⟩ ⟨i, work, agg, hlatch, hagg, rfl⟩
    exact ⟨hphase.stepOf hflags hlatch work hagg, hphase.flags hflags work hagg⟩
  exact hboth.1

/-! ### What the phases say of the threads -/

/-- A thread is in the iteration of the phase, or has ended it. -/
theorem InPhase.iteration (h : r.InPhase owner n) (i : Fin size) :
    r.iteration i = n ∨ r.iteration i = n + 1 := by
  rcases h with hworking | hclosing | hleading | hfinished
  · exact .inl (hworking.place i).1
  · have hplace := hclosing.place i
    rw [ClosingAt] at hplace
    cases hround : r.round i with
    | running | assertIteration | checkRound | storeRound =>
      rw [hround] at hplace
      exact .inl hplace.1.1
    | startRound | generateAggs | setActive | barrierActive | decrement | waitAgg =>
      rw [hround] at hplace
      exact .inr hplace.2.2.1
    | spinRound =>
      rw [hround] at hplace
      rcases hplace with hlate | hwaits
      · exact .inl hlate.1.1
      · exact .inr hwaits.2.2.1
    | computeMoreWork | resetBarrier | resetTotal | nextRound | noRound | assertEnd | ended
    | failed =>
      rw [hround] at hplace
      exact hplace.elim
  · exact .inr (hleading.place i).2.1.1
  · exact .inr (hfinished.place i).1.1

theorem InPhase.ne_failed (h : r.InPhase owner n) (i : Fin size) : r.round i ≠ .failed := by
  intro hround
  rcases h with hworking | hclosing | hleading | hfinished
  · have hplace := (hworking.place i).2
    rw [hround] at hplace
    exact hplace
  · have hplace := hclosing.place i
    rw [ClosingAt, hround] at hplace
    exact hplace
  · have hplace := (hleading.place i).2.2
    rw [hround] at hplace
    exact hplace
  · have hplace := (hfinished.place i).2
    rw [hround] at hplace
    exact hplace

/-- A thread in `get_work` or at a node: the threads work, or they leave. -/
theorem InPhase.running (h : r.InPhase owner n) (hround : r.round i = .running) :
    r.Working owner n ∨
      (r.Closing owner n ∧ r.Spent n i ∧ Static.Leaving (r.threads.pc i)) := by
  rcases h with hworking | hclosing | hleading | hfinished
  · exact .inl hworking
  · have hplace := hclosing.place i
    rw [ClosingAt, hround] at hplace
    exact .inr ⟨hclosing, hplace.1, hplace.2.2⟩
  · have hplace := (hleading.place i).2.2
    rw [hround] at hplace
    exact hplace.elim
  · have hplace := (hfinished.place i).2
    rw [hround] at hplace
    exact hplace.elim

/-- A thread that has ended the program. -/
theorem InPhase.ended (h : r.InPhase owner n) (hround : r.round i = .ended) :
    r.Finished owner n := by
  rcases h with hworking | hclosing | hleading | hfinished
  · have hplace := (hworking.place i).2
    rw [hround] at hplace
    exact hplace.elim
  · have hplace := hclosing.place i
    rw [ClosingAt, hround] at hplace
    exact hplace.elim
  · have hplace := (hleading.place i).2.2
    rw [hround] at hplace
    exact hplace.elim
  · exact hfinished

/-- A thread between the end of its iteration and its update of `total_in_agg`: the others leave. -/
theorem InPhase.aggregates (h : r.InPhase owner n) (hround : (r.round i).aggregates = true) :
    r.Closing owner n := by
  cases hpc : r.round i with
  | startRound | generateAggs | setActive | barrierActive | decrement =>
    rcases h with hworking | hclosing | hleading | hfinished
    · have hplace := (hworking.place i).2
      rw [hpc] at hplace
      exact hplace.elim
    · exact hclosing
    · have hplace := (hleading.place i).2.2
      rw [hpc] at hplace
      exact hplace.elim
    · have hplace := (hfinished.place i).2
      rw [hpc] at hplace
      exact hplace.elim
  | running | assertIteration | waitAgg | computeMoreWork | resetBarrier | resetTotal | nextRound
  | noRound | spinRound | checkRound | storeRound | assertEnd | ended | failed =>
    rw [hpc] at hround
    cases hround

/-- The leader is about to let the next iteration begin. -/
theorem InPhase.nextRound (h : r.InPhase owner n) (hround : r.round i = .nextRound) :
    r.Leading owner n ∧ r.threads.done = false := by
  rcases h with hworking | hclosing | hleading | hfinished
  · have hplace := (hworking.place i).2
    rw [hround] at hplace
    exact hplace.elim
  · have hplace := hclosing.place i
    rw [ClosingAt, hround] at hplace
    exact hplace.elim
  · have hplace := (hleading.place i).2.2
    rw [hround] at hplace
    exact ⟨hleading, hplace.2.1⟩
  · have hplace := (hfinished.place i).2
    rw [hround] at hplace
    exact hplace.elim

theorem Finished.quiet (h : r.Finished owner n) : r.threads.Quiet := by
  refine ⟨fun j => (h.place j).1.2.1, h.settled.buffer, fun j => (h.place j).1.2.2,
    h.settled.currentNode, ?_, ?_⟩
  · intro j
    have hplace := (h.place j).2
    cases hround : r.round j with
    | spinRound | checkRound | assertEnd | ended =>
      rw [hround] at hplace
      rw [hplace]
      rfl
    | running | assertIteration | startRound | generateAggs | setActive | barrierActive | decrement
    | waitAgg | computeMoreWork | resetBarrier | resetTotal | nextRound | noRound | storeRound
    | failed =>
      rw [hround] at hplace
      exact hplace.elim
  · intro node
    by_contra hne
    have hmem := h.settled.queue node hne
    rw [(h.place (owner node)).1.2.2] at hmem
    exact absurd hmem List.not_mem_nil

/-- The threads go through the iterations together. -/
structure InStep (owner : ℕ → Fin size) (level : φ → ℕ) (nodes : List ℕ) (r : Rounds size φ) :
    Prop where
  /-- No assertion fails, neither in an iteration nor between two. -/
  asserts : ∀ i, r.round i ≠ .failed ∧ (r.round i = .running → r.threads.pc i ≠ .failed)
  /-- No thread is ahead of another by more than an iteration. -/
  iteration : ∀ i j, r.iteration i ≤ r.iteration j + 1
  /-- While a thread has work in an iteration, no thread has ended it. -/
  works : ∀ i, r.round i = .running → (r.threads.pc i).idle = false →
    ∀ j, r.iteration j = r.iteration i
  /-- While a thread makes its aggregates, those still in the iteration have no work. -/
  aggregates : ∀ i, (r.round i).aggregates = true → ∀ j, r.round j = .running →
    r.threads.tstate j = .inactive ∧ r.threads.hasWork j = false ∧
      r.threads.currentNode j = none ∧ (r.threads.pc j).idle = true
  /-- The leader lets an iteration begin with the threads ready for it, in the same iteration. -/
  begins : ∀ i, r.round i = .nextRound → ∀ work agg,
    (r.stepOf owner level nodes i work agg).threads.Start owner ∧ ∀ j, r.iteration j = r.iteration i
  /-- The program ends for all threads in the same iteration, with no fact left. -/
  ends : ∀ i, r.round i = .ended → r.threads.Quiet ∧
    ∀ j, r.iteration j = r.iteration i ∧ r.round j ≠ .running

/-- In every run of the static scheduler in which the barrier is not done too early, the threads go
through the iterations together. -/
theorem iterations_inStep (h : (staticRounds owner level nodes).Reachable r) :
    r.InStep owner level nodes := by
  obtain ⟨n, hphase⟩ := exists_inPhase h
  refine ⟨?_, ?_, ?_, ?_, ?_, ?_⟩
  · intro i
    refine ⟨hphase.ne_failed i, ?_⟩
    intro hround hpc
    rcases hphase.running hround with hworking | ⟨-, -, hidle, -⟩
    · have hok := hworking.inv.pcOk i
      rw [hpc, Static.PcOk, hworking.done] at hok
      cases hok
    · rw [hpc] at hidle
      cases hidle
  · intro i j
    have hi := hphase.iteration i
    have hj := hphase.iteration j
    omega
  · intro i hround hbusy j
    rcases hphase.running hround with hworking | ⟨-, -, hidle, -⟩
    · rw [(hworking.place j).1, (hworking.place i).1]
    · rw [hbusy] at hidle
      cases hidle
  · intro i hround j hj
    have hclosing := hphase.aggregates hround
    have hplace := hclosing.place j
    rw [ClosingAt, hj] at hplace
    obtain ⟨⟨-, hstate, hqueue⟩, -, hidle, -⟩ := hplace
    exact ⟨hstate, (hclosing.settled.hasWork_eq_false j).mpr hqueue,
      hclosing.settled.currentNode j, hidle⟩
  · intro i hround work agg
    obtain ⟨hleading, hdone⟩ := hphase.nextRound hround
    refine ⟨?_, fun j => (hleading.place j).2.1.1.trans (hleading.place i).2.1.1.symm⟩
    simp only [Rounds.stepOf, hround]
    exact hleading.start hdone
  · intro i hround
    have hfinished := hphase.ended hround
    refine ⟨hfinished.quiet, ?_⟩
    intro j
    refine ⟨(hfinished.place j).1.1.trans (hfinished.place i).1.1.symm, ?_⟩
    intro hj
    have hplace := (hfinished.place j).2
    rw [hj] at hplace
    exact hplace

/-! ### Two threads -/

namespace Pair

open StaticPair

/-- Two threads, each with a node that has a fact. -/
def start : Rounds 2 ℕ where
  threads := StaticPair.start
  round _ := .running
  iteration _ := 0
  threadRoundState _ := 1
  totalInAgg := 2
  roundState := 1

theorem start_ok : start.Start pairOwner where
  threads := StaticPair.start_ok
  owned := by decide
  nodup := by decide
  inQueue := by decide
  round _ := rfl
  iteration _ := rfl
  threadRoundState _ := rfl
  totalInAgg := rfl
  roundState := rfl

/-- A number of steps of the thread of the node, in which its rules do the same. -/
def goes (node k : ℕ) (work : Work ℕ) : List (Fin 2 × Work ℕ × Option (ℕ × ℕ)) :=
  List.replicate k (pairOwner node, work, none)

/-- The thread 0 sends a fact to the node of the other, which runs it with its own. Both leave, the
thread 1 makes an aggregate for its node, and the leader lets the next iteration begin. -/
def run : List (Fin 2 × Work ℕ × Option (ℕ × ℕ)) :=
  List.flatten [goes 0 9 .gather, goes 0 2 (.route 1 7), goes 0 12 .finish, goes 1 12 .gather,
    goes 1 15 .finish, [(pairOwner 1, .finish, some (1, 7))], goes 1 4 .finish, goes 0 17 .finish]

/-- A step that meets the conditions. -/
def step (r : Rounds 2 ℕ) (a : Fin 2 × Work ℕ × Option (ℕ × ℕ)) : Option (Rounds 2 ℕ) :=
  if r.threads.LatchOk a.1 ∧ ∀ fact ∈ a.2.2, pairOwner fact.1 = a.1 then
    some (r.stepOf pairOwner (fun _ => 0) [0, 1] a.1 a.2.1 a.2.2)
  else none

end Pair

theorem iterations_inStep_pair : ∃ r,
    (staticRounds StaticPair.pairOwner (fun _ : ℕ => 0) [0, 1]).Reachable r ∧
      r.iteration 0 = 1 ∧ r.round 0 = .running ∧ r.threads.queue 1 = [7] ∧
      r.InStep StaticPair.pairOwner (fun _ => 0) [0, 1] := by
  have hrun : (Pair.run.foldlM Pair.step Pair.start).map
      (fun r => (r.iteration 0, r.round 0, r.threads.queue 1)) = some (1, .running, [7]) := by
    decide +kernel
  obtain ⟨r, hr, hend⟩ := Option.map_eq_some_iff.mp hrun
  rw [Prod.mk.injEq, Prod.mk.injEq] at hend
  obtain ⟨hiter, hround, hqueue⟩ := hend
  have hreach : (staticRounds StaticPair.pairOwner (fun _ : ℕ => 0) [0, 1]).Reachable r := by
    refine System.Reachable.foldlM (fun r a r' hr => ?_) (.init Pair.start_ok) hr
    rw [Pair.step] at hr
    split_ifs at hr with hok
    exact ⟨a.1, a.2.1, a.2.2, hok.1, hok.2, (Option.some.inj hr).symm⟩
  exact ⟨r, hreach, hiter, hround, hqueue, iterations_inStep hreach⟩

end Rounds

end Meld.Thread
