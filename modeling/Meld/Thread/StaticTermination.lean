import Meld.Thread.StaticSteps

/-!
# The termination of the static scheduler

When the count of the barrier reaches zero no thread runs rules, so no inbox has a fact. What the
barrier does not see are the facts that an inactive thread has already taken out of its inbox: its
sender finds the inbox empty and does not wake it. `leaves_quiet` is what the barrier guarantees
when there are none, and that it fails when there are.
-/

namespace Meld.Thread

open Lib

variable {size : ℕ} {φ : Type}

namespace Static

variable {s s' : Static size φ} {i j k : Fin size} {owner : ℕ → Fin size} {level : φ → ℕ}

/-! ### The end of the iteration -/

/-- No thread is active, and no fact is left at a node, in an inbox, in a run queue or in the hands
of a thread. -/
structure Quiet (s : Static size φ) : Prop where
  tstate : ∀ i, s.tstate i = .inactive
  buffer : ∀ i, s.buffer i = []
  queueNodes : ∀ i, s.queueNodes i = []
  currentNode : ∀ i, s.currentNode i = none
  hand : ∀ i, (s.pc i).hand = false
  queue : ∀ n, s.queue n = []

/-- When the update that the thread `i` is about to make takes the count of the barrier to zero, no
other thread has taken a fact out of its inbox: it has neither a fact nor a node. -/
def LatchOk (s : Static size φ) (i : Fin size) : Prop :=
  s.pc i = .barrierInactive → s.activeThreads = 1 → ∀ j, j ≠ i →
    s.queueNodes j = [] ∧ s.currentNode j = none ∧ (s.pc j).hand = false

instance [DecidableEq φ] : Decidable (s.LatchOk i) :=
  inferInstanceAs (Decidable (_ → _ → ∀ j, j ≠ i → _ ∧ _ ∧ _))

/-- The state after the barrier is done. -/
structure Over (s : Static size φ) : Prop where
  tstate : ∀ i, s.tstate i = .inactive
  lock : ∀ i, s.lock i = none
  buffer : ∀ i, s.buffer i = []
  queueNodes : ∀ i, s.queueNodes i = []
  currentNode : ∀ i, s.currentNode i = none
  idle : ∀ i, (s.pc i).idle = true

theorem Over.quiet (h : Inv owner s) (hover : s.Over) : s.Quiet := by
  have hhand : ∀ i, (s.pc i).hand = false := fun i => by
    have hidle := hover.idle i
    cases hpc : s.pc i <;> rw [hpc] at hidle <;> first | rfl | cases hidle
  refine ⟨hover.tstate, hover.buffer, hover.queueNodes, hover.currentNode, hhand, fun n => ?_⟩
  by_contra hne
  rcases h.nodes.queue n hne with hmem | hcurrent | ⟨c, hadded⟩
  · rw [hover.queueNodes] at hmem
    cases hmem
  · rw [hover.currentNode] at hcurrent
    cases hcurrent
  · have hnone := hhand (owner n)
    rw [hadded] at hnone
    cases hnone

/-- A thread that goes from one place without work to another. -/
theorem Over.goTo (h : s.Over) {pc : Pc size φ} (hidle : pc.idle = true) : (s.goTo i pc).Over := by
  refine ⟨h.tstate, h.lock, h.buffer, h.queueNodes, h.currentNode, fun j => ?_⟩
  rcases eq_or_ne j i with rfl | hne
  · rwa [goTo_pc_self]
  · rw [goTo_pc_of_ne hne]
    exact h.idle j

/-- After the barrier is done every thread only goes on to leave. -/
theorem Over.stepOf (hok : PcOk owner s i (s.pc i)) (h : s.Over) (work : Work φ) :
    (s.stepOf owner level i work).Over := by
  have hidle := h.idle i
  -- a thread that is over has no work and is not active
  have hstate : s.tstate i ≠ .active := by
    rw [h.tstate]
    exact nofun
  have hwork : s.hasWork i = false := by
    rw [hasWork, h.buffer, h.queueNodes]
    rfl
  rw [Static.stepOf]
  cases hpc : s.pc i with
  | getWork =>
    refine h.goTo ?_
    rw [h.currentNode]
    rfl
  | nextNode =>
    refine h.goTo ?_
    rw [h.currentNode]
    rfl
  | retrieve c =>
    rw [hpc] at hok
    simp only [h.buffer]
    refine h.goTo ?_
    cases c with
    | work => exact absurd rfl hok.1
    | next | busy => rfl
  | checkWork | spin =>
    refine h.goTo ?_
    rw [hwork]
    rfl
  | makeInactive =>
    refine h.goTo ?_
    rw [if_neg fun hactive => hstate hactive.1]
    rfl
  | makeInactiveLocked =>
    simp only
    rw [if_neg (by simp [h.lock]), if_pos (by simp [hwork]), if_neg hstate]
    exact h.goTo rfl
  | checkDone =>
    refine h.goTo ?_
    rw [if_pos (h.tstate i)]
    split_ifs <;> rfl
  | popNode =>
    simp only [h.queueNodes]
    exact h.goTo rfl
  | left => exact h
  | checkUseless | popped | added | queued | wake | barrierWake | barrierInactive | activate
  | activateLocked | barrierActive | waitEnd | working | failed =>
    rw [hpc] at hidle
    cases hidle

/-- When the count of the barrier reaches zero, no thread runs rules, so no inbox has a fact. -/
theorem Inv.over (h : Inv owner s) (hpc : s.pc i = .barrierInactive) (hcount : s.activeThreads = 1)
    (hdone : s.done = false) (hlatch : s.LatchOk i) :
    ((s.barrierIsInactive i).goTo i .checkDone).Over := by
  have hok := h.pcOk i
  rw [hpc] at hok
  have hold : (s.pc i).pending i = some (i, .inactive) := by
    rw [hpc]
    rfl
  have hstate := h.locks.state i i _ hold
  have hheld := (h.locks.holder i i).mpr ⟨_, hold⟩
  have hothers := hlatch hpc hcount
  have hqueue : ∀ j, s.queueNodes j = [] := fun j => by
    rcases eq_or_ne j i with rfl | hne
    · exact hok.2
    · exact (hothers j hne).1
  have hcurrent : ∀ j, s.currentNode j = none := fun j => by
    rcases eq_or_ne j i with rfl | hne
    · exact hok.1
    · exact (hothers j hne).2.1
  -- the only thread that is counted is the one that updates the barrier
  have huncounted : ∀ j, j ≠ i → ¬s.Counted j := by
    intro j hj hcounted
    have hsub : ({i, j} : Finset (Fin size)) ⊆ Finset.univ.filter s.Counted := by
      intro k hk
      rw [Finset.mem_insert, Finset.mem_singleton] at hk
      rw [Finset.mem_filter]
      refine ⟨Finset.mem_univ k, ?_⟩
      rcases hk with rfl | rfl
      · rw [Counted, hstate, hheld]
        simp
      · exact hcounted
    have hle := Finset.card_le_card hsub
    rw [Finset.card_pair hj.symm, ← h.locks.count, hcount] at hle
    omega
  have hcaller : ∀ j, ¬s.CallerOk j .work := fun j hcaller => by
    have hsome := hcaller.2
    rw [hcurrent] at hsome
    cases hsome
  have hwaking : ∀ m k, (s.pc m).waking ≠ some k := by
    intro m k hm
    have hokm := h.pcOk m
    cases hpcm : s.pc m with
    | wake c j | barrierWake c j =>
      rw [hpcm] at hokm
      obtain ⟨rfl, hcallerm, -⟩ := hokm
      exact hcaller m hcallerm
    | _ =>
      rw [hpcm] at hm
      cases hm
  have hbuffer : ∀ j, s.buffer j = [] := by
    intro j
    by_contra hne
    rcases h.inbox.awake j hne with hactive | ⟨m, hm⟩
    · rcases eq_or_ne j i with rfl | hji
      · rw [hheld] at hactive
        cases hactive.2
      · refine huncounted j hji ?_
        rw [Counted, hactive.1, hactive.2]
        exact iff_of_true rfl rfl
    · exact hwaking m j hm
  have hwork : ∀ j, s.hasWork j = false := fun j => by
    rw [hasWork, hbuffer, hqueue]
    rfl
  have hactivator : ∀ j a, ¬s.ActivatorOk j a := by
    intro j a ha
    cases a with
    | wait =>
      have hsome := ha.2
      rw [hwork] at hsome
      cases hsome
    | node =>
      rw [ActivatorOk, hcurrent] at ha
      cases ha
  have hidle : ∀ j, j ≠ i → (s.pc j).idle = true ∧ (s.pc j).pending j = none := by
    intro j hj
    have hokj := h.pcOk j
    have hhand := (hothers j hj).2.2
    cases hpcj : s.pc j with
    | getWork | nextNode | retrieve | checkWork | spin | makeInactive | makeInactiveLocked
    | checkDone | popNode | left => exact ⟨rfl, rfl⟩
    | checkUseless =>
      rw [hpcj, PcOk, hcurrent] at hokj
      cases hokj
    | popped | added =>
      rw [hpcj] at hhand
      cases hhand
    | queued c dest =>
      rw [hpcj, PcOk, hqueue] at hokj
      cases hokj.2.2
    | wake c k | barrierWake c k => exact absurd (by rw [hpcj]; rfl) (hwaking j k)
    | barrierInactive =>
      refine absurd ?_ (huncounted j hj)
      have hpending : (s.pc j).pending j = some (j, .inactive) := by
        rw [hpcj]
        rfl
      rw [Counted, h.locks.state j j _ hpending, (h.locks.holder j j).mpr ⟨_, hpending⟩]
      simp
    | activate a | activateLocked a | barrierActive a =>
      rw [hpcj] at hokj
      exact (hactivator j a hokj).elim
    | waitEnd =>
      rw [hpcj] at hokj
      exact (hactivator j .wait hokj.1).elim
    | working =>
      rw [hpcj] at hokj
      exact (hcaller j hokj).elim
    | failed =>
      rw [hpcj, PcOk, hdone] at hokj
      cases hokj
  have hlock : ∀ j, j ≠ i → s.lock j = none := by
    intro j hj
    cases hlockj : s.lock j with
    | none => rfl
    | some m =>
      obtain ⟨state, hm⟩ := (h.locks.holder m j).mp hlockj
      rcases eq_or_ne m i with rfl | hmi
      · rw [hold] at hm
        exact absurd (Prod.mk.inj (Option.some.inj hm)).1.symm hj
      · rw [(hidle m hmi).2] at hm
        cases hm
  refine ⟨fun j => ?_, fun j => ?_, hbuffer, hqueue, hcurrent, fun j => ?_⟩
  · rcases eq_or_ne j i with rfl | hne
    · exact hstate
    · by_contra hstatej
      refine huncounted j hne (iff_of_true ?_ (hlock j hne))
      exact tstate_eq_active hstatej
  · rcases eq_or_ne j i with rfl | hne
    · exact Function.update_self _ _ _
    · exact (Function.update_of_ne hne _ _).trans (hlock j hne)
  · rcases eq_or_ne j i with rfl | hne
    · rw [goTo_pc_self]
      rfl
    · rw [goTo_pc_of_ne hne]
      exact (hidle j hne).1

/-- No other step makes the barrier done. -/
theorem done_stepOf (work : Work φ) (hpc : s.pc i ≠ .barrierInactive) :
    (s.stepOf owner level i work).done = s.done := by
  rw [Static.stepOf]
  cases hpci : s.pc i with
  | barrierInactive => exact absurd hpci hpc
  | getWork | nextNode | queued | checkWork | spin | makeInactive | checkDone | activate | waitEnd
  | left | failed => rfl
  | checkUseless =>
    simp only
    split
    · split_ifs <;> rfl
    · rfl
  | retrieve | popNode =>
    simp only
    split <;> rfl
  | popped | added | wake | barrierWake | makeInactiveLocked | activateLocked | barrierActive =>
    simp only
    split_ifs <;> rfl
  | working =>
    cases work with
    | gather =>
      simp only [Static.doWork]
      split <;> rfl
    | route dest fact =>
      simp only [Static.doWork]
      split_ifs <;> rfl
    | finish => rfl

/-- Once the barrier is done, the iteration is over. -/
theorem over_stepOf (h : Inv owner s) (hover : s.done = true → s.Over) (work : Work φ)
    (hlatch : s.LatchOk i) (hdone : (s.stepOf owner level i work).done = true) :
    (s.stepOf owner level i work).Over := by
  cases hold : s.done with
  | true => exact (hover hold).stepOf (h.pcOk i) work
  | false =>
    by_cases hpc : s.pc i = .barrierInactive
    · have hpending : (s.pc i).pending i = some (i, .inactive) := by
        rw [hpc]
        rfl
      have hpos := (h.locks.barrierIsInactive hpending (pending_caller_resume (c := .work))).1
      have hstep : s.stepOf owner level i work =
          (s.barrierIsInactive i).goTo i .checkDone := by
        rw [Static.stepOf, hpc]
        exact if_pos hpos
      rw [hstep] at hdone ⊢
      refine h.over hpc ?_ hold hlatch
      by_contra hne
      rw [show ((s.barrierIsInactive i).goTo i .checkDone).done =
        if s.activeThreads - 1 = 0 then true else s.done from rfl, if_neg (by omega), hold] at hdone
      cases hdone
    · rw [done_stepOf work hpc, hold] at hdone
      cases hdone

/-- A thread that leaves when the barrier is done leaves what the others have. -/
theorem exists_left (level : φ → ℕ) (h : Inv owner s) (hpc : s.pc i = .barrierInactive)
    (hcount : s.activeThreads = 1) (work : Work φ) :
    let s' := (s.stepOf owner level i work).stepOf owner level i work
    s'.pc i = .left ∧ ∀ j, j ≠ i → s'.queueNodes j = s.queueNodes j ∧
      s'.currentNode j = s.currentNode j ∧ s'.pc j = s.pc j := by
  have hpending : (s.pc i).pending i = some (i, .inactive) := by
    rw [hpc]
    rfl
  have hstate := h.locks.state i i _ hpending
  have hstep : s.stepOf owner level i work = (s.barrierIsInactive i).goTo i .checkDone := by
    rw [Static.stepOf, hpc]
    exact if_pos (by omega)
  have hdone : ((s.barrierIsInactive i).goTo i .checkDone).done = true := by
    rw [show ((s.barrierIsInactive i).goTo i .checkDone).done =
      if s.activeThreads - 1 = 0 then true else s.done from rfl, if_pos (by omega)]
  have hleave : ((s.barrierIsInactive i).goTo i .checkDone).stepOf owner level i work =
      ((s.barrierIsInactive i).goTo i .checkDone).goTo i .left := by
    rw [Static.stepOf, goTo_pc_self]
    simp only
    rw [if_pos hdone, if_pos (show ((s.barrierIsInactive i).goTo i .checkDone).tstate i = .inactive
      from hstate)]
  refine ⟨?_, fun j hj => ?_⟩
  · rw [hstep, hleave, goTo_pc_self]
  · rw [hstep, hleave, goTo_pc_of_ne hj, goTo_pc_of_ne hj]
    exact ⟨rfl, rfl, rfl⟩

end Static

/-- The runs in which no thread that the barrier does not count has taken a fact out of its inbox
when the count reaches zero. -/
def latched (owner : ℕ → Fin size) (level : φ → ℕ) : System (Static size φ) where
  init s := s.Start owner
  step s s' := ∃ i work, s.LatchOk i ∧ s' = s.stepOf owner level i work

variable {owner : ℕ → Fin size} {level : φ → ℕ} {s : Static size φ}

theorem inv_of_reachable (h : (staticLocal owner level).Reachable s) : s.Inv owner := by
  refine h.invariant (fun s hs => Static.Start.inv hs) ?_
  rintro s _ hs ⟨i, work, rfl⟩
  exact hs.stepOf work

/-- In the runs that meet the condition, the iteration is over when the barrier is done. -/
theorem over_of_reachable (h : (latched owner level).Reachable s) :
    s.Inv owner ∧ (s.done = true → s.Over) := by
  refine h.invariant (I := fun s => s.Inv owner ∧ (s.done = true → s.Over))
    (fun s hs => ⟨Static.Start.inv hs, ?_⟩) ?_
  · rw [hs.done]
    exact nofun
  · rintro s _ ⟨hinv, hover⟩ ⟨i, work, hlatch, rfl⟩
    exact ⟨hinv.stepOf work, Static.over_stepOf hinv hover work hlatch⟩

/-- In the runs whose steps all meet the condition, a thread leaves `busy_wait` only when no thread
is active and no fact is left. A step that does not meet it can be followed by the leaving of a
thread while another has work. -/
theorem leaves_quiet (owner : ℕ → Fin size) (level : φ → ℕ) :
    (∀ s, (latched owner level).Reachable s → ∀ i, s.pc i = .left → s.Quiet) ∧
      ∀ s i work, (staticLocal owner level).Reachable s → ¬s.LatchOk i →
        ∃ s', Relation.ReflTransGen (staticLocal owner level).step
          (s.stepOf owner level i work) s' ∧ ∃ j, s'.pc j = .left ∧ ¬s'.Quiet := by
  refine ⟨fun s hs i hleft => ?_, fun s i work hs hlatch => ?_⟩
  · obtain ⟨hinv, hover⟩ := over_of_reachable hs
    have hdone := hinv.pcOk i
    rw [hleft] at hdone
    exact (hover hdone).quiet hinv
  · simp only [Static.LatchOk, not_forall] at hlatch
    obtain ⟨hpc, hcount, j, hj, hbusy⟩ := hlatch
    obtain ⟨hleft, hothers⟩ :=
      Static.exists_left level (inv_of_reachable hs) hpc hcount work
    refine ⟨_, .single ⟨i, work, rfl⟩, i, hleft, fun hquiet => hbusy ?_⟩
    rw [← (hothers j hj).1, ← (hothers j hj).2.1, ← (hothers j hj).2.2]
    exact ⟨hquiet.queueNodes j, hquiet.currentNode j, hquiet.hand j⟩

/-! ### Two threads -/

namespace StaticPair

/-- Two nodes and two threads: each thread owns a node. -/
def pairOwner (n : ℕ) : Fin 2 := if n = 0 then 0 else 1

/-- Each node has one fact, which its owner is about to run. -/
def start : Static 2 ℕ where
  queueNodes i := [i.val]
  buffer _ := []
  currentNode _ := none
  tstate _ := .active
  lock _ := none
  pc _ := .getWork
  queue n := if n < 2 then [n] else []
  inQueue n := decide (n < 2)
  activeThreads := 2
  done := false

theorem start_ok : start.Start pairOwner where
  pc _ := rfl
  currentNode _ := rfl
  lock _ := rfl
  hasWork _ h := nomatch h
  buffer _ _ h := nomatch h
  queue n h := by
    have hn : n < 2 := by
      by_contra hge
      exact h (if_neg hge)
    obtain rfl | rfl : n = 0 ∨ n = 1 := by omega
    all_goals decide
  inQueue n h := by
    have hn : n < 2 := of_decide_eq_true h
    obtain rfl | rfl : n = 0 ∨ n = 1 := by omega
    all_goals decide
  activeThreads := rfl
  done := rfl

/-- The thread runs the fact of its node and is about to end. -/
def runs (i : Fin 2) : List (Fin 2 × Work ℕ) := List.replicate 9 (i, .gather)

/-- The thread ends the work on its node and goes on until it is inactive. -/
def ends (i : Fin 2) : List (Fin 2 × Work ℕ) := List.replicate 12 (i, .finish)

/-- The thread 1 is inactive and about to look into its inbox when the thread 0 pushes a fact there;
it takes the fact out before the thread 0 looks whether it has work. -/
def lost : List (Fin 2 × Work ℕ) :=
  runs 1 ++ ends 1 ++ [(1, .finish)] ++ runs 0 ++
    [(0, .route 1 7), (1, .finish), (0, .finish)] ++ ends 0

/-- The thread 0 runs its fact and sends one to the node of the thread 1, which takes it out of its
inbox and runs it with its own; both end. -/
def done : List (Fin 2 × Work ℕ) :=
  runs 0 ++ List.replicate 2 (0, .route 1 7) ++ ends 0 ++ List.replicate 12 (1, .gather) ++ ends 1 ++
    ends 0

/-- A step of the two threads. -/
def step (s : Static 2 ℕ) (a : Fin 2 × Work ℕ) : Option (Static 2 ℕ) :=
  some (s.stepOf pairOwner (fun _ => 0) a.1 a.2)

/-- A step that meets the condition. -/
def latchedStep (s : Static 2 ℕ) (a : Fin 2 × Work ℕ) : Option (Static 2 ℕ) :=
  if s.LatchOk a.1 then step s a else none

end StaticPair

open StaticPair

/-- A thread leaves while the other has a fact that was sent to it in its hands. -/
theorem not_leaves_quiet :
    ¬∀ s, (staticLocal pairOwner fun _ : ℕ => 0).Reachable s → ∀ i, s.pc i = .left → s.Quiet := by
  intro h
  have hrun : (lost.foldlM step start).map (fun s => (s.pc 0, s.pc 1)) =
      some (.left, .popped .busy 1 7) := by decide +kernel
  obtain ⟨s, hs, hpc⟩ := Option.map_eq_some_iff.mp hrun
  rw [Prod.mk.injEq] at hpc
  have hreach : (staticLocal pairOwner fun _ : ℕ => 0).Reachable s :=
    System.Reachable.foldlM (fun s a s' hs => ⟨a.1, a.2, (Option.some.inj hs).symm⟩)
      (.init start_ok) hs
  have hhand := (h s hreach 0 hpc.1).hand 1
  rw [hpc.2] at hhand
  cases hhand

theorem leaves_quiet_pair : ∃ s, (latched pairOwner fun _ : ℕ => 0).Reachable s ∧
    s.pc 0 = .left ∧ s.pc 1 = .left ∧ s.Quiet := by
  have hrun : (done.foldlM latchedStep start).map (fun s => (s.pc 0, s.pc 1)) =
      some (.left, .left) := by decide +kernel
  obtain ⟨s, hs, hpc⟩ := Option.map_eq_some_iff.mp hrun
  obtain ⟨hleft, hleft'⟩ := Prod.mk.inj hpc
  have hreach : (latched pairOwner fun _ : ℕ => 0).Reachable s := by
    refine System.Reachable.foldlM (fun s a s' hs => ?_) (.init start_ok) hs
    rw [latchedStep] at hs
    split_ifs at hs with hok
    exact ⟨a.1, a.2, hok, (Option.some.inj hs).symm⟩
  exact ⟨s, hreach, hleft, hleft', (leaves_quiet pairOwner fun _ => 0).1 s hreach 0 hleft⟩

end Meld.Thread
