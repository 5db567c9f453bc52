import Meld.Thread.Rounds

/-!
# The phases of an iteration

A run goes through four phases for each iteration: the threads work (`Working`); once the barrier is
done they only leave, make their aggregates and count themselves out (`Closing`); when all have done
so the leader decides (`Leading`), and either the next iteration begins or the program is over
(`Finished`). A thread that has not yet seen that an iteration has begun is `Late`; it takes part as
a thread without work.

What the threads do while they leave is the longest of the phases, and is followed here.
-/

namespace Meld.Thread

open Lib

variable {size : ℕ} {φ : Type} {owner : ℕ → Fin size} {level : φ → ℕ} {nodes : List ℕ}
  {i j : Fin size}

/-! ### Between two iterations -/

namespace Static

variable {s : Static size φ}

/-- No thread has a fact or a node in its hands, and the nodes with facts are in the run queues of
their owners. -/
structure Settled (owner : ℕ → Fin size) (s : Static size φ) : Prop where
  lock : ∀ i, s.lock i = none
  buffer : ∀ i, s.buffer i = []
  currentNode : ∀ i, s.currentNode i = none
  queue : ∀ n, s.queue n ≠ [] → n ∈ s.queueNodes (owner n)
  inQueue : ∀ n, s.inQueue n = true → n ∈ s.queueNodes (owner n)

/-- When the barrier is done, the nodes have no facts and are in no run queue. -/
theorem Over.settled (hover : s.Over) (h : Inv owner s) : s.Settled owner := by
  refine ⟨hover.lock, hover.buffer, hover.currentNode, ?_, ?_⟩
  · intro n hn
    exact absurd ((hover.quiet h).queue n) hn
  · intro n hn
    rcases h.nodes.inQueue n hn with hmem | hcurrent
    · exact hmem
    · rw [hover.currentNode] at hcurrent
      cases hcurrent

theorem Settled.hasWork (h : s.Settled owner) (i : Fin size) :
    s.hasWork i = true ↔ s.queueNodes i ≠ [] := by
  rw [Static.hasWork, h.buffer]
  simp

theorem Settled.hasWork_eq_false (h : s.Settled owner) (i : Fin size) :
    s.hasWork i = false ↔ s.queueNodes i = [] := by
  rw [Static.hasWork, h.buffer]
  simp

/-- Steps that leave the facts, the nodes and the locks as they are. -/
theorem Settled.goTo (h : s.Settled owner) (i : Fin size) (pc : Pc size φ) :
    (s.goTo i pc).Settled owner :=
  ⟨h.lock, h.buffer, h.currentNode, h.queue, h.inQueue⟩

theorem Settled.setActive (h : s.Settled owner) (i : Fin size) :
    (s.setActive i).Settled owner :=
  ⟨h.lock, h.buffer, h.currentNode, h.queue, h.inQueue⟩

theorem Settled.addActive (h : s.Settled owner) : s.addActive.Settled owner :=
  ⟨h.lock, h.buffer, h.currentNode, h.queue, h.inQueue⟩

theorem Settled.resetBarrier (h : s.Settled owner) : s.resetBarrier.Settled owner :=
  ⟨h.lock, h.buffer, h.currentNode, h.queue, h.inQueue⟩

/-- An aggregate for a node of the thread. -/
theorem Settled.newAgg (h : s.Settled owner) {dest : ℕ} (fact : φ) (hown : owner dest = i) :
    (s.newAgg i dest fact).Settled owner := by
  have hfacts : ∀ n, n ≠ dest → (s.addWork dest fact).queue n = s.queue n := by
    intro n hn
    exact Function.update_of_ne hn _ _
  by_cases hin : s.inQueue dest = true
  · rw [Static.newAgg, if_pos hin]
    refine ⟨h.lock, h.buffer, h.currentNode, ?_, h.inQueue⟩
    intro n hn
    rcases eq_or_ne n dest with rfl | hne
    · exact h.inQueue n hin
    · rw [hfacts n hne] at hn
      exact h.queue n hn
  · rw [Static.newAgg, if_neg hin]
    -- the node is behind the others in the run queue of the thread
    have hmem : ∀ n, n ∈ s.queueNodes (owner n) ∨ n = dest →
        n ∈ Function.update s.queueNodes i (s.queueNodes i ++ [dest]) (owner n) := by
      intro n hn
      rcases eq_or_ne (owner n) i with heq | hne
      · rw [heq, Function.update_self, List.mem_append, List.mem_singleton]
        rw [heq] at hn
        exact hn
      · rw [Function.update_of_ne hne]
        refine hn.resolve_right ?_
        rintro rfl
        exact hne hown
    refine ⟨h.lock, h.buffer, h.currentNode, ?_, ?_⟩
    · intro n hn
      refine hmem n ?_
      rcases eq_or_ne n dest with rfl | hne
      · exact .inr rfl
      · rw [show (((s.addWork dest fact).setQueueNodes i (s.queueNodes i ++ [dest])).setInQueue
          dest true).queue n = (s.addWork dest fact).queue n from rfl, hfacts n hne] at hn
        exact .inl (h.queue n hn)
    · intro n hn
      refine hmem n ?_
      rcases eq_or_ne n dest with rfl | hne
      · exact .inr rfl
      · refine .inl (h.inQueue n ?_)
        rw [show (((s.addWork dest fact).setQueueNodes i (s.queueNodes i ++ [dest])).setInQueue
          dest true).inQueue n = s.inQueue n from Function.update_of_ne hne _ _] at hn
        exact hn

/-- An aggregate for a node of the thread, which is about to call `get_work`. -/
theorem Flags.newAgg (h : s.Flags owner) {dest : ℕ} (fact : φ) (hown : owner dest = i)
    (hpc : s.pc i = .getWork) : (s.newAgg i dest fact).Flags owner := by
  -- the fact goes to a node of this thread
  have hfacts : ∀ n, owner n ≠ i → (s.addWork dest fact).queue n = s.queue n := by
    intro n hn
    refine Function.update_of_ne ?_ _ _
    rintro rfl
    exact hn hown
  -- no node is between its place in the run queue and its flag
  have hflag : ∀ n ∈ s.queueNodes i, s.inQueue n = true := by
    intro n hn
    rcases (h i).flagged n hn with hin | ⟨c, hc⟩
    · exact hin
    · rw [hpc] at hc
      cases hc
  by_cases hin : s.inQueue dest = true
  · rw [Static.newAgg, if_pos hin]
    refine h.local (i := i) (fun _ _ => ⟨rfl, rfl, rfl⟩) (fun n hn => ⟨rfl, hfacts n hn⟩) ?_
    refine (h i).goes rfl rfl rfl (by simp [hpc]) (h i).added (by simp [addWork, setQueue, hpc]) ?_
    simp [addWork, setQueue, hpc, Pc.seen]
  · have hmem : dest ∉ s.queueNodes i := fun hmem => hin (hflag dest hmem)
    -- the new node gets its flag with its place
    have hflag' : ∀ n, n = dest ∨ s.inQueue n = true →
        Function.update s.inQueue dest true n = true := by
      intro n hn
      rcases eq_or_ne n dest with rfl | hne
      · exact Function.update_self _ _ _
      · rw [Function.update_of_ne hne]
        exact hn.resolve_left hne
    have hqueue : (((s.addWork dest fact).setQueueNodes i (s.queueNodes i ++ [dest])).setInQueue
        dest true).queueNodes i = s.queueNodes i ++ [dest] := Function.update_self _ _ _
    rw [Static.newAgg, if_neg hin]
    refine h.local (i := i) (fun j hj => ⟨rfl, rfl, Function.update_of_ne hj _ _⟩) ?_ ?_
    · intro n hn
      refine ⟨Function.update_of_ne ?_ _ _, hfacts n hn⟩
      rintro rfl
      exact hn hown
    · refine ⟨?_, ?_, ?_, ?_, (h i).added, ?_, ?_⟩
      · rw [hqueue]
        intro n hn
        rw [List.mem_append, List.mem_singleton] at hn
        rcases hn with hn | rfl
        · exact (h i).owned n hn
        · exact hown
      · rw [hqueue, List.nodup_append]
        refine ⟨(h i).nodup, List.nodup_singleton dest, ?_⟩
        intro n hn m hm heq
        rw [List.mem_singleton] at hm
        rw [heq, hm] at hn
        exact hmem hn
      · rw [hqueue]
        intro n hn
        rw [List.mem_append, List.mem_singleton] at hn
        exact .inl (hflag' n (hn.symm.imp_right (hflag n)))
      · intro n hn
        obtain ⟨hown', hin', hnot⟩ := (h i).current n hn
        refine ⟨hown', hflag' n (.inr hin'), ?_⟩
        rw [hqueue, List.mem_append, List.mem_singleton]
        rintro (hn' | rfl)
        · exact hnot hn'
        · exact hin hin'
      · intro c n hc
        rw [show (((s.addWork dest fact).setQueueNodes i (s.queueNodes i ++ [dest])).setInQueue
          dest true).pc i = s.pc i from rfl, hpc] at hc
        cases hc
      · intro hseen
        rw [show (((s.addWork dest fact).setQueueNodes i (s.queueNodes i ++ [dest])).setInQueue
          dest true).pc i = s.pc i from rfl, hpc] at hseen
        cases hseen

theorem newAgg_queueNodes_of_ne (dest : ℕ) (fact : φ) (hne : j ≠ i) :
    (s.newAgg i dest fact).queueNodes j = s.queueNodes j := by
  rw [Static.newAgg]
  split
  · rfl
  · exact Function.update_of_ne hne _ _

/-- The generation of aggregates changes the nodes and the run queue only. -/
theorem newAgg_eq (dest : ℕ) (fact : φ) :
    (s.newAgg i dest fact).tstate = s.tstate ∧ (s.newAgg i dest fact).pc = s.pc ∧
      (s.newAgg i dest fact).activeThreads = s.activeThreads ∧
      (s.newAgg i dest fact).done = s.done := by
  rw [Static.newAgg]
  split <;> exact ⟨rfl, rfl, rfl, rfl⟩

/-- A place where a thread without work can be once the barrier is done. -/
def Leaving (pc : Pc size φ) : Prop := pc.idle = true ∧ pc ≠ .retrieve .work

/-- Once the barrier is done, a thread without work only goes on to leave. -/
theorem Settled.stepOf (h : s.Settled owner) (hdone : s.done = true)
    (hstate : s.tstate i = .inactive) (hqueue : s.queueNodes i = [])
    (hpc : Leaving (s.pc i)) (hleft : (s.pc i).returnsNull = false) (work : Work φ) :
    ∃ pc, s.stepOf owner level i work = s.goTo i pc ∧ Leaving pc := by
  -- a thread that is not active and has no work goes its way out
  have hactive : s.tstate i ≠ .active := by
    rw [hstate]
    intro heq
    cases heq
  have hwork := (h.hasWork_eq_false i).mpr hqueue
  obtain ⟨hidle, hcaller⟩ := hpc
  rw [Static.stepOf]
  cases hpci : s.pc i with
  | getWork =>
    refine ⟨_, rfl, ?_⟩
    rw [h.currentNode]
    exact ⟨rfl, by simp⟩
  | nextNode =>
    refine ⟨_, rfl, ?_⟩
    rw [h.currentNode]
    exact ⟨rfl, by simp⟩
  | retrieve c =>
    simp only [h.buffer]
    refine ⟨_, rfl, ?_⟩
    cases c with
    | work => exact absurd hpci hcaller
    | next | busy => exact ⟨rfl, by simp [Caller.done]⟩
  | checkWork | spin =>
    refine ⟨_, rfl, ?_⟩
    rw [hwork]
    exact ⟨rfl, by simp⟩
  | makeInactive =>
    refine ⟨_, rfl, ?_⟩
    rw [if_neg fun hboth => hactive hboth.1]
    exact ⟨rfl, by simp⟩
  | makeInactiveLocked =>
    simp only
    rw [if_neg (by simp [h.lock]), if_pos (by simp [hwork]), if_neg hactive]
    exact ⟨_, rfl, rfl, by simp⟩
  | checkDone =>
    refine ⟨_, rfl, ?_⟩
    rw [if_pos hdone, if_pos hstate]
    exact ⟨rfl, by simp⟩
  | popNode =>
    simp only [hqueue]
    exact ⟨_, rfl, rfl, by simp⟩
  | left =>
    rw [hpci] at hleft
    cases hleft
  | checkUseless | popped | added | queued | wake | barrierWake | barrierInactive | activate
  | activateLocked | barrierActive | waitEnd | working | failed =>
    rw [hpci] at hidle
    cases hidle

/-- Once the barrier is done, no assertion of a thread without work fails. -/
theorem Settled.asserts (h : s.Settled owner) (hqueue : s.queueNodes i = [])
    (hpc : Leaving (s.pc i)) (work : Work φ) : s.asserts owner i work = true := by
  obtain ⟨hidle, -⟩ := hpc
  rw [Static.asserts.eq_def]
  cases hpci : s.pc i with
  | nextNode =>
    simp only
    rw [h.currentNode]
    rfl
  | popNode =>
    simp only
    rw [hqueue]
    rfl
  | getWork | retrieve | popped | wake | checkWork | spin | makeInactive | makeInactiveLocked
  | barrierInactive | checkDone | waitEnd | left | failed => rfl
  | checkUseless | added | queued | barrierWake | activate | activateLocked | barrierActive
  | working =>
    rw [hpci] at hidle
    cases hidle

/-- A thread without nodes in its run queue has ended the iteration: its nodes have no facts and are
not flagged. -/
theorem Settled.ended (h : s.Settled owner) (nodes : List ℕ) (hdone : s.done = true)
    (hstate : s.tstate i = .inactive) (hqueue : s.queueNodes i = []) :
    s.Ended owner nodes i := by
  refine ⟨(h.hasWork_eq_false i).mpr hqueue, hstate, hdone, ?_⟩
  intro node _ hown
  have hnot : node ∉ s.queueNodes (owner node) := by
    rw [hown, hqueue]
    exact List.not_mem_nil
  constructor
  · by_contra hin
    exact hnot (h.inQueue node (by simpa using hin))
  · rw [List.isEmpty_iff]
    by_contra hfacts
    exact hnot (h.queue node hfacts)

/-- The steps of a thread leave the others where they are. -/
theorem stepOf_pc_of_ne (work : Work φ) (hne : j ≠ i) :
    (s.stepOf owner level i work).pc j = s.pc j := by
  have hgo : ∀ (t : Static size φ) pc, t.pc j = s.pc j → (t.goTo i pc).pc j = s.pc j := by
    intro t pc ht
    rw [goTo_pc_of_ne hne, ht]
  rw [Static.stepOf]
  cases hpci : s.pc i with
  | getWork | nextNode | queued | checkWork | spin | makeInactive | checkDone | activate
  | waitEnd => exact hgo _ _ rfl
  | left | failed => rfl
  | checkUseless | retrieve | popNode =>
    simp only
    split
    all_goals first | exact hgo _ _ rfl | (split_ifs <;> exact hgo _ _ rfl)
  | popped | added | wake | barrierWake | makeInactiveLocked | barrierInactive | activateLocked
  | barrierActive =>
    simp only
    split_ifs <;> first | rfl | exact hgo _ _ rfl
  | working =>
    cases work with
    | gather =>
      simp only [Static.doWork]
      split
      · rfl
      · exact hgo _ _ rfl
    | route dest fact =>
      simp only [Static.doWork]
      split_ifs <;> exact hgo _ _ rfl
    | finish => exact hgo _ _ rfl

end Static

/-- Whether a thread has ended its iteration and still has to count itself out. -/
def RoundPc.aggregates : RoundPc → Bool
  | .startRound | .generateAggs | .setActive | .barrierActive | .decrement => true
  | _ => false

/-! ### Counting threads -/

section

variable {p q : Fin size → Prop} [DecidablePred p] [DecidablePred q]

theorem card_filter_congr (i : Fin size) (hne : ∀ j, j ≠ i → (p j ↔ q j)) (hi : p i ↔ q i) :
    (Finset.univ.filter p).card = (Finset.univ.filter q).card := by
  refine congrArg Finset.card (Finset.filter_congr ?_)
  intro j _
  rcases eq_or_ne j i with rfl | hj
  · exact hi
  · exact hne j hj

theorem card_filter_eq_add_one (i : Fin size) (hne : ∀ j, j ≠ i → (p j ↔ q j)) (hp : p i)
    (hq : ¬q i) : (Finset.univ.filter p).card = (Finset.univ.filter q).card + 1 := by
  have hinsert : Finset.univ.filter p = insert i (Finset.univ.filter q) := by
    ext j
    rw [Finset.mem_insert, Finset.mem_filter, Finset.mem_filter]
    rcases eq_or_ne j i with rfl | hj
    · simp [hp]
    · simp [hne j hj, hj]
  rw [hinsert, Finset.card_insert_of_notMem (by simp [hq])]

end

namespace Rounds

variable {r r' : Rounds size φ} {n : ℕ}

@[simp] theorem moveTo_round_self {pc : RoundPc} : (r.moveTo i pc).round i = pc :=
  Function.update_self _ _ _

/-! ### The phases -/

/-- The thread knows the state of the round; the leader does not need to. -/
def Knows (r : Rounds size φ) (i : Fin size) : Prop :=
  i.val ≠ 0 → r.threadRoundState i = r.roundState

/-- The iteration has begun, and the thread is about to see it. -/
def Late (r : Rounds size φ) (i : Fin size) : Prop :=
  i.val ≠ 0 ∧ getNext (r.threadRoundState i) = r.roundState ∧ r.threads.pc i = .getWork

/-- The thread is without work in the iteration. -/
def Spent (r : Rounds size φ) (n : ℕ) (i : Fin size) : Prop :=
  r.iteration i = n ∧ r.threads.tstate i = .inactive ∧ r.threads.queueNodes i = []

/-- The thread has ended the iteration. -/
def Out (r : Rounds size φ) (n : ℕ) (i : Fin size) : Prop :=
  r.iteration i = n + 1 ∧ r.threads.pc i = .getWork

/-- The thread is active if and only if the aggregates gave it work. -/
def Ready (r : Rounds size φ) (i : Fin size) : Prop :=
  r.threads.tstate i = .active ↔ r.threads.queueNodes i ≠ []

/-- A thread while the threads work. -/
def WorkingAt (r : Rounds size φ) (n : ℕ) (i : Fin size) : Prop :=
  r.iteration i = n ∧
    match r.round i with
    | .running => r.Knows i
    | .spinRound | .checkRound | .storeRound => r.Late i
    | _ => False

/-- A thread while the threads leave. -/
def ClosingAt (r : Rounds size φ) (n : ℕ) (i : Fin size) : Prop :=
  match r.round i with
  | .running => r.Spent n i ∧ r.Knows i ∧ Static.Leaving (r.threads.pc i)
  | .assertIteration => r.Spent n i ∧ r.Knows i ∧ r.threads.pc i = .getWork
  | .startRound => r.Spent (n + 1) i ∧ r.Knows i ∧ r.Out n i
  | .generateAggs | .setActive => r.threads.tstate i = .inactive ∧ r.Knows i ∧ r.Out n i
  | .barrierActive =>
    (r.threads.tstate i = .active ∧ r.threads.queueNodes i ≠ []) ∧ r.Knows i ∧ r.Out n i
  | .decrement => r.Ready i ∧ r.Knows i ∧ r.Out n i
  | .waitAgg => r.Ready i ∧ i.val = 0 ∧ r.Out n i
  | .spinRound =>
    (r.Spent n i ∧ r.Late i) ∨ (r.Ready i ∧ (i.val ≠ 0 ∧ r.Knows i) ∧ r.Out n i)
  | .checkRound | .storeRound => r.Spent n i ∧ r.Late i
  | _ => False

/-- A thread while the leader decides. -/
def LeadingAt (r : Rounds size φ) (n : ℕ) (i : Fin size) : Prop :=
  r.Ready i ∧ r.Out n i ∧
    match r.round i with
    | .computeMoreWork | .resetBarrier => i.val = 0 ∧ r.threads.done = true
    | .resetTotal => i.val = 0 ∧ r.threads.done = false
    | .nextRound => i.val = 0 ∧ r.threads.done = false ∧ r.totalInAgg = size
    | .noRound => i.val = 0 ∧ r.threads.done = true ∧ r.threads.activeThreads = 0
    | .spinRound => i.val ≠ 0 ∧ r.threadRoundState i = r.roundState
    | _ => False

/-- A thread when the program is over. -/
def FinishedAt (r : Rounds size φ) (n : ℕ) (i : Fin size) : Prop :=
  r.Spent (n + 1) i ∧
    match r.round i with
    | .spinRound | .checkRound | .assertEnd | .ended => r.threads.pc i = .getWork
    | _ => False


/-- The thread is not counted out yet. -/
def Awaited (r : Rounds size φ) (n : ℕ) (j : Fin size) : Prop :=
  r.iteration j = n ∨ (r.round j).aggregates = true

/-- The barrier counts the thread. -/
def Active (r : Rounds size φ) (j : Fin size) : Prop :=
  r.threads.tstate j = .active ∧ r.round j ≠ .barrierActive

instance (r : Rounds size φ) : DecidablePred (r.Awaited n) := fun _ => instDecidableOr

instance (r : Rounds size φ) : DecidablePred r.Active := fun _ => instDecidableAnd

/-- The threads work. -/
structure Working (owner : ℕ → Fin size) (r : Rounds size φ) (n : ℕ) : Prop where
  inv : r.threads.Inv owner
  done : r.threads.done = false
  total : r.totalInAgg = size
  place : ∀ i, r.WorkingAt n i

/-- The threads leave. -/
structure Closing (owner : ℕ → Fin size) (r : Rounds size φ) (n : ℕ) : Prop where
  settled : r.threads.Settled owner
  done : r.threads.done = true
  total : r.totalInAgg = (Finset.univ.filter (r.Awaited n)).card
  active : r.threads.activeThreads = (Finset.univ.filter r.Active).card
  place : ∀ i, r.ClosingAt n i

/-- The leader decides. -/
structure Leading (owner : ℕ → Fin size) (r : Rounds size φ) (n : ℕ) : Prop where
  settled : r.threads.Settled owner
  active : r.threads.activeThreads =
    (Finset.univ.filter fun i => r.threads.tstate i = .active).card
  place : ∀ i, r.LeadingAt n i

/-- The program is over. -/
structure Finished (owner : ℕ → Fin size) (r : Rounds size φ) (n : ℕ) : Prop where
  settled : r.threads.Settled owner
  done : r.threads.done = true
  roundState : r.roundState = 0
  place : ∀ i, r.FinishedAt n i

/-- The phases of the iteration `n`. -/
def InPhase (owner : ℕ → Fin size) (r : Rounds size φ) (n : ℕ) : Prop :=
  r.Working owner n ∨ r.Closing owner n ∨ r.Leading owner n ∨ r.Finished owner n

/-! ### Steps that leave a thread as it is -/

/-- What is seen of a thread is as before. -/
structure SameAt (r r' : Rounds size φ) (j : Fin size) : Prop where
  round : r'.round j = r.round j
  iteration : r'.iteration j = r.iteration j
  threadRoundState : r'.threadRoundState j = r.threadRoundState j
  tstate : r'.threads.tstate j = r.threads.tstate j
  queueNodes : r'.threads.queueNodes j = r.threads.queueNodes j
  pc : r'.threads.pc j = r.threads.pc j

theorem ClosingAt.congr (h : r.ClosingAt n j) (hsame : SameAt r r' j)
    (hround : r'.roundState = r.roundState) : r'.ClosingAt n j := by
  simp only [ClosingAt, Spent, Knows, Late, Out, Ready, hsame.round, hsame.iteration,
    hsame.threadRoundState, hsame.tstate, hsame.queueNodes, hsame.pc, hround] at h ⊢
  exact h

theorem SameAt.awaited (h : SameAt r r' j) : r'.Awaited n j ↔ r.Awaited n j := by
  rw [Awaited, Awaited, h.iteration, h.round]

theorem SameAt.active (h : SameAt r r' j) : r'.Active j ↔ r.Active j := by
  rw [Active, Active, h.tstate, h.round]

theorem active_iff (h : r.round i ≠ .barrierActive) :
    r.Active i ↔ r.threads.tstate i = .active :=
  and_iff_left h

theorem SameAt.moveTo (h : SameAt r r' j) (hne : j ≠ i) (pc : RoundPc) :
    SameAt r (r'.moveTo i pc) j := by
  refine ⟨?_, h.iteration, h.threadRoundState, h.tstate, h.queueNodes, h.pc⟩
  rw [← h.round]
  exact Function.update_of_ne hne _ _

theorem SameAt.refl (r : Rounds size φ) (j : Fin size) : SameAt r r j :=
  ⟨rfl, rfl, rfl, rfl, rfl, rfl⟩

/-- A step of the thread `i` while the threads leave, at which the counts stay. -/
theorem Closing.step (h : r.Closing owner n) (hsame : ∀ j, j ≠ i → SameAt r r' j)
    (hround : r'.roundState = r.roundState) (hsettled : r'.threads.Settled owner)
    (hdone : r'.threads.done = r.threads.done) (htotal : r'.totalInAgg = r.totalInAgg)
    (hcount : r'.threads.activeThreads = r.threads.activeThreads)
    (hawaited : r'.Awaited n i ↔ r.Awaited n i) (hactive : r'.Active i ↔ r.Active i)
    (hplace : r'.ClosingAt n i) : r'.Closing owner n := by
  refine ⟨hsettled, hdone.trans h.done, ?_, ?_, ?_⟩
  · rw [htotal, h.total]
    exact card_filter_congr i (fun j hj => (hsame j hj).awaited.symm) hawaited.symm
  · rw [hcount, h.active]
    exact card_filter_congr i (fun j hj => (hsame j hj).active.symm) hactive.symm
  · intro j
    rcases eq_or_ne j i with rfl | hj
    · exact hplace
    · exact (h.place j).congr (hsame j hj) hround

/-- A step of the thread `i` to another place. -/
theorem Closing.moveTo (h : r.Closing owner n) {pc : RoundPc}
    (hawaited : pc.aggregates = (r.round i).aggregates)
    (hactive : pc = .barrierActive ↔ r.round i = .barrierActive)
    (hplace : (r.moveTo i pc).ClosingAt n i) : (r.moveTo i pc).Closing owner n := by
  refine h.step (fun j hj => (SameAt.refl r j).moveTo hj pc) rfl h.settled
    rfl rfl rfl ?_ ?_ hplace
  · rw [Awaited, Awaited, moveTo_round_self, hawaited]
    rfl
  · rw [Active, Active, moveTo_round_self, ne_eq, ne_eq, hactive]
    rfl

/-! ### The threads leave -/

/-- A thread is still in the iteration, or sees that `get_work` returns null. -/
theorem Closing.running (h : r.Closing owner n) (hpc : r.round i = .running) (work : Work φ)
    (agg : Option (ℕ × φ)) : (r.stepOf owner level nodes i work agg).Closing owner n := by
  have hplace := h.place i
  rw [ClosingAt, hpc] at hplace
  obtain ⟨hspent, hknows, hleaving⟩ := hplace
  simp only [Rounds.stepOf, hpc]
  have hsame : ∀ pc, ∀ j, j ≠ i → SameAt r (r.setThreads (r.threads.goTo i pc)) j :=
    fun pc j hj => ⟨rfl, rfl, rfl, rfl, rfl, Static.goTo_pc_of_ne hj⟩
  rw [if_pos (h.settled.asserts hspent.2.2 hleaving work)]
  split_ifs with hleft
  · refine h.step (fun j hj => (hsame _ j hj).moveTo hj _) rfl
      (h.settled.goTo i _) rfl rfl rfl ?_ ?_ ?_
    · rw [Awaited, Awaited, moveTo_round_self, hpc]
      rfl
    · rw [active_iff (by rw [moveTo_round_self]; simp), active_iff (by rw [hpc]; simp)]
      rfl
    · rw [ClosingAt, moveTo_round_self]
      exact ⟨hspent, hknows, Static.goTo_pc_self⟩
  · rw [Bool.not_eq_true] at hleft
    obtain ⟨pc, hstep, hpc'⟩ : ∃ pc, r.threads.stepOf owner level i work = r.threads.goTo i pc ∧
        Static.Leaving pc :=
      h.settled.stepOf h.done hspent.2.1 hspent.2.2 hleaving hleft work
    rw [hstep]
    refine h.step (hsame pc) rfl (h.settled.goTo i pc) rfl rfl rfl Iff.rfl Iff.rfl ?_
    rw [ClosingAt, show (r.setThreads (r.threads.goTo i pc)).round i = .running from hpc]
    refine ⟨hspent, hknows, ?_⟩
    rw [show (r.setThreads (r.threads.goTo i pc)).threads.pc i = pc from Static.goTo_pc_self]
    exact hpc'

/-- A thread that has ended its iteration goes on to its aggregates. -/
theorem Closing.assertIteration (h : r.Closing owner n) (hpc : r.round i = .assertIteration)
    (work : Work φ) (agg : Option (ℕ × φ)) :
    (r.stepOf owner level nodes i work agg).Closing owner n := by
  have hplace := h.place i
  rw [ClosingAt, hpc] at hplace
  obtain ⟨⟨hiter, hstate, hqueue⟩, hknows, hpci⟩ := hplace
  have hended : r.threads.Ended owner nodes i := h.settled.ended nodes h.done hstate hqueue
  have hiter' : ((r.incIteration i).moveTo i .startRound).iteration i = n + 1 := by
    rw [show ((r.incIteration i).moveTo i .startRound).iteration i = r.iteration i + 1 from
      Function.update_self _ _ _, hiter]
  have hsame : ∀ j, j ≠ i → SameAt r (r.incIteration i) j := fun j hj =>
    ⟨rfl, Function.update_of_ne hj _ _, rfl, rfl, rfl, rfl⟩
  simp only [Rounds.stepOf, hpc]
  rw [if_pos hended]
  refine h.step (fun j hj => (hsame j hj).moveTo hj _) rfl h.settled rfl rfl rfl ?_ ?_ ?_
  · exact iff_of_true (.inr (by rw [moveTo_round_self]; rfl)) (.inl hiter)
  · rw [active_iff (by rw [moveTo_round_self]; simp), active_iff (by rw [hpc]; simp)]
    rfl
  · rw [ClosingAt, moveTo_round_self]
    exact ⟨⟨hiter', hstate, hqueue⟩, hknows, hiter', hpci⟩

/-- A thread generates an aggregate for one of its nodes, or has generated all. -/
theorem Closing.generateAggs (h : r.Closing owner n) (hflags : r.threads.Flags owner)
    (hpc : r.round i = .generateAggs) (work : Work φ) {agg : Option (ℕ × φ)} (hagg : ∀ fact ∈ agg, owner fact.1 = i) :
    (r.stepOf owner level nodes i work agg).Closing owner n := by
  have hplace := h.place i
  rw [ClosingAt, hpc] at hplace
  cases agg with
  | none =>
    simp only [Rounds.stepOf, hpc]
    refine h.moveTo (by rw [hpc]; rfl) (by rw [hpc]; simp) ?_
    rw [ClosingAt, moveTo_round_self]
    exact hplace
  | some fact =>
    obtain ⟨hstate, hknows, hiter, hpci⟩ := hplace
    obtain ⟨htstate, hpcs, hcount, hdone⟩ :=
      Static.newAgg_eq (s := r.threads) (i := i) fact.1 fact.2
    have hsame : ∀ j, j ≠ i → SameAt r (r.setThreads (r.threads.newAgg i fact.1 fact.2)) j :=
      fun j hj => ⟨rfl, rfl, rfl, congrFun htstate j, Static.newAgg_queueNodes_of_ne _ _ hj,
        congrFun hpcs j⟩
    have hpush : r.threads.assertPush fact.1 = true :=
      hflags.assertPush (hagg fact rfl) (by rw [hpci]; simp)
    simp only [Rounds.stepOf, hpc]
    rw [if_pos hpush]
    refine h.step hsame rfl (h.settled.newAgg fact.2 (hagg fact rfl)) hdone rfl hcount Iff.rfl
      ?_ ?_
    · rw [Active, Active, setThreads, htstate]
    · rw [ClosingAt, show (r.setThreads (r.threads.newAgg i fact.1 fact.2)).round i =
        .generateAggs from hpc]
      refine ⟨(congrFun htstate i).trans hstate, hknows, hiter, ?_⟩
      exact (congrFun hpcs i).trans hpci

/-- A thread with aggregates becomes active. -/
theorem Closing.setActive (h : r.Closing owner n) (hpc : r.round i = .setActive)
    (work : Work φ) (agg : Option (ℕ × φ)) :
    (r.stepOf owner level nodes i work agg).Closing owner n := by
  have hplace := h.place i
  rw [ClosingAt, hpc] at hplace
  obtain ⟨hstate, hknows, hout⟩ := hplace
  simp only [Rounds.stepOf, hpc]
  by_cases hwork : r.threads.hasWork i = true
  · rw [if_pos hwork, if_pos hstate]
    have hstate' : ((r.setThreads (r.threads.setActive i)).moveTo i .barrierActive).threads.tstate
        i = .active := Function.update_self _ _ _
    have hsame : ∀ j, j ≠ i → SameAt r (r.setThreads (r.threads.setActive i)) j := fun j hj =>
      ⟨rfl, rfl, rfl, Function.update_of_ne hj _ _, rfl, rfl⟩
    refine h.step (fun j hj => (hsame j hj).moveTo hj _) rfl
      (h.settled.setActive i) rfl rfl rfl ?_ ?_ ?_
    · rw [Awaited, Awaited, moveTo_round_self, hpc]
      rfl
    · -- the barrier does not count it yet
      refine iff_of_false ?_ ?_
      · intro hactive
        exact hactive.2 moveTo_round_self
      · intro hactive
        rw [Active, hstate] at hactive
        cases hactive.1
    · rw [ClosingAt, moveTo_round_self]
      exact ⟨⟨hstate', (h.settled.hasWork i).mp hwork⟩, hknows, hout⟩
  · rw [if_neg hwork]
    refine h.moveTo (by rw [hpc]; rfl) (by rw [hpc]; simp) ?_
    rw [ClosingAt, moveTo_round_self]
    refine ⟨iff_of_false ?_ ?_, hknows, hout⟩
    · intro hactive
      rw [show (r.moveTo i .decrement).threads.tstate i = r.threads.tstate i from rfl, hstate]
        at hactive
      cases hactive
    · exact fun hqueue => hwork ((h.settled.hasWork i).mpr hqueue)

/-- The barrier counts the thread. -/
theorem Closing.barrierActive (h : r.Closing owner n) (hpc : r.round i = .barrierActive)
    (work : Work φ) (agg : Option (ℕ × φ)) :
    (r.stepOf owner level nodes i work agg).Closing owner n := by
  have hplace := h.place i
  rw [ClosingAt, hpc] at hplace
  obtain ⟨⟨hstate, hqueue⟩, hknows, hout⟩ := hplace
  have hthreads : ∀ j, SameAt r (r.setThreads r.threads.addActive) j := fun _ =>
    ⟨rfl, rfl, rfl, rfl, rfl, rfl⟩
  have hsame : ∀ j, j ≠ i →
      SameAt r ((r.setThreads r.threads.addActive).moveTo i .decrement) j := fun j hj =>
    (hthreads j).moveTo hj _
  have hactive : ((r.setThreads r.threads.addActive).moveTo i .decrement).Active i := by
    refine ⟨hstate, ?_⟩
    rw [moveTo_round_self]
    intro heq
    cases heq
  have hcount : (Finset.univ.filter
      ((r.setThreads r.threads.addActive).moveTo i .decrement).Active).card =
      r.threads.activeThreads + 1 := by
    rw [h.active]
    exact card_filter_eq_add_one i (fun j hj => (hsame j hj).active) hactive
      fun hold => hold.2 hpc
  have hlt : r.threads.activeThreads < size := by
    have hle := Finset.card_le_univ (Finset.univ.filter
      ((r.setThreads r.threads.addActive).moveTo i .decrement).Active)
    rw [hcount, Fintype.card_fin] at hle
    exact hle
  simp only [Rounds.stepOf, hpc]
  rw [if_pos hlt]
  refine ⟨h.settled.addActive, h.done, ?_, hcount.symm, ?_⟩
  · rw [show ((r.setThreads r.threads.addActive).moveTo i .decrement).totalInAgg = r.totalInAgg
      from rfl, h.total]
    refine card_filter_congr i (fun j hj => (hsame j hj).awaited.symm) ?_
    rw [Awaited, Awaited, moveTo_round_self, hpc]
    rfl
  · intro j
    rcases eq_or_ne j i with rfl | hj
    · rw [ClosingAt, moveTo_round_self]
      exact ⟨iff_of_true hstate hqueue, hknows, hout⟩
    · exact (h.place j).congr (hsame j hj) rfl

/-- A thread counts itself out. -/
theorem Closing.decrement (h : r.Closing owner n) (hpc : r.round i = .decrement)
    (work : Work φ) (agg : Option (ℕ × φ)) :
    (r.stepOf owner level nodes i work agg).Closing owner n := by
  have hplace := h.place i
  rw [ClosingAt, hpc] at hplace
  obtain ⟨hready, hknows, hiter, hpci⟩ := hplace
  have hawaited : r.Awaited n i := by
    right
    rw [hpc]
    rfl
  simp only [Rounds.stepOf, hpc]
  generalize hnext : (if i.val = 0 then RoundPc.waitAgg else RoundPc.spinRound) = pc
  have hpc' : pc.aggregates = false ∧ pc ≠ .barrierActive := by
    rw [← hnext]
    split_ifs <;> exact ⟨rfl, by simp⟩
  have htotal : ∀ j, SameAt r (r.setTotal (r.totalInAgg - 1)) j := fun _ =>
    ⟨rfl, rfl, rfl, rfl, rfl, rfl⟩
  have hsame : ∀ j, j ≠ i →
      SameAt r ((r.setTotal (r.totalInAgg - 1)).moveTo i pc) j := fun j hj =>
    (htotal j).moveTo hj _
  have hout : ¬((r.setTotal (r.totalInAgg - 1)).moveTo i pc).Awaited n i := by
    rw [Awaited, moveTo_round_self, hpc'.1,
      show ((r.setTotal (r.totalInAgg - 1)).moveTo i pc).iteration i = r.iteration i from rfl,
      hiter]
    simp
  have hcount : r.totalInAgg = (Finset.univ.filter
      (((r.setTotal (r.totalInAgg - 1)).moveTo i pc).Awaited n)).card + 1 := by
    rw [h.total]
    exact card_filter_eq_add_one i (fun j hj => (hsame j hj).awaited.symm) hawaited hout
  rw [if_pos (by omega)]
  refine ⟨h.settled, h.done, ?_, ?_, ?_⟩
  · rw [show ((r.setTotal (r.totalInAgg - 1)).moveTo i pc).totalInAgg = r.totalInAgg - 1 from rfl]
    omega
  · rw [show ((r.setTotal (r.totalInAgg - 1)).moveTo i pc).threads.activeThreads =
      r.threads.activeThreads from rfl, h.active]
    refine card_filter_congr i (fun j hj => (hsame j hj).active.symm) ?_
    rw [active_iff (by rw [hpc]; simp), active_iff (by rw [moveTo_round_self]; exact hpc'.2)]
    rfl
  · intro j
    rcases eq_or_ne j i with rfl | hj
    · rw [ClosingAt, moveTo_round_self, ← hnext]
      split_ifs with hleader
      · exact ⟨hready, hleader, hiter, hpci⟩
      · exact .inr ⟨hready, ⟨hleader, hknows⟩, hiter, hpci⟩
    · exact (h.place j).congr (hsame j hj) rfl

/-- The leader goes on when all threads are counted out. -/
theorem Closing.waitAgg (h : r.Closing owner n) (hpc : r.round i = .waitAgg)
    (work : Work φ) (agg : Option (ℕ × φ)) :
    (r.stepOf owner level nodes i work agg).Closing owner n ∨
      (r.stepOf owner level nodes i work agg).Leading owner n := by
  have hplace := h.place i
  rw [ClosingAt, hpc] at hplace
  obtain ⟨hready, hleader, hout⟩ := hplace
  simp only [Rounds.stepOf, hpc]
  by_cases htotal : r.totalInAgg = 0
  swap
  · rw [if_neg htotal]
    exact .inl h
  rw [if_pos htotal]
  right
  have hnone : ∀ j, ¬r.Awaited n j := by
    intro j hj
    have hempty := h.total
    rw [htotal] at hempty
    have hmem : j ∈ Finset.univ.filter (r.Awaited n) :=
      Finset.mem_filter.mpr ⟨Finset.mem_univ j, hj⟩
    rw [Finset.card_eq_zero.mp hempty.symm] at hmem
    exact absurd hmem (Finset.notMem_empty j)
  -- the others wait for the next round
  have hothers : ∀ j, j ≠ i → r.round j = .spinRound ∧ r.Ready j ∧ (j.val ≠ 0 ∧ r.Knows j) ∧
      r.Out n j := by
    intro j hj
    have hplace := h.place j
    have hiter : r.iteration j ≠ n := fun heq => hnone j (.inl heq)
    have haggregates : (r.round j).aggregates ≠ true := fun heq => hnone j (.inr heq)
    rw [ClosingAt] at hplace
    cases hround : r.round j with
    | spinRound =>
      rw [hround] at hplace
      rcases hplace with hlate | hwaits
      · exact absurd hlate.1.1 hiter
      · exact ⟨rfl, hwaits⟩
    | waitAgg =>
      rw [hround] at hplace
      exact absurd (Fin.ext (hplace.2.1.trans hleader.symm)) hj
    | running | assertIteration | checkRound | storeRound =>
      rw [hround] at hplace
      exact absurd hplace.1.1 hiter
    | startRound | generateAggs | setActive | barrierActive | decrement =>
      rw [hround] at haggregates
      exact absurd rfl haggregates
    | computeMoreWork | resetBarrier | resetTotal | nextRound | noRound | assertEnd | ended
    | failed =>
      rw [hround] at hplace
      exact hplace.elim
  refine ⟨h.settled, ?_, ?_⟩
  · refine h.active.trans (congrArg Finset.card (Finset.filter_congr ?_))
    intro j _
    refine active_iff ?_
    rcases eq_or_ne j i with rfl | hj
    · rw [hpc]
      simp
    · rw [(hothers j hj).1]
      simp
  · intro j
    rcases eq_or_ne j i with rfl | hj
    · refine ⟨hready, hout, ?_⟩
      rw [moveTo_round_self]
      exact ⟨hleader, h.done⟩
    · obtain ⟨hround, hreadyj, ⟨hne, hknows⟩, houtj⟩ := hothers j hj
      refine ⟨hreadyj, houtj, ?_⟩
      rw [((SameAt.refl r j).moveTo hj .computeMoreWork).round, hround]
      exact ⟨hne, hknows hne⟩

/-- What a thread does while the threads leave. -/
theorem Closing.stepOf (h : r.Closing owner n) (hflags : r.threads.Flags owner)
    (work : Work φ) {agg : Option (ℕ × φ)} (hagg : ∀ fact ∈ agg, owner fact.1 = i) :
    (r.stepOf owner level nodes i work agg).InPhase owner n := by
  have hplace := h.place i
  rw [ClosingAt] at hplace
  cases hpc : r.round i with
  | running => exact .inr (.inl (h.running hpc work agg))
  | assertIteration => exact .inr (.inl (h.assertIteration hpc work agg))
  | generateAggs => exact .inr (.inl (h.generateAggs hflags hpc work hagg))
  | setActive => exact .inr (.inl (h.setActive hpc work agg))
  | barrierActive => exact .inr (.inl (h.barrierActive hpc work agg))
  | decrement => exact .inr (.inl (h.decrement hpc work agg))
  | waitAgg => exact .inr ((h.waitAgg hpc work agg).imp_right .inl)
  | startRound =>
    rw [hpc] at hplace
    simp only [Rounds.stepOf, hpc]
    rw [if_pos hplace.1.2.1]
    refine .inr (.inl (h.moveTo (by rw [hpc]; rfl) (by rw [hpc]; simp) ?_))
    rw [ClosingAt, moveTo_round_self]
    exact ⟨hplace.1.2.1, hplace.2⟩
  | spinRound =>
    rw [hpc] at hplace
    simp only [Rounds.stepOf, hpc]
    split_ifs with hspin
    · exact .inr (.inl h)
    · refine .inr (.inl (h.moveTo (by rw [hpc]; rfl) (by rw [hpc]; simp) ?_))
      rw [ClosingAt, moveTo_round_self]
      rcases hplace with hlate | ⟨-, ⟨hne, hknows⟩, -⟩
      · exact hlate
      · exact absurd (hknows hne).symm hspin
  | checkRound =>
    rw [hpc] at hplace
    simp only [Rounds.stepOf, hpc]
    rw [if_pos hplace.2.2.1.symm]
    refine .inr (.inl (h.moveTo (by rw [hpc]; rfl) (by rw [hpc]; simp) ?_))
    rw [ClosingAt, moveTo_round_self]
    exact hplace
  | storeRound =>
    rw [hpc] at hplace
    obtain ⟨hspent, hne, hnext, hgetWork⟩ := hplace
    -- the other threads see nothing of it
    have hsame : ∀ j, j ≠ i →
        SameAt r (r.setThreadRoundState i (getNext (r.threadRoundState i))) j := fun j hj =>
      ⟨rfl, rfl, Function.update_of_ne hj _ _, rfl, rfl, rfl⟩
    simp only [Rounds.stepOf, hpc]
    rw [if_pos hnext]
    refine .inr (.inl (h.step (fun j hj => (hsame j hj).moveTo hj _) rfl
      h.settled rfl rfl rfl ?_ ?_ ?_))
    · rw [Awaited, Awaited, moveTo_round_self, hpc]
      rfl
    · rw [active_iff (by rw [moveTo_round_self]; simp), active_iff (by rw [hpc]; simp)]
      rfl
    · rw [ClosingAt, moveTo_round_self]
      refine ⟨hspent, fun _ => (Function.update_self _ _ _).trans hnext, ?_⟩
      rw [show ((r.setThreadRoundState i (getNext (r.threadRoundState i))).moveTo i
        .running).threads.pc i = .getWork from hgetWork]
      exact ⟨rfl, by simp⟩
  | computeMoreWork | resetBarrier | resetTotal | nextRound | noRound | assertEnd | ended
  | failed =>
    rw [hpc] at hplace
    exact hplace.elim

end Rounds

end Meld.Thread
