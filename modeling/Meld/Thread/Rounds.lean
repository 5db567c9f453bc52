import Meld.Thread.StaticAsserts
import Meld.Thread.StaticTermination

/-!
# The iterations of the static scheduler

A thread that has left `busy_wait` with false ends its iteration: it makes the aggregates of its
nodes (`START_ROUND`), becomes active if they gave it work, and counts itself out of `total_in_agg`
(`END_ROUND`). The leader waits until all threads have done so, and looks whether one of them is
active. If so it resets the termination barrier and `total_in_agg` and advances `round_state`, for
which the others wait; if not it sets `round_state` to zero, and the program ends.

While a thread is in an iteration its steps are those of `Static`, with the assertions about the
nodes in front of them; between two iterations its place there is the call of `get_work` that comes
next. Of the assertions only those of `assert_end` about the aggregates of a node are left out.
-/

namespace Meld.Thread

open Lib

/-- Where a thread is in `do_loop`. -/
inductive RoundPc
  /-- `get_work`, and the work on a node -/
  | running
  /-- `assert_end_iteration` -/
  | assertIteration
  /-- `assert(is_inactive())` in `START_ROUND` -/
  | startRound
  /-- `generate_aggs` -/
  | generateAggs
  /-- `if(has_work()) set_active()` -/
  | setActive
  /-- `term_barrier->is_active()` -/
  | barrierActive
  /-- `total_in_agg--` -/
  | decrement
  /-- `while(total_in_agg != 0)` -/
  | waitAgg
  /-- `more_work = num_active() > 0` -/
  | computeMoreWork
  /-- `reset_barrier()` -/
  | resetBarrier
  /-- `total_in_agg = state.all->NUM_THREADS` -/
  | resetTotal
  /-- `round_state = GET_NEXT(round_state)` -/
  | nextRound
  /-- `round_state = 0` -/
  | noRound
  /-- `while(round_state == thread_round_state)` -/
  | spinRound
  /-- `if(round_state == supos)` -/
  | checkRound
  /-- `thread_round_state = supos`, with the assertion behind it -/
  | storeRound
  /-- `assert_end` -/
  | assertEnd
  /-- `end` -/
  | ended
  /-- a failed assertion -/
  | failed
  deriving DecidableEq, Repr

/-- `GET_NEXT`. -/
def getNext (x : ℕ) : ℕ := if x = 1 then 2 else 1

/-- The threads with their schedulers: the states in an iteration, the places in `do_loop`, the
numbers of iterations, and what `threaded` has for the rounds. -/
structure Rounds (size : ℕ) (φ : Type) where
  threads : Static size φ
  round : Fin size → RoundPc
  iteration : Fin size → ℕ
  threadRoundState : Fin size → ℕ
  totalInAgg : ℕ
  roundState : ℕ

variable {size : ℕ} {φ : Type}

/-- Whether `get_work` returns null. -/
def Pc.returnsNull : Pc size φ → Bool
  | .left => true
  | _ => false

namespace Static

/-- `new_agg`, for a node of the thread `i`. -/
def newAgg (s : Static size φ) (i : Fin size) (dest : ℕ) (fact : φ) : Static size φ :=
  if s.inQueue dest then s.addWork dest fact
  else
    ((s.addWork dest fact).setQueueNodes i (s.queueNodes i ++ [dest])).setInQueue dest true

/-- `tstate = THREAD_ACTIVE` in `set_active`, by the thread itself. -/
def setActive (s : Static size φ) (i : Fin size) : Static size φ :=
  { s with tstate := Function.update s.tstate i .active }

/-- `term_barrier->is_active()`. -/
def addActive (s : Static size φ) : Static size φ :=
  { s with activeThreads := s.activeThreads + 1 }

/-- `term_barrier->reset()`. -/
def resetBarrier (s : Static size φ) : Static size φ := { s with done := false }

/-- What `assert_end_iteration` and `assert_end` ask for: of the thread, and of its nodes
(`assert_static_nodes_end_iteration` and `assert_static_nodes_end`). -/
def Ended (owner : ℕ → Fin size) (nodes : List ℕ) (s : Static size φ) (i : Fin size) : Prop :=
  s.hasWork i = false ∧ s.tstate i = .inactive ∧ s.done = true ∧
    ∀ node ∈ nodes, owner node = i → s.inQueue node = false ∧ (s.queue node).isEmpty = true

instance (owner : ℕ → Fin size) (nodes : List ℕ) (s : Static size φ) (i : Fin size) :
    Decidable (s.Ended owner nodes i) :=
  inferInstanceAs (Decidable (_ ∧ _ ∧ _ ∧ ∀ node ∈ nodes, _ → _ ∧ _))

end Static

namespace Rounds

/-- The thread `i` goes on at another place. -/
def moveTo (r : Rounds size φ) (i : Fin size) (pc : RoundPc) : Rounds size φ :=
  { r with round := Function.update r.round i pc }

/-- Other states in the iteration. -/
def setThreads (r : Rounds size φ) (s : Static size φ) : Rounds size φ := { r with threads := s }

/-- `total_in_agg = n`. -/
def setTotal (r : Rounds size φ) (n : ℕ) : Rounds size φ := { r with totalInAgg := n }

/-- `round_state = n`. -/
def setRoundState (r : Rounds size φ) (n : ℕ) : Rounds size φ := { r with roundState := n }

/-- `thread_round_state = n` of the thread `i`. -/
def setThreadRoundState (r : Rounds size φ) (i : Fin size) (n : ℕ) : Rounds size φ :=
  { r with threadRoundState := Function.update r.threadRoundState i n }

/-- `++iteration` of the thread `i`. -/
def incIteration (r : Rounds size φ) (i : Fin size) : Rounds size φ :=
  { r with iteration := Function.update r.iteration i (r.iteration i + 1) }

variable (owner : ℕ → Fin size) (level : φ → ℕ) (nodes : List ℕ)

/-- The next step of the thread `i`; `work` is what its rules do if they are running, and `agg` the
next aggregate if it generates them. The database has the nodes `nodes`. -/
def stepOf (r : Rounds size φ) (i : Fin size) (work : Work φ) (agg : Option (ℕ × φ)) :
    Rounds size φ :=
  match r.round i with
  | .running =>
    if (r.threads.pc i).returnsNull then
      (r.setThreads (r.threads.goTo i .getWork)).moveTo i .assertIteration
    else if r.threads.asserts owner i work then
      r.setThreads (r.threads.stepOf owner level i work)
    else r.moveTo i .failed
  | .assertIteration =>
    if r.threads.Ended owner nodes i then (r.incIteration i).moveTo i .startRound else r.moveTo i .failed
  | .startRound =>
    r.moveTo i (if r.threads.tstate i = .inactive then .generateAggs else .failed)
  | .generateAggs =>
    match agg with
    | some (dest, fact) =>
      if r.threads.assertPush dest then r.setThreads (r.threads.newAgg i dest fact)
      else r.moveTo i .failed
    | none => r.moveTo i .setActive
  | .setActive =>
    if r.threads.hasWork i then
      if r.threads.tstate i = .inactive then
        (r.setThreads (r.threads.setActive i)).moveTo i .barrierActive
      else r.moveTo i .failed
    else r.moveTo i .decrement
  | .barrierActive =>
    if r.threads.activeThreads < size then (r.setThreads r.threads.addActive).moveTo i .decrement
    else r.moveTo i .failed
  | .decrement =>
    if 0 < r.totalInAgg then
      -- `leader_thread`
      (r.setTotal (r.totalInAgg - 1)).moveTo i (if i.val = 0 then .waitAgg else .spinRound)
    else r.moveTo i .failed
  | .waitAgg => if r.totalInAgg = 0 then r.moveTo i .computeMoreWork else r
  | .computeMoreWork =>
    r.moveTo i (if 0 < r.threads.activeThreads then .resetBarrier else .noRound)
  | .resetBarrier => (r.setThreads r.threads.resetBarrier).moveTo i .resetTotal
  | .resetTotal => (r.setTotal size).moveTo i .nextRound
  | .nextRound => (r.setRoundState (getNext r.roundState)).moveTo i .running
  | .noRound => (r.setRoundState 0).moveTo i .assertEnd
  | .spinRound => if r.roundState = r.threadRoundState i then r else r.moveTo i .checkRound
  | .checkRound =>
    r.moveTo i (if r.roundState = getNext (r.threadRoundState i) then .storeRound else .assertEnd)
  | .storeRound =>
    (r.setThreadRoundState i (getNext (r.threadRoundState i))).moveTo i
      (if getNext (r.threadRoundState i) = r.roundState then .running else .failed)
  | .assertEnd => r.moveTo i (if r.threads.Ended owner nodes i then .ended else .failed)
  | .ended => r
  | .failed => r

/-- The threads after `init`, which has asserted that the nodes in the run queues are flagged. -/
structure Start (r : Rounds size φ) : Prop where
  threads : r.threads.Start owner
  owned : ∀ i, ∀ node ∈ r.threads.queueNodes i, owner node = i
  nodup : ∀ i, (r.threads.queueNodes i).Nodup
  inQueue : ∀ i, ∀ node ∈ r.threads.queueNodes i, r.threads.inQueue node = true
  round : ∀ i, r.round i = .running
  iteration : ∀ i, r.iteration i = 0
  threadRoundState : ∀ i, r.threadRoundState i = 1
  totalInAgg : r.totalInAgg = size
  roundState : r.roundState = 1

end Rounds

/-- The static scheduler over all iterations, with every order of the threads' steps in which the
barrier is not done too early. The aggregates of a thread are those of its nodes. -/
def staticRounds (owner : ℕ → Fin size) (level : φ → ℕ) (nodes : List ℕ) :
    System (Rounds size φ) where
  init r := r.Start owner
  step r r' := ∃ i work agg, r.threads.LatchOk i ∧ (∀ fact ∈ agg, owner fact.1 = i) ∧
    r' = r.stepOf owner level nodes i work agg

end Meld.Thread
