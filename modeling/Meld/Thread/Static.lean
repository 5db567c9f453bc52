import Meld.Lib.Transition

/-!
# The static scheduler

Each thread owns nodes and runs those of its run queue. A fact for a node of another thread goes
into the inbox of its owner, which moves it to the node; a thread without work waits in `busy_wait`,
where it is inactive, until it finds work or the termination barrier is done. The threads that are
not inactive are counted by the barrier.

The threads are those of one iteration: a thread that has left `busy_wait` with false takes no more
steps in it. Of the assertions a step has here those about the states of the threads and about the
barrier; those about the nodes are `Static.asserts`, which is in front of each step once the
iterations are put together.
-/

namespace Meld.Thread

open Lib

/-- `thread_state`. -/
inductive ThreadState
  | active
  | inactive
  deriving DecidableEq, Repr

/-- Who puts a fact into a node: the rules that run, or `retrieve_tuples` as `set_next_node` or
`busy_wait` has called it. -/
inductive Caller
  | work
  | next
  | busy
  deriving DecidableEq, Repr

/-- Who calls `set_active_if_inactive`: `busy_wait` or `get_work`. -/
inductive Activator
  | wait
  | node
  deriving DecidableEq, Repr

/-- Where a thread is between two of its steps. -/
inductive Pc (size : ℕ) (φ : Type)
  /-- the call of `get_work` -/
  | getWork
  /-- `check_if_current_useless` -/
  | checkUseless
  /-- `while(current_node == NULL)` -/
  | nextNode
  /-- `while(!buffer.empty())` in `retrieve_tuples` -/
  | retrieve (c : Caller)
  /-- after `buffer.pop()` -/
  | popped (c : Caller) (dest : ℕ) (fact : φ)
  /-- after `to->add_work` -/
  | added (c : Caller) (dest : ℕ)
  /-- after `add_to_queue(to)` -/
  | queued (c : Caller) (dest : ℕ)
  /-- the locked check after `owner->buffer.push` -/
  | wake (c : Caller) (owner : Fin size)
  /-- `term_barrier->is_active()` for the owner -/
  | barrierWake (c : Caller) (owner : Fin size)
  /-- `if(!has_work())` in `set_next_node` -/
  | checkWork
  /-- `while(!has_work())` in `busy_wait` -/
  | spin
  /-- the check of `BUSY_LOOP_MAKE_INACTIVE` -/
  | makeInactive
  /-- its locked check -/
  | makeInactiveLocked
  /-- `term_barrier->is_inactive()` -/
  | barrierInactive
  /-- `BUSY_LOOP_CHECK_TERMINATION_THREADS` -/
  | checkDone
  /-- the check of `set_active_if_inactive` -/
  | activate (a : Activator)
  /-- its locked check -/
  | activateLocked (a : Activator)
  /-- `term_barrier->is_active()` for the thread itself -/
  | barrierActive (a : Activator)
  /-- the assertions at the end of `busy_wait` -/
  | waitEnd
  /-- `queue_nodes.pop(current_node)` -/
  | popNode
  /-- the rules of the current node -/
  | working
  /-- `busy_wait` has returned false -/
  | left
  /-- a failed assertion -/
  | failed
  deriving DecidableEq, Repr

/-- What the rules of the current node do next: they take the facts of the least level, send a fact
to a node, or end. -/
inductive Work (φ : Type)
  | gather
  | route (dest : ℕ) (fact : φ)
  | finish
  deriving DecidableEq, Repr

variable {size : ℕ} {φ : Type}

/-- Where a thread goes on after it has put a fact into a node or an inbox. -/
def Caller.resume : Caller → Pc size φ
  | .work => .working
  | .next => .retrieve .next
  | .busy => .retrieve .busy

/-- Where a thread goes on after `retrieve_tuples`. -/
def Caller.done : Caller → Pc size φ
  | .work => .working
  | .next => .checkWork
  | .busy => .makeInactive

/-- Where a thread goes on after `set_active_if_inactive`. -/
def Activator.resume : Activator → Pc size φ
  | .wait => .waitEnd
  | .node => .working

/-- `top_list`: the facts that are left are those above the least level. -/
def topList (level : φ → ℕ) (facts : List φ) : List φ :=
  facts.filter fun fact => facts.any fun other => level other < level fact

/-- The threads with their run queues, inboxes, current nodes, states and locks, the nodes with
their facts, and the termination barrier. A lock that is taken has the thread that took it. -/
structure Static (size : ℕ) (φ : Type) where
  queueNodes : Fin size → List ℕ
  buffer : Fin size → List (ℕ × φ)
  currentNode : Fin size → Option ℕ
  tstate : Fin size → ThreadState
  lock : Fin size → Option (Fin size)
  pc : Fin size → Pc size φ
  queue : ℕ → List φ
  inQueue : ℕ → Bool
  activeThreads : ℕ
  done : Bool

namespace Static

/-- `has_work`. -/
def hasWork (s : Static size φ) (i : Fin size) : Bool :=
  !(s.queueNodes i).isEmpty || !(s.buffer i).isEmpty

def goTo (s : Static size φ) (i : Fin size) (pc : Pc size φ) : Static size φ :=
  { s with pc := Function.update s.pc i pc }

/-- The thread `i` with another current node. -/
def setCurrent (s : Static size φ) (i : Fin size) (node : Option ℕ) : Static size φ :=
  { s with currentNode := Function.update s.currentNode i node }

/-- The thread `i` with another run queue. -/
def setQueueNodes (s : Static size φ) (i : Fin size) (nodes : List ℕ) : Static size φ :=
  { s with queueNodes := Function.update s.queueNodes i nodes }

/-- The thread `i` with another inbox. -/
def setBuffer (s : Static size φ) (i : Fin size) (facts : List (ℕ × φ)) : Static size φ :=
  { s with buffer := Function.update s.buffer i facts }

/-- The node with other facts. -/
def setQueue (s : Static size φ) (node : ℕ) (facts : List φ) : Static size φ :=
  { s with queue := Function.update s.queue node facts }

/-- `to->add_work`. -/
def addWork (s : Static size φ) (dest : ℕ) (fact : φ) : Static size φ :=
  s.setQueue dest (s.queue dest ++ [fact])

/-- `set_in_queue`. -/
def setInQueue (s : Static size φ) (node : ℕ) (val : Bool) : Static size φ :=
  { s with inQueue := Function.update s.inQueue node val }

/-- `tstate = state` of the thread `j` after the thread `i` has taken its lock. -/
def setState (s : Static size φ) (i j : Fin size) (state : ThreadState) : Static size φ :=
  { s with
    tstate := Function.update s.tstate j state
    lock := Function.update s.lock j (some i) }

/-- `term_barrier->is_active()`, and the release of the lock of the thread `j`. -/
def barrierIsActive (s : Static size φ) (j : Fin size) : Static size φ :=
  { s with
    activeThreads := s.activeThreads + 1
    lock := Function.update s.lock j none }

/-- `term_barrier->is_inactive()`, and the release of the lock of the thread `j`. -/
def barrierIsInactive (s : Static size φ) (j : Fin size) : Static size φ :=
  { s with
    activeThreads := s.activeThreads - 1
    done := if s.activeThreads - 1 = 0 then true else s.done
    lock := Function.update s.lock j none }

variable (owner : ℕ → Fin size) (level : φ → ℕ)

/-- `new_work` and the branch of `retrieve_tuples` for nodes of the thread. -/
def newWork (s : Static size φ) (i : Fin size) (c : Caller) (dest : ℕ) (fact : φ) :
    Static size φ :=
  (s.addWork dest fact).goTo i (.added c dest)

/-- The push of `new_work_other` and of the branch of `retrieve_tuples` for nodes of others. -/
def newWorkOther (s : Static size φ) (i : Fin size) (c : Caller) (dest : ℕ) (fact : φ) :
    Static size φ :=
  (s.setBuffer (owner dest) (s.buffer (owner dest) ++ [(dest, fact)])).goTo i
    (.wake c (owner dest))

/-- What the rules of the current node do. -/
def doWork (s : Static size φ) (i : Fin size) : Work φ → Static size φ
  | .gather =>
    match s.currentNode i with
    | some node => s.setQueue node (topList level (s.queue node))
    | none => s.goTo i .failed
  | .route dest fact =>
    -- `machine::route`
    if owner dest = i then s.newWork i .work dest fact
    else if s.tstate i = .active then s.newWorkOther owner i .work dest fact
    else s.goTo i .failed
  | .finish => s.goTo i .getWork

/-- The next step of the thread `i`; `work` is what its rules do if they are running. -/
def stepOf (s : Static size φ) (i : Fin size) (work : Work φ) : Static size φ :=
  match s.pc i with
  | .getWork => s.goTo i (if (s.currentNode i).isSome then .checkUseless else .nextNode)
  | .checkUseless =>
    match s.currentNode i with
    | some node =>
      if (s.queue node).isEmpty then
        ((s.setInQueue node false).setCurrent i none).goTo i .nextNode
      else s.goTo i .nextNode
    | none => s.goTo i .failed
  | .nextNode =>
    s.goTo i (if (s.currentNode i).isSome then .activate .node else .retrieve .next)
  | .retrieve c =>
    match s.buffer i with
    | [] => s.goTo i c.done
    | (dest, fact) :: facts => (s.setBuffer i facts).goTo i (.popped c dest fact)
  | .popped c dest fact =>
    if owner dest = i then s.newWork i c dest fact else s.newWorkOther owner i c dest fact
  | .added c dest =>
    if s.inQueue dest then s.goTo i c.resume
    else (s.setQueueNodes i (s.queueNodes i ++ [dest])).goTo i (.queued c dest)
  | .queued c dest => (s.setInQueue dest true).goTo i c.resume
  | .wake c j =>
    if i = j then s.goTo i c.resume
    else if s.lock j ≠ none then s
    else if s.tstate j = .inactive ∧ s.hasWork j then
      (s.setState i j .active).goTo i (.barrierWake c j)
    else s.goTo i c.resume
  | .barrierWake c j =>
    if s.activeThreads < size then (s.barrierIsActive j).goTo i c.resume else s.goTo i .failed
  | .checkWork => s.goTo i (if s.hasWork i then .popNode else .spin)
  | .spin => s.goTo i (if s.hasWork i then .activate .wait else .retrieve .busy)
  | .makeInactive =>
    s.goTo i (if s.tstate i = .active ∧ !s.hasWork i then .makeInactiveLocked else .checkDone)
  | .makeInactiveLocked =>
    if s.lock i ≠ none then s
    else if !s.hasWork i then
      if s.tstate i = .active then (s.setState i i .inactive).goTo i .barrierInactive
      else s.goTo i .checkDone
    else s.goTo i (.activate .wait)
  | .barrierInactive =>
    if 0 < s.activeThreads then (s.barrierIsInactive i).goTo i .checkDone else s.goTo i .failed
  | .checkDone =>
    s.goTo i (if s.done then if s.tstate i = .inactive then .left else .failed else .spin)
  | .activate a =>
    s.goTo i (if s.tstate i = .inactive then .activateLocked a else a.resume)
  | .activateLocked a =>
    if s.lock i ≠ none then s
    else if s.tstate i = .inactive then
      (s.setState i i .active).goTo i (.barrierActive a)
    else s.goTo i a.resume
  | .barrierActive a =>
    if s.activeThreads < size then (s.barrierIsActive i).goTo i a.resume else s.goTo i .failed
  | .waitEnd =>
    s.goTo i (if s.tstate i = .active ∧ s.hasWork i then .popNode else .failed)
  | .popNode =>
    match s.queueNodes i with
    | [] => s.goTo i .nextNode
    | node :: nodes =>
      ((s.setQueueNodes i nodes).setCurrent i (some node)).goTo i .checkUseless
  | .working => s.doWork owner level i work
  | .left => s
  | .failed => s

/-- The start of an iteration: the threads are about to call `get_work`, and those without work may
be inactive. -/
structure Start (s : Static size φ) : Prop where
  pc : ∀ i, s.pc i = .getWork
  currentNode : ∀ i, s.currentNode i = none
  lock : ∀ i, s.lock i = none
  hasWork : ∀ i, s.tstate i = .inactive → s.hasWork i = false
  buffer : ∀ i, ∀ fact ∈ s.buffer i, owner fact.1 = i
  queue : ∀ node, s.queue node ≠ [] → node ∈ s.queueNodes (owner node)
  inQueue : ∀ node, s.inQueue node = true → node ∈ s.queueNodes (owner node)
  activeThreads : s.activeThreads = Fintype.card {i // s.tstate i = .active}
  done : s.done = false

end Static

/-- The static scheduler in one iteration, with every order of the threads' steps. -/
def staticLocal (owner : ℕ → Fin size) (level : φ → ℕ) : System (Static size φ) where
  init s := s.Start owner
  step s s' := ∃ i work, s' = s.stepOf owner level i work

end Meld.Thread
