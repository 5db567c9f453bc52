import Meld.Lib.Transition
import Meld.Queue.BoundedPqueue
import Meld.Queue.ComplexPqueue
import Meld.Queue.IntrusiveQueue

/-!
# The priority scheduler

`threads_prio` keeps the nodes with facts in two queues: those with a positive priority level in
`prio_queue`, the others in `queue_nodes`. The node that runs is in neither of them, but its flag
`in_queue` is set as well. Rules that run set the priority of a node, and the node changes its queue
when it has one.

This is one thread without task stealing: no other thread puts facts into its `buffer` or nodes
into its `stolen_nodes_buffer`, and nothing enters its `priority_buffer`. A thread without work then
leaves `busy_wait` with false.
-/

namespace Meld.Queue

open Lib

/-- `min_value`. -/
def ComplexPqueue.minValue (q : ComplexPqueue) : Exec HeapPriority := do
  return q.priority (← deref q.heap[0]?)

/-- `<` on doubles. -/
def floatLt (x y : UInt64) : Bool :=
  !Vm.isNaN x && !Vm.isNaN y && decide (floatKey x < floatKey y)

end Meld.Queue

namespace Meld.Thread

open Lib Queue Vm

/-- `work`: a node and a fact for it, with the level of the fact. -/
structure NodeWork (T : Type) where
  node : ℕ
  tuple : T
  stratLevel : ℕ
  deriving DecidableEq, Repr

/-- What is used of the program and the database: the type of the priorities, the priority of a
node at first, the number of levels, the nodes of the thread with their `init` facts, and what the
fields of a node for `prio_queue` are before they are set. -/
structure PrioSetup (T : Type) where
  priorityType : HeapType
  initialPriority : HeapPriority
  maxStratLevel : ℕ
  nodes : List ℕ
  initTuple : ℕ → T
  initLevel : ℕ
  heapPriority : ℕ → HeapPriority
  heapPos : ℕ → ℤ

/-- The scheduler, and the fields of the nodes that it uses. -/
structure ThreadsPrio (C : Type) where
  priorityType : HeapType
  prioQueue : ComplexPqueue
  queueNodes : IntrusiveQueue
  currentNode : Option ℕ
  takenFromPriorityQueue : Bool
  /-- `i_am_on_queue` -/
  inQueue : ℕ → Bool
  priorityLevel : ℕ → HeapPriority
  movingAround : ℕ → Bool
  /-- `get_owner() == this` -/
  owned : ℕ → Bool
  /-- the facts of the nodes -/
  queue : ℕ → BoundedPqueue C

namespace ThreadsPrio

variable {C T : Type} [Bin C T]

/-! ### The nodes -/

/-- `has_work` of a node. -/
def nodeHasWork (s : ThreadsPrio C) (node : ℕ) : Bool := !(s.queue node).isEmpty

/-- `add_work`. -/
def addWork (s : ThreadsPrio C) (w : NodeWork T) : Exec (ThreadsPrio C) := do
  let q ← (s.queue w.node).push w.tuple w.stratLevel
  return { s with queue := Function.update s.queue w.node q }

/-- `set_in_queue`. -/
def setInQueue (s : ThreadsPrio C) (node : ℕ) (val : Bool) : Exec (ThreadsPrio C) := do
  assert (s.inQueue node ≠ val)
  return { s with inQueue := Function.update s.inQueue node val }

/-- `set_priority_level`. -/
def setPriorityLevel (s : ThreadsPrio C) (node : ℕ) (level : HeapPriority) : ThreadsPrio C :=
  { s with priorityLevel := Function.update s.priorityLevel node level }

/-- `set_float_priority_level`. -/
def setFloatPriorityLevel (s : ThreadsPrio C) (node : ℕ) (level : UInt64) : ThreadsPrio C :=
  s.setPriorityLevel node ⟨level⟩

/-- `set_int_priority_level`, which sets the low half of the union. -/
def setIntPriorityLevel (s : ThreadsPrio C) (node : ℕ) (level : UInt32) : ThreadsPrio C :=
  s.setPriorityLevel node
    ⟨(s.priorityLevel node).bits / 2 ^ 32 * 2 ^ 32 + level.toUInt64⟩

/-- `has_priority_level`. -/
def hasPriorityLevel (s : ThreadsPrio C) (node : ℕ) : Bool :=
  match s.priorityType with
  | .intAsc | .intDesc => decide (0 < (s.priorityLevel node).intPriority)
  | .floatAsc | .floatDesc => floatLt 0 (s.priorityLevel node).floatPriority

/-! ### The queues -/

/-- `has_work` of the scheduler. -/
def hasWork (s : ThreadsPrio C) : Bool := !s.queueNodes.empty || !s.prioQueue.empty

/-- `add_to_priority_queue`. -/
def addToPriorityQueue (s : ThreadsPrio C) (node : ℕ) : Exec (ThreadsPrio C) := do
  return { s with prioQueue := ← s.prioQueue.insert node (s.priorityLevel node) }

/-- `add_to_queue`. -/
def addToQueue (s : ThreadsPrio C) (node : ℕ) : Exec (ThreadsPrio C) := do
  if s.hasPriorityLevel node then s.addToPriorityQueue node
  else return { s with queueNodes := ← s.queueNodes.pushTailNode node }

/-- A fact for a node, which enters a queue unless it is in one or runs. -/
def pushWork (s : ThreadsPrio C) (w : NodeWork T) : Exec (ThreadsPrio C) := do
  let s ← s.addWork w
  if s.inQueue w.node then return s
  else
    let s ← s.setInQueue w.node true
    s.addToQueue w.node

/-- `new_agg`. -/
def newAgg (s : ThreadsPrio C) (w : NodeWork T) : Exec (ThreadsPrio C) := s.pushWork w

/-- `new_work`. -/
def newWork (s : ThreadsPrio C) (w : NodeWork T) : Exec (ThreadsPrio C) := do
  let s ← s.pushWork w
  assert (s.inQueue w.node = true)
  return s

/-! ### The next node -/

/-- The priority level zero, in the member of the union that the program uses. -/
def clearPriorityLevel (s : ThreadsPrio C) (node : ℕ) : ThreadsPrio C :=
  match s.priorityType with
  | .intAsc | .intDesc => s.setIntPriorityLevel node 0
  | .floatAsc | .floatDesc => s.setFloatPriorityLevel node 0

/-- `check_if_current_useless`. -/
def checkIfCurrentUseless (s : ThreadsPrio C) : Exec (ThreadsPrio C × Bool) := do
  let current ← deref s.currentNode
  assert (s.inQueue current = true)
  if s.prioQueue.empty = false ∧ s.nodeHasWork current = false then
    let s ← s.setInQueue current false
    let s := s.clearPriorityLevel current
    assert (s.inQueue current = false)
    assert (s.prioQueue.inPriorityQueue current = false)
    let (prioQueue, node) ← s.prioQueue.pop
    return ({ s with
      prioQueue := prioQueue, currentNode := node, takenFromPriorityQueue := true }, false)
  else if s.nodeHasWork current = false then
    let s ← s.setInQueue current false
    let s := s.clearPriorityLevel current
    assert (s.inQueue current = false)
    return ({ s with currentNode := none }, true)
  else
    assert (s.nodeHasWork current = true)
    return (s, false)

/-- `pop` of the queue that the next node comes from, with the checks after `loop_check`. -/
def takeNode (s : ThreadsPrio C) : Exec (ThreadsPrio C) := do
  if s.prioQueue.empty = false then
    let (prioQueue, node) ← s.prioQueue.pop
    let s := { s with
      prioQueue := prioQueue, currentNode := node, takenFromPriorityQueue := true }
    assert (s.currentNode ≠ none)
    return (← s.checkIfCurrentUseless).1
  else if s.queueNodes.empty = false then
    let (queueNodes, node) ← s.queueNodes.pop
    if node = none then
      return { s with queueNodes := queueNodes }
    let s := { s with
      queueNodes := queueNodes, currentNode := node, takenFromPriorityQueue := false }
    return (← s.checkIfCurrentUseless).1
  else return s

/-- The body of the loop of `set_next_node`. Nothing arrives in `busy_wait`. -/
def setNextNodeStep (s : ThreadsPrio C) :
    Exec (ThreadsPrio C ⊕ (ThreadsPrio C × Bool)) := do
  if s.currentNode ≠ none then
    return .inr (s, true)
  if s.hasWork = false then
    return .inr (s, false)
  assert (s.hasWork = true)
  return .inl (← s.takeNode)

/-- `set_next_node`; every turn of the loop takes a node from a queue. -/
def setNextNode (s : ThreadsPrio C) : Exec (ThreadsPrio C × Bool) := do
  let s ← if s.currentNode ≠ none then (·.1) <$> s.checkIfCurrentUseless else pure s
  iterate setNextNodeStep (s.prioQueue.heap.length + s.queueNodes.size + 2) s

/-- `gather_next_tuples`, which takes the facts of the least level with `top_list`. -/
def gatherNextTuples (s : ThreadsPrio C) (node : ℕ) (ls : List T) :
    Exec (ThreadsPrio C × List T) := do
  let (q, ls) ← (s.queue node).topList ls
  return ({ s with queue := Function.update s.queue node q }, ls)

/-! ### Priorities -/

/-- `must_change`: the new priority of a node in the priority queue comes before the old one. -/
def mustChange (priorityType : HeapType) (level priority : UInt64) : Exec Bool :=
  match priorityType with
  | .floatDesc => pure (floatLt level priority)
  | .floatAsc => pure (floatLt priority level)
  | _ => throw .assertion

/-- `set_node_priority` of a node in the priority queue. -/
def setQueuedPriority (s : ThreadsPrio C) (n : ℕ) (priority : UInt64) :
    Exec (ThreadsPrio C) := do
  let level := (s.priorityLevel n).floatPriority
  if floatEq level priority then return s
  else if floatEq priority 0 then
    let s := s.setFloatPriorityLevel n 0
    let prioQueue ← s.prioQueue.remove n
    let queueNodes ← s.queueNodes.pushTailNode n
    return { s with prioQueue := prioQueue, queueNodes := queueNodes }
  else
    assert (floatLt 0 priority = true)
    if ← mustChange s.priorityType level priority then
      let s := s.setFloatPriorityLevel n priority
      assert (s.inQueue n = true)
      return { s with prioQueue := ← s.prioQueue.moveNode n ⟨priority⟩ }
    else return s

/-- `set_node_priority` of a node in the normal queue. -/
def setWaitingPriority (s : ThreadsPrio C) (n : ℕ) (priority : UInt64) :
    Exec (ThreadsPrio C) := do
  if floatLt 0 priority then
    let s := s.setFloatPriorityLevel n priority
    let queueNodes ← s.queueNodes.remove n
    let s := { s with queueNodes := queueNodes }
    assert (s.prioQueue.inPriorityQueue n = false)
    s.addToPriorityQueue n
  else return s

/-- `set_node_priority`. -/
def setNodePriority (s : ThreadsPrio C) (n : ℕ) (priority : UInt64) : Exec (ThreadsPrio C) := do
  if s.currentNode = some n then
    return { s.setFloatPriorityLevel n priority with
      takenFromPriorityQueue := !floatEq priority 0 }
  assert (s.owned n = true)
  if s.inQueue n = true ∧ s.movingAround n = false then
    let s ← if s.prioQueue.inPriorityQueue n then s.setQueuedPriority n priority
      else s.setWaitingPriority n priority
    assert (s.inQueue n = true)
    return s
  else return s.setFloatPriorityLevel n priority

/-- The bits of `100.0`. -/
def hundred : UInt64 := 0x4059000000000000

section

-- the addition of doubles
variable (addFloat : UInt64 → UInt64 → UInt64)

/-- `add_node_priority`. -/
def addNodePriority (s : ThreadsPrio C) (n : ℕ) (priority : UInt64) : Exec (ThreadsPrio C) :=
  s.setNodePriority n (addFloat (s.priorityLevel n).floatPriority priority)

/-- `schedule_next`. -/
def scheduleNext (s : ThreadsPrio C) (n : ℕ) : Exec (ThreadsPrio C) := do
  let prio ← if s.prioQueue.empty then pure hundred
    else (fun pr => addFloat pr.floatPriority hundred) <$> s.prioQueue.minValue
  s.setNodePriority n prio

end

/-! ### Initialisation -/

/-- The scheduler before `init`; every node has an empty queue of facts. -/
def new (p : PrioSetup T) (queue : BoundedPqueue C) : ThreadsPrio C where
  priorityType := p.priorityType
  prioQueue := ⟨p.priorityType, [], p.heapPriority, fun _ => false, p.heapPos⟩
  queueNodes := IntrusiveQueue.new
  currentNode := none
  takenFromPriorityQueue := false
  inQueue _ := false
  priorityLevel _ := ⟨0⟩
  movingAround _ := false
  owned _ := false
  queue _ := queue

/-- One turn of the loop of `init`, with `init_node`. -/
def initNode (p : PrioSetup T) (s : ThreadsPrio C) (node : ℕ) : Exec (ThreadsPrio C) := do
  let s := s.setPriorityLevel node p.initialPriority
  let s ← s.newWork ⟨node, p.initTuple node, p.initLevel⟩
  let s := { s with owned := Function.update s.owned node true }
  assert (s.owned node = true)
  assert (s.inQueue node = true)
  assert (s.nodeHasWork node = true)
  return s

/-- `init`. -/
def init (p : PrioSetup T) : Exec (ThreadsPrio C) := do
  let queue ← BoundedPqueue.new p.maxStratLevel
  p.nodes.foldlM (initNode p) (new p queue)

/-! ### Runs -/

/-- The operations of the thread. -/
inductive Op (T : Type)
  | newWork (w : NodeWork T)
  | newAgg (w : NodeWork T)
  | setNodePriority (n : ℕ) (priority : UInt64)
  | addNodePriority (n : ℕ) (priority : UInt64)
  | scheduleNext (n : ℕ)
  | setNextNode
  /-- the current node takes its facts -/
  | gatherNextTuples
  deriving DecidableEq, Repr

/-- An operation. -/
def Op.run (addFloat : UInt64 → UInt64 → UInt64) (s : ThreadsPrio C) :
    Op T → Exec (ThreadsPrio C)
  | .newWork w => s.newWork w
  | .newAgg w => s.newAgg w
  | .setNodePriority n priority => s.setNodePriority n priority
  | .addNodePriority n priority => s.addNodePriority addFloat n priority
  | .scheduleNext n => s.scheduleNext addFloat n
  | .setNextNode => (·.1) <$> s.setNextNode
  | .gatherNextTuples => do
    let current ← deref s.currentNode
    (·.1) <$> s.gatherNextTuples current []

/-- What the callers promise: the node is owned by the thread, the level of a fact is one of the
program's, the new priority is not below zero (and no NaN), and a node that takes its facts is
there. -/
def Op.Legal (p : PrioSetup T) (addFloat : UInt64 → UInt64 → UInt64) (s : ThreadsPrio C) :
    Op T → Prop
  | .newWork w | .newAgg w => s.owned w.node = true ∧ w.stratLevel < p.maxStratLevel
  | .setNodePriority n priority => s.owned n = true ∧ floatLe 0 priority = true
  | .addNodePriority n priority =>
    s.owned n = true ∧ floatLe 0 (addFloat (s.priorityLevel n).floatPriority priority) = true
  | .scheduleNext n => s.owned n = true
  | .setNextNode => True
  | .gatherNextTuples => s.currentNode ≠ none

/-- The runs after initialisation. -/
def system (p : PrioSetup T) (addFloat : UInt64 → UInt64 → UInt64) : System (ThreadsPrio C) where
  init s := init p = .ok s
  step s s' := ∃ op : Op T, op.Legal p addFloat s ∧ op.run addFloat s = .ok s'

end ThreadsPrio

end Meld.Thread
