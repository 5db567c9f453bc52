import Meld.Queue.IntrusiveQueue
import Meld.Queue.LowestFirst

/-!
# The serial scheduler

One thread runs all nodes. A fact for a node goes into the queue of the node, by the level of its
predicate, and the node goes to the end of the scheduler's queue of nodes unless it is there or is
the current node. `get_work` hands out the current node again while it has facts, and then the next
node of the queue; the run of a node takes the facts of its lowest level, and what its rules do then
is a list of facts for other nodes and of new nodes. Once there is no work the aggregates of the
nodes that the program started with are generated, and if they give no facts the program ends.

What the rules and the aggregates do may depend on everything that happened, which is the world of
the program. Nodes are numbered in the order in which the database creates them. The log of the
facts that were sent and of those that were handed to a run is not in the source.

`Waiting` says what the scheduler is for: the facts that wait at each node in the order in which
they came, and the line of the nodes that wait for their turn.
-/

namespace Meld.Sched

open Lib Queue

variable {ω φ C : Type}

/-! ### What the program does -/

/-- What the rules of a node do: they send a fact to a node or create a node. -/
inductive Effect (φ : Type)
  | newWork (dest : ℕ) (stpl : φ)
  | newNode

/-- A fact is sent to a node, or a node is run on the facts of its lowest level. -/
inductive Event (φ : Type)
  | sent (dest : ℕ) (stpl : φ)
  | ran (node : ℕ) (facts : List φ)

/-- The facts that are sent to the node. -/
def Event.sentTo (node : ℕ) : Event φ → List φ
  | sent dest stpl => if dest = node then [stpl] else []
  | ran _ _ => []

/-- The facts that the node is run on. -/
def Event.ranOn (node : ℕ) : Event φ → List φ
  | sent _ _ => []
  | ran dest facts => if dest = node then facts else []

/-- The program: the levels of its facts, the fact that starts a node, the rules, and the aggregates
of a node at the end of an iteration. -/
structure Rules (ω φ : Type) where
  stratLevel : φ → ℕ
  maxStratLevel : ℕ
  initFact : φ
  runNode : ℕ → List φ → ω → List (Effect φ) × ω
  endIteration : ℕ → ω → List φ × ω

/-- `MAX_STRAT_LEVEL` is above the levels of the program's predicates. -/
structure Rules.Leveled (p : Rules ω φ) : Prop where
  initFact : p.stratLevel p.initFact < p.maxStratLevel
  runNode : ∀ node facts w dest stpl, .newWork dest stpl ∈ (p.runNode node facts w).1 →
    p.stratLevel stpl < p.maxStratLevel
  endIteration : ∀ node w, ∀ stpl ∈ (p.endIteration node w).1, p.stratLevel stpl < p.maxStratLevel

/-! ### The scheduler -/

/-- `serial_node`. -/
structure SerialNode (C : Type) where
  queue : BoundedPqueue C
  iAmOnQueue : Bool

/-- `serial_local`, with the nodes of the database. -/
structure SerialLocal (C φ : Type) where
  nodes : ℕ → Option (SerialNode C)
  numNodes : ℕ
  currentNode : Option ℕ
  queueNodes : IntrusiveQueue
  log : List (Event φ)

namespace SerialNode

variable [Bin C φ]

/-- `has_work`. -/
def hasWork (n : SerialNode C) : Bool := !n.queue.isEmpty

/-- `set_in_queue`. -/
def setInQueue (n : SerialNode C) (val : Bool) : Exec (SerialNode C) := do
  assert (n.iAmOnQueue ≠ val)
  return { n with iAmOnQueue := val }

/-- `add_work`. -/
def addWork (p : Rules ω φ) (n : SerialNode C) (stpl : φ) : Exec (SerialNode C) := do
  let queue ← n.queue.push stpl (p.stratLevel stpl)
  return { n with queue := queue }

end SerialNode

namespace SerialLocal

/-- No nodes. -/
def new : SerialLocal C φ := ⟨fun _ => none, 0, none, .new, []⟩

/-- `find_node`. -/
def findNode (s : SerialLocal C φ) (id : ℕ) : Exec (SerialNode C) := deref (s.nodes id)

def setNode (s : SerialLocal C φ) (id : ℕ) (n : SerialNode C) : SerialLocal C φ :=
  { s with nodes := Function.update s.nodes id (some n) }

def record (s : SerialLocal C φ) (e : Event φ) : SerialLocal C φ := { s with log := s.log ++ [e] }

/-- `has_work`. -/
def hasWork (s : SerialLocal C φ) : Bool := !s.queueNodes.empty

variable [Bin C φ]

/-- `set_in_queue` and the push of a node that was not in the queue. -/
def enqueue (s : SerialLocal C φ) (id : ℕ) (n : SerialNode C) : Exec (SerialLocal C φ) := do
  let n ← n.setInQueue true
  let queueNodes ← s.queueNodes.push id
  return { s.setNode id n with queueNodes := queueNodes }

variable (p : Rules ω φ)

/-- `new_work`, which `new_agg` calls too. -/
def newWork (s : SerialLocal C φ) (dest : ℕ) (stpl : φ) : Exec (SerialLocal C φ) := do
  let n ← s.findNode dest
  let n ← n.addWork p stpl
  let s := s.record (.sent dest stpl)
  if n.iAmOnQueue then return s.setNode dest n else s.enqueue dest n

/-- The assertions at the end of `get_work`. -/
def handOut (s : SerialLocal C φ) : Exec (SerialLocal C φ × Option ℕ) := do
  assert (s.currentNode.isSome)
  let current ← deref s.currentNode
  let n ← s.findNode current
  assert (n.hasWork)
  assert (n.iAmOnQueue)
  return (s, some current)

/-- The part of `get_work` without a current node. -/
def nextNode (s : SerialLocal C φ) : Exec (SerialLocal C φ × Option ℕ) :=
  if !s.hasWork then pure (s, none)
  else do
    let popped ← s.queueNodes.pop
    let s := { s with queueNodes := popped.1, currentNode := popped.2 }
    if popped.2.isNone then return (s, none) else s.handOut

/-- `get_work` with a current node. -/
def keepCurrent (s : SerialLocal C φ) (current : ℕ) : Exec (SerialLocal C φ × Option ℕ) := do
  let n ← s.findNode current
  if n.hasWork then s.handOut
  else do
    let n ← n.setInQueue false
    { s.setNode current n with currentNode := none }.nextNode

/-- `get_work`. -/
def getWork (s : SerialLocal C φ) : Exec (SerialLocal C φ × Option ℕ) :=
  s.currentNode.elim s.nextNode s.keepCurrent

/-- `create_node`. -/
def createNode (s : SerialLocal C φ) : Exec (SerialLocal C φ) := do
  let queue ← BoundedPqueue.new p.maxStratLevel
  return { s.setNode s.numNodes ⟨queue, false⟩ with numNodes := s.numNodes + 1 }

/-- `init_node`. -/
def initNode (s : SerialLocal C φ) (id : ℕ) : Exec (SerialLocal C φ) := s.newWork p id p.initFact

/-- One step of the rules of a node. -/
def runEffect (s : SerialLocal C φ) : Effect φ → Exec (SerialLocal C φ)
  | .newWork dest stpl => s.newWork p dest stpl
  | .newNode => do
    let created ← s.createNode p
    created.initNode p s.numNodes

/-- `gather_next_tuples`. -/
def gatherNextTuples (s : SerialLocal C φ) (id : ℕ) : Exec (SerialLocal C φ × List φ) := do
  let n ← s.findNode id
  let taken ← n.queue.topList []
  return ((s.setNode id { n with queue := taken.1 }).record (.ran id taken.2), taken.2)

/-- The facts that an iteration over the queue of a node visits. -/
def factsAt (s : SerialLocal C φ) (id : ℕ) : Exec (List φ) := do
  let n ← s.findNode id
  n.queue.elements

/-- `do_work`. -/
def doWork (s : SerialLocal C φ) (id : ℕ) (w : ω) : Exec (SerialLocal C φ × ω) := do
  let gathered ← s.gatherNextTuples id
  let effects := p.runNode id gathered.2 w
  let s ← effects.1.foldlM (runEffect p) gathered.1
  return (s, effects.2)

/-- `node_iteration`. -/
def nodeIteration (r : SerialLocal C φ × ω) (id : ℕ) : Exec (SerialLocal C φ × ω) := do
  let aggs := p.endIteration id r.2
  let s ← aggs.1.foldlM (fun s stpl => s.newWork p id stpl) r.1
  return (s, aggs.2)

/-- `generate_aggs`, over the nodes that the program started with. -/
def generateAggs (nodesTotal : ℕ) (s : SerialLocal C φ) (w : ω) : Exec (SerialLocal C φ × ω) :=
  (List.range nodesTotal).foldlM (nodeIteration p) (s, w)

/-- `assert_end_iteration`, and `assert_end` but for what it asks of the aggregates. -/
def assertEnd (nodesTotal : ℕ) (s : SerialLocal C φ) : Exec Unit := do
  assert (s.hasWork = false)
  (List.range nodesTotal).forM fun id => do
    let n ← s.findNode id
    assert (n.iAmOnQueue = false)
    assert (n.hasWork = false)

/-- `do_loop` and the `assert_end` after it, for a number of calls of `get_work`: whether the
program has ended. -/
def doLoop (nodesTotal : ℕ) : ℕ → SerialLocal C φ → ω → Exec (Bool × SerialLocal C φ × ω)
  | 0, s, w => pure (false, s, w)
  | n + 1, s, w => do
    let work ← s.getWork
    work.2.elim
      (do
        work.1.assertEnd nodesTotal
        let ended ← work.1.generateAggs p nodesTotal w
        -- `terminate_iteration` returns whether there is work
        if ended.1.hasWork then doLoop nodesTotal n ended.1 ended.2
        else do
          ended.1.assertEnd nodesTotal
          return (true, ended.1, ended.2))
      fun node => do
        let ran ← work.1.doWork p node w
        doLoop nodesTotal n ran.1 ran.2

/-- The body of the loop of `init`. -/
def initStatic (s : SerialLocal C φ) (id : ℕ) : Exec (SerialLocal C φ) := do
  let s ← s.initNode p id
  let n ← s.findNode id
  assert (n.iAmOnQueue)
  assert (n.hasWork)
  return s

/-- `loop`, after the database has created the nodes that the program starts with. -/
def loop (nodesTotal n : ℕ) (w : ω) : Exec (Bool × SerialLocal C φ × ω) := do
  let s ← (List.range nodesTotal).foldlM (fun s _ => s.createNode p) (new : SerialLocal C φ)
  let s ← (List.range nodesTotal).foldlM (initStatic p) s
  s.doLoop p nodesTotal n w

end SerialLocal

/-! ### What the scheduler is for -/

/-- The facts that wait at each node, with their levels, the node that runs, and the line of the
nodes that wait. -/
structure Waiting (φ : Type) where
  facts : ℕ → List (ℕ × φ)
  numNodes : ℕ
  current : Option ℕ
  line : List ℕ
  log : List (Event φ)

namespace Waiting

/-- Nodes without facts. -/
def start (numNodes : ℕ) : Waiting φ := ⟨fun _ => [], numNodes, none, [], []⟩

variable (p : Rules ω φ)

/-- A fact for a node: if the node neither runs nor waits, it joins the line. -/
def send (a : Waiting φ) (dest : ℕ) (stpl : φ) : Waiting φ :=
  { a with
    facts := Function.update a.facts dest (a.facts dest ++ [(p.stratLevel stpl, stpl)])
    line := if a.current = some dest ∨ dest ∈ a.line then a.line else a.line ++ [dest]
    log := a.log ++ [.sent dest stpl] }

/-- The node that runs stays if it has facts; else the first of the line is next. -/
def next (a : Waiting φ) : Waiting φ :=
  if a.current.any (fun node => !(a.facts node).isEmpty) then a
  else { a with current := a.line.head?, line := a.line.tail }

/-- The facts of the lowest level of a node. -/
def lowest (a : Waiting φ) (node : ℕ) : List φ :=
  ((LowestFirst.Op.topList : LowestFirst.Op φ).serve (a.facts node)).1

/-- The node is run on them. -/
def take (a : Waiting φ) (node : ℕ) : Waiting φ :=
  { a with
    facts := Function.update a.facts node
      ((LowestFirst.Op.topList : LowestFirst.Op φ).serve (a.facts node)).2
    log := a.log ++ [.ran node (a.lowest node)] }

/-- One step of the rules of a node. -/
def apply (a : Waiting φ) : Effect φ → Waiting φ
  | .newWork dest stpl => a.send p dest stpl
  | .newNode => { a with numNodes := a.numNodes + 1 }.send p a.numNodes p.initFact

/-- The run of a node. -/
def run (a : Waiting φ) (node : ℕ) (w : ω) : Waiting φ × ω :=
  let effects := p.runNode node (a.lowest node) w
  (effects.1.foldl (apply p) (a.take node), effects.2)

/-- The aggregates of a node. -/
def aggregate (r : Waiting φ × ω) (node : ℕ) : Waiting φ × ω :=
  let aggs := p.endIteration node r.2
  (aggs.1.foldl (fun a stpl => a.send p node stpl) r.1, aggs.2)

/-- The aggregates of all nodes that the program started with. -/
def endRound (nodesTotal : ℕ) (a : Waiting φ) (w : ω) : Waiting φ × ω :=
  (List.range nodesTotal).foldl (aggregate p) (a, w)

/-- A number of turns, and whether the program has ended. -/
def serve (nodesTotal : ℕ) : ℕ → Waiting φ → ω → Bool × Waiting φ × ω
  | 0, a, w => (false, a, w)
  | n + 1, a, w =>
    a.next.current.elim
      (let ended := a.next.endRound p nodesTotal w
        if ended.1.line = [] then (true, ended.1, ended.2)
        else serve nodesTotal n ended.1 ended.2)
      fun node => serve nodesTotal n (a.next.run p node w).1 (a.next.run p node w).2

/-- The rules send facts to nodes that exist. -/
def LegalRun : Waiting φ → List (Effect φ) → Prop
  | _, [] => True
  | a, .newWork dest stpl :: effects => dest < a.numNodes ∧ LegalRun (a.send p dest stpl) effects
  | a, .newNode :: effects => LegalRun (a.apply p .newNode) effects

/-- They do so in a number of turns. -/
def LegalTurns (nodesTotal : ℕ) : ℕ → Waiting φ → ω → Prop
  | 0, _, _ => True
  | n + 1, a, w =>
    a.next.current.elim
      (LegalTurns nodesTotal n (a.next.endRound p nodesTotal w).1
        (a.next.endRound p nodesTotal w).2)
      fun node =>
        LegalRun p (a.next.take node) (p.runNode node (a.next.lowest node) w).1 ∧
          LegalTurns nodesTotal n (a.next.run p node w).1 (a.next.run p node w).2

/-- The nodes that the program starts with have got the fact that starts them. -/
def init (nodesTotal : ℕ) : Waiting φ :=
  (List.range nodesTotal).foldl (fun a node => a.send p node p.initFact) (start nodesTotal)

end Waiting

end Meld.Sched
