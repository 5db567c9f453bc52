import Meld.Lib.Exec
import Meld.Lib.Transition

/-!
# Simulated sensing

The simulator announces blocks, and the neighbours that a block gains and loses at its faces. The
scheduler turns each message into facts for the block's node: `vacant` and `neighbor` for a face,
`neighborCount` for the node, counted `+1` when they begin to hold and `-1` when they cease to.
Until a node is instantiated its facts are held back.

`sensed_of_reachable` says when the net of the facts that a node was given is its topology. It is,
until a neighbour is removed: the removal does not give the face's `vacant` back, and it retracts
the `neighbor` also from a node that was never given it.

The queues keep all that was put in them: what the node takes out for a run is not modelled.
-/

namespace Meld.Sched.Sim

open Lib

/-! ### Nodes -/

/-- `face_t`, without `INVALID_FACE`. -/
inductive Face
  | bottom | north | east | west | south | top
  deriving DecidableEq, Repr

/-- The faces from `INITIAL_FACE` to `FINAL_FACE`. -/
def Face.all : List Face := [bottom, north, east, west, south, top]

/-- There are no other faces. -/
theorem Face.mem_all (face : Face) : face ∈ Face.all := by cases face <;> decide

instance : Fintype Face := ⟨⟨Face.all, by decide⟩, Face.mem_all⟩

/-- The conversion to `face_t` and the `assert(false)` of `get_node_at_face`. -/
def Face.ofMessage (v : ℕ) : Exec Face :=
  match v % 2 ^ 32 with
  | 0 => .ok bottom
  | 1 => .ok north
  | 2 => .ok east
  | 3 => .ok west
  | 4 => .ok south
  | 5 => .ok top
  | _ => .error .assertion

/-- The sensed facts. -/
inductive Fact
  | neighbor (out : ℕ) (face : Face)
  | neighborCount (total : ℤ)
  | vacant (face : Face)
  deriving DecidableEq, Repr

/-- What the `simple_tuple` of a sensed fact carries: the fact, and how often it is added or taken
away. -/
structure SensedTuple where
  fact : Fact
  count : ℤ
  deriving DecidableEq, Repr

/-- `NO_NEIGHBOR`. -/
def noNeighbor : ℕ := 2 ^ 32 - 1

/-- `sim_node`. -/
structure SimNode where
  top : ℕ
  bottom : ℕ
  east : ℕ
  west : ℕ
  north : ℕ
  south : ℕ
  instantiated : Bool
  neighborCount : ℕ
  /-- the facts that arrived, with their priorities -/
  tuplePqueue : List (ℤ × SensedTuple)
  /-- the retractions that arrived, with their priorities -/
  rtuplePqueue : List (ℤ × SensedTuple)
  pending : List SensedTuple

namespace SimNode

/-- The constructor. -/
def new : SimNode where
  top := noNeighbor
  bottom := noNeighbor
  east := noNeighbor
  west := noNeighbor
  north := noNeighbor
  south := noNeighbor
  instantiated := false
  neighborCount := 0
  tuplePqueue := []
  rtuplePqueue := []
  pending := []

variable (no : SimNode)

/-- `get_node_at_face`, read. -/
def getNodeAtFace : Face → ℕ
  | .bottom => no.bottom
  | .north => no.north
  | .east => no.east
  | .west => no.west
  | .south => no.south
  | .top => no.top

/-- `get_node_at_face`, written. -/
def setNodeAtFace (v : ℕ) : Face → SimNode
  | .bottom => { no with bottom := v }
  | .north => { no with north := v }
  | .east => { no with east := v }
  | .west => { no with west := v }
  | .south => { no with south := v }
  | .top => { no with top := v }

/-- `set_instantiated`. -/
def setInstantiated (flag : Bool) : SimNode := { no with instantiated := flag }

/-- `inc_neighbor_count`. -/
def incNeighborCount : SimNode := { no with neighborCount := (no.neighborCount + 1) % 2 ^ 64 }

/-- `dec_neighbor_count`. -/
def decNeighborCount : SimNode := { no with neighborCount := decSize no.neighborCount }

/-- All that was delivered. -/
def delivered : List SensedTuple :=
  no.tuplePqueue.map (·.2) ++ no.rtuplePqueue.map (·.2) ++ no.pending

/-- The faces with a neighbour. -/
def occupied : Finset Face := {face | no.getNodeAtFace face ≠ noNeighbor}

end SimNode

/-! ### The scheduler -/

/-- The static members of `sim_sched` and the nodes of the database. -/
structure SimSched where
  /-- whether the program has the predicate `neighbor` -/
  neighborPred : Bool
  /-- whether the program has the predicate `neighborCount` -/
  neighborCountPred : Bool
  /-- whether the program has the predicate `vacant` -/
  vacantPred : Bool
  threadMode : Bool
  allInstantiated : Bool
  nodes : ℕ → Option SimNode
  maxNodeId : ℕ
  maxTranslatedId : ℕ

/-- What the simulator sends, as far as it is about the topology, and the end of
`TIME_TO_INSTANTIATE`. -/
inductive Event
  | useThreads
  | createNNodes (ts n startId : ℕ)
  | addNeighbor (ts inId outId face : ℕ)
  | removeNeighbor (ts inId face : ℕ)
  | timeToInstantiate

namespace SimSched

/-- The scheduler of a program after `init`: there are no nodes. -/
def init (neighborPred neighborCountPred vacantPred : Bool) : SimSched where
  neighborPred := neighborPred
  neighborCountPred := neighborCountPred
  vacantPred := vacantPred
  threadMode := false
  allInstantiated := false
  nodes := fun _ => none
  maxNodeId := 0
  maxTranslatedId := 0

variable (s : SimSched)

def addReceivedTuple (no : SimNode) (ts : ℕ) (stpl : SensedTuple) : SimNode :=
  if s.threadMode then { no with pending := no.pending ++ [stpl] }
  else if 0 < stpl.count then { no with tuplePqueue := no.tuplePqueue ++ [(wrap32 ts, stpl)] }
  else { no with rtuplePqueue := no.rtuplePqueue ++ [(wrap32 ts, stpl)] }

def addNeighbor (ts : ℕ) (no : SimNode) (out : ℕ) (face : Face) (count : ℤ) : SimNode :=
  if s.neighborPred then s.addReceivedTuple no ts ⟨.neighbor out face, count⟩ else no

def addNeighborCount (ts : ℕ) (no : SimNode) (total : ℕ) (count : ℤ) : SimNode :=
  if s.neighborCountPred then s.addReceivedTuple no ts ⟨.neighborCount (wrap32 total), count⟩
  else no

def addVacant (ts : ℕ) (no : SimNode) (face : Face) (count : ℤ) : SimNode :=
  if s.vacantPred then s.addReceivedTuple no ts ⟨.vacant face, count⟩ else no

def setNode (id : ℕ) (no : SimNode) : SimSched :=
  { s with nodes := Function.update s.nodes id (some no) }

/-- `find_node`, which aborts when there is no such node. -/
def findNode (id : ℕ) : Exec SimNode :=
  match s.nodes id with
  | some no => .ok no
  | none => .error .assertion

def createNodeId (id : ℕ) : Exec SimSched := do
  if 0 < s.maxNodeId then
    assert (s.maxNodeId < id)
    assert (s.maxTranslatedId < id)
  return { s.setNode id .new with maxNodeId := id, maxTranslatedId := id }

/-- What a node that is instantiated when it is created is given. -/
def instantiateNew (ts : ℕ) : SimNode :=
  let no := SimNode.new.setInstantiated true
  let no := Face.all.foldl (fun no face => s.addVacant ts no face 1) no
  s.addNeighborCount ts no 0 1

/-- One round of `handle_create_n_nodes`. -/
def handleCreateNode (ts id : ℕ) : Exec SimSched := do
  let s ← s.createNodeId id
  return if !s.threadMode || s.allInstantiated then s.setNode id (s.instantiateNew ts) else s

def handleCreateNNodes (ts n startId : ℕ) : Exec SimSched :=
  (List.range n).foldlM (fun s i => s.handleCreateNode ts ((startId + i) % 2 ^ 32)) s

/-- One round of `instantiate_all_nodes`. -/
def instantiateNode (no : SimNode) : SimNode :=
  let no := no.setInstantiated true
  let no := s.addNeighborCount 0 no no.neighborCount 1
  Face.all.foldl (fun no face =>
    if no.getNodeAtFace face = noNeighbor then s.addVacant 0 no face 1
    else s.addNeighbor 0 no (no.getNodeAtFace face) face 1) no

def instantiateAllNodes : Exec SimSched := do
  assert (s.allInstantiated = false)
  assert (s.threadMode = true)
  return { s with nodes := fun id => (s.nodes id).map s.instantiateNode }

/-- What `handle_add_neighbor` does to the node. -/
def gainNeighbor (ts : ℕ) (no : SimNode) (out : ℕ) (face : Face) : SimNode :=
  if no.getNodeAtFace face = noNeighbor then
    -- remove vacant first, add 1 to neighbor count
    let no := if no.instantiated then
      let no := s.addVacant ts no face (-1)
      s.addNeighborCount ts no no.neighborCount (-1) else no
    let no := no.incNeighborCount
    let no := if no.instantiated then s.addNeighborCount ts no no.neighborCount 1 else no
    let no := no.setNodeAtFace out face
    if no.instantiated then s.addNeighbor ts no out face 1 else no
  else if no.getNodeAtFace face ≠ out then
    -- remove old node
    let no := if no.instantiated then s.addNeighbor ts no (no.getNodeAtFace face) face (-1) else no
    let no := no.setNodeAtFace out face
    if no.instantiated then s.addNeighbor ts no out face 1 else no
  else no

def handleAddNeighbor (ts inId outId : ℕ) (face : Face) : Exec SimSched := do
  let no ← s.findNode inId
  return s.setNode inId (s.gainNeighbor ts no outId face)

/-- What `handle_remove_neighbor` does to the node. -/
def loseNeighbor (ts : ℕ) (no : SimNode) (face : Face) : Exec SimNode := do
  assert (no.getNodeAtFace face ≠ noNeighbor)
  let no := if no.instantiated then s.addNeighborCount ts no no.neighborCount (-1) else no
  let no := no.decNeighborCount
  let no := if no.instantiated then s.addNeighborCount ts no no.neighborCount 1 else no
  let no := s.addNeighbor ts no (no.getNodeAtFace face) face (-1)
  return no.setNodeAtFace noNeighbor face

def handleRemoveNeighbor (ts inId : ℕ) (face : Face) : Exec SimSched := do
  let no ← s.findNode inId
  return s.setNode inId (← s.loseNeighbor ts no face)

/-- The loop of `master_get_work`. The words of a message are converted to node identifiers and
faces. -/
def step : Event → Exec SimSched
  | .useThreads => .ok { s with threadMode := true }
  | .createNNodes ts n startId => s.handleCreateNNodes ts n (startId % 2 ^ 32)
  | .addNeighbor ts inId outId face => do
    s.handleAddNeighbor ts (inId % 2 ^ 32) (outId % 2 ^ 32) (← Face.ofMessage face)
  | .removeNeighbor ts inId face => do
    s.handleRemoveNeighbor ts (inId % 2 ^ 32) (← Face.ofMessage face)
  | .timeToInstantiate =>
    if s.threadMode && !s.allInstantiated then do
      return { (← s.instantiateAllNodes) with allInstantiated := true }
    else .ok s

end SimSched

/-! ### What a node was given -/

namespace SimNode

/-- The net count of a fact. -/
def net (no : SimNode) (fact : Fact) : ℤ :=
  (no.delivered.map fun stpl => if fact = stpl.fact then stpl.count else 0).sum

/-- The topology as facts: a `vacant` for each face without a neighbour, a `neighbor` for each face
with one, and the number of these. -/
def topology (no : SimNode) : Fact → ℤ
  | .neighbor out face => if no.getNodeAtFace face = out ∧ out ≠ noNeighbor then 1 else 0
  | .neighborCount total => if total = no.occupied.card then 1 else 0
  | .vacant face => if no.getNodeAtFace face = noNeighbor then 1 else 0

variable (no : SimNode)

/-- A face has the node that was set at it last. -/
@[simp] theorem getNodeAtFace_setNodeAtFace (v : ℕ) (face face' : Face) :
    (no.setNodeAtFace v face).getNodeAtFace face' =
      if face' = face then v else no.getNodeAtFace face' := by
  cases face <;> cases face' <;> rfl

@[simp] theorem instantiated_setNodeAtFace (v : ℕ) (face : Face) :
    (no.setNodeAtFace v face).instantiated = no.instantiated := by
  cases face <;> rfl

@[simp] theorem neighborCount_setNodeAtFace (v : ℕ) (face : Face) :
    (no.setNodeAtFace v face).neighborCount = no.neighborCount := by
  cases face <;> rfl

@[simp] theorem net_setNodeAtFace (v : ℕ) (face : Face) (fact : Fact) :
    (no.setNodeAtFace v face).net fact = no.net fact := by
  cases face <;> rfl

@[simp] theorem getNodeAtFace_setInstantiated (flag : Bool) (face : Face) :
    (no.setInstantiated flag).getNodeAtFace face = no.getNodeAtFace face := by
  cases face <;> rfl

@[simp] theorem instantiated_setInstantiated (flag : Bool) :
    (no.setInstantiated flag).instantiated = flag := rfl

@[simp] theorem neighborCount_setInstantiated (flag : Bool) :
    (no.setInstantiated flag).neighborCount = no.neighborCount := rfl

@[simp] theorem net_setInstantiated (flag : Bool) (fact : Fact) :
    (no.setInstantiated flag).net fact = no.net fact := rfl

@[simp] theorem getNodeAtFace_incNeighborCount (face : Face) :
    no.incNeighborCount.getNodeAtFace face = no.getNodeAtFace face := by
  cases face <;> rfl

@[simp] theorem instantiated_incNeighborCount :
    no.incNeighborCount.instantiated = no.instantiated := rfl

@[simp] theorem neighborCount_incNeighborCount :
    no.incNeighborCount.neighborCount = (no.neighborCount + 1) % 2 ^ 64 := rfl

@[simp] theorem net_incNeighborCount (fact : Fact) :
    no.incNeighborCount.net fact = no.net fact := rfl

@[simp] theorem getNodeAtFace_decNeighborCount (face : Face) :
    no.decNeighborCount.getNodeAtFace face = no.getNodeAtFace face := by
  cases face <;> rfl

@[simp] theorem instantiated_decNeighborCount :
    no.decNeighborCount.instantiated = no.instantiated := rfl

@[simp] theorem neighborCount_decNeighborCount :
    no.decNeighborCount.neighborCount = decSize no.neighborCount := rfl

@[simp] theorem net_decNeighborCount (fact : Fact) :
    no.decNeighborCount.net fact = no.net fact := rfl

@[simp] theorem mem_occupied {face : Face} :
    face ∈ no.occupied ↔ no.getNodeAtFace face ≠ noNeighbor := by
  simp [occupied]

/-- So do the faces that have a neighbor. -/
theorem occupied_congr {no no' : SimNode} (h : no.getNodeAtFace = no'.getNodeAtFace) :
    no.occupied = no'.occupied := by
  simp only [occupied, h]

/-- The facts about the neighbors depend on the faces only. -/
theorem topology_congr {no no' : SimNode} (h : no.getNodeAtFace = no'.getNodeAtFace) :
    no.topology = no'.topology := by
  funext fact
  cases fact <;> simp only [topology, h, occupied_congr h]

/-- A block has six faces. -/
theorem card_occupied_le : no.occupied.card ≤ 6 := no.occupied.card_le_univ

section OneFace

variable {no} {no' : SimNode} {v : ℕ} {face : Face}
  (h : ∀ face', no'.getNodeAtFace face' = if face' = face then v else no.getNodeAtFace face')
include h

/-- A neighbour at a vacant face. -/
theorem card_occupied_gain (hface : no.getNodeAtFace face = noNeighbor) (hv : v ≠ noNeighbor) :
    no'.occupied.card = no.occupied.card + 1 := by
  have hocc : no'.occupied = insert face no.occupied := by
    ext face'
    by_cases hf : face' = face <;> simp [h, hf, hv]
  rw [hocc, Finset.card_insert_of_notMem (by simp [hface])]

/-- Another neighbour. -/
theorem card_occupied_replace (hface : no.getNodeAtFace face ≠ noNeighbor) (hv : v ≠ noNeighbor) :
    no'.occupied.card = no.occupied.card := by
  have hocc : no'.occupied = no.occupied := by
    ext face'
    by_cases hf : face' = face <;> simp [h, hf, hv, hface]
  rw [hocc]

/-- No neighbour at a vacant face. -/
theorem card_occupied_vacant (hface : no.getNodeAtFace face = noNeighbor) (hv : v = noNeighbor) :
    no'.occupied.card = no.occupied.card := by
  have hocc : no'.occupied = no.occupied := by
    ext face'
    by_cases hf : face' = face <;> simp [h, hf, hv, hface]
  rw [hocc]

/-- No neighbour any more. -/
theorem card_occupied_lose (hface : no.getNodeAtFace face ≠ noNeighbor) (hv : v = noNeighbor) :
    no'.occupied.card + 1 = no.occupied.card := by
  have hocc : no'.occupied = no.occupied.erase face := by
    ext face'
    by_cases hf : face' = face <;> simp [h, hf, hv]
  rw [hocc, Finset.card_erase_add_one (by simp [hface])]

/-- A vacant face gets a neighbor: the old count and the vacant fact go, the new count and the
neighbor come. -/
theorem topology_gain (hface : no.getNodeAtFace face = noNeighbor) (hv : v ≠ noNeighbor)
    (fact : Fact) : no'.topology fact = no.topology fact
      + (if fact = .vacant face then -1 else 0)
      + (if fact = .neighborCount no.occupied.card then -1 else 0)
      + (if fact = .neighborCount (no.occupied.card + 1 : ℕ) then 1 else 0)
      + (if fact = .neighbor v face then 1 else 0) := by
  cases fact with
  | neighbor out face' =>
    by_cases hf : face' = face
    · subst hf
      simp only [topology, h, if_true, hface, Fact.neighbor.injEq, reduceCtorEq, if_false,
        Int.add_zero, and_true]
      split_ifs <;> omega
    · simp [topology, h, hf]
  | neighborCount total =>
    simp only [topology, card_occupied_gain h hface hv, Fact.neighborCount.injEq, reduceCtorEq,
      if_false, Int.add_zero]
    split_ifs <;> omega
  | vacant face' =>
    by_cases hf : face' = face <;> simp [topology, h, hf, hface, hv]

/-- A neighbor takes the place of another one: the old fact goes and the new one comes. -/
theorem topology_replace (hface : no.getNodeAtFace face ≠ noNeighbor) (hv : v ≠ noNeighbor)
    (fact : Fact) : no'.topology fact = no.topology fact
      + (if fact = .neighbor (no.getNodeAtFace face) face then -1 else 0)
      + (if fact = .neighbor v face then 1 else 0) := by
  cases fact with
  | neighbor out face' =>
    by_cases hf : face' = face
    · subst hf
      simp only [topology, h, if_true, Fact.neighbor.injEq, and_true]
      split_ifs <;> omega
    · simp [topology, h, hf]
  | neighborCount total => simp [topology, card_occupied_replace h hface hv]
  | vacant face' =>
    by_cases hf : face' = face <;> simp [topology, h, hf, hface, hv]

/-- A face becomes vacant: the neighbor and the old count go, the new count and the vacant fact
come. -/
theorem topology_lose (hface : no.getNodeAtFace face ≠ noNeighbor) (hv : v = noNeighbor)
    (fact : Fact) : no'.topology fact = no.topology fact
      + (if fact = .neighborCount no.occupied.card then -1 else 0)
      + (if fact = .neighborCount (no.occupied.card - 1 : ℕ) then 1 else 0)
      + (if fact = .neighbor (no.getNodeAtFace face) face then -1 else 0)
      + (if fact = .vacant face then 1 else 0) := by
  have hcard := card_occupied_lose h hface hv
  cases fact with
  | neighbor out face' =>
    by_cases hf : face' = face
    · subst hf
      simp only [topology, h, if_true, hv, Fact.neighbor.injEq, reduceCtorEq, if_false,
        Int.add_zero, and_true]
      split_ifs <;> omega
    · simp [topology, h, hf]
  | neighborCount total =>
    simp only [topology, Fact.neighborCount.injEq, reduceCtorEq, if_false, Int.add_zero]
    split_ifs <;> omega
  | vacant face' =>
    by_cases hf : face' = face <;> simp [topology, h, hf, hface, hv]

end OneFace

end SimNode

namespace SimSched

variable (s : SimSched)

/-- The program has the fact's predicate. -/
def declares : Fact → Bool
  | .neighbor _ _ => s.neighborPred
  | .neighborCount _ => s.neighborCountPred
  | .vacant _ => s.vacantPred

/-- A fact is given if the program has its predicate. -/
def give (no : SimNode) (ts : ℕ) (fact : Fact) (count : ℤ) : SimNode :=
  if s.declares fact then s.addReceivedTuple no ts ⟨fact, count⟩ else no

/-- `add_neighbor` gives the node a fact. -/
theorem addNeighbor_eq (ts : ℕ) (no : SimNode) (out : ℕ) (face : Face) (count : ℤ) :
    s.addNeighbor ts no out face count = s.give no ts (.neighbor out face) count := rfl

/-- `add_neighbor_count` gives the node a fact with an `int`. -/
theorem addNeighborCount_eq (ts : ℕ) (no : SimNode) (total : ℕ) (count : ℤ) :
    s.addNeighborCount ts no total count =
      s.give no ts (.neighborCount (wrap32 total)) count := rfl

/-- `add_vacant` gives the node a fact. -/
theorem addVacant_eq (ts : ℕ) (no : SimNode) (face : Face) (count : ℤ) :
    s.addVacant ts no face count = s.give no ts (.vacant face) count := rfl

section Give

variable (no : SimNode) (ts : ℕ)

/-- A fact that is queued counts for itself. -/
theorem net_addReceivedTuple (stpl : SensedTuple) (fact : Fact) :
    (s.addReceivedTuple no ts stpl).net fact =
      no.net fact + if fact = stpl.fact then stpl.count else 0 := by
  unfold addReceivedTuple
  split_ifs <;>
    simp only [SimNode.net, SimNode.delivered, List.map_append, List.map_cons, List.map_nil,
      List.sum_append, List.sum_cons, List.sum_nil, if_true, if_false, *] <;> omega

/-- A fact that is given counts for itself, if the program declares its predicate. -/
@[simp] theorem net_give (fact fact' : Fact) (count : ℤ) : (s.give no ts fact count).net fact' =
    no.net fact' + if s.declares fact' ∧ fact' = fact then count else 0 := by
  by_cases hf : fact' = fact
  · subst hf
    cases hd : s.declares fact' <;> simp [give, hd, net_addReceivedTuple]
  · by_cases hd : s.declares fact <;> simp [give, hd, hf, net_addReceivedTuple]

@[simp] theorem getNodeAtFace_give (fact : Fact) (count : ℤ) (face : Face) :
    (s.give no ts fact count).getNodeAtFace face = no.getNodeAtFace face := by
  unfold give addReceivedTuple
  split_ifs <;> cases face <;> rfl

@[simp] theorem instantiated_give (fact : Fact) (count : ℤ) :
    (s.give no ts fact count).instantiated = no.instantiated := by
  unfold give addReceivedTuple
  split_ifs <;> rfl

@[simp] theorem neighborCount_give (fact : Fact) (count : ℤ) :
    (s.give no ts fact count).neighborCount = no.neighborCount := by
  unfold give addReceivedTuple
  split_ifs <;> rfl

end Give

/-! ### One step at a node -/

/-- The node counts its neighbours, and what it was given is its topology, or nothing as long as it
is not instantiated. -/
structure Tracks (no : SimNode) : Prop where
  neighborCount : no.neighborCount = no.occupied.card
  net : ∀ fact, no.net fact = if no.instantiated ∧ s.declares fact then no.topology fact else 0

/-- A new node has no facts and no neighbors. -/
theorem tracks_new : s.Tracks .new where
  neighborCount := by decide
  net fact := rfl

variable {s} {no : SimNode}

/-- A count of neighbours is not truncated. -/
theorem wrap32_of_le {n : ℕ} (h : n ≤ 6) : wrap32 n = n :=
  wrap32_of_mem (by simp only [maxInt]; omega) (by simp only [maxInt]; omega)

section GainNeighbor

variable (s no) (ts out : ℕ) (face : Face)

/-- The new neighbor is at its face, and the other faces are as they were. -/
theorem getNodeAtFace_gainNeighbor (face' : Face) :
    (s.gainNeighbor ts no out face).getNodeAtFace face' =
      if face' = face then out else no.getNodeAtFace face' := by
  simp only [gainNeighbor, addVacant_eq, addNeighborCount_eq, addNeighbor_eq]
  split_ifs <;> simp_all

/-- A neighbor does not instantiate the node. -/
theorem instantiated_gainNeighbor :
    (s.gainNeighbor ts no out face).instantiated = no.instantiated := by
  simp only [gainNeighbor, addVacant_eq, addNeighborCount_eq, addNeighbor_eq]
  split_ifs <;> simp

/-- The counter goes up if the face was vacant. -/
theorem neighborCount_gainNeighbor : (s.gainNeighbor ts no out face).neighborCount =
    if no.getNodeAtFace face = noNeighbor then (no.neighborCount + 1) % 2 ^ 64
    else no.neighborCount := by
  simp only [gainNeighbor, addVacant_eq, addNeighborCount_eq, addNeighbor_eq]
  split_ifs <;> simp

/-- The facts of a neighbour at a vacant face. -/
theorem net_gainNeighbor_vacant (hface : no.getNodeAtFace face = noNeighbor)
    (hinst : no.instantiated = true) (fact : Fact) (hfact : s.declares fact = true) :
    (s.gainNeighbor ts no out face).net fact = no.net fact
      + (if fact = .vacant face then -1 else 0)
      + (if fact = .neighborCount (wrap32 no.neighborCount) then -1 else 0)
      + (if fact = .neighborCount (wrap32 ((no.neighborCount + 1) % 2 ^ 64 : ℕ)) then 1 else 0)
      + (if fact = .neighbor out face then 1 else 0) := by
  simp only [gainNeighbor, addVacant_eq, addNeighborCount_eq, addNeighbor_eq, if_pos hface]
  simp [hinst, hfact]

/-- The facts of another neighbour. -/
theorem net_gainNeighbor_replace (hface : no.getNodeAtFace face ≠ noNeighbor)
    (hinst : no.instantiated = true) (fact : Fact) (hfact : s.declares fact = true) :
    (s.gainNeighbor ts no out face).net fact = no.net fact
      + (if fact = .neighbor (no.getNodeAtFace face) face then -1 else 0)
      + (if fact = .neighbor out face then 1 else 0) := by
  simp only [gainNeighbor, addNeighbor_eq, if_neg hface]
  by_cases hout : no.getNodeAtFace face = out
  · rw [if_neg (not_not_intro hout), hout]
    split_ifs <;> omega
  · simp [hinst, hfact, hout]

/-- Nothing else is given. -/
theorem net_gainNeighbor_of_not (fact : Fact)
    (h : ¬(no.instantiated = true ∧ s.declares fact = true)) :
    (s.gainNeighbor ts no out face).net fact = no.net fact := by
  simp only [gainNeighbor, addVacant_eq, addNeighborCount_eq, addNeighbor_eq]
  split_ifs <;> simp_all

end GainNeighbor

/-- A new neighbor, at a vacant face or in the place of another one, is tracked. -/
theorem Tracks.gainNeighbor (h : s.Tracks no) (ts : ℕ) {out : ℕ} (hout : out ≠ noNeighbor)
    (face : Face) : s.Tracks (s.gainNeighbor ts no out face) := by
  have hget := s.getNodeAtFace_gainNeighbor no ts out face
  have hle := no.card_occupied_le
  by_cases hface : no.getNodeAtFace face = noNeighbor
  · have hcard := SimNode.card_occupied_gain hget hface hout
    refine ⟨?_, fun fact => ?_⟩
    · rw [neighborCount_gainNeighbor, if_pos hface, h.neighborCount, hcard]
      omega
    · rw [instantiated_gainNeighbor]
      split_ifs with hd
      · rw [s.net_gainNeighbor_vacant no ts out face hface hd.1 fact hd.2, h.net, if_pos hd,
          SimNode.topology_gain hget hface hout, h.neighborCount, wrap32_of_le hle,
          Nat.mod_eq_of_lt (Nat.lt_of_le_of_lt (Nat.succ_le_succ hle) (by decide)),
          wrap32_of_le (hcard.ge.trans (SimNode.card_occupied_le _))]
      · rw [s.net_gainNeighbor_of_not no ts out face fact hd, h.net, if_neg hd]
  · have hcard := SimNode.card_occupied_replace hget hface hout
    refine ⟨?_, fun fact => ?_⟩
    · rw [neighborCount_gainNeighbor, if_neg hface, h.neighborCount, hcard]
    · rw [instantiated_gainNeighbor]
      split_ifs with hd
      · rw [s.net_gainNeighbor_replace no ts out face hface hd.1 fact hd.2, h.net, if_pos hd,
          SimNode.topology_replace hget hface hout]
      · rw [s.net_gainNeighbor_of_not no ts out face fact hd, h.net, if_neg hd]

section LoseNeighbor

variable {ts : ℕ} {face : Face} {no' : SimNode} (hlose : s.loseNeighbor ts no face = .ok no')
include hlose

/-- Only a face with a neighbor can lose it. -/
theorem occupied_of_loseNeighbor : no.getNodeAtFace face ≠ noNeighbor := by
  obtain ⟨_, hassert, -⟩ := bind_eq_ok.mp hlose
  exact assert_eq_ok.mp hassert

/-- The node with one neighbour less. -/
theorem loseNeighbor_eq : no' =
    let no₁ := if no.instantiated then
      s.addNeighborCount ts no no.neighborCount (-1) else no
    let no₂ := if no.instantiated then
      s.addNeighborCount ts no₁.decNeighborCount (decSize no.neighborCount) 1
      else no₁.decNeighborCount
    (s.addNeighbor ts no₂ (no.getNodeAtFace face) face (-1)).setNodeAtFace noNeighbor face := by
  obtain ⟨_, -, hlose⟩ := bind_eq_ok.mp hlose
  cases hlose
  cases hinst : no.instantiated <;> simp [hinst, addNeighborCount_eq]

/-- The face is vacant then, and the other faces are as they were. -/
theorem getNodeAtFace_loseNeighbor (face' : Face) :
    no'.getNodeAtFace face' = if face' = face then noNeighbor else no.getNodeAtFace face' := by
  rw [loseNeighbor_eq hlose]
  simp only [addNeighborCount_eq, addNeighbor_eq]
  split_ifs <;> simp_all

/-- Losing a neighbor does not instantiate the node. -/
theorem instantiated_loseNeighbor : no'.instantiated = no.instantiated := by
  rw [loseNeighbor_eq hlose]
  simp only [addNeighborCount_eq, addNeighbor_eq]
  split_ifs <;> simp

/-- The counter goes down. -/
theorem neighborCount_loseNeighbor : no'.neighborCount = decSize no.neighborCount := by
  rw [loseNeighbor_eq hlose]
  simp only [addNeighborCount_eq, addNeighbor_eq]
  split_ifs <;> simp

/-- The facts of a face that loses its neighbour: no `vacant` is among them. -/
theorem net_loseNeighbor (hinst : no.instantiated = true) (fact : Fact)
    (hfact : s.declares fact = true) : no'.net fact = no.net fact
      + (if fact = .neighborCount (wrap32 no.neighborCount) then -1 else 0)
      + (if fact = .neighborCount (wrap32 (decSize no.neighborCount)) then 1 else 0)
      + (if fact = .neighbor (no.getNodeAtFace face) face then -1 else 0) := by
  rw [loseNeighbor_eq hlose]
  simp [addNeighborCount_eq, addNeighbor_eq, hinst, hfact]

/-- A node that is not instantiated loses a `neighbor` that it does not have. -/
theorem net_loseNeighbor_of_not (fact : Fact)
    (h : ¬(no.instantiated = true ∧ s.declares fact = true)) : no'.net fact = no.net fact +
      if s.declares fact = true ∧ fact = .neighbor (no.getNodeAtFace face) face then -1 else 0 := by
  rw [loseNeighbor_eq hlose]
  by_cases hinst : no.instantiated = true
  · have hfact : s.declares fact = false := by simpa [hinst] using h
    simp [addNeighborCount_eq, addNeighbor_eq, hinst, hfact]
  · simp [addNeighbor_eq, hinst]

/-- The facts of a removal make up the change of the topology if nobody waits for the `vacant`, or
for the `neighbor` before the node is instantiated. -/
theorem tracks_loseNeighbor_iff (h : s.Tracks no) :
    s.Tracks no' ↔ (if no.instantiated then s.vacantPred else s.neighborPred) = false := by
  have hget := getNodeAtFace_loseNeighbor hlose
  have hface := occupied_of_loseNeighbor hlose
  have hcard := SimNode.card_occupied_lose hget hface rfl
  have hle := no.card_occupied_le
  have hdec : decSize no.neighborCount = no.occupied.card - 1 := by
    rw [h.neighborCount, decSize, if_neg (by omega)]
  have hcount : no'.neighborCount = no'.occupied.card := by
    rw [neighborCount_loseNeighbor hlose, hdec]
    omega
  have hnet : ∀ fact, no.instantiated = true → s.declares fact = true →
      no'.net fact = no'.topology fact - if fact = .vacant face then 1 else 0 := by
    intro fact hinst hfact
    rw [net_loseNeighbor hlose hinst fact hfact, h.net, if_pos ⟨hinst, hfact⟩, hdec,
      SimNode.topology_lose hget hface rfl, h.neighborCount, wrap32_of_le hle,
      wrap32_of_le (by omega)]
    omega
  constructor
  · intro h'
    cases hinst : no.instantiated with
    | true =>
      by_contra hvacant
      have hd : s.declares (.vacant face) = true := by
        simpa [declares] using hvacant
      have hlost := h'.net (.vacant face)
      rw [instantiated_loseNeighbor hlose, if_pos ⟨hinst, hd⟩, hnet _ hinst hd, if_pos rfl] at hlost
      omega
    | false =>
      by_contra hneighbor
      have hd : s.declares (.neighbor (no.getNodeAtFace face) face) = true := by
        simpa [declares] using hneighbor
      have hlost := h'.net (.neighbor (no.getNodeAtFace face) face)
      rw [instantiated_loseNeighbor hlose, if_neg (by simp [hinst]),
        net_loseNeighbor_of_not hlose _ (by simp [hinst]), h.net, if_neg (by simp [hinst]),
        if_pos ⟨hd, rfl⟩] at hlost
      omega
  · intro hcond
    refine ⟨hcount, fun fact => ?_⟩
    rw [instantiated_loseNeighbor hlose]
    split_ifs with hd
    · rw [hnet fact hd.1 hd.2, if_neg, Int.sub_zero]
      rintro rfl
      rw [if_pos hd.1] at hcond
      exact absurd hd.2 (by simp [declares, hcond])
    · rw [net_loseNeighbor_of_not hlose fact hd, h.net, if_neg hd, if_neg, Int.zero_add]
      rintro ⟨hfact, rfl⟩
      have hinst : ¬no.instantiated = true := fun hinst => hd ⟨hinst, hfact⟩
      rw [if_neg hinst] at hcond
      exact absurd hfact (by simp [declares, hcond])

end LoseNeighbor

/-- A neighbour is counted at its face if it is one. -/
theorem tracks_gainNeighbor_iff (h : s.Tracks no) (ts out : ℕ) (face : Face) :
    s.Tracks (s.gainNeighbor ts no out face) ↔ out ≠ noNeighbor := by
  refine ⟨fun h' hout => ?_, fun hout => h.gainNeighbor ts hout face⟩
  have hget := s.getNodeAtFace_gainNeighbor no ts out face
  have hle := no.card_occupied_le
  have hcount := h'.neighborCount
  rw [neighborCount_gainNeighbor, h.neighborCount] at hcount
  by_cases hface : no.getNodeAtFace face = noNeighbor
  · rw [if_pos hface, SimNode.card_occupied_vacant hget hface hout] at hcount
    omega
  · have hcard := SimNode.card_occupied_lose hget hface hout
    rw [if_neg hface] at hcount
    omega

section Instantiate

/-- One fact for each face. -/
def giveEach (s : SimSched) (ts : ℕ) (fact : Face → Fact) (no : SimNode) (l : List Face) :
    SimNode := l.foldl (fun no face => s.give no ts (fact face) 1) no

variable (s) (ts : ℕ) (fact : Face → Fact) (no : SimNode) (l : List Face)

/-- Facts for the faces do not change the faces. -/
@[simp] theorem getNodeAtFace_giveEach (face : Face) :
    (s.giveEach ts fact no l).getNodeAtFace face = no.getNodeAtFace face := by
  induction l generalizing no with
  | nil => rfl
  | cons a l ih => exact (ih _).trans (getNodeAtFace_give ..)

@[simp] theorem instantiated_giveEach :
    (s.giveEach ts fact no l).instantiated = no.instantiated := by
  induction l generalizing no with
  | nil => rfl
  | cons a l ih => exact (ih _).trans (instantiated_give ..)

@[simp] theorem neighborCount_giveEach :
    (s.giveEach ts fact no l).neighborCount = no.neighborCount := by
  induction l generalizing no with
  | nil => rfl
  | cons a l ih => exact (ih _).trans (neighborCount_give ..)

/-- Each face's fact counts for itself. -/
theorem net_giveEach (g : Fact) : (s.giveEach ts fact no l).net g = no.net g +
    (l.map fun face => if s.declares g = true ∧ g = fact face then 1 else 0).sum := by
  induction l generalizing no with
  | nil => exact (Int.add_zero _).symm
  | cons a l ih =>
    have hstep : (s.giveEach ts fact no (a :: l)) =
        s.giveEach ts fact (s.give no ts (fact a) 1) l := rfl
    rw [hstep, ih, net_give, List.map_cons, List.sum_cons, Int.add_assoc]

/-- A loop that gives one fact for each face, which it finds out on the way. -/
theorem foldl_eq_giveEach {body : SimNode → Face → SimNode}
    (hbody : ∀ no' : SimNode, (∀ face, no'.getNodeAtFace face = no.getNodeAtFace face) →
      ∀ face, body no' face = s.give no' ts (fact face) 1) :
    l.foldl body no = s.giveEach ts fact no l := by
  suffices h : ∀ no' : SimNode, (∀ face, no'.getNodeAtFace face = no.getNodeAtFace face) →
      l.foldl body no' = s.giveEach ts fact no' l from h no fun _ => rfl
  induction l with
  | nil => exact fun _ _ => rfl
  | cons a l ih =>
    intro no' hget
    rw [List.foldl_cons, hbody no' hget]
    exact ih _ fun face => (getNodeAtFace_give ..).trans (hget face)

/-- Only one face counts. -/
theorem sum_all_eq {p : Face → ℤ} (face : Face) (h : ∀ face', face' ≠ face → p face' = 0) :
    (Face.all.map p).sum = p face := by
  cases face <;> simp [Face.all, h]

/-- What a node is told of a face. -/
def faceFact (no : SimNode) (face : Face) : Fact :=
  if no.getNodeAtFace face = noNeighbor then .vacant face
  else .neighbor (no.getNodeAtFace face) face

/-- The facts of the faces and the number of neighbours are the topology. -/
theorem sum_faceFact (g : Fact) :
    (if g = .neighborCount no.occupied.card then 1 else 0) +
      (Face.all.map fun face => if g = faceFact no face then (1 : ℤ) else 0).sum =
      no.topology g := by
  cases g with
  | neighbor out face =>
    have hother : ∀ face', face' ≠ face →
        (if Fact.neighbor out face = faceFact no face' then (1 : ℤ) else 0) = 0 := by
      intro face' hne
      unfold faceFact
      split_ifs <;> simp_all [eq_comm]
    rw [sum_all_eq face hother]
    unfold faceFact
    by_cases hface : no.getNodeAtFace face = noNeighbor
    · have hout : ¬(noNeighbor = out ∧ out ≠ noNeighbor) := fun h => h.2 h.1.symm
      simp [hface, SimNode.topology, hout]
    · have hout : (no.getNodeAtFace face = out ∧ out ≠ noNeighbor) ↔
          out = no.getNodeAtFace face := ⟨fun h => h.1.symm, fun h => ⟨h.symm, h ▸ hface⟩⟩
      simp [hface, SimNode.topology, hout]
  | neighborCount total =>
    have hnone : ∀ face,
        (if Fact.neighborCount total = faceFact no face then (1 : ℤ) else 0) = 0 := by
      intro face
      unfold faceFact
      split_ifs <;> simp_all
    simp [hnone, Face.all, SimNode.topology]
  | vacant face =>
    have hother : ∀ face', face' ≠ face →
        (if Fact.vacant face = faceFact no face' then (1 : ℤ) else 0) = 0 := by
      intro face' hne
      unfold faceFact
      split_ifs <;> simp_all [eq_comm]
    rw [sum_all_eq face hother]
    unfold faceFact
    by_cases hface : no.getNodeAtFace face = noNeighbor <;> simp [hface, SimNode.topology]

variable {s no}

/-- A node that is instantiated gets its neighbor count and a fact for each face. -/
theorem instantiateNode_eq : s.instantiateNode no =
    s.giveEach 0 (faceFact no)
      (s.give (no.setInstantiated true) 0 (.neighborCount (wrap32 no.neighborCount)) 1)
      Face.all := by
  refine foldl_eq_giveEach s 0 _ _ _ fun no' hno' face => ?_
  have hface : no'.getNodeAtFace face = no.getNodeAtFace face := by
    simpa [addNeighborCount_eq] using hno' face
  simp only [hface, faceFact, addVacant_eq, addNeighbor_eq]
  split_ifs <;> rfl

/-- What a node gets when it is instantiated is its topology. -/
theorem net_instantiateNode (h : no.neighborCount = no.occupied.card) (g : Fact) :
    (s.instantiateNode no).net g =
      no.net g + if s.declares g = true then no.topology g else 0 := by
  rw [instantiateNode_eq, net_giveEach, net_give, h, wrap32_of_le no.card_occupied_le,
    ← sum_faceFact no g, SimNode.net_setInstantiated]
  by_cases hg : s.declares g = true
  · simp only [hg, true_and, if_true]
    omega
  · simp [hg, Face.all]

/-- A node is instantiated rightly if it has not been before, or if there is nothing to tell. -/
theorem tracks_instantiateNode_iff (h : s.Tracks no) : s.Tracks (s.instantiateNode no) ↔
    (no.instantiated = true → ∀ fact, s.declares fact = true → no.topology fact = 0) := by
  have hget : (s.instantiateNode no).getNodeAtFace = no.getNodeAtFace := by
    funext face
    simp [instantiateNode_eq]
  have hinst : (s.instantiateNode no).instantiated = true := by simp [instantiateNode_eq]
  have hcount : (s.instantiateNode no).neighborCount = no.neighborCount := by
    simp [instantiateNode_eq]
  have hocc : (s.instantiateNode no).occupied = no.occupied := SimNode.occupied_congr hget
  have htop : (s.instantiateNode no).topology = no.topology := SimNode.topology_congr hget
  have hnet := fun fact => net_instantiateNode (s := s) h.neighborCount fact
  constructor
  · intro h' hno fact hfact
    have hdouble := h'.net fact
    rw [hnet, h.net, if_pos ⟨hno, hfact⟩, if_pos hfact, if_pos ⟨hinst, hfact⟩, htop] at hdouble
    omega
  · intro hcond
    refine ⟨by rw [hcount, hocc, h.neighborCount], fun fact => ?_⟩
    rw [hnet, h.net, htop]
    by_cases hfact : s.declares fact = true
    · by_cases hno : no.instantiated = true
      · simp [hcond hno fact hfact]
      · simp [hno, hinst]
    · simp [hfact]

variable (s) in
/-- A node that is created during the run gets a count of zero and six vacant faces. -/
theorem instantiateNew_eq : s.instantiateNew ts =
    s.give (s.giveEach ts .vacant (SimNode.new.setInstantiated true) Face.all) ts
      (.neighborCount (wrap32 (0 : ℕ))) 1 := by
  simp only [instantiateNew, addNeighborCount_eq]
  rw [foldl_eq_giveEach s ts .vacant (SimNode.new.setInstantiated true) Face.all
    fun no' _ face => s.addVacant_eq ts no' face 1]

variable (s) in
/-- A node that is created during the run is tracked. -/
theorem tracks_instantiateNew : s.Tracks (s.instantiateNew ts) := by
  have hget : (s.instantiateNew ts).getNodeAtFace = SimNode.new.getNodeAtFace := by
    funext face
    simp [instantiateNew_eq]
  have hinst : (s.instantiateNew ts).instantiated = true := by simp [instantiateNew_eq]
  have hcard : SimNode.new.occupied.card = 0 := by decide
  have hfact : Fact.vacant = faceFact .new := by
    funext face
    cases face <;> rfl
  refine ⟨?_, fun fact => ?_⟩
  · rw [SimNode.occupied_congr hget, hcard, instantiateNew_eq, neighborCount_give,
      neighborCount_giveEach]
    rfl
  · have hzero : (SimNode.new.setInstantiated true).net fact = 0 := rfl
    rw [hinst, SimNode.topology_congr hget, instantiateNew_eq, net_give, net_giveEach, hzero,
      ← sum_faceFact, hcard, ← hfact, wrap32_of_le (Nat.zero_le 6)]
    by_cases hd : s.declares fact = true
    · simp only [hd, true_and, and_self, if_true]
      omega
    · simp [hd, Face.all]

end Instantiate

/-! ### Runs -/

/-- The messages after which the facts are the topology still. A neighbour has an identifier, a
block loses none (unless its program does not ask for what goes wrong), and the blocks are not
instantiated a second time with facts that they have. -/
def Senses (s : SimSched) : Event → Prop
  | .useThreads | .createNNodes .. => True
  | .addNeighbor _ _ outId _ => outId % 2 ^ 32 ≠ noNeighbor
  | .removeNeighbor _ inId _ => ∀ no, s.nodes (inId % 2 ^ 32) = some no →
      (if no.instantiated then s.vacantPred else s.neighborPred) = false
  | .timeToInstantiate => s.threadMode = true → s.allInstantiated = false →
      ∀ id no, s.nodes id = some no → no.instantiated = true →
        ∀ fact, s.declares fact = true → no.topology fact = 0

/-- Every node tracks the topology. -/
def Kept (s : SimSched) : Prop := ∀ id no, s.nodes id = some no → s.Tracks no

/-- Only the predicates of the program matter. -/
theorem tracks_congr {s' : SimSched} (h : s'.declares = s.declares) (no : SimNode) :
    s'.Tracks no ↔ s.Tracks no :=
  ⟨fun ht => ⟨ht.1, by simpa only [h] using ht.2⟩, fun ht => ⟨ht.1, by simpa only [h] using ht.2⟩⟩

/-- One node is set. -/
theorem nodes_setNode (id : ℕ) (no : SimNode) (id' : ℕ) :
    (s.setNode id no).nodes id' = if id' = id then some no else s.nodes id' :=
  Function.update_apply ..

/-- The program is the same. -/
theorem declares_setNode (id : ℕ) (no : SimNode) : (s.setNode id no).declares = s.declares := by
  funext fact
  cases fact <;> rfl

/-- The other nodes are as they were, so that only the node that is set matters. -/
theorem kept_setNode_iff (h : s.Kept) (id : ℕ) (no : SimNode) :
    (s.setNode id no).Kept ↔ s.Tracks no := by
  constructor
  · intro h'
    exact (tracks_congr (declares_setNode id no) no).mp
      (h' id no ((nodes_setNode id no id).trans (if_pos rfl)))
  · intro hno id' no' hid
    rw [tracks_congr (declares_setNode id no)]
    rw [nodes_setNode] at hid
    split_ifs at hid
    · exact Option.some.inj hid ▸ hno
    · exact h id' no' hid

/-- A node with a given id may be created. -/
theorem Kept.createNodeId (h : s.Kept) {id : ℕ} {s' : SimSched}
    (hs : s.createNodeId id = .ok s') : s'.Kept ∧ s'.declares = s.declares := by
  have hnew : (s.setNode id .new).Kept := (kept_setNode_iff h id .new).mpr s.tracks_new
  have heq : s' = { s.setNode id .new with maxNodeId := id, maxTranslatedId := id } := by
    unfold SimSched.createNodeId at hs
    split_ifs at hs
    · obtain ⟨_, -, hs⟩ := bind_eq_ok.mp hs
      obtain ⟨_, -, hs⟩ := bind_eq_ok.mp hs
      cases hs
      rfl
    · cases hs
      rfl
  have hdecl : s'.declares = s.declares := by
    rw [heq]
    funext fact
    cases fact <;> rfl
  refine ⟨fun id' no' hid => ?_, hdecl⟩
  rw [tracks_congr (hdecl.trans (declares_setNode id .new).symm)]
  exact hnew id' no' (by simpa only [heq] using hid)

/-- So it may by a message. -/
theorem Kept.handleCreateNode (h : s.Kept) {ts id : ℕ} {s' : SimSched}
    (hs : s.handleCreateNode ts id = .ok s') : s'.Kept ∧ s'.declares = s.declares := by
  obtain ⟨s₁, hcreate, hs⟩ := bind_eq_ok.mp hs
  obtain ⟨h₁, hdecl⟩ := h.createNodeId hcreate
  cases hs
  split_ifs
  · exact ⟨(kept_setNode_iff h₁ id _).mpr (s₁.tracks_instantiateNew ts),
      (declares_setNode id _).trans hdecl⟩
  · exact ⟨h₁, hdecl⟩

/-- Any number of nodes may be created by a message. -/
theorem Kept.handleCreateNNodes (h : s.Kept) {ts n startId : ℕ} {s' : SimSched}
    (hs : s.handleCreateNNodes ts n startId = .ok s') : s'.Kept := by
  unfold SimSched.handleCreateNNodes at hs
  generalize List.range n = l at hs
  induction l generalizing s with
  | nil =>
    cases hs
    exact h
  | cons i l ih =>
    rw [List.foldlM_cons] at hs
    obtain ⟨s₁, hround, hs⟩ := bind_eq_ok.mp hs
    exact ih (h.handleCreateNode hround).1 hs

/-- A node that is found is there. -/
theorem nodes_of_findNode {id : ℕ} (h : s.findNode id = .ok no) : s.nodes id = some no := by
  unfold findNode at h
  split at h <;> cases h
  assumption

/-- All nodes are instantiated at once. -/
theorem kept_instantiate_iff (h : s.Kept) {s' : SimSched} (hdecl : s'.declares = s.declares)
    (hnodes : s'.nodes = fun id => (s.nodes id).map s.instantiateNode) :
    s'.Kept ↔ ∀ id no, s.nodes id = some no → no.instantiated = true →
      ∀ fact, s.declares fact = true → no.topology fact = 0 := by
  constructor
  · intro h' id no hid
    have hno : s'.Tracks (s.instantiateNode no) := h' id _ (by simp [hnodes, hid])
    exact (tracks_instantiateNode_iff (h id no hid)).mp ((tracks_congr hdecl _).mp hno)
  · intro hcond id no' hid
    simp only [hnodes, Option.map_eq_some_iff] at hid
    obtain ⟨no, hid, rfl⟩ := hid
    exact (tracks_congr hdecl _).mpr
      ((tracks_instantiateNode_iff (h id no hid)).mpr (hcond id no hid))

/-- A step keeps the topology of every node exactly if the message is one of those. -/
theorem kept_iff (h : s.Kept) {e : Event} {s' : SimSched} (hs : s.step e = .ok s') :
    s'.Kept ↔ s.Senses e := by
  cases e with
  | useThreads =>
    cases hs
    refine iff_of_true (fun id no hid => ?_) trivial
    have hdecl : { s with threadMode := true }.declares = s.declares := by
      funext fact
      cases fact <;> rfl
    exact (tracks_congr hdecl no).mpr (h id no hid)
  | createNNodes ts n startId => exact iff_of_true (h.handleCreateNNodes hs) trivial
  | addNeighbor ts inId outId face =>
    obtain ⟨face, -, hs⟩ := bind_eq_ok.mp hs
    obtain ⟨no, hfind, hs⟩ := bind_eq_ok.mp hs
    cases hs
    have hno := nodes_of_findNode hfind
    rw [kept_setNode_iff h]
    exact tracks_gainNeighbor_iff (h _ no hno) ts _ face
  | removeNeighbor ts inId face =>
    obtain ⟨face, -, hs⟩ := bind_eq_ok.mp hs
    obtain ⟨no, hfind, hs⟩ := bind_eq_ok.mp hs
    obtain ⟨no', hlose, hs⟩ := bind_eq_ok.mp hs
    cases hs
    have hno := nodes_of_findNode hfind
    rw [kept_setNode_iff h, tracks_loseNeighbor_iff hlose (h _ no hno)]
    refine ⟨fun hcond no₂ hno₂ => ?_, fun hcond => hcond no hno⟩
    obtain rfl := Option.some.inj (hno.symm.trans hno₂)
    exact hcond
  | timeToInstantiate =>
    unfold step at hs
    split_ifs at hs with hthread
    · obtain ⟨s₁, hall, hs⟩ := bind_eq_ok.mp hs
      obtain ⟨_, -, hall⟩ := bind_eq_ok.mp hall
      obtain ⟨_, -, hall⟩ := bind_eq_ok.mp hall
      cases hall
      cases hs
      have hmode : s.threadMode = true ∧ s.allInstantiated = false := by simpa using hthread
      have hdecl : { s with
          nodes := fun id => (s.nodes id).map s.instantiateNode
          allInstantiated := true }.declares = s.declares := by
        funext fact
        cases fact <;> rfl
      rw [kept_instantiate_iff h hdecl rfl]
      simp [Senses, hmode]
    · cases hs
      refine iff_of_true h fun hmode hall => ?_
      simp [hmode, hall] at hthread

/-- The runs of a program whose messages are those of a condition. -/
def simulation (neighborPred neighborCountPred vacantPred : Bool)
    (allowed : SimSched → Event → Prop) : System SimSched where
  init s := s = init neighborPred neighborCountPred vacantPred
  step s s' := ∃ e, allowed s e ∧ s.step e = .ok s'

/-- In every run whose messages are such that each step keeps the facts, each instantiated node
counts its neighbours and was given its topology. -/
theorem sensed_of_reachable {neighborPred neighborCountPred vacantPred : Bool}
    (h : (simulation neighborPred neighborCountPred vacantPred Senses).Reachable s)
    (id : ℕ) (hid : s.nodes id = some no) (hinst : no.instantiated = true) :
    no.neighborCount = no.occupied.card ∧
      ∀ fact, s.declares fact = true → no.net fact = no.topology fact := by
  have hkept : s.Kept := by
    refine h.invariant (fun s hs => ?_) fun s s' hs hstep => ?_
    · intro id no hid
      cases hs
      cases hid
    · obtain ⟨e, hallowed, hstep⟩ := hstep
      exact (kept_iff hs hstep).mpr hallowed
  obtain ⟨hcount, hnet⟩ := hkept id no hid
  exact ⟨hcount, fun fact hfact => (hnet fact).trans (if_pos ⟨hinst, hfact⟩)⟩

/-- A block gains a neighbour, which another one replaces. -/
theorem sensed_of_replaced : ∃ (s : SimSched) (no : SimNode), s.nodes 1 = some no ∧
    no.getNodeAtFace .north = 3 ∧ no.neighborCount = no.occupied.card ∧
      ∀ fact, s.declares fact = true → no.net fact = no.topology fact :=
  have hcreate : (simulation true true true Senses).Reachable _ :=
    .step (.init rfl) ⟨.createNNodes 1 3 1, trivial, rfl⟩
  have hadd := hcreate.step ⟨.addNeighbor 2 1 2 1, (by decide : 2 % 2 ^ 32 ≠ noNeighbor), rfl⟩
  have hreplace := hadd.step ⟨.addNeighbor 3 1 3 1, (by decide : 3 % 2 ^ 32 ≠ noNeighbor), rfl⟩
  ⟨_, _, rfl, rfl, sensed_of_reachable hreplace 1 rfl (by decide +kernel)⟩

/-- A block that loses its neighbour has a vacant face, and was not told. -/
theorem vacant_lost_of_remove : ¬∀ (es : List Event) (s : SimSched),
    es.foldlM step (init true true true) = .ok s → ∀ id no, s.nodes id = some no →
      no.instantiated = true → no.neighborCount = no.occupied.card ∧
        ∀ fact, no.net fact = no.topology fact := by
  intro h
  have hrun := h [.createNNodes 1 1 1, .addNeighbor 2 1 2 1, .removeNeighbor 3 1 1] _ rfl 1 _ rfl
    (by decide +kernel)
  exact absurd (hrun.2 (.vacant .north)) (by decide +kernel)

end SimSched

end Meld.Sched.Sim
