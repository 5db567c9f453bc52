import Meld.Lib.Loop
import Meld.Queue.Bin

/-!
# The bounded priority queue

A queue with a fixed number of priorities: a binary tree whose leaves are bins, one for each
priority, and whose inner nodes count the elements in the bins on their left. An operation walks
from a leaf up to the root or from the root down to the first leaf with elements.

The number of leaves is a power of two. It and the counters are taken as unbounded numbers, since a
vector of leaves and the elements have to fit into memory; a subtraction wraps around.
-/

namespace Meld.Queue

open Lib

variable {C T : Type} [Bin C T]

/-! ### Powers of two -/

/-- `next_power2`. -/
def nextPower2 (val : ℕ) : Exec ℕ :=
  iterate (fun ret => pure (if ret < val then .inl (ret * 2) else .inr ret)) (val + 1) 1

/-- `upper_log2` of a number that is not zero. -/
def upperLog2 (n : ℕ) : Exec ℕ :=
  iterate (fun s : ℕ × ℕ => pure (if n ≤ s.1 then .inr s.2 else .inl (s.1 * 2, s.2 + 1))) (n + 1)
    (1, 0)

/-- `-` on unsigned 64-bit integers. -/
def subSize (n k : ℕ) : ℕ := if k ≤ n then n - k else n + 2 ^ 64 - k

/-! ### The tree -/

/-- The objects of the class `queue_tree_node`. -/
structure TreeHeap (C : Type) where
  counter : ℕ → ℕ
  parent : ℕ → Option ℕ
  left : ℕ → Option ℕ
  right : ℕ → Option ℕ
  bin : ℕ → C
  next : ℕ

namespace TreeHeap

/-- No nodes. -/
def empty : TreeHeap C :=
  ⟨fun _ => 0, fun _ => none, fun _ => none, fun _ => none, fun _ => Bin.new, 0⟩

/-- A new node. -/
def newNode (H : TreeHeap C) : TreeHeap C × ℕ :=
  ({ counter := Function.update H.counter H.next 0
     parent := Function.update H.parent H.next none
     left := Function.update H.left H.next none
     right := Function.update H.right H.next none
     bin := Function.update H.bin H.next Bin.new
     next := H.next + 1 }, H.next)

/-- `is_leaf`. -/
def isLeaf (H : TreeHeap C) (a : ℕ) : Bool := (H.right a).isNone

end TreeHeap

/-- `build_tree`; the leaves are those of the vector. -/
def buildTree : ℕ → ℕ → TreeHeap C × List (Option ℕ) →
    Exec ((TreeHeap C × List (Option ℕ)) × ℕ)
  | 0, prio, (H, leaves) => do
    let (H, root) := H.newNode
    assert (prio < leaves.length)
    return ((H, leaves.set prio (some root)), root)
  | height + 1, prio, (H, leaves) => do
    let (H, root) := H.newNode
    let ((H, leaves), left) ← buildTree height (2 * prio) (H, leaves)
    let H := { H with left := Function.update H.left root (some left) }
    let ((H, leaves), right) ← buildTree height (2 * prio + 1) (H, leaves)
    let H := { H with right := Function.update H.right root (some right) }
    let H := { H with
      parent := Function.update (Function.update H.parent right (some root)) left (some root) }
    return ((H, leaves), root)

/-! ### The queue -/

/-- `bounded_pqueue`. -/
structure BoundedPqueue (C : Type) where
  nodes : TreeHeap C
  leaves : List (Option ℕ)
  root : ℕ
  total : ℕ
  range : ℕ

namespace BoundedPqueue

/-- The constructor. -/
def new (range : ℕ) : Exec (BoundedPqueue C) := do
  assert (0 < range)
  let numberLeaves ← nextPower2 range
  assert (range ≤ numberLeaves)
  let height ← upperLog2 numberLeaves
  let ((H, leaves), root) ← buildTree height 0 (TreeHeap.empty, List.replicate numberLeaves none)
  return ⟨H, leaves, root, 0, range⟩

/-- `size`. -/
def size (q : BoundedPqueue C) : ℕ := q.total

/-- `empty`. -/
def isEmpty (q : BoundedPqueue C) : Bool := q.total == 0

/-- The body of the loop up to the root: `upd` changes the counter of a node that is reached from
the left. -/
def climbStep (root : ℕ) (upd : ℕ → ℕ) (s : TreeHeap C × ℕ) :
    Exec ((TreeHeap C × ℕ) ⊕ TreeHeap C) := do
  let (H, node) := s
  if node = root then
    return .inr H
  else
    let parent ← deref (H.parent node)
    let H := if some node = H.left parent then
      { H with counter := Function.update H.counter parent (upd (H.counter parent)) } else H
    return .inl (H, parent)

/-- The body of the loop down to the first leaf with elements: `upd` changes the counter of a node
that is left to the left. -/
def descendStep (upd : ℕ → ℕ) (s : TreeHeap C × ℕ) :
    Exec ((TreeHeap C × ℕ) ⊕ (TreeHeap C × ℕ)) := do
  let (H, node) := s
  if H.isLeaf node then
    return .inr (H, node)
  else if 0 < H.counter node then
    let left ← deref (H.left node)
    return .inl ({ H with counter := Function.update H.counter node (upd (H.counter node)) }, left)
  else
    let right ← deref (H.right node)
    return .inl (H, right)

/-- `push`. -/
def push (q : BoundedPqueue C) (item : T) (prio : ℕ) : Exec (BoundedPqueue C) := do
  assert (prio < q.leaves.length)
  let node ← deref (q.leaves[prio]?.join)
  let bin ← Bin.push (q.nodes.bin node) item
  let H := { q.nodes with bin := Function.update q.nodes.bin node bin }
  let H ← iterate (climbStep q.root (· + 1)) (q.leaves.length + 1) (H, node)
  return { q with nodes := H, total := q.total + 1 }

/-- `top_list`. -/
def topList (q : BoundedPqueue C) (vec : List T) : Exec (BoundedPqueue C × List T) := do
  if q.isEmpty then
    return (q, vec)
  let (H, node) ← iterate (descendStep id) (q.leaves.length + 1) (q.nodes, q.root)
  assert (Bin.isEmpty (H.bin node) = false)
  let (bin, vec) ← Bin.popList (H.bin node) vec
  assert (vec ≠ [])
  let size := vec.length
  let H := { H with bin := Function.update H.bin node bin }
  let H ← iterate (climbStep q.root (subSize · size)) (q.leaves.length + 1) (H, node)
  return ({ q with nodes := H, total := subSize q.total size }, vec)

/-- `pop`. -/
def pop (q : BoundedPqueue C) : Exec (BoundedPqueue C × T) := do
  assert (q.isEmpty = false)
  let (H, node) ← iterate (descendStep decSize) (q.leaves.length + 1) (q.nodes, q.root)
  assert (Bin.isEmpty (H.bin node) = false)
  let (bin, ret) ← Bin.pop (H.bin node)
  let H := { H with bin := Function.update H.bin node bin }
  assert (0 < q.total)
  return ({ q with nodes := H, total := decSize q.total }, ret)

/-! ### Iteration -/

/-- `const_iterator`. -/
structure Iterator where
  isEnd : Bool
  curPos : ℕ
  startedCur : Bool
  sub : Option ℕ
  deriving DecidableEq, Repr

/-- The body of `advance`, which calls `operator++` again at the end of a leaf. -/
def advanceStep (q : BoundedPqueue C) (it : Iterator) : Exec (Iterator ⊕ Iterator) := do
  let leaf ← deref (q.leaves[it.curPos]?.join)
  let bin := q.nodes.bin leaf
  let sub ←
    if it.startedCur then do
      let cur ← deref it.sub
      Bin.iterNext bin cur
    else Bin.begin bin
  if sub = none then
    let it : Iterator := ⟨it.isEnd, it.curPos + 1, false, sub⟩
    if q.leaves.length ≤ it.curPos then
      return .inr { it with isEnd := true }
    else
      return .inl it
  else
    return .inr ⟨it.isEnd, it.curPos, true, sub⟩

/-- `advance`. -/
def advance (q : BoundedPqueue C) (it : Iterator) : Exec Iterator :=
  iterate q.advanceStep (q.leaves.length + 1) it

/-- `operator++`. -/
def increment (q : BoundedPqueue C) (it : Iterator) : Exec Iterator :=
  if it.isEnd then pure it else q.advance it

/-- `begin`. -/
def begin (q : BoundedPqueue C) : Exec Iterator := q.advance ⟨false, 0, false, none⟩

/-- `operator*`. -/
def current (q : BoundedPqueue C) (it : Iterator) : Exec T := do
  let leaf ← deref (q.leaves[it.curPos]?.join)
  let cur ← deref it.sub
  Bin.iterData (q.nodes.bin leaf) cur

/-- The elements from an iterator to the end, if there are at most `n`. -/
def elementsFrom (q : BoundedPqueue C) : ℕ → Iterator → Exec (List T)
  | n, it => do
    if it.isEnd then
      return []
    match n with
    | 0 => throw .diverge
    | n + 1 =>
      let el ← q.current it
      let it ← q.increment it
      let els ← elementsFrom q n it
      return el :: els

/-- The elements from `begin` to `end`. -/
def elements (q : BoundedPqueue C) : Exec (List T) := do
  let it ← q.begin
  q.elementsFrom q.size it

end BoundedPqueue

end Meld.Queue
