import Meld.Lib.Heap
import Meld.Lib.Loop
import Meld.Vm.Types

/-!
# The priority queue `heap_queue`

A queue of elements with priorities, kept as a binary heap in a vector. The program uses it for
the rules that a thread has to run and for the facts that wait at a node of the simulator.

A priority is a union of an integer and a double; the type of the queue says which of the two is
compared, and in which direction. An index is a signed 32-bit integer, so `left` and `right` wrap
around when the vector is too large for it.
-/

namespace Meld.Queue

open Lib Vm

/-! ### Priorities -/

/-- `heap_type`: which member of the union is compared, and whether small values come first. -/
inductive HeapType
  | intAsc
  | intDesc
  | floatAsc
  | floatDesc
  deriving DecidableEq, Repr

/-- `heap_priority`, a union of a signed 32-bit integer and a double, as the 64 bits it occupies. -/
structure HeapPriority where
  bits : UInt64
  deriving DecidableEq, Repr

/-- The member `int_priority`: the low 32 bits. -/
def HeapPriority.intPriority (p : HeapPriority) : ℤ := wrap32 p.bits.toNat

/-- The member `float_priority`. -/
def HeapPriority.floatPriority (p : HeapPriority) : UInt64 := p.bits

/-- A union whose integer member has been set. -/
def HeapPriority.ofInt (v : UInt32) : HeapPriority := ⟨v.toUInt64⟩

/-- The number that a double without a NaN stands for, up to scale and rounding: doubles of one
sign are ordered as their bits, and both zeros are the same. -/
def floatKey (x : UInt64) : ℤ :=
  if x.toNat < 2 ^ 63 then x.toNat else -(x.toNat - 2 ^ 63 : ℤ)

/-- `<=` on doubles. -/
def floatLe (x y : UInt64) : Bool :=
  !isNaN x && !isNaN y && decide (floatKey x ≤ floatKey y)

/-- `HEAP_COMPARE(HEAP_GET_PRIORITY(x), HEAP_GET_PRIORITY(y))`: `x` may stand before `y`. The
conversion of an integer priority to a double is exact, so integers are compared as they are. -/
def heapCompare (typ : HeapType) (x y : HeapPriority) : Bool :=
  match typ with
  | .intAsc => x.intPriority ≤ y.intPriority
  | .intDesc => x.intPriority ≥ y.intPriority
  | .floatAsc => floatLe x.floatPriority y.floatPriority
  | .floatDesc => floatLe y.floatPriority x.floatPriority

/-! ### The operations -/

/-- An element with its priority. -/
structure HeapObject (T : Type) where
  data : T
  val : HeapPriority
  deriving DecidableEq, Repr

/-- The queue: its type and the vector. -/
structure HeapQueue (T : Type) where
  typ : HeapType
  heap : List (HeapObject T)
  deriving DecidableEq, Repr

namespace HeapQueue

variable {T : Type}

/-- `heap_queue()` followed by `set_type(typ)`. -/
def new (typ : HeapType) : HeapQueue T := ⟨typ, []⟩

def empty (q : HeapQueue T) : Bool := q.heap.isEmpty

/-- The index of the left child, `-1` if there is none. -/
def left (q : HeapQueue T) (parent : ℤ) : ℤ :=
  let i := wrap32 (wrap32 (parent * 2) + 1)
  if i < wrap32 q.heap.length then i else -1

/-- The index of the right child, `-1` if there is none. -/
def right (q : HeapQueue T) (parent : ℤ) : ℤ :=
  let i := wrap32 (wrap32 (parent * 2) + 2)
  if i < wrap32 q.heap.length then i else -1

/-- The index of the parent, `-1` at the root. -/
def parent (child : ℤ) : ℤ := if child ≠ 0 then (child - 1) / 2 else -1

/-- `heap[i]`. -/
def get (q : HeapQueue T) (i : ℤ) : Exec (HeapObject T) :=
  if 0 ≤ i then deref q.heap[i.toNat]? else throw .dangling

/-- `HEAP_COMPARE` of the priorities of `heap[i]` and `heap[j]`. -/
def compareAt (q : HeapQueue T) (i j : ℤ) : Exec Bool := do
  let x ← q.get i
  let y ← q.get j
  return heapCompare q.typ x.val y.val

/-- `heap[i]` and `heap[j]` change places: the two `HEAP_SET_INDEX` of a move. -/
def swap (q : HeapQueue T) (i j : ℤ) : Exec (HeapQueue T) := do
  let obj ← q.get i
  let other ← q.get j
  return { q with heap := (q.heap.set i.toNat other).set j.toNat obj }

/-- The body of the loop of `heapifyup`. -/
def heapifyupStep (s : HeapQueue T × ℤ × Bool) :
    Exec ((HeapQueue T × ℤ × Bool) ⊕ (HeapQueue T × Bool)) := do
  let (q, index, moved) := s
  if 0 < index ∧ 0 ≤ parent index then
    if ← q.compareAt (parent index) index then
      return .inr (q, moved)
    else
      return .inl (← q.swap (parent index) index, parent index, true)
  else
    return .inr (q, moved)

/-- Moves the element at `index` up to its place; says whether it moved. -/
def heapifyup (q : HeapQueue T) (index : ℤ) : Exec (HeapQueue T × Bool) :=
  iterate heapifyupStep (q.heap.length + 1) (q, index, false)

/-- One call of `heapifydown`; the call at its end is the next step. -/
def heapifydownStep (s : HeapQueue T × ℤ) : Exec ((HeapQueue T × ℤ) ⊕ HeapQueue T) := do
  let (q, index) := s
  let l := q.left index
  let r := q.right index
  if ¬0 ≤ l ∧ ¬0 ≤ r then
    return .inr q
  let leftFirst ← if 0 ≤ l then q.compareAt index l else pure false
  let rightFirst ← if leftFirst ∧ 0 ≤ r then q.compareAt index r else pure leftFirst
  if leftFirst ∧ rightFirst then
    return .inr q
  let useRight ← if 0 ≤ r then q.compareAt r l else pure false
  let smaller := if useRight then r else l
  return .inl (← q.swap index smaller, smaller)

/-- Moves the element at `index` down to its place. -/
def heapifydown (q : HeapQueue T) (index : ℤ) : Exec (HeapQueue T) :=
  iterate heapifydownStep (q.heap.length + 1) (q, index)

/-- Adds an element. -/
def insert (q : HeapQueue T) (el : T) (prio : HeapPriority) : Exec (HeapQueue T) := do
  let q : HeapQueue T := { q with heap := q.heap ++ [⟨el, prio⟩] }
  let (q, _) ← q.heapifyup (wrap32 (q.heap.length - 1))
  return q

/-- Takes out the element at `index`; the last element takes its place. -/
def removeByIndex (q : HeapQueue T) (index : ℕ) : Exec (HeapQueue T) := do
  let _ ← deref q.heap[index]?
  let tmp ← deref q.heap.getLast?
  let q : HeapQueue T := { q with heap := q.heap.dropLast }
  if !q.empty ∧ index ≠ q.heap.length then
    heapifydown { q with heap := q.heap.set index tmp } (wrap32 index)
  else
    return q

/-- Where the search of `remove` is: the number of entries of the level, those that remain, and
whether `val` may stand before all entries of the level seen so far. -/
structure Search where
  index : ℕ
  shift : ℤ
  remain : ℤ
  all : Bool

/-- The body of the search of `remove`: it goes through the levels and takes the element for
absent when it may stand before all entries of a level. -/
def removeStep [DecidableEq T] (q : HeapQueue T) (val : T) (prio : HeapPriority) (s : Search) :
    Exec (Search ⊕ ℕ) := do
  if s.index < q.heap.length then
    let obj ← deref q.heap[s.index]?
    if obj.data = val then
      return .inr s.index
    let all := s.all && heapCompare q.typ prio obj.val
    let remain := wrap32 (s.remain - 1)
    if remain = 0 then
      assert (all = false)
      let shift := wrap32 (s.shift * 2)
      return .inl ⟨s.index + 1, shift, shift, true⟩
    else
      return .inl ⟨s.index + 1, s.shift, remain, all⟩
  else
    throw .assertion

/-- Takes out the element `val`, which was inserted with the priority `prio`. -/
def remove [DecidableEq T] (q : HeapQueue T) (val : T) (prio : HeapPriority) :
    Exec (HeapQueue T) := do
  let index ← iterate (removeStep q val prio) (q.heap.length + 1) ⟨0, 1, 1, true⟩
  q.removeByIndex index

def clear (q : HeapQueue T) : HeapQueue T := { q with heap := [] }

/-- The priority of the first element. -/
def minValue (q : HeapQueue T) : Exec HeapPriority := do
  assert (q.empty = false)
  let obj ← deref q.heap[0]?
  return obj.val

/-- Takes out the first element. -/
def pop (q : HeapQueue T) : Exec (HeapQueue T × T) := do
  let min ← deref q.heap[0]?
  let last ← deref q.heap.getLast?
  let q : HeapQueue T := { q with heap := (q.heap.set 0 last).dropLast }
  let q ← q.heapifydown 0
  return (q, min.data)

end HeapQueue

end Meld.Queue
