import Meld.Lib.Loop
import Meld.Queue.LinearQueue

/-!
# The queues with a sentinel

`push_safe_linear_queue`, to which several threads push, and `safe_linear_queue` keep one node more
than they have elements: the element of the head came out already, or is that of the constructor,
and `pop` makes the next node the head. The operations are taken one after the other here.

The first element is that of the node after the head, but `top` of `push_safe_linear_queue` returns
that of the head.
-/

namespace Meld.Queue

open Lib QueueNodes

variable {T : Type} {N N' : QueueNodes T} {l k : List ℕ} {a : ℕ} {el : T}

/-- The members of `push_safe_linear_queue` and of `safe_linear_queue`. -/
structure SentinelQueue where
  head : ℕ
  tail : ℕ
  total : ℕ

namespace SentinelQueue

/-- The constructors: a node without an element. -/
def new [Inhabited T] (N : QueueNodes T) : QueueNodes T × SentinelQueue :=
  let (N, head) := N.newNode default
  (N, ⟨head, head, 0⟩)

/-- `empty`. -/
def isEmpty (q : SentinelQueue) : Bool := q.head == q.tail

/-- `size`. -/
def size (q : SentinelQueue) : ℕ := q.total

/-- The nodes of the queue: the head, and those of the elements. -/
structure Holds (N : QueueNodes T) (q : SentinelQueue) (l : List ℕ) : Prop where
  chain : Chain N.next (some q.head) (q.head :: l)
  tail : (q.head :: l).getLast? = some q.tail
  nodup : (q.head :: l).Nodup
  live : ∀ a ∈ q.head :: l, N.arena.live a = true
  total : q.total = l.length

namespace Holds

variable {q : SentinelQueue}

theorem new [Inhabited T] (N : QueueNodes T) :
    Holds (new N).1 (SentinelQueue.new N).2 [] ∧
      (SentinelQueue.new N).1.data (SentinelQueue.new N).2.head = default ∧
      Framed N (SentinelQueue.new N).1 [] := by
  refine ⟨⟨⟨rfl, Function.update_self ..⟩, rfl, List.nodup_singleton _, fun a ha => ?_, rfl⟩,
    Function.update_self .., ?_⟩
  · rw [List.mem_singleton.mp ha]
    exact Arena.alloc_live_next
  · exact Framed.newNode N default

theorem isEmpty_iff (h : Holds N q l) : q.isEmpty = true ↔ l = [] := by
  have htail := h.tail
  rw [isEmpty, beq_iff_eq]
  cases l with
  | nil => simpa using htail
  | cons b l =>
    have hne : q.head ≠ q.tail := fun he => (List.nodup_cons.mp h.nodup).1 <|
      List.mem_of_getLast? (l := b :: l) (by simpa [he] using htail)
    simpa using hne

theorem next_head (h : Holds N q l) : N.next q.head = l.head? := h.chain.2.start

/-- Only the queue's own nodes matter. -/
theorem framed (h : Holds N q l) (hframe : Framed N N' k) (hdisj : (q.head :: l).Disjoint k) :
    Holds N' q l ∧ (q.head :: l).map N'.data = (q.head :: l).map N.data := by
  have hk : ∀ a ∈ q.head :: l, a ∉ k := fun a ha hak => hdisj ha hak
  exact ⟨⟨h.chain.congr fun a ha => hframe.next a (h.live a ha) (hk a ha), h.tail, h.nodup,
    fun a ha => hframe.live a (h.live a ha) (hk a ha), h.total⟩,
    List.map_congr_left fun a ha => hframe.data a (h.live a ha) (hk a ha)⟩

/-- The last node points at the first node of another list. -/
theorem append (h : Holds N q l) {b last : ℕ} (hchain : Chain N.next (some b) (b :: k))
    (hlast : (b :: k).getLast? = some last) (hnodup : (b :: k).Nodup)
    (hlive : ∀ x ∈ b :: k, N.arena.live x = true) (hdisj : (q.head :: l).Disjoint (b :: k)) :
    Holds { N with next := Function.update N.next q.tail (some b) }
      ⟨q.head, last, q.total + (b :: k).length⟩ (l ++ b :: k) := by
  have hmem : q.tail ∈ q.head :: l := List.mem_of_getLast? h.tail
  refine ⟨?_, ?_, ?_, fun a ha => ?_, by simp [h.total]⟩
  · have hk : Chain (Function.update N.next q.tail (some b)) (some b) (b :: k) :=
      hchain.congr fun x hx => by
        have hne : x ≠ q.tail := fun he => hdisj hmem (he ▸ hx)
        rw [Function.update_of_ne hne]
    have happ := h.chain.append hk h.nodup fun x _ => by
      simp only [h.tail, Function.update_apply, Option.some.injEq]
      exact if_congr eq_comm rfl rfl
    rwa [if_neg (List.cons_ne_nil _ _)] at happ
  · rw [← List.cons_append, List.getLast?_append, hlast]
    rfl
  · rw [← List.cons_append]
    exact List.nodup_append.mpr ⟨h.nodup, hnodup, fun x hx y hy he => hdisj hx (he ▸ hy)⟩
  · rw [← List.cons_append] at ha
    exact (List.mem_append.mp ha).elim (h.live a) (hlive a)

/-- The head goes and the next node takes its place. -/
theorem popFront (h : Holds N q (a :: l)) :
    Holds { N with arena := N.arena.free q.head } ⟨a, q.tail, decSize q.total⟩ l := by
  have hnodup := List.nodup_cons.mp h.nodup
  refine ⟨⟨rfl, h.chain.2.2⟩, by simpa using h.tail, hnodup.2, fun x hx => ?_, ?_⟩
  · have hne : x ≠ q.head := fun he => hnodup.1 (he ▸ hx)
    exact (if_neg hne).trans (h.live x (List.mem_cons_of_mem _ hx))
  · simp [h.total, decSize]

end Holds

end SentinelQueue

open SentinelQueue

/-! ### `push_safe_linear_queue` -/

namespace PushSafe

/-- The loop that the new nodes are appended with, when no other thread is at work. -/
def appendStep (qhead qtail : ℕ) (s : QueueNodes T × SentinelQueue) :
    Exec ((QueueNodes T × SentinelQueue) ⊕ (QueueNodes T × SentinelQueue)) := do
  let (N, q) := s
  let last := q.tail
  let next ← N.getNext last
  match next with
  | none =>
    let N ← N.setNext last (some qhead)
    return .inr (N, { q with tail := qtail })
  | some next => return .inl (N, { q with tail := next })

/-- `push_node`. -/
def pushNode (N : QueueNodes T) (q : SentinelQueue) (newNode : ℕ) :
    Exec (QueueNodes T × SentinelQueue) :=
  iterate (appendStep newNode newNode) N.arena.next (N, { q with total := q.total + 1 })

/-- `splice_headtail`. -/
def spliceHeadtail (N : QueueNodes T) (q : SentinelQueue) (qhead qtail : ℕ) :
    Exec (QueueNodes T × SentinelQueue) :=
  iterate (appendStep qhead qtail) N.arena.next (N, q)

/-- `push`. -/
def push (N : QueueNodes T) (q : SentinelQueue) (el : T) :
    Exec (QueueNodes T × SentinelQueue) := do
  let (N, newNode) := N.newNode el
  pushNode N q newNode

/-- `top`. -/
def top (N : QueueNodes T) (q : SentinelQueue) : Exec T := do
  let next ← N.getNext q.head
  assert (next ≠ none)
  N.getData q.head

/-- `pop`. -/
def pop (N : QueueNodes T) (q : SentinelQueue) : Exec (QueueNodes T × SentinelQueue × T) := do
  let q := { q with total := decSize q.total }
  let next ← N.getNext q.head
  assert (next ≠ none)
  let take ← deref next
  let N ← N.delete q.head
  let el ← N.getData take
  return (N, { q with head := take }, el)

/-- The body of the loop of `pop_list`. -/
def popListStep (s : QueueNodes T × SentinelQueue × List T) :
    Exec ((QueueNodes T × SentinelQueue × List T) ⊕ (QueueNodes T × SentinelQueue × List T)) := do
  let (N, q, vec) := s
  if q.isEmpty then
    return .inr (N, { q with total := 0 }, vec)
  else
    let take ← deref (← N.getNext q.head)
    let el ← N.getData take
    let N ← N.delete q.head
    return .inl (N, { q with head := take }, vec ++ [el])

/-- `pop_list`. -/
def popList (N : QueueNodes T) (q : SentinelQueue) (vec : List T) :
    Exec (QueueNodes T × SentinelQueue × List T) :=
  iterate popListStep N.arena.next (N, q, vec)

/-- `splice`, of a queue with elements. -/
def splice (N : QueueNodes T) (q : SentinelQueue) (other : LinearQueue) :
    Exec (QueueNodes T × SentinelQueue) := do
  assert (0 < other.size)
  assert (other.isEmpty = false)
  let q := { q with total := q.total + other.size }
  let qhead ← deref other.head
  let qtail ← deref other.tail
  spliceHeadtail N q qhead qtail

section

variable {q : SentinelQueue}

/-- The loop appends the nodes to the last one. -/
theorem append_spec (h : Holds N q l) {b last r : ℕ} (hchain : Chain N.next (some b) (b :: k))
    (hlast : (b :: k).getLast? = some last) (hnodup : (b :: k).Nodup)
    (hlive : ∀ x ∈ b :: k, N.arena.live x = true) (hdisj : (q.head :: l).Disjoint (b :: k))
    (hr : q.total + (b :: k).length = r) :
    ∃ N' q', iterate (appendStep b last) N.arena.next (N, { q with total := r }) = .ok (N', q') ∧
      Holds N' q' (l ++ b :: k) ∧ q'.head = q.head ∧ N'.data = N.data ∧
      Framed N N' (q.head :: l) := by
  have hmem : q.tail ∈ q.head :: l := List.mem_of_getLast? h.tail
  have hcheck := Arena.check_of_live (h.live _ hmem)
  have hnext : N.next q.tail = none := h.chain.next_last h.tail
  obtain ⟨n, hn⟩ : ∃ n, N.arena.next = n + 1 :=
    Nat.exists_eq_succ_of_ne_zero (Nat.ne_of_gt (Nat.zero_lt_of_lt (Arena.lt_next (h.live _ hmem))))
  refine ⟨_, _, ?_, h.append hchain hlast hnodup hlive hdisj, rfl, rfl, ?_⟩
  · rw [hn, iterate]
    simp only [appendStep, getNext, setNext, hcheck, ok_bind, pure_eq_ok, hnext, hr]
  · refine ⟨fun _ ha _ => ha, fun _ _ _ => rfl, fun x _ hx => ?_⟩
    have hne : x ≠ q.tail := fun he => hx (he ▸ hmem)
    exact Function.update_of_ne hne _ _

/-- `push` appends the element. -/
theorem push_spec (h : Holds N q l) (el : T) :
    ∃ N' q', push N q el = .ok (N', q') ∧ Holds N' q' (l ++ [N.arena.next]) ∧ q'.head = q.head ∧
      N'.data = Function.update N.data N.arena.next el ∧ Framed N N' (q.head :: l) := by
  have hnew := next_notMem h.live
  have hframe := Framed.newNode N el
  have hlive : ∀ x ∈ [N.arena.next], (N.newNode el).1.arena.live x = true := fun x hx => by
    rw [List.mem_singleton.mp hx]
    exact Arena.alloc_live_next
  obtain ⟨N', q', hrun, hres, hhead, hdata, hframe'⟩ := append_spec (k := [])
    (h.framed hframe (by simp)).1 (b := N.arena.next) ⟨rfl, Function.update_self ..⟩ rfl
    (List.nodup_singleton _) hlive (List.disjoint_singleton.mpr hnew) rfl
  exact ⟨N', q', hrun, hres, hhead, hdata, (hframe.mono (by simp)).trans hframe'⟩

/-- `pop` takes the front element. -/
theorem pop_spec (h : Holds N q (a :: l)) :
    ∃ N' q', pop N q = .ok (N', q', N.data a) ∧ Holds N' q' l ∧ q'.head = a ∧ N'.data = N.data ∧
      Framed N N' (q.head :: a :: l) := by
  have hcheck := Arena.check_of_live (h.live q.head (by simp))
  have hne : a ≠ q.head := fun he => (List.nodup_cons.mp h.nodup).1 (by simp [he])
  have hcheck' : (N.arena.free q.head).check a = .ok () :=
    Arena.check_of_live ((if_neg hne).trans (h.live a (by simp)))
  refine ⟨_, _, ?_, h.popFront, rfl, rfl, Framed.delete (by simp)⟩
  simp only [pop, getNext, getData, delete, hcheck, hcheck', ok_bind, pure_eq_ok, h.next_head,
    List.head?_cons, deref_some, assert_pos, ne_eq, reduceCtorEq, not_false_eq_true]

/-- The loop of `pop_list`, whatever the size is. -/
theorem popListLoop_spec (h : Holds N q l) (vec : List T) {n : ℕ} (hn : l.length < n) (r : ℕ) :
    ∃ N' q', iterate popListStep n (N, { q with total := r }, vec) =
        .ok (N', q', vec ++ l.map N.data) ∧ Holds N' q' [] ∧
      some q'.head = (q.head :: l).getLast? ∧ N'.data = N.data ∧ Framed N N' (q.head :: l) := by
  induction l generalizing N q n vec with
  | nil =>
    obtain ⟨n, rfl⟩ : ∃ m, n = m + 1 := ⟨n - 1, by omega⟩
    have hempty : isEmpty { q with total := r } = true := h.isEmpty_iff.mpr rfl
    refine ⟨N, { q with total := 0 }, ?_, ⟨h.chain, h.tail, h.nodup, h.live, rfl⟩, rfl, rfl,
      .refl N _⟩
    simp [iterate, popListStep, hempty]
  | cons a l ih =>
    obtain ⟨n, rfl⟩ : ∃ m, n = m + 1 := ⟨n - 1, by omega⟩
    have hempty : ¬isEmpty { q with total := r } = true :=
      mt h.isEmpty_iff.mp (List.cons_ne_nil a l)
    have hcheck := Arena.check_of_live (h.live q.head (by simp))
    have hcheck' := Arena.check_of_live (h.live a (by simp))
    obtain ⟨N', q', hrun, hres, hlast, hdata, hframe⟩ := ih h.popFront (vec ++ [N.data a]) (n := n)
      (by simpa using hn)
    refine ⟨N', q', ?_, hres, by simpa using hlast, hdata,
      (Framed.delete (by simp)).trans (hframe.mono fun x hx => by simp_all)⟩
    rw [iterate]
    simp only [popListStep, if_neg hempty, getNext, getData, delete, hcheck, hcheck', ok_bind,
      pure_eq_ok, h.next_head, List.head?_cons, deref_some]
    simpa using hrun

/-- `pop_list` takes all elements in order. -/
theorem popList_spec (h : Holds N q l) (vec : List T) :
    ∃ N' q', popList N q vec = .ok (N', q', vec ++ l.map N.data) ∧ Holds N' q' [] ∧
      some q'.head = (q.head :: l).getLast? ∧ N'.data = N.data ∧ Framed N N' (q.head :: l) := by
  have hlen := length_le_of_nodup_of_lt h.nodup fun a ha => Arena.lt_next (h.live a ha)
  rw [List.length_cons] at hlen
  exact popListLoop_spec h vec hlen q.total

/-- `splice` appends the elements of the other queue. -/
theorem splice_spec {u : LinearQueue} (h : Holds N q l) (hu : u.Holds N k) (hk : k ≠ [])
    (hdisj : (q.head :: l).Disjoint k) :
    ∃ N' q', splice N q u = .ok (N', q') ∧ Holds N' q' (l ++ k) ∧ q'.head = q.head ∧
      N'.data = N.data ∧ Framed N N' (q.head :: l) := by
  obtain ⟨b, k, rfl⟩ := List.exists_cons_of_ne_nil hk
  obtain ⟨last, hlast⟩ : ∃ last, (b :: k).getLast? = some last := by simp [List.getLast?_cons]
  have hhead : u.head = some b := hu.chain.1
  have htail : u.tail = some last := hu.tail.trans hlast
  have hsize : 0 < u.size := by simp [LinearQueue.size, hu.total]
  have hempty : u.isEmpty = false := by simp [LinearQueue.isEmpty, hhead]
  have hchain : Chain N.next (some b) (b :: k) := hhead ▸ hu.chain
  obtain ⟨N', q', hrun, hres⟩ := append_spec h hchain hlast hu.nodup hu.live hdisj rfl
  refine ⟨N', q', ?_, hres⟩
  simp only [splice, spliceHeadtail, hhead, htail, deref_some, ok_bind, assert_pos hempty,
     LinearQueue.size, hu.total]
  exact hrun

/-- `top` returns the element of the head. -/
theorem top_spec (h : Holds N q l) (hl : l ≠ []) : top N q = .ok (N.data q.head) := by
  have hcheck := Arena.check_of_live (h.live q.head (by simp))
  have hnext : l.head? ≠ none := mt List.head?_eq_none_iff.mp hl
  simp only [top, getNext, getData, hcheck, ok_bind, pure_eq_ok, h.next_head, assert_pos hnext]

end

end PushSafe

/-! ### `safe_linear_queue` -/

namespace SafeLinear

/-- `push_node`. -/
def pushNode (N : QueueNodes T) (q : SentinelQueue) (newNode : ℕ) :
    Exec (QueueNodes T × SentinelQueue) := do
  let q := { q with total := q.total + 1 }
  let N ← N.setNext q.tail (some newNode)
  let q := { q with tail := newNode }
  let next ← N.getNext q.tail
  assert (next = none)
  return (N, q)

/-- `push`. -/
def push (N : QueueNodes T) (q : SentinelQueue) (el : T) :
    Exec (QueueNodes T × SentinelQueue) := do
  let (N, newNode) := N.newNode el
  pushNode N q newNode

/-- `pop`, which returns nothing when it says false. -/
def pop (N : QueueNodes T) (q : SentinelQueue) :
    Exec (QueueNodes T × SentinelQueue × Option T) := do
  if q.isEmpty then
    return (N, q, none)
  let next ← N.getNext q.head
  assert (next ≠ none)
  let take ← deref next
  let N ← N.delete q.head
  let el ← N.getData take
  return (N, { q with head := take, total := decSize q.total }, some el)

/-- `pop_if_not_empty`, which returns nothing when it says false. -/
def popIfNotEmpty (N : QueueNodes T) (q : SentinelQueue) :
    Exec (QueueNodes T × SentinelQueue × Option T) := do
  if q.isEmpty then
    return (N, q, none)
  let next ← N.getNext q.head
  assert (next ≠ none)
  let take ← deref next
  if (← N.getNext take) = none then
    return (N, q, none)
  let N ← N.delete q.head
  let el ← N.getData take
  return (N, { q with head := take, total := decSize q.total }, some el)

section

variable {q : SentinelQueue}

/-- `push` appends the element. -/
theorem push_spec (h : Holds N q l) (el : T) :
    ∃ N' q', push N q el = .ok (N', q') ∧ Holds N' q' (l ++ [N.arena.next]) ∧
      N'.data = Function.update N.data N.arena.next el := by
  have hnew := next_notMem h.live
  have hmem : q.tail ∈ q.head :: l := List.mem_of_getLast? h.tail
  have hne : N.arena.next ≠ q.tail := fun he => hnew (he ▸ hmem)
  have hlive : ∀ x ∈ [N.arena.next], (N.newNode el).1.arena.live x = true := fun x hx => by
    rw [List.mem_singleton.mp hx]
    exact Arena.alloc_live_next
  have hchain : Chain (N.newNode el).1.next (some N.arena.next) [N.arena.next] :=
    ⟨rfl, Function.update_self ..⟩
  have hres := (h.framed (Framed.newNode N el) (by simp)).1.append hchain rfl
    (List.nodup_singleton _) hlive (List.disjoint_singleton.mpr hnew)
  have hcheck : N.arena.alloc.check q.tail = .ok () :=
    Arena.check_of_live (Arena.alloc_live_of_live (h.live _ hmem))
  have hcheck' : N.arena.alloc.check N.arena.next = .ok () :=
    Arena.check_of_live Arena.alloc_live_next
  refine ⟨_, _, ?_, hres, rfl⟩
  simp only [push, pushNode, newNode, setNext, getNext, hcheck, hcheck', ok_bind, pure_eq_ok,
    Function.update_of_ne hne, Function.update_self, assert_pos]
  rfl

/-- `pop` takes the front element. -/
theorem pop_spec (h : Holds N q l) :
    ∃ N' q', pop N q = .ok (N', q', l.head?.map N.data) ∧ Holds N' q' l.tail ∧
      N'.data = N.data := by
  cases l with
  | nil =>
    have hempty : q.isEmpty = true := h.isEmpty_iff.mpr rfl
    exact ⟨N, q, by rw [pop, if_pos hempty]; rfl, h, rfl⟩
  | cons a l =>
    have hempty : ¬q.isEmpty = true := mt h.isEmpty_iff.mp (List.cons_ne_nil a l)
    have hcheck := Arena.check_of_live (h.live q.head (by simp))
    have hne : a ≠ q.head := fun he => (List.nodup_cons.mp h.nodup).1 (by simp [he])
    have hcheck' : (N.arena.free q.head).check a = .ok () :=
      Arena.check_of_live ((if_neg hne).trans (h.live a (by simp)))
    refine ⟨_, _, ?_, h.popFront, rfl⟩
    simp only [pop, if_neg hempty, getNext, getData, delete, hcheck, hcheck', ok_bind, pure_eq_ok,
      h.next_head, List.head?_cons, deref_some, assert_pos, ne_eq, reduceCtorEq,
      not_false_eq_true, Option.map_some]

/-- `pop_if_not_empty` takes the front element of two or more. -/
theorem popIfNotEmpty_spec {b : ℕ} (h : Holds N q (a :: b :: l)) :
    ∃ N' q', popIfNotEmpty N q = .ok (N', q', some (N.data a)) ∧ Holds N' q' (b :: l) ∧
      N'.data = N.data := by
  have hempty : ¬q.isEmpty = true := mt h.isEmpty_iff.mp (List.cons_ne_nil a _)
  have hcheck := Arena.check_of_live (h.live q.head (by simp))
  have hcheck₁ := Arena.check_of_live (h.live a (by simp))
  have hne : a ≠ q.head := fun he => (List.nodup_cons.mp h.nodup).1 (by simp [he])
  have hcheck₂ : (N.arena.free q.head).check a = .ok () :=
    Arena.check_of_live ((if_neg hne).trans (h.live a (by simp)))
  have hnext : N.next a = some b := h.chain.2.2.start
  refine ⟨_, _, ?_, h.popFront, rfl⟩
  simp only [popIfNotEmpty, if_neg hempty, getNext, getData, delete, hcheck, hcheck₁, hcheck₂,
    ok_bind, pure_eq_ok, h.next_head, List.head?_cons, deref_some, hnext, assert_pos, ne_eq,
    reduceCtorEq, not_false_eq_true, if_false]

/-- With less than two elements `pop_if_not_empty` changes nothing. -/
theorem popIfNotEmpty_eq_of_lt (h : Holds N q l) (hl : l.length < 2) :
    popIfNotEmpty N q = .ok (N, q, none) := by
  cases l with
  | nil =>
    have hempty : q.isEmpty = true := h.isEmpty_iff.mpr rfl
    rw [popIfNotEmpty, if_pos hempty]
    rfl
  | cons a l =>
    obtain rfl : l = [] := List.length_eq_zero_iff.mp
      (by rw [List.length_cons] at hl; omega)
    have hempty : ¬q.isEmpty = true := mt h.isEmpty_iff.mp (List.cons_ne_nil a _)
    have hcheck := Arena.check_of_live (h.live q.head (by simp))
    have hcheck₁ := Arena.check_of_live (h.live a (by simp))
    have hnext : N.next a = none := h.chain.2.2
    simp only [popIfNotEmpty, if_neg hempty, getNext, hcheck, hcheck₁, ok_bind, pure_eq_ok,
      h.next_head, List.head?_cons, deref_some, hnext, assert_pos, ne_eq, reduceCtorEq,
      not_false_eq_true, if_true]

end

end SafeLinear

end Meld.Queue
