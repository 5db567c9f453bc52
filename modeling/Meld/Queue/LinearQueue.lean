import Meld.Lib.Arena
import Meld.Lib.Chain

/-!
# The linear queue

`unsafe_linear_queue` keeps its elements in singly linked nodes. The memory `QueueNodes` of the
nodes is shared by the queues that exchange nodes: `Holds` gives the addresses of the nodes of one
queue, and `Framed` says that an operation leaves all other nodes alone.
-/

namespace Meld.Queue

open Lib

/-- The objects of the classes `queue_node`, `special_queue_node` and `unsafe_queue_node`, which
have the same layout. -/
structure QueueNodes (T : Type) where
  arena : Arena
  data : ℕ → T
  next : ℕ → Option ℕ

namespace QueueNodes

variable {T : Type}

/-- No nodes. -/
def empty [Inhabited T] : QueueNodes T := ⟨Arena.empty, fun _ => default, fun _ => none⟩

/-- A new node with its element, and a null link. -/
def newNode (N : QueueNodes T) (el : T) : QueueNodes T × ℕ :=
  ({ arena := N.arena.alloc
     data := Function.update N.data N.arena.next el
     next := Function.update N.next N.arena.next none }, N.arena.next)

/-- `node->data`. -/
def getData (N : QueueNodes T) (a : ℕ) : Exec T := do
  N.arena.check a
  return N.data a

/-- `node->next`. -/
def getNext (N : QueueNodes T) (a : ℕ) : Exec (Option ℕ) := do
  N.arena.check a
  return N.next a

/-- `node->next = p`. -/
def setNext (N : QueueNodes T) (a : ℕ) (p : Option ℕ) : Exec (QueueNodes T) := do
  N.arena.check a
  return { N with next := Function.update N.next a p }

/-- `delete node`. -/
def delete (N : QueueNodes T) (a : ℕ) : Exec (QueueNodes T) := do
  N.arena.check a
  return { N with arena := N.arena.free a }

/-- The nodes outside `l` are as before. -/
structure Framed (N N' : QueueNodes T) (l : List ℕ) : Prop where
  live : ∀ a, N.arena.live a = true → a ∉ l → N'.arena.live a = true
  data : ∀ a, N.arena.live a = true → a ∉ l → N'.data a = N.data a
  next : ∀ a, N.arena.live a = true → a ∉ l → N'.next a = N.next a

theorem Framed.refl (N : QueueNodes T) (l : List ℕ) : Framed N N l :=
  ⟨fun _ h _ => h, fun _ _ _ => rfl, fun _ _ _ => rfl⟩

theorem Framed.trans {N N' N'' : QueueNodes T} {l : List ℕ} (h : Framed N N' l)
    (h' : Framed N' N'' l) : Framed N N'' l where
  live a ha hl := h'.live a (h.live a ha hl) hl
  data a ha hl := (h'.data a (h.live a ha hl) hl).trans (h.data a ha hl)
  next a ha hl := (h'.next a (h.live a ha hl) hl).trans (h.next a ha hl)

theorem Framed.mono {N N' : QueueNodes T} {l k : List ℕ} (h : Framed N N' l) (hk : l ⊆ k) :
    Framed N N' k where
  live a ha hl := h.live a ha fun hm => hl (hk hm)
  data a ha hl := h.data a ha fun hm => hl (hk hm)
  next a ha hl := h.next a ha fun hm => hl (hk hm)

/-- The address of a new node is new. -/
theorem next_notMem {N : QueueNodes T} {l : List ℕ} (h : ∀ a ∈ l, N.arena.live a = true) :
    N.arena.next ∉ l := fun hm => lt_irrefl _ (Arena.lt_next (h _ hm))

/-- The elements of the old nodes and of a new one. -/
theorem map_data_concat {N : QueueNodes T} {l : List ℕ} (h : N.arena.next ∉ l) (el : T) :
    (l ++ [N.arena.next]).map (Function.update N.data N.arena.next el) = l.map N.data ++ [el] := by
  have hold : ∀ x ∈ l, Function.update N.data N.arena.next el x = N.data x := fun x hx => by
    have hne : x ≠ N.arena.next := fun he => h (he ▸ hx)
    rw [Function.update_of_ne hne]
  rw [List.map_append, List.map_congr_left hold, List.map_singleton, Function.update_self]

/-- The memory with a new node that the node `p` points at. -/
def linkNew (N : QueueNodes T) (p : Option ℕ) (el : T) : QueueNodes T where
  arena := N.arena.alloc
  data := Function.update N.data N.arena.next el
  next := updateIfSome (Function.update N.next N.arena.next none) p (some N.arena.next)

@[simp] theorem linkNew_arena (N : QueueNodes T) (p : Option ℕ) (el : T) :
    (N.linkNew p el).arena = N.arena.alloc := rfl

@[simp] theorem linkNew_data (N : QueueNodes T) (p : Option ℕ) (el : T) :
    (N.linkNew p el).data = Function.update N.data N.arena.next el := rfl

theorem linkNew_next {N : QueueNodes T} {p : Option ℕ} {a : ℕ} (ha : a ≠ N.arena.next) (el : T) :
    (N.linkNew p el).next a = if p = some a then some N.arena.next else N.next a := by
  simp only [linkNew, updateIfSome_apply, Function.update_of_ne ha]

theorem linkNew_next_self {N : QueueNodes T} {p : Option ℕ} (hp : p ≠ some N.arena.next) (el : T) :
    (N.linkNew p el).next N.arena.next = none := by
  simp only [linkNew, updateIfSome_apply, if_neg hp, Function.update_self]

/-- A new node leaves the others alone, but for the one that points at it. -/
theorem Framed.linkNew {N : QueueNodes T} {l : List ℕ} {p : Option ℕ} (hp : ∀ a ∈ p, a ∈ l)
    (el : T) : Framed N (N.linkNew p el) l where
  live a ha _ := Arena.alloc_live_of_live ha
  data a ha _ := Function.update_of_ne (Nat.ne_of_lt (Arena.lt_next ha)) _ _
  next a ha hl := by
    have hpa : p ≠ some a := fun he => hl (hp a he)
    rw [linkNew_next (Nat.ne_of_lt (Arena.lt_next ha)), if_neg hpa]

theorem Framed.newNode (N : QueueNodes T) (el : T) : Framed N (N.newNode el).1 [] := by
  have hframe := Framed.linkNew (N := N) (p := none) (l := []) (by simp) el
  rwa [QueueNodes.linkNew, updateIfSome_none] at hframe

/-- Deleting a node of `l` leaves the other nodes alone. -/
theorem Framed.delete {N : QueueNodes T} {l : List ℕ} {b : ℕ} (hb : b ∈ l) :
    Framed N { N with arena := N.arena.free b } l where
  live a ha hl := by
    have hne : a ≠ b := fun he => hl (he ▸ hb)
    exact (if_neg hne).trans ha
  data _ _ _ := rfl
  next _ _ _ := rfl

end QueueNodes

open QueueNodes

variable {T : Type} {N N' : QueueNodes T} {l k : List ℕ} {a : ℕ} {el : T}

/-! ### `unsafe_linear_queue` -/

/-- `unsafe_linear_queue` and `unsafe_linear_queue_count`. -/
structure LinearQueue where
  head : Option ℕ
  tail : Option ℕ
  total : ℕ

namespace LinearQueue

/-- The constructor. -/
def new : LinearQueue := ⟨none, none, 0⟩

/-- `empty`. -/
def isEmpty (q : LinearQueue) : Bool := q.head.isNone

/-- `size`. -/
def size (q : LinearQueue) : ℕ := q.total

/-- `clear`, which leaves the nodes to another owner. -/
def clear (_ : LinearQueue) : LinearQueue := ⟨none, none, 0⟩

/-- `push`. -/
def push (N : QueueNodes T) (q : LinearQueue) (el : T) : Exec (QueueNodes T × LinearQueue) := do
  let (N, newNode) := N.newNode el
  if q.head = none then
    assert (q.tail = none)
    return (N, ⟨some newNode, some newNode, q.total + 1⟩)
  else
    let tail ← deref q.tail
    let N ← N.setNext tail (some newNode)
    return (N, { q with tail := some newNode, total := q.total + 1 })

/-- `pop`. -/
def pop (N : QueueNodes T) (q : LinearQueue) : Exec (QueueNodes T × LinearQueue × T) := do
  let q := { q with total := decSize q.total }
  let take ← deref q.head
  let next ← N.getNext take
  let q := if q.head = q.tail then { q with head := none, tail := none } else { q with head := next }
  assert (q.head ≠ some take)
  assert (next = q.head)
  let el ← N.getData take
  let N ← N.delete take
  return (N, q, el)

/-- The loop of `pop_list`. -/
def popListLoop : ℕ → QueueNodes T → Option ℕ → List T → Exec (QueueNodes T × List T)
  | _, N, none, vec => pure (N, vec)
  | 0, _, some _, _ => throw .diverge
  | n + 1, N, some head, vec => do
    let next ← N.getNext head
    let el ← N.getData head
    let N ← N.delete head
    popListLoop n N next (vec ++ [el])

/-- `pop_list`. -/
def popList (N : QueueNodes T) (q : LinearQueue) (vec : List T) :
    Exec (QueueNodes T × LinearQueue × List T) := do
  let (N, vec) ← popListLoop N.arena.next N q.head vec
  return (N, ⟨none, none, 0⟩, vec)

/-- `top`. -/
def top (N : QueueNodes T) (q : LinearQueue) : Exec T := do
  let head ← deref q.head
  N.getData head

/-- The nodes of the queue, front first. -/
structure Holds (N : QueueNodes T) (q : LinearQueue) (l : List ℕ) : Prop where
  chain : Chain N.next q.head l
  tail : q.tail = l.getLast?
  nodup : l.Nodup
  live : ∀ a ∈ l, N.arena.live a = true
  total : q.total = l.length

namespace Holds

variable {q : LinearQueue}

theorem new (N : QueueNodes T) : Holds N new [] := ⟨rfl, rfl, List.nodup_nil, by simp, rfl⟩

theorem isEmpty_iff (h : Holds N q l) : q.isEmpty = true ↔ l = [] := by
  rw [isEmpty, h.chain.start]
  cases l <;> simp

/-- Only the queue's own nodes matter. -/
theorem framed (h : Holds N q l) (hframe : Framed N N' k) (hdisj : l.Disjoint k) :
    Holds N' q l ∧ l.map N'.data = l.map N.data := by
  have hk : ∀ a ∈ l, a ∉ k := fun a ha hak => hdisj ha hak
  refine ⟨⟨h.chain.congr fun a ha => hframe.next a (h.live a ha) (hk a ha), h.tail, h.nodup,
    fun a ha => hframe.live a (h.live a ha) (hk a ha), h.total⟩,
    List.map_congr_left fun a ha => hframe.data a (h.live a ha) (hk a ha)⟩

/-- `push` appends the element. -/
theorem push (h : Holds N q l) (el : T) :
    ∃ N' q', q.push N el = .ok (N', q') ∧ Holds N' q' (l ++ [N.arena.next]) ∧
      (l ++ [N.arena.next]).map N'.data = l.map N.data ++ [el] ∧ Framed N N' l := by
  have hnew := next_notMem h.live
  have htail : ∀ a ∈ q.tail, a ∈ l := fun a ha => List.mem_of_getLast? (h.tail ▸ ha)
  refine ⟨N.linkNew q.tail el, ⟨if l = [] then some N.arena.next else q.head, some N.arena.next, q.total + 1⟩, ?_, ?_,
    map_data_concat hnew el, Framed.linkNew htail el⟩
  · simp only [LinearQueue.push, newNode]
    rcases List.eq_nil_or_concat l with rfl | ⟨k, b, rfl⟩
    · have hhead : q.head = none := h.chain.start
      have htail : q.tail = none := h.tail
      rw [if_pos hhead, assert_pos htail, htail, linkNew, updateIfSome_none]
      rfl
    · rw [List.concat_eq_append] at h ⊢
      have hhead : q.head ≠ none := by
        rw [h.chain.start]
        simp
      have htail : q.tail = some b := by rw [h.tail, List.getLast?_concat]
      have hlive : N.arena.alloc.live b = true := Arena.alloc_live_of_live (h.live b (by simp))
      rw [if_neg hhead, htail, deref_some, ok_bind, setNext, Arena.check_of_live hlive, ok_bind,
        linkNew, updateIfSome_some]
      simp
  · refine ⟨?_, by simp, ?_, fun a ha => ?_, by simp [h.total]⟩
    · refine h.chain.snoc h.nodup ?_ fun x hx => ?_
      · have hne : q.tail ≠ some N.arena.next := fun he => hnew (htail _ he)
        exact linkNew_next_self hne el
      · have hne : x ≠ N.arena.next := fun he => hnew (he ▸ hx)
        rw [linkNew_next hne, h.tail]
    · have hne : ∀ x ∈ l, x ≠ N.arena.next := fun x hx he => hnew (he ▸ hx)
      exact List.nodup_append.mpr ⟨h.nodup, List.nodup_singleton _, by simpa using hne⟩
    · rcases List.mem_append.mp ha with ha | ha
      · exact Arena.alloc_live_of_live (h.live a ha)
      · rw [List.mem_singleton.mp ha]
        exact Arena.alloc_live_next

/-- `pop` takes the front element. -/
theorem pop (h : Holds N q (a :: l)) :
    ∃ N' q', q.pop N = .ok (N', q', N.data a) ∧ Holds N' q' l ∧ l.map N'.data = l.map N.data ∧
      Framed N N' (a :: l) := by
  have hhead : q.head = some a := h.chain.start
  have hnext : N.next a = l.head? := h.chain.2.start
  have hnodup := List.nodup_cons.mp h.nodup
  have hlive := Arena.check_of_live (h.live a (by simp))
  have hends : some a = q.tail ↔ l = [] := by
    rw [h.tail]
    cases l with
    | nil => simp
    | cons b l =>
      have hne : some a ≠ (a :: b :: l).getLast? := fun he => hnodup.1 <|
        List.mem_of_getLast? (l := b :: l) (by simpa using he.symm)
      simpa using hne
  have hfirst : l.head? ≠ some a := fun he => hnodup.1 (List.mem_of_head? he)
  refine ⟨{ N with arena := N.arena.free a }, ⟨l.head?, l.getLast?, decSize q.total⟩, ?_, ?_, rfl,
    Framed.delete (by simp)⟩
  · have hq : (if some a = q.tail then (⟨none, none, decSize q.total⟩ : LinearQueue)
        else ⟨l.head?, q.tail, decSize q.total⟩) = ⟨l.head?, l.getLast?, decSize q.total⟩ := by
      by_cases hl : l = []
      · rw [if_pos (hends.mpr hl), hl]
        rfl
      · obtain ⟨b, l, rfl⟩ := List.exists_cons_of_ne_nil hl
        rw [if_neg (mt hends.mp hl), h.tail]
        simp
    simp only [LinearQueue.pop, hhead, deref_some, ok_bind, getNext, hlive, hnext, hq, pure_eq_ok,
      assert_pos hfirst, assert_pos, getData, delete]
  · refine ⟨h.chain.2.start ▸ h.chain.2, rfl, hnodup.2, fun x hx => ?_, ?_⟩
    · have hne : x ≠ a := fun he => hnodup.1 (he ▸ hx)
      exact (if_neg hne).trans (h.live x (by simp [hx]))
    · simp [h.total, decSize]

/-- The loop of `pop_list` takes the elements one after the other. -/
theorem popListLoop_eq {n : ℕ} {p : Option ℕ} (vec : List T) (hchain : Chain N.next p l)
    (hnodup : l.Nodup) (hlive : ∀ a ∈ l, N.arena.live a = true) (hn : l.length ≤ n) :
    ∃ N', popListLoop n N p vec = .ok (N', vec ++ l.map N.data) ∧ Framed N N' l := by
  induction l generalizing N n p vec with
  | nil =>
    obtain rfl := Chain.nil.mp hchain
    exact ⟨N, by simp [popListLoop], .refl N []⟩
  | cons a l ih =>
    obtain ⟨rfl, hchain⟩ := hchain
    obtain ⟨n, rfl⟩ : ∃ m, n = m + 1 := ⟨n - 1, by simp at hn; omega⟩
    have hnodup := List.nodup_cons.mp hnodup
    have hcheck := Arena.check_of_live (hlive a (by simp))
    have hlive' : ∀ x ∈ l, (N.arena.free a).live x = true := fun x hx => by
      have hne : x ≠ a := fun he => hnodup.1 (he ▸ hx)
      exact (if_neg hne).trans (hlive x (by simp [hx]))
    obtain ⟨N', hrun, hframe⟩ := ih (N := { N with arena := N.arena.free a })
      (vec ++ [N.data a]) hchain hnodup.2 hlive' (by simpa using hn)
    refine ⟨N', ?_, (Framed.delete (by simp)).trans (hframe.mono fun x hx => by simp [hx])⟩
    simp only [popListLoop, getNext, getData, delete, hcheck, ok_bind, pure_eq_ok]
    simpa using hrun

/-- `pop_list` takes all elements in order. -/
theorem popList (h : Holds N q l) (vec : List T) :
    ∃ N', q.popList N vec = .ok (N', LinearQueue.new, vec ++ l.map N.data) ∧ Framed N N' l := by
  have hlen := length_le_of_nodup_of_lt h.nodup fun a ha => Arena.lt_next (h.live a ha)
  obtain ⟨N', hrun, hframe⟩ := popListLoop_eq vec h.chain h.nodup h.live hlen
  exact ⟨N', by rw [LinearQueue.popList, hrun]; rfl, hframe⟩

end Holds

end LinearQueue

end Meld.Queue
