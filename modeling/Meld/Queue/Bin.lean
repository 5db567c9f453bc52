import Meld.Queue.SentinelQueue

/-!
# Bins

The containers that `bounded_pqueue` is used with, each with the memory of its nodes. `Bin` collects
the operations that the queue calls, and `LawfulBin` says that they are those of a list: the
elements come out as they went in, and an iteration visits them in this order.
-/

namespace Meld.Queue

open Lib QueueNodes

/-- The container `C` of a bounded queue. An iterator is a pointer to a node, null at the end. -/
class Bin (C : Type) (T : outParam Type) where
  new : C
  isEmpty : C → Bool
  push : C → T → Exec C
  pop : C → Exec (C × T)
  popList : C → List T → Exec (C × List T)
  begin : C → Exec (Option ℕ)
  iterNext : C → ℕ → Exec (Option ℕ)
  iterData : C → ℕ → Exec T

/-- From the iterator on, an iteration visits the elements. -/
def Visits {C T : Type} [Bin C T] (c : C) : Option ℕ → List T → Prop
  | it, [] => it = none
  | it, x :: xs => ∃ a it', it = some a ∧ Bin.iterData c a = .ok x ∧ Bin.iterNext c a = .ok it' ∧
      Visits c it' xs

/-- The operations of a container are those of a list. -/
class LawfulBin (C : Type) (T : outParam Type) extends Bin C T where
  Contents : C → List T → Prop
  new_contents : Contents new []
  isEmpty_iff {c : C} {xs : List T} (h : Contents c xs) : isEmpty c = true ↔ xs = []
  push_contents {c : C} {xs : List T} (h : Contents c xs) (el : T) :
    ∃ c', push c el = .ok c' ∧ Contents c' (xs ++ [el])
  pop_contents {c : C} {el : T} {xs : List T} (h : Contents c (el :: xs)) :
    ∃ c', pop c = .ok (c', el) ∧ Contents c' xs
  popList_contents {c : C} {xs : List T} (h : Contents c xs) (vec : List T) :
    ∃ c', popList c vec = .ok (c', vec ++ xs) ∧ Contents c' []
  begin_visits {c : C} {xs : List T} (h : Contents c xs) :
    ∃ it, begin c = .ok it ∧ Visits c it xs

variable {T : Type}

/-- An iteration along a chain of nodes visits their elements. -/
theorem visits_of_chain {C : Type} [Bin C T] {c : C} {N : QueueNodes T} {p : Option ℕ}
    {l : List ℕ} (hdata : ∀ a ∈ l, Bin.iterData c a = .ok (N.data a))
    (hnext : ∀ a ∈ l, Bin.iterNext c a = .ok (N.next a)) (h : Chain N.next p l) :
    Visits c p (l.map N.data) := by
  induction l generalizing p with
  | nil => exact h
  | cons a l ih =>
    exact ⟨a, N.next a, h.1, hdata a (by simp), hnext a (by simp),
      ih (fun x hx => hdata x (by simp [hx])) (fun x hx => hnext x (by simp [hx])) h.2⟩

/-- An `unsafe_linear_queue` and its nodes. -/
structure UnsafeBin (T : Type) where
  nodes : QueueNodes T
  queue : LinearQueue

instance [Inhabited T] : Bin (UnsafeBin T) T where
  new := ⟨QueueNodes.empty, .new⟩
  isEmpty c := c.queue.isEmpty
  push c el := do
    let (N, q) ← c.queue.push c.nodes el
    return ⟨N, q⟩
  pop c := do
    let (N, q, el) ← c.queue.pop c.nodes
    return (⟨N, q⟩, el)
  popList c vec := do
    let (N, q, vec) ← c.queue.popList c.nodes vec
    return (⟨N, q⟩, vec)
  begin c := pure c.queue.head
  iterNext c a := c.nodes.getNext a
  iterData c a := c.nodes.getData a

instance [Inhabited T] : LawfulBin (UnsafeBin T) T where
  Contents c xs := ∃ l, LinearQueue.Holds c.nodes c.queue l ∧ l.map c.nodes.data = xs
  new_contents := ⟨[], LinearQueue.Holds.new _, rfl⟩
  isEmpty_iff := by
    rintro c _ ⟨l, hl, rfl⟩
    rw [List.map_eq_nil_iff]
    exact hl.isEmpty_iff
  push_contents := by
    rintro c _ ⟨l, hl, rfl⟩ el
    obtain ⟨N', q', hrun, hres, hdata, -⟩ := hl.push el
    exact ⟨⟨N', q'⟩, by simp only [Bin.push, hrun, ok_bind, pure_eq_ok], _, hres, hdata⟩
  pop_contents := by
    rintro c el xs ⟨l, hl, hdata⟩
    obtain ⟨a, l, rfl, rfl, rfl⟩ := List.map_eq_cons_iff.mp hdata
    obtain ⟨N', q', hrun, hres, hdata', -⟩ := hl.pop
    exact ⟨⟨N', q'⟩, by simp only [Bin.pop, hrun, ok_bind, pure_eq_ok], l, hres, hdata'⟩
  popList_contents := by
    rintro c _ ⟨l, hl, rfl⟩ vec
    obtain ⟨N', hrun, -⟩ := hl.popList vec
    exact ⟨⟨N', .new⟩, by simp only [Bin.popList, hrun, ok_bind, pure_eq_ok], [],
      LinearQueue.Holds.new N', rfl⟩
  begin_visits := by
    rintro c _ ⟨l, hl, rfl⟩
    refine ⟨_, rfl, visits_of_chain (fun a ha => ?_) (fun a ha => ?_) hl.chain⟩
    · simp only [Bin.iterData, getData, Arena.check_of_live (hl.live a ha), ok_bind, pure_eq_ok]
    · simp only [Bin.iterNext, getNext, Arena.check_of_live (hl.live a ha), ok_bind, pure_eq_ok]

/-- A `push_safe_linear_queue` and its nodes. -/
structure PushSafeBin (T : Type) where
  nodes : QueueNodes T
  queue : SentinelQueue

instance [Inhabited T] : Bin (PushSafeBin T) T where
  new :=
    let (N, q) := SentinelQueue.new QueueNodes.empty
    ⟨N, q⟩
  isEmpty c := c.queue.isEmpty
  push c el := do
    let (N, q) ← PushSafe.push c.nodes c.queue el
    return ⟨N, q⟩
  pop c := do
    let (N, q, el) ← PushSafe.pop c.nodes c.queue
    return (⟨N, q⟩, el)
  popList c vec := do
    let (N, q, vec) ← PushSafe.popList c.nodes c.queue vec
    return (⟨N, q⟩, vec)
  begin c := c.nodes.getNext c.queue.head
  iterNext c a := c.nodes.getNext a
  iterData c a := c.nodes.getData a

instance [Inhabited T] : LawfulBin (PushSafeBin T) T where
  Contents c xs := ∃ l, SentinelQueue.Holds c.nodes c.queue l ∧ l.map c.nodes.data = xs
  new_contents := ⟨[], (SentinelQueue.Holds.new _).1, rfl⟩
  isEmpty_iff := by
    rintro c _ ⟨l, hl, rfl⟩
    rw [List.map_eq_nil_iff]
    exact hl.isEmpty_iff
  push_contents := by
    rintro c _ ⟨l, hl, rfl⟩ el
    obtain ⟨N', q', hrun, hres, -, hdata, -⟩ := PushSafe.push_spec hl el
    have hnew := next_notMem fun a ha => hl.live a (List.mem_cons_of_mem _ ha)
    exact ⟨⟨N', q'⟩, by simp only [Bin.push, hrun, ok_bind, pure_eq_ok], _, hres,
      by rw [hdata, map_data_concat hnew]⟩
  pop_contents := by
    rintro c el xs ⟨l, hl, hdata⟩
    obtain ⟨a, l, rfl, rfl, rfl⟩ := List.map_eq_cons_iff.mp hdata
    obtain ⟨N', q', hrun, hres, -, hdata', -⟩ := PushSafe.pop_spec hl
    exact ⟨⟨N', q'⟩, by simp only [Bin.pop, hrun, ok_bind, pure_eq_ok], l, hres, by rw [hdata']⟩
  popList_contents := by
    rintro c _ ⟨l, hl, rfl⟩ vec
    obtain ⟨N', q', hrun, hres, -⟩ := PushSafe.popList_spec hl vec
    exact ⟨⟨N', q'⟩, by simp only [Bin.popList, hrun, ok_bind, pure_eq_ok], [], hres, rfl⟩
  begin_visits := by
    rintro c _ ⟨l, hl, rfl⟩
    have hlive : ∀ a ∈ l, c.nodes.arena.check a = .ok () := fun a ha =>
      Arena.check_of_live (hl.live a (List.mem_cons_of_mem _ ha))
    refine ⟨c.nodes.next c.queue.head, ?_,
      visits_of_chain (fun a ha => ?_) (fun a ha => ?_) hl.chain.2⟩
    · simp only [Bin.begin, getNext, Arena.check_of_live (hl.live _ List.mem_cons_self), ok_bind,
        pure_eq_ok]
    · simp only [Bin.iterData, getData, hlive a ha, ok_bind, pure_eq_ok]
    · simp only [Bin.iterNext, getNext, hlive a ha, ok_bind, pure_eq_ok]

end Meld.Queue
