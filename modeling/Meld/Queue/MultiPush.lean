import Meld.Queue.SentinelQueue

/-!
# The multi-push queue as a FIFO

`push_safe_linear_queue` next to an `unsafe_linear_queue` that is filled on the side and spliced.
`Fifo` is what both are for, with the element that came out last. A run of the queues has the
results of the same run of the lists, and `empty` tells whether all elements came out; `top` returns
the element that came out last in place of the first one.
-/

namespace Meld.Queue.PushSafe

open Lib QueueNodes

variable {T : Type}

/-- The queue, a queue on the side, and their memory. -/
structure State (T : Type) where
  nodes : QueueNodes T
  queue : SentinelQueue
  side : LinearQueue

/-- Two new queues. -/
def State.new [Inhabited T] (N : QueueNodes T) : State T :=
  let (N, q) := SentinelQueue.new N
  ⟨N, q, .new⟩

/-- The operations. `fill` pushes to the queue on the side. -/
inductive Op (T : Type)
  | push (el : T)
  | pop
  | popList
  | fill (el : T)
  | splice
  deriving DecidableEq, Repr

/-- What an operation does, and the elements that come out. The queue on the side is cleared once
it has been spliced. -/
def Op.run (s : State T) : Op T → Exec (State T × List T)
  | push el => do
    let (N, q) ← PushSafe.push s.nodes s.queue el
    return (⟨N, q, s.side⟩, [])
  | pop => do
    let (N, q, el) ← PushSafe.pop s.nodes s.queue
    return (⟨N, q, s.side⟩, [el])
  | popList => do
    let (N, q, vec) ← PushSafe.popList s.nodes s.queue []
    return (⟨N, q, s.side⟩, vec)
  | fill el => do
    let (N, u) ← s.side.push s.nodes el
    return (⟨N, s.queue, u⟩, [])
  | splice => do
    let (N, q) ← PushSafe.splice s.nodes s.queue s.side
    return (⟨N, q, s.side.clear⟩, [])

/-- The operations one after the other, and the elements that come out. -/
def State.runAll (s : State T) : List (Op T) → Exec (State T × List T)
  | [] => pure (s, [])
  | op :: ops => do
    let (s, out) ← op.run s
    let (s, outs) ← runAll s ops
    return (s, out ++ outs)

/-! ### The lists -/

/-- The elements of the two queues, and the one that came out last. -/
structure Fifo (T : Type) where
  queue : List T
  side : List T
  last : T

/-- Nothing came out yet. -/
def Fifo.new [Inhabited T] : Fifo T := ⟨[], [], default⟩

/-- What an operation does to the lists. -/
def Op.effect (f : Fifo T) : Op T → Fifo T × List T
  | push el => ({ f with queue := f.queue ++ [el] }, [])
  | pop => ({ f with queue := f.queue.tail, last := f.queue.headD f.last }, f.queue.head?.toList)
  | popList => ({ f with queue := [], last := f.queue.getLastD f.last }, f.queue)
  | fill el => ({ f with side := f.side ++ [el] }, [])
  | splice => ({ f with queue := f.queue ++ f.side, side := [] }, [])

/-- `pop` takes from a queue with elements, and such a queue is spliced. -/
def Op.Legal (f : Fifo T) : Op T → Prop
  | pop => f.queue ≠ []
  | splice => f.side ≠ []
  | _ => True

/-- The same run on the lists. -/
def Fifo.runAll (f : Fifo T) : List (Op T) → Fifo T × List T
  | [] => (f, [])
  | op :: ops =>
    let (f, out) := op.effect f
    let (f, outs) := runAll f ops
    (f, out ++ outs)

/-- Every operation is legal where it is done. -/
def Fifo.LegalRun (f : Fifo T) : List (Op T) → Prop
  | [] => True
  | op :: ops => op.Legal f ∧ LegalRun (op.effect f).1 ops

/-! ### The refinement -/

/-- The queues hold the lists, in nodes `l` and `k` of their own. -/
structure Holds (s : State T) (f : Fifo T) (l k : List ℕ) : Prop where
  queue : SentinelQueue.Holds s.nodes s.queue l
  side : LinearQueue.Holds s.nodes s.side k
  disjoint : (s.queue.head :: l).Disjoint k
  queue_data : l.map s.nodes.data = f.queue
  side_data : k.map s.nodes.data = f.side
  last : s.nodes.data s.queue.head = f.last

variable {s : State T} {f : Fifo T} {l k : List ℕ}

theorem Holds.new [Inhabited T] (N : QueueNodes T) : Holds (.new N) (.new : Fifo T) [] [] := by
  obtain ⟨hq, hdata, -⟩ := SentinelQueue.Holds.new N
  exact ⟨hq, LinearQueue.Holds.new _, List.disjoint_nil_right _, rfl, rfl, hdata⟩

theorem Holds.push (h : Holds s f l k) (el : T) :
    ∃ s' l', Op.run s (.push el) = .ok (s', []) ∧ Holds s' (Op.effect f (.push el)).1 l' k := by
  obtain ⟨N', q', hrun, hq, hhead, hdata, hframe⟩ := push_spec h.queue el
  obtain ⟨hside, hdata'⟩ := h.side.framed hframe (List.disjoint_comm.mp h.disjoint)
  have hnew := next_notMem h.queue.live
  have hnew' := next_notMem h.side.live
  rw [List.mem_cons, not_or] at hnew
  refine ⟨⟨N', q', s.side⟩, _, by simp only [Op.run, hrun, ok_bind, pure_eq_ok], hq, hside, ?_, ?_,
    hdata'.trans h.side_data, ?_⟩
  · rw [hhead, ← List.cons_append, List.disjoint_append_left]
    exact ⟨h.disjoint, List.singleton_disjoint.mpr hnew'⟩
  · rw [hdata, map_data_concat hnew.2, h.queue_data]
    rfl
  · rw [hdata, hhead, Function.update_of_ne (Ne.symm hnew.1)]
    exact h.last

theorem Holds.pop (h : Holds s f l k) (hf : f.queue ≠ []) :
    ∃ s' l', Op.run s .pop = .ok (s', (Op.effect f .pop).2) ∧
      Holds s' (Op.effect f .pop).1 l' k := by
  obtain ⟨a, l, rfl⟩ : ∃ a l', l = a :: l' :=
    List.exists_cons_of_ne_nil fun hl => hf (h.queue_data ▸ hl ▸ rfl)
  obtain ⟨N', q', hrun, hq, hhead, hdata, hframe⟩ := pop_spec h.queue
  obtain ⟨hside, hdata'⟩ := h.side.framed hframe (List.disjoint_comm.mp h.disjoint)
  have hqueue : f.queue = s.nodes.data a :: l.map s.nodes.data := h.queue_data.symm
  refine ⟨⟨N', q', s.side⟩, l, ?_, hq, hside, ?_, ?_, hdata'.trans h.side_data, ?_⟩
  · simp only [Op.run, hrun, ok_bind, pure_eq_ok, Op.effect, hqueue, List.head?_cons,
      Option.toList_some]
  · rw [hhead]
    exact List.disjoint_of_subset_left (List.subset_cons_self _ _) h.disjoint
  · rw [hdata, Op.effect, hqueue]
    rfl
  · rw [hdata, hhead, Op.effect, hqueue]
    rfl

theorem Holds.popList (h : Holds s f l k) :
    ∃ s' l', Op.run s .popList = .ok (s', (Op.effect f .popList).2) ∧
      Holds s' (Op.effect f .popList).1 l' k := by
  obtain ⟨N', q', hrun, hq, hlast, hdata, hframe⟩ := popList_spec h.queue []
  obtain ⟨hside, hdata'⟩ := h.side.framed hframe (List.disjoint_comm.mp h.disjoint)
  have hmem : q'.head ∈ s.queue.head :: l := List.mem_of_getLast? hlast.symm
  refine ⟨⟨N', q', s.side⟩, [], ?_, hq, hside, ?_, rfl, hdata'.trans h.side_data, ?_⟩
  · simp only [Op.run, hrun, ok_bind, pure_eq_ok, Op.effect, h.queue_data, List.nil_append]
  · exact List.singleton_disjoint.mpr (h.disjoint hmem)
  · have hmap := congrArg (Option.map s.nodes.data) hlast
    rw [List.getLast?_cons, Option.map_some, Option.map_some, Option.some.injEq] at hmap
    rw [hdata, hmap, Op.effect, ← h.queue_data, ← h.last]
    simp only [List.getLastD_eq_getLast?, List.getLast?_map]
    cases l.getLast? <;> rfl

theorem Holds.fill (h : Holds s f l k) (el : T) :
    ∃ s' k', Op.run s (.fill el) = .ok (s', []) ∧ Holds s' (Op.effect f (.fill el)).1 l k' := by
  obtain ⟨N', u, hrun, hu, hdata, hframe⟩ := h.side.push el
  obtain ⟨hq, hdata'⟩ := h.queue.framed hframe h.disjoint
  rw [List.map_cons, List.map_cons, List.cons.injEq] at hdata'
  refine ⟨⟨N', s.queue, u⟩, _, by simp only [Op.run, hrun, ok_bind, pure_eq_ok], hq, hu, ?_,
    hdata'.2.trans h.queue_data, ?_, hdata'.1.trans h.last⟩
  · rw [List.disjoint_append_right]
    exact ⟨h.disjoint, List.disjoint_singleton.mpr (next_notMem h.queue.live)⟩
  · rw [hdata, h.side_data]
    rfl

theorem Holds.splice (h : Holds s f l k) (hf : f.side ≠ []) :
    ∃ s' l', Op.run s .splice = .ok (s', []) ∧ Holds s' (Op.effect f .splice).1 l' [] := by
  have hk : k ≠ [] := fun hk => hf (h.side_data ▸ hk ▸ rfl)
  obtain ⟨N', q', hrun, hq, hhead, hdata, -⟩ := splice_spec h.queue h.side hk h.disjoint
  refine ⟨⟨N', q', s.side.clear⟩, _, by simp only [Op.run, hrun, ok_bind, pure_eq_ok], hq,
    LinearQueue.Holds.new N', List.disjoint_nil_right _, ?_, rfl, ?_⟩
  · rw [hdata, List.map_append, h.queue_data, h.side_data]
    rfl
  · rw [hdata, hhead]
    exact h.last

/-- An operation that the lists allow has its effect. -/
theorem Holds.step (h : Holds s f l k) {op : Op T} (hop : op.Legal f) :
    ∃ s' l' k', op.run s = .ok (s', (op.effect f).2) ∧ Holds s' (op.effect f).1 l' k' := by
  cases op with
  | push el =>
    obtain ⟨s', l', hstep⟩ := h.push el
    exact ⟨s', l', k, hstep⟩
  | pop =>
    obtain ⟨s', l', hstep⟩ := h.pop hop
    exact ⟨s', l', k, hstep⟩
  | popList =>
    obtain ⟨s', l', hstep⟩ := h.popList
    exact ⟨s', l', k, hstep⟩
  | fill el =>
    obtain ⟨s', k', hstep⟩ := h.fill el
    exact ⟨s', l, k', hstep⟩
  | splice =>
    obtain ⟨s', l', hstep⟩ := h.splice hop
    exact ⟨s', l', [], hstep⟩

/-- A run that the lists allow has their results. -/
theorem Holds.runAll {ops : List (Op T)} (h : Holds s f l k) (hops : f.LegalRun ops) :
    ∃ s' l' k', s.runAll ops = .ok (s', (f.runAll ops).2) ∧ Holds s' (f.runAll ops).1 l' k' := by
  induction ops generalizing s f l k with
  | nil => exact ⟨s, l, k, rfl, h⟩
  | cons op ops ih =>
    obtain ⟨s₁, l₁, k₁, hok, h₁⟩ := h.step hops.1
    obtain ⟨s', l', k', hrun, h'⟩ := ih h₁ hops.2
    exact ⟨s', l', k', by simp only [State.runAll, hok, ok_bind, hrun]; rfl, h'⟩

/-- The multi-push queue refines a FIFO: on every run the elements come out in the order in which
they were pushed, `empty` tells whether all came out, and `pop` of a queue with elements returns the
first. There `top` returns the same exactly when it is equal to the element that came out last. -/
theorem top_iff [Inhabited T] (N : QueueNodes T) {ops : List (Op T)}
    (h : (Fifo.new : Fifo T).LegalRun ops) :
    ∃ s, (State.new N).runAll ops = .ok (s, ((Fifo.new : Fifo T).runAll ops).2) ∧
      (s.queue.isEmpty = true ↔ ((Fifo.new : Fifo T).runAll ops).1.queue = []) ∧
      ∀ el rest, ((Fifo.new : Fifo T).runAll ops).1.queue = el :: rest →
        (∃ N' q', PushSafe.pop s.nodes s.queue = .ok (N', q', el)) ∧
        (PushSafe.top s.nodes s.queue = .ok el ↔
          ((Fifo.new : Fifo T).runAll ops).1.last = el) := by
  obtain ⟨s, l, k, hrun, hs⟩ := (Holds.new N).runAll h
  refine ⟨s, hrun, ?_, fun el rest hqueue => ?_⟩
  · rw [hs.queue.isEmpty_iff, ← hs.queue_data, List.map_eq_nil_iff]
  · rw [← hs.queue_data] at hqueue
    cases l with
    | nil => cases hqueue
    | cons a l =>
      rw [List.map_cons, List.cons.injEq] at hqueue
      obtain ⟨N', q', hpop, -⟩ := pop_spec hs.queue
      refine ⟨⟨N', q', hqueue.1 ▸ hpop⟩, ?_⟩
      rw [top_spec hs.queue (List.cons_ne_nil a l), Except.ok.injEq, hs.last]

/-- Two elements that are equal, one of which came out. -/
theorem top_iff_same : ∃ s : State ℕ,
    (State.new QueueNodes.empty).runAll [.push 5, .fill 5, .splice, .pop] = .ok (s, [5]) ∧
      PushSafe.top s.nodes s.queue = .ok 5 := by
  have hlegal : (Fifo.new : Fifo ℕ).LegalRun [.push 5, .fill 5, .splice, .pop] := by
    simp [Fifo.LegalRun, Op.Legal, Op.effect, Fifo.new]
  obtain ⟨s, hrun, -, htop⟩ := top_iff QueueNodes.empty hlegal
  exact ⟨s, hrun, (htop 5 [] rfl).2.mpr rfl⟩

/-- `top` of a new queue with one element returns what the constructor left in its node. -/
theorem not_top_front : ∃ (s : State ℕ) (N : QueueNodes ℕ) (q : SentinelQueue),
    (State.new QueueNodes.empty).runAll [.push 7] = .ok (s, []) ∧
      PushSafe.top s.nodes s.queue = .ok 0 ∧
      PushSafe.pop s.nodes s.queue = .ok (N, q, 7) := by
  have hlegal : (Fifo.new : Fifo ℕ).LegalRun [.push 7] := by
    simp [Fifo.LegalRun, Op.Legal]
  obtain ⟨s, l, k, hrun, hs⟩ := (Holds.new QueueNodes.empty).runAll hlegal
  obtain ⟨a, rfl⟩ : ∃ a, l = [a] := by
    have hlen := congrArg List.length hs.queue_data
    rw [List.length_map] at hlen
    exact List.length_eq_one_iff.mp hlen
  have hdata : s.nodes.data a = 7 := (List.cons.inj hs.queue_data).1
  obtain ⟨N, q, hpop, -⟩ := pop_spec hs.queue
  have htop := top_spec hs.queue (List.cons_ne_nil a [])
  rw [hs.last] at htop
  exact ⟨s, N, q, hrun, htop, hdata ▸ hpop⟩

end Meld.Queue.PushSafe
