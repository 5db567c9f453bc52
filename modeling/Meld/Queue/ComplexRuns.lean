import Meld.Queue.ComplexPqueue

/-!
# Runs of the priority queue of nodes

What the operations of `intrusive_safe_complex_pqueue` are for, on the set of its elements and on
their priorities (`Effect`), and what holds between two operations (`Sound`): the heap order, and in
each element the index at which it stands and the flag that it is in the queue. A sequence of
operations on a new queue meets both as long as no element is inserted into a queue of `2 ^ 31`: the
index is an `int`.
-/

namespace Meld.Queue

open Lib Lib.Heap Vm

namespace ComplexPqueue

/-- An operation on the queue. -/
inductive Op
  | insert (node : ℕ) (prio : HeapPriority)
  | pop
  | remove (obj : ℕ)
  | moveNode (node : ℕ) (newPrio : HeapPriority)
  deriving DecidableEq

/-- One operation of the code, and what it returns. -/
def step (q : ComplexPqueue) : Op → Exec (ComplexPqueue × Option ℕ)
  | .insert node prio => do return (← q.insert node prio, none)
  | .pop => q.pop
  | .remove obj => do return (← q.remove obj, none)
  | .moveNode node newPrio => do return (← q.moveNode node newPrio, none)

/-- A new queue; the fields of the elements have any values, and no flag is set. -/
def new (typ : HeapType) (priority : ℕ → HeapPriority) (pos : ℕ → ℤ) : ComplexPqueue :=
  ⟨typ, [], priority, fun _ => false, pos⟩

/-! ### What the operations are for -/

/-- What the callers promise: an element that is inserted is not in the queue, one that is removed
or moved is, and the priority is no NaN where doubles are compared. -/
def Legal (q : ComplexPqueue) : Op → Prop
  | .insert node prio => node ∉ q.heap ∧ q.typ.Comparable prio
  | .pop => True
  | .remove obj => obj ∈ q.heap
  | .moveNode node newPrio => node ∈ q.heap ∧ q.typ.Comparable newPrio

/-- What an operation does on the set of the elements and on the priorities. -/
def Effect (q : ComplexPqueue) (op : Op) (q' : ComplexPqueue) (out : Option ℕ) : Prop :=
  match op with
  | .insert node prio => out = none ∧ q'.heap.Perm (node :: q.heap) ∧
      q'.priority = Function.update q.priority node prio
  | .pop => q'.priority = q.priority ∧
      ((q.heap = [] ∧ q'.heap = [] ∧ out = none) ∨
        ∃ a, out = some a ∧ (a :: q'.heap).Perm q.heap ∧
          ∀ b ∈ q.heap, heapCompare q.typ (q.priority a) (q.priority b) = true)
  | .remove obj => out = none ∧ (obj :: q'.heap).Perm q.heap ∧ q'.priority = q.priority
  | .moveNode node newPrio => out = none ∧ q'.heap.Perm q.heap ∧
      q'.priority = Function.update q.priority node newPrio

/-- The heap order, the index that each element stores, and its flag. -/
structure Sound (q : ComplexPqueue) : Prop where
  ordered : ∀ j a b, 0 < j → q.heap[Heap.parent j]? = some a → q.heap[j]? = some b →
    heapCompare q.typ (q.priority a) (q.priority b) = true
  pos : ∀ (i a : ℕ), q.heap[i]? = some a → q.pos a = i
  flag : ∀ a, q.inPriorityQueue a = true ↔ a ∈ q.heap

/-- Every operation of the run does what it is for and leaves a sound queue. -/
def Correct (q : ComplexPqueue) : List Op → Prop
  | [] => True
  | op :: ops => ∃ q' out, q.step op = .ok (q', out) ∧ Effect q op q' out ∧ q'.typ = q.typ ∧
      Sound q' ∧ Correct q' ops

/-- The property at the state before each operation of the run. -/
def Along (P : ComplexPqueue → Op → Prop) (q : ComplexPqueue) : List Op → Prop
  | [] => True
  | op :: ops => P q op ∧ ∀ q' out, q.step op = .ok (q', out) → Along P q' ops

/-- The index of an element that is inserted is an `int`. -/
def Room (q : ComplexPqueue) : Op → Prop
  | .insert _ _ => q.heap.length < 2 ^ 31
  | _ => True

/-! ### Steps -/

variable {q q' : ComplexPqueue} {a : ℕ} {prio : HeapPriority}

theorem Inv.sound (h : Inv q) : Sound q where
  ordered _ _ _ hj ha hb :=
    (HeapQueue.compare_iff h.comparable (view_get ha) (view_get hb)).mpr
      (h.ordered hj (view_get ha) (view_get hb))
  pos := h.placed
  flag := h.flag

/-- An operation with room keeps the invariant. -/
theorem Inv.step (h : Inv q) (hsize : q.heap.length ≤ 2 ^ 31) {op : Op} (hlegal : Legal q op)
    (hroom : Room q op) :
    ∃ q' out, q.step op = .ok (q', out) ∧ Effect q op q' out ∧ q'.typ = q.typ ∧ Inv q' ∧
      q'.heap.length ≤ 2 ^ 31 := by
  have hsize' : (q.heap.length : ℤ) ≤ maxInt + 1 := by simp only [maxInt]; omega
  cases op with
  | insert node prio =>
    have hlt : q.heap.length < 2 ^ 31 := hroom
    obtain ⟨q', hrun, hinv, htyp, hprio, hperm⟩ :=
      h.insert (by simp only [maxInt]; omega) hlegal.1 hlegal.2
    refine ⟨q', none, by simp only [ComplexPqueue.step, hrun, ok_bind, pure_eq_ok],
      ⟨rfl, hperm, hprio⟩, htyp, hinv, ?_⟩
    rw [hperm.length_eq, List.length_cons]
    omega
  | pop =>
    by_cases hne : q.heap = []
    · have hempty : q.empty = true := by simp [empty, hne]
      exact ⟨q, none, by simp [ComplexPqueue.step, ComplexPqueue.pop, hempty, pure_eq_ok],
        ⟨rfl, .inl ⟨hne, hne, rfl⟩⟩, rfl, h, hsize⟩
    · obtain ⟨q', a, hrun, hinv, htyp, hprio, hperm, hbest⟩ := h.pop hsize' hne
      refine ⟨q', some a, hrun, ⟨hprio, .inr ⟨a, rfl, hperm, hbest⟩⟩, htyp, hinv, ?_⟩
      have := hperm.length_eq
      rw [List.length_cons] at this
      omega
  | remove obj =>
    obtain ⟨q', hrun, hinv, htyp, hprio, hperm⟩ := h.remove hsize' hlegal
    refine ⟨q', none, by simp only [ComplexPqueue.step, hrun, ok_bind, pure_eq_ok],
      ⟨rfl, hperm, hprio⟩, htyp, hinv, ?_⟩
    have := hperm.length_eq
    rw [List.length_cons] at this
    omega
  | moveNode node newPrio =>
    obtain ⟨q₁, hrun₁, hinv₁, htyp₁, hprio₁, hperm₁⟩ := h.remove hsize' hlegal.1
    have hlen := hperm₁.length_eq
    rw [List.length_cons] at hlen
    have hnode : node ∉ q₁.heap :=
      (List.nodup_cons.mp (hperm₁.nodup_iff.mpr h.placed.nodup)).1
    have hcomp : q₁.typ.Comparable newPrio := htyp₁ ▸ hlegal.2
    obtain ⟨q', hrun, hinv, htyp, hprio, hperm⟩ :=
      hinv₁.insert (by simp only [maxInt]; omega) hnode hcomp
    refine ⟨q', none, ?_, ⟨rfl, hperm.trans hperm₁, by rw [hprio, hprio₁]⟩, htyp.trans htyp₁, hinv,
      by rw [(hperm.trans hperm₁).length_eq]; exact hsize⟩
    simp only [ComplexPqueue.step, moveNode, hrun₁, hrun, ok_bind, pure_eq_ok]

/-- Nothing moves up from a negative index. -/
theorem heapifyup_of_neg {k : ℤ} (hk : k < 0) : q.heapifyup k = .ok (q, false) := by
  have hcond : ¬(0 < k ∧ 0 ≤ HeapQueue.parent k) := fun hc => by omega
  simp only [heapifyup, iterate, heapifyupStep, if_neg hcond, pure_eq_ok, ok_bind]

/-- Without room the index that the new element stores is negative. -/
theorem insert_full (hlen : q.heap.length = 2 ^ 31) (h : q.insert a prio = .ok q') :
    ¬Sound q' := by
  obtain ⟨-, -, h⟩ := bind_eq_ok.mp h
  have hindex : wrap32 (((q.heap ++ [a]).length : ℤ) - 1) = -2 ^ 31 := by
    rw [List.length_append, List.length_singleton, hlen]
    decide
  simp only [hindex] at h
  rw [heapifyup_of_neg (by decide)] at h
  cases h
  intro hsound
  have hpos := hsound.pos q.heap.length a (by simp)
  simp only [Function.update_self] at hpos
  omega

/-! ### Runs -/

theorem Inv.correct (h : Inv q) (hsize : q.heap.length ≤ 2 ^ 31) {ops : List Op}
    (hlegal : Along Legal q ops) (hroom : Along Room q ops) : Correct q ops := by
  induction ops generalizing q with
  | nil => trivial
  | cons op ops ih =>
    obtain ⟨q', out, hrun, heffect, htyp, hinv, hsize'⟩ := h.step hsize hlegal.1 hroom.1
    exact ⟨q', out, hrun, heffect, htyp, hinv.sound,
      ih hinv hsize' (hlegal.2 q' out hrun) (hroom.2 q' out hrun)⟩

theorem Inv.room (h : Inv q) (hsize : q.heap.length ≤ 2 ^ 31) {ops : List Op}
    (hlegal : Along Legal q ops) (hcorrect : Correct q ops) : Along Room q ops := by
  induction ops generalizing q with
  | nil => trivial
  | cons op ops ih =>
    obtain ⟨q', out, hrun, heffect, htyp, hsound, hrest⟩ := hcorrect
    have hroom : Room q op := by
      cases op with
      | insert node prio =>
        by_contra hfull
        have hlen : q.heap.length = 2 ^ 31 := by
          simp only [Room] at hfull
          omega
        obtain ⟨q₁, hins, hout⟩ := bind_eq_ok.mp hrun
        cases hout
        exact insert_full hlen hins hsound
      | pop | remove | moveNode => trivial
    refine ⟨hroom, fun q₁ out₁ hrun₁ => ?_⟩
    obtain ⟨q₂, out₂, hrun₂, -, -, hinv, hsize'⟩ := h.step hsize hlegal.1 hroom
    cases hrun.symm.trans hrun₁
    cases hrun.symm.trans hrun₂
    exact ih hinv hsize' (hlegal.2 q' out hrun) hrest

theorem inv_new (typ : HeapType) (priority : ℕ → HeapPriority) (pos : ℕ → ℤ) :
    Inv (new typ priority pos) where
  comparable := by simp [new, view]
  ordered j x y _ hx := by simp [new, view] at hx
  placed i a ha := by simp [new] at ha
  flag a := by simp [new]

/-- A run of legal operations on a new queue is correct in every step if and only if no element is
inserted into a queue of `2 ^ 31`. -/
theorem correct_iff_room (typ : HeapType) (priority : ℕ → HeapPriority) (pos : ℕ → ℤ)
    (ops : List Op) (hlegal : Along Legal (new typ priority pos) ops) :
    Correct (new typ priority pos) ops ↔ Along Room (new typ priority pos) ops :=
  ⟨(inv_new typ priority pos).room (by simp [new]) hlegal,
    (inv_new typ priority pos).correct (by simp [new]) hlegal⟩

/-- Insertions of new elements, all with one priority. -/
def insertions (n k : ℕ) : List Op := (List.range' k n).map (.insert · (.ofInt 0))

/-- An insertion with room adds one element. -/
private theorem step_insertion {k : ℕ} {q₁ : ComplexPqueue} {out₁ : Option ℕ} (h : Inv q)
    (htyp : q.typ = .intAsc) (hlen : q.heap.length < 2 ^ 31) (hk : ∀ a ∈ q.heap, a < k)
    (hrun : q.step (.insert k (.ofInt 0)) = .ok (q₁, out₁)) :
    Inv q₁ ∧ q₁.typ = .intAsc ∧ q₁.heap.length = q.heap.length + 1 ∧
      ∀ a ∈ q₁.heap, a < k + 1 := by
  have hlegal : Legal q (.insert k (.ofInt 0)) := ⟨fun hm => lt_irrefl k (hk k hm), .inl htyp⟩
  obtain ⟨q', out, hrun', heffect, htyp', hinv, -⟩ := h.step hlen.le hlegal hlen
  cases hrun'.symm.trans hrun
  refine ⟨hinv, htyp'.trans htyp, by rw [heffect.2.1.length_eq, List.length_cons], fun a ha => ?_⟩
  rcases List.mem_cons.mp (heffect.2.1.subset ha) with rfl | ha
  · omega
  · have := hk a ha
    omega

theorem insertions_legal {n k : ℕ} (h : Inv q) (htyp : q.typ = .intAsc)
    (hn : q.heap.length + n ≤ 2 ^ 31 + 1) (hk : ∀ a ∈ q.heap, a < k) :
    Along Legal q (insertions n k) := by
  induction n generalizing q k with
  | zero => trivial
  | succ n ih =>
    refine ⟨⟨fun hm => lt_irrefl k (hk k hm), .inl htyp⟩, fun q₁ out₁ hrun₁ => ?_⟩
    rcases Nat.eq_zero_or_pos n with rfl | hpos
    · trivial
    · obtain ⟨hinv, htyp', hlen, hk'⟩ := step_insertion h htyp (by omega) hk hrun₁
      exact ih hinv htyp' (by omega) hk'

theorem insertions_room {n k : ℕ} (h : Inv q) (htyp : q.typ = .intAsc)
    (hk : ∀ a ∈ q.heap, a < k) (hroom : Along Room q (insertions (n + 1) k)) :
    q.heap.length + n < 2 ^ 31 := by
  induction n generalizing q k with
  | zero => exact hroom.1
  | succ n ih =>
    have hlt : q.heap.length < 2 ^ 31 := hroom.1
    have hlegal : Legal q (.insert k (.ofInt 0)) := ⟨fun hm => lt_irrefl k (hk k hm), .inl htyp⟩
    obtain ⟨q₁, out₁, hrun₁, -⟩ := h.step hlt.le hlegal hlt
    obtain ⟨hinv, htyp', hlen, hk'⟩ := step_insertion h htyp hlt hk hrun₁
    have := ih hinv htyp' hk' (hroom.2 q₁ out₁ hrun₁)
    omega

/-- One element too many. -/
theorem not_correct_of_full :
    ∃ (typ : HeapType) (priority : ℕ → HeapPriority) (pos : ℕ → ℤ) (ops : List Op),
      Along Legal (new typ priority pos) ops ∧ ¬Correct (new typ priority pos) ops := by
  have hinv := inv_new .intAsc (fun _ => .ofInt 0) fun _ => 0
  have hlegal := insertions_legal (n := 2 ^ 31 + 1) (k := 0) hinv rfl (by simp [new])
    (by simp [new])
  refine ⟨_, _, _, insertions (2 ^ 31 + 1) 0, hlegal, fun hcorrect => ?_⟩
  have hroom := hinv.room (by simp [new]) hlegal hcorrect
  have := insertions_room hinv rfl (by simp [new]) hroom
  omega

/-! ### Three elements -/

/-- Whether the operation is legal and has room, for priorities that are integers. -/
private def fits (q : ComplexPqueue) : Op → Bool
  | .insert node _ => decide (q.typ = .intAsc ∧ node ∉ q.heap ∧ q.heap.length < 2 ^ 31)
  | .pop => true
  | .remove obj => decide (obj ∈ q.heap)
  | .moveNode node _ => decide (q.typ = .intAsc ∧ node ∈ q.heap)

private theorem legal_of_fits {op : Op} (h : fits q op = true) : Legal q op ∧ Room q op := by
  cases op with
  | insert node prio =>
    obtain ⟨htyp, hmem, hroom⟩ := of_decide_eq_true h
    exact ⟨⟨hmem, .inl htyp⟩, hroom⟩
  | pop => exact ⟨trivial, trivial⟩
  | remove obj =>
    have hmem : obj ∈ q.heap := of_decide_eq_true h
    exact ⟨hmem, trivial⟩
  | moveNode node newPrio =>
    obtain ⟨htyp, hmem⟩ := of_decide_eq_true h
    exact ⟨⟨hmem, .inl htyp⟩, trivial⟩

/-- Whether all operations of the run are. -/
private def fitsAlong (q : ComplexPqueue) : List Op → Bool
  | [] => true
  | op :: ops => fits q op && (q.step op).toOption.all fun r => fitsAlong r.1 ops

private theorem along_of_fitsAlong {ops : List Op} (h : fitsAlong q ops = true) :
    Along Legal q ops ∧ Along Room q ops := by
  induction ops generalizing q with
  | nil => exact ⟨trivial, trivial⟩
  | cons op ops ih =>
    rw [fitsAlong, Bool.and_eq_true] at h
    obtain ⟨hop, hops⟩ := h
    obtain ⟨hlegal, hroom⟩ := legal_of_fits hop
    have hrest : ∀ q' out, q.step op = .ok (q', out) → Along Legal q' ops ∧ Along Room q' ops := by
      intro q' out hrun
      rw [hrun] at hops
      exact ih hops
    exact ⟨⟨hlegal, fun q' out hrun => (hrest q' out hrun).1⟩,
      ⟨hroom, fun q' out hrun => (hrest q' out hrun).2⟩⟩

/-- Three elements are inserted, one gets another priority and one is removed. -/
private def threeElements : List Op :=
  [.insert 7 (.ofInt 3), .insert 8 (.ofInt 1), .insert 9 (.ofInt 2), .moveNode 7 (.ofInt 0),
    .remove 8, .pop, .pop, .pop]

/-- The elements that are left are taken out in the order of their priorities. -/
theorem correct_iff_room_three :
    Correct (new .intAsc (fun _ => .ofInt 0) fun _ => 0) threeElements ∧
      Along Room (new .intAsc (fun _ => .ofInt 0) fun _ => 0) threeElements := by
  obtain ⟨hlegal, hroom⟩ := @along_of_fitsAlong
    (new .intAsc (fun _ => .ofInt 0) fun _ => 0) threeElements (by decide +kernel)
  exact ⟨(correct_iff_room _ _ _ _ hlegal).mpr hroom, hroom⟩

end ComplexPqueue

end Meld.Queue
