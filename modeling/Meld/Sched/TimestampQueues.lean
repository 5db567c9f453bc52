import Meld.Queue.PriorityBag

/-!
# The queues of a simulated node

A node of the simulator keeps the facts that it has not processed in two heaps, one for new facts
and one for retractions, by their timestamps. A timestamp is a number of 64 bits; the priority of
the heap is the member `int_priority` of a union, of 32 bits with a sign. The constructor sets the
type of the first heap. That of the second is left as it is in the memory.

A collection until a timestamp is right when the timestamps survive the conversion and the types put
the smaller ones first (`right_of_meets`).
-/

namespace Meld.Sched

open Lib Queue

/-- `sim_node`: its two queues. An entry carries the timestamp with which it was added, which the
code does not keep. -/
structure TimestampQueues (T : Type) where
  tuplePqueue : HeapQueue (T × UInt64)
  rtuplePqueue : HeapQueue (T × UInt64)

namespace TimestampQueues

variable {T : Type}

/-- The constructor; the memory of the second queue has some type. -/
def new (typ : HeapType) : TimestampQueues T := ⟨.new .intAsc, .new typ⟩

/-- A priority whose member `int_priority` was set to a timestamp; the upper half of the union has
what was in the memory. -/
def priorityOf (ts : UInt64) (upper : UInt32) : HeapPriority :=
  ⟨.ofNat (upper.toNat * 2 ^ 32 + ts.toNat % 2 ^ 32)⟩

/-- `(size_t)pr.int_priority`. -/
def sizeT (p : HeapPriority) : ℕ := (p.intPriority % 2 ^ 64).toNat

/-- `add_received_tuple`, and the ends of `handle_receive_message` and `new_work`: a fact with a
positive count goes to the first queue. -/
def addReceivedTuple (n : TimestampQueues T) (stpl : T) (count : ℤ) (ts : UInt64)
    (upper : UInt32) : Exec (TimestampQueues T) := do
  if 0 < count then
    return { n with tuplePqueue := ← n.tuplePqueue.insert (stpl, ts) (priorityOf ts upper) }
  else
    return { n with rtuplePqueue := ← n.rtuplePqueue.insert (stpl, ts) (priorityOf ts upper) }

/-- One turn of a loop of `get_tuples_until_timestamp`. -/
def untilStep (limit : UInt64) (s : HeapQueue (T × UInt64) × List (T × UInt64)) :
    Exec ((HeapQueue (T × UInt64) × List (T × UInt64)) ⊕
      (HeapQueue (T × UInt64) × List (T × UInt64))) := do
  let (q, ls) := s
  if q.empty then return .inr (q, ls)
  let pr ← q.minValue
  if limit.toNat < sizeT pr then return .inr (q, ls)
  let (q, stpl) ← q.pop
  return .inl (q, ls ++ [stpl])

/-- A loop of `get_tuples_until_timestamp`. -/
def untilLoop (limit : UInt64) (q : HeapQueue (T × UInt64)) :
    Exec (HeapQueue (T × UInt64) × List (T × UInt64)) :=
  iterate (untilStep limit) (q.heap.length + 1) (q, [])

/-- `get_tuples_until_timestamp`: what it appends from the first queue and from the second. -/
def getTuplesUntilTimestamp (n : TimestampQueues T) (limit : UInt64) :
    Exec (TimestampQueues T × List (T × UInt64) × List (T × UInt64)) := do
  let (tuplePqueue, ls) ← untilLoop limit n.tuplePqueue
  let (rtuplePqueue, rls) ← untilLoop limit n.rtuplePqueue
  return (⟨tuplePqueue, rtuplePqueue⟩, ls, rls)

/-! ### Runs -/

/-- What is done with the queues. -/
inductive Op (T : Type)
  | add (stpl : T) (count : ℤ) (ts : UInt64) (upper : UInt32)
  | collect (limit : UInt64)

/-- One operation, with what is collected from the two queues. -/
def step (n : TimestampQueues T) :
    Op T → Exec (TimestampQueues T × List (T × UInt64) × List (T × UInt64))
  | .add stpl count ts upper => do return (← n.addReceivedTuple stpl count ts upper, [], [])
  | .collect limit => n.getTuplesUntilTimestamp limit

/-- The property at the state before each operation of the run. -/
def Along (P : TimestampQueues T → Op T → Prop) (n : TimestampQueues T) : List (Op T) → Prop
  | [] => True
  | op :: ops => P n op ∧
    match n.step op with
    | .ok (n', _) => Along P n' ops
    | .error _ => True

/-- The facts of a queue with their timestamps. -/
def facts (q : HeapQueue (T × UInt64)) : List (T × UInt64) := q.heap.map HeapObject.data

/-- A collection took the facts until the timestamp, in their order, and kept the others. -/
structure Collected (limit : UInt64) (before ls after : List (T × UInt64)) : Prop where
  taken : ls.Perm (before.filter fun x => x.2 ≤ limit)
  kept : after.Perm (before.filter fun x => ¬x.2 ≤ limit)
  ordered : ls.Pairwise fun x y => x.2 ≤ y.2

/-- An operation does what it is for. -/
def Right (n : TimestampQueues T) (op : Op T) : Prop :=
  ∃ n' ls rls, n.step op = .ok (n', ls, rls) ∧
    match op with
    | .add stpl count ts _ =>
      (facts n'.tuplePqueue).Perm
          (if 0 < count then (stpl, ts) :: facts n.tuplePqueue else facts n.tuplePqueue) ∧
        (facts n'.rtuplePqueue).Perm
          (if 0 < count then facts n.rtuplePqueue else (stpl, ts) :: facts n.rtuplePqueue)
    | .collect limit =>
      Collected limit (facts n.tuplePqueue) ls (facts n'.tuplePqueue) ∧
        Collected limit (facts n.rtuplePqueue) rls (facts n'.rtuplePqueue)

/-- As far as a collection goes, the priorities stand for the timestamps, and the type of the queue
puts the smaller ones first. -/
structure InOrder (limit : UInt64) (q : HeapQueue (T × UInt64)) : Prop where
  until_iff : ∀ o ∈ q.heap, sizeT o.val ≤ limit.toNat ↔ o.data.2 ≤ limit
  before : ∀ o ∈ q.heap, ∀ o' ∈ q.heap, o.data.2 < o'.data.2 → o.data.2 ≤ limit →
    heapCompare q.typ o'.val o.val = false

/-- The limits of the code: a queue does not outgrow the indices and compares no NaN, and for a
collection the queues are in order. -/
def Meets (n : TimestampQueues T) : Op T → Prop
  | .add _ count ts upper =>
    if 0 < count then (n.tuplePqueue.heap.length : ℤ) < maxInt
    else (n.rtuplePqueue.heap.length : ℤ) < maxInt ∧
      n.rtuplePqueue.typ.Comparable (priorityOf ts upper)
  | .collect limit => InOrder limit n.tuplePqueue ∧ InOrder limit n.rtuplePqueue

/-! ### One collection -/

section

variable {q : HeapQueue (T × UInt64)} {limit : UInt64}

/-- What a step does is decided by the root of the heap. -/
theorem untilStep_of_root {ls : List (T × UInt64)} {o : HeapObject (T × UInt64)}
    (hroot : q.heap[0]? = some o) :
    untilStep limit (q, ls) =
      if limit.toNat < sizeT o.val then .ok (.inr (q, ls))
      else do
        let (q, stpl) ← q.pop
        return .inl (q, ls ++ [stpl]) := by
  have hne : q.empty = false := by
    rw [HeapQueue.empty, List.isEmpty_eq_false_iff]
    exact List.ne_nil_of_mem (List.mem_of_getElem? hroot)
  have hmin : q.minValue = .ok o.val := by
    simp only [HeapQueue.minValue, hne, assert_pos, ok_bind, hroot, deref_some, pure_eq_ok]
  rw [untilStep]
  simp only [hne, Bool.false_eq_true, if_false]
  rw [hmin, ok_bind]
  rfl

/-- What was taken and what is left, told apart by the limit. -/
theorem collected_of_split {q q' : HeapQueue (T × UInt64)}
    {done : List (HeapObject (T × UInt64))} (hperm : (done ++ q'.heap).Perm q.heap)
    (hdone : ∀ o ∈ done, o.data.2 ≤ limit) (hkept : ∀ o ∈ q'.heap, ¬o.data.2 ≤ limit)
    (hsorted : (done.map HeapObject.data).Pairwise fun x y => x.2 ≤ y.2) :
    Collected limit (facts q) (done.map HeapObject.data) (facts q') := by
  have hfacts : (facts q).Perm (done.map HeapObject.data ++ facts q') := by
    rw [facts, facts, ← List.map_append]
    exact (hperm.map _).symm
  have htaken : ∀ x ∈ done.map HeapObject.data, x.2 ≤ limit := List.forall_mem_map.mpr hdone
  have hleft : ∀ x ∈ facts q', ¬x.2 ≤ limit := List.forall_mem_map.mpr hkept
  refine ⟨?_, ?_, hsorted⟩
  · refine List.Perm.trans ?_ (hfacts.filter _).symm
    rw [List.filter_append, List.filter_eq_self.mpr, List.filter_eq_nil_iff.mpr, List.append_nil]
    · exact fun x hx => by simpa using hleft x hx
    · exact fun x hx => decide_eq_true (htaken x hx)
  · refine List.Perm.trans ?_ (hfacts.filter _).symm
    rw [List.filter_append, List.filter_eq_nil_iff.mpr, List.filter_eq_self.mpr, List.nil_append]
    · exact fun x hx => decide_eq_true (hleft x hx)
    · exact fun x hx => by simpa using htaken x hx

open HeapQueue in
/-- A loop takes the first entry as long as its priority is not above the limit. -/
theorem untilLoop_spec (h : Inv q) (horder : InOrder limit q) :
    ∃ q' ls, untilLoop limit q = .ok (q', ls) ∧ q'.typ = q.typ ∧ Inv q' ∧
      Collected limit (facts q) ls (facts q') ∧ q'.heap.Subperm q.heap := by
  have key : ∃ r, untilLoop limit q = .ok r ∧ r.1.typ = q.typ ∧ Inv r.1 ∧
      Collected limit (facts q) r.2 (facts r.1) ∧ r.1.heap.Subperm q.heap := by
    refine iterate_of_variant
      (fun s : HeapQueue (T × UInt64) × List (T × UInt64) => ∃ done : List (HeapObject (T × UInt64)),
        s.2 = done.map HeapObject.data ∧ (done ++ s.1.heap).Perm q.heap ∧ s.1.typ = q.typ ∧
          Inv s.1 ∧ (∀ o ∈ done, o.data.2 ≤ limit) ∧
          s.2.Pairwise (fun x y => x.2 ≤ y.2) ∧ ∀ o ∈ done, ∀ o' ∈ s.1.heap, o.data.2 ≤ o'.data.2)
      _ (fun s => s.1.heap.length) ?_ ⟨[], rfl, .refl _, rfl, h, List.forall_mem_nil _, .nil,
        List.forall_mem_nil _⟩ (Nat.lt_succ_self _)
    rintro ⟨q', ls⟩ ⟨done, rfl, hperm, htyp, hinv, hdone, hsorted, hbelow⟩
    have hsub : q'.heap.Subperm q.heap :=
      (List.sublist_append_right done q'.heap).subperm.trans hperm.subperm
    have hmem : ∀ o ∈ q'.heap, o ∈ q.heap := fun o ho => hsub.subset ho
    cases hroot : q'.heap[0]? with
    | none =>
      have hnil : q'.heap = [] := by simpa using hroot
      refine .inr ⟨(q', done.map HeapObject.data), ?_, htyp, hinv, ?_, hsub⟩
      · simp [untilStep, HeapQueue.empty, hnil]
      · exact collected_of_split hperm hdone (by simp [hnil]) hsorted
    | some o =>
      have ho : o ∈ q'.heap := List.mem_of_getElem? hroot
      obtain ⟨q'', hpop, htyp', hperm', hbest, hinv'⟩ := hinv.pop_root hroot
      -- no entry has a smaller timestamp, if that of the first is not above the limit
      have hfirst : ∀ x ∈ q'.heap, x.data.2 < o.data.2 → ¬x.data.2 ≤ limit := by
        intro x hx hlt hle
        have hcmp := horder.before x (hmem x hx) o (hmem o ho) hlt hle
        rw [← htyp, hbest x hx] at hcmp
        cases hcmp
      by_cases hdue : sizeT o.val ≤ limit.toNat
      · have hle := (horder.until_iff o (hmem o ho)).mp hdue
        have hrest : ∀ x ∈ q''.heap, x ∈ q'.heap := fun x hx =>
          hperm'.subset (List.mem_cons_of_mem o hx)
        refine .inl ⟨(q'', done.map HeapObject.data ++ [o.data]), ?_,
          ⟨done ++ [o], ?_, ?_, htyp'.trans htyp, hinv', ?_, ?_, ?_⟩, ?_⟩
        · rw [untilStep_of_root hroot, if_neg (Nat.not_lt_of_le hdue), hpop]
          rfl
        · rw [List.map_append, List.map_singleton]
        · rw [List.append_assoc]
          exact (hperm'.append_left done).trans hperm
        · intro x hx
          rcases List.mem_append.mp hx with hx | hx
          · exact hdone x hx
          · rwa [List.mem_singleton.mp hx]
        · rw [List.pairwise_append]
          refine ⟨hsorted, List.pairwise_singleton _ _, fun x hx y hy => ?_⟩
          obtain ⟨z, hz, rfl⟩ := List.mem_map.mp hx
          rw [List.mem_singleton.mp hy]
          exact hbelow z hz o ho
        · intro x hx y hy
          rcases List.mem_append.mp hx with hx | hx
          · exact hbelow x hx y (hrest y hy)
          · rw [List.mem_singleton.mp hx]
            by_contra hlt
            have hlt := UInt64.not_le.mp hlt
            exact hfirst y (hrest y hy) hlt (UInt64.le_trans (UInt64.le_of_lt hlt) hle)
        · change q''.heap.length < q'.heap.length
          rw [← hperm'.length_eq, List.length_cons]
          exact Nat.lt_succ_self _
      · refine .inr ⟨(q', done.map HeapObject.data), ?_, htyp, hinv, ?_, hsub⟩
        · rw [untilStep_of_root hroot, if_pos (Nat.lt_of_not_le hdue)]
        · refine collected_of_split hperm hdone (fun x hx => ?_) hsorted
          have hlate : ¬o.data.2 ≤ limit := fun h =>
            hdue ((horder.until_iff o (hmem o ho)).mpr h)
          by_cases hlt : x.data.2 < o.data.2
          · exact hfirst x hx hlt
          · exact fun hle => hlate (UInt64.le_trans (UInt64.not_lt.mp hlt) hle)
  obtain ⟨⟨q', ls⟩, hrun, hpost⟩ := key
  exact ⟨q', ls, hrun, hpost⟩

/-! ### Every run -/

variable {n : TimestampQueues T} {op : Op T}

/-- Both queues are heaps, the first with small integers first. -/
structure Heaps (n : TimestampQueues T) : Prop where
  tuple : n.tuplePqueue.Inv
  rtuple : n.rtuplePqueue.Inv
  typ : n.tuplePqueue.typ = .intAsc

/-- The facts after one has been inserted. -/
theorem facts_insert {q' : HeapQueue (T × UInt64)} {x : T × UInt64} {p : HeapPriority}
    (h : q'.heap.Perm (⟨x, p⟩ :: q.heap)) : (facts q').Perm (x :: facts q) := h.map _

/-- What an operation adds to the queues. -/
def Op.entries : Op T → List (HeapObject (T × UInt64))
  | .add stpl _ ts upper => [⟨(stpl, ts), priorityOf ts upper⟩]
  | .collect _ => []

/-- The entries after an operation are among those before it and those that it adds. -/
structure Follows (n : TimestampQueues T) (op : Op T) (n' : TimestampQueues T) : Prop where
  heaps : Heaps n'
  typ : n'.rtuplePqueue.typ = n.rtuplePqueue.typ
  tuple : n'.tuplePqueue.heap.Subperm (op.entries ++ n.tuplePqueue.heap)
  rtuple : n'.rtuplePqueue.heap.Subperm (op.entries ++ n.rtuplePqueue.heap)

/-- One operation within the limits keeps the heaps and does what it is for. -/
theorem right_of_meets_step (h : Heaps n) (hmeets : n.Meets op) :
    n.Right op ∧ ∃ n' out, n.step op = .ok (n', out) ∧ Follows n op n' := by
  cases op with
  | add stpl count ts upper =>
    rw [Meets] at hmeets
    split_ifs at hmeets with hcount
    · have hcomp : n.tuplePqueue.typ.Comparable (priorityOf ts upper) := .inl h.typ
      obtain ⟨q', hrun, htyp, hperm, hinv⟩ := h.tuple.insert (stpl, ts) hmeets hcomp
      have hstep : n.step (.add stpl count ts upper) =
          .ok ({ n with tuplePqueue := q' }, [], []) := by
        simp only [step, addReceivedTuple, if_pos hcount, hrun, ok_bind, pure_eq_ok]
      refine ⟨⟨_, [], [], hstep, ?_⟩, _, _, hstep, ⟨hinv, h.rtuple, htyp.trans h.typ⟩, rfl,
        hperm.subperm, (List.sublist_append_right _ _).subperm⟩
      simp only [if_pos hcount]
      exact ⟨facts_insert hperm, .refl _⟩
    · obtain ⟨q', hrun, htyp, hperm, hinv⟩ := h.rtuple.insert (stpl, ts) hmeets.1 hmeets.2
      have hstep : n.step (.add stpl count ts upper) =
          .ok ({ n with rtuplePqueue := q' }, [], []) := by
        simp only [step, addReceivedTuple, if_neg hcount, hrun, ok_bind, pure_eq_ok]
      refine ⟨⟨_, [], [], hstep, ?_⟩, _, _, hstep, ⟨h.tuple, hinv, h.typ⟩, htyp,
        (List.sublist_append_right _ _).subperm, hperm.subperm⟩
      simp only [if_neg hcount]
      exact ⟨.refl _, facts_insert hperm⟩
  | collect limit =>
    obtain ⟨q', ls, hrun, htyp, hinv, hcol, hsub⟩ := untilLoop_spec h.tuple hmeets.1
    obtain ⟨rq', rls, hrrun, hrtyp, hrinv, hrcol, hrsub⟩ := untilLoop_spec h.rtuple hmeets.2
    have hstep : n.step (.collect limit) = .ok (⟨q', rq'⟩, ls, rls) := by
      simp only [step, getTuplesUntilTimestamp, hrun, hrrun, ok_bind, pure_eq_ok]
    exact ⟨⟨_, ls, rls, hstep, hcol, hrcol⟩, _, _, hstep, ⟨hinv, hrinv, htyp.trans h.typ⟩, hrtyp,
      hsub, hrsub⟩

/-- New queues are heaps. -/
theorem heaps_new (typ : HeapType) : Heaps (new typ : TimestampQueues T) :=
  ⟨HeapQueue.inv_new .intAsc, HeapQueue.inv_new typ, rfl⟩

/-- Heaps whose steps meet the condition do what they should. -/
theorem right_of_heaps (h : Heaps n) {ops : List (Op T)} (hmeets : n.Along Meets ops) :
    n.Along Right ops := by
  induction ops generalizing n with
  | nil => trivial
  | cons op ops ih =>
    obtain ⟨hright, n', out, hstep, hfollows⟩ := right_of_meets_step h hmeets.1
    refine ⟨hright, ?_⟩
    have hrest := hmeets.2
    rw [hstep] at hrest ⊢
    exact ih hfollows.heaps hrest

/-- Every operation of a run within the limits does what it is for. -/
theorem right_of_meets (typ : HeapType) (ops : List (Op T))
    (hmeets : (new typ : TimestampQueues T).Along Meets ops) :
    (new typ : TimestampQueues T).Along Right ops := right_of_heaps (heaps_new typ) hmeets

/-! ### Small timestamps -/

/-- The entry has a timestamp that fits, and its priority. -/
def Narrow (o : HeapObject (T × UInt64)) : Prop :=
  o.data.2.toNat < 2 ^ 31 ∧ ∃ upper, o.val = priorityOf o.data.2 upper

/-- A narrow priority is its timestamp. -/
theorem intPriority_of_narrow {o : HeapObject (T × UInt64)} (h : Narrow o) :
    o.val.intPriority = o.data.2.toNat := by
  obtain ⟨hts, upper, hval⟩ := h
  have hupper := upper.toNat_lt
  have hbits : o.val.bits.toNat = upper.toNat * 2 ^ 32 + o.data.2.toNat % 2 ^ 32 := by
    rw [hval, priorityOf]
    exact UInt64.toNat_ofNat_of_lt' (by simp only [UInt64.size]; omega)
  rw [HeapPriority.intPriority, hbits, wrap32, Int.bmod_def]
  omega

/-- The second queue too has small integers first, and the entries are narrow. -/
structure Small (n : TimestampQueues T) (k : ℕ) : Prop where
  typ : n.tuplePqueue.typ = .intAsc
  rtyp : n.rtuplePqueue.typ = .intAsc
  narrow : ∀ o ∈ n.tuplePqueue.heap, Narrow o
  rnarrow : ∀ o ∈ n.rtuplePqueue.heap, Narrow o
  length : n.tuplePqueue.heap.length ≤ k
  rlength : n.rtuplePqueue.heap.length ≤ k

/-- Narrow priorities are in the order of the timestamps. -/
theorem inOrder_of_narrow (htyp : q.typ = .intAsc) (hnarrow : ∀ o ∈ q.heap, Narrow o)
    (limit : UInt64) : InOrder limit q where
  until_iff o ho := by
    have hlt := (hnarrow o ho).1
    rw [sizeT, intPriority_of_narrow (hnarrow o ho), UInt64.le_iff_toNat_le]
    omega
  before o ho o' ho' hlt _ := by
    rw [UInt64.lt_iff_toNat_lt] at hlt
    rw [htyp, heapCompare, intPriority_of_narrow (hnarrow o ho),
      intPriority_of_narrow (hnarrow o' ho'), decide_eq_false_iff_not]
    omega

/-- Small queues meet the condition. -/
theorem meets_of_small {k : ℕ} (h : Small n k) (hk : (k : ℤ) < maxInt) (op : Op T) :
    n.Meets op := by
  have hlen := h.length
  have hrlen := h.rlength
  cases op with
  | add stpl count ts upper =>
    rw [Meets]
    split_ifs
    · omega
    · exact ⟨by omega, .inl h.rtyp⟩
  | collect limit =>
    exact ⟨inOrder_of_narrow h.typ h.narrow limit, inOrder_of_narrow h.rtyp h.rnarrow limit⟩

/-- A step adds one fact at most. -/
theorem small_of_follows {k : ℕ} {n' : TimestampQueues T} (h : Small n k) (hf : Follows n op n')
    (hop : ∀ o ∈ op.entries, Narrow o) : Small n' (k + 1) := by
  have hlen : op.entries.length ≤ 1 := by cases op <;> simp [Op.entries]
  have hmem : ∀ {q q' : HeapQueue (T × UInt64)}, q'.heap.Subperm (op.entries ++ q.heap) →
      (∀ o ∈ q.heap, Narrow o) → ∀ o ∈ q'.heap, Narrow o := fun hsub hq o ho => by
    rcases List.mem_append.mp (hsub.subset ho) with ho | ho
    · exact hop o ho
    · exact hq o ho
  have hlength := hf.tuple.length_le
  have hrlength := hf.rtuple.length_le
  have hk := h.length
  have hrk := h.rlength
  rw [List.length_append] at hlength hrlength
  exact ⟨hf.heaps.typ, hf.typ.trans h.rtyp, hmem hf.tuple h.narrow, hmem hf.rtuple h.rnarrow,
    by omega, by omega⟩

/-- With timestamps below `2 ^ 31` and the type of the first queue for both, a run stays within the
limits. -/
theorem meets_of_narrow {k : ℕ} {ops : List (Op T)} (hh : Heaps n) (h : Small n k)
    (hk : (k + ops.length : ℤ) ≤ maxInt) (hops : ∀ op ∈ ops, ∀ o ∈ op.entries, Narrow o) :
    n.Along Meets ops := by
  induction ops generalizing n k with
  | nil => trivial
  | cons op ops ih =>
    rw [List.length_cons] at hk
    have hmeets := meets_of_small h (by push_cast at hk; omega) op
    obtain ⟨hop, hops⟩ := List.forall_mem_cons.mp hops
    obtain ⟨-, n', out, hstep, hfollows⟩ := right_of_meets_step hh hmeets
    refine ⟨hmeets, ?_⟩
    rw [hstep]
    exact ih hfollows.heaps (small_of_follows h hfollows hop) (by push_cast at hk ⊢; omega) hops

/-- New queues are small. -/
theorem small_new : Small (new .intAsc : TimestampQueues T) 0 :=
  ⟨rfl, rfl, List.forall_mem_nil _, List.forall_mem_nil _, le_rfl, le_rfl⟩

/-- Two facts and a retraction, collected in part. -/
theorem right_of_meets_three :
    (new .intAsc : TimestampQueues ℕ).Along Right
      [.add 1 1 7 0, .add 2 1 3 0, .add 3 (-1) 5 0, .collect 5] :=
  right_of_meets .intAsc _ (meets_of_narrow (heaps_new .intAsc) small_new (by decide)
    (by simp [Op.entries, Narrow]))

/-- A fact with a timestamp above the positive integers is not released in its time. -/
theorem not_right :
    ∃ (typ : HeapType) (n : TimestampQueues ℕ) (ts limit : UInt64),
      (new typ : TimestampQueues ℕ).addReceivedTuple 1 1 ts 0 = .ok n ∧
        ¬n.Right (.collect limit) := by
  refine ⟨.intAsc, ⟨⟨.intAsc, [⟨(1, 2147483648), priorityOf 2147483648 0⟩]⟩, ⟨.intAsc, []⟩⟩,
    2147483648, 2147483648, rfl, ?_⟩
  rintro ⟨n', ls, rls, hstep, hcol, -⟩
  have hlimit : (2147483648 : UInt64).toNat < sizeT (priorityOf 2147483648 0) := by
    decide +kernel
  have hloop : untilLoop 2147483648
      (⟨.intAsc, [⟨(1, 2147483648), priorityOf 2147483648 0⟩]⟩ : HeapQueue (ℕ × UInt64)) =
        .ok (⟨.intAsc, [⟨(1, 2147483648), priorityOf 2147483648 0⟩]⟩, []) := by
    rw [untilLoop, iterate, untilStep_of_root rfl, if_pos hlimit]
    rfl
  rw [step, getTuplesUntilTimestamp, hloop] at hstep
  cases hstep
  exact absurd hcol.taken.length_eq (by decide)

end

end TimestampQueues

end Meld.Sched
