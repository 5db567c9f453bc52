import Meld.Lib.Arena
import Meld.Lib.Chain

/-!
# The intrusive doubly linked queue

A queue whose links live inside its elements. The program uses it for the nodes that a thread has
to run. An element keeps the links that it had when it leaves through `pop`, and enters again
with them.

`IntrusiveDeque xs` relates a queue to the list `xs` of its elements. It says of an element outside the
queue that nothing comes before it: `push_head` sets only the other link, and relies on this.
-/

namespace Meld.Queue

open Lib

/-- `intrusive_unsafe_double_queue`, and the links `__intrusive_next`, `__intrusive_prev` and
`__intrusive_in_queue` of the elements. -/
structure IntrusiveQueue where
  next : ℕ → Option ℕ
  prev : ℕ → Option ℕ
  inQueue : ℕ → Bool
  head : Option ℕ
  tail : Option ℕ
  total : ℕ

namespace IntrusiveQueue

/-- The constructor, with elements from `INIT_DOUBLE_QUEUE_NODE`. -/
def new : IntrusiveQueue where
  next _ := none
  prev _ := none
  inQueue _ := false
  head := none
  tail := none
  total := 0

/-- `empty`. -/
def empty (q : IntrusiveQueue) : Bool := q.head.isNone

/-- `size`. -/
def size (q : IntrusiveQueue) : ℕ := q.total

/-- `push_head_node`. -/
def pushHeadNode (q : IntrusiveQueue) (newNode : ℕ) : Exec IntrusiveQueue := do
  let q := { q with total := q.total + 1 }
  assert (q.inQueue newNode = false)
  let q := { q with
    inQueue := Function.update q.inQueue newNode true
    next := Function.update q.next newNode q.head }
  let q := { q with tail := if q.tail = none then some newNode else q.tail }
  let q := { q with prev := updateIfSome q.prev q.head (some newNode), head := some newNode }
  let tail ← deref q.tail
  assert (q.next tail = none)
  assert (q.prev newNode = none)
  return q

/-- `push_tail_node`. -/
def pushTailNode (q : IntrusiveQueue) (newNode : ℕ) : Exec IntrusiveQueue := do
  let q := { q with total := q.total + 1 }
  let q := { q with head := if q.head = none then some newNode else q.head }
  let q := { q with prev := Function.update q.prev newNode q.tail }
  let q := { q with next := updateIfSome q.next q.tail (some newNode) }
  assert (q.inQueue newNode = false)
  return { q with
    inQueue := Function.update q.inQueue newNode true
    next := Function.update q.next newNode none
    tail := some newNode }

/-- `push`. -/
def push (q : IntrusiveQueue) (data : ℕ) : Exec IntrusiveQueue := q.pushTailNode data

/-- `push_head`. -/
def pushHead (q : IntrusiveQueue) (data : ℕ) : Exec IntrusiveQueue := q.pushHeadNode data

/-- `pop`, which returns nothing when it says false. -/
def pop (q : IntrusiveQueue) : Exec (IntrusiveQueue × Option ℕ) := do
  if q.empty then
    return (q, none)
  let data ← deref q.head
  let q := { q with head := q.next data }
  let q := { q with
    prev := updateIfSome q.prev q.head none
    tail := if q.head = none then none else q.tail }
  assert (q.inQueue data = true)
  let q := { q with inQueue := Function.update q.inQueue data false }
  assert (q.head.bind q.prev = none)
  assert (q.head = none ↔ q.tail = none)
  return ({ q with total := decSize q.total }, some data)

/-- `pop_if_not_empty`, which returns nothing when it says false. -/
def popIfNotEmpty (q : IntrusiveQueue) : Exec (IntrusiveQueue × Option ℕ) := do
  if q.empty then
    return (q, none)
  let data ← deref q.head
  let second ← deref (q.next data)
  if q.next second = none then
    return (q, none)
  let q := { q with head := some second, prev := Function.update q.prev second none }
  let q := { q with
    prev := Function.update q.prev data none
    next := Function.update q.next data none }
  assert (q.inQueue data = true)
  let q := { q with inQueue := Function.update q.inQueue data false }
  return ({ q with total := decSize q.total }, some data)

/-- `move_up`. -/
def moveUp (q : IntrusiveQueue) (node : ℕ) : Exec IntrusiveQueue := do
  if q.inQueue node = false then
    return q
  match q.prev node with
  | none =>
    assert (q.head = some node)
    return q
  | some prev =>
    let next := q.next node
    let q := { q with next := Function.update q.next prev next }
    let q := { q with prev := updateIfSome q.prev next (some prev) }
    let q := { q with tail := if next = none then some prev else q.tail }
    assert (q.tail ≠ none)
    let q := { q with
      prev := Function.update q.prev node none
      next := Function.update q.next node q.head
      inQueue := Function.update q.inQueue node true }
    let head ← deref q.head
    let q := { q with prev := Function.update q.prev head (some node), head := some node }
    return { q with tail := if q.tail = none then some node else q.tail }

/-- `remove`. -/
def remove (q : IntrusiveQueue) (node : ℕ) : Exec IntrusiveQueue := do
  let prev := q.prev node
  let next := q.next node
  let q := { q with head := if q.head = some node then next else q.head }
  let q := { q with tail := if q.tail = some node then prev else q.tail }
  let q := { q with next := updateIfSome q.next prev next }
  let q := { q with prev := updateIfSome q.prev next prev }
  let q := { q with
    next := Function.update q.next node none
    prev := Function.update q.prev node none }
  assert (q.inQueue node = true)
  return { q with
    inQueue := Function.update q.inQueue node false
    total := decSize q.total }

/-! ### The deque of a queue -/

/-- The queue holds the elements `xs`, front first. -/
structure IntrusiveDeque (q : IntrusiveQueue) (xs : List ℕ) : Prop where
  nodup : xs.Nodup
  linked : Linked q.next q.prev none xs
  head : q.head = xs.head?
  tail : q.tail = xs.getLast?
  total : q.total = xs.length
  flag : ∀ a, q.inQueue a = decide (a ∈ xs)
  outside : ∀ a, a ∉ xs → q.prev a = none

namespace IntrusiveDeque

variable {q : IntrusiveQueue} {xs ys : List ℕ} {a b : ℕ}

theorem new : IntrusiveDeque new [] :=
  ⟨List.nodup_nil, trivial, rfl, rfl, rfl, fun _ => by simp [IntrusiveQueue.new], fun _ _ => rfl⟩

/-- An element comes before the others. -/
theorem linkFront (h : IntrusiveDeque q xs) (ha : a ∉ xs) {q' : IntrusiveQueue}
    (hnext : q'.next = Function.update q.next a q.head)
    (hprev : q'.prev = updateIfSome q.prev q.head (some a))
    (hflag : q'.inQueue = Function.update q.inQueue a true) (hhead : q'.head = some a)
    (htail : q'.tail = (a :: xs).getLast?) (htotal : q'.total = q.total + 1) :
    IntrusiveDeque q' (a :: xs) := by
  have hne : ∀ x ∈ xs, x ≠ a := fun x hx he => ha (he ▸ hx)
  have hout : ∀ x, x ∉ xs → q'.prev x = none := fun x hx => by
    have hx' : q.head ≠ some x := fun he => hx (List.mem_of_head? (h.head.symm.trans he))
    rw [hprev, updateIfSome_apply, if_neg hx', h.outside x hx]
  refine ⟨List.nodup_cons.mpr ⟨ha, h.nodup⟩, ?_, hhead, htail, by simp [htotal, h.total],
    fun x => ?_, fun x hx => ?_⟩
  · rw [hnext, hprev]
    refine h.linked.pushFront h.nodup (hprev ▸ hout a ha) ?_ (fun x hx => ?_) fun x _ => h.head ▸ rfl
    · rw [Function.update_self, h.head]
    · rw [Function.update_of_ne (hne x hx)]
  · rw [hflag]
    by_cases hx : x = a
    · simp [hx]
    · simp [h.flag, hx]
  · rw [List.mem_cons, not_or] at hx
    exact hout x hx.2

/-- A new element at the front. -/
theorem pushHead (h : IntrusiveDeque q xs) (ha : a ∉ xs) :
    ∃ q', q.pushHead a = .ok q' ∧ IntrusiveDeque q' (a :: xs) := by
  have hflag : q.inQueue a = false := by rw [h.flag, decide_eq_false ha]
  have hhead : q.head ≠ some a := fun he => ha (List.mem_of_head? (h.head.symm.trans he))
  have hprev : updateIfSome q.prev q.head (some a) a = none := by
    rw [updateIfSome_apply, if_neg hhead, h.outside a ha]
  have htail : ∃ last, (if q.tail = none then some a else q.tail) = some last ∧
      (a :: xs).getLast? = some last ∧ Function.update q.next a q.head last = none := by
    rcases List.eq_nil_or_concat xs with rfl | ⟨ys, b, rfl⟩
    · exact ⟨a, by rw [h.tail]; rfl, rfl, by rw [Function.update_self, h.head]; rfl⟩
    · rw [List.concat_eq_append] at h ha ⊢
      have hb : b ≠ a := fun he => ha (by simp [he])
      refine ⟨b, by rw [h.tail]; simp, by rw [← List.cons_append, List.getLast?_concat], ?_⟩
      rw [Function.update_of_ne hb, h.linked.at_split.2]
      rfl
  obtain ⟨last, hlast, hlast', hnext⟩ := htail
  refine ⟨{ next := Function.update q.next a q.head
            prev := updateIfSome q.prev q.head (some a)
            inQueue := Function.update q.inQueue a true
            head := some a
            tail := some last
            total := q.total + 1 }, ?_, h.linkFront ha rfl rfl rfl rfl hlast'.symm rfl⟩
  simp only [IntrusiveQueue.pushHead, pushHeadNode, hlast, hflag, deref_some, hnext, hprev,
    assert_pos, ok_bind, pure_eq_ok]

/-- A new element at the back. -/
theorem push (h : IntrusiveDeque q xs) (ha : a ∉ xs) :
    ∃ q', q.push a = .ok q' ∧ IntrusiveDeque q' (xs ++ [a]) := by
  have hflag : q.inQueue a = false := by rw [h.flag, decide_eq_false ha]
  have hne : ∀ x ∈ xs, x ≠ a := fun x hx he => ha (he ▸ hx)
  have hhead : (if q.head = none then some a else q.head) = (xs ++ [a]).head? := by
    rw [h.head]
    cases xs <;> simp
  refine ⟨{ next := Function.update (updateIfSome q.next q.tail (some a)) a none
            prev := Function.update q.prev a q.tail
            inQueue := Function.update q.inQueue a true
            head := (xs ++ [a]).head?
            tail := some a
            total := q.total + 1 }, ?_, ?_⟩
  · simp only [IntrusiveQueue.push, pushTailNode, hhead, hflag, assert_pos, ok_bind,
      pure_eq_ok]
  · refine ⟨?_, ?_, rfl, by simp, by simp [h.total], fun x => ?_, fun x hx => ?_⟩
    · exact List.nodup_append.mpr ⟨h.nodup, List.nodup_singleton a, by simpa using hne⟩
    · refine h.linked.pushBack h.nodup (Function.update_self ..) ?_
        (fun x hx => Function.update_of_ne (hne x hx) _ _) fun x hx => ?_
      · refine (Function.update_self ..).trans ?_
        rw [h.tail]
        split_ifs with hx
        · rw [hx]
          rfl
        · rfl
      · refine (Function.update_of_ne (hne x hx) _ _).trans ?_
        rw [updateIfSome_apply, h.tail]
    · by_cases hx : x = a
      · simp [hx]
      · simp [h.flag, hx]
    · rw [List.mem_append, not_or, List.mem_singleton] at hx
      exact (Function.update_of_ne hx.2 _ _).trans (h.outside x hx.1)

/-- An element leaves and its neighbours point at each other. -/
theorem unlink (xs : List ℕ) (h : IntrusiveDeque q (xs ++ a :: ys)) {q' : IntrusiveQueue}
    (hnext : ∀ x ∈ xs ++ ys, q'.next x = updateIfSome q.next xs.getLast? ys.head? x)
    (hprev : ∀ x, x ≠ a → q'.prev x = updateIfSome q.prev ys.head? xs.getLast? x)
    (hself : q'.prev a = none) (hflag : q'.inQueue = Function.update q.inQueue a false)
    (hhead : q'.head = (xs ++ ys).head?) (htail : q'.tail = (xs ++ ys).getLast?)
    (htotal : q'.total = decSize q.total) : IntrusiveDeque q' (xs ++ ys) := by
  have hnodup := h.nodup
  have hmem : ∀ x, x ∈ xs ++ ys ↔ x ∈ xs ++ a :: ys ∧ x ≠ a := by
    intro x
    have hna : a ∉ xs ++ ys := (List.nodup_cons.mp (List.nodup_middle.mp hnodup)).1
    constructor
    · intro hx
      exact ⟨by simp at hx ⊢; tauto, fun he => hna (he ▸ hx)⟩
    · rintro ⟨hx, hxa⟩
      simp at hx ⊢
      tauto
  have hsub : (xs ++ ys).Nodup := (List.nodup_cons.mp (List.nodup_middle.mp hnodup)).2
  refine ⟨hsub, ?_, hhead, htail, ?_, fun x => ?_, fun x hx => ?_⟩
  · refine h.linked.erase hnodup (fun x hx => ?_) fun x hx => ?_
    · rw [hnext x hx, updateIfSome_apply]
    · rw [hprev x ((hmem x).mp hx).2, updateIfSome_apply]
      have hnil : (if xs = [] then none else xs.getLast?) = xs.getLast? := by
        split_ifs with hx
        · rw [hx]
          rfl
        · rfl
      rw [hnil]
  · rw [htotal, h.total, decSize]
    simp
  · rw [hflag]
    by_cases hx : x = a
    · subst hx
      simp [hmem]
    · simp [hx, h.flag, hmem]
  · by_cases hxa : x = a
    · exact hxa ▸ hself
    · have hout : x ∉ xs ++ a :: ys := fun hin => hx ((hmem x).mpr ⟨hin, hxa⟩)
      have hhead' : ys.head? ≠ some x := fun he => hx (List.mem_append_right _ (List.mem_of_head? he))
      rw [hprev x hxa, updateIfSome_apply, if_neg hhead', h.outside x hout]

/-- `pop` takes the front element. -/
theorem pop (h : IntrusiveDeque q xs) :
    ∃ q', q.pop = .ok (q', xs.head?) ∧ IntrusiveDeque q' xs.tail := by
  cases xs with
  | nil => exact ⟨q, by simp [IntrusiveQueue.pop, empty, h.head], h⟩
  | cons a ys =>
    have hhead : q.head = some a := h.head
    have hnext : q.next a = ys.head? := h.linked.2.1
    have hflag : q.inQueue a = true := by rw [h.flag, decide_eq_true (by simp)]
    have hprev : ys.head?.bind (updateIfSome q.prev ys.head? none) = none := by
      cases ys with
      | nil => rfl
      | cons b ys => exact if_pos rfl
    have hends : ys.head? = none ↔ (if ys.head? = none then none else q.tail) = none := by
      rw [h.tail]
      cases ys <;> simp
    refine ⟨{ next := q.next
              prev := updateIfSome q.prev ys.head? none
              inQueue := Function.update q.inQueue a false
              head := ys.head?
              tail := if ys.head? = none then none else q.tail
              total := decSize q.total }, ?_, ?_⟩
    · simp only [IntrusiveQueue.pop, empty, hhead, deref_some, ok_bind, hnext, hflag, assert_pos,
        hprev, Option.isNone_some, Bool.false_eq_true, if_false, pure_eq_ok, List.head?_cons]
      rw [assert_pos hends]
      rfl
    · refine h.unlink [] (fun x _ => rfl) (fun x _ => rfl) ?_ rfl rfl ?_ rfl
      · change updateIfSome q.prev ys.head? none a = none
        rw [updateIfSome_apply]
        split_ifs
        · rfl
        · exact h.linked.1
      · rw [h.tail]
        cases ys <;> simp

/-- `remove` takes out the element. -/
theorem remove (h : IntrusiveDeque q xs) (ha : a ∈ xs) :
    ∃ q', q.remove a = .ok q' ∧ IntrusiveDeque q' (xs.erase a) := by
  obtain ⟨ys, zs, rfl⟩ := List.append_of_mem ha
  obtain ⟨hprev, hnext⟩ := h.linked.at_split
  have hna : a ∉ ys ++ zs := (List.nodup_cons.mp (List.nodup_middle.mp h.nodup)).1
  have hflag : q.inQueue a = true := by rw [h.flag, decide_eq_true (by simp)]
  have herase : (ys ++ a :: zs).erase a = ys ++ zs := by
    rw [List.erase_append_right _ fun hy => hna (List.mem_append_left _ hy), List.erase_cons_head]
  have hhead : (if q.head = some a then zs.head? else q.head) = (ys ++ zs).head? := by
    rw [h.head]
    cases ys with
    | nil => simp
    | cons b ys =>
      have hb : b ≠ a := fun he => hna (by simp [he])
      simp [hb]
  have htail : (if q.tail = some a then ys.getLast? else q.tail) = (ys ++ zs).getLast? := by
    rw [h.tail]
    rcases List.eq_nil_or_concat zs with rfl | ⟨zs, b, rfl⟩
    · simp
    · rw [List.concat_eq_append] at hna ⊢
      have hb : b ≠ a := fun he => hna (by simp [he])
      rw [← List.cons_append, ← List.append_assoc, ← List.append_assoc, List.getLast?_concat,
        List.getLast?_concat, if_neg (by simpa using hb)]
  rw [herase]
  refine ⟨{ next := Function.update (updateIfSome q.next ys.getLast? zs.head?) a none
            prev := Function.update (updateIfSome q.prev zs.head? ys.getLast?) a none
            inQueue := Function.update q.inQueue a false
            head := (ys ++ zs).head?
            tail := (ys ++ zs).getLast?
            total := decSize q.total }, ?_, h.unlink _ (fun x hx => ?_) (fun x hx => ?_) ?_
          rfl rfl rfl rfl⟩
  · simp only [IntrusiveQueue.remove, hprev, hnext, hhead, htail, hflag,
      assert_pos, ok_bind, pure_eq_ok]
  · have hxa : x ≠ a := fun he => hna (he ▸ hx)
    exact Function.update_of_ne hxa _ _
  · exact Function.update_of_ne hx _ _
  · exact Function.update_self ..

/-- `move_up` makes an element of the queue the first one. -/
theorem moveUp (h : IntrusiveDeque q xs) :
    ∃ q', q.moveUp a = .ok q' ∧
      IntrusiveDeque q' (if a ∈ xs then a :: xs.erase a else xs) := by
  by_cases ha : a ∈ xs
  · have hflag : q.inQueue a = true := by rw [h.flag, decide_eq_true ha]
    obtain ⟨ys, zs, rfl⟩ := List.append_of_mem ha
    obtain ⟨hprev, hnext⟩ := h.linked.at_split
    have hna : a ∉ ys ++ zs := (List.nodup_cons.mp (List.nodup_middle.mp h.nodup)).1
    have herase : (ys ++ a :: zs).erase a = ys ++ zs := by
      rw [List.erase_append_right _ fun hy => hna (List.mem_append_left _ hy),
        List.erase_cons_head]
    rw [if_pos ha, herase]
    rcases List.eq_nil_or_concat ys with rfl | ⟨ws, b, rfl⟩
    · -- the element is the first one already
      have hhead : q.head = some a := h.head
      refine ⟨q, ?_, h⟩
      simp only [IntrusiveQueue.moveUp, hflag, hprev, hhead, List.getLast?_nil, assert_pos,
        ok_bind, pure_eq_ok, Bool.true_eq_false, if_false]
    · rw [List.concat_eq_append] at h hprev hna ⊢
      rw [List.getLast?_concat] at hprev
      -- `a` is not the first element
      obtain ⟨first, hfirst⟩ : ∃ first, q.head = some first := by
        rw [h.head]
        cases ws <;> simp
      have htail : q.tail ≠ none := by
        rw [h.tail]
        simp
      have htail' : (if zs.head? = none then some b else q.tail) = (ws ++ [b] ++ zs).getLast? := by
        rw [h.tail]
        cases zs <;> simp
      have hsome : (ws ++ [b] ++ zs).getLast? ≠ none := by simp
      -- what is left without `a` is a queue
      have hmid : IntrusiveDeque
          { next := Function.update q.next b zs.head?
            prev := Function.update (updateIfSome q.prev zs.head? (some b)) a none
            inQueue := Function.update q.inQueue a false
            head := some first
            tail := (ws ++ [b] ++ zs).getLast?
            total := decSize q.total } (ws ++ [b] ++ zs) := by
        refine h.unlink _ (fun x _ => ?_) (fun x hx => ?_) (Function.update_self ..) rfl ?_ rfl rfl
        · rw [List.getLast?_concat, updateIfSome_some]
        · rw [List.getLast?_concat]
          exact Function.update_of_ne hx _ _
        · rw [← hfirst, h.head]
          cases ws <;> simp
      refine ⟨{ next := Function.update (Function.update q.next b zs.head?) a (some first)
                prev := Function.update (Function.update
                  (updateIfSome q.prev zs.head? (some b)) a none) first (some a)
                inQueue := Function.update q.inQueue a true
                head := some a
                tail := (ws ++ [b] ++ zs).getLast?
                total := q.total }, ?_, hmid.linkFront hna rfl ?_ ?_ rfl ?_ ?_⟩
      · simp only [IntrusiveQueue.moveUp, hflag, hprev, hnext, hfirst, htail', hsome, deref_some,
          assert_pos, ok_bind, pure_eq_ok, Bool.true_eq_false, if_false, ne_eq, not_false_eq_true]
      · exact (updateIfSome_some ..).symm
      · exact (Function.update_idem ..).symm
      · obtain ⟨last, hlast⟩ := Option.ne_none_iff_exists'.mp hsome
        rw [List.getLast?_cons, hlast]
        rfl
      · have hne : q.total ≠ 0 := by
          rw [h.total]
          simp
        change q.total = decSize q.total + 1
        rw [decSize, if_neg hne]
        omega
  · have hflag : q.inQueue a = false := by rw [h.flag, decide_eq_false ha]
    rw [if_neg ha]
    exact ⟨q, by simp [IntrusiveQueue.moveUp, hflag], h⟩

end IntrusiveDeque

/-! ### Runs -/

/-- The operations on the queue. -/
inductive Op
  | push (a : ℕ)
  | pushHead (a : ℕ)
  | pop
  | moveUp (a : ℕ)
  | remove (a : ℕ)
  deriving DecidableEq, Repr

namespace Op

/-- What an operation does to a queue, and the element that `pop` returns. -/
def run (q : IntrusiveQueue) : Op → Exec (IntrusiveQueue × Option ℕ)
  | push a => do return (← q.push a, none)
  | pushHead a => do return (← q.pushHead a, none)
  | pop => q.pop
  | moveUp a => do return (← q.moveUp a, none)
  | remove a => do return (← q.remove a, none)

/-- What an operation does to a deque. -/
def effect (xs : List ℕ) : Op → List ℕ × Option ℕ
  | push a => (xs ++ [a], none)
  | pushHead a => (a :: xs, none)
  | pop => (xs.tail, xs.head?)
  | moveUp a => (a :: xs.erase a, none)
  | remove a => (xs.erase a, none)

/-- An element enters when it is outside, and moves or is removed when it is inside. -/
def Legal (xs : List ℕ) : Op → Prop
  | push a => a ∉ xs
  | pushHead a => a ∉ xs
  | pop => True
  | moveUp a => a ∈ xs
  | remove a => a ∈ xs

end Op

/-- An operation that the deque allows has its effect. -/
theorem IntrusiveDeque.step {q : IntrusiveQueue} {xs : List ℕ} {op : Op}
    (h : IntrusiveDeque q xs) (hop : op.Legal xs) :
    ∃ q', op.run q = .ok (q', (op.effect xs).2) ∧ IntrusiveDeque q' (op.effect xs).1 := by
  cases op with
  | push a =>
    obtain ⟨q', hok, h'⟩ := h.push hop
    exact ⟨q', by simp only [Op.run, hok, ok_bind, pure_eq_ok, Op.effect], h'⟩
  | pushHead a =>
    obtain ⟨q', hok, h'⟩ := h.pushHead hop
    exact ⟨q', by simp only [Op.run, hok, ok_bind, pure_eq_ok, Op.effect], h'⟩
  | pop => exact h.pop
  | moveUp a =>
    obtain ⟨q', hok, h'⟩ := h.moveUp (a := a)
    rw [if_pos (show a ∈ xs from hop)] at h'
    exact ⟨q', by simp only [Op.run, hok, ok_bind, pure_eq_ok, Op.effect], h'⟩
  | remove a =>
    obtain ⟨q', hok, h'⟩ := h.remove hop
    exact ⟨q', by simp only [Op.run, hok, ok_bind, pure_eq_ok, Op.effect], h'⟩

/-- The operations one after the other, and what each returns. -/
def runAll (q : IntrusiveQueue) : List Op → Exec (IntrusiveQueue × List (Option ℕ))
  | [] => pure (q, [])
  | op :: ops => do
    let (q, out) ← op.run q
    let (q, outs) ← runAll q ops
    return (q, out :: outs)

/-- The same on a deque. -/
def serveAll (xs : List ℕ) : List Op → List ℕ × List (Option ℕ)
  | [] => (xs, [])
  | op :: ops =>
    let (xs, out) := op.effect xs
    let (xs, outs) := serveAll xs ops
    (xs, out :: outs)

/-- Every operation is legal where it is done. -/
def LegalRun (xs : List ℕ) : List Op → Prop
  | [] => True
  | op :: ops => op.Legal xs ∧ LegalRun (op.effect xs).1 ops

theorem IntrusiveDeque.runAll {q : IntrusiveQueue} {xs : List ℕ} {ops : List Op}
    (h : IntrusiveDeque q xs) (hops : LegalRun xs ops) :
    ∃ q', q.runAll ops = .ok (q', (serveAll xs ops).2) ∧
      IntrusiveDeque q' (serveAll xs ops).1 := by
  induction ops generalizing q xs with
  | nil => exact ⟨q, rfl, h⟩
  | cons op ops ih =>
    obtain ⟨q₁, hok, h₁⟩ := h.step hops.1
    obtain ⟨q', hrun, h'⟩ := ih h₁ hops.2
    exact ⟨q', by simp only [IntrusiveQueue.runAll, hok, ok_bind, hrun]; rfl, h'⟩

/-- The intrusive queue refines a deque. After every run of operations that the deque allows, with
the results that it gives, the links from the head on visit the elements of the deque in order and
those from the tail on visit them backwards, and the size is their number. -/
theorem runAll_refines {ops : List Op} (h : LegalRun [] ops) :
    ∃ q, new.runAll ops = .ok (q, (serveAll [] ops).2) ∧
      follow q.next q.size q.head = .ok (serveAll [] ops).1 ∧
      follow q.prev q.size q.tail = .ok (serveAll [] ops).1.reverse ∧
      q.size = (serveAll [] ops).1.length := by
  obtain ⟨q, hrun, hq⟩ := IntrusiveDeque.new.runAll h
  have hback := hq.linked.backward.follow_eq
  rw [List.length_reverse, ← hq.total, ← hq.tail] at hback
  have hforth := hq.linked.forward.follow_eq
  rw [← hq.total, ← hq.head] at hforth
  exact ⟨q, hrun, hforth, hback, hq.total⟩

/-- Two elements, one popped and pushed at the front again with the link it kept. -/
theorem runAll_refines_again : ∃ q,
    new.runAll [.push 3, .push 5, .pop, .pushHead 3, .moveUp 5, .remove 3] =
      .ok (q, [none, none, some 3, none, none, none]) ∧
    follow q.next q.size q.head = .ok [5] ∧ follow q.prev q.size q.tail = .ok [5] ∧ q.size = 1 := by
  have hlegal : LegalRun [] [.push 3, .push 5, .pop, .pushHead 3, .moveUp 5, .remove 3] := by
    simp [LegalRun, Op.Legal, Op.effect]
  exact runAll_refines hlegal

end IntrusiveQueue

end Meld.Queue
