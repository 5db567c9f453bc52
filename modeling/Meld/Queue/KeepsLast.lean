import Meld.Queue.IntrusiveQueue
import Meld.Queue.SentinelQueue

/-!
# Taking an element but not the last one

`pop_if_not_empty` is for stealing work: it takes the front element of a queue with two or more, and
leaves a single element to the owner. `KeepsLast` says so for any queue.

`safe_linear_queue` does this, and looks two links ahead of its head, which is no element. The
intrusive queues look two links ahead as well, but their head is the first element: with two
elements they take none, and with one they follow a null link.
-/

namespace Meld.Queue

open Lib QueueNodes

/-- `pop_if_not_empty` takes the front one of two or more elements, and leaves the queue as it is
otherwise. -/
def KeepsLast {Q A : Type} (holds : Q → List A → Prop) (popIfNotEmpty : Q → Exec (Q × Option A))
    (q : Q) : List A → Prop
  | x :: y :: rest => ∃ q', popIfNotEmpty q = .ok (q', some x) ∧ holds q' (y :: rest)
  | _ => popIfNotEmpty q = .ok (q, none)

/-- What a call that keeps the last element leaves behind. -/
theorem KeepsLast.holds {Q A : Type} {holds : Q → List A → Prop} {pop : Q → Exec (Q × Option A)}
    {q q' : Q} {xs : List A} {out : Option A} (h : KeepsLast holds pop q xs) (hq : holds q xs)
    (hrun : pop q = .ok (q', out)) : holds q' (if out.isSome then xs.tail else xs) := by
  match xs, h with
  | [], h | [x], h =>
    have hsame : pop q = .ok (q, none) := h
    rw [hrun, Except.ok.injEq, Prod.mk.injEq] at hsame
    obtain ⟨rfl, rfl⟩ := hsame
    exact hq
  | x :: y :: rest, h =>
    obtain ⟨q₁, hok, hrest⟩ := h
    rw [hrun, Except.ok.injEq, Prod.mk.injEq] at hok
    obtain ⟨rfl, rfl⟩ := hok
    exact hrest

/-! ### The linear queue -/

namespace SafeLinear

/-- A queue with its memory. -/
abbrev State (T : Type) := QueueNodes T × SentinelQueue

variable {T : Type}

/-- `pop_if_not_empty` of a queue with its memory. -/
def State.popIfNotEmpty (s : State T) : Exec (State T × Option T) := do
  let (N, q, out) ← SafeLinear.popIfNotEmpty s.1 s.2
  return ((N, q), out)

/-- The elements of a queue. -/
def State.Contents (s : State T) (xs : List T) : Prop :=
  ∃ l, SentinelQueue.Holds s.1 s.2 l ∧ l.map s.1.data = xs

/-- The queues that the operations lead to, with their elements. -/
inductive Reached [Inhabited T] : State T → List T → Prop
  | new (N : QueueNodes T) : Reached (SentinelQueue.new N) []
  | push {s s' : State T} {xs : List T} {el : T} (h : Reached s xs)
      (hrun : push s.1 s.2 el = .ok s') : Reached s' (xs ++ [el])
  | pop {s : State T} {N : QueueNodes T} {q : SentinelQueue} {xs : List T} {out : Option T}
      (h : Reached s xs) (hrun : pop s.1 s.2 = .ok (N, q, out)) : Reached (N, q) xs.tail
  | popIfNotEmpty {s s' : State T} {xs : List T} {out : Option T} (h : Reached s xs)
      (hrun : s.popIfNotEmpty = .ok (s', out)) :
      Reached s' (if out.isSome then xs.tail else xs)

theorem State.Contents.keepsLast {s : State T} {xs : List T} (h : s.Contents xs) :
    KeepsLast State.Contents State.popIfNotEmpty s xs := by
  obtain ⟨l, hl, rfl⟩ := h
  match l, hl with
  | [], hl =>
    change State.popIfNotEmpty s = _
    rw [State.popIfNotEmpty, popIfNotEmpty_eq_of_lt hl (by simp)]
    rfl
  | [a], hl =>
    change State.popIfNotEmpty s = _
    rw [State.popIfNotEmpty, popIfNotEmpty_eq_of_lt hl (by simp)]
    rfl
  | a :: b :: l, hl =>
    obtain ⟨N', q', hrun, hres, hdata⟩ := popIfNotEmpty_spec hl
    exact ⟨(N', q'), by rw [State.popIfNotEmpty, hrun]; rfl, b :: l, hres, by simp [hdata]⟩

theorem Reached.contents [Inhabited T] {s : State T} {xs : List T} (h : Reached s xs) :
    s.Contents xs := by
  induction h with
  | new N => exact ⟨[], (SentinelQueue.Holds.new N).1, rfl⟩
  | push _ hrun ih =>
    rename_i s s' xs el _
    obtain ⟨l, hl, rfl⟩ := ih
    obtain ⟨N', q', hok, hres, hdata⟩ := push_spec hl el
    rw [hrun, Except.ok.injEq] at hok
    have hnew := next_notMem fun a ha => hl.live a (List.mem_cons_of_mem _ ha)
    exact hok ▸ ⟨_, hres, by rw [hdata, map_data_concat hnew]⟩
  | pop _ hrun ih =>
    obtain ⟨l, hl, rfl⟩ := ih
    obtain ⟨N', q', hok, hres, hdata⟩ := pop_spec hl
    rw [hrun, Except.ok.injEq, Prod.mk.injEq, Prod.mk.injEq] at hok
    obtain ⟨rfl, rfl, -⟩ := hok
    exact ⟨l.tail, hres, by rw [hdata, List.map_tail]⟩
  | popIfNotEmpty _ hrun ih => exact ih.keepsLast.holds ih hrun

end SafeLinear

/-! ### The intrusive queues -/

namespace IntrusiveQueue

/-- `pop_if_not_empty` of `intrusive_safe_double_queue`, under its lock. -/
def safePopIfNotEmpty (q : IntrusiveQueue) : Exec (IntrusiveQueue × Option ℕ) :=
  if q.empty then pure (q, none) else q.popIfNotEmpty

theorem safePopIfNotEmpty_eq : safePopIfNotEmpty = popIfNotEmpty := by
  funext q
  rw [safePopIfNotEmpty]
  split_ifs with h
  · rw [popIfNotEmpty, if_pos h]
  · rfl

/-- The queues that the operations lead to, with their elements. -/
inductive Reached : IntrusiveQueue → List ℕ → Prop
  | new : Reached new []
  | op {q q' : IntrusiveQueue} {xs : List ℕ} {op : Op} {out : Option ℕ} (h : Reached q xs)
      (hop : op.Legal xs) (hrun : op.run q = .ok (q', out)) : Reached q' (op.effect xs).1
  | popIfNotEmpty {q q' : IntrusiveQueue} {xs : List ℕ} {out : Option ℕ} (h : Reached q xs)
      (hrun : q.popIfNotEmpty = .ok (q', out)) : Reached q' (if out.isSome then xs.tail else xs)

namespace IntrusiveDeque

variable {q : IntrusiveQueue} {xs : List ℕ} {a b c : ℕ}

/-- With one element `pop_if_not_empty` follows a null link. -/
theorem popIfNotEmpty_one (h : IntrusiveDeque q [a]) : q.popIfNotEmpty = .error .dangling := by
  have hhead : q.head = some a := h.head
  have hnext : q.next a = none := h.linked.2.1
  rw [popIfNotEmpty, empty, hhead, Option.isNone_some, if_neg Bool.false_ne_true, deref_some,
    ok_bind, hnext]
  exact error_bind ..

/-- With two elements `pop_if_not_empty` takes none. -/
theorem popIfNotEmpty_two (h : IntrusiveDeque q [a, b]) : q.popIfNotEmpty = .ok (q, none) := by
  have hhead : q.head = some a := h.head
  have hnext : q.next a = some b := h.linked.2.1
  have hlast : q.next b = none := h.linked.2.2.2.1
  simp only [popIfNotEmpty, empty, hhead, hnext, hlast, Option.isNone_some, Bool.false_eq_true,
    if_false, deref_some, ok_bind, if_true, pure_eq_ok]

/-- With three elements `pop_if_not_empty` takes the first. -/
theorem popIfNotEmpty_three (h : IntrusiveDeque q (a :: b :: c :: xs)) :
    ∃ q', q.popIfNotEmpty = .ok (q', some a) ∧ IntrusiveDeque q' (b :: c :: xs) := by
  have hhead : q.head = some a := h.head
  have hnext : q.next a = some b := h.linked.2.1
  have hnext' : q.next b = some c := h.linked.2.2.2.1
  have hflag : q.inQueue a = true := by rw [h.flag, decide_eq_true (by simp)]
  have hna : a ∉ b :: c :: xs := (List.nodup_cons.mp h.nodup).1
  refine ⟨{
      next := Function.update q.next a none
      prev := Function.update (Function.update q.prev b none) a none
      inQueue := Function.update q.inQueue a false
      head := some b
      tail := q.tail
      total := decSize q.total }, ?_, h.unlink [] (fun x hx => ?_) (fun x hx => ?_) (Function.update_self ..) rfl
    rfl ?_ rfl⟩
  · simp only [popIfNotEmpty, empty, hhead, hnext, hnext', hflag, Option.isNone_some,
      Bool.false_eq_true, if_false, deref_some, ok_bind, assert_pos, pure_eq_ok, reduceCtorEq]
  · have hne : x ≠ a := fun he => hna (he ▸ hx)
    exact Function.update_of_ne hne _ _
  · refine (Function.update_of_ne hx _ _).trans ?_
    rw [← updateIfSome_some]
    rfl
  · change q.tail = (b :: c :: xs).getLast?
    rw [h.tail, List.getLast?_cons_cons]

/-- `pop_if_not_empty` keeps the last element when there are neither one nor two. -/
theorem keepsLast_deque_iff (h : IntrusiveDeque q xs) :
    KeepsLast IntrusiveDeque popIfNotEmpty q xs ↔ xs.length ≠ 1 ∧ xs.length ≠ 2 := by
  match xs, h with
  | [], h =>
    have hempty : q.empty = true := by rw [empty, h.head]; rfl
    have hnone : q.popIfNotEmpty = .ok (q, none) := by rw [popIfNotEmpty, if_pos hempty]; rfl
    simpa [KeepsLast] using hnone
  | [a], h => simp [KeepsLast, h.popIfNotEmpty_one]
  | [a, b], h => simp [KeepsLast, h.popIfNotEmpty_two]
  | a :: b :: c :: xs, h => simpa [KeepsLast] using h.popIfNotEmpty_three

end IntrusiveDeque

theorem Reached.deque {q : IntrusiveQueue} {xs : List ℕ} (h : Reached q xs) :
    IntrusiveDeque q xs := by
  induction h with
  | new => exact .new
  | op _ hop hrun ih =>
    obtain ⟨q', hok, hq'⟩ := ih.step hop
    rw [hrun, Except.ok.injEq, Prod.mk.injEq] at hok
    exact hok.1 ▸ hq'
  | popIfNotEmpty h hrun ih =>
    rename_i q q' xs out
    match xs, ih with
    | [], ih =>
      exact (ih.keepsLast_deque_iff.mpr (by simp)).holds ih hrun
    | [a], ih =>
      rw [ih.popIfNotEmpty_one] at hrun
      cases hrun
    | [a, b], ih =>
      rw [ih.popIfNotEmpty_two, Except.ok.injEq, Prod.mk.injEq] at hrun
      obtain ⟨rfl, rfl⟩ := hrun
      exact ih
    | a :: b :: c :: xs, ih => exact (ih.keepsLast_deque_iff.mpr (by simp)).holds ih hrun

end IntrusiveQueue

/-- In every state that it reaches `safe_linear_queue` keeps its last element, and both intrusive
queues do so exactly when they have neither one nor two elements. -/
theorem keepsLast_iff (T : Type) [Inhabited T] :
    (∀ (s : SafeLinear.State T) (xs : List T), SafeLinear.Reached s xs →
      KeepsLast SafeLinear.State.Contents SafeLinear.State.popIfNotEmpty s xs) ∧
    ∀ pop ∈ [IntrusiveQueue.popIfNotEmpty, IntrusiveQueue.safePopIfNotEmpty],
      ∀ (q : IntrusiveQueue) (xs : List ℕ), IntrusiveQueue.Reached q xs →
        (KeepsLast IntrusiveQueue.IntrusiveDeque pop q xs ↔ xs.length ≠ 1 ∧ xs.length ≠ 2) := by
  refine ⟨fun s xs h => h.contents.keepsLast, fun pop hpop q xs h => ?_⟩
  simp only [List.mem_cons, List.not_mem_nil, or_false, IntrusiveQueue.safePopIfNotEmpty_eq,
    or_self] at hpop
  exact hpop ▸ h.deque.keepsLast_deque_iff

/-- An intrusive queue with three elements keeps its last one. -/
theorem keepsLast_iff_three : ∃ q, IntrusiveQueue.Reached q [1, 2, 3] ∧
    KeepsLast IntrusiveQueue.IntrusiveDeque IntrusiveQueue.safePopIfNotEmpty q [1, 2, 3] := by
  have hpush : ∀ q xs a, IntrusiveQueue.Reached q xs → a ∉ xs →
      ∃ q', IntrusiveQueue.Reached q' (xs ++ [a]) := fun q xs a h ha => by
    have hop : IntrusiveQueue.Op.Legal xs (.push a) := ha
    obtain ⟨q', hok, -⟩ := h.deque.step hop
    exact ⟨q', h.op hop hok⟩
  obtain ⟨q₁, h₁⟩ := hpush _ [] 1 .new (by decide)
  obtain ⟨q₂, h₂⟩ := hpush q₁ [1] 2 h₁ (by decide)
  obtain ⟨q₃, h₃⟩ := hpush q₂ [1, 2] 3 h₂ (by decide)
  exact ⟨q₃, h₃, ((keepsLast_iff ℕ).2 _ (by simp) q₃ _ h₃).mpr (by decide)⟩

/-- The call on an intrusive queue with one element ends at a null link, and that on one with two
elements takes none. -/
theorem not_keepsLast : ∃ q₁ q₂, IntrusiveQueue.Reached q₁ [1] ∧
    q₁.popIfNotEmpty = .error .dangling ∧ IntrusiveQueue.Reached q₂ [1, 2] ∧
    q₂.popIfNotEmpty = .ok (q₂, none) ∧
    ¬KeepsLast IntrusiveQueue.IntrusiveDeque IntrusiveQueue.popIfNotEmpty q₁ [1] ∧
    ¬KeepsLast IntrusiveQueue.IntrusiveDeque IntrusiveQueue.popIfNotEmpty q₂ [1, 2] := by
  have hop₁ : IntrusiveQueue.Op.Legal [] (.push 1) := List.not_mem_nil
  obtain ⟨q₁, hok₁, hq₁⟩ := IntrusiveQueue.IntrusiveDeque.new.step hop₁
  have h₁ : IntrusiveQueue.Reached q₁ [1] := .op .new hop₁ hok₁
  have hop₂ : IntrusiveQueue.Op.Legal [1] (.push 2) := (by decide : (2 : ℕ) ∉ [1])
  obtain ⟨q₂, hok₂, hq₂⟩ := hq₁.step hop₂
  have h₂ : IntrusiveQueue.Reached q₂ [1, 2] := h₁.op hop₂ hok₂
  refine ⟨q₁, q₂, h₁, hq₁.popIfNotEmpty_one, h₂, hq₂.popIfNotEmpty_two, ?_, ?_⟩
  · simp [KeepsLast, hq₁.popIfNotEmpty_one]
  · simp [KeepsLast, hq₂.popIfNotEmpty_two]

end Meld.Queue
