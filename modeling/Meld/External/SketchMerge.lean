import Meld.Lib.Exec
import Meld.Runtime.List

/-!
# Merging sketches

`demergemessages` merges two messages of the degree sketch: a list with the bitwise OR of the two at
each position. The results are collected on a stack, and `from_stack_to_reverse_list` makes a list
of it that has the last result in front; `from_stack_to_list` would have kept the order. The merge is
a positionwise OR that is turned around, so it has the laws of an OR exactly on lists that read the
same backwards (`demergemessages_lawful_iff`).
-/

namespace Meld.External

open Lib Meld.Runtime

/-! ### The external function -/

/-- A `stack_int_list`, with its top in front. -/
abbrev StackIntList := List Int32

/-- The loop of `demergemessages`. -/
def demergeLoop : List Int32 → List Int32 → StackIntList → Exec StackIntList
  | [], _, s => pure s
  | _ :: _, [], _ => .error .assertion
  | x :: ls1, y :: ls2, s => demergeLoop ls1 ls2 ((x ||| y) :: s)

/-- `demergemessages`. -/
def demergemessages (v1 v2 : List Int32) : Exec (List Int32) := do
  return fromStackToReverseList (← demergeLoop v1 v2 [])

/-- One message after another is merged into the first. -/
def mergeAll : List Int32 → List (List Int32) → Exec (List Int32) := List.foldlM demergemessages

/-! ### The positionwise OR -/

/-- The bitwise OR at each position. -/
def orList : List Int32 → List Int32 → List Int32 := List.zipWith (· ||| ·)

variable {u v w x y : List Int32}

/-- The union of sketches is commutative. -/
theorem orList_comm (u v : List Int32) : orList u v = orList v u :=
  List.zipWith_comm_of_comm Int32.or_comm

/-- The union of sketches is associative. -/
theorem orList_assoc (u v w : List Int32) : orList (orList u v) w = orList u (orList v w) := by
  unfold orList
  induction u generalizing v w with
  | nil => rfl
  | cons a u ih =>
    cases v with
    | nil => rfl
    | cons b v =>
      cases w with
      | nil => rfl
      | cons c w => simp only [List.zipWith_cons_cons, ih, Int32.or_assoc]

/-- The union of sketches is idempotent. -/
@[simp] theorem orList_self (u : List Int32) : orList u u = u := by
  unfold orList
  induction u with
  | nil => rfl
  | cons a u ih => rw [List.zipWith_cons_cons, ih, Int32.or_self]

/-- Sketches of one length have a union of that length. -/
theorem length_orList (h : u.length = v.length) : (orList u v).length = u.length := by
  rw [orList, List.length_zipWith, h, Nat.min_self]

/-- The union of reversed sketches is the reversed union. -/
theorem reverse_orList (h : u.length = v.length) :
    (orList u v).reverse = orList u.reverse v.reverse :=
  List.reverse_zipWith h

/-- The OR of all messages covers each of them. -/
theorem orList_foldl_of_mem (m : List Int32) (ms : List (List Int32)) :
    ∀ a ∈ m :: ms, orList a (ms.foldl orList m) = ms.foldl orList m := by
  induction ms generalizing m with
  | nil =>
    intro a ha
    rw [List.mem_singleton.mp ha]
    exact orList_self m
  | cons b ms ih =>
    intro a ha
    rw [List.foldl_cons]
    have hcover := ih (orList m b) _ List.mem_cons_self
    rcases List.mem_cons.mp ha with rfl | ha
    · rw [← hcover, ← orList_assoc, ← orList_assoc, orList_self]
    · rcases List.mem_cons.mp ha with rfl | ha
      · rw [← hcover, ← orList_assoc, orList_comm a (orList m a), orList_assoc m a a, orList_self]
      · exact ih (orList m b) a (List.mem_cons_of_mem _ ha)

/-- It is covered by whatever covers all of them. -/
theorem foldl_orList_of_forall (m : List Int32) (ms : List (List Int32))
    (h : ∀ a ∈ m :: ms, orList a y = y) : orList (ms.foldl orList m) y = y := by
  induction ms generalizing m with
  | nil => exact h m List.mem_cons_self
  | cons b ms ih =>
    refine ih (orList m b) fun a ha => ?_
    rcases List.mem_cons.mp ha with rfl | ha
    · rw [orList_assoc, h b (List.mem_cons_of_mem _ List.mem_cons_self), h m List.mem_cons_self]
    · exact h a (List.mem_cons_of_mem _ (List.mem_cons_of_mem _ ha))

/-- The OR of messages depends on which messages there are only. -/
theorem foldl_orList_congr {m m' : List Int32} {ms ms' : List (List Int32)}
    (h : ∀ a, a ∈ m :: ms ↔ a ∈ m' :: ms') : ms.foldl orList m = ms'.foldl orList m' := by
  have hle := foldl_orList_of_forall m ms fun a ha => orList_foldl_of_mem m' ms' a ((h a).mp ha)
  have hge := foldl_orList_of_forall m' ms' fun a ha => orList_foldl_of_mem m ms a ((h a).mpr ha)
  rw [← hle, orList_comm, hge]

/-! ### What the merge computes -/

/-- The loop pushes the union onto the stack. -/
theorem demergeLoop_eq (h : u.length = v.length) (s : StackIntList) :
    demergeLoop u v s = .ok ((orList u v).reverse ++ s) := by
  induction u generalizing v s with
  | nil => rfl
  | cons a u ih =>
    cases v with
    | nil => cases h
    | cons b v =>
      rw [demergeLoop, ih (Nat.succ.inj h), orList, List.zipWith_cons_cons, List.reverse_cons,
        List.append_assoc]
      rfl

/-- The merge of two messages is their OR, backwards. -/
theorem demergemessages_eq (h : u.length = v.length) :
    demergemessages u v = .ok (orList u v).reverse := by
  rw [demergemessages, demergeLoop_eq h, ok_bind, fromStackToReverseList_eq, List.append_nil]
  rfl

/-- A merge is the OR of the messages exactly when the OR reads the same backwards. -/
theorem demergemessages_eq_orList_iff (h : u.length = v.length) :
    demergemessages u v = .ok (orList u v) ↔ (orList u v).reverse = orList u v := by
  rw [demergemessages_eq h, Except.ok.injEq]

/-- What a merge is expected to do with the messages of a set. -/
structure Lawful (S : Set (List Int32)) : Prop where
  eq_or : ∀ u ∈ S, ∀ v ∈ S, demergemessages u v = .ok (orList u v)
  comm : ∀ u ∈ S, ∀ v ∈ S, demergemessages u v = demergemessages v u
  assoc : ∀ u ∈ S, ∀ v ∈ S, ∀ w ∈ S,
    (do demergemessages (← demergemessages u v) w) = do demergemessages u (← demergemessages v w)
  idem : ∀ u ∈ S, demergemessages u u = .ok u
  mergeAll : ∀ m ms m' ms', (∀ a ∈ m :: ms, a ∈ S) → (∀ a, a ∈ m :: ms ↔ a ∈ m' :: ms') →
    mergeAll m ms = mergeAll m' ms'

/-- A list of the length that reads the same backwards. -/
def Palindromic (n : ℕ) (u : List Int32) : Prop := u.length = n ∧ u.reverse = u

section

variable {n : ℕ}

/-- The union of palindromes is one. -/
theorem Palindromic.orList (hu : Palindromic n u) (hv : Palindromic n v) :
    Palindromic n (orList u v) := by
  have hlen : u.length = v.length := hu.1.trans hv.1.symm
  exact ⟨(length_orList hlen).trans hu.1, by rw [reverse_orList hlen, hu.2, hv.2]⟩

/-- On palindromes the function computes the union. -/
theorem Palindromic.demergemessages (hu : Palindromic n u) (hv : Palindromic n v) :
    demergemessages u v = .ok (External.orList u v) := by
  rw [demergemessages_eq (hu.1.trans hv.1.symm), (hu.orList hv).2]

/-- So does merging any number of them. -/
theorem Palindromic.mergeAll {m : List Int32} {ms : List (List Int32)}
    (h : ∀ a ∈ m :: ms, Palindromic n a) : mergeAll m ms = .ok (ms.foldl External.orList m) := by
  induction ms generalizing m with
  | nil => rfl
  | cons b ms ih =>
    have hm := h m List.mem_cons_self
    have hb := h b (List.mem_cons_of_mem _ List.mem_cons_self)
    rw [External.mergeAll, List.foldlM_cons, hm.demergemessages hb, ok_bind]
    refine ih fun a ha => ?_
    rcases List.mem_cons.mp ha with rfl | ha
    · exact hm.orList hb
    · exact h a (List.mem_cons_of_mem _ (List.mem_cons_of_mem _ ha))

end

/-- A merge of two messages is their positionwise OR exactly when the OR reads the same backwards.
Merging has the laws of an OR on messages of one length exactly when all of them do. -/
theorem demergemessages_lawful_iff (n : ℕ) (S : Set (List Int32)) (h : ∀ u ∈ S, u.length = n) :
    (∀ u ∈ S, ∀ v ∈ S,
      (demergemessages u v = .ok (orList u v) ↔ (orList u v).reverse = orList u v)) ∧
      (Lawful S ↔ ∀ u ∈ S, u.reverse = u) := by
  refine ⟨fun u hu v hv => demergemessages_eq_orList_iff ((h u hu).trans (h v hv).symm), ?_⟩
  constructor
  · intro hlaw u hu
    have hidem := hlaw.idem u hu
    rw [demergemessages_eq rfl, orList_self, Except.ok.injEq] at hidem
    exact hidem
  · intro hrev
    have hpal : ∀ u ∈ S, Palindromic n u := fun u hu => ⟨h u hu, hrev u hu⟩
    refine ⟨fun u hu v hv => ?_, fun u hu v hv => ?_, fun u hu v hv w hw => ?_, fun u hu => ?_,
      fun m ms m' ms' hmem hsame => ?_⟩
    · exact (hpal u hu).demergemessages (hpal v hv)
    · rw [(hpal u hu).demergemessages (hpal v hv), (hpal v hv).demergemessages (hpal u hu),
        orList_comm]
    · have hu := hpal u hu
      have hv := hpal v hv
      have hw := hpal w hw
      rw [hu.demergemessages hv, hv.demergemessages hw, ok_bind, ok_bind,
        (hu.orList hv).demergemessages hw, hu.demergemessages (hv.orList hw), orList_assoc]
    · rw [(hpal u hu).demergemessages (hpal u hu), orList_self]
    · rw [Palindromic.mergeAll fun a ha => hpal a (hmem a ha),
        Palindromic.mergeAll fun a ha => hpal a (hmem a ((hsame a).mpr ha)),
        foldl_orList_congr hsame]

/-- Messages with one bit in the middle. -/
theorem demergemessages_lawful_middle :
    (∀ u ∈ ({[0, 4, 0], [1, 0, 1]} : Set (List Int32)), u.length = 3) ∧
      (Lawful {[0, 4, 0], [1, 0, 1]} ↔
        ∀ u ∈ ({[0, 4, 0], [1, 0, 1]} : Set (List Int32)), u.reverse = u) := by
  have h : ∀ u ∈ ({[0, 4, 0], [1, 0, 1]} : Set (List Int32)), u.length = 3 := by
    rintro u (rfl | rfl) <;> rfl
  exact ⟨h, (demergemessages_lawful_iff 3 _ h).2⟩

/-- A message merged with itself comes back turned around. -/
theorem not_demergemessages_orList : ∃ v1 v2 : List Int32, v1.length = v2.length ∧
    demergemessages v1 v2 ≠ .ok (orList v1 v2) := by
  refine ⟨[1, 2], [1, 2], rfl, ?_⟩
  rw [demergemessages_eq rfl, ne_eq, Except.ok.injEq]
  decide

end Meld.External
