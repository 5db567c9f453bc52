import Mathlib

/-!
# Doubly linked lists

`Linked nx pv p l` reads the list `l` off two pointer maps: each element's `nx` is the following
element of `l`, each element's `pv` the preceding one, and the first element's `pv` is `p`. Where
the objects live plays no role here; the maps are partial functions on addresses.

The rules are the ways code changes such a list: at the front (`Linked.pushFront`), at the back
(`Linked.pushBack`), and by unlinking an element (`Linked.erase`). Each says which pointers may
change, and leaves the others to `Linked.congr`.
-/

namespace Meld.Lib

variable {A : Type*} {nx pv nx' pv' : A → Option A} {p : Option A} {a b : A} {l xs ys : List A}

/-- The pointer maps `nx`, `pv` hold the list `l`, and `p` comes before it. -/
def Linked (nx pv : A → Option A) : Option A → List A → Prop
  | _, [] => True
  | p, a :: l => pv a = p ∧ nx a = l.head? ∧ Linked nx pv (some a) l

@[simp] theorem linked_nil : Linked nx pv p [] := trivial

@[simp] theorem linked_cons :
    Linked nx pv p (a :: l) ↔ pv a = p ∧ nx a = l.head? ∧ Linked nx pv (some a) l := Iff.rfl

namespace Linked

/-- Only the pointers of the list's own elements matter. -/
theorem congr (h : Linked nx pv p l) (hnx : ∀ x ∈ l, nx' x = nx x)
    (hpv : ∀ x ∈ l, pv' x = pv x) : Linked nx' pv' p l := by
  induction l generalizing p with
  | nil => trivial
  | cons a l ih =>
    refine ⟨by rw [hpv a (by simp), h.1], by rw [hnx a (by simp), h.2.1], ?_⟩
    exact ih h.2.2 (fun x hx => hnx x (by simp [hx])) fun x hx => hpv x (by simp [hx])

/-- The tail after a prefix is linked, preceded by the last element of the prefix. -/
theorem drop (h : Linked nx pv p (xs ++ ys)) :
    Linked nx pv (if xs = [] then p else xs.getLast?) ys := by
  induction xs generalizing p with
  | nil => simpa using h
  | cons x xs ih =>
    have h' := ih h.2.2
    cases xs with
    | nil => simpa using h'
    | cons y xs => simpa using h'

/-- The maps hold no two lists from one first element on. -/
theorem unique {q : Option A} {k : List A} (h : Linked nx pv p l) (h' : Linked nx pv q k)
    (hhead : l.head? = k.head?) : l = k := by
  induction l generalizing p q k with
  | nil => exact (List.head?_eq_none_iff.mp hhead.symm).symm
  | cons a l ih =>
    cases k with
    | nil => simp at hhead
    | cons b k =>
      obtain rfl : a = b := by simpa using hhead
      rw [ih h.2.2 h'.2.2 (h.2.1.symm.trans h'.2.1)]

/-- The pointers of an element in the middle. -/
theorem at_split (h : Linked nx pv none (xs ++ a :: ys)) :
    pv a = xs.getLast? ∧ nx a = ys.head? := by
  have h' := h.drop
  rw [linked_cons] at h'
  refine ⟨?_, h'.2.1⟩
  rw [h'.1]
  split_ifs with hx
  · rw [hx]; rfl
  · rfl

variable [DecidableEq A]

/-- A new front element. -/
theorem pushFront (h : Linked nx pv none l) (hl : l.Nodup) (hpa : pv' a = none)
    (hna : nx' a = l.head?) (hnx : ∀ x ∈ l, nx' x = nx x)
    (hpv : ∀ x ∈ l, pv' x = if l.head? = some x then some a else pv x) :
    Linked nx' pv' none (a :: l) := by
  refine ⟨hpa, hna, ?_⟩
  cases l with
  | nil => trivial
  | cons b l =>
    refine ⟨by simpa using hpv b (by simp), by rw [hnx b (by simp), h.2.1], ?_⟩
    refine h.2.2.congr (fun x hx => hnx x (by simp [hx])) fun x hx => ?_
    have hbx : b ≠ x := fun he => (List.nodup_cons.mp hl).1 (he ▸ hx)
    rw [hpv x (by simp [hx]), if_neg (by simpa using hbx)]

/-- A new last element. -/
theorem pushBack (h : Linked nx pv p l) (hl : l.Nodup) (hna : nx' a = none)
    (hpa : pv' a = if l = [] then p else l.getLast?) (hpv : ∀ x ∈ l, pv' x = pv x)
    (hnx : ∀ x ∈ l, nx' x = if l.getLast? = some x then some a else nx x) :
    Linked nx' pv' p (l ++ [a]) := by
  induction l generalizing p with
  | nil => exact ⟨by simpa using hpa, by simpa using hna, trivial⟩
  | cons b l ih =>
    refine ⟨by rw [hpv b (by simp), h.1], ?_, ?_⟩
    · cases l with
      | nil => simpa using hnx b (by simp)
      | cons c l =>
        have hne : (b :: c :: l).getLast? ≠ some b := by
          intro he
          have hm := List.mem_of_getLast? (l := c :: l) (a := b) (by simpa using he)
          exact (List.nodup_cons.mp hl).1 hm
        rw [hnx b (by simp), if_neg hne, h.2.1]
        rfl
    · refine ih h.2.2 (List.nodup_cons.mp hl).2 ?_ (fun x hx => hpv x (by simp [hx])) ?_
      · rw [hpa]
        cases l <;> simp
      · intro x hx
        rw [hnx x (by simp [hx])]
        cases l with
        | nil => cases hx
        | cons c l => simp

/-- Unlinking: the neighbours of the removed element point at each other. -/
theorem erase (h : Linked nx pv p (xs ++ a :: ys)) (hl : (xs ++ a :: ys).Nodup)
    (hnx : ∀ x ∈ xs ++ ys, nx' x = if xs.getLast? = some x then ys.head? else nx x)
    (hpv : ∀ x ∈ xs ++ ys,
      pv' x = if ys.head? = some x then (if xs = [] then p else xs.getLast?) else pv x) :
    Linked nx' pv' p (xs ++ ys) := by
  induction xs generalizing p with
  | nil =>
    cases ys with
    | nil => trivial
    | cons b ys =>
      obtain ⟨-, -, -, hb, hys⟩ := h
      refine ⟨by simpa using hpv b (by simp), by simpa [hb] using hnx b (by simp), ?_⟩
      refine hys.congr (fun x hx => by simpa using hnx x (by simp [hx])) fun x hx => ?_
      have hbx : b ≠ x := by
        rintro rfl
        simp only [List.nil_append, List.nodup_cons] at hl
        exact hl.2.1 hx
      simpa [hbx] using hpv x (by simp [hx])
  | cons c xs ih =>
    have hl' : (xs ++ a :: ys).Nodup := (List.nodup_cons.mp hl).2
    have hc : c ∉ xs ++ a :: ys := (List.nodup_cons.mp hl).1
    have hcy : ys.head? ≠ some c := fun he =>
      hc (by have := List.mem_of_head? he; simp [this])
    refine ⟨?_, ?_, ih h.2.2 hl' (fun x hx => ?_) fun x hx => ?_⟩
    · rw [hpv c (by simp), if_neg hcy, h.1]
    · rw [hnx c (by simp)]
      cases xs with
      | nil => simp
      | cons d xs =>
        have hne : (c :: d :: xs).getLast? ≠ some c := by
          intro he
          have hm := List.mem_of_getLast? (l := d :: xs) (a := c) (by simpa using he)
          exact hc (List.mem_append_left _ hm)
        rw [if_neg hne, h.2.1]
        rfl
    · rw [hnx x (List.mem_cons_of_mem _ hx)]
      cases xs with
      | nil =>
        have hcx : c ≠ x := fun he => hc (he ▸ List.mem_cons_of_mem a (by simpa using hx))
        simp [hcx]
      | cons d xs => simp
    · rw [hpv x (List.mem_cons_of_mem _ hx)]
      cases xs <;> simp

end Linked

end Meld.Lib
