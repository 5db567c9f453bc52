import Meld.Lib.Exec
import Meld.Lib.Linked

/-!
# Singly linked lists

`Chain nx p l` reads the list `l` off one pointer map, from the pointer `p` on: a null pointer ends
the list. `follow` is the loop that does so. A doubly linked list is a chain in both directions.
-/

namespace Meld.Lib

variable {A : Type} {nx nx' pv : A → Option A} {p q : Option A} {a : A} {l k : List A}

/-- The links `nx` hold the list `l` from the pointer `p` on. -/
def Chain (nx : A → Option A) : Option A → List A → Prop
  | p, [] => p = none
  | p, a :: l => p = some a ∧ Chain nx (nx a) l

/-- The elements that the links lead to from a pointer on, if there are at most `n`. -/
def follow (nx : A → Option A) : ℕ → Option A → Exec (List A)
  | _, none => pure []
  | 0, some _ => throw .diverge
  | n + 1, some a => do
    let l ← follow nx n (nx a)
    pure (a :: l)

namespace Chain

@[simp] theorem nil : Chain nx p [] ↔ p = none := Iff.rfl

@[simp] theorem cons : Chain nx p (a :: l) ↔ p = some a ∧ Chain nx (nx a) l := Iff.rfl

theorem start (h : Chain nx p l) : p = l.head? := by
  cases l with
  | nil => exact h
  | cons a l => exact h.1

/-- The loop visits the list. -/
theorem follow_eq (h : Chain nx p l) : follow nx l.length p = .ok l := by
  induction l generalizing p with
  | nil =>
    rw [nil.mp h]
    rfl
  | cons a l ih =>
    obtain ⟨rfl, h⟩ := h
    rw [List.length_cons, follow, ih h]
    rfl

/-- The last element points at nothing. -/
theorem next_last (h : Chain nx p l) (ha : l.getLast? = some a) : nx a = none := by
  induction l generalizing p with
  | nil => cases ha
  | cons b l ih =>
    cases l with
    | nil =>
      obtain rfl : b = a := by simpa using ha
      exact h.2
    | cons c l => exact ih h.2 (by simpa using ha)

/-- Only the links of the list's own elements matter. -/
theorem congr (h : Chain nx p l) (hnx : ∀ x ∈ l, nx' x = nx x) : Chain nx' p l := by
  induction l generalizing p with
  | nil => exact h
  | cons a l ih =>
    refine ⟨h.1, ?_⟩
    rw [hnx a (by simp)]
    exact ih h.2 fun x hx => hnx x (by simp [hx])

variable [DecidableEq A]

/-- The last element of one list points at the first of another. -/
theorem append (h : Chain nx p l) (hk : Chain nx' q k) (hl : l.Nodup)
    (hnx : ∀ x ∈ l, nx' x = if l.getLast? = some x then q else nx x) :
    Chain nx' (if l = [] then q else p) (l ++ k) := by
  induction l generalizing p with
  | nil => exact hk
  | cons a l ih =>
    rw [if_neg (List.cons_ne_nil a l)]
    refine ⟨h.1, ?_⟩
    have hrest := ih h.2 (List.nodup_cons.mp hl).2 fun x hx => by
      rw [hnx x (by simp [hx])]
      cases l with
      | nil => cases hx
      | cons b l => simp
    rw [hnx a (by simp)]
    cases l with
    | nil => simpa using hrest
    | cons b l =>
      have hne : (a :: b :: l).getLast? ≠ some a := by
        intro he
        have hm := List.mem_of_getLast? (l := b :: l) (a := a) (by simpa using he)
        exact (List.nodup_cons.mp hl).1 hm
      rw [if_neg hne]
      rwa [if_neg (List.cons_ne_nil b l)] at hrest

/-- A new last element. -/
theorem snoc (h : Chain nx p l) (hl : l.Nodup) (ha : nx' a = none)
    (hnx : ∀ x ∈ l, nx' x = if l.getLast? = some x then some a else nx x) :
    Chain nx' (if l = [] then some a else p) (l ++ [a]) :=
  h.append (q := some a) ⟨rfl, ha⟩ hl hnx

end Chain

namespace Linked

/-- A doubly linked list, front to back. -/
theorem forward (h : Linked nx pv p l) : Chain nx l.head? l := by
  induction l generalizing p with
  | nil => rfl
  | cons a l ih => exact ⟨rfl, h.2.1 ▸ ih h.2.2⟩

private theorem backward_onto (h : Linked nx pv p l) (hk : Chain pv p k) :
    Chain pv (if l = [] then p else l.getLast?) (l.reverse ++ k) := by
  induction l generalizing p k with
  | nil => exact hk
  | cons a l ih =>
    have hrest := ih h.2.2 (k := a :: k) ⟨rfl, h.1 ▸ hk⟩
    rw [List.reverse_cons, List.append_assoc, List.singleton_append]
    cases l with
    | nil => simpa using hrest
    | cons b l => simpa using hrest

/-- A doubly linked list, back to front. -/
theorem backward (h : Linked nx pv none l) : Chain pv l.getLast? l.reverse := by
  have hback := h.backward_onto (k := []) rfl
  rw [List.append_nil] at hback
  cases l with
  | nil => exact hback
  | cons a l => simpa using hback

end Linked

end Meld.Lib
