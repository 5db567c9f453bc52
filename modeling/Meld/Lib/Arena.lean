import Meld.Lib.Exec

/-!
# Arenas of addresses

An arena says at which addresses an object lives. Addresses are handed out in increasing order
and are never handed out twice, so an object is older than another exactly when its address is
smaller; `fresh` keeps every address that was not handed out yet free.

The fields of the objects are kept outside, one map for each field. A write to a field then
leaves the other fields alone by definition, and `check` is what stands between a pointer and
the fields of the object it may no longer point to.
-/

namespace Meld.Lib

/-- The live addresses of one type of object. -/
structure Arena where
  /-- whether an object lives at an address -/
  live : ℕ → Bool
  /-- the next address to hand out -/
  next : ℕ
  fresh : ∀ a, next ≤ a → live a = false

namespace Arena

variable (s : Arena) {a b : ℕ}

/-- The arena without objects. -/
def empty : Arena := ⟨fun _ => false, 0, fun _ _ => rfl⟩

/-- The arena after `new`, which returns the address `s.next`. -/
def alloc : Arena where
  live b := if b = s.next then true else s.live b
  next := s.next + 1
  fresh a ha := by rw [if_neg (by omega)]; exact s.fresh a (by omega)

/-- `delete`. -/
def free (a : ℕ) : Arena where
  live b := if b = a then false else s.live b
  next := s.next
  fresh b hb := by split_ifs; exacts [rfl, s.fresh b hb]

/-- Following the pointer `a`. -/
def check (a : ℕ) : Exec Unit :=
  if s.live a then .ok () else .error .dangling

variable {s}

/-- Live addresses are below the next one. -/
theorem lt_next (ha : s.live a = true) : a < s.next := by
  by_contra hn
  rw [s.fresh a (by omega)] at ha
  cases ha

@[simp] theorem empty_live : (empty.live a) = false := rfl

/-- The new address is live, and the others are as they were. -/
theorem alloc_live : s.alloc.live b = if b = s.next then true else s.live b := rfl

@[simp] theorem alloc_live_next : s.alloc.live s.next = true := if_pos rfl

@[simp] theorem alloc_next : s.alloc.next = s.next + 1 := rfl

/-- What is live stays so. -/
theorem alloc_live_of_live (ha : s.live a = true) : s.alloc.live a = true := by
  rw [alloc_live]
  split_ifs
  exacts [rfl, ha]

/-- Only the address that is freed is no longer live. -/
theorem free_live : (s.free a).live b = if b = a then false else s.live b := rfl

@[simp] theorem free_next : (s.free a).next = s.next := rfl

/-- A live address may be used. -/
theorem check_of_live (ha : s.live a = true) : s.check a = .ok () := if_pos ha

/-- Only a live address may be used. -/
@[simp] theorem check_eq_ok {u : Unit} : s.check a = .ok u ↔ s.live a = true := by
  by_cases h : s.live a = true <;> simp [check, h]

end Arena

/-- A field map after a write through a pointer that may be null. -/
def updateIfSome {β : Type} (f : ℕ → β) (p : Option ℕ) (v : β) : ℕ → β :=
  fun x => if p = some x then v else f x

/-- Nothing is updated without an address. -/
theorem updateIfSome_none {β : Type} (f : ℕ → β) (v : β) : updateIfSome f none v = f := by
  funext x
  simp [updateIfSome]

/-- An address that is there is updated. -/
theorem updateIfSome_some {β : Type} (f : ℕ → β) (a : ℕ) (v : β) :
    updateIfSome f (some a) v = Function.update f a v := by
  funext x
  simp [updateIfSome, Function.update_apply, eq_comm]

/-- The values after an update. -/
theorem updateIfSome_apply {β : Type} (f : ℕ → β) (p : Option ℕ) (v : β) (x : ℕ) :
    updateIfSome f p v x = if p = some x then v else f x := rfl

/-- A list without repetition of numbers below `n` has at most `n` entries. -/
theorem length_le_of_nodup_of_lt {l : List ℕ} {n : ℕ} (hl : l.Nodup) (hn : ∀ a ∈ l, a < n) :
    l.length ≤ n := by
  have hsub : l ⊆ List.range n := fun a ha => List.mem_range.mpr (hn a ha)
  simpa using (hl.subperm hsub).length_le

end Meld.Lib
