import Mathlib

/-!
# Runs that may fault

A run of imperative code either returns a value or stops at a fault. The faults kept apart are
a failed assertion, a read or write through a pointer that owns no object, a signed overflow, a
thrown type error, and a loop that runs past the bound its caller gave it.

Machine counters are integers. `wrap16` and `wrap32` are the conversions to the signed 16 and 32
bit types, and `addInt` is the signed 32-bit addition whose overflow is undefined.
-/

namespace Meld.Lib

/-- The ways a run stops without a result. -/
inductive Fault
  /-- an `assert` whose condition is false -/
  | assertion
  /-- a pointer that is null, freed, or of another type -/
  | dangling
  /-- signed overflow -/
  | overflow
  /-- a thrown exception -/
  | thrown
  /-- a loop longer than its bound -/
  | diverge
  deriving DecidableEq, Repr

/-- A computation that may fault. -/
abbrev Exec (α : Type*) := Except Fault α

/-- A result is handed on. -/
@[simp] theorem ok_bind {α β : Type} (a : α) (f : α → Exec β) :
    ((Except.ok a : Exec α) >>= f) = f a := rfl

/-- A failure ends what follows. -/
@[simp] theorem error_bind {α β : Type} (e : Fault) (f : α → Exec β) :
    ((Except.error e : Exec α) >>= f) = Except.error e := rfl

@[simp] theorem pure_eq_ok {α : Type} (a : α) : (pure a : Exec α) = Except.ok a := rfl

/-- A sequence returns exactly when both parts do. -/
theorem bind_eq_ok {α β : Type} {x : Exec α} {f : α → Exec β} {b : β} :
    x >>= f = .ok b ↔ ∃ a, x = .ok a ∧ f a = .ok b := by
  cases x <;> simp

/-- What a run computes, of which only a part is looked at. -/
theorem exists_ok_of_map {α β : Type} {x : Exec α} {f : α → β} {b : β} (h : x.map f = .ok b) :
    ∃ a, x = .ok a ∧ f a = b := by
  cases x with
  | error e => cases h
  | ok a => exact ⟨a, rfl, Except.ok.inj h⟩

/-- What a run returns, its fault forgotten. -/
theorem ok_of_toOption {α : Type} {x : Exec α} {a : α} (h : x.toOption = some a) : x = .ok a := by
  cases x with
  | error e => cases h
  | ok b => exact congrArg Except.ok (Option.some.inj h)

/-- `assert(c)`. -/
def assert (c : Prop) [Decidable c] : Exec Unit :=
  if c then .ok () else .error .assertion

/-- An assertion that holds. -/
theorem assert_pos {c : Prop} [Decidable c] (h : c) : assert c = .ok () := if_pos h

/-- An assertion that fails. -/
theorem assert_neg {c : Prop} [Decidable c] (h : ¬c) : assert c = .error .assertion := if_neg h

/-- An assertion returns if it holds. -/
@[simp] theorem assert_eq_ok {c : Prop} [Decidable c] {u : Unit} : assert c = .ok u ↔ c := by
  by_cases h : c <;> simp [assert, h]

/-- Reading through a pointer that may be null. -/
def deref {α : Type} : Option α → Exec α
  | some a => .ok a
  | none => .error .dangling

@[simp] theorem deref_some {α : Type} (a : α) : deref (some a) = .ok a := rfl

/-- A pointer can be followed if it is not null. -/
@[simp] theorem deref_eq_ok {α : Type} {o : Option α} {a : α} : deref o = .ok a ↔ o = some a := by
  cases o <;> simp [deref]

/-- What a loop returns is related to its list, item by item. -/
theorem forall₂_of_mapM {α β : Type} {f : α → Exec β} {as : List α} {bs : List β}
    (h : as.mapM f = .ok bs) : List.Forall₂ (fun a b => f a = .ok b) as bs := by
  induction as generalizing bs with
  | nil =>
    cases h
    exact .nil
  | cons a as ih =>
    rw [List.mapM_cons] at h
    obtain ⟨b, hb, h⟩ := bind_eq_ok.mp h
    obtain ⟨bs', hbs, h⟩ := bind_eq_ok.mp h
    cases h
    exact .cons hb (ih hbs)

/-! ### Machine integers -/

/-- Conversion to a signed 16-bit integer. -/
def wrap16 (x : ℤ) : ℤ := x.bmod (2 ^ 16)

/-- Conversion to a signed 32-bit integer. -/
def wrap32 (x : ℤ) : ℤ := x.bmod (2 ^ 32)

/-- `--` on an unsigned 64-bit integer. -/
def decSize (n : ℕ) : ℕ := if n = 0 then 2 ^ 64 - 1 else n - 1

/-- The largest signed 16-bit integer. -/
def maxShort : ℤ := 32767

/-- The largest signed 32-bit integer. -/
def maxInt : ℤ := 2147483647

theorem maxShort_nonneg : 0 ≤ maxShort := by decide

/-- A number in the range of a `short` is kept. -/
theorem wrap16_of_mem {x : ℤ} (h₁ : -maxShort - 1 ≤ x) (h₂ : x ≤ maxShort) : wrap16 x = x := by
  simp only [maxShort] at h₁ h₂
  exact Int.bmod_eq_of_le (by omega) (by omega)

/-- A number in the range of an `int` is kept. -/
theorem wrap32_of_mem {x : ℤ} (h₁ : -maxInt - 1 ≤ x) (h₂ : x ≤ maxInt) : wrap32 x = x := by
  simp only [maxInt] at h₁ h₂
  exact Int.bmod_eq_of_le (by omega) (by omega)

/-- One bit too many makes the result negative. -/
theorem wrap32_of_gt {x : ℤ} (h₁ : maxInt < x) (h₂ : x ≤ 2 * maxInt + 1) :
    wrap32 x = x - 2 * (maxInt + 1) := by
  have h : wrap32 x = wrap32 (x - (2 ^ 32 : ℕ)) := (Int.sub_bmod_right x (2 ^ 32)).symm
  have hmax : ((2 ^ 32 : ℕ) : ℤ) = 2 * (maxInt + 1) := by decide
  rw [hmax] at h
  rw [h, wrap32_of_mem (by simp only [maxInt] at h₁ ⊢; omega) (by simp only [maxInt] at h₂ ⊢; omega)]

/-- What wraps around is in the range. -/
theorem wrap32_le (x : ℤ) : wrap32 x ≤ maxInt := by
  have h : x.bmod (2 ^ 32) < (2 ^ 32 + 1) / 2 := Int.bmod_lt (by decide)
  simp only [wrap32, maxInt]
  omega

/-- The conversion of an integer that is too small makes it larger. -/
theorem le_wrap32 {x : ℤ} (h : x ≤ maxInt) : x ≤ wrap32 x := by
  have hcast : ((2 ^ 32 : ℕ) : ℤ) = 4294967296 := by decide
  simp only [maxInt] at h
  rw [wrap32, Int.bmod_def, hcast]
  split_ifs <;> omega

/-- Signed 32-bit addition; overflow is undefined and stops the run. -/
def addInt (x y : ℤ) : Exec ℤ :=
  if -maxInt - 1 ≤ x + y ∧ x + y ≤ maxInt then .ok (x + y) else .error .overflow

/-- A sum in the range of an `int` is computed. -/
theorem addInt_of_mem {x y : ℤ} (h₁ : -maxInt - 1 ≤ x + y) (h₂ : x + y ≤ maxInt) :
    addInt x y = .ok (x + y) := if_pos ⟨h₁, h₂⟩

/-- A sum is computed only if it is in the range of an `int`. -/
theorem addInt_eq_ok {x y z : ℤ} :
    addInt x y = .ok z ↔ (-maxInt - 1 ≤ x + y ∧ x + y ≤ maxInt) ∧ z = x + y := by
  unfold addInt
  split_ifs with h
  · rw [Except.ok.injEq, eq_comm]
    exact (and_iff_right h).symm
  · exact iff_of_false (fun he => by cases he) fun hz => h hz.1

/-- What follows an addition has to agree on the sum only. -/
theorem addInt_bind_congr {α : Type} {x y : ℤ} {f g : ℤ → Exec α} (h : f (x + y) = g (x + y)) :
    (addInt x y >>= f) = addInt x y >>= g := by
  unfold addInt
  split_ifs
  exacts [h, rfl]

end Meld.Lib
