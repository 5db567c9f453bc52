import Mathlib

/-!
# Transition systems

A system of concurrent parties is given by its initial states and the steps that lead from one
state to another; every order of the parties' steps is a run. `Reachable.invariant` is the one
induction over runs; `Run.length_le` turns a variant into a bound on their lengths, and a bound
gives a run that ends.
-/

namespace Meld.Lib

/-- Initial states and steps. -/
structure System (σ : Type) where
  init : σ → Prop
  step : σ → σ → Prop

namespace System

variable {σ : Type} {S : System σ} {s s' : σ}

/-- The states of the runs. -/
inductive Reachable (S : System σ) : σ → Prop
  | init {s : σ} (h : S.init s) : Reachable S s
  | step {s s' : σ} (h : Reachable S s) (hstep : S.step s s') : Reachable S s'

/-- What holds at first and is kept by every step holds in every reachable state. -/
theorem Reachable.invariant {I : σ → Prop} (hinit : ∀ s, S.init s → I s)
    (hstep : ∀ s s', I s → S.step s s' → I s') (h : S.Reachable s) : I s := by
  induction h with
  | init h => exact hinit _ h
  | step _ hs ih => exact hstep _ _ ih hs

/-- A run whose steps are chosen by a list. -/
theorem Reachable.foldlM {α : Type} {f : σ → α → Option σ}
    (hf : ∀ s a s', f s a = some s' → S.step s s') (h : S.Reachable s) {l : List α}
    (hl : l.foldlM f s = some s') : S.Reachable s' := by
  induction l generalizing s with
  | nil =>
    rw [List.foldlM_nil] at hl
    exact Option.some.inj hl ▸ h
  | cons a l ih =>
    rw [List.foldlM_cons] at hl
    obtain ⟨t, ht, hl⟩ := Option.bind_eq_some_iff.mp hl
    exact ih (h.step (hf s a t ht)) hl

/-- No step is possible. -/
def Stuck (S : System σ) (s : σ) : Prop := ∀ s', ¬S.step s s'

/-- A run of the given number of steps. -/
inductive Run (S : System σ) : ℕ → σ → σ → Prop
  | refl (s : σ) : Run S 0 s s
  | tail {n : ℕ} {s s' s'' : σ} (h : Run S n s s') (hstep : S.step s' s'') : Run S (n + 1) s s''

/-- A variant of the steps bounds the lengths of the runs. -/
theorem Run.length_le {v : σ → ℕ} (hv : ∀ s s', S.Reachable s → S.step s s' → v s' < v s)
    (hs : S.Reachable s) {n : ℕ} (h : S.Run n s s') : n + v s' ≤ v s ∧ S.Reachable s' := by
  induction h with
  | refl => exact ⟨(Nat.zero_add _).le, hs⟩
  | tail _ hstep ih =>
    obtain ⟨hle, hreach⟩ := ih hs
    have := hv _ _ hreach hstep
    exact ⟨by omega, hreach.step hstep⟩

/-- When the runs from a state are bounded, one of them ends. -/
theorem exists_stuck_of_bounded {bound : ℕ} (h : ∀ n s', S.Run n s s' → n ≤ bound) :
    ∃ n s', S.Run n s s' ∧ S.Stuck s' := by
  by_contra hnone
  have hlong : ∀ n, ∃ s', S.Run n s s' := by
    intro n
    induction n with
    | zero => exact ⟨s, .refl s⟩
    | succ n ih =>
      obtain ⟨s', hrun⟩ := ih
      have hstuck : ¬S.Stuck s' := fun hstuck => hnone ⟨n, s', hrun, hstuck⟩
      simp only [Stuck, not_forall, not_not] at hstuck
      obtain ⟨t, ht⟩ := hstuck
      exact ⟨t, hrun.tail ht⟩
  obtain ⟨s', hrun⟩ := hlong (bound + 1)
  have := h _ _ hrun
  omega

theorem Run.reachable (hs : S.Reachable s) {n : ℕ} (h : S.Run n s s') : S.Reachable s' := by
  induction h with
  | refl => exact hs
  | tail _ hstep ih => exact (ih hs).step hstep

end System

end Meld.Lib
