import Meld.Lib.Exec

/-!
# Loops as step functions

A loop is given by its body: a step either goes on with another state or ends with a result.
`iterate` runs the body with a bound. What a proof gives is a chain of steps from one state to
another, and `iterate_of_reaches` turns a chain that ends into a run that every large enough
bound admits.
-/

namespace Meld.Lib

variable {σ α : Type} {step : σ → Exec (σ ⊕ α)} {s s' s'' : σ} {a : α}

/-- The loop with the body `step`. -/
def iterate (step : σ → Exec (σ ⊕ α)) : ℕ → σ → Exec α
  | 0, _ => throw .diverge
  | fuel + 1, s => do
    let next ← step s
    match next with
    | .inl s' => iterate step fuel s'
    | .inr a => pure a

/-- Steps of the loop lead from one state to the other. -/
abbrev Reaches (step : σ → Exec (σ ⊕ α)) : σ → σ → Prop :=
  Relation.ReflTransGen fun s s' => step s = .ok (.inl s')

theorem Reaches.of_step (h : step s = .ok (.inl s')) (h' : Reaches step s' s'') :
    Reaches step s s'' := .head h h'

/-- A chain of steps that ends gives the result of the loop. -/
theorem iterate_of_reaches (h : Reaches step s s') (hend : step s' = .ok (.inr a)) :
    ∃ n, ∀ fuel, n ≤ fuel → iterate step fuel s = .ok a := by
  induction h using Relation.ReflTransGen.head_induction_on with
  | refl =>
    refine ⟨1, fun fuel hfuel => ?_⟩
    obtain ⟨fuel, rfl⟩ := Nat.exists_eq_add_of_le' hfuel
    simp [iterate, hend]
  | head hstep _ ih =>
    obtain ⟨n, hn⟩ := ih
    refine ⟨n + 1, fun fuel hfuel => ?_⟩
    obtain ⟨k, rfl⟩ := Nat.exists_eq_add_of_le' hfuel
    rw [← Nat.add_assoc, iterate, hstep, ok_bind]
    exact hn (k + n) (Nat.le_add_left n k)

/-- The rule of total correctness: the body keeps the invariant and decreases the variant until it
ends with a result that meets the postcondition. -/
theorem iterate_of_variant (I : σ → Prop) (Q : α → Prop) (v : σ → ℕ)
    (hstep : ∀ s, I s → (∃ s', step s = .ok (.inl s') ∧ I s' ∧ v s' < v s) ∨
      ∃ a, step s = .ok (.inr a) ∧ Q a) {fuel : ℕ} (hs : I s) (hfuel : v s < fuel) :
    ∃ a, iterate step fuel s = .ok a ∧ Q a := by
  induction fuel generalizing s with
  | zero => omega
  | succ fuel ih =>
    rcases hstep s hs with ⟨s', hstep', hs', hlt⟩ | ⟨a, hend, ha⟩
    · obtain ⟨a, hrun, ha⟩ := ih hs' (by omega)
      exact ⟨a, by rw [iterate, hstep', ok_bind]; exact hrun, ha⟩
    · exact ⟨a, by rw [iterate, hend, ok_bind]; rfl, ha⟩

/-- The rule of simulation: each step of a loop is one of another loop, from related states. -/
theorem iterate_simulates {τ β : Type} {other : τ → Exec (τ ⊕ β)} (R : σ → τ → Prop)
    (Q : α → β → Prop)
    (hstep : ∀ s t t', R s t → other t = .ok (.inl t') → ∃ s', step s = .ok (.inl s') ∧ R s' t')
    (hend : ∀ s t b, R s t → other t = .ok (.inr b) → ∃ a, step s = .ok (.inr a) ∧ Q a b)
    {fuel : ℕ} {t : τ} {b : β} (hs : R s t) (h : iterate other fuel t = .ok b) :
    ∃ a, iterate step fuel s = .ok a ∧ Q a b := by
  induction fuel generalizing s t with
  | zero => cases h
  | succ fuel ih =>
    obtain ⟨next, hnext, hrest⟩ := bind_eq_ok.mp h
    cases next with
    | inl t' =>
      obtain ⟨s', hstep', hs'⟩ := hstep s t t' hs hnext
      obtain ⟨a, hrun, ha⟩ := ih hs' hrest
      exact ⟨a, by rw [iterate, hstep', ok_bind]; exact hrun, ha⟩
    | inr b' =>
      cases hrest
      obtain ⟨a, hend', ha⟩ := hend s t b hs hnext
      exact ⟨a, by rw [iterate, hend', ok_bind]; rfl, ha⟩

/-- The rule of partial correctness: the body keeps the invariant, and what it ends with meets the
postcondition. -/
theorem iterate_of_invariant {I : σ → Prop} {Q : α → Prop}
    (hstep : ∀ s s', I s → step s = .ok (.inl s') → I s')
    (hend : ∀ s a, I s → step s = .ok (.inr a) → Q a) {fuel : ℕ} (hs : I s)
    (h : iterate step fuel s = .ok a) : Q a := by
  induction fuel generalizing s with
  | zero => cases h
  | succ fuel ih =>
    obtain ⟨next, hnext, hrest⟩ := bind_eq_ok.mp h
    cases next with
    | inl s' => exact ih (hstep _ _ hs hnext) hrest
    | inr b =>
      cases hrest
      exact hend _ _ hs hnext

end Meld.Lib
