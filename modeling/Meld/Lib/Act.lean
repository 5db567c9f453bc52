import Meld.Lib.Exec

/-!
# Runs on a state that may fault

A computation reads and writes a state and either returns a value or stops at a fault; the state in
which it stops is kept. `Keeps I R E` bounds what a computation does to the states of an invariant
`I`: they are related to the states in which it returns by `R`, and to those in which it stops by
`E`. When the two relations compose (`Frame`), sequences and loops keep what their parts keep.
-/

namespace Meld.Lib

/-- A computation on a state that may fault. -/
def Act (S α : Type) := S → Exec α × S

namespace Act

variable {S α β : Type}

instance : Monad (Act S) where
  pure a := fun s => (.ok a, s)
  bind m f := fun s =>
    match m s with
    | (.ok a, s') => f a s'
    | (.error e, s') => (.error e, s')

/-- The state. -/
def get : Act S S := fun s => (.ok s, s)

/-- A change of the state. -/
def modify (f : S → S) : Act S Unit := fun s => (.ok (), f s)

/-- `assert(c)`. -/
def assert (c : Prop) [Decidable c] : Act S Unit := fun s => (Lib.assert c, s)

/-- A computation that does not use the state. -/
def ofExec (x : Exec α) : Act S α := fun s => (x, s)

/-- A computation that is left out if a condition fails. -/
def when (c : Bool) (m : Act S Unit) : Act S Unit := if c then m else pure ()

/-- A loop that ends when a round returns a value. -/
def forEach (f : α → Act S (Option β)) : List α → Act S (Option β)
  | [] => pure none
  | a :: l => do
    match ← f a with
    | some b => return some b
    | none => forEach f l

/-- A result leaves the state. -/
theorem pure_apply (a : α) (s : S) : (pure a : Act S α) s = (.ok a, s) := rfl

/-- A computation that returns hands its result and its state on. -/
theorem bind_of_ok {m : Act S α} {f : α → Act S β} {s s' : S} {a : α} (h : m s = (.ok a, s')) :
    (m >>= f) s = f a s' := by
  change (match m s with
    | (.ok a, s') => f a s'
    | (.error e, s') => (.error e, s')) = _
  rw [h]

/-- A computation that fails ends the ones behind it. -/
theorem bind_of_error {m : Act S α} {f : α → Act S β} {s s' : S} {e : Fault}
    (h : m s = (.error e, s')) : (m >>= f) s = (.error e, s') := by
  change (match m s with
    | (.ok a, s') => f a s'
    | (.error e, s') => (.error e, s')) = _
  rw [h]

/-- Sequencing is associative. -/
theorem bind_assoc {γ : Type} (m : Act S α) (f : α → Act S β) (g : β → Act S γ) :
    m >>= f >>= g = m >>= fun a => f a >>= g := by
  funext s
  rcases hm : m s with ⟨_ | a, s'⟩
  · rw [bind_of_error (bind_of_error hm), bind_of_error hm]
  · rw [bind_of_ok (f := fun a => f a >>= g) hm]
    rcases hf : f a s' with ⟨_ | b, s''⟩
    · rw [bind_of_error ((bind_of_ok hm).trans hf), bind_of_error hf]
    · rw [bind_of_ok ((bind_of_ok hm).trans hf), bind_of_ok hf]

/-- A loop ends with the round that returns a value. -/
theorem forEach_cons_of_some {f : α → Act S (Option β)} {a : α} {b : β} {s t : S}
    (h : f a s = (.ok (some b), t)) (l : List α) : forEach f (a :: l) s = (.ok (some b), t) :=
  bind_of_ok h

theorem bind_modify (g : S → S) (f : Unit → Act S β) (s : S) : (modify g >>= f) s = f () (g s) :=
  rfl

theorem bind_ofExec_ok (a : α) (f : α → Act S β) : (ofExec (.ok a) >>= f) = f a := rfl

theorem bind_get (f : S → Act S β) (s : S) : (get >>= f) s = f s s := rfl

/-! ### What a computation keeps -/

/-- Relations of an invariant's states to the later states of a run. -/
structure Frame (I : S → Prop) (R E : S → S → Prop) : Prop where
  refl : ∀ s, I s → R s s
  trans : ∀ s t u, R s t → R t u → R s u
  trans_error : ∀ s t u, R s t → E t u → E s u
  error : ∀ s t, R s t → E s t
  keep : ∀ s t, I s → R s t → I t

/-- From a state of the invariant a computation returns in a related state, or stops in one. -/
def Keeps (I : S → Prop) (R E : S → S → Prop) (m : Act S α) : Prop :=
  ∀ s, I s → match m s with
    | (.ok _, s') => R s s'
    | (.error _, s') => E s s'

variable {I : S → Prop} {R E : S → S → Prop}

/-- The relation that holds when the computation returns. -/
theorem Keeps.of_ok {m : Act S α} (h : Keeps I R E m) {s s' : S} {a : α} (hs : I s)
    (hm : m s = (.ok a, s')) : R s s' := by
  have := h s hs
  rwa [hm] at this

/-- The relation that holds when the computation fails. -/
theorem Keeps.of_error {m : Act S α} (h : Keeps I R E m) {s s' : S} {e : Fault} (hs : I s)
    (hm : m s = (.error e, s')) : E s s' := by
  have := h s hs
  rwa [hm] at this

/-- A stronger invariant at the start. -/
theorem Keeps.mono {J : S → Prop} {m : Act S α} (h : Keeps I R E m) (hJ : ∀ s, J s → I s) :
    Keeps J R E m := fun s hs => h s (hJ s hs)

/-- What is kept, however the computation ends. -/
theorem Keeps.exec (hF : Frame I R E) {m : Act S α} (h : Keeps I R E m) {s : S} (hs : I s) :
    E s (m s).2 := by
  rcases hm : m s with ⟨_ | _, s'⟩
  · exact h.of_error hs hm
  · exact hF.error _ _ (h.of_ok hs hm)

/-- A result changes nothing. -/
theorem keeps_pure (hF : Frame I R E) (a : α) : Keeps I R E (pure a : Act S α) :=
  fun s hs => hF.refl s hs

/-- Reading the state changes nothing. -/
theorem keeps_get (hF : Frame I R E) : Keeps I R E (get : Act S S) := fun s hs => hF.refl s hs

/-- An update keeps the relation that it keeps in every state. -/
theorem keeps_modify {f : S → S} (h : ∀ s, I s → R s (f s)) : Keeps I R E (modify f) :=
  fun s hs => h s hs

/-- A computation under a condition keeps what it keeps if the condition holds. -/
theorem Keeps.when (hF : Frame I R E) {c : Bool} {m : Act S Unit}
    (h : c = true → Keeps I R E m) : Keeps I R E (when c m) := by
  cases c with
  | true => exact h rfl
  | false => exact keeps_pure hF ()

/-- An assertion changes nothing, whether it holds or not. -/
theorem keeps_assert (hF : Frame I R E) (c : Prop) [Decidable c] :
    Keeps I R E (assert c : Act S Unit) := by
  intro s hs
  by_cases hc : c
  · simpa only [assert, assert_pos hc] using hF.refl s hs
  · simpa only [assert, assert_neg hc] using hF.error s s (hF.refl s hs)

/-- A sequence keeps what its parts keep; the second may rely on what the first returns. -/
theorem Keeps.bind_of (hF : Frame I R E) {m : Act S α} {f : α → Act S β} {P : α → Prop}
    (hm : Keeps I R E m) (hP : ∀ s a t, m s = (.ok a, t) → P a)
    (hf : ∀ a, P a → Keeps I R E (f a)) : Keeps I R E (m >>= f) := by
  intro s hs
  rcases hres : m s with ⟨_ | a, t⟩
  · rw [bind_of_error hres]
    exact hm.of_error hs hres
  · have hR := hm.of_ok hs hres
    rw [bind_of_ok hres]
    have h := hf a (hP s a t hres) t (hF.keep _ _ hs hR)
    split at h
    · exact hF.trans _ _ _ hR h
    · exact hF.trans_error _ _ _ hR h

/-- Two computations, one after the other. -/
theorem Keeps.bind (hF : Frame I R E) {m : Act S α} {f : α → Act S β} (hm : Keeps I R E m)
    (hf : ∀ a, Keeps I R E (f a)) : Keeps I R E (m >>= f) :=
  hm.bind_of hF (fun _ _ _ _ => trivial) fun a _ => hf a

/-- What follows an assertion starts where the assertion did. -/
theorem Keeps.assert_bind (hF : Frame I R E) {J : S → Prop} (hJ : ∀ s, J s → I s) {b : Bool}
    {c : Prop} [Decidable c] {m : Act S β} (hm : Keeps J R E m) :
    Keeps J R E (Act.when b (Act.assert c) >>= fun _ => m) := by
  intro s hs
  cases b with
  | false => exact hm s hs
  | true =>
    by_cases hc : c
    · have hassert : Act.when true (Act.assert c) s = (.ok (), s) := by
        simp only [Act.when, Act.assert, if_true, assert_pos hc]
      rw [bind_of_ok hassert]
      exact hm s hs
    · have hassert : Act.when true (Act.assert c) s = (.error .assertion, s) := by
        simp only [Act.when, Act.assert, if_true, assert_neg hc]
      rw [bind_of_error hassert]
      exact hF.error s s (hF.refl s (hJ s hs))

/-- Both branches keep the relation. -/
theorem Keeps.ite {c : Prop} [Decidable c] {m m' : Act S α} (h : Keeps I R E m)
    (h' : Keeps I R E m') : Keeps I R E (if c then m else m') := by
  split_ifs
  exacts [h, h']

/-- A loop keeps what its rounds keep. -/
theorem Keeps.forEach (hF : Frame I R E) {f : α → Act S (Option β)} {l : List α}
    (hf : ∀ a ∈ l, Keeps I R E (f a)) : Keeps I R E (forEach f l) := by
  induction l with
  | nil => exact keeps_pure hF none
  | cons a l ih =>
    refine (hf a List.mem_cons_self).bind hF fun r => ?_
    cases r with
    | some b => exact keeps_pure hF _
    | none => exact ih fun a' ha => hf a' (List.mem_cons_of_mem a ha)

end Act

end Meld.Lib
