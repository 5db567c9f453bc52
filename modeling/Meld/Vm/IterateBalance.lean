import Meld.Vm.IterateUses

/-!
# The books of the stored facts balance

For every leaf that was used the free copies, the active iterations that have bound it and the
finished bindings whose bodies consumed a copy add up to the count of the leaf when it was first
used (`Books.Balanced`). An iteration is refused a leaf exactly when no copy is free, and what a
binding takes it gives back: the free copies that it leaves are those before it, less the copies
that bindings within it consumed.

Bindings within a binding consume copies that stay consumed only inside a `RESET_LINEAR`: without
one (`Quietly`), a body that consumed something returns so.
-/

namespace Meld.Vm.Iterate

open Lib

variable {σ : Type}

/-! ### The records -/

@[simp] theorem record_nil (leaf : ℕ) : record leaf [] = none := rfl

theorem record_cons (leaf : ℕ) (p : ℕ × ℤ) (used : List (ℕ × ℤ)) :
    record leaf (p :: used) = if p.1 = leaf then some p.2 else record leaf used := by
  by_cases hp : p.1 = leaf
  · simp [record, hp]
  · simp [record, hp]

theorem linearTupleCanBeUsed_eq (leaf : ℕ) (used : List (ℕ × ℤ)) :
    linearTupleCanBeUsed leaf used = (record leaf used).all (0 < ·) := by
  induction used with
  | nil => rfl
  | cons p used ih =>
    rw [linearTupleCanBeUsed, record_cons]
    split_ifs
    · rfl
    · exact ih

theorem record_updateUsed (leaf : ℕ) (f : ℤ → ℤ) (used : List (ℕ × ℤ)) (x : ℕ) :
    record x (updateUsed leaf f used) =
      if x = leaf then (record leaf used).map f else record x used := by
  induction used with
  | nil => simp [updateUsed]
  | cons p used ih =>
    rw [updateUsed]
    by_cases hp : p.1 = leaf
    · rw [if_pos hp, record_cons, record_cons, record_cons]
      by_cases hx : x = leaf
      · simp [hp, hx]
      · have hpx : ¬p.1 = x := fun he => hx (he.symm.trans hp)
        simp [hpx, hx]
    · rw [if_neg hp, record_cons, record_cons, record_cons, ih]
      by_cases hx : x = leaf
      · simp [hp, hx]
      · simp [hx]

/-! ### The books -/

/-- The active iterations that have bound a leaf as a linear fact. -/
def active (linear : Iter → Bool) (bound : List (Iter × IterObject)) (leaf : ℕ) : ℕ :=
  bound.countP fun e => linear e.1 && decide (e.2 = .db leaf)

theorem active_cons (linear : Iter → Bool) (e : Iter × IterObject)
    (bound : List (Iter × IterObject)) (leaf : ℕ) :
    active linear (e :: bound) leaf =
      active linear bound leaf + if linear e.1 = true ∧ e.2 = .db leaf then 1 else 0 := by
  simp only [active, List.countP_cons, Bool.and_eq_true, decide_eq_true_eq]

namespace Books

variable (M : Machine σ)

/-- The free copies, the active iterations and the copies that were consumed add up to the count. -/
def Balanced (b : Books) : Prop :=
  ∀ leaf free, record leaf b.used = some free →
    b.first leaf = some (free + active M.thisIsLinear b.bound leaf + b.consumed leaf)

instance : Inhabited Books := ⟨⟨[], [], fun _ => none, fun _ => 0⟩⟩

/-- The books balance, no more is taken than there is, and a leaf that was not used is bound by no
iteration. -/
structure Accounted (b : Books) : Prop where
  balanced : b.Balanced M
  nonneg : ∀ leaf free, record leaf b.used = some free → 0 ≤ free
  fits : ∀ leaf c, b.first leaf = some c → c ≤ maxShort
  unused : ∀ leaf, record leaf b.used = none → b.first leaf = none ∧
    active M.thisIsLinear b.bound leaf = 0 ∧ b.consumed leaf = 0

variable {M} {b b' : Books} {it : Iter} {leaf : ℕ} {free count : ℤ}

/-- A leaf whose count is written down has a record. -/
theorem Accounted.recorded (h : b.Accounted M) {c : ℤ} (hfirst : b.first leaf = some c) :
    ∃ free, record leaf b.used = some free := by
  cases hrec : record leaf b.used with
  | some free => exact ⟨free, rfl⟩
  | none =>
    rw [(h.unused leaf hrec).1] at hfirst
    cases hfirst

/-- The books do not see a binding that is not one of a linear leaf. -/
theorem Accounted.of_active (h : b.Accounted M) (hused : b'.used = b.used)
    (hactive : ∀ x, active M.thisIsLinear b'.bound x = active M.thisIsLinear b.bound x)
    (hfirst : b'.first = b.first) (hconsumed : b'.consumed = b.consumed) : b'.Accounted M where
  balanced x f hx := by
    rw [hused] at hx
    rw [hfirst, hactive, hconsumed]
    exact h.balanced x f hx
  nonneg x f hx := h.nonneg x f (hused ▸ hx)
  fits x c hx := h.fits x c (hfirst ▸ hx)
  unused x hx := by
    rw [hfirst, hactive, hconsumed]
    exact h.unused x (hused ▸ hx)

/-- The count of a leaf, whether it was used before or not. -/
theorem Accounted.first_eq (h : b.Accounted M) (hcount : count ≤ maxShort)
    (hfree : free = (record leaf b.used).getD count) :
    (b.first leaf <|> some count) =
        some (free + active M.thisIsLinear b.bound leaf + b.consumed leaf) ∧
      free + active M.thisIsLinear b.bound leaf + b.consumed leaf ≤ maxShort := by
  cases hrec : record leaf b.used with
  | some f =>
    rw [hrec, Option.getD_some] at hfree
    subst hfree
    have hold := h.balanced leaf free hrec
    rw [hold]
    exact ⟨rfl, h.fits leaf _ hold⟩
  | none =>
    rw [hrec, Option.getD_none] at hfree
    subst hfree
    obtain ⟨hnone, hact, hcons⟩ := h.unused leaf hrec
    rw [hnone, hact, hcons]
    exact ⟨by simp, by simpa using hcount⟩

/-- An iteration takes a copy. -/
theorem Accounted.take (h : b.Accounted M) (hlin : M.thisIsLinear it = true)
    (hcount : count ≤ maxShort) (hfree : free = (record leaf b.used).getD count) (hpos : 0 < free)
    (hused : ∀ x, record x b'.used = if x = leaf then some (free - 1) else record x b.used)
    (hbound : b'.bound = (it, .db leaf) :: b.bound)
    (hfirst : b'.first = Function.update b.first leaf (b.first leaf <|> some count))
    (hconsumed : b'.consumed = b.consumed) : b'.Accounted M := by
  -- the fact bound is the only one that is bound anew
  have hactive : ∀ x, active M.thisIsLinear b'.bound x =
      active M.thisIsLinear b.bound x + if x = leaf then 1 else 0 := by
    intro x
    rw [hbound, active_cons]
    by_cases hx : x = leaf
    · simp [hlin, hx]
    · have hne : leaf ≠ x := fun he => hx he.symm
      simp [hx, hne]
  have hother : ∀ x, x ≠ leaf → b'.first x = b.first x := fun x hx => by
    rw [hfirst, Function.update_of_ne hx]
  -- the copies there were at first are the free, the bound and the consumed ones
  have hself : b'.first leaf =
      some (free + active M.thisIsLinear b.bound leaf + b.consumed leaf) := by
    rw [hfirst, Function.update_self]
    exact (h.first_eq hcount hfree).1
  constructor
  · intro x f hx
    rw [hused] at hx
    rw [hactive, hconsumed]
    by_cases hxl : x = leaf
    · subst hxl
      rw [if_pos rfl, Option.some.injEq] at hx
      rw [hself, if_pos rfl, Option.some.injEq]
      omega
    · rw [if_neg hxl] at hx
      rw [hother x hxl, if_neg hxl, h.balanced x f hx]
      rfl
  · intro x f hx
    rw [hused] at hx
    split_ifs at hx
    · rw [Option.some.injEq] at hx
      omega
    · exact h.nonneg x f hx
  · intro x c hx
    by_cases hxl : x = leaf
    · subst hxl
      rw [← Option.some.inj (hself.symm.trans hx)]
      exact (h.first_eq hcount hfree).2
    · exact h.fits x c (hother x hxl ▸ hx)
  · intro x hx
    rw [hused] at hx
    split_ifs at hx with hxl
    rw [hother x hxl, hactive, hconsumed, if_neg hxl]
    exact h.unused x hx

/-- A binding ends: its copy was consumed, or is free again. -/
theorem Accounted.finish (h : b.Accounted M) (hlin : M.thisIsLinear it = true)
    (hbound : b.bound = (it, .db leaf) :: b'.bound) (hfree : record leaf b.used = some free)
    (hfirst : b'.first = b.first) {k : ℕ} (hk : k ≤ 1)
    (hused : ∀ x, record x b'.used = if x = leaf then some (free + 1 - k) else record x b.used)
    (hconsumed : b'.consumed = Function.update b.consumed leaf (b.consumed leaf + k)) :
    b'.Accounted M := by
  have hactive : ∀ x, active M.thisIsLinear b.bound x =
      active M.thisIsLinear b'.bound x + if x = leaf then 1 else 0 := by
    intro x
    rw [hbound, active_cons]
    by_cases hx : x = leaf
    · simp [hlin, hx]
    · have hne : leaf ≠ x := fun he => hx he.symm
      simp [hx, hne]
  constructor
  · intro x f hx
    rw [hused] at hx
    rw [hfirst, hconsumed]
    by_cases hxl : x = leaf
    · subst hxl
      rw [if_pos rfl, Option.some.injEq] at hx
      rw [h.balanced x free hfree, hactive, if_pos rfl, Function.update_self, Option.some.injEq]
      omega
    · rw [if_neg hxl] at hx
      rw [h.balanced x f hx, hactive, if_neg hxl, Function.update_of_ne hxl]
      rfl
  · intro x f hx
    rw [hused] at hx
    split_ifs at hx
    · have := h.nonneg leaf free hfree
      rw [Option.some.injEq] at hx
      omega
    · exact h.nonneg x f hx
  · intro x c hx
    exact h.fits x c (hfirst ▸ hx)
  · intro x hx
    rw [hused] at hx
    split_ifs at hx with hxl
    have hold := h.unused x hx
    rw [hactive, if_neg hxl] at hold
    rw [hfirst, hconsumed, Function.update_of_ne hxl]
    exact hold

end Books

/-! ### The entries -/

namespace Event

/-- An iteration is refused a leaf exactly when no copy is free, no assertion fails, and a binding
gives back what it took, but for the copies that bindings within consumed: of those there are none
without a `RESET_LINEAR`. -/
def Right : Event → Prop
  | asked _ free refused => refused = true ↔ free = 0
  | began _ => True
  | ended _ before after within noReset ret =>
    notConsumed ret = true → after = before - within ∧ (noReset = true → within = 0)
  | failed => False

/-- A binding whose body did not consume the leaf leaves the free copies as they were. -/
def GivesBack : Event → Prop
  | ended _ before after _ _ ret => notConsumed ret = true → after = before
  | _ => True

end Event

/-- The books balance, and the event is as it should be. -/
structure Entry.Sound (M : Machine σ) (e : Entry) : Prop where
  balanced : e.books.Balanced M
  right : e.event.Right

/-- A leaf of a trie holds a copy at least, and its count is a `ref_count`. -/
def Machine.CountsFit (M : Machine σ) : Prop :=
  ∀ env leaf, 0 < M.getCount env leaf ∧ M.getCount env leaf ≤ maxShort

/-! ### What a run keeps -/

section Keeps

variable (M : Machine σ)

/-- The entries of a run are sound. -/
def Notes (s t : Noted σ) : Prop :=
  ∀ e ∈ t.ledger.entries, e ∈ s.ledger.entries ∨ e.Sound M

/-- A run that returns keeps what is bound, and what the ledger knows. -/
structure Settles (s t : Noted σ) : Prop where
  bound : t.bound = s.bound
  accounted : t.books.Accounted M
  first : ∀ leaf c, s.ledger.first leaf = some c → t.ledger.first leaf = some c
  consumed : ∀ leaf, s.ledger.consumed leaf ≤ t.ledger.consumed leaf
  notes : Notes M s t

variable {M}

theorem Notes.trans {s t u : Noted σ} (h : Notes M s t) (h' : Notes M t u) : Notes M s u := by
  intro e he
  rcases h' e he with he | he
  · exact h e he
  · exact .inr he

theorem Settles.trans {s t u : Noted σ} (h : Settles M s t) (h' : Settles M t u) :
    Settles M s u where
  bound := h'.bound.trans h.bound
  accounted := h'.accounted
  first leaf c hc := h'.first leaf c (h.first leaf c hc)
  consumed leaf := Nat.le_trans (h.consumed leaf) (h'.consumed leaf)
  notes := h.notes.trans h'.notes

theorem settleFrame : Act.Frame (fun s : Noted σ => s.books.Accounted M) (Settles M) (Notes M) where
  refl _ hs := ⟨rfl, hs, fun _ _ h => h, fun _ => le_rfl, fun _ he => .inl he⟩
  trans _ _ _ h h' := h.trans h'
  trans_error _ _ _ h h' := h.notes.trans h'
  error _ _ h := h.notes
  keep _ _ _ h := h.accounted

variable (M) in
/-- A computation that some code may contain. -/
abbrev Settling {α : Type} (m : Act (Noted σ) α) : Prop :=
  Act.Keeps (fun s => s.books.Accounted M) (Settles M) (Notes M) m

/-- What touches neither the books nor the ledger settles. -/
theorem settles_of_eq {s t : Noted σ} (hs : s.books.Accounted M)
    (hused : t.usedLinearTuples = s.usedLinearTuples) (hbound : t.bound = s.bound)
    (hledger : t.ledger = s.ledger) : Settles M s t := by
  have hbooks : t.books = s.books := by rw [State.books, hused, hbound, hledger]; rfl
  exact ⟨hbound, hbooks ▸ hs, fun _ _ h => hledger ▸ h, fun _ => by rw [hledger],
    fun _ he => .inl (hledger ▸ he)⟩

/-- A sound entry settles. -/
theorem settles_note {s : Noted σ} (hs : s.books.Accounted M) {event : Event}
    (hevent : event.Right) : Settles M s (s.note event) := by
  refine ⟨rfl, hs, fun _ _ h => h, fun _ => le_rfl, fun e he => ?_⟩
  rcases List.mem_append.mp he with he | he
  · exact .inl he
  · rw [List.mem_singleton.mp he]
    exact .inr ⟨hs.balanced, hevent⟩

variable (M) in
/-- A computation that began while a linear fact was bound and returns such a value has let no
binding consume a copy. -/
def Quietly {α : Type} (P : α → Prop) (m : Act (Noted σ) α) : Prop :=
  ∀ s : Noted σ, s.books.Accounted M → s.isLinear = true → ∀ a t, m s = (.ok a, t) →
    t.books.Accounted M ∧ t.isLinear = true ∧ (P a → t.ledger.consumed = s.ledger.consumed)

section Iteration

variable {it : Iter} {noReset : Bool} {body : Act (Noted σ) ReturnType}

/-- `using_new_linear_tuple` takes a copy when one is free. -/
theorem using_spec (hM : M.CountsFit) {s : Noted σ} {leaf : ℕ}
    (h : linearTupleCanBeUsed leaf s.usedLinearTuples = true) :
    ∃ used', usingNewLinearTuple M.noted leaf s = (.ok (), { s with usedLinearTuples := used' }) ∧
      0 < s.free M leaf ∧
      ∀ x, record x used' =
        if x = leaf then some (s.free M leaf - 1) else record x s.usedLinearTuples := by
  rw [linearTupleCanBeUsed_eq] at h
  obtain ⟨hpos, hfits⟩ := hM s.env.1 leaf
  cases hfind : s.usedLinearTuples.find? (·.1 = leaf) with
  | some p =>
    have hrec : record leaf s.usedLinearTuples = some p.2 := by rw [record, hfind]; rfl
    have hfree : s.free M leaf = p.2 := by rw [State.free, hrec]; rfl
    rw [hrec] at h
    have hp : 0 < p.2 := by simpa using h
    refine ⟨updateUsed leaf (· - 1) s.usedLinearTuples, ?_, hfree ▸ hp, fun x => ?_⟩
    · rw [usingNewLinearTuple, Act.bind_get, hfind]
      have hassert : (Act.assert (0 < p.2) : Act (Noted σ) Unit) s = (.ok (), s) := by
        simp only [Act.assert, assert_pos hp]
      exact Act.bind_of_ok hassert
    · rw [record_updateUsed, hrec, hfree]
      rfl
  | none =>
    have hrec : record leaf s.usedLinearTuples = none := by rw [record, hfind]; rfl
    have hfree : s.free M leaf = M.getCount s.env.1 leaf := by rw [State.free, hrec]; rfl
    refine ⟨(leaf, M.getCount s.env.1 leaf - 1) :: s.usedLinearTuples, ?_, hfree ▸ hpos,
      fun x => ?_⟩
    · have hwrap : wrap16 (M.noted.getCount s.env leaf - 1) = M.getCount s.env.1 leaf - 1 :=
        wrap16_of_mem (by simp only [maxShort, Machine.noted]; omega)
          (by simp only [Machine.noted]; omega)
      rw [usingNewLinearTuple, Act.bind_get, hfind]
      simp only [Act.modify, hwrap]
    · rw [record_cons, hfree]
      by_cases hx : x = leaf
      · simp [hx]
      · have hne : ¬leaf = x := fun he => hx he.symm
        simp [hx, hne]

/-- `no_longer_using_linear_tuple` gives a copy back. -/
theorem noLonger_spec {s : Noted σ} {leaf : ℕ} {free : ℤ}
    (h : record leaf s.usedLinearTuples = some free) (hmin : 0 ≤ free)
    (hmax : free + 1 ≤ maxShort) :
    ∃ used', noLongerUsingLinearTuple leaf s = (.ok (), { s with usedLinearTuples := used' }) ∧
      ∀ x, record x used' = if x = leaf then some (free + 1) else record x s.usedLinearTuples := by
  obtain ⟨p, hfind, hp⟩ := Option.map_eq_some_iff.mp h
  refine ⟨updateUsed leaf (fun n => wrap16 (n + 1)) s.usedLinearTuples, ?_, fun x => ?_⟩
  · rw [noLongerUsingLinearTuple, Act.bind_get, hfind]
    rfl
  · rw [record_updateUsed, h, Option.map_some,
      wrap16_of_mem (by simp only [maxShort] at *; omega) hmax]

/-- A round for a leaf that is not a linear fact. -/
theorem runLeafNoted_of_not_linear (hlin : M.thisIsLinear it = false) (leaf : ℕ) (s : Noted σ) :
    runLeafNoted M it noReset body leaf s =
      match body (s.push false it (.db leaf)) with
      | (.ok ret, t) => (.ok (iterReturn ret s.isLinear), t.pop s)
      | (.error e, t) => (.error e, t) := by
  rcases hrun : body (s.push false it (.db leaf)) with ⟨e | ret, t⟩
  · simp only [runLeafNoted, hlin]
    exact (Act.bind_of_ok rfl).trans ((Act.bind_of_ok rfl).trans ((Act.bind_of_ok rfl).trans
      ((Act.bind_of_ok rfl).trans ((Act.bind_of_ok rfl).trans ((Act.bind_of_ok rfl).trans
        (Act.bind_of_error hrun))))))
  · simp only [runLeafNoted, hlin]
    exact (Act.bind_of_ok rfl).trans ((Act.bind_of_ok rfl).trans ((Act.bind_of_ok rfl).trans
      ((Act.bind_of_ok rfl).trans ((Act.bind_of_ok rfl).trans ((Act.bind_of_ok rfl).trans
        ((Act.bind_of_ok hrun).trans (by cases notConsumed ret <;> rfl)))))))

/-- The books do not see a leaf that is not bound as a linear fact. -/
theorem accounted_push_of_not_linear (hlin : M.thisIsLinear it = false) {s : Noted σ}
    (hs : s.books.Accounted M) (leaf : ℕ) : (s.push false it (.db leaf)).books.Accounted M := by
  refine hs.of_active rfl (fun x => ?_) rfl rfl
  exact (active_cons _ _ _ _).trans (by simp [hlin]; rfl)

/-- A leaf that is not bound as a linear fact is not accounted for. -/
theorem keeps_runLeafNoted_of_not_linear (hlin : M.thisIsLinear it = false)
    (hbody : Settling M body) (leaf : ℕ) : Settling M (runLeafNoted M it noReset body leaf) := by
  intro s hs
  have hs₁ := accounted_push_of_not_linear hlin hs leaf
  rw [runLeafNoted_of_not_linear hlin]
  rcases hrun : body (s.push false it (.db leaf)) with ⟨e | ret, t⟩
  · have hnotes : Notes M (s.push false it (.db leaf)) t := hbody.of_error hs₁ hrun
    exact hnotes
  · have ht := hbody.of_ok hs₁ hrun
    refine ⟨rfl, ht.accounted.of_active rfl (fun x => ?_) rfl rfl, ht.first, ht.consumed, ht.notes⟩
    have hbound : t.bound = (it, .db leaf) :: s.bound := ht.bound
    simp only [State.books, hbound, active_cons, hlin]
    simp [State.pop]

/-- A leaf that was asked for is refused exactly when no copy is free. -/
theorem asked_right (hM : M.CountsFit) {s : Noted σ} (hs : s.books.Accounted M) (leaf : ℕ) :
    (Event.asked leaf (s.free M leaf)
      (!linearTupleCanBeUsed leaf s.usedLinearTuples)).Right := by
  simp only [Event.Right, linearTupleCanBeUsed_eq, State.free]
  cases hrec : record leaf s.usedLinearTuples with
  | none =>
    have := (hM s.env.1 leaf).1
    simp only [Option.all_none, Bool.not_true, Bool.false_eq_true, Option.getD_none, false_iff]
    omega
  | some free =>
    have := hs.nonneg leaf free hrec
    simp only [Option.all_some, Bool.not_eq_true', decide_eq_false_iff_not, Option.getD_some]
    omega

/-- The state in which the body for a leaf begins. -/
structure Begun (M : Machine σ) (it : Iter) (leaf : ℕ) (s s₁ : Noted σ) : Prop where
  bound : s₁.bound = (it, .db leaf) :: s.bound
  isLinear : s₁.isLinear = true
  consumed : s₁.ledger.consumed = s.ledger.consumed
  count : s₁.ledger.first leaf = some (s.free M leaf + active M.thisIsLinear s.bound leaf +
    s.ledger.consumed leaf)
  first : ∀ x c, s.ledger.first x = some c → s₁.ledger.first x = some c
  accounted : s₁.books.Accounted M
  notes : Notes M s s₁

/-- The state after a body that began in `s` and returned in `t`: its copy was consumed, or is free
again. -/
structure Finished (M : Machine σ) (ret : ReturnType) (s t u : Noted σ) : Prop where
  bound : u.bound = s.bound
  isLinear : u.isLinear = s.isLinear
  first : u.ledger.first = t.ledger.first
  consumed : ∀ x, t.ledger.consumed x ≤ u.ledger.consumed x
  consumed_eq : notConsumed ret = true → u.ledger.consumed = t.ledger.consumed
  accounted : u.books.Accounted M
  entries : u.ledger.entries = t.ledger.entries

/-- A free copy is taken. -/
private theorem begun_spec (hM : M.CountsFit) (hlin : M.thisIsLinear it = true) {leaf : ℕ}
    {s : Noted σ} (hs : s.books.Accounted M)
    (hfree : linearTupleCanBeUsed leaf s.usedLinearTuples = true) :
    ∃ s₁, (∀ m : Act (Noted σ) (Option ReturnType), (do
        Act.when (M.thisIsLinear it) (Act.modify fun s : Noted σ => s.noteFirst M leaf)
        Act.when (M.thisIsLinear it) (watch (usingNewLinearTuple M.noted leaf))
        pushCurrentState (M.thisIsLinear it) it (.db leaf)
        Act.when (M.thisIsLinear it) (note (.began leaf))
        m) s = m s₁) ∧ Begun M it leaf s s₁ := by
  obtain ⟨used', hrun, hpos, hused⟩ := using_spec hM (s := s.noteFirst M leaf) hfree
  have hacc : (({ s.noteFirst M leaf with usedLinearTuples := used' } : Noted σ).push true it
      (.db leaf)).books.Accounted M :=
    hs.take hlin (hM s.env.1 leaf).2 rfl hpos hused rfl rfl rfl
  have hwatch : watch (usingNewLinearTuple M.noted leaf) (s.noteFirst M leaf) =
      (.ok (), { s.noteFirst M leaf with usedLinearTuples := used' }) := by
    rw [watch, hrun]
  have hright : (Event.began leaf).Right := trivial
  have hbegan := settles_note hacc hright
  refine ⟨(({ s.noteFirst M leaf with usedLinearTuples := used' } : Noted σ).push true it
    (.db leaf)).note (.began leaf), fun m => ?_, rfl, rfl, rfl, ?_, fun x c hx => ?_,
    hbegan.accounted, hbegan.notes⟩
  · simp only [hlin]
    exact (Act.bind_of_ok rfl).trans ((Act.bind_of_ok hwatch).trans
      ((Act.bind_of_ok rfl).trans (Act.bind_of_ok rfl)))
  · have hfirst : (s.noteFirst M leaf).ledger.first leaf =
        (s.ledger.first leaf <|> some (M.getCount s.env.1 leaf)) := Function.update_self ..
    exact hfirst.trans (hs.first_eq (hM s.env.1 leaf).2 rfl).1
  · change Function.update s.ledger.first leaf
      (s.ledger.first leaf <|> some (M.getCount s.env.1 leaf)) x = some c
    by_cases hxl : x = leaf
    · subst hxl
      rw [Function.update_self, hx]
      rfl
    · rw [Function.update_of_ne hxl, hx]

/-- A binding ends with a copy that was consumed, or gives it back. -/
private theorem finished_spec (hlin : M.thisIsLinear it = true) {leaf : ℕ} {s t : Noted σ}
    (ht : t.books.Accounted M) (hbound : t.bound = (it, .db leaf) :: s.bound) {c : ℤ}
    (hfirst : t.ledger.first leaf = some c) (ret : ReturnType) :
    ∃ u, (∀ m : Act (Noted σ) (Option ReturnType), (do
        Act.when (!notConsumed ret && M.thisIsLinear it)
          (Act.modify fun s : Noted σ => s.noteConsumed leaf)
        Act.when (notConsumed ret && M.thisIsLinear it) (watch (noLongerUsingLinearTuple leaf))
        m) (t.pop s) = m u) ∧ Finished M ret s t u := by
  obtain ⟨free, hrec⟩ := ht.recorded hfirst
  have hmin := ht.nonneg leaf free hrec
  cases hret : notConsumed ret with
  | false =>
    refine ⟨(t.pop s).noteConsumed leaf, fun m => ?_, rfl, rfl, rfl, fun x => ?_,
      fun h => absurd (hret.symm.trans h) Bool.false_ne_true, ?_, rfl⟩
    · simp only [hlin]
      exact (Act.bind_of_ok rfl).trans (Act.bind_of_ok rfl)
    · by_cases hx : x = leaf
      · subst hx
        simp [State.noteConsumed, State.ledger, State.pop]
      · simp [State.noteConsumed, State.ledger, State.pop, hx]
    · refine ht.finish hlin hbound hrec rfl le_rfl (fun x => ?_) rfl
      split_ifs with hx
      · subst hx
        have hfree : free + 1 - ((1 : ℕ) : ℤ) = free := by omega
        rw [hfree]
        exact hrec
      · rfl
  | true =>
    -- one use less fits, as there are as many uses as active iterations
    have hmax : free + 1 ≤ maxShort := by
      have hle := ht.fits leaf _ (ht.balanced leaf free hrec)
      have hact : active M.thisIsLinear t.books.bound leaf =
          active M.thisIsLinear s.bound leaf + 1 := by
        have : t.books.bound = (it, .db leaf) :: s.bound := hbound
        rw [this, active_cons]
        simp [hlin]
      rw [hact] at hle
      omega
    have hrec' : record leaf (t.pop s).usedLinearTuples = some free := hrec
    obtain ⟨used', hrun, hused⟩ := noLonger_spec hrec' hmin hmax
    refine ⟨{ t.pop s with usedLinearTuples := used' }, fun m => ?_, rfl, rfl, rfl,
      fun x => le_rfl, fun _ => rfl, ?_, rfl⟩
    · have hwatch : watch (noLongerUsingLinearTuple leaf) (t.pop s) =
          (.ok (), { t.pop s with usedLinearTuples := used' }) := by
        rw [watch, hrun]
      simp only [hlin]
      exact (Act.bind_of_ok rfl).trans (Act.bind_of_ok hwatch)
    · refine ht.finish hlin hbound hrec rfl (Nat.zero_le 1) (fun x => ?_) ?_
      · have hfree : free + 1 - ((0 : ℕ) : ℤ) = free + 1 := by omega
        rw [hfree]
        exact hused x
      · funext x
        by_cases hx : x = leaf
        · subst hx
          simp [State.books, State.pop, State.ledger]
        · simp [State.books, State.pop, State.ledger, hx]

variable (noReset) in
/-- A round for a linear leaf: the iteration is refused, or the body stops or returns. -/
theorem runLeafNoted_run (hM : M.CountsFit) (hlin : M.thisIsLinear it = true)
    (hbody : Settling M body) (leaf : ℕ) {s : Noted σ} (hs : s.books.Accounted M) :
    ∃ asked, Settles M s asked ∧ asked.isLinear = s.isLinear ∧
      asked.ledger.consumed = s.ledger.consumed ∧ asked.free M leaf = s.free M leaf ∧
      (runLeafNoted M it noReset body leaf s = (.ok none, asked) ∨ ∃ s₁, Begun M it leaf asked s₁ ∧
        ((∃ e t, body s₁ = (.error e, t) ∧ runLeafNoted M it noReset body leaf s = (.error e, t)) ∨
          ∃ ret t u, body s₁ = (.ok ret, t) ∧ Finished M ret asked t u ∧
            runLeafNoted M it noReset body leaf s = (.ok (iterReturn ret s.isLinear),
              u.note (.ended leaf (s.free M leaf) (u.free M leaf)
                (u.ledger.consumed leaf - s.ledger.consumed leaf) noReset ret)))) := by
  have hasked := settles_note hs (asked_right hM hs leaf)
  refine ⟨_, hasked, rfl, rfl, rfl, ?_⟩
  generalize hs' : s.note (.asked leaf (s.free M leaf)
    (!linearTupleCanBeUsed leaf s.usedLinearTuples)) = asked at hasked
  have hnote : Act.when (M.thisIsLinear it) (note (.asked leaf (s.free M leaf)
      (!linearTupleCanBeUsed leaf s.usedLinearTuples))) s = (.ok (), asked) := by
    rw [hlin, ← hs']
    rfl
  rw [runLeafNoted, Act.bind_get, Act.bind_of_ok hnote]
  cases hfree : linearTupleCanBeUsed leaf s.usedLinearTuples with
  | false =>
    rw [hlin]
    exact .inl rfl
  | true =>
    have hfree' : linearTupleCanBeUsed leaf asked.usedLinearTuples = true := by
      rw [← hs']
      exact hfree
    have hcond : ¬(M.thisIsLinear it && !true) = true := by simp
    obtain ⟨s₁, hbegin, hs₁⟩ := begun_spec hM hlin hasked.accounted hfree'
    refine .inr ⟨s₁, hs₁, ?_⟩
    rw [if_neg hcond, hbegin]
    rcases hrun : body s₁ with ⟨e | ret, t⟩
    · exact .inl ⟨e, t, rfl, Act.bind_of_error hrun⟩
    · have ht := hbody.of_ok hs₁.accounted hrun
      obtain ⟨u, hend, hu⟩ := finished_spec hlin ht.accounted (ht.bound.trans hs₁.bound)
        (ht.first leaf _ hs₁.count) ret
      have hpop : (t.pop asked) = t.pop s := by
        rw [← hs']
        rfl
      refine .inr ⟨ret, t, u, rfl, hu, ?_⟩
      rw [Act.bind_of_ok hrun, popState, Act.bind_modify, ← hpop, hend, Act.bind_get, hlin]
      rfl

/-- A body for a leaf settles; without a `RESET_LINEAR` it gives the copy back. -/
theorem keeps_runLeafNoted (hM : M.CountsFit) (hbody : Settling M body)
    (hquiet : noReset = true → Quietly M (notConsumed · = true) body) (leaf : ℕ) :
    Settling M (runLeafNoted M it noReset body leaf) := by
  cases hlin : M.thisIsLinear it with
  | false => exact keeps_runLeafNoted_of_not_linear hlin hbody leaf
  | true =>
    intro s hs
    obtain ⟨asked, hasked, -, hcons, hfree, hrun | ⟨s₁, hs₁, ⟨e, t, hbad, hrun⟩ |
      ⟨ret, t, u, hgood, hu, hrun⟩⟩⟩ :=
        runLeafNoted_run noReset hM hlin hbody leaf hs
    · rw [hrun]
      exact hasked
    · rw [hrun]
      exact hasked.notes.trans (hs₁.notes.trans (hbody.of_error hs₁.accounted hbad))
    · have ht := hbody.of_ok hs₁.accounted hgood
      rw [hrun]
      -- the free copies after the binding and before it
      have hcount : u.ledger.first leaf = some (s.free M leaf +
          active M.thisIsLinear s.bound leaf + s.ledger.consumed leaf) := by
        rw [hu.first, ht.first leaf _ hs₁.count, hfree, hasked.bound, hcons]
      obtain ⟨free, hrec⟩ := hu.accounted.recorded hcount
      have hbound : u.bound = s.bound := hu.bound.trans hasked.bound
      have hconsumed : ∀ x, s.ledger.consumed x ≤ u.ledger.consumed x := fun x => by
        have h₁ := ht.consumed x
        have h₂ := hu.consumed x
        rw [hs₁.consumed, hcons] at h₁
        omega
      have hright : (Event.ended leaf (s.free M leaf) (u.free M leaf)
          (u.ledger.consumed leaf - s.ledger.consumed leaf) noReset ret).Right := by
        intro hret
        refine ⟨?_, fun hno => ?_⟩
        · have hufree : u.free M leaf = free := congrArg (Option.getD · _) hrec
          have hbal : u.ledger.first leaf =
              some (free + active M.thisIsLinear u.bound leaf + u.ledger.consumed leaf) :=
            hu.accounted.balanced leaf free hrec
          rw [hcount, hbound, Option.some.injEq] at hbal
          have := hconsumed leaf
          rw [hufree]
          omega
        · have hsame := ((hquiet hno) s₁ hs₁.accounted hs₁.isLinear ret t hgood).2.2 hret
          rw [hu.consumed_eq hret, hsame, hs₁.consumed, hcons, Nat.sub_self]
      have hend := settles_note hu.accounted hright
      refine ⟨hbound, hend.accounted, fun x c hx => hend.first x c ?_, hconsumed, ?_⟩
      · rw [hu.first]
        exact ht.first x c (hs₁.first x c (hasked.first x c hx))
      · have hu' : Notes M t u := fun e he => .inl (hu.entries ▸ he)
        exact hasked.notes.trans (hs₁.notes.trans (ht.notes.trans (hu'.trans hend.notes)))

/-- The state in which the body for a fact that is not in the database begins. -/
theorem pushed_spec {o : IterObject} {stpl : ℕ} {mark : Bool} {s s₁ : Noted σ}
    (h : (if mark then (s.push (M.noted.thisIsLinear it) it o).mark stpl true
      else s.push (M.noted.thisIsLinear it) it o) = s₁) :
    s₁.usedLinearTuples = s.usedLinearTuples ∧ s₁.bound = (it, o) :: s.bound ∧
      s₁.ledger = s.ledger ∧ s₁.isLinear = (M.noted.thisIsLinear it || s.isLinear) := by
  rw [← h]
  cases mark with
  | true => exact ⟨rfl, rfl, rfl, rfl⟩
  | false => exact ⟨rfl, rfl, rfl, rfl⟩

/-- The books do not see a fact that is not in the database. -/
private theorem active_cons_tuple {o : IterObject} {stpl : ℕ}
    (ho : o = .queue stpl ∨ o = .local stpl) (linear : Iter → Bool)
    (bound : List (Iter × IterObject)) (x : ℕ) :
    active linear ((it, o) :: bound) x = active linear bound x := by
  rw [active_cons]
  rcases ho with rfl | rfl
  · simp
  · simp

/-- So the books stand as they stood. -/
theorem accounted_pushed {o : IterObject} {stpl : ℕ}
    (ho : o = .queue stpl ∨ o = .local stpl) {s s₁ : Noted σ} (hs : s.books.Accounted M)
    (hused : s₁.usedLinearTuples = s.usedLinearTuples) (hbound : s₁.bound = (it, o) :: s.bound)
    (hledger : s₁.ledger = s.ledger) : s₁.books.Accounted M := by
  refine hs.of_active hused (fun x => ?_) ?_ ?_
  · simp only [State.books, hbound, active_cons_tuple ho]
  · simp only [State.books, hledger]
  · simp only [State.books, hledger]

theorem keeps_runTuple (hbody : Settling M body) {o : IterObject} {stpl : ℕ}
    (ho : o = .queue stpl ∨ o = .local stpl) (mark revert release : Bool) :
    Settling M (runTuple M.noted it body o stpl mark revert release) := by
  intro s hs
  rw [runTuple_apply]
  generalize hs₁ : (if mark then (s.push (M.noted.thisIsLinear it) it o).mark stpl true
    else s.push (M.noted.thisIsLinear it) it o) = s₁
  obtain ⟨hused, hbound, hledger, -⟩ := pushed_spec hs₁
  have hs₁' := accounted_pushed ho hs hused hbound hledger
  have hnotes : ∀ t, Notes M s₁ t → Notes M s t := fun t ht e he => hledger ▸ ht e he
  rcases hrun : body s₁ with ⟨e | ret, t⟩
  · exact hnotes t (hbody.of_error hs₁' hrun)
  · have ht := hbody.of_ok hs₁' hrun
    have hpop : Settles M s (t.pop s) := by
      refine ⟨rfl, ht.accounted.of_active rfl (fun x => ?_) rfl rfl,
        fun x c hx => ht.first x c (hledger ▸ hx), fun x => hledger ▸ ht.consumed x,
        hnotes t ht.notes⟩
      have htbound : t.bound = (it, o) :: s.bound := ht.bound.trans hbound
      simp only [State.books, htbound, active_cons_tuple ho, State.pop]
    simp only
    split_ifs
    · exact hpop.trans (settles_of_eq hpop.accounted rfl rfl rfl)
    · exact hpop

theorem keeps_orderedRoundNoted (hM : M.CountsFit) (hbody : Settling M body)
    (hquiet : noReset = true → Quietly M (notConsumed · = true) body) (o : IterObject) :
    Settling M (orderedRoundNoted M it noReset body o) := by
  have htuple : ∀ o stpl, o = .queue stpl ∨ o = .local stpl → Settling M (do
      if !(← Act.get).canBeConsumed stpl then return none
      runTuple M.noted it body o stpl it.toDelete true false) := fun o stpl ho =>
    (Act.keeps_get settleFrame).bind settleFrame fun s =>
      .ite (Act.keeps_pure settleFrame none) (keeps_runTuple hbody ho _ _ _)
  cases o with
  | db leaf => exact keeps_runLeafNoted hM hbody hquiet leaf
  | queue stpl => exact htuple _ stpl (.inl rfl)
  | «local» stpl => exact htuple _ stpl (.inr rfl)

theorem keeps_plainRoundNoted (hbody : Settling M body) {o : IterObject} {stpl : ℕ}
    (ho : o = .queue stpl ∨ o = .local stpl) :
    Settling M (plainRound M.noted it body o stpl) := by
  refine (Act.keeps_get settleFrame).bind settleFrame fun s => ?_
  refine .ite (Act.keeps_pure settleFrame none) (.ite (Act.keeps_pure settleFrame none) ?_)
  refine Act.Keeps.bind settleFrame (.when settleFrame fun _ => Act.keeps_assert settleFrame _)
    fun _ => ?_
  exact keeps_runTuple hbody ho _ _ _

theorem keeps_shuffleNoted (l : List ℕ) : Settling M (shuffle M.noted l) := fun _ hs =>
  settles_of_eq hs rfl rfl rfl

theorem keeps_executeOrderedNoted (hM : M.CountsFit) (hbody : Settling M body)
    (hquiet : noReset = true → Quietly M (notConsumed · = true) body)
    (tuples : List ℕ) : Settling M (executeOrderedNoted M it noReset body tuples) :=
  (Act.keeps_get settleFrame).bind settleFrame fun _ =>
    Act.Keeps.bind settleFrame
      (.forEach settleFrame fun o _ => keeps_orderedRoundNoted hM hbody hquiet o)
      fun _ => Act.keeps_pure settleFrame _

theorem keeps_executeQueueNoted (hbody : Settling M body) :
    Settling M (executeQueue M.noted it body) := by
  refine .ite ?_ (Act.keeps_pure settleFrame none)
  refine (Act.keeps_assert settleFrame _).bind settleFrame fun _ => ?_
  refine Act.Keeps.bind settleFrame ?_ fun l => .forEach settleFrame fun stpl _ =>
    keeps_plainRoundNoted hbody (.inl rfl)
  exact (Act.keeps_get settleFrame).bind settleFrame fun s =>
    .ite (keeps_shuffleNoted _) (Act.keeps_pure settleFrame _)

theorem keeps_executeLocalNoted (hbody : Settling M body) :
    Settling M (executeLocal M.noted it body) :=
  .ite (.forEach settleFrame fun _ _ =>
      .ite (Act.keeps_pure settleFrame none) (keeps_plainRoundNoted hbody (.inr rfl)))
    (Act.keeps_pure settleFrame none)

theorem keeps_executePlainNoted (hM : M.CountsFit) (hbody : Settling M body)
    (hquiet : noReset = true → Quietly M (notConsumed · = true) body)
    (tuples : List ℕ) : Settling M (executePlainNoted M it noReset body tuples) := by
  refine Act.Keeps.bind settleFrame
    (.forEach settleFrame fun leaf _ => keeps_runLeafNoted hM hbody hquiet leaf) fun r => ?_
  cases r with
  | some ret => exact Act.keeps_pure settleFrame ret
  | none =>
    refine (keeps_executeQueueNoted hbody).bind settleFrame fun r => ?_
    cases r with
    | some ret => exact Act.keeps_pure settleFrame ret
    | none =>
      exact (keeps_executeLocalNoted hbody).bind settleFrame fun _ => Act.keeps_pure settleFrame _

theorem keeps_executeIterNoted (hM : M.CountsFit) (hbody : Settling M body)
    (hquiet : noReset = true → Quietly M (notConsumed · = true) body)
    (tuples : List ℕ) : Settling M (executeIterNoted M it noReset body tuples) := by
  refine .ite (keeps_executePlainNoted hM hbody hquiet tuples) (.ite ?_ (.ite ?_ ?_))
  · exact (keeps_shuffleNoted tuples).bind settleFrame fun l =>
      keeps_executePlainNoted hM hbody hquiet l
  · exact keeps_executeOrderedNoted hM hbody hquiet tuples
  · exact keeps_executePlainNoted hM hbody hquiet tuples

end Iteration

end Keeps

end Meld.Vm.Iterate
