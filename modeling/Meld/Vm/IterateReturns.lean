import Meld.Vm.IterateBalance
import Meld.Vm.IterateNest

/-!
# Stored facts are given back

A body without a `RESET_LINEAR` that returns as one whose fact was not consumed has let no binding
within consume a copy: an iteration whose body consumed one returns at once while a linear fact is
bound. So every binding of a rule gives back what it took, but for the copies that were consumed
inside a `RESET_LINEAR` of its body (`executeNoted_sound`), which is not nothing
(`not_givesBack`).
-/

namespace Meld.Vm.Iterate

open Lib

variable {σ : Type} {M : Machine σ}

/-! ### What a body without `RESET_LINEAR` keeps -/

namespace Quietly

variable {α β : Type} {P : α → Prop} {Q : β → Prop} {m : Act (Noted σ) α}

protected theorem pure (a : α) : Quietly M P (pure a : Act (Noted σ) α) := by
  rintro s hs hlin b t h
  cases h
  exact ⟨hs, hlin, fun _ => rfl⟩

/-- A sequence in which no binding of either part consumes a copy. -/
theorem bind {f : α → Act (Noted σ) β} (hm : Quietly M P m) (hf : ∀ a, Quietly M Q (f a))
    (hback : ∀ a s b t, s.isLinear = true → f a s = (.ok b, t) → Q b → P a) :
    Quietly M Q (m >>= f) := by
  intro s hs hlin b u h
  rcases hrun : m s with ⟨e | a, t⟩
  · rw [Act.bind_of_error hrun] at h
    cases h
  · rw [Act.bind_of_ok hrun] at h
    obtain ⟨ht, htlin, hsame⟩ := hm s hs hlin a t hrun
    obtain ⟨hu, hulin, hsame'⟩ := hf a t ht htlin b u h
    exact ⟨hu, hulin, fun hb => (hsame' hb).trans (hsame (hback a t b u htlin h hb))⟩

/-- A sequence whose first part binds nothing. -/
theorem bind_of {f : α → Act (Noted σ) β} (hm : Quietly M (fun _ => True) m)
    (hf : ∀ a, Quietly M Q (f a)) : Quietly M Q (m >>= f) :=
  hm.bind hf fun _ _ _ _ _ _ _ => trivial

/-- What depends on the state is looked at from a state in which a linear fact is bound. -/
theorem get_bind {f : Noted σ → Act (Noted σ) β}
    (hf : ∀ s : Noted σ, s.isLinear = true → Quietly M Q (f s)) : Quietly M Q (Act.get >>= f) :=
  fun s hs hlin b t h => hf s hlin s hs hlin b t h

theorem ite {c : Prop} [Decidable c] {m' : Act (Noted σ) α} (h : Quietly M P m)
    (h' : Quietly M P m') : Quietly M P (if c then m else m') := by
  split_ifs
  exacts [h, h']

protected theorem assert (c : Prop) [Decidable c] :
    Quietly M (fun _ => True) (Act.assert c : Act (Noted σ) Unit) := by
  intro s hs hlin a t h
  by_cases hc : c
  · simp only [Act.assert, assert_pos hc] at h
    cases h
    exact ⟨hs, hlin, fun _ => rfl⟩
  · simp only [Act.assert, assert_neg hc] at h
    cases h

theorem when {c : Bool} {m : Act (Noted σ) Unit} (h : Quietly M (fun _ => True) m) :
    Quietly M (fun _ => True) (Act.when c m) := by
  cases c with
  | true => exact h
  | false => exact Quietly.pure ()

/-- A change that touches neither the books nor the ledger. -/
theorem of_eq (h : ∀ s a t, m s = (.ok a, t) → t.usedLinearTuples = s.usedLinearTuples ∧
    t.bound = s.bound ∧ t.ledger = s.ledger ∧ t.isLinear = s.isLinear) : Quietly M P m := by
  intro s hs hlin a t hrun
  obtain ⟨hused, hbound, hledger, hislin⟩ := h s a t hrun
  exact ⟨(settles_of_eq hs hused hbound hledger).accounted, hislin.trans hlin,
    fun _ => congrArg _ hledger⟩

/-- The rounds of a loop, of which the last may return a value. -/
theorem forEach {f : α → Act (Noted σ) (Option β)}
    (hf : ∀ a, Quietly M (fun r => ∀ b ∈ r, Q b) (f a)) (l : List α) :
    Quietly M (fun r => ∀ b ∈ r, Q b) (Act.forEach f l) := by
  induction l with
  | nil => exact Quietly.pure none
  | cons a l ih =>
    refine (hf a).bind (fun r => ?_) fun r s b t _ h hb => ?_
    · cases r with
      | some b => exact Quietly.pure (some b)
      | none => exact ih
    · cases r with
      | some b' =>
        cases h
        exact hb
      | none => exact fun b h => nomatch h

/-- The value of a loop. -/
theorem getD {m : Act (Noted σ) (Option β)} (hm : Quietly M (fun r => ∀ b ∈ r, Q b) m) (b : β) :
    Quietly M Q (do return (← m).getD b) := by
  refine hm.bind (fun r => Quietly.pure _) fun r s c t _ h hc => ?_
  cases h
  rintro c' rfl
  exact hc

/-- A computation that follows a loop which returned nothing. -/
theorem orElse {m : Act (Noted σ) (Option β)} {f : Option β → Act (Noted σ) β}
    (hm : Quietly M (fun r => ∀ b ∈ r, Q b) m) (hsome : ∀ b, f (some b) = pure b)
    (hnone : Quietly M Q (f none)) : Quietly M Q (m >>= f) := by
  refine hm.bind (fun r => ?_) fun r s c t _ h hc => ?_
  · cases r with
    | some b => exact hsome b ▸ Quietly.pure b
    | none => exact hnone
  · cases r with
    | some b =>
      rw [hsome] at h
      cases h
      intro b' hb'
      exact Option.some.inj hb' ▸ hc
    | none => exact fun b h => nomatch h

end Quietly

/-- An iteration that goes on, or returns that its fact was not consumed, has a body that returned
so. -/
theorem notConsumed_of_iterReturn {ret : ReturnType}
    (h : ∀ r ∈ iterReturn ret true, notConsumed r = true) : notConsumed ret = true := by
  cases ret with
  | linear => exact h .linear rfl
  | derived => exact h .derived rfl
  | _ => rfl

section Quiet

variable {it : Iter} {noReset : Bool} {body : Act (Noted σ) ReturnType}
  (hquiet : Quietly M (notConsumed · = true) body)

include hquiet

theorem quietly_runLeafNoted (hM : M.CountsFit) (hbody : Settling M body) (leaf : ℕ) :
    Quietly M (fun r => ∀ ret ∈ r, notConsumed ret = true)
      (runLeafNoted M it noReset body leaf) := by
  intro s hs hislin r v hrun
  have hkeep := (keeps_runLeafNoted hM hbody (fun _ => hquiet) leaf).of_ok hs hrun
  refine ⟨hkeep.accounted, ?_⟩
  cases hlin : M.thisIsLinear it with
  | false =>
    rw [runLeafNoted_of_not_linear hlin] at hrun
    have hs₁ := accounted_push_of_not_linear hlin hs leaf
    rcases hgood : body (s.push false it (.db leaf)) with ⟨e | ret, t⟩
    · rw [hgood] at hrun
      cases hrun
    · rw [hgood] at hrun
      cases hrun
      refine ⟨hislin, fun hr => ?_⟩
      rw [hislin] at hr
      exact (hquiet _ hs₁ hislin ret t hgood).2.2 (notConsumed_of_iterReturn hr)
  | true =>
    obtain ⟨asked, hasked, hasklin, hcons, -, hnone | ⟨s₁, hs₁, ⟨e, t, -, hbad⟩ |
      ⟨ret, t, u, hgood, hu, hret⟩⟩⟩ := runLeafNoted_run noReset hM hlin hbody leaf hs
    · rw [hnone] at hrun
      cases hrun
      exact ⟨hasklin.trans hislin, fun _ => hcons⟩
    · rw [hbad] at hrun
      cases hrun
    · rw [hret] at hrun
      cases hrun
      refine ⟨hu.isLinear.trans (hasklin.trans hislin), fun hr => ?_⟩
      rw [hislin] at hr
      have hnot := notConsumed_of_iterReturn hr
      have hsame := (hquiet s₁ hs₁.accounted hs₁.isLinear ret t hgood).2.2 hnot
      exact (hu.consumed_eq hnot).trans (hsame.trans (hs₁.consumed.trans hcons))

theorem quietly_runTuple (hbody : Settling M body) {o : IterObject} {stpl : ℕ}
    (ho : o = .queue stpl ∨ o = .local stpl) (mark revert release : Bool) :
    Quietly M (fun r => ∀ ret ∈ r, notConsumed ret = true)
      (runTuple M.noted it body o stpl mark revert release) := by
  intro s hs hislin r v hrun
  have hkeep := (keeps_runTuple hbody ho mark revert release).of_ok hs hrun
  refine ⟨hkeep.accounted, ?_⟩
  rw [runTuple_apply] at hrun
  generalize hs₁ : (if mark then (s.push (M.noted.thisIsLinear it) it o).mark stpl true
    else s.push (M.noted.thisIsLinear it) it o) = s₁ at hrun
  obtain ⟨hused, hbound, hledger, hlin₁⟩ := pushed_spec hs₁
  have hs₁' := accounted_pushed ho hs hused hbound hledger
  rcases hgood : body s₁ with ⟨e | ret, t⟩
  · rw [hgood] at hrun
    cases hrun
  · rw [hgood] at hrun
    have hpop : v.isLinear = s.isLinear ∧ v.ledger = t.ledger := by
      simp only [Prod.mk.injEq] at hrun
      rw [← hrun.2]
      split_ifs
      · exact ⟨rfl, rfl⟩
      · exact ⟨rfl, rfl⟩
    refine ⟨hpop.1.trans hislin, fun hr => ?_⟩
    have hret : iterReturn ret s.isLinear = r := Except.ok.inj (congrArg Prod.fst hrun)
    rw [← hret, hislin] at hr
    have htrue : s₁.isLinear = true := by rw [hlin₁, hislin, Bool.or_true]
    have hsame := (hquiet s₁ hs₁' htrue ret t hgood).2.2 (notConsumed_of_iterReturn hr)
    rw [hpop.2, hsame, hledger]

/-- A loop over facts that may be refused. -/
theorem quietly_orderedRoundNoted (hM : M.CountsFit) (hbody : Settling M body) (o : IterObject) :
    Quietly M (fun r => ∀ ret ∈ r, notConsumed ret = true)
      (orderedRoundNoted M it noReset body o) := by
  have htuple : ∀ o stpl, o = .queue stpl ∨ o = .local stpl →
      Quietly M (fun r => ∀ ret ∈ r, notConsumed ret = true) (do
        if !(← Act.get).canBeConsumed stpl then return none
        runTuple M.noted it body o stpl it.toDelete true false) := fun o stpl ho =>
    Quietly.get_bind fun s _ => .ite (.pure none) (quietly_runTuple hquiet hbody ho _ _ _)
  cases o with
  | db leaf => exact quietly_runLeafNoted hquiet hM hbody leaf
  | queue stpl => exact htuple _ stpl (.inl rfl)
  | «local» stpl => exact htuple _ stpl (.inr rfl)

theorem quietly_plainRoundNoted (hbody : Settling M body) {o : IterObject} {stpl : ℕ}
    (ho : o = .queue stpl ∨ o = .local stpl) :
    Quietly M (fun r => ∀ ret ∈ r, notConsumed ret = true)
      (plainRound M.noted it body o stpl) := by
  refine Quietly.get_bind fun s _ => .ite (.pure none) (.ite (.pure none) ?_)
  exact (Quietly.when (.assert _)).bind_of fun _ => quietly_runTuple hquiet hbody ho _ _ _

omit hquiet in
theorem quietly_shuffleNoted (l : List ℕ) : Quietly M (fun _ => True) (shuffle M.noted l) := by
  refine Quietly.of_eq fun s a t h => ?_
  cases h
  exact ⟨rfl, rfl, rfl, rfl⟩

theorem quietly_executeQueueNoted (hbody : Settling M body) :
    Quietly M (fun r => ∀ ret ∈ r, notConsumed ret = true) (executeQueue M.noted it body) := by
  refine .ite ?_ (.pure none)
  refine (Quietly.assert _).bind_of fun _ => ?_
  have hactive : Quietly M (fun _ => True) (activeTuples M.noted it) :=
    Quietly.get_bind fun s _ => .ite (quietly_shuffleNoted _) (.pure _)
  exact hactive.bind_of fun l => .forEach (fun stpl =>
    quietly_plainRoundNoted hquiet hbody (.inl rfl)) l

theorem quietly_executeLocalNoted (hbody : Settling M body) :
    Quietly M (fun r => ∀ ret ∈ r, notConsumed ret = true) (executeLocal M.noted it body) :=
  .ite (.forEach (fun _ => .ite (.pure none) (quietly_plainRoundNoted hquiet hbody (.inr rfl))) _)
    (.pure none)

theorem quietly_executePlainNoted (hM : M.CountsFit) (hbody : Settling M body)
    (tuples : List ℕ) :
    Quietly M (notConsumed · = true) (executePlainNoted M it noReset body tuples) := by
  refine Quietly.orElse (.forEach (fun leaf => quietly_runLeafNoted hquiet hM hbody leaf) tuples)
    (fun _ => rfl) ?_
  refine Quietly.orElse (quietly_executeQueueNoted hquiet hbody) (fun _ => rfl) ?_
  exact (quietly_executeLocalNoted hquiet hbody).getD _

theorem quietly_executeIterNoted (hM : M.CountsFit) (hbody : Settling M body)
    (tuples : List ℕ) :
    Quietly M (notConsumed · = true) (executeIterNoted M it noReset body tuples) := by
  refine .ite (quietly_executePlainNoted hquiet hM hbody tuples) (.ite ?_ (.ite ?_ ?_))
  · exact (quietly_shuffleNoted tuples).bind_of fun l =>
      quietly_executePlainNoted hquiet hM hbody l
  · refine Quietly.get_bind fun s _ => ?_
    exact (Quietly.forEach (fun o => quietly_orderedRoundNoted hquiet hM hbody o) _).getD _
  · exact quietly_executePlainNoted hquiet hM hbody tuples

end Quiet

/-- Some code keeps the books balanced, and without a `RESET_LINEAR` it returns when a binding has
consumed a copy. -/
theorem keeps_executeNoted (hM : M.CountsFit) (c : Code σ) : Settling M (executeNoted M c) ∧
    (c.noReset = true → Quietly M (notConsumed · = true) (executeNoted M c)) := by
  induction c with
  | last run =>
    refine ⟨fun s hs => settles_of_eq hs rfl rfl rfl, fun _ => Quietly.of_eq fun s a t h => ?_⟩
    cases h
    exact ⟨rfl, rfl, rfl, rfl⟩
  | instr run next ih =>
    refine ⟨Act.Keeps.bind settleFrame
      (Act.keeps_modify fun s hs => settles_of_eq hs rfl rfl rfl) fun _ => ih.1, fun hno => ?_⟩
    have hmod : Quietly M (fun _ => True) (Act.modify fun s : Noted σ =>
        { s with env := (run s.tuple s.env.1, s.env.2) }) := Quietly.of_eq fun s a t h => by
      cases h
      exact ⟨rfl, rfl, rfl, rfl⟩
    exact hmod.bind_of fun _ => ih.2 hno
  | cond test next jump ihn ihj =>
    refine ⟨(Act.keeps_get settleFrame).bind settleFrame fun s => .ite ihn.1 ihj.1, fun hno => ?_⟩
    obtain ⟨hn, hj⟩ := Bool.and_eq_true_iff.mp hno
    exact Quietly.get_bind fun s _ => .ite (ihn.2 hn) (ihj.2 hj)
  | resetLinear first jump ihf ihj =>
    refine ⟨(Act.keeps_get settleFrame).bind settleFrame fun old => ?_, fun hno => by cases hno⟩
    refine Act.Keeps.bind settleFrame
      (Act.keeps_modify fun s hs => settles_of_eq hs rfl rfl rfl) fun _ => ?_
    refine ihf.1.bind settleFrame fun ret => (Act.keeps_assert settleFrame _).bind settleFrame
      fun _ => ?_
    exact Act.Keeps.bind settleFrame
      (Act.keeps_modify fun s hs => settles_of_eq hs rfl rfl rfl) fun _ => ihj.1
  | iter it first jump ihf ihj =>
    refine ⟨(Act.keeps_get settleFrame).bind settleFrame fun s => ?_, fun hno => ?_⟩
    · refine (keeps_executeIterNoted hM ihf.1 ihf.2 _).bind settleFrame fun ret => ?_
      refine .ite (Act.keeps_pure settleFrame ret) ?_
      exact (Act.keeps_get settleFrame).bind settleFrame fun t =>
        .ite (Act.keeps_pure settleFrame ret) ihj.1
    · obtain ⟨hf, hj⟩ := Bool.and_eq_true_iff.mp hno
      refine Quietly.get_bind fun s _ => ?_
      refine (quietly_executeIterNoted (ihf.2 hf) hM ihf.1 _).bind (fun ret => ?_)
        fun ret s b t hlin h hb => ?_
      · exact .ite (.pure ret) (Quietly.get_bind fun t _ => .ite (.pure ret) (ihj.2 hj))
      · -- an iteration whose fact was consumed returns so
        by_cases hret : ret = .linear
        · rw [if_pos hret] at h
          cases h
          exact hb
        · by_cases hder : ret = .derived
          · rw [if_neg hret, Act.bind_get, if_pos ⟨hlin, hder⟩] at h
            cases h
            exact hb
          · exact decide_eq_true ⟨hret, hder⟩

/-! ### Runs of a rule -/

/-- The state in which a rule begins, with an empty ledger. -/
def State.startNoted (env : σ) (toDelete generatedThisRun : ℕ → Bool) (isLinear : Bool) : Noted σ :=
  .start (env, .empty) toDelete generatedThisRun [] isLinear

/-- Nothing is accounted for when a rule begins. -/
theorem accounted_start (env : σ) (toDelete generatedThisRun : ℕ → Bool) (isLinear : Bool) :
    (State.startNoted env toDelete generatedThisRun isLinear).books.Accounted M where
  balanced _ _ h := nomatch h
  nonneg _ _ h := nomatch h
  fits _ _ h := nomatch h
  unused _ _ := ⟨rfl, rfl, rfl⟩

/-- In every run of a rule, which is a run with a ledger, the free copies of a leaf, the active
iterations that have bound it and the finished bindings that consumed it add up to its count;
an iteration is refused a leaf exactly when no copy is free, and no assertion of the accounting
fails; and a binding whose body did not consume the leaf leaves the free copies that it found, less
those consumed inside a `RESET_LINEAR` of its body. -/
theorem executeNoted_sound (M : Machine σ) (hM : M.CountsFit) (c : Code σ) (env : σ)
    (toDelete generatedThisRun : ℕ → Bool) (isLinear : Bool) :
    let run := executeNoted M c (.startNoted env toDelete generatedThisRun isLinear)
    execute M c (.start env toDelete generatedThisRun [] isLinear) = (run.1, run.2.erase) ∧
      (∀ e ∈ run.2.ledger.entries, e.books.Balanced M ∧ e.event.Right) ∧
      ∀ ret, run.1 = .ok ret → run.2.books.Balanced M := by
  intro run
  have hstart := accounted_start (M := M) env toDelete generatedThisRun isLinear
  have hkeep := (keeps_executeNoted hM c).1
  refine ⟨execute_noted M c (.startNoted env toDelete generatedThisRun isLinear), fun e he => ?_,
    fun ret hok => ?_⟩
  · rcases Act.Keeps.exec settleFrame hkeep hstart e he with hnone | hsound
    · cases hnone
    · exact ⟨hsound.balanced, hsound.right⟩
  · exact (hkeep.of_ok (a := ret) hstart (Prod.ext hok rfl)).accounted.balanced

/-- A database with one leaf, which holds two copies of a linear fact. -/
def twoCopies : Machine Unit where
  isLinearPred _ := true
  persistentOnly := false
  useLocalTuples := false
  predicate stpl := stpl
  localTuples := []
  queue _ := []
  doMatches _ _ _ _ := true
  matchPredicate _ _ _ := [0]
  getCount _ _ := 2
  sort _ l := l
  sort_perm _ _ := .refl _
  shuffleVector l env := (l, env)
  shuffle_perm _ _ := .refl _

/-- An iteration with a `RESET_LINEAR` in its body, inside which another one consumes a fact. -/
def consumingReset : Code Unit :=
  .iter ⟨0, 0, 0⟩ (.resetLinear
    (.iter ⟨0, 0, 0⟩ (.last fun _ env => (env, .derived)) (.last fun _ env => (env, .endLinear)))
    (.last fun _ env => (env, .ok))) (.last fun _ env => (env, .ok))

theorem executeNoted_sound_consumingReset : twoCopies.CountsFit ∧
    ∀ e ∈ (executeNoted twoCopies consumingReset (.startNoted () (fun _ => false)
      (fun _ => false) false)).2.ledger.entries, e.books.Balanced twoCopies ∧ e.event.Right := by
  have hM : twoCopies.CountsFit := fun _ _ => show (0 : ℤ) < 2 ∧ (2 : ℤ) ≤ maxShort by decide
  exact ⟨hM, (executeNoted_sound twoCopies hM consumingReset () (fun _ => false)
    (fun _ => false) false).2.1⟩

/-- The copy that is consumed inside the `RESET_LINEAR` is missing when the outer binding ends,
although the body of that one did not consume the fact. -/
theorem not_givesBack : ∃ e ∈ (executeNoted twoCopies consumingReset (.startNoted ()
    (fun _ => false) (fun _ => false) false)).2.ledger.entries, ¬e.event.GivesBack := by
  have hmem : Event.ended 0 2 1 1 false .ok ∈ (executeNoted twoCopies consumingReset (.startNoted ()
      (fun _ => false) (fun _ => false) false)).2.ledger.entries.map (·.event) := by decide
  obtain ⟨e, he, hevent⟩ := List.mem_map.mp hmem
  refine ⟨e, he, fun h => ?_⟩
  rw [hevent] at h
  exact absurd (h rfl) (by decide)

end Meld.Vm.Iterate
