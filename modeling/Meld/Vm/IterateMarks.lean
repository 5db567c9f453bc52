import Meld.Vm.Iterate

/-!
# What iterations exclude

While a rule runs, a linear fact that is bound is marked, or it was bound by an iteration that does
not mark (`Iter.unmarked`). A fact that is marked is not bound again, and an iteration takes away
only the marks that it has set: so what is marked when a body begins is marked when it ends. If the
iterations that do not mark have none of their predicate in their bodies (`Code.Excludes`), every
moment of a run is as it should be (`keeps_execute`).
-/

namespace Meld.Vm.Iterate

open Lib

variable {σ : Type}

/-- An iteration over linear facts that leaves those it binds unmarked. -/
def Iter.unmarked (it : Iter) (isLinearPred : ℕ → Bool) : Bool :=
  isLinearPred it.pred && it.min && !it.random && !it.toDelete

/-- The linear fact of the queue or of the local facts that an iteration binds. -/
def linearFact (isLinearPred : ℕ → Bool) : Iter × IterObject → Option ℕ
  | (_, .db _) => none
  | (it, .queue stpl) | (it, .local stpl) => if isLinearPred it.pred then some stpl else none

/-- The iterations of some code. -/
def Code.iters : Code σ → List Iter
  | .last _ => []
  | .instr _ next => next.iters
  | .cond _ next jump => next.iters ++ jump.iters
  | .resetLinear first jump => first.iters ++ jump.iters
  | .iter it first jump => it :: (first.iters ++ jump.iters)

/-- The iterations that leave their facts unmarked are among some, and none of them has another
iteration of its predicate in its body. -/
def Code.Excludes (isLinearPred : ℕ → Bool) (U : Iter → Prop) : Code σ → Prop
  | .last _ => True
  | .instr _ next => next.Excludes isLinearPred U
  | .cond _ next jump => next.Excludes isLinearPred U ∧ jump.Excludes isLinearPred U
  | .resetLinear first jump => first.Excludes isLinearPred U ∧ jump.Excludes isLinearPred U
  | .iter it first jump => (it.unmarked isLinearPred = true →
        U it ∧ ∀ it' ∈ first.iters, it'.pred ≠ it.pred) ∧
      first.Excludes isLinearPred U ∧ jump.Excludes isLinearPred U

namespace Moment

variable (m : Moment) (isLinearPred : ℕ → Bool)

/-- No linear fact is bound by two active iterations. -/
def BoundOnce : Prop := (m.bound.filterMap (linearFact isLinearPred)).Nodup

instance : Decidable (m.BoundOnce isLinearPred) := inferInstanceAs (Decidable (List.Nodup _))

/-- The linear facts that are bound are excluded, but for those of some iterations. -/
def Excluded (U : Iter → Prop) : Prop :=
  ∀ e ∈ m.bound, ∀ stpl, linearFact isLinearPred e = some stpl → m.toDelete stpl = true ∨ U e.1

end Moment

section Keeps

variable (M : Machine σ) (U : Iter → Prop)

/-- What holds when some code runs: no fact is bound twice, and the code can only bind again what
is not bound. -/
structure Bound (c : Code σ) (s : State σ) : Prop where
  once : (s.bound.filterMap (linearFact M.isLinearPred)).Nodup
  excluded : ∀ e ∈ s.bound, ∀ stpl, linearFact M.isLinearPred e = some stpl →
    M.predicate stpl = e.1.pred ∧
      (s.toDelete stpl = true ∨ U e.1 ∧ ∀ it ∈ c.iters, it.pred ≠ e.1.pred)

/-- A run records moments that are as they should be. -/
def Records (s t : State σ) : Prop :=
  ∀ m ∈ t.moments, m ∈ s.moments ∨ m.BoundOnce M.isLinearPred ∧ m.Excluded M.isLinearPred U

/-- A run that returns keeps what is bound and what is marked. -/
structure Resumes (s t : State σ) : Prop where
  bound : t.bound = s.bound
  toDelete : ∀ stpl, s.toDelete stpl = true → t.toDelete stpl = true
  records : Records M U s t

variable {M U} {c : Code σ}

/-- What was recorded on the way is recorded at the end. -/
theorem Records.trans {s t u : State σ} (h : Records M U s t) (h' : Records M U t u) :
    Records M U s u := by
  intro m hm
  rcases h' m hm with hm | hm
  · exact h m hm
  · exact .inr hm

/-- Resuming twice is resuming. -/
theorem Resumes.trans {s t u : State σ} (h : Resumes M U s t) (h' : Resumes M U t u) :
    Resumes M U s u where
  bound := h'.bound.trans h.bound
  toDelete stpl hs := h'.toDelete stpl (h.toDelete stpl hs)
  records := h.records.trans h'.records

/-- The marks are a frame for the computations of the machine. -/
theorem frame : Act.Frame (Bound M U c) (Resumes M U) (Records M U) where
  refl s _ := ⟨rfl, fun _ h => h, fun _ hm => .inl hm⟩
  trans _ _ _ h h' := h.trans h'
  trans_error _ _ _ h h' := h.records.trans h'
  error _ _ h := h.records
  keep s t hs h := by
    refine ⟨by rw [h.bound]; exact hs.once, fun e he stpl hstpl => ?_⟩
    rw [h.bound] at he
    obtain ⟨hpred, hexcl⟩ := hs.excluded e he stpl hstpl
    exact ⟨hpred, hexcl.imp_left (h.toDelete stpl)⟩

variable (M U c) in
/-- A computation that some code may contain. -/
abbrev Sound {α : Type} (m : Act (State σ) α) : Prop :=
  Act.Keeps (Bound M U c) (Resumes M U) (Records M U) m

/-- What does not touch the marks keeps them. -/
theorem resumes_of_eq {s t : State σ} (hbound : t.bound = s.bound) (hdel : t.toDelete = s.toDelete)
    (hmom : t.moments = s.moments) : Resumes M U s t :=
  ⟨hbound, fun _ h => hdel ▸ h, fun _ hm => .inl (hmom ▸ hm)⟩

/-- Marking a leaf as used does not touch the facts' marks. -/
theorem keeps_usingNewLinearTuple (leaf : ℕ) :
    Sound M U c (usingNewLinearTuple M leaf) := by
  refine (Act.keeps_get frame).bind frame fun s => ?_
  split
  · refine (Act.keeps_assert frame _).bind frame fun _ => ?_
    exact Act.keeps_modify fun _ _ => resumes_of_eq rfl rfl rfl
  · exact Act.keeps_modify fun _ _ => resumes_of_eq rfl rfl rfl

/-- Nor does taking the mark back. -/
theorem keeps_noLongerUsingLinearTuple (leaf : ℕ) :
    Sound M U c (noLongerUsingLinearTuple leaf) := by
  refine (Act.keeps_get frame).bind frame fun s => ?_
  refine (Act.keeps_assert frame _).bind frame fun _ => ?_
  exact Act.keeps_modify fun _ _ => resumes_of_eq rfl rfl rfl

section Iteration

variable {it : Iter} {first jump : Code σ} {body : Act (State σ) ReturnType}
  (hcode : (Code.iter it first jump).Excludes M.isLinearPred U)
  (hbody : Sound M U first body)

/-- A fact of the database is not excluded by a mark. -/
theorem bound_push_leaf {leaf : ℕ} {s : State σ} (hs : Bound M U (.iter it first jump) s) :
    Bound M U first (s.push (M.thisIsLinear it) it (.db leaf)) := by
  refine ⟨hs.once, fun e he q hq => ?_⟩
  rcases List.mem_cons.mp he with rfl | he
  · cases hq
  · obtain ⟨hepred, hexcl⟩ := hs.excluded e he q hq
    refine ⟨hepred, hexcl.imp_right fun h => ⟨h.1, fun it' hit' => ?_⟩⟩
    exact h.2 it' (List.mem_cons_of_mem _ (List.mem_append_left _ hit'))

include hcode

/-- A fact that can be consumed is not bound, and is excluded when it has been bound. -/
theorem bound_push {o : IterObject} {stpl : ℕ} (ho : o = .queue stpl ∨ o = .local stpl)
    (hpred : M.predicate stpl = it.pred) {mark : Bool}
    (hmark : M.isLinearPred it.pred = true → mark = true ∨ it.unmarked M.isLinearPred = true)
    {s : State σ} (hs : Bound M U (.iter it first jump) s) (hfree : s.toDelete stpl = false) :
    Bound M U first (if mark then (s.push (M.thisIsLinear it) it o).mark stpl true
      else s.push (M.thisIsLinear it) it o) := by
  have hfact : linearFact M.isLinearPred (it, o) =
      if M.isLinearPred it.pred then some stpl else none := by
    rcases ho with rfl | rfl <;> rfl
  have hbound : (if mark then (s.push (M.thisIsLinear it) it o).mark stpl true
      else s.push (M.thisIsLinear it) it o).bound = (it, o) :: s.bound := by
    cases mark <;> rfl
  -- marked are the facts of before, and this one if the iteration consumes it
  have hdelete : ∀ q, (if mark then (s.push (M.thisIsLinear it) it o).mark stpl true
      else s.push (M.thisIsLinear it) it o).toDelete q = true ↔
        s.toDelete q = true ∨ mark = true ∧ q = stpl := by
    intro q
    by_cases hq : q = stpl
    · subst hq
      cases mark <;> simp [State.mark, State.push]
    · cases mark <;> simp [State.mark, State.push, hq]
  refine ⟨?_, ?_⟩
  · rw [hbound]
    cases hlin : M.isLinearPred it.pred with
    | false =>
      rw [List.filterMap_cons_none (by rw [hfact, hlin]; rfl)]
      exact hs.once
    | true =>
      rw [List.filterMap_cons_some (by rw [hfact, hlin]; rfl), List.nodup_cons]
      refine ⟨fun hmem => ?_, hs.once⟩
      obtain ⟨e, he, hestpl⟩ := List.mem_filterMap.mp hmem
      obtain ⟨hepred, hdel | ⟨-, hother⟩⟩ := hs.excluded e he stpl hestpl
      · exact Bool.false_ne_true (hfree.symm.trans hdel)
      · exact hother it List.mem_cons_self (hpred.symm.trans hepred)
  · intro e he q hq
    rw [hbound] at he
    rw [hdelete]
    rcases List.mem_cons.mp he with rfl | he
    · rw [hfact] at hq
      split_ifs at hq with hlin
      cases hq
      refine ⟨hpred, ?_⟩
      rcases hmark hlin with hm | hun
      · exact .inl (.inr ⟨hm, rfl⟩)
      · exact .inr (hcode.1 hun)
    · obtain ⟨hepred, hexcl⟩ := hs.excluded e he q hq
      refine ⟨hepred, hexcl.imp .inl fun h => ⟨h.1, fun it' hit' => ?_⟩⟩
      exact h.2 it' (List.mem_cons_of_mem _ (List.mem_append_left _ hit'))

include hbody

/-- A round on a fact that nobody holds marks it for the body, where it has to. -/
theorem resumes_runTuple {o : IterObject} {stpl : ℕ} (ho : o = .queue stpl ∨ o = .local stpl)
    (hpred : M.predicate stpl = it.pred) {mark : Bool} (revert release : Bool)
    (hmark : M.isLinearPred it.pred = true → mark = true ∨ it.unmarked M.isLinearPred = true) :
    Act.Keeps (fun s => Bound M U (.iter it first jump) s ∧ s.toDelete stpl = false)
      (Resumes M U) (Records M U) (runTuple M it body o stpl mark revert release) := by
  rintro s ⟨hs, hfree⟩
  have hs₁ := bound_push hcode ho hpred hmark hs hfree
  rw [runTuple_apply]
  generalize hs₁' : (if mark then (s.push (M.thisIsLinear it) it o).mark stpl true
    else s.push (M.thisIsLinear it) it o) = s₁ at hs₁
  have hmom : s₁.moments = s.moments := by
    rw [← hs₁']
    cases mark <;> rfl
  have hdel : ∀ q, s.toDelete q = true → s₁.toDelete q = true := by
    intro q hq
    rw [← hs₁']
    cases mark with
    | false => exact hq
    | true =>
      by_cases he : q = stpl
      · simp [State.mark, he]
      · simpa [State.mark, State.push, he] using hq
  have hrec : ∀ t, Records M U s₁ t → Records M U s t := fun t ht m hm => hmom ▸ ht m hm
  rcases hrun : body s₁ with ⟨_ | ret, t⟩
  · exact hrec t (hbody.of_error hs₁ hrun)
  · have ht := hbody.of_ok hs₁ hrun
    simp only
    have hne : ∀ q, s.toDelete q = true → q ≠ stpl := by
      rintro q hq rfl
      exact Bool.false_ne_true (hfree.symm.trans hq)
    split_ifs
    · refine ⟨rfl, fun q hq => ?_, hrec t ht.records⟩
      simp only [State.mark, Function.update_of_ne (hne q hq)]
      exact ht.toDelete q (hdel q hq)
    · exact ⟨rfl, fun q hq => ht.toDelete q (hdel q hq), hrec t ht.records⟩

omit hcode in
/-- A body for a leaf, and what comes after it. -/
theorem keeps_body (old : State σ) (leaf : ℕ) {α : Type} {after : ReturnType → Act (State σ) α}
    (hafter : ∀ ret, Sound M U (.iter it first jump) (after ret)) :
    Act.Keeps (fun s => Bound M U (.iter it first jump) s ∧ s.bound = old.bound)
      (Resumes M U) (Records M U) (do
        pushCurrentState (M.thisIsLinear it) it (.db leaf)
        let ret ← body
        popState old
        after ret) := by
  rintro s ⟨hs, hold⟩
  have hs₁ : Bound M U first (s.push (M.thisIsLinear it) it (.db leaf)) := bound_push_leaf hs
  simp only [pushCurrentState, popState, Act.bind_modify]
  rcases hrun : body (s.push (M.thisIsLinear it) it (.db leaf)) with ⟨_ | ret, t⟩
  · rw [Act.bind_of_error hrun]
    have h := hbody.of_error hs₁ hrun
    exact h
  · have ht := hbody.of_ok hs₁ hrun
    have hpop : Resumes M U s (t.pop old) := ⟨hold.symm, ht.toDelete, ht.records⟩
    rw [Act.bind_of_ok hrun, Act.bind_modify]
    have h := hafter ret (t.pop old) (frame.keep _ _ hs hpop)
    split at h
    · exact hpop.trans h
    · exact hpop.records.trans h

omit hcode in
/-- A round on a leaf of the database. -/
theorem keeps_runLeaf (leaf : ℕ) :
    Sound M U (.iter it first jump) (runLeaf M it body leaf) := by
  intro s hs
  rw [runLeaf, Act.bind_get]
  split_ifs
  · exact frame.refl s hs
  · have hafter : ∀ ret, Sound M U (.iter it first jump) (do
        Act.when (notConsumed ret && M.thisIsLinear it) (noLongerUsingLinearTuple leaf)
        return iterReturn ret s.isLinear) := fun ret =>
      (Act.Keeps.when frame fun _ => keeps_noLongerUsingLinearTuple leaf).bind frame
        fun _ => Act.keeps_pure frame _
    have hrest := keeps_body hbody s leaf hafter
    have husing : Sound M U (.iter it first jump)
        (Act.when (M.thisIsLinear it) (usingNewLinearTuple M leaf)) :=
      .when frame fun _ => keeps_usingNewLinearTuple leaf
    rcases hrun : Act.when (M.thisIsLinear it) (usingNewLinearTuple M leaf) s with ⟨_ | _, t⟩
    · rw [Act.bind_of_error hrun]
      exact husing.of_error hs hrun
    · have ht := husing.of_ok hs hrun
      rw [Act.bind_of_ok hrun]
      have h := hrest t ⟨frame.keep _ _ hs ht, ht.bound⟩
      split at h
      · exact ht.trans h
      · exact ht.records.trans h

/-- A round of the ordered path, which marks linear facts by its options. -/
theorem keeps_orderedRound (hordered : it.min = true ∧ it.random = false) {o : IterObject}
    (ho : ∀ stpl, o = .queue stpl ∨ o = .local stpl → M.predicate stpl = it.pred) :
    Sound M U (.iter it first jump) (orderedRound M it body o) := by
  have hmark : M.isLinearPred it.pred = true →
      it.toDelete = true ∨ it.unmarked M.isLinearPred = true := by
    intro hlin
    cases hdel : it.toDelete <;> simp [Iter.unmarked, hlin, hordered, hdel]
  have htuple : ∀ stpl, o = .queue stpl ∨ o = .local stpl →
      Sound M U (.iter it first jump) (do
        if !(← Act.get).canBeConsumed stpl then return none
        runTuple M it body o stpl it.toDelete true false) := by
    intro stpl hstpl s hs
    rw [Act.bind_get]
    split_ifs with hc
    · exact frame.refl s hs
    · have hfree : s.toDelete stpl = false := by
        simp only [State.canBeConsumed] at hc
        cases hd : s.toDelete stpl <;> simp_all
      exact resumes_runTuple hcode hbody hstpl (ho stpl hstpl) true false hmark s ⟨hs, hfree⟩
  cases o with
  | db leaf => exact keeps_runLeaf hbody leaf
  | queue stpl => exact htuple stpl (.inl rfl)
  | «local» stpl => exact htuple stpl (.inr rfl)

/-- A round of the plain path, which marks every linear fact. -/
theorem keeps_plainRound (hpers : M.persistentOnly = false) {o : IterObject} {stpl : ℕ}
    (ho : o = .queue stpl ∨ o = .local stpl) (hpred : M.predicate stpl = it.pred) :
    Sound M U (.iter it first jump) (plainRound M it body o stpl) := by
  intro s hs
  rw [plainRound, Act.bind_get]
  split_ifs with hc
  · exact frame.refl s hs
  · exact frame.refl s hs
  · have hfree : s.toDelete stpl = false := by
      simp only [State.canBeConsumed] at hc
      cases hd : s.toDelete stpl <;> simp_all
    have hmark : M.isLinearPred it.pred = true →
        (it.toDelete || M.thisIsLinear it) = true ∨ it.unmarked M.isLinearPred = true := by
      intro hlin
      simp [Machine.thisIsLinear, hlin, hpers]
    have hrun := resumes_runTuple hcode hbody ho hpred (it.toDelete || M.thisIsLinear it)
      (!it.toDelete && M.thisIsLinear it) hmark
    exact (hrun.assert_bind frame fun _ h => h.1) s ⟨hs, hfree⟩

/-- A round of the plain path on a local fact. -/
theorem keeps_localRound (hpers : M.persistentOnly = false) (stpl : ℕ) :
    Sound M U (.iter it first jump) (localRound M it body stpl) := by
  unfold localRound
  split_ifs with hpred
  · exact Act.keeps_pure frame none
  · exact keeps_plainRound hcode hbody hpers (.inr rfl) (not_not.mp hpred)

omit hcode hbody in
/-- The facts of the queue that are gathered have the predicate of the iteration. -/
theorem predicate_of_mem_gather {s : State σ} {stpl : ℕ} (h : stpl ∈ gatherActiveTuples M it s) :
    M.predicate stpl = it.pred := by
  have := (List.mem_filter.mp h).2
  simp only [Bool.and_eq_true, decide_eq_true_eq] at this
  exact this.2

omit hcode hbody in
/-- So have the facts that the ordered path goes through. -/
theorem predicate_of_mem_everything {tuples : List ℕ} {s : State σ} {o : IterObject}
    (h : o ∈ everything M it tuples s) (stpl : ℕ) (ho : o = .queue stpl ∨ o = .local stpl) :
    M.predicate stpl = it.pred := by
  rw [everything, List.mem_append, List.mem_append] at h
  rcases h with (h | h) | h
  · obtain ⟨q, hq, rfl⟩ := List.mem_map.mp h
    obtain rfl : q = stpl := by simpa using ho
    exact predicate_of_mem_gather (List.mem_of_mem_filter hq)
  · split_ifs at h with huse
    · obtain ⟨q, hq, rfl⟩ := List.mem_map.mp h
      obtain rfl : q = stpl := by simpa using ho
      have := (List.mem_filter.mp hq).2
      simp only [Bool.and_eq_true, decide_eq_true_eq] at this
      exact this.1.1
    · cases h
  · obtain ⟨leaf, -, rfl⟩ := List.mem_map.mp h
    simp at ho

/-- The ordered path. -/
theorem keeps_executeOrdered (hordered : it.min = true ∧ it.random = false) (tuples : List ℕ) :
    Sound M U (.iter it first jump) (executeOrdered M it body tuples) := by
  refine (Act.keeps_get frame).bind frame fun s => ?_
  refine Act.Keeps.bind frame (.forEach frame fun o ho => ?_) fun _ => Act.keeps_pure frame _
  exact keeps_orderedRound hcode hbody hordered
    (predicate_of_mem_everything ((M.sort_perm _ _).subset ho))

omit hcode hbody in
/-- The random order does not touch the marks. -/
theorem keeps_shuffle (l : List ℕ) :
    Sound M U c (shuffle M l) := by
  refine (Act.keeps_get frame).bind frame fun s => ?_
  split
  refine Act.Keeps.bind frame ?_ fun _ => Act.keeps_pure frame _
  exact Act.keeps_modify fun _ _ => resumes_of_eq rfl rfl rfl

omit hcode hbody in
/-- Gathering the facts of the queue does not touch the marks. -/
theorem keeps_activeTuples :
    Sound M U c (activeTuples M it) := by
  refine (Act.keeps_get frame).bind frame fun s => ?_
  split_ifs
  exacts [keeps_shuffle _, Act.keeps_pure frame _]

omit hcode hbody in
/-- The facts of the queue have the predicate of the iteration, shuffled or not. -/
theorem predicate_of_mem_active {l : List ℕ} {s t : State σ}
    (h : activeTuples M it s = (.ok l, t)) : ∀ stpl ∈ l, M.predicate stpl = it.pred := by
  intro stpl hstpl
  rw [activeTuples, Act.bind_get] at h
  split_ifs at h
  · cases h
    exact predicate_of_mem_gather ((M.shuffle_perm _ s.env).subset hstpl)
  · cases h
    exact predicate_of_mem_gather hstpl

/-- The part of the plain path that goes through the queue. -/
theorem keeps_executeQueue :
    Sound M U (.iter it first jump) (executeQueue M it body) := by
  unfold executeQueue
  split_ifs with hlin
  · have hpers : M.persistentOnly = false := by
      simp only [Machine.thisIsLinear, Bool.and_eq_true, Bool.not_eq_true'] at hlin
      exact hlin.2
    refine (Act.keeps_assert frame _).bind frame fun _ => ?_
    refine keeps_activeTuples.bind_of frame (fun _ _ _ => predicate_of_mem_active) fun l hl => ?_
    exact .forEach frame fun stpl hstpl =>
      keeps_plainRound hcode hbody hpers (.inl rfl) (hl stpl hstpl)
  · exact Act.keeps_pure frame none

/-- The part of the plain path that goes through the local facts. -/
theorem keeps_executeLocal :
    Sound M U (.iter it first jump) (executeLocal M it body) := by
  unfold executeLocal
  split_ifs with hpers
  · exact .forEach frame fun stpl _ => keeps_localRound hcode hbody (by simpa using hpers) stpl
  · exact Act.keeps_pure frame none

/-- The plain path. -/
theorem keeps_executePlain (tuples : List ℕ) :
    Sound M U (.iter it first jump) (executePlain M it body tuples) := by
  refine Act.Keeps.bind frame (.forEach frame fun leaf _ => keeps_runLeaf hbody leaf) fun r => ?_
  cases r with
  | some ret => exact Act.keeps_pure frame ret
  | none =>
    refine (keeps_executeQueue hcode hbody).bind frame fun r => ?_
    cases r with
    | some ret => exact Act.keeps_pure frame ret
    | none =>
      exact (keeps_executeLocal hcode hbody).bind frame fun _ => Act.keeps_pure frame _

/-- An `ITER_INSTR`, in any of its forms. -/
theorem keeps_executeIter (tuples : List ℕ) :
    Sound M U (.iter it first jump) (executeIter M it body tuples) := by
  unfold executeIter
  split_ifs with hpers hrandom hmin
  · exact keeps_executePlain hcode hbody tuples
  · exact (keeps_shuffle tuples).bind frame fun l => keeps_executePlain hcode hbody l
  · exact keeps_executeOrdered hcode hbody ⟨hmin, by simpa using hrandom⟩ tuples
  · exact keeps_executePlain hcode hbody tuples

end Iteration

/-- Less code can bind less. -/
theorem Bound.mono {c c' : Code σ} {s : State σ} (h : Bound M U c s)
    (hiters : ∀ it ∈ c'.iters, it ∈ c.iters) : Bound M U c' s where
  once := h.once
  excluded e he stpl hstpl := by
    obtain ⟨hpred, hexcl⟩ := h.excluded e he stpl hstpl
    exact ⟨hpred, hexcl.imp_right fun h => ⟨h.1, fun it hit => h.2 it (hiters it hit)⟩⟩

/-- Every moment of a run is as it should be. -/
theorem keeps_execute {c : Code σ} (hcode : c.Excludes M.isLinearPred U) :
    Sound M U c (execute M c) := by
  induction c with
  | last run =>
    intro s hs
    refine ⟨rfl, fun _ h => h, fun m hm => ?_⟩
    rcases List.mem_append.mp hm with hm | hm
    · exact .inl hm
    · cases List.mem_singleton.mp hm
      refine .inr ⟨hs.once, fun e he stpl hstpl => ?_⟩
      exact (hs.excluded e he stpl hstpl).2.imp_right fun h => h.1
  | instr run next ih =>
    refine Act.Keeps.bind frame (Act.keeps_modify ?_) fun _ => ?_
    · exact fun _ _ => resumes_of_eq rfl rfl rfl
    exact (ih hcode).mono fun s hs => hs.mono fun _ hit => hit
  | cond test next jump ihn ihj =>
    refine (Act.keeps_get frame).bind frame fun s => ?_
    split_ifs
    · exact (ihn hcode.1).mono fun s hs => hs.mono fun _ hit => List.mem_append_left _ hit
    · exact (ihj hcode.2).mono fun s hs => hs.mono fun _ hit => List.mem_append_right _ hit
  | resetLinear first jump ihf ihj =>
    refine (Act.keeps_get frame).bind frame fun s => ?_
    refine Act.Keeps.bind frame (Act.keeps_modify ?_) fun _ => ?_
    · exact fun _ _ => resumes_of_eq rfl rfl rfl
    have hfirst := (ihf hcode.1).mono fun s (hs : Bound M U (.resetLinear first jump) s) =>
      hs.mono fun _ hit => List.mem_append_left _ hit
    refine hfirst.bind frame fun ret => (Act.keeps_assert frame _).bind frame fun _ => ?_
    refine Act.Keeps.bind frame (Act.keeps_modify ?_) fun _ => ?_
    · exact fun _ _ => resumes_of_eq rfl rfl rfl
    exact (ihj hcode.2).mono fun s hs => hs.mono fun _ hit => List.mem_append_right _ hit
  | iter it first jump ihf ihj =>
    refine (Act.keeps_get frame).bind frame fun s => ?_
    refine (keeps_executeIter hcode (ihf hcode.2.1) _).bind frame fun ret => ?_
    refine Act.Keeps.ite (Act.keeps_pure frame ret) ?_
    refine (Act.keeps_get frame).bind frame fun t => Act.Keeps.ite (Act.keeps_pure frame ret) ?_
    exact (ihj hcode.2.2).mono fun s hs =>
      hs.mono fun _ hit => List.mem_cons_of_mem _ (List.mem_append_right _ hit)

end Keeps

end Meld.Vm.Iterate
