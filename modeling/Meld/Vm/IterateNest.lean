import Meld.Vm.IterateMarks

/-!
# Nests of iterations

`usedOnce_iff` says in which nests a linear fact of the queue or of the local facts is bound at most
once, and in which both kinds of iterations exclude the facts that are bound. The runs that show
that nothing less will do descend into a nest: at chosen depths the only local fact is found, and a
leaf of the database at the others.
-/

namespace Meld.Vm.Iterate

open Lib

variable {σ : Type}

/-- Some code is a nest of iterations: the code that follows the body of one has none. -/
inductive Nest : List Iter → Code σ → Prop
  | body {c : Code σ} (h : c.iters = []) : Nest [] c
  | instr {its : List Iter} {run : Option IterObject → σ → σ} {next : Code σ} (h : Nest its next) :
      Nest its (.instr run next)
  | cond {its : List Iter} {test : Option IterObject → σ → Bool} {next jump : Code σ}
      (h : Nest its next) (hjump : jump.iters = []) : Nest its (.cond test next jump)
  | resetLinear {its : List Iter} {first jump : Code σ} (h : Nest its first)
      (hjump : jump.iters = []) : Nest its (.resetLinear first jump)
  | iter {its : List Iter} {it : Iter} {first jump : Code σ} (h : Nest its first)
      (hjump : jump.iters = []) : Nest (it :: its) (.iter it first jump)

theorem Nest.iters_eq {its : List Iter} {c : Code σ} (h : Nest its c) : c.iters = its := by
  induction h with
  | body h => exact h
  | instr _ ih => exact ih
  | cond _ hjump ih | resetLinear _ hjump ih => simp [Code.iters, ih, hjump]
  | iter _ hjump ih => simp [Code.iters, ih, hjump]

theorem Code.excludes_of_nil {isLinearPred : ℕ → Bool} {U : Iter → Prop} {c : Code σ}
    (h : c.iters = []) : c.Excludes isLinearPred U := by
  induction c with
  | last => trivial
  | instr _ _ ih => exact ih h
  | cond _ _ _ ihn ihj =>
    obtain ⟨hn, hj⟩ := List.append_eq_nil_iff.mp h
    exact ⟨ihn hn, ihj hj⟩
  | resetLinear _ _ ihf ihj =>
    obtain ⟨hf, hj⟩ := List.append_eq_nil_iff.mp h
    exact ⟨ihf hf, ihj hj⟩
  | iter => cases h

theorem Nest.excludes {isLinearPred : ℕ → Bool} {U : Iter → Prop} {its : List Iter} {c : Code σ}
    (h : Nest its c) (hU : ∀ it ∈ its, it.unmarked isLinearPred = true → U it)
    (hits : its.Pairwise fun it it' => it.unmarked isLinearPred = true → it'.pred ≠ it.pred) :
    c.Excludes isLinearPred U := by
  induction h with
  | body h => exact Code.excludes_of_nil h
  | instr _ ih => exact ih hU hits
  | cond _ hjump ih => exact ⟨ih hU hits, Code.excludes_of_nil hjump⟩
  | resetLinear _ hjump ih => exact ⟨ih hU hits, Code.excludes_of_nil hjump⟩
  | iter h hjump ih =>
    obtain ⟨hit, hits⟩ := List.pairwise_cons.mp hits
    refine ⟨fun hun => ⟨hU _ List.mem_cons_self hun, ?_⟩,
      ih (fun it hit => hU it (List.mem_cons_of_mem _ hit)) hits, Code.excludes_of_nil hjump⟩
    rw [h.iters_eq]
    exact fun it' hit' => hit it' hit' hun

/-- The state in which a rule begins. -/
def State.start (env : σ) (toDelete generatedThisRun : ℕ → Bool)
    (usedLinearTuples : List (ℕ × ℤ)) (isLinear : Bool) : State σ where
  env := env
  toDelete := toDelete
  generatedThisRun := generatedThisRun
  usedLinearTuples := usedLinearTuples
  isLinear := isLinear
  bound := []
  moments := []

/-- In every run of a nest no linear fact of the queue or of the local facts is bound twice when the
innermost body runs. -/
def UsedOnce (isLinearPred : ℕ → Bool) (its : List Iter) : Prop :=
  ∀ (σ : Type) (M : Machine σ) (c : Code σ) (env : σ) (toDelete generatedThisRun : ℕ → Bool)
    (usedLinearTuples : List (ℕ × ℤ)) (isLinear : Bool), M.isLinearPred = isLinearPred →
    Nest its c → ∀ m ∈ (execute M c
      (.start env toDelete generatedThisRun usedLinearTuples isLinear)).2.moments,
      m.BoundOnce isLinearPred

/-- In every run of a nest, whichever path the iterations take, the linear facts that are bound are
excluded when the innermost body runs. -/
def PathsAgree (isLinearPred : ℕ → Bool) (its : List Iter) : Prop :=
  ∀ (σ : Type) (M : Machine σ) (c : Code σ) (env : σ) (toDelete generatedThisRun : ℕ → Bool)
    (usedLinearTuples : List (ℕ × ℤ)) (isLinear : Bool), M.isLinearPred = isLinearPred →
    Nest its c → ∀ m ∈ (execute M c
      (.start env toDelete generatedThisRun usedLinearTuples isLinear)).2.moments,
      m.Excluded isLinearPred fun _ => False

/-- A run begins with nothing bound. -/
theorem records_start {M : Machine σ} {U : Iter → Prop} {its : List Iter} {c : Code σ}
    (hc : Nest its c) (hU : ∀ it ∈ its, it.unmarked M.isLinearPred = true → U it)
    (hits : its.Pairwise fun it it' => it.unmarked M.isLinearPred = true → it'.pred ≠ it.pred)
    (env : σ) (toDelete generatedThisRun : ℕ → Bool) (usedLinearTuples : List (ℕ × ℤ))
    (isLinear : Bool) : ∀ m ∈ (execute M c
      (.start env toDelete generatedThisRun usedLinearTuples isLinear)).2.moments,
      m.BoundOnce M.isLinearPred ∧ m.Excluded M.isLinearPred U := by
  intro m hm
  have hkeeps := keeps_execute (hc.excludes hU hits)
  have hstart : Bound M U c
      (.start env toDelete generatedThisRun usedLinearTuples isLinear) :=
    ⟨List.nodup_nil, fun e he => by cases he⟩
  rcases Act.Keeps.exec frame hkeeps hstart m hm with hm | hm
  · cases hm
  · exact hm

/-! ### Runs that bind facts twice -/

section Descent

variable (isLinearPred : ℕ → Bool) (pred : ℕ) (here : ℕ → Bool)

/-- One local fact, which is found at some depths of a nest. At the others a leaf is found, which is
named after the depth. -/
def descentMachine : Machine ℕ where
  isLinearPred := isLinearPred
  persistentOnly := false
  useLocalTuples := true
  predicate _ := pred
  localTuples := [0]
  queue _ := []
  doMatches _ _ depth _ := here depth
  matchPredicate _ _ depth := if here depth then [] else [depth]
  getCount _ _ := 1
  sort _ l := l
  sort_perm _ l := .refl l
  shuffleVector l depth := (l, depth)
  shuffle_perm l _ := .refl l

/-- The nest that counts its depth and consumes the facts it binds. -/
def descent : List Iter → Code ℕ
  | [] => .last fun _ depth => (depth, .linear)
  | it :: its => .iter it (.instr (fun _ depth => depth + 1) (descent its))
      (.last fun _ depth => (depth, .next))

theorem nest_descent (its : List Iter) : Nest its (descent its) := by
  induction its with
  | nil => exact .body rfl
  | cons it its ih => exact .iter (.instr ih) rfl

/-- The run consumes its facts, and the moment is among those it records. -/
def Reaches (m : Act (State ℕ) ReturnType) (s : State ℕ) (x : Moment) : Prop :=
  ∃ t, m s = (.ok .linear, t) ∧ x ∈ t.moments

/-- A state at some depth: no leaf of this depth or deeper was used. -/
structure Ready (depth : ℕ) (s : State ℕ) : Prop where
  env : s.env = depth
  generatedThisRun : s.generatedThisRun 0 = false
  usedLinearTuples : ∀ leaf, depth ≤ leaf → s.usedLinearTuples.find? (·.1 = leaf) = none

variable {isLinearPred pred here} {it : Iter} {its : List Iter} {depth : ℕ} {s : State ℕ}

theorem linearTupleCanBeUsed_of_find {leaf : ℕ} {used : List (ℕ × ℤ)}
    (h : used.find? (·.1 = leaf) = none) : linearTupleCanBeUsed leaf used = true := by
  induction used with
  | nil => rfl
  | cons p used ih =>
    rw [List.find?_cons] at h
    split at h
    · cases h
    · rename_i hne
      rw [linearTupleCanBeUsed, if_neg (by simpa using hne)]
      exact ih h

/-- The state in which the body runs for a leaf. -/
def pushLeaf (M : Machine ℕ) (it : Iter) (leaf : ℕ) (s : State ℕ) : State ℕ :=
  (if M.thisIsLinear it then
    { s with usedLinearTuples := (leaf, wrap16 (M.getCount s.env leaf - 1)) :: s.usedLinearTuples }
  else s).push (M.thisIsLinear it) it (.db leaf)

/-- A leaf that was not used is used, and consumed. -/
theorem runLeaf_linear {M : Machine ℕ} {body : Act (State ℕ) ReturnType} {leaf : ℕ} {t : State ℕ}
    (hfree : s.usedLinearTuples.find? (·.1 = leaf) = none)
    (hbody : body (pushLeaf M it leaf s) = (.ok .linear, t)) :
    runLeaf M it body leaf s = (.ok (some .linear), t.pop s) := by
  have huse : usingNewLinearTuple M leaf s = (.ok (), { s with
      usedLinearTuples := (leaf, wrap16 (M.getCount s.env leaf - 1)) :: s.usedLinearTuples }) := by
    rw [usingNewLinearTuple, Act.bind_get, hfree]
    rfl
  rw [runLeaf, Act.bind_get, linearTupleCanBeUsed_of_find hfree, if_neg (by simp)]
  unfold pushLeaf at hbody
  cases hlin : M.thisIsLinear it with
  | true =>
    rw [hlin, if_pos rfl] at hbody
    rw [show Act.when true (usingNewLinearTuple M leaf) = usingNewLinearTuple M leaf from rfl,
      Act.bind_of_ok huse, pushCurrentState, Act.bind_modify, Act.bind_of_ok hbody]
    rfl
  | false =>
    rw [hlin, if_neg Bool.false_ne_true] at hbody
    rw [show Act.when false (usingNewLinearTuple M leaf) = pure () from rfl,
      Act.bind_of_ok (Act.pure_apply () s), pushCurrentState, Act.bind_modify,
      Act.bind_of_ok hbody]
    rfl

/-- The plain path with a leaf. -/
theorem executePlain_leaf {M : Machine ℕ} {body : Act (State ℕ) ReturnType} {leaf : ℕ} {t : State ℕ}
    (hfree : s.usedLinearTuples.find? (·.1 = leaf) = none)
    (hbody : body (pushLeaf M it leaf s) = (.ok .linear, t)) :
    executePlain M it body [leaf] s = (.ok .linear, t.pop s) :=
  Act.bind_of_ok (Act.forEach_cons_of_some (runLeaf_linear hfree hbody) [])

/-- An iteration that finds a leaf consumes it. -/
theorem executeIter_leaf {body : Act (State ℕ) ReturnType} {t : State ℕ} (hs : Ready depth s)
    (hhere : here depth = false)
    (hbody : body (pushLeaf (descentMachine isLinearPred pred here) it depth s) =
      (.ok .linear, t)) :
    executeIter (descentMachine isLinearPred pred here) it body [depth] s =
      (.ok .linear, t.pop s) := by
  have hfree := hs.usedLinearTuples depth le_rfl
  have hplain := executePlain_leaf hfree hbody
  unfold executeIter
  rw [if_neg (show ¬(descentMachine isLinearPred pred here).persistentOnly = true from
    Bool.false_ne_true)]
  split_ifs
  · exact (Act.bind_of_ok (show shuffle (descentMachine isLinearPred pred here) [depth] s =
      (.ok [depth], s) from rfl)).trans hplain
  · have hall : everything (descentMachine isLinearPred pred here) it [depth] s = [.db depth] := by
      simp [everything, gatherActiveTuples, descentMachine, hs.env, hhere]
    have hround : Act.forEach (orderedRound (descentMachine isLinearPred pred here) it body)
        ((descentMachine isLinearPred pred here).sort it.optionsArgument
          (everything (descentMachine isLinearPred pred here) it [depth] s)) s =
        (.ok (some .linear), t.pop s) := by
      rw [hall]
      exact Act.forEach_cons_of_some (runLeaf_linear hfree hbody) []
    exact Act.bind_of_ok hround
  · exact hplain

/-- The body of an iteration that finds a leaf runs one level deeper. -/
theorem reaches_leaf (hs : Ready depth s) (hhere : here depth = false) (it : Iter) :
    ∃ s', Ready (depth + 1) s' ∧ s'.bound = (it, .db depth) :: s.bound ∧
      s'.toDelete = s.toDelete ∧ ∀ its x,
        Reaches (execute (descentMachine isLinearPred pred here) (descent its)) s' x →
        Reaches (execute (descentMachine isLinearPred pred here) (descent (it :: its))) s x := by
  refine ⟨{ pushLeaf (descentMachine isLinearPred pred here) it depth s with env := depth + 1 },
    ⟨rfl, ?_, ?_⟩, ?_, ?_, ?_⟩
  · simp only [pushLeaf]
    split_ifs <;> exact hs.generatedThisRun
  · intro leaf hleaf
    simp only [pushLeaf]
    split_ifs
    · simp only [State.push, List.find?_cons]
      rw [decide_eq_false (by omega)]
      exact hs.usedLinearTuples leaf (by omega)
    · exact hs.usedLinearTuples leaf (by omega)
  · simp only [pushLeaf]
    split_ifs <;> rfl
  · simp only [pushLeaf]
    split_ifs <;> rfl
  · rintro its x ⟨t, ht, hx⟩
    refine ⟨t.pop s, ?_, hx⟩
    have hbody : execute (descentMachine isLinearPred pred here)
        (.instr (fun _ depth => depth + 1) (descent its))
        (pushLeaf (descentMachine isLinearPred pred here) it depth s) = (.ok .linear, t) := by
      have henv : (pushLeaf (descentMachine isLinearPred pred here) it depth s).env = depth := by
        simp only [pushLeaf]
        split_ifs <;> exact hs.env
      rw [execute, Act.bind_modify, henv]
      exact ht
    have hmatch : (descentMachine isLinearPred pred here).matchPredicate it s.tuple s.env =
        [depth] := by
      simp [descentMachine, hs.env, hhere]
    rw [descent, execute, Act.bind_get, hmatch, Act.bind_of_ok (executeIter_leaf hs hhere hbody)]
    rfl

/-- The state in which the body runs for the local fact. -/
def pushFact (it : Iter) (s : State ℕ) : State ℕ :=
  if (it.min && !it.random) && !it.toDelete then s.push true it (.local 0)
  else (s.push true it (.local 0)).mark 0 true

/-- The local fact is consumed. -/
theorem runTuple_linear {M : Machine ℕ} {body : Act (State ℕ) ReturnType} {o : IterObject}
    {stpl : ℕ} {mark : Bool} {t : State ℕ} (revert release : Bool)
    (hbody : body (if mark then (s.push (M.thisIsLinear it) it o).mark stpl true
      else s.push (M.thisIsLinear it) it o) = (.ok .linear, t)) :
    ∃ t', runTuple M it body o stpl mark revert release s = (.ok (some .linear), t') ∧
      t'.moments = t.moments := by
  rw [runTuple_apply, hbody]
  exact ⟨_, rfl, by split_ifs <;> rfl⟩

/-- An iteration that finds the local fact consumes it. -/
theorem executeIter_fact {body : Act (State ℕ) ReturnType} {t : State ℕ} (hs : Ready depth s)
    (hhere : here depth = true) (hpred : it.pred = pred) (hlin : isLinearPred pred = true)
    (hfree : s.toDelete 0 = false) (hbody : body (pushFact it s) = (.ok .linear, t)) :
    ∃ t', executeIter (descentMachine isLinearPred pred here) it body [] s = (.ok .linear, t') ∧
      t'.moments = t.moments := by
  have hthis : (descentMachine isLinearPred pred here).thisIsLinear it = true := by
    simp [Machine.thisIsLinear, descentMachine, hpred, hlin]
  have hcan : s.canBeConsumed 0 = true := by
    simp [State.canBeConsumed, hfree, hs.generatedThisRun]
  have hgather : gatherActiveTuples (descentMachine isLinearPred pred here) it s = [] := rfl
  -- the plain path, to the fact among the local ones
  have hplain : it.min = false ∨ it.random = true →
      ∃ t', executePlain (descentMachine isLinearPred pred here) it body [] s = (.ok .linear, t') ∧
        t'.moments = t.moments := by
    intro hpath
    have hmark : pushFact it s = (s.push true it (.local 0)).mark 0 true := by
      unfold pushFact
      rw [if_neg (by rcases hpath with h | h <;> simp [h])]
    obtain ⟨t', ht', hmom⟩ := @runTuple_linear it s (descentMachine isLinearPred pred here) body
      (.local 0) 0 true t true (!it.toDelete) (by rw [if_pos rfl, hthis, ← hmark]; exact hbody)
    have hround : localRound (descentMachine isLinearPred pred here) it body 0 s =
        (.ok (some .linear), t') := by
      have hmatch :
          (descentMachine isLinearPred pred here).doMatches it s.tuple s.env 0 = true := by
        simp only [descentMachine, hs.env, hhere]
      have hassert : Act.when true
          (Act.assert ((descentMachine isLinearPred pred here).thisIsLinear it = true)) s =
            (.ok (), s) := by
        simp only [Act.when, if_true, Act.assert, assert_pos hthis]
      have hlocal : (descentMachine isLinearPred pred here).predicate 0 = it.pred := hpred.symm
      rw [localRound, if_neg (not_not_intro hlocal), plainRound, Act.bind_get, hcan, hmatch,
        if_neg (by simp), if_neg (by simp)]
      simp only [hthis, Bool.or_true, Bool.and_true]
      rw [Act.bind_of_ok hassert]
      exact ht'
    have hqueue :
        executeQueue (descentMachine isLinearPred pred here) it body s = (.ok none, s) := by
      have hactive : activeTuples (descentMachine isLinearPred pred here) it s = (.ok [], s) := by
        rw [activeTuples, Act.bind_get, hgather]
        split_ifs <;> rfl
      rw [executeQueue, if_pos hthis]
      exact (Act.bind_of_ok rfl).trans ((Act.bind_of_ok hactive).trans rfl)
    have hlocal : executeLocal (descentMachine isLinearPred pred here) it body s =
        (.ok (some .linear), t') := Act.forEach_cons_of_some hround []
    exact ⟨t', (Act.bind_of_ok rfl).trans ((Act.bind_of_ok hqueue).trans (Act.bind_of_ok hlocal)),
      hmom⟩
  unfold executeIter
  rw [if_neg (show ¬(descentMachine isLinearPred pred here).persistentOnly = true from
    Bool.false_ne_true)]
  -- the random order and the plain one take the plain path
  split_ifs with hrandom hmin
  · obtain ⟨t', ht', hmom⟩ := hplain (.inr hrandom)
    exact ⟨t', (Act.bind_of_ok rfl).trans ht', hmom⟩
  · -- the ordered path has the fact as its only object
    have hall : everything (descentMachine isLinearPred pred here) it [] s = [.local 0] := by
      rw [everything, hgather]
      simp [descentMachine, hs.env, hhere, hpred, hcan]
    have hmark : pushFact it s = if it.toDelete then (s.push true it (.local 0)).mark 0 true
        else s.push true it (.local 0) := by
      cases hdel : it.toDelete <;> simp [pushFact, hrandom, hmin, hdel]
    obtain ⟨t', ht', hmom⟩ := @runTuple_linear it s (descentMachine isLinearPred pred here) body
      (.local 0) 0 it.toDelete t true false (by rw [hthis, ← hmark]; exact hbody)
    refine ⟨t', ?_, hmom⟩
    have hround : orderedRound (descentMachine isLinearPred pred here) it body (.local 0) s =
        (.ok (some .linear), t') := by
      rw [orderedRound, Act.bind_get, hcan, if_neg (by simp)]
      exact ht'
    have hloop : Act.forEach (orderedRound (descentMachine isLinearPred pred here) it body)
        ((descentMachine isLinearPred pred here).sort it.optionsArgument
          (everything (descentMachine isLinearPred pred here) it [] s)) s =
        (.ok (some .linear), t') := by
      rw [hall]
      exact Act.forEach_cons_of_some hround []
    exact Act.bind_of_ok hloop
  · exact hplain (.inl (by simpa using hmin))

/-- The body of an iteration that finds the local fact runs one level deeper. -/
theorem reaches_fact (hs : Ready depth s) (hhere : here depth = true) (it : Iter)
    (hpred : it.pred = pred) (hlin : isLinearPred pred = true) (hfree : s.toDelete 0 = false) :
    ∃ s', Ready (depth + 1) s' ∧ s'.bound = (it, .local 0) :: s.bound ∧
      (it.unmarked isLinearPred = true → s'.toDelete = s.toDelete) ∧ ∀ its x,
        Reaches (execute (descentMachine isLinearPred pred here) (descent its)) s' x →
        Reaches (execute (descentMachine isLinearPred pred here) (descent (it :: its))) s x := by
  refine ⟨{ pushFact it s with env := depth + 1 }, ⟨rfl, ?_, ?_⟩, ?_, ?_, ?_⟩
  · simp only [pushFact]
    split_ifs <;> exact hs.generatedThisRun
  · intro leaf hleaf
    simp only [pushFact]
    split_ifs <;> exact hs.usedLinearTuples leaf (by omega)
  · simp only [pushFact]
    split_ifs <;> rfl
  · intro hun
    have hpath : (it.min && !it.random) && !it.toDelete := by
      simp only [Iter.unmarked, Bool.and_eq_true] at hun
      simp only [Bool.and_eq_true]
      exact ⟨⟨hun.1.1.2, hun.1.2⟩, hun.2⟩
    simp only [pushFact, if_pos hpath]
    rfl
  · rintro its x ⟨t, ht, hx⟩
    have hbody : execute (descentMachine isLinearPred pred here)
        (.instr (fun _ depth => depth + 1) (descent its)) (pushFact it s) = (.ok .linear, t) := by
      have henv : (pushFact it s).env = depth := by
        simp only [pushFact]
        split_ifs <;> exact hs.env
      rw [execute, Act.bind_modify, henv]
      exact ht
    have hmatch : (descentMachine isLinearPred pred here).matchPredicate it s.tuple s.env = [] := by
      simp [descentMachine, hs.env, hhere]
    obtain ⟨t', ht', hmom⟩ := executeIter_fact hs hhere hpred hlin hfree hbody
    refine ⟨t', ?_, hmom ▸ hx⟩
    rw [descent, execute, Act.bind_get, hmatch, Act.bind_of_ok ht']
    rfl

/-- So do the bodies of several iterations that find leaves. -/
theorem reaches_leaves (its : List Iter) (hs : Ready depth s)
    (hhere : ∀ d, depth ≤ d → d < depth + its.length → here d = false) :
    ∃ s', Ready (depth + its.length) s' ∧ (∃ l, s'.bound = l ++ s.bound) ∧
      s'.toDelete = s.toDelete ∧ ∀ its' x,
        Reaches (execute (descentMachine isLinearPred pred here) (descent its')) s' x →
        Reaches (execute (descentMachine isLinearPred pred here) (descent (its ++ its'))) s x := by
  induction its generalizing depth s with
  | nil => exact ⟨s, hs, ⟨[], rfl⟩, rfl, fun _ _ h => h⟩
  | cons it its ih =>
    obtain ⟨s₁, hs₁, hbound₁, hdel₁, hreach₁⟩ :=
      reaches_leaf hs (hhere depth le_rfl (by simp)) it
    obtain ⟨s₂, hs₂, ⟨l, hl⟩, hdel₂, hreach₂⟩ := ih hs₁ fun d h₁ h₂ =>
      hhere d (by omega) (by simp only [List.length_cons]; omega)
    refine ⟨s₂, ?_, ⟨l ++ [(it, .db depth)], ?_⟩, hdel₂.trans hdel₁, fun its' x h => ?_⟩
    · rw [List.length_cons, show depth + (its.length + 1) = depth + 1 + its.length by omega]
      exact hs₂
    · rw [hl, hbound₁, List.append_assoc]
      rfl
    · exact hreach₁ _ _ (hreach₂ its' x h)

/-- The innermost body is reached. -/
theorem reaches_nil (M : Machine ℕ) (s : State ℕ) :
    Reaches (execute M (descent [])) s ⟨s.bound, s.toDelete⟩ :=
  ⟨_, rfl, List.mem_append_right _ (List.mem_singleton.mpr rfl)⟩

end Descent

/-- Two bindings of a linear fact. -/
theorem not_boundOnce {isLinearPred : ℕ → Bool} {m : Moment} {e e' : Iter × IterObject}
    {l₁ l₂ l₃ : List (Iter × IterObject)} (hm : m.bound = l₁ ++ e :: (l₂ ++ e' :: l₃)) {stpl : ℕ}
    (he : linearFact isLinearPred e = some stpl) (he' : linearFact isLinearPred e' = some stpl) :
    ¬m.BoundOnce isLinearPred := by
  intro h
  rw [Moment.BoundOnce, hm, List.filterMap_append, List.filterMap_cons_some he,
    List.filterMap_append, List.filterMap_cons_some he'] at h
  exact (List.nodup_cons.mp (List.nodup_append.mp h).2.1).1 (by simp)

theorem ready_start : Ready 0 (.start 0 (fun _ => false) (fun _ => false) [] false) :=
  ⟨rfl, rfl, fun _ _ => rfl⟩

/-- A run that reaches a moment records it. -/
theorem mem_of_reaches {M : Machine ℕ} {c : Code ℕ} {s : State ℕ} {x : Moment}
    (h : Reaches (execute M c) s x) : x ∈ (execute M c s).2.moments := by
  obtain ⟨t, ht, hx⟩ := h
  rw [ht]
  exact hx

/-- A nest with an iteration that leaves its facts unmarked, and one of the same predicate in its
body, binds a fact twice. -/
theorem not_usedOnce {isLinearPred : ℕ → Bool} {its : List Iter}
    (h : ¬its.Pairwise fun it it' => it.unmarked isLinearPred = true → it'.pred ≠ it.pred) :
    ¬UsedOnce isLinearPred its := by
  rw [List.pairwise_iff_forall_sublist] at h
  simp only [not_forall, not_not] at h
  obtain ⟨it, it', hsub, hun, hpred⟩ := h
  obtain ⟨r₁, r₂, rfl, hit, hsub'⟩ := List.cons_sublist_iff.mp hsub
  obtain ⟨a, b, rfl⟩ := List.append_of_mem hit
  obtain ⟨c, d, rfl⟩ := List.append_of_mem (List.singleton_sublist.mp hsub')
  have hlin : isLinearPred it.pred = true := by
    simp only [Iter.unmarked, Bool.and_eq_true] at hun
    exact hun.1.1.1
  have hits : a ++ it :: b ++ (c ++ it' :: d) = a ++ (it :: ((b ++ c) ++ (it' :: (d ++ [])))) := by
    simp
  -- the fact is found by the two iterations only
  let here : ℕ → Bool := fun n => decide (n = a.length ∨ n = a.length + 1 + (b ++ c).length)
  have hfirst : here a.length = true := decide_eq_true (.inl rfl)
  have hother : ∀ n, n ≠ a.length → n ≠ a.length + 1 + (b ++ c).length → here n = false :=
    fun n h h' => decide_eq_false (not_or.mpr ⟨h, h'⟩)
  have hsecond : here (a.length + 1 + (b ++ c).length) = true := decide_eq_true (.inr rfl)
  obtain ⟨s₁, hs₁, ⟨l₁, hl₁⟩, hdel₁, hr₁⟩ := @reaches_leaves isLinearPred it.pred here 0 _ a
    ready_start fun n _ hn => hother n (by omega) (by omega)
  rw [Nat.zero_add] at hs₁
  obtain ⟨s₂, hs₂, hl₂, hdel₂, hr₂⟩ := reaches_fact hs₁ hfirst it rfl hlin (hdel₁ ▸ rfl)
  obtain ⟨s₃, hs₃, ⟨l₃, hl₃⟩, hdel₃, hr₃⟩ := reaches_leaves (b ++ c) hs₂ fun n hn hn' =>
    hother n (by omega) (by omega)
  obtain ⟨s₄, hs₄, hl₄, -, hr₄⟩ := reaches_fact hs₃ hsecond it' hpred hlin
    (by rw [hdel₃, hdel₂ hun, hdel₁]; rfl)
  obtain ⟨s₅, -, ⟨l₅, hl₅⟩, -, hr₅⟩ := reaches_leaves d hs₄ fun n hn _ =>
    hother n (by omega) (by omega)
  have hreach := hr₁ _ _ (hr₂ _ _ (hr₃ _ _ (hr₄ _ _ (hr₅ _ _ (reaches_nil _ s₅)))))
  rw [hits]
  intro hused
  have honce := hused ℕ _ _ 0 _ _ _ _ rfl (nest_descent _) _ (mem_of_reaches hreach)
  have hbound : s₅.bound = l₅ ++ (it', .local 0) :: (l₃ ++ (it, .local 0) :: s₁.bound) := by
    rw [hl₅, hl₄, hl₃, hl₂]
  have hfact : linearFact isLinearPred (it, .local 0) = some 0 := by simp [linearFact, hlin]
  have hfact' : linearFact isLinearPred (it', .local 0) = some 0 := by
    simp [linearFact, hpred, hlin]
  exact not_boundOnce hbound hfact' hfact honce

/-- A nest with an iteration that leaves its facts unmarked does not exclude a fact. -/
theorem not_pathsAgree {isLinearPred : ℕ → Bool} {its : List Iter} {it : Iter} (hit : it ∈ its)
    (hun : it.unmarked isLinearPred = true) : ¬PathsAgree isLinearPred its := by
  obtain ⟨a, b, rfl⟩ := List.append_of_mem hit
  have hlin : isLinearPred it.pred = true := by
    simp only [Iter.unmarked, Bool.and_eq_true] at hun
    exact hun.1.1.1
  let here : ℕ → Bool := fun n => decide (n = a.length)
  have hfirst : here a.length = true := decide_eq_true rfl
  have hother : ∀ n, n ≠ a.length → here n = false := fun n h => decide_eq_false h
  obtain ⟨s₁, hs₁, ⟨l₁, hl₁⟩, hdel₁, hr₁⟩ := @reaches_leaves isLinearPred it.pred here 0 _ a
    ready_start fun n _ hn => hother n (by omega)
  rw [Nat.zero_add] at hs₁
  obtain ⟨s₂, hs₂, hl₂, hdel₂, hr₂⟩ := reaches_fact hs₁ hfirst it rfl hlin (hdel₁ ▸ rfl)
  obtain ⟨s₃, hs₃, ⟨l₃, hl₃⟩, hdel₃, hr₃⟩ := reaches_leaves b hs₂ fun n hn hn' =>
    hother n (by omega)
  have hreach := hr₁ _ _ (hr₂ _ _ (hr₃ _ _ (reaches_nil _ s₃)))
  rw [List.append_nil] at hreach
  intro hagree
  have hexcl := hagree ℕ _ _ 0 _ _ _ _ rfl (nest_descent _) _ (mem_of_reaches hreach)
    (it, .local 0) (by simp [hl₃, hl₂]) 0 (by simp [linearFact, hlin])
  rcases hexcl with hdel | hfalse
  · rw [hdel₃, hdel₂ hun, hdel₁] at hdel
    cases hdel
  · exact hfalse

/-- A linear fact is used once, and both paths exclude the facts that are bound, in the runs of
those nests in which no iteration over linear facts in the order of a field lacks the option to
delete. For the first alone it is enough that such iterations have none of their predicate in their
bodies. -/
theorem usedOnce_iff (isLinearPred : ℕ → Bool) (its : List Iter) :
    (UsedOnce isLinearPred its ∧ PathsAgree isLinearPred its ↔
      ∀ it ∈ its, it.unmarked isLinearPred = false) ∧
    (UsedOnce isLinearPred its ↔
      its.Pairwise fun it it' => it.unmarked isLinearPred = true → it'.pred ≠ it.pred) := by
  refine ⟨⟨fun h it hit => ?_, fun h => ?_⟩, fun h => ?_, fun h => ?_⟩
  · by_contra hun
    exact not_pathsAgree hit (by simpa using hun) h.2
  · have hU : ∀ it ∈ its, it.unmarked isLinearPred = true → False := fun it hit hun =>
      Bool.false_ne_true ((h it hit).symm.trans hun)
    have hpair : its.Pairwise fun it it' => it.unmarked isLinearPred = true → it'.pred ≠ it.pred :=
      List.Pairwise.imp_of_mem (fun hit _ _ hun => (hU _ hit hun).elim)
        (List.pairwise_of_forall (l := its) fun _ _ => trivial)
    constructor
    · rintro σ M c env toDelete generatedThisRun usedLinearTuples isLinear rfl hc m hm
      exact (records_start hc hU hpair env _ _ _ _ m hm).1
    · rintro σ M c env toDelete generatedThisRun usedLinearTuples isLinear rfl hc m hm
      exact (records_start hc hU hpair env _ _ _ _ m hm).2
  · by_contra hnot
    exact not_usedOnce hnot h
  · rintro σ M c env toDelete generatedThisRun usedLinearTuples isLinear rfl hc m hm
    exact (records_start hc (U := fun _ => True) (fun _ _ _ => trivial) h env _ _ _ _ m hm).1

/-- An iteration with the `min` option, and a plain one over the same predicate in its body: one
local fact is bound by both. -/
theorem not_usedOnce_min : ¬UsedOnce (fun _ => true) [⟨0, 4, 0⟩, ⟨0, 0, 0⟩] := by
  intro h
  have honce := h ℕ (descentMachine (fun _ => true) 0 fun _ => true)
    (descent [⟨0, 4, 0⟩, ⟨0, 0, 0⟩]) 0 (fun _ => false) (fun _ => false) [] false rfl
    (nest_descent _) _ List.mem_cons_self
  exact absurd honce (by decide)

end Meld.Vm.Iterate
