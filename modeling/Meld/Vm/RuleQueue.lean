import Meld.Queue.Contents
import Meld.Vm.RunSteps

/-!
# The rule queue and `rules`

`rules` is meant to say which rules are in the rule queue, so that a rule is put there once. Every
step keeps this up to a set of stale rules (`Paired`), whose entry is true although they are not in
the queue; a stale rule is never put into the queue again. Only the end of a call of `run_node` makes
rules stale: it clears the queue and leaves `rules` as it is.

A call that ends because the queue is empty makes none. `rules_paired` says that these are the calls
after which the queue and `rules` agree.
-/

namespace Meld.Vm

open Lib Queue

namespace VmState

variable {δ ω : Type} {prog : Program} {ops : Ops δ ω} {s s' : VmState δ ω} {rid r node : ℕ}
  {stale : ℕ → Prop}

/-- The rules in the queue. -/
def queued (s : VmState δ ω) : List ℕ := s.ruleQueue.heap.map HeapObject.data

/-- The rules that are active at the node. -/
def active (s : VmState δ ω) (node : ℕ) : Finset ℕ :=
  (s.run.getNode node).matcher.matcher.activeRules

/-- A rule is in the queue at most once, and `rules` is true of it and of the stale rules. -/
structure Paired (stale : ℕ → Prop) (s : VmState δ ω) : Prop where
  nodup : s.queued.Nodup
  rules : ∀ r, s.rules r = true ↔ r ∈ s.queued ∨ stale r
  apart : ∀ r, stale r → r ∉ s.queued

/-- What the steps outside the queue leave as it is. -/
theorem Paired.congr (h : Paired stale s) (hrules : s'.rules = s.rules)
    (hqueue : s'.ruleQueue = s.ruleQueue) : Paired stale s' := by
  have hqueued : s'.queued = s.queued := by rw [queued, queued, hqueue]
  refine ⟨hqueued ▸ h.nodup, fun r => ?_, fun r hr => hqueued ▸ h.apart r hr⟩
  rw [hrules, hqueued]
  exact h.rules r

/-! ### Putting a rule into the queue and taking it out -/

/-- A rule that is not stale is in the queue after the loop over the active rules has come to it. -/
theorem Paired.markRule (h : Paired stale s) (hrun : s.markRule prog rid = .ok s') :
    Paired stale s' ∧ s'.pc = s.pc ∧ s'.run = s.run ∧ s.queued ⊆ s'.queued ∧
      (checkIfRulePredicateActivated prog s.run.predicates rid = true → ¬stale rid →
        rid ∈ s'.queued) := by
  rw [VmState.markRule] at hrun
  split_ifs at hrun with hmark
  · obtain ⟨q, hinsert, hrun⟩ := bind_eq_ok.mp hrun
    rw [pure_eq_ok, Except.ok.injEq] at hrun
    subst hrun
    rw [Bool.and_eq_true, Bool.not_eq_true'] at hmark
    have hperm : (q.heap.map HeapObject.data).Perm (rid :: s.queued) :=
      (HeapQueue.insert_perm hinsert).map HeapObject.data
    have hfalse : ¬(rid ∈ s.queued ∨ stale rid) := by
      rw [← h.rules, hmark.1]
      exact nofun
    refine ⟨⟨?_, fun r => ?_, fun r hr hmem => ?_⟩, rfl, rfl,
      fun r hr => hperm.mem_iff.mpr (List.mem_cons_of_mem _ hr),
      fun _ _ => hperm.mem_iff.mpr (List.mem_cons_self ..)⟩
    · exact hperm.nodup_iff.mpr (List.nodup_cons.mpr ⟨fun hmem => hfalse (.inl hmem), h.nodup⟩)
    · change Function.update s.rules rid true r = true ↔ _
      rw [queued, hperm.mem_iff, List.mem_cons]
      rcases eq_or_ne r rid with rfl | hne
      · simp
      · rw [Function.update_of_ne hne, h.rules]
        simp [hne]
    · rcases List.mem_cons.mp (hperm.mem_iff.mp hmem) with rfl | hmem
      · exact hfalse (.inr hr)
      · exact h.apart r hr hmem
  · rw [pure_eq_ok, Except.ok.injEq] at hrun
    subst hrun
    refine ⟨h, rfl, rfl, fun _ hr => hr, fun hactivated hstale => ?_⟩
    rw [hactivated, Bool.and_true, Bool.not_eq_true, Bool.not_eq_false'] at hmark
    exact ((h.rules rid).mp hmark).resolve_right hstale

/-- A rule that is taken out leaves the others. -/
theorem Paired.takeOut (h : Paired stale s) {q : HeapQueue ℕ} {o : HeapObject ℕ}
    (hdata : o.data = rid) (hperm : (o :: q.heap).Perm s.ruleQueue.heap) (s' : VmState δ ω)
    (hrules : s'.rules = Function.update s.rules rid false) (hqueue : s'.ruleQueue = q) :
    Paired stale s' ∧ rid ∈ s.queued ∧ ∀ r, r ∈ s.queued → r ≠ rid → r ∈ s'.queued := by
  subst hdata
  have hqueued : (o.data :: s'.queued).Perm s.queued := by
    rw [queued, hqueue]
    exact hperm.map HeapObject.data
  have hnodup := List.nodup_cons.mp (hqueued.nodup_iff.mpr h.nodup)
  have hmem : o.data ∈ s.queued := hqueued.mem_iff.mp (List.mem_cons_self ..)
  have hothers : ∀ r, r ∈ s.queued ↔ r = o.data ∨ r ∈ s'.queued := fun r => by
    rw [← hqueued.mem_iff, List.mem_cons]
  refine ⟨⟨hnodup.2, fun r => ?_, fun r hr hmem' => ?_⟩, hmem,
    fun r hr hne => ((hothers r).mp hr).resolve_left hne⟩
  · rw [hrules]
    rcases eq_or_ne r o.data with rfl | hne
    · rw [Function.update_self]
      refine iff_of_false nofun ?_
      rintro (hin | hstale)
      · exact hnodup.1 hin
      · exact h.apart _ hstale hmem
    · rw [Function.update_of_ne hne, h.rules, hothers]
      simp [hne]
  · exact h.apart r hr ((hothers r).mpr (.inr hmem'))

theorem Paired.unmarkRule (h : Paired stale s) (hrun : s.unmarkRule rid = .ok s') :
    Paired stale s' ∧ s'.pc = s.pc ∧ s'.run = s.run ∧
      ∀ r, r ∈ s.queued → r ≠ rid → r ∈ s'.queued := by
  rw [VmState.unmarkRule] at hrun
  split_ifs at hrun
  · obtain ⟨q, hremove, hrun⟩ := bind_eq_ok.mp hrun
    rw [pure_eq_ok, Except.ok.injEq] at hrun
    subst hrun
    obtain ⟨o, hdata, hperm⟩ := HeapQueue.remove_perm hremove
    obtain ⟨hpaired, -, hothers⟩ := h.takeOut hdata hperm { s with
      rules := Function.update s.rules rid false
      ruleQueue := q } rfl rfl
    exact ⟨hpaired, rfl, rfl, hothers⟩
  · rw [pure_eq_ok, Except.ok.injEq] at hrun
    subst hrun
    exact ⟨h, rfl, rfl, fun _ hr _ => hr⟩

/-- The loop over the active rules. -/
theorem Paired.markRules (h : Paired stale s) {rids : List ℕ}
    (hrun : rids.foldlM (VmState.markRule prog) s = .ok s') :
    Paired stale s' ∧ s'.pc = s.pc ∧ s'.run = s.run ∧ s.queued ⊆ s'.queued ∧
      ∀ rid ∈ rids, checkIfRulePredicateActivated prog s.run.predicates rid = true →
        ¬stale rid → rid ∈ s'.queued := by
  induction rids generalizing s with
  | nil =>
    rw [List.foldlM_nil, pure_eq_ok, Except.ok.injEq] at hrun
    subst hrun
    exact ⟨h, rfl, rfl, fun _ hr => hr, fun rid hmem => by cases hmem⟩
  | cons rid rids ih =>
    rw [List.foldlM_cons] at hrun
    obtain ⟨t, hmark, hrun⟩ := bind_eq_ok.mp hrun
    obtain ⟨ht, hpc, htrun, hsub, hqueued⟩ := h.markRule hmark
    obtain ⟨hs', hpc', hrun', hsub', hqueued'⟩ := ih ht hrun
    refine ⟨hs', hpc'.trans hpc, hrun'.trans htrun, fun _ hr => hsub' (hsub hr),
      fun rid' hmem hactivated hstale => ?_⟩
    rcases List.mem_cons.mp hmem with rfl | hmem
    · exact hsub' (hqueued hactivated hstale)
    · exact hqueued' rid' hmem (htrun ▸ hactivated) hstale

/-- The loop over the dropped rules. -/
theorem Paired.unmarkRules (h : Paired stale s) {rids : List ℕ}
    (hrun : rids.foldlM VmState.unmarkRule s = .ok s') :
    Paired stale s' ∧ s'.pc = s.pc ∧ s'.run = s.run ∧
      ∀ r, r ∈ s.queued → r ∉ rids → r ∈ s'.queued := by
  induction rids generalizing s with
  | nil =>
    rw [List.foldlM_nil, pure_eq_ok, Except.ok.injEq] at hrun
    subst hrun
    exact ⟨h, rfl, rfl, fun _ hr _ => hr⟩
  | cons rid rids ih =>
    rw [List.foldlM_cons] at hrun
    obtain ⟨t, hunmark, hrun⟩ := bind_eq_ok.mp hrun
    obtain ⟨ht, hpc, htrun, hothers⟩ := h.unmarkRule hunmark
    obtain ⟨hs', hpc', hrun', hothers'⟩ := ih ht hrun
    refine ⟨hs', hpc'.trans hpc, hrun'.trans htrun, fun r hr hnot => ?_⟩
    rw [List.mem_cons, not_or] at hnot
    exact hothers' r (hothers r hr hnot.1) hnot.2

/-- `mark_active_rules` puts the rules into the queue that are active and of which a predicate was
activated. -/
theorem Paired.markActiveRules (h : Paired stale s)
    (hrun : s.markActiveRules prog node = .ok s') :
    Paired stale s' ∧ s'.pc = s.pc ∧ s'.run = s.run ∧ ∀ rid ∈ s.active node,
      checkIfRulePredicateActivated prog s.run.predicates rid = true → ¬stale rid →
        rid ∈ s'.queued := by
  obtain ⟨t, hmark, hrun⟩ := bind_eq_ok.mp hrun
  obtain ⟨ht, hpc, htrun, -, hqueued⟩ := h.markRules hmark
  obtain ⟨hs', hpc', hrun', hothers⟩ := ht.unmarkRules hrun
  refine ⟨hs', hpc'.trans hpc, hrun'.trans htrun, fun rid hmem hactivated hstale => ?_⟩
  refine hothers rid (hqueued rid ?_ hactivated hstale) ?_
  · rwa [Finset.mem_sort]
  · rw [Finset.mem_sort]
    exact Finset.disjoint_left.mp (s.run.getNode node).matcher.apart hmem

/-- A rule that is in the queue stays there unless it is no longer active. -/
theorem Paired.queued_of_markActiveRules (h : Paired stale s)
    (hrun : s.markActiveRules prog node = .ok s') (hr : r ∈ s.queued) :
    r ∈ s'.queued ∨ r ∉ s'.active node := by
  obtain ⟨t, hmark, hunmark⟩ := bind_eq_ok.mp hrun
  obtain ⟨ht, -, htrun, hsub, -⟩ := h.markRules hmark
  obtain ⟨-, -, hrun', hothers⟩ := ht.unmarkRules hunmark
  by_cases hdropped : r ∈ (s.run.getNode node).matcher.matcher.droppedRules
  · right
    rw [active, hrun', htrun]
    exact Finset.disjoint_right.mp (s.run.getNode node).matcher.apart hdropped
  · left
    refine hothers r (hsub hr) ?_
    rwa [Finset.mem_sort]

/-! ### The steps -/

/-- What a step of `runNode` can be. -/
inductive Step (prog : Program) (ops : Ops δ ω) (s : VmState δ ω) : VmState δ ω → Prop
  /-- a call of `run_node` -/
  | call {env : Env δ ω} {use : Bool} {counter limit node : ℕ} {run : Run δ ω}
      (hpc : s.pc = .outside)
      (hbegin : (s.around env use counter limit).run.begin ops node = .ok run) :
      Step prog ops s { s with pc := .persistent node, run := run }
  /-- a persistent fact -/
  | fact {node : ℕ} {run : Run δ ω} (hpc : s.pc = .persistent node)
      (hstep : s.run.persistentStep ops node = .ok (.inl run)) :
      Step prog ops s { s with run := run }
  /-- the rules are marked after the last persistent fact -/
  | mark {node : ℕ} {run : Run δ ω} {t : VmState δ ω} (hpc : s.pc = .persistent node)
      (hstep : s.run.persistentStep ops node = .ok (.inr (run, true)))
      (hmark : markActiveRules prog { s with run := run } node = .ok t) :
      Step prog ops s { t with pc := .loop node }
  /-- the limit is reached before a persistent fact -/
  | abort {node : ℕ} {run : Run δ ω} {s' : VmState δ ω} (hpc : s.pc = .persistent node)
      (hstep : s.run.persistentStep ops node = .ok (.inr (run, false)))
      (hleave : leave ops { s with run := run } node true = .ok s') : Step prog ops s s'
  /-- the queue is empty, or the limit is reached before a rule -/
  | stop {node : ℕ} {s' : VmState δ ω} (hpc : s.pc = .loop node)
      (hstop : s.ruleQueue.empty = true ∨ s.run.checkInstructionLimit = true)
      (hleave : leave ops s node false = .ok s') : Step prog ops s s'
  /-- a rule -/
  | rule {node rid : ℕ} {q : HeapQueue ℕ} {run : Run δ ω} (hpc : s.pc = .loop node)
      (hgo : s.run.checkInstructionLimit = false) (hpop : s.ruleQueue.pop = .ok (q, rid))
      (hrule : s.run.runRule ops node rid = .ok run) :
      Step prog ops s { s with
        pc := .persistent node
        rules := Function.update s.rules rid false
        ruleQueue := q
        run := run }

theorem step_of_runNode (h : (runNode prog ops).step s s') : s.Step prog ops s' := by
  rcases h with ⟨hpc, env, use, counter, limit, node, h⟩ | ⟨hpc, h⟩
  · obtain ⟨run, hbegin, h⟩ := bind_eq_ok.mp h
    rw [pure_eq_ok, Except.ok.injEq] at h
    subst h
    exact .call hpc hbegin
  · rw [next] at h
    split at h
    · exact absurd ‹_› hpc
    · rename_i node hnode
      obtain ⟨out, hstep, h⟩ := bind_eq_ok.mp h
      rcases out with run | ⟨run, _ | _⟩
      · cases h
        exact .fact hnode hstep
      · exact .abort hnode hstep h
      · obtain ⟨t, hmark, h⟩ := bind_eq_ok.mp h
        rw [pure_eq_ok, Except.ok.injEq] at h
        subst h
        exact .mark hnode hstep hmark
    · rename_i node hnode
      split_ifs at h with hstop
      · exact .stop hnode (Bool.or_eq_true_iff.mp hstop) h
      · obtain ⟨⟨q, rid⟩, hpop, h⟩ := bind_eq_ok.mp h
        obtain ⟨run, hrule, h⟩ := bind_eq_ok.mp h
        rw [pure_eq_ok, Except.ok.injEq] at h
        subst h
        rw [Bool.or_eq_true, not_or, Bool.not_eq_true, Bool.not_eq_true] at hstop
        exact .rule hnode hstop.2 hpop hrule

/-! ### Runs -/

/-- What holds in every state of a run, for some set of stale rules. -/
structure Marked (prog : Program) (stale : ℕ → Prop) (s : VmState δ ω) : Prop extends
    Paired stale s where
  outside : s.pc = .outside → s.queued = []
  marked : ∀ node, s.pc = .loop node → ∀ rid ∈ s.active node,
    checkIfRulePredicateActivated prog s.run.predicates rid = true → ¬stale rid → rid ∈ s.queued
  generated : s.run.generatedTuples = []

/-- The next step of the thread ends the call on the node at the limit of instructions, while there
are rules in the queue. -/
structure CutAt (node : ℕ) (s : VmState δ ω) : Prop where
  queued : s.queued ≠ []
  limit : s.run.checkInstructionLimit = true
  pc : s.pc = .loop node ∨ s.pc = .persistent node ∧ s.run.generatedPersistentTuples ≠ []

/-- The thread is about to clear a queue that is not empty. -/
def Cut (s : VmState δ ω) : Prop := ∃ node, s.CutAt node

theorem marked_new (env : Env δ ω) : (new env : VmState δ ω).Marked prog fun _ => False where
  nodup := .nil
  rules _ := by simp [new, queued, HeapQueue.new]
  apart _ h := h.elim
  outside _ := rfl
  marked _ h := nomatch h
  generated := rfl

/-- The end of a call makes the rules stale that are in the queue. -/
theorem Paired.leave (h : Paired stale s) {aborted : Bool}
    (hleave : leave ops s node aborted = .ok s') :
    Paired (fun r => stale r ∨ r ∈ s.queued) s' ∧ s'.pc = .outside ∧ s'.queued = [] ∧
      s.run.finish ops node aborted = .ok s'.run := by
  obtain ⟨run, hfinish, hleave⟩ := bind_eq_ok.mp hleave
  rw [pure_eq_ok, Except.ok.injEq] at hleave
  subst hleave
  refine ⟨⟨.nil, fun r => ?_, fun r _ => List.not_mem_nil⟩, rfl, rfl, hfinish⟩
  change s.rules r = true ↔ r ∈ [] ∨ stale r ∨ r ∈ s.queued
  rw [h.rules r, or_comm]
  simp

/-- A call that ends with an empty queue makes no rules stale. -/
theorem Paired.of_queued (h : Paired (fun r => stale r ∨ r ∈ s.queued) s')
    (hqueued : s.queued = []) : Paired stale s' := by
  have hstale : (fun r => stale r ∨ r ∈ s.queued) = stale := by
    funext r
    simp [hqueued]
  rwa [hstale] at h

/-- A step that does not clear a queue with rules in it makes none stale. -/
theorem Marked.step (h : Marked prog stale s) (hstep : (runNode prog ops).step s s')
    (hcut : ¬s.Cut) : Marked prog stale s' := by
  cases step_of_runNode hstep with
  | call hpc hbegin =>
    refine ⟨h.toPaired.congr rfl rfl, by simp, by simp, ?_⟩
    exact (Run.begin_generatedTuples hbegin).trans h.generated
  | @fact node run hpc hfact =>
    refine ⟨h.toPaired.congr rfl rfl, fun hout => ?_, fun n hloop => ?_, ?_⟩
    · exact absurd (hpc.symm.trans hout) (by simp)
    · exact absurd (hpc.symm.trans hloop) (by simp)
    · exact (Run.persistentStep_generatedTuples h.generated hfact).1 run rfl
  | @mark node run t hpc hend hmark =>
    have hrun : Paired stale { s with run := run } := h.toPaired.congr rfl rfl
    obtain ⟨ht, -, htrun, hqueued⟩ := hrun.markActiveRules hmark
    refine ⟨ht.congr rfl rfl, by simp, fun n hloop rid hactive hpred hstale => ?_, ?_⟩
    · cases hloop
      rw [active, htrun] at hactive
      rw [htrun] at hpred
      exact hqueued rid hactive hpred hstale
    · rw [htrun]
      exact (Run.persistentStep_generatedTuples h.generated hend).2 run true rfl
  | @abort node run _ hpc hend hleave =>
    have hrun : Paired stale { s with run := run } := h.toPaired.congr rfl rfl
    obtain ⟨hpaired, hout, hqueued, hfinish⟩ := hrun.leave hleave
    -- the call is not cut, so that it leaves no rules in the queue
    have hempty : s.queued = [] := by
      rcases Run.persistentStep_cases hend with ⟨-, _, -, heq⟩ | ⟨hne, hlimit, -⟩ |
        ⟨_, _, -, -, ⟨_, -, heq⟩ | ⟨-, _, heq, -⟩⟩
      · cases heq
      · by_contra hqueue
        exact hcut ⟨node, hqueue, hlimit, .inr ⟨hpc, hne⟩⟩
      · cases heq
      · cases heq
    refine ⟨hpaired.of_queued hempty, fun _ => hqueued, fun n hloop => ?_, ?_⟩
    · exact absurd (hout.symm.trans hloop) (by simp)
    · rw [(Run.finish_clears hfinish).2.1]
      exact (Run.persistentStep_generatedTuples h.generated hend).2 run false rfl
  | @stop node _ hpc hstop hleave =>
    obtain ⟨hpaired, hout, hqueued, hfinish⟩ := h.toPaired.leave hleave
    -- nor does one that ends at the head of the loop
    have hempty : s.queued = [] := by
      rcases hstop with hempty | hlimit
      · rw [HeapQueue.empty, List.isEmpty_iff] at hempty
        rw [queued, hempty]
        rfl
      · by_contra hqueue
        exact hcut ⟨node, hqueue, hlimit, .inl hpc⟩
    refine ⟨hpaired.of_queued hempty, fun _ => hqueued, fun n hloop => ?_, ?_⟩
    · exact absurd (hout.symm.trans hloop) (by simp)
    · rw [(Run.finish_clears hfinish).2.1]
      exact h.generated
  | @rule node rid q run hpc hgo hpop hrule =>
    -- a rule leaves the queue together with its flag
    obtain ⟨o, hdata, hperm⟩ := HeapQueue.pop_perm hpop
    obtain ⟨hpaired, -⟩ := h.toPaired.takeOut hdata hperm { s with
      pc := .persistent node
      rules := Function.update s.rules rid false
      ruleQueue := q
      run := run } rfl rfl
    exact ⟨hpaired, by simp, by simp, Run.runRule_generatedTuples hrule⟩

/-- A call that is cut ends, and the rules in the queue become stale. -/
theorem CutAt.step (hcut : s.CutAt node) (h : Marked prog stale s)
    (hstep : (runNode prog ops).step s s') :
    Marked prog (fun r => stale r ∨ r ∈ s.queued) s' ∧ s'.pc = .outside ∧
      ∃ aborted, s.run.finish ops node aborted = .ok s'.run := by
  -- the call ends, and the queued rules keep their flags
  have hstale : ∀ {t : VmState δ ω} {aborted : Bool}, Paired stale t → t.queued = s.queued →
      t.run = s.run → leave ops t node aborted = .ok s' →
      Marked prog (fun r => stale r ∨ r ∈ s.queued) s' ∧ s'.pc = .outside ∧
        ∃ aborted, s.run.finish ops node aborted = .ok s'.run := by
    intro t aborted ht hqueue hrun hleave
    obtain ⟨hpaired, hout, hqueued, hfinish⟩ := ht.leave hleave
    rw [hqueue] at hpaired
    rw [hrun] at hfinish
    refine ⟨⟨hpaired, fun _ => hqueued, fun n hloop => ?_, ?_⟩, hout, aborted, hfinish⟩
    · exact absurd (hout.symm.trans hloop) nofun
    · rw [(Run.finish_clears hfinish).2.1]
      exact h.generated
  obtain ⟨hne, hlimit, hpc⟩ := hcut
  -- where the limit is reached no other step can follow
  cases step_of_runNode hstep with
  | call hpc' hbegin => simp [hpc'] at hpc
  | fact hpc' hfact =>
    rcases Run.persistentStep_cases hfact with ⟨hnil, -⟩ | ⟨-, -, heq⟩ | ⟨_, _, -, hgo, -⟩
    · simp [hpc', hnil] at hpc
    · cases heq
    · rw [hlimit] at hgo
      cases hgo
  | mark hpc' hend hmark =>
    rcases Run.persistentStep_cases hend with ⟨hnil, -⟩ | ⟨-, -, heq⟩ | ⟨_, _, -, hgo, -⟩
    · simp [hpc', hnil] at hpc
    · cases heq
    · rw [hlimit] at hgo
      cases hgo
  | @abort node' run _ hpc' hend hleave =>
    obtain rfl : node' = node := by
      rcases hpc with hpc | ⟨hpc, -⟩
      · exact absurd (hpc'.symm.trans hpc) nofun
      · exact RunPc.persistent.inj (hpc'.symm.trans hpc)
    rcases Run.persistentStep_cases hend with ⟨-, _, -, heq⟩ | ⟨-, -, heq⟩ |
      ⟨_, _, -, hgo, -⟩
    · cases heq
    · cases heq
      exact hstale h.toPaired rfl rfl hleave
    · rw [hlimit] at hgo
      cases hgo
  | @stop node' _ hpc' hstop hleave =>
    obtain rfl : node' = node := by
      rcases hpc with hpc | ⟨hpc, -⟩
      · exact RunPc.loop.inj (hpc'.symm.trans hpc)
      · exact absurd (hpc'.symm.trans hpc) nofun
    exact hstale h.toPaired rfl rfl hleave
  | rule hpc' hgo hpop hrule =>
    rw [hlimit] at hgo
    cases hgo

/-- No step makes a stale rule ready again. -/
theorem Marked.later (h : Marked prog stale s)
    (hsteps : Relation.ReflTransGen (runNode prog ops).step s s') :
    ∃ stale', (∀ r, stale r → stale' r) ∧ Marked prog stale' s' := by
  induction hsteps with
  | refl => exact ⟨stale, fun _ hr => hr, h⟩
  | @tail t t' _ hstep ih =>
    obtain ⟨stale', hstale, ht⟩ := ih
    by_cases hcut : t.Cut
    · obtain ⟨node, hcut⟩ := hcut
      exact ⟨_, fun r hr => .inl (hstale r hr), (hcut.step ht hstep).1⟩
    · exact ⟨stale', hstale, ht.step hstep hcut⟩

theorem marked_of_reachable (h : (runNode prog ops).Reachable s) :
    ∃ stale, Marked prog stale s := by
  refine System.Reachable.invariant (I := fun t => ∃ stale, Marked prog stale t) ?_
    (fun t t' ht hstep => ?_) h
  · rintro _ ⟨env, rfl⟩
    exact ⟨_, marked_new env⟩
  · obtain ⟨stale, ht⟩ := ht
    obtain ⟨stale', -, ht'⟩ := ht.later (.single hstep)
    exact ⟨stale', ht'⟩

/-! ### The queue and `rules` agree until a call is cut -/

/-- The queue and `rules` agree; both are empty between two calls, and the rules that are active and
of which a predicate was activated are in the queue when the next one is taken out. -/
structure RulesExact (prog : Program) (s : VmState δ ω) : Prop where
  outside : s.pc = .outside → s.queued = [] ∧ ∀ r, s.rules r = false
  rules : ∀ r, s.rules r = true ↔ r ∈ s.queued
  marked : ∀ node, s.pc = .loop node → ∀ rid ∈ s.active node,
    checkIfRulePredicateActivated prog s.run.predicates rid = true → rid ∈ s.queued

theorem Marked.rulesExact (h : Marked prog (fun _ => False) s) : s.RulesExact prog where
  outside hpc := by
    refine ⟨h.outside hpc, fun r => ?_⟩
    rw [Bool.eq_false_iff, Ne, h.rules r, h.outside hpc]
    simp
  rules r := by simp [h.rules r]
  marked node hpc rid hactive hpred := h.marked node hpc rid hactive hpred not_false

end VmState

/-- The runs in which no call is cut while there are rules in the queue. -/
def uncut {δ ω : Type} (prog : Program) (ops : Ops δ ω) : System (VmState δ ω) where
  init := (runNode prog ops).init
  step s s' := ¬s.Cut ∧ (runNode prog ops).step s s'

/-- The queue and `rules` agree in every run in which no call is cut while there are rules in the
queue, and the first call that is cut in this way makes them disagree. -/
theorem rules_paired {δ ω : Type} (prog : Program) (ops : Ops δ ω) :
    (∀ s, (uncut prog ops).Reachable s → s.RulesExact prog) ∧
      ∀ s s', (uncut prog ops).Reachable s → (runNode prog ops).step s s' →
        (s'.RulesExact prog ↔ ¬s.Cut) := by
  have hmarked : ∀ s, (uncut prog ops).Reachable s → s.Marked prog fun _ => False := by
    intro s hs
    refine System.Reachable.invariant (I := fun t => t.Marked prog fun _ => False) ?_
      (fun t t' ht hstep => ht.step hstep.2 hstep.1) hs
    rintro _ ⟨env, rfl⟩
    exact VmState.marked_new env
  refine ⟨fun s hs => (hmarked s hs).rulesExact, fun s s' hs hstep => ⟨fun hexact hcut => ?_,
    fun hcut => ((hmarked s hs).step hstep hcut).rulesExact⟩⟩
  obtain ⟨node, hcut⟩ := hcut
  obtain ⟨hs', hpc, -⟩ := hcut.step (hmarked s hs) hstep
  obtain ⟨r, hr⟩ := List.exists_mem_of_ne_nil _ hcut.queued
  have htrue : s'.rules r = true := (hs'.rules r).mpr (.inr (.inr hr))
  rw [(hexact.outside hpc).2 r] at htrue
  cases htrue

/-! ### A program with one rule -/

namespace OneRule

/-- The fact of the rule's body. -/
def fact : Predicate := { id := 0, isLinear := true, affectedRules := [0] }

def prog : Program where
  predicates := [fact]
  rules := [{ predicates := [0] }]
  id_eq i h := by
    obtain rfl : i = 0 := by simpa using h
    rfl
  affected_lt := by decide
  body_lt := by decide
  lists_agree p hp r hr := by
    obtain rfl : p = 0 := by simpa using hp
    obtain rfl : r = 0 := by simpa using hr
    rfl

/-- The rule consumes nothing; the database is a list, and the simulator keeps the facts that are
handed to it. -/
def ops : Ops (List Tuple) (List (ℕ × SimpleTuple)) where
  executeRule _ _ r := pure r
  doExecute _ _ r := pure r
  runAction _ _ env := pure env
  gatherNextTuples node _ env := pure
    ({ env with nodes := Function.update env.nodes node { env.nodes node with pending := [] } },
      (env.nodes node).pending)
  routeSelf node stpl env := pure { env with world := env.world ++ [(node, stpl)] }
  addTuple tpl _ d := pure (d ++ [tpl], !d.contains tpl)
  deleteTuple tpl _ d := pure (d.erase tpl, none)
  deleteByLeaf _ _ d := pure d
  addAggTuple _ _ d := pure (d, [])
  noLevel := 0

/-- A node without facts. -/
def node : SimNode (List Tuple) where
  matcher := ⟨.ofProgram prog, Finset.disjoint_empty_left _⟩
  database := []
  pending := []
  tuplePqueue := .new .intAsc
  rtuplePqueue := .new .intAsc

def start : VmState (List Tuple) (List (ℕ × SimpleTuple)) := .new ⟨fun _ => node, []⟩

/-- The node after the arrival of a fact. -/
def arrive (n : SimNode (List Tuple)) : SimNode (List Tuple) :=
  { n with pending := n.pending ++ [⟨⟨fact, []⟩, 1, false, false, false⟩] }

/-- A call after the arrival of a fact with the given limit of instructions, or the next step of a
call. -/
def act (s : VmState (List Tuple) (List (ℕ × SimpleTuple))) (limit : Option ℕ) :
    Option (VmState (List Tuple) (List (ℕ × SimpleTuple))) :=
  match limit with
  | some limit =>
    if s.pc = .outside then
      let env := { s.run.env with nodes := fun n => arrive (s.run.env.nodes n) }
      ((s.around env true 0 limit).enter ops 0).toOption
    else none
  | none => if s.pc = .outside then none else (s.next prog ops).toOption

/-- A step before the limit of instructions. -/
def actWithin (s : VmState (List Tuple) (List (ℕ × SimpleTuple))) (limit : Option ℕ) :
    Option (VmState (List Tuple) (List (ℕ × SimpleTuple))) :=
  if s.run.checkInstructionLimit then none else act s limit

variable {s s' : VmState (List Tuple) (List (ℕ × SimpleTuple))} {limit : Option ℕ}

/-- A call of `run_node`. -/
theorem act_enter {n : ℕ} (h : act s (some n) = some s') : s.pc = .outside ∧
    (s.around { s.run.env with nodes := fun n => arrive (s.run.env.nodes n) } true 0 n).enter ops
      0 = .ok s' := by
  simp only [act] at h
  split_ifs at h with hpc
  exact ⟨hpc, ok_of_toOption h⟩

/-- A step of a call. -/
theorem act_next (h : act s none = some s') : s.pc ≠ .outside ∧ s.next prog ops = .ok s' := by
  simp only [act] at h
  split_ifs at h with hpc
  exact ⟨hpc, ok_of_toOption h⟩

theorem act_step (h : act s limit = some s') : (runNode prog ops).step s s' := by
  cases limit with
  | some n =>
    obtain ⟨hpc, henter⟩ := act_enter h
    exact .inl ⟨hpc, _, _, _, _, _, henter⟩
  | none => exact .inr (act_next h)

theorem actWithin_step (h : actWithin s limit = some s') : (uncut prog ops).step s s' := by
  rw [actWithin] at h
  split_ifs at h with hlimit
  exact ⟨fun ⟨_, hcut⟩ => hlimit hcut.limit, act_step h⟩

theorem routesTo : Run.RoutesTo id ops := by
  intro node stpl env env' h
  cases h
  exact ⟨rfl, rfl⟩

/-- A call that is cut before the rule, and the state after it. -/
theorem exists_cut : ∃ s s', (runNode prog ops).Reachable s ∧ s.CutAt 0 ∧
    (runNode prog ops).step s s' ∧ s'.pc = .outside ∧ s'.rules 0 = true := by
  have hrun : (do
      let s ← ([some 0, none] : List (Option ℕ)).foldlM act start
      let s' ← act s none
      some (decide (s.pc = .loop 0 ∧ s.queued = [0] ∧ s.run.checkInstructionLimit = true ∧
        s'.pc = .outside ∧ s'.rules 0 = true))) = some true := by decide +kernel
  obtain ⟨s, hs, hrun⟩ := Option.bind_eq_some_iff.mp hrun
  obtain ⟨s', hs', hrun⟩ := Option.bind_eq_some_iff.mp hrun
  rw [Option.some.injEq, decide_eq_true_eq] at hrun
  obtain ⟨hpc, hqueued, hlimit, hpc', hrules⟩ := hrun
  have hreach : (runNode prog ops).Reachable s :=
    System.Reachable.foldlM (fun _ _ _ => act_step) (.init ⟨_, rfl⟩) hs
  refine ⟨s, s', hreach, ⟨?_, hlimit, .inl hpc⟩, act_step hs', hpc', hrules⟩
  rw [hqueued]
  exact nofun

end OneRule

open OneRule

/-- A call that is cut leaves the rule's entry in `rules`. -/
theorem not_rules_paired :
    ¬∀ s, (runNode prog ops).Reachable s → s.RulesExact prog := by
  intro h
  obtain ⟨s, s', hs, -, hstep, hpc, hrules⟩ := exists_cut
  rw [((h s' (hs.step hstep)).outside hpc).2 0] at hrules
  cases hrules

/-- A call in which the rule is run. -/
theorem rules_paired_single : ∃ s, (uncut prog ops).Reachable s ∧ s.pc = .outside ∧
    s.RulesExact prog := by
  have hrun : (([some 10, none, none, none, none] : List (Option ℕ)).foldlM actWithin start).map
      (fun s => s.pc) = some .outside := by decide +kernel
  obtain ⟨s, hs, hpc⟩ := Option.map_eq_some_iff.mp hrun
  have hreach : (uncut prog ops).Reachable s :=
    System.Reachable.foldlM (fun _ _ _ => actWithin_step) (.init ⟨_, rfl⟩) hs
  exact ⟨s, hreach, hpc, (rules_paired prog ops).1 s hreach⟩

end Meld.Vm
