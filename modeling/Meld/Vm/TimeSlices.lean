import Meld.Vm.RuleQueue

/-!
# Running a node in several calls

The simulator cuts a call of `run_node` short at the limit of instructions. The facts that the call
holds are kept; the rules in its queue are lost, since `rules` goes on to say that they are in the
queue.

A call on a node is followed from the first time that it marks the rules. It resumes the call that
was cut before it if the rules that were in the queue then, and the rules of which a predicate was
activated, are in the queue again if they are active, and each of them is executed before the
queue is empty, unless it is dropped. `resumes_iff` says when it does.
-/

namespace Meld.Vm

open Lib Queue

namespace VmState

variable {δ ω : Type} {prog : Program} {ops : Ops δ ω} {s s' t m l e : VmState δ ω} {r node : ℕ}
  {stale : ℕ → Prop}

/-! ### The next call on a node -/

/-- The steps of one call of `run_node`. -/
def Within (prog : Program) (ops : Ops δ ω) : VmState δ ω → VmState δ ω → Prop :=
  Relation.ReflTransGen fun s t => s.pc ≠ .outside ∧ s.next prog ops = .ok t

/-- The calls of `run_node` on other nodes. -/
def Elsewhere (prog : Program) (ops : Ops δ ω) (node : ℕ) : VmState δ ω → VmState δ ω → Prop :=
  Relation.ReflTransGen fun s t =>
    (runNode prog ops).step s t ∧ t.pc ≠ .persistent node ∧ t.pc ≠ .loop node

/-- The steps of `do_persistent_tuples` before the rules of the node are marked. -/
def DoesPersistentTuples (prog : Program) (ops : Ops δ ω) (node : ℕ) :
    VmState δ ω → VmState δ ω → Prop :=
  Relation.ReflTransGen fun s t => s.next prog ops = .ok t ∧ t.pc = .persistent node

/-- In the next call on the node `m` is the state before the rules are marked for the first time,
and `l` is the state after it. -/
def NextCall (prog : Program) (ops : Ops δ ω) (node : ℕ) (s m l : VmState δ ω) : Prop :=
  ∃ u c env use counter limit, Elsewhere prog ops node s u ∧ u.pc = .outside ∧
    (u.around env use counter limit).enter ops node = .ok c ∧
    DoesPersistentTuples prog ops node c m ∧ m.next prog ops = .ok l ∧ l.pc = .loop node

/-- The next step takes the rule out of the queue and executes it. -/
def Executes (node r : ℕ) (s : VmState δ ω) : Prop :=
  s.pc = .loop node ∧ s.run.checkInstructionLimit = false ∧ ∃ q, s.ruleQueue.pop = .ok (q, r)

/-- The rule is executed between two states of a call. -/
def Executed (prog : Program) (ops : Ops δ ω) (node r : ℕ) (l e : VmState δ ω) : Prop :=
  ∃ t, Within prog ops l t ∧ Executes node r t ∧ Within prog ops t e

/-- The rule is not active when the call goes back to the queue, somewhere between two of its
states. -/
def Dropped (prog : Program) (ops : Ops δ ω) (node r : ℕ) (l e : VmState δ ω) : Prop :=
  ∃ t, Within prog ops l t ∧ t.pc = .loop node ∧ r ∉ t.active node ∧ Within prog ops t e

/-- The rules that are active at the node when the call marks its rules, and that were in the queue
of `s` or have a predicate that was activated, are in the queue afterwards; each of them is executed
before the queue is empty, unless it is dropped. -/
def Resumes (prog : Program) (ops : Ops δ ω) (node : ℕ) (s m l : VmState δ ω) : Prop :=
  ∀ r ∈ m.active node,
    (r ∈ s.queued ∨ checkIfRulePredicateActivated prog m.run.predicates r = true) →
      r ∈ l.queued ∧ ∀ e, Within prog ops l e → e.pc = .loop node → e.queued = [] →
        Executed prog ops node r l e ∨ Dropped prog ops node r l e

theorem Elsewhere.steps (h : Elsewhere prog ops node s t) :
    Relation.ReflTransGen (runNode prog ops).step s t :=
  Relation.ReflTransGen.mono (fun _ _ hstep => And.left hstep) _ _ h

/-- A call that has ended goes no further. -/
theorem Within.eq_of_outside (h : Within prog ops s t) (hs : s.pc = .outside) : t = s := by
  rcases Relation.ReflTransGen.cases_head h with rfl | ⟨_, ⟨hpc, -⟩, -⟩
  · rfl
  · exact absurd hs hpc

/-- A call whose queue is empty at the head of its loop ends. -/
theorem Within.eq_or_outside (h : Within prog ops s t) (hs : s.pc = .loop node)
    (hempty : s.queued = []) : t = s ∨ t.pc = .outside := by
  rcases Relation.ReflTransGen.cases_head h with rfl | ⟨v, ⟨-, hnext⟩, hv⟩
  · exact .inl rfl
  · right
    have hqueue : s.ruleQueue.empty = true := by
      rw [HeapQueue.empty, List.isEmpty_iff]
      exact List.map_eq_nil_iff.mp hempty
    rw [next, hs] at hnext
    simp only [hqueue, Bool.true_or, if_true] at hnext
    obtain ⟨_, -, hnext⟩ := bind_eq_ok.mp hnext
    rw [pure_eq_ok, Except.ok.injEq] at hnext
    have hout : v.pc = .outside := by rw [← hnext]
    rw [Within.eq_of_outside hv hout, hout]

/-- Only a rule in the queue is executed. -/
theorem Executes.queued (h : Executes node r s) : r ∈ s.queued := by
  obtain ⟨-, -, q, hpop⟩ := h
  obtain ⟨o, hdata, hperm⟩ := HeapQueue.pop_perm hpop
  exact List.mem_map.mpr ⟨o, hperm.mem_iff.mp (List.mem_cons_self ..), hdata⟩

/-- Facts do not change the queue. -/
theorem DoesPersistentTuples.queued (h : DoesPersistentTuples prog ops node s t)
    (hpc : s.pc = .persistent node) :
    t.pc = .persistent node ∧ t.queued = s.queued ∧
      Relation.ReflTransGen (runNode prog ops).step s t := by
  induction h with
  | refl => exact ⟨hpc, rfl, .refl⟩
  | @tail t t' _ hnext ih =>
    obtain ⟨htpc, hqueued, hsteps⟩ := ih
    have hstep : (runNode prog ops).step t t' := by
      refine .inr ⟨?_, hnext.1⟩
      rw [htpc]
      simp
    refine ⟨hnext.2, ?_, hsteps.tail hstep⟩
    rw [← hqueued]
    cases step_of_runNode hstep with
    | call hout => exact absurd (htpc.symm.trans hout) (by simp)
    | fact => rfl
    | mark => exact absurd hnext.2 (by simp)
    | abort hpc' hend hleave =>
      obtain ⟨_, -, hleave⟩ := bind_eq_ok.mp hleave
      rw [pure_eq_ok, Except.ok.injEq] at hleave
      exact absurd hnext.2 (by simp [← hleave])
    | stop hloop => exact absurd (htpc.symm.trans hloop) (by simp)
    | rule hloop => exact absurd (htpc.symm.trans hloop) (by simp)

/-- The leaves that are deleted before the rules are marked change neither the active rules nor the
predicates that were activated. -/
theorem persistentStep_marks {run : Run δ ω}
    (h : s.run.persistentStep ops node = .ok (.inr (run, true))) :
    (run.getNode node).matcher = (s.run.getNode node).matcher ∧
      run.predicates = s.run.predicates := by
  rcases Run.persistentStep_cases h with ⟨-, r', hdelete, heq⟩ | ⟨-, -, heq⟩ |
    ⟨_, _, -, -, ⟨_, -, heq⟩ | ⟨-, _, heq, -⟩⟩
  · obtain rfl : run = r' := by simpa using heq
    obtain ⟨d, -, hdelete⟩ := bind_eq_ok.mp hdelete
    rw [pure_eq_ok, Except.ok.injEq] at hdelete
    subst hdelete
    refine ⟨?_, rfl⟩
    simp [Run.getNode, Run.setDatabase, Run.setNode, Run.setEnv]
  · simp at heq
  · simp at heq
  · simp at heq

/-- What the marking of the rules does. -/
theorem Marked.mark (h : Marked prog stale m) (hpc : m.pc = .persistent node)
    (hnext : m.next prog ops = .ok l) (hl : l.pc = .loop node) :
    Marked prog stale l ∧ l.active node = m.active node ∧
      ∀ r ∈ m.active node, checkIfRulePredicateActivated prog m.run.predicates r = true →
        ¬stale r → r ∈ l.queued := by
  have hstep : (runNode prog ops).step m l := by
    refine .inr ⟨?_, hnext⟩
    rw [hpc]
    simp
  cases step_of_runNode hstep with
  | call hout => exact absurd (hpc.symm.trans hout) (by simp)
  | fact hpc' => exact absurd (hpc'.symm.trans hl) (by simp)
  | @mark node' run t hpc' hend hmark =>
    obtain rfl : node' = node := RunPc.loop.inj hl
    have hnot : ¬m.Cut := by
      rintro ⟨n, -, hlimit, hloop | ⟨-, hne⟩⟩
      · exact absurd (hpc.symm.trans hloop) (by simp)
      · rcases Run.persistentStep_cases hend with ⟨hnil, -⟩ | ⟨-, -, heq⟩ | ⟨_, _, -, hgo, -⟩
        · exact hne hnil
        · simp at heq
        · rw [hlimit] at hgo
          cases hgo
    obtain ⟨hmatcher, hpredicates⟩ := persistentStep_marks hend
    have hrun : Paired stale { m with run := run } := h.toPaired.congr rfl rfl
    obtain ⟨-, -, htrun, hqueued⟩ := hrun.markActiveRules hmark
    have hactive : ∀ {x : VmState δ ω}, x.run = run → x.active node' = m.active node' := by
      intro x hx
      rw [active, active, hx, hmatcher]
    refine ⟨h.step hstep hnot, hactive htrun, fun r hr hactivated hstale => ?_⟩
    have hr' : r ∈ active { m with run := run } node' := by rwa [hactive rfl]
    rw [← hpredicates] at hactivated
    exact hqueued r hr' hactivated hstale
  | abort hpc' hend hleave =>
    obtain ⟨_, -, hleave⟩ := bind_eq_ok.mp hleave
    rw [pure_eq_ok, Except.ok.injEq] at hleave
    exact absurd hl (by simp [← hleave])
  | stop hloop => exact absurd (hpc.symm.trans hloop) (by simp)
  | rule hloop => exact absurd (hpc.symm.trans hloop) (by simp)

/-! ### From the marking to the end of the call -/

/-- A rule in the queue is still there after a step of the call, or the step executes or drops it. -/
theorem Marked.keeps (h : Marked prog stale s) (hr : r ∈ s.queued) (hon : s.pc = .persistent node ∨
    s.pc = .loop node) (hnext : s.next prog ops = .ok t) (ht : t.pc ≠ .outside) :
    (t.pc = .persistent node ∨ t.pc = .loop node) ∧
      (r ∈ t.queued ∨ Executes node r s ∨ t.pc = .loop node ∧ r ∉ t.active node) := by
  have hstep : (runNode prog ops).step s t := by
    refine .inr ⟨?_, hnext⟩
    rcases hon with hpc | hpc <;> simp [hpc]
  have hleft : ∀ {s₀ : VmState δ ω} {n : ℕ} {aborted : Bool}, leave ops s₀ n aborted = .ok t →
      t.pc = .outside := by
    intro s₀ n aborted hleave
    obtain ⟨_, -, hleave⟩ := bind_eq_ok.mp hleave
    rw [pure_eq_ok, Except.ok.injEq] at hleave
    rw [← hleave]
  cases step_of_runNode hstep with
  | call hout => simp [hout] at hon
  | fact => exact ⟨hon, .inl hr⟩
  | @mark node' run t' hpc hend hmark =>
    obtain rfl : node' = node := by simpa [hpc] using hon
    have hrun : Paired stale { s with run := run } := h.toPaired.congr rfl rfl
    refine ⟨.inr rfl, ?_⟩
    rcases hrun.queued_of_markActiveRules hmark hr with hmem | hnot
    · exact .inl hmem
    · exact .inr (.inr ⟨rfl, hnot⟩)
  | abort hpc hend hleave => exact absurd (hleft hleave) ht
  | stop hpc hstop hleave => exact absurd (hleft hleave) ht
  | @rule node' rid q run hpc hgo hpop hrule =>
    obtain rfl : node' = node := by simpa [hpc] using hon
    refine ⟨.inl rfl, ?_⟩
    rcases eq_or_ne r rid with rfl | hne
    · exact .inr (.inl ⟨hpc, hgo, q, hpop⟩)
    · obtain ⟨o, hdata, hperm⟩ := HeapQueue.pop_perm hpop
      obtain ⟨-, -, hothers⟩ := h.toPaired.takeOut hdata hperm { s with
        pc := .persistent node'
        rules := Function.update s.rules rid false
        ruleQueue := q
        run := run } rfl rfl
      exact .inl (hothers r hr hne)

/-- A rule in the queue is executed before the queue is empty, unless it is dropped. -/
theorem Marked.executed (h : Marked prog stale l) (hr : r ∈ l.queued)
    (hon : l.pc = .persistent node ∨ l.pc = .loop node) (hsteps : Within prog ops l e)
    (he : e.pc = .loop node) (hempty : e.queued = []) :
    Executed prog ops node r l e ∨ Dropped prog ops node r l e := by
  induction hsteps using Relation.ReflTransGen.head_induction_on generalizing stale with
  | refl =>
    rw [hempty] at hr
    exact absurd hr List.not_mem_nil
  | @head s t hstep hrest ih =>
    have hfirst : Within prog ops s t := .single hstep
    have htout : t.pc ≠ .outside := by
      rcases hrest.cases_head with rfl | ⟨_, ⟨hpc, -⟩, -⟩
      · simp [he]
      · exact hpc
    obtain ⟨hton, hcase⟩ := h.keeps hr hon hstep.2 htout
    rcases hcase with hmem | hexecutes | ⟨hpc, hnot⟩
    · obtain ⟨stale', -, ht⟩ := h.later (.single (.inr hstep))
      rcases ih ht hmem hton with ⟨v, hsv, hexecutes, hve⟩ | ⟨v, hsv, hpc, hnot, hve⟩
      · exact .inl ⟨v, hfirst.trans hsv, hexecutes, hve⟩
      · exact .inr ⟨v, hfirst.trans hsv, hpc, hnot, hve⟩
    · exact .inl ⟨s, .refl, hexecutes, hfirst.trans hrest⟩
    · exact .inr ⟨t, hfirst, hpc, hnot, hrest⟩

end VmState

open VmState

/-- A call that is cut keeps the facts that it holds, each once, and sends those for another level
to the simulator. The rules in its queue stay marked in `rules`; they are never in the queue again
and never executed, on any node. The next call on the node resumes it if and only if `rules` is
false, when the call marks its rules, of the active rules that were in the queue or have a predicate
that was activated. -/
theorem resumes_iff {δ ω : Type} (prog : Program) (ops : Ops δ ω)
    (tmpWork : ω → List (ℕ × SimpleTuple)) (hroute : Run.RoutesTo tmpWork ops)
    {s s' : VmState δ ω} {node : ℕ} (hs : (runNode prog ops).Reachable s) (hcut : s.CutAt node)
    (hstep : (runNode prog ops).step s s') :
    (∃ stored queued, (stored ++ queued).Perm s.run.held ∧
      Run.Keeps tmpWork ops node s.run.env s'.run.env stored queued
        (s.run.generatedOtherLevel.map (node, ·))) ∧
    s.run.generatedTuples = [] ∧
    (∀ t, Relation.ReflTransGen (runNode prog ops).step s' t →
      ∀ r ∈ s.queued, r ∉ t.queued ∧ t.rules r = true ∧ ∀ n, ¬Executes n r t) ∧
    ∀ m l, NextCall prog ops node s' m l →
      (Resumes prog ops node s m l ↔ ∀ r ∈ m.active node,
        (r ∈ s.queued ∨ checkIfRulePredicateActivated prog m.run.predicates r = true) →
          m.rules r = false) := by
  obtain ⟨stale, hmarked⟩ := marked_of_reachable hs
  obtain ⟨hs', -, aborted, hfinish⟩ := hcut.step hmarked hstep
  have hnever : ∀ t, Relation.ReflTransGen (runNode prog ops).step s' t →
      ∀ r ∈ s.queued, r ∉ t.queued ∧ t.rules r = true ∧ ∀ n, ¬Executes n r t := by
    intro t ht r hr
    obtain ⟨stale', hstale, hmarked'⟩ := hs'.later ht
    have hr' : stale' r := hstale r (.inr hr)
    have hqueue : r ∉ t.queued := hmarked'.apart r hr'
    exact ⟨hqueue, (hmarked'.rules r).mpr (.inr hr'), fun n hn => hqueue hn.queued⟩
  refine ⟨Run.finish_keeps hroute hfinish, hmarked.generated, hnever, fun m l hnextCall => ?_⟩
  obtain ⟨u, c, env, use, counter, limit, hu, hout, henter, hcm, hml, hl⟩ := hnextCall
  -- up to the marking the queue is empty, so `rules` is true of stale rules only
  obtain ⟨_, -, hu'⟩ := hs'.later hu.steps
  have hc : (runNode prog ops).step u c := .inl ⟨hout, _, _, _, _, _, henter⟩
  obtain ⟨run, hbegin, hceq⟩ := bind_eq_ok.mp henter
  rw [pure_eq_ok, Except.ok.injEq] at hceq
  have hcpc : c.pc = .persistent node := by rw [← hceq]
  obtain ⟨hmpc, hmqueued, hcm'⟩ := hcm.queued hcpc
  have hmempty : m.queued = [] := by
    rw [hmqueued, ← hceq]
    exact hu'.outside hout
  have hsm : Relation.ReflTransGen (runNode prog ops).step s' m :=
    (hu.steps.tail hc).trans hcm'
  obtain ⟨stale', hstale, hm⟩ := hs'.later hsm
  have hrules : ∀ r, m.rules r = true ↔ stale' r := by
    intro r
    rw [hm.rules r, hmempty]
    simp
  obtain ⟨hmarked', -, hqueued⟩ := hm.mark hmpc hml hl
  constructor
  · intro hresumes r hr hwhy
    rw [Bool.eq_false_iff, Ne, hrules r]
    intro hstale'
    exact hmarked'.apart r hstale' (hresumes r hr hwhy).1
  · intro hfalse r hr hwhy
    have hready : ¬stale' r := by
      rw [← hrules r, hfalse r hr hwhy]
      simp
    have hactivated := hwhy.resolve_left fun hmem => hready (hstale r (.inr hmem))
    have hl' : r ∈ l.queued := hqueued r hr hactivated hready
    exact ⟨hl', fun e hle he hempty => hmarked'.executed hl' (.inr hl) hle he hempty⟩

/-! ### The rule that is lost -/

open OneRule

/-- The program with one rule: a call that is cut before the rule, and the next call on the node, in
which another fact activates the rule's predicate and no limit is reached. The rule is active from
the beginning to the end and is never executed. -/
theorem OneRule.exists_nextCall : ∃ s s' m l, (runNode prog ops).Reachable s ∧ s.CutAt 0 ∧
    (runNode prog ops).step s s' ∧ NextCall prog ops 0 s' m l ∧ s.queued = [0] ∧
      0 ∈ m.active 0 ∧ checkIfRulePredicateActivated prog m.run.predicates 0 = true ∧
        0 ∈ l.active 0 ∧ l.queued = [] ∧ l.run.checkInstructionLimit = false := by
  have hrun : (do
      let s ← ([some 0, none] : List (Option ℕ)).foldlM act start
      let s' ← act s none
      let m ← act s' (some 10)
      let l ← act m none
      some (decide (s.pc = .loop 0 ∧ s.queued = [0] ∧ s.run.checkInstructionLimit = true ∧
        l.pc = .loop 0 ∧ 0 ∈ m.active 0 ∧
        checkIfRulePredicateActivated prog m.run.predicates 0 = true ∧ 0 ∈ l.active 0 ∧
        l.queued = [] ∧ l.run.checkInstructionLimit = false))) = some true := by decide +kernel
  obtain ⟨s, hs, hrun⟩ := Option.bind_eq_some_iff.mp hrun
  obtain ⟨s', hs', hrun⟩ := Option.bind_eq_some_iff.mp hrun
  obtain ⟨m, hm, hrun⟩ := Option.bind_eq_some_iff.mp hrun
  obtain ⟨l, hl, hrun⟩ := Option.bind_eq_some_iff.mp hrun
  rw [Option.some.injEq, decide_eq_true_eq] at hrun
  obtain ⟨hpc, hqueued, hlimit, hlpc, hm0, hactivated, hl0, hempty, hgo⟩ := hrun
  have hreach : (runNode prog ops).Reachable s :=
    System.Reachable.foldlM (fun _ _ _ => act_step) (.init ⟨_, rfl⟩) hs
  have hcut : s.CutAt 0 := ⟨by simp [hqueued], hlimit, .inl hpc⟩
  obtain ⟨hout, henter⟩ := act_enter hm
  exact ⟨s, s', m, l, hreach, hcut, act_step hs', ⟨s', m, _, _, _, _, .refl, hout, henter, .refl,
    (act_next hl).2, hlpc⟩, hqueued, hm0, hactivated, hl0, hempty, hgo⟩

/-- The next call on the node does not execute the rule, although it is active at the node to the
end of the call and its predicate is activated. -/
theorem not_resumes : ∃ s s' m l, (runNode prog ops).Reachable s ∧ s.CutAt 0 ∧
    (runNode prog ops).step s s' ∧ NextCall prog ops 0 s' m l ∧ 0 ∈ s.queued ∧ 0 ∈ m.active 0 ∧
      checkIfRulePredicateActivated prog m.run.predicates 0 = true ∧
        (∀ e, Within prog ops l e → ¬Executed prog ops 0 0 l e ∧ ¬Dropped prog ops 0 0 l e) ∧
          ¬Resumes prog ops 0 s m l := by
  obtain ⟨s, s', m, l, hs, hcut, hstep, hcall, hqueued, hm, hactivated, hl, hempty, -⟩ :=
    exists_nextCall
  have hmem : 0 ∈ s.queued := by simp [hqueued]
  have hpc : l.pc = .loop 0 := by
    obtain ⟨_, _, _, _, _, _, -, -, -, -, -, hpc⟩ := hcall
    exact hpc
  refine ⟨s, s', m, l, hs, hcut, hstep, hcall, hmem, hm, hactivated, fun e he => ⟨?_, ?_⟩, ?_⟩
  · rintro ⟨t, ht, hexecutes, -⟩
    rcases ht.eq_or_outside hpc hempty with rfl | hout
    · exact absurd hexecutes.queued (by simp [hempty])
    · exact absurd (hexecutes.1.symm.trans hout) (by simp)
  · rintro ⟨t, ht, hloop, hnot, -⟩
    rcases ht.eq_or_outside hpc hempty with rfl | hout
    · exact hnot hl
    · exact absurd (hloop.symm.trans hout) (by simp)
  · intro hresumes
    have := (hresumes 0 hm (.inl hmem)).1
    simp [hempty] at this

/-- The two calls of the program with one rule. -/
theorem resumes_iff_single : ∃ s s' m l, s.CutAt 0 ∧ (runNode prog ops).step s s' ∧
    NextCall prog ops 0 s' m l ∧ (Resumes prog ops 0 s m l ↔ ∀ r ∈ m.active 0,
      (r ∈ s.queued ∨ checkIfRulePredicateActivated prog m.run.predicates r = true) →
        m.rules r = false) := by
  obtain ⟨s, s', m, l, hs, hcut, hstep, hcall, -⟩ := exists_nextCall
  exact ⟨s, s', m, l, hcut, hstep, hcall,
    (resumes_iff prog ops id routesTo hs hcut hstep).2.2.2 m l hcall⟩

end Meld.Vm
