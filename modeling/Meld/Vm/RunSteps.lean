import Meld.Vm.RunNode

/-!
# The parts of `run_node`

What the parts of a call of `run_node` do with the facts: the loop over the persistent facts ends
when there is none or at the limit of instructions, no facts are left in `generated_tuples`, and the
end of the call keeps every fact that it holds once (`finish_keeps`).
-/

namespace Meld.Vm

open Lib Queue

namespace Run

variable {δ ω : Type} {ops : Ops δ ω} {node : ℕ} {r r' : Run δ ω}

/-- The loop over the persistent facts ends when there is none, or at the limit; otherwise a fact is
met by a negative one, asserted, or added to its aggregate. -/
theorem persistentStep_cases {out : Run δ ω ⊕ (Run δ ω × Bool)}
    (h : r.persistentStep ops node = .ok out) :
    (r.generatedPersistentTuples = [] ∧
      ∃ r', r.deleteLeaves ops node = .ok r' ∧ out = .inr (r', true)) ∨
    (r.generatedPersistentTuples ≠ [] ∧ r.checkInstructionLimit = true ∧ out = .inr (r, false)) ∨
    ∃ stpl facts, r.generatedPersistentTuples = stpl :: facts ∧ r.checkInstructionLimit = false ∧
      ((∃ facts', searchForNegative stpl facts = .ok (some facts') ∧
        out = .inl (r.setGeneratedPersistentTuples facts')) ∨
      searchForNegative stpl facts = .ok none ∧ ∃ r', out = .inl r' ∧
        (stpl.forAssertion = true ∧
            processPersistentTuple ops node stpl (r.setGeneratedPersistentTuples facts) = .ok r' ∨
          addToAggregate ops node stpl (r.setGeneratedPersistentTuples facts) = .ok r')) := by
  rw [persistentStep] at h
  split at h
  · rename_i hnil
    obtain ⟨r', hdelete, h⟩ := bind_eq_ok.mp h
    cases h
    exact .inl ⟨hnil, r', hdelete, rfl⟩
  · rename_i stpl facts hcons
    rcases Bool.eq_false_or_eq_true r.checkInstructionLimit with hlimit | hlimit
    · rw [if_pos hlimit] at h
      cases h
      exact .inr (.inl ⟨hcons ▸ List.cons_ne_nil _ _, hlimit, rfl⟩)
    · rw [if_neg (Bool.not_eq_true _ ▸ hlimit)] at h
      refine .inr (.inr ⟨stpl, facts, hcons, hlimit, ?_⟩)
      obtain ⟨found, hfound, h⟩ := bind_eq_ok.mp h
      cases found with
      | some facts' =>
        cases h
        exact .inl ⟨facts', hfound, rfl⟩
      | none =>
        refine .inr ⟨hfound, ?_⟩
        rcases Bool.eq_false_or_eq_true stpl.forAssertion with hassert | hassert
        · simp only [hassert] at h
          obtain ⟨r', hprocess, h⟩ := bind_eq_ok.mp h
          cases h
          exact ⟨r', rfl, .inl ⟨hassert, hprocess⟩⟩
        · simp only [hassert] at h
          obtain ⟨r', hadd, h⟩ := bind_eq_ok.mp h
          cases h
          exact ⟨r', rfl, .inr hadd⟩

/-! ### The facts that a rule has generated

`generated_tuples` is empty between two steps: the byte-code of a predicate forgets what it has
generated, and after a rule the facts are moved to the local ones. -/

/-- Marking the rules derives nothing. -/
theorem markRulesUsingLocalTuples_generatedTuples {facts kept : List SimpleTuple}
    (h : markRulesUsingLocalTuples ops node facts r = .ok (r', kept)) :
    r'.generatedTuples = r.generatedTuples := by
  induction facts generalizing r kept with
  | nil =>
    cases h
    rfl
  | cons stpl facts ih =>
    rw [markRulesUsingLocalTuples] at h
    split_ifs at h
    · exact ih h
    · obtain ⟨env, -, h⟩ := bind_eq_ok.mp h
      exact (ih h).trans rfl
    · exact (ih h).trans rfl
    · obtain ⟨⟨r'', kept'⟩, hrec, h⟩ := bind_eq_ok.mp h
      cases h
      exact (ih hrec).trans rfl

/-- The beginning of a call derives nothing. -/
theorem begin_generatedTuples (h : r.begin ops node = .ok r') :
    r'.generatedTuples = r.generatedTuples := by
  obtain ⟨_, -, h⟩ := bind_eq_ok.mp h
  obtain ⟨⟨env, facts⟩, -, h⟩ := bind_eq_ok.mp h
  obtain ⟨⟨r'', kept⟩, hmark, h⟩ := bind_eq_ok.mp h
  cases h
  exact (markRulesUsingLocalTuples_generatedTuples hmark).trans rfl

/-- Deleting leaves derives nothing. -/
theorem deleteLeaves_generatedTuples (h : r.deleteLeaves ops node = .ok r') :
    r'.generatedTuples = r.generatedTuples := by
  obtain ⟨d, -, h⟩ := bind_eq_ok.mp h
  cases h
  rfl

/-- What the code of a predicate generates is forgotten. -/
theorem executeBytecode_generatedTuples {pred : Predicate}
    (h : executeBytecode ops node pred r = .ok r') : r'.generatedTuples = [] := by
  obtain ⟨r'', -, h⟩ := bind_eq_ok.mp h
  cases h
  rfl

/-- A persistent fact leaves nothing generated. -/
theorem processPersistentTuple_generatedTuples {stpl : SimpleTuple}
    (hr : r.generatedTuples = []) (h : processPersistentTuple ops node stpl r = .ok r') :
    r'.generatedTuples = [] := by
  rw [processPersistentTuple] at h
  split_ifs at h
  · obtain ⟨⟨d, isNew⟩, -, h⟩ := bind_eq_ok.mp h
    cases isNew with
    | true =>
      obtain ⟨r'', hexecute, h⟩ := bind_eq_ok.mp h
      cases h
      have hnone : r''.generatedTuples = [] := executeBytecode_generatedTuples hexecute
      exact hnone
    | false =>
      cases h
      exact hr
  · exact executeBytecode_generatedTuples h
  · obtain ⟨⟨d, deleter⟩, -, h⟩ := bind_eq_ok.mp h
    obtain ⟨m, -, h⟩ := bind_eq_ok.mp h
    cases deleter with
    | none =>
      cases h
      exact hr
    | some leaf =>
      obtain ⟨r'', hexecute, h⟩ := bind_eq_ok.mp h
      obtain ⟨d, -, h⟩ := bind_eq_ok.mp h
      cases h
      have hnone : r''.generatedTuples = [] := executeBytecode_generatedTuples hexecute
      exact hnone

/-- A fact that goes into an aggregate generates nothing for the run. -/
theorem addToAggregate_generatedTuples {stpl : SimpleTuple}
    (h : addToAggregate ops node stpl r = .ok r') : r'.generatedTuples = r.generatedTuples := by
  obtain ⟨⟨d, facts⟩, -, h⟩ := bind_eq_ok.mp h
  cases h
  rfl

/-- A step of the loop over the persistent facts generates no other facts. -/
theorem persistentStep_generatedTuples {out : Run δ ω ⊕ (Run δ ω × Bool)}
    (hr : r.generatedTuples = []) (h : r.persistentStep ops node = .ok out) :
    (∀ r', out = .inl r' → r'.generatedTuples = []) ∧
      ∀ r' done, out = .inr (r', done) → r'.generatedTuples = [] := by
  rcases persistentStep_cases h with ⟨-, r', hdelete, rfl⟩ | ⟨-, -, rfl⟩ |
    ⟨stpl, facts, -, -, ⟨facts', -, rfl⟩ | ⟨-, r', rfl, ⟨-, hprocess⟩ | hadd⟩⟩
  · refine ⟨fun _ hout => absurd hout Sum.inr_ne_inl, fun r'' done hout => ?_⟩
    cases hout
    rw [deleteLeaves_generatedTuples hdelete, hr]
  · refine ⟨fun _ hout => absurd hout Sum.inr_ne_inl, fun r'' done hout => ?_⟩
    cases hout
    exact hr
  · refine ⟨fun r'' hout => ?_, fun _ _ hout => absurd hout Sum.inl_ne_inr⟩
    cases hout
    exact hr
  · refine ⟨fun r'' hout => ?_, fun _ _ hout => absurd hout Sum.inl_ne_inr⟩
    cases hout
    have hr' : (r.setGeneratedPersistentTuples facts).generatedTuples = [] := hr
    exact processPersistentTuple_generatedTuples hr' hprocess
  · refine ⟨fun r'' hout => ?_, fun _ _ hout => absurd hout Sum.inl_ne_inr⟩
    cases hout
    rw [addToAggregate_generatedTuples hadd]
    exact hr

/-- What a rule has generated is among the local facts after its round. -/
theorem runRule_generatedTuples {rid : ℕ} (h : r.runRule ops node rid = .ok r') :
    r'.generatedTuples = [] := by
  obtain ⟨r₁, -, h⟩ := bind_eq_ok.mp h
  obtain ⟨⟨r₂, kept⟩, -, h⟩ := bind_eq_ok.mp h
  simp only at h
  split_ifs at h
  · obtain ⟨⟨n, fresh⟩, -, h⟩ := bind_eq_ok.mp h
    cases h
    rfl
  · cases h
    rfl

/-! ### The end of a call -/

/-- The facts that a call holds at its end, besides those for another level. -/
def held (r : Run δ ω) : List SimpleTuple :=
  r.localTuples.filter SimpleTuple.canBeConsumed ++ r.generatedPersistentTuples

/-- Facts are stored in the database one after another. -/
def store (ops : Ops δ ω) (facts : List SimpleTuple) (d : δ) : Exec δ :=
  facts.foldlM (fun d stpl => do return (← ops.addTuple stpl.tpl 1 d).1) d

/-- `route_self` appends to the work that the deterministic simulator hands out later, and leaves the
nodes as they are. -/
def RoutesTo (tmpWork : ω → List (ℕ × SimpleTuple)) (ops : Ops δ ω) : Prop :=
  ∀ node stpl env env', ops.routeSelf node stpl env = .ok env' →
    env'.nodes = env.nodes ∧ tmpWork env'.world = tmpWork env.world ++ [(node, stpl)]

/-- Where the facts of a node go: into its database, into its queue, or out to the simulator. -/
structure Keeps (tmpWork : ω → List (ℕ × SimpleTuple)) (ops : Ops δ ω) (node : ℕ)
    (env env' : Env δ ω) (stored queued : List SimpleTuple) (sent : List (ℕ × SimpleTuple)) :
    Prop where
  database : store ops stored (env.nodes node).database = .ok (env'.nodes node).database
  pending : (env'.nodes node).pending = (env.nodes node).pending ++ queued
  tmpWork : tmpWork env'.world = tmpWork env.world ++ sent

variable {tmpWork : ω → List (ℕ × SimpleTuple)}

/-- Nothing is stored, queued or sent. -/
theorem Keeps.refl (env : Env δ ω) : Keeps tmpWork ops node env env [] [] [] where
  database := rfl
  pending := (List.append_nil _).symm
  tmpWork := (List.append_nil _).symm

/-- What two parts store, queue and send, one after the other. -/
theorem Keeps.trans {env₁ env₂ env₃ : Env δ ω} {stored stored' queued queued' : List SimpleTuple}
    {sent sent' : List (ℕ × SimpleTuple)}
    (h : Keeps tmpWork ops node env₁ env₂ stored queued sent)
    (h' : Keeps tmpWork ops node env₂ env₃ stored' queued' sent') :
    Keeps tmpWork ops node env₁ env₃ (stored ++ stored') (queued ++ queued') (sent ++ sent') where
  database := by
    rw [store, List.foldlM_append]
    exact bind_eq_ok.mpr ⟨_, h.database, h'.database⟩
  pending := by rw [h'.pending, h.pending, List.append_assoc]
  tmpWork := by rw [h'.tmpWork, h.tmpWork, List.append_assoc]

/-- A fact that is pushed back waits in the queue of its node. -/
theorem keeps_pushPending (stpl : SimpleTuple) :
    Keeps tmpWork ops node r.env (r.pushPending node stpl).env [] [stpl] [] where
  database := by simp [store, pushPending, setNode, setEnv, getNode]
  pending := by simp [pushPending, setNode, setEnv, getNode]
  tmpWork := (List.append_nil _).symm

/-- The loop over the local facts keeps each that was not consumed. -/
theorem keepTuples_keeps (tmpWork : ω → List (ℕ × SimpleTuple)) {aborted : Bool}
    {facts : List SimpleTuple} (h : facts.foldlM (keepTuple ops node aborted) r = .ok r') :
    ∃ stored queued env, (stored ++ queued).Perm (facts.filter SimpleTuple.canBeConsumed) ∧
      r' = r.setEnv env ∧ Keeps tmpWork ops node r.env env stored queued [] := by
  induction facts generalizing r with
  | nil =>
    cases h
    exact ⟨[], [], r'.env, .refl _, rfl, .refl _⟩
  | cons stpl facts ih =>
    rw [List.foldlM_cons] at h
    obtain ⟨r'', hkeep, h⟩ := bind_eq_ok.mp h
    obtain ⟨stored, queued, env, hperm, rfl, hkeeps⟩ := ih h
    rw [keepTuple] at hkeep
    rcases Bool.eq_false_or_eq_true stpl.canBeConsumed with hconsume | hconsume
    · rw [if_pos hconsume] at hkeep
      rw [List.filter_cons_of_pos hconsume]
      cases aborted with
      | true =>
        cases hkeep
        refine ⟨[] ++ stored, [stpl] ++ queued, env, ?_, rfl, (keeps_pushPending stpl).trans hkeeps⟩
        exact List.perm_middle.trans (hperm.cons stpl)
      | false =>
        obtain ⟨⟨d, isNew⟩, hadd, hkeep⟩ := bind_eq_ok.mp hkeep
        cases hkeep
        have hstore : Keeps tmpWork ops node r.env (r.setDatabase node d).env [stpl] [] [] := by
          refine ⟨?_, ?_, (List.append_nil _).symm⟩
          · simp only [store, List.foldlM_cons, List.foldlM_nil]
            exact bind_eq_ok.mpr ⟨d, bind_eq_ok.mpr ⟨_, hadd, rfl⟩, by
              simp [setDatabase, setNode, setEnv]⟩
          · simp [setDatabase, setNode, setEnv, getNode]
        exact ⟨[stpl] ++ stored, [] ++ queued, env, hperm.cons stpl, rfl, hstore.trans hkeeps⟩
    · rw [hconsume, if_neg nofun, pure_eq_ok, Except.ok.injEq] at hkeep
      subst hkeep
      rw [List.filter_cons_of_neg (by rw [hconsume]; exact nofun)]
      exact ⟨stored, queued, env, hperm, rfl, hkeeps⟩

/-- `process_others` hands the facts for another level to the simulator. -/
theorem routeSelf_keeps (hroute : RoutesTo tmpWork ops) {facts : List SimpleTuple}
    {env env' : Env δ ω}
    (h : facts.foldlM (fun env stpl => ops.routeSelf node stpl env) env = .ok env') :
    Keeps tmpWork ops node env env' [] [] (facts.map (node, ·)) := by
  induction facts generalizing env with
  | nil =>
    cases h
    exact .refl _
  | cons stpl facts ih =>
    rw [List.foldlM_cons] at h
    obtain ⟨env'', hone, h⟩ := bind_eq_ok.mp h
    obtain ⟨hnodes, hsent⟩ := hroute _ _ _ _ hone
    have hkeeps : Keeps tmpWork ops node env env'' [] [] [(node, stpl)] := by
      refine ⟨?_, ?_, hsent⟩
      · rw [hnodes]
        rfl
      · rw [hnodes, List.append_nil]
    exact hkeeps.trans (ih h)

/-- So do any number of them. -/
theorem pushPending_keeps (tmpWork : ω → List (ℕ × SimpleTuple)) (ops : Ops δ ω) (node : ℕ)
    (facts : List SimpleTuple) (r : Run δ ω) :
    ∃ env, facts.foldl (fun r stpl => r.pushPending node stpl) r = r.setEnv env ∧
      Keeps tmpWork ops node r.env env [] facts [] := by
  induction facts generalizing r with
  | nil => exact ⟨r.env, rfl, .refl _⟩
  | cons stpl facts ih =>
    obtain ⟨env, henv, hkeeps⟩ := ih (r.pushPending node stpl)
    exact ⟨env, henv, (keeps_pushPending stpl).trans hkeeps⟩

/-- The end of a call keeps every fact that it holds once, in the database or in the queue of the
node, and sends the facts for another level to the simulator. -/
theorem finish_keeps (hroute : RoutesTo tmpWork ops) {aborted : Bool}
    (h : r.finish ops node aborted = .ok r') :
    ∃ stored queued, (stored ++ queued).Perm r.held ∧ Keeps tmpWork ops node r.env r'.env
      stored queued (r.generatedOtherLevel.map (node, ·)) := by
  obtain ⟨r₁, hkeep, h⟩ := bind_eq_ok.mp h
  obtain ⟨r₂, hothers, h⟩ := bind_eq_ok.mp h
  obtain ⟨_, -, h⟩ := bind_eq_ok.mp h
  rw [pure_eq_ok, Except.ok.injEq] at h
  subst h
  obtain ⟨stored, queued, env, hperm, rfl, hkeeps⟩ := keepTuples_keeps tmpWork hkeep
  obtain ⟨env', hroutes, hothers⟩ := bind_eq_ok.mp hothers
  rw [pure_eq_ok, Except.ok.injEq] at hothers
  obtain ⟨env'', henv, hpush⟩ := pushPending_keeps tmpWork ops node
    r₂.generatedPersistentTuples r₂
  refine ⟨stored ++ [] ++ [], queued ++ [] ++ r₂.generatedPersistentTuples, ?_, ?_⟩
  · rw [List.append_nil, List.append_nil, List.append_nil, ← List.append_assoc, ← hothers]
    exact hperm.append_right _
  · rw [henv]
    have henv₂ : r₂.env = env' := by
      rw [← hothers]
      rfl
    rw [henv₂] at hpush
    have hsent := (hkeeps.trans (routeSelf_keeps hroute hroutes)).trans hpush
    rw [List.append_nil ([] ++ _), List.nil_append] at hsent
    exact hsent

/-- The end of a call leaves no facts in the thread. -/
theorem finish_clears {aborted : Bool} (h : r.finish ops node aborted = .ok r') :
    r'.localTuples = [] ∧ r'.generatedTuples = r.generatedTuples ∧
      r'.generatedPersistentTuples = [] ∧ r'.generatedOtherLevel = [] := by
  obtain ⟨r₁, hkeep, h⟩ := bind_eq_ok.mp h
  obtain ⟨r₂, hothers, h⟩ := bind_eq_ok.mp h
  obtain ⟨_, -, h⟩ := bind_eq_ok.mp h
  rw [pure_eq_ok, Except.ok.injEq] at h
  subst h
  obtain ⟨-, -, env, -, rfl, -⟩ := keepTuples_keeps (fun _ => []) hkeep
  obtain ⟨env', -, hothers⟩ := bind_eq_ok.mp hothers
  rw [pure_eq_ok, Except.ok.injEq] at hothers
  obtain ⟨env'', henv, -⟩ := pushPending_keeps (fun _ => []) ops node
    r₂.generatedPersistentTuples r₂
  rw [henv, ← hothers]
  exact ⟨rfl, rfl, rfl, rfl⟩

end Run

end Meld.Vm
