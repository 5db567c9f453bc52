import Meld.Db.TupleReferences
import Meld.Vm.RunSteps

/-!
# Linear facts in the runs of a node

The database of a node is here the tries of its linear predicates, with the rest left open. What
`run_node` calls is made precise as far as linear facts are concerned: the body of a rule executes
SEND instructions to the node itself and REMOVE instructions, in any order, and its iterations mark
local facts; the code of a predicate executes SEND instructions only. `Surroundings` is everything
else, which neither touches the linear facts of a database nor a rule matcher.

A linear fact is registered with the rule matcher when it arrives, when a rule derives it, or when
it is processed as a reused fact. `Harmless` are the steps of a run in which each is registered once
and what is deregistered leaves the database as well.
-/

namespace Meld.Vm

open Lib Db

/-! ### Databases and instructions -/

/-- The database of a node: the tries of its linear predicates, and the rest of it. -/
structure LinearDb (α : Type) where
  tuples : ℕ → TupleTrie
  rest : α

/-- A tuple of a predicate of the program. -/
structure Tuple.Valid (prog : Program) (tpl : Tuple) : Prop where
  pred : tpl.pred = prog.getPredicate tpl.pred.id
  typed : TupleTrie.Typed tpl.pred.types tpl.fields

/-- What the body of a rule does with facts: a SEND to the node itself, the REMOVE of a tuple, taken
from a leaf of the database or from the local facts, and the marks of the iterations over the local
facts. -/
inductive Action
  | sendSelf (tpl : Tuple)
  | remove (tpl : Tuple) (leaf : Option ℕ)
  | mark (i : ℕ) (toDelete : Bool)

/-- The tuple of the instruction is valid. -/
def Action.Valid (prog : Program) : Action → Prop
  | sendSelf tpl => tpl.Valid prog
  | remove tpl _ => tpl.Valid prog
  | mark _ _ => True

/-- The nodes of `env'` have the databases and the rule matchers that they have in `env`. -/
def Env.SameFacts {α ω : Type} (env env' : Env (LinearDb α) ω) : Prop :=
  ∀ n, (env'.nodes n).matcher = (env.nodes n).matcher ∧
    (env'.nodes n).database = (env.nodes n).database

/-- A fact of the program; one of a linear predicate has the count 1. -/
structure SimpleTuple.Valid (prog : Program) (stpl : SimpleTuple) : Prop where
  tpl : stpl.tpl.Valid prog
  count : stpl.tpl.pred.isLinear = true → stpl.count = 1

/-- The code of the rules and of the predicates, as the instructions that it executes in a state,
and the parts of the program around that leave linear facts and rule matchers as they are. -/
structure Surroundings (prog : Program) (α ω : Type) where
  ruleBody : ℕ → ℕ → Run (LinearDb α) ω → List Action
  ruleBody_valid : ∀ node rule r, ∀ a ∈ ruleBody node rule r, a.Valid prog
  predicateBody : ℕ → Predicate → Run (LinearDb α) ω → List Tuple
  predicateBody_valid : ∀ node pred r, ∀ tpl ∈ predicateBody node pred r, tpl.Valid prog
  runAction : ℕ → Tuple → Env (LinearDb α) ω → Exec (Env (LinearDb α) ω)
  runAction_same : ∀ {node tpl env env'}, runAction node tpl env = .ok env' → env.SameFacts env'
  routeSelf : ℕ → SimpleTuple → Env (LinearDb α) ω → Exec (Env (LinearDb α) ω)
  routeSelf_same : ∀ {node stpl env env'}, routeSelf node stpl env = .ok env' → env.SameFacts env'
  gatherNextTuples : ℕ → Option ℕ → Env (LinearDb α) ω →
    Exec (Env (LinearDb α) ω × List SimpleTuple)
  gatherNextTuples_same : ∀ {node limit env env' facts},
    gatherNextTuples node limit env = .ok (env', facts) → env.SameFacts env'
  gatherNextTuples_valid : ∀ {node limit env env' facts},
    gatherNextTuples node limit env = .ok (env', facts) → ∀ stpl ∈ facts, stpl.Valid prog
  /-- `add_tuple`, `delete_tuple` and the call of its `delete_info`, for predicates that are not
  linear -/
  addPersistent : Tuple → ℤ → α → Exec (α × Bool)
  deletePersistent : Tuple → ℤ → α → Exec (α × Option ℕ)
  commitPersistent : Predicate → ℕ → α → Exec α
  addAggTuple : Tuple → ℤ → α → Exec (α × List SimpleTuple)
  /-- an aggregate emits tuples of its predicate, each added or retracted once -/
  addAggTuple_emits : ∀ {tpl count rest rest' facts},
    addAggTuple tpl count rest = .ok (rest', facts) →
    ∀ stpl ∈ facts, stpl.tpl.pred = tpl.pred ∧
      TupleTrie.Typed stpl.tpl.pred.types stpl.tpl.fields ∧ (stpl.count = 1 ∨ stpl.count = -1)
  noLevel : ℕ

section

variable {prog : Program} {α ω : Type} (sur : Surroundings prog α ω) (node : ℕ)

namespace LinearDb

/-- `add_tuple`. -/
def addTuple (tpl : Tuple) (many : ℤ) (d : LinearDb α) : Exec (LinearDb α × Bool) :=
  if tpl.pred.isLinear then do
    let (t, isNew) ← (d.tuples tpl.pred.id).insertTuple tpl.fields many
    return ({ d with tuples := Function.update d.tuples tpl.pred.id t }, isNew)
  else do
    let (rest, isNew) ← sur.addPersistent tpl many d.rest
    return ({ d with rest := rest }, isNew)

/-- `delete_by_leaf`; for a predicate that is not linear, the call of a `delete_info`. -/
def deleteByLeaf (pred : Predicate) (leaf : ℕ) (d : LinearDb α) : Exec (LinearDb α) :=
  if pred.isLinear then do
    let t ← (d.tuples pred.id).deleteByLeaf leaf
    return { d with tuples := Function.update d.tuples pred.id t }
  else do
    let rest ← sur.commitPersistent pred leaf d.rest
    return { d with rest := rest }

end LinearDb

namespace Run

/-- `execute_send_self`. -/
def executeSendSelf (tpl : Tuple) (r : Run (LinearDb α) ω) : Exec (Run (LinearDb α) ω) := do
  if tpl.pred.isAction then
    return r.setEnv (← sur.runAction node tpl r.env)
  else
    let stpl : SimpleTuple := { tpl := tpl, count := r.count }
    if r.useLocalTuples || r.persistentOnly then
      if tpl.pred.level ≠ r.currentLevel then
        return { r with generatedOtherLevel := r.generatedOtherLevel ++ [stpl] }
      else if tpl.pred.isPersistent then
        return r.setGeneratedPersistentTuples (r.generatedPersistentTuples ++ [stpl])
      else
        let m := (r.getNode node).matcher.registerTuple tpl 1 true
        let r := (r.setMatcher node m).markPredicateToRun tpl.pred
        if tpl.pred.isReused then
          return r.setGeneratedPersistentTuples (r.generatedPersistentTuples ++ [stpl])
        else
          return { r with generatedTuples := r.generatedTuples ++ [stpl] }
    else
      let r := r.setEnv (← sur.routeSelf node stpl r.env)
      return { r with
        generatedTuples := r.generatedTuples ++ [{ stpl with generatedThisRun := true }] }

/-- The first part of `execute_remove`, which tells the rule matcher. -/
def deregisterRemoved (tpl : Tuple) (leaf : Option ℕ) (r : Run (LinearDb α) ω) :
    Exec (Run (LinearDb α) ω) := do
  if r.useLocalTuples && leaf.isSome then
    return r.setMatcher node (← (r.getNode node).matcher.deregisterTuple tpl 1)
  else return r

/-- `execute_remove`. -/
def executeRemove (tpl : Tuple) (leaf : Option ℕ) (r : Run (LinearDb α) ω) :
    Exec (Run (LinearDb α) ω) := do
  let r ← deregisterRemoved node tpl leaf r
  if tpl.pred.isReused && r.useLocalTuples then
    let r := r.setGeneratedPersistentTuples
      (r.generatedPersistentTuples ++ [{ tpl := tpl, count := -1 }])
    match leaf with
    | some l => return { r with leavesForDeletion := r.leavesForDeletion ++ [(tpl.pred, l)] }
    | none => return r
  else
    match leaf with
    | some l =>
      let d ← LinearDb.deleteByLeaf sur tpl.pred l (r.getNode node).database
      return r.setDatabase node d
    | none => return r

/-- An instruction of the body of a rule. -/
def act (r : Run (LinearDb α) ω) : Action → Exec (Run (LinearDb α) ω)
  | .sendSelf tpl => r.executeSendSelf sur node tpl
  | .remove tpl leaf => r.executeRemove sur node tpl leaf
  | .mark i toDelete =>
    pure (r.setLocalTuples (r.localTuples.modify i fun stpl => { stpl with toDelete := toDelete }))

end Run

/-- What `run_node` calls. -/
def linearOps : Ops (LinearDb α) ω where
  executeRule node rule r := (sur.ruleBody node rule r).foldlM (Run.act sur node) r
  doExecute node pred r :=
    (sur.predicateBody node pred r).foldlM (fun r tpl => r.executeSendSelf sur node tpl) r
  runAction := sur.runAction
  gatherNextTuples := sur.gatherNextTuples
  routeSelf := sur.routeSelf
  addTuple := LinearDb.addTuple sur
  -- a linear fact that is not reused is never retracted, and a reused one by its leaf only
  deleteTuple tpl many d := do
    let (rest, leaf) ← sur.deletePersistent tpl many d.rest
    return ({ d with rest := rest }, leaf)
  deleteByLeaf := LinearDb.deleteByLeaf sur
  addAggTuple tpl count d := do
    let (rest, facts) ← sur.addAggTuple tpl count d.rest
    return ({ d with rest := rest }, facts)
  noLevel := sur.noLevel

/-! ### Runs -/

/-- The calls of `run_node` that a thread makes, on any nodes, from nodes that have no facts on.
Between the calls the program around the thread may change everything but the facts of the nodes. -/
def linearRuns : System (VmState (LinearDb α) ω) where
  init s := ∃ env, s = .new env ∧ ∀ n, (env.nodes n).matcher.matcher = .ofProgram prog ∧
    ∀ p, (env.nodes n).database.tuples p = Trie.new
  step s s' := (s.pc = .outside ∧ ∃ env use counter limit node, s.run.env.SameFacts env ∧
      (s.around env use counter limit).enter (linearOps sur) node = .ok s') ∨
    (s.pc ≠ .outside ∧ s.next prog (linearOps sur) = .ok s')

namespace Run

/-- The run `r'` in which `process_persistent_tuple`, on the fact `stpl` and the run `r`, has the
code of the predicate executed. -/
def RunsCode (stpl : SimpleTuple) (r r' : Run (LinearDb α) ω) : Prop :=
  (0 < stpl.count ∧ ∃ d,
    LinearDb.addTuple sur stpl.tpl 1 (r.getNode node).database = .ok (d, true) ∧
    r' = (r.setDatabase node d).setup (some stpl.tpl) stpl.count false true) ∨
  (stpl.count ≤ 0 ∧ stpl.tpl.pred.isReused = true ∧
    r' = r.setup (some stpl.tpl) stpl.count false true) ∨
  (stpl.count ≤ 0 ∧ stpl.tpl.pred.isReused = false ∧ ∃ d leaf m,
    (linearOps sur).deleteTuple stpl.tpl (-stpl.count) (r.getNode node).database =
      .ok (d, some leaf) ∧
    ((r.setDatabase node d).getNode node).matcher.deregisterTuple stpl.tpl stpl.count = .ok m ∧
    r' = ((r.setDatabase node d).setMatcher node m).setup (some stpl.tpl) stpl.count false true)

/-- A SEND of the tuple to the node itself adds a fact to those of the run. -/
def Derives (tpl : Tuple) (r : Run (LinearDb α) ω) : Prop :=
  tpl.pred.isAction = false ∧ tpl.pred.level = r.currentLevel

/-- The code of a predicate that is about to be run derives no linear fact. -/
def HarmlessCode (r : Run (LinearDb α) ω) : Prop :=
  ∀ stpl facts, r.generatedPersistentTuples = stpl :: facts →
    searchForNegative stpl facts = .ok none → stpl.forAssertion = true →
    ∀ r', RunsCode sur node stpl (r.setGeneratedPersistentTuples facts) r' →
      ∀ tpl ∈ sur.predicateBody node stpl.tpl.pred r', Derives tpl r' → tpl.pred.isLinear = false

/-- The run in which `run_node` has the rule executed. -/
def ruleRun (r : Run (LinearDb α) ω) : Run (LinearDb α) ω :=
  (r.setMatcher node (r.getNode node).matcher.clearDroppedRules).startMatching.setup
    none 1 true false

/-- The rule derives no reused linear fact, and no linear fact arrives from the simulator after
it. -/
def HarmlessRule (rule : ℕ) (r : Run (LinearDb α) ω) : Prop :=
  (∀ tpl, Action.sendSelf tpl ∈ sur.ruleBody node rule (r.ruleRun node) →
    Derives tpl (r.ruleRun node) → tpl.pred.isLinear = true → tpl.pred.isReused = false) ∧
  ∀ r₁ r₂ kept, (linearOps sur).executeRule node rule (r.ruleRun node) = .ok r₁ →
    processConsumedLocalTuples node r₁.localTuples r₁ = .ok (r₂, kept) →
    (r₂.simInstrUse && !r₂.checkInstructionLimit) = true →
    ∀ n facts, (r₂.getNode node).getTuplesUntilTimestamp r₂.simInstrLimit = .ok (n, facts) →
      ∀ stpl ∈ facts, stpl.tpl.pred = prog.getPredicate stpl.tpl.pred.id ∧
        stpl.tpl.pred.isLinear = false

/-- The run has no linear fact in hand, and no leaf of one to delete. -/
def HoldsNothing (r : Run (LinearDb α) ω) : Prop :=
  (∀ stpl ∈ r.localTuples, stpl.tpl.pred.isLinear = false) ∧
    ∀ leaf ∈ r.leavesForDeletion, leaf.1.isLinear = false

/-- The number of facts of a predicate in a list. -/
def numberOf (p : ℕ) (facts : List SimpleTuple) : ℕ := facts.countP fun stpl => stpl.tpl.pred.id = p

/-- The facts of linear predicates, with those in hand, are not too many for the counters. -/
def Fits (prog : Program) (r : Run (LinearDb α) ω) : Prop :=
  ∀ p, (prog.getPredicate p).isLinear = true →
    ((r.getNode node).database.tuples p).numberOfReferences + numberOf p r.localTuples ≤ maxShort

end Run

/-- The next step of a call of `run_node` counts the linear facts: the code that it runs derives
none, no rule derives a reused one, none arrives from the simulator during the call, and the call is
not cut short with linear facts in hand or to be deleted. -/
def VmState.Harmless (s : VmState (LinearDb α) ω) : Prop :=
  match s.pc with
  | .outside => True
  | .persistent node =>
    (s.run.generatedPersistentTuples ≠ [] → s.run.checkInstructionLimit = true →
      s.run.HoldsNothing ∧ s.run.Fits node prog) ∧
    (s.run.checkInstructionLimit = false → s.run.HarmlessCode sur node)
  | .loop node =>
    (s.ruleQueue.empty = true ∨ s.run.checkInstructionLimit = true → s.run.Fits node prog) ∧
    (s.run.checkInstructionLimit = false → ∀ q rule, s.ruleQueue.pop = .ok (q, rule) →
      s.run.HarmlessRule sur node rule)

/-- The runs whose steps are all harmless. -/
def harmlessRuns : System (VmState (LinearDb α) ω) where
  init := (linearRuns sur).init
  step s s' := (linearRuns sur).step s s' ∧ s.Harmless sur

end

end Meld.Vm
