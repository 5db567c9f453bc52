import Meld.Lib.Transition
import Meld.Queue.HeapQueue
import Meld.Vm.RuleMatcher
import Meld.Vm.Tuple

/-!
# Running a node

A thread runs a node on the facts that have arrived for it. Persistent and reused facts are
processed one by one; then the rules of the node's matcher that are active, and for which a
predicate was activated in this round, are put into the rule queue and run, each followed by the
facts it has derived. The simulator cuts a run short when its limit of instructions is reached.

The byte-code, the database and the scheduler are what `Ops` says of them; they see all of the
thread's state but the rule queue and `rules`, which is private to `vm::state`.
-/

namespace Meld.Vm

open Lib Queue

/-! ### Facts and nodes -/

/-- `vm::tuple`. -/
structure Tuple where
  pred : Predicate
  fields : List Value
  deriving DecidableEq, Repr

/-- `operator==`. -/
def Tuple.same (x y : Tuple) : Exec Bool :=
  if x.pred = y.pred then tupleEqual x.fields y.fields else pure false

/-- `db::simple_tuple`. -/
structure SimpleTuple where
  tpl : Tuple
  count : ℤ
  toDelete : Bool := false
  generatedThisRun : Bool := false
  isFinalAggregate : Bool := false
  deriving DecidableEq, Repr

namespace SimpleTuple

def canBeConsumed (stpl : SimpleTuple) : Bool := !stpl.toDelete && !stpl.generatedThisRun

def stratLevel (stpl : SimpleTuple) : ℕ := stpl.tpl.pred.level

/-- `tuple_for_assertion`. -/
def forAssertion (stpl : SimpleTuple) : Bool :=
  (stpl.tpl.pred.isAggregate && stpl.isFinalAggregate) || !stpl.tpl.pred.isAggregate

end SimpleTuple

namespace RuleMatcher

variable {m : RuleMatcher} {pred : Predicate}

/-- No rule is both active and dropped. -/
def Apart (m : RuleMatcher) : Prop := Disjoint m.activeRules m.droppedRules

/-- A rule that becomes active is no longer dropped. -/
theorem Apart.activate (h : m.Apart) (r : ℕ) : (m.activate r).Apart := by
  rw [Apart, Finset.disjoint_left] at h ⊢
  intro q hq hdrop
  obtain ⟨hne, hdrop⟩ := Finset.mem_erase.mp hdrop
  exact h ((Finset.mem_insert.mp hq).resolve_left hne) hdrop

/-- A rule that is dropped is no longer active. -/
theorem Apart.drop (h : m.Apart) (r : ℕ) : (m.drop r).Apart := by
  rw [Apart, Finset.disjoint_left] at h ⊢
  intro q hq hdrop
  obtain ⟨hne, hq⟩ := Finset.mem_erase.mp hq
  exact h hq ((Finset.mem_insert.mp hdrop).resolve_left hne)

/-- A predicate of a rule's body gets its first fact. -/
theorem Apart.gainRule (h : m.Apart) (r : ℕ) : (m.gainRule r).Apart := by
  rw [RuleMatcher.gainRule]
  split_ifs
  · exact h
  · exact Apart.activate (m := m.setObj r _) h r
  · exact h

/-- A predicate of a rule's body loses its last fact. -/
theorem Apart.loseRule (h : m.Apart) (r : ℕ) : (m.loseRule r).Apart := by
  rw [RuleMatcher.loseRule]
  split_ifs
  · exact h
  · exact Apart.drop h r
  · exact h

/-- The rules of a predicate, one after another. -/
theorem Apart.foldl {f : RuleMatcher → ℕ → RuleMatcher} (hf : ∀ m r, m.Apart → (f m r).Apart)
    (l : List ℕ) (h : m.Apart) : (l.foldl f m).Apart := by
  induction l generalizing m with
  | nil => exact h
  | cons r l ih => exact ih (hf m r h)

/-- A fact that is registered keeps the active and the dropped rules apart. -/
theorem Apart.registerTuple (h : m.Apart) (count : ℤ) (isNew : Bool) :
    (m.registerTuple pred count isNew).1.Apart := by
  have hgain : (m.registerPredicateAvailability pred).Apart :=
    Apart.foldl (fun _ r hm => hm.gainRule r) _ h
  rw [RuleMatcher.registerTuple, Apart, setCount_activeRules, setCount_droppedRules]
  split_ifs
  · exact hgain
  · exact h

/-- So does one that is deregistered. -/
theorem Apart.deregisterTuple (h : m.Apart) {count : ℤ} {m' : RuleMatcher} {ret : Bool}
    (hrun : m.deregisterTuple pred count = .ok (m', ret)) : m'.Apart := by
  have hlose : (m.registerPredicateUnavailability pred).Apart :=
    Apart.foldl (fun _ r hm => hm.loseRule r) _ h
  rw [RuleMatcher.deregisterTuple] at hrun
  obtain ⟨_, -, hrun⟩ := bind_eq_ok.mp hrun
  rw [pure_eq_ok, Except.ok.injEq, Prod.mk.injEq] at hrun
  rw [← hrun.1, Apart, setCount_activeRules, setCount_droppedRules]
  split_ifs
  · exact hlose
  · exact h

end RuleMatcher

/-- The matcher of a node. -/
structure NodeMatcher where
  matcher : RuleMatcher
  apart : matcher.Apart

namespace NodeMatcher

/-- `register_tuple`. -/
def registerTuple (m : NodeMatcher) (tpl : Tuple) (count : ℤ) (isNew : Bool) : NodeMatcher :=
  ⟨(m.matcher.registerTuple tpl.pred count isNew).1, m.apart.registerTuple count isNew⟩

/-- `deregister_tuple`. -/
def deregisterTuple (m : NodeMatcher) (tpl : Tuple) (count : ℤ) : Exec NodeMatcher :=
  match h : m.matcher.deregisterTuple tpl.pred count with
  | .ok (m', _) => .ok ⟨m', m.apart.deregisterTuple h⟩
  | .error e => .error e

/-- `clear_dropped_rules`. -/
def clearDroppedRules (m : NodeMatcher) : NodeMatcher :=
  ⟨m.matcher.clearDroppedRules, Finset.disjoint_empty_right _⟩

end NodeMatcher

/-- A node of the simulator, with a database of the type `δ`. -/
structure SimNode (δ : Type) where
  matcher : NodeMatcher
  database : δ
  pending : List SimpleTuple
  tuplePqueue : HeapQueue SimpleTuple
  rtuplePqueue : HeapQueue SimpleTuple

/-- What is left of a queue, and the facts taken out of it. -/
def popUntilStep (limit : ℕ) (s : HeapQueue SimpleTuple × List SimpleTuple) :
    Exec ((HeapQueue SimpleTuple × List SimpleTuple) ⊕
      (HeapQueue SimpleTuple × List SimpleTuple)) := do
  let (queue, facts) := s
  if queue.empty then
    return .inr (queue, facts)
  else
    let prio ← queue.minValue
    -- the conversion to `size_t`
    if (limit : ℤ) < prio.intPriority % 2 ^ 64 then
      return .inr (queue, facts)
    else
      let (queue, stpl) ← queue.pop
      return .inl (queue, facts ++ [stpl])

/-- `get_tuples_until_timestamp`. -/
def SimNode.getTuplesUntilTimestamp {δ : Type} (n : SimNode δ) (limit : ℕ) :
    Exec (SimNode δ × List SimpleTuple) := do
  let (tuples, facts) ← iterate (popUntilStep limit) (n.tuplePqueue.heap.length + 1)
    (n.tuplePqueue, [])
  let (rtuples, rfacts) ← iterate (popUntilStep limit) (n.rtuplePqueue.heap.length + 1)
    (n.rtuplePqueue, [])
  return ({ n with tuplePqueue := tuples, rtuplePqueue := rtuples }, facts ++ rfacts)

/-! ### The state of a thread -/

/-- The program around `vm::state`: the nodes and everything else. -/
structure Env (δ ω : Type) where
  nodes : ℕ → SimNode δ
  world : ω

/-- What `vm::state` holds besides the rule queue and `rules`, and the program around it. -/
structure Run (δ ω : Type) where
  env : Env δ ω
  predicates : ℕ → Bool
  localTuples : List SimpleTuple
  generatedTuples : List SimpleTuple
  generatedPersistentTuples : List SimpleTuple
  generatedOtherLevel : List SimpleTuple
  leavesForDeletion : List (Predicate × ℕ)
  currentLevel : ℕ
  tuple : Option Tuple
  count : ℤ
  useLocalTuples : Bool
  persistentOnly : Bool
  simInstrUse : Bool
  simInstrCounter : ℕ
  simInstrLimit : ℕ

/-- What `run_node` calls: the byte-code of rules and predicates, the actions, the scheduler, and
the node's database. -/
structure Ops (δ ω : Type) where
  executeRule : ℕ → ℕ → Run δ ω → Exec (Run δ ω)
  /-- `do_execute` of the byte-code of a predicate -/
  doExecute : ℕ → Predicate → Run δ ω → Exec (Run δ ω)
  runAction : ℕ → Tuple → Env δ ω → Exec (Env δ ω)
  /-- `gather_next_tuples`, with the limit of instructions if there is one -/
  gatherNextTuples : ℕ → Option ℕ → Env δ ω → Exec (Env δ ω × List SimpleTuple)
  routeSelf : ℕ → SimpleTuple → Env δ ω → Exec (Env δ ω)
  addTuple : Tuple → ℤ → δ → Exec (δ × Bool)
  /-- `delete_tuple`, with the leaf that is to be deleted -/
  deleteTuple : Tuple → ℤ → δ → Exec (δ × Option ℕ)
  deleteByLeaf : Predicate → ℕ → δ → Exec δ
  /-- `add_agg_tuple` and `generate` -/
  addAggTuple : Tuple → ℤ → δ → Exec (δ × List SimpleTuple)
  /-- `current_level` of a run without facts, which is not initialised -/
  noLevel : ℕ

section

variable {δ ω : Type} (ops : Ops δ ω) (node : ℕ)

namespace Run

/-- A node of the program. -/
def getNode (r : Run δ ω) : SimNode δ := r.env.nodes node

def setEnv (r : Run δ ω) (env : Env δ ω) : Run δ ω := { r with env := env }

/-- The run with the node changed. -/
def setNode (r : Run δ ω) (n : SimNode δ) : Run δ ω :=
  r.setEnv { r.env with nodes := Function.update r.env.nodes node n }

/-- The run with another matcher of the node. -/
def setMatcher (r : Run δ ω) (m : NodeMatcher) : Run δ ω :=
  r.setNode node { r.getNode node with matcher := m }

/-- The run with another database of the node. -/
def setDatabase (r : Run δ ω) (d : δ) : Run δ ω :=
  r.setNode node { r.getNode node with database := d }

/-- `snode->pending.push`. -/
def pushPending (r : Run δ ω) (stpl : SimpleTuple) : Run δ ω :=
  r.setNode node { r.getNode node with pending := (r.getNode node).pending ++ [stpl] }

/-- `mark_predicate_to_run`. -/
def markPredicateToRun (r : Run δ ω) (pred : Predicate) : Run δ ω :=
  { r with predicates := Function.update r.predicates pred.id true }

/-- `start_matching`. -/
def startMatching (r : Run δ ω) : Run δ ω := { r with predicates := fun _ => false }

/-- `check_instruction_limit`. -/
def checkInstructionLimit (r : Run δ ω) : Bool :=
  r.simInstrUse && decide (r.simInstrLimit ≤ r.simInstrCounter)

/-- `setup`, and the two flags that are set after it. -/
def setup (r : Run δ ω) (tpl : Option Tuple) (count : ℤ) (useLocalTuples persistentOnly : Bool) :
    Run δ ω :=
  { r with
    tuple := tpl
    count := count
    useLocalTuples := useLocalTuples
    persistentOnly := persistentOnly }

def setLocalTuples (r : Run δ ω) (facts : List SimpleTuple) : Run δ ω :=
  { r with localTuples := facts }

def setGeneratedPersistentTuples (r : Run δ ω) (facts : List SimpleTuple) : Run δ ω :=
  { r with generatedPersistentTuples := facts }

/-- `mark_rules_using_local_tuples` on the facts that are left: the facts that it keeps. -/
def markRulesUsingLocalTuples :
    List SimpleTuple → Run δ ω → Exec (Run δ ω × List SimpleTuple)
  | [], r => pure (r, [])
  | stpl :: facts, r => do
    if !stpl.canBeConsumed then
      markRulesUsingLocalTuples facts r
    else if stpl.tpl.pred.isAction then
      markRulesUsingLocalTuples facts (r.setEnv (← ops.runAction node stpl.tpl r.env))
    else if stpl.tpl.pred.isPersistent || stpl.tpl.pred.isReused then
      markRulesUsingLocalTuples facts
        (r.setGeneratedPersistentTuples (r.generatedPersistentTuples ++ [stpl]))
    else
      let m := (r.getNode node).matcher.registerTuple stpl.tpl stpl.count true
      let r := (r.setMatcher node m).markPredicateToRun stpl.tpl.pred
      let (r, kept) ← markRulesUsingLocalTuples facts r
      return (r, stpl :: kept)

/-- `process_consumed_local_tuples` on the facts that are left: the facts that it keeps. -/
def processConsumedLocalTuples :
    List SimpleTuple → Run δ ω → Exec (Run δ ω × List SimpleTuple)
  | [], r => pure (r, [])
  | stpl :: facts, r => do
    if !stpl.canBeConsumed then
      let m ← (r.getNode node).matcher.deregisterTuple stpl.tpl stpl.count
      processConsumedLocalTuples facts (r.setMatcher node m)
    else
      let (r, kept) ← processConsumedLocalTuples facts r
      return (r, stpl :: kept)

/-! ### Persistent facts -/

/-- Whether the fact is the negative one that is searched for. The tuples are compared only if the
rest of the condition holds. -/
def isNegativeOf (p : SimpleTuple → Bool) (tpl : Tuple) (stpl : SimpleTuple) : Exec Bool :=
  if p stpl && stpl.count == -1 then stpl.tpl.same tpl else pure false

/-- The three searches for a negative fact: the other facts if there is one. -/
def searchForNegativeTuple (p : SimpleTuple → Bool) (tpl : Tuple) :
    List SimpleTuple → Exec (Option (List SimpleTuple))
  | [] => pure none
  | stpl :: facts => do
    if ← isNegativeOf p tpl stpl then
      return some facts
    else
      return (← searchForNegativeTuple p tpl facts).map (stpl :: ·)

/-- `search_for_negative_tuple_partial_agg`, `search_for_negative_tuple_full_agg` or
`search_for_negative_tuple_normal`, by the kind of the fact. -/
def searchForNegative (stpl : SimpleTuple) (facts : List SimpleTuple) :
    Exec (Option (List SimpleTuple)) :=
  if stpl.tpl.pred.isPersistent && stpl.count == 1 then
    if stpl.tpl.pred.isAggregate then
      searchForNegativeTuple
        (fun other => other.tpl.pred.isAggregate && other.isFinalAggregate == stpl.isFinalAggregate)
        stpl.tpl facts
    else do
      assert (stpl.isFinalAggregate = false)
      searchForNegativeTuple (fun other => !other.tpl.pred.isAggregate) stpl.tpl facts
  else
    pure none

/-- `execute_bytecode`, which forgets what was generated in the run. -/
def executeBytecode (pred : Predicate) (r : Run δ ω) : Exec (Run δ ω) := do
  let r ← ops.doExecute node pred r
  return { r with generatedTuples := [] }

/-- `process_persistent_tuple`. -/
def processPersistentTuple (stpl : SimpleTuple) (r : Run δ ω) : Exec (Run δ ω) := do
  let tpl := stpl.tpl
  if 0 < stpl.count then
    let (d, isNew) ← ops.addTuple tpl 1 (r.getNode node).database
    let r := r.setDatabase node d
    let r ← if isNew then
        executeBytecode ops node tpl.pred (r.setup (some tpl) stpl.count false true)
      else pure r
    let r := r.setMatcher node ((r.getNode node).matcher.registerTuple tpl stpl.count isNew)
    return if isNew then r.markPredicateToRun tpl.pred else r
  else if tpl.pred.isReused then
    executeBytecode ops node tpl.pred (r.setup (some tpl) stpl.count false true)
  else
    let (d, deleter) ← ops.deleteTuple tpl (-stpl.count) (r.getNode node).database
    let r := r.setDatabase node d
    let r := r.setMatcher node (← (r.getNode node).matcher.deregisterTuple tpl stpl.count)
    match deleter with
    | some leaf =>
      let r ← executeBytecode ops node tpl.pred (r.setup (some tpl) stpl.count false true)
      return r.setDatabase node (← ops.deleteByLeaf tpl.pred leaf (r.getNode node).database)
    | none => return r

/-- `add_to_aggregate`. -/
def addToAggregate (stpl : SimpleTuple) (r : Run δ ω) : Exec (Run δ ω) := do
  let (d, facts) ← ops.addAggTuple stpl.tpl stpl.count (r.getNode node).database
  let facts := facts.map fun fact => { fact with isFinalAggregate := true }
  return (r.setDatabase node d).setGeneratedPersistentTuples
    (r.generatedPersistentTuples ++ facts)

/-- The deletions at the end of `do_persistent_tuples`. -/
def deleteLeaves (r : Run δ ω) : Exec (Run δ ω) := do
  let d ← r.leavesForDeletion.foldlM (fun d leaf => ops.deleteByLeaf leaf.1 leaf.2 d)
    (r.getNode node).database
  return { r.setDatabase node d with leavesForDeletion := [] }

/-- The body of the loop of `do_persistent_tuples`, which ends with what it returns. -/
def persistentStep (r : Run δ ω) : Exec (Run δ ω ⊕ (Run δ ω × Bool)) := do
  match r.generatedPersistentTuples with
  | [] => return .inr (← r.deleteLeaves ops node, true)
  | stpl :: facts =>
    if r.checkInstructionLimit then
      return .inr (r, false)
    else
      match ← searchForNegative stpl facts with
      | some facts => return .inl (r.setGeneratedPersistentTuples facts)
      | none =>
        let r := r.setGeneratedPersistentTuples facts
        if stpl.forAssertion then
          return .inl (← processPersistentTuple ops node stpl r)
        else
          return .inl (← addToAggregate ops node stpl r)

/-! ### The parts of `run_node` -/

/-- The beginning of `run_node`. -/
def begin (r : Run δ ω) : Exec (Run δ ω) := do
  assert (r.localTuples = [])
  let (env, facts) ← ops.gatherNextTuples node (if r.simInstrUse then r.simInstrLimit else none)
    r.env
  let (r, kept) ← markRulesUsingLocalTuples ops node facts (r.setEnv env).startMatching
  return { r with
    localTuples := kept
    currentLevel := (facts.head?.map SimpleTuple.stratLevel).getD ops.noLevel }

/-- A round of the loop of `run_node` after the rule has been taken out of the queue, up to
`do_persistent_tuples`. -/
def runRule (rule : ℕ) (r : Run δ ω) : Exec (Run δ ω) := do
  let r := (r.setMatcher node (r.getNode node).matcher.clearDroppedRules).startMatching
  let r ← ops.executeRule node rule (r.setup none 1 true false)
  let (r, kept) ← processConsumedLocalTuples node r.localTuples r
  let (r, fresh) ← if r.simInstrUse && !r.checkInstructionLimit then do
      let (n, facts) ← (r.getNode node).getTuplesUntilTimestamp r.simInstrLimit
      pure (r.setNode node n, facts)
    else pure (r, [])
  return { r with localTuples := kept ++ fresh ++ r.generatedTuples, generatedTuples := [] }

/-- A fact that remains at the end of `run_node` goes into the queue of the node if the run was
aborted, and into its database otherwise. -/
def keepTuple (aborted : Bool) (r : Run δ ω) (stpl : SimpleTuple) : Exec (Run δ ω) :=
  if stpl.canBeConsumed then
    if aborted then
      pure (r.pushPending node stpl)
    else do
      let (d, _) ← ops.addTuple stpl.tpl 1 (r.getNode node).database
      return r.setDatabase node d
  else
    pure r

/-- `process_others`. -/
def processOthers (r : Run δ ω) : Exec (Run δ ω) := do
  let env ← r.generatedOtherLevel.foldlM (fun env stpl => ops.routeSelf node stpl env) r.env
  return { r.setEnv env with generatedOtherLevel := [] }

/-- The end of `run_node`. -/
def finish (aborted : Bool) (r : Run δ ω) : Exec (Run δ ω) := do
  let r ← r.localTuples.foldlM (keepTuple ops node aborted) r
  let r ← processOthers ops node (r.setLocalTuples [])
  assert (r.generatedPersistentTuples = [] ∨ aborted = true)
  let r := r.generatedPersistentTuples.foldl (fun r stpl => r.pushPending node stpl) r
  return { r.setGeneratedPersistentTuples [] with
    simInstrCounter := r.simInstrCounter +
      if r.simInstrUse && decide (r.simInstrCounter < r.simInstrLimit) then 1 else 0 }

end Run

end

/-! ### The rule queue -/

/-- Where a thread is: between two calls of `run_node`, in `do_persistent_tuples`, or at the head of
the loop of `run_node`. -/
inductive RunPc
  | outside
  | persistent (node : ℕ)
  | loop (node : ℕ)
  deriving DecidableEq, Repr

/-- `vm::state`. -/
structure VmState (δ ω : Type) where
  pc : RunPc
  rules : ℕ → Bool
  ruleQueue : HeapQueue ℕ
  run : Run δ ω

namespace VmState

variable {δ ω : Type} (prog : Program) (ops : Ops δ ω)

/-- The priority of a rule in the queue. -/
def prio (rid : ℕ) : HeapPriority := .ofInt (UInt32.ofNat rid)

/-- `check_if_rule_predicate_activated`. -/
def checkIfRulePredicateActivated (predicates : ℕ → Bool) (rid : ℕ) : Bool :=
  (prog.getRule rid).predicates.any predicates

/-- The body of the first loop of `mark_active_rules`. -/
def markRule (s : VmState δ ω) (rid : ℕ) : Exec (VmState δ ω) :=
  if !s.rules rid && checkIfRulePredicateActivated prog s.run.predicates rid then do
    let q ← s.ruleQueue.insert rid (prio rid)
    return { s with rules := Function.update s.rules rid true, ruleQueue := q }
  else
    pure s

/-- The body of the second loop of `mark_active_rules`. -/
def unmarkRule (s : VmState δ ω) (rid : ℕ) : Exec (VmState δ ω) :=
  if s.rules rid then do
    let q ← s.ruleQueue.remove rid (prio rid)
    return { s with rules := Function.update s.rules rid false, ruleQueue := q }
  else
    pure s

/-- `mark_active_rules`. -/
def markActiveRules (s : VmState δ ω) (node : ℕ) : Exec (VmState δ ω) := do
  let m := (s.run.getNode node).matcher.matcher
  let s ← (m.activeRules.sort (· ≤ ·)).foldlM (markRule prog) s
  (m.droppedRules.sort (· ≤ ·)).foldlM unmarkRule s

/-- The end of a call of `run_node`. -/
def leave (s : VmState δ ω) (node : ℕ) (aborted : Bool) : Exec (VmState δ ω) := do
  let run ← s.run.finish ops node aborted
  return { s with pc := .outside, ruleQueue := s.ruleQueue.clear, run := run }

/-- A call of `run_node` on the node. -/
def enter (s : VmState δ ω) (node : ℕ) : Exec (VmState δ ω) := do
  let run ← s.run.begin ops node
  return { s with pc := .persistent node, run := run }

/-- The thread after a change of the program around it, which also sets the limit of instructions. -/
def around (s : VmState δ ω) (env : Env δ ω) (simInstrUse : Bool)
    (simInstrCounter simInstrLimit : ℕ) : VmState δ ω :=
  { s with run :=
    { s.run with
      env := env
      simInstrUse := simInstrUse
      simInstrCounter := simInstrCounter
      simInstrLimit := simInstrLimit } }

/-- The next step of a call of `run_node`. -/
def next (s : VmState δ ω) : Exec (VmState δ ω) :=
  match s.pc with
  | .outside => pure s
  | .persistent node => do
    match ← s.run.persistentStep ops node with
    | .inl run => return { s with run := run }
    | .inr (run, true) => return { ← markActiveRules prog { s with run := run } node with
        pc := .loop node }
    | .inr (run, false) => leave ops { s with run := run } node true
  | .loop node =>
    if s.ruleQueue.empty || s.run.checkInstructionLimit then
      leave ops s node false
    else do
      let (q, rule) ← s.ruleQueue.pop
      let run ← s.run.runRule ops node rule
      return { s with
        pc := .persistent node
        rules := Function.update s.rules rule false
        ruleQueue := q
        run := run }

/-- The constructor, in a program around it. -/
def new (env : Env δ ω) : VmState δ ω where
  pc := .outside
  rules _ := false
  ruleQueue := .new .intAsc
  run := ⟨env, fun _ => false, [], [], [], [], [], 0, none, 0, false, false, false, 0, 0⟩

end VmState

/-- The calls of `run_node` that a thread makes, on any nodes; between them the program around the
thread may change as it likes. -/
def runNode {δ ω : Type} (prog : Program) (ops : Ops δ ω) : System (VmState δ ω) where
  init s := ∃ env, s = .new env
  step s s' := (s.pc = .outside ∧ ∃ env use counter limit node,
      (s.around env use counter limit).enter ops node = .ok s') ∨
    (s.pc ≠ .outside ∧ s.next prog ops = .ok s')

end Meld.Vm
