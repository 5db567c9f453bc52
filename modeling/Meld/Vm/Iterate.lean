import Meld.Lib.Act

/-!
# Iterating over linear facts

The body of a rule is a nest of `ITER` instructions. Each binds a fact, from the database, from the
queue of the scheduler or from the local facts, and runs its body for it. A linear fact may be used
once, so that a fact of the queue or of the local facts is marked while a body uses it. A plain
iteration marks every linear fact; one with the `min` option, which goes through all facts in the
order of a field, only if the option to delete is set as well.

Facts and leaves are addresses. What a run does besides is a parameter: the matching, and the other
instructions, which change neither the marks nor the local facts.
-/

namespace Meld.Vm.Iterate

open Lib

/-! ### Rules and states -/

/-- `return_type`. -/
inductive ReturnType
  | ok | select | next | linear | derived | endLinear | noReturn
  deriving DecidableEq, Repr

/-- The operands of an `ITER` instruction. -/
structure Iter where
  pred : ℕ
  options : ℕ
  optionsArgument : ℕ
  deriving DecidableEq, Repr

namespace Iter

variable (it : Iter)

/-- `iter_options_random`: `0x01`. -/
def random : Bool := it.options.testBit 0

/-- `iter_options_to_delete`: `0x02`. -/
def toDelete : Bool := it.options.testBit 1

/-- `iter_options_min`: `0x04`. -/
def min : Bool := it.options.testBit 2

end Iter

/-- `iter_object`. -/
inductive IterObject
  | db (leaf : ℕ)
  | queue (stpl : ℕ)
  | local (stpl : ℕ)
  deriving DecidableEq, Repr

/-- What is recorded when the straight code at the end of a nest runs: the active iterations with
what they bind, the innermost first, and the marked facts. -/
structure Moment where
  bound : List (Iter × IterObject)
  toDelete : ℕ → Bool

/-- `state`, as far as iterations use it. -/
structure State (σ : Type) where
  /-- registers, stack, database, queue: all that the other instructions use -/
  env : σ
  /-- the mark `to_delete` of the facts -/
  toDelete : ℕ → Bool
  /-- the mark `generated_this_run` of the facts -/
  generatedThisRun : ℕ → Bool
  usedLinearTuples : List (ℕ × ℤ)
  isLinear : Bool
  /-- the active iterations; `tuple`, `tuple_leaf` and `tuple_queue` are those of the first -/
  bound : List (Iter × IterObject)
  moments : List Moment

namespace State

variable {σ : Type} (s : State σ)

/-- `tuple`, `tuple_leaf` and `tuple_queue`. -/
def tuple : Option IterObject := s.bound.head?.map (·.2)

/-- `can_be_consumed`. -/
def canBeConsumed (stpl : ℕ) : Bool := !s.toDelete stpl && !s.generatedThisRun stpl

/-- A fact is marked, or not any more. -/
def mark (stpl : ℕ) (mark : Bool) : State σ :=
  { s with toDelete := Function.update s.toDelete stpl mark }

/-- The state in which a body runs. -/
def push (thisIsLinear : Bool) (it : Iter) (o : IterObject) : State σ :=
  { s with bound := (it, o) :: s.bound, isLinear := thisIsLinear || s.isLinear }

/-- The state after a body, which began in another one. -/
def pop (old : State σ) : State σ := { s with bound := old.bound, isLinear := old.isLinear }

end State

/-- The program, the node and the other instructions. -/
structure Machine (σ : Type) where
  isLinearPred : ℕ → Bool
  /-- `persistent_only` -/
  persistentOnly : Bool
  /-- `use_local_tuples` -/
  useLocalTuples : Bool
  /-- the predicate of a fact -/
  predicate : ℕ → ℕ
  /-- `local_tuples` -/
  localTuples : List ℕ
  /-- the facts in the queue of the node -/
  queue : σ → List ℕ
  /-- `do_matches`, for a fact -/
  doMatches : Iter → Option IterObject → σ → ℕ → Bool
  /-- `match_predicate` -/
  matchPredicate : Iter → Option IterObject → σ → List ℕ
  /-- `get_count` of a leaf -/
  getCount : σ → ℕ → ℤ
  /-- `sort`, by a field -/
  sort : ℕ → List IterObject → List IterObject
  sort_perm : ∀ field l, (sort field l).Perm l
  /-- `shuffle_vector`, which draws from `randgen` -/
  shuffleVector : List ℕ → σ → List ℕ × σ
  shuffle_perm : ∀ l env, (shuffleVector l env).1.Perm l

/-- The code of a rule, as far as iterations are concerned. -/
inductive Code (σ : Type)
  /-- straight code up to its return instruction -/
  | last (run : Option IterObject → σ → σ × ReturnType)
  /-- an instruction that changes registers, sends, or removes -/
  | instr (run : Option IterObject → σ → σ) (next : Code σ)
  /-- `IF` -/
  | cond (test : Option IterObject → σ → Bool) (next jump : Code σ)
  /-- `RESET_LINEAR` -/
  | resetLinear (first jump : Code σ)
  /-- `ITER` -/
  | iter (it : Iter) (first jump : Code σ)

/-! ### Execution -/

variable {σ : Type}

/-- `linear_tuple_can_be_used`. -/
def linearTupleCanBeUsed (leaf : ℕ) : List (ℕ × ℤ) → Bool
  | [] => true
  | p :: used => if p.1 = leaf then decide (0 < p.2) else linearTupleCanBeUsed leaf used

/-- The count of a leaf that was used before. -/
def updateUsed (leaf : ℕ) (f : ℤ → ℤ) : List (ℕ × ℤ) → List (ℕ × ℤ)
  | [] => []
  | p :: used => if p.1 = leaf then (p.1, f p.2) :: used else p :: updateUsed leaf f used

/-- `using_new_linear_tuple`. -/
def usingNewLinearTuple (M : Machine σ) (leaf : ℕ) : Act (State σ) Unit := do
  let s ← Act.get
  match s.usedLinearTuples.find? (·.1 = leaf) with
  | some p =>
    Act.assert (0 < p.2)
    Act.modify fun s =>
      { s with usedLinearTuples := updateUsed leaf (· - 1) s.usedLinearTuples }
  | none =>
    -- first time, get the count
    Act.modify fun s => { s with
      usedLinearTuples := (leaf, wrap16 (M.getCount s.env leaf - 1)) :: s.usedLinearTuples }

/-- `no_longer_using_linear_tuple`. -/
def noLongerUsingLinearTuple (leaf : ℕ) : Act (State σ) Unit := do
  let s ← Act.get
  Act.assert ((s.usedLinearTuples.find? (·.1 = leaf)).isSome)
  Act.modify fun s =>
    { s with usedLinearTuples := updateUsed leaf (fun n => wrap16 (n + 1)) s.usedLinearTuples }

/-- `will_delete` and `will_not_delete`. -/
def setToDelete (stpl : ℕ) (mark : Bool) : Act (State σ) Unit :=
  Act.modify fun s => s.mark stpl mark

/-- `PUSH_CURRENT_STATE`. -/
def pushCurrentState (thisIsLinear : Bool) (it : Iter) (o : IterObject) : Act (State σ) Unit :=
  Act.modify fun s => s.push thisIsLinear it o

/-- `POP_STATE`. -/
def popState (old : State σ) : Act (State σ) Unit := Act.modify fun s => s.pop old

/-- Whether an iteration returns after one of its bodies did. -/
def iterReturn (ret : ReturnType) (isLinear : Bool) : Option ReturnType :=
  if ret = .linear then some ret
  else if ret = .derived ∧ isLinear then some ret
  else none

/-- The fact was not consumed. -/
def notConsumed (ret : ReturnType) : Bool := decide (ret ≠ .linear ∧ ret ≠ .derived)

/-- `this_is_linear`. -/
def Machine.thisIsLinear (M : Machine σ) (it : Iter) : Bool :=
  M.isLinearPred it.pred && !M.persistentOnly

section ExecuteIter

variable (M : Machine σ) (it : Iter) (body : Act (State σ) ReturnType)

/-- The body for a fact of the database. -/
def runLeaf (leaf : ℕ) : Act (State σ) (Option ReturnType) := do
  let old ← Act.get
  if M.thisIsLinear it && !linearTupleCanBeUsed leaf old.usedLinearTuples then return none
  Act.when (M.thisIsLinear it) (usingNewLinearTuple M leaf)
  pushCurrentState (M.thisIsLinear it) it (.db leaf)
  let ret ← body
  popState old
  Act.when (notConsumed ret && M.thisIsLinear it) (noLongerUsingLinearTuple leaf)
  return iterReturn ret old.isLinear

/-- The body for a fact of the queue or of the local facts. It is marked before the body if `mark`,
and not marked any more after it if it was not consumed and `revert`, or if `release`. -/
def runTuple (o : IterObject) (stpl : ℕ) (mark revert release : Bool) :
    Act (State σ) (Option ReturnType) := do
  let old ← Act.get
  pushCurrentState (M.thisIsLinear it) it o
  Act.when mark (setToDelete stpl true)
  let ret ← body
  popState old
  Act.when (notConsumed ret && revert) (setToDelete stpl false)
  Act.when release (setToDelete stpl false)
  return iterReturn ret old.isLinear

/-- One round of the ordered path. -/
def orderedRound (o : IterObject) : Act (State σ) (Option ReturnType) := do
  match o with
  | .db leaf => runLeaf M it body leaf
  | .queue stpl | .local stpl =>
    if !(← Act.get).canBeConsumed stpl then return none
    runTuple M it body o stpl it.toDelete true false

/-- One round of the plain path, for a fact of the queue or of the local facts. -/
def plainRound (o : IterObject) (stpl : ℕ) : Act (State σ) (Option ReturnType) := do
  let s ← Act.get
  if !s.canBeConsumed stpl then return none
  if !M.doMatches it s.tuple s.env stpl then return none
  let mark := it.toDelete || M.thisIsLinear it
  Act.when mark (Act.assert (M.thisIsLinear it))
  runTuple M it body o stpl mark mark (!it.toDelete && M.thisIsLinear it)

/-- One round of the plain path, for a local fact. -/
def localRound (stpl : ℕ) : Act (State σ) (Option ReturnType) :=
  if M.predicate stpl ≠ it.pred then pure none else plainRound M it body (.local stpl) stpl

/-- `gather_active_tuples`. -/
def gatherActiveTuples (s : State σ) : List ℕ :=
  (M.queue s.env).filter fun stpl => s.canBeConsumed stpl && M.predicate stpl = it.pred

/-- The facts that the ordered path goes through, before they are sorted. -/
def everything (tuples : List ℕ) (s : State σ) : List IterObject :=
  ((gatherActiveTuples M it s).filter (M.doMatches it s.tuple s.env)).map .queue ++
    (if M.useLocalTuples then
      (M.localTuples.filter fun stpl => M.predicate stpl = it.pred && s.canBeConsumed stpl &&
        M.doMatches it s.tuple s.env stpl).map .local
    else []) ++
    tuples.map .db

/-- The ordered path of `execute_iter`. -/
def executeOrdered (tuples : List ℕ) : Act (State σ) ReturnType := do
  let objects := M.sort it.optionsArgument (everything M it tuples (← Act.get))
  return (← Act.forEach (orderedRound M it body) objects).getD .noReturn

/-- `shuffle_vector`. -/
def shuffle (l : List ℕ) : Act (State σ) (List ℕ) := do
  let (l, env) := M.shuffleVector l (← Act.get).env
  Act.modify fun s => { s with env := env }
  return l

/-- The facts of the queue, shuffled if the option says so. -/
def activeTuples : Act (State σ) (List ℕ) := do
  let s ← Act.get
  if it.random then shuffle M (gatherActiveTuples M it s) else return gatherActiveTuples M it s

/-- The tuples from the current queue. -/
def executeQueue : Act (State σ) (Option ReturnType) :=
  if M.thisIsLinear it then do
    Act.assert (M.persistentOnly = false)
    Act.forEach (fun stpl => plainRound M it body (.queue stpl) stpl) (← activeTuples M it)
  else pure none

/-- The current set of tuples. -/
def executeLocal : Act (State σ) (Option ReturnType) :=
  if !M.persistentOnly then Act.forEach (localRound M it body) M.localTuples else pure none

/-- The plain path of `execute_iter`. -/
def executePlain (tuples : List ℕ) : Act (State σ) ReturnType := do
  match ← Act.forEach (runLeaf M it body) tuples with
  | some ret => return ret
  | none =>
    match ← executeQueue M it body with
    | some ret => return ret
    | none => return (← executeLocal M it body).getD .noReturn

def executeIter (tuples : List ℕ) : Act (State σ) ReturnType := do
  if M.persistentOnly then executePlain M it body tuples
  else if it.random then executePlain M it body (← shuffle M tuples)
  else if it.min then executeOrdered M it body tuples
  else executePlain M it body tuples

end ExecuteIter

/-- `execute`. -/
def execute (M : Machine σ) : Code σ → Act (State σ) ReturnType
  | .last run => do
    let s ← Act.get
    let (env, ret) := run s.tuple s.env
    Act.modify fun s => { s with env := env, moments := s.moments ++ [⟨s.bound, s.toDelete⟩] }
    return ret
  | .instr run next => do
    Act.modify fun s => { s with env := run s.tuple s.env }
    execute M next
  | .cond test next jump => do
    let s ← Act.get
    if test s.tuple s.env then execute M next else execute M jump
  | .resetLinear first jump => do
    let old ← Act.get
    Act.modify fun s => { s with isLinear := false }
    let ret ← execute M first
    Act.assert (ret = .endLinear)
    Act.modify fun s => { s with isLinear := old.isLinear }
    execute M jump
  | .iter it first jump => do
    let s ← Act.get
    let ret ← executeIter M it (execute M first) (M.matchPredicate it s.tuple s.env)
    if ret = .linear then return ret
    if (← Act.get).isLinear ∧ ret = .derived then return ret
    execute M jump

/-! ### What an iteration changes -/

theorem State.mark_mark (s : State σ) (stpl : ℕ) (mark mark' : Bool) :
    (s.mark stpl mark).mark stpl mark' = s.mark stpl mark' := by
  simp only [State.mark, Function.update_idem]

/-- A fact's body runs in the state with the fact bound, and marked. -/
theorem runTuple_apply (M : Machine σ) (it : Iter) (body : Act (State σ) ReturnType)
    (o : IterObject) (stpl : ℕ) (mark revert release : Bool) (s : State σ) :
    runTuple M it body o stpl mark revert release s =
      match body (if mark then (s.push (M.thisIsLinear it) it o).mark stpl true
        else s.push (M.thisIsLinear it) it o) with
      | (.ok ret, t) => (.ok (iterReturn ret s.isLinear),
          if notConsumed ret && revert || release then (t.pop s).mark stpl false
          else t.pop s)
      | (.error e, t) => (.error e, t) := by
  have hmark : Act.when mark (setToDelete stpl true) (s.push (M.thisIsLinear it) it o) =
      (.ok (), if mark then (s.push (M.thisIsLinear it) it o).mark stpl true
        else s.push (M.thisIsLinear it) it o) := by
    cases mark <;> rfl
  refine (Act.bind_of_ok rfl).trans ((Act.bind_of_ok rfl).trans ((Act.bind_of_ok hmark).trans ?_))
  rcases h : body (if mark then (s.push (M.thisIsLinear it) it o).mark stpl true
        else s.push (M.thisIsLinear it) it o) with ⟨_ | ret, t⟩
  · exact Act.bind_of_error h
  · refine (Act.bind_of_ok h).trans ((Act.bind_of_ok rfl).trans ?_)
    cases hr : notConsumed ret && revert <;> cases release <;> simp only [hr]
    · rfl
    · rfl
    · rfl
    · exact congrArg (Prod.mk _) (State.mark_mark (t.pop s) stpl false false)

end Meld.Vm.Iterate
