import Meld.Vm.Iterate

/-!
# The uses of stored facts

A leaf of the database may hold several copies of a linear fact. The state records for each leaf
that an iteration has bound how many copies are free: `using_new_linear_tuple` takes one, and
`no_longer_using_linear_tuple` gives it back when the body did not consume it.

`executeNoted` is `execute` with a ledger beside the state, which is written and never read: the
count of each leaf when it was first used, the bindings whose bodies consumed a copy, and an entry
for each event, with the books as they stood. `execute_noted` says that the ledger changes nothing.
-/

namespace Meld.Vm.Iterate

open Lib

variable {σ : Type}

/-! ### The ledger -/

/-- The free copies that are recorded for a leaf. -/
def record (leaf : ℕ) (used : List (ℕ × ℤ)) : Option ℤ := (used.find? (·.1 = leaf)).map (·.2)

/-- What there is to account for: the free copies, the active iterations, the counts of the leaves
when they were first used, and the finished bindings whose bodies consumed a copy. -/
structure Books where
  used : List (ℕ × ℤ)
  bound : List (Iter × IterObject)
  first : ℕ → Option ℤ
  consumed : ℕ → ℕ

/-- What happens to a leaf. -/
inductive Event
  /-- an iteration asks for a leaf with some free copies, and may be refused -/
  | asked (leaf : ℕ) (free : ℤ) (refused : Bool)
  /-- a body begins -/
  | began (leaf : ℕ)
  /-- a body has returned: the free copies before and after the binding, the bindings within whose
  bodies consumed a copy, and whether the body has no `RESET_LINEAR` -/
  | ended (leaf : ℕ) (before after : ℤ) (within : ℕ) (noReset : Bool) (ret : ReturnType)
  /-- an assertion of the accounting failed -/
  | failed
  deriving DecidableEq

/-- An event, and the books after it. -/
structure Entry where
  event : Event
  books : Books

/-- The ledger of a run. -/
structure Ledger where
  first : ℕ → Option ℤ
  consumed : ℕ → ℕ
  entries : List Entry

/-- A ledger in which nothing is written. -/
def Ledger.empty : Ledger := ⟨fun _ => none, fun _ => 0, []⟩

/-- A state with a ledger. -/
abbrev Noted (σ : Type) := State (σ × Ledger)

namespace State

variable (s : Noted σ)

/-- The ledger. -/
def ledger : Ledger := s.env.2

/-- The books as they stand. -/
def books : Books := ⟨s.usedLinearTuples, s.bound, s.ledger.first, s.ledger.consumed⟩

/-- The state without the ledger. -/
def erase : State σ where
  env := s.env.1
  toDelete := s.toDelete
  generatedThisRun := s.generatedThisRun
  usedLinearTuples := s.usedLinearTuples
  isLinear := s.isLinear
  bound := s.bound
  moments := s.moments

/-- An entry in the ledger. -/
def note (event : Event) : Noted σ :=
  { s with env := (s.env.1, { s.ledger with
    entries := s.ledger.entries ++ [⟨event, s.books⟩] }) }

/-- The count of a leaf is written down when it is first used. -/
def noteFirst (M : Machine σ) (leaf : ℕ) : Noted σ :=
  { s with env := (s.env.1, { s.ledger with
    first := Function.update s.ledger.first leaf
      (s.ledger.first leaf <|> some (M.getCount s.env.1 leaf)) }) }

/-- A binding whose body consumed a copy. -/
def noteConsumed (leaf : ℕ) : Noted σ :=
  { s with env := (s.env.1, { s.ledger with
    consumed := Function.update s.ledger.consumed leaf (s.ledger.consumed leaf + 1) }) }

/-- The free copies of a leaf: those that are recorded, and all before it was first used. -/
def free (M : Machine σ) (leaf : ℕ) : ℤ :=
  (record leaf s.usedLinearTuples).getD (M.getCount s.env.1 leaf)

end State

/-- The machine beside a ledger. -/
def Machine.noted (M : Machine σ) : Machine (σ × Ledger) where
  isLinearPred := M.isLinearPred
  persistentOnly := M.persistentOnly
  useLocalTuples := M.useLocalTuples
  predicate := M.predicate
  localTuples := M.localTuples
  queue env := M.queue env.1
  doMatches it o env := M.doMatches it o env.1
  matchPredicate it o env := M.matchPredicate it o env.1
  getCount env := M.getCount env.1
  sort := M.sort
  sort_perm := M.sort_perm
  shuffleVector l env := ((M.shuffleVector l env.1).1, ((M.shuffleVector l env.1).2, env.2))
  shuffle_perm l env := M.shuffle_perm l env.1

/-- Some code has no `RESET_LINEAR`. -/
def Code.noReset : Code σ → Bool
  | .last _ => true
  | .instr _ next => next.noReset
  | .cond _ next jump => next.noReset && jump.noReset
  | .resetLinear _ _ => false
  | .iter _ first jump => first.noReset && jump.noReset

/-! ### Execution with a ledger -/

/-- An entry in the ledger. -/
def note (event : Event) : Act (Noted σ) Unit := Act.modify (·.note event)

/-- A step of the accounting, whose assertion may fail. -/
def watch (m : Act (Noted σ) Unit) : Act (Noted σ) Unit := fun s =>
  match m s with
  | (.ok _, t) => (.ok (), t)
  | (.error e, t) => (.error e, t.note .failed)

section ExecuteIter

variable (M : Machine σ) (it : Iter) (noReset : Bool) (body : Act (Noted σ) ReturnType)

/-- The body for a fact of the database. -/
def runLeafNoted (leaf : ℕ) : Act (Noted σ) (Option ReturnType) := do
  let old ← Act.get
  Act.when (M.thisIsLinear it)
    (note (.asked leaf (old.free M leaf) (!linearTupleCanBeUsed leaf old.usedLinearTuples)))
  if M.thisIsLinear it && !linearTupleCanBeUsed leaf old.usedLinearTuples then return none
  Act.when (M.thisIsLinear it) (Act.modify (·.noteFirst M leaf))
  Act.when (M.thisIsLinear it) (watch (usingNewLinearTuple M.noted leaf))
  pushCurrentState (M.thisIsLinear it) it (.db leaf)
  Act.when (M.thisIsLinear it) (note (.began leaf))
  let ret ← body
  popState old
  Act.when (!notConsumed ret && M.thisIsLinear it) (Act.modify (·.noteConsumed leaf))
  Act.when (notConsumed ret && M.thisIsLinear it) (watch (noLongerUsingLinearTuple leaf))
  let now ← Act.get
  Act.when (M.thisIsLinear it) (note (.ended leaf (old.free M leaf) (now.free M leaf)
    (now.ledger.consumed leaf - old.ledger.consumed leaf) noReset ret))
  return iterReturn ret old.isLinear

/-- One round of the ordered path. -/
def orderedRoundNoted (o : IterObject) : Act (Noted σ) (Option ReturnType) :=
  match o with
  | .db leaf => runLeafNoted M it noReset body leaf
  | .queue stpl => orderedRound M.noted it body (.queue stpl)
  | .local stpl => orderedRound M.noted it body (.local stpl)

/-- The ordered path of `execute_iter`. -/
def executeOrderedNoted (tuples : List ℕ) : Act (Noted σ) ReturnType := do
  let objects := M.sort it.optionsArgument (everything M.noted it tuples (← Act.get))
  return (← Act.forEach (orderedRoundNoted M it noReset body) objects).getD .noReturn

/-- The plain path of `execute_iter`. -/
def executePlainNoted (tuples : List ℕ) : Act (Noted σ) ReturnType := do
  match ← Act.forEach (runLeafNoted M it noReset body) tuples with
  | some ret => return ret
  | none =>
    match ← executeQueue M.noted it body with
    | some ret => return ret
    | none => return (← executeLocal M.noted it body).getD .noReturn

/-- `execute_iter`. -/
def executeIterNoted (tuples : List ℕ) : Act (Noted σ) ReturnType := do
  if M.persistentOnly then executePlainNoted M it noReset body tuples
  else if it.random then executePlainNoted M it noReset body (← shuffle M.noted tuples)
  else if it.min then executeOrderedNoted M it noReset body tuples
  else executePlainNoted M it noReset body tuples

end ExecuteIter

/-- `execute`. -/
def executeNoted (M : Machine σ) : Code σ → Act (Noted σ) ReturnType
  | .last run => do
    let s ← Act.get
    let (env, ret) := run s.tuple s.env.1
    Act.modify fun s =>
      { s with env := (env, s.env.2), moments := s.moments ++ [⟨s.bound, s.toDelete⟩] }
    return ret
  | .instr run next => do
    Act.modify fun s => { s with env := (run s.tuple s.env.1, s.env.2) }
    executeNoted M next
  | .cond test next jump => do
    let s ← Act.get
    if test s.tuple s.env.1 then executeNoted M next else executeNoted M jump
  | .resetLinear first jump => do
    let old ← Act.get
    Act.modify fun s => { s with isLinear := false }
    let ret ← executeNoted M first
    Act.assert (ret = .endLinear)
    Act.modify fun s => { s with isLinear := old.isLinear }
    executeNoted M jump
  | .iter it first jump => do
    let s ← Act.get
    let ret ← executeIterNoted M it first.noReset (executeNoted M first)
      (M.matchPredicate it s.tuple s.env.1)
    if ret = .linear then return ret
    if (← Act.get).isLinear ∧ ret = .derived then return ret
    executeNoted M jump

/-! ### The ledger changes nothing -/

/-- A computation with a ledger is another one when the ledger is left out. -/
def Erases {α : Type} (m : Act (Noted σ) α) (m' : Act (State σ) α) : Prop :=
  ∀ s, m' s.erase = ((m s).1, (m s).2.erase)

namespace Erases

variable {α β : Type} {m : Act (Noted σ) α} {m' : Act (State σ) α}

protected theorem pure (a : α) : Erases (pure a : Act (Noted σ) α) (pure a) := fun _ => rfl

/-- Two computations that agree up to the notes, one after the other. -/
theorem bind {f : α → Act (Noted σ) β} {f' : α → Act (State σ) β} (h : Erases m m')
    (hf : ∀ a, Erases (f a) (f' a)) : Erases (m >>= f) (m' >>= f') := by
  intro s
  have hs := h s
  rcases hm : m s with ⟨_ | a, t⟩
  · rw [hm] at hs
    rw [Act.bind_of_error hm, Act.bind_of_error hs]
  · rw [hm] at hs
    rw [Act.bind_of_ok hm, Act.bind_of_ok hs]
    exact hf a t

/-- The state is read, once with the notes and once without them. -/
theorem bind_get {f : Noted σ → Act (Noted σ) β} {f' : State σ → Act (State σ) β}
    (hf : ∀ s, Erases (f s) (f' s.erase)) : Erases (Act.get >>= f) (Act.get >>= f') :=
  fun s => hf s s

/-- An update that commutes with the erasure of the notes. -/
theorem modify {g : Noted σ → Noted σ} {g' : State σ → State σ}
    (h : ∀ s, g' s.erase = (g s).erase) : Erases (Act.modify g) (Act.modify g') := fun s => by
  simp only [Act.modify, h s]

protected theorem assert (c : Prop) [Decidable c] :
    Erases (Act.assert c : Act (Noted σ) Unit) (Act.assert c) := fun _ => rfl

/-- A computation that is made under a condition. -/
theorem when {c : Bool} {m : Act (Noted σ) Unit} {m' : Act (State σ) Unit} (h : Erases m m') :
    Erases (Act.when c m) (Act.when c m') := by
  cases c with
  | true => exact h
  | false => exact Erases.pure ()

/-- Both branches agree up to the notes. -/
theorem ite {c : Prop} [Decidable c] {n : Act (Noted σ) α} {n' : Act (State σ) α}
    (h : Erases m m') (hn : Erases n n') : Erases (if c then m else n) (if c then m' else n') := by
  split_ifs
  exacts [h, hn]

/-- A loop over a list whose rounds agree up to the notes. -/
theorem forEach {f : α → Act (Noted σ) (Option β)} {f' : α → Act (State σ) (Option β)}
    (hf : ∀ a, Erases (f a) (f' a)) (l : List α) : Erases (Act.forEach f l) (Act.forEach f' l) := by
  induction l with
  | nil => exact Erases.pure none
  | cons a l ih =>
    refine (hf a).bind fun r => ?_
    cases r with
    | some b => exact Erases.pure (some b)
    | none => exact ih

/-- What is only written into the ledger can be left out. -/
theorem ghost {n : Act (Noted σ) Unit} (hn : Erases n (pure ())) (h : Erases m m') :
    Erases (n >>= fun _ => m) m' := by
  intro s
  have hs := hn s
  rcases hrun : n s with ⟨_ | _, t⟩
  · rw [hrun] at hs
    cases hs
  · rw [hrun] at hs
    have hst : s.erase = t.erase := congrArg Prod.snd hs
    rw [Act.bind_of_ok hrun, hst]
    exact h t

/-- What only notes something is erased. -/
theorem ghost_when {c : Bool} {n : Act (Noted σ) Unit} (hn : Erases n (pure ()))
    (h : Erases m m') : Erases (Act.when c n >>= fun _ => m) m' := by
  cases c with
  | true => exact ghost hn h
  | false => exact ghost (Erases.pure ()) h

protected theorem note (event : Event) : Erases (Iterate.note (σ := σ) event) (pure ()) :=
  fun _ => rfl

protected theorem watch {m : Act (Noted σ) Unit} {m' : Act (State σ) Unit} (h : Erases m m') :
    Erases (Iterate.watch m) m' := by
  intro s
  rw [h s, Iterate.watch]
  split <;> simp_all
  rfl

end Erases

section

variable (M : Machine σ) (it : Iter) {body : Act (Noted σ) ReturnType}
  {body' : Act (State σ) ReturnType}

/-- Marking a leaf notes it, and marks it in both machines. -/
theorem erases_using (leaf : ℕ) :
    Erases (usingNewLinearTuple M.noted leaf) (usingNewLinearTuple M leaf) := by
  refine Erases.bind_get fun s => ?_
  rw [show s.erase.usedLinearTuples = s.usedLinearTuples from rfl]
  cases s.usedLinearTuples.find? (·.1 = leaf) with
  | some p =>
    refine (Erases.assert (0 < p.2)).bind fun _ => ?_
    exact Erases.modify (g := fun s : Noted σ =>
      { s with usedLinearTuples := updateUsed leaf (· - 1) s.usedLinearTuples }) fun _ => rfl
  | none => exact fun _ => rfl

/-- So does taking the mark back. -/
theorem erases_noLonger (leaf : ℕ) :
    Erases (noLongerUsingLinearTuple (σ := σ × Ledger) leaf) (noLongerUsingLinearTuple leaf) := by
  refine Erases.bind_get fun s => ?_
  exact (Erases.assert _).bind fun _ => fun _ => rfl

variable {it} {noReset : Bool} (hbody : Erases body body')

include hbody

/-- A round on a leaf of the database. -/
theorem erases_runLeaf (leaf : ℕ) :
    Erases (runLeafNoted M it noReset body leaf) (runLeaf M it body' leaf) := by
  refine Erases.bind_get fun s => ?_
  refine Erases.ghost_when (.note _) (.ite (.pure none) ?_)
  refine Erases.ghost_when (fun _ => rfl) ?_
  refine Erases.bind (.when (.watch (erases_using M leaf))) fun _ => ?_
  refine Erases.bind (fun _ => rfl) fun _ => ?_
  refine Erases.ghost_when (.note _) (hbody.bind fun ret => ?_)
  refine Erases.bind (fun _ => rfl) fun _ => ?_
  refine Erases.ghost_when (fun _ => rfl) ?_
  refine Erases.bind (.when (.watch (erases_noLonger leaf))) fun _ => ?_
  intro t
  exact Erases.ghost_when (.note _) (.pure _) t

/-- A round on a fact of the queue or a local one. -/
theorem erases_runTuple (o : IterObject) (stpl : ℕ) (mark revert release : Bool) :
    Erases (runTuple M.noted it body o stpl mark revert release)
      (runTuple M it body' o stpl mark revert release) := by
  refine Erases.bind_get fun s => ?_
  refine Erases.bind (fun _ => rfl) fun _ => ?_
  refine Erases.bind (.when fun _ => rfl) fun _ => hbody.bind fun ret => ?_
  refine Erases.bind (fun _ => rfl) fun _ => ?_
  refine Erases.bind (.when fun _ => rfl) fun _ => ?_
  exact Erases.bind (.when fun _ => rfl) fun _ => .pure _

/-- A round of the ordered path. -/
theorem erases_orderedRound (o : IterObject) :
    Erases (orderedRoundNoted M it noReset body o) (orderedRound M it body' o) := by
  have htuple : ∀ o stpl, Erases (do
      if !(← Act.get).canBeConsumed stpl then return none
      runTuple M.noted it body o stpl it.toDelete true false) (do
      if !(← Act.get).canBeConsumed stpl then return none
      runTuple M it body' o stpl it.toDelete true false) := by
    intro o stpl
    refine Erases.bind_get fun s => ?_
    exact .ite (.pure none) (erases_runTuple M hbody o stpl _ _ _)
  cases o with
  | db leaf => exact erases_runLeaf M hbody leaf
  | queue stpl => exact htuple _ stpl
  | «local» stpl => exact htuple _ stpl

/-- A round of the plain path on a fact of the queue or a local fact. -/
theorem erases_plainRound (o : IterObject) (stpl : ℕ) :
    Erases (plainRound M.noted it body o stpl) (plainRound M it body' o stpl) := by
  refine Erases.bind_get fun s => .ite (.pure none) (.ite (.pure none) ?_)
  refine Erases.bind (.when (.assert _)) fun _ => ?_
  exact erases_runTuple M hbody o stpl _ _ _

/-- A round of the plain path on a local fact, which may be one of another predicate. -/
theorem erases_localRound (stpl : ℕ) :
    Erases (localRound M.noted it body stpl) (localRound M it body' stpl) :=
  .ite (.pure none) (erases_plainRound M hbody _ stpl)

/-- The ordered path, with its facts sorted alike. -/
theorem erases_executeOrdered (tuples : List ℕ) :
    Erases (executeOrderedNoted M it noReset body tuples) (executeOrdered M it body' tuples) := by
  refine Erases.bind_get fun s => ?_
  exact (Erases.forEach (erases_orderedRound M hbody) _).bind fun _ => .pure _

omit hbody in
/-- The random order does not depend on the notes. -/
theorem erases_shuffle (l : List ℕ) : Erases (shuffle M.noted l) (shuffle M l) := fun _ => rfl

omit hbody in
/-- The facts of the queue, shuffled or not. -/
theorem erases_activeTuples : Erases (activeTuples M.noted it) (activeTuples M it) :=
  Erases.bind_get fun _ => .ite (erases_shuffle M _) (.pure _)

/-- The part of the plain path that goes through the queue. -/
theorem erases_executeQueue :
    Erases (executeQueue M.noted it body) (executeQueue M it body') := by
  refine Erases.ite ?_ (.pure none)
  refine (Erases.assert _).bind fun _ => (erases_activeTuples M).bind fun l => ?_
  exact .forEach (fun stpl => erases_plainRound M hbody _ stpl) l

/-- The part of the plain path that goes through the local facts. -/
theorem erases_executeLocal :
    Erases (executeLocal M.noted it body) (executeLocal M it body') :=
  .ite (.forEach (erases_localRound M hbody) _) (.pure none)

/-- The plain path: the leaves of the database, the queue and the local facts. -/
theorem erases_executePlain (tuples : List ℕ) :
    Erases (executePlainNoted M it noReset body tuples) (executePlain M it body' tuples) := by
  refine (Erases.forEach (erases_runLeaf M hbody) tuples).bind fun r => ?_
  cases r with
  | some ret => exact .pure ret
  | none =>
    refine (erases_executeQueue M hbody).bind fun r => ?_
    cases r with
    | some ret => exact .pure ret
    | none => exact (erases_executeLocal M hbody).bind fun _ => .pure _

/-- An `ITER_INSTR`, in any of its forms. -/
theorem erases_executeIter (tuples : List ℕ) :
    Erases (executeIterNoted M it noReset body tuples) (executeIter M it body' tuples) := by
  refine .ite (erases_executePlain M hbody tuples) (.ite ?_ (.ite ?_ ?_))
  · exact (erases_shuffle M tuples).bind fun l => erases_executePlain M hbody l
  · exact erases_executeOrdered M hbody tuples
  · exact erases_executePlain M hbody tuples

end

/-- The notes change nothing: without them the noted execution is the execution. -/
theorem erases_execute (M : Machine σ) (c : Code σ) : Erases (executeNoted M c) (execute M c) := by
  induction c with
  | last run => exact fun _ => rfl
  | instr run next ih => exact Erases.bind (fun _ => rfl) fun _ => ih
  | cond test next jump ihn ihj => exact Erases.bind_get fun s => .ite ihn ihj
  | resetLinear first jump ihf ihj =>
    refine Erases.bind_get fun s => Erases.bind (fun _ => rfl) fun _ => ihf.bind fun ret => ?_
    exact (Erases.assert _).bind fun _ => Erases.bind (fun _ => rfl) fun _ => ihj
  | iter it first jump ihf ihj =>
    refine Erases.bind_get fun s => (erases_executeIter M ihf _).bind fun ret => ?_
    refine .ite (.pure ret) (Erases.bind_get fun t => .ite (.pure ret) ihj)

/-- A run with a ledger is a run. -/
theorem execute_noted (M : Machine σ) (c : Code σ) (s : Noted σ) :
    execute M c s.erase = ((executeNoted M c s).1, (executeNoted M c s).2.erase) :=
  erases_execute M c s

end Meld.Vm.Iterate
