import Meld.Db.TupleReferences
import Meld.Vm.PersistentTuples
import Meld.Vm.RuleMatcher

/-!
# The counters of persistent facts

`process_persistent_tuple` keeps a fact twice: in the database of the node and in its rule matcher.
Between the facts, and in the code that is run for a fact that is new or gone, DELETE instructions
take facts out of the database. `tracks_iff` says for which sequences the matcher's counters are
those of the database all along: a fact that is retracted is counted once more instead of once
less, since `deregister_tuple` is given the negative count, and a DELETE does not tell the matcher
what it removed. Either puts the counters of a predicate apart, and within the step nothing brings
them together again: deletions only take references. `FactNode.storage_processPersistentTuple` says
that the storage is the one of the queue of persistent facts.
-/

namespace Meld.Vm.Persistent

open Meld.Lib Meld.Db

/-! ### Facts and DELETE instructions at a node -/

/-- A DELETE instruction: its predicate and the values of its arguments. -/
structure Delete where
  pred : ℕ
  args : List Item

/-- The parts of a `node` that persistent facts change. -/
structure FactNode where
  storage : Storage
  matcher : RuleMatcher

/-- `execute_delete`. -/
def executeDelete (prog : Program) (storage : Storage) (d : Delete) : Exec Storage := do
  let m ← deleteMatch (prog.getPredicate d.pred).types d.args
  return Function.update storage d.pred (← (storage d.pred).deleteByIndex m)

/-- The code of a predicate, if it is run: `code` are the DELETE instructions that it executes. -/
def runCode (prog : Program) (code : List Delete) (isRun : Bool) (storage : Storage) :
    Exec Storage :=
  if isRun then code.foldlM (executeDelete prog) storage else pure storage

/-- `count_total`. -/
def Storage.countTotal (storage : Storage) (p : ℕ) : ℤ := (storage p).numberOfReferences

namespace FactNode

/-- The constructor `node(id, trans, all)`. -/
def new (prog : Program) : FactNode := ⟨fun _ => Trie.new, .ofProgram prog⟩

/-- `process_persistent_tuple`, where the code of the fact's predicate executes the DELETE
instructions `code` when it is run. -/
def processPersistentTuple (prog : Program) (code : List Delete) (stpl : SimpleTuple)
    (node : FactNode) : Exec FactNode := do
  let pred := stpl.tpl.pred
  if 0 < stpl.count then
    let (t, isNew) ← (node.storage pred.id).insertTuple stpl.tpl.fields 1
    let storage ← runCode prog code isNew (Function.update node.storage pred.id t)
    return ⟨storage, (node.matcher.registerTuple pred stpl.count isNew).1⟩
  else if pred.isReused then
    return ⟨← runCode prog code true node.storage, node.matcher⟩
  else
    let (t, deleter) ← (node.storage pred.id).deleteTuple stpl.tpl.fields (-stpl.count)
    let storage := Function.update node.storage pred.id t
    let (matcher, _) ← node.matcher.deregisterTuple pred stpl.count
    if deleter.isSome then
      let storage ← runCode prog code true storage
      let t ← (storage pred.id).commit deleter
      return ⟨Function.update storage pred.id t, matcher⟩
    else return ⟨storage, matcher⟩

/-- The counters of the rule matcher are those of the database: each predicate has the count of its
references, and the rules marked runnable, among those that are not run with the facts' code, are
those with a fact for each predicate of the body. -/
structure Matches (prog : Program) (node : FactNode) : Prop where
  count : ∀ p, node.matcher.predicateCount p = node.storage.countTotal p
  active : ∀ r, r ∈ node.matcher.activeRules ↔
    (prog.getRule r).isPersistent = false ∧ (prog.getRule r).predicates ≠ [] ∧
      ∀ p ∈ (prog.getRule r).predicates, 0 < node.storage.countTotal p

end FactNode

/-- A fact that is processed, with what its predicate's code deletes, or a DELETE instruction. -/
inductive Step
  | fact (stpl : SimpleTuple) (code : List Delete)
  | delete (d : Delete)

/-- A DELETE that finds facts of its predicate, none of which its match accepts. -/
def Spares (prog : Program) (storage : Storage) (d : Delete) : Prop :=
  ∃ m, deleteMatch (prog.getPredicate d.pred).types d.args = .ok m ∧
    (∃ l, (storage d.pred).leaves.arena.live l = true) ∧
    ∀ l, (storage d.pred).leaves.arena.live l = true →
      ¬m.accepts ((storage d.pred).leaves.payload l).tpl

namespace Step

/-- The step, at a node. -/
def run (prog : Program) (node : FactNode) : Step → Exec FactNode
  | fact stpl code => node.processPersistentTuple prog code stpl
  | delete d => do return { node with storage := ← executeDelete prog node.storage d }

/-- The fact is one of a predicate of the program, persistent, not reused, well-typed, and added or
retracted once. -/
def Valid (prog : Program) : Step → Prop
  | fact stpl _ =>
    stpl.tpl.pred = prog.getPredicate stpl.tpl.pred.id ∧
    stpl.tpl.pred.isPersistent = true ∧
    stpl.tpl.pred.isAggregate = false ∧
    stpl.tpl.pred.isReused = false ∧
    TupleTrie.Typed stpl.tpl.pred.types stpl.tpl.fields ∧
    (stpl.count = 1 ∨ stpl.count = -1)
  | delete _ => True

/-- No fact is retracted, none is one too many for a counter, and no DELETE removes anything: not
the instruction, and none of the code that is run when the fact is new. -/
def Harmless (prog : Program) (node : FactNode) : Step → Prop
  | fact stpl code =>
    0 < stpl.count ∧ node.storage.countTotal stpl.tpl.pred.id < maxShort ∧
    ∀ t, (node.storage stpl.tpl.pred.id).insertTuple stpl.tpl.fields 1 = .ok (t, true) →
      ∀ d ∈ code, Spares prog (Function.update node.storage stpl.tpl.pred.id t) d
  | delete d => Spares prog node.storage d

end Step

/-- Every step returns, and the counters are those of the database after it. -/
def Tracks (prog : Program) : FactNode → List Step → Prop
  | _, [] => True
  | node, step :: steps =>
    ∃ node', step.run prog node = .ok node' ∧ node'.Matches prog ∧ Tracks prog node' steps

/-- Every step is harmless when its turn comes. -/
def AllHarmless (prog : Program) : FactNode → List Step → Prop
  | _, [] => True
  | node, step :: steps =>
    step.Harmless prog node ∧ ∀ node', step.run prog node = .ok node' → AllHarmless prog node' steps

variable {prog : Program} {storage storage' : Storage} {node node' : FactNode} {d : Delete}
  {code : List Delete} {stpl : SimpleTuple} {bound : ℕ → ℤ} {step : Step}

/-! ### The storage -/

/-- Where the code of the predicates deletes nothing, the storage is that of the queue of persistent
facts. -/
theorem FactNode.storage_processPersistentTuple
    (h : node.processPersistentTuple prog [] stpl = .ok node') :
    Persistent.processPersistentTuple node.storage stpl =
      .ok node'.storage := by
  have hcode : ∀ isRun storage, runCode prog [] isRun storage = .ok storage := by
    intro isRun storage
    rw [runCode]
    split_ifs <;> rfl
  simp only [FactNode.processPersistentTuple, hcode, ok_bind] at h
  rw [Persistent.processPersistentTuple]
  by_cases hpos : 0 < stpl.count
  · rw [if_pos hpos] at h ⊢
    obtain ⟨⟨t, isNew⟩, ht, h⟩ := bind_eq_ok.mp h
    cases h
    rw [ht]
    rfl
  rw [if_neg hpos] at h ⊢
  by_cases hreused : stpl.tpl.pred.isReused = true
  · rw [if_pos hreused] at h
    cases h
    exact if_pos hreused
  rw [if_neg hreused] at h
  refine (if_neg hreused).trans ?_
  obtain ⟨⟨t, deleter⟩, ht, h⟩ := bind_eq_ok.mp h
  obtain ⟨⟨matcher, _⟩, -, h⟩ := bind_eq_ok.mp h
  rw [ht]
  simp only [ok_bind, Function.update_self] at h ⊢
  split_ifs at h with hsome
  · obtain ⟨t', hcommit, h⟩ := bind_eq_ok.mp h
    cases h
    rw [hcommit, Function.update_idem]
    rfl
  · cases h
    rw [Option.not_isSome_iff_eq_none.mp hsome]
    rfl

/-- The tries of the storage are counted. -/
def Storage.Counted (prog : Program) (storage : Storage) : Prop :=
  ∀ p, ∃ word ls, TupleTrie.Counted (prog.getPredicate p).types (storage p) word ls

/-- The tries of the storage have references for their counts, and the bounded number of them at
most. -/
def Storage.Within (prog : Program) (storage : Storage) (bound : ℕ → ℤ) : Prop :=
  ∀ p, ∃ word ls, TupleTrie.Within (prog.getPredicate p).types (storage p) (bound p) word ls

/-- The tries of the storage are tries, and have no negative number of references. -/
def Storage.Nonneg (prog : Program) (storage : Storage) : Prop :=
  ∀ p, (∃ word ls, TupleTrie.Inv (prog.getPredicate p).types (storage p) word ls) ∧
    0 ≤ storage.countTotal p

theorem Storage.Counted.within (h : storage.Counted prog) :
    storage.Within prog storage.countTotal := fun p => by
  obtain ⟨word, ls, hp⟩ := h p
  exact ⟨word, ls, hp.within⟩

theorem Storage.Within.le (h : storage.Within prog bound) (p : ℕ) :
    storage.countTotal p ≤ bound p := by
  obtain ⟨word, ls, hp⟩ := h p
  exact hp.le

theorem Storage.Within.nonneg (h : storage.Within prog bound) (p : ℕ) :
    0 ≤ storage.countTotal p := by
  obtain ⟨word, ls, hp⟩ := h p
  exact hp.nonneg_references

/-- The leaves of a trie that are not freed are those of its list. -/
theorem spares_iff {word : Words} {ls : List ℕ}
    (h : TupleTrie.Inv (prog.getPredicate d.pred).types (storage d.pred) word ls) :
    Spares prog storage d ↔ ∃ m, deleteMatch (prog.getPredicate d.pred).types d.args = .ok m ∧
      ls ≠ [] ∧ ∀ l ∈ ls, ¬m.accepts ((storage d.pred).leaves.payload l).tpl := by
  have hex : (∃ l, l ∈ ls) ↔ ls ≠ [] :=
    ⟨fun ⟨_, hl⟩ => List.ne_nil_of_mem hl, List.exists_mem_of_ne_nil ls⟩
  simp only [Spares, h.valid.leafList.live, hex]

/-- A DELETE that spares the facts changes nothing. -/
theorem executeDelete_of_spares (h : storage.Counted prog) (hd : Spares prog storage d) :
    executeDelete prog storage d = .ok storage := by
  obtain ⟨word, ls, hp⟩ := h d.pred
  obtain ⟨m, hm, hne, hnone⟩ := (spares_iff hp.inv).mp hd
  rw [executeDelete, hm, ok_bind, hp.deleteByIndex hm hne hnone, ok_bind, Function.update_eq_self]
  rfl

/-- A DELETE leaves the storage alone or takes references. -/
theorem Storage.Within.deleted (h : storage.Within prog bound) (hb : ∀ p, bound p ≤ maxInt)
    (hrun : executeDelete prog storage d = .ok storage') :
    storage'.Within prog bound ∧ (∀ p, storage'.countTotal p ≤ storage.countTotal p) ∧
      (storage.Counted prog → ¬Spares prog storage d →
        storage'.countTotal d.pred < storage.countTotal d.pred) := by
  obtain ⟨word, ls, hp⟩ := h d.pred
  simp only [executeDelete, bind_eq_ok, pure_eq_ok, Except.ok.injEq] at hrun
  obtain ⟨m, hm, t, hdel, rfl⟩ := hrun
  rcases hp.deleteByIndex (hb d.pred) hm hdel with
    ⟨rfl, hne, hnone⟩ | ⟨l, hl, hacc, word', ls', hp', hless⟩
  · rw [Function.update_eq_self]
    exact ⟨h, fun p => le_rfl, fun _ hd => absurd ((spares_iff hp.inv).mpr ⟨m, hm, hne, hnone⟩) hd⟩
  · have hcount := hp.nonneg l hl
    refine ⟨fun p => ?_, fun p => ?_, fun hc _ => ?_⟩
    · rcases eq_or_ne p d.pred with rfl | hne
      · rw [Function.update_self]
        exact ⟨word', ls', hp'⟩
      · rw [Function.update_of_ne hne]
        exact h p
    · rcases eq_or_ne p d.pred with rfl | hne
      · simp only [Storage.countTotal, Function.update_self]
        omega
      · simp only [Storage.countTotal, Function.update_of_ne hne, le_refl]
    · obtain ⟨word₁, ls₁, hc⟩ := hc d.pred
      have hls : ls₁ = ls := hc.inv.valid.leafList.linked.unique hp.inv.valid.leafList.linked
        (hc.inv.valid.leafList.first_eq.symm.trans hp.inv.valid.leafList.first_eq)
      have hpos := hc.pos l (hls ▸ hl)
      simp only [Storage.countTotal, Function.update_self]
      omega

/-- The DELETE instructions of a predicate's code take references, and some where the facts are not
spared. -/
theorem Storage.Within.deletedAll (h : storage.Within prog bound) (hb : ∀ p, bound p ≤ maxInt)
    (hrun : code.foldlM (executeDelete prog) storage = .ok storage') :
    storage'.Within prog bound ∧ (∀ p, storage'.countTotal p ≤ storage.countTotal p) ∧
      (storage.Counted prog → (∃ d ∈ code, ¬Spares prog storage d) →
        ∃ p, storage'.countTotal p < storage.countTotal p) := by
  induction code generalizing storage with
  | nil =>
    rw [List.foldlM_nil, pure_eq_ok, Except.ok.injEq] at hrun
    exact hrun ▸ ⟨h, fun p => le_rfl, by simp⟩
  | cons d code ih =>
    rw [List.foldlM_cons, bind_eq_ok] at hrun
    obtain ⟨storage₁, hd, hrun⟩ := hrun
    obtain ⟨h₁, hle₁, hless₁⟩ := h.deleted hb hd
    obtain ⟨h', hle', hless'⟩ := ih h₁ hrun
    refine ⟨h', fun p => (hle' p).trans (hle₁ p), fun hc hex => ?_⟩
    by_cases hsp : Spares prog storage d
    · -- the storage is unchanged, so it is a later instruction that deletes something
      rw [executeDelete_of_spares hc hsp, Except.ok.injEq] at hd
      subst hd
      refine hless' hc ?_
      obtain ⟨e, he, hesp⟩ := hex
      rcases List.mem_cons.mp he with rfl | he
      · exact absurd hsp hesp
      · exact ⟨e, he, hesp⟩
    · exact ⟨d.pred, (hle' _).trans_lt (hless₁ hc hsp)⟩

theorem foldlM_of_spares (h : storage.Counted prog) (hcode : ∀ d ∈ code, Spares prog storage d) :
    code.foldlM (executeDelete prog) storage = .ok storage := by
  induction code with
  | nil => rfl
  | cons d code ih =>
    rw [List.foldlM_cons, executeDelete_of_spares h (hcode d List.mem_cons_self), ok_bind]
    exact ih fun e he => hcode e (List.mem_cons_of_mem _ he)

/-- Deletions leave no negative number of references, whatever the counts. -/
theorem Storage.Nonneg.deletedAll (h : storage.Nonneg prog)
    (hrun : code.foldlM (executeDelete prog) storage = .ok storage') : storage'.Nonneg prog := by
  induction code generalizing storage with
  | nil =>
    rw [List.foldlM_nil, pure_eq_ok, Except.ok.injEq] at hrun
    exact hrun ▸ h
  | cons d code ih =>
    rw [List.foldlM_cons, bind_eq_ok] at hrun
    obtain ⟨storage₁, hd, hrun⟩ := hrun
    refine ih (fun p => ?_) hrun
    simp only [executeDelete, bind_eq_ok, pure_eq_ok, Except.ok.injEq] at hd
    obtain ⟨m, hm, t, hdel, rfl⟩ := hd
    rcases eq_or_ne p d.pred with rfl | hne
    · obtain ⟨⟨word, ls, hinv⟩, hnonneg⟩ := h d.pred
      obtain ⟨word', ls', hinv', -⟩ := hinv.deleteByIndex hm hdel
      simp only [Storage.countTotal, Function.update_self]
      exact ⟨⟨word', ls', hinv'⟩, TupleTrie.deleteByIndex_nonneg hinv hm hnonneg hdel⟩
    · simp only [Storage.countTotal, Function.update_of_ne hne]
      exact h p

theorem Storage.Within.ran {isRun : Bool} (h : storage.Within prog bound)
    (hb : ∀ p, bound p ≤ maxInt) (hrun : runCode prog code isRun storage = .ok storage') :
    storage'.Within prog bound ∧ (∀ p, storage'.countTotal p ≤ storage.countTotal p) := by
  cases isRun with
  | false =>
    rw [runCode, if_neg Bool.false_ne_true, pure_eq_ok, Except.ok.injEq] at hrun
    exact hrun ▸ ⟨h, fun p => le_rfl⟩
  | true =>
    obtain ⟨h', hle, -⟩ := h.deletedAll hb hrun
    exact ⟨h', hle⟩

theorem Storage.Nonneg.ran {isRun : Bool} (h : storage.Nonneg prog)
    (hrun : runCode prog code isRun storage = .ok storage') : storage'.Nonneg prog := by
  cases isRun with
  | false =>
    rw [runCode, if_neg Bool.false_ne_true, pure_eq_ok, Except.ok.injEq] at hrun
    exact hrun ▸ h
  | true => exact h.deletedAll hrun

/-- A change of one trie keeps the others. -/
theorem Storage.Counted.update (h : storage.Counted prog) {p : ℕ} {t : TupleTrie} {word : Words}
    {ls : List ℕ} (ht : TupleTrie.Counted (prog.getPredicate p).types t word ls) :
    Storage.Counted prog (Function.update storage p t) := fun q => by
  rcases eq_or_ne q p with rfl | hne
  · rw [Function.update_self]
    exact ⟨word, ls, ht⟩
  · rw [Function.update_of_ne hne]
    exact h q

theorem Storage.Within.update (h : storage.Within prog bound) {p : ℕ} {t : TupleTrie}
    {word : Words} {ls : List ℕ}
    (ht : TupleTrie.Within (prog.getPredicate p).types t (bound p) word ls) :
    Storage.Within prog (Function.update storage p t) bound := fun q => by
  rcases eq_or_ne q p with rfl | hne
  · rw [Function.update_self]
    exact ⟨word, ls, ht⟩
  · rw [Function.update_of_ne hne]
    exact h q

theorem Storage.countTotal_update (storage : Storage) (p q : ℕ) (t : TupleTrie) :
    Storage.countTotal (Function.update storage p t) q =
      if q = p then t.numberOfReferences else storage.countTotal q := by
  rw [Storage.countTotal, Function.update_apply, Storage.countTotal]
  split_ifs <;> rfl

/-! ### The counters -/

/-- `deregister_tuple` with the count of a retraction counts one more. -/
theorem deregisterTuple_retraction {m m' : RuleMatcher} {pred : Predicate} {ret : Bool}
    (h₀ : 0 ≤ m.predicateCount pred.id)
    (hrun : m.deregisterTuple pred (-1) = .ok (m', ret)) :
    m'.predicateCount pred.id = wrap16 (m.predicateCount pred.id + 1) := by
  have hne : m.predicateCount pred.id ≠ -1 := by omega
  simp only [RuleMatcher.deregisterTuple, hne, decide_false, Bool.false_eq_true, if_false,
    bind_eq_ok, pure_eq_ok, Except.ok.injEq, Prod.mk.injEq] at hrun
  obtain ⟨-, -, rfl, -⟩ := hrun
  rw [RuleMatcher.setCount_predicateCount, if_pos rfl, sub_neg_eq_add]

/-- `register_tuple` counts the fact. -/
theorem registerTuple_predicateCount_self (m : RuleMatcher) (pred : Predicate) (c : ℤ)
    (isNew : Bool) :
    (m.registerTuple pred c isNew).1.predicateCount pred.id =
      wrap16 (m.predicateCount pred.id + c) := by
  simp only [RuleMatcher.registerTuple, RuleMatcher.setCount_predicateCount, if_true]
  split_ifs <;> simp

/-- One more than fits, or one more than there were, is no number of references. -/
theorem wrap16_succ_ne {n k : ℤ} (hn : n ≤ maxShort) (h₀ : 0 ≤ k) (hk : k ≤ n) :
    wrap16 (n + 1) ≠ k := by
  rcases hn.eq_or_lt with rfl | hlt
  · have hmin : wrap16 (maxShort + 1) = -32768 := by decide
    omega
  · rw [wrap16_of_mem (by simp only [maxShort]; omega) (by omega)]
    omega

/-! ### One step -/

/-- The tries are counted, the rules' counters agree with those of the predicates, and these are
the numbers of references. -/
structure FactNode.Sound (prog : Program) (node : FactNode) : Prop where
  counted : node.storage.Counted prog
  consistent : node.matcher.Consistent prog
  count : ∀ p, node.matcher.predicateCount p = node.storage.countTotal p

theorem FactNode.Sound.new (prog : Program) : (FactNode.new prog).Sound prog where
  counted p := by
    obtain ⟨word, h⟩ := TupleTrie.Counted.new (prog.getPredicate p).types
    exact ⟨word, [], h⟩
  consistent := RuleMatcher.consistent_ofProgram
  count _ := rfl

theorem FactNode.Sound.matches (h : node.Sound prog) : node.Matches prog := by
  refine ⟨h.count, fun r => ?_⟩
  have hact := (h.consistent.status_exact r).active_iff
  simp only [RuleMatcher.status, decide_eq_true_eq] at hact
  rw [hact, RuleMatcher.available, List.countP_eq_length, List.length_pos_iff]
  simp only [decide_eq_true_eq, h.count]
  tauto

/-- A harmless step returns, and keeps the counters. -/
theorem FactNode.Sound.harmless (h : node.Sound prog) (hv : step.Valid prog)
    (hs : step.Harmless prog node) :
    ∃ node', step.run prog node = .ok node' ∧ node'.Sound prog := by
  cases step with
  | delete d =>
    exact ⟨node, by rw [Step.run, executeDelete_of_spares h.counted hs]; rfl, h⟩
  | fact stpl code =>
    obtain ⟨hpred, -, -, -, htyped, hcount⟩ := hv
    rw [hpred] at htyped
    obtain ⟨hpos, hlt, hcode⟩ := hs
    have hone : stpl.count = 1 := by omega
    obtain ⟨word, ls, hp⟩ := h.counted stpl.tpl.pred.id
    obtain ⟨t, b, word', ls', hok, hp', href, hold⟩ := hp.insertTuple htyped hlt
    have hcounted := h.counted.update hp'
    have hrest : runCode prog code b (Function.update node.storage stpl.tpl.pred.id t) =
        .ok (Function.update node.storage stpl.tpl.pred.id t) := by
      cases b with
      | true => exact foldlM_of_spares hcounted (hcode t hok)
      | false => rfl
    refine ⟨⟨Function.update node.storage stpl.tpl.pred.id t,
      (node.matcher.registerTuple (prog.getPredicate stpl.tpl.pred.id) 1 b).1⟩, ?_, hcounted, ?_,
      fun q => ?_⟩
    · rw [Step.run, FactNode.processPersistentTuple, if_pos hpos, hok, ok_bind, hone, ← hpred]
      simp only [hrest, ok_bind, pure_eq_ok]
    · refine h.consistent.registerTuple b Int.one_pos ?_ fun hb => ?_
      · rw [h.count]
        exact hlt
      · rw [h.count]
        exact hold hb
    · have hlt' := hlt
      have hnonneg := h.consistent.count_nonneg stpl.tpl.pred.id
      rw [← h.count] at hlt'
      rw [RuleMatcher.registerTuple_predicateCount b (by omega) (by omega),
        Storage.countTotal_update, href, h.count, h.count]
      rfl

/-- A step that is not harmless puts the counters apart, if it returns. -/
theorem FactNode.Sound.not_matches (h : node.Sound prog) (hv : step.Valid prog)
    (hs : ¬step.Harmless prog node) (hrun : step.run prog node = .ok node') :
    ¬node'.Matches prog := by
  intro hmatch
  have hmax : ∀ p, node.storage.countTotal p ≤ maxShort := fun p =>
    h.count p ▸ h.consistent.count_le p
  have hbound : ∀ p, node.storage.countTotal p ≤ maxInt := fun p => (hmax p).trans (by decide)
  have hwithin := h.counted.within
  cases step with
  | delete d =>
    simp only [Step.run, bind_eq_ok, pure_eq_ok, Except.ok.injEq] at hrun
    obtain ⟨storage', hdel, rfl⟩ := hrun
    obtain ⟨-, -, hless⟩ := hwithin.deleted hbound hdel
    -- references are taken out of the database and the matcher does not hear of it
    have hlt := hless h.counted hs
    have hcount := hmatch.count d.pred
    rw [h.count] at hcount
    change node.storage.countTotal d.pred = storage'.countTotal d.pred at hcount
    omega
  | fact stpl code =>
    obtain ⟨hpred, -, -, hreused, htyped, hsign⟩ := hv
    rw [hpred] at htyped
    obtain ⟨word, ls, hp⟩ := h.counted stpl.tpl.pred.id
    have hcount := hmatch.count stpl.tpl.pred.id
    rcases hsign with hone | hone
    · -- a fact more: one too many, or its code deletes something
      rw [Step.run, FactNode.processPersistentTuple, if_pos (by omega), bind_eq_ok] at hrun
      obtain ⟨⟨t, b⟩, hins, hrun⟩ := hrun
      obtain ⟨storage', hcode, hres⟩ := bind_eq_ok.mp hrun
      rw [pure_eq_ok, Except.ok.injEq] at hres
      subst hres
      obtain ⟨⟨word', ls', hinv⟩, href⟩ := TupleTrie.insertTuple_references hp.inv htyped hins
      change (node.matcher.registerTuple _ stpl.count b).1.predicateCount stpl.tpl.pred.id =
        storage'.countTotal stpl.tpl.pred.id at hcount
      rw [registerTuple_predicateCount_self, hone, h.count] at hcount
      -- the counter wraps around, and the references cannot be negative
      rcases (hmax stpl.tpl.pred.id).eq_or_lt with heq | hlt
      · have hnonneg : Storage.Nonneg prog
            (Function.update node.storage stpl.tpl.pred.id t) := fun q => by
          rw [Storage.countTotal_update]
          rcases eq_or_ne q stpl.tpl.pred.id with rfl | hne
          · have := h.consistent.count_nonneg stpl.tpl.pred.id
            rw [h.count, Storage.countTotal] at this
            rw [Function.update_self, if_pos rfl]
            exact ⟨⟨word', ls', hinv⟩, by omega⟩
          · obtain ⟨word₁, ls₁, hq⟩ := h.counted q
            rw [Function.update_of_ne hne, if_neg hne]
            exact ⟨⟨word₁, ls₁, hq.inv⟩, hq.within.nonneg_references⟩
        have hpos := ((hnonneg.ran hcode) stpl.tpl.pred.id).2
        have hmin : wrap16 (maxShort + 1) = -32768 := by decide
        rw [heq, hmin] at hcount
        omega
      · -- the matcher counts the fact, and the code that is run deletes something
        obtain ⟨t', b', word₂, ls₂, hok, hp', -, -⟩ := hp.insertTuple htyped hlt
        have hcounted := h.counted.update hp'
        obtain ⟨rfl, rfl⟩ : t' = t ∧ b' = b := by simpa [hok] using hins
        have hnot : b' = true ∧ ∃ d ∈ code,
            ¬Spares prog (Function.update node.storage stpl.tpl.pred.id t') d := by
          by_contra hno
          refine hs ⟨by omega, hlt, fun t₂ ht₂ d hd => ?_⟩
          rw [hok, Except.ok.injEq, Prod.mk.injEq] at ht₂
          obtain ⟨rfl, rfl⟩ := ht₂
          by_contra hd'
          exact hno ⟨rfl, d, hd, hd'⟩
        obtain ⟨rfl, hex⟩ := hnot
        have hle : ∀ q,
            Storage.countTotal (Function.update node.storage stpl.tpl.pred.id t') q ≤ maxInt :=
          fun q => by
            rw [Storage.countTotal_update]
            split_ifs
            · exact hp'.le.trans (by decide)
            · exact hbound q
        obtain ⟨-, -, hless⟩ := hcounted.within.deletedAll hle hcode
        obtain ⟨q, hq⟩ := hless hcounted hex
        have hcq := hmatch.count q
        change (node.matcher.registerTuple _ stpl.count true).1.predicateCount q =
          storage'.countTotal q at hcq
        have hnonneg := h.consistent.count_nonneg stpl.tpl.pred.id
        have hlt' := hlt
        change node.storage.countTotal stpl.tpl.pred.id < maxShort at hlt'
        rw [← h.count] at hlt'
        rw [hpred, RuleMatcher.registerTuple_predicateCount true (by omega) (by omega), h.count,
          h.count, hone] at hcq
        rw [Storage.countTotal_update, href] at hq
        change _ < if q = stpl.tpl.pred.id then node.storage.countTotal stpl.tpl.pred.id + 1
          else _ at hq
        split_ifs at hcq hq <;> omega
    · -- a retraction: the counter grows and the references do not
      rw [Step.run, FactNode.processPersistentTuple, if_neg (by omega),
        if_neg (by simp [hreused]), hone, neg_neg, bind_eq_ok] at hrun
      obtain ⟨⟨t, info⟩, hdel, hrun⟩ := hrun
      obtain ⟨⟨matcher, ret⟩, hderegister, hrun⟩ := bind_eq_ok.mp hrun
      obtain ⟨ht, hinfo⟩ := hp.deleteTuple htyped hdel
      have hupdated := hwithin.update ht
      have hself := deregisterTuple_retraction (h.consistent.count_nonneg _) hderegister
      rw [h.count] at hself
      suffices hfinal : node'.matcher = matcher ∧ 0 ≤ node'.storage.countTotal stpl.tpl.pred.id ∧
          node'.storage.countTotal stpl.tpl.pred.id ≤ node.storage.countTotal stpl.tpl.pred.id by
        obtain ⟨hm, h₀, hle⟩ := hfinal
        rw [hm, hself] at hcount
        exact wrap16_succ_ne (hmax stpl.tpl.pred.id) h₀ hle hcount
      simp only at hrun
      -- the fact is gone: its code may only take more references
      split_ifs at hrun with hsome
      · obtain ⟨storage', hcode, hrun⟩ := bind_eq_ok.mp hrun
        obtain ⟨t', hcommit, hres⟩ := bind_eq_ok.mp hrun
        rw [pure_eq_ok, Except.ok.injEq] at hres
        subst hres
        obtain ⟨hwithin', -⟩ := hupdated.ran hbound hcode
        obtain ⟨word', ls', hp'⟩ := hwithin' stpl.tpl.pred.id
        obtain ⟨h₀, hle⟩ := hp'.commit hinfo hcommit
        refine ⟨rfl, ?_, ?_⟩ <;> rw [Storage.countTotal_update, if_pos rfl]
        exacts [h₀, hle]
      · rw [pure_eq_ok, Except.ok.injEq] at hrun
        subst hrun
        exact ⟨rfl, hupdated.nonneg stpl.tpl.pred.id, hupdated.le stpl.tpl.pred.id⟩

/-! ### Sequences of steps -/

/-- The counters of a node are those of its database after every step of a sequence of added and
retracted facts and DELETE instructions exactly when every step is harmless: no fact is retracted,
no predicate has more facts than a counter can count, and every DELETE finds facts of its predicate
and removes none. -/
theorem tracks_iff (prog : Program) (steps : List Step) (hv : ∀ step ∈ steps, step.Valid prog) :
    Tracks prog (.new prog) steps ↔ AllHarmless prog (.new prog) steps := by
  suffices hnode : ∀ node : FactNode, node.Sound prog →
      (Tracks prog node steps ↔ AllHarmless prog node steps) from hnode _ (.new prog)
  induction steps with
  | nil => exact fun _ _ => Iff.rfl
  | cons step steps ih =>
    intro node h
    have hstep := hv step List.mem_cons_self
    have ih := ih fun s hs => hv s (List.mem_cons_of_mem _ hs)
    constructor
    · rintro ⟨node', hrun, hmatch, htracks⟩
      have hharmless : step.Harmless prog node := by
        by_contra hs
        exact h.not_matches hstep hs hrun hmatch
      refine ⟨hharmless, fun node₁ hrun₁ => ?_⟩
      obtain ⟨node₂, hrun₂, h₂⟩ := h.harmless hstep hharmless
      rw [hrun, Except.ok.injEq] at hrun₁ hrun₂
      subst hrun₁
      exact (ih node' (hrun₂ ▸ h₂)).mp htracks
    · rintro ⟨hharmless, hrest⟩
      obtain ⟨node', hrun, h'⟩ := h.harmless hstep hharmless
      exact ⟨node', hrun, h'.matches, (ih node' h').mpr (hrest node' hrun)⟩

/-! ### A predicate with a rule -/

/-- A predicate with an integer field and the rule that it activates. -/
def oneRuleProgram : Program where
  predicates := [{ id := 0, types := [.item .int], affectedRules := [0] }]
  rules := [{ predicates := [0] }]
  id_eq := by decide
  affected_lt := by decide
  body_lt := by decide
  lists_agree := by decide

/-- The fact `[7]`, added or retracted. -/
def seven (count : ℤ) : Step :=
  .fact { tpl := ⟨oneRuleProgram.getPredicate 0, [.item (.int 7)]⟩, count := count } []

private theorem typed_seven : TupleTrie.Typed [.item .int] [.item (.int 7)] :=
  ⟨rfl, by simp [Value.Ok]⟩

private theorem valid_seven {count : ℤ} (h : count = 1 ∨ count = -1) :
    (seven count).Valid oneRuleProgram :=
  ⟨rfl, rfl, rfl, rfl, typed_seven, h⟩

private theorem findable_seven : Findable [.item (.int 7)] :=
  typed_seven.findable (by simp [FieldType.Exact])

private theorem canon_seven : canon [.item (.int 7)] = [.item (.int 7)] :=
  typed_seven.canon_eq (by simp [FieldType.Exact])

/-- A node that the fact `[7]` has been added to. -/
private theorem exists_added : ∃ (node : FactNode) (word : Words) (ls : List ℕ),
    (seven 1).run oneRuleProgram (.new oneRuleProgram) = .ok node ∧ node.Sound oneRuleProgram ∧
      TupleTrie.Holds [.item .int] (node.storage 0) {[.item (.int 7)]} word ls := by
  have hvalid : (seven 1).Valid oneRuleProgram := valid_seven (.inl rfl)
  obtain ⟨node, hrun, hsound⟩ := (FactNode.Sound.new oneRuleProgram).harmless hvalid
    ⟨Int.one_pos, by decide, by simp⟩
  obtain ⟨t, word, ls, hok, hh, -⟩ := (TupleTrie.Holds.new [.item .int]).insertTuple typed_seven
    findable_seven Nat.one_pos (by simp [maxShort]) (by simp [maxInt])
  refine ⟨node, word, ls, hrun, hsound, ?_⟩
  have hnode := hrun
  simp only [seven, Step.run, FactNode.processPersistentTuple, Int.one_pos, if_true, bind_eq_ok,
    pure_eq_ok, Except.ok.injEq] at hnode
  obtain ⟨⟨t', b⟩, hins, storage, hcode, rfl⟩ := hnode
  have hsame : TupleTrie.insertTuple Trie.new [.item (.int 7)] 1 = .ok (t', b) := hins
  rw [show ((1 : ℕ) : ℤ) = 1 from rfl, hsame, Except.ok.injEq, Prod.mk.injEq] at hok
  obtain ⟨rfl, -⟩ := hok
  have hstorage : storage = Function.update (FactNode.new oneRuleProgram).storage 0 t' := by
    cases b <;> simpa [runCode, Program.getPredicate_id, eq_comm] using hcode
  subst hstorage
  rw [canon_seven, zero_add, Multiset.replicate_one] at hh
  exact hh

/-- The fact `[7]` is added, and a DELETE of `8` finds it and leaves it. -/
theorem tracks_iff_seven : Tracks oneRuleProgram (.new oneRuleProgram)
    [seven 1, .delete ⟨0, [.int 8]⟩] := by
  refine (tracks_iff oneRuleProgram _ ?_).mpr
    ⟨⟨Int.one_pos, by decide, by simp⟩, fun node hrun => ⟨?_, fun _ _ => trivial⟩⟩
  · intro step hstep
    simp only [List.mem_cons, List.not_mem_nil, or_false] at hstep
    rcases hstep with rfl | rfl
    · exact valid_seven (.inl rfl)
    · trivial
  · obtain ⟨node', word, ls, hrun', -, hh⟩ := exists_added
    obtain rfl : node = node' := by rwa [hrun, Except.ok.injEq] at hrun'
    have hne : ls ≠ [] := mt hh.eq_nil_iff.mp (by simp)
    have hinv : TupleTrie.Inv (oneRuleProgram.getPredicate 0).types (node.storage 0) word ls :=
      hh.inv
    refine (spares_iff (d := ⟨0, [.int 8]⟩) hinv).mpr
      ⟨⟨[.exact (.int 8)], true, by simp⟩, rfl, hne, fun l hl => ?_⟩
    have htuple := hh.mem l hl
    rw [hh.leafTuple_eq (by simp [FieldType.Exact]) hl, Multiset.mem_singleton] at htuple
    change ¬Match.accepts _ ((node.storage 0).leaves.payload l).tpl
    rw [htuple]
    decide

/-- The fact `[7]` is added and, while it is there, retracted: the database is empty, and the
matcher counts two facts. -/
theorem not_tracks_retraction :
    (∀ step ∈ [seven 1, seven (-1)], step.Valid oneRuleProgram) ∧
    (∃ node node', (seven 1).run oneRuleProgram (.new oneRuleProgram) = .ok node ∧
      node.storage.countTotal 0 = 1 ∧
      (seven (-1)).run oneRuleProgram node = .ok node' ∧ node'.storage.countTotal 0 = 0 ∧
      node'.matcher.predicateCount 0 = 2) ∧
    ¬Tracks oneRuleProgram (.new oneRuleProgram) [seven 1, seven (-1)] := by
  obtain ⟨node, word, ls, hrun, hsound, hh⟩ := exists_added
  -- one fact is stored and counted
  have hone : node.storage.countTotal 0 = 1 := by
    rw [Storage.countTotal, hh.references]
    rfl
  obtain ⟨t₁, t', info, word', ls', hok, hcommit, hsome, hh', -⟩ := hh.deleteTuple typed_seven
    findable_seven Nat.one_pos (by rw [canon_seven, Multiset.count_singleton_self])
  rw [canon_seven] at hsome hh'
  have hinfo : info.isSome = true := by
    rw [hsome, Multiset.count_singleton_self]
    rfl
  have hcount : node.matcher.predicateCount 0 = 1 := (hsound.count 0).trans hone
  have hderegister : ∃ matcher, node.matcher.deregisterTuple (oneRuleProgram.getPredicate 0) (-1) =
      .ok (matcher, false) := by
    simp [RuleMatcher.deregisterTuple, Program.getPredicate_id, hcount, assert]
  obtain ⟨matcher, hderegister⟩ := hderegister
  -- the retraction is counted as one more
  have htwo : matcher.predicateCount 0 = 2 := by
    have hself := deregisterTuple_retraction
      (by rw [Program.getPredicate_id]; omega) hderegister
    rw [Program.getPredicate_id, hcount] at hself
    exact hself
  have hretract : (seven (-1)).run oneRuleProgram node =
      .ok ⟨Function.update (Function.update node.storage 0 t₁) 0 t', matcher⟩ := by
    have hok' : (node.storage 0).deleteTuple [.item (.int 7)] (- -1) = .ok (t₁, info) := hok
    have hcommit' : (Function.update node.storage 0 t₁ 0).commit info = .ok t' := by
      rw [Function.update_self]
      exact hcommit
    have hreused : (oneRuleProgram.getPredicate 0).isReused = false := rfl
    simp only [seven, Step.run, FactNode.processPersistentTuple, Program.getPredicate_id, hok',
      hderegister, hinfo, hreused, ok_bind, runCode, if_true, List.foldlM_nil, pure_eq_ok, hcommit']
    rfl
  -- and leaves nothing in the storage
  have hzero : Storage.countTotal
      (Function.update (Function.update node.storage 0 t₁) 0 t') 0 = 0 := by
    rw [Storage.countTotal_update, if_pos rfl, hh'.references, Multiset.replicate_one,
      Multiset.sub_singleton, Multiset.erase_singleton]
    rfl
  refine ⟨?_, ⟨node, _, hrun, hone, hretract, hzero, htwo⟩, ?_⟩
  · intro step hstep
    simp only [List.mem_cons, List.not_mem_nil, or_false] at hstep
    rcases hstep with rfl | rfl
    · exact valid_seven (.inl rfl)
    · exact valid_seven (.inr rfl)
  · rintro ⟨node₁, hrun₁, -, node₂, hrun₂, hmatch, -⟩
    rw [hrun, Except.ok.injEq] at hrun₁
    subst hrun₁
    rw [hretract, Except.ok.injEq] at hrun₂
    subst hrun₂
    have hcount₂ := hmatch.count 0
    rw [hzero] at hcount₂
    change matcher.predicateCount 0 = 0 at hcount₂
    omega

end Meld.Vm.Persistent
