import Meld.Db.TupleStores
import Meld.Db.TupleIndex
import Meld.Db.TupleStrings
import Meld.Vm.RunNode

/-!
# The queue of persistent facts

A node's state keeps the persistent facts that were derived or retracted in a queue.
`do_persistent_tuples` takes them from its front; before a fact is added to the database, the rest
of the queue is searched for its retraction, and when there is one, both are dropped.

The facts of a node are a bag for each predicate, and the leaves of the facts that are never found
again (those with a NaN). Between a fact and the first retraction of it in the queue nothing else
takes it away, so a dropped pair leaves the facts as if both had been processed.
-/

namespace Meld.Vm.Persistent

open Meld.Lib Meld.Db

/-! ### The queue -/

/-- The storage of a node: the tuple trie of each predicate. -/
abbrev Storage := ℕ → TupleTrie

/-- `process_persistent_tuple`, when the code of the predicates derives nothing. -/
def processPersistentTuple (node : Storage) (stpl : SimpleTuple) : Exec Storage := do
  let pred := stpl.tpl.pred
  if 0 < stpl.count then
    let (t, _) ← (node pred.id).insertTuple stpl.tpl.fields 1
    return Function.update node pred.id t
  else if pred.isReused then return node
  else
    let (t, deleter) ← (node pred.id).deleteTuple stpl.tpl.fields (-stpl.count)
    return Function.update node pred.id (← t.commit deleter)

/-- `do_persistent_tuples`, for facts of predicates that are no aggregates. -/
def doPersistentTuples : ℕ → Storage → List SimpleTuple → Exec Storage
  | _, node, [] => pure node
  | 0, _, _ :: _ => .error .diverge
  | fuel + 1, node, stpl :: queue => do
    match ← Run.searchForNegative stpl queue with
    | some queue => doPersistentTuples fuel node queue
    | none => doPersistentTuples fuel (← processPersistentTuple node stpl) queue

/-- The facts of the queue, one after another. -/
def processAll (node : Storage) (queue : List SimpleTuple) : Exec Storage :=
  queue.foldlM processPersistentTuple node

/-! ### The facts of a node -/

/-- For each predicate the facts that are found again, and the leaves of the others. -/
structure Facts where
  bag : ℕ → Multiset (List Value)
  nans : ℕ → Multiset (List Value × ℤ)

/-- The node stores the facts. -/
def Storage.Stores (prog : Program) (node : Storage) (facts : Facts) : Prop :=
  ∀ p, ∃ (word : Words) (ls : List ℕ),
    TupleTrie.Stores (prog.getPredicate p).types (node p) (facts.bag p) (facts.nans p) word ls

namespace Facts

/-- A fact more. -/
def push (facts : Facts) (p : ℕ) (tpl : List Value) : Facts :=
  { facts with bag := Function.update facts.bag p (tpl ::ₘ facts.bag p) }

/-- What a queued fact does to the facts. -/
def process (facts : Facts) (stpl : SimpleTuple) : Facts :=
  if 0 < stpl.count then
    if Findable (canon stpl.tpl.fields) then facts.push stpl.tpl.pred.id (canon stpl.tpl.fields)
    else { facts with
      nans := Function.update facts.nans stpl.tpl.pred.id
        (facts.nans stpl.tpl.pred.id + {(canon stpl.tpl.fields, 1)}) }
  else { facts with
    bag := Function.update facts.bag stpl.tpl.pred.id
      ((facts.bag stpl.tpl.pred.id).erase (canon stpl.tpl.fields)) }

/-- A fact that is added leaves the counts in range, and one that is retracted is there. -/
def Allows (facts : Facts) (stpl : SimpleTuple) : Prop :=
  (stpl.count = 1 →
    ((facts.bag stpl.tpl.pred.id).count (canon stpl.tpl.fields) + 1 : ℤ) ≤ maxShort ∧
    (facts.bag stpl.tpl.pred.id).card + 1 + ((facts.nans stpl.tpl.pred.id).map Prod.snd).sum ≤
      maxInt) ∧
  (stpl.count = -1 → canon stpl.tpl.fields ∈ facts.bag stpl.tpl.pred.id)

/-- So is every fact of the queue when its turn comes. -/
def AllowsAll (facts : Facts) : List SimpleTuple → Prop
  | [] => True
  | stpl :: queue => facts.Allows stpl ∧ (facts.process stpl).AllowsAll queue

end Facts

/-- A persistent fact of a predicate of the program, without strings, that is added or retracted
once. -/
structure Valid (prog : Program) (stpl : SimpleTuple) : Prop where
  pred : stpl.tpl.pred = prog.getPredicate stpl.tpl.pred.id
  persistent : stpl.tpl.pred.isPersistent = true
  notAggregate : stpl.tpl.pred.isAggregate = false
  notFinal : stpl.isFinalAggregate = false
  notReused : stpl.tpl.pred.isReused = false
  noString : NoString stpl.tpl.pred.types
  typed : TupleTrie.Typed stpl.tpl.pred.types stpl.tpl.fields
  count : stpl.count = 1 ∨ stpl.count = -1

variable {prog : Program} {node : Storage} {facts : Facts} {stpl stpl2 : SimpleTuple}
  {queue pre post : List SimpleTuple} {p : ℕ} {u : List Value}

/-! ### Processing one fact after another -/

/-- The types of the fact's predicate. -/
theorem Valid.types (h : Valid prog stpl) :
    (prog.getPredicate stpl.tpl.pred.id).types = stpl.tpl.pred.types := by
  rw [← h.pred]

/-- The levels of a fact without strings are narrow. -/
theorem Valid.narrow (h : Valid prog stpl) : ∀ f ∈ levels stpl.tpl.fields, f.Narrow := by
  refine TupleTrie.narrow_levels_iff.mpr fun p hp => ?_
  have hmem : Value.type (.string p) ∈ stpl.tpl.pred.types :=
    h.typed.types ▸ List.mem_map_of_mem hp
  exact absurd rfl (h.noString _ hmem)

/-- A change of what is stored for one predicate. -/
theorem Storage.Stores.update (h : Storage.Stores prog node facts) {p : ℕ} {t : TupleTrie}
    {s : Multiset (List Value)} {nans : Multiset (List Value × ℤ)} {word : Words} {ls : List ℕ}
    (ht : TupleTrie.Stores (prog.getPredicate p).types t s nans word ls) :
    Storage.Stores prog (Function.update node p t)
      ⟨Function.update facts.bag p s, Function.update facts.nans p nans⟩ := by
  intro q
  rcases eq_or_ne q p with rfl | hne
  · simp only [Function.update_self]
    exact ⟨word, ls, ht⟩
  · simp only [Function.update_of_ne hne]
    exact h q

theorem processPersistentTuple_spec (h : Storage.Stores prog node facts)
    (hvalid : Valid prog stpl) (hallows : facts.Allows stpl) :
    ∃ node', processPersistentTuple node stpl = .ok node' ∧
      Storage.Stores prog node' (facts.process stpl) := by
  obtain ⟨word, ls, hstores⟩ := h stpl.tpl.pred.id
  rw [hvalid.types] at hstores
  rcases hvalid.count with hone | hone
  · obtain ⟨hshort, hint⟩ := hallows.1 hone
    obtain ⟨t', b, word', ls', hok, hres⟩ := hstores.insertTuple hvalid.typed hvalid.narrow
      Nat.one_pos (by exact_mod_cast hshort) (by exact_mod_cast hint)
    refine ⟨Function.update node stpl.tpl.pred.id t', ?_, ?_⟩
    · have hok' : (node stpl.tpl.pred.id).insertTuple stpl.tpl.fields 1 = .ok (t', b) := hok
      rw [processPersistentTuple, hone, if_pos Int.one_pos, hok']
      rfl
    · rw [← hvalid.types] at hres
      have hstep := h.update hres
      rw [Facts.process, hone, if_pos Int.one_pos]
      by_cases hfind : Findable (canon stpl.tpl.fields)
      · rw [if_pos hfind, if_pos hfind, Function.update_eq_self, Multiset.replicate_one, add_comm,
          Multiset.singleton_add] at hstep
        rw [if_pos hfind]
        exact hstep
      · rw [if_neg hfind, if_neg hfind, Function.update_eq_self] at hstep
        rw [if_neg hfind]
        exact hstep
  · have hmem := hallows.2 hone
    obtain ⟨t₁, t', info, word', ls', hok, hcommit, hres⟩ :=
      hstores.deleteTuple hvalid.typed Nat.one_pos (Multiset.count_pos.mpr hmem)
    refine ⟨Function.update node stpl.tpl.pred.id t', ?_, ?_⟩
    · have hok' : (node stpl.tpl.pred.id).deleteTuple stpl.tpl.fields 1 = .ok (t₁, info) := hok
      rw [processPersistentTuple, hone, if_neg (by decide), if_neg (by simp [hvalid.notReused]),
        neg_neg, hok', ok_bind]
      simp only [hcommit, ok_bind, pure_eq_ok]
    · rw [← hvalid.types] at hres
      have hstep := h.update hres
      rw [Facts.process, hone, if_neg (by decide)]
      rw [Function.update_eq_self, Multiset.replicate_one, Multiset.sub_singleton] at hstep
      exact hstep

theorem processAll_spec (h : Storage.Stores prog node facts)
    (hvalid : ∀ stpl ∈ queue, Valid prog stpl) (hallows : facts.AllowsAll queue) :
    ∃ node', processAll node queue = .ok node' ∧
      Storage.Stores prog node' (queue.foldl Facts.process facts) := by
  induction queue generalizing node facts with
  | nil => exact ⟨node, rfl, h⟩
  | cons stpl queue ih =>
    obtain ⟨node₁, hok, h₁⟩ :=
      processPersistentTuple_spec h (hvalid stpl List.mem_cons_self) hallows.1
    obtain ⟨node', hrest, h'⟩ :=
      ih h₁ (fun stpl' hmem => hvalid stpl' (List.mem_cons_of_mem _ hmem)) hallows.2
    refine ⟨node', ?_, h'⟩
    rw [processAll, List.foldlM_cons, hok, ok_bind]
    exact hrest

/-! ### A dropped pair -/

theorem Facts.push_bag_self (facts : Facts) (p : ℕ) (u : List Value) :
    (facts.push p u).bag p = u ::ₘ facts.bag p := Function.update_self ..

theorem Facts.push_bag_of_ne {q : ℕ} (h : q ≠ p) : (facts.push p u).bag q = facts.bag q :=
  Function.update_of_ne h ..

/-- A fact more makes no difference to what is not a retraction of it. -/
theorem Facts.process_push
    (hne : stpl.count ≤ 0 → stpl.tpl.pred.id = p → canon stpl.tpl.fields ≠ u) :
    (facts.push p u).process stpl = (facts.process stpl).push p u := by
  rw [Facts.process, Facts.process]
  split_ifs with hpos hfind
  · -- the order of two more facts
    simp only [Facts.push, Facts.mk.injEq, and_true]
    rcases eq_or_ne stpl.tpl.pred.id p with rfl | hp
    · simp only [Function.update_self, Function.update_idem, Multiset.cons_swap]
    · rw [Function.update_of_ne hp, Function.update_of_ne hp.symm, Function.update_comm hp]
  · rfl
  · simp only [Facts.push, Facts.mk.injEq, and_true]
    rcases eq_or_ne stpl.tpl.pred.id p with hp | hp
    · subst hp
      rw [Function.update_self, Function.update_idem, Function.update_self, Function.update_idem,
        Multiset.erase_cons_tail _ (hne (by omega) rfl).symm]
    · rw [Function.update_of_ne hp, Function.update_of_ne hp.symm, Function.update_comm hp]

/-- What may be added besides another fact may be added without it. -/
theorem Facts.allows_of_push
    (hne : stpl.count ≤ 0 → stpl.tpl.pred.id = p → canon stpl.tpl.fields ≠ u)
    (h : (facts.push p u).Allows stpl) : facts.Allows stpl := by
  rcases eq_or_ne stpl.tpl.pred.id p with hp | hp
  · subst hp
    rw [Facts.Allows, Facts.push_bag_self, Multiset.card_cons] at h
    refine ⟨fun hone => ?_, fun hone => ?_⟩
    · obtain ⟨hshort, hint⟩ := h.1 hone
      have hle := Multiset.count_le_count_cons (canon stpl.tpl.fields) u
        (facts.bag stpl.tpl.pred.id)
      have hint' : (facts.bag stpl.tpl.pred.id).card + 1 + 1 +
        ((facts.nans stpl.tpl.pred.id).map Prod.snd).sum ≤ maxInt := by exact_mod_cast hint
      exact ⟨by omega, by omega⟩
    · exact (Multiset.mem_cons.mp (h.2 hone)).resolve_left (hne (by omega) rfl)
  · rwa [Facts.Allows, Facts.push_bag_of_ne hp] at h

/-- What was added first can be added last. -/
theorem Facts.foldl_push
    (hne : ∀ stpl ∈ pre, stpl.count ≤ 0 → stpl.tpl.pred.id = p → canon stpl.tpl.fields ≠ u) :
    pre.foldl Facts.process (facts.push p u) = (pre.foldl Facts.process facts).push p u := by
  induction pre generalizing facts with
  | nil => rfl
  | cons stpl pre ih =>
    rw [List.foldl_cons, List.foldl_cons, Facts.process_push (hne stpl List.mem_cons_self),
      ih fun stpl' hmem => hne stpl' (List.mem_cons_of_mem _ hmem)]

theorem Facts.allowsAll_append :
    facts.AllowsAll (pre ++ post) ↔
      facts.AllowsAll pre ∧ (pre.foldl Facts.process facts).AllowsAll post := by
  induction pre generalizing facts with
  | nil => exact (true_and _).symm.to_iff
  | cons stpl pre ih => rw [List.cons_append, AllowsAll, AllowsAll, ih, and_assoc, List.foldl_cons]

theorem Facts.allowsAll_of_push
    (hne : ∀ stpl ∈ pre, stpl.count ≤ 0 → stpl.tpl.pred.id = p → canon stpl.tpl.fields ≠ u)
    (h : (facts.push p u).AllowsAll pre) : facts.AllowsAll pre := by
  induction pre generalizing facts with
  | nil => trivial
  | cons stpl pre ih =>
    have hstpl := hne stpl List.mem_cons_self
    refine ⟨Facts.allows_of_push hstpl h.1, ih (fun stpl' hmem =>
      hne stpl' (List.mem_cons_of_mem _ hmem)) ?_⟩
    rw [← Facts.process_push hstpl]
    exact h.2

/-- The retraction takes away what was added. -/
theorem Facts.process_retraction (hcount : stpl2.count = -1) (hpred : stpl2.tpl.pred.id = p)
    (hu : canon stpl2.tpl.fields = u) : (facts.push p u).process stpl2 = facts := by
  rw [Facts.process, hcount, if_neg (by decide), hpred, hu, Facts.push_bag_self,
    Multiset.erase_cons_head, Facts.push]
  simp only [Function.update_idem, Function.update_eq_self]

/-! ### The search -/

/-- Facts without strings are compared; those that are equal are found again, and are the same. -/
theorem same_spec (h2 : Valid prog stpl2) (h : Valid prog stpl) :
    ∃ b, stpl2.tpl.same stpl.tpl = .ok b ∧ (b = true → stpl2.tpl.pred.id = stpl.tpl.pred.id ∧
      canon stpl2.tpl.fields = canon stpl.tpl.fields ∧ Findable (canon stpl.tpl.fields)) ∧
      (stpl2.tpl.pred.id = stpl.tpl.pred.id → canon stpl2.tpl.fields = canon stpl.tpl.fields →
        Findable (canon stpl.tpl.fields) → b = true) := by
  rw [Tuple.same]
  split_ifs with hpred
  · have hty : stpl2.tpl.fields.map Value.type = stpl.tpl.fields.map Value.type := by
      rw [h2.typed.types, h.typed.types, hpred]
    obtain ⟨b, hok, hb⟩ := tupleEqual_of_noString hty fun v hv =>
      h2.noString _ (h2.typed.types ▸ List.mem_map_of_mem hv)
    refine ⟨b, hok, fun hbt => ?_, fun _ hcanon hfind => ?_⟩
    · obtain ⟨hf2, hf⟩ := findable_of_sameValues (hb.mp hbt) h2.narrow
      exact ⟨congrArg Predicate.id hpred, (sameValues_iff hty hf2 hf).mp (hb.mp hbt),
        findable_canon.mpr hf⟩
    · have hf := findable_canon.mp hfind
      have hf2 : Findable stpl2.tpl.fields := findable_canon.mp (hcanon ▸ hfind)
      exact hb.mpr ((sameValues_iff hty hf2 hf).mpr hcanon)
  · refine ⟨false, rfl, fun hb => absurd hb Bool.false_ne_true, fun hid => ?_⟩
    exact absurd (by rw [h2.pred, h.pred, hid]) hpred

/-- The search finds the first retraction of the fact. -/
theorem searchForNegativeTuple_spec {q : SimpleTuple → Bool} (h : Valid prog stpl)
    (hqueue : ∀ stpl2 ∈ queue, Valid prog stpl2 ∧ q stpl2 = true) :
    Run.searchForNegativeTuple q stpl.tpl queue = .ok none ∨
      ∃ pre stpl2 post, queue = pre ++ stpl2 :: post ∧
        Run.searchForNegativeTuple q stpl.tpl queue = .ok (some (pre ++ post)) ∧
        stpl2.count = -1 ∧ stpl2.tpl.pred.id = stpl.tpl.pred.id ∧
        canon stpl2.tpl.fields = canon stpl.tpl.fields ∧ Findable (canon stpl.tpl.fields) ∧
        ∀ x ∈ pre, x.count ≤ 0 → x.tpl.pred.id = stpl.tpl.pred.id →
          canon x.tpl.fields ≠ canon stpl.tpl.fields := by
  induction queue with
  | nil => exact Or.inl rfl
  | cons stpl2 queue ih =>
    obtain ⟨h2, hq⟩ := hqueue stpl2 List.mem_cons_self
    have ih := ih fun x hx => hqueue x (List.mem_cons_of_mem _ hx)
    obtain ⟨b, hok, hfound, hmust⟩ := same_spec h2 h
    have hneg : Run.isNegativeOf q stpl.tpl stpl2 =
        if stpl2.count = -1 then stpl2.tpl.same stpl.tpl else pure false := by
      simp only [Run.isNegativeOf, hq, Bool.true_and, beq_iff_eq]
    by_cases hmatch : stpl2.count = -1 ∧ b = true
    · obtain ⟨hpred, hcanon, hfind⟩ := hfound hmatch.2
      refine Or.inr ⟨[], stpl2, queue, rfl, ?_, hmatch.1, hpred, hcanon, hfind, by simp⟩
      rw [Run.searchForNegativeTuple, hneg, if_pos hmatch.1, hok, hmatch.2]
      rfl
    · have hskip : Run.searchForNegativeTuple q stpl.tpl (stpl2 :: queue) =
          (do return (← Run.searchForNegativeTuple q stpl.tpl queue).map (stpl2 :: ·)) := by
        rw [Run.searchForNegativeTuple, hneg]
        by_cases hcount : stpl2.count = -1
        · rw [if_pos hcount, hok, Bool.eq_false_iff.mpr fun hb => hmatch ⟨hcount, hb⟩]
          rfl
        · rw [if_neg hcount]
          rfl
      rw [hskip]
      rcases ih with hnone | ⟨pre, x, post, rfl, hsome, hcount, hpred, hcanon, hfind, hpre⟩
      · exact Or.inl (by rw [hnone]; rfl)
      · refine Or.inr ⟨stpl2 :: pre, x, post, rfl, by rw [hsome]; rfl, hcount, hpred, hcanon, hfind,
          List.forall_mem_cons.mpr ⟨fun hneg hpred' hcanon' => ?_, hpre⟩⟩
        have hone : stpl2.count = -1 := h2.count.resolve_left (by omega)
        exact hmatch ⟨hone, hmust hpred' hcanon' hfind⟩

/-- The search for a fact of a predicate that is no aggregate. -/
theorem searchForNegative_eq (h : Valid prog stpl) : Run.searchForNegative stpl queue =
    if stpl.count = 1 then
      Run.searchForNegativeTuple (fun other => !other.tpl.pred.isAggregate) stpl.tpl queue
    else pure none := by
  simp only [Run.searchForNegative, h.persistent, h.notAggregate, h.notFinal, Bool.true_and,
    beq_iff_eq, Bool.false_eq_true, if_false, assert, if_true, pure_eq_ok, ok_bind]

/-! ### The whole queue -/

/-- The facts after the queue was processed with the look-ahead. -/
theorem doPersistentTuples_spec {fuel : ℕ} (hfuel : queue.length ≤ fuel)
    (h : Storage.Stores prog node facts) (hvalid : ∀ stpl ∈ queue, Valid prog stpl)
    (hallows : facts.AllowsAll queue) :
    ∃ node', doPersistentTuples fuel node queue = .ok node' ∧
      Storage.Stores prog node' (queue.foldl Facts.process facts) := by
  induction fuel generalizing node facts queue with
  | zero =>
    obtain rfl := List.length_eq_zero_iff.mp (Nat.le_zero.mp hfuel)
    exact ⟨node, rfl, h⟩
  | succ fuel ih =>
    cases queue with
    | nil => exact ⟨node, rfl, h⟩
    | cons stpl queue =>
      have hstpl := hvalid stpl List.mem_cons_self
      have hqueue : ∀ x ∈ queue, Valid prog x := fun x hx =>
        hvalid x (List.mem_cons_of_mem _ hx)
      rw [List.length_cons] at hfuel
      -- the fact is processed: it is a retraction, or nothing in the queue retracts it
      have hprocess : doPersistentTuples (fuel + 1) node (stpl :: queue) = (do
          doPersistentTuples fuel (← processPersistentTuple node stpl) queue) →
          ∃ node', doPersistentTuples (fuel + 1) node (stpl :: queue) = .ok node' ∧
            Storage.Stores prog node' ((stpl :: queue).foldl Facts.process facts) := by
        intro heq
        obtain ⟨node₁, hok, h₁⟩ := processPersistentTuple_spec h hstpl hallows.1
        obtain ⟨node', hrest, h'⟩ := ih (by omega) h₁ hqueue hallows.2
        exact ⟨node', by rw [heq, hok, ok_bind, hrest], h'⟩
      by_cases hone : stpl.count = 1
      · have hnormal : ∀ x ∈ queue, Valid prog x ∧ (!x.tpl.pred.isAggregate) = true :=
          fun x hx => ⟨hqueue x hx, by rw [(hqueue x hx).notAggregate, Bool.not_false]⟩
        rcases searchForNegativeTuple_spec hstpl hnormal with hnone |
          ⟨pre, stpl2, post, rfl, hsome, hcount, hpred, hcanon, hfind, hpre⟩
        · refine hprocess ?_
          rw [doPersistentTuples, searchForNegative_eq hstpl, if_pos hone, hnone]
          rfl
        · -- the pair is dropped
          have hpush : facts.process stpl =
              facts.push stpl.tpl.pred.id (canon stpl.tpl.fields) := by
            rw [Facts.process, if_pos (by omega), if_pos hfind]
          have hdrop : (pre ++ stpl2 :: post).foldl Facts.process (facts.process stpl) =
              (pre ++ post).foldl Facts.process facts := by
            rw [hpush, List.foldl_append, Facts.foldl_push hpre, List.foldl_cons,
              Facts.process_retraction hcount hpred hcanon, List.foldl_append]
          have hallows' : facts.AllowsAll (pre ++ post) := by
            have hall := hallows.2
            rw [hpush, Facts.allowsAll_append, Facts.foldl_push hpre] at hall
            refine Facts.allowsAll_append.mpr ⟨Facts.allowsAll_of_push hpre hall.1, ?_⟩
            have hpost := hall.2.2
            rwa [Facts.process_retraction hcount hpred hcanon] at hpost
          obtain ⟨node', hrest, h'⟩ := ih (by
              simp only [List.length_append, List.length_cons] at hfuel ⊢
              omega) h (fun x hx => hqueue x (by
              simp only [List.mem_append, List.mem_cons] at hx ⊢
              exact hx.imp_right Or.inr)) hallows'
          refine ⟨node', ?_, ?_⟩
          · rw [doPersistentTuples, searchForNegative_eq hstpl, if_pos hone, hsome, ok_bind]
            exact hrest
          · rw [List.foldl_cons, hdrop]
            exact h'
      · refine hprocess ?_
        rw [doPersistentTuples, searchForNegative_eq hstpl, if_neg hone]
        rfl

/-- Dropping a fact with its retraction leaves the same facts with the same counts as processing
every fact of the queue. -/
theorem cancelling_sound (prog : Program) (node : Storage) (facts : Facts)
    (queue : List SimpleTuple) (h : Storage.Stores prog node facts)
    (hvalid : ∀ stpl ∈ queue, Valid prog stpl) (hallows : facts.AllowsAll queue) :
    ∃ node₁ node₂, processAll node queue = .ok node₁ ∧
      doPersistentTuples queue.length node queue = .ok node₂ ∧
      ∀ p, TupleTrie.SameFacts (node₁ p) (node₂ p) := by
  obtain ⟨node₁, hok₁, h₁⟩ := processAll_spec h hvalid hallows
  obtain ⟨node₂, hok₂, h₂⟩ := doPersistentTuples_spec le_rfl h hvalid hallows
  refine ⟨node₁, node₂, hok₁, hok₂, fun p => ?_⟩
  obtain ⟨word₁, ls₁, hs₁⟩ := h₁ p
  obtain ⟨word₂, ls₂, hs₂⟩ := h₂ p
  exact hs₁.sameFacts hs₂

/-- A predicate with one field. -/
def samplePred (τ : FieldType) : Predicate := { id := 0, types := [τ] }

/-- The program that has only this predicate. -/
def sampleProgram (τ : FieldType) : Program where
  predicates := [samplePred τ]
  rules := []
  id_eq i h := by
    obtain rfl : i = 0 := Nat.lt_one_iff.mp h
    rfl
  affected_lt p hp r hr := by
    rw [List.mem_singleton.mp hp] at hr
    cases hr
  body_lt r hr := by cases hr
  lists_agree p hp r hr := by cases hr

/-- The fact `7` of the predicate, added or retracted. -/
def sampleFact (pred : Predicate) (count : ℤ) : SimpleTuple :=
  { tpl := ⟨pred, [.item (.int 7)]⟩, count := count }

/-- The node without facts, and a fact that is added, added again and retracted. -/
theorem cancelling_sound_sample : ∃ node₁ node₂,
    processAll (fun _ => Trie.new) [sampleFact (samplePred (.item .int)) 1,
      sampleFact (samplePred (.item .int)) 1, sampleFact (samplePred (.item .int)) (-1)] =
        .ok node₁ ∧
    doPersistentTuples 3 (fun _ => Trie.new) [sampleFact (samplePred (.item .int)) 1,
      sampleFact (samplePred (.item .int)) 1, sampleFact (samplePred (.item .int)) (-1)] =
        .ok node₂ ∧
    ∀ p, TupleTrie.SameFacts (node₁ p) (node₂ p) := by
  have hnew : Storage.Stores (sampleProgram (.item .int)) (fun _ => Trie.new)
      ⟨fun _ => 0, fun _ => 0⟩ := fun p => ⟨_, _, TupleTrie.Stores.new _⟩
  have hvalid : ∀ k : ℤ, k = 1 ∨ k = -1 →
      Valid (sampleProgram (.item .int)) (sampleFact (samplePred (.item .int)) k) := fun k hk =>
    ⟨rfl, rfl, rfl, rfl, rfl, by simp [sampleFact, samplePred, NoString],
      ⟨rfl, by simp [sampleFact, Value.Ok]⟩, hk⟩
  refine cancelling_sound (sampleProgram (.item .int)) _ ⟨fun _ => 0, fun _ => 0⟩ _ hnew ?_ ?_
  · intro stpl hmem
    simp only [List.mem_cons, List.not_mem_nil, or_false] at hmem
    rcases hmem with rfl | rfl | rfl
    · exact hvalid 1 (Or.inl rfl)
    · exact hvalid 1 (Or.inl rfl)
    · exact hvalid (-1) (Or.inr rfl)
  · refine ⟨⟨fun _ => ⟨by decide +kernel, by decide +kernel⟩, by decide⟩,
      ⟨fun _ => ⟨by decide +kernel, by decide +kernel⟩, by decide⟩, ⟨by decide, fun _ => ?_⟩,
      trivial⟩
    decide +kernel

/-- The fact `7` inserted 65536 times: the trie is left with a leaf whose count is zero. -/
def wrappedTrie : Exec TupleTrie :=
  TupleTrie.runAll Trie.new [.insert [.item (.int 7)] 32767, .insert [.item (.int 7)] 32767,
    .insert [.item (.int 7)] 2]

/-- A count out of its range: the retraction stops at the assertion on the references. A predicate
that is re-used: its facts are not retracted. A string: the search throws when it compares the
fields, which processing the facts one by one does not do. -/
theorem not_cancelling_sound :
    (∃ t node₂, TupleTrie.Reachable [.item .int] t ∧
      processAll (fun _ => t) [sampleFact (samplePred (.item .int)) 1,
        sampleFact (samplePred (.item .int)) (-1)] = .error .assertion ∧
      doPersistentTuples 2 (fun _ => t) [sampleFact (samplePred (.item .int)) 1,
        sampleFact (samplePred (.item .int)) (-1)] = .ok node₂) ∧
    (∃ node₁ node₂,
      processAll (fun _ => Trie.new)
        [sampleFact { samplePred (.item .int) with isReused := true } 1,
          sampleFact { samplePred (.item .int) with isReused := true } (-1)] = .ok node₁ ∧
      doPersistentTuples 2 (fun _ => Trie.new)
        [sampleFact { samplePred (.item .int) with isReused := true } 1,
          sampleFact { samplePred (.item .int) with isReused := true } (-1)] = .ok node₂ ∧
      ¬ TupleTrie.SameFacts (node₁ 0) (node₂ 0)) ∧
    (∃ node₁, processAll (fun _ => Trie.new)
      [{ tpl := ⟨samplePred .string, [.string 7]⟩, count := 1 },
        { tpl := ⟨samplePred .string, [.string 7]⟩, count := -1 }] = .ok node₁) ∧
    doPersistentTuples 2 (fun _ => Trie.new)
      [{ tpl := ⟨samplePred .string, [.string 7]⟩, count := 1 },
        { tpl := ⟨samplePred .string, [.string 7]⟩, count := -1 }] = .error .thrown := by
  refine ⟨?_, ?_, ?_, rfl⟩
  · have hrun : (do
        let t ← wrappedTrie
        let (t₁, _) ← t.insertTuple [.item (.int 7)] 1
        let (t₂, info) ← t₁.deleteTuple [.item (.int 7)] 1
        return decide ((t₂.commit info).map (fun _ => ()) = .error .assertion) : Exec Bool) =
          .ok true := by
      decide +kernel
    obtain ⟨t, ht, hrun⟩ := bind_eq_ok.mp hrun
    obtain ⟨⟨t₁, b⟩, h₁, hrun⟩ := bind_eq_ok.mp hrun
    obtain ⟨⟨t₂, info⟩, h₂, hrun⟩ := bind_eq_ok.mp hrun
    have hcommit : t₂.commit info = .error .assertion := by
      simp only [pure_eq_ok, Except.ok.injEq, decide_eq_true_eq] at hrun
      cases hc : t₂.commit info with
      | error e => simpa [hc, Except.map] using hrun
      | ok t => simp [hc, Except.map] at hrun
    have hfits : ∀ op ∈ [TupleTrie.Op.insert [.item (.int 7)] 32767, .insert [.item (.int 7)] 32767,
        .insert [.item (.int 7)] 2], ∀ t, op.Fits [.item .int] t := by
      have htpl : TupleTrie.Typed [.item .int] [.item (.int 7)] := ⟨rfl, by simp [Value.Ok]⟩
      simp [TupleTrie.Op.Fits, htpl, maxShort]
    refine ⟨t, fun _ => t, TupleTrie.Reachable.new.runAll hfits ht, ?_, rfl⟩
    have hadd : processPersistentTuple (fun _ => t) (sampleFact (samplePred (.item .int)) 1) =
        .ok (Function.update (fun _ => t) 0 t₁) := by
      rw [processPersistentTuple, sampleFact, if_pos Int.one_pos]
      exact (congrArg (· >>= _) h₁).trans rfl
    have htake : processPersistentTuple (Function.update (fun _ => t) 0 t₁)
        (sampleFact (samplePred (.item .int)) (-1)) = .error .assertion := by
      rw [processPersistentTuple, sampleFact, if_neg (by decide), if_neg (by decide)]
      change (Function.update (fun _ => t) 0 t₁ 0).deleteTuple _ _ >>= _ = _
      rw [Function.update_self, neg_neg, h₂, ok_bind]
      simp only [hcommit]
      rfl
    rw [processAll, List.foldlM_cons, hadd, ok_bind, List.foldlM_cons, htake]
    rfl
  · have hrun : (do
        let (t, _) ← TupleTrie.insertTuple Trie.new [.item (.int 7)] 1
        return t.firstLeaf : Exec (Option ℕ)) = .ok (some 0) := by
      decide +kernel
    obtain ⟨⟨t, b⟩, h₁, hrun⟩ := bind_eq_ok.mp hrun
    refine ⟨Function.update (fun _ => Trie.new) 0 t, fun _ => Trie.new, ?_, rfl, ?_⟩
    · have hadd : processPersistentTuple (fun _ => Trie.new)
          (sampleFact { samplePred (.item .int) with isReused := true } 1) =
            .ok (Function.update (fun _ => Trie.new) 0 t) := by
        rw [processPersistentTuple, sampleFact, if_pos Int.one_pos]
        exact (congrArg (· >>= _) h₁).trans rfl
      rw [processAll, List.foldlM_cons, hadd, ok_bind]
      rfl
    · rintro ⟨ls, ls', hls, hls', hperm⟩
      rw [hls'.empty_iff.mp rfl, List.map_nil, List.perm_nil, List.map_eq_nil_iff] at hperm
      rw [Function.update_self] at hls
      simp only [hls.empty_iff.mpr hperm, pure_eq_ok] at hrun
      cases hrun
  · have hrun : (processAll (fun _ => Trie.new)
        [{ tpl := ⟨samplePred .string, [.string 7]⟩, count := 1 },
          { tpl := ⟨samplePred .string, [.string 7]⟩, count := -1 }]).isOk = true := by
      decide +kernel
    cases h : processAll (fun _ => Trie.new)
        [{ tpl := ⟨samplePred .string, [.string 7]⟩, count := 1 },
          { tpl := ⟨samplePred .string, [.string 7]⟩, count := -1 }] with
    | ok node₁ => exact ⟨node₁, rfl⟩
    | error e => rw [h] at hrun; cases hrun

end Meld.Vm.Persistent
