import Meld.Vm.LinearRuns
import Meld.Vm.RuleQueue

/-!
# The counters of linear facts

Between the steps of a harmless run the rule matcher counts, for each linear predicate, the
references in the database and the facts in hand, without the leaves that are still to be deleted
(`InRun`). `Shift` is what the parts of a call do to that sum: how many more facts the matcher
counts than the database has.
-/

namespace Meld.Vm

open Lib Db

section

variable {prog : Program} {α ω : Type} {sur : Surroundings prog α ω} {node : ℕ}

/-! ### What the matcher counts and the database has not -/

/-- The counters of the linear predicates are the numbers of references in the database with `x`,
as signed 16-bit numbers. -/
def SimNode.Balance (prog : Program) (n : SimNode (LinearDb α)) (x : ℕ → ℤ) : Prop :=
  ∀ p, (prog.getPredicate p).isLinear = true →
    (∃ word ls, TupleTrie.Inv (prog.getPredicate p).types (n.database.tuples p) word ls) ∧
    0 ≤ (n.database.tuples p).numberOfReferences ∧
    n.matcher.matcher.predicateCount p = wrap16 ((n.database.tuples p).numberOfReferences + x p)

/-- The counters of the linear predicates are the numbers of references in the database. -/
def SimNode.Settled (prog : Program) (n : SimNode (LinearDb α)) : Prop :=
  n.Balance prog (fun _ => 0) ∧ ∀ p, (prog.getPredicate p).isLinear = true →
    (n.database.tuples p).numberOfReferences ≤ maxShort

theorem SimNode.Balance.congr {n n' : SimNode (LinearDb α)} {x y : ℕ → ℤ} (h : n.Balance prog x)
    (hm : n'.matcher = n.matcher) (hd : n'.database = n.database)
    (hxy : ∀ p, (prog.getPredicate p).isLinear = true → x p = y p) : n'.Balance prog y := by
  intro p hp
  rw [hm, hd, ← hxy p hp]
  exact h p hp

theorem SimNode.Settled.congr {n n' : SimNode (LinearDb α)} (h : n.Settled prog)
    (hm : n'.matcher = n.matcher) (hd : n'.database = n.database) : n'.Settled prog :=
  ⟨h.1.congr hm hd fun _ _ => rfl, hd ▸ h.2⟩

theorem SimNode.Settled.count_eq {n : SimNode (LinearDb α)} (h : n.Settled prog) {p : ℕ}
    (hp : (prog.getPredicate p).isLinear = true) :
    n.matcher.matcher.predicateCount p = (n.database.tuples p).numberOfReferences := by
  obtain ⟨-, hpos, hcount⟩ := h.1 p hp
  have hle := h.2 p hp
  rw [hcount, add_zero, wrap16_of_mem (by simp only [maxShort]; omega) hle]

/-- `c` for the predicate `p`, and nothing for the others. -/
def forPred (p : ℕ) (c : ℤ) (q : ℕ) : ℤ := if q = p then c else 0

theorem forPred_self {p : ℕ} {c : ℤ} : forPred p c p = c := if_pos rfl

theorem forPred_of_ne {p q : ℕ} {c : ℤ} (h : q ≠ p) : forPred p c q = 0 := if_neg h

theorem forPred_neg (p : ℕ) (c : ℤ) (q : ℕ) : forPred p (-c) q = -forPred p c q := by
  rw [forPred, forPred]
  split_ifs <;> omega

theorem wrap16_add (x y : ℤ) : wrap16 (wrap16 x + y) = wrap16 (x + y) := Int.bmod_add_bmod

namespace Run

/-- The node's matcher counts `k` more facts in `r'`, compared with its database, than in `r`, and
the other nodes have the facts they had. -/
structure Shift (prog : Program) (node : ℕ) (r r' : Run (LinearDb α) ω) (k : ℕ → ℤ) : Prop where
  others : ∀ n, n ≠ node → (r'.env.nodes n).matcher = (r.env.nodes n).matcher ∧
    (r'.env.nodes n).database = (r.env.nodes n).database
  balance : ∀ x, (r.env.nodes node).Balance prog x →
    (r'.env.nodes node).Balance prog fun p => x p + k p

variable {r r₁ r' : Run (LinearDb α) ω} {k k' : ℕ → ℤ} {tpl : Tuple} {stpl : SimpleTuple}
  {facts kept : List SimpleTuple}

theorem Shift.congr (h : Shift prog node r r' k)
    (hk : ∀ p, (prog.getPredicate p).isLinear = true → k p = k' p) : Shift prog node r r' k' :=
  ⟨h.others, fun x hx => (h.balance x hx).congr rfl rfl fun p hp => by rw [hk p hp]⟩

theorem Shift.of_sameFacts (h : r.env.SameFacts r'.env) : Shift prog node r r' fun _ => 0 :=
  ⟨fun n _ => h n, fun _ hx => hx.congr (h node).1 (h node).2 fun _ _ => (add_zero _).symm⟩

/-- A part that only changes what the thread holds. -/
theorem Shift.of_env (h : r'.env = r.env) : Shift prog node r r' fun _ => 0 :=
  .of_sameFacts fun _ => by rw [h]; exact ⟨rfl, rfl⟩

theorem Shift.trans (h : Shift prog node r r₁ k) (h' : Shift prog node r₁ r' k') :
    Shift prog node r r' fun p => k p + k' p where
  others n hn := ⟨(h'.others n hn).1.trans (h.others n hn).1,
    (h'.others n hn).2.trans (h.others n hn).2⟩
  balance x hx := (h'.balance _ (h.balance x hx)).congr rfl rfl fun _ _ => add_assoc ..

/-- A part after one that changes nothing. -/
theorem Shift.of_same_trans (h : r.env.SameFacts r₁.env) (h' : Shift prog node r₁ r' k) :
    Shift prog node r r' k :=
  ((Shift.of_sameFacts h).trans h').congr fun _ _ => zero_add _

theorem Shift.trans_same (h : Shift prog node r r₁ k) (h' : r₁.env.SameFacts r'.env) :
    Shift prog node r r' k :=
  (h.trans (Shift.of_sameFacts h')).congr fun _ _ => add_zero _

theorem sameFacts_refl (env : Env (LinearDb α) ω) : env.SameFacts env := fun _ => ⟨rfl, rfl⟩

theorem sameFacts_trans {env₁ env₂ env₃ : Env (LinearDb α) ω} (h : env₁.SameFacts env₂)
    (h' : env₂.SameFacts env₃) : env₁.SameFacts env₃ := fun n =>
  ⟨(h' n).1.trans (h n).1, (h' n).2.trans (h n).2⟩

/-! ### One change of the matcher or the database -/

/-- The linear predicates are not changed by what happens to another. -/
theorem single_of_not_linear {p : ℕ} {c : ℤ} (hpred : tpl.pred = prog.getPredicate tpl.pred.id)
    (hlin : tpl.pred.isLinear = false) (hp : (prog.getPredicate p).isLinear = true) :
    forPred tpl.pred.id c p = 0 := by
  refine forPred_of_ne ?_
  rintro rfl
  rw [hpred, hp] at hlin
  cases hlin

theorem shift_setMatcher {m : NodeMatcher}
    (h : ∀ p, (k p = 0 ∧
        m.matcher.predicateCount p = (r.getNode node).matcher.matcher.predicateCount p) ∨
      m.matcher.predicateCount p =
        wrap16 ((r.getNode node).matcher.matcher.predicateCount p + k p)) :
    Shift prog node r (r.setMatcher node m) k where
  others n hn := by simp [setMatcher, setNode, setEnv, hn]
  balance x hx p hp := by
    obtain ⟨hinv, hpos, hcount⟩ := hx p hp
    have hnode : (r.setMatcher node m).env.nodes node =
        { r.getNode node with matcher := m } := by simp [setMatcher, setNode, setEnv]
    rw [hnode]
    refine ⟨hinv, hpos, ?_⟩
    change m.matcher.predicateCount p =
      wrap16 (((r.env.nodes node).database.tuples p).numberOfReferences + (x p + k p))
    rcases h p with ⟨hz, hp⟩ | hp
    · rw [hp, hz, add_zero]
      exact hcount
    · rw [hp, getNode, hcount, wrap16_add, add_assoc]

theorem shift_setDatabase {d : LinearDb α}
    (h : ∀ p, (prog.getPredicate p).isLinear = true →
      (∃ word ls, TupleTrie.Inv (prog.getPredicate p).types ((r.getNode node).database.tuples p)
        word ls) → 0 ≤ ((r.getNode node).database.tuples p).numberOfReferences →
      (∃ word ls, TupleTrie.Inv (prog.getPredicate p).types (d.tuples p) word ls) ∧
        0 ≤ (d.tuples p).numberOfReferences ∧ (d.tuples p).numberOfReferences + k p =
          ((r.getNode node).database.tuples p).numberOfReferences) :
    Shift prog node r (r.setDatabase node d) k where
  others n hn := by simp [setDatabase, setNode, setEnv, hn]
  balance x hx p hp := by
    obtain ⟨hinv, hpos, hcount⟩ := hx p hp
    obtain ⟨hinv', hpos', href⟩ := h p hp hinv hpos
    have hnode : (r.setDatabase node d).env.nodes node =
        { r.getNode node with database := d } := by simp [setDatabase, setNode, setEnv]
    rw [hnode]
    refine ⟨hinv', hpos', ?_⟩
    change (r.env.nodes node).matcher.matcher.predicateCount p = _
    rw [hcount]
    congr 1
    change ((r.getNode node).database.tuples p).numberOfReferences + x p =
      (d.tuples p).numberOfReferences + (x p + k p)
    omega

/-- `register_tuple` counts more. -/
theorem shift_register {c : ℤ} {isNew : Bool} :
    Shift prog node r (r.setMatcher node ((r.getNode node).matcher.registerTuple tpl c isNew))
      (forPred tpl.pred.id c) := by
  refine shift_setMatcher fun p => ?_
  have hsame : ∀ m : RuleMatcher, (if (isNew && decide (m.predicateCount tpl.pred.id = 0)) = true
      then m.registerPredicateAvailability tpl.pred else m).predicateCount = m.predicateCount :=
    fun m => by split_ifs <;> simp
  simp only [NodeMatcher.registerTuple, RuleMatcher.registerTuple,
    RuleMatcher.setCount_predicateCount, hsame]
  rcases eq_or_ne p tpl.pred.id with rfl | hne
  · rw [if_pos rfl, forPred_self]
    exact .inr rfl
  · rw [if_neg hne, forPred_of_ne hne]
    exact .inl ⟨rfl, rfl⟩

/-- `deregister_tuple` counts less. -/
theorem shift_deregister {c : ℤ} {m : NodeMatcher}
    (h : (r.getNode node).matcher.deregisterTuple tpl c = .ok m) :
    Shift prog node r (r.setMatcher node m) (forPred tpl.pred.id (-c)) := by
  refine shift_setMatcher fun p => ?_
  have hm : ∃ b, (r.getNode node).matcher.matcher.deregisterTuple tpl.pred c =
      .ok (m.matcher, b) := by
    rw [NodeMatcher.deregisterTuple] at h
    split at h
    · rename_i m' b hok
      cases h
      exact ⟨b, hok⟩
    · cases h
  obtain ⟨b, hm⟩ := hm
  simp only [RuleMatcher.deregisterTuple, bind_eq_ok, pure_eq_ok, Except.ok.injEq,
    Prod.mk.injEq] at hm
  obtain ⟨-, -, hm, -⟩ := hm
  have hsame : ∀ m : RuleMatcher, (if (decide (m.predicateCount tpl.pred.id = c)) = true
      then m.registerPredicateUnavailability tpl.pred else m).predicateCount = m.predicateCount :=
    fun m => by split_ifs <;> simp
  rw [← hm, RuleMatcher.setCount_predicateCount, hsame]
  rcases eq_or_ne p tpl.pred.id with rfl | hne
  · rw [if_pos rfl, forPred_self, sub_eq_add_neg]
    exact .inr rfl
  · rw [if_neg hne, forPred_of_ne hne]
    exact .inl ⟨rfl, rfl⟩

/-- A fact more in the database has a reference more. -/
theorem addTuple_references {d d' : LinearDb α} {b : Bool}
    (hpred : tpl.pred = prog.getPredicate tpl.pred.id)
    (htyped : tpl.pred.isLinear = true → TupleTrie.Typed tpl.pred.types tpl.fields)
    (h : LinearDb.addTuple sur tpl 1 d = .ok (d', b)) {p : ℕ}
    (hp : (prog.getPredicate p).isLinear = true)
    (hinv : ∃ word ls, TupleTrie.Inv (prog.getPredicate p).types (d.tuples p) word ls) :
    (∃ word ls, TupleTrie.Inv (prog.getPredicate p).types (d'.tuples p) word ls) ∧
      (d'.tuples p).numberOfReferences =
        (d.tuples p).numberOfReferences + forPred tpl.pred.id 1 p := by
  rw [LinearDb.addTuple] at h
  split_ifs at h with hlin
  · simp only [bind_eq_ok, pure_eq_ok, Except.ok.injEq, Prod.mk.injEq] at h
    obtain ⟨⟨t, isNew⟩, hins, rfl, -⟩ := h
    rcases eq_or_ne p tpl.pred.id with rfl | hne
    · obtain ⟨word, ls, hinv⟩ := hinv
      simp only [Function.update_self, forPred_self]
      exact TupleTrie.insertTuple_references hinv (hpred ▸ htyped hlin) hins
    · simp only [Function.update_of_ne hne, forPred_of_ne hne, add_zero, and_true]
      exact hinv
  · simp only [bind_eq_ok, pure_eq_ok, Except.ok.injEq, Prod.mk.injEq] at h
    obtain ⟨⟨rest, isNew⟩, -, rfl, -⟩ := h
    exact ⟨hinv, by rw [single_of_not_linear hpred (by simpa using hlin) hp, add_zero]⟩

/-- So the matcher counts one less that the database has not. -/
theorem shift_addTuple {d : LinearDb α} {b : Bool}
    (hpred : tpl.pred = prog.getPredicate tpl.pred.id)
    (htyped : tpl.pred.isLinear = true → TupleTrie.Typed tpl.pred.types tpl.fields)
    (h : LinearDb.addTuple sur tpl 1 (r.getNode node).database = .ok (d, b)) :
    Shift prog node r (r.setDatabase node d) (forPred tpl.pred.id (-1)) := by
  refine shift_setDatabase fun p hp hinv hpos => ?_
  obtain ⟨hinv', href⟩ := addTuple_references hpred htyped h hp hinv
  have hone : 0 ≤ forPred tpl.pred.id 1 p := by
    rw [forPred]
    split_ifs <;> omega
  exact ⟨hinv', by omega, by rw [href, forPred_neg]; omega⟩

/-- A fact less in the database. -/
theorem shift_deleteByLeaf {pred : Predicate} {leaf : ℕ} {d : LinearDb α}
    (hpred : pred = prog.getPredicate pred.id)
    (h : LinearDb.deleteByLeaf sur pred leaf (r.getNode node).database = .ok d) :
    Shift prog node r (r.setDatabase node d) (forPred pred.id 1) := by
  refine shift_setDatabase fun p hp hinv hpos => ?_
  rw [LinearDb.deleteByLeaf] at h
  split_ifs at h with hlin
  · simp only [bind_eq_ok, pure_eq_ok, Except.ok.injEq] at h
    obtain ⟨t, hdel, rfl⟩ := h
    rcases eq_or_ne p pred.id with rfl | hne
    · obtain ⟨word, ls, hinv⟩ := hinv
      obtain ⟨hinv', hpos', href⟩ := TupleTrie.deleteByLeaf_references hinv hdel
      simp only [Function.update_self, forPred_self]
      exact ⟨hinv', hpos', href⟩
    · simp only [Function.update_of_ne hne, forPred_of_ne hne, add_zero, and_true]
      exact ⟨hinv, hpos⟩
  · simp only [bind_eq_ok, pure_eq_ok, Except.ok.injEq] at h
    obtain ⟨rest, -, rfl⟩ := h
    have hne : p ≠ pred.id := by
      rintro rfl
      exact hlin (hpred ▸ hp)
    simp only [forPred_of_ne hne, add_zero, and_true]
    exact ⟨hinv, hpos⟩

/-! ### The facts that the thread holds -/

/-- A fact of a predicate of the program; a linear one is well-typed and counts once. -/
structure Counted (prog : Program) (stpl : SimpleTuple) : Prop where
  pred : stpl.tpl.pred = prog.getPredicate stpl.tpl.pred.id
  typed : stpl.tpl.pred.isLinear = true → TupleTrie.Typed stpl.tpl.pred.types stpl.tpl.fields
  count : stpl.tpl.pred.isLinear = true → stpl.count = 1

/-- A fact among the persistent ones; a linear one is reused. -/
structure Queued (prog : Program) (stpl : SimpleTuple) : Prop where
  pred : stpl.tpl.pred = prog.getPredicate stpl.tpl.pred.id
  typed : stpl.tpl.pred.isLinear = true → TupleTrie.Typed stpl.tpl.pred.types stpl.tpl.fields
  reused : stpl.tpl.pred.isLinear = true → stpl.tpl.pred.isReused = true
  count : stpl.tpl.pred.isLinear = true → stpl.count = 1 ∨ stpl.count = -1

theorem counted_of_valid (h : stpl.Valid prog) : Counted prog stpl :=
  ⟨h.tpl.pred, fun _ => h.tpl.typed, h.count⟩

theorem queued_of_valid (h : stpl.Valid prog)
    (hr : stpl.tpl.pred.isLinear = true → stpl.tpl.pred.isReused = true) : Queued prog stpl :=
  ⟨h.tpl.pred, fun _ => h.tpl.typed, hr, fun hl => .inl (h.count hl)⟩

/-- The number of leaves of a predicate that are still to be deleted. -/
def leavesOf (p : ℕ) (leaves : List (Predicate × ℕ)) : ℕ := leaves.countP fun leaf => leaf.1.id = p

theorem numberOf_cons (p : ℕ) (stpl : SimpleTuple) (facts : List SimpleTuple) :
    (numberOf p (stpl :: facts) : ℤ) = numberOf p facts + forPred stpl.tpl.pred.id 1 p := by
  rcases eq_or_ne p stpl.tpl.pred.id with rfl | hne
  · rw [numberOf, List.countP_cons_of_pos (by simp), forPred_self]
    rfl
  · rw [numberOf, List.countP_cons_of_neg (by simpa using hne.symm), forPred_of_ne hne, add_zero]
    rfl

theorem numberOf_append (p : ℕ) (facts facts' : List SimpleTuple) :
    numberOf p (facts ++ facts') = numberOf p facts + numberOf p facts' := List.countP_append

/-- Facts of other predicates do not count. -/
theorem numberOf_eq_zero {p : ℕ} (hp : (prog.getPredicate p).isLinear = true)
    (h : ∀ stpl ∈ facts, stpl.tpl.pred = prog.getPredicate stpl.tpl.pred.id ∧
      stpl.tpl.pred.isLinear = false) : numberOf p facts = 0 := by
  refine List.countP_eq_zero.mpr fun stpl hmem heq => ?_
  obtain ⟨hpred, hlin⟩ := h stpl hmem
  rw [hpred, of_decide_eq_true heq, hp] at hlin
  cases hlin

/-! ### The parts of a call -/

/-- The facts that arrive are registered, if they are kept as local ones. -/
theorem markRulesUsingLocalTuples_spec (hvalid : ∀ stpl ∈ facts, stpl.Valid prog)
    (h : markRulesUsingLocalTuples (linearOps sur) node facts r = .ok (r', kept)) :
    Shift prog node r r' (fun p => numberOf p kept) ∧
      (∀ stpl ∈ kept, Counted prog stpl ∧ stpl.canBeConsumed = true) ∧
      ∃ env predicates more, (∀ stpl ∈ more, Queued prog stpl) ∧
        r' = { r with
          env := env
          predicates := predicates
          generatedPersistentTuples := r.generatedPersistentTuples ++ more } := by
  induction facts generalizing r kept with
  | nil =>
    cases h
    exact ⟨.of_env rfl, by simp, r'.env, r'.predicates, [], by simp, by simp⟩
  | cons stpl facts ih =>
    have hv := hvalid stpl List.mem_cons_self
    have hrest : ∀ stpl ∈ facts, stpl.Valid prog := fun x hx =>
      hvalid x (List.mem_cons_of_mem _ hx)
    rw [markRulesUsingLocalTuples] at h
    split_ifs at h with hconsume haction hother
    · exact ih hrest h
    · obtain ⟨env, henv, h⟩ := bind_eq_ok.mp h
      obtain ⟨hshift, hkept, env', predicates, more, hmore, rfl⟩ := ih hrest h
      have hsame : r.env.SameFacts env := sur.runAction_same henv
      exact ⟨.of_same_trans hsame hshift, hkept, env', predicates, more, hmore,
        rfl⟩
    · obtain ⟨hshift, hkept, env', predicates, more, hmore, rfl⟩ := ih hrest h
      have hsame : r.env.SameFacts (r.setGeneratedPersistentTuples
          (r.generatedPersistentTuples ++ [stpl])).env := sameFacts_refl _
      refine ⟨.of_same_trans hsame hshift, hkept, env', predicates, stpl :: more,
        fun x hx => ?_, by simp [setGeneratedPersistentTuples]⟩
      rcases List.mem_cons.mp hx with rfl | hx
      · refine queued_of_valid hv fun hl => ?_
        simpa [Predicate.isPersistent, hl] using hother
      · exact hmore x hx
    · obtain ⟨⟨r₁, kept₁⟩, hrec, h⟩ := bind_eq_ok.mp h
      cases h
      obtain ⟨hshift, hkept, env', predicates, more, hmore, rfl⟩ := ih hrest hrec
      have hlin : stpl.tpl.pred.isLinear = true := by
        by_contra hl
        simp [Predicate.isPersistent, hl] at hother
      refine ⟨?_, fun x hx => ?_, env', predicates, more, hmore, rfl⟩
      · rw [hv.count hlin] at hshift
        -- the fact that is kept is registered
        have hone : Shift prog node r ((r.setMatcher node
            ((r.getNode node).matcher.registerTuple stpl.tpl 1 true)).markPredicateToRun
              stpl.tpl.pred) (forPred stpl.tpl.pred.id 1) :=
          shift_register.trans_same (sameFacts_refl _)
        refine (hone.trans hshift).congr fun p _ => ?_
        rw [numberOf_cons, add_comm]
      · rcases List.mem_cons.mp hx with rfl | hx
        · exact ⟨counted_of_valid hv, by simpa using hconsume⟩
        · exact hkept x hx

/-- The facts that the rule has consumed are deregistered. -/
theorem processConsumedLocalTuples_spec (hc : ∀ stpl ∈ facts, Counted prog stpl)
    (h : processConsumedLocalTuples node facts r = .ok (r', kept)) :
    Shift prog node r r' (fun p => numberOf p kept - numberOf p facts) ∧
      (∀ stpl ∈ kept, stpl ∈ facts ∧ stpl.canBeConsumed = true) ∧ ∃ env, r' = r.setEnv env := by
  induction facts generalizing r kept with
  | nil =>
    cases h
    exact ⟨(Shift.of_env rfl).congr fun p _ => by simp [numberOf], by simp, r'.env, rfl⟩
  | cons stpl facts ih =>
    have hs := hc stpl List.mem_cons_self
    have hrest : ∀ stpl ∈ facts, Counted prog stpl := fun x hx => hc x (List.mem_cons_of_mem _ hx)
    rw [processConsumedLocalTuples] at h
    split_ifs at h with hconsume
    · obtain ⟨m, hm, h⟩ := bind_eq_ok.mp h
      obtain ⟨hshift, hkept, env, rfl⟩ := ih hrest h
      refine ⟨((shift_deregister hm).trans hshift).congr fun p hp => ?_, fun x hx => ?_, env, rfl⟩
      · rw [numberOf_cons]
        rcases Bool.eq_false_or_eq_true stpl.tpl.pred.isLinear with hlin | hlin
        · rw [hs.count hlin, forPred_neg]
          omega
        · rw [single_of_not_linear hs.pred hlin hp, single_of_not_linear hs.pred hlin hp]
          omega
      · obtain ⟨hx, hx'⟩ := hkept x hx
        exact ⟨List.mem_cons_of_mem _ hx, hx'⟩
    · obtain ⟨⟨r₁, kept₁⟩, hrec, h⟩ := bind_eq_ok.mp h
      cases h
      obtain ⟨hshift, hkept, env, rfl⟩ := ih hrest hrec
      refine ⟨hshift.congr fun p _ => ?_, fun x hx => ?_, env, rfl⟩
      · rw [numberOf_cons, numberOf_cons]
        omega
      · rcases List.mem_cons.mp hx with rfl | hx
        · exact ⟨List.mem_cons_self, by simpa using hconsume⟩
        · obtain ⟨hx, hx'⟩ := hkept x hx
          exact ⟨List.mem_cons_of_mem _ hx, hx'⟩

/-- The facts that remain when a call ends normally go into the database. -/
theorem keepTuples_stored (hc : ∀ stpl ∈ facts, Counted prog stpl)
    (hconsume : ∀ stpl ∈ facts, stpl.tpl.pred.isLinear = true → stpl.canBeConsumed = true)
    (h : facts.foldlM (keepTuple (linearOps sur) node false) r = .ok r') :
    Shift prog node r r' (fun p => -numberOf p facts) ∧
      (∀ p, (prog.getPredicate p).isLinear = true →
        (∃ word ls, TupleTrie.Inv (prog.getPredicate p).types ((r.getNode node).database.tuples p)
          word ls) → ((r'.getNode node).database.tuples p).numberOfReferences =
            ((r.getNode node).database.tuples p).numberOfReferences + numberOf p facts) ∧
      ∃ env, r' = r.setEnv env := by
  induction facts generalizing r with
  | nil =>
    cases h
    exact ⟨.of_env rfl, fun p _ _ => (add_zero _).symm, r'.env, rfl⟩
  | cons stpl facts ih =>
    have hs := hc stpl List.mem_cons_self
    have hs' := hconsume stpl List.mem_cons_self
    rw [List.foldlM_cons] at h
    obtain ⟨r₁, hkeep, h⟩ := bind_eq_ok.mp h
    obtain ⟨hshift, hrefs, env, rfl⟩ := ih (fun x hx => hc x (List.mem_cons_of_mem _ hx))
      (fun x hx => hconsume x (List.mem_cons_of_mem _ hx)) h
    rw [keepTuple] at hkeep
    by_cases hcan : stpl.canBeConsumed = true
    · rw [if_pos hcan, if_neg Bool.false_ne_true] at hkeep
      obtain ⟨⟨d, b⟩, hadd, hkeep⟩ := bind_eq_ok.mp hkeep
      cases hkeep
      refine ⟨((shift_addTuple hs.pred hs.typed hadd).trans hshift).congr fun p _ => ?_,
        fun p hp hinv => ?_, env, rfl⟩
      · rw [numberOf_cons, forPred_neg]
        omega
      · obtain ⟨hinv', href⟩ := addTuple_references hs.pred hs.typed hadd hp hinv
        have hnode : ((r.setDatabase node d).getNode node).database = d := by
          simp [setDatabase, setNode, setEnv, getNode]
        rw [hrefs p hp (by rwa [hnode]), hnode, href, numberOf_cons]
        omega
    · rw [if_neg hcan] at hkeep
      cases hkeep
      have hlin : stpl.tpl.pred.isLinear = false := by
        by_contra hl
        exact hcan (hs' (by simpa using hl))
      have hsame : ∀ p, (prog.getPredicate p).isLinear = true →
          (numberOf p (stpl :: facts) : ℤ) = numberOf p facts := fun p hp => by
        rw [numberOf_cons, single_of_not_linear hs.pred hlin hp, add_zero]
      exact ⟨hshift.congr fun p hp => by rw [hsame p hp], fun p hp hinv => by
        rw [hsame p hp, hrefs p hp hinv], env, rfl⟩

theorem pushPending_same (r : Run (LinearDb α) ω) (stpl : SimpleTuple) :
    r.env.SameFacts (r.pushPending node stpl).env := fun n => by
  rcases eq_or_ne n node with rfl | hne
  · simp [pushPending, setNode, setEnv, getNode]
  · simp [pushPending, setNode, setEnv, hne]

/-- The facts that remain when a call is cut short do not. -/
theorem keepTuples_queued
    (h : facts.foldlM (keepTuple (linearOps sur) node true) r = .ok r') :
    r.env.SameFacts r'.env ∧ ∃ env, r' = r.setEnv env := by
  induction facts generalizing r with
  | nil =>
    cases h
    exact ⟨sameFacts_refl _, r'.env, rfl⟩
  | cons stpl facts ih =>
    rw [List.foldlM_cons] at h
    obtain ⟨r₁, hkeep, h⟩ := bind_eq_ok.mp h
    obtain ⟨hsame, env, rfl⟩ := ih h
    rw [keepTuple] at hkeep
    by_cases hcan : stpl.canBeConsumed = true
    · rw [if_pos hcan, if_pos rfl] at hkeep
      cases hkeep
      exact ⟨sameFacts_trans (pushPending_same r stpl) hsame, env, rfl⟩
    · rw [if_neg hcan] at hkeep
      cases hkeep
      exact ⟨hsame, env, rfl⟩

/-- `process_others` and the facts that are left for the next call change no facts. -/
theorem routeSelf_same {env env' : Env (LinearDb α) ω}
    (h : facts.foldlM (fun env stpl => (linearOps sur).routeSelf node stpl env) env = .ok env') :
    env.SameFacts env' := by
  induction facts generalizing env with
  | nil =>
    cases h
    exact sameFacts_refl _
  | cons stpl facts ih =>
    rw [List.foldlM_cons] at h
    obtain ⟨env₁, hroute, h⟩ := bind_eq_ok.mp h
    exact sameFacts_trans (sur.routeSelf_same hroute) (ih h)

theorem pushPendings_same (facts : List SimpleTuple) (r : Run (LinearDb α) ω) :
    r.env.SameFacts (facts.foldl (fun r stpl => r.pushPending node stpl) r).env ∧
      ∃ env, facts.foldl (fun r stpl => r.pushPending node stpl) r = r.setEnv env := by
  induction facts generalizing r with
  | nil => exact ⟨sameFacts_refl _, r.env, rfl⟩
  | cons stpl facts ih =>
    obtain ⟨hsame, env, henv⟩ := ih (r.pushPending node stpl)
    exact ⟨sameFacts_trans (pushPending_same r stpl) hsame, env, henv⟩

/-- The leaves that were removed are deleted. -/
theorem deleteLeaves_spec (hleaves : ∀ leaf ∈ r.leavesForDeletion,
      leaf.1 = prog.getPredicate leaf.1.id)
    (h : r.deleteLeaves (linearOps sur) node = .ok r') :
    Shift prog node r r' (fun p => leavesOf p r.leavesForDeletion) ∧
      ∃ env, r' = { r with env := env, leavesForDeletion := [] } := by
  obtain ⟨d, hd, h⟩ := bind_eq_ok.mp h
  cases h
  suffices hfold : ∀ (leaves : List (Predicate × ℕ)) (r : Run (LinearDb α) ω),
      (∀ leaf ∈ leaves, leaf.1 = prog.getPredicate leaf.1.id) →
      leaves.foldlM (fun d leaf => (linearOps sur).deleteByLeaf leaf.1 leaf.2 d)
        (r.getNode node).database = .ok d →
      Shift prog node r (r.setDatabase node d) fun p => leavesOf p leaves by
    exact ⟨(hfold _ r hleaves hd).trans_same (sameFacts_refl _), _, rfl⟩
  intro leaves
  induction leaves with
  | nil =>
    intro r _ hd
    cases hd
    refine .of_env ?_
    simp [setDatabase, setNode, setEnv, getNode]
  | cons leaf leaves ih =>
    intro r hpred hd
    rw [List.foldlM_cons] at hd
    obtain ⟨d₁, hone, hd⟩ := bind_eq_ok.mp hd
    have hnode : ((r.setDatabase node d₁).getNode node).database = d₁ := by
      simp [setDatabase, setNode, setEnv, getNode]
    have hset : (r.setDatabase node d₁).setDatabase node d = r.setDatabase node d := by
      simp [setDatabase, setNode, setEnv, getNode]
    have hrest := ih (r.setDatabase node d₁) (fun x hx => hpred x (List.mem_cons_of_mem _ hx))
      (hnode.symm ▸ hd)
    rw [hset] at hrest
    refine ((shift_deleteByLeaf (hpred leaf List.mem_cons_self) hone).trans hrest).congr
      fun p _ => ?_
    rcases eq_or_ne p leaf.1.id with rfl | hne
    · rw [leavesOf, leavesOf, List.countP_cons_of_pos (by simp), forPred_self]
      push_cast
      omega
    · rw [leavesOf, leavesOf, List.countP_cons_of_neg (by simpa using hne.symm),
        forPred_of_ne hne, zero_add]

/-! ### A call between its steps -/

/-- What the thread holds: counted facts, and leaves of predicates of the program. -/
structure Hands (prog : Program) (r : Run (LinearDb α) ω) : Prop where
  localTuples : ∀ stpl ∈ r.localTuples, Counted prog stpl
  generated : ∀ stpl ∈ r.generatedTuples, Counted prog stpl ∧ stpl.canBeConsumed = true
  persistent : ∀ stpl ∈ r.generatedPersistentTuples, Queued prog stpl
  leaves : ∀ leaf ∈ r.leavesForDeletion, leaf.1 = prog.getPredicate leaf.1.id

/-- How many more facts of a predicate the matcher counts than the database has: those in hand,
without the leaves that are still to be deleted. -/
def owed (r : Run (LinearDb α) ω) (p : ℕ) : ℤ :=
  numberOf p r.localTuples + numberOf p r.generatedTuples - leavesOf p r.leavesForDeletion

/-- The run of a call on the node. -/
structure InRun (prog : Program) (node : ℕ) (r : Run (LinearDb α) ω) : Prop where
  hands : Hands prog r
  balance : (r.env.nodes node).Balance prog r.owed
  others : ∀ n, n ≠ node → (r.env.nodes n).Settled prog

/-- Between two steps no fact is consumed, and none is generated. -/
structure Rested (r : Run (LinearDb α) ω) : Prop where
  generated : r.generatedTuples = []
  consume : ∀ stpl ∈ r.localTuples, stpl.tpl.pred.isLinear = true → stpl.canBeConsumed = true

/-- What the thread holds changes as the matcher counts. -/
theorem InRun.shift (h : InRun prog node r) (hs : Shift prog node r r' k) (hh : Hands prog r')
    (hk : ∀ p, (prog.getPredicate p).isLinear = true → r'.owed p = r.owed p + k p) :
    InRun prog node r' where
  hands := hh
  balance := (hs.balance _ h.balance).congr rfl rfl fun p hp => (hk p hp).symm
  others n hn := (h.others n hn).congr (hs.others n hn).1 (hs.others n hn).2

/-! ### The code of a predicate -/

/-- What a SEND to the node itself does in a run. -/
theorem executeSendSelf_cases (hflag : (r.useLocalTuples || r.persistentOnly) = true)
    (h : r.executeSendSelf sur node tpl = .ok r') :
    (∃ env, r.env.SameFacts env ∧ r' = r.setEnv env) ∨
    (∃ others, r' = { r with generatedOtherLevel := others }) ∨
    (tpl.pred.isLinear = false ∧ r' = r.setGeneratedPersistentTuples
      (r.generatedPersistentTuples ++ [{ tpl := tpl, count := r.count }])) ∨
    (Derives tpl r ∧ tpl.pred.isLinear = true ∧ ∃ r₁,
      r₁ = (r.setMatcher node
        ((r.getNode node).matcher.registerTuple tpl 1 true)).markPredicateToRun
        tpl.pred ∧
      ((tpl.pred.isReused = true ∧ r' = r₁.setGeneratedPersistentTuples
        (r₁.generatedPersistentTuples ++ [{ tpl := tpl, count := r.count }])) ∨
      (tpl.pred.isReused = false ∧ r' = { r₁ with
        generatedTuples := r₁.generatedTuples ++ [{ tpl := tpl, count := r.count }] }))) := by
  rw [executeSendSelf] at h
  split_ifs at h with haction hlevel hpers hreused
  · obtain ⟨env, henv, h⟩ := bind_eq_ok.mp h
    cases h
    exact .inl ⟨env, sur.runAction_same henv, rfl⟩
  · cases h
    exact .inr (.inl ⟨_, rfl⟩)
  · cases h
    exact .inr (.inr (.inl ⟨by simpa [Predicate.isPersistent] using hpers, rfl⟩))
  · cases h
    exact .inr (.inr (.inr ⟨⟨by simpa using haction, not_not.mp hlevel⟩,
      by simpa [Predicate.isPersistent] using hpers, _, rfl, .inl ⟨hreused, rfl⟩⟩))
  · cases h
    exact .inr (.inr (.inr ⟨⟨by simpa using haction, not_not.mp hlevel⟩,
      by simpa [Predicate.isPersistent] using hpers, _, rfl, .inr ⟨by simpa using hreused, rfl⟩⟩))

/-- A part that leaves the linear facts and the local ones alone, and may derive other facts. -/
structure Quiet (prog : Program) (r r' : Run (LinearDb α) ω) : Prop where
  same : r.env.SameFacts r'.env
  localTuples : r'.localTuples = r.localTuples
  generated : r'.generatedTuples = r.generatedTuples
  leaves : r'.leavesForDeletion = r.leavesForDeletion
  level : r'.currentLevel = r.currentLevel
  flag : (r'.useLocalTuples || r'.persistentOnly) = (r.useLocalTuples || r.persistentOnly)
  persistent : ∃ more, (∀ stpl ∈ more, Queued prog stpl) ∧
    r'.generatedPersistentTuples = r.generatedPersistentTuples ++ more

theorem Quiet.refl (r : Run (LinearDb α) ω) : Quiet prog r r :=
  ⟨sameFacts_refl _, rfl, rfl, rfl, rfl, rfl, [], by simp, by simp⟩

theorem Quiet.trans (h : Quiet prog r r₁) (h' : Quiet prog r₁ r') : Quiet prog r r' where
  same := sameFacts_trans h.same h'.same
  localTuples := h'.localTuples.trans h.localTuples
  generated := h'.generated.trans h.generated
  leaves := h'.leaves.trans h.leaves
  level := h'.level.trans h.level
  flag := h'.flag.trans h.flag
  persistent := by
    obtain ⟨more, hmore, heq⟩ := h.persistent
    obtain ⟨more', hmore', heq'⟩ := h'.persistent
    refine ⟨more ++ more', fun stpl hs => ?_, by rw [heq', heq, List.append_assoc]⟩
    exact (List.mem_append.mp hs).elim (hmore stpl) (hmore' stpl)

theorem quiet_executeSendSelf (hvalid : tpl.Valid prog)
    (hflag : (r.useLocalTuples || r.persistentOnly) = true)
    (hquiet : Derives tpl r → tpl.pred.isLinear = false)
    (h : r.executeSendSelf sur node tpl = .ok r') : Quiet prog r r' := by
  rcases executeSendSelf_cases hflag h with
    ⟨env, hsame, rfl⟩ | ⟨others, rfl⟩ | ⟨hlin, rfl⟩ | ⟨hder, hlin, -⟩
  · exact ⟨hsame, rfl, rfl, rfl, rfl, rfl, [], by simp, by simp [setEnv]⟩
  · exact ⟨sameFacts_refl _, rfl, rfl, rfl, rfl, rfl, [], by simp, by simp⟩
  · refine ⟨sameFacts_refl _, rfl, rfl, rfl, rfl, rfl, _, fun stpl hs => ?_, rfl⟩
    rw [List.mem_singleton.mp hs]
    exact ⟨hvalid.pred, fun _ => hvalid.typed, fun hl => absurd hl (by simp [hlin]),
      fun hl => absurd hl (by simp [hlin])⟩
  · exact absurd hlin (by simp [hquiet hder])

/-- The code of a predicate that derives no linear fact. -/
theorem quiet_code {tuples : List Tuple} (hvalid : ∀ tpl ∈ tuples, tpl.Valid prog)
    (hflag : (r.useLocalTuples || r.persistentOnly) = true)
    (hquiet : ∀ tpl ∈ tuples, Derives tpl r → tpl.pred.isLinear = false)
    (h : tuples.foldlM (fun r tpl => executeSendSelf sur node tpl r) r = .ok r') :
    Quiet prog r r' := by
  induction tuples generalizing r with
  | nil =>
    cases h
    exact .refl _
  | cons tpl tuples ih =>
    rw [List.foldlM_cons] at h
    obtain ⟨r₁, hone, h⟩ := bind_eq_ok.mp h
    have hfirst := quiet_executeSendSelf (hvalid tpl List.mem_cons_self) hflag
      (hquiet tpl List.mem_cons_self) hone
    refine hfirst.trans (ih (fun x hx => hvalid x (List.mem_cons_of_mem _ hx))
      (hfirst.flag.trans hflag) (fun x hx hder => ?_) h)
    refine hquiet x (List.mem_cons_of_mem _ hx) ⟨hder.1, ?_⟩
    rw [← hfirst.level]
    exact hder.2

/-- Running the code of a predicate, which also forgets what was generated. -/
theorem quiet_executeBytecode {pred : Predicate} (hgen : r.generatedTuples = [])
    (hflag : (r.useLocalTuples || r.persistentOnly) = true)
    (hquiet : ∀ tpl ∈ sur.predicateBody node pred r, Derives tpl r → tpl.pred.isLinear = false)
    (h : executeBytecode (linearOps sur) node pred r = .ok r') : Quiet prog r r' := by
  obtain ⟨r₁, hcode, h⟩ := bind_eq_ok.mp h
  cases h
  have hq := quiet_code (sur.predicateBody_valid node pred r) hflag hquiet hcode
  exact ⟨hq.same, hq.localTuples, hgen.symm, hq.leaves, hq.level, hq.flag, hq.persistent⟩

/-! ### Persistent facts -/

/-- After a part that changes the counters as it changes the database, and derives facts that are
not linear. -/
theorem InRun.quiet (h : InRun prog node r) (hs : Shift prog node r r₁ fun _ => 0)
    (hlocal : r₁.localTuples = r.localTuples) (hgen : r₁.generatedTuples = r.generatedTuples)
    (hleaves : r₁.leavesForDeletion = r.leavesForDeletion)
    (hpers : ∃ more, (∀ stpl ∈ more, Queued prog stpl) ∧
      r₁.generatedPersistentTuples ⊆ r.generatedPersistentTuples ++ more) :
    InRun prog node r₁ := by
  refine h.shift hs ⟨hlocal ▸ h.hands.localTuples, hgen ▸ h.hands.generated, fun stpl hs => ?_,
    hleaves ▸ h.hands.leaves⟩ fun p _ => by rw [owed, owed, hlocal, hgen, hleaves, add_zero]
  obtain ⟨more, hmore, hsub⟩ := hpers
  exact (List.mem_append.mp (hsub hs)).elim (h.hands.persistent stpl) (hmore stpl)

/-- A queued fact is processed. -/
theorem processPersistentTuple_spec (hstpl : Queued prog stpl) (hgen : r.generatedTuples = [])
    (hcode : ∀ r', RunsCode sur node stpl r r' →
      ∀ tpl ∈ sur.predicateBody node stpl.tpl.pred r', Derives tpl r' → tpl.pred.isLinear = false)
    (h : processPersistentTuple (linearOps sur) node stpl r = .ok r') :
    Shift prog node r r' (fun _ => 0) ∧ r'.localTuples = r.localTuples ∧
      r'.generatedTuples = r.generatedTuples ∧ r'.leavesForDeletion = r.leavesForDeletion ∧
      ∃ more, (∀ stpl ∈ more, Queued prog stpl) ∧
        r'.generatedPersistentTuples = r.generatedPersistentTuples ++ more := by
  rw [processPersistentTuple] at h
  split_ifs at h with hpos hreused
  · obtain ⟨⟨d, isNew⟩, hadd, h⟩ := bind_eq_ok.mp h
    -- the database and the matcher have one more, whatever the code does between
    have hsum : ∀ p, (prog.getPredicate p).isLinear = true →
        forPred stpl.tpl.pred.id (-1) p + forPred stpl.tpl.pred.id stpl.count p = 0 :=
      fun p hp => by
      rcases Bool.eq_false_or_eq_true stpl.tpl.pred.isLinear with hlin | hlin
      · rcases hstpl.count hlin with hc | hc
        · rw [hc, forPred_neg]
          omega
        · omega
      · rw [single_of_not_linear hstpl.pred hlin hp, single_of_not_linear hstpl.pred hlin hp,
          add_zero]
    have hfirst := shift_addTuple hstpl.pred hstpl.typed hadd
    cases isNew with
    | true =>
      obtain ⟨r₂, hexecute, h⟩ := bind_eq_ok.mp h
      cases h
      have hq : Quiet prog
          ((r.setDatabase node d).setup (some stpl.tpl) stpl.count false true) r₂ :=
        quiet_executeBytecode hgen rfl (hcode _ (.inl ⟨hpos, d, hadd, rfl⟩)) hexecute
      obtain ⟨more, hmore, heq⟩ := hq.persistent
      refine ⟨?_, hq.localTuples, hq.generated, hq.leaves, more, hmore, heq⟩
      have hsame : (r.setDatabase node d).env.SameFacts r₂.env := hq.same
      have hlast : Shift prog node r₂ ((r₂.setMatcher node
          ((r₂.getNode node).matcher.registerTuple stpl.tpl stpl.count true)).markPredicateToRun
            stpl.tpl.pred) (forPred stpl.tpl.pred.id stpl.count) :=
        shift_register.trans_same (sameFacts_refl _)
      exact ((hfirst.trans_same hsame).trans hlast).congr hsum
    | false =>
      cases h
      refine ⟨(hfirst.trans shift_register).congr hsum, rfl, rfl, rfl, [], by simp, ?_⟩
      exact (List.append_nil _).symm
  · have hq : Quiet prog (r.setup (some stpl.tpl) stpl.count false true) r' :=
      quiet_executeBytecode hgen rfl
        (hcode _ (.inr (.inl ⟨not_lt.mp hpos, hreused, rfl⟩))) h
    have hsame : r.env.SameFacts r'.env := hq.same
    exact ⟨.of_sameFacts hsame, hq.localTuples, hq.generated, hq.leaves, hq.persistent⟩
  · have hlin : stpl.tpl.pred.isLinear = false := by
      by_contra hl
      exact hreused (hstpl.reused (by simpa using hl))
    have hzero : ∀ p, (prog.getPredicate p).isLinear = true → ∀ c,
        forPred stpl.tpl.pred.id c p = 0 := fun p hp c => single_of_not_linear hstpl.pred hlin hp
    obtain ⟨⟨d, deleter⟩, hdelete, h⟩ := bind_eq_ok.mp h
    obtain ⟨m, hm, h⟩ := bind_eq_ok.mp h
    have hd : d.tuples = (r.getNode node).database.tuples := by
      obtain ⟨⟨rest, leaf⟩, -, hdelete⟩ := bind_eq_ok.mp hdelete
      cases hdelete
      rfl
    have hfirst : Shift prog node r (r.setDatabase node d) fun _ => 0 :=
      shift_setDatabase fun p _ hinv hnonneg => by
        rw [hd]
        exact ⟨hinv, hnonneg, add_zero _⟩
    have hboth : Shift prog node r ((r.setDatabase node d).setMatcher node m) fun _ => 0 :=
      (hfirst.trans (shift_deregister hm)).congr fun p hp => by rw [hzero p hp, add_zero]
    cases deleter with
    | none =>
      cases h
      exact ⟨hboth, rfl, rfl, rfl, [], by simp, (List.append_nil _).symm⟩
    | some leaf =>
      obtain ⟨r₂, hexecute, h⟩ := bind_eq_ok.mp h
      obtain ⟨d₂, hd₂, h⟩ := bind_eq_ok.mp h
      cases h
      have hq : Quiet prog
          (((r.setDatabase node d).setMatcher node m).setup (some stpl.tpl) stpl.count false true)
          r₂ :=
        quiet_executeBytecode hgen rfl (hcode _ (.inr (.inr ⟨not_lt.mp hpos, by simpa using hreused,
          d, leaf, m, hdelete, hm, rfl⟩))) hexecute
      obtain ⟨more, hmore, heq⟩ := hq.persistent
      refine ⟨?_, hq.localTuples, hq.generated, hq.leaves, more, hmore, heq⟩
      have hsame : ((r.setDatabase node d).setMatcher node m).env.SameFacts r₂.env := hq.same
      exact ((hboth.trans_same hsame).trans (shift_deleteByLeaf hstpl.pred hd₂)).congr
        fun p hp => by rw [hzero p hp, add_zero]

/-- A fact and its retraction are dropped. -/
theorem searchForNegativeTuple_subset {q : SimpleTuple → Bool} {facts facts' : List SimpleTuple}
    (h : searchForNegativeTuple q tpl facts = .ok (some facts')) : facts' ⊆ facts := by
  induction facts generalizing facts' with
  | nil => cases h
  | cons stpl facts ih =>
    rw [searchForNegativeTuple] at h
    obtain ⟨b, -, h⟩ := bind_eq_ok.mp h
    split_ifs at h
    · cases h
      exact List.subset_cons_self _ _
    · obtain ⟨found, hfound, h⟩ := bind_eq_ok.mp h
      cases found with
      | none => cases h
      | some facts₁ =>
        cases h
        exact List.cons_subset_cons _ (ih hfound)

/-- So they are whatever the kind of the fact. -/
theorem searchForNegative_subset {facts' : List SimpleTuple}
    (h : searchForNegative stpl facts = .ok (some facts')) : facts' ⊆ facts := by
  rw [searchForNegative] at h
  split_ifs at h
  · exact searchForNegativeTuple_subset h
  · obtain ⟨-, -, h⟩ := bind_eq_ok.mp h
    exact searchForNegativeTuple_subset h
  · cases h

/-- A fact is added to its aggregate, which emits facts of the same predicate. -/
theorem addToAggregate_spec (hstpl : Queued prog stpl)
    (h : addToAggregate (linearOps sur) node stpl r = .ok r') :
    Shift prog node r r' (fun _ => 0) ∧ r'.localTuples = r.localTuples ∧
      r'.generatedTuples = r.generatedTuples ∧ r'.leavesForDeletion = r.leavesForDeletion ∧
      ∃ more, (∀ stpl ∈ more, Queued prog stpl) ∧
        r'.generatedPersistentTuples = r.generatedPersistentTuples ++ more := by
  obtain ⟨⟨d, emitted⟩, hadd, h⟩ := bind_eq_ok.mp h
  cases h
  obtain ⟨⟨rest, emitted'⟩, hemit, hadd⟩ := bind_eq_ok.mp hadd
  cases hadd
  have hshift : Shift prog node r
      (r.setDatabase node { (r.getNode node).database with rest := rest })
      fun _ => 0 := shift_setDatabase fun p _ hinv hnonneg => ⟨hinv, hnonneg, add_zero _⟩
  refine ⟨hshift.trans_same (sameFacts_refl _), rfl, rfl, rfl, _, fun x hx => ?_, rfl⟩
  obtain ⟨y, hy, rfl⟩ := List.mem_map.mp hx
  obtain ⟨hpred, htyped, hcount⟩ := sur.addAggTuple_emits hemit y hy
  refine ⟨?_, fun _ => htyped, ?_, fun _ => hcount⟩
  · simp only [hpred]
    exact hstpl.pred
  · simp only [hpred]
    exact hstpl.reused

/-- A step of the loop over the persistent facts keeps the counters. -/
theorem InRun.persistentStep (h : InRun prog node r) (hr : Rested r)
    (hcode : HarmlessCode sur node r)
    (hstep : persistentStep (linearOps sur) node r = .ok (.inl r')) :
    InRun prog node r' ∧ Rested r' := by
  rcases persistentStep_cases hstep with ⟨-, _, -, heq⟩ | ⟨-, -, heq⟩ |
    ⟨stpl, facts, hcons, -, ⟨facts', hsearch, heq⟩ | ⟨hsearch, r₁, heq, hdo⟩⟩
  · cases heq
  · cases heq
  · cases heq
    have hsub := searchForNegative_subset hsearch
    refine ⟨h.quiet (.of_env rfl) rfl rfl rfl ⟨[], by simp, fun x hx => ?_⟩, hr.generated,
      hr.consume⟩
    rw [hcons, List.append_nil]
    exact List.mem_cons_of_mem _ (hsub hx)
  · cases heq
    have hstpl : Queued prog stpl := h.hands.persistent stpl (hcons ▸ List.mem_cons_self)
    have hdone : Shift prog node (r.setGeneratedPersistentTuples facts) r' (fun _ => 0) ∧
        r'.localTuples = r.localTuples ∧ r'.generatedTuples = r.generatedTuples ∧
        r'.leavesForDeletion = r.leavesForDeletion ∧
        ∃ more, (∀ stpl ∈ more, Queued prog stpl) ∧
          r'.generatedPersistentTuples = facts ++ more := by
      rcases hdo with ⟨hassert, hprocess⟩ | hadd
      · exact processPersistentTuple_spec hstpl hr.generated
          (hcode stpl facts hcons hsearch hassert) hprocess
      · exact addToAggregate_spec hstpl hadd
    obtain ⟨hshift, hlocal, hgen, hleaves, more, hmore, heq⟩ := hdone
    have hsame : r.env.SameFacts (r.setGeneratedPersistentTuples facts).env := sameFacts_refl _
    have hshift' : Shift prog node r r' fun _ => 0 := .of_same_trans hsame hshift
    refine ⟨h.quiet hshift' hlocal hgen hleaves ⟨more, hmore, fun x hx => ?_⟩,
      hgen.trans hr.generated, hlocal ▸ hr.consume⟩
    rw [heq] at hx
    rw [hcons]
    exact (List.mem_append.mp hx).elim
      (fun hx => List.mem_append_left _ (List.mem_cons_of_mem _ hx))
      (List.mem_append_right _)

/-- So does the end of the loop, where the leaves that were removed are deleted. -/
theorem InRun.deleteLeaves (h : InRun prog node r) (hr : Rested r)
    (hdelete : deleteLeaves (linearOps sur) node r = .ok r') : InRun prog node r' ∧ Rested r' := by
  obtain ⟨hshift, env, rfl⟩ := deleteLeaves_spec h.hands.leaves hdelete
  refine ⟨h.shift hshift ⟨h.hands.localTuples, h.hands.generated, h.hands.persistent, by simp⟩
    fun p _ => ?_, hr.generated, hr.consume⟩
  simp only [owed, leavesOf, List.countP_nil]
  omega

/-! ### Rules -/

/-- The run while the body of a rule is executed, at a stratification level. -/
structure InRule (prog : Program) (node level : ℕ) (r : Run (LinearDb α) ω) : Prop extends
    InRun prog node r where
  count : r.count = 1
  useLocal : r.useLocalTuples = true
  level : r.currentLevel = level

theorem numberOf_modify (p i : ℕ) (b : Bool) (facts : List SimpleTuple) :
    numberOf p (facts.modify i fun stpl => { stpl with toDelete := b }) = numberOf p facts := by
  induction facts generalizing i with
  | nil => simp [numberOf]
  | cons stpl facts ih =>
    cases i with
    | zero => rfl
    | succ i =>
      have hone := ih i
      simp only [numberOf] at hone ⊢
      rw [List.modify_succ_cons, List.countP_cons, List.countP_cons, hone]

/-- A mark changes no tuple and no count. -/
theorem mem_modify {i : ℕ} {b : Bool}
    (h : stpl ∈ facts.modify i fun stpl => { stpl with toDelete := b }) :
    ∃ x ∈ facts, stpl.tpl = x.tpl ∧ stpl.count = x.count := by
  induction facts generalizing i with
  | nil => simp at h
  | cons x facts ih =>
    cases i with
    | zero =>
      rcases List.mem_cons.mp h with rfl | h
      · exact ⟨x, List.mem_cons_self, rfl, rfl⟩
      · exact ⟨stpl, List.mem_cons_of_mem _ h, rfl, rfl⟩
    | succ i =>
      rw [List.modify_succ_cons] at h
      rcases List.mem_cons.mp h with rfl | h
      · exact ⟨stpl, List.mem_cons_self, rfl, rfl⟩
      · obtain ⟨y, hy, heq⟩ := ih h
        exact ⟨y, List.mem_cons_of_mem _ hy, heq⟩

/-- A SEND to the node itself in a rule: what is derived is in hand and counted. -/
theorem InRule.sendSelf {level : ℕ} (h : InRule prog node level r) (hvalid : tpl.Valid prog)
    (hreused : Derives tpl r → tpl.pred.isLinear = true → tpl.pred.isReused = false)
    (hact : r.executeSendSelf sur node tpl = .ok r') : InRule prog node level r' := by
  have hflag : (r.useLocalTuples || r.persistentOnly) = true := by rw [h.useLocal, Bool.true_or]
  rcases executeSendSelf_cases hflag hact with
    ⟨env, hsame, rfl⟩ | ⟨others, rfl⟩ | ⟨hlin, rfl⟩ | ⟨hder, hlin, r₁, rfl, ⟨hr, -⟩ | ⟨-, rfl⟩⟩
  · exact ⟨h.toInRun.quiet (.of_sameFacts hsame) rfl rfl rfl ⟨[], by simp, by simp [setEnv]⟩,
      h.count, h.useLocal, h.level⟩
  · exact ⟨h.toInRun.quiet (.of_env rfl) rfl rfl rfl ⟨[], by simp, by simp⟩, h.count, h.useLocal,
      h.level⟩
  · refine ⟨h.toInRun.quiet (.of_env rfl) rfl rfl rfl ⟨_, fun stpl hs => ?_, List.Subset.refl _⟩,
      h.count, h.useLocal, h.level⟩
    rw [List.mem_singleton.mp hs]
    exact ⟨hvalid.pred, fun _ => hvalid.typed, fun hl => absurd hl (by simp [hlin]),
      fun hl => absurd hl (by simp [hlin])⟩
  · exact absurd hr (by simp [hreused hder hlin])
  · refine ⟨h.toInRun.shift (shift_register.trans_same (sameFacts_refl _))
      ⟨h.hands.localTuples, fun stpl hs => ?_, h.hands.persistent, h.hands.leaves⟩ fun p _ => ?_,
      h.count, h.useLocal, h.level⟩
    · rcases List.mem_append.mp hs with hs | hs
      · exact h.hands.generated stpl hs
      · rw [List.mem_singleton.mp hs]
        exact ⟨⟨hvalid.pred, fun _ => hvalid.typed, fun _ => h.count⟩, rfl⟩
    · have hone : (numberOf p [{ tpl := tpl, count := r.count }] : ℤ) = forPred tpl.pred.id 1 p :=
        (numberOf_cons p _ []).trans (zero_add _)
      change (numberOf p r.localTuples : ℤ) +
        numberOf p (r.generatedTuples ++ [{ tpl := tpl, count := r.count }]) -
          leavesOf p r.leavesForDeletion = _
      rw [numberOf_append, owed, Int.natCast_add, hone]
      omega

/-- A REMOVE in a rule: the fact is deregistered and deleted, now or with the leaves. -/
theorem InRule.remove {level : ℕ} {leaf : Option ℕ} (h : InRule prog node level r)
    (hvalid : tpl.Valid prog) (hact : r.executeRemove sur node tpl leaf = .ok r') :
    InRule prog node level r' := by
  -- a reused fact comes back as a retraction
  have hqueued : ∀ stpl ∈ [({ tpl := tpl, count := -1 } : SimpleTuple)],
      tpl.pred.isReused = true → Queued prog stpl := fun stpl hs hr => by
    rw [List.mem_singleton.mp hs]
    exact ⟨hvalid.pred, fun _ => hvalid.typed, fun _ => hr, fun _ => .inr rfl⟩
  obtain ⟨r₁, hderegister, hact⟩ := bind_eq_ok.mp hact
  cases leaf with
  | none =>
    rw [deregisterRemoved, Option.isSome_none, Bool.and_false, if_neg Bool.false_ne_true,
      pure_eq_ok,
      Except.ok.injEq] at hderegister
    subst hderegister
    simp only [h.useLocal, Bool.and_true] at hact
    split_ifs at hact with hreused
    · cases hact
      exact ⟨h.toInRun.quiet (.of_env rfl) rfl rfl rfl
        ⟨_, fun stpl hs => hqueued stpl hs hreused, List.Subset.refl _⟩, h.count, h.useLocal,
        h.level⟩
    · cases hact
      exact h
  | some l =>
    rw [deregisterRemoved, Option.isSome_some, Bool.and_true, if_pos h.useLocal] at hderegister
    obtain ⟨m, hm, hderegister⟩ := bind_eq_ok.mp hderegister
    cases hderegister
    -- the matcher counts one fact less
    have hless : Shift prog node r (r.setMatcher node m) (forPred tpl.pred.id (-1)) :=
      shift_deregister hm
    have huse : (r.setMatcher node m).useLocalTuples = true := h.useLocal
    simp only [huse, Bool.and_true] at hact
    split_ifs at hact with hreused
    · -- the leaf waits for the end of the loop over the persistent facts
      cases hact
      refine ⟨h.toInRun.shift (hless.trans_same (sameFacts_refl _))
        ⟨h.hands.localTuples, h.hands.generated, fun stpl hs => ?_, fun leaf hl => ?_⟩
        fun p _ => ?_, h.count, h.useLocal, h.level⟩
      · exact (List.mem_append.mp hs).elim (h.hands.persistent stpl)
          fun hs => hqueued stpl hs hreused
      · rcases List.mem_append.mp hl with hl | hl
        · exact h.hands.leaves leaf hl
        · rw [List.mem_singleton.mp hl]
          exact hvalid.pred
      · change (numberOf p r.localTuples : ℤ) + numberOf p r.generatedTuples -
          leavesOf p (r.leavesForDeletion ++ [(tpl.pred, l)]) = _
        have hone : ([(tpl.pred, l)].countP fun leaf => leaf.1.id = p : ℤ) =
            forPred tpl.pred.id 1 p := by
          rcases eq_or_ne p tpl.pred.id with rfl | hne
          · simp [forPred_self]
          · simp [forPred_of_ne hne, hne.symm]
        rw [owed, leavesOf, List.countP_append, ← leavesOf, forPred_neg, Int.natCast_add, hone]
        omega
    · obtain ⟨d, hd, hact⟩ := bind_eq_ok.mp hact
      cases hact
      have hboth : Shift prog node r ((r.setMatcher node m).setDatabase node d) fun _ => 0 :=
        (hless.trans (shift_deleteByLeaf hvalid.pred hd)).congr fun p _ => by
          rw [forPred_neg]
          omega
      exact ⟨h.toInRun.quiet hboth rfl rfl rfl
        ⟨[], by simp, by simp [setDatabase, setMatcher, setNode, setEnv]⟩, h.count, h.useLocal,
        h.level⟩

/-- The body of a rule that derives no reused fact. -/
theorem InRule.body {level : ℕ} {actions : List Action} (h : InRule prog node level r)
    (hvalid : ∀ a ∈ actions, a.Valid prog)
    (hreused : ∀ tpl, Action.sendSelf tpl ∈ actions → tpl.pred.isAction = false →
      tpl.pred.level = level → tpl.pred.isLinear = true → tpl.pred.isReused = false)
    (hrun : actions.foldlM (act sur node) r = .ok r') : InRule prog node level r' := by
  induction actions generalizing r with
  | nil =>
    cases hrun
    exact h
  | cons a actions ih =>
    rw [List.foldlM_cons] at hrun
    obtain ⟨r₁, hact, hrun⟩ := bind_eq_ok.mp hrun
    have ha := hvalid a List.mem_cons_self
    refine ih ?_ (fun a ha => hvalid a (List.mem_cons_of_mem _ ha))
      (fun tpl ht => hreused tpl (List.mem_cons_of_mem _ ht)) hrun
    cases a with
    | sendSelf tpl =>
      exact h.sendSelf ha (fun hder => hreused tpl List.mem_cons_self hder.1
        (hder.2.trans h.level)) hact
    | remove tpl leaf => exact h.remove ha hact
    | mark i b =>
      cases hact
      refine ⟨h.toInRun.shift (.of_env rfl) ⟨fun stpl hs => ?_, h.hands.generated,
        h.hands.persistent, h.hands.leaves⟩ fun p _ => ?_, h.count, h.useLocal, h.level⟩
      · obtain ⟨x, hx, hpred, hcount⟩ := mem_modify hs
        obtain ⟨hp, ht, hc⟩ := h.hands.localTuples x hx
        exact ⟨hpred ▸ hp, hpred ▸ ht, fun hl => hcount.trans (hc (hpred ▸ hl))⟩
      · rw [owed, owed, add_zero]
        simp only [setLocalTuples, numberOf_modify]

theorem getTuplesUntilTimestamp_same {n n' : SimNode (LinearDb α)} {limit : ℕ}
    (h : n.getTuplesUntilTimestamp limit = .ok (n', facts)) :
    n'.matcher = n.matcher ∧ n'.database = n.database := by
  obtain ⟨⟨tuples, facts₁⟩, -, h⟩ := bind_eq_ok.mp h
  obtain ⟨⟨rtuples, facts₂⟩, -, h⟩ := bind_eq_ok.mp h
  cases h
  exact ⟨rfl, rfl⟩

/-- After a rule its consumed facts are gone and its derived ones are local. -/
theorem InRun.afterRule {fresh : List SimpleTuple} {env : Env (LinearDb α) ω}
    (h : InRun prog node r) (hshift : Shift prog node r (r.setEnv env)
      fun p => numberOf p kept - numberOf p r.localTuples)
    (hkept : ∀ stpl ∈ kept, stpl ∈ r.localTuples ∧ stpl.canBeConsumed = true)
    (hfresh : ∀ stpl ∈ fresh, stpl.tpl.pred = prog.getPredicate stpl.tpl.pred.id ∧
      stpl.tpl.pred.isLinear = false) :
    InRun prog node { r.setEnv env with
        localTuples := kept ++ fresh ++ r.generatedTuples, generatedTuples := [] } ∧
      Rested { r.setEnv env with
        localTuples := kept ++ fresh ++ r.generatedTuples, generatedTuples := [] } := by
  refine ⟨h.shift (hshift.trans_same (sameFacts_refl _)) ⟨fun stpl hs => ?_, by simp,
    h.hands.persistent, h.hands.leaves⟩ fun p hp => ?_, rfl, fun stpl hs hlin => ?_⟩
  · rcases List.mem_append.mp hs with hs | hs
    · rcases List.mem_append.mp hs with hs | hs
      · exact h.hands.localTuples stpl (hkept stpl hs).1
      · obtain ⟨hpred, hlin⟩ := hfresh stpl hs
        exact ⟨hpred, fun hl => absurd hl (by simp [hlin]), fun hl => absurd hl (by simp [hlin])⟩
    · exact (h.hands.generated stpl hs).1
  · change (numberOf p (kept ++ fresh ++ r.generatedTuples) : ℤ) + numberOf p [] -
      leavesOf p r.leavesForDeletion = _
    rw [numberOf_append, numberOf_append, numberOf_eq_zero hp hfresh, owed]
    simp only [numberOf, List.countP_nil]
    push_cast
    omega
  · rcases List.mem_append.mp hs with hs | hs
    · rcases List.mem_append.mp hs with hs | hs
      · exact (hkept stpl hs).2
      · exact absurd hlin (by simp [(hfresh stpl hs).2])
    · exact (h.hands.generated stpl hs).2

/-- A round of the loop over the rules keeps the counters. -/
theorem InRun.runRule {rule : ℕ} (h : InRun prog node r)
    (hharmless : HarmlessRule sur node rule r)
    (hrun : r.runRule (linearOps sur) node rule = .ok r') : InRun prog node r' ∧ Rested r' := by
  obtain ⟨hreused, hfresh⟩ := hharmless
  have hclear : Shift prog node r (r.setMatcher node (r.getNode node).matcher.clearDroppedRules)
      fun _ => 0 := shift_setMatcher fun p => .inl ⟨rfl, rfl⟩
  have hstart : InRule prog node r.currentLevel (r.ruleRun node) :=
    ⟨h.quiet (hclear.trans_same (sameFacts_refl _)) rfl rfl rfl ⟨[], by simp, fun x hx => by
      rw [List.append_nil]; exact hx⟩, rfl, rfl, rfl⟩
  obtain ⟨r₁, hexecute, hrun⟩ := bind_eq_ok.mp hrun
  obtain ⟨⟨r₂, kept⟩, hconsumed, hrun⟩ := bind_eq_ok.mp hrun
  have hbody := hstart.body (sur.ruleBody_valid node rule (r.ruleRun node))
    (fun tpl ht haction hlevel => hreused tpl ht ⟨haction, hlevel⟩) hexecute
  obtain ⟨hshift, hkept, env, rfl⟩ :=
    processConsumedLocalTuples_spec hbody.hands.localTuples hconsumed
  simp only at hrun
  split_ifs at hrun with hsim
  · obtain ⟨⟨n, fresh⟩, hget, hrun⟩ := bind_eq_ok.mp hrun
    cases hrun
    obtain ⟨hm, hd⟩ := getTuplesUntilTimestamp_same hget
    have hsame : (r₁.setEnv env).env.SameFacts ((r₁.setEnv env).setNode node n).env := fun n' => by
      rcases eq_or_ne n' node with rfl | hne
      · simp only [setNode, setEnv, Function.update_self]
        exact ⟨hm, hd⟩
      · simp only [setNode, setEnv, Function.update_of_ne hne, and_self]
    exact hbody.toInRun.afterRule (hshift.trans_same hsame) hkept
      (hfresh r₁ _ kept hexecute hconsumed hsim n fresh hget)
  · cases hrun
    have hfresh : ∀ stpl ∈ ([] : List SimpleTuple),
        stpl.tpl.pred = prog.getPredicate stpl.tpl.pred.id ∧ stpl.tpl.pred.isLinear = false := by
      simp
    exact hbody.toInRun.afterRule hshift hkept hfresh

/-! ### The ends of a call -/

/-- A call has begun: what has arrived is counted. -/
theorem begin_spec (hsettled : ∀ n, (r.env.nodes n).Settled prog) (hgen : r.generatedTuples = [])
    (hpers : r.generatedPersistentTuples = [])
    (hleaves : ∀ leaf ∈ r.leavesForDeletion, leaf.1 = prog.getPredicate leaf.1.id ∧
      leaf.1.isLinear = false)
    (h : r.begin (linearOps sur) node = .ok r') : InRun prog node r' ∧ Rested r' := by
  obtain ⟨_, hlocal, h⟩ := bind_eq_ok.mp h
  obtain ⟨⟨env, facts⟩, hgather, h⟩ := bind_eq_ok.mp h
  obtain ⟨⟨r₁, kept⟩, hmark, h⟩ := bind_eq_ok.mp h
  cases h
  have hsame : r.env.SameFacts env := sur.gatherNextTuples_same hgather
  obtain ⟨hshift, hkept, env', predicates, more, hmore, rfl⟩ :=
    markRulesUsingLocalTuples_spec (sur.gatherNextTuples_valid hgather) hmark
  have hall : Shift prog node r { (r.setEnv env).startMatching with
      env := env'
      predicates := predicates
      generatedPersistentTuples := (r.setEnv env).startMatching.generatedPersistentTuples ++ more }
      fun p => numberOf p kept := .of_same_trans hsame hshift
  refine ⟨⟨⟨fun stpl hs => (hkept stpl hs).1, fun stpl hs => ?_, fun stpl hs => ?_,
    fun leaf hl => (hleaves leaf hl).1⟩, ?_, fun n hn => ?_⟩, hgen,
    fun stpl hs _ => (hkept stpl hs).2⟩
  · change stpl ∈ r.generatedTuples at hs
    rw [hgen] at hs
    cases hs
  · refine hmore stpl ((List.mem_append.mp hs).resolve_left ?_)
    change stpl ∉ r.generatedPersistentTuples
    rw [hpers]
    exact List.not_mem_nil
  · refine (hall.balance _ (hsettled node).1).congr rfl rfl fun p hp => ?_
    have hnone : leavesOf p r.leavesForDeletion = 0 := by
      refine List.countP_eq_zero.mpr fun leaf hmem heq => ?_
      obtain ⟨hpred, hlin⟩ := hleaves leaf hmem
      rw [hpred, of_decide_eq_true heq, hp] at hlin
      cases hlin
    change 0 + (numberOf p kept : ℤ) =
      numberOf p kept + numberOf p r.generatedTuples - leavesOf p r.leavesForDeletion
    rw [hgen, hnone]
    simp [numberOf]
  · obtain ⟨hm, hd⟩ := hall.others n hn
    exact (hsettled n).congr hm hd

/-- After the loop over the local facts a call changes no facts any more. -/
theorem finish_same {aborted : Bool} (h : r.finish (linearOps sur) node aborted = .ok r') :
    ∃ r₁, r.localTuples.foldlM (keepTuple (linearOps sur) node aborted) r = .ok r₁ ∧
      r₁.env.SameFacts r'.env ∧ r'.leavesForDeletion = r₁.leavesForDeletion := by
  obtain ⟨r₁, hkeep, h⟩ := bind_eq_ok.mp h
  obtain ⟨r₂, hothers, h⟩ := bind_eq_ok.mp h
  obtain ⟨_, -, h⟩ := bind_eq_ok.mp h
  cases h
  obtain ⟨env, hroute, hothers⟩ := bind_eq_ok.mp hothers
  cases hothers
  have hsame : r₁.env.SameFacts env := routeSelf_same hroute
  obtain ⟨hpush, env', henv⟩ := @pushPendings_same _ _ node r₁.generatedPersistentTuples
    { (r₁.setLocalTuples []).setEnv env with generatedOtherLevel := [] }
  refine ⟨r₁, hkeep, sameFacts_trans hsame ?_, ?_⟩
  · exact hpush
  · change (r₁.generatedPersistentTuples.foldl
      (fun (r : Run (LinearDb α) ω) stpl => r.pushPending node stpl)
      { (r₁.setLocalTuples []).setEnv env with generatedOtherLevel := [] }).leavesForDeletion = _
    rw [henv]
    rfl

/-- A call that ends normally leaves the nodes settled. -/
theorem InRun.finish (h : InRun prog node r) (hr : Rested r) (hleaves : r.leavesForDeletion = [])
    (hfits : r.Fits node prog) (hfinish : r.finish (linearOps sur) node false = .ok r') :
    (∀ n, (r'.env.nodes n).Settled prog) ∧ r'.leavesForDeletion = [] := by
  obtain ⟨r₁, hkeep, hsame, hl⟩ := finish_same hfinish
  obtain ⟨hshift, hrefs, env, rfl⟩ := keepTuples_stored h.hands.localTuples hr.consume hkeep
  refine ⟨fun n => ?_, hl.trans hleaves⟩
  refine SimNode.Settled.congr (n := (r.setEnv env).env.nodes n) ?_ (hsame n).1 (hsame n).2
  rcases eq_or_ne n node with rfl | hn
  · refine ⟨(hshift.balance _ h.balance).congr rfl rfl fun p hp => ?_, fun p hp => ?_⟩
    · rw [owed, hr.generated, hleaves]
      simp [numberOf, leavesOf]
    · obtain ⟨hinv, -⟩ := h.balance p hp
      have href := hrefs p hp hinv
      have hfit := hfits p hp
      rw [← href] at hfit
      exact hfit
  · exact (h.others n hn).congr (hshift.others n hn).1 (hshift.others n hn).2

/-- So does a call that is cut short, if it holds no linear fact. -/
theorem InRun.abort (h : InRun prog node r) (hr : Rested r) (hnothing : r.HoldsNothing)
    (hfits : r.Fits node prog) (hfinish : r.finish (linearOps sur) node true = .ok r') :
    (∀ n, (r'.env.nodes n).Settled prog) ∧ r'.leavesForDeletion = r.leavesForDeletion := by
  obtain ⟨r₁, hkeep, hsame, hl⟩ := finish_same hfinish
  obtain ⟨hsame₁, env, rfl⟩ := keepTuples_queued hkeep
  have hboth := sameFacts_trans hsame₁ hsame
  refine ⟨fun n => ?_, hl⟩
  refine SimNode.Settled.congr ?_ (hboth n).1 (hboth n).2
  rcases eq_or_ne n node with rfl | hn
  · refine ⟨h.balance.congr rfl rfl fun p hp => ?_, fun p hp => ?_⟩
    · have hlocal : numberOf p r.localTuples = 0 := numberOf_eq_zero hp fun stpl hs =>
        ⟨(h.hands.localTuples stpl hs).pred, hnothing.1 stpl hs⟩
      have hnone : leavesOf p r.leavesForDeletion = 0 := by
        refine List.countP_eq_zero.mpr fun leaf hmem heq => ?_
        have hlin := hnothing.2 leaf hmem
        rw [h.hands.leaves leaf hmem, of_decide_eq_true heq, hp] at hlin
        cases hlin
      rw [owed, hr.generated, hlocal, hnone]
      simp [numberOf]
    · have hfit := hfits p hp
      rw [getNode] at hfit
      omega
  · exact h.others n hn

/-! ### Rules outside of the simulator -/

/-- No instruction of a rule changes whether the simulator counts them. -/
theorem act_simInstrUse {a : Action} (h : r.act sur node a = .ok r') :
    r'.simInstrUse = r.simInstrUse := by
  cases a with
  | sendSelf tpl =>
    simp only [act, executeSendSelf] at h
    split_ifs at h
    · obtain ⟨env, -, h⟩ := bind_eq_ok.mp h
      cases h
      rfl
    · cases h
      rfl
    · cases h
      rfl
    · cases h
      rfl
    · cases h
      rfl
    · obtain ⟨env, -, h⟩ := bind_eq_ok.mp h
      cases h
      rfl
  | remove tpl leaf =>
    obtain ⟨r₁, hderegister, h⟩ := bind_eq_ok.mp h
    -- deregistering a fact changes the matcher only
    have hr₁ : r₁.simInstrUse = r.simInstrUse := by
      rw [deregisterRemoved] at hderegister
      split_ifs at hderegister
      · obtain ⟨m, -, hm⟩ := bind_eq_ok.mp hderegister
        cases hm
        rfl
      · cases hderegister
        rfl
    rw [← hr₁]
    split_ifs at h
    · cases leaf with
      | some l =>
        cases h
        rfl
      | none =>
        cases h
        rfl
    · cases leaf with
      | some l =>
        obtain ⟨d, -, hd⟩ := bind_eq_ok.mp h
        cases hd
        rfl
      | none =>
        cases h
        rfl
  | mark i toDelete =>
    cases h
    rfl

theorem body_simInstrUse {body : List Action} (h : body.foldlM (act sur node) r = .ok r') :
    r'.simInstrUse = r.simInstrUse := by
  induction body generalizing r with
  | nil =>
    cases h
    rfl
  | cons a body ih =>
    rw [List.foldlM_cons] at h
    obtain ⟨r₁, ha, h⟩ := bind_eq_ok.mp h
    exact (ih h).trans (act_simInstrUse ha)

theorem processConsumedLocalTuples_simInstrUse
    (h : processConsumedLocalTuples node facts r = .ok (r', kept)) :
    r'.simInstrUse = r.simInstrUse := by
  induction facts generalizing r kept with
  | nil =>
    cases h
    rfl
  | cons stpl facts ih =>
    rw [processConsumedLocalTuples] at h
    split_ifs at h
    · obtain ⟨m, -, h⟩ := bind_eq_ok.mp h
      have hr' : r'.simInstrUse = (r.setMatcher node m).simInstrUse := ih h
      exact hr'
    · obtain ⟨⟨r₁, kept₁⟩, hrec, h⟩ := bind_eq_ok.mp h
      cases h
      exact ih hrec

/-- Outside of the simulator a rule is harmless if it derives no reused fact. -/
theorem harmlessRule_of_derives {rule : ℕ} (huse : r.simInstrUse = false)
    (hderives : ∀ tpl, Action.sendSelf tpl ∈ sur.ruleBody node rule (r.ruleRun node) →
      tpl.pred.isReused = false) : HarmlessRule sur node rule r := by
  refine ⟨fun tpl htpl _ _ => hderives tpl htpl, fun r₁ r₂ kept hbody hconsumed hsim => ?_⟩
  have hr₁ : r₁.simInstrUse = (r.ruleRun node).simInstrUse := body_simInstrUse hbody
  rw [processConsumedLocalTuples_simInstrUse hconsumed, hr₁, show (r.ruleRun node).simInstrUse = false from huse] at hsim
  exact fun _ _ _ => absurd hsim (by simp)

end Run

/-! ### Runs -/

namespace VmState

variable {s s' : VmState (LinearDb α) ω}

/-- The leaves that still wait to be deleted are of predicates that are not linear. -/
def OthersWait (prog : Program) (r : Run (LinearDb α) ω) : Prop :=
  ∀ leaf ∈ r.leavesForDeletion, leaf.1 = prog.getPredicate leaf.1.id ∧ leaf.1.isLinear = false

/-- Between the calls all nodes are settled; during one the matcher of the node counts what is in
hand besides. -/
def Accounted (prog : Program) (s : VmState (LinearDb α) ω) : Prop :=
  match s.pc with
  | .outside => (∀ n, (s.run.env.nodes n).Settled prog) ∧ s.run.generatedTuples = [] ∧
      s.run.generatedPersistentTuples = [] ∧ OthersWait prog s.run
  | .persistent node => Run.InRun prog node s.run ∧ Run.Rested s.run
  | .loop node =>
    Run.InRun prog node s.run ∧ Run.Rested s.run ∧ s.run.leavesForDeletion = []

theorem accounted_init (h : (linearRuns sur).init s) : s.Accounted prog := by
  obtain ⟨env, rfl, hnodes⟩ := h
  refine ⟨fun n => ⟨fun p hp => ?_, fun p hp => ?_⟩, rfl, rfl, by simp [OthersWait, new]⟩
  · obtain ⟨hm, hd⟩ := hnodes n
    change (∃ word ls, TupleTrie.Inv _ ((env.nodes n).database.tuples p) word ls) ∧
      0 ≤ ((env.nodes n).database.tuples p).numberOfReferences ∧
      (env.nodes n).matcher.matcher.predicateCount p =
        wrap16 (((env.nodes n).database.tuples p).numberOfReferences + 0)
    rw [hd p, hm]
    obtain ⟨word, hc⟩ := TupleTrie.Counted.new (prog.getPredicate p).types
    exact ⟨⟨word, [], hc.inv⟩, le_rfl, rfl⟩
  · change ((env.nodes n).database.tuples p).numberOfReferences ≤ maxShort
    rw [(hnodes n).2 p]
    exact maxShort_nonneg

theorem markActiveRules_run (h : s.markActiveRules prog node = .ok s') : s'.run = s.run := by
  obtain ⟨t, hmark, hunmark⟩ := bind_eq_ok.mp h
  have hstep : ∀ {f : VmState (LinearDb α) ω → ℕ → Exec (VmState (LinearDb α) ω)},
      (∀ s rid s', f s rid = .ok s' → s'.run = s.run) → ∀ (rids : List ℕ)
      (s s' : VmState (LinearDb α) ω), rids.foldlM f s = .ok s' → s'.run = s.run := by
    intro f hf rids
    induction rids with
    | nil =>
      intro s s' h
      cases h
      rfl
    | cons rid rids ih =>
      intro s s' h
      rw [List.foldlM_cons] at h
      obtain ⟨t, ht, h⟩ := bind_eq_ok.mp h
      exact (ih t s' h).trans (hf s rid t ht)
  refine (hstep (fun s rid s' h => ?_) _ t s' hunmark).trans
    (hstep (fun s rid s' h => ?_) _ s t hmark)
  · rw [unmarkRule] at h
    split_ifs at h
    · obtain ⟨q, -, h⟩ := bind_eq_ok.mp h
      cases h
      rfl
    · cases h
      rfl
  · rw [markRule] at h
    split_ifs at h
    · obtain ⟨q, -, h⟩ := bind_eq_ok.mp h
      cases h
      rfl
    · cases h
      rfl

/-- The end of a call clears what the thread has derived. -/
theorem accounted_leave {aborted : Bool} {run : Run (LinearDb α) ω}
    (hgen : run.generatedTuples = [])
    (hsettled : ∀ run', run.finish (linearOps sur) node aborted = .ok run' →
      (∀ n, (run'.env.nodes n).Settled prog) ∧ OthersWait prog run')
    (h : leave (linearOps sur) { s with run := run } node aborted = .ok s') :
    s'.Accounted prog := by
  obtain ⟨run', hfinish, h⟩ := bind_eq_ok.mp h
  cases h
  obtain ⟨hnodes, hwait⟩ := hsettled run' hfinish
  obtain ⟨-, hgen', hpers, -⟩ := Run.finish_clears hfinish
  exact ⟨hnodes, hgen'.trans hgen, hpers, hwait⟩

/-- A harmless step keeps the account. -/
theorem Accounted.step (h : s.Accounted prog) (hharmless : s.Harmless sur)
    (hstep : (linearRuns sur).step s s') : s'.Accounted prog := by
  rcases hstep with ⟨hpc, env, use, counter, limit, node, hsame, henter⟩ | ⟨hpc, hnext⟩
  · simp only [Accounted, hpc] at h
    obtain ⟨hsettled, hgen, hpers, hwait⟩ := h
    obtain ⟨run, hbegin, henter⟩ := bind_eq_ok.mp henter
    cases henter
    exact Run.begin_spec (r := (s.around env use counter limit).run)
      (fun n => (hsettled n).congr (hsame n).1 (hsame n).2) hgen hpers hwait hbegin
  · have hs : s.Step prog (linearOps sur) s' := step_of_runNode (.inr ⟨hpc, hnext⟩)
    cases hs with
    | call hout => exact absurd hout hpc
    | @fact node run hnode hfact =>
      simp only [Accounted, Harmless, hnode] at h hharmless ⊢
      obtain ⟨hin, hrest⟩ := h
      have hlimit : s.run.checkInstructionLimit = false := by
        rcases Run.persistentStep_cases hfact with ⟨-, _, -, heq⟩ | ⟨-, -, heq⟩ |
          ⟨_, _, -, hgo, -⟩
        · cases heq
        · cases heq
        · exact hgo
      exact hin.persistentStep hrest (hharmless.2 hlimit) hfact
    | @mark node run t hnode hend hmark =>
      simp only [Accounted, hnode] at h
      obtain ⟨hin, hrest⟩ := h
      rcases Run.persistentStep_cases hend with ⟨-, r', hdelete, heq⟩ | ⟨-, -, heq⟩ |
        ⟨_, _, -, -, ⟨_, -, heq⟩ | ⟨-, _, heq, -⟩⟩
      · cases heq
        have hrun := markActiveRules_run hmark
        obtain ⟨hin', hrest'⟩ := hin.deleteLeaves hrest hdelete
        obtain ⟨-, env, hr⟩ := Run.deleteLeaves_spec hin.hands.leaves hdelete
        change Run.InRun prog node t.run ∧ Run.Rested t.run ∧ t.run.leavesForDeletion = []
        rw [hrun]
        exact ⟨hin', hrest', by rw [hr]⟩
      all_goals cases heq
    | @abort node run _ hnode hend hleave =>
      simp only [Accounted, Harmless, hnode] at h hharmless
      obtain ⟨hin, hrest⟩ := h
      rcases Run.persistentStep_cases hend with ⟨-, _, -, heq⟩ | ⟨hne, hlimit, heq⟩ |
        ⟨_, _, -, -, ⟨_, -, heq⟩ | ⟨-, _, heq, -⟩⟩
      · cases heq
      · cases heq
        obtain ⟨hnothing, hfits⟩ := hharmless.1 hne hlimit
        refine accounted_leave hrest.generated (fun run' hfinish => ?_) hleave
        obtain ⟨hnodes, hleaves⟩ := hin.abort hrest hnothing hfits hfinish
        refine ⟨hnodes, fun leaf hl => ?_⟩
        rw [hleaves] at hl
        exact ⟨hin.hands.leaves leaf hl, hnothing.2 leaf hl⟩
      all_goals cases heq
    | @stop node _ hnode hstop hleave =>
      simp only [Accounted, Harmless, hnode] at h hharmless
      obtain ⟨hin, hrest, hnone⟩ := h
      refine accounted_leave hrest.generated (fun run' hfinish => ?_) hleave
      obtain ⟨hnodes, hleaves⟩ := hin.finish hrest hnone (hharmless.1 hstop) hfinish
      exact ⟨hnodes, by simp [OthersWait, hleaves]⟩
    | @rule node rid q run hnode hgo hpop hrule =>
      simp only [Accounted, Harmless, hnode] at h hharmless
      exact h.1.runRule (hharmless.2 hgo q rid hpop) hrule

/-- After every call of `run_node`, in a run whose steps are all harmless, the rule matcher of every
node counts as many facts of each linear predicate as there are references in the database. -/
theorem predicateCount_eq_references (sur : Surroundings prog α ω)
    (h : (harmlessRuns sur).Reachable s) (hout : s.pc = .outside) (node p : ℕ)
    (hp : (prog.getPredicate p).isLinear = true) :
    (s.run.getNode node).matcher.matcher.predicateCount p =
      ((s.run.getNode node).database.tuples p).numberOfReferences := by
  have hstep : ∀ t t' : VmState (LinearDb α) ω, t.Accounted prog → (harmlessRuns sur).step t t' →
      t'.Accounted prog := fun _ _ ha ⟨hstep, hharmless⟩ => ha.step hharmless hstep
  have hinit : ∀ t : VmState (LinearDb α) ω, (harmlessRuns sur).init t → t.Accounted prog :=
    fun _ hi => @accounted_init prog α ω sur _ hi
  have hall : s.Accounted prog := h.invariant hinit hstep
  simp only [Accounted, hout] at hall
  exact (hall.1 node).count_eq hp

end VmState

end

/-! ### A program with a rule -/

/-- A linear and a persistent predicate with an integer field, and a linear one that the rule
derives. -/
def replacing : Program where
  predicates := [{ id := 0, types := [.item .int], isLinear := true, affectedRules := [0] },
    { id := 1, types := [.item .int] }, { id := 2, types := [.item .int], isLinear := true }]
  rules := [{ predicates := [0] }]
  id_eq := by decide
  affected_lt := by decide
  body_lt := by decide
  lists_agree := by decide

/-- The tuple of the predicate with the value. -/
def tupleOf (p : ℕ) (n : Int32) : Tuple := ⟨replacing.getPredicate p, [.item (.int n)]⟩

theorem tupleOf_valid {p : ℕ} {n : Int32} (hp : p < 3) : (tupleOf p n).Valid replacing := by
  refine ⟨by rw [tupleOf, Program.getPredicate_id], ?_, by simp [tupleOf, Value.Ok]⟩
  obtain rfl | rfl | rfl : p = 0 ∨ p = 1 ∨ p = 2 := by omega
  all_goals rfl

/-- The facts that arrive: one of each of the predicates, with the value seven. -/
def sevens (preds : List ℕ) : List SimpleTuple :=
  preds.map fun p => { tpl := tupleOf p 7, count := 1 }

/-- Facts that arrive at every call, and a rule that replaces the first of the facts of a call. -/
def arriving (preds : List ℕ) (h : ∀ p ∈ preds, p < 3) : Surroundings replacing Unit Unit where
  ruleBody _ _ _ := [.mark 0 true, .sendSelf (tupleOf 2 8)]
  ruleBody_valid := by simp [Action.Valid, tupleOf_valid]
  predicateBody _ _ _ := []
  predicateBody_valid := by simp
  runAction _ _ env := .ok env
  runAction_same h := by cases h; exact fun _ => ⟨rfl, rfl⟩
  routeSelf _ _ env := .ok env
  routeSelf_same h := by cases h; exact fun _ => ⟨rfl, rfl⟩
  gatherNextTuples _ _ env := .ok (env, sevens preds)
  gatherNextTuples_same h := by cases h; exact fun _ => ⟨rfl, rfl⟩
  gatherNextTuples_valid hg stpl hs := by
    cases hg
    obtain ⟨p, hp, rfl⟩ := List.mem_map.mp hs
    exact ⟨tupleOf_valid (h p hp), fun _ => rfl⟩
  addPersistent _ _ _ := .ok ((), true)
  deletePersistent _ _ _ := .ok ((), none)
  commitPersistent _ _ _ := .ok ()
  addAggTuple _ _ _ := .ok ((), [])
  addAggTuple_emits h := by cases h; simp
  noLevel := 0

/-- Nodes without facts. -/
def noFacts : Env (LinearDb Unit) Unit where
  nodes _ :=
    { matcher := ⟨.ofProgram replacing, Finset.disjoint_empty_left _⟩
      database := ⟨fun _ => Trie.new, ()⟩
      pending := []
      tuplePqueue := .new .intAsc
      rtuplePqueue := .new .intAsc }
  world := ()

variable {preds : List ℕ} {h : ∀ p ∈ preds, p < 3} {s s' : VmState (LinearDb Unit) Unit}

/-- A call on the first node, outside of the simulator. -/
def callOutside (preds : List ℕ) (h : ∀ p ∈ preds, p < 3) (s : VmState (LinearDb Unit) Unit) :
    Option (VmState (LinearDb Unit) Unit) :=
  if s.pc = .outside then
    ((s.around s.run.env false 0 0).enter (linearOps (arriving preds h)) 0).toOption
  else none

/-- The next step of a call, if it is outside of the simulator, no fact waits for its code and the
linear facts at the first node are few. -/
def nextOutside (preds : List ℕ) (h : ∀ p ∈ preds, p < 3) (s : VmState (LinearDb Unit) Unit) :
    Option (VmState (LinearDb Unit) Unit) :=
  if s.pc ∈ [.persistent 0, .loop 0] ∧ s.run.generatedPersistentTuples.isEmpty = true ∧
      s.run.simInstrUse = false ∧
      ∀ p ∈ ([0, 2] : List ℕ), ((s.run.getNode 0).database.tuples p).numberOfReferences +
        Run.numberOf p s.run.localTuples ≤ maxShort then
    (s.next replacing (linearOps (arriving preds h))).toOption
  else none

theorem callOutside_step (hcall : callOutside preds h s = some s') :
    (harmlessRuns (arriving preds h)).step s s' := by
  rw [callOutside] at hcall
  split_ifs at hcall with hpc
  refine ⟨.inl ⟨hpc, _, _, _, _, _, fun _ => ⟨rfl, rfl⟩, ok_of_toOption hcall⟩, ?_⟩
  rw [VmState.Harmless, hpc]
  trivial

/-- Only the first and the last predicate are linear. -/
theorem linear_replacing {p : ℕ} (hp : (replacing.getPredicate p).isLinear = true) :
    p = 0 ∨ p = 2 := by
  by_cases hlt : p < 3
  · obtain rfl | rfl | rfl : p = 0 ∨ p = 1 ∨ p = 2 := by omega
    · exact .inl rfl
    · exact absurd hp (by decide)
    · exact .inr rfl
  · rw [Program.getPredicate, List.getD_eq_default _ _ (by simp [replacing]; omega)] at hp
    exact absurd hp (by simp)

theorem nextOutside_step (hnext : nextOutside preds h s = some s') :
    (harmlessRuns (arriving preds h)).step s s' := by
  rw [nextOutside] at hnext
  split_ifs at hnext with hgo
  obtain ⟨hpc, hnone, huse, hfew⟩ := hgo
  have hlimit : s.run.checkInstructionLimit = false := by simp [Run.checkInstructionLimit, huse]
  have hnil : s.run.generatedPersistentTuples = [] := List.isEmpty_iff.mp hnone
  have hne : s.pc ≠ .outside := by
    intro hout
    simp [hout] at hpc
  refine ⟨.inr ⟨hne, ok_of_toOption hnext⟩, ?_⟩
  simp only [List.mem_cons, List.not_mem_nil, or_false] at hpc
  rcases hpc with hpc | hpc
  · simp only [VmState.Harmless, hpc]
    refine ⟨fun hsome => absurd hnil hsome, fun _ stpl facts hcons => ?_⟩
    rw [hnil] at hcons
    exact absurd hcons (by simp)
  · simp only [VmState.Harmless, hpc]
    refine ⟨fun _ p hp => ?_, fun _ _ rule _ => Run.harmlessRule_of_derives huse ?_⟩
    · rcases linear_replacing hp with rfl | rfl
      · exact hfew 0 (by simp)
      · exact hfew 2 (by simp)
    · intro tpl htpl
      obtain rfl : tpl = tupleOf 2 8 := by simpa [arriving] using htpl
      rfl

/-- A step of a call on the first node, or the beginning of one. -/
def actOutside (preds : List ℕ) (h : ∀ p ∈ preds, p < 3) (s : VmState (LinearDb Unit) Unit) :
    Option (VmState (LinearDb Unit) Unit) :=
  if s.pc = .outside then callOutside preds h s else nextOutside preds h s

theorem actOutside_step (hact : actOutside preds h s = some s') :
    (harmlessRuns (arriving preds h)).step s s' := by
  rw [actOutside] at hact
  split_ifs at hact
  · exact callOutside_step hact
  · exact nextOutside_step hact

theorem init_noFacts (sur : Surroundings replacing Unit Unit) :
    (linearRuns sur).init (.new noFacts) :=
  ⟨noFacts, rfl, fun _ => ⟨rfl, fun _ => rfl⟩⟩

private theorem zeroTwo_lt : ∀ p ∈ [0, 2], p < 3 := by decide

/-- Two calls, in each of which a fact of the first predicate arrives and is replaced, and one of
the last predicate arrives and stays. -/
theorem predicateCount_eq_references_arriving :
    ∃ s : VmState (LinearDb Unit) Unit, s.pc = .outside ∧
      ((s.run.getNode 0).database.tuples 0).numberOfReferences = 0 ∧
      ((s.run.getNode 0).database.tuples 2).numberOfReferences = 4 ∧
      ∀ p ∈ [0, 2], (s.run.getNode 0).matcher.matcher.predicateCount p =
        ((s.run.getNode 0).database.tuples p).numberOfReferences := by
  have hrun : (do
      let s ← (List.replicate 10 ()).foldlM (fun s _ => actOutside [0, 2] zeroTwo_lt s)
        (.new noFacts)
      some (decide (s.pc = .outside ∧
        ((s.run.getNode 0).database.tuples 0).numberOfReferences = 0 ∧
        ((s.run.getNode 0).database.tuples 2).numberOfReferences = 4))) = some true := by
    decide +kernel
  obtain ⟨s, hs, hrun⟩ := Option.bind_eq_some_iff.mp hrun
  rw [Option.some.injEq, decide_eq_true_eq] at hrun
  obtain ⟨hpc, hzero, hfour⟩ := hrun
  have hinit : (harmlessRuns (arriving [0, 2] zeroTwo_lt)).Reachable (.new noFacts) :=
    .init (init_noFacts (arriving [0, 2] zeroTwo_lt))
  have hreach : (harmlessRuns (arriving [0, 2] zeroTwo_lt)).Reachable s :=
    hinit.foldlM (fun _ _ _ => actOutside_step) hs
  refine ⟨s, hpc, hzero, hfour, fun p hp => ?_⟩
  refine VmState.predicateCount_eq_references (arriving [0, 2] zeroTwo_lt) hreach hpc 0 p ?_
  simp only [List.mem_cons, List.not_mem_nil, or_false] at hp
  rcases hp with rfl | rfl
  · rfl
  · rfl

private theorem zeroOne_lt : ∀ p ∈ [0, 1], p < 3 := by decide

/-- A linear and a persistent fact arrive at a node of the simulator that has used up its
instructions: the call is cut short and hands both back, but the linear fact stays counted. -/
theorem not_predicateCount_eq_references :
    ∃ s : VmState (LinearDb Unit) Unit,
      (linearRuns (arriving [0, 1] zeroOne_lt)).Reachable s ∧ s.pc = .outside ∧
      (replacing.getPredicate 0).isLinear = true ∧
      (s.run.getNode 0).matcher.matcher.predicateCount 0 = 1 ∧
      ((s.run.getNode 0).database.tuples 0).numberOfReferences = 0 ∧
      (s.run.getNode 0).pending = sevens [0, 1] := by
  have h₀ : (linearRuns (arriving [0, 1] zeroOne_lt)).Reachable (.new noFacts) :=
    .init (init_noFacts _)
  obtain ⟨s₁, henter, hpc₁, hs₁⟩ : ∃ s₁, ((VmState.new noFacts).around noFacts true 0 0).enter
      (linearOps (arriving [0, 1] zeroOne_lt)) 0 = .ok s₁ ∧ s₁.pc = .persistent 0 ∧
        ∃ s₂, s₁.next replacing (linearOps (arriving [0, 1] zeroOne_lt)) = .ok s₂ ∧
          s₂.pc = .outside ∧ (s₂.run.getNode 0).matcher.matcher.predicateCount 0 = 1 ∧
          ((s₂.run.getNode 0).database.tuples 0).numberOfReferences = 0 ∧
          (s₂.run.getNode 0).pending = sevens [0, 1] :=
    ⟨_, rfl, rfl, _, rfl, rfl, rfl, rfl, rfl⟩
  obtain ⟨s₂, hnext, hpc₂, hm, hd, hpending⟩ := hs₁
  refine ⟨s₂, (h₀.step (.inl ⟨rfl, noFacts, true, 0, 0, 0, fun _ => ⟨rfl, rfl⟩, henter⟩)).step
    (.inr ⟨by simp [hpc₁], hnext⟩), hpc₂, rfl, hm, hd, hpending⟩

end Meld.Vm
