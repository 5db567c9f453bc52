import Meld.Vm.Program

/-!
# The rule matcher

A node's rule matcher counts the node's facts by predicate and keeps, for each rule, how many
entries of its body have a fact. A rule is active when all of them do. The counters are updated
only when a predicate's count leaves or reaches zero; `Exact` says that they nevertheless
always agree with the counts.

The vectors indexed by rules and by predicates are functions here, the ordered sets of rules are
finite sets. `predicate_count` is a `ref_count`, a signed 16-bit integer.
-/

namespace Meld.Vm

open Meld.Lib

/-- `rule_matcher_obj`. -/
structure RuleMatcherObj where
  totalHave : ℕ
  totalNeeded : ℕ
  /-- the rule involves persistent predicates only and is run elsewhere -/
  ignore : Bool
  deriving DecidableEq, Repr

/-- `rule_matcher`. -/
structure RuleMatcher where
  rules : ℕ → RuleMatcherObj
  predicateCount : ℕ → ℤ
  activeRules : Finset ℕ
  droppedRules : Finset ℕ

namespace RuleMatcher

/-- The constructor `rule_matcher(prog)`. -/
def ofProgram (prog : Program) : RuleMatcher where
  rules r := ⟨0, (prog.getRule r).predicates.length, (prog.getRule r).isPersistent⟩
  predicateCount _ := 0
  activeRules := ∅
  droppedRules := ∅

/-- The assignment to `rules[rule]`. -/
def setObj (m : RuleMatcher) (rule : ℕ) (obj : RuleMatcherObj) : RuleMatcher :=
  { m with rules := Function.update m.rules rule obj }

/-- A rule becomes active. -/
def activate (m : RuleMatcher) (rule : ℕ) : RuleMatcher :=
  { m with activeRules := insert rule m.activeRules, droppedRules := m.droppedRules.erase rule }

/-- A rule is dropped. -/
def drop (m : RuleMatcher) (rule : ℕ) : RuleMatcher :=
  { m with activeRules := m.activeRules.erase rule, droppedRules := insert rule m.droppedRules }

/-- One round of the loop of `register_predicate_availability`. -/
def gainRule (m : RuleMatcher) (rule : ℕ) : RuleMatcher :=
  let obj := m.rules rule
  if obj.ignore then m
  else
    let m := m.setObj rule { obj with totalHave := obj.totalHave + 1 }
    if obj.totalHave + 1 = obj.totalNeeded then m.activate rule else m

/-- One round of the loop of `register_predicate_unavailability`. -/
def loseRule (m : RuleMatcher) (rule : ℕ) : RuleMatcher :=
  let obj := m.rules rule
  if obj.ignore then m
  else
    let m := if obj.totalHave = obj.totalNeeded then m.drop rule else m
    m.setObj rule { obj with totalHave := decSize obj.totalHave }

/-- `register_predicate_availability`. -/
def registerPredicateAvailability (m : RuleMatcher) (pred : Predicate) : RuleMatcher :=
  pred.affectedRules.foldl gainRule m

/-- `register_predicate_unavailability`. -/
def registerPredicateUnavailability (m : RuleMatcher) (pred : Predicate) : RuleMatcher :=
  pred.affectedRules.foldl loseRule m

/-- The assignment to `predicate_count[id]`. -/
def setCount (m : RuleMatcher) (id : ℕ) (c : ℤ) : RuleMatcher :=
  { m with predicateCount := Function.update m.predicateCount id (wrap16 c) }

/-- `register_tuple`, for a tuple of the predicate `pred`. -/
def registerTuple (m : RuleMatcher) (pred : Predicate) (count : ℤ) (isNew : Bool) :
    RuleMatcher × Bool :=
  let id := pred.id
  let ret := isNew && decide (m.predicateCount id = 0)
  let m := if ret then m.registerPredicateAvailability pred else m
  (m.setCount id (m.predicateCount id + count), ret)

/-- `deregister_tuple`, for a tuple of the predicate `pred`. -/
def deregisterTuple (m : RuleMatcher) (pred : Predicate) (count : ℤ) :
    Exec (RuleMatcher × Bool) := do
  let id := pred.id
  assert (m.predicateCount id ≥ count)
  let ret := decide (m.predicateCount id = count)
  let m := if ret then m.registerPredicateUnavailability pred else m
  pure (m.setCount id (m.predicateCount id - count), ret)

/-- `clear_dropped_rules`. -/
def clearDroppedRules (m : RuleMatcher) : RuleMatcher := { m with droppedRules := ∅ }

@[simp] theorem setCount_activeRules (m : RuleMatcher) (id : ℕ) (c : ℤ) :
    (m.setCount id c).activeRules = m.activeRules := rfl

@[simp] theorem setCount_droppedRules (m : RuleMatcher) (id : ℕ) (c : ℤ) :
    (m.setCount id c).droppedRules = m.droppedRules := rfl

theorem setCount_predicateCount (m : RuleMatcher) (id : ℕ) (c : ℤ) (p : ℕ) :
    (m.setCount id c).predicateCount p = if p = id then wrap16 c else m.predicateCount p := by
  simp [setCount, Function.update_apply]

/-! ### The status of one rule

A round of either loop changes the counter and the set memberships of its own rule only, so the
loops run the rules' statuses independently: a rule takes one step for each of its occurrences. -/

/-- What the matcher knows of one rule. -/
structure Status where
  obj : RuleMatcherObj
  active : Bool
  dropped : Bool

/-- The status of a rule. -/
def status (m : RuleMatcher) (r : ℕ) : Status :=
  ⟨m.rules r, decide (r ∈ m.activeRules), decide (r ∈ m.droppedRules)⟩

@[simp] theorem status_setCount (m : RuleMatcher) (id : ℕ) (c : ℤ) :
    (m.setCount id c).status = m.status := rfl

namespace Status

/-- One more body entry has a fact. -/
def gain (s : Status) : Status :=
  if s.obj.ignore then s
  else
    let obj := { s.obj with totalHave := s.obj.totalHave + 1 }
    if s.obj.totalHave + 1 = s.obj.totalNeeded then ⟨obj, true, false⟩
    else ⟨obj, s.active, s.dropped⟩

/-- One more body entry is without a fact. -/
def lose (s : Status) : Status :=
  if s.obj.ignore then s
  else
    let obj := { s.obj with totalHave := decSize s.obj.totalHave }
    if s.obj.totalHave = s.obj.totalNeeded then ⟨obj, false, true⟩
    else ⟨obj, s.active, s.dropped⟩

/-- The status is the right one for a rule `rule` with `n` body entries that have a fact. -/
structure Exact (rule : Rule) (n : ℕ) (s : Status) : Prop where
  ignore_eq : s.obj.ignore = rule.isPersistent
  needed_eq : s.obj.totalNeeded = rule.predicates.length
  have_eq : rule.isPersistent = false → s.obj.totalHave = n
  active_iff : s.active = true ↔
    rule.isPersistent = false ∧ n = rule.predicates.length ∧ 0 < rule.predicates.length
  not_both : ¬(s.active = true ∧ s.dropped = true)

variable {s : Status} {rule : Rule} {n : ℕ}

theorem Exact.gain (h : s.Exact rule n) (hn : n < rule.predicates.length) :
    s.gain.Exact rule (n + 1) := by
  by_cases hi : rule.isPersistent = true
  · have hgain : s.gain = s := by rw [Status.gain, h.ignore_eq, if_pos hi]
    rw [hgain]
    exact ⟨h.ignore_eq, h.needed_eq, by simp [hi], by simpa [hi] using h.active_iff, h.not_both⟩
  · rw [Bool.not_eq_true] at hi
    have hactive : s.active = false := by
      rw [Bool.eq_false_iff]
      exact fun ha => absurd (h.active_iff.mp ha).2.1 (by omega)
    have hgain : s.gain = if n + 1 = rule.predicates.length
        then ⟨{ s.obj with totalHave := n + 1 }, true, false⟩
        else ⟨{ s.obj with totalHave := n + 1 }, s.active, s.dropped⟩ := by
      simp [Status.gain, h.ignore_eq, hi, h.needed_eq, h.have_eq hi]
    rw [hgain]
    split_ifs with hfull
    · exact ⟨h.ignore_eq, h.needed_eq, fun _ => rfl, by simp [hi, ← hfull], by simp⟩
    · exact ⟨h.ignore_eq, h.needed_eq, fun _ => rfl, by simp [hfull, hactive], by simp [hactive]⟩

theorem Exact.lose (h : s.Exact rule (n + 1)) (hn : n < rule.predicates.length) :
    s.lose.Exact rule n := by
  by_cases hi : rule.isPersistent = true
  · have hlose : s.lose = s := by rw [Status.lose, h.ignore_eq, if_pos hi]
    rw [hlose]
    exact ⟨h.ignore_eq, h.needed_eq, by simp [hi], by simpa [hi] using h.active_iff, h.not_both⟩
  · rw [Bool.not_eq_true] at hi
    have hne : n ≠ rule.predicates.length := by omega
    have hlose : s.lose = if n + 1 = rule.predicates.length
        then ⟨{ s.obj with totalHave := n }, false, true⟩
        else ⟨{ s.obj with totalHave := n }, s.active, s.dropped⟩ := by
      simp [Status.lose, h.ignore_eq, hi, h.needed_eq, h.have_eq hi, decSize]
    rw [hlose]
    split_ifs with hfull
    · exact ⟨h.ignore_eq, h.needed_eq, fun _ => rfl, by simp [hne], by simp⟩
    · have hactive : s.active = false := by
        rw [Bool.eq_false_iff]
        exact fun ha => hfull (h.active_iff.mp ha).2.1
      exact ⟨h.ignore_eq, h.needed_eq, fun _ => rfl, by simp [hne, hactive], by simp [hactive]⟩

theorem Exact.iterate_gain (h : s.Exact rule n) (k : ℕ)
    (hk : n + k ≤ rule.predicates.length) : (Status.gain^[k] s).Exact rule (n + k) := by
  induction k with
  | zero => exact h
  | succ k ih =>
    rw [Function.iterate_succ_apply', ← Nat.add_assoc]
    exact (ih (by omega)).gain (by omega)

theorem Exact.iterate_lose (k : ℕ) (h : s.Exact rule (n + k))
    (hk : n + k ≤ rule.predicates.length) : (Status.lose^[k] s).Exact rule n := by
  induction k generalizing s with
  | zero => exact h
  | succ k ih =>
    rw [Function.iterate_succ_apply]
    exact ih (Exact.lose h (by omega)) (by omega)

end Status

theorem status_gainRule (m : RuleMatcher) (rule r : ℕ) :
    (m.gainRule rule).status r = if r = rule then (m.status r).gain else m.status r := by
  by_cases hr : r = rule
  · subst hr
    by_cases hi : (m.rules r).ignore = true <;>
      by_cases hf : (m.rules r).totalHave + 1 = (m.rules r).totalNeeded <;>
      simp [gainRule, Status.gain, status, setObj, activate, hi, hf]
  · by_cases hi : (m.rules rule).ignore = true <;>
      by_cases hf : (m.rules rule).totalHave + 1 = (m.rules rule).totalNeeded <;>
      simp [gainRule, status, setObj, activate, hi, hf, hr]

theorem status_loseRule (m : RuleMatcher) (rule r : ℕ) :
    (m.loseRule rule).status r = if r = rule then (m.status r).lose else m.status r := by
  by_cases hr : r = rule
  · subst hr
    by_cases hi : (m.rules r).ignore = true <;>
      by_cases hf : (m.rules r).totalHave = (m.rules r).totalNeeded <;>
      simp [loseRule, Status.lose, status, setObj, drop, hi, hf]
  · by_cases hi : (m.rules rule).ignore = true <;>
      by_cases hf : (m.rules rule).totalHave = (m.rules rule).totalNeeded <;>
      simp [loseRule, status, setObj, drop, hi, hf, hr]

/-- A loop whose rounds each step one rule's status steps a rule once per occurrence. -/
theorem status_foldl {round : RuleMatcher → ℕ → RuleMatcher} {step : Status → Status}
    (h : ∀ m rule r, (round m rule).status r = if r = rule then step (m.status r) else m.status r)
    (rs : List ℕ) (m : RuleMatcher) (r : ℕ) :
    (rs.foldl round m).status r = step^[rs.count r] (m.status r) := by
  induction rs generalizing m with
  | nil => rfl
  | cons a rs ih =>
    rw [List.foldl_cons, ih, h]
    by_cases hr : r = a
    · subst hr
      rw [if_pos rfl, List.count_cons_self, Function.iterate_succ_apply]
    · rw [if_neg hr, List.count_cons_of_ne (Ne.symm hr)]

theorem status_registerPredicateAvailability (m : RuleMatcher) (pred : Predicate) (r : ℕ) :
    (m.registerPredicateAvailability pred).status r =
      Status.gain^[pred.affectedRules.count r] (m.status r) :=
  status_foldl status_gainRule _ _ _

theorem status_registerPredicateUnavailability (m : RuleMatcher) (pred : Predicate) (r : ℕ) :
    (m.registerPredicateUnavailability pred).status r =
      Status.lose^[pred.affectedRules.count r] (m.status r) :=
  status_foldl status_loseRule _ _ _

/-- The loops leave the counts alone. -/
theorem foldl_predicateCount {round : RuleMatcher → ℕ → RuleMatcher}
    (h : ∀ m rule, (round m rule).predicateCount = m.predicateCount) (rs : List ℕ)
    (m : RuleMatcher) : (rs.foldl round m).predicateCount = m.predicateCount := by
  induction rs generalizing m with
  | nil => rfl
  | cons a rs ih => rw [List.foldl_cons, ih, h]

@[simp] theorem registerPredicateAvailability_predicateCount (m : RuleMatcher)
    (pred : Predicate) :
    (m.registerPredicateAvailability pred).predicateCount = m.predicateCount := by
  refine foldl_predicateCount (fun m rule => ?_) _ _
  simp only [gainRule]
  split_ifs <;> rfl

@[simp] theorem registerPredicateUnavailability_predicateCount (m : RuleMatcher)
    (pred : Predicate) :
    (m.registerPredicateUnavailability pred).predicateCount = m.predicateCount := by
  refine foldl_predicateCount (fun m rule => ?_) _ _
  simp only [loseRule]
  split_ifs <;> rfl

end RuleMatcher

/-! ### The matcher agrees with its counts -/

/-- The number of body entries of a rule whose predicate has a positive count. -/
def RuleMatcher.available (m : RuleMatcher) (rule : Rule) : ℕ :=
  rule.predicates.countP fun p => decide (0 < m.predicateCount p)

/-- Every rule's status is the right one for the counts, and the counts are in range. -/
structure RuleMatcher.Consistent (prog : Program) (m : RuleMatcher) : Prop where
  status_exact : ∀ r, (m.status r).Exact (prog.getRule r) (m.available (prog.getRule r))
  count_nonneg : ∀ p, 0 ≤ m.predicateCount p
  count_le : ∀ p, m.predicateCount p ≤ maxShort

/-- The entries of a list that satisfy `q` or are `p`. -/
private theorem countP_or_eq {q : ℕ → Bool} {p : ℕ} (hp : q p = false) (l : List ℕ) :
    l.countP (fun x => q x || decide (x = p)) = l.countP q + l.count p := by
  induction l with
  | nil => rfl
  | cons a l ih =>
    by_cases ha : a = p
    · subst ha
      simp only [List.countP_cons, List.count_cons, ih, hp]
      simp
      omega
    · simp only [List.countP_cons, List.count_cons, ih]
      by_cases hq : q a = true <;> simp [ha, hq]
      omega

namespace RuleMatcher

variable {prog : Program} {m : RuleMatcher} {p : ℕ} {c : ℤ}

/-- The empty matcher of a program. -/
theorem consistent_ofProgram : (ofProgram prog).Consistent prog where
  status_exact r := by
    have hav : (ofProgram prog).available (prog.getRule r) = 0 := by
      simp [available, ofProgram]
    rw [hav]
    refine ⟨rfl, rfl, fun _ => rfl, ?_, by simp [status, ofProgram]⟩
    simp only [status, ofProgram, Finset.notMem_empty, decide_false, Bool.false_eq_true, false_iff]
    omega
  count_nonneg _ := le_rfl
  count_le _ := maxShort_nonneg

theorem setCount_predicateCount_of_mem (h₀ : 0 ≤ c) (hmax : c ≤ maxShort) (x : ℕ) :
    (m.setCount p c).predicateCount x = if x = p then c else m.predicateCount x := by
  rw [setCount_predicateCount, wrap16_of_mem (by simp only [maxShort]; omega) hmax]

/-- A predicate that gets its first fact makes its occurrences available. -/
theorem available_setCount_of_zero (rule : Rule) (h : m.predicateCount p = 0)
    (hc : 0 < c) (hmax : c ≤ maxShort) :
    (m.setCount p c).available rule = m.available rule + rule.predicates.count p := by
  rw [available, available, ← countP_or_eq (by simp [h])]
  refine List.countP_congr fun x _ => ?_
  rw [setCount_predicateCount_of_mem hc.le hmax]
  by_cases hx : x = p <;> simp [hx, hc]

/-- A predicate that loses its last fact makes its occurrences unavailable. -/
theorem available_setCount_zero (rule : Rule) (h : 0 < m.predicateCount p) :
    m.available rule = (m.setCount p 0).available rule + rule.predicates.count p := by
  have hcount := setCount_predicateCount_of_mem (m := m) (p := p) le_rfl (by decide)
  rw [available, available, ← countP_or_eq (by simp [hcount])]
  refine List.countP_congr fun x _ => ?_
  rw [hcount]
  by_cases hx : x = p <;> simp [hx, h]

/-- A predicate that keeps facts changes nothing. -/
theorem available_setCount_of_pos (rule : Rule) (h : 0 < m.predicateCount p)
    (hc : 0 < c) (hmax : c ≤ maxShort) :
    (m.setCount p c).available rule = m.available rule := by
  refine List.countP_congr fun x _ => ?_
  rw [setCount_predicateCount_of_mem hc.le hmax]
  by_cases hx : x = p <;> simp [hx, hc, h]

/-- Only the counts decide what is available. -/
theorem available_congr {m' : RuleMatcher} (h : m'.predicateCount = m.predicateCount) :
    m'.available = m.available := by
  funext rule
  rw [available, available, h]

/-- A count that stays in range and whose zero crossings the statuses have followed. -/
theorem Consistent.setCount (h : m.Consistent prog) {m' : RuleMatcher}
    (hcount : m'.predicateCount = m.predicateCount) (hc : 0 ≤ c) (hmax : c ≤ maxShort)
    (hst : ∀ r, (m'.status r).Exact (prog.getRule r) ((m.setCount p c).available (prog.getRule r))) :
    (m'.setCount p c).Consistent prog where
  status_exact r := by
    have hav : (m'.setCount p c).available = (m.setCount p c).available :=
      available_congr (by simp only [RuleMatcher.setCount, hcount])
    rw [hav]
    exact hst r
  count_nonneg q := by
    rw [setCount_predicateCount_of_mem hc hmax, hcount]
    split_ifs
    exacts [hc, h.count_nonneg q]
  count_le q := by
    rw [setCount_predicateCount_of_mem hc hmax, hcount]
    split_ifs
    exacts [hmax, h.count_le q]

theorem available_add_count_le (h : m.predicateCount p = 0) (rule : Rule) :
    m.available rule + rule.predicates.count p ≤ rule.predicates.length := by
  rw [← available_setCount_of_zero rule h Int.one_pos (by decide)]
  exact List.countP_le_length

theorem registerTuple_predicateCount (isNew : Bool) (h₀ : 0 ≤ m.predicateCount p + c)
    (hmax : m.predicateCount p + c ≤ maxShort) (q : ℕ) :
    (m.registerTuple (prog.getPredicate p) c isNew).1.predicateCount q =
      if q = p then m.predicateCount p + c else m.predicateCount q := by
  simp only [RuleMatcher.registerTuple, Program.getPredicate_id]
  have hsame : (if (isNew && decide (m.predicateCount p = 0)) = true then
      m.registerPredicateAvailability (prog.getPredicate p) else m).predicateCount =
      m.predicateCount := by split_ifs <;> simp
  rw [setCount_predicateCount_of_mem] <;> rw [hsame] <;> omega

/-- `register_tuple` with a positive count keeps the matcher consistent, provided a call that is
not the tuple's first comes when the predicate has facts. -/
theorem Consistent.registerTuple (h : m.Consistent prog) (isNew : Bool) (hc : 0 < c)
    (hmax : m.predicateCount p + c ≤ maxShort)
    (hnew : isNew = false → 0 < m.predicateCount p) :
    (m.registerTuple (prog.getPredicate p) c isNew).1.Consistent prog := by
  have h₀ := h.count_nonneg p
  simp only [RuleMatcher.registerTuple, Program.getPredicate_id]
  by_cases hz : m.predicateCount p = 0
  · have hn : isNew = true := by
      cases isNew
      · exact absurd (hnew rfl) (by omega)
      · rfl
    simp only [hn, hz, decide_true, Bool.and_true, if_true,
      registerPredicateAvailability_predicateCount]
    refine h.setCount (by simp) (by omega) (by omega) fun r => ?_
    rw [status_registerPredicateAvailability, Program.count_affectedRules,
      available_setCount_of_zero _ hz (by omega) (by omega)]
    exact (h.status_exact r).iterate_gain _ (available_add_count_le hz _)
  · simp only [hz, decide_false, Bool.and_false, Bool.false_eq_true, if_false]
    refine h.setCount rfl (by omega) (by omega) fun r => ?_
    rw [available_setCount_of_pos _ (by omega) (by omega) (by omega)]
    exact h.status_exact r

/-- `deregister_tuple` of no more than is counted keeps the matcher consistent. -/
theorem Consistent.deregisterTuple (h : m.Consistent prog) (hc : 0 < c)
    (hle : c ≤ m.predicateCount p) :
    ∃ m' : RuleMatcher, m'.Consistent prog ∧
      m.deregisterTuple (prog.getPredicate p) c =
        .ok (m', decide (m.predicateCount p = c)) ∧
      ∀ q, m'.predicateCount q =
        if q = p then m.predicateCount p - c else m.predicateCount q := by
  have hmax := h.count_le p
  simp only [RuleMatcher.deregisterTuple, Program.getPredicate_id, ge_iff_le, assert_pos hle,
    ok_bind, pure_eq_ok]
  refine ⟨_, ?_, rfl, fun q => ?_⟩
  · by_cases hz : m.predicateCount p = c
    · simp only [hz, decide_true, if_true, registerPredicateUnavailability_predicateCount,
        Int.sub_self]
      refine h.setCount (by simp) le_rfl maxShort_nonneg fun r => ?_
      have hav := available_setCount_zero (prog.getRule r) (m := m) (p := p) (by omega)
      rw [status_registerPredicateUnavailability, Program.count_affectedRules]
      refine Status.Exact.iterate_lose _ (hav ▸ h.status_exact r) ?_
      rw [← hav]
      exact List.countP_le_length
    · simp only [hz, decide_false, Bool.false_eq_true, if_false]
      refine h.setCount rfl (by omega) (by omega) fun r => ?_
      rw [available_setCount_of_pos _ (by omega) (by omega) (by omega)]
      exact h.status_exact r
  · have hsame : (if decide (m.predicateCount p = c) = true then
        m.registerPredicateUnavailability (prog.getPredicate p) else m).predicateCount =
        m.predicateCount := by split_ifs <;> simp
    rw [setCount_predicateCount_of_mem] <;> rw [hsame] <;> omega

/-- Clearing the dropped rules keeps the matcher consistent. -/
theorem Consistent.clearDroppedRules (h : m.Consistent prog) :
    m.clearDroppedRules.Consistent prog where
  status_exact r :=
    { h.status_exact r with not_both := by simp [status, RuleMatcher.clearDroppedRules] }
  count_nonneg := h.count_nonneg
  count_le := h.count_le

/-! ### Sequences of calls -/

/-- A call that changes the matcher. -/
inductive Call
  | registerTuple (p : ℕ) (count : ℤ) (isNew : Bool)
  | deregisterTuple (p : ℕ) (count : ℤ)
  | clearDroppedRules

namespace Call

/-- The matcher after a call, and the value the call returns. -/
def run (prog : Program) (m : RuleMatcher) : Call → Exec (RuleMatcher × Bool)
  | registerTuple p count isNew => .ok (m.registerTuple (prog.getPredicate p) count isNew)
  | deregisterTuple p count => m.deregisterTuple (prog.getPredicate p) count
  | clearDroppedRules => .ok (m.clearDroppedRules, false)

/-- The calls the state machine may make: counts are positive and stay in range, a registration
is not new only when the predicate has facts, and no more is taken than is present. -/
def Legal (prog : Program) (m : RuleMatcher) : Call → Prop
  | registerTuple p count isNew =>
    p < prog.numPredicates ∧ 0 < count ∧ m.predicateCount p + count ≤ maxShort ∧
      (isNew = false → 0 < m.predicateCount p)
  | deregisterTuple p count => p < prog.numPredicates ∧ 0 < count ∧ count ≤ m.predicateCount p
  | clearDroppedRules => True

instance (prog : Program) (m : RuleMatcher) : DecidablePred (Legal prog m) := fun c => by
  cases c <;> simp only [Legal] <;> infer_instance

/-- What a call adds to the count of a predicate. -/
def delta : Call → ℕ → ℤ
  | registerTuple p count _, q => if q = p then count else 0
  | deregisterTuple p count, q => if q = p then -count else 0
  | clearDroppedRules, _ => 0

/-- The call takes its predicate's count from zero to positive, or from positive to zero. -/
def Crosses (m m' : RuleMatcher) : Call → Prop
  | registerTuple p _ _ => m.predicateCount p = 0 ∧ 0 < m'.predicateCount p
  | deregisterTuple p _ => 0 < m.predicateCount p ∧ m'.predicateCount p = 0
  | clearDroppedRules => False

end Call

/-- The matchers a program's legal calls lead to. -/
inductive Reachable (prog : Program) : RuleMatcher → Prop
  | init : Reachable prog (ofProgram prog)
  | step {m m' : RuleMatcher} {b : Bool} {c : Call} (hm : Reachable prog m)
      (hc : c.Legal prog m) (hrun : c.run prog m = .ok (m', b)) : Reachable prog m'

/-- A legal call returns, keeps the matcher consistent, and tells whether it crossed zero. -/
theorem Consistent.call (h : m.Consistent prog) {c : Call} (hc : c.Legal prog m) :
    ∃ (m' : RuleMatcher) (b : Bool), c.run prog m = .ok (m', b) ∧ m'.Consistent prog ∧
      (∀ q, m'.predicateCount q = m.predicateCount q + c.delta q) ∧ (b = true ↔ c.Crosses m m') := by
  cases c with
  | registerTuple p count isNew =>
    obtain ⟨-, hpos, hmax, hnew⟩ := hc
    have h₀ := h.count_nonneg p
    have hcount : ∀ q, (m.registerTuple (prog.getPredicate p) count isNew).1.predicateCount q =
        if q = p then m.predicateCount p + count else m.predicateCount q :=
      registerTuple_predicateCount isNew (by omega) hmax
    refine ⟨(m.registerTuple (prog.getPredicate p) count isNew).1,
      (m.registerTuple (prog.getPredicate p) count isNew).2, rfl,
      h.registerTuple isNew hpos hmax hnew, fun q => ?_, ?_⟩
    · rw [hcount, Call.delta]
      split_ifs with hq
      · rw [hq]
      · omega
    · simp only [Call.Crosses, hcount, if_true]
      simp only [RuleMatcher.registerTuple, Program.getPredicate_id, Bool.and_eq_true,
        decide_eq_true_eq]
      refine ⟨fun ⟨_, hz⟩ => ⟨hz, by omega⟩, fun ⟨hz, _⟩ => ⟨?_, hz⟩⟩
      by_contra hn
      exact absurd (hnew (by simpa using hn)) (by omega)
  | deregisterTuple p count =>
    obtain ⟨-, hpos, hle⟩ := hc
    obtain ⟨m', hm', hrun, hcount⟩ := h.deregisterTuple hpos hle
    refine ⟨m', _, hrun, hm', fun q => ?_, ?_⟩
    · rw [hcount, Call.delta]
      split_ifs with hq
      · rw [hq]; omega
      · omega
    · simp only [Call.Crosses, hcount, if_true, decide_eq_true_eq]
      omega
  | clearDroppedRules =>
    exact ⟨_, _, rfl, h.clearDroppedRules, by simp [Call.delta, RuleMatcher.clearDroppedRules],
      by simp [Call.Crosses]⟩

/-- Every reachable matcher is consistent. -/
theorem Reachable.consistent (h : Reachable prog m) : m.Consistent prog := by
  induction h with
  | init => exact consistent_ofProgram
  | step _ hc hrun ih =>
    obtain ⟨m', b, hrun', hm', -⟩ := ih.call hc
    rw [hrun', Except.ok.injEq, Prod.mk.injEq] at hrun
    exact hrun.1 ▸ hm'

/-- **Runnable rules are tracked exactly.** After any legal call on a reachable matcher, the
counters of the rules that are not persistent are the numbers of their available body entries,
the active rules are those whose entries are all available, no active rule is dropped, and the
call's result says whether its predicate's count crossed zero. -/
theorem runnable_exact (hm : Reachable prog m) {c : Call} (hc : c.Legal prog m) :
    ∃ (m' : RuleMatcher) (b : Bool), c.run prog m = .ok (m', b) ∧
      (∀ q, m'.predicateCount q = m.predicateCount q + c.delta q) ∧
      (∀ r, (m'.rules r).totalNeeded = (prog.getRule r).predicates.length) ∧
      (∀ r, (prog.getRule r).isPersistent = false →
        (m'.rules r).totalHave = m'.available (prog.getRule r)) ∧
      (∀ r, r ∈ m'.activeRules ↔ (prog.getRule r).isPersistent = false ∧
        (m'.rules r).totalHave = (m'.rules r).totalNeeded ∧ 0 < (m'.rules r).totalNeeded) ∧
      Disjoint m'.activeRules m'.droppedRules ∧
      (b = true ↔ c.Crosses m m') := by
  obtain ⟨m', b, hrun, hm', hcount, hb⟩ := hm.consistent.call hc
  refine ⟨m', b, hrun, hcount, fun r => (hm'.status_exact r).needed_eq,
    fun r hr => (hm'.status_exact r).have_eq hr, fun r => ?_, ?_, hb⟩
  · have hr := hm'.status_exact r
    have hact := hr.active_iff
    simp only [status, decide_eq_true_eq] at hact
    rw [hact]
    refine and_congr_right fun hp => ?_
    rw [show (m'.rules r).totalHave = _ from hr.have_eq hp,
      show (m'.rules r).totalNeeded = _ from hr.needed_eq]
  · rw [Finset.disjoint_left]
    intro r hact hdrop
    exact (hm'.status_exact r).not_both ⟨by simpa [status] using hact, by simpa [status] using hdrop⟩

/-- A program with a rule that uses one predicate twice and another once, and a rule for the first
predicate alone. -/
def sharedProgram : Program where
  predicates := [{ id := 0, affectedRules := [0, 0, 1] }, { id := 1, affectedRules := [0] }]
  rules := [{ predicates := [0, 0, 1] }, { predicates := [0] }]
  id_eq := by decide
  affected_lt := by decide
  body_lt := by decide
  lists_agree := by decide

/-- The second predicate's first fact activates the first rule. -/
theorem runnable_exact_sharedProgram :
    ∃ (m' : RuleMatcher) (b : Bool),
      (Call.registerTuple 1 1 true).run sharedProgram
        ((ofProgram sharedProgram).registerTuple (sharedProgram.getPredicate 0) 2 true).1 =
          .ok (m', b) ∧ 0 ∈ m'.activeRules ∧ 0 ∉ m'.droppedRules ∧ b = true := by
  have hm : Reachable sharedProgram
      ((ofProgram sharedProgram).registerTuple (sharedProgram.getPredicate 0) 2 true).1 :=
    Reachable.step (c := .registerTuple 0 2 true) (b := true) .init (by decide) rfl
  obtain ⟨m', b, hrun, hcount, hneed, hhave, hact, hdisj, hb⟩ :=
    runnable_exact hm (c := .registerTuple 1 1 true) (by decide)
  have hzero : 0 ∈ m'.activeRules := by
    rw [hact, hneed, hhave 0 rfl]
    simp only [available, hcount]
    decide
  refine ⟨m', b, hrun, hzero, Finset.disjoint_left.mp hdisj hzero, hb.mpr ⟨by decide, ?_⟩⟩
  rw [hcount]
  decide

end RuleMatcher

end Meld.Vm
