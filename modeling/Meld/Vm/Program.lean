import Meld.Vm.Types

/-!
# Predicates, rules and programs

The parts of a loaded program the node state machine reads: for each predicate its fields, its
kind, its stratification level, its aggregate and the rules its facts may activate; for each
rule the predicates of its body and whether all of them are persistent. The loader appends a
rule to a predicate's list and the predicate to the rule's list together, so that the two
lists count the same occurrences; a `Program` carries this as a field.
-/

namespace Meld.Vm

/-- `aggregate_type`. -/
inductive AggregateType
  | first
  | maxInt
  | minInt
  | sumInt
  | maxFloat
  | minFloat
  | sumFloat
  | sumListFloat
  deriving DecidableEq, Repr

/-- `aggregate_info`: the aggregate's field and kind. -/
structure AggregateInfo where
  field : ℕ
  type : AggregateType
  deriving DecidableEq, Repr

/-- A predicate of the program. -/
structure Predicate where
  id : ℕ
  types : List FieldType := []
  level : ℕ := 0
  isLinear : Bool := false
  isAction : Bool := false
  isReused : Bool := false
  aggInfo : Option AggregateInfo := none
  /-- `affected_rules`, the rules with this predicate in their body -/
  affectedRules : List ℕ := []
  deriving DecidableEq, Repr

namespace Predicate

/-- `is_persistent_pred`. -/
def isPersistent (p : Predicate) : Bool := !p.isLinear

/-- `is_aggregate`. -/
def isAggregate (p : Predicate) : Bool := p.aggInfo.isSome

end Predicate

/-- A rule of the program. -/
structure Rule where
  /-- the predicates of the body, one entry for each occurrence -/
  predicates : List ℕ := []
  /-- `as_persistent`: every predicate involved is persistent -/
  isPersistent : Bool := false
  deriving DecidableEq, Repr

/-- A loaded program. -/
structure Program where
  predicates : List Predicate
  rules : List Rule
  id_eq : ∀ (i : ℕ) (h : i < predicates.length), predicates[i].id = i
  affected_lt : ∀ p ∈ predicates, ∀ r ∈ p.affectedRules, r < rules.length
  body_lt : ∀ r ∈ rules, ∀ p ∈ r.predicates, p < predicates.length
  /-- the predicate-to-rule and the rule-to-predicate lists agree -/
  lists_agree : ∀ (p : ℕ) (hp : p < predicates.length) (r : ℕ) (hr : r < rules.length),
    predicates[p].affectedRules.count r = rules[r].predicates.count p

namespace Program

variable (prog : Program)

/-- `num_predicates`. -/
def numPredicates : ℕ := prog.predicates.length

/-- `num_rules`. -/
def numRules : ℕ := prog.rules.length

/-- `get_predicate`. -/
def getPredicate (i : ℕ) : Predicate := prog.predicates.getD i { id := i }

/-- `get_rule`. -/
def getRule (i : ℕ) : Rule := prog.rules.getD i {}

variable {prog}

theorem getPredicate_id (i : ℕ) : (prog.getPredicate i).id = i := by
  by_cases h : i < prog.predicates.length
  · rw [getPredicate, List.getD_eq_getElem _ _ h, prog.id_eq i h]
  · rw [getPredicate, List.getD_eq_default _ _ (by omega)]

/-- Every listed rule of a predicate exists. -/
theorem lt_numRules_of_mem {p r : ℕ} (h : r ∈ (prog.getPredicate p).affectedRules) :
    r < prog.numRules := by
  by_cases hp : p < prog.predicates.length
  · rw [getPredicate, List.getD_eq_getElem _ _ hp] at h
    exact prog.affected_lt _ (List.getElem_mem hp) r h
  · rw [getPredicate, List.getD_eq_default _ _ (by omega)] at h
    cases h

/-- A predicate lists a rule as often as the rule's body names the predicate. -/
theorem count_affectedRules (p r : ℕ) :
    (prog.getPredicate p).affectedRules.count r = (prog.getRule r).predicates.count p := by
  by_cases hr : r < prog.rules.length
  · rw [getRule, List.getD_eq_getElem _ _ hr]
    by_cases hp : p < prog.predicates.length
    · rw [getPredicate, List.getD_eq_getElem _ _ hp]
      exact prog.lists_agree p hp r hr
    · rw [getPredicate, List.getD_eq_default _ _ (by omega), List.count_nil, eq_comm,
        List.count_eq_zero]
      exact fun hm => hp (prog.body_lt _ (List.getElem_mem hr) p hm)
  · rw [getRule, List.getD_eq_default _ _ (by omega), List.count_nil, List.count_eq_zero]
    exact fun hm => hr (lt_numRules_of_mem hm)

end Program

end Meld.Vm
