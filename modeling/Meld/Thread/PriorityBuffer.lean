import Meld.Lib.Double
import Meld.Lib.SortedMap
import Meld.Thread.PrioRuns

/-!
# The priority buffer

Other threads ask for changes of the priorities of nodes by items in the `priority_buffer` of the
thread. `check_priority_buffer` hands the items of nodes that it does not own on to their owners,
merges those of each of its own nodes into one entry of `node_map`, and calls `set_node_priority`
once for each entry.

An entry is an `int`, and a later `ADD_PRIORITY` doubles it instead of adding to it.
-/

namespace Meld.Thread

open Lib Queue Vm

/-- `priority_add_type`. -/
inductive PriorityAddType
  | addPriority
  | setPriority
  deriving DecidableEq, Repr

/-- `priority_add_item`. -/
structure PriorityAddItem where
  typ : PriorityAddType
  val : Int32
  target : ℕ
  deriving DecidableEq

/-- `node_priorities`. -/
abbrev NodePriorities := SortedMap ℕ Int32

/-- The conversion of a double to an `int`, which is undefined out of the range. -/
def toInt (x : UInt64) : Exec Int32 :=
  match Double.truncate x with
  | some z => if -2 ^ 31 ≤ z ∧ z < 2 ^ 31 then .ok (Int32.ofInt z) else .error .overflow
  | none => .error .overflow

/-- What the item makes of the entry of its node, whose priority is `level`. -/
def mergeItem (level : UInt64) (entry : Option Int32) (p : PriorityAddItem) : Exec Int32 :=
  let howmuch := Double.ofInt p.val.toInt
  match entry with
  | none =>
    match p.typ with
    | .addPriority => toInt (Double.add level howmuch)
    | .setPriority => toInt howmuch
  | some old =>
    let oldval := Double.ofInt old.toInt
    match p.typ with
    | .addPriority => toInt (Double.add oldval oldval)
    | .setPriority => toInt howmuch

namespace ThreadsPrio

variable {C T : Type} [Bin C T]

/-- `get_float_priority_level`. -/
abbrev getFloatPriorityLevel (s : ThreadsPrio C) (n : ℕ) : UInt64 :=
  (s.priorityLevel n).floatPriority

/-- One turn of the loop over the buffer: the entries and the buffers of the other threads. -/
def readItem (s : ThreadsPrio C) (owner : ℕ → ℕ) :
    NodePriorities × (ℕ → List PriorityAddItem) → PriorityAddItem →
      Exec (NodePriorities × (ℕ → List PriorityAddItem))
  | (nodeMap, others), p =>
    if s.owned p.target = false then
      let other := owner p.target
      -- skip nodes we do not own
      return (nodeMap, Function.update others other (others other ++ [p]))
    else do
      let val ← mergeItem (s.getFloatPriorityLevel p.target) (nodeMap.find p.target) p
      return (nodeMap.assign p.target val, others)

/-- The calls of `set_node_priority` that the buffer leads to, and the buffers of the others. -/
def priorityCalls (s : ThreadsPrio C) (owner : ℕ → ℕ) (buffer : List PriorityAddItem)
    (others : ℕ → List PriorityAddItem) :
    Exec (List (ℕ × UInt64) × (ℕ → List PriorityAddItem)) := do
  let (nodeMap, others) ← buffer.foldlM (s.readItem owner) (SortedMap.empty, others)
  return (nodeMap.entries.map fun (target, val) => (target, Double.ofInt val.toInt), others)

/-- `check_priority_buffer`, which leaves the buffer empty. -/
def checkPriorityBuffer (s : ThreadsPrio C) (owner : ℕ → ℕ) (buffer : List PriorityAddItem)
    (others : ℕ → List PriorityAddItem) :
    Exec (ThreadsPrio C × (ℕ → List PriorityAddItem)) := do
  let (calls, others) ← s.priorityCalls owner buffer others
  let s ← calls.foldlM (fun s (target, priority) => s.setNodePriority target priority) s
  return (s, others)

end ThreadsPrio

/-! ### What the items ask for -/

/-- The priority of a node after the change that the item asks for. -/
def PriorityAddItem.apply (level : UInt64) (p : PriorityAddItem) : UInt64 :=
  match p.typ with
  | .addPriority => Double.add level (Double.ofInt p.val.toInt)
  | .setPriority => Double.ofInt p.val.toInt

/-- The items of a node. -/
def itemsOf (n : ℕ) (buffer : List PriorityAddItem) : List PriorityAddItem :=
  buffer.filter fun p => p.target = n

/-- Buffered changes compose: `set_node_priority` is called once for each owned node that occurs,
with its priority after all its items, and the others get their items in order. -/
structure Composes {C : Type} (s : ThreadsPrio C) (owner : ℕ → ℕ)
    (buffer : List PriorityAddItem) (others : ℕ → List PriorityAddItem)
    (calls : List (ℕ × UInt64)) (others' : ℕ → List PriorityAddItem) : Prop where
  run : s.priorityCalls owner buffer others = .ok (calls, others')
  once : (calls.map Prod.fst).Nodup
  nodes : ∀ n, n ∈ calls.map Prod.fst ↔ s.owned n = true ∧ ∃ p ∈ buffer, p.target = n
  values : ∀ n priority, (n, priority) ∈ calls →
    priority = (itemsOf n buffer).foldl PriorityAddItem.apply (s.getFloatPriorityLevel n)
  forwarded : ∀ t, others' t =
    others t ++ buffer.filter fun p => s.owned p.target = false ∧ owner p.target = t

/-! ### The base of the items of a node -/

/-- The value that the last `SET_PRIORITY`, or else the first item, leads to, and the amounts that
are added behind it. -/
def baseStep (level : UInt64) (base : Option (UInt64 × List Int32)) (p : PriorityAddItem) :
    Option (UInt64 × List Int32) :=
  match p.typ, base with
  | .setPriority, _ => some (Double.ofInt p.val.toInt, [])
  | .addPriority, none => some (Double.add level (Double.ofInt p.val.toInt), [])
  | .addPriority, some (x, amounts) => some (x, amounts ++ [p.val])

/-- The base of the items of a node, and the amounts that are added behind it. -/
def baseOf (level : UInt64) (l : List PriorityAddItem) : Option (UInt64 × List Int32) :=
  l.foldl (baseStep level) none

/-- The range of `int`. -/
def IsInt (z : ℤ) : Prop := -2 ^ 31 ≤ z ∧ z < 2 ^ 31

/-- At no item does the base, doubled for every amount added behind it, leave the range. -/
def Fits (level : UInt64) (l : List PriorityAddItem) : Prop :=
  ∀ p, p <+: l → ∀ x amounts, baseOf level p = some (x, amounts) →
    ∃ b, Double.truncate x = some b ∧ IsInt (b * 2 ^ amounts.length)

/-- The amounts that are added behind the base come to as much as doubling it for each of them. -/
def Doubles (level : UInt64) (l : List PriorityAddItem) : Prop :=
  ∀ x amounts b, baseOf level l = some (x, amounts) → Double.truncate x = some b →
    amounts.foldl (fun x a => Double.add x (Double.ofInt a.toInt)) x =
      Double.ofInt (b * 2 ^ amounts.length)

/-! ### One entry -/

variable {level x : UInt64} {l : List PriorityAddItem} {p : PriorityAddItem} {e : Option Int32}
  {v : Int32} {amounts : List Int32}

theorem isInt_toInt (v : Int32) : IsInt v.toInt := ⟨v.le_toInt, v.toInt_lt⟩

theorem natAbs_toInt_lt (v : Int32) : v.toInt.natAbs < 2 ^ 53 := by
  have := v.le_toInt
  have := v.toInt_lt
  omega

theorem toInt_eq_ok : toInt x = .ok v ↔ Double.truncate x = some v.toInt := by
  rw [toInt]
  cases Double.truncate x with
  | none => simp
  | some z =>
    simp only [Option.some.injEq]
    split_ifs with hz
    · rw [Except.ok.injEq]
      constructor
      · rintro rfl
        exact (Int32.toInt_ofInt_of_le hz.1 hz.2).symm
      · rintro rfl
        exact Int32.ofInt_toInt v
    · refine iff_of_false nofun ?_
      rintro rfl
      exact hz (isInt_toInt v)

theorem toInt_ofInt (v : Int32) : toInt (Double.ofInt v.toInt) = .ok v :=
  toInt_eq_ok.mpr (Double.truncate_ofInt (natAbs_toInt_lt v))

/-- A later `ADD_PRIORITY` doubles the entry. -/
theorem toInt_add_self {w : Int32} :
    toInt (Double.add (Double.ofInt w.toInt) (Double.ofInt w.toInt)) = .ok v ↔
      v.toInt = w.toInt * 2 := by
  have hw := natAbs_toInt_lt w
  have hsum : (w.toInt + w.toInt).natAbs < 2 ^ 53 := by
    have := w.le_toInt
    have := w.toInt_lt
    omega
  rw [toInt_eq_ok, Double.add_ofInt hw hw, Double.truncate_ofInt hsum, Option.some.injEq]
  omega

theorem baseOf_concat : baseOf level (l ++ [p]) = baseStep level (baseOf level l) p := by
  rw [baseOf, baseOf, List.foldl_append, List.foldl_cons, List.foldl_nil]

theorem baseStep_isSome (level : UInt64) (base : Option (UInt64 × List Int32))
    (p : PriorityAddItem) : (baseStep level base p).isSome := by
  unfold baseStep
  split <;> rfl

theorem baseOf_eq_none : baseOf level l = none ↔ l = [] := by
  constructor
  · intro hnone
    rcases List.eq_nil_or_concat l with rfl | ⟨l, p, rfl⟩
    · rfl
    · rw [List.concat_eq_append, baseOf_concat] at hnone
      have hsome := baseStep_isSome level (baseOf level l) p
      rw [hnone] at hsome
      cases hsome
  · rintro rfl
    rfl

/-- All items, one after the other, are the amounts behind the base. -/
theorem foldl_apply (h : baseOf level l = some (x, amounts)) :
    l.foldl PriorityAddItem.apply level =
      amounts.foldl (fun x a => Double.add x (Double.ofInt a.toInt)) x := by
  induction l using List.reverseRecOn generalizing x amounts with
  | nil => cases h
  | append_singleton l p ih =>
    rw [baseOf_concat, baseStep.eq_def] at h
    rw [List.foldl_append, List.foldl_cons, List.foldl_nil, PriorityAddItem.apply]
    cases htyp : p.typ with
    | setPriority =>
      rw [htyp] at h
      cases h
      rfl
    | addPriority =>
      rw [htyp] at h
      cases hbase : baseOf level l with
      | none =>
        rw [hbase] at h
        cases h
        rw [baseOf_eq_none.mp hbase]
        rfl
      | some base =>
        rw [hbase] at h
        cases h
        rw [ih hbase, List.foldl_append]
        rfl

/-- The entry for the items of a node. -/
def IsEntry (level : UInt64) (l : List PriorityAddItem) (e : Option Int32) : Prop :=
  match baseOf level l with
  | none => e = none
  | some (x, amounts) =>
    ∃ b v, Double.truncate x = some b ∧ e = some v ∧ v.toInt = b * 2 ^ amounts.length

/-- What one more item makes of the entry. -/
theorem mergeItem_eq_ok (h : IsEntry level l e) :
    mergeItem level e p = .ok v ↔ IsEntry level (l ++ [p]) (some v) := by
  rw [IsEntry, baseOf_concat, baseStep.eq_def, mergeItem.eq_def]
  rw [IsEntry] at h
  cases htyp : p.typ with
  | setPriority =>
    have hval : (match e with
        | none => toInt (Double.ofInt p.val.toInt)
        | some _ => toInt (Double.ofInt p.val.toInt)) = .ok p.val := by
      cases e <;> exact toInt_ofInt p.val
    simp only [hval, Except.ok.injEq, Double.truncate_ofInt (natAbs_toInt_lt p.val)]
    constructor
    · rintro rfl
      exact ⟨_, _, rfl, rfl, (Int.mul_one _).symm⟩
    · rintro ⟨b, w, hb, hw, heq⟩
      cases hb
      cases hw
      exact (Int32.toInt_inj.mp (heq.trans (Int.mul_one _))).symm
  | addPriority =>
    cases hbase : baseOf level l with
    | none =>
      rw [hbase] at h
      subst h
      simp only [toInt_eq_ok]
      constructor
      · intro htrunc
        exact ⟨_, _, htrunc, rfl, (Int.mul_one _).symm⟩
      · rintro ⟨b, w, hb, hw, heq⟩
        cases hw
        rw [hb, heq]
        exact congrArg some (Int.mul_one _).symm
    | some base =>
      rw [hbase] at h
      obtain ⟨b, w, hb, rfl, hw⟩ := h
      have hdouble : b * 2 ^ base.2.length * 2 = b * 2 ^ (base.2 ++ [p.val]).length := by
        rw [List.length_append, List.length_singleton, Int.pow_succ, Int.mul_assoc]
      simp only [toInt_add_self, hb]
      rw [hw, hdouble]
      constructor
      · intro heq
        exact ⟨_, _, rfl, rfl, heq⟩
      · rintro ⟨b', w', hb', hw', heq⟩
        cases hb'
        cases hw'
        exact heq

/-- The entry after the items of a node. -/
def merged (level : UInt64) (e : Option Int32) (l : List PriorityAddItem) : Exec (Option Int32) :=
  l.foldlM (fun e p => some <$> mergeItem level e p) e

theorem Fits.exists_entry (h : Fits level l) : ∃ e, IsEntry level l e := by
  cases hbase : baseOf level l with
  | none => exact ⟨none, by rw [IsEntry, hbase]⟩
  | some base =>
    obtain ⟨b, hb, hmin, hmax⟩ := h l List.prefix_rfl base.1 base.2 hbase
    refine ⟨some (Int32.ofInt (b * 2 ^ base.2.length)), ?_⟩
    rw [IsEntry, hbase]
    exact ⟨b, _, hb, rfl, Int32.toInt_ofInt_of_le hmin hmax⟩

theorem IsEntry.fits (h : IsEntry level l e) (hbase : baseOf level l = some (x, amounts)) :
    ∃ b, Double.truncate x = some b ∧ IsInt (b * 2 ^ amounts.length) := by
  rw [IsEntry, hbase] at h
  obtain ⟨b, v, hb, -, hv⟩ := h
  exact ⟨b, hb, hv ▸ isInt_toInt v⟩

/-- The items of a node are merged when their base fits, and the entry is the base doubled. -/
theorem merged_eq_ok : merged level none l = .ok e ↔ Fits level l ∧ IsEntry level l e := by
  induction l using List.reverseRecOn generalizing e with
  | nil =>
    have hfits : Fits level [] := by
      intro p hp x amounts hbase
      rw [List.prefix_nil.mp hp] at hbase
      cases hbase
    rw [and_iff_right hfits]
    exact ⟨fun h => (Except.ok.inj h).symm, fun h => congrArg Except.ok (Eq.symm h)⟩
  | append_singleton l p ih =>
    have hstep : merged level none (l ++ [p]) = .ok e ↔
        ∃ e₀, merged level none l = .ok e₀ ∧ ∃ v, mergeItem level e₀ p = .ok v ∧ some v = e := by
      rw [merged, List.foldlM_append, bind_eq_ok]
      refine exists_congr fun e₀ => and_congr_right fun _ => ?_
      rw [List.foldlM_cons]
      cases mergeItem level e₀ p <;> simp
    rw [hstep]
    constructor
    · rintro ⟨e₀, hrun, v, hv, rfl⟩
      obtain ⟨hfits, hentry⟩ := ih.mp hrun
      have hnext := (mergeItem_eq_ok hentry).mp hv
      refine ⟨fun q hq x amounts hbase => ?_, hnext⟩
      rcases List.prefix_concat_iff.mp hq with rfl | hq
      · exact hnext.fits hbase
      · exact hfits q hq x amounts hbase
    · rintro ⟨hfits, hnext⟩
      have hfits₀ : Fits level l := fun q hq => hfits q (hq.trans (List.prefix_append _ _))
      obtain ⟨e₀, hentry⟩ := hfits₀.exists_entry
      have hsome : ∃ v, e = some v := by
        have hbase := baseStep_isSome level (baseOf level l) p
        rw [← baseOf_concat] at hbase
        rw [IsEntry] at hnext
        obtain ⟨base, hbase⟩ := Option.isSome_iff_exists.mp hbase
        rw [hbase] at hnext
        obtain ⟨-, v, -, rfl, -⟩ := hnext
        exact ⟨v, rfl⟩
      obtain ⟨v, rfl⟩ := hsome
      exact ⟨e₀, ih.mpr ⟨hfits₀, hentry⟩, v, (mergeItem_eq_ok hentry).mpr hnext, rfl⟩

/-! ### The buffer -/

theorem itemsOf_cons_self {buffer : List PriorityAddItem} :
    itemsOf p.target (p :: buffer) = p :: itemsOf p.target buffer :=
  List.filter_cons_of_pos (by simp)

theorem itemsOf_cons_of_ne {n : ℕ} {buffer : List PriorityAddItem} (hne : n ≠ p.target) :
    itemsOf n (p :: buffer) = itemsOf n buffer :=
  List.filter_cons_of_neg (by simpa using Ne.symm hne)

namespace ThreadsPrio

variable {C T : Type} [Bin C T] {s : ThreadsPrio C} {owner : ℕ → ℕ}
  {buffer : List PriorityAddItem} {others others' : ℕ → List PriorityAddItem}
  {m m' : NodePriorities}

/-- What the loop over the buffer does: it merges the items of each owned node, leaves the entries
of the others, and forwards their items. -/
theorem of_readItems (h : buffer.foldlM (s.readItem owner) (m, others) = .ok (m', others')) :
    (∀ n, s.owned n = true →
        merged (s.getFloatPriorityLevel n) (m.find n) (itemsOf n buffer) = .ok (m'.find n)) ∧
      (∀ n, s.owned n = false → m'.find n = m.find n) ∧
      ∀ t, others' t =
        others t ++ buffer.filter fun p => s.owned p.target = false ∧ owner p.target = t := by
  induction buffer generalizing m others with
  | nil =>
    cases h
    exact ⟨fun _ _ => rfl, fun _ _ => rfl, fun t => (List.append_nil _).symm⟩
  | cons p buffer ih =>
    rw [List.foldlM_cons, readItem] at h
    by_cases howned : s.owned p.target = false
    · rw [if_pos howned, pure_eq_ok, ok_bind] at h
      obtain ⟨hmerged, hother, hforward⟩ := ih h
      refine ⟨fun n hn => ?_, hother, fun t => ?_⟩
      · rw [itemsOf_cons_of_ne (by rintro rfl; rw [howned] at hn; cases hn)]
        exact hmerged n hn
      · rw [hforward, List.filter_cons]
        by_cases ht : owner p.target = t
        · simp [ht, howned]
        · simp [ht, Function.update_of_ne (Ne.symm ht)]
    · rw [if_neg howned] at h
      obtain ⟨⟨m₁, others₁⟩, hstep, h⟩ := bind_eq_ok.mp h
      obtain ⟨val, hval, hstep⟩ := bind_eq_ok.mp hstep
      cases hstep
      obtain ⟨hmerged, hother, hforward⟩ := ih h
      refine ⟨fun n hn => ?_, fun n hn => ?_, fun t => ?_⟩
      · have hmerged := hmerged n hn
        rcases eq_or_ne n p.target with rfl | hne
        · rw [SortedMap.find_assign_self] at hmerged
          rw [itemsOf_cons_self, merged, List.foldlM_cons, hval]
          exact hmerged
        · rw [SortedMap.find_assign_of_ne _ hne] at hmerged
          rw [itemsOf_cons_of_ne hne]
          exact hmerged
      · rw [hother n hn, SortedMap.find_assign_of_ne]
        rintro rfl
        exact howned hn
      · rw [hforward, List.filter_cons_of_neg]
        simp [howned]

/-- The loop ends when the items of each owned node can be merged. -/
theorem exists_readItems (owner : ℕ → ℕ) (others : ℕ → List PriorityAddItem)
    (h : ∀ n, s.owned n = true →
      ∃ e, merged (s.getFloatPriorityLevel n) (m.find n) (itemsOf n buffer) = .ok e) :
    ∃ m' others', buffer.foldlM (s.readItem owner) (m, others) = .ok (m', others') := by
  induction buffer generalizing m others with
  | nil => exact ⟨m, others, rfl⟩
  | cons p buffer ih =>
    rw [List.foldlM_cons, readItem]
    by_cases howned : s.owned p.target = false
    · rw [if_pos howned, pure_eq_ok, ok_bind]
      refine ih _ fun n hn => ?_
      rw [← itemsOf_cons_of_ne (p := p) (by rintro rfl; rw [howned] at hn; cases hn)]
      exact h n hn
    · rw [if_neg howned]
      obtain ⟨e, he⟩ := h p.target (Bool.not_eq_false _ ▸ howned)
      rw [itemsOf_cons_self, merged, List.foldlM_cons] at he
      obtain ⟨e₁, hval, he⟩ := bind_eq_ok.mp he
      obtain ⟨val, hmerge, rfl⟩ : ∃ val,
          mergeItem (s.getFloatPriorityLevel p.target) (m.find p.target) p = .ok val ∧
            some val = e₁ := by
        revert hval
        cases mergeItem (s.getFloatPriorityLevel p.target) (m.find p.target) p <;> simp
      rw [hmerge]
      refine ih _ fun n hn => ?_
      rcases eq_or_ne n p.target with rfl | hne
      · rw [SortedMap.find_assign_self]
        exact ⟨e, he⟩
      · rw [SortedMap.find_assign_of_ne _ hne, ← itemsOf_cons_of_ne hne]
        exact h n hn

/-- The calls are those of the entries. -/
theorem priorityCalls_eq_ok {calls : List (ℕ × UInt64)} :
    s.priorityCalls owner buffer others = .ok (calls, others') ↔
      ∃ m : NodePriorities,
        buffer.foldlM (s.readItem owner) (SortedMap.empty, others) = .ok (m, others') ∧
          calls = m.entries.map fun (target, val) => (target, Double.ofInt val.toInt) := by
  rw [priorityCalls, bind_eq_ok]
  constructor
  · rintro ⟨⟨m, o⟩, hrun, hcalls⟩
    cases hcalls
    exact ⟨m, hrun, rfl⟩
  · rintro ⟨m, hrun, rfl⟩
    exact ⟨_, hrun, rfl⟩

end ThreadsPrio

open ThreadsPrio

section

variable {C : Type} {s : ThreadsPrio C} {owner : ℕ → ℕ} {buffer : List PriorityAddItem}
  {others others' : ℕ → List PriorityAddItem} {calls : List (ℕ × UInt64)} {n : ℕ}

/-- `check_priority_buffer` makes the calls. -/
theorem Composes.checkPriorityBuffer_eq (h : Composes s owner buffer others calls others') :
    s.checkPriorityBuffer owner buffer others =
      (·, others') <$> calls.foldlM (fun s call => s.setNodePriority call.1 call.2) s := by
  rw [checkPriorityBuffer, h.run, ok_bind, map_eq_pure_bind]

theorem Composes.fits (h : Composes s owner buffer others calls others') (hn : s.owned n = true) :
    Fits (s.getFloatPriorityLevel n) (itemsOf n buffer) := by
  obtain ⟨m, hrun, -⟩ := priorityCalls_eq_ok.mp h.run
  exact (merged_eq_ok.mp ((of_readItems hrun).1 n hn)).1

theorem Composes.doubles (h : Composes s owner buffer others calls others')
    (hn : s.owned n = true) : Doubles (s.getFloatPriorityLevel n) (itemsOf n buffer) := by
  obtain ⟨m, hrun, hcalls⟩ := priorityCalls_eq_ok.mp h.run
  have hentry := (merged_eq_ok.mp ((of_readItems hrun).1 n hn)).2
  intro x amounts b hbase hb
  rw [IsEntry, hbase] at hentry
  obtain ⟨b', v, hb', hv, hval⟩ := hentry
  rw [hb, Option.some.injEq] at hb'
  subst hb'
  have hmem : (n, Double.ofInt v.toInt) ∈ calls := by
    rw [hcalls]
    exact List.mem_map_of_mem (m.mem_entries.mpr hv)
  rw [← foldl_apply hbase, ← h.values n _ hmem, hval]

/-- When the bases of the nodes fit and the doublings come to what is added, the buffered changes
compose. -/
theorem exists_composes (h : ∀ n, s.owned n = true →
      Fits (s.getFloatPriorityLevel n) (itemsOf n buffer) ∧
        Doubles (s.getFloatPriorityLevel n) (itemsOf n buffer)) :
    ∃ calls others', Composes s owner buffer others calls others' := by
  -- what is buffered for a node can be merged
  have hmerge : ∀ n, s.owned n = true →
      ∃ e, merged (s.getFloatPriorityLevel n) none (itemsOf n buffer) = .ok e := by
    intro n hn
    obtain ⟨e, hentry⟩ := (h n hn).1.exists_entry
    exact ⟨e, merged_eq_ok.mpr ⟨(h n hn).1, hentry⟩⟩
  obtain ⟨m, others', hrun⟩ := exists_readItems (m := SortedMap.empty) owner others hmerge
  obtain ⟨hmerged, hother, hforward⟩ := of_readItems hrun
  -- the map has for each node its merged priority
  have hentry : ∀ n, s.owned n = true →
      IsEntry (s.getFloatPriorityLevel n) (itemsOf n buffer) (m.find n) := fun n hn =>
    (merged_eq_ok.mp (hmerged n hn)).2
  -- and no others' nodes
  have howned : ∀ {n v}, m.find n = some v → s.owned n = true := by
    intro n v hfind
    by_contra hn
    rw [hother n (Bool.not_eq_true _ ▸ hn)] at hfind
    cases hfind
  refine ⟨_, others', priorityCalls_eq_ok.mpr ⟨m, hrun, rfl⟩, ?_, fun n => ?_,
    fun n priority hmem => ?_, hforward⟩
  · rw [List.map_map]
    exact m.nodup_keys
  · rw [List.map_map, List.mem_map]
    constructor
    · rintro ⟨⟨n, v⟩, hmem, rfl⟩
      have hfind := m.mem_entries.mp hmem
      have hn := howned hfind
      refine ⟨hn, ?_⟩
      by_contra hnone
      have hnil : itemsOf n buffer = [] := List.filter_eq_nil_iff.mpr fun p hp => by
        simpa using fun heq => hnone ⟨p, hp, heq⟩
      have hnil : baseOf (s.getFloatPriorityLevel n) (itemsOf n buffer) = none :=
        baseOf_eq_none.mpr hnil
      have hentry := hentry n hn
      rw [IsEntry, hnil, hfind] at hentry
      cases hentry
    · rintro ⟨hn, p, hp, rfl⟩
      have hentry := hentry _ hn
      rw [IsEntry] at hentry
      cases hbase : baseOf (s.getFloatPriorityLevel p.target) (itemsOf p.target buffer) with
      | none =>
        have hmem : p ∈ itemsOf p.target buffer := List.mem_filter.mpr ⟨hp, by simp⟩
        rw [baseOf_eq_none.mp hbase] at hmem
        cases hmem
      | some base =>
        rw [hbase] at hentry
        obtain ⟨-, v, -, hv, -⟩ := hentry
        exact ⟨(p.target, v), m.mem_entries.mpr hv, rfl⟩
  · obtain ⟨⟨n', v⟩, hentries, heq⟩ := List.mem_map.mp hmem
    cases heq
    have hfind := m.mem_entries.mp hentries
    have hn := howned hfind
    have hentry := hentry n hn
    rw [IsEntry] at hentry
    cases hbase : baseOf (s.getFloatPriorityLevel n) (itemsOf n buffer) with
    | none =>
      rw [hbase, hfind] at hentry
      cases hentry
    | some base =>
      rw [hbase] at hentry
      obtain ⟨b, w, hb, hw, hval⟩ := hentry
      rw [hfind, Option.some.injEq] at hw
      rw [hw, hval, foldl_apply hbase, (h n hn).2 _ _ _ hbase hb]

/-- Buffered changes compose exactly when, for each owned node, the value that its last
`SET_PRIORITY` or else its first item leads to is an integer that stays in the range when it is
doubled for each of the amounts behind it, and these come to as much as the doublings. -/
theorem composes_iff (s : ThreadsPrio C) (owner : ℕ → ℕ) (buffer : List PriorityAddItem)
    (others : ℕ → List PriorityAddItem) :
    (∃ calls others', Composes s owner buffer others calls others') ↔
      ∀ n, s.owned n = true → Fits (s.getFloatPriorityLevel n) (itemsOf n buffer) ∧
        Doubles (s.getFloatPriorityLevel n) (itemsOf n buffer) := by
  constructor
  · rintro ⟨calls, others', h⟩ n hn
    exact ⟨h.fits hn, h.doubles hn⟩
  · exact exists_composes

/-- Changes that set a priority always compose. -/
theorem exists_composes_of_setPriority (hset : ∀ p ∈ buffer, p.typ = .setPriority) :
    ∃ calls others', Composes s owner buffer others calls others' := by
  refine exists_composes fun n _ => ?_
  have hbase : ∀ l, l <+: itemsOf n buffer → ∀ x amounts,
      baseOf (s.getFloatPriorityLevel n) l = some (x, amounts) →
        ∃ v : Int32, x = Double.ofInt v.toInt ∧ amounts = [] := by
    intro l hl x amounts hl'
    rcases List.eq_nil_or_concat l with rfl | ⟨l, p, rfl⟩
    · cases hl'
    · rw [List.concat_eq_append] at hl hl'
      have hp : p ∈ itemsOf n buffer := hl.subset (List.mem_append_right _ List.mem_cons_self)
      rw [baseOf_concat, baseStep.eq_def, hset p (List.mem_of_mem_filter hp)] at hl'
      cases hl'
      exact ⟨p.val, rfl, rfl⟩
  refine ⟨fun l hl x amounts hl' => ?_, fun x amounts b hl' hb => ?_⟩
  · obtain ⟨v, rfl, rfl⟩ := hbase l hl x amounts hl'
    refine ⟨_, Double.truncate_ofInt (natAbs_toInt_lt v), ?_⟩
    rw [List.length_nil, Int.pow_zero, Int.mul_one]
    exact isInt_toInt v
  · obtain ⟨v, rfl, rfl⟩ := hbase _ List.prefix_rfl x amounts hl'
    rw [Double.truncate_ofInt (natAbs_toInt_lt v), Option.some.injEq] at hb
    rw [List.foldl_nil, List.length_nil, Int.pow_zero, Int.mul_one, hb]

end

/-- The priority of the node 3 is set to 5, and 3 is added: the entry becomes 10. -/
theorem not_composes_add : ∃ s : ThreadsPrio (PushSafeBin ℕ), init sampleSetup = .ok s ∧
    s.owned 3 = true ∧ ¬∃ calls others', Composes s (fun _ => 0)
      [⟨.setPriority, 5, 3⟩, ⟨.addPriority, 3, 3⟩] (fun _ => []) calls others' := by
  have hinit : ∃ s : ThreadsPrio (PushSafeBin ℕ), init sampleSetup = .ok s ∧ s.owned 3 = true := by
    have howned : (fun s : ThreadsPrio (PushSafeBin ℕ) => s.owned 3) <$> init sampleSetup =
        .ok true := by decide +kernel
    cases hs : (init sampleSetup : Exec (ThreadsPrio (PushSafeBin ℕ))) with
    | error e =>
      rw [hs] at howned
      cases howned
    | ok s =>
      rw [hs] at howned
      exact ⟨s, rfl, Except.ok.inj howned⟩
  obtain ⟨s, hs, hn⟩ := hinit
  refine ⟨s, hs, hn, ?_⟩
  rintro ⟨calls, others', h⟩
  have hdoubles := h.doubles hn (Double.ofInt 5) [3] 5 rfl (by decide +kernel)
  exact absurd hdoubles (by decide +kernel)

end Meld.Thread
