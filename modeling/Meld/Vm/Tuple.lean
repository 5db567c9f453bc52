import Meld.Vm.Types

/-!
# Tuples

The operations of `vm::tuple` that the database uses. Fields are compared by their types, floats
with the floating-point `==`; a string has no comparison and no copy, and throws.

A value without strings and without NaN is equal to itself (`Value.Regular`). On such values the
comparison is an equivalence, and `canon` picks one value of each class: the one without negative
zeros. The trie compares strings too, through their low 32 bits, and finds a value again when it
is `Findable`.
-/

namespace Meld.Vm

open Meld.Lib

/-! ### Comparing and copying -/

/-- `equal` on the cells of two lists. -/
def listEqual : List Item → List Item → Bool
  | [], [] => true
  | x :: l, y :: l' => x.eq y && listEqual l l'
  | _, _ => false

/-- `field_equal`, by the type of the field. -/
def fieldEqual : Value → Value → Exec Bool
  | .item x, .item y => pure (x.eq y)
  | .list _ l, .list _ l' => pure (listEqual l l')
  | _, _ => throw .thrown

/-- `operator==` on tuples of one predicate. -/
def tupleEqual : List Value → List Value → Exec Bool
  | [], [] => pure true
  | v :: vs, w :: ws => do
    let same ← fieldEqual v w
    if same then tupleEqual vs ws else pure false
  | _, _ => throw .dangling

/-- `copy_field`. -/
def copyField : Value → Exec Value
  | .string _ => throw .thrown
  | v => pure v

/-- `copy`. -/
def copyTuple (tpl : List Value) : Exec (List Value) := tpl.mapM copyField

/-- `get_int`. -/
def getInt (tpl : List Value) (field : ℕ) : Exec Int32 :=
  match tpl[field]? with
  | some (.item (.int v)) => pure v
  | _ => throw .dangling

/-- `get_float`. -/
def getFloat (tpl : List Value) (field : ℕ) : Exec UInt64 :=
  match tpl[field]? with
  | some (.item (.float v)) => pure v
  | _ => throw .dangling

/-- `get_float_list`. -/
def getFloatList (tpl : List Value) (field : ℕ) : Exec (List Item) :=
  match tpl[field]? with
  | some (.list .float l) => pure l
  | _ => throw .dangling

/-! ### Values equal to themselves -/

/-- Everything but a NaN. -/
def Item.Regular (x : Item) : Prop := x.eq x = true

instance : DecidablePred Item.Regular := fun x => inferInstanceAs (Decidable (x.eq x = true))

/-- Everything but strings, NaNs, and lists of these. -/
def Value.Regular : Value → Prop
  | item x => x.Regular
  | list _ l => ∀ x ∈ l, x.Regular
  | string _ => False

instance : DecidablePred Value.Regular
  | .item x => inferInstanceAs (Decidable x.Regular)
  | .list _ l => inferInstanceAs (Decidable (∀ x ∈ l, x.Regular))
  | .string _ => inferInstanceAs (Decidable False)

/-- The tuples equal to themselves. -/
abbrev Regular (tpl : List Value) : Prop := ∀ v ∈ tpl, v.Regular

/-- What the trie compares equal to itself: everything but NaNs, lists of these, and strings
whose reference has more than 32 bits. -/
def Value.Findable : Value → Prop
  | string p => low32 p = p
  | v => v.Regular

instance : DecidablePred Value.Findable
  | .item x => inferInstanceAs (Decidable (Value.item x).Regular)
  | .list τ l => inferInstanceAs (Decidable (Value.list τ l).Regular)
  | .string p => inferInstanceAs (Decidable (low32 p = p))

/-- The tuples that the trie finds again. -/
abbrev Findable (tpl : List Value) : Prop := ∀ v ∈ tpl, v.Findable

/-- Whether two fields have the same value: scalars by `==`, lists item by item, and strings by
their references. -/
def Value.same : Value → Value → Bool
  | item x, item y => x.eq y
  | list _ l, list _ l' => listEqual l l'
  | string p, string q => p == q
  | _, _ => false

/-- Two tuples with the same field values. -/
abbrev SameValues (tpl tpl' : List Value) : Prop :=
  List.Forall₂ (fun v w => v.same w = true) tpl tpl'

/-- A scalar with its zero positive. -/
def Item.canon : Item → Item
  | float v => float (if isZero v then 0 else v)
  | x => x

/-- A value with its zeros positive. -/
def Value.canon : Value → Value
  | item x => item x.canon
  | list τ l => list τ (l.map Item.canon)
  | string p => string p

/-- A tuple with its zeros positive. -/
def canon (tpl : List Value) : List Value := tpl.map Value.canon

/-- A stored field with its zero positive. -/
def TupleField.canon : TupleField → TupleField
  | item x => item x.canon
  | ptr p => ptr p

section

variable {x y : Item} {v w : Value} {vs ws : List Value} {τ : FieldType} {d f : TupleField}

/-- What equals something equals itself. -/
theorem Item.regular_left (h : x.eq y) : x.Regular := Item.eq_trans h (Item.eq_symm h)

/-- Regular scalars are equal when their canonical forms are the same. -/
theorem Item.eq_iff_canon (hx : x.Regular) (hy : y.Regular) : x.eq y ↔ x.canon = y.canon := by
  cases x with
  | int v => cases y <;> simp [Item.eq, Item.canon]
  | node v => cases y <;> simp [Item.eq, Item.canon]
  | float v =>
    cases y with
    | int w => simp [Item.eq, Item.canon]
    | node w => simp [Item.eq, Item.canon]
    | float w =>
      have hv : isNaN v = false := by
        cases hn : isNaN v <;> simp [Item.Regular, Item.eq, floatEq, hn] at hx ⊢
      have hw : isNaN w = false := by
        cases hn : isNaN w <;> simp [Item.Regular, Item.eq, floatEq, hn] at hy ⊢
      have hzero : isZero 0 = true := by decide
      by_cases h₁ : isZero v = true <;> by_cases h₂ : isZero w = true
      · simp [Item.eq, Item.canon, floatEq, hv, hw, h₁, h₂]
      · have hne : v ≠ w := fun he => h₂ (he ▸ h₁)
        have hne' : (0 : UInt64) ≠ w := fun he => h₂ (he ▸ hzero)
        simp [Item.eq, Item.canon, floatEq, hv, hw, h₁, h₂, hne, hne']
      · have hne : v ≠ w := fun he => h₁ (he ▸ h₂)
        have hne' : v ≠ 0 := fun he => h₁ (he ▸ hzero)
        simp [Item.eq, Item.canon, floatEq, hv, hw, h₁, h₂, hne, hne']
      · simp [Item.eq, Item.canon, floatEq, hv, hw, h₁, h₂]

/-- A scalar and its canonical form are equal to the same scalars. -/
theorem Item.canon_eq (x y : Item) : x.canon.eq y = x.eq y := by
  cases x with
  | int v => rfl
  | node v => rfl
  | float v =>
    by_cases hv : isZero v = true
    · cases y with
      | int w => rfl
      | node w => rfl
      | float w =>
        have hnan : isNaN v = false := by
          simp only [isZero, isNaN, beq_iff_eq, Bool.and_eq_false_iff, bne_eq_false_iff_eq,
            beq_eq_false_iff_ne] at hv ⊢
          omega
        have hzero : isZero 0 = true := by decide
        have hnan' : isNaN 0 = false := by decide
        by_cases hw : isZero w = true
        · simp [Item.canon, Item.eq, floatEq, hv, hw, hnan, hzero, hnan']
        · have hne : v ≠ w := fun he => hw (he ▸ hv)
          have hne' : (0 : UInt64) ≠ w := fun he => hw (he ▸ hzero)
          have hbeq : (v == w) = false := beq_eq_false_iff_ne.mpr hne
          have hbeq' : ((0 : UInt64) == w) = false := beq_eq_false_iff_ne.mpr hne'
          simp only [Item.canon, Item.eq, floatEq, hv, hw, hbeq, hbeq', if_true, Bool.and_false,
            Bool.or_false]
    · simp [Item.canon, hv]

@[simp] theorem Item.canon_type (x : Item) : x.canon.type = x.type := by cases x <;> rfl

/-- The canonical form is canonical. -/
@[simp] theorem Item.canon_canon (x : Item) : x.canon.canon = x.canon := by
  cases x with
  | int v => rfl
  | node v => rfl
  | float v => by_cases h : isZero v = true <;> simp [Item.canon, h]

/-- Only floats have other forms. -/
theorem Item.canon_of_ne_float (hx : x.type ≠ .float) : x.canon = x := by
  cases x <;> simp_all [Item.canon, Item.type]

@[simp] theorem Value.canon_type (v : Value) : v.canon.type = v.type := by
  cases v <;> simp [Value.canon, Value.type]

/-- The canonical form of a field is canonical. -/
@[simp] theorem Value.canon_canon (v : Value) : v.canon.canon = v.canon := by
  cases v <;> simp [Value.canon]

@[simp] theorem canon_canon (vs : List Value) : canon (canon vs) = canon vs := by
  simp [canon]

/-- A canonical tuple has the same types. -/
@[simp] theorem canon_types (vs : List Value) :
    (canon vs).map Value.type = vs.map Value.type := by
  simp [canon]

/-- The canonical form of a field may be stored. -/
theorem Value.canon_ok (hv : v.Ok) : v.canon.Ok := by
  cases v with
  | item x => trivial
  | string p => trivial
  | list τ l => simpa [Value.canon, Value.Ok] using hv

/-- So may that of a tuple. -/
theorem canon_ok (hvs : ∀ v ∈ vs, v.Ok) : ∀ v ∈ canon vs, v.Ok := by
  intro v hv
  obtain ⟨w, hw, rfl⟩ := List.mem_map.mp hv
  exact Value.canon_ok (hvs w hw)

/-- The levels of the canonical tuple. -/
theorem levels_canon (vs : List Value) : levels (canon vs) = (levels vs).map TupleField.canon := by
  have hvalue : ∀ v : Value, v.canon.levels = v.levels.map TupleField.canon := by
    intro v
    cases v with
    | item x => rfl
    | string p => rfl
    | list τ l =>
      simp [Value.canon, Value.levels, List.flatMap_map, List.map_flatMap, TupleField.canon]
  simp [levels, canon, List.flatMap_map, List.map_flatMap, hvalue]

/-- A regular field is found again. -/
theorem Value.Regular.findable (h : v.Regular) : v.Findable := by
  cases v with
  | item x => exact h
  | list τ l => exact h
  | string p => exact h.elim

/-- So is a regular tuple. -/
theorem Regular.findable (h : Regular vs) : Findable vs := fun v hv => (h v hv).findable

/-- The canonical form is regular when the scalar is. -/
theorem Item.regular_canon : x.canon.Regular ↔ x.Regular := by
  have hcomm : x.canon.eq x.canon = x.eq x.canon := Item.canon_eq x x.canon
  rw [Item.Regular, Item.Regular, hcomm]
  constructor
  · exact fun h => Item.regular_left h
  · exact fun h => Item.eq_symm ((Item.canon_eq x x).trans h)

/-- A tuple and its canonical form are found alike. -/
theorem findable_canon : Findable (canon vs) ↔ Findable vs := by
  have hvalue : ∀ v : Value, v.canon.Findable ↔ v.Findable := by
    intro v
    cases v with
    | item x => exact Item.regular_canon
    | list τ l =>
      simp only [Value.canon, Value.Findable, Value.Regular, List.mem_map, forall_exists_index,
        and_imp, forall_apply_eq_imp_iff₂, Item.regular_canon]
    | string p => exact Iff.rfl
  simp [Findable, canon, hvalue]

/-- A tuple and its canonical form are equal to themselves alike. -/
theorem regular_canon : Regular (canon vs) ↔ Regular vs := by
  have hvalue : ∀ v : Value, v.canon.Regular ↔ v.Regular := by
    intro v
    cases v with
    | item x => exact Item.regular_canon
    | list τ l =>
      simp only [Value.canon, Value.Regular, List.mem_map, forall_exists_index, and_imp,
        forall_apply_eq_imp_iff₂, Item.regular_canon]
    | string p => exact Iff.rfl
  simp [Regular, canon, hvalue]

/-- Stored fields equal to themselves. -/
def TupleField.Findable : TupleField → Prop
  | item x => x.Regular
  | ptr p => low32 p = p

/-- A level that is found again is narrow. -/
theorem TupleField.Findable.narrow (h : d.Findable) : d.Narrow := by
  cases d with
  | item x => trivial
  | ptr p => exact h

/-- The levels of a findable tuple are findable. -/
theorem findable_levels (h : Vm.Findable vs) : ∀ f ∈ levels vs, f.Findable := by
  intro f hf
  obtain ⟨v, hv, hf⟩ := List.mem_flatMap.mp hf
  have hr := h v hv
  cases v with
  | item x =>
    rw [Value.levels, List.mem_singleton] at hf
    exact hf ▸ hr
  | string p =>
    rw [Value.levels, List.mem_singleton] at hf
    exact hf ▸ hr
  | list τ l =>
    rw [Value.levels, List.mem_append, List.mem_flatMap, List.mem_singleton] at hf
    rcases hf with ⟨x, hx, hf⟩ | rfl
    · simp only [List.mem_cons, List.not_mem_nil, or_false] at hf
      rcases hf with rfl | rfl
      · simp only [TupleField.Findable]
        decide
      · exact hr x hx
    · simp only [TupleField.Findable]
      decide

/-- A tuple with findable levels is findable. -/
theorem findable_of_levels (h : ∀ f ∈ levels vs, f.Findable) : Vm.Findable vs := by
  intro v hv
  have hlev : ∀ f ∈ v.levels, f.Findable := fun f hf => h f (List.mem_flatMap.mpr ⟨v, hv, hf⟩)
  cases v with
  | item x => exact hlev (.item x) (by simp [Value.levels])
  | string p => exact hlev (.ptr p) (by simp [Value.levels])
  | list τ l =>
    intro x hx
    have hmem : TupleField.item x ∈ (Value.list τ l).levels :=
      List.mem_append_left _ (List.mem_flatMap.mpr ⟨x, hx, by simp⟩)
    exact hlev _ hmem

/-- Findable fields are compared as their canonical forms. -/
theorem TupleField.sameAs_iff_canon (hd : d.Findable) (hf : f.Findable) :
    d.sameAs f ↔ d.canon = f.canon := by
  cases d with
  | item x =>
    cases f with
    | item y => simpa [TupleField.sameAs, TupleField.canon] using Item.eq_iff_canon hd hf
    | ptr q => simp [TupleField.sameAs, TupleField.canon]
  | ptr p =>
    cases f with
    | item y => simp [TupleField.sameAs, TupleField.canon]
    | ptr q =>
      have hp : low32 p = p := hd
      simp [TupleField.sameAs, TupleField.canon, hp]

/-- A narrow field that is equal to another is equal to itself. -/
theorem TupleField.findable_of_sameAs (hd : d.Narrow) (h : d.sameAs f = true) : d.Findable := by
  cases d with
  | item x =>
    cases f with
    | item y => exact Item.regular_left h
    | ptr q => simp [TupleField.sameAs] at h
  | ptr p => exact hd

/-- Tuples with equal levels, up to their zeros, are equal up to their zeros. -/
theorem canon_eq_of_levels (hty : vs.map Value.type = ws.map Value.type) (hvs : ∀ v ∈ vs, v.Ok)
    (hws : ∀ v ∈ ws, v.Ok)
    (h : (levels vs).map TupleField.canon = (levels ws).map TupleField.canon) :
    canon vs = canon ws := by
  rw [← levels_canon, ← levels_canon] at h
  exact levels_injective (by simpa using hty) (canon_ok hvs) (canon_ok hws) h

/-! ### Comparing tuples -/

/-- Lists of regular elements are equal when their canonical forms are the same. -/
theorem listEqual_iff {l l' : List Item} (hl : ∀ x ∈ l, x.Regular) (hl' : ∀ x ∈ l', x.Regular) :
    listEqual l l' ↔ l.map Item.canon = l'.map Item.canon := by
  induction l generalizing l' with
  | nil => cases l' <;> simp [listEqual]
  | cons x l ih =>
    cases l' with
    | nil => simp [listEqual]
    | cons y l' =>
      rw [listEqual, Bool.and_eq_true, ih (fun z hz => hl z (by simp [hz]))
        fun z hz => hl' z (by simp [hz]), Item.eq_iff_canon (hl x (by simp)) (hl' y (by simp))]
      simp

/-- Lists that are equal hold no NaN. -/
theorem regular_of_listEqual {l l' : List Item} (h : listEqual l l' = true) :
    (∀ x ∈ l, x.Regular) ∧ ∀ y ∈ l', y.Regular := by
  induction l generalizing l' with
  | nil => cases l' <;> simp_all [listEqual]
  | cons x l ih =>
    cases l' with
    | nil => simp [listEqual] at h
    | cons y l' =>
      rw [listEqual, Bool.and_eq_true] at h
      obtain ⟨hl, hl'⟩ := ih h.2
      simp only [List.mem_cons, forall_eq_or_imp]
      exact ⟨⟨Item.regular_left h.1, hl⟩, Item.regular_left (Item.eq_symm h.1), hl'⟩

/-- Findable fields have the same value when their canonical forms agree. -/
theorem Value.same_iff_canon (hty : v.type = w.type) (hv : v.Findable) (hw : w.Findable) :
    v.same w ↔ v.canon = w.canon := by
  cases v with
  | item x =>
    cases w with
    | item y => simpa [Value.same, Value.canon] using Item.eq_iff_canon hv hw
    | list κ l => simp [Value.type] at hty
    | string q => simp [Value.type] at hty
  | list ι l =>
    cases w with
    | item y => simp [Value.type] at hty
    | list κ l' =>
      obtain rfl : ι = κ := by simpa [Value.type] using hty
      simpa [Value.same, Value.canon] using listEqual_iff hv hw
    | string q => simp [Value.type] at hty
  | string p =>
    cases w with
    | item y => simp [Value.type] at hty
    | list κ l => simp [Value.type] at hty
    | string q => simp [Value.same, Value.canon]

/-- Findable tuples have the same values when their canonical forms are the same. -/
theorem sameValues_iff (hty : vs.map Value.type = ws.map Value.type) (hvs : Findable vs)
    (hws : Findable ws) : SameValues vs ws ↔ canon vs = canon ws := by
  induction vs generalizing ws with
  | nil =>
    obtain rfl := List.map_eq_nil_iff.mp hty.symm
    simp
  | cons v vs ih =>
    cases ws with
    | nil => simp at hty
    | cons w ws =>
      rw [List.map_cons, List.map_cons, List.cons.injEq] at hty
      have hrest := ih hty.2 (fun x hx => hvs x (by simp [hx])) fun x hx => hws x (by simp [hx])
      have hfirst := Value.same_iff_canon hty.1 (hvs v (by simp)) (hws w (by simp))
      refine List.forall₂_cons.trans ((and_congr hfirst hrest).trans ?_)
      simp [canon]

/-- Fields with the same value are findable when no string among them is wide. -/
theorem Value.findable_of_same (h : v.same w = true) (hn : ∀ f ∈ v.levels, f.Narrow) :
    v.Findable ∧ w.Findable := by
  cases v with
  | item x =>
    cases w with
    | item y => exact ⟨Item.regular_left h, Item.regular_left (Item.eq_symm h)⟩
    | list κ l => simp [Value.same] at h
    | string q => simp [Value.same] at h
  | list ι l =>
    cases w with
    | item y => simp [Value.same] at h
    | list κ l' => exact regular_of_listEqual h
    | string q => simp [Value.same] at h
  | string p =>
    cases w with
    | item y => simp [Value.same] at h
    | list κ l => simp [Value.same] at h
    | string q =>
      have hp : low32 p = p := hn (.ptr p) (by simp [Value.levels])
      obtain rfl : p = q := by simpa [Value.same] using h
      exact ⟨hp, hp⟩

/-- Tuples with the same values are findable, where their levels are narrow. -/
theorem findable_of_sameValues (h : SameValues vs ws) (hn : ∀ f ∈ levels vs, f.Narrow) :
    Findable vs ∧ Findable ws := by
  induction h with
  | nil => exact ⟨List.forall_mem_nil _, List.forall_mem_nil _⟩
  | cons hvw _ ih =>
    rename_i v w vs ws _
    have hlev : ∀ f, f ∈ levels (v :: vs) ↔ f ∈ v.levels ∨ f ∈ levels vs := fun f => by
      rw [levels, List.flatMap_cons, List.mem_append]
      rfl
    obtain ⟨hv, hw⟩ := Value.findable_of_same hvw fun f hf => hn f ((hlev f).mpr (.inl hf))
    obtain ⟨hvs, hws⟩ := ih fun f hf => hn f ((hlev f).mpr (.inr hf))
    exact ⟨List.forall_mem_cons.mpr ⟨hv, hvs⟩, List.forall_mem_cons.mpr ⟨hw, hws⟩⟩

/-- Fields that are no strings are compared. -/
theorem fieldEqual_of_noString (hty : v.type = w.type) (hv : v.type ≠ .string) :
    fieldEqual v w = .ok (v.same w) := by
  cases v with
  | item x => cases w <;> first | rfl | simp [Value.type] at hty
  | list ι l => cases w <;> first | rfl | simp [Value.type] at hty
  | string p => exact absurd rfl hv

/-- `operator==` on tuples of one predicate that has no strings. -/
theorem tupleEqual_of_noString (hty : vs.map Value.type = ws.map Value.type)
    (hvs : ∀ v ∈ vs, v.type ≠ .string) :
    ∃ b, tupleEqual vs ws = .ok b ∧ (b = true ↔ SameValues vs ws) := by
  induction vs generalizing ws with
  | nil =>
    obtain rfl := List.map_eq_nil_iff.mp hty.symm
    exact ⟨true, rfl, iff_of_true rfl .nil⟩
  | cons v vs ih =>
    cases ws with
    | nil => cases hty
    | cons w ws =>
      rw [List.map_cons, List.map_cons, List.cons.injEq] at hty
      obtain ⟨b, hrest, hb⟩ := ih hty.2 fun x hx => hvs x (List.mem_cons_of_mem v hx)
      have hcons : SameValues (v :: vs) (w :: ws) ↔ v.same w = true ∧ SameValues vs ws :=
        List.forall₂_cons
      rw [tupleEqual, fieldEqual_of_noString hty.1 (hvs v List.mem_cons_self), ok_bind, hcons]
      cases hsame : v.same w with
      | true => exact ⟨b, hrest, by rw [hb, eq_self, true_and]⟩
      | false => exact ⟨false, rfl, by simp⟩

/-- The comparison of two fields of one type returns. -/
theorem fieldEqual_eq (hty : v.type = w.type) (hv : v.Regular) :
    fieldEqual v w = .ok (v.same w) := by
  refine fieldEqual_of_noString hty fun hs => ?_
  cases v with
  | item x => cases hs
  | list ι l => cases hs
  | string p => exact hv.elim

/-- `operator==` on regular tuples of one predicate. -/
theorem tupleEqual_eq (hty : vs.map Value.type = ws.map Value.type) (hvs : Regular vs)
    (hws : Regular ws) : tupleEqual vs ws = .ok (decide (canon vs = canon ws)) := by
  induction vs generalizing ws with
  | nil =>
    obtain rfl := List.map_eq_nil_iff.mp hty.symm
    rfl
  | cons v vs ih =>
    cases ws with
    | nil => simp at hty
    | cons w ws =>
      rw [List.map_cons, List.map_cons, List.cons.injEq] at hty
      have hv := hvs v (by simp)
      have hw := hws w (by simp)
      have hsame := Value.same_iff_canon hty.1 hv.findable hw.findable
      rw [tupleEqual, fieldEqual_eq hty.1 hv, ok_bind]
      by_cases hc : v.canon = w.canon
      · rw [if_pos (hsame.mpr hc), ih hty.2 (fun x hx => hvs x (by simp [hx]))
          fun x hx => hws x (by simp [hx])]
        exact congrArg Except.ok (decide_eq_decide.mpr (by simp [canon, hc]))
      · rw [if_neg (mt hsame.mp hc)]
        simp [canon, hc]

/-- A regular tuple is copied. -/
theorem copyTuple_eq (h : Regular vs) : copyTuple vs = .ok vs := by
  induction vs with
  | nil => rfl
  | cons v vs ih =>
    have hv : copyField v = .ok v := by
      cases v with
      | item x => rfl
      | list τ l => rfl
      | string p => exact (h (.string p) (by simp)).elim
    have := ih fun x hx => h x (by simp [hx])
    rw [copyTuple] at this ⊢
    simp [List.mapM_cons, hv, this]

/-! ### Exact fields -/

/-- A field of an exact type is canonical. -/
theorem Value.canon_of_exact (hv : v.Ok) (hex : v.type.Exact) : v.canon = v := by
  cases v with
  | item x => exact congrArg Value.item (Item.canon_of_ne_float hex)
  | string p => rfl
  | list ι l =>
    have hl : l.map Item.canon = l := by
      rw [List.map_congr_left fun x hx => Item.canon_of_ne_float (hv x hx ▸ hex), List.map_id']
    exact congrArg (Value.list ι) hl

/-- A field of an exact type is regular. -/
theorem Value.regular_of_exact (hv : v.Ok) (hex : v.type.Exact) : v.Regular := by
  cases v with
  | item x => exact (Item.eq_iff hex).mpr rfl
  | string p => exact hex.elim
  | list ι l => exact fun x hx => (Item.eq_iff (hv x hx ▸ hex)).mpr rfl

end

end Meld.Vm
