import Meld.Lib.Exec

/-!
# Field types and field values

The virtual machine's tuples hold integers, floats, node identifiers, lists of these, and
strings. A float is its 64 bits; `floatEq` is the comparison `==` of the double type, so no NaN
equals itself and the two zeros are equal. A string is the pointer the machine keeps for it.

A `Value` is a tuple's field; a `TupleField` is what one trie node stores: a scalar is stored as
it is, while a list field becomes a sequence of levels, each a mark (`0` for the empty list, `1`
for a cell) followed, for a cell, by the head.
-/

namespace Meld.Vm

open Meld.Lib

/-- The item types a list can have: `FIELD_INT`, `FIELD_FLOAT` and `FIELD_NODE`. -/
inductive ItemType
  | int
  | float
  | node
  deriving DecidableEq, Repr

/-- `field_type`: `FIELD_INT` is `item .int`, `FIELD_LIST_INT` is `list .int`, and so on. -/
inductive FieldType
  | item (τ : ItemType)
  | list (τ : ItemType)
  | string
  deriving DecidableEq, Repr

/-- The bits of a NaN. -/
def isNaN (x : UInt64) : Bool :=
  x.toNat / 2 ^ 52 % 2 ^ 11 == 2047 && x.toNat % 2 ^ 52 != 0

/-- The bits of `0.0` and `-0.0`. -/
def isZero (x : UInt64) : Bool := x.toNat % 2 ^ 63 == 0

/-- `==` on `float_val`. -/
def floatEq (x y : UInt64) : Bool :=
  !isNaN x && !isNaN y && (x == y || isZero x && isZero y)

/-- `==` is symmetric. -/
theorem floatEq_symm {x y : UInt64} (h : floatEq x y) : floatEq y x := by
  simp only [floatEq, Bool.and_eq_true, Bool.or_eq_true, beq_iff_eq] at h ⊢
  exact ⟨⟨h.1.2, h.1.1⟩, h.2.imp Eq.symm And.symm⟩

/-- `==` is transitive. -/
theorem floatEq_trans {x y z : UInt64} (h₁ : floatEq x y) (h₂ : floatEq y z) : floatEq x z := by
  simp only [floatEq, Bool.and_eq_true, Bool.or_eq_true, beq_iff_eq] at h₁ h₂ ⊢
  refine ⟨⟨h₁.1.1, h₂.1.2⟩, ?_⟩
  rcases h₁.2, h₂.2 with ⟨rfl | hxy, rfl | hyz⟩
  · exact Or.inl rfl
  · exact Or.inr hyz
  · exact Or.inr hxy
  · exact Or.inr ⟨hxy.1, hyz.2⟩

/-- A scalar value. -/
inductive Item
  | int (v : Int32)
  | float (v : UInt64)
  | node (v : UInt32)
  deriving DecidableEq, Repr

namespace Item

/-- The type of a scalar. -/
def type : Item → ItemType
  | int _ => .int
  | float _ => .float
  | node _ => .node

/-- `==` on scalars, taken by type. -/
def eq : Item → Item → Bool
  | int x, int y => x == y
  | float x, float y => floatEq x y
  | node x, node y => x == y
  | _, _ => false

/-- Equality of scalars is symmetric. -/
theorem eq_symm {x y : Item} (h : x.eq y) : y.eq x := by
  cases x <;> cases y <;> simp only [eq, beq_iff_eq, Bool.false_eq_true] at h ⊢
  · exact h.symm
  · exact floatEq_symm h
  · exact h.symm

/-- Equality of scalars is transitive. -/
theorem eq_trans {x y z : Item} (h₁ : x.eq y) (h₂ : y.eq z) : x.eq z := by
  cases x <;> cases y <;> cases z <;>
    simp only [eq, beq_iff_eq, Bool.false_eq_true] at h₁ h₂ ⊢
  · exact h₁.trans h₂
  · exact floatEq_trans h₁ h₂
  · exact h₁.trans h₂

/-- Integers and node identifiers are equal only to themselves. -/
theorem eq_iff {x y : Item} (hx : x.type ≠ .float) : x.eq y ↔ x = y := by
  cases x <;> cases y <;> simp_all [eq, type]

end Item

/-- The value of a tuple's field. A list carries the type of its items. -/
inductive Value
  | item (x : Item)
  | list (τ : ItemType) (l : List Item)
  | string (p : UInt64)
  deriving DecidableEq, Repr

/-- The field type of a value. -/
def Value.type : Value → FieldType
  | item x => .item x.type
  | list τ _ => .list τ
  | string _ => .string

/-- The items of a list have the list's type. -/
def Value.Ok : Value → Prop
  | list τ l => ∀ x ∈ l, x.type = τ
  | _ => True

instance : DecidablePred Value.Ok
  | .item _ => inferInstanceAs (Decidable True)
  | .list τ l => inferInstanceAs (Decidable (∀ x ∈ l, x.type = τ))
  | .string _ => inferInstanceAs (Decidable True)

/-- A union `tuple_field` as a trie node stores it. -/
inductive TupleField
  | item (x : Item)
  | ptr (p : UInt64)
  deriving DecidableEq, Repr

/-- The 32-bit view of a 64-bit field, widened again for a comparison. -/
def low32 (p : UInt64) : UInt64 := p.toUInt32.toUInt64

/-- The lower half is its own lower half. -/
theorem low32_low32 (p : UInt64) : low32 (low32 p) = low32 p := by
  apply UInt64.toNat_inj.mp
  simp [low32]

namespace TupleField

/-- Whether the stored `d` is the one searched for with `e`. Marks and strings are compared
through the 32-bit view of the stored field. -/
def sameAs : TupleField → TupleField → Bool
  | item x, item y => x.eq y
  | ptr p, ptr q => low32 p == q
  | _, _ => false

end TupleField

/-- The stored form of the first level of a value: a scalar itself, or the mark of a list. -/
def Value.store : Value → TupleField
  | item x => .item x
  | list _ [] => .ptr 0
  | list _ (_ :: _) => .ptr 1
  | string p => .ptr p

/-- What a value leaves for the following levels: the head and the tail of a list cell. -/
def Value.pushed : Value → List Value
  | list τ (x :: l) => [item x, list τ l]
  | _ => []

/-- The levels a value occupies in a trie. -/
def Value.levels : Value → List TupleField
  | item x => [.item x]
  | list _ l => l.flatMap (fun x => [.ptr 1, .item x]) ++ [.ptr 0]
  | string p => [.ptr p]

/-- The levels of a stack of values. -/
def levels (vs : List Value) : List TupleField := vs.flatMap Value.levels

@[simp] theorem levels_nil : levels [] = [] := rfl

/-- The levels of a tuple come field by field. -/
theorem levels_append (vs ws : List Value) : levels (vs ++ ws) = levels vs ++ levels ws :=
  List.flatMap_append

/-- Taking the first level of a stack leaves what it pushed and the rest. -/
theorem levels_cons (v : Value) (vs : List Value) :
    levels (v :: vs) = v.store :: levels (v.pushed ++ vs) := by
  cases v with
  | item x => rfl
  | string p => rfl
  | list τ l => cases l <;> simp [levels, Value.levels, Value.store, Value.pushed]

/-- A stored field that a level of the given type may have. -/
def FieldType.Fits : FieldType → TupleField → Prop
  | .item τ, .item x => x.type = τ
  | .list _, .ptr p => p = 0 ∨ p = 1
  | .string, .ptr _ => True
  | _, _ => False

/-- What a field stores fits its type. -/
theorem Value.fits_store {v : Value} : v.type.Fits v.store := by
  cases v with
  | item x => rfl
  | list τ l => cases l <;> simp [type, store, FieldType.Fits]
  | string p => trivial

/-- A scalar, or a mark or string reference that its 32-bit view shows whole. -/
def TupleField.Narrow : TupleField → Prop
  | item _ => True
  | ptr p => low32 p = p

instance : DecidablePred TupleField.Narrow := fun d => by
  cases d <;> simp only [TupleField.Narrow] <;> infer_instance

/-- Only strings can be wider than their view. -/
theorem FieldType.Fits.narrow {τ : FieldType} {d : TupleField} (hτ : τ ≠ .string)
    (hd : τ.Fits d) : d.Narrow := by
  cases d with
  | item x => trivial
  | ptr p =>
    cases τ with
    | item ι => exact hd.elim
    | string => exact absurd rfl hτ
    | list ι => rcases hd with rfl | rfl <;> simp only [TupleField.Narrow] <;> decide

/-- What a stored field is compared with is no wider than the view. -/
theorem TupleField.narrow_of_sameAs {d e : TupleField} (h : d.sameAs e = true) : e.Narrow := by
  cases d <;> cases e <;> simp only [sameAs, Bool.false_eq_true] at h
  · trivial
  · rw [beq_iff_eq] at h
    rw [Narrow, ← h, low32_low32]

/-- Among narrow fields the comparison is symmetric. -/
theorem TupleField.sameAs_symm {d e : TupleField} (hd : d.Narrow) (h : d.sameAs e = true) :
    e.sameAs d = true := by
  cases d <;> cases e <;> simp only [sameAs, Bool.false_eq_true] at h ⊢
  · exact Item.eq_symm h
  · rw [beq_iff_eq] at h ⊢
    rw [← h, low32_low32]
    exact hd

/-- Two levels that are the same as a third are the same. -/
theorem TupleField.sameAs_trans {d e f : TupleField} (h₁ : d.sameAs e = true)
    (h₂ : e.sameAs f = true) : d.sameAs f = true := by
  cases d <;> cases e <;> cases f <;> simp only [sameAs, Bool.false_eq_true] at h₁ h₂ ⊢
  · exact Item.eq_trans h₁ h₂
  · rw [beq_iff_eq] at h₁ h₂ ⊢
    rw [← h₂, ← h₁, low32_low32]

/-- The types still to match below a node, after its level stored `d`. -/
def descend : List FieldType → TupleField → List FieldType
  | .list τ :: ρ, .ptr p => if low32 p = 0 then ρ else .item τ :: .list τ :: ρ
  | _ :: ρ, _ => ρ
  | [], _ => []

/-- The types still to match below a path. -/
def restTypes (types : List FieldType) (w : List TupleField) : List FieldType :=
  w.foldl descend types

/-- The types behind a path and one level more. -/
theorem restTypes_append (types : List FieldType) (w : List TupleField) (d : TupleField) :
    restTypes types (w ++ [d]) = descend (restTypes types w) d := by
  simp [restTypes]

/-- Below a field that is the first level of a value, what the value pushed is still to come. -/
theorem descend_of_sameAs {v : Value} (hv : v.Ok) {d : TupleField} (hd : v.type.Fits d)
    (h : d.sameAs v.store = true) (ρ : List FieldType) :
    descend (v.type :: ρ) d = v.pushed.map Value.type ++ ρ := by
  cases v with
  | item x => cases d <;> rfl
  | string p => cases d <;> rfl
  | list τ l =>
    cases d with
    | item x => simp [Value.type, FieldType.Fits] at hd
    | ptr p =>
      cases l with
      | nil =>
        have hp : low32 p = 0 := by simpa [TupleField.sameAs, Value.store] using h
        simp [descend, Value.type, Value.pushed, hp]
      | cons x l =>
        have hp : low32 p = 1 := by simpa [TupleField.sameAs, Value.store] using h
        have hx : x.type = τ := hv x (by simp)
        simp [descend, Value.type, Value.pushed, hp, hx]

/-- Below the first level of a value itself. -/
theorem descend_store {v : Value} (hv : v.Ok) (ρ : List FieldType) :
    descend (v.type :: ρ) v.store = v.pushed.map Value.type ++ ρ := by
  cases v with
  | item x => rfl
  | string p => rfl
  | list τ l =>
    refine descend_of_sameAs hv Value.fits_store ?_ ρ
    cases l <;> rfl

/-- The values that are pushed may be stored. -/
theorem Value.pushed_ok {v : Value} (hv : v.Ok) : ∀ w ∈ v.pushed, w.Ok := by
  cases v with
  | item x => simp [Value.pushed]
  | string p => simp [Value.pushed]
  | list τ l =>
    cases l with
    | nil => simp [Value.pushed]
    | cons x l =>
      simp only [Value.pushed, List.mem_cons, List.not_mem_nil, or_false]
      rintro w (rfl | rfl)
      · trivial
      · exact fun y hy => hv y (by simp [hy])

/-- The levels of values of the types still to come complete a path. -/
theorem restTypes_append_levels {types : List FieldType} {w : List TupleField} (vs : List Value)
    (hvs : ∀ v ∈ vs, v.Ok) (h : restTypes types w = vs.map Value.type) :
    restTypes types (w ++ levels vs) = [] := by
  induction hn : (levels vs).length generalizing vs w with
  | zero =>
    cases vs with
    | nil => simpa using h
    | cons v vs => simp [levels_cons] at hn
  | succ n ih =>
    cases vs with
    | nil => simp at hn
    | cons v vs =>
      have hv : v.Ok := hvs v (by simp)
      have hlev : w ++ levels (v :: vs) = (w ++ [v.store]) ++ levels (v.pushed ++ vs) := by
        simp [levels_cons]
      rw [hlev]
      refine ih (v.pushed ++ vs) (fun x hx => ?_) ?_ (by simpa [levels_cons] using hn)
      · exact (List.mem_append.mp hx).elim (Value.pushed_ok hv x) fun hx => hvs x (by simp [hx])
      · rw [restTypes_append, h, List.map_cons, descend_store hv, List.map_append]

@[simp] theorem restTypes_nil (w : List TupleField) : restTypes [] w = [] := by
  induction w with
  | nil => rfl
  | cons d w ih => exact ih

/-- The types below a path are those of the trie and, inside a list, that of its items. -/
theorem mem_restTypes {types : List FieldType} {w : List TupleField} {τ : FieldType}
    (h : τ ∈ restTypes types w) : τ ∈ types ∨ ∃ ι, τ = .item ι ∧ .list ι ∈ types := by
  have hstep : ∀ {types : List FieldType} {d : TupleField} {τ : FieldType},
      τ ∈ descend types d → τ ∈ types ∨ ∃ ι, τ = .item ι ∧ .list ι ∈ types := by
    intro types d τ h
    unfold descend at h
    split at h
    · split_ifs at h
      · exact .inl (by simp [h])
      · rw [List.mem_cons] at h
        rcases h with rfl | h
        · exact .inr ⟨_, rfl, by simp⟩
        · exact .inl h
    · exact .inl (by simp [h])
    · exact .inl h
  induction w generalizing types with
  | nil => exact .inl h
  | cons d w ih =>
    rcases ih h with hd | ⟨ι, rfl, hd⟩
    · exact hstep hd
    · rcases hstep hd with hd | ⟨κ, hκ, -⟩
      · exact .inr ⟨ι, rfl, hd⟩
      · cases hκ

/-! ### Exact fields -/

/-- The types without floats and strings, whose values are equal only to themselves. -/
def FieldType.Exact : FieldType → Prop
  | item τ => τ ≠ .float
  | list τ => τ ≠ .float
  | string => False

/-- The types of the levels of exact fields are exact. -/
theorem exact_restTypes {types : List FieldType} (h : ∀ τ ∈ types, τ.Exact)
    {w : List TupleField} {τ : FieldType} (hτ : τ ∈ restTypes types w) : τ.Exact := by
  rcases mem_restTypes hτ with hτ | ⟨ι, rfl, hι⟩
  · exact h τ hτ
  · exact h (.list ι) hι

/-- Levels of an exact type are the same only if they are equal. -/
theorem TupleField.sameAs_iff {τ : FieldType} {d e : TupleField} (hτ : τ.Exact)
    (hd : τ.Fits d) : d.sameAs e = true ↔ d = e := by
  cases d with
  | item x =>
    have hx : x.type ≠ .float := by
      cases τ with
      | item ι => exact hd ▸ hτ
      | list ι => exact hd.elim
      | string => exact hτ.elim
    cases e with
    | item y => simp [sameAs, Item.eq_iff hx]
    | ptr q => simp [sameAs]
  | ptr p =>
    have hp : low32 p = p := by
      cases τ with
      | item ι => exact hd.elim
      | list ι => rcases hd with rfl | rfl <;> decide
      | string => exact hτ.elim
    cases e with
    | item y => simp [sameAs]
    | ptr q => simp [sameAs, hp]

/-- The first level of a value of a known type, and what it pushed, make up the value. -/
theorem Value.cons_eq_of_store {v v' : Value} {vs vs' : List Value} (hty : v.type = v'.type)
    (hstore : v.store = v'.store) (hpushed : v.pushed ++ vs = v'.pushed ++ vs') :
    v :: vs = v' :: vs' := by
  cases v with
  | item x =>
    cases v' with
    | item y =>
      cases hstore
      exact congrArg (item x :: ·) hpushed
    | list τ' l' => cases hty
    | string q => cases hty
  | string p =>
    cases v' with
    | item y => cases hty
    | list τ' l' => cases hty
    | string q =>
      cases hstore
      exact congrArg (string p :: ·) hpushed
  | list τ l =>
    cases v' with
    | item y => cases hty
    | string q => cases hty
    | list τ' l' =>
      cases hty
      -- the mark tells the empty list from a cell, which pushed its head and its tail
      cases l with
      | nil =>
        cases l' with
        | nil => exact congrArg (list τ [] :: ·) hpushed
        | cons y l' => cases hstore
      | cons x l =>
        cases l' with
        | nil => cases hstore
        | cons y l' =>
          cases hpushed
          rfl

/-- A stack of typed values has no other stack's levels. -/
theorem levels_injective {vs vs' : List Value} (hty : vs.map Value.type = vs'.map Value.type)
    (hvs : ∀ v ∈ vs, v.Ok) (hvs' : ∀ v ∈ vs', v.Ok) (h : levels vs = levels vs') : vs = vs' := by
  induction hn : (levels vs).length generalizing vs vs' with
  | zero =>
    cases vs with
    | nil => exact (List.map_eq_nil_iff.mp hty.symm).symm
    | cons v vs => simp [levels_cons] at hn
  | succ n ih =>
    cases vs with
    | nil => simp at hn
    | cons v vs =>
      cases vs' with
      | nil => simp at hty
      | cons v' vs' =>
        rw [List.map_cons, List.map_cons, List.cons.injEq] at hty
        rw [levels_cons, levels_cons, List.cons.injEq] at h
        have hv := hvs v (by simp)
        have hv' := hvs' v' (by simp)
        -- what the two values leave for the following levels has the same types
        have hrest : (v.pushed ++ vs).map Value.type = (v'.pushed ++ vs').map Value.type := by
          rw [List.map_append, List.map_append, ← descend_store hv, ← descend_store hv', hty.1,
            hty.2, h.1]
        have heq := ih hrest
          (fun x hx => (List.mem_append.mp hx).elim (Value.pushed_ok hv x) fun hx =>
            hvs x (by simp [hx]))
          (fun x hx => (List.mem_append.mp hx).elim (Value.pushed_ok hv' x) fun hx =>
            hvs' x (by simp [hx])) h.2 (by simpa [levels_cons] using hn)
        exact Value.cons_eq_of_store hty.1 h.1 heq

end Meld.Vm
