import Meld.Vm.Tuple

/-!
# Match objects

A match object says for each field of a predicate whether the field is free or has to equal a
value. Only integers, floats and node identifiers can be asked for. `deleteMatch` is the match
object the DELETE instruction builds from the values of the first fields.
-/

namespace Meld.Vm

open Meld.Lib

/-- A `match_field`, with its value when the match is exact. -/
inductive MatchField
  | any (type : FieldType)
  | exact (x : Item)
  deriving DecidableEq, Repr

namespace MatchField

/-- The type of a `match_field`. -/
def type : MatchField → FieldType
  | any τ => τ
  | exact x => .item x.type

/-- Whether a field of a tuple satisfies the match field. -/
def accepts : MatchField → Value → Bool
  | any _, _ => true
  | exact x, .item y => y.eq x
  | exact _, _ => false

end MatchField

/-- `match`. -/
structure Match where
  fields : List MatchField
  anyExact : Bool
  exact_iff : anyExact = true ↔ ∃ x, MatchField.exact x ∈ fields

namespace Match

/-- The constructor, which leaves every field free. -/
def new (types : List FieldType) : Match := ⟨types.map .any, false, by simp⟩

/-- `match_int`, `match_float` and `match_node`. -/
def setItem (m : Match) (num : ℕ) (x : Item) : Exec Match :=
  if h : num < m.fields.length then
    .ok ⟨m.fields.set num (.exact x), true, by simpa using ⟨x, List.mem_set h _⟩⟩
  else .error .assertion

/-- Whether a tuple satisfies every field of the match. -/
def accepts (m : Match) (tpl : List Value) : Prop :=
  List.Forall₂ (fun f v => f.accepts v = true) m.fields tpl

/-- A match without exact fields accepts every tuple. -/
theorem accepts_of_anyExact (m : Match) {tpl : List Value} (hm : m.anyExact = false)
    (hlen : m.fields.length = tpl.length) : m.accepts tpl := by
  rw [accepts, List.forall₂_iff_get]
  refine ⟨hlen, fun i hi hi' => ?_⟩
  cases hf : m.fields.get ⟨i, hi⟩ with
  | any τ => rfl
  | exact x =>
    have hx : m.anyExact = true := m.exact_iff.mpr ⟨x, hf ▸ List.get_mem ..⟩
    rw [hm] at hx
    cases hx

/-- A match accepts a tuple when it accepts its canonical form. -/
theorem accepts_canon (m : Match) (tpl : List Value) : m.accepts (canon tpl) ↔ m.accepts tpl := by
  have hfield : ∀ (f : MatchField) (v : Value), f.accepts v.canon = f.accepts v := by
    intro f v
    cases f with
    | any τ => rfl
    | exact x => cases v <;> simp [MatchField.accepts, Value.canon, Item.canon_eq]
  simp only [accepts, canon, List.forall₂_map_right_iff, hfield]

instance (m : Match) : DecidablePred m.accepts := fun _ => by unfold accepts; infer_instance

end Match

/-- The loop of `execute_delete` from the field `i` on: the value of a field is read by the
field's type. -/
def deleteFields (types : List FieldType) : ℕ → List Item → Match → Exec Match
  | _, [], m => pure m
  | i, x :: xs, m => do
    assert (types[i]? = some (.item x.type))
    let m ← m.setItem i x
    deleteFields types (i + 1) xs m

/-- The match object of `execute_delete`. -/
def deleteMatch (types : List FieldType) (args : List Item) : Exec Match := do
  assert (args ≠ [])
  deleteFields types 0 args (.new types)

section

variable {types : List FieldType} {args : List Item} {m : Match}

private theorem deleteFields_spec (done xs : List Item) (ρ : List FieldType) (m : Match)
    (htypes : types = done.map (fun x => .item x.type) ++ ρ)
    (hm : m.fields = done.map .exact ++ ρ.map .any) {m' : Match}
    (h : deleteFields types done.length xs m = .ok m') :
    ∃ ρ', types = (done ++ xs).map (fun x => .item x.type) ++ ρ' ∧
      m'.fields = (done ++ xs).map .exact ++ ρ'.map .any := by
  induction xs generalizing done ρ m with
  | nil =>
    rw [deleteFields, pure_eq_ok, Except.ok.injEq] at h
    exact ⟨ρ, by simpa using htypes, by simpa [← h] using hm⟩
  | cons x xs ih =>
    rw [deleteFields, bind_eq_ok] at h
    obtain ⟨_, hx, h⟩ := h
    rw [assert_eq_ok, htypes, List.getElem?_append_right (by simp), List.length_map,
      Nat.sub_self] at hx
    obtain ⟨m₁, hm₁, h⟩ := bind_eq_ok.mp h
    unfold Match.setItem at hm₁
    split_ifs at hm₁
    rw [Except.ok.injEq] at hm₁
    cases ρ with
    | nil => simp at hx
    | cons τ ρ =>
      have hτ : τ = .item x.type := by simpa using hx
      have hfields : m₁.fields = (done ++ [x]).map .exact ++ ρ.map .any := by
        rw [← hm₁]
        simp [hm, List.set_append_right]
      obtain ⟨ρ', hρ, hm'⟩ := ih (done ++ [x]) ρ m₁ (by simp [htypes, hτ]) hfields (by simpa using h)
      exact ⟨ρ', by simpa using hρ, by simpa using hm'⟩

/-- The match object of `execute_delete` asks for the values of the first fields, which have the
types of the values, and for nothing else. -/
theorem deleteMatch_spec (h : deleteMatch types args = .ok m) :
    args ≠ [] ∧ ∃ ρ, types = args.map (fun x => .item x.type) ++ ρ ∧
      m.fields = args.map .exact ++ ρ.map .any := by
  rw [deleteMatch, bind_eq_ok] at h
  obtain ⟨_, hne, h⟩ := h
  rw [assert_eq_ok] at hne
  obtain ⟨ρ, hρ, hm⟩ := deleteFields_spec [] args types _ (by simp) (by simp [Match.new]) h
  exact ⟨hne, ρ, by simpa using hρ, by simpa using hm⟩

end

end Meld.Vm
