import Meld.Lib.Bytes
import Meld.Vm.RunNode

/-!
# Tuples on the wire

`pack` writes a tuple into a buffer, `unpack` reads it again, and `get_storage_size` says how many
bytes that takes: the id of the predicate, and for each field the bytes of a number or, for a list,
its length and its items. Both keep the position in the buffer in an `int`. After the length of a
list `pack` asserts that the buffer does not end there, so that it fails for an empty list at its
end; `survives_iff` says that this and the range of an `int` are the only obstacles.
-/

namespace Meld.Vm

open Lib Lib.Bytes

/-! ### Sizes and bytes -/

namespace ItemType

/-- `field_type_size`. -/
def size : ItemType → ℕ
  | int | node => 4
  | float => 8

/-- Every scalar has bytes. -/
theorem size_pos (τ : ItemType) : 0 < τ.size := by
  cases τ <;> decide

end ItemType

namespace Item

/-- The bytes of a number in memory. -/
def bytes : Item → List UInt8
  | int x => le 4 x.toUInt32.toNat
  | float x => le 8 x.toNat
  | node x => le 4 x.toNat

/-- The number of the type in memory. -/
def ofBytes : ItemType → List UInt8 → Item
  | .int, l => .int (UInt32.ofNat (ofLe l)).toInt32
  | .float, l => .float (.ofNat (ofLe l))
  | .node, l => .node (.ofNat (ofLe l))

/-- A scalar has as many bytes as its type says. -/
theorem length_bytes (x : Item) : x.bytes.length = x.type.size := by
  cases x <;> exact length_le ..

/-- A scalar is read back from its bytes. -/
theorem ofBytes_bytes (x : Item) : ofBytes x.type x.bytes = x := by
  cases x with
  | int x =>
    rw [bytes, type, ofBytes, ofLe_le_of_lt x.toUInt32.toNat_lt, UInt32.ofNat_toNat]
    rfl
  | float x => rw [bytes, type, ofBytes, ofLe_le_of_lt x.toNat_lt, UInt64.ofNat_toNat]
  | node x => rw [bytes, type, ofBytes, ofLe_le_of_lt x.toNat_lt, UInt32.ofNat_toNat]

end Item

namespace Value

/-- The storage size of a field. -/
def storageSize : Value → Exec ℕ
  | item x => pure x.type.size
  | list τ l => pure (4 + τ.size * l.length)
  | string _ => throw .thrown

/-- What a field becomes in the buffer. -/
def bytes : Value → List UInt8
  | item x => x.bytes
  | list _ l => le 4 l.length ++ l.flatMap Item.bytes
  | string _ => []

/-- An empty list. -/
def isEmptyList : Value → Bool
  | list _ [] => true
  | _ => false

end Value

namespace SimpleTuple

variable (t : SimpleTuple)

/-- `storage_size`. -/
def storageSize : Exec ℕ := do
  let size ← t.tpl.fields.foldlM (fun size v => do return size + (← v.storageSize)) 1
  return 2 + size

end SimpleTuple

/-! ### Packing -/

/-- The position in a buffer, and what was written before it. -/
structure PackState where
  pos : ℤ
  written : List UInt8
  deriving DecidableEq, Repr

section

variable (bufSize : ℕ)

/-- `utils::pack`; a negative position is larger than any size of a buffer. -/
def pack (bytes : List UInt8) (s : PackState) : Exec PackState := do
  assert (0 ≤ s.pos ∧ s.pos + bytes.length ≤ bufSize)
  return ⟨wrap32 (s.pos + bytes.length), s.written ++ bytes⟩

/-- `cons::pack`. -/
def packList (l : List Item) (s : PackState) : Exec PackState := do
  let s ← pack bufSize (le 4 l.length) s
  assert (s.pos < wrap32 bufSize)
  l.foldlM (fun s x => pack bufSize x.bytes s) s

/-- A field in `pack`. -/
def packField (s : PackState) (v : Value) : Exec PackState := do
  let s ← match v with
    | .item x => pack bufSize x.bytes s
    | .list _ l => packList bufSize l s
    | .string _ => throw .thrown
  assert (s.pos ≤ wrap32 bufSize)
  return s

/-- `pack` of a tuple. -/
def packTuple (t : Tuple) (s : PackState) : Exec PackState := do
  assert (s.pos ≤ wrap32 bufSize)
  let s ← pack bufSize [.ofNat t.pred.id] s
  assert (s.pos ≤ wrap32 bufSize)
  t.fields.foldlM (packField bufSize) s

/-- `simple_tuple::pack`. -/
def SimpleTuple.pack (t : SimpleTuple) (s : PackState) : Exec PackState := do
  let s ← Vm.pack bufSize (le 2 (t.count % 2 ^ 16).toNat) s
  packTuple bufSize t.tpl s

end

/-! ### Unpacking -/

section

variable (buf : List UInt8)

/-- `utils::unpack`. -/
def unpack (n : ℕ) (pos : ℤ) : Exec (List UInt8 × ℤ) := do
  assert (0 ≤ pos ∧ pos + n ≤ buf.length)
  return ((buf.drop pos.toNat).take n, wrap32 (pos + n))

def unpackItem (τ : ItemType) (pos : ℤ) : Exec (Item × ℤ) := do
  let (bytes, pos) ← unpack buf τ.size pos
  return (.ofBytes τ bytes, pos)

/-- The loop of `cons::unpack`. -/
def unpackItems (τ : ItemType) : ℕ → ℤ → Exec (List Item × ℤ)
  | 0, pos => pure ([], pos)
  | len + 1, pos => do
    let (head, pos) ← unpackItem buf τ pos
    let (tail, pos) ← unpackItems τ len pos
    return (head :: tail, pos)

/-- A field in `load`. -/
def loadField (τ : FieldType) (pos : ℤ) : Exec (Value × ℤ) :=
  match τ with
  | .item τ => do
    let (x, pos) ← unpackItem buf τ pos
    return (.item x, pos)
  | .list τ => do
    let (len, pos) ← unpack buf 4 pos
    let (l, pos) ← unpackItems buf τ (ofLe len) pos
    return (.list τ l, pos)
  | .string => throw .thrown

/-- `load`. -/
def load : List FieldType → ℤ → Exec (List Value × ℤ)
  | [], pos => pure ([], pos)
  | τ :: types, pos => do
    let (v, pos) ← loadField buf τ pos
    let (vs, pos) ← load types pos
    return (v :: vs, pos)

/-- `unpack` of a tuple. -/
def unpackTuple (prog : Program) (pos : ℤ) : Exec (Tuple × ℤ) := do
  let (id, pos) ← unpack buf 1 pos
  let pred ← deref prog.predicates[ofLe id]?
  let (fields, pos) ← load buf pred.types pos
  return (⟨pred, fields⟩, pos)

/-- `simple_tuple::unpack`. -/
def SimpleTuple.unpack (prog : Program) (pos : ℤ) : Exec (SimpleTuple × ℤ) := do
  let (count, pos) ← Vm.unpack buf 2 pos
  let (tpl, pos) ← unpackTuple buf prog pos
  return ({ tpl := tpl, count := wrap16 (ofLe count) }, pos)

end

/-- A tuple of a predicate of the program, without strings. -/
structure SimpleTuple.Sendable (prog : Program) (t : SimpleTuple) : Prop where
  pred : prog.predicates[t.tpl.pred.id]? = some t.tpl.pred
  /-- a `predicate_id` is a byte -/
  id_lt : t.tpl.pred.id < 256
  types : t.tpl.fields.map Value.type = t.tpl.pred.types
  ok : ∀ v ∈ t.tpl.fields, v.Ok
  noString : ∀ v ∈ t.tpl.fields, v.type ≠ .string
  /-- a `ref_count` is a `short` -/
  count : -2 ^ 15 ≤ t.count ∧ t.count < 2 ^ 15

/-- The tuple is packed into a buffer of its storage size, which it fills, and unpacked from it. -/
def SimpleTuple.Survives (prog : Program) (t : SimpleTuple) : Prop :=
  ∃ (size : ℕ) (buf : List UInt8) (t' : SimpleTuple), t.storageSize = .ok size ∧
    t.pack size ⟨0, []⟩ = .ok ⟨size, buf⟩ ∧ buf.length = size ∧
    SimpleTuple.unpack buf prog 0 = .ok (t', size) ∧
    t'.tpl.pred = t.tpl.pred ∧ t'.tpl.fields = t.tpl.fields ∧ t'.count = t.count

/-! ### Sizes -/

variable {v : Value} {t : SimpleTuple} {prog : Program} {bufSize : ℕ} {l : List UInt8}

/-- The elements of a list have as many bytes as its type and length say. -/
theorem length_flatMap_bytes {τ : ItemType} {xs : List Item} (h : ∀ x ∈ xs, x.type = τ) :
    (xs.flatMap Item.bytes).length = τ.size * xs.length := by
  induction xs with
  | nil => rfl
  | cons x xs ih =>
    rw [List.forall_mem_cons] at h
    rw [List.flatMap_cons, List.length_append, Item.length_bytes, h.1, ih h.2, List.length_cons,
      Nat.mul_succ, Nat.add_comm]

/-- The storage size of a field is the number of its bytes. -/
theorem Value.storageSize_eq (hok : v.Ok) (hstring : v.type ≠ .string) :
    v.storageSize = .ok v.bytes.length := by
  cases v with
  | item x => exact congrArg Except.ok x.length_bytes.symm
  | list τ xs =>
    rw [Value.storageSize, Value.bytes, List.length_append, length_le, length_flatMap_bytes hok]
    rfl
  | string p => exact absurd rfl hstring

/-- A field has four bytes at least. -/
theorem Value.four_le_length (hstring : v.type ≠ .string) : 4 ≤ v.bytes.length := by
  cases v with
  | item x => cases x <;> simp [Value.bytes, Item.bytes]
  | list τ xs => simp [Value.bytes]
  | string p => exact absurd rfl hstring

/-- What the fields become in the buffer. -/
def fieldsBytes (vs : List Value) : List UInt8 := vs.flatMap Value.bytes

/-- The storage sizes of the fields add up. -/
theorem foldlM_storageSize {vs : List Value} (hok : ∀ v ∈ vs, v.Ok)
    (hstring : ∀ v ∈ vs, v.type ≠ .string) (n : ℕ) :
    vs.foldlM (fun (size : ℕ) v => do return size + (← v.storageSize)) n =
      (Except.ok (n + (fieldsBytes vs).length) : Exec ℕ) := by
  induction vs generalizing n with
  | nil => rfl
  | cons v vs ih =>
    rw [List.forall_mem_cons] at hok hstring
    rw [List.foldlM_cons, Value.storageSize_eq hok.1 hstring.1, ok_bind, pure_eq_ok, ok_bind,
      ih hok.2 hstring.2, fieldsBytes, fieldsBytes, List.flatMap_cons, List.length_append,
      Nat.add_assoc]

/-- What the tuple becomes in the buffer. -/
def SimpleTuple.bytes (t : SimpleTuple) : List UInt8 :=
  le 2 (t.count % 2 ^ 16).toNat ++ (.ofNat t.tpl.pred.id :: fieldsBytes t.tpl.fields)

/-- The storage size of a fact is the number of its bytes. -/
theorem SimpleTuple.storageSize_eq (h : t.Sendable prog) : t.storageSize = .ok t.bytes.length := by
  rw [storageSize, foldlM_storageSize h.ok h.noString, ok_bind, pure_eq_ok, SimpleTuple.bytes,
    List.length_append, length_le, List.length_cons, Nat.add_comm 1]

/-! ### Packing into a buffer of the right size -/

/-- The state after the bytes were written. -/
def PackState.wrote (l : List UInt8) : PackState := ⟨l.length, l⟩

@[simp] theorem PackState.wrote_pos : (PackState.wrote l).pos = l.length := rfl

/-- Bytes that fit are written behind the others. -/
theorem pack_wrote {bytes : List UInt8} (hfit : l.length + bytes.length ≤ bufSize)
    (hsize : (bufSize : ℤ) ≤ maxInt) :
    pack bufSize bytes (.wrote l) = .ok (.wrote (l ++ bytes)) := by
  have hle : (l.length : ℤ) + bytes.length ≤ bufSize := by exact_mod_cast hfit
  rw [pack, PackState.wrote_pos, assert_pos ⟨Int.natCast_nonneg _, hle⟩, ok_bind,
    wrap32_of_mem (by simp only [maxInt]; omega) (hle.trans hsize), PackState.wrote,
    PackState.wrote, List.length_append]
  rfl

/-- So are the elements of a list. -/
theorem packItems_wrote {xs : List Item}
    (hfit : l.length + (xs.flatMap Item.bytes).length ≤ bufSize) (hsize : (bufSize : ℤ) ≤ maxInt) :
    xs.foldlM (fun s x => pack bufSize x.bytes s) (.wrote l) =
      .ok (.wrote (l ++ xs.flatMap Item.bytes)) := by
  induction xs generalizing l with
  | nil => rw [List.flatMap_nil, List.append_nil]; rfl
  | cons x xs ih =>
    rw [List.flatMap_cons, List.length_append] at hfit
    rw [List.foldlM_cons, pack_wrote (by omega) hsize, ok_bind,
      ih (by rw [List.length_append]; omega), List.flatMap_cons, List.append_assoc]

/-- The size of the buffer is an `int`. -/
theorem wrap32_bufSize (hsize : (bufSize : ℤ) ≤ maxInt) : wrap32 bufSize = bufSize :=
  wrap32_of_mem (by simp only [maxInt]; omega) hsize

/-- A list is packed, unless it is empty and the buffer ends with it. -/
theorem packList_wrote {xs : List Item}
    (hfit : l.length + (4 + (xs.flatMap Item.bytes).length) ≤ bufSize)
    (hsize : (bufSize : ℤ) ≤ maxInt) :
    packList bufSize xs (.wrote l) = if xs = [] ∧ l.length + 4 = bufSize then .error .assertion
      else .ok (.wrote (l ++ (le 4 xs.length ++ xs.flatMap Item.bytes))) := by
  have hlen : (l ++ le 4 xs.length).length = l.length + 4 := by rw [List.length_append, length_le]
  rw [packList, pack_wrote (by rw [length_le]; omega) hsize, ok_bind, wrap32_bufSize hsize,
    PackState.wrote_pos, hlen]
  split_ifs with hend
  · rw [assert_neg (by have := hend.2; omega)]
    rfl
  · have hlt : l.length + 4 < bufSize := by
      cases xs with
      | nil =>
        rw [List.flatMap_nil, List.length_nil] at hfit
        rw [eq_self, true_and] at hend
        omega
      | cons x xs =>
        rw [List.flatMap_cons, List.length_append, Item.length_bytes] at hfit
        have := x.type.size_pos
        omega
    rw [assert_pos (by exact_mod_cast hlt), ok_bind, packItems_wrote (by rw [hlen]; omega) hsize,
      List.append_assoc]

/-- A field is packed, unless it is an empty list and the buffer ends with it. -/
theorem packField_wrote (hstring : v.type ≠ .string) (hfit : l.length + v.bytes.length ≤ bufSize)
    (hsize : (bufSize : ℤ) ≤ maxInt) :
    packField bufSize (.wrote l) v = if v.isEmptyList ∧ l.length + v.bytes.length = bufSize then
      .error .assertion else .ok (.wrote (l ++ v.bytes)) := by
  have hend : ∀ bytes : List UInt8, l.length + bytes.length ≤ bufSize →
      (do assert ((PackState.wrote (l ++ bytes)).pos ≤ wrap32 bufSize)
          return PackState.wrote (l ++ bytes)) =
        (.ok (.wrote (l ++ bytes)) : Exec PackState) := fun bytes hle => by
    rw [wrap32_bufSize hsize, PackState.wrote_pos, List.length_append,
      assert_pos (by exact_mod_cast hle)]
    rfl
  cases v with
  | item x =>
    rw [if_neg fun h => nomatch h.1]
    have hitem : l.length + x.bytes.length ≤ bufSize := hfit
    change (pack bufSize x.bytes _ >>= _) = _
    rw [pack_wrote hitem hsize, ok_bind]
    exact hend x.bytes hfit
  | string p => exact absurd rfl hstring
  | list τ xs =>
    have hlen : (Value.list τ xs).bytes.length = 4 + (xs.flatMap Item.bytes).length := by
      rw [Value.bytes, List.length_append, length_le]
    change (packList bufSize xs _ >>= _) = _
    rw [packList_wrote (by omega) hsize]
    by_cases hfull : xs = [] ∧ l.length + 4 = bufSize
    · obtain ⟨rfl, hfull⟩ := hfull
      rw [if_pos ⟨rfl, hfull⟩, if_pos ⟨rfl, by rw [hlen]; exact hfull⟩]
      rfl
    · rw [if_neg hfull, ok_bind, if_neg]
      · exact hend _ hfit
      · rintro ⟨hempty, hsum⟩
        cases xs with
        | nil =>
          rw [hlen, List.flatMap_nil, List.length_nil] at hsum
          exact hfull ⟨rfl, hsum⟩
        | cons x xs => cases hempty

/-- The last field is an empty list. -/
def endsEmpty (vs : List Value) : Prop := ∃ v ∈ vs.getLast?, v.isEmptyList = true

/-- The fields are packed into a buffer that ends with them, unless the last one is an empty
list. -/
theorem packFields_wrote {vs : List Value} (hstring : ∀ v ∈ vs, v.type ≠ .string)
    (hfit : l.length + (fieldsBytes vs).length = bufSize) (hsize : (bufSize : ℤ) ≤ maxInt) :
    (¬ endsEmpty vs →
      vs.foldlM (packField bufSize) (.wrote l) = .ok (.wrote (l ++ fieldsBytes vs))) ∧
    (endsEmpty vs → vs.foldlM (packField bufSize) (.wrote l) = .error .assertion) := by
  induction vs generalizing l with
  | nil =>
    refine ⟨fun _ => ?_, ?_⟩
    · rw [fieldsBytes, List.flatMap_nil, List.append_nil]
      rfl
    · rintro ⟨v, hv, -⟩
      cases hv
  | cons v vs ih =>
    rw [List.forall_mem_cons] at hstring
    have hbytes : fieldsBytes (v :: vs) = v.bytes ++ fieldsBytes vs := List.flatMap_cons
    rw [hbytes, List.length_append] at hfit
    have hfield := packField_wrote (l := l) hstring.1 (by omega) hsize
    rw [List.foldlM_cons, hfield]
    cases vs with
    | nil =>
      have hfull : l.length + v.bytes.length = bufSize := by
        rw [fieldsBytes, List.flatMap_nil, List.length_nil] at hfit
        omega
      have hiff : endsEmpty [v] ↔ v.isEmptyList = true := by
        simp only [endsEmpty, List.getLast?_singleton, Option.mem_some_iff, exists_eq_left']
      rw [hiff]
      refine ⟨fun hne => ?_, fun hempty => ?_⟩
      · rw [if_neg fun h => hne h.1, ok_bind, hbytes]
        simp only [fieldsBytes, List.flatMap_nil, List.append_nil]
        rfl
      · rw [if_pos ⟨hempty, hfull⟩]
        rfl
    | cons w vs =>
      have hw := Value.four_le_length (hstring.2 w (List.mem_cons_self ..))
      have hlt : l.length + v.bytes.length ≠ bufSize := by
        rw [fieldsBytes, List.flatMap_cons, List.length_append] at hfit
        omega
      have hends : endsEmpty (v :: w :: vs) ↔ endsEmpty (w :: vs) := by
        simp only [endsEmpty, List.getLast?_cons_cons]
      rw [if_neg fun h => hlt h.2, ok_bind, hends, hbytes, ← List.append_assoc]
      exact ih hstring.2 (by rw [List.length_append]; omega)

/-- The position stays an `int`, whatever the field is. -/
theorem pos_le_of_packField {s s' : PackState} (h : packField bufSize s v = .ok s') :
    s'.pos ≤ maxInt := by
  have hend : ∀ x : Exec PackState, (do
      let s ← x
      assert (s.pos ≤ wrap32 bufSize)
      return s) = .ok s' → s'.pos ≤ maxInt := fun x hx => by
    obtain ⟨s₁, -, hx⟩ := bind_eq_ok.mp hx
    obtain ⟨⟨⟩, hle, hx⟩ := bind_eq_ok.mp hx
    cases hx
    exact (assert_eq_ok.mp hle).trans (wrap32_le _)
  cases v with
  | item x => exact hend (pack bufSize x.bytes s) h
  | list τ l => exact hend (packList bufSize l s) h
  | string p => exact hend (throw .thrown) h

/-- The position is an `int`. -/
theorem pos_le_of_packFields {vs : List Value} {s s' : PackState} (hpos : s.pos ≤ maxInt)
    (h : vs.foldlM (packField bufSize) s = .ok s') : s'.pos ≤ maxInt := by
  induction vs generalizing s with
  | nil =>
    cases h
    exact hpos
  | cons v vs ih =>
    rw [List.foldlM_cons] at h
    obtain ⟨s'', hfield, h⟩ := bind_eq_ok.mp h
    exact ih (pos_le_of_packField hfield) h

/-- So it does for a whole fact. -/
theorem pos_le_of_pack {s s' : PackState} (h : t.pack bufSize s = .ok s') : s'.pos ≤ maxInt := by
  obtain ⟨s₁, -, h⟩ := bind_eq_ok.mp h
  obtain ⟨⟨⟩, -, h⟩ := bind_eq_ok.mp h
  obtain ⟨s₂, -, h⟩ := bind_eq_ok.mp h
  obtain ⟨⟨⟩, hpos, h⟩ := bind_eq_ok.mp h
  exact pos_le_of_packFields ((assert_eq_ok.mp hpos).trans (wrap32_le _)) h

/-- The tuple is packed into a buffer of its size, unless its last field is an empty list. -/
theorem pack_eq (h : t.Sendable prog) (hsize : (t.bytes.length : ℤ) ≤ maxInt) :
    (¬ endsEmpty t.tpl.fields →
      t.pack t.bytes.length ⟨0, []⟩ = .ok ⟨t.bytes.length, t.bytes⟩) ∧
    (endsEmpty t.tpl.fields → t.pack t.bytes.length ⟨0, []⟩ = .error .assertion) := by
  have hlen : t.bytes.length = 2 + (1 + (fieldsBytes t.tpl.fields).length) := by
    rw [SimpleTuple.bytes, List.length_append, length_le, List.length_cons, Nat.add_comm 1]
  have hfields := @packFields_wrote t.bytes.length
    (le 2 (t.count % 2 ^ 16).toNat ++ [.ofNat t.tpl.pred.id]) t.tpl.fields h.noString
    (by rw [List.length_append, length_le, List.length_singleton, hlen]; omega) hsize
  have hstart : t.pack t.bytes.length ⟨0, []⟩ = t.tpl.fields.foldlM (packField t.bytes.length)
      (.wrote (le 2 (t.count % 2 ^ 16).toNat ++ [.ofNat t.tpl.pred.id])) := by
    have hcount := @pack_wrote t.bytes.length [] (le 2 (t.count % 2 ^ 16).toNat)
      (by rw [length_le, List.length_nil]; omega) hsize
    have hpred := @pack_wrote t.bytes.length (le 2 (t.count % 2 ^ 16).toNat)
      [.ofNat t.tpl.pred.id] (by rw [length_le, List.length_singleton]; omega) hsize
    rw [SimpleTuple.pack]
    change (Vm.pack _ _ (.wrote []) >>= _) = _
    rw [hcount, ok_bind, List.nil_append, packTuple, wrap32_bufSize hsize, PackState.wrote_pos,
      length_le, assert_pos (by omega), ok_bind, hpred, ok_bind, PackState.wrote_pos,
      List.length_append, length_le, List.length_singleton, assert_pos (by omega), ok_bind]
  have hbytes : le 2 (t.count % 2 ^ 16).toNat ++ [.ofNat t.tpl.pred.id] ++
      fieldsBytes t.tpl.fields = t.bytes := by
    rw [List.append_assoc]
    rfl
  rw [hstart]
  rw [hbytes] at hfields
  exact hfields

/-! ### Unpacking what was packed -/

section

variable {α β : Type} {p : List UInt8 → ℤ → Exec (α × ℤ)} {q : α → List UInt8 → ℤ → Exec (β × ℤ)}
  {l' : List UInt8} {a : α} {b : β}

/-- The bytes are read as the value, wherever they stand in a buffer. -/
def Unpacks (p : List UInt8 → ℤ → Exec (α × ℤ)) (l : List UInt8) (a : α) : Prop :=
  ∀ pre post, ((pre ++ l ++ post).length : ℤ) ≤ maxInt →
    p (pre ++ l ++ post) pre.length = .ok (a, ((pre ++ l).length : ℤ))

/-- Nothing is unpacked from no bytes. -/
theorem Unpacks.pure (a : α) : Unpacks (fun _ pos => pure (a, pos)) [] a := by
  intro pre post _
  rw [List.append_nil]
  rfl

/-- What is unpacked one after the other. -/
theorem Unpacks.bind (hp : Unpacks p l a) (hq : Unpacks (q a) l' b) :
    Unpacks (fun buf pos => p buf pos >>= fun r => q r.1 buf r.2) (l ++ l') b := by
  intro pre post hlen
  have hleft : pre ++ (l ++ l') ++ post = pre ++ l ++ (l' ++ post) := by
    simp only [List.append_assoc]
  have hright : pre ++ l ++ (l' ++ post) = pre ++ l ++ l' ++ post := by
    simp only [List.append_assoc]
  rw [hleft] at hlen ⊢
  change (p _ _ >>= _) = _
  rw [hp pre (l' ++ post) hlen, ok_bind, hright, hq (pre ++ l) post (hright ▸ hlen)]
  simp only [List.append_assoc]

/-- Reading is followed by a computation. -/
theorem Unpacks.map (hp : Unpacks p l a) (g : α → β) :
    Unpacks (fun buf pos => p buf pos >>= fun r => Pure.pure (g r.1, r.2)) l (g a) := by
  have h := hp.bind (q := fun a _ pos => Pure.pure (g a, pos)) (.pure (g a))
  rwa [List.append_nil] at h

/-- Bytes are unpacked as they are. -/
theorem unpacks_unpack (l : List UInt8) : Unpacks (fun buf pos => unpack buf l.length pos) l l := by
  intro pre post hlen
  rw [List.length_append] at hlen
  have hle : ((pre.length : ℤ) + l.length) ≤ (pre ++ l ++ post).length := by
    simp only [List.length_append]
    omega
  change unpack _ _ _ = _
  rw [unpack, assert_pos ⟨Int.natCast_nonneg _, hle⟩, ok_bind, Int.toNat_natCast,
    List.append_assoc, List.drop_left, List.take_left,
    wrap32_of_mem (by simp only [maxInt]; omega) (by
      simp only [List.length_append] at hlen ⊢; omega), List.length_append]
  rfl

/-- A scalar is unpacked from its bytes. -/
theorem unpacks_item (x : Item) : Unpacks (fun buf pos => unpackItem buf x.type pos) x.bytes x := by
  have h := (unpacks_unpack x.bytes).map (Item.ofBytes x.type)
  rw [x.ofBytes_bytes, x.length_bytes] at h
  exact h

/-- The elements of a list are unpacked, in their order. -/
theorem unpacks_items {τ : ItemType} {xs : List Item} (h : ∀ x ∈ xs, x.type = τ) :
    Unpacks (fun buf pos => unpackItems buf τ xs.length pos) (xs.flatMap Item.bytes) xs := by
  induction xs with
  | nil => exact .pure []
  | cons x xs ih =>
    rw [List.forall_mem_cons] at h
    obtain ⟨rfl, h⟩ := h
    rw [List.flatMap_cons]
    exact (unpacks_item x).bind (q := fun y buf pos =>
      unpackItems buf x.type xs.length pos >>= fun r => pure (y :: r.1, r.2)) ((ih h).map (x :: ·))

/-- A field is unpacked from its bytes. -/
theorem unpacks_field (hok : v.Ok) (hstring : v.type ≠ .string)
    (hlen : (v.bytes.length : ℤ) ≤ maxInt) :
    Unpacks (fun buf pos => loadField buf v.type pos) v.bytes v := by
  cases v with
  | item x => exact (unpacks_item x).map Value.item
  | string p => exact absurd rfl hstring
  | list τ xs =>
    have hle : xs.length ≤ τ.size * xs.length := Nat.le_mul_of_pos_left _ τ.size_pos
    have hlen' : ofLe (le 4 xs.length) = xs.length := by
      rw [Value.bytes, List.length_append, length_le, length_flatMap_bytes hok] at hlen
      simp only [maxInt] at hlen
      exact ofLe_le_of_lt (by omega)
    have hcount := unpacks_unpack (le 4 xs.length)
    rw [length_le] at hcount
    have hitems := (unpacks_items hok).map (Value.list τ)
    rw [← hlen'] at hitems
    exact hcount.bind (q := fun len buf pos =>
      unpackItems buf τ (ofLe len) pos >>= fun r => pure (Value.list τ r.1, r.2)) hitems

/-- The fields of a tuple are unpacked by their types. -/
theorem unpacks_load {vs : List Value} (hok : ∀ v ∈ vs, v.Ok) (hstring : ∀ v ∈ vs, v.type ≠ .string)
    (hlen : ((fieldsBytes vs).length : ℤ) ≤ maxInt) :
    Unpacks (fun buf pos => load buf (vs.map Value.type) pos) (fieldsBytes vs) vs := by
  induction vs with
  | nil => exact .pure []
  | cons v vs ih =>
    rw [List.forall_mem_cons] at hok hstring
    rw [fieldsBytes, List.flatMap_cons, List.length_append] at hlen
    have hvs := ih hok.2 hstring.2 (by rw [fieldsBytes]; omega)
    exact (unpacks_field hok.1 hstring.1 (by omega)).bind (q := fun w buf pos =>
      load buf (vs.map Value.type) pos >>= fun r => pure (w :: r.1, r.2)) (hvs.map (v :: ·))

/-- A tuple is unpacked by the types of its predicate. -/
theorem unpacks_tuple (h : t.Sendable prog)
    (hsize : ((fieldsBytes t.tpl.fields).length : ℤ) ≤ maxInt) :
    Unpacks (fun buf pos => unpackTuple buf prog pos)
      ([.ofNat t.tpl.pred.id] ++ fieldsBytes t.tpl.fields) t.tpl := by
  have hid : ofLe [UInt8.ofNat t.tpl.pred.id] = t.tpl.pred.id := by
    rw [ofLe, ofLe, Nat.mul_zero, Nat.add_zero]
    exact (UInt8.toNat_ofNat' ..).trans (Nat.mod_eq_of_lt h.id_lt)
  have hfields := unpacks_load h.ok h.noString hsize
  rw [h.types] at hfields
  refine (unpacks_unpack [UInt8.ofNat t.tpl.pred.id]).bind (q := fun id buf pos =>
    deref prog.predicates[ofLe id]? >>= fun pred =>
      load buf pred.types pos >>= fun r => pure ((⟨pred, r.1⟩ : Tuple), r.2)) ?_
  rw [hid, h.pred]
  exact hfields.map fun fields => (⟨t.tpl.pred, fields⟩ : Tuple)

/-- The tuple is unpacked from its bytes, wherever they stand in a buffer. -/
theorem unpacks_simpleTuple (h : t.Sendable prog) (hsize : (t.bytes.length : ℤ) ≤ maxInt) :
    Unpacks (fun buf pos => SimpleTuple.unpack buf prog pos) t.bytes
      { tpl := t.tpl, count := t.count } := by
  have hcount : wrap16 (ofLe (le 2 (t.count % 2 ^ 16).toNat)) = t.count := by
    have hbounds := h.count
    rw [ofLe_le_of_lt (by omega), Int.toNat_of_nonneg (by omega), wrap16]
    exact (Int.emod_bmod ..).trans (wrap16_of_mem (by simp only [maxShort]; omega)
      (by simp only [maxShort]; omega))
  have htuple := unpacks_tuple h (by
    rw [SimpleTuple.bytes, List.length_append, List.length_cons] at hsize
    omega)
  have hbytes : t.bytes = le 2 (t.count % 2 ^ 16).toNat ++
      ([.ofNat t.tpl.pred.id] ++ fieldsBytes t.tpl.fields) := rfl
  have hlen := length_le 2 (t.count % 2 ^ 16).toNat
  generalize le 2 (t.count % 2 ^ 16).toNat = c at hcount hbytes hlen
  have hall := (unpacks_unpack c).bind (q := fun count buf pos =>
    unpackTuple buf prog pos >>= fun r =>
      pure (({ tpl := r.1, count := wrap16 (ofLe count) } : SimpleTuple), r.2))
    (htuple.map fun tpl => ({ tpl := tpl, count := wrap16 (ofLe c) } : SimpleTuple))
  rw [hlen, hcount, ← hbytes] at hall
  exact hall

/-- The tuple is unpacked from its bytes. -/
theorem unpack_bytes (h : t.Sendable prog) (hsize : (t.bytes.length : ℤ) ≤ maxInt) :
    SimpleTuple.unpack t.bytes prog 0 = .ok ({ tpl := t.tpl, count := t.count }, t.bytes.length) := by
  have hbuf := unpacks_simpleTuple h hsize [] []
    (by simpa only [List.nil_append, List.append_nil] using hsize)
  rw [List.append_nil, List.nil_append] at hbuf
  exact hbuf

end

/-! ### What survives -/

/-- A tuple fills a buffer of its storage size when it is packed, and is unpacked from it, exactly
when the size is an `int` and the last field is not an empty list. -/
theorem survives_iff (prog : Program) (t : SimpleTuple) (h : t.Sendable prog) :
    t.Survives prog ↔ (∀ size : ℕ, t.storageSize = .ok size → (size : ℤ) ≤ maxInt) ∧
      ¬ endsEmpty t.tpl.fields := by
  have hstorage := SimpleTuple.storageSize_eq h
  constructor
  · rintro ⟨size, buf, t', hsize, hpack, -⟩
    obtain rfl : t.bytes.length = size := Except.ok.inj (hstorage.symm.trans hsize)
    have hpos := pos_le_of_pack hpack
    have hle : (t.bytes.length : ℤ) ≤ maxInt := hpos
    refine ⟨fun size hsize' => ?_, fun hempty => ?_⟩
    · obtain rfl : t.bytes.length = size := Except.ok.inj (hstorage.symm.trans hsize')
      exact hle
    · rw [(pack_eq h hle).2 hempty] at hpack
      cases hpack
  · rintro ⟨hle, hempty⟩
    have hsize := hle _ hstorage
    exact ⟨t.bytes.length, t.bytes, { tpl := t.tpl, count := t.count }, hstorage,
      (pack_eq h hsize).1 hempty, rfl, unpack_bytes h hsize, rfl, rfl, rfl⟩

/-- A program with one predicate, whose only field is a list of integers. -/
def listSample : Program where
  predicates := [{ id := 0, types := [.list .int] }]
  rules := []
  id_eq := by simp
  affected_lt := by simp
  body_lt := by simp
  lists_agree := by simp

/-- A tuple of that predicate. -/
def listTuple (l : List Item) : SimpleTuple where
  tpl := { pred := { id := 0, types := [.list .int] }, fields := [.list .int l] }
  count := 1

/-- A tuple with a list of integers can be sent. -/
theorem sendable_listTuple {l : List Item} (h : ∀ x ∈ l, x.type = .int) :
    (listTuple l).Sendable listSample where
  pred := rfl
  id_lt := Nat.zero_lt_succ _
  types := rfl
  ok := by
    simp only [listTuple, List.mem_singleton, forall_eq]
    exact h
  noString := by simp [listTuple, Value.type]
  count := ⟨by simp [listTuple], by simp [listTuple]⟩

/-- A list with one item survives. -/
theorem survives_iff_five : (listTuple [.int 5]).Survives listSample ↔
    (∀ size : ℕ, (listTuple [.int 5]).storageSize = .ok size → (size : ℤ) ≤ maxInt) ∧
      ¬ endsEmpty (listTuple [.int 5]).tpl.fields :=
  survives_iff listSample (listTuple [.int 5]) (sendable_listTuple (by decide))

/-- The assertion of `cons::pack` fails for an empty list at the end of the buffer. -/
theorem not_survives : (listTuple []).Sendable listSample ∧ ¬ (listTuple []).Survives listSample := by
  refine ⟨sendable_listTuple (by simp), ?_⟩
  rintro ⟨size, buf, t', hsize, hpack, -⟩
  obtain rfl : 7 = size := Except.ok.inj hsize
  have hfail : (listTuple []).pack 7 ⟨0, []⟩ = .error .assertion := by decide +kernel
  rw [hfail] at hpack
  cases hpack

end Meld.Vm
