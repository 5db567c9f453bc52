import Meld.Vm.Advance

/-!
# The decoders of byte-code

Three decoders step over an instruction: execution reads operands of the kinds that its functions
accept, `instr_print` moves a cursor over all that it prints, and `advance` computes the length.
Printing goes over every instruction as it stands in memory (`printLength_head`). `advance` misses a
kind: `get_op_function` takes a constant as a list of integers or floats, but the sizes of lists do
not know constants. `decoders_agree_iff` says that this is all.
-/

namespace Meld.Vm.Bytecode

open Lib Lib.Bytes Linker

/-! ### Printing -/

/-- `val_string`, without the text: how far it moves the cursor. -/
def valString (v : ℕ) (m : List UInt8) : Exec ℕ :=
  match valKind v with
  | some .tuple | some .reg | some .host | some .nil | some .pcounter => return 0
  | some .field => do
    let _ ← byteGet m 1
    let _ ← byteGet m 0
    return 2
  | some .int | some .node | some .string | some .const => do
    let _ ← numGet 4 m 0
    return 4
  | some .float | some .ptr => do
    let _ ← numGet 8 m 0
    return 8
  | some .arg | some .stack => do
    let _ ← byteGet m 0
    return 1
  | none => .error .thrown

/-- `val_string` for operands one after another. -/
def valStrings : List ℕ → List UInt8 → Exec ℕ
  | [], _ => pure 0
  | v :: vs, m => do
    let n ← valString v m
    return n + (← valStrings vs (m.drop n))

/-- The operands whose kinds are at the offsets, behind a fixed part. -/
def printOperands (pc : List UInt8) (base : ℕ) (offs : List ℕ) : Exec ℕ := do
  return base + (← valStrings (← offs.mapM (valGet pc)) (pc.drop base))

/-- An item of a fact. -/
def printItem (τ : ItemType) (p : List UInt8) : Exec ℕ :=
  match τ with
  | .int | .node => do
    let _ ← numGet 4 p 0
    return 4
  | .float => do
    let _ ← numGet 8 p 0
    return 8

/-- The items of a list, each behind a one. -/
def printList (τ : ItemType) : ℕ → List UInt8 → Exec ℕ
  | 0, _ => .error .diverge
  | fuel + 1, p => do
    if (← byteGet p 0) = 1 then
      let n ← printItem τ (p.drop 1)
      return 1 + n + (← printList τ fuel (p.drop (1 + n)))
    else return 1

/-- A field of a fact. -/
def printField (τ : FieldType) (p : List UInt8) : Exec ℕ :=
  match τ with
  | .item τ => printItem τ p
  | .list τ => printList τ p.length p
  | .string => .error .assertion

/-- The fields of a fact. -/
def printFields : List FieldType → List UInt8 → Exec ℕ
  | [], _ => pure 0
  | τ :: types, p => do
    let n ← printField τ p
    return n + (← printFields types (p.drop n))

/-- The facts of a `NEW_AXIOMS_INSTR`, as many as there are before the end. -/
def printAxioms (predicates : List (List FieldType)) : ℕ → ℕ → List UInt8 → Exec ℕ
  | 0, _, _ => .error .diverge
  | fuel + 1, left, p =>
    if 0 < left then do
      let types ← deref predicates[predicateGet (← byteGet p 0)]?
      let n := 1 + (← printFields types (p.drop 1))
      return n + (← printAxioms predicates fuel (left - n) (p.drop n))
    else return 0

/-- `instr_print`, without the text: how far it looks at an instruction, when the predicates have
fields of the types. -/
def printLength (predicates : List (List FieldType)) (pc : List UInt8) : Exec ℕ := do
  match ← fetch pc with
  | .returnInstr => return 1
  | .returnLinear => return 1
  | .returnDerived => return 1
  | .endLinear => return 1
  | .resetLinear => advance pc
  | .ifInstr =>
    let _ ← byteGet pc 1
    let _ ← numGet 4 pc 2
    return 6
  | .testNil => printOperands pc 3 [1, 2]
  | .move => printOperands pc 3 [1, 2]
  | .moveNil => printOperands pc 2 [1]
  | .alloc =>
    let _ ← byteGet pc 1
    let _ ← byteGet pc 2
    return 3
  | .op =>
    let _ ← byteGet pc 4
    printOperands pc 5 [1, 2, 3]
  | .float => printOperands pc 3 [1, 2]
  | .send =>
    let _ ← byteGet pc 1
    let _ ← byteGet pc 2
    return 3
  | .iter =>
    let _ ← byteGet pc 1
    let _ ← byteGet pc 2
    let _ ← byteGet pc 3
    let _ ← numGet 4 pc 4
    -- the mark of an empty list is looked at
    return 8 + (← matchesSize valString (pc.drop 8))
  | .next => return 1
  | .call =>
    let _ ← byteGet pc 1
    let _ ← byteGet pc 3
    return 4 + (← argsSize valString 0 (pc.drop 4) (← byteGet pc 2).toNat)
  | .calle =>
    let _ ← byteGet pc 1
    let _ ← byteGet pc 3
    return 4 + (← argsSize valString 0 (pc.drop 4) (← byteGet pc 2).toNat)
  | .delete =>
    let _ ← byteGet pc 1
    return 3 + (← argsSize valString 1 (pc.drop 3) (← byteGet pc 2).toNat)
  | .remove =>
    let _ ← byteGet pc 1
    return 2
  | .cons => printOperands pc 5 [2, 3, 4]
  | .head => printOperands pc 4 [2, 3]
  | .tail => printOperands pc 4 [2, 3]
  | .not => printOperands pc 3 [1, 2]
  | .returnSelect =>
    let _ ← numGet 4 pc 1
    return 5
  | .select =>
    let elems ← numGet 4 pc 5
    let _ ← numGet (4 * elems) pc 9
    let _ ← numGet 4 pc 1
    return 9 + 4 * elems
  | .colocated =>
    let _ ← byteGet pc 3
    printOperands pc 4 [1, 2]
  | .rule =>
    let _ ← numGet 4 pc 1
    return 5
  | .ruleDone => return 1
  | .newNode =>
    let _ ← byteGet pc 1
    return 2
  | .newAxioms =>
    let jump ← numGet 4 pc 1
    return 5 + (← printAxioms predicates pc.length (jump - 5) (pc.drop 5))
  | .sendDelay =>
    let _ ← byteGet pc 1
    let _ ← byteGet pc 2
    let _ ← numGet 4 pc 3
    return 7
  | .push => return 1
  | .pop => return 1
  | .pushRegs => return 1
  | .popRegs => return 1
  | .callf =>
    let _ ← byteGet pc 1
    return 2
  | .elseInstr => .error .thrown

/-! ### Execution -/

/-- The types for which there are `get_op_function` and `set_op_function`. -/
inductive OpType
  | bool | ptr | string
  | item (τ : ItemType)
  | list (τ : ItemType)
  deriving DecidableEq, Repr

/-- The kinds that `get_op_function` takes as a value of the type. -/
def getOpAccepts : OpType → ValKind → Bool
  | .bool, k => decide (k ∈ [ValKind.reg, .field])
  | .ptr, k => decide (k ∈ [ValKind.reg, .field])
  | .item .float, k => decide (k ∈ [ValKind.float, .reg, .field, .const])
  | .item .int, k => decide (k ∈ [ValKind.int, .reg, .field, .const])
  | .item .node, k => decide (k ∈ [ValKind.host, .node, .reg, .field, .const])
  | .list .int, k => decide (k ∈ [ValKind.reg, .field, .nil, .const])
  | .list .float, k => decide (k ∈ [ValKind.reg, .field, .nil, .const])
  | .list .node, k => decide (k ∈ [ValKind.reg, .field, .nil])
  | .string, k => decide (k ∈ [ValKind.reg, .field, .string, .arg, .const])

/-- The kinds of destinations that `set_op_function` has for a value of the type. -/
def setOpAccepts : OpType → ValKind → Bool
  | .bool, k => decide (k = .reg)
  | .item .int, k => decide (k ∈ [ValKind.reg, .field, .stack])
  | .item .float, k => decide (k ∈ [ValKind.reg, .field, .stack])
  | .item .node, k => decide (k ∈ [ValKind.reg, .field])
  | .list _, k => decide (k ∈ [ValKind.reg, .field])
  | .ptr, _ => false
  | .string, _ => false

/-- The types of the arguments and the result of an `instr_op`. -/
def opTypes (op : ℕ) : Option (OpType × OpType) :=
  -- of the operations on numbers, those on floats have even codes
  let number : OpType := if op % 2 = 0 then .item .float else .item .int
  if op < 0x0c then some (number, .bool)
  else if op < 0x16 then some (number, number)
  else if op < 0x19 then some (.item .node, .bool)
  else if op = 0x19 then some (.bool, .bool)
  else none

/-- `get_list_type`. -/
def getListType (b : UInt8) : ItemType :=
  if b = 1 then .float else if b = 2 then .node else .int

/-- The kinds between which `execute_move` moves, by the kind of the destination. -/
def moveAccepts : ValKind → ValKind → Bool
  | .reg, k =>
    decide (k ∈ [ValKind.float, .int, .field, .host, .node, .reg, .tuple, .stack, .ptr])
  | .field, k =>
    decide (k ∈ [ValKind.float, .int, .node, .string, .arg, .stack, .const, .field, .host, .reg])
  | .const, k => decide (k ∈ [ValKind.float, .int, .reg, .node, .string])
  | .stack, k => decide (k ∈ [ValKind.pcounter, .int, .float, .reg, .const])
  | .pcounter, k => decide (k ∈ [ValKind.stack, .ptr])
  | _, _ => false

/-- The values and destinations of `execute_not` and `execute_move_nil`. -/
def regOrField (k : ValKind) : Bool := decide (k = .reg ∨ k = .field)

/-- What a program says about operands: the types of the fields of its predicates, and of the
arguments of external functions. -/
structure Signature where
  predicates : List (List FieldType)
  externals : List (List FieldType)

/-- The type as which an argument or a field is read. -/
def opType : FieldType → OpType
  | .item τ => .item τ
  | .list τ => .list τ
  | .string => .string

/-- A field of a fact has the type; facts have no strings. -/
def fieldHasType : FieldType → AxiomField → Prop
  | .item τ, .item x => x.type = τ
  | .list τ, .list xs => ∀ x ∈ xs, x.type = τ
  | _, _ => False

/-- The facts of a `NEW_AXIOMS_INSTR` have the fields of their predicates. -/
def AxiomsTyped (predicates : List (List FieldType)) (axioms : List Axiom) : Prop :=
  ∀ a ∈ axioms, ∃ types, predicates[predicateGet a.pred]? = some types ∧
    List.Forall₂ fieldHasType types a.fields

namespace Signature

variable (sig : Signature)

/-- `execute_call`, which reads up to three arguments by their types. -/
def callAccepts (id : ℕ) (args : List Val) : Prop :=
  ∃ types, sig.externals[id]? = some types ∧ types.length ≤ 3 ∧
    List.Forall₂ (fun τ v => getOpAccepts (opType τ) (kind v) = true) types args

/-- The field of the predicate is an item, and an operand of this kind is read for it. -/
def fieldAccepts (pred : UInt8) (field : ℕ) (v : Val) : Prop :=
  ∃ types τ, sig.predicates[predicateGet pred]? = some types ∧
    types[field]? = some (.item τ) ∧ getOpAccepts (.item τ) (kind v) = true

/-- The executor does not throw on the kinds of the operands. -/
def Accepts : Head → Prop
  | .instr (.float v dest) =>
    getOpAccepts (.item .int) (kind v) = true ∧ setOpAccepts (.item .float) (kind dest) = true
  | .instr (.op arg1 arg2 dest o) =>
    ∃ args ret, opTypes (o.toNat % 32) = some (args, ret) ∧ getOpAccepts args (kind arg1) = true ∧
      getOpAccepts args (kind arg2) = true ∧ setOpAccepts ret (kind dest) = true
  | .instr (.move src dest) => moveAccepts (kind dest) (kind src) = true
  | .instr (.moveNil dest) => regOrField (kind dest) = true
  | .instr (.call externId _ args) => sig.callAccepts externId.toNat args
  | .instr (.calle externId _ args) => sig.callAccepts (externId.toNat + 38) args
  | .instr (.delete pred args) =>
    args ≠ [] ∧ ∀ (i : ℕ) (arg : UInt8 × Val), args[i]? = some arg →
      arg.1.toNat = i ∧ sig.fieldAccepts pred arg.1.toNat arg.2
  | .instr (.testNil v dest) =>
    getOpAccepts .ptr (kind v) = true ∧ setOpAccepts .bool (kind dest) = true
  | .instr (.cons type x xs dest) =>
    getOpAccepts (.item (getListType type)) (kind x) = true ∧
      getOpAccepts (.list (getListType type)) (kind xs) = true ∧
      setOpAccepts (.list (getListType type)) (kind dest) = true
  | .instr (.head type xs dest) =>
    getOpAccepts (.list (getListType type)) (kind xs) = true ∧
      setOpAccepts (.item (getListType type)) (kind dest) = true
  | .instr (.tail type xs dest) =>
    getOpAccepts (.list (getListType type)) (kind xs) = true ∧
      setOpAccepts (.list (getListType type)) (kind dest) = true
  | .instr (.not v dest) => regOrField (kind v) = true ∧ regOrField (kind dest) = true
  | .instr (.colocated first second _) =>
    getOpAccepts (.item .node) (kind first) = true ∧ getOpAccepts (.item .node) (kind second) = true
  | .instr (.newAxioms axioms) => AxiomsTyped sig.predicates axioms
  | .iter pred _ _ _ ms => ∀ m ∈ ms, sig.fieldAccepts pred m.field.toNat m.val
  | _ => True

end Signature

/-- An operand that is read as a list is a constant. -/
def Head.TakesConstList : Head → Prop
  | .instr (.cons _ _ xs _) | .instr (.head _ xs _) | .instr (.tail _ xs _) => kind xs = .const
  | _ => False

/-! ### Printing goes over every instruction -/

/-- A number at the front is gone over. -/
private theorem skip_num (k n : ℕ) (tail : List UInt8) :
    (do let _ ← numGet k (le k n ++ tail) 0; return k : Exec ℕ) = .ok (le k n).length := by
  have hget : numGet k (le k n ++ tail) 0 = .ok (n % 256 ^ k) := numGet_append k [] rfl n tail
  rw [hget, ok_bind, length_le]
  rfl

/-- `val_string` returns the size of the operand that it prints. -/
theorem measures_valString : Measures valString := by
  intro v tail
  rw [valString, valKind_code]
  cases v with
  | float x => exact skip_num 8 _ _
  | ptr p => exact skip_num 8 _ _
  | int x => exact skip_num 4 _ _
  | node x => exact skip_num 4 _ _
  | string x => exact skip_num 4 _ _
  | const x => exact skip_num 4 _ _
  | _ => rfl

/-- The printer steps over a row of operands. -/
theorem valStrings_bytes (vs : List Val) (tail : List UInt8) :
    valStrings (vs.map (·.code.toNat % 64)) (vs.flatMap Val.bytes ++ tail) =
      .ok (vs.flatMap Val.bytes).length := by
  induction vs with
  | nil => rfl
  | cons v vs ih =>
    rw [List.map_cons, List.flatMap_cons, List.append_assoc, valStrings, measures_valString v _,
      ok_bind, List.drop_left, ih, List.length_append]
    rfl

/-- The operands of an instruction, behind its fixed part. -/
theorem printOperands_bytes {pc : List UInt8} {base : ℕ} {offs : List ℕ} (vs : List Val)
    (hvals : offs.mapM (valGet pc) = .ok (vs.map (·.code.toNat % 64))) {tail : List UInt8}
    (hdrop : pc.drop base = vs.flatMap Val.bytes ++ tail) :
    printOperands pc base offs = .ok (base + (vs.flatMap Val.bytes).length) := by
  rw [printOperands, hvals, ok_bind, hdrop, valStrings_bytes]
  rfl

/-- The printer steps over a scalar. -/
theorem printItem_bytes (x : Item) (tail : List UInt8) :
    printItem x.type (AxiomField.itemBytes x ++ tail) = .ok (AxiomField.itemBytes x).length := by
  cases x with
  | int x => exact skip_num 4 _ _
  | float x => exact skip_num 8 _ _
  | node x => exact skip_num 4 _ _

/-- The printer steps over a list, up to its end. -/
theorem printList_bytes {τ : ItemType} {xs : List Item} (hxs : ∀ x ∈ xs, x.type = τ) {fuel : ℕ}
    (hfuel : xs.length < fuel) (tail : List UInt8) :
    printList τ fuel ((AxiomField.list xs).bytes ++ tail) =
      .ok (AxiomField.list xs).bytes.length := by
  induction xs generalizing fuel with
  | nil =>
    obtain ⟨fuel, rfl⟩ : ∃ n, fuel = n + 1 := ⟨fuel - 1, by simp at hfuel; omega⟩
    rfl
  | cons x xs ih =>
    obtain ⟨fuel, rfl⟩ : ∃ n, fuel = n + 1 := ⟨fuel - 1, by simp at hfuel; omega⟩
    have hbytes : (AxiomField.list (x :: xs)).bytes ++ tail =
        1 :: (AxiomField.itemBytes x ++ ((AxiomField.list xs).bytes ++ tail)) := by
      simp [AxiomField.bytes]
    have hitem := printItem_bytes x ((AxiomField.list xs).bytes ++ tail)
    rw [hxs x List.mem_cons_self] at hitem
    have hdrop : (1 :: (AxiomField.itemBytes x ++ ((AxiomField.list xs).bytes ++ tail))).drop
        (1 + (AxiomField.itemBytes x).length) = (AxiomField.list xs).bytes ++ tail := by
      rw [Nat.add_comm, List.drop_succ_cons, List.drop_left]
    have hlen : (AxiomField.list (x :: xs)).bytes.length =
        1 + (AxiomField.itemBytes x).length + (AxiomField.list xs).bytes.length := by
      simp [AxiomField.bytes]
      omega
    rw [hbytes, printList]
    have hone : byteGet (1 :: (AxiomField.itemBytes x ++ ((AxiomField.list xs).bytes ++ tail))) 0 =
      .ok 1 := rfl
    simp only [hone, ok_bind, if_true, List.drop_succ_cons, List.drop_zero, hitem, hdrop,
      ih (fun y hy => hxs y (List.mem_cons_of_mem x hy)) (Nat.lt_of_succ_lt_succ hfuel),
      pure_eq_ok, hlen]

/-- A list has more bytes than elements. -/
theorem length_lt_bytes (xs : List Item) : xs.length < (AxiomField.list xs).bytes.length := by
  induction xs with
  | nil => exact Nat.zero_lt_one
  | cons x xs ih =>
    simp only [AxiomField.bytes, List.flatMap_cons, List.length_append, List.length_cons] at ih ⊢
    omega

/-- The printer steps over a field of its type. -/
theorem printField_bytes {τ : FieldType} {f : AxiomField} (h : fieldHasType τ f)
    (tail : List UInt8) : printField τ (f.bytes ++ tail) = .ok f.bytes.length := by
  match τ, f, h with
  | .item _, .item x, rfl => exact printItem_bytes x tail
  | .list τ, .list xs, hxs =>
    refine printList_bytes hxs ?_ tail
    rw [List.length_append]
    exact Nat.lt_add_right _ (length_lt_bytes xs)

/-- The printer steps over the fields of a fact. -/
theorem printFields_bytes {types : List FieldType} {fields : List AxiomField}
    (h : List.Forall₂ fieldHasType types fields) (tail : List UInt8) :
    printFields types (fields.flatMap AxiomField.bytes ++ tail) =
      .ok (fields.flatMap AxiomField.bytes).length := by
  induction h with
  | nil => rfl
  | cons hf _ ih =>
    rw [List.flatMap_cons, List.append_assoc, printFields, printField_bytes hf, ok_bind,
      List.drop_left, ih, List.length_append]
    rfl

/-- The printer steps over all facts of the instruction. -/
theorem printAxioms_bytes {predicates : List (List FieldType)} {axioms : List Axiom}
    (h : AxiomsTyped predicates axioms) {fuel : ℕ} (hfuel : axioms.length < fuel)
    (tail : List UInt8) :
    printAxioms predicates fuel (axioms.flatMap Axiom.bytes).length
      (axioms.flatMap Axiom.bytes ++ tail) = .ok (axioms.flatMap Axiom.bytes).length := by
  induction axioms generalizing fuel with
  | nil =>
    obtain ⟨fuel, rfl⟩ : ∃ n, fuel = n + 1 := ⟨fuel - 1, by simp at hfuel; omega⟩
    rfl
  | cons a axioms ih =>
    obtain ⟨fuel, rfl⟩ : ∃ n, fuel = n + 1 := ⟨fuel - 1, by simp at hfuel; omega⟩
    obtain ⟨types, htypes, hfields⟩ := h a List.mem_cons_self
    obtain ⟨rest, hrest⟩ : ∃ rest, rest = axioms.flatMap Axiom.bytes ++ tail := ⟨_, rfl⟩
    have ih := ih (fun b hb => h b (List.mem_cons_of_mem a hb)) (Nat.lt_of_succ_lt_succ hfuel)
    rw [← hrest] at ih
    have hpos : 0 < (a.bytes ++ axioms.flatMap Axiom.bytes).length := by
      simp [Axiom.bytes]
    have hpred : byteGet (a.bytes ++ rest) 0 = .ok a.pred := rfl
    have hbody : (a.bytes ++ rest).drop 1 = a.fields.flatMap AxiomField.bytes ++ rest := rfl
    have hlen : 1 + (a.fields.flatMap AxiomField.bytes).length = a.bytes.length := by
      rw [Axiom.bytes, List.length_cons, Nat.add_comm]
    have hleft : (a.bytes ++ axioms.flatMap Axiom.bytes).length - a.bytes.length =
        (axioms.flatMap Axiom.bytes).length := by
      rw [List.length_append, Nat.add_sub_cancel_left]
    rw [List.flatMap_cons, List.append_assoc, ← hrest, printAxioms, if_pos hpos]
    simp only [hpred, ok_bind, htypes, deref_some, hbody, printFields_bytes hfields rest, hlen,
      hleft, List.drop_left, ih, pure_eq_ok]
    exact congrArg Except.ok List.length_append.symm

/-- The facts of an instruction have the fields of their predicates. -/
def Head.Typed (predicates : List (List FieldType)) : Head → Prop
  | .instr (.newAxioms axioms) => AxiomsTyped predicates axioms
  | _ => True

/-- A number in the fixed part is looked at. -/
private theorem skip_at (pre : List UInt8) {off : ℕ} (h : pre.length = off) (k n m : ℕ)
    (l : List UInt8) :
    (do let _ ← numGet k (pre ++ (le k n ++ l)) off; return m : Exec ℕ) = .ok m := by
  rw [numGet_append k pre h]
  rfl

/-- The instructions whose operands stand behind the fixed part. -/
private theorem print_of {predicates : List (List FieldType)} {h : Head} {tail : List UInt8}
    (base : ℕ) (offs : List ℕ) (vs : List Val)
    (hprint : printLength predicates (h.bytes ++ tail) = printOperands (h.bytes ++ tail) base offs)
    (hvals : offs.mapM (valGet (h.bytes ++ tail)) = .ok (vs.map (·.code.toNat % 64)))
    (hdrop : (h.bytes ++ tail).drop base = vs.flatMap Val.bytes ++ tail)
    (hlen : base + (vs.flatMap Val.bytes).length = h.bytes.length) :
    printLength predicates (h.bytes ++ tail) = .ok h.bytes.length := by
  rw [hprint, printOperands_bytes vs hvals hdrop, hlen]

/-- Printing goes over an instruction as it stands in memory. -/
theorem printLength_head {predicates : List (List FieldType)} {h : Head} (hfits : h.Fits)
    (htyped : h.Typed predicates) (tail : List UInt8) :
    printLength predicates (h.bytes ++ tail) = .ok h.bytes.length := by
  cases h with
  | instr i =>
    cases i with
    | float v dest =>
      exact print_of 3 [1, 2] [v, dest] rfl rfl (by simp [Head.bytes, Instr.bytes])
        (by simp [Head.bytes, Instr.bytes]; omega)
    | op arg1 arg2 dest o =>
      exact print_of 5 [1, 2, 3] [arg1, arg2, dest] rfl rfl (by simp [Head.bytes, Instr.bytes])
        (by simp [Head.bytes, Instr.bytes]; omega)
    | move src dest =>
      exact print_of 3 [1, 2] [src, dest] rfl rfl (by simp [Head.bytes, Instr.bytes])
        (by simp [Head.bytes, Instr.bytes]; omega)
    | moveNil dest =>
      exact print_of 2 [1] [dest] rfl rfl (by simp [Head.bytes, Instr.bytes])
        (by simp [Head.bytes, Instr.bytes]; omega)
    | testNil v dest =>
      exact print_of 3 [1, 2] [v, dest] rfl rfl (by simp [Head.bytes, Instr.bytes])
        (by simp [Head.bytes, Instr.bytes]; omega)
    | cons type x xs dest =>
      exact print_of 5 [2, 3, 4] [x, xs, dest] rfl rfl (by simp [Head.bytes, Instr.bytes])
        (by simp [Head.bytes, Instr.bytes]; omega)
    | head type xs dest =>
      exact print_of 4 [2, 3] [xs, dest] rfl rfl (by simp [Head.bytes, Instr.bytes])
        (by simp [Head.bytes, Instr.bytes]; omega)
    | tail type xs dest =>
      exact print_of 4 [2, 3] [xs, dest] rfl rfl (by simp [Head.bytes, Instr.bytes])
        (by simp [Head.bytes, Instr.bytes]; omega)
    | not v dest =>
      exact print_of 3 [1, 2] [v, dest] rfl rfl (by simp [Head.bytes, Instr.bytes])
        (by simp [Head.bytes, Instr.bytes]; omega)
    | colocated first second dest =>
      exact print_of 4 [1, 2] [first, second] rfl rfl (by simp [Head.bytes, Instr.bytes])
        (by simp [Head.bytes, Instr.bytes]; omega)
    | call externId dest args =>
      have hnum : (UInt8.ofNat args.length).toNat = args.length := UInt8.toNat_ofNat_of_lt' hfits
      have hprint : printLength predicates ((Head.instr (.call externId dest args)).bytes ++ tail) =
          do return 4 + (← argsSize valString 0 (args.flatMap Instr.argBytes ++ tail)
            (UInt8.ofNat args.length).toNat) := rfl
      rw [hprint, hnum, argsSize_call measures_valString]
      simp [Head.bytes, Instr.bytes]
      omega
    | calle externId dest args =>
      have hnum : (UInt8.ofNat args.length).toNat = args.length := UInt8.toNat_ofNat_of_lt' hfits
      have hprint : printLength predicates ((Head.instr (.calle externId dest args)).bytes ++ tail) =
          do return 4 + (← argsSize valString 0 (args.flatMap Instr.argBytes ++ tail)
            (UInt8.ofNat args.length).toNat) := rfl
      rw [hprint, hnum, argsSize_call measures_valString]
      simp [Head.bytes, Instr.bytes]
      omega
    | delete pred args =>
      have hnum : (UInt8.ofNat args.length).toNat = args.length := UInt8.toNat_ofNat_of_lt' hfits
      have hprint : printLength predicates ((Head.instr (.delete pred args)).bytes ++ tail) = do
          return 3 + (← argsSize valString 1
            (args.flatMap (fun arg => arg.1 :: Instr.argBytes arg.2) ++ tail)
            (UInt8.ofNat args.length).toNat) := rfl
      rw [hprint, hnum, argsSize_delete measures_valString]
      simp [Head.bytes, Instr.bytes]
      omega
    | newAxioms axioms =>
      have hnum : 5 + (axioms.flatMap Axiom.bytes).length < 256 ^ 4 := hfits
      have hlen : (Head.instr (.newAxioms axioms)).bytes.length =
          5 + (axioms.flatMap Axiom.bytes).length := by
        simp [Head.bytes, Instr.bytes]
        omega
      obtain ⟨pc, hpc⟩ : ∃ pc, pc = (Head.instr (.newAxioms axioms)).bytes ++ tail := ⟨_, rfl⟩
      have hprint : printLength predicates pc = do
          let jump ← numGet 4 pc 1
          return 5 + (← printAxioms predicates pc.length (jump - 5) (pc.drop 5)) := by
        rw [hpc]
        rfl
      have hjump : numGet 4 pc 1 = .ok (5 + (axioms.flatMap Axiom.bytes).length) := by
        have hget := numGet_append 4 [0x14] rfl (5 + (axioms.flatMap Axiom.bytes).length)
          (axioms.flatMap Axiom.bytes ++ tail)
        rw [Nat.mod_eq_of_lt hnum] at hget
        rw [hpc]
        simpa [Head.bytes, Instr.bytes] using hget
      have hdrop : pc.drop 5 = axioms.flatMap Axiom.bytes ++ tail := by
        rw [hpc]
        simp [Head.bytes, Instr.bytes]
      have hfuel : axioms.length < pc.length := by
        have hle : axioms.length ≤ (axioms.flatMap Axiom.bytes).length := by
          clear * -
          induction axioms with
          | nil => exact Nat.zero_le _
          | cons a axioms ih =>
            rw [List.flatMap_cons, List.length_append, List.length_cons, Axiom.bytes,
              List.length_cons]
            omega
        rw [hpc, List.length_append, hlen]
        omega
      rw [← hpc, hprint, hjump, ok_bind, Nat.add_sub_cancel_left, hdrop,
        printAxioms_bytes htyped hfuel, ok_bind, hlen]
      rfl
    | rule id => exact skip_at [0x10] rfl 4 id.toNat 5 tail
    | sendDelay msg dest time => exact skip_at [0x15, msg, dest] rfl 4 time.toNat 7 tail
    | _ => rfl
  | ifReg reg jump => exact skip_at [0x60, reg] rfl 4 jump.toNat 6 tail
  | iter pred options argument jump ms =>
    have hget : numGet 4 ((Head.iter pred options argument jump ms).bytes ++ tail) 4 =
        .ok (jump.toNat % 256 ^ 4) :=
      numGet_append 4 [0xa0, pred, options, argument] rfl jump.toNat (matchBytes ms ++ tail)
    have hprint : printLength predicates ((Head.iter pred options argument jump ms).bytes ++ tail) =
        do let _ ← numGet 4 ((Head.iter pred options argument jump ms).bytes ++ tail) 4
           return 8 + (← matchesSize valString (matchBytes ms ++ tail)) := rfl
    rw [hprint, hget, ok_bind, matchesSize_bytes measures_valString]
    simp [Head.bytes]
    omega
  | resetLinear jump =>
    have hprint : printLength predicates ((Head.resetLinear jump).bytes ++ tail) =
      advance ((Head.resetLinear jump).bytes ++ tail) := rfl
    rw [hprint, advance_head hfits, if_pos]
    exact List.forall_mem_nil _
  | endLinear => rfl
  | select size table =>
    have hnum : table.length < 256 ^ 4 := hfits
    obtain ⟨entries, hentries⟩ : ∃ l, l = table.flatMap fun e => le 4 e.toNat := ⟨_, rfl⟩
    have hlen : entries.length = 4 * table.length := by
      rw [hentries, List.length_flatMap]
      simp [Nat.mul_comm]
    have hbytes : (Head.select size table).bytes ++ tail =
        [0x0a] ++ le 4 size.toNat ++ (le 4 table.length ++ (entries ++ tail)) := by
      simp [Head.bytes, hentries]
    have hsize : (Head.select size table).bytes.length = 9 + 4 * table.length := by
      simp [Head.bytes, ← hentries, hlen]
      omega
    have helems : numGet 4 ((Head.select size table).bytes ++ tail) 5 = .ok table.length := by
      rw [hbytes, numGet_append 4 _ (by simp), Nat.mod_eq_of_lt hnum]
    have htable : ∃ n, numGet (4 * table.length) ((Head.select size table).bytes ++ tail) 9 =
        .ok n := by
      refine ⟨_, if_pos ?_⟩
      rw [List.length_append, hsize]
      omega
    have hjump : numGet 4 ((Head.select size table).bytes ++ tail) 1 =
        .ok (size.toNat % 256 ^ 4) := by
      rw [hbytes, List.append_assoc]
      exact numGet_append 4 [0x0a] rfl _ _
    obtain ⟨n, htable⟩ := htable
    have hprint : printLength predicates ((Head.select size table).bytes ++ tail) = do
        let elems ← numGet 4 ((Head.select size table).bytes ++ tail) 5
        let _ ← numGet (4 * elems) ((Head.select size table).bytes ++ tail) 9
        let _ ← numGet 4 ((Head.select size table).bytes ++ tail) 1
        return 9 + 4 * elems := by
      rw [hbytes]
      rfl
    rw [hprint, helems, ok_bind, htable, ok_bind, hjump, ok_bind, hsize]
    rfl
  | returnSelect jump => exact skip_at [0x0b] rfl 4 jump.toNat 5 tail

/-! ### The kinds that execution takes -/

/-- What `set_op` writes to is writable for `advance`. -/
theorem writable_of_setOp {T : OpType} {k : ValKind} (h : setOpAccepts T k = true) :
    ArgumentType.writable.has k = true := by
  rcases T with _ | _ | _ | τ | τ
  · cases k <;> first | rfl | cases h
  · cases h
  · cases h
  · rcases τ with _ | _ | _ <;> cases k <;> first | rfl | cases h
  · cases k <;> first | rfl | cases h

/-- What a MOVE accepts has operands that `advance` accepts. -/
theorem move_has {k d : ValKind} (h : moveAccepts d k = true) :
    ArgumentType.anythingNotNil.has k = true ∧ ArgumentType.writable.has d = true := by
  cases d <;> cases k <;> first | exact ⟨rfl, rfl⟩ | cases h

/-- A register or a field is a boolean operand and writable. -/
theorem has_of_regOrField {k : ValKind} (h : regOrField k = true) :
    ArgumentType.bool.has k = true ∧ ArgumentType.writable.has k = true := by
  rcases of_decide_eq_true h with rfl | rfl
  · exact ⟨rfl, rfl⟩
  · exact ⟨rfl, rfl⟩

/-- An integer operand of the interpreter is one for `advance`. -/
theorem int_of_getOp {k : ValKind} (h : getOpAccepts (.item .int) k = true) :
    ArgumentType.int.has k = true := by
  cases k <;> first | rfl | cases h

/-- So is a node operand. -/
theorem node_of_getOp {k : ValKind} (h : getOpAccepts (.item .node) k = true) :
    ArgumentType.node.has k = true := by
  cases k <;> first | rfl | cases h

/-- So is the operand of a scalar. -/
theorem nonList_of_getOp {τ : ItemType} {k : ValKind} (h : getOpAccepts (.item τ) k = true) :
    ArgumentType.nonList.has k = true := by
  cases τ <;> cases k <;> first | rfl | cases h

/-- So is the operand of a pointer. -/
theorem list_of_ptr {k : ValKind} (h : getOpAccepts .ptr k = true) :
    ArgumentType.list.has k = true := by
  cases k <;> first | rfl | cases h

/-- A list is taken from a constant, for which there is no size, or has a size. -/
theorem list_of_getOp {τ : ItemType} {k : ValKind} (h : getOpAccepts (.list τ) k = true) :
    ArgumentType.list.has k = true ↔ k ≠ .const := by
  cases τ <;> cases k <;> first | decide | cases h

/-- Instructions that read no list. -/
private theorem sized_iff_of {h : Head} (hsized : h.Sized) (hlist : ¬h.TakesConstList) :
    h.Sized ↔ ¬h.TakesConstList := ⟨fun _ => hlist, fun _ => hsized⟩

/-- What execution accepts has a size, unless it is a constant that is read as a list. -/
theorem sized_iff {sig : Signature} {h : Head} (hacc : sig.Accepts h) :
    h.Sized ↔ ¬h.TakesConstList := by
  cases h with
  | instr i =>
    cases i with
    | float v dest =>
      refine sized_iff_of ?_ id
      simp only [Head.Sized, Head.operands, List.forall_mem_cons]
      exact ⟨int_of_getOp hacc.1, writable_of_setOp hacc.2, List.forall_mem_nil _⟩
    | op arg1 arg2 dest o =>
      obtain ⟨args, ret, -, -, -, hdest⟩ := hacc
      refine sized_iff_of ?_ id
      simp only [Head.Sized, Head.operands, List.forall_mem_cons]
      exact ⟨rfl, rfl, writable_of_setOp hdest, List.forall_mem_nil _⟩
    | move src dest =>
      refine sized_iff_of ?_ id
      simp only [Head.Sized, Head.operands, List.forall_mem_cons]
      exact ⟨(move_has hacc).1, (move_has hacc).2, List.forall_mem_nil _⟩
    | moveNil dest =>
      refine sized_iff_of ?_ id
      simp only [Head.Sized, Head.operands, List.forall_mem_cons]
      exact ⟨(has_of_regOrField hacc).2, List.forall_mem_nil _⟩
    | testNil v dest =>
      refine sized_iff_of ?_ id
      simp only [Head.Sized, Head.operands, List.forall_mem_cons]
      exact ⟨list_of_ptr hacc.1, writable_of_setOp hacc.2, List.forall_mem_nil _⟩
    -- a list operand is the only one of an instruction that `advance` may not take
    | cons type x xs dest =>
      obtain ⟨hx, hxs, hdest⟩ := hacc
      simp only [Head.Sized, Head.operands, List.forall_mem_cons, Head.TakesConstList,
        ← list_of_getOp hxs]
      constructor
      · rintro ⟨-, hlist, -⟩
        exact hlist
      · intro hlist
        exact ⟨nonList_of_getOp hx, hlist, writable_of_setOp hdest, List.forall_mem_nil _⟩
    | head type xs dest =>
      obtain ⟨hxs, hdest⟩ := hacc
      simp only [Head.Sized, Head.operands, List.forall_mem_cons, Head.TakesConstList,
        ← list_of_getOp hxs]
      constructor
      · rintro ⟨hlist, -⟩
        exact hlist
      · intro hlist
        exact ⟨hlist, writable_of_setOp hdest, List.forall_mem_nil _⟩
    | tail type xs dest =>
      obtain ⟨hxs, hdest⟩ := hacc
      simp only [Head.Sized, Head.operands, List.forall_mem_cons, Head.TakesConstList,
        ← list_of_getOp hxs]
      constructor
      · rintro ⟨hlist, -⟩
        exact hlist
      · intro hlist
        exact ⟨hlist, writable_of_setOp hdest, List.forall_mem_nil _⟩
    | not v dest =>
      refine sized_iff_of ?_ id
      simp only [Head.Sized, Head.operands, List.forall_mem_cons]
      exact ⟨(has_of_regOrField hacc.1).1, (has_of_regOrField hacc.2).2, List.forall_mem_nil _⟩
    | colocated first second dest =>
      refine sized_iff_of ?_ id
      simp only [Head.Sized, Head.operands, List.forall_mem_cons]
      exact ⟨node_of_getOp hacc.1, node_of_getOp hacc.2, List.forall_mem_nil _⟩
    | call externId dest args =>
      exact sized_iff_of (List.forall_mem_map.mpr fun _ _ => rfl) id
    | calle externId dest args =>
      exact sized_iff_of (List.forall_mem_map.mpr fun _ _ => rfl) id
    | delete pred args => exact sized_iff_of (List.forall_mem_map.mpr fun _ _ => rfl) id
    | _ => exact sized_iff_of (List.forall_mem_nil _) id
  | iter pred options argument jump ms =>
    exact sized_iff_of (List.forall_mem_map.mpr fun _ _ => rfl) id
  | _ => exact sized_iff_of (List.forall_mem_nil _) id

/-- An instruction that the interpreter accepts has fields of its predicates' types. -/
theorem typed_of_accepts {sig : Signature} {h : Head} (hacc : sig.Accepts h) :
    h.Typed sig.predicates := by
  cases h with
  | instr i =>
    cases i with
    | newAxioms axioms => exact hacc
    | _ => trivial
  | _ => trivial

/-- The decoders step over the same bytes, for the instructions that execution accepts, exactly when
no constant is read as a list. -/
theorem decoders_agree_iff (sig : Signature) (h : Head) (hfits : h.Fits) (hacc : sig.Accepts h)
    (tail : List UInt8) :
    (∃ n, advance (h.bytes ++ tail) = .ok n ∧
      printLength sig.predicates (h.bytes ++ tail) = .ok n) ↔ ¬h.TakesConstList := by
  rw [← sized_iff hacc, advance_head hfits, printLength_head hfits (typed_of_accepts hacc)]
  constructor
  · rintro ⟨n, hadvance, -⟩
    by_contra hsized
    rw [if_neg hsized] at hadvance
    cases hadvance
  · intro hsized
    exact ⟨_, if_pos hsized, rfl⟩

theorem decoders_agree_move :
    (∃ n, advance ((Head.instr (.move (.int 5) (.reg 1))).bytes ++ []) = .ok n ∧
      printLength [] ((Head.instr (.move (.int 5) (.reg 1))).bytes ++ []) = .ok n) ↔
      ¬(Head.instr (.move (.int 5) (.reg 1))).TakesConstList :=
  decoders_agree_iff ⟨[], []⟩ (.instr (.move (.int 5) (.reg 1))) trivial rfl []

/-- The head of a constant: `execute_head` takes it, and `advance` throws. -/
theorem not_decoders_agree : Signature.Accepts ⟨[], []⟩ (.instr (.head 0 (.const 0) (.reg 0))) ∧
    ¬∃ n, advance ((Head.instr (.head 0 (.const 0) (.reg 0))).bytes ++ []) = .ok n := by
  refine ⟨⟨rfl, rfl⟩, ?_⟩
  rintro ⟨n, hn⟩
  cases hn

end Meld.Vm.Bytecode
