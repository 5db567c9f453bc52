import Meld.Vm.Advance

/-!
# What operands refer to

The registers, the fields of tuples, the stack slots and the constants are words of 64 bits, unions
of an integer, a float, a node and a pointer. An integer or a node is written to the low half of a
word, a float or a pointer to all of it (`Datum`). `State.cell` is the word at a place; the writes
of `state`, `tuple` and `all` change the word at one place and no other (`Wrote`).
-/

namespace Meld.Vm.Bytecode

open Lib Lib.Bytes Linker

/-! ### Words -/

/-- A word after a write to its low half. -/
def withLow (w : UInt64) (x : UInt32) : UInt64 :=
  .ofNat (w.toNat / 2 ^ 32 * 2 ^ 32 + x.toNat)

/-- The lower half of a word is read back as it was written. -/
theorem withLow_toUInt32 (w : UInt64) (x : UInt32) : (withLow w x).toUInt32 = x := by
  have hx : x.toNat < 2 ^ 32 := x.toNat_lt
  have hw : w.toNat < 2 ^ 64 := w.toNat_lt
  have hfit : w.toNat / 2 ^ 32 * 2 ^ 32 + x.toNat < UInt64.size := by
    simp only [UInt64.size]
    omega
  apply UInt32.toNat_inj.mp
  rw [UInt64.toNat_toUInt32, withLow, UInt64.toNat_ofNat_of_lt' hfit]
  omega

/-- What is read from a word or written to it. -/
inductive Datum
  | low (x : UInt32)
  | word (x : UInt64)
  deriving DecidableEq, Repr

namespace Datum

/-- The word after the write. -/
def write (w : UInt64) : Datum → UInt64
  | .low x => withLow w x
  | .word x => x

/-- The word holds the datum. -/
def In (w : UInt64) : Datum → Prop
  | .low x => w.toUInt32 = x
  | .word x => w = x

/-- A register or a field holds the datum that was written to it. -/
theorem in_write (d : Datum) (w : UInt64) : d.In (d.write w) := by
  cases d with
  | low x => exact withLow_toUInt32 w x
  | word x => rfl

/-- `get_int`, `get_float` and the like, of a field of the type. -/
def read : FieldType → UInt64 → Datum
  | .item .int, w | .item .node, w => .low w.toUInt32
  | .item .float, w | .list _, w | .string, w => .word w

end Datum

/-! ### The state of the machine -/

/-- A tuple in memory. -/
structure RawTuple where
  types : List FieldType
  fields : List UInt64
  length_eq : fields.length = types.length

namespace RawTuple

/-- `get_field`. -/
def getField (t : RawTuple) (field : ℕ) : Exec UInt64 := deref t.fields[field]?

/-- `get_field_type`. -/
def getFieldType (t : RawTuple) (field : ℕ) : Exec FieldType := deref t.types[field]?

/-- A field after a write. -/
def set (t : RawTuple) (field : ℕ) (w : UInt64) : RawTuple :=
  ⟨t.types, t.fields.set field w, by rw [List.length_set, t.length_eq]⟩

end RawTuple

/-- `state`, as far as operands refer to it. -/
structure State where
  regs : Fin 32 → UInt64
  isLeaf : Fin 32 → Bool
  savedLeafs : Fin 32 → UInt64
  savedStuples : Fin 32 → UInt64
  /-- the slots of the stack, the last first -/
  stack : List UInt64
  consts : List UInt64
  /-- the tuples in memory, at their addresses -/
  tuples : UInt64 → Option RawTuple
  tuple : UInt64
  tupleLeaf : UInt64
  tupleQueue : UInt64
  /-- the id of `node` -/
  nodeId : UInt32
  /-- `max_id` of the database -/
  maxId : UInt32
  /-- the addresses of the strings of the program -/
  defaultStrings : List UInt64
  /-- the addresses of the strings that `get_argument` makes of the arguments -/
  argumentStrings : List UInt64
  deriving Inhabited

namespace State

variable (s : State)

/-- `get_tuple`. -/
def getTuple (r : Fin 32) : Exec RawTuple := deref (s.tuples (s.regs r))

/-- A write to a register. -/
def setReg (r : Fin 32) (d : Datum) : State :=
  { s with regs := Function.update s.regs r (d.write (s.regs r)) }

/-- `set_int`. -/
def setInt (r : Fin 32) (x : UInt32) : State := s.setReg r (.low x)

/-- `set_node`. -/
def setNode (r : Fin 32) (x : UInt32) : State := s.setReg r (.low x)

/-- `set_float`. -/
def setFloat (r : Fin 32) (x : UInt64) : State := s.setReg r (.word x)

/-- `set_ptr`, and `set_string`, `set_int_list` and the like, which call it. -/
def setPtr (r : Fin 32) (x : UInt64) : State := s.setReg r (.word x)

/-- `copy_reg`. -/
def copyReg (src dest : Fin 32) : State := s.setReg dest (.word (s.regs src))

/-- `set_leaf`. -/
def setLeaf (r : Fin 32) (leaf : UInt64) : State :=
  { s with
    isLeaf := Function.update s.isLeaf r true
    savedLeafs := Function.update s.savedLeafs r leaf }

/-- `set_tuple_queue`. -/
def setTupleQueue (r : Fin 32) (stpl : UInt64) : State :=
  { s with
    isLeaf := Function.update s.isLeaf r false
    savedStuples := Function.update s.savedStuples r stpl }

/-- A write to a field of the tuple in a register. -/
def setField (r : Fin 32) (field : ℕ) (d : Datum) : Exec State := do
  let t ← s.getTuple r
  let w ← t.getField field
  return { s with
    tuples := Function.update s.tuples (s.regs r) (some (t.set field (d.write w))) }

/-- `get_stack_at`, for a read. -/
def getStackAt (off : ℕ) : Exec UInt64 := deref s.stack[off]?

/-- `get_stack_at`, for a write. -/
def setStackAt (off : ℕ) (d : Datum) : Exec State := do
  let w ← s.getStackAt off
  return { s with stack := s.stack.set off (d.write w) }

/-- `get_const`. -/
def getConst (id : ℕ) : Exec UInt64 := deref s.consts[id]?

/-- `set_const`, `set_const_int` and the like. -/
def setConst (id : ℕ) (d : Datum) : Exec State := do
  let w ← s.getConst id
  return { s with consts := s.consts.set id (d.write w) }

/-- `get_default_string`. -/
def getDefaultString (id : ℕ) : Exec UInt64 := do
  assert (id < s.defaultStrings.length)
  deref s.defaultStrings[id]?

/-- `get_argument`, which counts from one. -/
def getArgument (id : ℕ) : Exec UInt64 := do
  assert (id ≤ s.argumentStrings.length)
  if id = 0 then .error .dangling else deref s.argumentStrings[id - 1]?

end State

/-! ### Reading operands -/

/-- `pcounter_int`, `pcounter_uint` and `pcounter_const_id`. -/
def pcounterInt (m : List UInt8) : Exec UInt32 := do return .ofNat (← numGet 4 m 0)

/-- `pcounter_float` and `pcounter_ptr`. -/
def pcounterFloat (m : List UInt8) : Exec UInt64 := do return .ofNat (← numGet 8 m 0)

/-- `pcounter_offset_num` and `pcounter_argument_id`. -/
def pcounterOffsetNum (m : List UInt8) : Exec ℕ := do return (← byteGet m 0).toNat

/-- `val_reg`. -/
def valReg (v : ℕ) : Fin 32 := Fin.ofNat 32 v

/-- `val_field_num`. -/
def valFieldNum (m : List UInt8) : Exec ℕ := do return (← byteGet m 0).toNat

/-- `val_field_reg`. -/
def valFieldReg (m : List UInt8) : Exec (Fin 32) := do return valReg (← byteGet m 1).toNat

/-- `get_node_val`, with the check of the node. -/
def getNodeVal (m : List UInt8) (s : State) : Exec UInt32 := do
  let node ← pcounterInt m
  assert (node ≤ s.maxId)
  return node

section

variable (l : List UInt8)

/-- An int operand is read back from its four bytes. -/
@[simp] theorem pcounterInt_le (x : UInt32) : pcounterInt (le 4 x.toNat ++ l) = .ok x := by
  have hget : numGet 4 (le 4 x.toNat ++ l) 0 = .ok (x.toNat % 256 ^ 4) :=
    numGet_append 4 [] rfl x.toNat l
  have hx : x.toNat < 256 ^ 4 := x.toNat_lt
  rw [pcounterInt, hget, Nat.mod_eq_of_lt hx, ok_bind, UInt32.ofNat_toNat]
  rfl

/-- A float operand is read back from its eight bytes. -/
@[simp] theorem pcounterFloat_le (x : UInt64) : pcounterFloat (le 8 x.toNat ++ l) = .ok x := by
  have hget : numGet 8 (le 8 x.toNat ++ l) 0 = .ok (x.toNat % 256 ^ 8) :=
    numGet_append 8 [] rfl x.toNat l
  have hx : x.toNat < 256 ^ 8 := x.toNat_lt
  rw [pcounterFloat, hget, Nat.mod_eq_of_lt hx, ok_bind, UInt64.ofNat_toNat]
  rfl

/-- The bytes behind a number. -/
theorem drop_le (k n : ℕ) : (le k n ++ l).drop k = l :=
  List.drop_left' (length_le k n)

/-- The bytes behind one byte. -/
theorem drop_one (a : UInt8) : ([a] ++ l).drop 1 = l := rfl

theorem drop_two (a b : UInt8) : ([a, b] ++ l).drop 2 = l := rfl

/-- The first byte of a field operand is the number of the field. -/
theorem valFieldNum_bytes (num reg : UInt8) :
    valFieldNum ([num, reg] ++ l) = .ok num.toNat := rfl

/-- The second byte of a field operand is the register that has the tuple. -/
theorem valFieldReg_bytes (num reg : UInt8) :
    valFieldReg ([num, reg] ++ l) = .ok (valReg reg.toNat) := rfl

/-- An offset on the stack has one byte. -/
theorem pcounterOffsetNum_bytes (off : UInt8) :
    pcounterOffsetNum ([off] ++ l) = .ok off.toNat := rfl

/-- The code of a register operand has the number of the register in its lower bits. -/
theorem valReg_code (n : UInt8) : valReg ((Val.code (.reg n)).toNat % 64) = valReg n.toNat := by
  apply Fin.ext
  change (Val.code (.reg n)).toNat % 64 % 32 = n.toNat % 32
  rw [toNat_code_reg]
  omega

end

/-! ### Places -/

/-- Where a word is. -/
inductive Place
  | reg (r : Fin 32)
  | field (tuple : UInt64) (field : ℕ)
  | stack (off : ℕ)
  | const (id : ℕ)
  deriving DecidableEq

/-- The word at a place, if there is one. -/
def State.cell (s : State) : Place → Option UInt64
  | .reg r => some (s.regs r)
  | .field p i => (s.tuples p).bind (·.fields[i]?)
  | .stack off => s.stack[off]?
  | .const id => s.consts[id]?

/-- The datum was written to the place, and nothing else was. -/
structure Wrote (s t : State) (p : Place) (d : Datum) : Prop where
  holds : ∃ w, t.cell p = some w ∧ d.In w
  frame : ∀ q, q ≠ p → t.cell q = s.cell q

variable {s t : State} {r : Fin 32} {i : ℕ} {d : Datum}

/-- `set_reg` makes the register hold the datum, and leaves the rest. -/
theorem wrote_setReg (s : State) (r : Fin 32) (d : Datum) : Wrote s (s.setReg r d) (.reg r) d where
  holds := ⟨d.write (s.regs r), congrArg some (Function.update_self ..), d.in_write _⟩
  frame q hq := by
    cases q with
    | reg r' =>
      have hr : r' ≠ r := fun h => hq (congrArg Place.reg h)
      exact congrArg some (Function.update_of_ne hr ..)
    | _ => rfl

/-- A field that is set holds the datum. -/
theorem wrote_setField (h : s.setField r i d = .ok t) : Wrote s t (.field (s.regs r) i) d := by
  obtain ⟨tpl, htpl, h⟩ := bind_eq_ok.mp h
  obtain ⟨w, hw, h⟩ := bind_eq_ok.mp h
  rw [RawTuple.getField, deref_eq_ok] at hw
  cases h
  refine ⟨⟨d.write w, ?_, d.in_write w⟩, fun q hq => ?_⟩
  · have hlt := (List.getElem?_eq_some_iff.mp hw).1
    simp only [State.cell, Function.update_self, Option.bind_some, RawTuple.set,
      List.getElem?_set_self hlt]
  · cases q with
    | field p j =>
      by_cases hp : p = s.regs r
      · subst hp
        have hj : i ≠ j := fun h => hq (congrArg (Place.field _) h.symm)
        rw [State.getTuple, deref_eq_ok] at htpl
        simp only [State.cell, Function.update_self, htpl, Option.bind_some, RawTuple.set,
          List.getElem?_set_ne hj]
      · simp only [State.cell, Function.update_of_ne hp]
    | _ => rfl

/-- A place of the stack that is set holds the datum. -/
theorem wrote_setStackAt (h : s.setStackAt i d = .ok t) : Wrote s t (.stack i) d := by
  obtain ⟨w, hw, h⟩ := bind_eq_ok.mp h
  rw [State.getStackAt, deref_eq_ok] at hw
  cases h
  refine ⟨⟨d.write w, List.getElem?_set_self (List.getElem?_eq_some_iff.mp hw).1, d.in_write w⟩,
    fun q hq => ?_⟩
  cases q with
  | stack j => exact List.getElem?_set_ne fun h => hq (congrArg Place.stack h.symm)
  | _ => rfl

/-- A constant that is set holds the datum. -/
theorem wrote_setConst (h : s.setConst i d = .ok t) : Wrote s t (.const i) d := by
  obtain ⟨w, hw, h⟩ := bind_eq_ok.mp h
  rw [State.getConst, deref_eq_ok] at hw
  cases h
  refine ⟨⟨d.write w, List.getElem?_set_self (List.getElem?_eq_some_iff.mp hw).1, d.in_write w⟩,
    fun q hq => ?_⟩
  cases q with
  | const j => exact List.getElem?_set_ne fun h => hq (congrArg Place.const h.symm)
  | _ => rfl

end Meld.Vm.Bytecode
