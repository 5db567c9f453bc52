import Meld.Vm.Operands

/-!
# Moves

`execute_move` has a function for each kind of destination, and each of them a branch for every kind
of source that it takes. What a source denotes does not depend on the branch: `State.denotes` says
it once. A move writes what its source denotes to its destination and nothing else, and reads what
`advance` goes over (`Transferred`), with one exception: a pointer that is moved to a register is
written to register 11, which is the code of pointers, whatever the register is (`transferred_iff`).
-/

namespace Meld.Vm.Bytecode

open Lib Lib.Bytes Linker

/-! ### The source -/

/-- `move_to_reg`. -/
def moveToReg (m : List UInt8) (s : State) (reg : Fin 32) (src : ℕ) : Exec State := do
  match valKind src with
  | some .float => return s.setFloat reg (← pcounterFloat m)
  | some .int => return s.setInt reg (← pcounterInt m)
  | some .field =>
    let field ← valFieldNum m
    let t ← s.getTuple (← valFieldReg m)
    let type ← t.getFieldType field
    return s.setReg reg (.read type (← t.getField field))
  | some .host => return s.setNode reg s.nodeId
  | some .node => return s.setNode reg (← pcounterInt m)
  | some .reg => return s.copyReg (valReg src) reg
  | some .tuple =>
    assert (¬(s.tupleLeaf ≠ 0 ∧ s.tupleQueue ≠ 0))
    if s.tupleLeaf ≠ 0 then return (s.setLeaf reg s.tupleLeaf).setPtr reg s.tuple
    if s.tupleQueue ≠ 0 then return (s.setTupleQueue reg s.tupleQueue).setPtr reg s.tuple
    return s.setPtr reg s.tuple
  | some .stack =>
    let off ← pcounterOffsetNum m
    return s.setReg reg (.word (← s.getStackAt off))
  | some .ptr =>
    -- the register is that of the source
    return s.setPtr (valReg src) (← pcounterFloat m)
  | _ => .error .thrown

/-- `move_to_field`. -/
def moveToField (m : List UInt8) (s : State) (src : ℕ) : Exec State := do
  match valKind src with
  | some .float =>
    let flt ← pcounterFloat m
    let m := m.drop 8
    s.setField (← valFieldReg m) (← valFieldNum m) (.word flt)
  | some .int =>
    let i ← pcounterInt m
    let m := m.drop 4
    s.setField (← valFieldReg m) (← valFieldNum m) (.low i)
  | some .node =>
    let val ← getNodeVal m s
    let m := m.drop 4
    s.setField (← valFieldReg m) (← valFieldNum m) (.low val)
  | some .string =>
    let id ← pcounterInt m
    let m := m.drop 4
    s.setField (← valFieldReg m) (← valFieldNum m) (.word (← s.getDefaultString id.toNat))
  | some .arg =>
    let id ← pcounterOffsetNum m
    let m := m.drop 1
    s.setField (← valFieldReg m) (← valFieldNum m) (.word (← s.getArgument id))
  | some .stack =>
    let off ← pcounterOffsetNum m
    let m := m.drop 1
    s.setField (← valFieldReg m) (← valFieldNum m) (.word (← s.getStackAt off))
  | some .const =>
    let cid ← pcounterInt m
    let m := m.drop 4
    let reg ← valFieldReg m
    let field ← valFieldNum m
    let t ← s.getTuple reg
    let type ← t.getFieldType field
    if type ∈ [.item .int, .item .float, .list .int, .list .float, .item .node] then
      s.setField reg field (.read type (← s.getConst cid.toNat))
    else .error .thrown
  | some .field =>
    let t ← s.getTuple (← valFieldReg m)
    let field ← valFieldNum m
    let m := m.drop 2
    let toReg ← valFieldReg m
    let toTuple ← s.getTuple toReg
    let toField ← valFieldNum m
    let type ← toTuple.getFieldType toField
    s.setField toReg toField (.read type (← t.getField field))
  | some .host => s.setField (← valFieldReg m) (← valFieldNum m) (.low s.nodeId)
  | some .reg =>
    let reg ← valFieldReg m
    let field ← valFieldNum m
    let t ← s.getTuple reg
    let type ← t.getFieldType field
    s.setField reg field (.read type (s.regs (valReg src)))
  | _ => .error .thrown

/-- `move_to_stack`. -/
def moveToStack (code : List UInt8) (pc : UInt64) (m : List UInt8) (s : State) (src : ℕ) :
    Exec State := do
  match valKind src with
  | some .pcounter =>
    let off ← pcounterOffsetNum m
    s.setStackAt off (.word (pc + .ofNat (← advance code)))
  | some .int =>
    let i ← pcounterInt m
    s.setStackAt (← pcounterOffsetNum (m.drop 4)) (.low i)
  | some .float =>
    let flt ← pcounterFloat m
    s.setStackAt (← pcounterOffsetNum (m.drop 8)) (.word flt)
  | some .reg => s.setStackAt (← pcounterOffsetNum m) (.word (s.regs (valReg src)))
  | some .const =>
    let cid ← pcounterInt m
    s.setStackAt (← pcounterOffsetNum (m.drop 4)) (.word (← s.getConst cid.toNat))
  | _ => .error .thrown

/-- `move_to_const`. -/
def moveToConst (m : List UInt8) (s : State) (src : ℕ) : Exec State := do
  match valKind src with
  | some .float =>
    let flt ← pcounterFloat m
    s.setConst (← pcounterInt (m.drop 8)).toNat (.word flt)
  | some .int =>
    let i ← pcounterInt m
    s.setConst (← pcounterInt (m.drop 4)).toNat (.low i)
  | some .reg => s.setConst (← pcounterInt m).toNat (.word (s.regs (valReg src)))
  | some .node =>
    let node ← getNodeVal m s
    s.setConst (← pcounterInt (m.drop 4)).toNat (.low node)
  | some .string =>
    let str ← s.getDefaultString (← pcounterInt m).toNat
    s.setConst (← pcounterInt (m.drop 4)).toNat (.word str)
  | _ => .error .thrown

/-- `move_to_pcounter`. -/
def moveToPcounter (m : List UInt8) (s : State) (src : ℕ) : Exec UInt64 := do
  match valKind src with
  | some .stack => s.getStackAt (← pcounterOffsetNum m)
  | some .ptr => pcounterFloat m
  | _ => .error .thrown

/-- `execute_move`, of code at an address; the address changes when it is the destination. -/
def executeMove (code : List UInt8) (pc : UInt64) (s : State) : Exec (UInt64 × State) := do
  let dest ← valGet code 2
  let src ← valGet code 1
  match valKind dest with
  | some .reg => return (pc, ← moveToReg (code.drop 3) s (valReg dest) src)
  | some .field => return (pc, ← moveToField (code.drop 3) s src)
  | some .const => return (pc, ← moveToConst (code.drop 3) s src)
  | some .stack => return (pc, ← moveToStack code pc (code.drop 3) s src)
  | some .pcounter => return (← moveToPcounter (code.drop 3) s src, s)
  | _ => .error .thrown

/-! ### What a move should do -/

namespace State

variable (s : State)

/-- The place that a destination names. -/
def place : Val → Option Place
  | .reg n => some (.reg (valReg n.toNat))
  | .field num reg => some (.field (s.regs (valReg reg.toNat)) num.toNat)
  | .stack off => some (.stack off.toNat)
  | .const id => some (.const id.toNat)
  | _ => none

/-- The type of a field that an operand names. -/
def fieldType : Val → Option FieldType
  | .field num reg => (s.tuples (s.regs (valReg reg.toNat))).bind (·.types[num.toNat]?)
  | _ => none

/-- The type by which a move takes a word: that of the field to which it goes, or from which it
comes; between other places it takes the word as it is. -/
def moveType (src dest : Val) : Option FieldType := s.fieldType dest <|> s.fieldType src

/-- What a word means as a value of the type. -/
def asType : Option FieldType → UInt64 → Datum
  | some τ, w => .read τ w
  | none, w => .word w

/-- What a source denotes, for a move by the type; the next instruction is at an address. -/
def denotes (next : UInt64) (type : Option FieldType) : Val → Option Datum
  | .float x => some (.word x)
  | .int x => some (.low x)
  | .field num reg =>
    (s.cell (.field (s.regs (valReg reg.toNat)) num.toNat)).map (asType type)
  | .host => some (.low s.nodeId)
  | .nil => none
  | .node id => some (.low id)
  | .string id => s.defaultStrings[id.toNat]?.map .word
  | .arg id => if id = 0 then none else s.argumentStrings[id.toNat - 1]?.map .word
  | .const id => (s.cell (.const id.toNat)).map (asType type)
  | .stack off => (s.cell (.stack off.toNat)).map .word
  | .pcounter => some (.word next)
  | .ptr p => some (.word p)
  | .tuple => some (.word s.tuple)
  | .reg n => some (asType type (s.regs (valReg n.toNat)))

end State

/-- The instruction in memory, before other code. -/
def moveCode (src dest : Val) (rest : List UInt8) : List UInt8 :=
  (Instr.move src dest).bytes ++ rest

/-- A move between the operands, in a run from a state, did what it should: it wrote what the source
denotes to the destination and nothing else, and `advance` goes over the bytes that it depends on. -/
def Transferred (src dest : Val) (rest : List UInt8) (pc pc' : UInt64) (s t : State) : Prop :=
  ∃ n d, advance (moveCode src dest rest) = .ok n ∧
    n = 3 + src.bytes.length + dest.bytes.length ∧
    (∀ rest', executeMove (moveCode src dest rest') pc s = .ok (pc', t)) ∧
    s.denotes (pc + .ofNat n) (s.moveType src dest) src = some d ∧
    match s.place dest with
    | some p => Wrote s t p d ∧ pc' = pc
    | none => t = s ∧ d = .word pc'

/-! ### The branches -/

section

variable {s t : State} {src : Val} {l : List UInt8}

/-- The field that an operand names, as the branches read it. -/
theorem denotes_field {num reg : UInt8} {tpl : RawTuple} {w : UInt64}
    (htpl : s.getTuple (valReg reg.toNat) = .ok tpl) (hw : tpl.getField num.toNat = .ok w)
    (next : UInt64) (type : Option FieldType) :
    s.denotes next type (.field num reg) = some (State.asType type w) := by
  have htpl : s.tuples (s.regs (valReg reg.toNat)) = some tpl := deref_eq_ok.mp htpl
  have hw : tpl.fields[num.toNat]? = some w := deref_eq_ok.mp hw
  simp only [State.denotes, State.cell, htpl, Option.bind_some, hw, Option.map_some]

theorem fieldType_field {num reg : UInt8} {tpl : RawTuple} {type : FieldType}
    (htpl : s.getTuple (valReg reg.toNat) = .ok tpl)
    (htype : tpl.getFieldType num.toNat = .ok type) :
    s.fieldType (.field num reg) = some type := by
  have htpl : s.tuples (s.regs (valReg reg.toNat)) = some tpl := deref_eq_ok.mp htpl
  have htype : tpl.types[num.toNat]? = some type := deref_eq_ok.mp htype
  simp only [State.fieldType, htpl, Option.bind_some, htype]

/-- The fact that belongs to a register is no cell. -/
theorem wrote_setReg_of_cell {u : State} (hcell : u.cell = s.cell) (r : Fin 32) (d : Datum) :
    Wrote s (u.setReg r d) (.reg r) d where
  holds := (wrote_setReg u r d).holds
  frame q hq := ((wrote_setReg u r d).frame q hq).trans (congrFun hcell q)

/-- A move to a register, but for that of a pointer. -/
theorem moveToReg_spec {n : UInt8} {reg : Fin 32} (hptr : ∀ p, src ≠ .ptr p)
    (h : moveToReg (src.bytes ++ l) s reg (src.code.toNat % 64) = .ok t) (next : UInt64) :
    ∃ d, s.denotes next (s.moveType src (.reg n)) src = some d ∧
      Wrote s t (.reg reg) d := by
  rw [moveToReg, valKind_code] at h
  cases src with
  | float x =>
    simp only [kind, Val.bytes, pcounterFloat_le, ok_bind] at h
    cases h
    exact ⟨_, rfl, wrote_setReg ..⟩
  | int x =>
    simp only [kind, Val.bytes, pcounterInt_le, ok_bind] at h
    cases h
    exact ⟨_, rfl, wrote_setReg ..⟩
  | node x =>
    simp only [kind, Val.bytes, pcounterInt_le, ok_bind] at h
    cases h
    exact ⟨_, rfl, wrote_setReg ..⟩
  | field num r =>
    simp only [kind, Val.bytes, valFieldNum_bytes, valFieldReg_bytes, ok_bind] at h
    obtain ⟨tpl, htpl, h⟩ := bind_eq_ok.mp h
    obtain ⟨type, htype, h⟩ := bind_eq_ok.mp h
    obtain ⟨w, hw, h⟩ := bind_eq_ok.mp h
    cases h
    have hmove : s.moveType (.field num r) (.reg n) = some type := fieldType_field htpl htype
    rw [hmove]
    exact ⟨.read type w, denotes_field htpl hw next (some type), wrote_setReg ..⟩
  | host =>
    cases h
    exact ⟨_, rfl, wrote_setReg ..⟩
  | reg r =>
    rw [kind] at h
    cases h
    rw [valReg_code]
    exact ⟨_, rfl, wrote_setReg ..⟩
  | tuple =>
    obtain ⟨-, -, h⟩ := bind_eq_ok.mp h
    refine ⟨_, rfl, ?_⟩
    split_ifs at h with hleaf hqueue
    · cases h
      exact wrote_setReg_of_cell (funext fun q => by cases q <;> rfl) reg _
    · cases h
      exact wrote_setReg_of_cell (funext fun q => by cases q <;> rfl) reg _
    · cases h
      exact wrote_setReg s reg _
  | stack off =>
    simp only [kind, Val.bytes, pcounterOffsetNum_bytes, ok_bind] at h
    obtain ⟨w, hw, h⟩ := bind_eq_ok.mp h
    cases h
    exact ⟨.word w, congrArg (Option.map Datum.word) (deref_eq_ok.mp hw), wrote_setReg ..⟩
  | ptr p => exact absurd rfl (hptr p)
  | _ => cases h

/-- A pointer is moved to the register whose number is the code of pointers. -/
theorem moveToReg_ptr (p : UInt64) (reg : Fin 32) :
    moveToReg ((Val.ptr p).bytes ++ l) s reg ((Val.code (.ptr p)).toNat % 64) =
      .ok (s.setPtr 11 p) := by
  rw [moveToReg, valKind_code]
  simp only [kind, Val.bytes, pcounterFloat_le, ok_bind]
  rfl

theorem wrote_setPtr_iff (s : State) (r : Fin 32) (p : UInt64) :
    Wrote s (s.setPtr 11 p) (.reg r) (.word p) ↔ r = 11 ∨ s.regs r = p ∧ s.regs 11 = p := by
  refine ⟨fun h => or_iff_not_imp_left.mpr fun hr => ⟨?_, ?_⟩, ?_⟩
  · obtain ⟨w, hw, rfl⟩ := h.holds
    refine Option.some.inj (Eq.trans ?_ hw)
    exact congrArg some (Function.update_of_ne hr ..).symm
  · have hframe := h.frame (.reg 11) fun h => hr (Place.reg.inj h).symm
    obtain ⟨w, hw, rfl⟩ := (wrote_setReg s 11 (.word p)).holds
    exact Option.some.inj (hframe.symm.trans hw)
  · rintro (rfl | ⟨hr, h11⟩)
    · exact wrote_setReg s 11 (.word p)
    · have hregs : s.setPtr 11 p = s := by
        rw [State.setPtr, State.setReg, Datum.write, ← h11, Function.update_eq_self]
      rw [hregs]
      exact ⟨⟨p, congrArg some hr, rfl⟩, fun q _ => rfl⟩

/-- A move to a field. -/
theorem moveToField_spec {num reg : UInt8}
    (h : moveToField (src.bytes ++ ([num, reg] ++ l)) s (src.code.toNat % 64) = .ok t)
    (next : UInt64) :
    ∃ d, s.denotes next (s.moveType src (.field num reg)) src = some d ∧
      Wrote s t (.field (s.regs (valReg reg.toNat)) num.toNat) d := by
  rw [moveToField, valKind_code] at h
  cases src with
  | float x =>
    simp only [kind, Val.bytes, pcounterFloat_le, ok_bind, drop_le, valFieldNum_bytes,
      valFieldReg_bytes] at h
    exact ⟨_, rfl, wrote_setField h⟩
  | int x =>
    simp only [kind, Val.bytes, pcounterInt_le, ok_bind, drop_le, valFieldNum_bytes,
      valFieldReg_bytes] at h
    exact ⟨_, rfl, wrote_setField h⟩
  | node x =>
    simp only [kind, Val.bytes, getNodeVal, pcounterInt_le, ok_bind, drop_le, valFieldNum_bytes,
      valFieldReg_bytes, bind_assoc] at h
    obtain ⟨-, -, h⟩ := bind_eq_ok.mp h
    exact ⟨_, rfl, wrote_setField h⟩
  -- a string operand names one of the program's constants
  | string id =>
    simp only [kind, Val.bytes, pcounterInt_le, ok_bind, drop_le, valFieldNum_bytes,
      valFieldReg_bytes] at h
    obtain ⟨w, hw, h⟩ := bind_eq_ok.mp h
    obtain ⟨-, -, hw⟩ := bind_eq_ok.mp hw
    exact ⟨.word w, congrArg (Option.map Datum.word) (deref_eq_ok.mp hw), wrote_setField h⟩
  -- an argument is one of the program's, which are counted from one
  | arg id =>
    simp only [kind, Val.bytes, pcounterOffsetNum_bytes, ok_bind, drop_one, valFieldNum_bytes,
      valFieldReg_bytes] at h
    obtain ⟨w, hw, h⟩ := bind_eq_ok.mp h
    obtain ⟨-, -, hw⟩ := bind_eq_ok.mp hw
    refine ⟨.word w, ?_, wrote_setField h⟩
    split_ifs at hw with hid
    have hid : id ≠ 0 := fun h => hid (congrArg UInt8.toNat h)
    rw [State.denotes, if_neg hid, deref_eq_ok.mp hw, Option.map_some]
  | stack off =>
    simp only [kind, Val.bytes, pcounterOffsetNum_bytes, ok_bind, drop_one, valFieldNum_bytes,
      valFieldReg_bytes] at h
    obtain ⟨w, hw, h⟩ := bind_eq_ok.mp h
    exact ⟨.word w, congrArg (Option.map Datum.word) (deref_eq_ok.mp hw), wrote_setField h⟩
  -- what is moved between two fields has the type of the destination
  | const id =>
    simp only [kind, Val.bytes, pcounterInt_le, ok_bind, drop_le, valFieldNum_bytes,
      valFieldReg_bytes] at h
    obtain ⟨tpl, htpl, h⟩ := bind_eq_ok.mp h
    obtain ⟨type, htype, h⟩ := bind_eq_ok.mp h
    split_ifs at h
    obtain ⟨w, hw, h⟩ := bind_eq_ok.mp h
    rw [State.moveType, fieldType_field htpl htype]
    exact ⟨.read type w, congrArg (Option.map (Datum.read type)) (deref_eq_ok.mp hw),
      wrote_setField h⟩
  | field num' reg' =>
    simp only [kind, Val.bytes, ok_bind, drop_two, valFieldNum_bytes, valFieldReg_bytes] at h
    obtain ⟨tpl, htpl, h⟩ := bind_eq_ok.mp h
    obtain ⟨dest, hdest, h⟩ := bind_eq_ok.mp h
    obtain ⟨type, htype, h⟩ := bind_eq_ok.mp h
    obtain ⟨w, hw, h⟩ := bind_eq_ok.mp h
    rw [State.moveType, fieldType_field hdest htype]
    exact ⟨.read type w, denotes_field htpl hw next (some type), wrote_setField h⟩
  | host => exact ⟨_, rfl, wrote_setField h⟩
  | reg n =>
    simp only [kind, Val.bytes, List.nil_append, ok_bind, valFieldNum_bytes,
      valFieldReg_bytes] at h
    obtain ⟨tpl, htpl, h⟩ := bind_eq_ok.mp h
    obtain ⟨type, htype, h⟩ := bind_eq_ok.mp h
    rw [State.moveType, fieldType_field htpl htype]
    rw [valReg_code] at h
    exact ⟨_, rfl, wrote_setField h⟩
  | _ => cases h

/-- A move to a slot of the stack. -/
theorem moveToStack_spec {code : List UInt8} {pc : UInt64} {off : UInt8} {n : ℕ}
    (hadv : advance code = .ok n)
    (h : moveToStack code pc (src.bytes ++ ([off] ++ l)) s (src.code.toNat % 64) = .ok t) :
    ∃ d, s.denotes (pc + .ofNat n) (s.moveType src (.stack off)) src = some d ∧
      Wrote s t (.stack off.toNat) d := by
  rw [moveToStack, valKind_code] at h
  cases src with
  | pcounter =>
    simp only [kind, Val.bytes, List.nil_append, hadv, pcounterOffsetNum_bytes, ok_bind] at h
    exact ⟨_, rfl, wrote_setStackAt h⟩
  | int x =>
    simp only [kind, Val.bytes, pcounterInt_le, ok_bind, drop_le, pcounterOffsetNum_bytes] at h
    exact ⟨_, rfl, wrote_setStackAt h⟩
  | float x =>
    simp only [kind, Val.bytes, pcounterFloat_le, ok_bind, drop_le, pcounterOffsetNum_bytes] at h
    exact ⟨_, rfl, wrote_setStackAt h⟩
  | reg r =>
    simp only [kind, Val.bytes, List.nil_append, pcounterOffsetNum_bytes, ok_bind] at h
    rw [valReg_code] at h
    exact ⟨_, rfl, wrote_setStackAt h⟩
  | const id =>
    simp only [kind, Val.bytes, pcounterInt_le, ok_bind, drop_le, pcounterOffsetNum_bytes] at h
    obtain ⟨w, hw, h⟩ := bind_eq_ok.mp h
    exact ⟨.word w, congrArg (Option.map Datum.word) (deref_eq_ok.mp hw), wrote_setStackAt h⟩
  | _ => cases h

/-- A move to a constant. -/
theorem moveToConst_spec {id : UInt32}
    (h : moveToConst (src.bytes ++ (le 4 id.toNat ++ l)) s (src.code.toNat % 64) = .ok t)
    (next : UInt64) :
    ∃ d, s.denotes next (s.moveType src (.const id)) src = some d ∧
      Wrote s t (.const id.toNat) d := by
  rw [moveToConst, valKind_code] at h
  cases src with
  | float x =>
    simp only [kind, Val.bytes, pcounterFloat_le, ok_bind, drop_le, pcounterInt_le] at h
    exact ⟨_, rfl, wrote_setConst h⟩
  | int x =>
    simp only [kind, Val.bytes, ok_bind, drop_le, pcounterInt_le] at h
    exact ⟨_, rfl, wrote_setConst h⟩
  | reg r =>
    simp only [kind, Val.bytes, List.nil_append, ok_bind, pcounterInt_le] at h
    rw [valReg_code] at h
    exact ⟨_, rfl, wrote_setConst h⟩
  | node x =>
    simp only [kind, Val.bytes, getNodeVal, pcounterInt_le, ok_bind, drop_le, bind_assoc] at h
    obtain ⟨-, -, h⟩ := bind_eq_ok.mp h
    exact ⟨_, rfl, wrote_setConst h⟩
  | string str =>
    simp only [kind, Val.bytes, pcounterInt_le, ok_bind, drop_le] at h
    obtain ⟨w, hw, h⟩ := bind_eq_ok.mp h
    obtain ⟨-, -, hw⟩ := bind_eq_ok.mp hw
    exact ⟨.word w, congrArg (Option.map Datum.word) (deref_eq_ok.mp hw), wrote_setConst h⟩
  | _ => cases h

/-- A move to the program counter. -/
theorem moveToPcounter_spec {pc' : UInt64}
    (h : moveToPcounter (src.bytes ++ l) s (src.code.toNat % 64) = .ok pc') (next : UInt64) :
    s.denotes next (s.moveType src .pcounter) src = some (.word pc') := by
  rw [moveToPcounter, valKind_code] at h
  cases src with
  | stack off => exact congrArg (Option.map Datum.word) (deref_eq_ok.mp h)
  | ptr x =>
    simp only [kind, Val.bytes, pcounterFloat_le] at h
    cases h
    rfl
  | _ => cases h

/-! ### What is read -/

theorem moveToReg_rest (src : Val) (reg : Fin 32) (l l' : List UInt8) :
    moveToReg (src.bytes ++ l) s reg (src.code.toNat % 64) =
      moveToReg (src.bytes ++ l') s reg (src.code.toNat % 64) := by
  rw [moveToReg, moveToReg, valKind_code]
  cases src <;> simp only [kind, Val.bytes, pcounterInt_le, pcounterFloat_le] <;> rfl

theorem moveToField_rest (src : Val) (num reg : UInt8) (l l' : List UInt8) :
    moveToField (src.bytes ++ ([num, reg] ++ l)) s (src.code.toNat % 64) =
      moveToField (src.bytes ++ ([num, reg] ++ l')) s (src.code.toNat % 64) := by
  rw [moveToField, moveToField, valKind_code]
  cases src <;>
    simp only [kind, Val.bytes, getNodeVal, pcounterInt_le, pcounterFloat_le, drop_le] <;> rfl

theorem moveToStack_rest (src : Val) {code code' : List UInt8} (hadv : advance code = advance code')
    (pc : UInt64) (off : UInt8) (l l' : List UInt8) :
    moveToStack code pc (src.bytes ++ ([off] ++ l)) s (src.code.toNat % 64) =
      moveToStack code' pc (src.bytes ++ ([off] ++ l')) s (src.code.toNat % 64) := by
  rw [moveToStack, moveToStack, valKind_code]
  cases src <;>
    simp only [kind, Val.bytes, hadv, pcounterInt_le, pcounterFloat_le, drop_le] <;> rfl

theorem moveToConst_rest (src : Val) (id : UInt32) (l l' : List UInt8) :
    moveToConst (src.bytes ++ (le 4 id.toNat ++ l)) s (src.code.toNat % 64) =
      moveToConst (src.bytes ++ (le 4 id.toNat ++ l')) s (src.code.toNat % 64) := by
  rw [moveToConst, moveToConst, valKind_code]
  cases src <;>
    simp only [kind, Val.bytes, List.nil_append, getNodeVal, pcounterInt_le, pcounterFloat_le,
      drop_le]

theorem moveToPcounter_rest (src : Val) (l l' : List UInt8) :
    moveToPcounter (src.bytes ++ l) s (src.code.toNat % 64) =
      moveToPcounter (src.bytes ++ l') s (src.code.toNat % 64) := by
  rw [moveToPcounter, moveToPcounter, valKind_code]
  cases src with
  | ptr p => simp only [kind, Val.bytes, pcounterFloat_le]
  | _ => rfl

/-! ### The move -/

/-- `execute_move`, with its instruction decoded. -/
theorem executeMove_moveCode (src dest : Val) (rest : List UInt8) (pc : UInt64) (s : State) :
    executeMove (moveCode src dest rest) pc s =
      match kind dest with
      | .reg => do
        return (pc, ← moveToReg (src.bytes ++ (dest.bytes ++ rest)) s
          (valReg (dest.code.toNat % 64)) (src.code.toNat % 64))
      | .field => do
        return (pc, ← moveToField (src.bytes ++ (dest.bytes ++ rest)) s (src.code.toNat % 64))
      | .const => do
        return (pc, ← moveToConst (src.bytes ++ (dest.bytes ++ rest)) s (src.code.toNat % 64))
      | .stack => do
        return (pc, ← moveToStack (moveCode src dest rest) pc
          (src.bytes ++ (dest.bytes ++ rest)) s (src.code.toNat % 64))
      | .pcounter => do
        return (← moveToPcounter (src.bytes ++ (dest.bytes ++ rest)) s (src.code.toNat % 64), s)
      | _ => .error .thrown := by
  have hdest : valGet (moveCode src dest rest) 2 = .ok (dest.code.toNat % 64) := rfl
  have hsrc : valGet (moveCode src dest rest) 1 = .ok (src.code.toNat % 64) := rfl
  have hdrop : (moveCode src dest rest).drop 3 = src.bytes ++ (dest.bytes ++ rest) := by
    change src.bytes ++ dest.bytes ++ rest = _
    rw [List.append_assoc]
  rw [executeMove, hdest, ok_bind, hsrc, ok_bind, valKind_code, hdrop]
  cases dest <;> rfl

/-- A move that does not throw has operands of whose sizes `advance` knows. -/
theorem sized_of_executeMove {src dest : Val} {rest : List UInt8} {pc : UInt64} {s : State}
    {r : UInt64 × State} (h : executeMove (moveCode src dest rest) pc s = .ok r) :
    (Head.instr (.move src dest)).Sized := by
  rw [executeMove_moveCode] at h
  intro o ho
  rcases List.mem_cons.mp ho with rfl | ho
  · cases src with
    | nil => cases dest <;> cases h
    | _ => rfl
  · rcases List.mem_singleton.mp ho with rfl
    cases dest with
    | reg | field | const | stack | pcounter => rfl
    | _ => cases h

theorem advance_of_executeMove {src dest : Val} {rest : List UInt8} {pc : UInt64} {s : State}
    {r : UInt64 × State} (h : executeMove (moveCode src dest rest) pc s = .ok r)
    (rest' : List UInt8) :
    advance (moveCode src dest rest') = .ok (3 + src.bytes.length + dest.bytes.length) := by
  have hadv := advance_head (h := .instr (.move src dest)) trivial rest'
  rw [if_pos (sized_of_executeMove h)] at hadv
  refine hadv.trans (congrArg Except.ok ?_)
  simp only [Head.bytes, Instr.bytes, List.length_append, List.length_cons, List.length_nil]

/-- A move depends on nothing behind its instruction. -/
theorem executeMove_rest {src dest : Val} {rest : List UInt8} {pc : UInt64} {s : State}
    {r : UInt64 × State} (h : executeMove (moveCode src dest rest) pc s = .ok r)
    (rest' : List UInt8) : executeMove (moveCode src dest rest') pc s = .ok r := by
  have hadv : advance (moveCode src dest rest) = advance (moveCode src dest rest') :=
    (advance_of_executeMove h rest).trans (advance_of_executeMove h rest').symm
  rw [executeMove_moveCode] at h ⊢
  cases dest with
  | reg n => exact (congrArg (Functor.map _) (moveToReg_rest src _ _ _)).trans h
  | field num reg => exact (congrArg (Functor.map _) (moveToField_rest src num reg _ _)).trans h
  | const id => exact (congrArg (Functor.map _) (moveToConst_rest src id _ _)).trans h
  | stack off =>
    exact (congrArg (Functor.map _) (moveToStack_rest src hadv.symm pc off _ _)).trans h
  | pcounter => exact (congrArg (Functor.map _) (moveToPcounter_rest src _ _)).trans h
  | _ => cases h

/-- What is left to show of a move that did not throw. -/
theorem transferred_of_wrote {src dest : Val} {rest : List UInt8} {pc pc' : UInt64} {s t : State}
    (h : executeMove (moveCode src dest rest) pc s = .ok (pc', t)) :
    Transferred src dest rest pc pc' s t ↔
      ∃ d, s.denotes (pc + .ofNat (3 + src.bytes.length + dest.bytes.length))
          (s.moveType src dest) src = some d ∧
        match s.place dest with
        | some p => Wrote s t p d ∧ pc' = pc
        | none => t = s ∧ d = .word pc' := by
  constructor
  · rintro ⟨n, d, -, rfl, -, hd, hwrote⟩
    exact ⟨d, hd, hwrote⟩
  · rintro ⟨d, hd, hwrote⟩
    exact ⟨_, d, advance_of_executeMove h rest, rfl, executeMove_rest h, hd, hwrote⟩

/-- A move that does not throw writes what its source denotes to its destination and nothing else,
unless it is one of a pointer to a register other than that whose number is the code of pointers. -/
theorem transferred_iff {src dest : Val} {rest : List UInt8} {pc pc' : UInt64} {s t : State}
    (h : executeMove (moveCode src dest rest) pc s = .ok (pc', t)) :
    Transferred src dest rest pc pc' s t ↔
      ∀ p n, src = .ptr p → dest = .reg n →
        valReg n.toNat = 11 ∨ s.regs (valReg n.toNat) = p ∧ s.regs 11 = p := by
  rw [transferred_of_wrote h]
  have hadv := advance_of_executeMove h rest
  rw [executeMove_moveCode] at h
  cases dest with
  | reg n =>
    obtain ⟨u, hu, h⟩ := bind_eq_ok.mp h
    cases h
    by_cases hptr : ∃ p, src = .ptr p
    · obtain ⟨p, rfl⟩ := hptr
      rw [moveToReg_ptr] at hu
      cases hu
      have hwrote := wrote_setPtr_iff s (valReg n.toNat) p
      constructor
      · rintro ⟨d, hd, hwrote', -⟩ p' n' hp hn
        cases hd
        cases hp
        cases hn
        exact hwrote.mp hwrote'
      · intro hcond
        exact ⟨_, rfl, hwrote.mpr (hcond p n rfl rfl), rfl⟩
    · have hptr : ∀ p, src ≠ .ptr p := fun p hp => hptr ⟨p, hp⟩
      rw [valReg_code] at hu
      obtain ⟨d, hd, hwrote⟩ := moveToReg_spec hptr hu _
      exact iff_of_true ⟨d, hd, hwrote, rfl⟩ fun p _ hp => absurd hp (hptr p)
  | field num reg =>
    obtain ⟨u, hu, h⟩ := bind_eq_ok.mp h
    cases h
    obtain ⟨d, hd, hwrote⟩ := moveToField_spec hu _
    exact iff_of_true ⟨d, hd, hwrote, rfl⟩ fun _ _ _ hdest => by cases hdest
  | const id =>
    obtain ⟨u, hu, h⟩ := bind_eq_ok.mp h
    cases h
    obtain ⟨d, hd, hwrote⟩ := moveToConst_spec hu _
    exact iff_of_true ⟨d, hd, hwrote, rfl⟩ fun _ _ _ hdest => by cases hdest
  | stack off =>
    obtain ⟨u, hu, h⟩ := bind_eq_ok.mp h
    cases h
    obtain ⟨d, hd, hwrote⟩ := moveToStack_spec hadv hu
    exact iff_of_true ⟨d, hd, hwrote, rfl⟩ fun _ _ _ hdest => by cases hdest
  | pcounter =>
    obtain ⟨u, hu, h⟩ := bind_eq_ok.mp h
    cases h
    exact iff_of_true ⟨_, moveToPcounter_spec hu _, rfl, rfl⟩ fun _ _ _ hdest => by cases hdest
  | _ => cases h

theorem transferred_int :
    Transferred (.int 7) (.reg 3) [] 0 0 default ((default : State).setInt 3 7) :=
  (transferred_iff rfl).mpr fun _ _ hsrc => by cases hsrc

/-- A pointer that is moved to register 0 goes to register 11. -/
theorem not_transferred_ptr :
    ∃ src dest rest pc pc' s t, executeMove (moveCode src dest rest) pc s = .ok (pc', t) ∧
      ¬Transferred src dest rest pc pc' s t := by
  refine ⟨.ptr 5, .reg 0, [], 0, 0, default, (default : State).setPtr 11 5, rfl, ?_⟩
  rintro ⟨n, d, -, -, -, hd, hwrote, -⟩
  cases hd
  rcases (wrote_setPtr_iff default 0 5).mp hwrote with hreg | ⟨hreg, -⟩
  · exact absurd (congrArg Fin.val hreg) (Nat.zero_ne_add_one 10)
  · exact absurd (congrArg UInt64.toNat hreg) (Nat.zero_ne_add_one 4)

end

end Meld.Vm.Bytecode
