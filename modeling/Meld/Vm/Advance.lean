import Meld.Linker.Bytecode

/-!
# The lengths of instructions

`advance` computes the length of an instruction from its opcode and the kinds of its operands. A
`Head` is an instruction as it stands at its address: its fixed part, its operands and its table, but
not the code that its jump leads over. `advance_head` says for which heads `advance` returns, and
that it is the length of the head then.

A program counter is the code from there on. Of an operand, the instruction has the kind, in the low
six bits of a byte; what belongs to it stands behind the fixed part.
-/

namespace Meld.Vm.Bytecode

open Lib Lib.Bytes Linker

/-! ### Operands -/

/-- What an `instr_val` says about its operand. -/
inductive ValKind
  | float | int | field | host | nil | node | string | arg | const | stack | pcounter | ptr | tuple
  | reg
  deriving DecidableEq, Repr

namespace ValKind

/-- The `_size` constants. -/
def size : ValKind → ℕ
  | .float | .ptr => 8
  | .int | .node | .string | .const => 4
  | .field => 2
  | .arg | .stack => 1
  | .host | .nil | .pcounter | .tuple | .reg => 0

end ValKind

/-- The `val_is_` tests. -/
def valKind (v : ℕ) : Option ValKind :=
  if v / 0x20 % 2 = 1 then some .reg
  else match v with
    | 0x00 => some .float
    | 0x01 => some .int
    | 0x02 => some .field
    | 0x03 => some .host
    | 0x04 => some .nil
    | 0x05 => some .node
    | 0x06 => some .string
    | 0x07 => some .arg
    | 0x08 => some .const
    | 0x09 => some .stack
    | 0x0a => some .pcounter
    | 0x0b => some .ptr
    | 0x1f => some .tuple
    | _ => none

/-- `instr_argument_type`. -/
inductive ArgumentType
  | anything | anythingNotNil | int | writable | list | nonList | bool | node
  deriving DecidableEq, Repr

/-- The kinds for which there is an `arg_size` of the type. -/
def ArgumentType.has : ArgumentType → ValKind → Bool
  | .anything, _ => true
  | .anythingNotNil, k => decide (k ≠ .nil)
  | .int, k => decide (k ∈ [ValKind.int, .reg, .field, .const, .stack])
  | .writable, k => decide (k ∈ [ValKind.reg, .field, .const, .stack, .pcounter])
  | .list, k => decide (k ∈ [ValKind.reg, .field, .nil, .stack])
  | .nonList, k => decide (k ∉ [ValKind.nil, .tuple])
  | .bool, k => decide (k ∈ [ValKind.reg, .field, .const, .stack])
  | .node, k => decide (k ∈ [ValKind.reg, .field, .host, .node, .const, .stack])

/-- `arg_size`. -/
def argSize (type : ArgumentType) (v : ℕ) : Exec ℕ :=
  match valKind v with
  | some k => if type.has k then .ok k.size else .error .thrown
  | none => .error .thrown

/-! ### Reading -/

/-- `byte_get`. -/
def byteGet (pc : List UInt8) (off : ℕ) : Exec UInt8 := deref pc[off]?

/-- `val_get`. -/
def valGet (pc : List UInt8) (off : ℕ) : Exec ℕ := do return (← byteGet pc off).toNat % 64

/-- A number of `k` bytes: `pcounter_code_size`, `pcounter_uint` and the like. -/
def numGet (k : ℕ) (pc : List UInt8) (off : ℕ) : Exec ℕ :=
  if off + k ≤ pc.length then .ok (ofLe ((pc.drop off).take k)) else .error .dangling

/-- `iter_match_end`. -/
def iterMatchEnd (m : List UInt8) : Exec Bool := do
  return decide ((← byteGet m 1).toNat / 64 = 1)

/-- `iter_match_none`. -/
def iterMatchNone (m : List UInt8) : Exec Bool := do
  return decide ((← byteGet m 1).toNat / 64 = 3)

/-- A decoder's step over an operand: from the `instr_val` and the bytes behind the fixed part. -/
abbrev Stepper := ℕ → List UInt8 → Exec ℕ

/-- A loop over the conditions of an `ITER_INSTR`, as in `iter_matches_size` and `instr_print`. -/
def matchesLoop (step : Stepper) : ℕ → List UInt8 → Exec ℕ
  | 0, _ => .error .diverge
  | fuel + 1, pc => do
    let size := 2 + (← step (← valGet pc 1) (pc.drop 2))
    if ← iterMatchEnd pc then return size
    return size + (← matchesLoop step fuel (pc.drop size))

/-- The conditions of an `ITER_INSTR`; where there are none, a mark says so. -/
def matchesSize (step : Stepper) (pc : List UInt8) : Exec ℕ := do
  if ← iterMatchNone pc then return 2
  matchesLoop step pc.length pc

/-- A loop over arguments, each a value behind an index of some bytes. -/
def argsSize (step : Stepper) (index : ℕ) : List UInt8 → ℕ → Exec ℕ
  | _, 0 => pure 0
  | arg, num + 1 => do
    let size := index + 1 + (← step (← valGet arg index) (arg.drop (index + 1)))
    return size + (← argsSize step index (arg.drop size) num)

/-- `iter_matches_size`. -/
def iterMatchesSize : List UInt8 → Exec ℕ := matchesSize fun v _ => argSize .anything v

/-- `instr_call_args_size`. -/
def instrCallArgsSize : List UInt8 → ℕ → Exec ℕ := argsSize (fun v _ => argSize .anything v) 0

/-- `instr_delete_args_size`. -/
def instrDeleteArgsSize : List UInt8 → ℕ → Exec ℕ := argsSize (fun v _ => argSize .anything v) 1

/-- `instr_type`. -/
inductive Opcode
  | returnInstr | next | elseInstr | testNil | cons | head | tail | not | send | float | select
  | returnSelect | colocated | delete | resetLinear | endLinear | rule | ruleDone | newNode
  | newAxioms | sendDelay | push | pop | pushRegs | popRegs | callf | calle | call | move | alloc
  | ifInstr | moveNil | remove | iter | op | returnLinear | returnDerived
  deriving DecidableEq, Repr

/-- The value of an `instr_type`. -/
def Opcode.ofByte (b : UInt8) : Option Opcode :=
  match b.toNat with
  | 0x00 => some .returnInstr
  | 0x01 => some .next
  | 0x02 => some .elseInstr
  | 0x03 => some .testNil
  | 0x04 => some .cons
  | 0x05 => some .head
  | 0x06 => some .tail
  | 0x07 => some .not
  | 0x08 => some .send
  | 0x09 => some .float
  | 0x0a => some .select
  | 0x0b => some .returnSelect
  | 0x0c => some .colocated
  | 0x0d => some .delete
  | 0x0e => some .resetLinear
  | 0x0f => some .endLinear
  | 0x10 => some .rule
  | 0x11 => some .ruleDone
  | 0x13 => some .newNode
  | 0x14 => some .newAxioms
  | 0x15 => some .sendDelay
  | 0x16 => some .push
  | 0x17 => some .pop
  | 0x18 => some .pushRegs
  | 0x19 => some .popRegs
  | 0x1a => some .callf
  | 0x1b => some .calle
  | 0x20 => some .call
  | 0x30 => some .move
  | 0x40 => some .alloc
  | 0x60 => some .ifInstr
  | 0x70 => some .moveNil
  | 0x80 => some .remove
  | 0xa0 => some .iter
  | 0xc0 => some .op
  | 0xd0 => some .returnLinear
  | 0xf0 => some .returnDerived
  | _ => none

/-- `fetch`. -/
def fetch (pc : List UInt8) : Exec Opcode := do
  match Opcode.ofByte (← byteGet pc 0) with
  | some opcode => return opcode
  | none => .error .thrown

/-- How far `advance` goes. -/
def advance (pc : List UInt8) : Exec ℕ := do
  match ← fetch pc with
  | .send => return 3
  | .float =>
    return 3 + (← argSize .int (← valGet pc 1)) + (← argSize .writable (← valGet pc 2))
  | .op =>
    return 5 + (← argSize .anything (← valGet pc 1)) + (← argSize .anything (← valGet pc 2)) +
      (← argSize .writable (← valGet pc 3))
  | .move =>
    return 3 + (← argSize .anythingNotNil (← valGet pc 1)) + (← argSize .writable (← valGet pc 2))
  | .iter => return 8 + (← iterMatchesSize (pc.drop 8))
  | .alloc => return 3
  | .call => return 4 + (← instrCallArgsSize (pc.drop 4) (← byteGet pc 2).toNat)
  | .calle => return 4 + (← instrCallArgsSize (pc.drop 4) (← byteGet pc 2).toNat)
  | .delete => return 3 + (← instrDeleteArgsSize (pc.drop 3) (← byteGet pc 2).toNat)
  | .ifInstr => return 6
  | .moveNil => return 2 + (← argSize .writable (← valGet pc 1))
  | .testNil =>
    return 3 + (← argSize .list (← valGet pc 1)) + (← argSize .writable (← valGet pc 2))
  | .cons =>
    return 5 + (← argSize .nonList (← valGet pc 2)) + (← argSize .list (← valGet pc 3)) +
      (← argSize .writable (← valGet pc 4))
  | .head =>
    return 4 + (← argSize .list (← valGet pc 2)) + (← argSize .writable (← valGet pc 3))
  | .tail =>
    return 4 + (← argSize .list (← valGet pc 2)) + (← argSize .writable (← valGet pc 3))
  | .not =>
    return 3 + (← argSize .bool (← valGet pc 1)) + (← argSize .writable (← valGet pc 2))
  | .returnInstr => return 1
  | .returnLinear => return 1
  | .returnDerived => return 1
  | .next => return 1
  | .returnSelect => return 5
  | .select => return 9 + (← numGet 4 pc 5) * 4
  | .colocated =>
    return 4 + (← argSize .node (← valGet pc 1)) + (← argSize .node (← valGet pc 2))
  | .remove => return 2
  | .resetLinear => return 5
  | .endLinear => return 1
  | .rule => return 5
  | .ruleDone => return 1
  | .newNode => return 2
  | .newAxioms => numGet 4 pc 1
  | .sendDelay => return 7
  | .push => return 1
  | .pop => return 1
  | .pushRegs => return 1
  | .popRegs => return 1
  | .callf => return 2
  | .elseInstr => .error .thrown

/-! ### Instructions at their addresses -/

/-- An instruction without the code that its jump leads over. -/
inductive Head
  | instr (i : Instr)
  | ifReg (reg : UInt8) (jump : UInt32)
  | iter (pred options argument : UInt8) (jump : UInt32) (ms : List IterMatch)
  | resetLinear (jump : UInt32)
  | endLinear
  | select (size : UInt32) (table : List UInt32)
  | returnSelect (jump : UInt32)

namespace Head

/-- The instruction in memory. -/
def bytes : Head → List UInt8
  | .instr i => i.bytes
  | .ifReg reg jump => [0x60, reg] ++ le 4 jump.toNat
  | .iter pred options argument jump ms =>
    [0xa0, pred, options, argument] ++ le 4 jump.toNat ++ matchBytes ms
  | .resetLinear jump => [0x0e] ++ le 4 jump.toNat
  | .endLinear => [0x0f]
  | .select size table =>
    [0x0a] ++ le 4 size.toNat ++ le 4 table.length ++ table.flatMap fun e => le 4 e.toNat
  | .returnSelect jump => [0x0b] ++ le 4 jump.toNat

/-- The numbers of arguments, the sizes of tables and the jumps over facts fit their fields. -/
def Fits : Head → Prop
  | .instr (.call _ _ args) | .instr (.calle _ _ args) => args.length < 256
  | .instr (.delete _ args) => args.length < 256
  | .instr (.newAxioms axioms) => 5 + (axioms.flatMap Axiom.bytes).length < 2 ^ 32
  | .select _ table => table.length < 2 ^ 32
  | _ => True

/-- The operands, each with the type for which `advance` takes its size. -/
def operands : Head → List (ArgumentType × Val)
  | .instr (.float v dest) => [(.int, v), (.writable, dest)]
  | .instr (.op arg1 arg2 dest _) => [(.anything, arg1), (.anything, arg2), (.writable, dest)]
  | .instr (.move src dest) => [(.anythingNotNil, src), (.writable, dest)]
  | .instr (.call _ _ args) | .instr (.calle _ _ args) => args.map ((.anything, ·))
  | .instr (.delete _ args) => args.map fun arg => (.anything, arg.2)
  | .instr (.moveNil dest) => [(.writable, dest)]
  | .instr (.testNil v dest) => [(.list, v), (.writable, dest)]
  | .instr (.cons _ x xs dest) => [(.nonList, x), (.list, xs), (.writable, dest)]
  | .instr (.head _ xs dest) | .instr (.tail _ xs dest) => [(.list, xs), (.writable, dest)]
  | .instr (.not v dest) => [(.bool, v), (.writable, dest)]
  | .instr (.colocated first second _) => [(.node, first), (.node, second)]
  | .iter _ _ _ _ ms => ms.map fun m => (.anything, m.val)
  | _ => []

end Head

/-- What the kind of a value says about it. -/
def kind : Val → ValKind
  | .reg _ => .reg
  | .tuple => .tuple
  | .float _ => .float
  | .int _ => .int
  | .field .. => .field
  | .host => .host
  | .nil => .nil
  | .node _ => .node
  | .string _ => .string
  | .arg _ => .arg
  | .const _ => .const
  | .stack _ => .stack
  | .pcounter => .pcounter
  | .ptr _ => .ptr

/-- `advance` takes the sizes of the operands. -/
def Head.Sized (h : Head) : Prop := ∀ o ∈ h.operands, o.1.has (kind o.2) = true

instance (h : Head) : Decidable h.Sized := inferInstanceAs (Decidable (∀ o ∈ h.operands, _))

/-! ### The length of an instruction -/

theorem toNat_code_reg (n : UInt8) : (Val.code (.reg n)).toNat = 32 + n.toNat % 32 := by
  have hlow : (n &&& 0x1f).toNat = n.toNat % 32 := by
    rw [UInt8.toNat_and]
    exact Nat.and_two_pow_sub_one_eq_mod n.toNat 5
  rw [Val.code, UInt8.toNat_or, hlow]
  exact (Nat.two_pow_add_eq_or_of_lt (i := 5) (Nat.mod_lt _ (by decide)) 1).symm

theorem toNat_code_lt (v : Val) : v.code.toNat < 64 := by
  cases v with
  | reg n =>
    have := Nat.mod_lt n.toNat (show 0 < 32 by decide)
    rw [toNat_code_reg]
    omega
  | _ => simp [Val.code]

theorem valKind_code (v : Val) : valKind (v.code.toNat % 64) = some (kind v) := by
  rw [Nat.mod_eq_of_lt (toNat_code_lt v)]
  cases v with
  | reg n =>
    have hbit : (Val.code (.reg n)).toNat / 0x20 % 2 = 1 := by
      have := Nat.mod_lt n.toNat (show 0 < 32 by decide)
      rw [toNat_code_reg]
      omega
    exact if_pos hbit
  | _ => simp [valKind, Val.code, kind]

theorem length_bytes (v : Val) : v.bytes.length = (kind v).size := by
  cases v <;> simp [Val.bytes, kind, ValKind.size]

/-- The size of an operand is the number of its bytes. -/
theorem argSize_code (type : ArgumentType) (v : Val) :
    argSize type (v.code.toNat % 64) =
      if type.has (kind v) then .ok v.bytes.length else .error .thrown := by
  rw [argSize, valKind_code, length_bytes]

/-- A decoder that steps over the bytes of an operand. -/
def Measures (step : Stepper) : Prop :=
  ∀ (v : Val) (tail : List UInt8),
    step (v.code.toNat % 64) (v.bytes ++ tail) = .ok v.bytes.length

theorem measures_argSize : Measures fun v _ => argSize .anything v := fun v _ =>
  argSize_code .anything v

/-- One operand. -/
private theorem size_one (base : ℕ) (a : ArgumentType) (v : Val) :
    (do return base + (← argSize a (v.code.toNat % 64)) : Exec ℕ) =
      if a.has (kind v) then .ok (base + v.bytes.length) else .error .thrown := by
  rw [argSize_code]
  split_ifs <;> rfl

/-- Two operands. -/
private theorem size_two (base : ℕ) (a b : ArgumentType) (v w : Val) :
    (do return base + (← argSize a (v.code.toNat % 64)) + (← argSize b (w.code.toNat % 64)) :
      Exec ℕ) =
      if a.has (kind v) ∧ b.has (kind w) then .ok (base + v.bytes.length + w.bytes.length)
      else .error .thrown := by
  rw [argSize_code, argSize_code]
  split_ifs with hv hw h h h h <;> simp_all

/-- Three operands. -/
private theorem size_three (base : ℕ) (a b c : ArgumentType) (v w x : Val) :
    (do return base + (← argSize a (v.code.toNat % 64)) + (← argSize b (w.code.toNat % 64)) +
      (← argSize c (x.code.toNat % 64)) : Exec ℕ) =
      if a.has (kind v) ∧ b.has (kind w) ∧ c.has (kind x) then
        .ok (base + v.bytes.length + w.bytes.length + x.bytes.length)
      else .error .thrown := by
  rw [argSize_code, argSize_code, argSize_code]
  split_ifs <;> simp_all

theorem valGet_append (pre : List UInt8) {off : ℕ} (h : pre.length = off) (b : UInt8)
    (l : List UInt8) : valGet (pre ++ b :: l) off = .ok (b.toNat % 64) := by
  have hget : (pre ++ b :: l)[off]? = some b := by
    rw [← h, List.getElem?_append_right le_rfl, Nat.sub_self]
    rfl
  rw [valGet, byteGet, hget]
  rfl

/-- Arguments, each behind its index. -/
private theorem argsSize_bytes {step : Stepper} (hstep : Measures step) (index : ℕ)
    (args : List (List UInt8 × Val)) (hindex : ∀ arg ∈ args, arg.1.length = index)
    (tail : List UInt8) :
    argsSize step index (args.flatMap (fun arg => arg.1 ++ Instr.argBytes arg.2) ++ tail)
      args.length = .ok (args.flatMap fun arg => arg.1 ++ Instr.argBytes arg.2).length := by
  induction args with
  | nil => rfl
  | cons arg args ih =>
    have hlen := hindex arg List.mem_cons_self
    have hsize : index + 1 + arg.2.bytes.length = (arg.1 ++ Instr.argBytes arg.2).length := by
      simp only [Instr.argBytes, List.length_append, List.length_cons, hlen]
      omega
    obtain ⟨rest, hrest⟩ : ∃ rest, rest =
      args.flatMap (fun arg => arg.1 ++ Instr.argBytes arg.2) ++ tail := ⟨_, rfl⟩
    have hval : valGet (arg.1 ++ Instr.argBytes arg.2 ++ rest) index =
        .ok (arg.2.code.toNat % 64) := by
      rw [Instr.argBytes, List.append_assoc, List.cons_append]
      exact valGet_append _ hlen _ _
    have hdrop : (arg.1 ++ Instr.argBytes arg.2 ++ rest).drop (index + 1) =
        arg.2.bytes ++ rest := by
      rw [Instr.argBytes, List.append_cons, List.append_assoc]
      exact List.drop_left' (by simp [hlen])
    have ih := ih fun arg harg => hindex arg (List.mem_cons_of_mem _ harg)
    rw [← hrest] at ih
    rw [List.flatMap_cons, List.append_assoc, ← hrest, List.length_cons, argsSize]
    simp only [hval, ok_bind, hdrop, hstep arg.2 rest, hsize, List.drop_left, ih, pure_eq_ok]
    exact congrArg Except.ok List.length_append.symm

/-- The mark of the last condition. -/
theorem toNat_code_or (v : Val) : (v.code ||| 0x40).toNat = v.code.toNat + 64 := by
  rw [UInt8.toNat_or, Nat.or_comm, Nat.add_comm]
  exact (Nat.two_pow_add_eq_or_of_lt (i := 6) (toNat_code_lt v) 1).symm

theorem matchBytes_cons (m : IterMatch) {ms : List IterMatch} (hne : ms ≠ []) :
    matchBytes (m :: ms) = [m.field, m.val.code] ++ (m.val.bytes ++ matchBytes ms) :=
  (matchBytes.eq_3 m ms hne).trans (List.append_assoc ..)

/-- A condition of an `ITER_INSTR` at an address. -/
structure ConditionAt (pc : List UInt8) (c : IterMatch) (next : List UInt8) (last : Bool) :
    Prop where
  field : byteGet pc 0 = .ok c.field
  val : valGet pc 1 = .ok (c.val.code.toNat % 64)
  drop : pc.drop 2 = c.val.bytes ++ next
  matchEnd : iterMatchEnd pc = .ok last
  matchNone : iterMatchNone pc = .ok false

theorem conditionAt_last (c : IterMatch) (tail : List UInt8) :
    ConditionAt (matchBytes [c] ++ tail) c tail true := by
  have hlt := toNat_code_lt c.val
  refine ⟨rfl, ?_, rfl, ?_, ?_⟩
  · refine (valGet_append [c.field] rfl (c.val.code ||| 0x40) (c.val.bytes ++ tail)).trans ?_
    rw [toNat_code_or, Nat.add_mod_right]
  · change Except.ok (decide ((c.val.code ||| 0x40).toNat / 64 = 1)) = _
    rw [toNat_code_or, decide_eq_true (by omega)]
  · change Except.ok (decide ((c.val.code ||| 0x40).toNat / 64 = 3)) = _
    rw [toNat_code_or, decide_eq_false (by omega)]

theorem conditionAt_cons (c : IterMatch) {ms : List IterMatch} (hne : ms ≠ [])
    (tail : List UInt8) :
    ConditionAt (matchBytes (c :: ms) ++ tail) c (matchBytes ms ++ tail) false := by
  have hlt := toNat_code_lt c.val
  have hbytes : matchBytes (c :: ms) ++ tail =
      [c.field, c.val.code] ++ (c.val.bytes ++ (matchBytes ms ++ tail)) := by
    rw [matchBytes_cons c hne, List.append_assoc, List.append_assoc]
  rw [hbytes]
  refine ⟨rfl, rfl, rfl, ?_, ?_⟩
  · change Except.ok (decide (c.val.code.toNat / 64 = 1)) = _
    rw [decide_eq_false (by omega)]
  · change Except.ok (decide (c.val.code.toNat / 64 = 3)) = _
    rw [decide_eq_false (by omega)]

theorem iterMatchNone_bytes (ms : List IterMatch) (tail : List UInt8) :
    iterMatchNone (matchBytes ms ++ tail) = .ok ms.isEmpty := by
  cases ms with
  | nil => rfl
  | cons c ms =>
    cases ms with
    | nil => exact (conditionAt_last c tail).matchNone
    | cons c' ms => exact (conditionAt_cons c (List.cons_ne_nil c' ms) tail).matchNone

/-- Conditions of an `ITER_INSTR`. -/
private theorem matchesLoop_bytes {step : Stepper} (hstep : Measures step) {fuel : ℕ}
    {ms : List IterMatch} (hne : ms ≠ []) (hfuel : ms.length ≤ fuel) (tail : List UInt8) :
    matchesLoop step fuel (matchBytes ms ++ tail) = .ok (matchBytes ms).length := by
  induction ms generalizing fuel with
  | nil => exact absurd rfl hne
  | cons m ms ih =>
    obtain ⟨fuel, rfl⟩ : ∃ n, fuel = n + 1 := ⟨fuel - 1, by simp at hfuel; omega⟩
    cases ms with
    | nil =>
      have hm := conditionAt_last m tail
      rw [matchesLoop]
      simp only [hm.val, ok_bind, hm.drop, hstep m.val tail, hm.matchEnd, if_true, pure_eq_ok]
      rw [matchBytes, List.length_append]
      rfl
    | cons m' ms =>
      have hne := List.cons_ne_nil m' ms
      have hm := conditionAt_cons m hne tail
      have hrest : (matchBytes (m :: m' :: ms) ++ tail).drop (2 + m.val.bytes.length) =
          matchBytes (m' :: ms) ++ tail := by
        rw [← List.drop_drop, hm.drop, List.drop_left]
      have ih := ih hne (Nat.le_of_succ_le_succ hfuel)
      rw [matchesLoop]
      simp only [hm.val, ok_bind, hm.drop, hstep m.val _, hm.matchEnd, Bool.false_eq_true,
        if_false, hrest, ih, pure_eq_ok]
      rw [matchBytes_cons m hne, List.length_append, List.length_append, Nat.add_assoc]
      rfl

theorem length_le_matchBytes (ms : List IterMatch) : ms.length ≤ (matchBytes ms).length := by
  induction ms with
  | nil => exact Nat.zero_le _
  | cons m ms ih =>
    cases ms with
    | nil => simp [matchBytes]
    | cons m' ms =>
      rw [matchBytes_cons m (List.cons_ne_nil m' ms), List.length_append, List.length_append]
      simp only [List.length_cons, List.length_nil] at ih ⊢
      omega

/-- The conditions of an `ITER_INSTR`, or their absence. -/
theorem matchesSize_bytes {step : Stepper} (hstep : Measures step) (ms : List IterMatch)
    (tail : List UInt8) :
    matchesSize step (matchBytes ms ++ tail) = .ok (matchBytes ms).length := by
  rw [matchesSize, iterMatchNone_bytes, ok_bind]
  cases ms with
  | nil => rfl
  | cons m ms =>
    rw [List.isEmpty_cons, if_neg Bool.false_ne_true]
    refine matchesLoop_bytes hstep (List.cons_ne_nil _ _) ?_ tail
    rw [List.length_append]
    exact Nat.le_add_right_of_le (length_le_matchBytes _)

theorem numGet_append (k : ℕ) (pre : List UInt8) {off : ℕ} (h : pre.length = off) (n : ℕ)
    (l : List UInt8) : numGet k (pre ++ (le k n ++ l)) off = .ok (n % 256 ^ k) := by
  have hlen : off + k ≤ (pre ++ (le k n ++ l)).length := by
    simp only [List.length_append, length_le, h]
    omega
  rw [numGet, if_pos hlen, ← h, List.drop_left, List.take_left' (length_le k n), ofLe_le]

/-- The arguments of a call. -/
theorem argsSize_call {step : Stepper} (hstep : Measures step) (args : List Val)
    (tail : List UInt8) :
    argsSize step 0 (args.flatMap Instr.argBytes ++ tail) args.length =
      .ok (args.flatMap Instr.argBytes).length := by
  have h := argsSize_bytes hstep 0 (args.map fun v => ([], v)) (fun arg harg => by
    obtain ⟨v, -, rfl⟩ := List.mem_map.mp harg
    rfl) tail
  rwa [List.flatMap_map, List.length_map] at h

/-- The arguments of a `DELETE_INSTR`. -/
theorem argsSize_delete {step : Stepper} (hstep : Measures step) (args : List (UInt8 × Val))
    (tail : List UInt8) :
    argsSize step 1 (args.flatMap (fun arg => arg.1 :: Instr.argBytes arg.2) ++ tail)
      args.length = .ok (args.flatMap fun arg => arg.1 :: Instr.argBytes arg.2).length := by
  have h := argsSize_bytes hstep 1 (args.map fun arg => ([arg.1], arg.2)) (fun arg harg => by
    obtain ⟨v, -, rfl⟩ := List.mem_map.mp harg
    rfl) tail
  rwa [List.flatMap_map, List.length_map] at h

/-- `advance` takes the sizes of arguments and conditions of any kind. -/
private theorem sized_of_anything {h : Head} (hany : ∀ o ∈ h.operands, o.1 = .anything) :
    h.Sized := fun o ho => by
  rw [hany o ho]
  rfl

/-- The instructions without operands. -/
private theorem advance_of_nil {h : Head} {n : ℕ} (hn : n = h.bytes.length)
    (hnil : h.operands = []) :
    (.ok n : Exec ℕ) = if h.Sized then .ok h.bytes.length else .error .thrown := by
  have hsized : h.Sized := fun o ho => by
    rw [hnil] at ho
    cases ho
  rw [if_pos hsized, hn]

/-- The instructions with operands. -/
private theorem advance_of_iff {h : Head} {n : ℕ} {p : Prop} [Decidable p] (hp : p ↔ h.Sized)
    (hn : n = h.bytes.length) :
    (if p then .ok n else .error .thrown : Exec ℕ) =
      if h.Sized then .ok h.bytes.length else .error .thrown := by
  simp only [hp, hn]

/-- `advance` returns for the instructions of whose operands it takes the sizes, and goes behind
them. -/
theorem advance_head {h : Head} (hfits : h.Fits) (tail : List UInt8) :
    advance (h.bytes ++ tail) = if h.Sized then .ok h.bytes.length else .error .thrown := by
  cases h with
  | instr i =>
    cases i with
    | float v dest =>
      exact (size_two 3 .int .writable v dest).trans
        (advance_of_iff (by simp [Head.Sized, Head.operands])
          (by simp [Head.bytes, Instr.bytes]; omega))
    | op arg1 arg2 dest o =>
      exact (size_three 5 .anything .anything .writable arg1 arg2 dest).trans
        (advance_of_iff (by simp [Head.Sized, Head.operands])
          (by simp [Head.bytes, Instr.bytes]; omega))
    | move src dest =>
      exact (size_two 3 .anythingNotNil .writable src dest).trans
        (advance_of_iff (by simp [Head.Sized, Head.operands])
          (by simp [Head.bytes, Instr.bytes]; omega))
    | moveNil dest =>
      exact (size_one 2 .writable dest).trans
        (advance_of_iff (by simp [Head.Sized, Head.operands])
          (by simp [Head.bytes, Instr.bytes]; omega))
    | testNil v dest =>
      exact (size_two 3 .list .writable v dest).trans
        (advance_of_iff (by simp [Head.Sized, Head.operands])
          (by simp [Head.bytes, Instr.bytes]; omega))
    | cons type x xs dest =>
      exact (size_three 5 .nonList .list .writable x xs dest).trans
        (advance_of_iff (by simp [Head.Sized, Head.operands])
          (by simp [Head.bytes, Instr.bytes]; omega))
    | head type xs dest =>
      exact (size_two 4 .list .writable xs dest).trans
        (advance_of_iff (by simp [Head.Sized, Head.operands])
          (by simp [Head.bytes, Instr.bytes]; omega))
    | tail type xs dest =>
      exact (size_two 4 .list .writable xs dest).trans
        (advance_of_iff (by simp [Head.Sized, Head.operands])
          (by simp [Head.bytes, Instr.bytes]; omega))
    | not v dest =>
      exact (size_two 3 .bool .writable v dest).trans
        (advance_of_iff (by simp [Head.Sized, Head.operands])
          (by simp [Head.bytes, Instr.bytes]; omega))
    | colocated first second dest =>
      exact (size_two 4 .node .node first second).trans
        (advance_of_iff (by simp [Head.Sized, Head.operands])
          (by simp [Head.bytes, Instr.bytes]; omega))
    -- the size of a call depends on its arguments only
    | call externId dest args =>
      have hnum : (UInt8.ofNat args.length).toNat = args.length := UInt8.toNat_ofNat_of_lt' hfits
      have hadv : advance ((Head.instr (.call externId dest args)).bytes ++ tail) = do
          return 4 + (← instrCallArgsSize (args.flatMap Instr.argBytes ++ tail)
            (UInt8.ofNat args.length).toNat) := rfl
      rw [hadv, hnum, instrCallArgsSize, argsSize_call measures_argSize, if_pos (sized_of_anything fun o ho => ?_)]
      · simp [Head.bytes, Instr.bytes]
        omega
      · obtain ⟨v, -, rfl⟩ := List.mem_map.mp ho
        rfl
    | calle externId dest args =>
      have hnum : (UInt8.ofNat args.length).toNat = args.length := UInt8.toNat_ofNat_of_lt' hfits
      have hadv : advance ((Head.instr (.calle externId dest args)).bytes ++ tail) = do
          return 4 + (← instrCallArgsSize (args.flatMap Instr.argBytes ++ tail)
            (UInt8.ofNat args.length).toNat) := rfl
      rw [hadv, hnum, instrCallArgsSize, argsSize_call measures_argSize, if_pos (sized_of_anything fun o ho => ?_)]
      · simp [Head.bytes, Instr.bytes]
        omega
      · obtain ⟨v, -, rfl⟩ := List.mem_map.mp ho
        rfl
    | delete pred args =>
      have hnum : (UInt8.ofNat args.length).toNat = args.length := UInt8.toNat_ofNat_of_lt' hfits
      have hadv : advance ((Head.instr (.delete pred args)).bytes ++ tail) = do
          return 3 + (← instrDeleteArgsSize
            (args.flatMap (fun arg => arg.1 :: Instr.argBytes arg.2) ++ tail) (UInt8.ofNat args.length).toNat) := rfl
      rw [hadv, hnum, instrDeleteArgsSize, argsSize_delete measures_argSize,
        if_pos (sized_of_anything fun o ho => ?_)]
      · simp [Head.bytes, Instr.bytes]
        omega
      · obtain ⟨v, -, rfl⟩ := List.mem_map.mp ho
        rfl
    -- the size is a field of the instruction
    | newAxioms axioms =>
      have hnum : 5 + (axioms.flatMap Axiom.bytes).length < 256 ^ 4 := hfits
      have hbytes : (Head.instr (.newAxioms axioms)).bytes ++ tail =
          [0x14] ++ (le 4 (5 + (axioms.flatMap Axiom.bytes).length) ++
            (axioms.flatMap Axiom.bytes ++ tail)) := by
        simp [Head.bytes, Instr.bytes]
      have hlen : 5 + (axioms.flatMap Axiom.bytes).length =
          (Head.instr (.newAxioms axioms)).bytes.length := by
        simp [Head.bytes, Instr.bytes]
        omega
      refine Eq.trans ?_ (advance_of_nil hlen rfl)
      have hget := numGet_append 4 [0x14] rfl
        (5 + (axioms.flatMap Axiom.bytes).length) (axioms.flatMap Axiom.bytes ++ tail)
      rw [Nat.mod_eq_of_lt hnum] at hget
      rw [hbytes]
      exact hget
    | _ => exact advance_of_nil (by simp [Head.bytes, Instr.bytes]) rfl
  | ifReg reg jump => exact advance_of_nil (by simp [Head.bytes]) rfl
  | iter pred options argument jump ms =>
    have hadv : advance ((Head.iter pred options argument jump ms).bytes ++ tail) = do
        return 8 + (← iterMatchesSize (matchBytes ms ++ tail)) := rfl
    rw [hadv, iterMatchesSize, matchesSize_bytes measures_argSize, if_pos (sized_of_anything fun o ho => ?_)]
    · simp [Head.bytes]
      omega
    · obtain ⟨m, -, rfl⟩ := List.mem_map.mp ho
      rfl
  | resetLinear jump => exact advance_of_nil (by simp [Head.bytes]) rfl
  | endLinear => exact advance_of_nil rfl rfl
  -- the number of entries is a field of the instruction
  | select size table =>
    have hnum : table.length < 256 ^ 4 := hfits
    have hadv : advance ((Head.select size table).bytes ++ tail) = do
        return 9 + (← numGet 4 ([0x0a] ++ le 4 size.toNat ++ (le 4 table.length ++
          ((table.flatMap fun e => le 4 e.toNat) ++ tail))) 5) * 4 := by
      simp only [Head.bytes, List.append_assoc]
      rfl
    have hlen : 9 + table.length * 4 = (Head.select size table).bytes.length := by
      simp [Head.bytes, List.length_flatMap]
      omega
    rw [hadv, numGet_append 4 _ (by simp), Nat.mod_eq_of_lt hnum]
    exact advance_of_nil hlen rfl
  | returnSelect jump => exact advance_of_nil (by simp [Head.bytes]) rfl

end Meld.Vm.Bytecode
