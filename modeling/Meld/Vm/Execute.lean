import Meld.Linker.TraversalShape
import Meld.Vm.Iterate

/-!
# Executing byte-code

`execute` runs the byte-code from an address on: it steps from one instruction to the next with
`advance`, follows the jumps of `IF_INSTR`, `ITER_INSTR`, `SELECT_INSTR` and the others, and goes on
in the code of a function at a `CALLF_INSTR`. An address is the code from there on. A call by itself
does not come back: the code before it saves an address on the stack, with a `MOVE_INSTR` whose
source is the program counter, and that of the function goes on behind the saved address, with one
whose destination it is.

`Interp.run` is what the tree of the byte-code means, without addresses: the code after an
`IF_INSTR` is what its body goes on to, the code after an `ITER_INSTR` is where it goes on when its
body has returned for every fact, and also what the body goes on to if it does not return. A tree
means nothing if execution reaches its end and there is nothing to go on to, if the jump of a
`RETURN_SELECT_INSTR` does not lead behind its `SELECT_INSTR`, if the table of a `SELECT_INSTR` has
no entry for the node, or if the calls of functions are nested too deeply. A tree has no addresses to
save or to go to, so that it says what byte-code means that keeps to its way (`Head.Straight`).
-/

namespace Meld.Vm.Bytecode

open Lib Lib.Bytes Linker Linker.Traversal Iterate

/-! ### The interpreter -/

/-- No operand is the program counter: the instruction neither saves its address nor goes on at one
that was saved. -/
def Head.Straight (h : Head) : Prop := ∀ o ∈ h.operands, kind o.2 ≠ .pcounter

instance (h : Head) : Decidable h.Straight :=
  inferInstanceAs (Decidable (∀ o ∈ h.operands, _))

/-- The program, the node and the instructions without jumps. What stands behind an instruction does
not change what it does, if that does not save its address, nor does what stands behind the
conditions of an `ITER_INSTR`. -/
structure Interp (σ : Type) where
  /-- the matching of an `ITER_INSTR`, whose conditions stand at the address -/
  machine : List UInt8 → Machine σ
  machine_local : ∀ ms tail, machine (matchBytes ms ++ tail) = machine (matchBytes ms)
  /-- the instruction at the address -/
  instr : List UInt8 → Act (State σ) Unit
  instr_local : ∀ i tail, (Head.instr i).Fits → (Head.instr i).Sized → (Head.instr i).Straight →
    instr (i.bytes ++ tail) = instr i.bytes
  /-- `move_to_pcounter` of the `MOVE_INSTR` at the address: the address that it sets -/
  moveToPcounter : List UInt8 → Act (State σ) (List UInt8)
  /-- `get_bool` -/
  getBool : ℕ → State σ → Bool
  /-- `sim_instr_counter` counts an instruction -/
  count : State σ → State σ
  /-- `state.node->get_id()` -/
  nodeId : ℕ
  /-- `static_max_id` -/
  staticMaxId : ℕ
  /-- `get_function` -/
  function : ℕ → Option Tree

namespace Interp

variable {σ : Type} (I : Interp σ)

/-- `reg_get`. -/
def regGet (b : UInt8) : ℕ := b.toNat % 32

/-- The operands of the `ITER_INSTR` at the address. -/
def iterAt (pc : List UInt8) : Exec Iter := do
  let pred ← byteGet pc 1
  let options ← byteGet pc 2
  let argument ← byteGet pc 3
  return ⟨predicateGet pred, options.toNat, argument.toNat⟩

/-- `execute_select`. -/
def executeSelect (pc : List UInt8) : Exec (List UInt8) := do
  if I.staticMaxId < I.nodeId then return pc.drop (← numGet 4 pc 1)
  else do
    let hashed ← numGet 4 pc (9 + 4 * I.nodeId)
    if hashed = 0 then return pc.drop (← numGet 4 pc 1)
    else return pc.drop (9 + (← numGet 4 pc 5) * 4 + hashed - 1)

/-- `execute_move`, with the address that it leaves: it changes when it is the destination. -/
def executeMove (pc : List UInt8) : Act (State σ) (List UInt8) := do
  let dest ← Act.ofExec (valGet pc 2)
  if valKind dest = some .pcounter then I.moveToPcounter pc
  else do
    I.instr pc
    return pc

/-- The case of `ITER_INSTR` when `execute_iter` has returned. -/
def afterIter (ret : ReturnType) (next : Act (State σ) ReturnType) :
    Act (State σ) ReturnType := do
  let s ← Act.get
  if ret = .linear ∨ s.isLinear ∧ ret = .derived then return ret else next

/-- `execute`. -/
def execute : ℕ → List UInt8 → Act (State σ) ReturnType
  | 0, _ => Act.ofExec (.error .diverge)
  | fuel + 1, pc => do
    Act.modify I.count
    match ← Act.ofExec (fetch pc) with
    | .returnInstr => return .ok
    | .next => return .next
    | .returnLinear => return .linear
    | .returnDerived => return .derived
    | .returnSelect => do
      let jump ← Act.ofExec (numGet 4 pc 1)
      execute fuel (pc.drop jump)
    | .ifInstr => do
      let reg ← Act.ofExec (byteGet pc 1)
      let jump ← Act.ofExec (numGet 4 pc 2)
      let n ← Act.ofExec (advance pc)
      let s ← Act.get
      if !I.getBool (regGet reg) s then execute fuel (pc.drop jump) else execute fuel (pc.drop n)
    | .elseInstr => Act.ofExec (.error .thrown)
    | .endLinear => return .endLinear
    | .resetLinear => do
      let old ← Act.get
      Act.modify fun s => { s with isLinear := false }
      let ret ← execute fuel (pc.drop 5)
      Act.assert (ret = .endLinear)
      Act.modify fun s => { s with isLinear := old.isLinear }
      let jump ← Act.ofExec (numGet 4 pc 1)
      execute fuel (pc.drop jump)
    | .iter => do
      let it ← Act.ofExec (iterAt pc)
      let jump ← Act.ofExec (numGet 4 pc 4)
      let n ← Act.ofExec (advance pc)
      let M := I.machine (pc.drop 8)
      let s ← Act.get
      let ret ← executeIter M it (execute fuel (pc.drop n)) (M.matchPredicate it s.tuple s.env)
      afterIter ret (execute fuel (pc.drop jump))
    | .select => do
      let next ← Act.ofExec (I.executeSelect pc)
      execute fuel next
    | .callf => do
      let id ← Act.ofExec (byteGet pc 1)
      let f ← Act.ofExec (deref (I.function id.toNat))
      execute fuel f.bytes
    | .move => do
      -- the loop goes behind the instruction at the address, also at one that was saved
      let pc ← I.executeMove pc
      let n ← Act.ofExec (advance pc)
      execute fuel (pc.drop n)
    | _ => do
      I.instr pc
      let n ← Act.ofExec (advance pc)
      execute fuel (pc.drop n)

/-! ### What byte-code means -/

/-- The instructions that end the execution. -/
def returns : Instr → Option ReturnType
  | .returnInstr => some .ok
  | .next => some .next
  | .returnLinear => some .linear
  | .returnDerived => some .derived
  | _ => none

/-- The function that an instruction goes on to. -/
def calls : Instr → Option UInt8
  | .callf id => some id
  | _ => none

/-- An instruction that ends the execution. -/
def ret (r : ReturnType) : Act (State σ) ReturnType := do
  Act.modify I.count
  return r

/-- An instruction that goes on somewhere. -/
def jumps (next : Act (State σ) ReturnType) : Act (State σ) ReturnType := do
  Act.modify I.count
  next

/-- An instruction without a jump. -/
def step (i : Instr) (next : Act (State σ) ReturnType) : Act (State σ) ReturnType := do
  Act.modify I.count
  I.instr i.bytes
  next

/-- `IF_INSTR`. -/
def cond (reg : UInt8) (body next : Act (State σ) ReturnType) : Act (State σ) ReturnType := do
  Act.modify I.count
  let s ← Act.get
  if !I.getBool (regGet reg) s then next else body

/-- `RESET_LINEAR_INSTR`. -/
def reset (body next : Act (State σ) ReturnType) : Act (State σ) ReturnType := do
  Act.modify I.count
  let old ← Act.get
  Act.modify fun s => { s with isLinear := false }
  let ret ← body
  Act.assert (ret = .endLinear)
  Act.modify fun s => { s with isLinear := old.isLinear }
  next

/-- `ITER_INSTR`. -/
def iterate (it : Iter) (ms : List IterMatch) (body next : Act (State σ) ReturnType) :
    Act (State σ) ReturnType := do
  Act.modify I.count
  let M := I.machine (matchBytes ms)
  let s ← Act.get
  let ret ← executeIter M it body (M.matchPredicate it s.tuple s.env)
  afterIter ret next

/-- The entry of the node in the table of a `SELECT_INSTR`, none without one. -/
def entryOf (table : List (Option ℕ)) : Option (Option ℕ) :=
  if I.staticMaxId < I.nodeId then some none else table[I.nodeId]?

mutual

/-- What the tree means, with what the functions and the code behind it mean. -/
def run (call : ℕ → Option (Act (State σ) ReturnType)) :
    Tree → Option (Act (State σ) ReturnType) → Option (Act (State σ) ReturnType)
  | .done, k => k
  | .instr i rest, k =>
    ((returns i).map I.ret).or
      (((calls i).map fun id => (call id.toNat).map I.jumps).getD
        ((run call rest k).map (I.step i)))
  | .ifReg reg body rest, k =>
    (run call rest k).bind fun next =>
      (run call body (some next)).map fun body => I.cond reg body next
  | .iter pred options argument ms body rest, k =>
    (run call rest k).bind fun next =>
      (run call body (some next)).map fun body =>
        I.iterate ⟨predicateGet pred, options.toNat, argument.toNat⟩ ms body next
  | .resetLinear body rest, k =>
    (run call rest k).bind fun next =>
      (run call body (some (I.ret .endLinear))).map fun body => I.reset body next
  | .select table blocks rest, k =>
    (run call rest k).bind fun next =>
      (I.entryOf table).bind fun entry =>
        (entry.elim (some next) fun b => runBlock call blocks b next).map I.jumps

/-- What the block with the number means, with what the code behind all blocks means. -/
def runBlock (call : ℕ → Option (Act (State σ) ReturnType)) :
    Traversal.Blocks → ℕ → Act (State σ) ReturnType → Option (Act (State σ) ReturnType)
  | .nil, _, _ => none
  | .cons body jump blocks, b, next =>
    if b = 0 then
      -- the jump leads from the `RETURN_SELECT_INSTR` behind the last block
      if jump.toNat = 5 + size blocks.groups.flatten then run call body (some (I.jumps next))
      else none
    else runBlock call blocks (b - 1) next

end

/-- What the functions mean, if no more calls than `depth` are nested. -/
def callee : ℕ → ℕ → Option (Act (State σ) ReturnType)
  | 0, _ => none
  | depth + 1, id => (I.function id).bind fun f => I.run (callee depth) f none

end Interp

end Meld.Vm.Bytecode
