import Meld.Vm.Decoders

/-!
# The traversal of byte-code

`instr_print` finds the next instruction from the bytes: it steps over an instruction with `advance`,
and goes into the code of an `IF_INSTR`, `ITER_INSTR`, `RESET_LINEAR_INSTR` or `SELECT_INSTR` by its
jump, its end mark or its table. On its way it writes the linker's ids into the code. The model keeps
the code and the addresses of the instructions that are printed, in the order in which they are; the
text, and the strings that only the text needs, are left out.

A `Tree` is byte-code with its structure. The nodes of a `SELECT_INSTR` may share the block of code
that their entries in the table lead to, and the entries need not be in the order of the blocks.
-/

namespace Meld.Linker.Traversal

open Lib Lib.Bytes Vm Vm.Bytecode

/-! ### Printing -/

/-- The code while it is printed, and the addresses of the instructions that have been. -/
structure Tape where
  code : List UInt8
  visited : List ℕ
  deriving DecidableEq, Repr

/-- The types of the fields of the predicates. -/
def fieldTypes (links : Links) : List (List FieldType) := links.predicates.map Prod.snd

/-- The loop over the facts of a `NEW_AXIOMS_INSTR`, from the address on. -/
def printFacts (links : Links) (stop : ℕ) : ℕ → ℕ → List UInt8 → Exec (List UInt8)
  | 0, _, _ => .error .diverge
  | fuel + 1, p, code =>
    if p < stop then do
      let (id, types) ← deref links.predicates[predicateGet (← byteGet code p)]?
      let code := code.set p (predicateSet id)
      let n ← printFields types (code.drop (p + 1))
      printFacts links stop fuel (p + 1 + n) code
    else return code

/-- What `instr_print` does at the address before it goes on: it reads the operands and writes the
ids, in a program that allows changes to its byte-code. -/
def printHead (links : Links) (code : List UInt8) (pc : ℕ) : Exec (List UInt8) := do
  let here := code.drop pc
  match ← fetch here with
  | .alloc => do
    let (id, _) ← deref links.predicates[predicateGet (← byteGet here 1)]?
    let _ ← printLength (fieldTypes links) here
    return code.set (pc + 1) (predicateSet id)
  | .iter => do
    let (id, _) ← deref links.predicates[predicateGet (← byteGet here 1)]?
    let _ ← printLength (fieldTypes links) here
    return code.set (pc + 1) (predicateSet id)
  | .delete => do
    let (id, _) ← deref links.predicates[predicateGet (← byteGet here 1)]?
    let _ ← printLength (fieldTypes links) here
    return code.set (pc + 1) (predicateSet id)
  | .rule => do
    let new ← deref links.rules[← numGet 4 here 1]?
    -- `rule_set_id` writes a single byte
    return code.set (pc + 1) (.ofNat new)
  | .newAxioms => do
    let jump ← numGet 4 here 1
    printFacts links (pc + jump) code.length (pc + 5) code
  | _ => do
    let _ ← printLength (fieldTypes links) here
    return code

section Loops

variable (visit : ℕ → Tape → Exec (ℕ × Tape))

/-- `instrs_print_until`. -/
def printUntil (stop : ℕ) : ℕ → ℕ → Tape → Exec (ℕ × Tape)
  | 0, _, _ => .error .diverge
  | fuel + 1, pc, t =>
    if pc < stop then do
      let (pc, t) ← visit pc t
      printUntil stop fuel pc t
    else return (stop, t)

/-- `instrs_print`. -/
def instrsPrint (fuel code len : ℕ) (t : Tape) : Exec (ℕ × Tape) :=
  printUntil visit (code + len) fuel code t

/-- `instrs_print_until_end_linear`. -/
def printUntilEndLinear : ℕ → ℕ → Tape → Exec (ℕ × Tape)
  | 0, _, _ => .error .diverge
  | fuel + 1, pc, t => do
    let (next, t) ← visit pc t
    if (← fetch (t.code.drop pc)) = .endLinear then return (pc, t)
    printUntilEndLinear fuel next t

/-- `instrs_print_until_return_select`. -/
def printUntilReturnSelect : ℕ → ℕ → Tape → Exec Tape
  | 0, _, _ => .error .diverge
  | fuel + 1, pc, t => do
    let (next, t) ← visit pc t
    if (← fetch (t.code.drop pc)) = .returnSelect then return t
    printUntilReturnSelect fuel next t

/-- The body of the loop over the table of the `SELECT_INSTR` at the address. -/
def printEntry (fuel pc elems : ℕ) (t : Tape) (i : ℕ) : Exec Tape := do
  let hashed ← numGet 4 (t.code.drop pc) (9 + 4 * i)
  if hashed = 0 then return t
  printUntilReturnSelect visit fuel (pc + 9 + elems * 4 + hashed - 1) t

end Loops

/-- `instr_print`. -/
def instrPrint (links : Links) : ℕ → Bool → ℕ → Tape → Exec (ℕ × Tape)
  | 0, _, _, _ => .error .diverge
  | fuel + 1, recurse, pc, t => do
    let code ← printHead links t.code pc
    let t : Tape := ⟨code, t.visited ++ [pc]⟩
    let here := code.drop pc
    match ← fetch here with
    | .resetLinear => do
      let next := pc + (← advance here)
      let (pc, t) ← printUntilEndLinear (instrPrint links fuel true) fuel next t
      return (pc + (← advance (t.code.drop pc)), t)
    | .ifInstr => do
      let next := pc + (← advance here)
      if recurse then
        let jump ← numGet 4 here 2
        instrsPrint (instrPrint links fuel true) fuel next (jump - (next - pc)) t
      else return (next, t)
    | .iter => do
      let next := pc + (← advance here)
      if recurse then
        let jump ← numGet 4 here 4
        printUntil (instrPrint links fuel true) (pc + jump) fuel next t
      else return (next, t)
    | .select => do
      if recurse then
        let elems ← numGet 4 here 5
        let t ← (List.range elems).foldlM
          (printEntry (instrPrint links fuel true) fuel pc elems) t
        return (pc + (← numGet 4 (t.code.drop pc) 1), t)
      else return (pc + (← advance here), t)
    | _ => return (pc + (← advance here), t)

/-! ### Byte-code -/

mutual

/-- Byte-code, in which the nodes of a `SELECT_INSTR` may share blocks. -/
inductive Tree
  | done
  | instr (i : Instr) (rest : Tree)
  | ifReg (reg : UInt8) (body rest : Tree)
  | iter (pred options argument : UInt8) (ms : List IterMatch) (body rest : Tree)
  /-- the body ends with `END_LINEAR_INSTR` -/
  | resetLinear (body rest : Tree)
  /-- the table has the number of the block of each node that has one -/
  | select (table : List (Option ℕ)) (blocks : Blocks) (rest : Tree)

/-- The blocks of a `SELECT_INSTR`, one after another. -/
inductive Blocks
  | nil
  /-- the code ends with a `RETURN_SELECT_INSTR` -/
  | cons (body : Tree) (jump : UInt32) (blocks : Blocks)

end

/-- The number of bytes of instructions one after another. -/
def size (heads : List Head) : ℕ := (heads.flatMap Head.bytes).length

/-- The entry of a node in the table: zero without a block, and otherwise one more than the offset
of the block. -/
def entry (groups : List (List Head)) : Option ℕ → UInt32
  | none => 0
  | some b => .ofNat (size (groups.take b).flatten + 1)

mutual

/-- The instructions, in the order in which they stand in memory. -/
def Tree.heads : Tree → List Head
  | .done => []
  | .instr i rest => .instr i :: rest.heads
  | .ifReg reg body rest => .ifReg reg (.ofNat (6 + size body.heads)) :: (body.heads ++ rest.heads)
  | .iter pred options argument ms body rest =>
    .iter pred options argument (.ofNat (8 + (matchBytes ms).length + size body.heads)) ms ::
      (body.heads ++ rest.heads)
  | .resetLinear body rest =>
    .resetLinear (.ofNat (6 + size body.heads)) :: (body.heads ++ .endLinear :: rest.heads)
  | .select table blocks rest =>
    .select (.ofNat (9 + 4 * table.length + size blocks.groups.flatten))
      (table.map (entry blocks.groups)) :: (blocks.groups.flatten ++ rest.heads)

/-- The instructions of each block. -/
def Blocks.groups : Blocks → List (List Head)
  | .nil => []
  | .cons body jump blocks => (body.heads ++ [.returnSelect jump]) :: blocks.groups

end

/-- The byte-code in memory. -/
def Tree.bytes (c : Tree) : List UInt8 := c.heads.flatMap Head.bytes

/-- The addresses of instructions one after another. -/
def addresses : ℕ → List Head → List ℕ
  | _, [] => []
  | a, h :: heads => a :: addresses (a + h.bytes.length) heads

/-! ### Well-formed code -/

mutual

/-- The tables name blocks that there are. -/
def Tree.Tabled : Tree → Prop
  | .done => True
  | .instr _ rest => rest.Tabled
  | .ifReg _ body rest | .resetLinear body rest | .iter _ _ _ _ body rest =>
    body.Tabled ∧ rest.Tabled
  | .select table blocks rest =>
    (∀ b, some b ∈ table → b < blocks.groups.length) ∧ blocks.Tabled ∧ rest.Tabled

def Blocks.Tabled : Blocks → Prop
  | .nil => True
  | .cons body _ blocks => body.Tabled ∧ blocks.Tabled

end

mutual

/-- In every `SELECT_INSTR`, each block is the code of exactly one node. -/
def Tree.Unshared : Tree → Prop
  | .done => True
  | .instr _ rest => rest.Unshared
  | .ifReg _ body rest | .resetLinear body rest | .iter _ _ _ _ body rest =>
    body.Unshared ∧ rest.Unshared
  | .select table blocks rest =>
    (∀ b < blocks.groups.length, table.count (some b) = 1) ∧ blocks.Unshared ∧ rest.Unshared

def Blocks.Unshared : Blocks → Prop
  | .nil => True
  | .cons body _ blocks => body.Unshared ∧ blocks.Unshared

end

/-- The references of an instruction. -/
def headRefs : Head → List Ref
  | .instr i => i.refs
  | .iter pred _ _ _ ms => .predicate pred :: ms.flatMap fun m => m.val.refs
  | _ => []

/-- Code that fits the formats and refers to what the program has. -/
structure WellFormed (links : Links) (c : Tree) : Prop where
  size : c.bytes.length < 2 ^ 32
  tabled : c.Tabled
  fits : ∀ h ∈ c.heads, h.Fits
  knows : ∀ h ∈ c.heads, ∀ r ∈ headRefs h, links.Knows r
  typed : ∀ h ∈ c.heads, h.Typed (fieldTypes links)

/-! ### What printing is for -/

/-- The byte of a predicate with the linker's id. -/
def relinkPredicate (links : Links) (b : UInt8) : UInt8 :=
  predicateSet ((links.predicates[predicateGet b]?.map Prod.fst).getD 0)

/-- An instruction with the linker's ids. -/
def relink (links : Links) : Head → Head
  | .instr (.alloc pred reg) => .instr (.alloc (relinkPredicate links pred) reg)
  | .instr (.delete pred args) => .instr (.delete (relinkPredicate links pred) args)
  | .instr (.rule id) => .instr (.rule (ruleSetId id (links.rules[id.toNat]?.getD 0)))
  | .instr (.newAxioms axioms) =>
    .instr (.newAxioms (axioms.map fun a => { a with pred := relinkPredicate links a.pred }))
  | .iter pred options argument jump ms =>
    .iter (relinkPredicate links pred) options argument jump ms
  | h => h

/-- Printing visits every instruction of the code exactly once, with every id written exactly once,
and returns the address behind the code. -/
def PrintsOnce (links : Links) (c : Tree) : Prop :=
  ∃ n, ∀ fuel ≥ n, ∃ t,
    instrsPrint (instrPrint links fuel true) fuel 0 c.bytes.length ⟨c.bytes, []⟩ =
        .ok (c.bytes.length, t) ∧
      t.visited.Perm (addresses 0 c.heads) ∧
      t.code = c.heads.flatMap fun h => (relink links h).bytes

end Meld.Linker.Traversal
