import Meld.Lib.Bytes
import Meld.Vm.Types

/-!
# Instructions

The instructions of byte-code and the bytes that they are in memory, and the ids in them: an
instruction refers by number to predicates, rules, functions, external functions, strings and
constants of its program. The linker changes the ids of predicates and rules by printing the
byte-code: `instr_print` writes the linker's ids over those that it meets, if the program allows
that; `Links` is what it needs of the program for that.
-/

namespace Meld.Linker

open Lib Lib.Bytes Vm

/-! ### Instructions -/

/-- A value of an instruction, with what follows the instruction for it. -/
inductive Val
  | reg (n : UInt8)
  | tuple
  | float (x : UInt64)
  | int (x : UInt32)
  | field (num reg : UInt8)
  | host
  | nil
  | node (id : UInt32)
  | string (id : UInt32)
  | arg (id : UInt8)
  | const (id : UInt32)
  | stack (offset : UInt8)
  | pcounter
  | ptr (p : UInt64)
  deriving DecidableEq, Repr

namespace Val

/-- `instr_val`. -/
def code : Val → UInt8
  | .reg n => 0x20 ||| (n &&& 0x1f)
  | .tuple => 0x1f
  | .float _ => 0x00
  | .int _ => 0x01
  | .field .. => 0x02
  | .host => 0x03
  | .nil => 0x04
  | .node _ => 0x05
  | .string _ => 0x06
  | .arg _ => 0x07
  | .const _ => 0x08
  | .stack _ => 0x09
  | .pcounter => 0x0a
  | .ptr _ => 0x0b

/-- What follows the instruction. -/
def bytes : Val → List UInt8
  | .reg _ | .tuple | .host | .nil | .pcounter => []
  | .float x | .ptr x => le 8 x.toNat
  | .int x | .node x | .string x | .const x => le 4 x.toNat
  | .field n r => [n, r]
  | .arg x | .stack x => [x]

end Val

/-- A field of an axiom. -/
inductive AxiomField
  | item (x : Item)
  | list (xs : List Item)
  deriving DecidableEq, Repr

namespace AxiomField

/-- The bytes of a number in an axiom. -/
def itemBytes : Item → List UInt8
  | .int x => le 4 x.toUInt32.toNat
  | .float x => le 8 x.toNat
  | .node x => le 4 x.toNat

def bytes : AxiomField → List UInt8
  | item x => itemBytes x
  | list xs => xs.flatMap (fun x => 1 :: itemBytes x) ++ [0]

end AxiomField

/-- A fact of a `NEW_AXIOMS_INSTR`. -/
structure Axiom where
  pred : UInt8
  fields : List AxiomField
  deriving DecidableEq, Repr

def Axiom.bytes (a : Axiom) : List UInt8 := a.pred :: a.fields.flatMap AxiomField.bytes

/-- The instructions that have no code inside. -/
inductive Instr
  | returnInstr
  | returnLinear
  | returnDerived
  | next
  | send (msg dest : UInt8)
  | sendDelay (msg dest : UInt8) (time : UInt32)
  | float (op dest : Val)
  | op (arg1 arg2 dest : Val) (op : UInt8)
  | move (src dest : Val)
  | moveNil (dest : Val)
  | alloc (pred reg : UInt8)
  | call (externId dest : UInt8) (args : List Val)
  | calle (externId dest : UInt8) (args : List Val)
  | callf (id : UInt8)
  | delete (pred : UInt8) (args : List (UInt8 × Val))
  | testNil (op dest : Val)
  | cons (type : UInt8) (head tail dest : Val)
  | head (type : UInt8) (cons dest : Val)
  | tail (type : UInt8) (cons dest : Val)
  | not (op dest : Val)
  | colocated (first second : Val) (dest : UInt8)
  | remove (source : UInt8)
  | rule (id : UInt32)
  | ruleDone
  | newNode (reg : UInt8)
  | newAxioms (axioms : List Axiom)
  | push
  | pop
  | pushRegs
  | popRegs
  deriving DecidableEq, Repr

namespace Instr

/-- The values of an instruction, in their order. -/
def vals : Instr → List Val
  | .float v dest | .testNil v dest | .not v dest => [v, dest]
  | .op arg1 arg2 dest _ => [arg1, arg2, dest]
  | .move src dest => [src, dest]
  | .moveNil dest => [dest]
  | .call _ _ args | .calle _ _ args => args
  | .delete _ args => args.map Prod.snd
  | .cons _ x xs dest => [x, xs, dest]
  | .head _ xs dest | .tail _ xs dest => [xs, dest]
  | .colocated first second _ => [first, second]
  | _ => []

/-- The bytes of an argument of a call. -/
def argBytes (v : Val) : List UInt8 := v.code :: v.bytes

/-- The instruction in memory. -/
def bytes : Instr → List UInt8
  | .returnInstr => [0x00]
  | .next => [0x01]
  | .testNil v dest => [0x03, v.code, dest.code] ++ v.bytes ++ dest.bytes
  | .cons type x xs dest =>
    [0x04, type, x.code, xs.code, dest.code] ++ x.bytes ++ xs.bytes ++ dest.bytes
  | .head type xs dest => [0x05, type, xs.code, dest.code] ++ xs.bytes ++ dest.bytes
  | .tail type xs dest => [0x06, type, xs.code, dest.code] ++ xs.bytes ++ dest.bytes
  | .not v dest => [0x07, v.code, dest.code] ++ v.bytes ++ dest.bytes
  | .send msg dest => [0x08, msg, dest]
  | .float v dest => [0x09, v.code, dest.code] ++ v.bytes ++ dest.bytes
  | .colocated first second dest =>
    [0x0c, first.code, second.code, dest] ++ first.bytes ++ second.bytes
  | .delete pred args =>
    [0x0d, pred, .ofNat args.length] ++ args.flatMap (fun arg => arg.1 :: argBytes arg.2)
  | .rule id => [0x10] ++ le 4 id.toNat
  | .ruleDone => [0x11]
  | .newNode reg => [0x13, reg]
  | .newAxioms axioms =>
    let body := axioms.flatMap Axiom.bytes
    [0x14] ++ le 4 (5 + body.length) ++ body
  | .sendDelay msg dest time => [0x15, msg, dest] ++ le 4 time.toNat
  | .push => [0x16]
  | .pop => [0x17]
  | .pushRegs => [0x18]
  | .popRegs => [0x19]
  | .callf id => [0x1a, id]
  | .calle externId dest args =>
    [0x1b, externId, .ofNat args.length, dest] ++ args.flatMap argBytes
  | .call externId dest args =>
    [0x20, externId, .ofNat args.length, dest] ++ args.flatMap argBytes
  | .move src dest => [0x30, src.code, dest.code] ++ src.bytes ++ dest.bytes
  | .alloc pred reg => [0x40, pred, reg]
  | .moveNil dest => [0x70, dest.code] ++ dest.bytes
  | .remove source => [0x80, source]
  | .op arg1 arg2 dest o =>
    [0xc0, arg1.code, arg2.code, dest.code, o] ++ arg1.bytes ++ arg2.bytes ++ dest.bytes
  | .returnLinear => [0xd0]
  | .returnDerived => [0xf0]

end Instr

/-- A condition on a field of a fact that `ITER_INSTR` looks for. -/
structure IterMatch where
  field : UInt8
  val : Val
  deriving DecidableEq, Repr

/-- The conditions of an `ITER_INSTR`; the last of them is marked. -/
def matchBytes : List IterMatch → List UInt8
  | [] => [0x00, 0xc0]
  | [m] => [m.field, m.val.code ||| 0x40] ++ m.val.bytes
  | m :: ms => [m.field, m.val.code] ++ m.val.bytes ++ matchBytes ms

/-! ### References -/

/-- What an operand of an instruction refers to. -/
inductive Ref
  | predicate (b : UInt8)
  | rule (id : UInt32)
  | function (id : UInt8)
  | external (id : UInt8)
  | string (id : UInt32)
  | const (id : UInt32)
  deriving DecidableEq, Repr

def Val.refs : Val → List Ref
  | .string id => [.string id]
  | .const id => [.const id]
  | _ => []

/-- The references of an instruction besides those of its values. -/
def Instr.ids : Instr → List Ref
  | .alloc pred _ | .delete pred _ => [.predicate pred]
  | .newAxioms axioms => axioms.map fun a => .predicate a.pred
  | .rule id => [.rule id]
  | .callf id => [.function id]
  | .calle externId _ _ => [.external externId]
  | _ => []

def Instr.refs (i : Instr) : List Ref := i.ids ++ i.vals.flatMap Val.refs

/-! ### Ids -/

/-- `predicate_get`. -/
def predicateGet (b : UInt8) : ℕ := b.toNat % 128

/-- `predicate_set`. -/
def predicateSet (id : ℕ) : UInt8 := .ofNat id

/-- `rule_set_id`, which writes a single byte. -/
def ruleSetId (id : UInt32) (new : ℕ) : UInt32 := .ofNat (id.toNat - id.toNat % 256 + new % 256)

theorem toNat_ruleSetId (id : UInt32) (new : ℕ) :
    (ruleSetId id new).toNat = id.toNat - id.toNat % 256 + new % 256 := by
  have hid : id.toNat < 2 ^ 32 := id.toNat_lt
  rw [ruleSetId, UInt32.toNat_ofNat']
  omega

/-- `rule_set_id` writes the low byte. -/
theorem le_ruleSetId (id : UInt32) (new : ℕ) :
    le 4 (ruleSetId id new).toNat = (le 4 id.toNat).set 0 (.ofNat new) := by
  have hlow : UInt8.ofNat (ruleSetId id new).toNat = UInt8.ofNat new := by
    refine UInt8.toNat_inj.mp ?_
    rw [UInt8.toNat_ofNat', UInt8.toNat_ofNat', toNat_ruleSetId]
    omega
  have hhigh : (ruleSetId id new).toNat / 256 = id.toNat / 256 := by
    rw [toNat_ruleSetId]
    omega
  rw [le, hlow, hhigh]
  rfl

/-- What printing needs of a program. -/
structure Links where
  /-- the linker ids and the types of the fields of the predicates -/
  predicates : List (ℕ × List FieldType)
  /-- the linker ids of the rules -/
  rules : List ℕ
  numStrings : ℕ

/-- The program has what the reference refers to, as far as printing looks it up. -/
def Links.Knows (links : Links) : Ref → Prop
  | .predicate b => predicateGet b < links.predicates.length
  | .rule id => id.toNat < links.rules.length
  | .string id => id.toNat < links.numStrings
  | _ => True

end Meld.Linker
