import Meld.Linker.TraversalOrder

/-!
# References in memory

Where the references of an instruction stand among its bytes. `headPieces` takes the bytes of an
instruction apart, `refsAt` lists its references with their offsets, and `Ref.readAt` reads a
reference of the same kind at an address, whatever the code has become there.
-/

namespace Meld.Linker

open Lib Lib.Bytes Vm Vm.Bytecode Traversal

/-! ### Pieces -/

/-- What a reference is in memory. -/
def Ref.bytes : Ref → List UInt8
  | .predicate b | .function b | .external b => [b]
  | .rule id | .string id | .const id => le 4 id.toNat

/-- A part of an instruction: bytes that refer to nothing, or a reference. -/
inductive Piece
  | plain (bs : List UInt8)
  | ref (r : Ref)

def Piece.bytes : Piece → List UInt8
  | .plain bs => bs
  | .ref r => r.bytes

def Val.pieces : Val → List Piece
  | .string id => [.ref (.string id)]
  | .const id => [.ref (.const id)]
  | v => [.plain v.bytes]

/-- An argument of a call. -/
def argPieces (v : Val) : List Piece := .plain [v.code] :: v.pieces

def Axiom.pieces (a : Axiom) : List Piece :=
  [.ref (.predicate a.pred), .plain (a.fields.flatMap AxiomField.bytes)]

/-- An instruction that ends with its values. -/
def Instr.valPieces (i : Instr) : List Piece :=
  .plain (i.bytes.take (i.bytes.length - (i.vals.flatMap Val.bytes).length)) ::
    i.vals.flatMap Val.pieces

/-- The parts of an instruction. -/
def Instr.pieces : Instr → List Piece
  | .alloc pred reg => [.plain [0x40], .ref (.predicate pred), .plain [reg]]
  | .delete pred args => [.plain [0x0d], .ref (.predicate pred), .plain [.ofNat args.length]] ++
    args.flatMap fun arg => .plain [arg.1] :: argPieces arg.2
  | .rule id => [.plain [0x10], .ref (.rule id)]
  | .newAxioms axioms => .plain ([0x14] ++ le 4 (5 + (axioms.flatMap Axiom.bytes).length)) ::
    axioms.flatMap Axiom.pieces
  | .callf id => [.plain [0x1a], .ref (.function id)]
  | .calle externId dest args =>
    [.plain [0x1b], .ref (.external externId), .plain [.ofNat args.length, dest]] ++
      args.flatMap argPieces
  | .call externId dest args =>
    .plain [0x20, externId, .ofNat args.length, dest] :: args.flatMap argPieces
  | i => i.valPieces

/-- The conditions of an `ITER_INSTR`. -/
def matchPieces : List IterMatch → List Piece
  | [] => [.plain [0x00, 0xc0]]
  | [m] => .plain [m.field, m.val.code ||| 0x40] :: m.val.pieces
  | m :: ms => .plain [m.field, m.val.code] :: (m.val.pieces ++ matchPieces ms)

def headPieces : Head → List Piece
  | .instr i => i.pieces
  | .iter pred options argument jump ms =>
    [.plain [0xa0], .ref (.predicate pred), .plain ([options, argument] ++ le 4 jump.toNat)] ++
      matchPieces ms
  | h => [.plain h.bytes]

/-- The pieces of a value are its bytes. -/
theorem Val.bytes_pieces (v : Val) : v.pieces.flatMap Piece.bytes = v.bytes := by
  cases v <;> simp [Val.pieces, Piece.bytes, Ref.bytes, Val.bytes]

/-- So are the pieces of an argument. -/
theorem bytes_argPieces (v : Val) : (argPieces v).flatMap Piece.bytes = Instr.argBytes v := by
  rw [argPieces, List.flatMap_cons, v.bytes_pieces]
  rfl

/-- So are the pieces of a fact. -/
theorem Axiom.bytes_pieces (a : Axiom) : a.pieces.flatMap Piece.bytes = a.bytes := by
  simp [Axiom.pieces, Piece.bytes, Ref.bytes, Axiom.bytes]

/-- So are the pieces of a row of values. -/
theorem bytes_vals (vs : List Val) :
    (vs.flatMap Val.pieces).flatMap Piece.bytes = vs.flatMap Val.bytes := by
  rw [List.flatMap_assoc]
  exact List.flatMap_congr fun v _ => v.bytes_pieces

/-- An instruction that ends with its values is its head and their pieces. -/
theorem bytes_valPieces {i : Instr} (hvals : i.vals.flatMap Val.bytes <:+ i.bytes) :
    i.valPieces.flatMap Piece.bytes = i.bytes := by
  obtain ⟨pre, hpre⟩ := hvals
  have hlen : i.bytes.length - (i.vals.flatMap Val.bytes).length = pre.length := by
    rw [← hpre, List.length_append, Nat.add_sub_cancel]
  rw [Instr.valPieces, List.flatMap_cons, bytes_vals, Piece.bytes, hlen]
  conv_rhs => rw [← hpre]
  rw [← hpre, List.take_left]

/-- The parts of an instruction are its bytes. -/
theorem Instr.bytes_pieces (i : Instr) : i.pieces.flatMap Piece.bytes = i.bytes := by
  have hargs : ∀ args : List Val, (args.flatMap argPieces).flatMap Piece.bytes =
      args.flatMap Instr.argBytes := fun args => by
    rw [List.flatMap_assoc]
    exact List.flatMap_congr fun v _ => bytes_argPieces v
  cases i with
  | alloc | rule | callf => rfl
  | delete pred args =>
    have hpairs : (args.flatMap fun arg => Piece.plain [arg.1] :: argPieces arg.2).flatMap
        Piece.bytes = args.flatMap fun arg => arg.1 :: Instr.argBytes arg.2 := by
      rw [List.flatMap_assoc]
      refine List.flatMap_congr fun arg _ => ?_
      rw [List.flatMap_cons, bytes_argPieces]
      rfl
    rw [Instr.pieces, List.flatMap_append, hpairs]
    rfl
  | newAxioms axioms =>
    have haxioms : (axioms.flatMap Axiom.pieces).flatMap Piece.bytes =
        axioms.flatMap Axiom.bytes := by
      rw [List.flatMap_assoc]
      exact List.flatMap_congr fun a _ => a.bytes_pieces
    rw [Instr.pieces, List.flatMap_cons, haxioms]
    rfl
  | calle externId dest args =>
    rw [Instr.pieces, List.flatMap_append, hargs]
    rfl
  | call externId dest args =>
    rw [Instr.pieces, List.flatMap_cons, hargs]
    rfl
  | _ => exact bytes_valPieces (by simp [Instr.vals, Instr.bytes, List.suffix_cons_iff])

/-- The pieces of the conditions of an iteration are their bytes. -/
theorem bytes_matchPieces (ms : List IterMatch) :
    (matchPieces ms).flatMap Piece.bytes = matchBytes ms := by
  induction ms using matchPieces.induct with
  | case1 => rfl
  | case2 m =>
    rw [matchPieces, List.flatMap_cons, m.val.bytes_pieces]
    rfl
  | case3 m ms hne ih =>
    rw [matchPieces.eq_3 m ms hne, List.flatMap_cons, List.flatMap_append, m.val.bytes_pieces, ih,
      matchBytes.eq_3 m ms hne, List.append_assoc]
    rfl

/-- The parts of an instruction are its bytes. -/
theorem bytes_headPieces (h : Head) : (headPieces h).flatMap Piece.bytes = h.bytes := by
  cases h with
  | instr i => exact i.bytes_pieces
  | iter pred options argument jump ms =>
    rw [headPieces, List.flatMap_append, bytes_matchPieces]
    simp [Piece.bytes, Ref.bytes, Head.bytes]
  | _ => simp [headPieces, Piece.bytes]

/-! ### Offsets -/

/-- The references, when the first of the parts stands at the offset. -/
def refsFrom : ℕ → List Piece → List (ℕ × Ref)
  | _, [] => []
  | off, .plain bs :: ps => refsFrom (off + bs.length) ps
  | off, .ref r :: ps => (off, r) :: refsFrom (off + r.bytes.length) ps

/-- The references of an instruction, each with its offset. -/
def refsAt (h : Head) : List (ℕ × Ref) := refsFrom 0 (headPieces h)

/-- A byte of the code. -/
def byteAt (code : List UInt8) (a : ℕ) : UInt8 := code.getD a 0

/-- A number of four bytes. -/
def wordAt (code : List UInt8) (a : ℕ) : UInt32 := .ofNat (ofLe ((code.drop a).take 4))

/-- The reference at the address, of the same kind. -/
def Ref.readAt (code : List UInt8) (a : ℕ) : Ref → Ref
  | .predicate _ => .predicate (byteAt code a)
  | .function _ => .function (byteAt code a)
  | .external _ => .external (byteAt code a)
  | .rule _ => .rule (wordAt code a)
  | .string _ => .string (wordAt code a)
  | .const _ => .const (wordAt code a)

variable {r : Ref} {pre code post : List UInt8} {off : ℕ} {h : Head}

/-- A byte behind others. -/
theorem byteAt_append (b : UInt8) : byteAt (pre ++ (b :: post)) pre.length = b := by
  rw [byteAt, List.getD_eq_getElem?_getD, List.getElem?_append_right le_rfl, Nat.sub_self]
  rfl

/-- A number behind other bytes. -/
theorem wordAt_append (x : UInt32) : wordAt (pre ++ (le 4 x.toNat ++ post)) pre.length = x := by
  rw [wordAt, List.drop_left, List.take_left' (length_le 4 _), ofLe_le_of_lt x.toNat_lt]
  exact UInt32.ofNat_toNat

/-- A reference is read where it stands. -/
theorem Ref.readAt_append (r : Ref) : r.readAt (pre ++ (r.bytes ++ post)) pre.length = r := by
  cases r with
  | predicate b => exact congrArg _ (byteAt_append b)
  | function b => exact congrArg _ (byteAt_append b)
  | external b => exact congrArg _ (byteAt_append b)
  | rule id => exact congrArg _ (wordAt_append id)
  | string id => exact congrArg _ (wordAt_append id)
  | const id => exact congrArg _ (wordAt_append id)

/-- What is read does not depend on what stands before or behind. -/
theorem byteAt_middle (hlt : off < code.length) :
    byteAt (pre ++ (code ++ post)) (pre.length + off) = byteAt code off := by
  rw [byteAt, byteAt, List.getD_eq_getElem?_getD, List.getD_eq_getElem?_getD,
    List.getElem?_append_right (Nat.le_add_right ..), Nat.add_sub_cancel_left,
    List.getElem?_append_left hlt]

/-- A number in the middle of other bytes. -/
theorem wordAt_middle (hle : off + 4 ≤ code.length) :
    wordAt (pre ++ (code ++ post)) (pre.length + off) = wordAt code off := by
  rw [wordAt, wordAt, ← List.drop_drop, List.drop_left, List.drop_append_of_le_length (by omega),
    List.take_append_of_le_length (by rw [List.length_drop]; omega)]

/-- A reference in the middle of other bytes. -/
theorem Ref.readAt_middle (r : Ref) (hle : off + r.bytes.length ≤ code.length) :
    r.readAt (pre ++ (code ++ post)) (pre.length + off) = r.readAt code off := by
  cases r with
  | predicate b => exact congrArg _ (byteAt_middle hle)
  | function b => exact congrArg _ (byteAt_middle hle)
  | external b => exact congrArg _ (byteAt_middle hle)
  | rule id => exact congrArg _ (wordAt_middle (by rwa [Ref.bytes, length_le] at hle))
  | string id => exact congrArg _ (wordAt_middle (by rwa [Ref.bytes, length_le] at hle))
  | const id => exact congrArg _ (wordAt_middle (by rwa [Ref.bytes, length_le] at hle))

/-- The references stand at their offsets. -/
theorem readAt_of_mem_refsFrom {ps : List Piece} (hmem : (off, r) ∈ refsFrom pre.length ps) :
    pre.length ≤ off ∧ off + r.bytes.length ≤ pre.length + (ps.flatMap Piece.bytes).length ∧
      r.readAt (pre ++ ps.flatMap Piece.bytes) off = r := by
  induction ps generalizing pre with
  | nil => cases hmem
  | cons p ps ih =>
    have hsplit : pre ++ (p :: ps).flatMap Piece.bytes =
        (pre ++ p.bytes) ++ ps.flatMap Piece.bytes := by
      rw [List.flatMap_cons, List.append_assoc]
    have hlen : ((p :: ps).flatMap Piece.bytes).length =
        p.bytes.length + (ps.flatMap Piece.bytes).length := by
      rw [List.flatMap_cons, List.length_append]
    have hrest : (off, r) ∈ refsFrom (pre.length + p.bytes.length) ps →
        pre.length ≤ off ∧
          off + r.bytes.length ≤ pre.length + ((p :: ps).flatMap Piece.bytes).length ∧
          r.readAt (pre ++ (p :: ps).flatMap Piece.bytes) off = r := fun hmem => by
      rw [← List.length_append] at hmem
      obtain ⟨hle, hbound, hread⟩ := ih hmem
      rw [List.length_append] at hle hbound
      refine ⟨by omega, by omega, ?_⟩
      rw [hsplit, hread]
    cases p with
    | plain bs => exact hrest hmem
    | ref r' =>
      rcases List.mem_cons.mp hmem with heq | hmem
      · obtain ⟨rfl, rfl⟩ := Prod.mk.inj heq
        refine ⟨le_rfl, ?_, ?_⟩
        · rw [hlen, Piece.bytes]
          omega
        · rw [List.flatMap_cons]
          exact r.readAt_append
      · exact hrest hmem

/-- The references of an instruction stand at their offsets. -/
theorem readAt_of_mem_refsAt (hmem : (off, r) ∈ refsAt h) :
    off + r.bytes.length ≤ h.bytes.length ∧ r.readAt h.bytes off = r := by
  have hread := @readAt_of_mem_refsFrom r [] off _ hmem
  rw [bytes_headPieces, List.nil_append, List.length_nil, Nat.zero_add] at hread
  exact hread.2

end Meld.Linker
