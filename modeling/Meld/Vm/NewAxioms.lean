import Meld.Runtime.List
import Meld.Vm.Decoders

/-!
# New axioms

`NEW_AXIOMS` carries facts in its own bytes: the id of a predicate, then its fields as their types
say, a list as its items, each behind a one, and a zero. Two decoders walk over these bytes: the
execution, which builds the facts and sends them to the node that runs, and the disassembler.

The items of a list are pushed on a stack while they are read, and the list is built from the top of
the stack down, so they come out in the order of the bytes.

The bytes are those that the code reads. `docs/vm_format.tex` has another opcode and floats of four
bytes, and no instruction has that opcode (`not_newAxioms_decoded`).
-/

namespace Meld.Vm.Bytecode

open Lib Lib.Bytes Linker Meld.Runtime

/-! ### Facts and their bytes -/

/-- A fact of a predicate. -/
structure Fact where
  pred : ℕ
  fields : List Value
  deriving DecidableEq, Repr

/-- A field as it stands in the instruction; there are no bytes for a string. -/
def axiomField : Value → AxiomField
  | .item x => .item x
  | .list _ xs => .list xs
  | .string _ => .list []

/-- A fact as it stands in the instruction. -/
def Fact.toAxiom (f : Fact) : Axiom := ⟨.ofNat f.pred, f.fields.map axiomField⟩

/-- The facts of an instruction. -/
def factBytes (fs : List Fact) : List UInt8 := (fs.map Fact.toAxiom).flatMap Axiom.bytes

/-- The instruction. -/
def newAxiomsBytes (fs : List Fact) : List UInt8 :=
  0x14 :: (le 4 (5 + (factBytes fs).length) ++ factBytes fs)

/-- The bytes of the instruction are those of its facts behind the opcode. -/
theorem bytes_newAxioms (fs : List Fact) :
    (Instr.newAxioms (fs.map Fact.toAxiom)).bytes = newAxiomsBytes fs := rfl

/-- A fact of one of the predicates, without strings. -/
structure Fact.Valid (predicates : List (List FieldType)) (f : Fact) : Prop where
  /-- the id has seven bits -/
  pred_lt : f.pred < 128
  types : predicates[f.pred]? = some (f.fields.map Value.type)
  ok : ∀ v ∈ f.fields, v.Ok
  noString : ∀ v ∈ f.fields, v.type ≠ .string

/-! ### Execution -/

/-- The size of an item. -/
def itemSize : ItemType → ℕ
  | .int => 4
  | .float => 8
  | .node => 4

/-- `pcounter_int`, `pcounter_float` and `pcounter_node`. -/
def pcounterItem (τ : ItemType) (pc : List UInt8) : Exec Item :=
  match τ with
  | .int => do return .int (UInt32.ofNat (← numGet 4 pc 0)).toInt32
  | .float => do return .float (.ofNat (← numGet 8 pc 0))
  | .node => do return .node (.ofNat (← numGet 4 pc 0))

/-- `while(*pc++ == 1)`: the items that are pushed on the stack, and what follows the list. -/
def readStack (τ : ItemType) : ℕ → List UInt8 → List Item → Exec (List Item × List UInt8)
  | 0, _, _ => .error .diverge
  | fuel + 1, pc, s => do
    if (← byteGet pc 0) = 1 then
      let x ← pcounterItem τ (pc.drop 1)
      readStack τ fuel (pc.drop (1 + itemSize τ)) (x :: s)
    else return (s, pc.drop 1)

/-- The value of a field of the type, and what follows it. -/
def readField (τ : FieldType) (pc : List UInt8) : Exec (Value × List UInt8) :=
  match τ with
  | .item τ => do return (.item (← pcounterItem τ pc), pc.drop (itemSize τ))
  | .list τ => do
    let (s, pc) ← readStack τ pc.length pc []
    return (.list τ (fromStackToList s []), pc)
  | .string => .error .assertion

/-- The fields of a fact. -/
def readFields : List FieldType → List UInt8 → Exec (List Value × List UInt8)
  | [], pc => return ([], pc)
  | τ :: types, pc => do
    let (v, pc) ← readField τ pc
    let (vs, pc) ← readFields types pc
    return (v :: vs, pc)

section

variable {σ : Type} (predicates : List (List FieldType)) (executeSendSelf : σ → Fact → Exec σ)

/-- The loop of `execute_new_axioms`, as long as there are bytes left before the end. -/
def executeAxioms : ℕ → ℕ → List UInt8 → σ → Exec (σ × List UInt8)
  | 0, _, _, _ => .error .diverge
  | fuel + 1, left, pc, state =>
    if 0 < left then do
      let pred := predicateGet (← byteGet pc 0)
      let types ← deref predicates[pred]?
      let (fields, pc') ← readFields types (pc.drop 1)
      let state ← executeSendSelf state ⟨pred, fields⟩
      executeAxioms fuel (left - (pc.length - pc'.length)) pc' state
    else return (state, pc)

/-- `execute_new_axioms`: the state after the facts were sent, and the place where it stops. -/
def executeNewAxioms (pc : List UInt8) (state : σ) : Exec (σ × List UInt8) := do
  let jump ← numGet 4 pc 1
  executeAxioms predicates executeSendSelf pc.length (jump - 5) (pc.drop 5) state

/-- A round of the loop of `execute` at an instruction without a jump: the state after it, and the
address where the loop goes on. What the other instructions do is `other`. -/
def executeRound (other : List UInt8 → σ → Exec σ) (pc : List UInt8) (state : σ) :
    Exec (σ × List UInt8) := do
  match ← fetch pc with
  | .newAxioms => do
    let (state, _) ← executeNewAxioms predicates executeSendSelf pc state
    return (state, pc.drop (← advance pc))
  | _ => do
    let state ← other pc state
    return (state, pc.drop (← advance pc))

end

/-- `NEW_AXIOMS_INSTR` in `instr_print`: how far it walks. -/
def printNewAxioms (predicates : List (List FieldType)) (pc : List UInt8) : Exec ℕ := do
  let jump ← numGet 4 pc 1
  return 5 + (← printAxioms predicates pc.length (jump - 5) (pc.drop 5))

/-- The printer dispatches on the opcode of NEW_AXIOMS. -/
theorem printLength_newAxioms (predicates : List (List FieldType)) (pc : List UInt8) :
    printLength predicates (0x14 :: pc) = printNewAxioms predicates (0x14 :: pc) := rfl

/-! ### What execution reads -/

/-- A scalar operand has as many bytes as its type says. -/
theorem length_itemBytes (x : Item) : (AxiomField.itemBytes x).length = itemSize x.type := by
  cases x <;> exact length_le _ _

/-- A number that fits is read back. -/
private theorem numGet_of_lt {k n : ℕ} (h : n < 256 ^ k) (tail : List UInt8) :
    numGet k (le k n ++ tail) 0 = .ok n := by
  have hget : numGet k (le k n ++ tail) 0 = .ok (n % 256 ^ k) := numGet_append k [] rfl n tail
  rwa [Nat.mod_eq_of_lt h] at hget

/-- A scalar operand is read back by its type. -/
theorem pcounterItem_bytes (x : Item) (tail : List UInt8) :
    pcounterItem x.type (AxiomField.itemBytes x ++ tail) = .ok x := by
  cases x with
  | int x =>
    rw [Item.type, AxiomField.itemBytes, pcounterItem, numGet_of_lt x.toUInt32.toNat_lt, ok_bind,
      UInt32.ofNat_toNat]
    rfl
  | float x =>
    rw [Item.type, AxiomField.itemBytes, pcounterItem, numGet_of_lt x.toNat_lt, ok_bind,
      UInt64.ofNat_toNat]
    rfl
  | node x =>
    rw [Item.type, AxiomField.itemBytes, pcounterItem, numGet_of_lt x.toNat_lt, ok_bind,
      UInt32.ofNat_toNat]
    rfl

/-- The elements of a list come onto the stack, the last one on top. -/
theorem readStack_bytes {τ : ItemType} {xs : List Item} (hxs : ∀ x ∈ xs, x.type = τ) {fuel : ℕ}
    (hfuel : xs.length < fuel) (tail : List UInt8) (stk : List Item) :
    readStack τ fuel ((AxiomField.list xs).bytes ++ tail) stk = .ok (xs.reverse ++ stk, tail) := by
  induction xs generalizing fuel stk with
  | nil =>
    obtain ⟨fuel, rfl⟩ : ∃ n, fuel = n + 1 := ⟨fuel - 1, by simp at hfuel; omega⟩
    rfl
  | cons x xs ih =>
    obtain ⟨fuel, rfl⟩ : ∃ n, fuel = n + 1 := ⟨fuel - 1, by simp at hfuel; omega⟩
    have hx : x.type = τ := hxs x List.mem_cons_self
    have hbytes : (AxiomField.list (x :: xs)).bytes ++ tail =
        1 :: (AxiomField.itemBytes x ++ ((AxiomField.list xs).bytes ++ tail)) := by
      simp [AxiomField.bytes]
    have hitem := pcounterItem_bytes x ((AxiomField.list xs).bytes ++ tail)
    rw [hx] at hitem
    have hdrop : (1 :: (AxiomField.itemBytes x ++ ((AxiomField.list xs).bytes ++ tail))).drop
        (1 + itemSize τ) = (AxiomField.list xs).bytes ++ tail := by
      rw [Nat.add_comm, List.drop_succ_cons, ← hx, ← length_itemBytes, List.drop_left]
    rw [hbytes, readStack]
    have hone : byteGet (1 :: (AxiomField.itemBytes x ++ ((AxiomField.list xs).bytes ++ tail))) 0 =
      .ok 1 := rfl
    simp only [hone, ok_bind, if_true, List.drop_succ_cons, List.drop_zero, hitem, hdrop,
      ih (fun y hy => hxs y (List.mem_cons_of_mem x hy)) (Nat.lt_of_succ_lt_succ hfuel),
      List.reverse_cons, List.append_assoc, List.cons_append, List.nil_append]

/-- A field is read back by its type. -/
theorem readField_bytes {v : Value} (hok : v.Ok) (hstring : v.type ≠ .string)
    (tail : List UInt8) : readField v.type ((axiomField v).bytes ++ tail) = .ok (v, tail) := by
  cases v with
  | item x =>
    have hdrop : (AxiomField.itemBytes x ++ tail).drop (itemSize x.type) = tail := by
      rw [← length_itemBytes, List.drop_left]
    simp only [Value.type, axiomField, AxiomField.bytes, readField, pcounterItem_bytes, ok_bind,
      hdrop, pure_eq_ok]
  | list τ xs =>
    have hfuel : xs.length < ((AxiomField.list xs).bytes ++ tail).length := by
      rw [List.length_append]
      exact Nat.lt_add_right _ (length_lt_bytes xs)
    simp only [Value.type, axiomField, readField, readStack_bytes hok hfuel tail [], ok_bind,
      fromStackToList_eq, List.append_nil, List.reverse_reverse, pure_eq_ok]
  | string p => exact absurd rfl hstring

/-- The fields of a fact are read back by the types of its predicate. -/
theorem readFields_bytes {vs : List Value} (hok : ∀ v ∈ vs, v.Ok)
    (hstring : ∀ v ∈ vs, v.type ≠ .string) (tail : List UInt8) :
    readFields (vs.map Value.type) ((vs.map axiomField).flatMap AxiomField.bytes ++ tail) =
      .ok (vs, tail) := by
  induction vs with
  | nil => rfl
  | cons v vs ih =>
    have hv := readField_bytes (hok v List.mem_cons_self) (hstring v List.mem_cons_self)
      ((vs.map axiomField).flatMap AxiomField.bytes ++ tail)
    have hvs := ih (fun w hw => hok w (List.mem_cons_of_mem v hw))
      fun w hw => hstring w (List.mem_cons_of_mem v hw)
    rw [List.map_cons, List.map_cons, List.flatMap_cons, List.append_assoc, readFields, hv, ok_bind]
    simp only [hvs, ok_bind, pure_eq_ok]

/-- The bytes of the first fact are in front of the others'. -/
theorem factBytes_cons (f : Fact) (fs : List Fact) :
    factBytes (f :: fs) = f.toAxiom.bytes ++ factBytes fs := by
  rw [factBytes, List.map_cons, List.flatMap_cons]
  rfl

/-- Every fact has a byte at least. -/
theorem length_le_factBytes (fs : List Fact) : fs.length ≤ (factBytes fs).length := by
  induction fs with
  | nil => exact Nat.zero_le _
  | cons f fs ih =>
    rw [factBytes_cons, List.length_append, Axiom.bytes, List.length_cons, List.length_cons]
    omega

/-- The byte of the predicate is read back. -/
theorem Fact.Valid.predicateGet {predicates : List (List FieldType)} {f : Fact}
    (h : f.Valid predicates) : predicateGet f.toAxiom.pred = f.pred := by
  have hlt := h.pred_lt
  rw [Linker.predicateGet, toAxiom, UInt8.toNat_ofNat']
  omega

section

variable {σ : Type} {predicates : List (List FieldType)} {executeSendSelf : σ → Fact → Exec σ}

/-- The facts are sent one after another, and the loop stops behind the last one. -/
theorem executeAxioms_bytes {fs : List Fact} (h : ∀ f ∈ fs, f.Valid predicates) {fuel : ℕ}
    (hfuel : fs.length < fuel) (tail : List UInt8) (state : σ) :
    executeAxioms predicates executeSendSelf fuel (factBytes fs).length (factBytes fs ++ tail)
      state = do return (← fs.foldlM executeSendSelf state, tail) := by
  induction fs generalizing fuel state with
  | nil =>
    obtain ⟨fuel, rfl⟩ : ∃ n, fuel = n + 1 := ⟨fuel - 1, by simp at hfuel; omega⟩
    rfl
  | cons f fs ih =>
    obtain ⟨fuel, rfl⟩ : ∃ n, fuel = n + 1 := ⟨fuel - 1, by simp at hfuel; omega⟩
    have hf := h f List.mem_cons_self
    have ih := fun state => ih (fun g hg => h g (List.mem_cons_of_mem f hg))
      (Nat.lt_of_succ_lt_succ hfuel) state
    obtain ⟨rest, hrest⟩ : ∃ rest, rest = factBytes fs ++ tail := ⟨_, rfl⟩
    have hpos : 0 < (f.toAxiom.bytes ++ factBytes fs).length := by simp [Axiom.bytes]
    have hpred : byteGet (f.toAxiom.bytes ++ rest) 0 = .ok f.toAxiom.pred := rfl
    have hfields : readFields (f.fields.map Value.type) ((f.toAxiom.bytes ++ rest).drop 1) =
        .ok (f.fields, rest) := readFields_bytes hf.ok hf.noString rest
    have hleft : (f.toAxiom.bytes ++ factBytes fs).length -
        ((f.toAxiom.bytes ++ rest).length - rest.length) = (factBytes fs).length := by
      rw [List.length_append, List.length_append, Nat.add_sub_cancel, Nat.add_sub_cancel_left]
    rw [factBytes_cons, List.append_assoc, ← hrest, executeAxioms, if_pos hpos, hpred, ok_bind]
    simp only [hf.predicateGet, hf.types, deref_some, hfields, ok_bind, hleft]
    rw [List.foldlM_cons]
    simp only [bind_assoc]
    refine bind_congr fun state' => ?_
    rw [hrest]
    exact ih state'

/-- Valid facts have fields of their predicates' types. -/
theorem axiomsTyped_of_valid {fs : List Fact} (h : ∀ f ∈ fs, f.Valid predicates) :
    AxiomsTyped predicates (fs.map Fact.toAxiom) := by
  intro a ha
  obtain ⟨f, hf, rfl⟩ := List.mem_map.mp ha
  have hvalid := h f hf
  refine ⟨_, hvalid.predicateGet.symm ▸ hvalid.types, ?_⟩
  rw [Fact.toAxiom, List.forall₂_map_left_iff, List.forall₂_map_right_iff, List.forall₂_same]
  intro v hv
  cases v with
  | item x => rfl
  | list τ xs => exact hvalid.ok _ hv
  | string p => exact absurd rfl (hvalid.noString _ hv)

/-- The number of bytes that the instruction says, and the bytes of the facts. -/
theorem newAxiomsBytes_spec (fs : List Fact) (tail : List UInt8)
    (hfits : 5 + (factBytes fs).length < 2 ^ 32) :
    numGet 4 (newAxiomsBytes fs ++ tail) 1 = .ok (5 + (factBytes fs).length) ∧
      (newAxiomsBytes fs ++ tail).drop 5 = factBytes fs ++ tail := by
  have hbytes : newAxiomsBytes fs ++ tail =
      [0x14] ++ (le 4 (5 + (factBytes fs).length) ++ (factBytes fs ++ tail)) := by
    simp [newAxiomsBytes]
  rw [hbytes]
  constructor
  · have hget : numGet 4 ([0x14] ++ (le 4 (5 + (factBytes fs).length) ++ (factBytes fs ++ tail)))
        1 = .ok ((5 + (factBytes fs).length) % 256 ^ 4) := numGet_append 4 [0x14] rfl _ _
    have hlt : 5 + (factBytes fs).length < 256 ^ 4 := hfits
    rwa [Nat.mod_eq_of_lt hlt] at hget
  · rw [← List.append_assoc]
    exact List.drop_left' (by rw [List.length_append, length_le]; rfl)

/-- The instruction has five bytes in front of its facts. -/
theorem length_newAxiomsBytes (fs : List Fact) :
    (newAxiomsBytes fs).length = 5 + (factBytes fs).length := by
  rw [newAxiomsBytes, List.length_cons, List.length_append, length_le]
  omega

/-- Execution goes over the facts of the instruction to its end. -/
theorem executeNewAxioms_bytes {fs : List Fact} (h : ∀ f ∈ fs, f.Valid predicates)
    (hfits : 5 + (factBytes fs).length < 2 ^ 32) (tail : List UInt8) (state : σ) :
    executeNewAxioms predicates executeSendSelf (newAxiomsBytes fs ++ tail) state =
      do return (← fs.foldlM executeSendSelf state, tail) := by
  obtain ⟨hjump, hbody⟩ := newAxiomsBytes_spec fs tail hfits
  have hfuel : fs.length < (newAxiomsBytes fs ++ tail).length := by
    have := length_le_factBytes fs
    rw [List.length_append, length_newAxiomsBytes]
    omega
  rw [executeNewAxioms, hjump, ok_bind, hbody, Nat.add_sub_cancel_left]
  exact executeAxioms_bytes h hfuel tail state

/-- The disassembler goes over them too. -/
theorem printNewAxioms_bytes {fs : List Fact} (h : ∀ f ∈ fs, f.Valid predicates)
    (hfits : 5 + (factBytes fs).length < 2 ^ 32) (tail : List UInt8) :
    printNewAxioms predicates (newAxiomsBytes fs ++ tail) = .ok (newAxiomsBytes fs).length := by
  obtain ⟨hjump, hbody⟩ := newAxiomsBytes_spec fs tail hfits
  have hfuel : fs.length < (newAxiomsBytes fs ++ tail).length := by
    have := length_le_factBytes fs
    rw [List.length_append, length_newAxiomsBytes]
    omega
  rw [printNewAxioms, hjump, ok_bind, hbody, Nat.add_sub_cancel_left, factBytes,
    printAxioms_bytes (axiomsTyped_of_valid h) (by rwa [List.length_map]), length_newAxiomsBytes]
  rfl

/-- Execution sends the facts of the instruction, in their order. Its walk over the bytes stops at
the end of the instruction, where the loop goes on, and the disassembler stops there too. -/
theorem newAxioms_decoded (predicates : List (List FieldType))
    (executeSendSelf : σ → Fact → Exec σ) (other : List UInt8 → σ → Exec σ) (fs : List Fact)
    (tail : List UInt8) (state : σ) (h : ∀ f ∈ fs, f.Valid predicates)
    (hfits : 5 + (factBytes fs).length < 2 ^ 32) :
    executeRound predicates executeSendSelf other
        ((Instr.newAxioms (fs.map Fact.toAxiom)).bytes ++ tail) state =
        (do return (← fs.foldlM executeSendSelf state, tail)) ∧
      executeNewAxioms predicates executeSendSelf
        ((Instr.newAxioms (fs.map Fact.toAxiom)).bytes ++ tail) state =
        (do return (← fs.foldlM executeSendSelf state, tail)) ∧
      printLength predicates ((Instr.newAxioms (fs.map Fact.toAxiom)).bytes ++ tail) =
        .ok (Instr.newAxioms (fs.map Fact.toAxiom)).bytes.length := by
  rw [bytes_newAxioms]
  have hexecute : executeNewAxioms predicates executeSendSelf (newAxiomsBytes fs ++ tail) state =
      do return (← fs.foldlM executeSendSelf state, tail) :=
    executeNewAxioms_bytes h hfits tail state
  have hadvance : advance (newAxiomsBytes fs ++ tail) = .ok (newAxiomsBytes fs).length := by
    have hjump := (newAxiomsBytes_spec fs tail hfits).1
    rw [length_newAxiomsBytes, ← hjump]
    rfl
  have hfetch : fetch (newAxiomsBytes fs ++ tail) = .ok .newAxioms := rfl
  refine ⟨?_, hexecute, ?_⟩
  · rw [executeRound, hfetch, ok_bind]
    simp only [hexecute, hadvance, bind_assoc, ok_bind, pure_bind, List.drop_left]
  · refine (printLength_newAxioms predicates _).trans ?_
    exact printNewAxioms_bytes h hfits tail

end

/-- Two facts, of which the second has a list. -/
def sampleFacts : List Fact :=
  [⟨0, [.item (.int (-1))]⟩, ⟨1, [.list .node [.node 3, .node 7], .item (.float 0)]⟩]

theorem newAxioms_decoded_sample :
    executeRound [[.item .int], [.list .node, .item .float]]
        (fun sent f => Except.ok (sent ++ [f])) (fun _ sent => Except.ok sent)
        ((Instr.newAxioms (sampleFacts.map Fact.toAxiom)).bytes ++ [0]) [] =
        (do return (← sampleFacts.foldlM (fun sent f => Except.ok (sent ++ [f])) [], [0])) ∧
      executeNewAxioms [[.item .int], [.list .node, .item .float]]
        (fun sent f => Except.ok (sent ++ [f]))
        ((Instr.newAxioms (sampleFacts.map Fact.toAxiom)).bytes ++ [0]) [] =
        (do return (← sampleFacts.foldlM (fun sent f => Except.ok (sent ++ [f])) [], [0])) ∧
      printLength [[.item .int], [.list .node, .item .float]]
        ((Instr.newAxioms (sampleFacts.map Fact.toAxiom)).bytes ++ [0]) =
        .ok (Instr.newAxioms (sampleFacts.map Fact.toAxiom)).bytes.length := by
  refine newAxioms_decoded _ _ _ sampleFacts [0] [] ?_ (by decide +kernel)
  intro f hf
  rcases List.mem_cons.mp hf with rfl | hf
  · exact ⟨by decide, rfl, by decide, by decide⟩
  · rw [List.mem_singleton.mp hf]
    exact ⟨by decide, rfl, by decide, by decide⟩

/-! ### The encoding of the document -/

/-- An item as `docs/vm_format.tex` has it, with four bytes for a float. -/
def docItemBytes (single : UInt64 → UInt32) : Item → List UInt8
  | .int x => le 4 x.toUInt32.toNat
  | .float x => le 4 (single x).toNat
  | .node x => le 4 x.toNat

/-- A field as the document has it. -/
def docFieldBytes (single : UInt64 → UInt32) : Value → List UInt8
  | .item x => docItemBytes single x
  | .list _ xs => xs.flatMap (fun x => 1 :: docItemBytes single x) ++ [0]
  | .string _ => []

/-- The facts as the document has them. -/
def docFactBytes (single : UInt64 → UInt32) (fs : List Fact) : List UInt8 :=
  fs.flatMap fun f => .ofNat f.pred :: f.fields.flatMap (docFieldBytes single)

/-- The instruction as the document has it: the opcode `0001 1110`, the jump and the facts. -/
def docBytes (single : UInt64 → UInt32) (fs : List Fact) : List UInt8 :=
  0x1e :: (le 4 (5 + (docFactBytes single fs).length) ++ docFactBytes single fs)

/-- No instruction has the opcode of the document. -/
theorem fetch_docBytes (single : UInt64 → UInt32) (fs : List Fact) (tail : List UInt8) :
    fetch (docBytes single fs ++ tail) = .error .thrown := rfl

/-- The encoding of the document is not executed, not even that of a single integer. -/
theorem not_newAxioms_decoded : ¬∃ single, ∀ (predicates : List (List FieldType)) (fs : List Fact)
    (tail : List UInt8), (∀ f ∈ fs, f.Valid predicates) →
      5 + (docFactBytes single fs).length < 2 ^ 32 →
        executeRound predicates (fun sent f => Except.ok (sent ++ [f]))
          (fun _ sent => Except.ok sent) (docBytes single fs ++ tail) [] =
            (do return (← fs.foldlM (fun sent f => Except.ok (sent ++ [f])) [], tail)) := by
  rintro ⟨single, hall⟩
  have hvalid : ∀ f ∈ [Fact.mk 0 [.item (.int 7)]], f.Valid [[.item .int]] := by
    intro f hf
    rw [List.mem_singleton.mp hf]
    exact ⟨by decide, rfl, by decide, by decide⟩
  have hsent := hall [[.item .int]] [⟨0, [.item (.int 7)]⟩] [] hvalid
    (by simp [docFactBytes, docFieldBytes, docItemBytes])
  rw [executeRound, fetch_docBytes] at hsent
  cases hsent

end Meld.Vm.Bytecode
