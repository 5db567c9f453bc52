import Meld.Linker.TraversalOrder
import Meld.Vm.Execute

/-!
# Executing byte-code does what its tree means

The interpreter finds the way through the byte-code by lengths, jumps and tables. If the sizes fit
their fields, `advance` knows the operands and none of them is the program counter, what it does from
the address of a tree on is what the tree means (`execute_eq_run`): every jump leads to the code that the tree has there, the body of an
`ITER_INSTR` is executed for each fact as it stands between the instruction and its jump, the node
executes its own block of a `SELECT_INSTR` or none, and the execution ends, unless the calls of
functions do not.

The proof is by induction on the tree, with what the code behind it means (`Runs`); what an
instruction does at its address is a lemma for each kind.
-/

namespace Meld.Vm.Bytecode

open Lib Lib.Bytes Linker Linker.Traversal Iterate Interp

variable {σ : Type} {I : Interp σ} {call : ℕ → Option (Act (State σ) ReturnType)}

/-- Execution from the address on is the computation. -/
def Runs (I : Interp σ) (pc : List UInt8) (b : Act (State σ) ReturnType) : Prop :=
  ∃ n, ∀ fuel ≥ n, I.execute fuel pc = b

/-- Instructions that fit their fields, whose operands `advance` knows and of which none is the
program counter. -/
def Sound (heads : List Head) : Prop :=
  size heads < 2 ^ 32 ∧ ∀ h ∈ heads, h.Fits ∧ h.Sized ∧ h.Straight

section

variable {h : Head} {heads heads' : List Head}

theorem Sound.head (hs : Sound (h :: heads)) : h.Fits ∧ h.Sized ∧ h.Straight :=
  hs.2 h List.mem_cons_self

theorem Sound.tail (hs : Sound (h :: heads)) : Sound heads := by
  refine ⟨?_, fun other ho => hs.2 other (List.mem_cons_of_mem _ ho)⟩
  have := hs.1
  rw [size_cons] at this
  omega

theorem Sound.left (hs : Sound (heads ++ heads')) : Sound heads := by
  refine ⟨?_, fun other ho => hs.2 other (List.mem_append_left _ ho)⟩
  have := hs.1
  rw [size_append] at this
  omega

theorem Sound.right (hs : Sound (heads ++ heads')) : Sound heads' := by
  refine ⟨?_, fun other ho => hs.2 other (List.mem_append_right _ ho)⟩
  have := hs.1
  rw [size_append] at this
  omega

/-- Sizes of parts of the code fit a jump. -/
theorem Sound.toNat_jump {x : ℕ} (hs : Sound (h :: (heads ++ heads')))
    (hx : x ≤ h.bytes.length + size heads) : (UInt32.ofNat x).toNat = x := by
  have hlt := hs.1
  rw [size_cons, size_append] at hlt
  exact UInt32.toNat_ofNat_of_lt' (show x < 2 ^ 32 by omega)

end

/-! ### One instruction -/

/-- `advance` takes the sizes of all operands of conditions. -/
theorem sized_iter (pred options argument : UInt8) (jump : UInt32) (ms : List IterMatch) :
    (Head.iter pred options argument jump ms).Sized := by
  intro o ho
  obtain ⟨m, -, rfl⟩ := List.mem_map.mp ho
  rfl

section

variable {tail : List UInt8} {i : Instr} {next body : Act (State σ) ReturnType}

/-- What the interpreter does at a return instruction. -/
theorem runs_ret {r : ReturnType} (hr : returns i = some r) :
    Runs I (i.bytes ++ tail) (I.ret r) := by
  refine ⟨1, fun fuel hfuel => ?_⟩
  obtain ⟨fuel, rfl⟩ := Nat.exists_eq_succ_of_ne_zero (Nat.one_le_iff_ne_zero.mp hfuel)
  have hfetch := fetch_head (.instr i) tail
  rw [Head.bytes] at hfetch
  rw [Interp.execute, hfetch]
  cases i with
  | returnInstr | returnLinear | returnDerived | next =>
    obtain rfl := Option.some.inj hr
    rfl
  | _ => exact absurd hr (by simp [returns])

/-- A move whose destination is not the program counter leaves the address as it is. -/
theorem executeMove_bind {src dest : Val} {α : Type}
    (hstraight : (Head.instr (.move src dest)).Straight)
    (f : List UInt8 → Act (State σ) α) :
    I.executeMove ((Instr.move src dest).bytes ++ tail) >>= f = (do
      I.instr ((Instr.move src dest).bytes ++ tail)
      f ((Instr.move src dest).bytes ++ tail)) := by
  have hdest : valGet ((Instr.move src dest).bytes ++ tail) 2 = .ok (dest.code.toNat % 64) := rfl
  have hkind : valKind (dest.code.toNat % 64) ≠ some .pcounter := by
    rw [valKind_code, Ne, Option.some.injEq]
    exact hstraight (.writable, dest) (List.mem_cons_of_mem _ List.mem_cons_self)
  rw [Interp.executeMove, hdest, Act.bind_ofExec_ok, if_neg hkind, Act.bind_assoc]
  rfl

/-- At an instruction without a jump. -/
theorem runs_step (hfits : (Head.instr i).Fits) (hsized : (Head.instr i).Sized)
    (hstraight : (Head.instr i).Straight) (hr : returns i = none) (hc : calls i = none)
    (hnext : Runs I tail next) : Runs I (i.bytes ++ tail) (I.step i next) := by
  obtain ⟨n, hn⟩ := hnext
  refine ⟨n + 1, fun fuel hfuel => ?_⟩
  obtain ⟨fuel, rfl⟩ := Nat.exists_eq_add_of_le hfuel
  have hadvance := advance_head hfits tail
  rw [if_pos hsized, Head.bytes] at hadvance
  have hrest : I.execute (n + fuel) ((i.bytes ++ tail).drop i.bytes.length) = next := by
    rw [List.drop_left]
    exact hn _ (Nat.le_add_right _ _)
  have hexec : I.execute (n + 1 + fuel) (i.bytes ++ tail) = (do
      Act.modify I.count
      I.instr (i.bytes ++ tail)
      let m ← Act.ofExec (advance (i.bytes ++ tail))
      I.execute (n + fuel) ((i.bytes ++ tail).drop m)) := by
    have hfetch := fetch_head (.instr i) tail
    rw [Head.bytes] at hfetch
    rw [Nat.add_right_comm, Interp.execute, hfetch]
    cases i with
    | returnInstr | returnLinear | returnDerived | next => exact absurd hr (by simp [returns])
    | callf => exact absurd hc (by simp [calls])
    | move src dest =>
      exact congrArg (Act.modify I.count >>= fun _ => ·) (executeMove_bind hstraight _)
    | _ => rfl
  rw [hexec, hadvance, I.instr_local i tail hfits hsized hstraight]
  simp only [Act.bind_ofExec_ok, hrest]
  rfl

/-- At a call. -/
theorem runs_call {id : UInt8} {f : Tree} (hc : calls i = some id)
    (hf : I.function id.toNat = some f) (hnext : Runs I f.bytes next) :
    Runs I (i.bytes ++ tail) (I.jumps next) := by
  obtain ⟨n, hn⟩ := hnext
  refine ⟨n + 1, fun fuel hfuel => ?_⟩
  obtain ⟨fuel, rfl⟩ := Nat.exists_eq_add_of_le hfuel
  cases i with
  | callf id' =>
    obtain rfl := Option.some.inj hc
    have hexec : I.execute (n + 1 + fuel) ((Instr.callf id').bytes ++ tail) = (do
        Act.modify I.count
        let f ← Act.ofExec (deref (I.function id'.toNat))
        I.execute (n + fuel) f.bytes) := by
      rw [Nat.add_right_comm]
      rfl
    rw [hexec, hf, deref_some, Act.bind_ofExec_ok, hn _ (Nat.le_add_right _ _)]
    rfl
  | _ => exact absurd hc (by simp [calls])

/-- At an `END_LINEAR_INSTR`. -/
theorem runs_endLinear : Runs I (Head.endLinear.bytes ++ tail) (I.ret .endLinear) := by
  refine ⟨1, fun fuel hfuel => ?_⟩
  obtain ⟨fuel, rfl⟩ := Nat.exists_eq_succ_of_ne_zero (Nat.one_le_iff_ne_zero.mp hfuel)
  rfl

/-- At a `RETURN_SELECT_INSTR`, whose jump leads over the code behind it. -/
theorem runs_returnSelect {jump : UInt32} {code : List UInt8} (hjump : jump.toNat = 5 + code.length)
    (hnext : Runs I tail next) :
    Runs I ((Head.returnSelect jump).bytes ++ (code ++ tail)) (I.jumps next) := by
  obtain ⟨n, hn⟩ := hnext
  refine ⟨n + 1, fun fuel hfuel => ?_⟩
  obtain ⟨fuel, rfl⟩ := Nat.exists_eq_add_of_le hfuel
  have hnum : numGet 4 ((Head.returnSelect jump).bytes ++ (code ++ tail)) 1 = .ok jump.toNat := by
    rw [Head.bytes, List.append_assoc]
    exact numGet_word rfl jump _
  have hdrop : ((Head.returnSelect jump).bytes ++ (code ++ tail)).drop jump.toNat = tail := by
    rw [hjump, ← List.append_assoc]
    exact List.drop_left' (by simp [Head.bytes]; omega)
  have hexec : I.execute (n + 1 + fuel) ((Head.returnSelect jump).bytes ++ (code ++ tail)) = (do
      Act.modify I.count
      let jump' ← Act.ofExec (numGet 4 ((Head.returnSelect jump).bytes ++ (code ++ tail)) 1)
      I.execute (n + fuel) (((Head.returnSelect jump).bytes ++ (code ++ tail)).drop jump')) := by
    rw [Nat.add_right_comm]
    rfl
  rw [hexec, hnum, Act.bind_ofExec_ok, hdrop, hn _ (Nat.le_add_right _ _)]
  rfl

/-- At an `IF_INSTR`, whose jump leads over its body. -/
theorem runs_cond {reg : UInt8} {jump : UInt32} {code : List UInt8}
    (hjump : jump.toNat = 6 + code.length) (hbody : Runs I (code ++ tail) body)
    (hnext : Runs I tail next) :
    Runs I ((Head.ifReg reg jump).bytes ++ (code ++ tail)) (I.cond reg body next) := by
  obtain ⟨n, hn⟩ := hnext
  obtain ⟨m, hm⟩ := hbody
  refine ⟨n + m + 1, fun fuel hfuel => ?_⟩
  obtain ⟨fuel, rfl⟩ := Nat.exists_eq_add_of_le hfuel
  have hnum : numGet 4 ((Head.ifReg reg jump).bytes ++ (code ++ tail)) 2 = .ok jump.toNat := by
    rw [Head.bytes, List.append_assoc]
    exact numGet_word rfl jump _
  have hlen : (Head.ifReg reg jump).bytes.length = 6 := by simp [Head.bytes]
  have hdrop : ((Head.ifReg reg jump).bytes ++ (code ++ tail)).drop jump.toNat = tail := by
    rw [hjump, ← List.append_assoc]
    exact List.drop_left' (by simp [Head.bytes]; omega)
  have hexec : I.execute (n + m + 1 + fuel) ((Head.ifReg reg jump).bytes ++ (code ++ tail)) = (do
      Act.modify I.count
      let jump' ← Act.ofExec (numGet 4 ((Head.ifReg reg jump).bytes ++ (code ++ tail)) 2)
      let s ← Act.get
      if !I.getBool (regGet reg) s then
        I.execute (n + m + fuel) (((Head.ifReg reg jump).bytes ++ (code ++ tail)).drop jump')
      else I.execute (n + m + fuel) (((Head.ifReg reg jump).bytes ++ (code ++ tail)).drop 6)) := by
    rw [Nat.add_right_comm]
    rfl
  have hin : ((Head.ifReg reg jump).bytes ++ (code ++ tail)).drop 6 = code ++ tail :=
    List.drop_left' hlen
  rw [hexec, hnum, Act.bind_ofExec_ok, hdrop, hin, hn _ (by omega), hm _ (by omega)]
  rfl

/-- At a `RESET_LINEAR_INSTR`, whose jump leads over its body. -/
theorem runs_reset {jump : UInt32} {code : List UInt8} (hjump : jump.toNat = 5 + code.length)
    (hbody : Runs I (code ++ tail) body) (hnext : Runs I tail next) :
    Runs I ((Head.resetLinear jump).bytes ++ (code ++ tail)) (I.reset body next) := by
  obtain ⟨n, hn⟩ := hnext
  obtain ⟨m, hm⟩ := hbody
  refine ⟨n + m + 1, fun fuel hfuel => ?_⟩
  obtain ⟨fuel, rfl⟩ := Nat.exists_eq_add_of_le hfuel
  have hnum : numGet 4 ((Head.resetLinear jump).bytes ++ (code ++ tail)) 1 = .ok jump.toNat := by
    rw [Head.bytes, List.append_assoc]
    exact numGet_word rfl jump _
  have hdrop : ((Head.resetLinear jump).bytes ++ (code ++ tail)).drop jump.toNat = tail := by
    rw [hjump, ← List.append_assoc]
    exact List.drop_left' (by simp [Head.bytes]; omega)
  have hin : ((Head.resetLinear jump).bytes ++ (code ++ tail)).drop 5 = code ++ tail :=
    List.drop_left' (by simp [Head.bytes])
  have hexec : I.execute (n + m + 1 + fuel) ((Head.resetLinear jump).bytes ++ (code ++ tail)) = (do
      Act.modify I.count
      let old ← Act.get
      Act.modify fun s => { s with isLinear := false }
      let ret ← I.execute (n + m + fuel)
        (((Head.resetLinear jump).bytes ++ (code ++ tail)).drop 5)
      Act.assert (ret = .endLinear)
      Act.modify fun s => { s with isLinear := old.isLinear }
      let jump' ← Act.ofExec (numGet 4 ((Head.resetLinear jump).bytes ++ (code ++ tail)) 1)
      I.execute (n + m + fuel)
        (((Head.resetLinear jump).bytes ++ (code ++ tail)).drop jump')) := by
    rw [Nat.add_right_comm]
    rfl
  rw [hexec, hin, hm _ (by omega), hnum]
  simp only [Act.bind_ofExec_ok, hdrop, hn _ (show n + m + fuel ≥ n by omega)]
  rfl

/-- At an `ITER_INSTR`, whose jump leads over its body. -/
theorem runs_iterate {pred options argument : UInt8} {jump : UInt32} {ms : List IterMatch}
    {code : List UInt8} (hjump : jump.toNat = 8 + (matchBytes ms).length + code.length)
    (hbody : Runs I (code ++ tail) body) (hnext : Runs I tail next) :
    Runs I ((Head.iter pred options argument jump ms).bytes ++ (code ++ tail))
      (I.iterate ⟨predicateGet pred, options.toNat, argument.toNat⟩ ms body next) := by
  obtain ⟨n, hn⟩ := hnext
  obtain ⟨m, hm⟩ := hbody
  refine ⟨n + m + 1, fun fuel hfuel => ?_⟩
  obtain ⟨fuel, rfl⟩ := Nat.exists_eq_add_of_le hfuel
  obtain ⟨pc, hpc⟩ : ∃ pc, pc = (Head.iter pred options argument jump ms).bytes ++ (code ++ tail) :=
    ⟨_, rfl⟩
  -- where the parts of the instruction are
  have hsplit : pc = [0xa0, pred, options, argument] ++ (le 4 jump.toNat ++
      (matchBytes ms ++ (code ++ tail))) := by
    rw [hpc, Head.bytes]
    simp only [List.append_assoc]
  have hlen : (Head.iter pred options argument jump ms).bytes.length =
      8 + (matchBytes ms).length := by
    simp [Head.bytes]
    omega
  have hnum : numGet 4 pc 4 = .ok jump.toNat := by
    rw [hsplit]
    exact numGet_word rfl jump _
  have hiter : iterAt pc = .ok ⟨predicateGet pred, options.toNat, argument.toNat⟩ := by
    rw [hsplit]
    rfl
  have hfits : (Head.iter pred options argument jump ms).Fits := trivial
  -- `advance` leads to the body
  have hadvance : advance pc = .ok (8 + (matchBytes ms).length) := by
    rw [hpc, advance_head hfits, if_pos (sized_iter _ _ _ _ _), hlen]
  have hmatch : pc.drop 8 = matchBytes ms ++ (code ++ tail) := by
    rw [hsplit, ← List.append_assoc]
    exact List.drop_left' (by simp)
  have hin : pc.drop (8 + (matchBytes ms).length) = code ++ tail := by
    rw [hpc]
    exact List.drop_left' hlen
  -- and the jump leads behind it
  have hdrop : pc.drop jump.toNat = tail := by
    rw [hpc, hjump, ← List.append_assoc]
    exact List.drop_left' (by rw [List.length_append, hlen])
  -- a step of the interpreter
  have hexec : I.execute (n + m + 1 + fuel) pc = (do
      Act.modify I.count
      let it ← Act.ofExec (iterAt pc)
      let jump' ← Act.ofExec (numGet 4 pc 4)
      let k ← Act.ofExec (advance pc)
      let s ← Act.get
      let ret ← executeIter (I.machine (pc.drop 8)) it (I.execute (n + m + fuel) (pc.drop k))
        ((I.machine (pc.drop 8)).matchPredicate it s.tuple s.env)
      afterIter ret (I.execute (n + m + fuel) (pc.drop jump'))) := by
    have hfetch : fetch pc = .ok .iter := by
      rw [hpc]
      exact fetch_head _ _
    rw [Nat.add_right_comm, Interp.execute, hfetch]
    rfl
  rw [← hpc, hexec, hiter, hnum, hadvance]
  simp only [Act.bind_ofExec_ok, hmatch, I.machine_local, hin, hdrop,
    hm _ (show n + m + fuel ≥ m by omega), hn _ (show n + m + fuel ≥ n by omega)]
  rfl

/-- At a `SELECT_INSTR`. -/
theorem runs_select {size : UInt32} {table : List UInt32} {pc : List UInt8}
    (hselect : I.executeSelect ((Head.select size table).bytes ++ tail) = .ok pc)
    (hnext : Runs I pc next) : Runs I ((Head.select size table).bytes ++ tail) (I.jumps next) := by
  obtain ⟨n, hn⟩ := hnext
  refine ⟨n + 1, fun fuel hfuel => ?_⟩
  obtain ⟨fuel, rfl⟩ := Nat.exists_eq_add_of_le hfuel
  have hexec : I.execute (n + 1 + fuel) ((Head.select size table).bytes ++ tail) = (do
      Act.modify I.count
      let pc' ← Act.ofExec (I.executeSelect ((Head.select size table).bytes ++ tail))
      I.execute (n + fuel) pc') := by
    rw [Nat.add_right_comm]
    rfl
  rw [hexec, hselect, Act.bind_ofExec_ok, hn _ (Nat.le_add_right _ _)]
  rfl

end

/-! ### The blocks of a `SELECT_INSTR` -/

section

variable {table : List (Option ℕ)} {groups : List (List Head)} {tail : List UInt8}

/-- The instruction with its table. -/
def selectHead (table : List (Option ℕ)) (groups : List (List Head)) : Head :=
  .select (.ofNat (9 + 4 * table.length + size groups.flatten)) (table.map (entry groups))

theorem length_selectHead : (selectHead table groups).bytes.length = 9 + 4 * table.length := by
  rw [selectHead, length_select, List.length_map]

/-- The way to the block with the number, or behind all blocks. -/
def blockAt (groups : List (List Head)) (tail : List UInt8) : Option ℕ → List UInt8
  | none => tail
  | some b => (groups.drop b).flatten.flatMap Head.bytes ++ tail

/-- `execute_select` finds the block of the node. -/
theorem executeSelect_eq (hs : Sound (selectHead table groups :: groups.flatten))
    {e : Option ℕ} (he : I.entryOf table = some e) :
    I.executeSelect
        ((selectHead table groups).bytes ++ (groups.flatten.flatMap Head.bytes ++ tail)) =
      .ok (blockAt groups tail e) := by
  -- the whole instruction fits its size field
  have hlt : 9 + 4 * table.length + size groups.flatten < 2 ^ 32 := by
    have := hs.1
    rwa [size_cons, length_selectHead] at this
  obtain ⟨pc, hpc⟩ : ∃ pc, pc = (selectHead table groups).bytes ++
    (groups.flatten.flatMap Head.bytes ++ tail) := ⟨_, rfl⟩
  have hfits : (table.map (entry groups)).length < 2 ^ 32 := by
    rw [List.length_map]
    omega
  obtain ⟨total, htotal⟩ : ∃ total, total =
    UInt32.ofNat (9 + 4 * table.length + size groups.flatten) := ⟨_, rfl⟩
  -- what the instruction reads of itself
  obtain ⟨hsize, hlength, hentries⟩ :=
    @numGet_select total _ hfits (groups.flatten.flatMap Head.bytes ++ tail)
  rw [htotal, ← selectHead, ← hpc] at hsize hlength hentries
  rw [UInt32.toNat_ofNat_of_lt' hlt] at hsize
  rw [List.length_map] at hlength
  -- the size field leads behind all blocks
  have hbehind : pc.drop (9 + 4 * table.length + size groups.flatten) = tail := by
    rw [hpc, ← List.append_assoc]
    refine List.drop_left' ?_
    rw [List.length_append, length_selectHead]
    rfl
  rw [← hpc, Interp.executeSelect]
  rw [entryOf] at he
  split_ifs at he ⊢ with hstatic
  · -- a node that was created later has no block
    obtain rfl := Option.some.inj he
    rw [hsize, ok_bind, hbehind]
    rfl
  · have hentry : (table.map (entry groups))[I.nodeId]? = some (entry groups e) := by
      rw [List.getElem?_map, he]
      rfl
    rw [hentries I.nodeId _ hentry, ok_bind]
    cases e with
    | none =>
      rw [entry, if_pos (by rfl), hsize, ok_bind, hbehind]
      rfl
    | some b =>
      have htake := size_take_le groups b
      have hoffset : (entry groups (some b)).toNat = size (groups.take b).flatten + 1 := by
        rw [entry, UInt32.toNat_ofNat_of_lt' (show _ < 2 ^ 32 by omega)]
      rw [hoffset, if_neg (Nat.succ_ne_zero _), hlength, ok_bind, pure_eq_ok, blockAt]
      -- the offset in the table counts from the table's end, and one more
      have haddress : 9 + table.length * 4 + (size (groups.take b).flatten + 1) - 1 =
          9 + 4 * table.length + size (groups.take b).flatten := by omega
      have hgroups : groups.flatten.flatMap Head.bytes =
          (groups.take b).flatten.flatMap Head.bytes ++
            (groups.drop b).flatten.flatMap Head.bytes := by
        rw [← List.flatMap_append, ← List.flatten_append, List.take_append_drop]
      rw [haddress, hpc, hgroups, List.append_assoc, ← List.append_assoc]
      refine congrArg Except.ok (List.drop_left' ?_)
      rw [List.length_append, length_selectHead]
      rfl

end

/-! ### All code -/

/-- What the functions mean is what the interpreter does in their code. -/
def CallsRun (I : Interp σ) (call : ℕ → Option (Act (State σ) ReturnType)) : Prop :=
  ∀ id b, call id = some b → ∃ f, I.function id = some f ∧ Runs I f.bytes b

theorem bytes_cons (h : Head) (heads heads' : List Head) (tail : List UInt8) :
    (h :: (heads ++ heads')).flatMap Head.bytes ++ tail =
      h.bytes ++ (heads.flatMap Head.bytes ++ (heads'.flatMap Head.bytes ++ tail)) := by
  simp only [List.flatMap_cons, List.flatMap_append, List.append_assoc]

mutual

theorem runs_tree (hcall : CallsRun I call) :
    ∀ (c : Tree) {k : Option (Act (State σ) ReturnType)} {b : Act (State σ) ReturnType}
      {tail : List UInt8}, Sound c.heads → I.run call c k = some b →
      (∀ next, k = some next → Runs I tail next) → Runs I (c.bytes ++ tail) b
  | .done, k, b, tail, _, hrun, hk => hk b hrun
  | .instr i rest, k, b, tail, hs, hrun, hk => by
    have hbytes : (Tree.instr i rest).bytes ++ tail = i.bytes ++ (rest.bytes ++ tail) := by
      rw [Tree.bytes, Tree.heads, List.flatMap_cons, List.append_assoc]
      rfl
    rw [hbytes]
    rw [Interp.run] at hrun
    -- the instruction ends the execution, calls a function, or goes on
    cases hr : returns i with
    | some r =>
      rw [hr, Option.map_some, Option.some_or, Option.some.injEq] at hrun
      subst hrun
      exact runs_ret hr
    | none =>
      rw [hr, Option.map_none, Option.none_or] at hrun
      cases hc : calls i with
      | some id =>
        rw [hc, Option.map_some, Option.getD_some] at hrun
        obtain ⟨next, hnext, rfl⟩ := Option.map_eq_some_iff.mp hrun
        obtain ⟨f, hf, hruns⟩ := hcall _ _ hnext
        exact runs_call hc hf hruns
      | none =>
        rw [hc, Option.map_none, Option.getD_none] at hrun
        obtain ⟨next, hnext, rfl⟩ := Option.map_eq_some_iff.mp hrun
        obtain ⟨hfits, hsized, hstraight⟩ := hs.head
        exact runs_step hfits hsized hstraight hr hc (runs_tree hcall rest hs.tail hnext hk)
  | .ifReg reg body rest, k, b, tail, hs, hrun, hk => by
    rw [Interp.run] at hrun
    obtain ⟨next, hnext, hrun⟩ := Option.bind_eq_some_iff.mp hrun
    obtain ⟨inner, hbody, rfl⟩ := Option.map_eq_some_iff.mp hrun
    have hruns := runs_tree hcall rest hs.tail.right hnext hk
    rw [Tree.bytes, Tree.heads, bytes_cons]
    -- the body goes on behind the construct, as the jump does
    refine runs_cond ?_ (runs_tree hcall body hs.tail.left hbody ?_) hruns
    · exact Sound.toNat_jump hs (by simp [Head.bytes])
    · rintro _ ⟨⟩
      exact hruns
  | .iter pred options argument ms body rest, k, b, tail, hs, hrun, hk => by
    rw [Interp.run] at hrun
    obtain ⟨next, hnext, hrun⟩ := Option.bind_eq_some_iff.mp hrun
    obtain ⟨inner, hbody, rfl⟩ := Option.map_eq_some_iff.mp hrun
    have hruns := runs_tree hcall rest hs.tail.right hnext hk
    rw [Tree.bytes, Tree.heads, bytes_cons]
    -- the body is run for each fact and goes on to what is behind it
    refine runs_iterate ?_ (runs_tree hcall body hs.tail.left hbody ?_) hruns
    · exact Sound.toNat_jump hs (by simp [Head.bytes]; omega)
    · rintro _ ⟨⟩
      exact hruns
  | .resetLinear body rest, k, b, tail, hs, hrun, hk => by
    rw [Interp.run] at hrun
    obtain ⟨next, hnext, hrun⟩ := Option.bind_eq_some_iff.mp hrun
    obtain ⟨inner, hbody, rfl⟩ := Option.map_eq_some_iff.mp hrun
    have hheads : (Tree.resetLinear body rest).heads =
        .resetLinear (.ofNat (6 + size body.heads)) ::
          ((body.heads ++ [Head.endLinear]) ++ rest.heads) := by
      rw [Tree.heads, List.append_assoc]
      rfl
    rw [hheads] at hs
    have hruns := runs_tree hcall rest hs.tail.right hnext hk
    -- the body ends with its END LINEAR, and the jump leads behind it
    have hinner : Runs I (body.bytes ++ (Head.endLinear.bytes ++ (rest.bytes ++ tail))) inner := by
      refine runs_tree hcall body hs.tail.left.left hbody fun _ hend => ?_
      obtain rfl := Option.some.inj hend
      exact runs_endLinear
    rw [Tree.bytes, hheads, bytes_cons]
    refine runs_reset ?_ ?_ hruns
    · have hlen : ((body.heads ++ [Head.endLinear]).flatMap Head.bytes).length =
          size body.heads + 1 := by
        rw [List.flatMap_append, List.length_append]
        rfl
      rw [hlen, Sound.toNat_jump hs]
      · omega
      · rw [size_append]
        simp [Head.bytes, size]
        omega
    · rw [List.flatMap_append, List.append_assoc]
      exact hinner
  | .select table blocks rest, k, b, tail, hs, hrun, hk => by
    rw [Interp.run] at hrun
    obtain ⟨next, hnext, hrun⟩ := Option.bind_eq_some_iff.mp hrun
    obtain ⟨e, hentry, hrun⟩ := Option.bind_eq_some_iff.mp hrun
    obtain ⟨inner, hinner, rfl⟩ := Option.map_eq_some_iff.mp hrun
    have hruns := runs_tree hcall rest hs.tail.right hnext hk
    have hall : Sound ((selectHead table blocks.groups :: blocks.groups.flatten) ++ rest.heads) :=
      hs
    rw [Tree.bytes, Tree.heads, bytes_cons]
    refine runs_select (executeSelect_eq hall.left hentry) ?_
    cases e with
    | none =>
      obtain rfl := Option.some.inj hinner
      exact hruns
    | some n => exact runs_block hcall blocks hs.tail.left hinner hruns

theorem runs_block (hcall : CallsRun I call) :
    ∀ (blocks : Traversal.Blocks) {n : ℕ} {next b : Act (State σ) ReturnType} {tail : List UInt8},
      Sound blocks.groups.flatten → I.runBlock call blocks n next = some b → Runs I tail next →
      Runs I (blockAt blocks.groups tail (some n)) b
  | .nil, n, next, b, tail, _, hrun, _ => by
    rw [runBlock] at hrun
    exact absurd hrun (Option.some_ne_none b).symm
  | .cons body jump blocks, n, next, b, tail, hs, hrun, hnext => by
    rw [Traversal.Blocks.groups, List.flatten_cons] at hs
    rw [runBlock] at hrun
    split_ifs at hrun with hn hjump
    · subst hn
      have hbytes : blockAt (Traversal.Blocks.cons body jump blocks).groups tail (some 0) =
          body.bytes ++ ((Head.returnSelect jump).bytes ++
            (blocks.groups.flatten.flatMap Head.bytes ++ tail)) := by
        rw [blockAt, List.drop_zero, Traversal.Blocks.groups, List.flatten_cons]
        simp only [List.flatMap_append, List.flatMap_singleton, List.append_assoc]
        rfl
      rw [hbytes]
      refine runs_tree hcall body hs.left.left hrun fun _ hend => ?_
      obtain rfl := Option.some.inj hend
      exact runs_returnSelect hjump hnext
    · have hdrop : (Traversal.Blocks.cons body jump blocks).groups.drop n =
          blocks.groups.drop (n - 1) := by
        obtain ⟨m, rfl⟩ := Nat.exists_eq_succ_of_ne_zero hn
        rfl
      rw [blockAt, hdrop]
      exact runs_block hcall blocks hs.right hrun hnext

end

/-- The functions do what they mean. -/
theorem callsRun_callee (hfun : ∀ id f, I.function id = some f → Sound f.heads) (depth : ℕ) :
    CallsRun I (I.callee depth) := by
  induction depth with
  | zero =>
    intro id b hb
    exact absurd hb (Option.some_ne_none b).symm
  | succ depth ih =>
    intro id b hb
    rw [callee] at hb
    obtain ⟨f, hf, hrun⟩ := Option.bind_eq_some_iff.mp hb
    refine ⟨f, hf, ?_⟩
    have hruns : Runs I (f.bytes ++ []) b :=
      runs_tree ih f (hfun id f hf) hrun fun _ hnone => by simp at hnone
    rwa [List.append_nil] at hruns

/-! ### Code that means something -/

mutual

/-- The functions that are called mean something, the table of a `SELECT_INSTR` has an entry for the
node and blocks for its entries, and the blocks jump behind it. -/
def Routed (I : Interp σ) (call : ℕ → Option (Act (State σ) ReturnType)) : Tree → Prop
  | .done => True
  | .instr i rest => (∀ id, calls i = some id → (call id.toNat).isSome) ∧ Routed I call rest
  | .ifReg _ body rest | .iter _ _ _ _ body rest | .resetLinear body rest =>
    Routed I call body ∧ Routed I call rest
  | .select table blocks rest =>
    (∃ e, I.entryOf table = some e ∧ ∀ b, e = some b → b < blocks.groups.length) ∧
      RoutedBlocks I call blocks ∧ Routed I call rest

def RoutedBlocks (I : Interp σ) (call : ℕ → Option (Act (State σ) ReturnType)) :
    Traversal.Blocks → Prop
  | .nil => True
  | .cons body jump blocks =>
    jump.toNat = 5 + size blocks.groups.flatten ∧ Routed I call body ∧ RoutedBlocks I call blocks

end

/-- The way past all bodies comes to an instruction behind which it does not go on. -/
def Ends : Tree → Bool
  | .done => false
  | .instr i rest => (returns i).isSome || (calls i).isSome || Ends rest
  | .ifReg _ _ rest | .iter _ _ _ _ _ rest | .resetLinear _ rest | .select _ _ rest => Ends rest

mutual

theorem run_isSome : ∀ (c : Tree) {k : Option (Act (State σ) ReturnType)}, Routed I call c →
    (Ends c = true ∨ k.isSome) → (I.run call c k).isSome
  | .done, k, _, hend => by
    rw [Interp.run]
    simpa [Ends] using hend
  | .instr i rest, k, hr, hend => by
    rw [Interp.run]
    cases hret : returns i with
    | some r => rfl
    | none =>
      cases hc : calls i with
      | some id =>
        have hid := hr.1 id hc
        simpa using hid
      | none =>
        have hrest := run_isSome rest hr.2 (k := k) (by simpa [Ends, hret, hc] using hend)
        simpa using hrest
  | .ifReg reg body rest, k, hr, hend => by
    obtain ⟨next, hnext⟩ := Option.isSome_iff_exists.mp (run_isSome rest (k := k) hr.2 hend)
    have hbody := run_isSome body (k := some next) hr.1 (Or.inr rfl)
    simpa [Interp.run, hnext] using hbody
  | .iter pred options argument ms body rest, k, hr, hend => by
    obtain ⟨next, hnext⟩ := Option.isSome_iff_exists.mp (run_isSome rest (k := k) hr.2 hend)
    have hbody := run_isSome body (k := some next) hr.1 (Or.inr rfl)
    simpa [Interp.run, hnext] using hbody
  | .resetLinear body rest, k, hr, hend => by
    obtain ⟨next, hnext⟩ := Option.isSome_iff_exists.mp (run_isSome rest (k := k) hr.2 hend)
    have hbody := run_isSome body (k := some (I.ret .endLinear)) hr.1 (Or.inr rfl)
    simpa [Interp.run, hnext] using hbody
  | .select table blocks rest, k, hr, hend => by
    obtain ⟨next, hnext⟩ := Option.isSome_iff_exists.mp (run_isSome rest (k := k) hr.2.2 hend)
    obtain ⟨e, hentry, hlt⟩ := hr.1
    rw [Interp.run, hnext, Option.bind_some, hentry, Option.bind_some, Option.isSome_map]
    cases e with
    | none => rfl
    | some n => exact runBlock_isSome blocks hr.2.1 (hlt n rfl) next

theorem runBlock_isSome : ∀ (blocks : Traversal.Blocks) {n : ℕ}, RoutedBlocks I call blocks →
    n < blocks.groups.length → ∀ next, (I.runBlock call blocks n next).isSome
  | .nil, n, _, hn, next => absurd hn (Nat.not_lt_zero n)
  | .cons body jump blocks, n, hr, hn, next => by
    rw [runBlock]
    split_ifs with hzero hjump
    · exact run_isSome body hr.2.1 (Or.inr rfl)
    · exact absurd hr.1 hjump
    · have hlt : n - 1 < blocks.groups.length := by
        rw [Traversal.Blocks.groups, List.length_cons] at hn
        omega
      exact runBlock_isSome blocks hr.2.2 hlt next

end

/-- Executing the bytes of code is what its tree means, whatever stands behind it: the interpreter
finds every instruction, body, block and function, and returns. -/
theorem execute_eq_run {c : Tree} (hs : Sound c.heads)
    (hfun : ∀ id f, I.function id = some f → Sound f.heads) {depth : ℕ}
    (hrouted : Routed I (I.callee depth) c) (hends : Ends c = true) :
    ∃ b, I.run (I.callee depth) c none = some b ∧
      ∀ tail, ∃ n, ∀ fuel ≥ n, I.execute fuel (c.bytes ++ tail) = b := by
  have hsome : (I.run (I.callee depth) c none).isSome := run_isSome c hrouted (Or.inl hends)
  obtain ⟨b, hb⟩ := Option.isSome_iff_exists.mp hsome
  refine ⟨b, hb, fun tail => ?_⟩
  exact runs_tree (callsRun_callee hfun depth) c hs hb fun _ hnone => by simp at hnone

/-- A program in which instructions do nothing and nothing matches; its function 0 returns. -/
def idle : Interp Unit where
  machine _ :=
    { isLinearPred := fun _ => false
      persistentOnly := false
      useLocalTuples := false
      predicate := fun _ => 0
      localTuples := []
      queue := fun _ => []
      doMatches := fun _ _ _ _ => false
      matchPredicate := fun _ _ _ => []
      getCount := fun _ _ => 1
      sort := fun _ l => l
      sort_perm := fun _ l => .refl l
      shuffleVector := fun l env => (l, env)
      shuffle_perm := fun l _ => .refl l }
  machine_local _ _ := rfl
  instr _ := pure ()
  instr_local _ _ _ _ _ := rfl
  moveToPcounter pc := pure pc
  getBool _ _ := false
  count s := s
  nodeId := 1
  staticMaxId := 1
  function id := if id = 0 then some (.instr .returnLinear .done) else none

/-- An `ITER_INSTR` with a move and an `IF_INSTR`, a `SELECT_INSTR` with a block for the node, and a
call. -/
def idleCode : Tree :=
  .iter 1 0 0 [] (.instr (.move .host (.reg 3))
      (.ifReg 3 (.instr .returnDerived .done) (.instr .next .done)))
    (.select [none, some 0] (.cons (.instr (.alloc 0 2) .done) 5 .nil)
      (.resetLinear (.instr .ruleDone .done) (.instr (.callf 0) .done)))

theorem execute_eq_run_idle : ∃ b, idle.run (idle.callee 1) idleCode none = some b ∧
    ∀ tail, ∃ n, ∀ fuel ≥ n, idle.execute fuel (idleCode.bytes ++ tail) = b := by
  have hsized : ∀ h ∈ idleCode.heads, h.Sized ∧ h.Straight := by decide
  have hfits : ∀ h ∈ idleCode.heads, h.Fits := by
    simp [idleCode, Tree.heads, Traversal.Blocks.groups, Head.Fits, or_imp, forall_and]
  refine execute_eq_run ⟨by decide, fun h hh => ⟨hfits h hh, hsized h hh⟩⟩ ?_ ?_ rfl
  · intro id f hf
    simp only [idle] at hf
    split_ifs at hf
    obtain rfl := Option.some.inj hf
    exact ⟨by decide, by
      simp [Tree.heads, Head.Fits, Head.Sized, Head.Straight, Head.operands]⟩
  · simp [idleCode, Routed, RoutedBlocks, calls, entryOf, idle, callee, Interp.run, returns, size,
      Traversal.Blocks.groups]

end Meld.Vm.Bytecode
