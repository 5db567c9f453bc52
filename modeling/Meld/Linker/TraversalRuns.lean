import Meld.Linker.TraversalShape

/-!
# The order of the traversal

The instructions of a block of code are numbered as they stand in memory. `Tree.route` is the order
in which the structure of the code says that they are printed: the block of a `SELECT_INSTR` once for
every node that has it. `Tree.run` shows that the traversal, which sees bytes and jumps only, prints
in this order, whatever ids it has written on its way: it is a run of `step`, which prints one
instruction, over the route.
-/

namespace Meld.Linker.Traversal

open Lib Lib.Bytes Vm Vm.Bytecode

theorem bind_congr_ok {α β : Type} {x : Exec α} {f g : α → Exec β}
    (h : ∀ a, x = .ok a → f a = g a) : x >>= f = x >>= g := by
  cases x with
  | error => rfl
  | ok a => exact h a rfl

/-! ### Addresses -/

/-- The address of the instruction with the number. -/
def address (L : List Head) (k : ℕ) : ℕ := size (L.take k)

theorem size_append (l l' : List Head) : size (l ++ l') = size l + size l' := by
  rw [size, List.flatMap_append, List.length_append]
  rfl

theorem size_cons (h : Head) (l : List Head) : size (h :: l) = h.bytes.length + size l := by
  rw [size, List.flatMap_cons, List.length_append]
  rfl

variable {L : List Head} {k : ℕ} {h : Head} {t : Tape} {links : Links}

/-- The address behind instructions that follow one another. -/
theorem address_add {l : List Head} (hsub : l <+: L.drop k) :
    address L (k + l.length) = address L k + size l := by
  rw [address, List.take_add, size_append, ← List.prefix_iff_eq_take.mp hsub]
  rfl

theorem prefix_singleton (hk : L[k]? = some h) : [h] <+: L.drop k := by
  obtain ⟨hlt, rfl⟩ := List.getElem?_eq_some_iff.mp hk
  exact ⟨L.drop (k + 1), List.getElem_cons_drop hlt⟩

theorem address_succ (hk : L[k]? = some h) :
    address L (k + 1) = address L k + h.bytes.length := by
  rw [show k + 1 = k + [h].length from rfl, address_add (prefix_singleton hk), size_cons]
  rfl

theorem getElem?_of_sub {l : List Head} (hsub : h :: l <+: L.drop k) : L[k]? = some h := by
  obtain ⟨post, hpost⟩ := hsub
  have hget := congrArg (fun l => l[0]?) hpost
  rw [List.getElem?_drop] at hget
  exact hget.symm

/-- What follows a part of the instructions. -/
theorem prefix_append {l l' : List Head} (hsub : l ++ l' <+: L.drop k) :
    l <+: L.drop k ∧ l' <+: L.drop (k + l.length) := by
  obtain ⟨post, hpost⟩ := hsub
  rw [List.append_assoc] at hpost
  refine ⟨⟨_, hpost⟩, post, ?_⟩
  rw [← List.drop_drop, ← hpost, List.drop_left]

theorem prefix_cons {l : List Head} (hsub : h :: l <+: L.drop k) :
    L[k]? = some h ∧ l <+: L.drop (k + 1) :=
  ⟨getElem?_of_sub hsub, (prefix_append (l := [h]) hsub).2⟩

theorem bytes_pos (h : Head) : 0 < h.bytes.length := by
  cases h with
  | instr i => cases i <;> simp [Head.bytes, Instr.bytes]
  | _ => simp [Head.bytes]

/-! ### Code of a shape -/

/-- The code consists of the instructions, but for their ids. -/
def Shaped (L : List Head) (code : List UInt8) : Prop :=
  ∃ parts, List.Forall₂ Shape L parts ∧ code = parts.flatten

theorem shaped_bytes (L : List Head) : Shaped L (L.flatMap Head.bytes) :=
  ⟨L.map Head.bytes, List.forall₂_map_right_iff.mpr (List.forall₂_same.mpr fun h _ => .same h), rfl⟩

/-- The bytes of an instruction, which may be replaced. -/
theorem Shaped.split {code : List UInt8} (hcode : Shaped L code) (hk : L[k]? = some h) :
    ∃ pre bs post, code = pre ++ (bs ++ post) ∧ pre.length = address L k ∧ Shape h bs ∧
      ∀ bs', Shape h bs' → Shaped L (pre ++ (bs' ++ post)) := by
  obtain ⟨parts, hparts, rfl⟩ := hcode
  induction hparts generalizing k with
  | nil => cases hk
  | @cons h₀ bs₀ L parts hhead htail ih =>
    cases k with
    | zero =>
      obtain rfl := Option.some.inj hk
      exact ⟨[], bs₀, parts.flatten, rfl, rfl, hhead,
        fun bs' hs => ⟨bs' :: parts, .cons hs htail, rfl⟩⟩
    | succ k =>
      obtain ⟨pre, bs, post, hsplit, hpre, hs, hset⟩ := ih hk
      refine ⟨bs₀ ++ pre, bs, post, ?_, ?_, hs, fun bs' hs' => ?_⟩
      · rw [List.flatten_cons, hsplit, List.append_assoc]
      · rw [List.length_append, hpre, hhead.length, address, address, List.take_succ_cons,
          size_cons]
      · obtain ⟨parts', hparts', hflat⟩ := hset bs' hs'
        refine ⟨bs₀ :: parts', .cons hhead hparts', ?_⟩
        rw [List.flatten_cons, ← hflat, List.append_assoc]

/-- The code at the address of an instruction. -/
theorem Shaped.drop {code : List UInt8} (hcode : Shaped L code) (hk : L[k]? = some h) :
    ∃ bs post, Shape h bs ∧ code.drop (address L k) = bs ++ post := by
  obtain ⟨pre, bs, post, rfl, hpre, hs, -⟩ := hcode.split hk
  exact ⟨bs, post, hs, by rw [← hpre, List.drop_left]⟩

theorem Shaped.fetch_eq {code : List UInt8} (hcode : Shaped L code) (hk : L[k]? = some h) :
    fetch (code.drop (address L k)) = .ok (opcode h) := by
  obtain ⟨bs, post, hs, hdrop⟩ := hcode.drop hk
  rw [hdrop, hs.fetch]

theorem Shaped.advance_eq {code : List UInt8} (hcode : Shaped L code) (hk : L[k]? = some h)
    (hfits : h.Fits) : advance (code.drop (address L k)) =
      if h.Sized then .ok h.bytes.length else .error .thrown := by
  obtain ⟨bs, post, hs, hdrop⟩ := hcode.drop hk
  rw [hdrop, hs.advance hfits]

/-- Printing an instruction keeps the shape of the code. -/
theorem Shaped.of_printHead {code code' : List UInt8} (hcode : Shaped L code) (hk : L[k]? = some h)
    (hfits : h.Fits) (hprint : printHead links code (address L k) = .ok code') :
    Shaped L code' := by
  obtain ⟨pre, bs, post, rfl, hpre, hs, hset⟩ := hcode.split hk
  rw [← hpre] at hprint
  obtain ⟨bs', hs', rfl⟩ := printHead_shape hfits hs hprint
  exact hset bs' hs'

/-! ### Steps -/

/-- The instruction with the number is printed. -/
def step (links : Links) (L : List Head) (t : Tape) (k : ℕ) : Exec Tape := do
  let code ← printHead links t.code (address L k)
  let _ ← advance (code.drop (address L k))
  return ⟨code, t.visited ++ [address L k]⟩

/-- What is needed of the instructions. -/
structure Lays (L : List Head) : Prop where
  fits : ∀ h ∈ L, h.Fits
  size : size L < 2 ^ 32

theorem Lays.fits_of_getElem? (hL : Lays L) (hk : L[k]? = some h) : h.Fits :=
  hL.fits h (List.mem_of_getElem? hk)

theorem Shaped.of_step {t' : Tape} (hL : Lays L) (ht : Shaped L t.code) (hk : k < L.length)
    (hstep : step links L t k = .ok t') : Shaped L t'.code := by
  have hget := List.getElem?_eq_getElem hk
  obtain ⟨code, hprint, hstep⟩ := bind_eq_ok.mp hstep
  obtain ⟨_, -, hstep⟩ := bind_eq_ok.mp hstep
  cases hstep
  exact ht.of_printHead hget (hL.fits_of_getElem? hget) hprint

theorem Shaped.of_foldlM {ks : List ℕ} {t' : Tape} (hL : Lays L) (ht : Shaped L t.code)
    (hks : ∀ k ∈ ks, k < L.length) (hrun : ks.foldlM (step links L) t = .ok t') :
    Shaped L t'.code := by
  induction ks generalizing t with
  | nil =>
    cases hrun
    exact ht
  | cons k ks ih =>
    rw [List.foldlM_cons] at hrun
    obtain ⟨t₁, hstep, hrun⟩ := bind_eq_ok.mp hrun
    exact ih (ht.of_step hL (hks k List.mem_cons_self) hstep)
      (fun k hk => hks k (List.mem_cons_of_mem _ hk)) hrun

/-- An instruction whose operands `advance` takes the sizes of is printed, and then what follows. -/
theorem step_bind {β : Type} {f : Tape → Exec β} (hL : Lays L) (ht : Shaped L t.code)
    (hk : L[k]? = some h) (hsized : h.Sized) :
    step links L t k >>= f = (do
      let code ← printHead links t.code (address L k)
      f ⟨code, t.visited ++ [address L k]⟩) := by
  rw [step, bind_assoc]
  refine bind_congr_ok fun code hprint => ?_
  have hfits := hL.fits_of_getElem? hk
  rw [(ht.of_printHead hk hfits hprint).advance_eq hk hfits, if_pos hsized]
  rfl

/-! ### Visits -/

/-- A number of the code. -/
theorem numGet_word {pre : List UInt8} {off : ℕ} (hpre : pre.length = off) (x : UInt32)
    (tail : List UInt8) : numGet 4 (pre ++ (le 4 x.toNat ++ tail)) off = .ok x.toNat := by
  have hx : x.toNat < 256 ^ 4 := x.toNat_lt
  rw [numGet_append 4 pre hpre, Nat.mod_eq_of_lt hx]

/-- The instructions that end a block. -/
def Closing (h : Head) : Prop := opcode h = .endLinear ∨ opcode h = .returnSelect

/-- An instruction without code of its own. -/
theorem visit_leaf {fuel : ℕ} {recurse : Bool} (hL : Lays L) (ht : Shaped L t.code)
    (hk : L[k]? = some h)
    (hleaf : opcode h ∉ [Opcode.resetLinear, .ifInstr, .iter, .select]) :
    instrPrint links (fuel + 1) recurse (address L k) t =
      step links L t k >>= fun t' => .ok (address L (k + 1), t') := by
  rw [instrPrint, step, bind_assoc]
  refine bind_congr_ok fun code hprint => ?_
  have hfits := hL.fits_of_getElem? hk
  have hcode := ht.of_printHead hk hfits hprint
  have hadvance := hcode.advance_eq hk hfits
  dsimp only
  rw [hcode.fetch_eq hk, ok_bind]
  split
  · next hop => exact absurd (by simp [hop]) hleaf
  · next hop => exact absurd (by simp [hop]) hleaf
  · next hop => exact absurd (by simp [hop]) hleaf
  · next hop => exact absurd (by simp [hop]) hleaf
  · rw [hadvance, address_succ hk]
    split_ifs <;> rfl

/-- An `IF_INSTR`, whose jump leads to the instruction with the number. -/
theorem visit_ifReg {fuel k' : ℕ} {ks : List ℕ} {reg : UInt8} {jump : UInt32} (hL : Lays L)
    (ht : Shaped L t.code) (hk : L[k]? = some (.ifReg reg jump))
    (hjump : address L k' = address L k + jump.toNat) (hle : 6 ≤ jump.toNat)
    (hbody : ∀ t, Shaped L t.code →
      printUntil (instrPrint links fuel true) (address L k') fuel (address L (k + 1)) t =
        ks.foldlM (step links L) t >>= fun t' => .ok (address L k', t')) :
    instrPrint links (fuel + 1) true (address L k) t =
      (k :: ks).foldlM (step links L) t >>= fun t' => .ok (address L k', t') := by
  have hsized : (Head.ifReg reg jump).Sized := fun o ho => nomatch ho
  have hfits := hL.fits_of_getElem? hk
  rw [instrPrint, List.foldlM_cons, bind_assoc, step_bind hL ht hk hsized]
  refine bind_congr_ok fun code hprint => ?_
  have hcode := ht.of_printHead hk hfits hprint
  have hget : numGet 4 (code.drop (address L k)) 2 = .ok jump.toNat := by
    obtain ⟨bs, post, hs, hdrop⟩ := hcode.drop hk
    rw [hdrop, hs.eq (by simp [Named, opcode]) (by simp [opcode])]
    simpa only [Head.bytes, List.append_assoc] using
      numGet_word (show [0x60, reg].length = 2 from rfl) jump post
  have hadvance := hcode.advance_eq hk hfits
  rw [if_pos hsized] at hadvance
  have hnext : address L k + (Head.ifReg reg jump).bytes.length = address L (k + 1) :=
    (address_succ hk).symm
  have hlen : (Head.ifReg reg jump).bytes.length = 6 := by simp [Head.bytes]
  dsimp only
  rw [hcode.fetch_eq hk, ok_bind]
  simp only [opcode, hadvance, ok_bind, hnext, if_true, hget]
  rw [instrsPrint, show address L (k + 1) + (jump.toNat - (address L (k + 1) - address L k)) =
    address L k' by omega]
  exact hbody _ hcode

/-- An `ITER_INSTR`, whose jump leads to the instruction with the number. -/
theorem visit_iter {fuel k' : ℕ} {ks : List ℕ} {pred options argument : UInt8} {jump : UInt32}
    {ms : List IterMatch} (hL : Lays L) (ht : Shaped L t.code)
    (hk : L[k]? = some (.iter pred options argument jump ms))
    (hjump : address L k' = address L k + jump.toNat)
    (hbody : ∀ t, Shaped L t.code →
      printUntil (instrPrint links fuel true) (address L k') fuel (address L (k + 1)) t =
        ks.foldlM (step links L) t >>= fun t' => .ok (address L k', t')) :
    instrPrint links (fuel + 1) true (address L k) t =
      (k :: ks).foldlM (step links L) t >>= fun t' => .ok (address L k', t') := by
  have hsized : (Head.iter pred options argument jump ms).Sized := by
    intro o ho
    obtain ⟨m, -, rfl⟩ := List.mem_map.mp ho
    rfl
  have hfits := hL.fits_of_getElem? hk
  rw [instrPrint, List.foldlM_cons, bind_assoc, step_bind hL ht hk hsized]
  refine bind_congr_ok fun code hprint => ?_
  have hcode := ht.of_printHead hk hfits hprint
  have hget : numGet 4 (code.drop (address L k)) 4 = .ok jump.toNat := by
    obtain ⟨bs, post, hs, hdrop⟩ := hcode.drop hk
    rw [hdrop]
    have hget : ∀ b, numGet 4 ([0xa0, b, options, argument] ++
        (le 4 jump.toNat ++ (matchBytes ms ++ post))) 4 = .ok jump.toNat := fun b =>
      numGet_word (show [0xa0, b, options, argument].length = 4 from rfl) jump _
    generalize hh : Head.iter pred options argument jump ms = h at hs
    cases hs with
    | same =>
      subst hh
      simpa only [Head.bytes, List.append_assoc] using hget pred
    | id _ op a b rest _ hbytes =>
      subst hh
      simp only [Head.bytes, List.cons_append, List.nil_append, List.cons.injEq] at hbytes
      obtain ⟨rfl, -, rfl⟩ := hbytes
      simpa only [List.cons_append, List.nil_append, List.append_assoc] using hget b
    | axioms => cases hh
  have hadvance := hcode.advance_eq hk hfits
  rw [if_pos hsized] at hadvance
  have hnext : address L k + (Head.iter pred options argument jump ms).bytes.length =
    address L (k + 1) := (address_succ hk).symm
  dsimp only
  rw [hcode.fetch_eq hk, ok_bind]
  simp only [opcode, hadvance, ok_bind, hnext, if_true, hget, ← hjump]
  exact hbody _ hcode

/-- A `RESET_LINEAR_INSTR`, whose code ends at the instruction with the number. -/
theorem visit_resetLinear {fuel k' : ℕ} {ks : List ℕ} {jump : UInt32} (hL : Lays L)
    (ht : Shaped L t.code) (hk : L[k]? = some (.resetLinear jump)) (hk' : L[k']? = some .endLinear)
    (hks : ∀ k ∈ ks, k < L.length)
    (hbody : ∀ t, Shaped L t.code →
      printUntilEndLinear (instrPrint links fuel true) fuel (address L (k + 1)) t =
        ks.foldlM (step links L) t >>= fun t' => .ok (address L k', t')) :
    instrPrint links (fuel + 1) true (address L k) t =
      (k :: ks).foldlM (step links L) t >>= fun t' => .ok (address L (k' + 1), t') := by
  have hsized : (Head.resetLinear jump).Sized := List.forall_mem_nil _
  have hfits := hL.fits_of_getElem? hk
  rw [instrPrint, List.foldlM_cons, bind_assoc, step_bind hL ht hk hsized]
  refine bind_congr_ok fun code hprint => ?_
  have hcode := ht.of_printHead hk hfits hprint
  have hadvance := hcode.advance_eq hk hfits
  rw [if_pos hsized] at hadvance
  have hnext : address L k + (Head.resetLinear jump).bytes.length = address L (k + 1) :=
    (address_succ hk).symm
  dsimp only
  rw [hcode.fetch_eq hk, ok_bind]
  simp only [opcode, hadvance, ok_bind, hnext]
  rw [hbody ⟨code, _⟩ hcode, bind_assoc]
  refine bind_congr_ok fun t' hrun => ?_
  have hend : Head.endLinear.Sized := List.forall_mem_nil _
  have hadvance := (hcode.of_foldlM hL hks hrun).advance_eq hk' trivial
  rw [if_pos hend] at hadvance
  rw [ok_bind, hadvance, ok_bind, ← address_succ hk']
  rfl

/-- The numbers of a `SELECT_INSTR`. -/
theorem numGet_select {size : UInt32} {table : List UInt32} (hfits : table.length < 2 ^ 32)
    (tail : List UInt8) :
    numGet 4 ((Head.select size table).bytes ++ tail) 1 = .ok size.toNat ∧
      numGet 4 ((Head.select size table).bytes ++ tail) 5 = .ok table.length ∧
      ∀ i e, table[i]? = some e →
        numGet 4 ((Head.select size table).bytes ++ tail) (9 + 4 * i) = .ok e.toNat := by
  have hbytes : (Head.select size table).bytes = [0x0a] ++ (le 4 size.toNat ++
      (le 4 table.length ++ table.flatMap fun e => le 4 e.toNat)) := by
    simp only [Head.bytes, List.append_assoc]
  rw [hbytes]
  simp only [List.append_assoc]
  refine ⟨numGet_word rfl size _, ?_, fun i e hi => ?_⟩
  · rw [← List.append_assoc, numGet_append 4 _ (by simp),
      Nat.mod_eq_of_lt (show table.length < 256 ^ 4 from hfits)]
  · obtain ⟨hlt, rfl⟩ := List.getElem?_eq_some_iff.mp hi
    have htable : table = table.take i ++ table[i] :: table.drop (i + 1) := by
      rw [← List.drop_eq_getElem_cons hlt, List.take_append_drop]
    have hlen : ((table.take i).flatMap fun e => le 4 e.toNat).length = 4 * i := by
      rw [List.length_flatMap]
      simp [Nat.min_eq_left hlt.le, Nat.mul_comm]
    have hpre : ([(0x0a : UInt8)] ++ (le 4 size.toNat ++ (le 4 table.length ++
        (table.take i).flatMap fun e => le 4 e.toNat))).length = 9 + 4 * i := by
      simp only [List.length_append, hlen, length_le, List.length_singleton]
      omega
    have hword := numGet_word hpre table[i]
      (((table.drop (i + 1)).flatMap fun e => le 4 e.toNat) ++ tail)
    conv_lhs => rw [htable]
    rw [List.flatMap_append, List.flatMap_cons]
    simp only [List.append_assoc] at hword ⊢
    rw [← htable]
    exact hword

/-- The loop over the table prints the code of the nodes, one node after another. -/
theorem foldlM_printEntry {fuel : ℕ} {size : UInt32} {table : List UInt32} {f : ℕ → List ℕ}
    (hL : Lays L) (hk : L[k]? = some (.select size table))
    (hf : ∀ i, ∀ j ∈ f i, j < L.length)
    (hentry : ∀ i e, table[i]? = some e → if e = 0 then f i = [] else ∀ t, Shaped L t.code →
      printUntilReturnSelect (instrPrint links fuel true) fuel
          (address L k + 9 + table.length * 4 + e.toNat - 1) t =
        (f i).foldlM (step links L) t)
    (is : List ℕ) (his : ∀ i ∈ is, i < table.length) (ht : Shaped L t.code) :
    is.foldlM (printEntry (instrPrint links fuel true) fuel (address L k) table.length) t =
      (is.flatMap f).foldlM (step links L) t := by
  induction is generalizing t with
  | nil => rfl
  | cons i is ih =>
    have hrest := fun {t'} (ht' : Shaped L t'.code) =>
      ih (t := t') (fun i hi => his i (List.mem_cons_of_mem _ hi)) ht'
    obtain ⟨e, hi⟩ : ∃ e, table[i]? = some e :=
      ⟨_, List.getElem?_eq_getElem (his i List.mem_cons_self)⟩
    have hget : numGet 4 (t.code.drop (address L k)) (9 + 4 * i) = .ok e.toNat := by
      obtain ⟨bs, post, hs, hdrop⟩ := ht.drop hk
      rw [hdrop, hs.eq (by simp [Named, opcode]) (by simp [opcode])]
      exact (numGet_select (hL.fits_of_getElem? hk) post).2.2 i _ hi
    have hcode := hentry i _ hi
    rw [List.foldlM_cons, List.flatMap_cons, List.foldlM_append, printEntry, hget, ok_bind]
    split_ifs at hcode with hzero
    · rw [hcode, hzero, UInt32.toNat_zero, if_pos rfl, List.foldlM_nil]
      exact hrest ht
    · have hne : e.toNat ≠ 0 := fun hnat => hzero (UInt32.toNat_inj.mp hnat)
      rw [if_neg hne, hcode t ht]
      exact bind_congr_ok fun t' hrun => hrest (ht.of_foldlM hL (hf i) hrun)

/-- A `SELECT_INSTR`, whose size leads to the instruction with the number. -/
theorem visit_select {fuel k' : ℕ} {size : UInt32} {table : List UInt32} {f : ℕ → List ℕ}
    (hL : Lays L) (ht : Shaped L t.code) (hk : L[k]? = some (.select size table))
    (hjump : address L k' = address L k + size.toNat)
    (hf : ∀ i, ∀ j ∈ f i, j < L.length)
    (hentry : ∀ i e, table[i]? = some e → if e = 0 then f i = [] else ∀ t, Shaped L t.code →
      printUntilReturnSelect (instrPrint links fuel true) fuel
          (address L k + 9 + table.length * 4 + e.toNat - 1) t =
        (f i).foldlM (step links L) t) :
    instrPrint links (fuel + 1) true (address L k) t =
      (k :: (List.range table.length).flatMap f).foldlM (step links L) t >>=
        fun t' => .ok (address L k', t') := by
  have hsized : (Head.select size table).Sized := fun o ho => nomatch ho
  have hfits := hL.fits_of_getElem? hk
  have hnum : ∀ {code}, Shaped L code →
      numGet 4 (code.drop (address L k)) 1 = .ok size.toNat ∧
        numGet 4 (code.drop (address L k)) 5 = .ok table.length := by
    intro code hcode
    obtain ⟨bs, post, hs, hdrop⟩ := hcode.drop hk
    rw [hdrop, hs.eq (by simp [Named, opcode]) (by simp [opcode])]
    exact ⟨(numGet_select hfits post).1, (numGet_select hfits post).2.1⟩
  rw [instrPrint, List.foldlM_cons, bind_assoc, step_bind hL ht hk hsized]
  refine bind_congr_ok fun code hprint => ?_
  have hcode := ht.of_printHead hk hfits hprint
  dsimp only
  rw [hcode.fetch_eq hk, ok_bind]
  simp only [opcode, if_true, (hnum hcode).2, ok_bind]
  rw [foldlM_printEntry (t := ⟨code, t.visited ++ [address L k]⟩) hL hk hf hentry _
    (fun i hi => List.mem_range.mp hi) hcode]
  refine bind_congr_ok fun t' hrun => ?_
  have hks : ∀ j ∈ (List.range table.length).flatMap f, j < L.length := fun j hj => by
    obtain ⟨i, -, hj⟩ := List.mem_flatMap.mp hj
    exact hf i j hj
  rw [(hnum (hcode.of_foldlM hL hks hrun)).1, ok_bind, hjump]
  rfl

end Meld.Linker.Traversal
