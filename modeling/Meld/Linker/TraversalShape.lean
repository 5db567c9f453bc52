import Meld.Linker.Traversal

/-!
# What printing leaves alone

Whatever ids are written into it, an instruction keeps its opcode, its length, its jump and its
table. `Shape` says so of bytes at the place of an instruction: printing keeps the shape
(`printHead_shape`), also of an instruction that has been printed before, where the id that is looked
up is the one that printing wrote.
-/

namespace Meld.Linker.Traversal

open Lib Lib.Bytes Vm Vm.Bytecode

/-! ### Opcodes -/

/-- The opcode of an instruction. -/
def opcode : Head → Opcode
  | .instr i => match i with
    | .returnInstr => .returnInstr
    | .returnLinear => .returnLinear
    | .returnDerived => .returnDerived
    | .next => .next
    | .send .. => .send
    | .sendDelay .. => .sendDelay
    | .float .. => .float
    | .op .. => .op
    | .move .. => .move
    | .moveNil .. => .moveNil
    | .alloc .. => .alloc
    | .call .. => .call
    | .calle .. => .calle
    | .callf .. => .callf
    | .delete .. => .delete
    | .testNil .. => .testNil
    | .cons .. => .cons
    | .head .. => .head
    | .tail .. => .tail
    | .not .. => .not
    | .colocated .. => .colocated
    | .remove .. => .remove
    | .rule .. => .rule
    | .ruleDone => .ruleDone
    | .newNode .. => .newNode
    | .newAxioms .. => .newAxioms
    | .push => .push
    | .pop => .pop
    | .pushRegs => .pushRegs
    | .popRegs => .popRegs
  | .ifReg .. => .ifInstr
  | .iter .. => .iter
  | .resetLinear .. => .resetLinear
  | .endLinear => .endLinear
  | .select .. => .select
  | .returnSelect .. => .returnSelect

theorem fetch_head (h : Head) (tail : List UInt8) :
    fetch (h.bytes ++ tail) = .ok (opcode h) := by
  cases h with
  | instr i => cases i <;> rfl
  | _ => rfl

/-- The instructions with an id in the byte behind the opcode. -/
def Named (h : Head) : Prop := opcode h ∈ [Opcode.alloc, .iter, .delete, .rule]

/-! ### Shapes -/

/-- Bytes that differ from those of the instruction in ids only; in a `NEW_AXIOMS_INSTR`, anything
behind the jump may be taken for an id. -/
inductive Shape : Head → List UInt8 → Prop
  | same (h : Head) : Shape h h.bytes
  | id (h : Head) (op a b : UInt8) (rest : List UInt8) (hnamed : Named h)
    (hbytes : h.bytes = op :: a :: rest) : Shape h (op :: b :: rest)
  | axioms (axioms : List Axiom) (body : List UInt8)
    (hlen : body.length = (axioms.flatMap Axiom.bytes).length) :
    Shape (.instr (.newAxioms axioms)) ([0x14] ++ le 4 (5 + body.length) ++ body)

section

variable {h : Head} {bs : List UInt8}

theorem Shape.length (hs : Shape h bs) : bs.length = h.bytes.length := by
  cases hs with
  | same => rfl
  | id _ op a b rest hnamed hbytes => rw [hbytes]; rfl
  | axioms axioms _ hlen => simp [Head.bytes, Instr.bytes, hlen]

theorem Shape.fetch (hs : Shape h bs) (tail : List UInt8) :
    fetch (bs ++ tail) = .ok (opcode h) := by
  cases hs with
  | same => exact fetch_head h tail
  | id _ op a b rest hnamed hbytes =>
    rw [← fetch_head h tail, hbytes]
    rfl
  | axioms => rfl

/-- `advance` does not read an id behind an opcode. -/
theorem advance_id {op a b : UInt8} {rest : List UInt8} (hnamed : Named h)
    (hbytes : h.bytes = op :: a :: rest) (tail : List UInt8) :
    advance (op :: b :: rest ++ tail) = advance (op :: a :: rest ++ tail) := by
  have hop : op ∈ [(0x40 : UInt8), 0xa0, 0x0d, 0x10] := by
    cases h with
    | instr i =>
      cases i with
      | alloc | delete | rule =>
        obtain ⟨rfl, -⟩ := List.cons.inj hbytes
        decide
      | _ => exact absurd hnamed (by simp [Named, opcode])
    | iter =>
      obtain ⟨rfl, -⟩ := List.cons.inj hbytes
      decide
    | _ => exact absurd hnamed (by simp [Named, opcode])
  simp only [List.mem_cons, List.not_mem_nil, or_false] at hop
  rcases hop with rfl | rfl | rfl | rfl <;> rfl

theorem Shape.advance (hs : Shape h bs) (hfits : h.Fits) (tail : List UInt8) :
    advance (bs ++ tail) = if h.Sized then .ok h.bytes.length else .error .thrown := by
  cases hs with
  | same => exact advance_head hfits tail
  | id _ op a b rest hnamed hbytes =>
    rw [advance_id hnamed hbytes, ← hbytes, advance_head hfits]
  | axioms axioms body hlen =>
    have hnum : 5 + body.length < 256 ^ 4 := by
      rw [hlen]
      exact hfits
    have hsized : (Head.instr (.newAxioms axioms)).Sized := fun o ho => nomatch ho
    have hget := numGet_append 4 [0x14] rfl (5 + body.length) (body ++ tail)
    rw [Nat.mod_eq_of_lt hnum] at hget
    rw [if_pos hsized, ← (Shape.axioms axioms body hlen).length]
    simp only [List.append_assoc, List.length_append, length_le, List.length_singleton]
    rw [show 1 + (4 + body.length) = 5 + body.length by omega]
    exact hget

/-- The instructions that print as they are keep their bytes. -/
theorem Shape.eq (hs : Shape h bs) (hnamed : ¬Named h) (hne : opcode h ≠ .newAxioms) :
    bs = h.bytes := by
  cases hs with
  | same => rfl
  | id _ op a b rest hn => exact absurd hn hnamed
  | axioms => exact absurd rfl hne

/-- The instructions with an id, as bytes. -/
theorem exists_cons_of_named (hnamed : Named h) : ∃ op a rest, h.bytes = op :: a :: rest := by
  cases h with
  | instr i =>
    cases i with
    | alloc | delete | rule => exact ⟨_, _, _, rfl⟩
    | _ => exact absurd hnamed (by simp [Named, opcode])
  | iter => exact ⟨_, _, _, rfl⟩
  | _ => exact absurd hnamed (by simp [Named, opcode])

/-- An id may be written over. -/
theorem Shape.set_one (hs : Shape h bs) (hnamed : Named h) (b : UInt8) :
    1 < bs.length ∧ Shape h (bs.set 1 b) := by
  cases hs with
  | same =>
    obtain ⟨op, a, rest, hbytes⟩ := exists_cons_of_named hnamed
    rw [hbytes]
    exact ⟨by simp, .id h op a b rest hnamed hbytes⟩
  | id _ op a c rest hn hbytes => exact ⟨by simp, .id h op a b rest hn hbytes⟩
  | axioms => exact absurd hnamed (by simp [Named, opcode])

/-- The bytes of facts are written over. -/
theorem Shape.axioms_cases {axioms : List Axiom}
    (hs : Shape (.instr (.newAxioms axioms)) bs) :
    ∃ body, body.length = (axioms.flatMap Axiom.bytes).length ∧
      bs = [0x14] ++ le 4 (5 + body.length) ++ body := by
  generalize hh : Head.instr (.newAxioms axioms) = h at hs
  cases hs with
  | same => subst hh; exact ⟨_, rfl, rfl⟩
  | id _ op a b rest hnamed => subst hh; exact absurd hnamed (by simp [Named, opcode])
  | axioms as body hlen => cases hh; exact ⟨body, hlen, rfl⟩

end

/-! ### Printing keeps the shape -/

theorem set_append {pre bs post : List UInt8} {i : ℕ} (hi : i < bs.length) (b : UInt8) :
    (pre ++ (bs ++ post)).set (pre.length + i) b = pre ++ (bs.set i b ++ post) := by
  rw [List.set_append_right _ _ (Nat.le_add_right ..), Nat.add_sub_cancel_left,
    List.set_append_left _ _ hi]

/-- Printing facts changes no byte before the first and none from the end on. -/
theorem printFacts_frame {links : Links} {stop fuel p : ℕ} {code code' : List UInt8}
    (h : printFacts links stop fuel p code = .ok code') :
    code'.length = code.length ∧ (∀ i < p, code'[i]? = code[i]?) ∧
      ∀ i ≥ stop, code'[i]? = code[i]? := by
  induction fuel generalizing p code with
  | zero => cases h
  | succ fuel ih =>
    rw [printFacts] at h
    split_ifs at h with hp
    · obtain ⟨b, -, h⟩ := bind_eq_ok.mp h
      obtain ⟨⟨id, types⟩, -, h⟩ := bind_eq_ok.mp h
      obtain ⟨n, -, h⟩ := bind_eq_ok.mp h
      obtain ⟨hlen, hbefore, hbehind⟩ := ih h
      refine ⟨hlen.trans List.length_set, fun i hi => ?_, fun i hi => ?_⟩
      · rw [hbefore i (by omega), List.getElem?_set_ne (by omega)]
      · rw [hbehind i hi, List.getElem?_set_ne (by omega)]
    · cases h
      exact ⟨rfl, fun i _ => rfl, fun i _ => rfl⟩

/-- A list that agrees with three parts outside the middle one. -/
theorem eq_append_of_frame {pre mid post l : List UInt8}
    (hlen : l.length = (pre ++ (mid ++ post)).length)
    (hbefore : ∀ i < pre.length, l[i]? = (pre ++ (mid ++ post))[i]?)
    (hbehind : ∀ i ≥ pre.length + mid.length, l[i]? = (pre ++ (mid ++ post))[i]?) :
    ∃ mid', mid'.length = mid.length ∧ l = pre ++ (mid' ++ post) := by
  simp only [List.length_append] at hlen
  refine ⟨(l.drop pre.length).take mid.length, by simp; omega, ?_⟩
  refine List.ext_getElem? fun i => ?_
  by_cases hi : i < pre.length
  · rw [hbefore i hi, List.getElem?_append_left hi, List.getElem?_append_left hi]
  · rw [List.getElem?_append_right (by omega)]
    by_cases hmid : i < pre.length + mid.length
    · rw [List.getElem?_append_left (by simp; omega), List.getElem?_take_of_lt (by omega),
        List.getElem?_drop]
      congr 1
      omega
    · rw [hbehind i (by omega), List.getElem?_append_right (by omega),
        List.getElem?_append_right (by omega), List.getElem?_append_right (by simp; omega)]
      congr 1
      simp
      omega

/-- Printing changes an instruction in its ids only. -/
theorem printHead_shape {links : Links} {h : Head} {pre bs post code : List UInt8}
    (hfits : h.Fits) (hs : Shape h bs)
    (hprint : printHead links (pre ++ (bs ++ post)) pre.length = .ok code) :
    ∃ bs', Shape h bs' ∧ code = pre ++ (bs' ++ post) := by
  rw [printHead, List.drop_left, hs.fetch, ok_bind] at hprint
  -- relinking writes over the byte behind the opcode, which leaves the shape
  have hid : Named h → ∀ b, ∃ bs', Shape h bs' ∧
      (pre ++ (bs ++ post)).set (pre.length + 1) b = pre ++ (bs' ++ post) := fun hnamed b => by
    obtain ⟨hlen, hset⟩ := hs.set_one hnamed b
    exact ⟨_, hset, set_append hlen b⟩
  split at hprint
  · next hop =>
    obtain ⟨_, -, hprint⟩ := bind_eq_ok.mp hprint
    obtain ⟨⟨id, types⟩, -, hprint⟩ := bind_eq_ok.mp hprint
    obtain ⟨_, -, hprint⟩ := bind_eq_ok.mp hprint
    cases hprint
    exact hid (by simp [Named, hop]) _
  · next hop =>
    obtain ⟨_, -, hprint⟩ := bind_eq_ok.mp hprint
    obtain ⟨⟨id, types⟩, -, hprint⟩ := bind_eq_ok.mp hprint
    obtain ⟨_, -, hprint⟩ := bind_eq_ok.mp hprint
    cases hprint
    exact hid (by simp [Named, hop]) _
  · next hop =>
    obtain ⟨_, -, hprint⟩ := bind_eq_ok.mp hprint
    obtain ⟨⟨id, types⟩, -, hprint⟩ := bind_eq_ok.mp hprint
    obtain ⟨_, -, hprint⟩ := bind_eq_ok.mp hprint
    cases hprint
    exact hid (by simp [Named, hop]) _
  · next hop =>
    obtain ⟨_, -, hprint⟩ := bind_eq_ok.mp hprint
    obtain ⟨_, -, hprint⟩ := bind_eq_ok.mp hprint
    cases hprint
    exact hid (by simp [Named, hop]) _
  · next hop =>
    obtain ⟨axioms, rfl⟩ : ∃ axioms, h = .instr (.newAxioms axioms) := by
      cases h with
      | instr i =>
        cases i with
        | newAxioms axioms => exact ⟨axioms, rfl⟩
        | _ => cases hop
      | _ => cases hop
    obtain ⟨body, hbody, rfl⟩ := hs.axioms_cases
    have hnum : 5 + body.length < 256 ^ 4 := by
      rw [hbody]
      exact hfits
    have hjump := numGet_append 4 [0x14] rfl (5 + body.length) (body ++ post)
    rw [Nat.mod_eq_of_lt hnum] at hjump
    obtain ⟨jump, hget, hprint⟩ := bind_eq_ok.mp hprint
    simp only [List.append_assoc] at hget
    obtain rfl := Except.ok.inj (hjump.symm.trans hget)
    -- relinking facts changes nothing outside of them
    obtain ⟨hlen, hbefore, hbehind⟩ := printFacts_frame hprint
    have hparts : pre ++ ([0x14] ++ le 4 (5 + body.length) ++ body ++ post) =
        (pre ++ ([0x14] ++ le 4 (5 + body.length))) ++ (body ++ post) := by
      simp only [List.append_assoc]
    have hpre : (pre ++ ([0x14] ++ le 4 (5 + body.length))).length = pre.length + 5 := by
      simp
    rw [hparts] at hlen hbefore hbehind
    obtain ⟨body', hlen', rfl⟩ := eq_append_of_frame hlen (fun i hi => hbefore i (by omega))
      fun i hi => hbehind i (by omega)
    refine ⟨_, .axioms axioms body' (hlen'.trans hbody), ?_⟩
    simp only [List.append_assoc, hlen']
  · obtain ⟨_, -, hprint⟩ := bind_eq_ok.mp hprint
    cases hprint
    exact ⟨bs, hs, rfl⟩

end Meld.Linker.Traversal
