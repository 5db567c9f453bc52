import Meld.Linker.References

/-!
# What printing changes

Printing writes the linker's ids over those of predicates and rules, in place, every time that the
route comes to an instruction: an instruction in a block that several nodes share is relinked once
for each of them, from the id of the time before. `relinkBytes` is what one printing does to the
bytes of an instruction. A pass over the facts of a `NEW_AXIOMS_INSTR` finds the next fact by the
fields of the predicate whose id it has met, which need not be that of the fact when the ids have
been written before. Printed code consists of the instructions, each relinked as often as the route
has it (`printed_eq`).
-/

namespace Meld.Vm.Bytecode

open Lib Lib.Bytes Linker

/-! ### Facts are read from their bytes -/

/-- A decoder that looks at no more bytes than it says. -/
structure Local (f : List UInt8 → Exec ℕ) : Prop where
  append : ∀ {p n}, f p = .ok n → n ≤ p.length ∧ ∀ q, f (p ++ q) = .ok n
  of_append : ∀ {p q n}, f (p ++ q) = .ok n → n ≤ p.length → f p = .ok n

/-- Reading a number of a fixed size looks at its bytes only. -/
theorem local_const (k : ℕ) : Local fun p => do
    let _ ← numGet k p 0
    return k := by
  have hiff : ∀ {p : List UInt8} {n}, (do
      let _ ← numGet k p 0
      return k : Exec ℕ) = .ok n ↔ k ≤ p.length ∧ n = k := by
    intro p n
    rw [numGet, Nat.zero_add]
    split_ifs with h
    · rw [ok_bind, pure_eq_ok, Except.ok.injEq, eq_comm, and_iff_right h]
    · refine iff_of_false (fun heq => ?_) fun hk => h hk.1
      cases heq
  constructor
  · intro p n h
    obtain ⟨hle, rfl⟩ := hiff.mp h
    exact ⟨hle, fun q => hiff.mpr ⟨hle.trans (by simp), rfl⟩⟩
  · intro p q n h hle
    obtain ⟨-, rfl⟩ := hiff.mp h
    exact hiff.mpr ⟨hle, rfl⟩

/-- Printing a scalar looks at its bytes only. -/
theorem local_printItem (τ : ItemType) : Local (printItem τ) := by
  cases τ with
  | int => exact local_const 4
  | float => exact local_const 8
  | node => exact local_const 4

/-- A byte is read in front of what follows. -/
theorem byteGet_append {p : List UInt8} (q : List UInt8) {off : ℕ} (h : off < p.length) :
    byteGet (p ++ q) off = byteGet p off := by
  rw [byteGet, byteGet, List.getElem?_append_left h]

/-- A byte that is read is there. -/
theorem lt_of_byteGet {p : List UInt8} {off : ℕ} {b : UInt8} (h : byteGet p off = .ok b) :
    off < p.length :=
  (List.getElem?_eq_some_iff.mp (deref_eq_ok.mp h)).1

/-- A list that has been read is read with more fuel and with more bytes behind it. -/
theorem printList_append {τ : ItemType} {fuel : ℕ} {p : List UInt8} {n : ℕ}
    (h : printList τ fuel p = .ok n) :
    n ≤ p.length ∧ ∀ q, ∀ fuel' ≥ fuel, printList τ fuel' (p ++ q) = .ok n := by
  induction fuel generalizing p n with
  | zero => cases h
  | succ fuel ih =>
    rw [printList] at h
    obtain ⟨b, hb, h⟩ := bind_eq_ok.mp h
    have hpos := lt_of_byteGet hb
    have hb' : ∀ q, byteGet (p ++ q) 0 = .ok b := fun q => (byteGet_append q hpos).trans hb
    split_ifs at h with hone
    · obtain ⟨m, hm, h⟩ := bind_eq_ok.mp h
      obtain ⟨l, hl, h⟩ := bind_eq_ok.mp h
      cases h
      obtain ⟨hmle, hm⟩ := (local_printItem τ).append hm
      obtain ⟨hlle, hl⟩ := ih hl
      rw [List.length_drop] at hmle hlle
      refine ⟨by omega, fun q fuel' hfuel => ?_⟩
      obtain ⟨fuel', rfl⟩ := Nat.exists_eq_add_of_le' (Nat.zero_lt_of_lt hfuel)
      rw [printList, hb', ok_bind, if_pos hone, List.drop_append_of_le_length (by omega), hm,
        ok_bind, List.drop_append_of_le_length (by omega), hl q fuel' (by omega)]
      rfl
    · cases h
      refine ⟨hpos, fun q fuel' hfuel => ?_⟩
      obtain ⟨fuel', rfl⟩ := Nat.exists_eq_add_of_le' (Nat.zero_lt_of_lt hfuel)
      rw [printList, hb', ok_bind, if_neg hone]
      rfl

/-- A list that ends among the first bytes is read from them. -/
theorem printList_of_append {τ : ItemType} {fuel : ℕ} {p q : List UInt8} {n : ℕ}
    (h : printList τ fuel (p ++ q) = .ok n) (hle : n ≤ p.length) :
    ∀ fuel' ≥ n, printList τ fuel' p = .ok n := by
  induction fuel generalizing p n with
  | zero => cases h
  | succ fuel ih =>
    rw [printList] at h
    obtain ⟨b, hb, h⟩ := bind_eq_ok.mp h
    split_ifs at h with hone
    · obtain ⟨m, hm, h⟩ := bind_eq_ok.mp h
      obtain ⟨l, hl, h⟩ := bind_eq_ok.mp h
      cases h
      rw [byteGet_append q (by omega)] at hb
      rw [List.drop_append_of_le_length (by omega)] at hm hl
      have hm := (local_printItem τ).of_append hm (by rw [List.length_drop]; omega)
      have hl := ih hl (by rw [List.length_drop]; omega)
      intro fuel' hfuel
      obtain ⟨fuel', rfl⟩ := Nat.exists_eq_add_of_le' (by omega : 1 ≤ fuel')
      rw [printList, hb, ok_bind, if_pos hone, hm, ok_bind, hl fuel' (by omega)]
      rfl
    · cases h
      rw [byteGet_append q hle] at hb
      intro fuel' hfuel
      obtain ⟨fuel', rfl⟩ := Nat.exists_eq_add_of_le' hfuel
      rw [printList, hb, ok_bind, if_neg hone]
      rfl

/-- Printing a field looks at its bytes only, whatever its type. -/
theorem local_printField (τ : FieldType) : Local (printField τ) := by
  cases τ with
  | item τ => exact local_printItem τ
  | list τ =>
    constructor
    · intro p n h
      obtain ⟨hle, hq⟩ := printList_append h
      exact ⟨hle, fun q => hq q _ (by simp)⟩
    · intro p q n h hle
      exact printList_of_append h hle _ hle
  | string =>
    constructor
    · intro p n h
      cases h
    · intro p q n h
      cases h

/-- The fields of a fact are read from the bytes that they take. -/
theorem local_printFields (types : List FieldType) : Local (printFields types) := by
  induction types with
  | nil =>
    constructor
    · intro p n h
      cases h
      exact ⟨Nat.zero_le _, fun q => rfl⟩
    · intro p q n h hle
      cases h
      rfl
  | cons τ types ih =>
    constructor
    · intro p n h
      rw [printFields] at h
      obtain ⟨m, hm, h⟩ := bind_eq_ok.mp h
      obtain ⟨l, hl, h⟩ := bind_eq_ok.mp h
      cases h
      obtain ⟨hmle, hm⟩ := (local_printField τ).append hm
      obtain ⟨hlle, hl⟩ := ih.append hl
      rw [List.length_drop] at hlle
      refine ⟨by omega, fun q => ?_⟩
      rw [printFields, hm, ok_bind, List.drop_append_of_le_length hmle, hl]
      rfl
    · intro p q n h hle
      rw [printFields] at h
      obtain ⟨m, hm, h⟩ := bind_eq_ok.mp h
      obtain ⟨l, hl, h⟩ := bind_eq_ok.mp h
      cases h
      rw [List.drop_append_of_le_length (by omega)] at hl
      have hm := (local_printField τ).of_append hm (by omega)
      have hl := ih.of_append hl (by rw [List.length_drop]; omega)
      rw [printFields, hm, ok_bind, hl]
      rfl

end Meld.Vm.Bytecode

namespace Meld.Linker

open Lib Lib.Bytes Vm Vm.Bytecode Traversal

/-! ### One printing -/

/-- The numbers that printing writes over the ids of predicates and of rules, and the types of the
fields of the predicates. -/
structure Numbering where
  predicate : ℕ → ℕ
  rule : ℕ → ℕ
  types : List (List FieldType)

/-- These are the numbers of the program, as far as they fit a byte. -/
structure Numbering.Of (ν : Numbering) (links : Links) : Prop where
  predicate : ∀ {i : ℕ} {p : ℕ × List FieldType}, links.predicates[i]? = some p →
    predicateSet p.1 = predicateSet (ν.predicate i)
  rule : ∀ {i new : ℕ}, links.rules[i]? = some new → UInt8.ofNat new = .ofNat (ν.rule i)
  types : ∀ {i : ℕ} {p : ℕ × List FieldType}, links.predicates[i]? = some p →
    ν.types[i]? = some p.2

/-- A pass over facts: the id of each is replaced, and the next one is where the fields of its
predicate end. -/
def relinkFacts (ν : Numbering) : ℕ → List UInt8 → List UInt8
  | 0, body => body
  | _ + 1, [] => []
  | fuel + 1, b :: rest =>
    predicateSet (ν.predicate (predicateGet b)) ::
      match printFields ((ν.types[predicateGet b]?).getD []) rest with
      | .ok n => rest.take n ++ relinkFacts ν fuel (rest.drop n)
      | .error _ => rest

/-- What printing does to the bytes of an instruction. -/
def relinkBytes (ν : Numbering) (h : Head) (bs : List UInt8) : List UInt8 :=
  match opcode h with
  | .alloc | .iter | .delete => bs.set 1 (predicateSet (ν.predicate (predicateGet (byteAt bs 1))))
  | .rule => bs.set 1 (.ofNat (ν.rule (wordAt bs 1).toNat))
  | .newAxioms => bs.take 5 ++ relinkFacts ν (bs.drop 5).length (bs.drop 5)
  | _ => bs

variable {ν : Numbering} {links : Links} {h : Head} {L : List Head} {pre bs post : List UInt8}

/-- The loop over the facts makes a pass over them. -/
theorem printFacts_eq (hν : ν.Of links) {fuel : ℕ} {pre body code : List UInt8}
    (hprint : printFacts links (pre.length + body.length) fuel pre.length (pre ++ (body ++ post)) =
      .ok code) {fuel' : ℕ} (hfuel : body.length ≤ fuel') :
    code = pre ++ (relinkFacts ν fuel' body ++ post) := by
  induction fuel generalizing pre body fuel' with
  | zero => cases hprint
  | succ fuel ih =>
    cases body with
    | nil =>
      rw [printFacts, if_neg (by simp)] at hprint
      cases hprint
      cases fuel' <;> rfl
    | cons b rest =>
      obtain ⟨fuel', rfl⟩ := Nat.exists_eq_add_of_le' (Nat.zero_lt_of_lt hfuel)
      rw [List.length_cons] at hfuel
      rw [printFacts, if_pos (by simp)] at hprint
      obtain ⟨b', hb, hprint⟩ := bind_eq_ok.mp hprint
      obtain ⟨⟨id, types⟩, hget, hprint⟩ := bind_eq_ok.mp hprint
      obtain ⟨n, hn, hprint⟩ := bind_eq_ok.mp hprint
      obtain rfl : b' = b := by
        rw [byteGet, List.cons_append, List.getElem?_append_right le_rfl, Nat.sub_self] at hb
        exact (Except.ok.inj hb).symm
      rw [deref_eq_ok] at hget
      have hset : (pre ++ (b' :: rest ++ post)).set pre.length (predicateSet id) =
          (pre ++ [predicateSet id]) ++ (rest ++ post) := by
        rw [List.set_append_right _ _ le_rfl, Nat.sub_self, List.append_assoc]
        rfl
      have hdrop : ((pre ++ [predicateSet id]) ++ (rest ++ post)).drop (pre.length + 1) =
          rest ++ post := List.drop_left' (by simp)
      rw [hset] at hprint
      rw [hset, hdrop] at hn
      have hnumber : predicateSet id = predicateSet (ν.predicate (predicateGet b')) :=
        hν.predicate hget
      rw [relinkFacts, hν.types hget, Option.getD_some, ← hnumber]
      -- the fields are inside of the instruction, and the facts behind them are next
      by_cases hle : n ≤ rest.length
      · rw [(local_printFields types).of_append hn hle]
        have hsplit : (pre ++ [predicateSet id]) ++ (rest ++ post) =
            (pre ++ predicateSet id :: rest.take n) ++ (rest.drop n ++ post) := by
          rw [← List.append_assoc, ← List.append_assoc, List.append_assoc pre _ (rest.drop n),
            List.cons_append, List.take_append_drop, List.append_assoc pre]
          rfl
        have hlen : (pre ++ predicateSet id :: rest.take n).length = pre.length + 1 + n := by
          rw [List.length_append, List.length_cons, List.length_take_of_le hle]
          omega
        have hstop : pre.length + (b' :: rest).length = pre.length + 1 + n + (rest.drop n).length := by
          rw [List.length_drop, List.length_cons]
          omega
        rw [hsplit, hstop, ← hlen] at hprint
        have hfuel : (rest.drop n).length ≤ fuel' := by
          rw [List.length_drop]
          omega
        rw [ih hprint hfuel]
        simp only [List.append_assoc, List.cons_append]
      · -- the fields run over the end of the instruction
        have herror : ∀ m, printFields types rest ≠ .ok m := fun m hm => by
          obtain ⟨hmle, happend⟩ := (local_printFields types).append hm
          obtain rfl := Except.ok.inj ((happend post).symm.trans hn)
          exact hle hmle
        cases hfields : printFields types rest with
        | ok m => exact absurd hfields (herror m)
        | error e =>
          obtain ⟨fuel, rfl⟩ : ∃ f, fuel = f + 1 := by
            cases fuel with
            | zero => cases hprint
            | succ f => exact ⟨f, rfl⟩
          rw [printFacts, if_neg (by rw [List.length_cons]; omega)] at hprint
          cases hprint
          simp only [List.append_assoc, List.cons_append, List.nil_append]

/-- Printing an instruction relinks its bytes. -/
theorem printHead_eq (hν : ν.Of links) {code : List UInt8} (hfits : h.Fits) (hs : Shape h bs)
    (hprint : printHead links (pre ++ (bs ++ post)) pre.length = .ok code) :
    code = pre ++ (relinkBytes ν h bs ++ post) := by
  rw [printHead, List.drop_left, hs.fetch, ok_bind] at hprint
  -- what an instruction names stands behind its opcode
  have hbyte : Named h → byteGet (bs ++ post) 1 = .ok (byteAt bs 1) := fun hnamed => by
    have hlen := (hs.set_one hnamed 0).1
    rw [byteGet_append post hlen, byteGet, List.getElem?_eq_getElem hlen, byteAt,
      List.getD_eq_getElem _ _ hlen]
    rfl
  -- and relinking writes over this byte only
  have hset : Named h → ∀ b, (pre ++ (bs ++ post)).set (pre.length + 1) b =
      pre ++ (bs.set 1 b ++ post) := fun hnamed b => set_append (hs.set_one hnamed b).1 b
  split at hprint
  · next hop =>
    have hnamed : Named h := by simp [Named, hop]
    obtain ⟨b, hb, hprint⟩ := bind_eq_ok.mp hprint
    obtain ⟨⟨id, types⟩, hget, hprint⟩ := bind_eq_ok.mp hprint
    obtain ⟨_, -, hprint⟩ := bind_eq_ok.mp hprint
    cases hprint
    obtain rfl := Except.ok.inj ((hbyte hnamed).symm.trans hb)
    rw [hset hnamed, relinkBytes, hop, ← hν.predicate (deref_eq_ok.mp hget)]
  · next hop =>
    have hnamed : Named h := by simp [Named, hop]
    obtain ⟨b, hb, hprint⟩ := bind_eq_ok.mp hprint
    obtain ⟨⟨id, types⟩, hget, hprint⟩ := bind_eq_ok.mp hprint
    obtain ⟨_, -, hprint⟩ := bind_eq_ok.mp hprint
    cases hprint
    obtain rfl := Except.ok.inj ((hbyte hnamed).symm.trans hb)
    rw [hset hnamed, relinkBytes, hop, ← hν.predicate (deref_eq_ok.mp hget)]
  · next hop =>
    have hnamed : Named h := by simp [Named, hop]
    obtain ⟨b, hb, hprint⟩ := bind_eq_ok.mp hprint
    obtain ⟨⟨id, types⟩, hget, hprint⟩ := bind_eq_ok.mp hprint
    obtain ⟨_, -, hprint⟩ := bind_eq_ok.mp hprint
    cases hprint
    obtain rfl := Except.ok.inj ((hbyte hnamed).symm.trans hb)
    rw [hset hnamed, relinkBytes, hop, ← hν.predicate (deref_eq_ok.mp hget)]
  · next hop =>
    have hnamed : Named h := by simp [Named, hop]
    obtain ⟨id, hid, hprint⟩ := bind_eq_ok.mp hprint
    obtain ⟨new, hnew, hprint⟩ := bind_eq_ok.mp hprint
    cases hprint
    -- only RULE has this opcode, and it has five bytes
    have hlen : bs.length = 5 := by
      obtain ⟨id, rfl⟩ : ∃ id, h = .instr (.rule id) := by
        cases h with
        | instr i =>
          cases i with
          | rule id => exact ⟨id, rfl⟩
          | _ => cases hop
        | _ => cases hop
      rw [hs.length]
      simp [Head.bytes, Instr.bytes]
    -- the number that is read is the one that was relinked
    have hword : (wordAt bs 1).toNat = id := by
      rw [numGet, if_pos (by rw [List.length_append]; omega)] at hid
      obtain rfl := Except.ok.inj hid
      rw [List.drop_append_of_le_length (by omega),
        List.take_append_of_le_length (by rw [List.length_drop]; omega), wordAt]
      refine UInt32.toNat_ofNat_of_lt' ((ofLe_lt _).trans_le ?_)
      rw [List.length_take, List.length_drop, hlen]
      decide
    rw [hset hnamed, relinkBytes, hop, hword, ← hν.rule (deref_eq_ok.mp hnew)]
  · next hop =>
    obtain ⟨axioms, rfl⟩ : ∃ axioms, h = .instr (.newAxioms axioms) := by
      cases h with
      | instr i =>
        cases i with
        | newAxioms axioms => exact ⟨axioms, rfl⟩
        | _ => cases hop
      | _ => cases hop
    obtain ⟨body, hbody, rfl⟩ := hs.axioms_cases
    have hnum : 5 + body.length < 256 ^ 4 := by
      rw [hbody]
      exact hfits
    -- the facts end where the jump leads
    have hjump := numGet_append 4 [0x14] rfl (5 + body.length) (body ++ post)
    rw [Nat.mod_eq_of_lt hnum] at hjump
    obtain ⟨jump, hget, hprint⟩ := bind_eq_ok.mp hprint
    simp only [List.append_assoc] at hget
    obtain rfl := Except.ok.inj (hjump.symm.trans hget)
    obtain ⟨start, hstart⟩ : ∃ start, start = [0x14] ++ le 4 (5 + body.length) := ⟨_, rfl⟩
    have hlen : start.length = 5 := by simp [hstart]
    rw [← hstart] at hprint ⊢
    have hparts : pre ++ (start ++ body ++ post) = (pre ++ start) ++ (body ++ post) := by
      simp only [List.append_assoc]
    have hpre : pre.length + 5 = (pre ++ start).length := by rw [List.length_append, hlen]
    rw [hparts, hpre, ← Nat.add_assoc, hpre] at hprint
    rw [printFacts_eq hν hprint le_rfl, relinkBytes, hop, List.take_left' hlen,
      List.drop_left' hlen]
    simp only [List.append_assoc]
  · obtain ⟨_, -, hprint⟩ := bind_eq_ok.mp hprint
    cases hprint
    rw [relinkBytes]
    split <;> first | rfl | contradiction

/-! ### What a printing leaves alone -/

/-- The facts of a NEW_AXIOMS keep their length. -/
theorem length_relinkFacts (fuel : ℕ) (body : List UInt8) :
    (relinkFacts ν fuel body).length = body.length := by
  induction fuel generalizing body with
  | zero => rfl
  | succ fuel ih =>
    cases body with
    | nil => rfl
    | cons b rest =>
      rw [relinkFacts, List.length_cons, List.length_cons]
      cases printFields ((ν.types[predicateGet b]?).getD []) rest with
      | error => rfl
      | ok n =>
        dsimp only
        rw [List.length_append, ih, ← List.length_append, List.take_append_drop]

/-- Relinked bytes are those of the instruction, but for its ids. -/
theorem shape_relinkBytes (hs : Shape h bs) : Shape h (relinkBytes ν h bs) := by
  have hset : Named h → ∀ b, Shape h (bs.set 1 b) := fun hnamed b => (hs.set_one hnamed b).2
  rw [relinkBytes]
  split
  · next hop => exact hset (by simp [Named, hop]) _
  · next hop => exact hset (by simp [Named, hop]) _
  · next hop => exact hset (by simp [Named, hop]) _
  · next hop => exact hset (by simp [Named, hop]) _
  · next hop =>
    obtain ⟨axioms, rfl⟩ : ∃ axioms, h = .instr (.newAxioms axioms) := by
      cases h with
      | instr i =>
        cases i with
        | newAxioms axioms => exact ⟨axioms, rfl⟩
        | _ => cases hop
      | _ => cases hop
    obtain ⟨body, hbody, rfl⟩ := hs.axioms_cases
    have hlen : ([0x14] ++ le 4 (5 + body.length)).length = 5 := by simp
    have hrelinked := length_relinkFacts (ν := ν) body.length body
    rw [List.take_left' hlen, List.drop_left' hlen]
    generalize relinkFacts ν body.length body = body' at hrelinked
    rw [← hrelinked]
    exact .axioms axioms body' (hrelinked.trans hbody)
  · exact hs

/-- Relinking any number of times keeps the shape. -/
theorem shape_iterate (hs : Shape h bs) (n : ℕ) : Shape h ((relinkBytes ν h)^[n] bs) := by
  induction n with
  | zero => exact hs
  | succ n ih =>
    rw [Function.iterate_succ_apply']
    exact shape_relinkBytes ih

/-- A reference stands at or behind the first byte. -/
theorem le_of_mem_refsFrom {off first : ℕ} {r : Ref} {ps : List Piece}
    (h : (off, r) ∈ refsFrom first ps) : first ≤ off := by
  induction ps generalizing first with
  | nil => cases h
  | cons p ps ih =>
    cases p with
    | plain bs => exact (Nat.le_add_right ..).trans (ih h)
    | ref r' =>
      rcases List.mem_cons.mp h with heq | h
      · exact (Prod.mk.inj heq).1.ge
      · exact (Nat.le_add_right ..).trans (ih h)

/-- The references of two lists of pieces, one behind the other. -/
theorem mem_refsFrom_append {first off : ℕ} {r : Ref} {ps qs : List Piece} :
    (off, r) ∈ refsFrom first (ps ++ qs) ↔
      (off, r) ∈ refsFrom first ps ∨
        (off, r) ∈ refsFrom (first + (ps.flatMap Piece.bytes).length) qs := by
  induction ps generalizing first with
  | nil => simp [refsFrom]
  | cons p ps ih =>
    rw [List.flatMap_cons, List.length_append, ← Nat.add_assoc]
    cases p with
    | plain bs => exact ih
    | ref r' =>
      rw [List.cons_append, refsFrom, refsFrom, List.mem_cons, List.mem_cons, ih, or_assoc]
      rfl

/-- Every reference in a fact is to a predicate. -/
theorem exists_predicate_of_axioms {first off : ℕ} {r : Ref} {axioms : List Axiom}
    (h : (off, r) ∈ refsFrom first (axioms.flatMap Axiom.pieces)) : ∃ b, r = .predicate b := by
  induction axioms generalizing first with
  | nil => cases h
  | cons a axioms ih =>
    rw [List.flatMap_cons, mem_refsFrom_append] at h
    rcases h with h | h
    · simp only [Axiom.pieces, refsFrom, List.mem_singleton, Prod.mk.injEq] at h
      exact ⟨_, h.2⟩
    · exact ih h

/-- Where an id is behind the opcode, the references behind it start two bytes later. -/
theorem refsAt_of_named {off : ℕ} {r : Ref} (hnamed : Named h) (hmem : (off, r) ∈ refsAt h) :
    (off = 1 ∧ ((∃ b, r = .predicate b) ∨ ∃ id, r = .rule id)) ∨ 2 ≤ off := by
  rw [refsAt] at hmem
  have hfirst : ∀ {ps : List Piece} {b : UInt8},
      (off, r) ∈ (1, Ref.predicate b) :: refsFrom 2 ps →
      (off = 1 ∧ ((∃ b, r = .predicate b) ∨ ∃ id, r = .rule id)) ∨ 2 ≤ off := fun hmem => by
    rcases List.mem_cons.mp hmem with heq | hmem
    · obtain ⟨rfl, rfl⟩ := Prod.mk.inj heq
      exact .inl ⟨rfl, .inl ⟨_, rfl⟩⟩
    · exact .inr (le_of_mem_refsFrom hmem)
  cases h with
  | instr i =>
    cases i with
    | alloc => exact hfirst hmem
    | delete => exact hfirst hmem
    | rule id =>
      obtain ⟨rfl, rfl⟩ := Prod.mk.inj (List.mem_singleton.mp hmem)
      exact .inl ⟨rfl, .inr ⟨id, rfl⟩⟩
    | _ => exact absurd hnamed (by simp [Named, opcode])
  | iter => exact hfirst hmem
  | _ => exact absurd hnamed (by simp [Named, opcode])

/-- The byte of the predicate is in front of all references from the third byte on. -/
theorem readAt_set_one {off : ℕ} (r : Ref) (b : UInt8) (hle : 2 ≤ off) :
    r.readAt (bs.set 1 b) off = r.readAt bs off := by
  have hdrop : (bs.set 1 b).drop off = bs.drop off := List.drop_set_of_lt hle
  have hbyte : byteAt (bs.set 1 b) off = byteAt bs off := by
    rw [byteAt, byteAt, List.getD_eq_getElem?_getD, List.getD_eq_getElem?_getD,
      List.getElem?_set_ne (by omega)]
  cases r <;> simp only [Ref.readAt, wordAt, hdrop, hbyte]

/-- Printing leaves the references alone that are not to predicates or rules. -/
theorem readAt_relinkBytes {off : ℕ} {r : Ref} (hmem : (off, r) ∈ refsAt h)
    (hpred : ∀ b, r ≠ .predicate b) (hrule : ∀ id, r ≠ .rule id) :
    r.readAt (relinkBytes ν h bs) off = r.readAt bs off := by
  have hset : Named h → ∀ b, r.readAt (bs.set 1 b) off = r.readAt bs off := fun hnamed b => by
    rcases refsAt_of_named hnamed hmem with ⟨-, ⟨b, hb⟩ | ⟨id, hid⟩⟩ | hle
    · exact absurd hb (hpred b)
    · exact absurd hid (hrule id)
    · exact readAt_set_one r b hle
  rw [relinkBytes]
  split
  · next hop => exact hset (by simp [Named, hop]) _
  · next hop => exact hset (by simp [Named, hop]) _
  · next hop => exact hset (by simp [Named, hop]) _
  · next hop => exact hset (by simp [Named, hop]) _
  · next hop =>
    cases h with
    | instr i =>
      cases i with
      | newAxioms axioms =>
        obtain ⟨b, hb⟩ := exists_predicate_of_axioms hmem
        exact absurd hb (hpred b)
      | _ => cases hop
    | _ => cases hop
  · rfl

/-- Only references to predicates and rules are changed. -/
theorem readAt_iterate {off : ℕ} {r : Ref} (hmem : (off, r) ∈ refsAt h)
    (hpred : ∀ b, r ≠ .predicate b) (hrule : ∀ id, r ≠ .rule id) (n : ℕ) :
    r.readAt ((relinkBytes ν h)^[n] bs) off = r.readAt bs off := by
  induction n with
  | zero => rfl
  | succ n ih => rw [Function.iterate_succ_apply', readAt_relinkBytes hmem hpred hrule, ih]

/-! ### Ids that are printed more than once -/

/-- The id that printing leaves in the place of an id of a predicate. -/
def Numbering.next (ν : Numbering) (id : ℕ) : ℕ := ν.predicate id % 128

/-- The id that printing leaves in the place of an id of a rule. -/
def Numbering.nextRule (ν : Numbering) (id : UInt32) : UInt32 := ruleSetId id (ν.rule id.toNat)

/-- The number of a predicate has seven bits. -/
theorem predicateGet_set (n : ℕ) : predicateGet (predicateSet n) = n % 128 := by
  rw [predicateGet, predicateSet, UInt8.toNat_ofNat']
  omega

/-- The byte that is set is read back. -/
theorem byteAt_set_one (hlt : 1 < bs.length) (b : UInt8) : byteAt (bs.set 1 b) 1 = b := by
  rw [byteAt, List.getD_eq_getElem?_getD, List.getElem?_set_self hlt]
  rfl

/-- An id of a predicate behind its opcode, after some printings. -/
theorem predicateGet_iterate (hpred : opcode h ∈ [Opcode.alloc, .iter, .delete]) (n : ℕ) :
    predicateGet (byteAt ((relinkBytes ν h)^[n] h.bytes) 1) =
      ν.next^[n] (predicateGet (byteAt h.bytes 1)) := by
  have hnamed : Named h := by
    simp only [List.mem_cons, List.not_mem_nil, or_false] at hpred
    rcases hpred with hop | hop | hop <;> simp [Named, hop]
  induction n with
  | zero => rfl
  | succ n ih =>
    have hlen := ((shape_iterate (ν := ν) (.same h) n).set_one hnamed 0).1
    have hstep : relinkBytes ν h ((relinkBytes ν h)^[n] h.bytes) =
        ((relinkBytes ν h)^[n] h.bytes).set 1
          (predicateSet (ν.predicate (predicateGet (byteAt ((relinkBytes ν h)^[n] h.bytes) 1)))) := by
      simp only [List.mem_cons, List.not_mem_nil, or_false] at hpred
      rw [relinkBytes]
      rcases hpred with hop | hop | hop <;> rw [hop]
    rw [Function.iterate_succ_apply', hstep, byteAt_set_one hlen, predicateGet_set,
      Function.iterate_succ_apply', ← ih]
    rfl

/-- The id of a rule, after some printings. -/
theorem iterate_rule (id : UInt32) (n : ℕ) :
    (relinkBytes ν (.instr (.rule id)))^[n] (Head.instr (.rule id)).bytes =
      (Head.instr (.rule (ν.nextRule^[n] id))).bytes := by
  induction n with
  | zero => rfl
  | succ n ih =>
    obtain ⟨new, hnew⟩ : ∃ new, new = ν.nextRule^[n] id := ⟨_, rfl⟩
    have hword : wordAt (Head.instr (.rule new)).bytes 1 = new := by
      have happend := @wordAt_append [0x10] [] new
      rwa [List.append_nil] at happend
    rw [Function.iterate_succ_apply', Function.iterate_succ_apply', ih, ← hnew]
    change (Head.instr (.rule new)).bytes.set 1 (.ofNat (ν.rule (wordAt _ 1).toNat)) = _
    rw [hword, Head.bytes, Head.bytes, Instr.bytes, Instr.bytes, Numbering.nextRule, le_ruleSetId]
    rfl

/-- A pass over all the facts. -/
def Numbering.pass (ν : Numbering) (body : List UInt8) : List UInt8 :=
  relinkFacts ν body.length body

/-- The facts of an instruction, after some printings. -/
theorem iterate_axioms (axioms : List Axiom) (n : ℕ) :
    (relinkBytes ν (.instr (.newAxioms axioms)))^[n] (Head.instr (.newAxioms axioms)).bytes =
      [0x14] ++ le 4 (5 + (axioms.flatMap Axiom.bytes).length) ++
        ν.pass^[n] (axioms.flatMap Axiom.bytes) := by
  have hlen : ([0x14] ++ le 4 (5 + (axioms.flatMap Axiom.bytes).length)).length = 5 := by simp
  induction n with
  | zero => rfl
  | succ n ih =>
    rw [Function.iterate_succ_apply', Function.iterate_succ_apply', ih, relinkBytes]
    dsimp only [opcode]
    rw [List.take_left' hlen, List.drop_left' hlen]
    rfl

/-! ### References to predicates -/

/-- A reference that stands somewhere is one of the pieces. -/
theorem ref_mem_of_refsFrom {first off : ℕ} {r : Ref} {ps : List Piece}
    (h : (off, r) ∈ refsFrom first ps) : .ref r ∈ ps := by
  induction ps generalizing first with
  | nil => cases h
  | cons p ps ih =>
    cases p with
    | plain bs => exact List.mem_cons_of_mem _ (ih h)
    | ref r' =>
      rcases List.mem_cons.mp h with heq | h
      · rw [(Prod.mk.inj heq).2]
        exact List.mem_cons_self
      · exact List.mem_cons_of_mem _ (ih h)

/-- The values of an instruction refer to no predicate. -/
theorem predicate_notMem_pieces (b : UInt8) (v : Val) : Piece.ref (.predicate b) ∉ v.pieces := by
  cases v <;> simp [Val.pieces]

/-- The conditions of an iteration do not refer to predicates. -/
theorem predicate_notMem_matchPieces (b : UInt8) (ms : List IterMatch) :
    Piece.ref (.predicate b) ∉ matchPieces ms := by
  induction ms using matchPieces.induct with
  | case1 => simp [matchPieces]
  | case2 m => simp [matchPieces, predicate_notMem_pieces]
  | case3 m ms hne ih =>
    rw [matchPieces.eq_3 m ms hne]
    simp [predicate_notMem_pieces, ih]

/-- The ids of predicates are behind the opcode, or in facts. -/
theorem predicate_refsAt {off : ℕ} {b : UInt8} (hmem : (off, .predicate b) ∈ refsAt h) :
    (opcode h ∈ [Opcode.alloc, .iter, .delete] ∧ off = 1 ∧ byteAt h.bytes 1 = b) ∨
      ∃ axioms, h = .instr (.newAxioms axioms) := by
  have hfirst : ∀ {b' : UInt8} {ps : List Piece}, opcode h ∈ [Opcode.alloc, .iter, .delete] →
      byteAt h.bytes 1 = b' → Piece.ref (.predicate b) ∉ ps →
      (off, Ref.predicate b) ∈ (1, Ref.predicate b') :: refsFrom 2 ps →
      (opcode h ∈ [Opcode.alloc, .iter, .delete] ∧ off = 1 ∧ byteAt h.bytes 1 = b) ∨
        ∃ axioms, h = .instr (.newAxioms axioms) := by
    intro b' ps hop hbyte hps hmem
    rcases List.mem_cons.mp hmem with heq | hmem
    · obtain ⟨rfl, hb⟩ := Prod.mk.inj heq
      obtain rfl := Ref.predicate.inj hb
      exact .inl ⟨hop, rfl, hbyte⟩
    · exact absurd (ref_mem_of_refsFrom hmem) hps
  cases h with
  | instr i =>
    cases i with
    | alloc => exact hfirst (by simp [opcode]) rfl (by simp) hmem
    | delete =>
      exact hfirst (by simp [opcode]) rfl (by simp [argPieces, predicate_notMem_pieces]) hmem
    | newAxioms axioms => exact .inr ⟨axioms, rfl⟩
    | rule | callf => simp [refsAt, headPieces, Instr.pieces, refsFrom] at hmem
    | _ =>
      refine absurd (ref_mem_of_refsFrom hmem) ?_
      simp [headPieces, Instr.pieces, Instr.valPieces, Instr.vals, argPieces,
        predicate_notMem_pieces]
  | iter => exact hfirst (by simp [opcode]) rfl (by simp [predicate_notMem_matchPieces]) hmem
  | _ => exact absurd (ref_mem_of_refsFrom hmem) (by simp [headPieces])

/-- The id in the place of an id of a predicate, when the instruction has been printed so often: the
number of the id, of what was written then, and so on. Those of facts are written in passes. -/
def Numbering.after (ν : Numbering) (n : ℕ) : Head → ℕ → UInt8 → ℕ
  | .instr (.newAxioms axioms), off, _ =>
    predicateGet (byteAt (ν.pass^[n] (axioms.flatMap Axiom.bytes)) (off - 5))
  | _, _, b => ν.next^[n] (predicateGet b)

/-- What printing leaves in the place of an id of a predicate. -/
theorem predicateGet_after {off : ℕ} {b : UInt8} (hmem : (off, .predicate b) ∈ refsAt h) (n : ℕ) :
    predicateGet (byteAt ((relinkBytes ν h)^[n] h.bytes) off) = ν.after n h off b := by
  rcases predicate_refsAt hmem with ⟨hop, rfl, hbyte⟩ | ⟨axioms, rfl⟩
  · have hne : ∀ axioms, h ≠ .instr (.newAxioms axioms) := by
      rintro axioms rfl
      simp [opcode] at hop
    rw [predicateGet_iterate hop, hbyte, Numbering.after.eq_2 _ _ _ _ _ hne]
  · have hlen : ([0x14] ++ le 4 (5 + (axioms.flatMap Axiom.bytes).length)).length = 5 := by simp
    have hle : 5 ≤ off := by
      have hfirst : 0 + _ ≤ off := le_of_mem_refsFrom hmem
      rwa [hlen, Nat.zero_add] at hfirst
    rw [iterate_axioms, Numbering.after, byteAt, List.getD_eq_getElem?_getD,
      List.getElem?_append_right (hlen.symm ▸ hle), hlen, ← List.getD_eq_getElem?_getD, ← byteAt]

/-! ### References to rules -/

/-- A value does not refer to rules. -/
theorem rule_notMem_pieces (id : UInt32) (v : Val) : Piece.ref (.rule id) ∉ v.pieces := by
  cases v <;> simp [Val.pieces]

/-- Nor do the conditions of an iteration. -/
theorem rule_notMem_matchPieces (id : UInt32) (ms : List IterMatch) :
    Piece.ref (.rule id) ∉ matchPieces ms := by
  induction ms using matchPieces.induct with
  | case1 => simp [matchPieces]
  | case2 m => simp [matchPieces, rule_notMem_pieces]
  | case3 m ms hne ih =>
    rw [matchPieces.eq_3 m ms hne]
    simp [rule_notMem_pieces, ih]

/-- Only `RULE_INSTR` refers to a rule. -/
theorem rule_refsAt {off : ℕ} {id : UInt32} (hmem : (off, .rule id) ∈ refsAt h) :
    off = 1 ∧ h = .instr (.rule id) := by
  cases h with
  | instr i =>
    cases i with
    | rule id' =>
      obtain ⟨rfl, hid⟩ := Prod.mk.inj (List.mem_singleton.mp hmem)
      exact ⟨rfl, by rw [Ref.rule.inj hid]⟩
    | _ =>
      refine absurd (ref_mem_of_refsFrom hmem) ?_
      simp [headPieces, Instr.pieces, Instr.valPieces, Instr.vals, argPieces, Axiom.pieces,
        rule_notMem_pieces]
  | _ =>
    refine absurd (ref_mem_of_refsFrom hmem) ?_
    simp [headPieces, rule_notMem_matchPieces]

/-- A reference after some printings, when it is not to a predicate. -/
def Numbering.ref (ν : Numbering) (n : ℕ) : Ref → Ref
  | .rule id => .rule (ν.nextRule^[n] id)
  | r => r

/-- What printing leaves in the place of a reference that is not to a predicate. -/
theorem readAt_ref {off : ℕ} {r : Ref} (hmem : (off, r) ∈ refsAt h)
    (hpred : ∀ b, r ≠ .predicate b) (n : ℕ) :
    r.readAt ((relinkBytes ν h)^[n] h.bytes) off = ν.ref n r := by
  have hother : (∀ id, r ≠ .rule id) → r.readAt ((relinkBytes ν h)^[n] h.bytes) off = r :=
    fun hrule => (readAt_iterate hmem hpred hrule n).trans (readAt_of_mem_refsAt hmem).2
  cases r with
  | predicate b => exact absurd rfl (hpred b)
  | rule id =>
    obtain ⟨rfl, rfl⟩ := rule_refsAt hmem
    have hread := @wordAt_append [0x10] [] (ν.nextRule^[n] id)
    rw [List.append_nil] at hread
    rw [iterate_rule]
    exact congrArg Ref.rule hread
  | _ => exact hother fun id hid => by cases hid

/-! ### Printed code -/

/-- The bytes of each instruction, when those with the numbers have been printed. -/
def relinkedParts (ν : Numbering) (L : List Head) (ks : List ℕ) : List (List UInt8) :=
  L.mapIdx fun k h => (relinkBytes ν h)^[ks.count k] h.bytes

variable {ks : List ℕ} {k : ℕ} {t t' : Tape}

/-- Each part is relinked as often as it was printed. -/
theorem getElem?_relinkedParts (ν : Numbering) (ks : List ℕ) (hk : L[k]? = some h) :
    (relinkedParts ν L ks)[k]? = some ((relinkBytes ν h)^[ks.count k] h.bytes) := by
  rw [relinkedParts, List.getElem?_mapIdx, hk]
  rfl

/-- The parts keep their shapes. -/
theorem shape_relinkedParts (ν : Numbering) (L : List Head) (ks : List ℕ) :
    List.Forall₂ Shape L (relinkedParts ν L ks) := by
  rw [List.forall₂_iff_get]
  refine ⟨(List.length_mapIdx ..).symm, fun i hi hi' => ?_⟩
  rw [List.get_eq_getElem, List.get_eq_getElem]
  simp only [relinkedParts, List.getElem_mapIdx]
  exact shape_iterate (.same _) _

/-- Printing one more instruction. -/
theorem relinkedParts_concat (hk : L[k]? = some h) :
    relinkedParts ν L (ks ++ [k]) = (relinkedParts ν L ks).set k
      (relinkBytes ν h ((relinkBytes ν h)^[ks.count k] h.bytes)) := by
  refine List.ext_getElem? fun i => ?_
  rw [List.getElem?_set, relinkedParts, relinkedParts, List.getElem?_mapIdx, List.getElem?_mapIdx,
    List.length_mapIdx]
  rcases eq_or_ne k i with rfl | hne
  · rw [if_pos rfl, if_pos (List.getElem?_eq_some_iff.mp hk).1, hk, Option.map_some,
      List.count_append, List.count_singleton_self, Function.iterate_succ_apply']
  · rw [if_neg hne, List.count_append, List.count_singleton, beq_eq_false_iff_ne.mpr hne,
      if_neg (by simp), Nat.add_zero]

/-- The parts before an instruction take the bytes up to its address. -/
theorem length_take_parts {parts : List (List UInt8)} (hparts : List.Forall₂ Shape L parts) (k : ℕ) :
    (parts.take k).flatten.length = address L k := by
  induction hparts generalizing k with
  | nil => simp [address, size]
  | cons hs _ ih =>
    cases k with
    | zero => rfl
    | succ k =>
      rw [List.take_succ_cons, List.flatten_cons, List.length_append, ih, hs.length, address,
        address, List.take_succ_cons, size_cons]

/-- The bytes of an instruction among those of all. -/
theorem flatten_split {parts : List (List UInt8)} {bs : List UInt8} (hk : parts[k]? = some bs) :
    parts.flatten = (parts.take k).flatten ++ (bs ++ (parts.drop (k + 1)).flatten) := by
  obtain ⟨hlt, rfl⟩ := List.getElem?_eq_some_iff.mp hk
  conv_lhs => rw [← List.take_append_drop k parts, List.drop_eq_getElem_cons hlt]
  rw [List.flatten_append, List.flatten_cons]

/-- Printing one more instruction relinks its part once more. -/
theorem step_relinked (hν : ν.Of links) (hL : Lays L) (hlt : k < L.length)
    (ht : t.code = (relinkedParts ν L ks).flatten) (hstep : step links L t k = .ok t') :
    t'.code = (relinkedParts ν L (ks ++ [k])).flatten := by
  obtain ⟨h, hk⟩ : ∃ h, L[k]? = some h := ⟨_, List.getElem?_eq_getElem hlt⟩
  obtain ⟨code, hprint, hstep⟩ := bind_eq_ok.mp hstep
  obtain ⟨_, -, hstep⟩ := bind_eq_ok.mp hstep
  cases hstep
  have hpart := getElem?_relinkedParts ν ks hk
  have hlen := (List.getElem?_eq_some_iff.mp hpart).1
  rw [ht, flatten_split hpart, ← length_take_parts (shape_relinkedParts ν L ks)] at hprint
  have hcode := printHead_eq hν (hL.fits_of_getElem? hk) (shape_iterate (.same h) _) hprint
  dsimp only
  rw [hcode, relinkedParts_concat hk, List.set_eq_take_append_cons_drop, if_pos hlen,
    List.flatten_append, List.flatten_cons]

/-- A run relinks each instruction as often as it comes to it. -/
theorem foldlM_relinked (hν : ν.Of links) (hL : Lays L) {ks' : List ℕ} (hks : ∀ j ∈ ks', j < L.length)
    (ht : t.code = (relinkedParts ν L ks).flatten) (hrun : ks'.foldlM (step links L) t = .ok t') :
    t'.code = (relinkedParts ν L (ks ++ ks')).flatten := by
  induction ks' generalizing t ks with
  | nil =>
    cases hrun
    rwa [List.append_nil]
  | cons k ks' ih =>
    rw [List.foldlM_cons] at hrun
    obtain ⟨t₁, hstep, hrun⟩ := bind_eq_ok.mp hrun
    have hone := step_relinked hν hL (hks k List.mem_cons_self) ht hstep
    have hall := ih (fun j hj => hks j (List.mem_cons_of_mem _ hj)) hone hrun
    rwa [List.append_assoc] at hall

/-- Nothing is printed at first. -/
theorem relinkedParts_nil (ν : Numbering) (L : List Head) :
    (relinkedParts ν L []).flatten = L.flatMap Head.bytes := by
  have hparts : relinkedParts ν L [] = L.map Head.bytes := by
    refine List.ext_getElem? fun i => ?_
    rw [relinkedParts, List.getElem?_mapIdx, List.getElem?_map]
    rfl
  rw [hparts]
  rfl

/-- Printed code consists of the instructions, each relinked as often as the route has it. -/
theorem printed_eq {c : Tree} (hν : ν.Of links) (hL : Lays c.heads) (htab : c.Tabled) {fuel pc : ℕ}
    (hfuel : c.heads.length < fuel)
    (hprint : instrsPrint (instrPrint links fuel true) fuel 0 c.bytes.length ⟨c.bytes, []⟩ =
      .ok (pc, t)) : t.code = (relinkedParts ν c.heads (c.route 0)).flatten := by
  rw [instrsPrint_eq hL htab hfuel] at hprint
  obtain ⟨t', hrun, heq⟩ := bind_eq_ok.mp hprint
  cases heq
  exact foldlM_relinked hν hL c.route_lt (relinkedParts_nil ν c.heads).symm hrun

/-- What stands in printed code at the place of a reference. -/
theorem readAt_relinked {off : ℕ} {r : Ref} (hk : L[k]? = some h) (hmem : (off, r) ∈ refsAt h) :
    r.readAt (relinkedParts ν L ks).flatten (address L k + off) =
      r.readAt ((relinkBytes ν h)^[ks.count k] h.bytes) off := by
  have hpart := getElem?_relinkedParts ν ks hk
  have hs := shape_iterate (ν := ν) (.same h) (ks.count k)
  rw [flatten_split hpart, ← length_take_parts (shape_relinkedParts ν L ks)]
  exact r.readAt_middle (hs.length.symm ▸ (readAt_of_mem_refsAt hmem).1)

end Meld.Linker
