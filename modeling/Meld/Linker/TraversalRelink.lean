import Meld.Linker.TraversalOrder

/-!
# What printing writes

Printing an instruction that has not been printed before succeeds and writes the linker's ids into
it (`printHead_fresh`). So does printing along a route that does not come back to an instruction:
afterwards each instruction has been relinked as often as it stands in the route
(`foldlM_step_fresh`).
-/

namespace Meld.Linker.Traversal

open Lib Lib.Bytes Vm Vm.Bytecode

variable {links : Links}

/-! ### One instruction -/

theorem relinkPredicate_eq {b : UInt8} {id : ℕ} {types : List FieldType}
    (hget : links.predicates[predicateGet b]? = some (id, types)) :
    relinkPredicate links b = predicateSet id := by
  rw [relinkPredicate, hget]
  rfl

/-- An instruction with the id of a predicate behind its opcode. -/
theorem printNamed {pre rest post : List UInt8} {op pred : UInt8} {n : ℕ}
    (hknows : links.Knows (.predicate pred))
    (hprint : printLength (fieldTypes links) (op :: pred :: rest ++ post) = .ok n) :
    (do
      let (id, _) ← deref links.predicates[
        predicateGet (← byteGet (op :: pred :: rest ++ post) 1)]?
      let _ ← printLength (fieldTypes links) (op :: pred :: rest ++ post)
      return (pre ++ (op :: pred :: rest ++ post)).set (pre.length + 1) (predicateSet id)) =
        (.ok (pre ++ (op :: relinkPredicate links pred :: rest ++ post)) : Exec (List UInt8)) := by
  obtain ⟨⟨id, types⟩, hget⟩ : ∃ p, links.predicates[predicateGet pred]? = some p :=
    ⟨_, List.getElem?_eq_getElem hknows⟩
  have hbyte : byteGet (op :: pred :: rest ++ post) 1 = .ok pred := rfl
  rw [hbyte, ok_bind, hget, deref_some, ok_bind]
  dsimp only
  rw [hprint, ok_bind, relinkPredicate_eq hget, List.set_append_right _ _ (Nat.le_add_right ..),
    Nat.add_sub_cancel_left]
  rfl

/-- The facts of a `NEW_AXIOMS_INSTR`. -/
theorem printFacts_fresh {axioms : List Axiom} (htyped : AxiomsTyped (fieldTypes links) axioms)
    (hknows : ∀ a ∈ axioms, links.Knows (.predicate a.pred)) {fuel : ℕ}
    (hfuel : axioms.length < fuel) (pre post : List UInt8) :
    printFacts links (pre.length + (axioms.flatMap Axiom.bytes).length) fuel pre.length
        (pre ++ (axioms.flatMap Axiom.bytes ++ post)) =
      .ok (pre ++ ((axioms.map fun a => { a with pred := relinkPredicate links a.pred }).flatMap
        Axiom.bytes ++ post)) := by
  induction axioms generalizing fuel pre with
  | nil =>
    obtain ⟨fuel, rfl⟩ := Nat.exists_eq_add_of_le' (Nat.zero_lt_of_lt hfuel)
    rw [printFacts, List.flatMap_nil, List.length_nil, Nat.add_zero,
      if_neg (lt_irrefl _)]
    rfl
  | cons a axioms ih =>
    obtain ⟨fuel, rfl⟩ := Nat.exists_eq_add_of_le' (Nat.zero_lt_of_lt hfuel)
    have ih := fun pre => ih (fun b hb => htyped b (List.mem_cons_of_mem _ hb))
      (fun b hb => hknows b (List.mem_cons_of_mem _ hb)) (Nat.lt_of_succ_lt_succ hfuel) pre
    obtain ⟨types, htypes, hfields⟩ := htyped a List.mem_cons_self
    obtain ⟨⟨id, types'⟩, hget⟩ : ∃ p, links.predicates[predicateGet a.pred]? = some p :=
      ⟨_, List.getElem?_eq_getElem (hknows a List.mem_cons_self)⟩
    obtain rfl : types' = types := by
      rw [fieldTypes, List.getElem?_map, hget, Option.map_some, Option.some.injEq] at htypes
      exact htypes
    -- a fact begins with its predicate's number
    obtain ⟨rest, hrest⟩ : ∃ rest, rest = axioms.flatMap Axiom.bytes ++ post := ⟨_, rfl⟩
    have hcode : pre ++ ((a :: axioms).flatMap Axiom.bytes ++ post) =
        pre ++ (a.pred :: (a.fields.flatMap AxiomField.bytes ++ rest)) := by
      rw [List.flatMap_cons, hrest, Axiom.bytes, List.append_assoc, List.cons_append]
    have hbyte : byteGet (pre ++ (a.pred :: (a.fields.flatMap AxiomField.bytes ++ rest)))
        pre.length = .ok a.pred := by
      rw [byteGet, List.getElem?_append_right le_rfl, Nat.sub_self]
      rfl
    -- which is written over
    have hset : (pre ++ (a.pred :: (a.fields.flatMap AxiomField.bytes ++ rest))).set pre.length
        (predicateSet id) =
          (pre ++ [predicateSet id]) ++ (a.fields.flatMap AxiomField.bytes ++ rest) := by
      rw [List.set_append_right _ _ le_rfl, Nat.sub_self, List.append_assoc]
      rfl
    have hdrop : ((pre ++ [predicateSet id]) ++ (a.fields.flatMap AxiomField.bytes ++ rest)).drop
        (pre.length + 1) = a.fields.flatMap AxiomField.bytes ++ rest := by
      rw [List.drop_append_of_le_length (by simp)]
      simp
    have hpos : pre.length < pre.length + ((a :: axioms).flatMap Axiom.bytes).length := by
      simp [Axiom.bytes]
    have hlen : (pre ++ predicateSet id :: a.fields.flatMap AxiomField.bytes).length =
        pre.length + 1 + (a.fields.flatMap AxiomField.bytes).length := by
      rw [List.length_append, List.length_cons]
      omega
    -- the next fact begins behind its fields
    have hstop : pre.length + ((a :: axioms).flatMap Axiom.bytes).length =
        pre.length + 1 + (a.fields.flatMap AxiomField.bytes).length +
          (axioms.flatMap Axiom.bytes).length := by
      rw [List.flatMap_cons, List.length_append, Axiom.bytes, List.length_cons]
      omega
    have ih := ih (pre ++ predicateSet id :: a.fields.flatMap AxiomField.bytes)
    rw [hlen, ← hrest] at ih
    rw [printFacts, if_pos hpos, hcode, hbyte, ok_bind, hget, deref_some, ok_bind]
    dsimp only
    rw [hset, hdrop, printFields_bytes hfields, ok_bind, hstop, List.map_cons, List.flatMap_cons,
      relinkPredicate_eq hget, Axiom.bytes]
    simp only [List.append_assoc, List.cons_append, List.nil_append] at ih ⊢
    exact ih

theorem length_relinked_axioms (axioms : List Axiom) :
    ((axioms.map fun a => { a with pred := relinkPredicate links a.pred }).flatMap
      Axiom.bytes).length = (axioms.flatMap Axiom.bytes).length := by
  rw [List.flatMap_map, List.length_flatMap, List.length_flatMap]
  rfl

theorem length_le_flatMap_bytes (axioms : List Axiom) :
    axioms.length ≤ (axioms.flatMap Axiom.bytes).length := by
  induction axioms with
  | nil => exact le_rfl
  | cons a axioms ih =>
    rw [List.flatMap_cons, List.length_append, Axiom.bytes, List.length_cons, List.length_cons]
    omega

/-- Printing an instruction that has not been printed before writes the linker's ids into it. -/
theorem printHead_fresh {h : Head} {pre post : List UInt8} (hfits : h.Fits)
    (hknows : ∀ r ∈ headRefs h, links.Knows r) (htyped : h.Typed (fieldTypes links)) :
    printHead links (pre ++ (h.bytes ++ post)) pre.length =
      .ok (pre ++ ((relink links h).bytes ++ post)) := by
  have hprint := printLength_head hfits htyped post
  -- the printer leaves the other instructions as they are
  have hrest : opcode h ∉ [Opcode.alloc, .iter, .delete, .rule, .newAxioms] →
      printHead links (pre ++ (h.bytes ++ post)) pre.length =
        .ok (pre ++ (h.bytes ++ post)) := by
    intro hop
    rw [printHead, List.drop_left, fetch_head, ok_bind]
    split
    · next heq => exact absurd (by simp [heq]) hop
    · next heq => exact absurd (by simp [heq]) hop
    · next heq => exact absurd (by simp [heq]) hop
    · next heq => exact absurd (by simp [heq]) hop
    · next heq => exact absurd (by simp [heq]) hop
    · rw [hprint]
      rfl
  cases h with
  | instr i =>
    cases i with
    | alloc pred reg =>
      rw [printHead, List.drop_left, fetch_head, ok_bind]
      exact printNamed (hknows _ List.mem_cons_self) hprint
    | delete pred args =>
      rw [printHead, List.drop_left, fetch_head, ok_bind]
      exact printNamed (hknows _ List.mem_cons_self) hprint
    -- the id of a rule has four bytes
    | rule id =>
      obtain ⟨new, hget⟩ : ∃ new, links.rules[id.toNat]? = some new :=
        ⟨_, List.getElem?_eq_getElem (hknows (.rule id) List.mem_cons_self)⟩
      have hnum : numGet 4 ((Head.instr (.rule id)).bytes ++ post) 1 = .ok id.toNat :=
        numGet_word (show [(0x10 : UInt8)].length = 1 from rfl) id post
      rw [printHead, List.drop_left, fetch_head, ok_bind]
      dsimp only [opcode]
      rw [hnum, ok_bind, hget, deref_some, ok_bind, pure_eq_ok,
        List.set_append_right _ _ (Nat.le_add_right ..), Nat.add_sub_cancel_left, relink, hget,
        Option.getD_some, Head.bytes, Head.bytes, Instr.bytes, Instr.bytes, le_ruleSetId]
      rfl
    -- the facts are printed one after another, each with its predicate
    | newAxioms axioms =>
      obtain ⟨body, hbody⟩ : ∃ body, body = axioms.flatMap Axiom.bytes := ⟨_, rfl⟩
      have hlt : 5 + body.length < 256 ^ 4 := hbody ▸ hfits
      have hnum : numGet 4 ((Head.instr (.newAxioms axioms)).bytes ++ post) 1 =
          .ok (5 + body.length) := by
        have hget := numGet_append 4 [0x14] (show [(0x14 : UInt8)].length = 1 from rfl)
          (5 + body.length) (body ++ post)
        rw [Nat.mod_eq_of_lt hlt] at hget
        rw [Head.bytes, Instr.bytes, ← hbody]
        simpa only [List.append_assoc] using hget
      have hcode : ∀ body', pre ++ ([0x14] ++ le 4 (5 + body.length) ++ body' ++ post) =
          (pre ++ ([0x14] ++ le 4 (5 + body.length))) ++ (body' ++ post) := fun body' => by
        simp only [List.append_assoc]
      have hpre : (pre ++ ([0x14] ++ le 4 (5 + body.length))).length = pre.length + 5 := by
        simp
      have hfuel : axioms.length <
          (pre ++ ([0x14] ++ le 4 (5 + body.length) ++ body ++ post)).length := by
        have := length_le_flatMap_bytes axioms
        simp only [List.length_append, length_le, List.length_singleton, hbody]
        omega
      have hrun := printFacts_fresh htyped (fun a ha => hknows _ (List.mem_append_left _
        (List.mem_map_of_mem ha))) hfuel (pre ++ ([0x14] ++ le 4 (5 + body.length))) post
      rw [hpre, ← hbody, ← hcode, ← hcode, Nat.add_assoc] at hrun
      rw [printHead, List.drop_left, fetch_head, ok_bind]
      dsimp only [opcode]
      rw [hnum, ok_bind, relink, Head.bytes, Instr.bytes, Head.bytes, Instr.bytes,
        length_relinked_axioms, ← hbody]
      exact hrun
    | _ => exact hrest (by simp [opcode])
  | iter pred options argument jump ms =>
    rw [printHead, List.drop_left, fetch_head, ok_bind]
    exact printNamed (hknows _ List.mem_cons_self) hprint
  | _ => exact hrest (by simp [opcode])

/-! ### Runs -/

variable {L : List Head} {t t' : Tape} {ks : List ℕ}

theorem length_relink (h : Head) : (relink links h).bytes.length = h.bytes.length := by
  cases h with
  | instr i =>
    cases i with
    | newAxioms axioms =>
      simp only [relink, Head.bytes, Instr.bytes, List.length_append, length_le,
        length_relinked_axioms]
    | rule => simp only [relink, Head.bytes, Instr.bytes, List.length_append, length_le]
    | _ => rfl
  | _ => rfl

/-- What a run has printed. -/
theorem visited_of_foldlM (hrun : ks.foldlM (step links L) t = .ok t') :
    t'.visited = t.visited ++ ks.map (address L) := by
  induction ks generalizing t with
  | nil =>
    cases hrun
    exact (List.append_nil _).symm
  | cons k ks ih =>
    rw [List.foldlM_cons] at hrun
    obtain ⟨t₁, hstep, hrun⟩ := bind_eq_ok.mp hrun
    obtain ⟨code, -, hstep⟩ := bind_eq_ok.mp hstep
    obtain ⟨_, -, hstep⟩ := bind_eq_ok.mp hstep
    cases hstep
    rw [ih hrun, List.append_assoc]
    rfl

/-- A run takes the size of every instruction that it prints. -/
theorem sized_of_foldlM (hL : Lays L) (ht : Shaped L t.code) (hks : ∀ k ∈ ks, k < L.length)
    (hrun : ks.foldlM (step links L) t = .ok t') {k : ℕ} (hk : k ∈ ks) {h : Head}
    (hget : L[k]? = some h) : h.Sized := by
  induction ks generalizing t with
  | nil => cases hk
  | cons j ks ih =>
    rw [List.foldlM_cons] at hrun
    obtain ⟨t₁, hstep, hrun⟩ := bind_eq_ok.mp hrun
    rcases List.mem_cons.mp hk with rfl | hk
    · obtain ⟨code, hprint, hstep⟩ := bind_eq_ok.mp hstep
      obtain ⟨_, hadvance, -⟩ := bind_eq_ok.mp hstep
      have hfits := hL.fits_of_getElem? hget
      rw [(ht.of_printHead hget hfits hprint).advance_eq hget hfits] at hadvance
      by_contra hsized
      rw [if_neg hsized] at hadvance
      cases hadvance
    · exact ih (ht.of_step hL (hks j List.mem_cons_self) hstep)
        (fun k hk => hks k (List.mem_cons_of_mem _ hk)) hrun hk

/-- The instructions, those with the numbers relinked. -/
def relinkAll (links : Links) (L : List Head) (ks : List ℕ) : List Head :=
  ks.foldl (fun l k => l.modify k (relink links)) L

theorem address_modify (l : List Head) (k i : ℕ) :
    address (l.modify k (relink links)) i = address l i := by
  induction l generalizing k i with
  | nil => rw [List.modify_nil]
  | cons h l ih =>
    cases i with
    | zero => rfl
    | succ i =>
      cases k with
      | zero =>
        rw [List.modify_zero_cons, address, address, List.take_succ_cons, List.take_succ_cons,
          size_cons, size_cons, length_relink]
      | succ k =>
        rw [List.modify_succ_cons, address, address, List.take_succ_cons, List.take_succ_cons,
          size_cons, size_cons]
        exact congrArg _ (ih k i)

theorem getElem?_relinkAll (hnodup : ks.Nodup) (L : List Head) (i : ℕ) :
    (relinkAll links L ks)[i]? = if i ∈ ks then L[i]?.map (relink links) else L[i]? := by
  induction ks generalizing L with
  | nil => rfl
  | cons k ks ih =>
    obtain ⟨hk, hnodup⟩ := List.nodup_cons.mp hnodup
    rw [relinkAll, List.foldl_cons]
    have ih := ih hnodup (L.modify k (relink links))
    rw [relinkAll] at ih
    rw [ih, List.getElem?_modify]
    rcases eq_or_ne k i with rfl | hne
    · rw [if_neg hk, if_pos List.mem_cons_self]
      simp
    · simp only [List.mem_cons, Ne.symm hne, false_or, if_neg hne]
      simp

/-- A run that prints no instruction twice writes the linker's ids into those that it prints. -/
theorem foldlM_step_fresh (hL : Lays L)
    (hheads : ∀ h ∈ L, (∀ r ∈ headRefs h, links.Knows r) ∧ h.Typed (fieldTypes links) ∧ h.Sized)
    (hnodup : ks.Nodup) (hks : ∀ k ∈ ks, k < L.length) {L' : List Head}
    (haddress : ∀ i, address L' i = address L i) (hfresh : ∀ k ∈ ks, L'[k]? = L[k]?)
    (ht : Shaped L t.code) (hcode : t.code = L'.flatMap Head.bytes) :
    ∃ t', ks.foldlM (step links L) t = .ok t' ∧
      t'.code = (relinkAll links L' ks).flatMap Head.bytes := by
  induction ks generalizing t L' with
  | nil => exact ⟨t, rfl, hcode⟩
  | cons k ks ih =>
    obtain ⟨hk, hnodup⟩ := List.nodup_cons.mp hnodup
    have hlt := hks k List.mem_cons_self
    have hget := List.getElem?_eq_getElem hlt
    obtain ⟨h, hget⟩ : ∃ h, L[k]? = some h := ⟨_, hget⟩
    obtain ⟨hknows, htyped, hsized⟩ := hheads h (List.mem_of_getElem? hget)
    have hget' : L'[k]? = some h := (hfresh k List.mem_cons_self).trans hget
    obtain ⟨hlt', hh⟩ := List.getElem?_eq_some_iff.mp hget'
    have hsplit : ∀ h', (L'.take k ++ h' :: L'.drop (k + 1)).flatMap Head.bytes =
        (L'.take k).flatMap Head.bytes ++ (h'.bytes ++ (L'.drop (k + 1)).flatMap Head.bytes) :=
      fun h' => by rw [List.flatMap_append, List.flatMap_cons]
    have hL' : L' = L'.take k ++ h :: L'.drop (k + 1) := by
      rw [← hh, ← List.drop_eq_getElem_cons hlt', List.take_append_drop]
    have hparts := hcode
    rw [hL', hsplit] at hparts
    have hmodify : L'.modify k (relink links) =
        L'.take k ++ relink links h :: L'.drop (k + 1) := by
      rw [List.modify_eq_take_cons_drop hlt', hh]
    have hpre : ((L'.take k).flatMap Head.bytes).length = address L k := haddress k
    have hstep : step links L t k =
        .ok ⟨(L'.modify k (relink links)).flatMap Head.bytes, t.visited ++ [address L k]⟩ := by
      rw [← bind_pure (step links L t k), step_bind hL ht hget hsized, hparts, hmodify, hsplit,
        ← hpre, printHead_fresh (hL.fits_of_getElem? hget) hknows htyped]
      rfl
    have hne : ∀ {j}, j ∈ ks → j ≠ k := fun hj heq => hk (heq ▸ hj)
    obtain ⟨t', hrun, hcode'⟩ := ih hnodup (fun j hj => hks j (List.mem_cons_of_mem _ hj))
      (fun i => (address_modify L' k i).trans (haddress i))
      (fun j hj => by
        rw [List.getElem?_modify_ne (relink links) L' (hne hj).symm]
        exact hfresh j (List.mem_cons_of_mem _ hj))
      (ht.of_step hL hlt hstep) rfl
    exact ⟨t', by rw [List.foldlM_cons, hstep, ok_bind, hrun], hcode'⟩

end Meld.Linker.Traversal
