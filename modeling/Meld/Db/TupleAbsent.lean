import Meld.Db.TupleIndex

/-!
# Deleting an absent tuple

`delete_tuple` walks down as `insert_tuple` does, and stops where the walk has no child to go to.
For a tuple that no leaf holds this leaves the trie as it was, with three exceptions: the tuple
without fields, for which the walk makes a leaf before it is known that there was none; a trie
whose counts were driven to a sum of zero, which is taken for an empty one; and a walk that ends
at the leaf of another tuple. The last takes a string reference of more than 32 bits in the trie:
without one every walk ends at a leaf with the values it was searched for
(`Inv.sameValues_of_leads`).
-/

namespace Meld.Db

open Meld.Lib Meld.Vm

namespace TupleTrie

variable {types : List FieldType} {t t' : TupleTrie} {word : Words} {ls : List ℕ}
  {tpl : List Value} {l n : ℕ}

/-- Some leaf of the trie holds the values of the tuple. -/
def Contains (t : TupleTrie) (tpl : List Value) : Prop :=
  ∃ l, t.leaves.arena.live l = true ∧ SameValues (t.leaves.payload l).tpl tpl

/-! ### Walks in narrow trees -/

/-- Of two related lists every element has a partner. -/
theorem exists_partner {α β : Type} {R : α → β → Prop} {xs : List α} {ys : List β}
    (h : List.Forall₂ R xs ys) : (∀ x ∈ xs, ∃ y ∈ ys, R x y) ∧ ∀ y ∈ ys, ∃ x ∈ xs, R x y := by
  induction h with
  | nil => simp
  | cons hxy _ ih =>
    simp only [List.mem_cons, forall_eq_or_imp, exists_eq_or_imp]
    exact ⟨⟨.inl hxy, fun x hx => .inr (ih.1 x hx)⟩, .inl hxy, fun y hy => .inr (ih.2 y hy)⟩

/-- The tuples of a narrow tree have narrow levels. -/
theorem Inv.narrow_levels (h : Inv types t word ls) (hn : NarrowTree t.nodes word) (hl : l ∈ ls) :
    ∀ f ∈ levels (t.leaves.payload l).tpl, f.Narrow := by
  obtain ⟨w, hw, hs⟩ := h.spells l hl
  intro f hf
  obtain ⟨d, hd, hdf⟩ := (exists_partner hs).2 f hf
  exact hdf.elim (fun he => he ▸ h.valid.shape.forall_data hn hw d hd)
    TupleField.narrow_of_sameAs

/-- In a narrow tree the leaf found for a tuple holds the tuple's values. -/
theorem Inv.sameValues_of_found (h : Inv types t word ls) (hn : NarrowTree t.nodes word)
    (htpl : Typed types tpl) (hf : Trie.Found t word ls tpl l) :
    SameValues (t.leaves.payload l).tpl tpl := by
  obtain ⟨w, hw, hfol⟩ := hf.path
  obtain ⟨w', hw', hs⟩ := h.spells l hf.mem
  obtain rfl : w' = w := Option.some.inj (hw'.symm.trans hw)
  have hnarrow := h.valid.shape.forall_data hn hw
  -- what was compared equal is equal to itself
  have hright : ∀ d ∈ w', ∀ f, d.sameAs f = true → f.Findable := fun d hd f hdf =>
    TupleField.findable_of_sameAs (TupleField.narrow_of_sameAs hdf)
      (TupleField.sameAs_symm (hnarrow d hd) hdf)
  have hfind : Findable tpl := findable_of_levels fun f hf => by
    obtain ⟨d, hd, hdf⟩ := (exists_partner hfol).2 f hf
    exact hright d hd f hdf
  have hleaf : Findable (t.leaves.payload l).tpl := findable_of_levels fun f hf => by
    obtain ⟨d, hd, hdf⟩ := (exists_partner hs).2 f hf
    obtain ⟨g, -, hdg⟩ := (exists_partner hfol).1 d hd
    exact hdf.elim (fun he => he ▸ TupleField.findable_of_sameAs (hnarrow d hd) hdg) (hright d hd f)
  have hty := (h.typed l hf.mem).types.trans htpl.types.symm
  exact (sameValues_iff hty hleaf hfind).mpr (h.leafTuple_of_found hn htpl hfind hf hleaf)

/-- In a narrow tree every walk that ends at a leaf ends at one with the values it was for. -/
theorem Inv.sameValues_of_leads (h : Inv types t word ls) (hn : NarrowTree t.nodes word)
    (htpl : Typed types tpl) (hl : Trie.Leads t t.root tpl l) :
    SameValues (t.leaves.payload l).tpl tpl := by
  rcases h.cases htpl with ⟨x, hf, -⟩ | ⟨habs, -⟩
  · obtain rfl := hl.unique hf.leads
    exact h.sameValues_of_found hn htpl hf
  · exact absurd hl (habs.stuck l)

/-! ### `delete_tuple` on an absent tuple -/

/-- Taking from a count changes it. -/
private theorem counted_ne (hn : 0 < n) (hshort : (n : ℤ) ≤ maxShort) (r : ℤ) :
    (t.counted l (-n)).withRefs r ≠ t := by
  intro he
  have hcount : wrap16 ((t.leaves.payload l).count + -n) = (t.leaves.payload l).count := by
    have := congrArg (fun t' : TupleTrie => (t'.leaves.payload l).count) he
    simpa [Trie.withRefs, Trie.counted, LeafOps.addCount] using this
  have hdvd := Int.dvd_bmod_sub_self (x := (t.leaves.payload l).count + -n) (m := 2 ^ 16)
  rw [← wrap16, hcount] at hdvd
  simp only [maxShort] at hshort
  omega

/-- Deleting a tuple that no leaf holds changes nothing, and says that nothing is to be deleted,
exactly when the tuple has a field, the references are zero only in the trie without leaves, and
the walk for the tuple ends at no leaf of another one. -/
theorem deleteTuple_absent_iff (h : Reachable types t) (htpl : Typed types tpl) (hn : 0 < n)
    (hshort : (n : ℤ) ≤ maxShort) (habsent : ¬t.Contains tpl) :
    t.deleteTuple tpl n = .ok (t, none) ↔
      tpl ≠ [] ∧ (t.numberOfReferences = 0 ↔ ∀ l, t.leaves.arena.live l = false) ∧
        ∀ l, Trie.Leads t t.root tpl l → SameValues (t.leaves.payload l).tpl tpl := by
  obtain ⟨word, ls, hinv⟩ := h.inv
  have hnil : (∀ l, t.leaves.arena.live l = false) ↔ ls = [] := by
    simp only [← Bool.not_eq_true, hinv.valid.leafList.live, List.eq_nil_iff_forall_not_mem]
  rw [hnil]
  rcases deleteTuple_cases hinv htpl (Int.natCast_pos.mpr hn) with ⟨l, hf, hok⟩ | ⟨habs, hok⟩
  · have hl := (hinv.valid.leafList.live l).mpr hf.mem
    constructor
    · intro hdel
      exfalso
      rw [hok, bind_eq_ok] at hdel
      obtain ⟨-, -, hdel⟩ := hdel
      split_ifs at hdel with hzero
      · simp at hdel
      · simp only [bind_eq_ok, pure_eq_ok, Except.ok.injEq, Prod.mk.injEq, and_true] at hdel
        obtain ⟨r, -, he⟩ := hdel
        exact counted_ne hn hshort r he
    · rintro ⟨-, -, hsame⟩
      exact absurd ⟨l, hl, hsame l hf.leads⟩ habsent
  · rw [hok]
    constructor
    · intro hdel
      simp only [bind_eq_ok, assert_eq_ok] at hdel
      obtain ⟨-, hrefs, -, hne, -⟩ := hdel
      exact ⟨hne, hrefs, fun l hl => absurd hl (habs.stuck l)⟩
    · rintro ⟨hne, hrefs, -⟩
      rw [assert_pos hrefs, ok_bind, assert_pos hne]
      rfl

/-- Deleting an integer from a trie with three others leaves it as it is. -/
theorem deleteTuple_absent_iff_sevens : ∃ t : TupleTrie, Reachable [.item .int] t ∧
    t.numberOfReferences = 5 ∧ ¬t.Contains [.item (.int 5)] ∧
      t.deleteTuple [.item (.int 5)] 1 = .ok (t, none) := by
  obtain ⟨t, h⟩ := exists_hasSevens
  have htuples := h.tuples
  simp only [List.map_cons, List.map_nil, List.cons.injEq, and_true] at htuples
  obtain ⟨h₀, h₁, h₂⟩ := htuples
  have habsent : ¬t.Contains [.item (.int 5)] := by
    rintro ⟨l, hl, hsame⟩
    have hmem := (h.leaves.live l).mp hl
    simp only [List.mem_cons, List.not_mem_nil, or_false] at hmem
    rcases hmem with rfl | rfl | rfl
    · rw [h₀] at hsame
      revert hsame
      decide
    · rw [h₁] at hsame
      revert hsame
      decide
    · rw [h₂] at hsame
      revert hsame
      decide
  have hlive : ¬∀ l, t.leaves.arena.live l = false := by
    intro hnone
    have hzero := (h.leaves.live 0).mpr List.mem_cons_self
    rw [hnone] at hzero
    cases hzero
  have htpl : Typed [.item .int] [.item (.int 5)] := ⟨rfl, by simp [Value.Ok]⟩
  obtain ⟨word, ls, hinv, hn⟩ := h.narrow
  refine ⟨t, h.reachable, h.references, habsent, ?_⟩
  refine (deleteTuple_absent_iff (n := 1) h.reachable htpl (by decide) (by decide) habsent).mpr
    ⟨by simp, ?_, fun l hl => hinv.sameValues_of_leads hn htpl hl⟩
  rw [h.references]
  exact iff_of_false (by decide) hlive

/-- The tuple without fields is not in the new trie, and deleting it fails. -/
theorem not_deleteTuple_absent : Reachable [] (Trie.new : TupleTrie) ∧
    Typed [] [] ∧ ¬TupleTrie.Contains Trie.new [] ∧
    ¬TupleTrie.deleteTuple Trie.new [] 1 = .ok (Trie.new, none) := by
  have hfail : TupleTrie.deleteTuple Trie.new [] 1 = .error .assertion := rfl
  refine ⟨.new, ⟨rfl, by simp⟩, ?_, by rw [hfail]; nofun⟩
  rintro ⟨l, hl, -⟩
  simp [Trie.new, Trie.newNode, Arena.empty] at hl

end TupleTrie

end Meld.Db
