import Meld.Db.TrieRemove

/-!
# Tuple tries

A tuple trie's leaves hold a tuple and its count, a signed 16-bit number. The invariant adds to
that of a trie that the path to a leaf has the levels of the leaf's tuple. `insertTuple_cases`
and the lemmas after it say what the operations do on any trie with the invariant, whatever its
counts, failed assertions included.
-/

namespace Meld.Db

open Meld.Lib Meld.Vm

/-- `tuple_trie_leaf`, with the tuple and the count of its `simple_tuple`. -/
structure TupleTrieLeaf where
  tpl : List Value
  count : ℤ
  deriving DecidableEq, Repr

instance : LeafOps TupleTrieLeaf where
  default := ⟨[], 0⟩
  getCount l := l.count
  addCount l many := { l with count := wrap16 (l.count + many) }
  toDelete l := l.count == 0
  destructible _ := true

/-- `tuple_trie`. -/
abbrev TupleTrie := Trie TupleTrieLeaf

namespace TupleTrie

/-- `insert_tuple`: true when the tuple is new. A retraction of an absent tuple would leave
`found` unset, and the result undefined. -/
def insertTuple (t : TupleTrie) (tpl : List Value) (many : ℤ) : Exec (TupleTrie × Bool) := do
  let t ← t.addReferences many
  let (t, node, found) ← t.checkInsert (TupleTrieLeaf.mk tpl) many tpl
  let _ ← deref node
  if found then do
    assert (t.nodes.child t.root ≠ .null)
    assert (0 < t.numberOfReferences)
    t.basicInvariants
    pure (t, false)
  else do
    t.basicInvariants
    pure (t, true)

/-- `delete_info`: the node and the count to commit, when the leaf is to be deleted. -/
abbrev DeleteInfo := Option (ℕ × ℤ)

/-- `delete_tuple`. -/
def deleteTuple (t : TupleTrie) (tpl : List Value) (many : ℤ) :
    Exec (TupleTrie × DeleteInfo) := do
  assert (0 < many)
  t.basicInvariants
  let (t, node, found) ← t.checkInsert (TupleTrieLeaf.mk tpl) (-many) tpl
  match node with
  | none => pure (t, none)
  | some a => do
    assert (found = true)
    t.nodes.arena.check a
    match t.nodes.child a with
    | .leaf l => do
      t.leaves.arena.check l
      if LeafOps.toDelete (t.leaves.payload l) then pure (t, some (a, many))
      else do
        let t ← t.addReferences (-many)
        pure (t, none)
    | _ => throw .dangling

/-- The call of a `delete_info`, when its `to_delete` is set. -/
def commit (t : TupleTrie) (info : DeleteInfo) : Exec TupleTrie :=
  match info with
  | some (a, many) => t.commitDelete a many
  | none => pure t

/-! ### The invariant -/

/-- A tuple of a predicate with the field types `types`. -/
structure Typed (types : List FieldType) (tpl : List Value) : Prop where
  types : tpl.map Value.type = types
  ok : ∀ v ∈ tpl, v.Ok

/-- The stored fields `w` are those of the levels `fs`, or were equal to them. -/
abbrev Spells (w fs : List TupleField) : Prop :=
  List.Forall₂ (fun d f => d = f ∨ d.sameAs f = true) w fs

/-- The invariant of a tuple trie. -/
structure Inv (types : List FieldType) (t : TupleTrie) (word : Words) (ls : List ℕ) : Prop where
  valid : Valid types t word ls
  typed : ∀ l ∈ ls, Typed types (t.leaves.payload l).tpl
  spells : ∀ l ∈ ls, ∃ w, word (t.leaves.node l) = some w ∧
    Spells w (levels (t.leaves.payload l).tpl)

variable {types : List FieldType} {t t' : TupleTrie} {word word' : Words} {ls : List ℕ}
  {tpl : List Value} {many : ℤ} {l : ℕ}

/-- The invariant does not depend on the number of references. -/
theorem Inv.withRefs (h : Inv types t word ls) (n : ℤ) : Inv types (t.withRefs n) word ls :=
  ⟨Tree.withRefs h.valid n, h.typed, h.spells⟩

/-- A leaf whose count changes keeps its tuple. -/
theorem counted_tpl (t : TupleTrie) (l x : ℕ) (many : ℤ) :
    ((t.counted l many).leaves.payload x).tpl = (t.leaves.payload x).tpl := by
  by_cases hx : x = l
  · subst hx
    simp [Trie.counted, LeafOps.addCount]
  · simp [Trie.counted, hx]

/-- The invariant does not depend on the counts. -/
theorem Inv.counted (h : Inv types t word ls) (l : ℕ) (many : ℤ) :
    Inv types (t.counted l many) word ls := by
  refine ⟨h.valid.counted l many, fun x hx => ?_, fun x hx => ?_⟩
  · rw [counted_tpl]
    exact h.typed x hx
  · rw [counted_tpl]
    exact h.spells x hx

/-- A leaf is removed. -/
theorem Inv.removed (h : Inv types t word ls) (hr : Trie.Removed types t t' word word' ls l) :
    Inv types t' word' (ls.erase l) := by
  have hmem : ∀ x ∈ ls.erase l, x ∈ ls := fun x hx => List.mem_of_mem_erase hx
  refine ⟨hr.valid, fun x hx => ?_, fun x hx => ?_⟩
  · rw [hr.payload]
    exact h.typed x (hmem x hx)
  · obtain ⟨w, hw, hs⟩ := h.spells x (hmem x hx)
    obtain ⟨w', hw'⟩ := Option.isSome_iff_exists.mp (hr.valid.leafNodes.attached x hx).1
    have hkeep := hr.keep_word _ _ hw'
    rw [hr.node, hw, Option.some.injEq] at hkeep
    exact ⟨w', hw', by rw [hr.payload]; exact hkeep ▸ hs⟩

/-- A leaf is added, at the end of the path of its tuple. -/
theorem Inv.added {b : ℕ} {path done : List TupleField} {rest : List Value}
    (h : Inv types t word ls) (htpl : Typed types tpl)
    (hlev : levels tpl = done ++ levels rest) (hfol : Trie.Follows path done)
    (ha : Added types t t' word word' ls ⟨tpl, many⟩ b (path ++ levels rest)) :
    Inv types t' word' (ls ++ [t.leaves.arena.next]) := by
  have hfresh : ∀ x ∈ ls, x ≠ t.leaves.arena.next := fun x hx =>
    (Arena.lt_next ((h.valid.leafList.live x).mpr hx)).ne
  have hold : ∀ x ∈ ls, t'.leaves.payload x = t.leaves.payload x ∧
      t'.leaves.node x = t.leaves.node x := fun x hx => by
    simp [ha.leaves, Trie.pushLeaf, hfresh x hx]
  have hnew : t'.leaves.payload t.leaves.arena.next = ⟨tpl, many⟩ ∧
      t'.leaves.node t.leaves.arena.next = b := by
    simp [ha.leaves, Trie.pushLeaf]
  refine ⟨ha.valid, fun x hx => ?_, fun x hx => ?_⟩ <;>
    rcases List.mem_append.mp hx with hx | hx
  · rw [(hold x hx).1]
    exact h.typed x hx
  · rw [List.mem_singleton.mp hx, hnew.1]
    exact htpl
  · obtain ⟨w, hw, hs⟩ := h.spells x hx
    rw [(hold x hx).1, (hold x hx).2]
    exact ⟨w, by rw [ha.keep_word _ (Option.isSome_of_eq_some hw), hw], hs⟩
  · rw [List.mem_singleton.mp hx, hnew.1, hnew.2]
    refine ⟨_, ha.word_new, ?_⟩
    simp only [hlev]
    exact List.rel_append (hfol.imp fun _ _ => .inr) (List.forall₂_same.mpr fun _ _ => .inl rfl)

/-- A new tuple of narrow fields keeps the tree narrow. -/
theorem narrowTree_added {a b : ℕ} {path done : List TupleField} {rest : List Value}
    {t₀ : TupleTrie} (h : Valid types t₀ word ls) (hn : NarrowTree t₀.nodes word)
    (hlev : levels tpl = done ++ levels rest) (hpath : word a = some path)
    (ha : Added types t₀ t' word word' ls ⟨tpl, many⟩ b (path ++ levels rest))
    (htpl : ∀ f ∈ levels tpl, f.Narrow) : NarrowTree t'.nodes word' := by
  rw [Tree.narrowTree_iff ha.valid]
  intro x hx w hw
  rcases List.mem_append.mp hx with hx | hx
  · have hxn : x ≠ t₀.leaves.arena.next := (Arena.lt_next ((h.leafList.live x).mpr hx)).ne
    have hnode : t'.leaves.node x = t₀.leaves.node x := by
      simp [ha.leaves, Trie.pushLeaf, hxn]
    have hold := (h.leafNodes.attached x hx).1
    rw [hnode, ha.keep_word _ hold] at hw
    exact (Tree.narrowTree_iff h).mp hn x hx w hw
  · have hnode : t'.leaves.node x = b := by
      simp [ha.leaves, Trie.pushLeaf, List.mem_singleton.mp hx]
    rw [hnode, ha.word_new, Option.some.injEq] at hw
    intro d hd
    rw [← hw, List.mem_append] at hd
    rcases hd with hd | hd
    · exact h.shape.forall_data hn hpath d hd
    · exact htpl d (by simp [hlev, hd])

/-- What remains after a removal is narrow. -/
theorem narrowTree_removed {t₀ : TupleTrie} (h : Valid types t₀ word ls)
    (hn : NarrowTree t₀.nodes word) (hr : Trie.Removed types t₀ t' word word' ls l) :
    NarrowTree t'.nodes word' := by
  rw [Tree.narrowTree_iff hr.valid]
  intro x hx w hw
  rw [hr.node] at hw
  exact (Tree.narrowTree_iff h).mp hn x (List.mem_of_mem_erase hx) w (hr.keep_word _ _ hw)

/-! ### The operations -/

/-- The paths do not depend on the number of references. -/
theorem leads_withRefs {n : ℤ} {a : ℕ} {vs : List Value} :
    Trie.Leads (t.withRefs n) a vs l ↔ Trie.Leads t a vs l := by
  have hmatch : ∀ a v, (t.withRefs n).matchNode a v = t.matchNode a v :=
    Trie.matchNode_congr rfl rfl
  constructor
  · intro h
    induction h with
    | leaf hc => exact .leaf hc
    | step hm _ ih => exact .step (hmatch _ _ ▸ hm) ih
  · intro h
    induction h with
    | leaf hc => exact .leaf hc
    | step hm _ ih => exact .step ((hmatch _ _).trans hm) ih

/-- The assertion compares the number of references with the leaves. -/
theorem Inv.basicInvariants (h : Inv types t word ls) :
    t.basicInvariants = if (t.numberOfReferences = 0 ↔ ls = []) then .ok () else
      .error .assertion :=
  Tree.basicInvariants h.valid

/-- A tuple is found and counted, or it is absent and added, or the call fails. -/
theorem Inv.cases (h : Inv types t word ls) (htpl : Typed types tpl) :
    (∃ l, Trie.Found t word ls tpl l ∧ ∀ (mk : ℤ → TupleTrieLeaf) (many : ℤ),
      t.checkInsert mk many tpl = t.foundAt many tpl l) ∨
    (Trie.Absent t word ls tpl ∧ ∀ (mk : ℤ → TupleTrieLeaf) (many : ℤ),
      (tpl ≠ [] ∧ many < 0 ∧ t.checkInsert mk many tpl = .ok (t, none, false)) ∨
      ∃ (t' : TupleTrie) (word' : Words) (b : ℕ) (path done : List TupleField)
        (rest : List Value),
        (tpl = [] ∨ 0 ≤ many) ∧ t.checkInsert mk many tpl = .ok (t', some b, false) ∧
        levels tpl = done ++ levels rest ∧ Trie.Follows path done ∧ (∃ a, word a = some path) ∧
        Added types t t' word word' ls (mk many) b (path ++ levels rest)) :=
  Trie.checkInsert_cases h.valid htpl.types htpl.ok

/-- What `check_insert` does at the leaf of the tuple. -/
theorem Inv.foundAt (h : Inv types t word ls) (hf : Trie.Found t word ls tpl l)
    (htpl : Typed types tpl) (many : ℤ) :
    t.foundAt many tpl l = (do
      assert (tpl = [] ∨ t.numberOfReferences ≠ 0)
      pure (t.counted l many, some (t.leaves.node l), true)) :=
  Trie.foundAt_eq h.valid hf htpl.types many

/-- `insert_tuple` adds to the count of the tuple's leaf, or adds a leaf; and the places where it
stops. -/
theorem insertTuple_cases (h : Inv types t word ls) (htpl : Typed types tpl) (hmany : 0 < many) :
    (∃ l, Trie.Found t word ls tpl l ∧
      t.insertTuple tpl many = (do
        let r ← addInt t.numberOfReferences many
        assert (0 < r)
        pure ((t.counted l many).withRefs r, false))) ∨
    (Trie.Absent t word ls tpl ∧ ∃ (t' : TupleTrie) (word' : Words) (b : ℕ)
      (path : List TupleField), Inv types t' word' (ls ++ [t.leaves.arena.next]) ∧
      Added types (t.withRefs (t.numberOfReferences + many)) t' word word' ls ⟨tpl, many⟩ b path ∧
      (NarrowTree t.nodes word → (∀ f ∈ levels tpl, f.Narrow) → NarrowTree t'.nodes word') ∧
      t.insertTuple tpl many = (do
        let r ← addInt t.numberOfReferences many
        assert (r ≠ 0)
        pure (t', true))) := by
  -- the references are counted before the search
  have hinv := h.withRefs (t.numberOfReferences + many)
  unfold insertTuple
  rw [Trie.addReferences_bind]
  rcases hinv.cases htpl with ⟨l, hf, hl⟩ | ⟨habs, hnew⟩
  · refine .inl ⟨l, ⟨hf.mem, hf.path, leads_withRefs.mp hf.leads, hf.unique⟩,
      addInt_bind_congr ?_⟩
    have hne : ls ≠ [] := List.ne_nil_of_mem hf.mem
    have hcount := hinv.counted l many
    have href : ((t.withRefs (t.numberOfReferences + many)).counted l many).numberOfReferences =
      t.numberOfReferences + many := rfl
    rw [hl, hinv.foundAt hf htpl]
    by_cases hr : 0 < t.numberOfReferences + many
    · have hr' : t.numberOfReferences + many ≠ 0 := by omega
      rw [assert_pos (.inr hr'), assert_pos hr]
      simp only [ok_bind, pure_eq_ok, deref_some, if_true,
        assert_pos (hcount.valid.child_root_ne_null hne)]
      rw [assert_pos (href ▸ hr), ok_bind, hcount.basicInvariants, href,
        if_pos (by simp [hne, hr'])]
      rfl
    · rw [assert_neg hr]
      by_cases hg : tpl = [] ∨ t.numberOfReferences + many ≠ 0
      · rw [assert_pos (by exact hg)]
        simp only [ok_bind, pure_eq_ok, deref_some, if_true,
          assert_pos (hcount.valid.child_root_ne_null hne), assert_neg (href ▸ hr), error_bind]
      · rw [assert_neg (by exact hg)]
        rfl
  · refine .inr ⟨⟨fun l hl => habs.stuck l (leads_withRefs.mpr hl), habs.not_follows⟩, ?_⟩
    rcases hnew (TupleTrieLeaf.mk tpl) many with ⟨-, hneg, -⟩ |
      ⟨t', word', b, path, done, rest, -, hok, hlev, hfol, ⟨a, hpath⟩, hadd⟩
    · omega
    · have hinv' := hinv.added htpl hlev hfol hadd
      refine ⟨t', word', b, _, hinv', hadd,
        fun hn => narrowTree_added hinv.valid hn hlev hpath hadd, addInt_bind_congr ?_⟩
      have href : t'.numberOfReferences = t.numberOfReferences + many := hadd.references
      rw [hok]
      simp only [ok_bind, deref_some, Bool.false_eq_true, if_false, hinv'.basicInvariants, href]
      by_cases hr : t.numberOfReferences + many = 0
      · simp [hr, assert]
      · simp [hr, assert]

/-- `delete_tuple` takes from the count of the tuple's leaf, and from the number of references
when the leaf stays; an absent tuple is left alone. -/
theorem deleteTuple_cases (h : Inv types t word ls) (htpl : Typed types tpl) (hmany : 0 < many) :
    (∃ l, Trie.Found t word ls tpl l ∧
      t.deleteTuple tpl many = (do
        assert (t.numberOfReferences ≠ 0)
        if LeafOps.toDelete ((t.counted l (-many)).leaves.payload l) then
          pure (t.counted l (-many), some (t.leaves.node l, many))
        else do
          let r ← addInt t.numberOfReferences (-many)
          pure ((t.counted l (-many)).withRefs r, none))) ∨
    (Trie.Absent t word ls tpl ∧
      t.deleteTuple tpl many = (do
        assert (t.numberOfReferences = 0 ↔ ls = [])
        assert (tpl ≠ [])
        pure (t, none))) := by
  have hneg : -many < 0 := by omega
  unfold deleteTuple
  rw [assert_pos hmany, ok_bind, h.basicInvariants]
  rcases h.cases htpl with ⟨l, hf, hl⟩ | ⟨habs, hnew⟩
  · refine .inl ⟨l, hf, ?_⟩
    have hne : ls ≠ [] := List.ne_nil_of_mem hf.mem
    have hlive := (h.valid.leafList.live l).mpr hf.mem
    obtain ⟨hw, hc⟩ := h.valid.leafNodes.attached l hf.mem
    by_cases hr : t.numberOfReferences = 0
    · simp [hr, hne, assert]
    · rw [if_pos (by simp [hr, hne]), ok_bind, hl, h.foundAt hf htpl, assert_pos (.inr hr),
        assert_pos hr]
      simp only [ok_bind, pure_eq_ok, assert_pos trivial]
      have hck : (t.counted l (-many)).nodes.arena.check (t.leaves.node l) = .ok () :=
        Arena.check_of_live (h.valid.shape.live _ hw)
      have hcu : (t.counted l (-many)).nodes.child (t.leaves.node l) = .leaf l := hc
      have hcl : (t.counted l (-many)).leaves.arena.check l = .ok () := Arena.check_of_live hlive
      rw [hck, ok_bind, hcu]
      simp only [hcl, ok_bind, Trie.addReferences_bind]
      rfl
  · refine .inr ⟨habs, ?_⟩
    by_cases hr : t.numberOfReferences = 0 ↔ ls = []
    · rw [if_pos hr, assert_pos hr]
      rcases hnew (TupleTrieLeaf.mk tpl) (-many) with ⟨hnil, -, hok⟩ |
        ⟨t', word', b, path, done, rest, hnil, hok, -⟩
      · rw [hok, assert_pos hnil]
        rfl
      · rw [hok, assert_neg (not_not.mpr (hnil.resolve_right (by omega)))]
        rfl
    · rw [if_neg hr, assert_neg hr]
      rfl

/-- `commit_delete` on the node of a leaf that is to be deleted. -/
theorem commitDelete_spec (h : Inv types t word ls) (hl : l ∈ ls)
    (hdel : LeafOps.toDelete (t.leaves.payload l) = true) (many : ℤ) :
    ∃ (t' : TupleTrie) (word' : Words),
      Trie.Removed types (t.withRefs (t.numberOfReferences - many)) t' word word' ls l ∧
      t.commitDelete (t.leaves.node l) many = (do
        let r ← addInt t.numberOfReferences (-many)
        assert (0 ≤ r)
        assert (r = 0 ↔ ls.erase l = [])
        pure t') := by
  obtain ⟨hw, hc⟩ := h.valid.leafNodes.attached l hl
  obtain ⟨t', word', hok, hrem⟩ := Trie.innerDeleteByLeaf_remove
    (h.withRefs (t.numberOfReferences - many)).valid hl hdel rfl
  refine ⟨t', word', hrem, ?_⟩
  have href : t'.numberOfReferences = t.numberOfReferences - many := hrem.references
  rw [Trie.commitDelete, Arena.check_of_live (h.valid.shape.live _ hw), ok_bind, hc]
  simp only [Trie.addReferences_bind]
  refine addInt_bind_congr ?_
  rw [← sub_eq_add_neg]
  by_cases hr : 0 ≤ t.numberOfReferences - many
  · rw [assert_pos (by exact hr), assert_pos hr, ok_bind, ok_bind, hok, ok_bind,
      Tree.basicInvariants hrem.valid, href]
    rfl
  · rw [assert_neg (by exact hr), assert_neg hr]
    rfl

/-- `delete_by_leaf` takes one from the count of a leaf and removes the leaf when none is
left. -/
theorem deleteByLeaf_cases (h : Inv types t word ls) (hl : l ∈ ls) :
    (LeafOps.toDelete ((t.counted l (-1)).leaves.payload l) = false ∧
      t.deleteByLeaf l = (do
        let r ← addInt t.numberOfReferences (-1)
        assert (0 ≤ r)
        pure ((t.counted l (-1)).withRefs r))) ∨
    (LeafOps.toDelete ((t.counted l (-1)).leaves.payload l) = true ∧
      ∃ (t' : TupleTrie) (word' : Words),
        Trie.Removed types ((t.counted l (-1)).withRefs (t.numberOfReferences - 1)) t' word word'
          ls l ∧
        t.deleteByLeaf l = (do
          let r ← addInt t.numberOfReferences (-1)
          assert (0 ≤ r)
          pure t')) := by
  have hlive := (h.valid.leafList.live l).mpr hl
  have hrun : ∀ r : ℤ, (t.withRefs r).innerDeleteByLeaf l 1 =
      ((t.counted l (-1)).withRefs r).innerDeleteByLeaf l 0 := fun r =>
    Trie.innerDeleteByLeaf_count (by exact hlive) Int.one_pos
  unfold Trie.deleteByLeaf
  rw [Trie.addReferences_bind]
  cases hdel : LeafOps.toDelete ((t.counted l (-1)).leaves.payload l) with
  | false =>
    refine .inl ⟨rfl, addInt_bind_congr ?_⟩
    simp only [hrun, Trie.withRefs_references]
    rw [Trie.innerDeleteByLeaf_keep (by exact hlive) (by exact hdel)]
    rfl
  | true =>
    obtain ⟨t', word', hok, hrem⟩ := Trie.innerDeleteByLeaf_remove
      (((h.counted l (-1)).withRefs (t.numberOfReferences - 1)).valid) hl (by exact hdel) rfl
    refine .inr ⟨rfl, t', word', hrem, addInt_bind_congr ?_⟩
    simp only [hrun, Trie.withRefs_references, ← sub_eq_add_neg]
    rw [hok]
    rfl

end TupleTrie

end Meld.Db
