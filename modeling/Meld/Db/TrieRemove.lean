import Meld.Db.TrieUnlink

/-!
# Removing a leaf

`inner_delete_by_leaf` takes a leaf out of the list of leaves, frees it, and removes the path
that led to it alone. What stays is the trie of the other leaves.
-/

namespace Meld.Db

open Meld.Lib Meld.Vm

/-- The leaf heap after the neighbours of `l` were made to point to each other and `l` was
freed. -/
def LeafHeap.unlinked {L : Type} [Inhabited L] (V : LeafHeap L) (l : ℕ) : LeafHeap L :=
  { V with
    arena := V.arena.free l
    next := updateIfSome V.next (V.prev l) (V.next l)
    prev := updateIfSome V.prev (V.next l) (V.prev l) }

section

variable {L : Type} [Inhabited L] {V : LeafHeap L} {first last : Option ℕ} {ls : List ℕ} {l : ℕ}

/-- The neighbours of a leaf, and when it is the first or the last. -/
theorem LeafList.neighbours (h : LeafList V first last ls) (hl : l ∈ ls) :
    (first = some l ↔ V.prev l = none) ∧ (last = some l ↔ V.next l = none) ∧
      (∀ x, V.prev l = some x → x ∈ ls ∧ x ≠ l) ∧ ∀ x, V.next l = some x → x ∈ ls ∧ x ≠ l := by
  obtain ⟨xs, ys, rfl⟩ := List.append_of_mem hl
  obtain ⟨hprev, hnext⟩ := h.linked.at_split
  have hnodup := h.nodup
  rw [List.nodup_middle, List.nodup_cons, List.mem_append, not_or] at hnodup
  obtain ⟨⟨hlx, hly⟩, -⟩ := hnodup
  refine ⟨?_, ?_, fun x hx => ?_, fun x hx => ?_⟩
  · rw [h.first_eq, hprev, List.getLast?_eq_none_iff]
    cases xs with
    | nil => simp
    | cons x xs => simpa using fun he : x = l => hlx (by simp [he])
  · rw [h.last_eq, hnext, List.head?_eq_none_iff]
    cases ys with
    | nil => simp
    | cons y ys =>
      simp only [List.getLast?_append, List.getLast?_cons_cons, reduceCtorEq, iff_false]
      intro he
      have hm : l ∈ (y :: ys).getLast? := by
        cases hg : (y :: ys).getLast? with
        | none => simp at hg
        | some z => simpa [hg] using he
      exact hly (List.mem_of_getLast? hm)
  · have hm := List.mem_of_getLast? (hprev ▸ hx)
    exact ⟨by simp [hm], fun he => hlx (he ▸ hm)⟩
  · have hm := List.mem_of_mem_head? (hnext ▸ hx)
    exact ⟨by simp [hm], fun he => hly (he ▸ hm)⟩

/-- The list without one of its leaves. -/
theorem LeafList.erase (h : LeafList V first last ls) (hl : l ∈ ls) :
    LeafList (V.unlinked l) (if first = some l then V.next l else first)
      (if last = some l then V.prev l else last) (ls.erase l) := by
  obtain ⟨hfirst, hlast, -, -⟩ := h.neighbours hl
  obtain ⟨xs, ys, rfl⟩ := List.append_of_mem hl
  obtain ⟨hprev, hnext⟩ := h.linked.at_split
  have hnodup := h.nodup
  rw [List.nodup_middle, List.nodup_cons] at hnodup
  have hlx : l ∉ xs := fun hm => hnodup.1 (List.mem_append_left _ hm)
  rw [List.erase_append_right _ hlx, List.erase_cons_head]
  refine ⟨hnodup.2, h.linked.erase h.nodup (fun x _ => ?_) fun x _ => ?_, ?_, ?_, fun x => ?_⟩
  · simp only [LeafHeap.unlinked, updateIfSome_apply, hprev, hnext]
  · simp only [LeafHeap.unlinked, updateIfSome_apply, hprev, hnext]
    cases xs <;> simp
  · by_cases hp : V.prev l = none
    · rw [if_pos (hfirst.mpr hp), hnext]
      rw [hprev, List.getLast?_eq_none_iff] at hp
      rw [hp, List.nil_append]
    · rw [if_neg (mt hfirst.mp hp), h.first_eq]
      cases xs with
      | nil => exact absurd hprev hp
      | cons x xs => rfl
  · by_cases hn : V.next l = none
    · rw [if_pos (hlast.mpr hn), hprev]
      rw [hnext, List.head?_eq_none_iff] at hn
      rw [hn, List.append_nil]
    · rw [if_neg (mt hlast.mp hn), h.last_eq]
      cases ys with
      | nil => exact absurd hnext hn
      | cons y ys => simp [List.getLast?_append]
  · simp only [LeafHeap.unlinked, Arena.free_live]
    by_cases hxl : x = l
    · simp [hxl, hnodup.1]
    · have := h.live x
      simp only [hxl, if_false, this, List.mem_append, List.mem_cons, false_or]

end

/-- The part of the invariant that holds also while nodes are open. -/
structure Cut {L : Type} [LeafOps L] (types : List FieldType) (t : Trie L) (O : ℕ → Prop)
    (word : Words) (ls : List ℕ) : Prop where
  shape : Shape types t.nodes t.hashes t.root O word
  leafList : LeafList t.leaves t.firstLeaf t.lastLeaf ls
  leafNodes : LeafNodes t.nodes.child word t.leaves.node ls

section

variable {L : Type} [LeafOps L] {t : Trie L} {types : List FieldType} {O P G : ℕ → Prop}
  {word : Words} {ls : List ℕ} {l : ℕ}

/-- A tree without loose nodes. -/
theorem Tree.cut (h : Tree types t P G word ls) : Cut types t (fun _ => False) word ls :=
  ⟨h.shape, h.leafList, h.leafNodes⟩

/-- The trie after the leaf `l` was taken out of the list and freed. -/
def Trie.withoutLeaf (t : Trie L) (l : ℕ) : Trie L :=
  { t with
    nodes.child := Function.update t.nodes.child (t.leaves.node l) .null
    leaves := t.leaves.unlinked l
    firstLeaf := if t.firstLeaf = some l then t.leaves.next l else t.firstLeaf
    lastLeaf := if t.lastLeaf = some l then t.leaves.prev l else t.lastLeaf }

/-- A leaf that is not loose is taken out of the list of the leaves. -/
theorem Cut.withoutLeaf (h : Cut types t O word ls) (hl : l ∈ ls) (hO : ¬O (t.leaves.node l)) :
    Cut types (t.withoutLeaf l) O word (ls.erase l) := by
  obtain ⟨hw, hc⟩ := h.leafNodes.attached l hl
  have hkid := h.shape.no_kid_of_leaf hw hO hc
  refine ⟨?_, h.leafList.erase hl, fun x hx => ?_, fun b x hb hx => ?_⟩
  · refine h.shape.relink (p := t.leaves.node l) (fun _ _ => ⟨rfl, rfl⟩) (fun _ _ => id)
      (fun b _ hb _ => ⟨by simp [Trie.withoutLeaf, hb], rfl⟩) (fun _ _ _ => ⟨rfl, rfl, rfl⟩)
      (fun g _ _ => .refl _ g) (fun _ _ => id) (fun b u x hu hx => ?_)
      fun _ _ => .null (by simp [Trie.withoutLeaf]) hkid
    by_cases hb : b = t.leaves.node l
    · simp [Trie.withoutLeaf, hb] at hx
    · exact h.shape.leaf_typed b u x hu (by simpa [Trie.withoutLeaf, hb] using hx)
  · rw [h.leafList.nodup.mem_erase_iff] at hx
    obtain ⟨hwx, hcx⟩ := h.leafNodes.attached x hx.2
    have hne : t.leaves.node x ≠ t.leaves.node l := fun he => by
      rw [he, hc, Child.leaf.injEq] at hcx
      exact hx.1 hcx.symm
    exact ⟨hwx, by simpa [Trie.withoutLeaf, LeafHeap.unlinked, hne] using hcx⟩
  · have hbl : b ≠ t.leaves.node l := fun he => by simp [Trie.withoutLeaf, he] at hx
    obtain ⟨hm, hn⟩ := h.leafNodes.mem b x hb (by simpa [Trie.withoutLeaf, hbl] using hx)
    refine ⟨(h.leafList.nodup.mem_erase_iff).mpr ⟨?_, hm⟩, hn⟩
    rintro rfl
    exact hbl hn.symm

/-- Where a leaf is taken out, its node is the only loose one. -/
theorem Tree.withoutLeaf (h : Valid types t word ls) (hl : l ∈ ls) :
    Tree types (t.withoutLeaf l) (· = t.leaves.node l) (fun _ => False) word (ls.erase l) := by
  have hcut := h.cut.withoutLeaf hl id
  refine ⟨hcut.shape, fun b hb hbr hbl => ?_, fun hr hn => ?_, h.clean, hcut.leafList,
    hcut.leafNodes⟩
  · simpa [Trie.withoutLeaf, hbl] using h.full b hb hbr id
  · change t.root ≠ _ at hr
    change (t.withoutLeaf l).nodes.child t.root = .null at hn
    exact h.root_hashed id (by simpa [Trie.withoutLeaf, hr] using hn)

/-- The trie after `add_count`. -/
def Trie.counted (t : Trie L) (l : ℕ) (many : ℤ) : Trie L :=
  { t with leaves.payload :=
      Function.update t.leaves.payload l (LeafOps.addCount (t.leaves.payload l) many) }

/-- The count of a live leaf can be changed. -/
theorem Trie.addCount_eq (hl : t.leaves.arena.live l = true) (many : ℤ) :
    t.addCount l many = .ok (t.counted l many) := by
  rw [Trie.addCount, Arena.check_of_live hl]; rfl

/-- The count of a leaf does not matter to the tree. -/
theorem Tree.counted (h : Tree types t P G word ls) (l : ℕ) (many : ℤ) :
    Tree types (t.counted l many) P G word ls :=
  ⟨h.shape, h.full, h.root_hashed, h.clean,
    ⟨h.leafList.nodup, h.leafList.linked, h.leafList.first_eq, h.leafList.last_eq,
      h.leafList.live⟩, h.leafNodes⟩

/-- The trie with another number of references. -/
def Trie.withRefs (t : Trie L) (n : ℤ) : Trie L := { t with numberOfReferences := n }

/-- Nor does the number of references. -/
theorem Tree.withRefs (h : Tree types t P G word ls) (n : ℤ) :
    Tree types (t.withRefs n) P G word ls :=
  ⟨h.shape, h.full, h.root_hashed, h.clean, h.leafList, h.leafNodes⟩

namespace Trie

@[simp] theorem withRefs_references (t : Trie L) (n : ℤ) :
    (t.withRefs n).numberOfReferences = n := rfl

@[simp] theorem counted_references (t : Trie L) (l : ℕ) (many : ℤ) :
    (t.counted l many).numberOfReferences = t.numberOfReferences := rfl

/-- The number of references is added to as an `int`. -/
theorem addReferences_bind {β : Type} (t : Trie L) (n : ℤ) (k : Trie L → Exec β) :
    (t.addReferences n >>= k) =
      addInt t.numberOfReferences n >>= fun r => k (t.withRefs r) := by
  rw [addReferences, bind_assoc]
  rfl

/-- The `prev` of a leaf is set if there is one. -/
theorem setIfSome_setLeafPrev_eq {p : Option ℕ}
    (hp : ∀ a, p = some a → t.leaves.arena.live a = true) (v : Option ℕ) :
    t.setIfSome setLeafPrev p v =
      .ok { t with leaves.prev := updateIfSome t.leaves.prev p v } := by
  cases p with
  | none => rw [updateIfSome_none]; rfl
  | some a => rw [updateIfSome_some]; exact setLeafPrev_eq (hp a rfl) v

/-- The `next` of a leaf is set if there is one. -/
theorem setIfSome_setLeafNext_eq {p : Option ℕ}
    (hp : ∀ a, p = some a → t.leaves.arena.live a = true) (v : Option ℕ) :
    t.setIfSome setLeafNext p v =
      .ok { t with leaves.next := updateIfSome t.leaves.next p v } := by
  cases p with
  | none => rw [updateIfSome_none]; rfl
  | some a => rw [updateIfSome_some]; exact setLeafNext_eq (hp a rfl) v

/-- A live leaf that may be destroyed is freed. -/
theorem freeLeaf_eq (hl : t.leaves.arena.live l = true)
    (hd : LeafOps.destructible (t.leaves.payload l) = true) :
    t.freeLeaf l = .ok { t with leaves.arena := t.leaves.arena.free l } := by
  rw [freeLeaf, Arena.check_of_live hl, ok_bind, assert_pos hd]; rfl

/-- What `check_insert` does at the leaf of a tuple. -/
theorem foundAt_eq (h : Valid types t word ls) {vs : List Value} (hf : Found t word ls vs l)
    (hty : vs.map Value.type = types) (many : ℤ) :
    t.foundAt many vs l = (do
      assert (vs = [] ∨ t.numberOfReferences ≠ 0)
      pure (t.counted l many, some (t.leaves.node l), true)) := by
  have hlive := (h.leafList.live l).mpr hf.mem
  have hne : ls ≠ [] := List.ne_nil_of_mem hf.mem
  by_cases hnil : vs = []
  · subst hnil
    obtain ⟨w, hw, hfol⟩ := hf.path
    have hnode : t.leaves.node l = t.root := by
      by_contra hr
      obtain ⟨p, hp⟩ := h.shape.exists_parent (Option.isSome_of_eq_some hw) hr
      obtain ⟨u, hu, -⟩ := h.shape.kid_word hp
      obtain ⟨τ, ρ, hτ, -⟩ := h.shape.typed p u _ hu hp
      simp [← hty] at hτ
    simp only [foundAt, if_true, addCount_eq hlive, ok_bind, pure_eq_ok, hnode]
    rfl
  · have htypes : types ≠ [] := by
      rw [← hty]
      simpa using hnil
    have hfirst : t.firstLeaf ≠ none := fun hn => hne (h.leafList.empty_iff.mp hn)
    have hlast : t.lastLeaf ≠ none := fun hn => hne (h.leafList.last_none_iff.mp hn)
    rw [foundAt, if_neg hnil, foundLeaf, assert_pos (h.root_not_leaf htypes),
      ok_bind, addCount_eq hlive, ok_bind, assert_pos (by exact ⟨hfirst, hlast⟩), ok_bind,
      (h.counted l many).basicInvariants]
    by_cases hn : t.numberOfReferences = 0
    · simp [counted, hn, hne, hnil, assert]
    · simp [counted, hn, hne, hnil, assert]

/-- The trie `t'` is `t` without the leaf `l` and the path that led to it alone. -/
structure Removed (types : List FieldType) (t t' : Trie L) (word word' : Words) (ls : List ℕ)
    (l : ℕ) : Prop where
  valid : Valid types t' word' (ls.erase l)
  keep_word : ∀ x w, word' x = some w → word x = some w
  payload : t'.leaves.payload = t.leaves.payload
  node : t'.leaves.node = t.leaves.node
  root : t'.root = t.root
  references : t'.numberOfReferences = t.numberOfReferences

/-- A leaf that is not to be deleted stays. -/
theorem innerDeleteByLeaf_keep (hl : t.leaves.arena.live l = true)
    (hdel : LeafOps.toDelete (t.leaves.payload l) = false) : t.innerDeleteByLeaf l 0 = .ok t := by
  simp [innerDeleteByLeaf, Arena.check_of_live hl, hdel]

/-- `inner_delete_by_leaf` with a count first changes the count. -/
theorem innerDeleteByLeaf_count (hl : t.leaves.arena.live l = true) {n : ℤ} (hn : 0 < n) :
    t.innerDeleteByLeaf l n = (t.counted l (-n)).innerDeleteByLeaf l 0 := by
  have hl' : (t.counted l (-n)).leaves.arena.live l = true := hl
  have hne : n ≠ 0 := by omega
  simp only [innerDeleteByLeaf, Arena.check_of_live hl, Arena.check_of_live hl', ok_bind, hne, ne_eq,
    not_false_eq_true, if_true, assert_pos hn, addCount_eq hl, not_true_eq_false, if_false,
    pure_eq_ok]

/-- A leaf that is to be deleted is removed. -/
theorem innerDeleteByLeaf_remove (h : Valid types t word ls) (hl : l ∈ ls)
    (hdel : LeafOps.toDelete (t.leaves.payload l) = true)
    (hdes : LeafOps.destructible (t.leaves.payload l) = true) :
    ∃ (t' : Trie L) (word' : Words), t.innerDeleteByLeaf l 0 = .ok t' ∧
      Removed types t t' word word' ls l := by
  obtain ⟨hfirst, hlast, hprev, hnext⟩ := h.leafList.neighbours hl
  have hlive := (h.leafList.live l).mpr hl
  obtain ⟨hw, hc⟩ := h.leafNodes.attached l hl
  have hla := h.shape.live _ hw
  have htree := h.withoutLeaf hl
  obtain ⟨N', H', word', hok, hvalid, hkeep, -⟩ := deletePath_spec (t.nodes.arena.next)
    (Arena.lt_next hla) htree hw (by simp [Trie.withoutLeaf])
  refine ⟨_, word', ?_, hvalid, hkeep, rfl, rfl, rfl, rfl⟩
  rw [innerDeleteByLeaf, Arena.check_of_live hlive, ok_bind]
  simp only [ne_eq, not_true_eq_false, if_false, pure_eq_ok, ok_bind, hdel, reduceCtorEq, removeLeaf]
  rw [setIfSome_setLeafPrev_eq fun x hx => (h.leafList.live x).mpr (hnext x hx).1, ok_bind,
    setIfSome_setLeafNext_eq (by exact fun x hx => (h.leafList.live x).mpr (hprev x hx).1), ok_bind,
    assert_pos (by exact hfirst.mp), ok_bind, assert_pos (by exact hlast.mp), ok_bind,
    assert_pos (by
      rintro ⟨hf, hl⟩
      simp only at hf hl
      simp [hf, hl, hfirst.mp hf, hlast.mp hl]), ok_bind, freeLeaf_eq (by exact hlive) (by exact hdes),
    ok_bind, setChild_eq (by exact hla), ok_bind]
  change (deletePath t.nodes.arena.next (t.withoutLeaf l) (t.leaves.node l) >>= _) = _
  rw [hok, ok_bind, assert_pos (by exact hvalid.shape.root_next), ok_bind,
    assert_pos (by exact hvalid.shape.root_prev)]
  rfl

end Trie

end

end Meld.Db
