import Meld.Db.TrieTree

/-!
# `check_insert`

The leaf of a new tuple is appended to the list of leaves; the leaf of a tuple that is there has
its count changed. `checkInsert_spec` puts these together with the walk from the root.
-/

namespace Meld.Db

open Meld.Lib Meld.Vm

section

variable {L : Type} [Inhabited L] {V : LeafHeap L} {first last : Option ℕ} {ls : List ℕ}

theorem LeafList.empty_iff (h : LeafList V first last ls) : first = none ↔ ls = [] := by
  rw [h.first_eq, List.head?_eq_none_iff]

theorem LeafList.last_none_iff (h : LeafList V first last ls) : last = none ↔ ls = [] := by
  rw [h.last_eq, List.getLast?_eq_none_iff]

/-- Appending a leaf. -/
theorem LeafList.append (h : LeafList V first last ls) {V' : LeafHeap L} {l : ℕ}
    (hl : l = V.arena.next) (harena : V'.arena = V.arena.alloc)
    (hprev : V'.prev = Function.update V.prev l last)
    (hnext : V'.next = updateIfSome (Function.update V.next l none) last (some l)) :
    LeafList V' (if first = none then some l else first) (some l) (ls ++ [l]) := by
  have hfresh : ∀ x ∈ ls, x ≠ l := fun x hx =>
    hl ▸ (Arena.lt_next ((h.live x).mpr hx)).ne
  have hlast : last ≠ some l := fun he => by
    rw [h.last_eq] at he
    exact hfresh l (List.mem_of_getLast? he) rfl
  refine ⟨?_, ?_, ?_, by simp, fun x => ?_⟩
  · rw [List.nodup_append]
    exact ⟨h.nodup, List.nodup_singleton l, fun x hx y hy => by
      rw [List.mem_singleton.mp hy]
      exact hfresh x hx⟩
  · refine h.linked.pushBack h.nodup ?_ ?_ (fun x hx => ?_) fun x hx => ?_
    · simp [hnext, updateIfSome, hlast]
    · rw [hprev, Function.update_self, h.last_eq]
      split_ifs with hnil
      · simp [hnil]
      · rfl
    · simp [hprev, hfresh x hx]
    · simp [hnext, updateIfSome, h.last_eq, hfresh x hx]
  · rw [h.first_eq]
    cases ls <;> simp
  · rw [harena, Arena.alloc_live, ← hl]
    by_cases hxl : x = l
    · simp [hxl]
    · simp [hxl, h.live]

end

namespace Trie

variable {L : Type} [LeafOps L] {t : Trie L} {types : List FieldType} {P G : ℕ → Prop}
  {word : Words} {ls : List ℕ} {a : ℕ} {u : List TupleField}

theorem setLeafNext_eq {l : ℕ} (hl : t.leaves.arena.live l = true) (v : Option ℕ) :
    t.setLeafNext l v = .ok { t with leaves.next := Function.update t.leaves.next l v } := by
  rw [setLeafNext, Arena.check_of_live hl]; rfl

theorem setLeafPrev_eq {l : ℕ} (hl : t.leaves.arena.live l = true) (v : Option ℕ) :
    t.setLeafPrev l v = .ok { t with leaves.prev := Function.update t.leaves.prev l v } := by
  rw [setLeafPrev, Arena.check_of_live hl]; rfl

/-- The leaf heap after `attachLeaf`. -/
def pushLeaf (V : LeafHeap L) (node : ℕ) (last : Option ℕ) (payload : L) : LeafHeap L where
  arena := V.arena.alloc
  prev := Function.update V.prev V.arena.next last
  next := updateIfSome (Function.update V.next V.arena.next none) last (some V.arena.next)
  node := Function.update V.node V.arena.next node
  payload := Function.update V.payload V.arena.next payload

/-- The trie after `attachLeaf`. -/
def attached (t : Trie L) (a : ℕ) (payload : L) : Trie L :=
  { t with
    nodes.child := Function.update t.nodes.child a (.leaf t.leaves.arena.next)
    leaves := pushLeaf t.leaves a t.lastLeaf payload
    firstLeaf := if t.firstLeaf = none then some t.leaves.arena.next else t.firstLeaf
    lastLeaf := some t.leaves.arena.next }

theorem attachLeaf_eq (hl : LeafList t.leaves t.firstLeaf t.lastLeaf ls)
    (ha : t.nodes.arena.live a = true) (payload : L) :
    t.attachLeaf a payload = .ok (t.attached a payload) := by
  rw [attachLeaf, setChild_eq (by exact ha), ok_bind]
  by_cases hf : t.firstLeaf = none
  · have hlast : t.lastLeaf = none := hl.last_none_iff.mpr (hl.empty_iff.mp hf)
    simp only [newLeaf, hf, if_true]
    rw [setLeafPrev_eq (by exact Arena.alloc_live_next), ok_bind]
    simp only [pure_eq_ok, ok_bind, assert_pos, Function.update_idem, attached, hf, hlast,
      pushLeaf, updateIfSome_none, if_true]
  · have hne : ls ≠ [] := fun he => hf (hl.empty_iff.mpr he)
    obtain ⟨b, hb⟩ : ∃ b, t.lastLeaf = some b := by
      rw [← Option.ne_none_iff_exists']
      exact fun he => hne (hl.last_none_iff.mp he)
    have hlive : t.leaves.arena.live b = true := by
      refine (hl.live b).mpr (List.mem_of_getLast? ?_)
      rw [← hl.last_eq, hb]
    simp only [newLeaf, hf, if_false, hb, deref_some, ok_bind]
    rw [setLeafNext_eq (by exact Arena.alloc_live_of_live hlive), ok_bind]
    simp only [pure_eq_ok, ok_bind, assert_pos, attached, hf, hb, pushLeaf,
      updateIfSome_some, if_false]

end Trie

section

variable {L : Type} [LeafOps L] {t : Trie L} {types : List FieldType} {P G : ℕ → Prop}
  {word : Words} {ls : List ℕ} {a : ℕ} {u : List TupleField}

/-- A leaf for a node that had nothing below it. -/
theorem Tree.attached (h : Tree types t (· = a) G word ls) (hu : word a = some u)
    (htypes : restTypes types u = []) (hnull : t.nodes.child a = .null)
    (hhash : t.nodes.hashed a = false) (payload : L) :
    Tree types (t.attached a payload) (fun _ => False) G word (ls ++ [t.leaves.arena.next]) := by
  have hua := Option.isSome_of_eq_some hu
  -- the leaf is new
  have hfresh : ∀ l ∈ ls, l ≠ t.leaves.arena.next := fun l hl =>
    (Arena.lt_next ((h.leafList.live l).mpr hl)).ne
  -- and hangs on one node only
  have hchild : ∀ b, b ≠ a → (t.attached a payload).nodes.child b = t.nodes.child b := fun b hb => by
    simp [Trie.attached, hb]
  have hself : (t.attached a payload).nodes.child a = .leaf t.leaves.arena.next := by
    simp [Trie.attached]
  refine ⟨?_, fun b hb hbr _ => ?_, fun _ hn => ?_, h.clean,
    h.leafList.append rfl rfl rfl rfl, fun l hl => ?_, fun b l hb hl => ?_⟩
  · refine h.shape.relink (p := a) (fun _ _ => ⟨rfl, rfl⟩) (fun _ _ => id)
      (fun b _ hba _ => ⟨hchild b hba, rfl⟩) (fun b _ _ => ⟨rfl, rfl, rfl⟩) (fun g _ _ => .refl _ g)
      (fun _ _ => id) (fun b w l hw hl => ?_) fun _ _ => .leaf _ hself hhash
        (h.shape.no_kid_of_null hua id hnull)
    by_cases hba : b = a
    · rw [hba, hu, Option.some.injEq] at hw
      exact hw ▸ htypes
    · exact h.shape.leaf_typed b w l hw (hchild b hba ▸ hl)
  · by_cases hba : b = a
    · rw [hba, hself]
      simp
    · rw [hchild b hba]
      exact h.full b hb hbr hba
  · change (t.attached a payload).nodes.child t.root = .null at hn
    have hra : t.root ≠ a := by
      rintro rfl
      simp [hself] at hn
    exact h.root_hashed hra (hchild _ hra ▸ hn)
  · rcases List.mem_append.mp hl with hl | hl
    · obtain ⟨hw, hc⟩ := h.leafNodes.attached l hl
      have hna : t.leaves.node l ≠ a := by
        intro he
        rw [he, hnull] at hc
        cases hc
      have hnode : (t.attached a payload).leaves.node l = t.leaves.node l := by
        simp [Trie.attached, Trie.pushLeaf, hfresh l hl]
      rw [hnode, hchild _ hna]
      exact ⟨hw, hc⟩
    · rw [List.mem_singleton.mp hl]
      have hnode : (t.attached a payload).leaves.node t.leaves.arena.next = a := by
        simp [Trie.attached, Trie.pushLeaf]
      rw [hnode]
      exact ⟨hua, hself⟩
  · by_cases hba : b = a
    · rw [hba, hself, Child.leaf.injEq] at hl
      subst hl
      exact ⟨by simp, by simp [Trie.attached, Trie.pushLeaf, hba]⟩
    · obtain ⟨hm, hnode⟩ := h.leafNodes.mem b l hb (hchild b hba ▸ hl)
      exact ⟨by simp [hm], by simpa [Trie.attached, Trie.pushLeaf, hfresh l hm] using hnode⟩

/-- The trie `t'` is `t` with a new leaf, at the node `b` with the path `path`. -/
structure Added (types : List FieldType) (t t' : Trie L) (word word' : Words) (ls : List ℕ)
    (payload : L) (b : ℕ) (path : List TupleField) : Prop where
  valid : Valid types t' word' (ls ++ [t.leaves.arena.next])
  word_new : word' b = some path
  keep_word : ∀ x, (word x).isSome → word' x = word x
  leaves : t'.leaves = Trie.pushLeaf t.leaves b t.lastLeaf payload
  root : t'.root = t.root
  references : t'.numberOfReferences = t.numberOfReferences

/-- A trie whose levels are not used up at the root has no leaf there. -/
theorem Tree.root_not_leaf (h : Tree types t P G word ls) (htypes : types ≠ []) :
    (t.nodes.child t.root).isLeaf = false := by
  cases hc : t.nodes.child t.root with
  | leaf l => exact absurd (h.shape.leaf_typed _ _ l h.shape.root_word hc) htypes
  | null => rfl
  | node b => rfl
  | hash g => rfl

theorem Tree.child_root_ne_null (h : Tree types t (fun _ => False) G word ls) (hls : ls ≠ []) :
    t.nodes.child t.root ≠ .null := fun hn => hls (h.root_null_iff.mp hn)

/-- The nodes of a new tuple, before its leaf. -/
theorem Tree.extended {N : NodeHeap} {H : HashHeap} {word' : Words} {b : ℕ}
    (h : Valid types t word ls) (hleaf : (t.nodes.child a).isLeaf = false)
    (hs : Shape types N H t.root (fun _ => False) word') (he : Trie.Extended t.nodes N word word' a b) :
    Tree types (t.withHeaps N H) (· = b) (fun _ => False) word' ls := by
  have hold : ∀ x, (word x).isSome → (word' x).isSome := fun x hx => by
    rwa [he.keep_word x hx]
  refine ⟨hs, fun x hx hxr hxb => ?_, fun hrb hn => ?_, fun x hx => ?_, h.leafList,
    fun l hl => ?_, fun x l hx hl => ?_⟩
  · rcases he.new x hx with hx' | hx'
    · by_cases hxa : x = a
      · exact hxa ▸ he.base.2.resolve_left fun hab => hxb (hxa.trans hab)
      · rw [Trie.withHeaps_nodes, he.keep_child x hx' hxa]
        exact h.full x hx' hxr id
    · exact hx'.2.resolve_left hxb
  · simp only [Trie.withHeaps_nodes, Trie.withHeaps_root] at hn hrb ⊢
    by_cases hra : t.root = a
    · exact absurd (hra ▸ hn) (he.base.2.resolve_left fun hab => hrb (hra.trans hab))
    · rw [he.keep_hashed _ h.shape.root_some hra]
      exact h.root_hashed id (he.keep_child _ h.shape.root_some hra ▸ hn)
  · rcases he.live x hx with hx' | hx'
    · exact .inl (hold x ((h.clean x hx').resolve_right id))
    · exact .inl hx'
  · obtain ⟨hw, hc⟩ := h.leafNodes.attached l hl
    have hna : t.leaves.node l ≠ a := by
      intro he'
      simp [← he', hc, Child.isLeaf] at hleaf
    exact ⟨hold _ hw, (he.keep_child _ hw hna).trans hc⟩
  · rcases he.new x hx with hx' | hx'
    · by_cases hxa : x = a
      · have := he.base.1
        simp only [Trie.withHeaps_nodes] at hl
        simp [← hxa, hl, Child.isLeaf] at this
      · exact h.leafNodes.mem x l hx' (he.keep_child x hx' hxa ▸ hl)
    · have := hx'.1
      simp only [Trie.withHeaps_nodes] at hl
      simp [hl, Child.isLeaf] at this

namespace Trie

/-- The insertion of a tuple that is not there. -/
theorem insertNew_spec (h : Valid types t word ls) {b n fuel : ℕ} {v : Value}
    {vs rest : List Value} (he : EndsMissing types t word t.root [] vs fuel b v rest n)
    (mk : ℤ → L) (many : ℤ) :
    ∃ (t' : Trie L) (word' : Words) (c : ℕ) (path done : List TupleField),
      t.insertNew mk many b v rest n = .ok (t', some c, false) ∧
      levels vs = done ++ levels (v :: rest) ∧ Follows path done ∧ (∃ a, word a = some path) ∧
      Added types t t' word word' ls (mk many) c (path ++ levels (v :: rest)) := by
  obtain ⟨w, done, hw, hlev, hfol, htypes⟩ := he.path
  rw [List.nil_append] at hw htypes
  have hsome := Option.isSome_of_eq_some hw
  -- only the root can be empty
  have hnull : t.nodes.child b = .null → t.nodes.hashed b = false := fun hn => by
    by_cases hb : b = t.root
    · exact hb ▸ h.root_hashed id (hb ▸ hn)
    · exact absurd hn (h.full b hsome hb id)
  -- room for the child, the child, and the nodes below it
  obtain ⟨N₁, H₁, hok₁, h₁, hr⟩ := makeRoom_spec h.shape hsome id he.child hnull v.type (n + 1)
    fun hn => by rw [he.count hn]
  have hkid : ∀ c, Kid N₁ word b c → Kid t.nodes word b c := fun c hk => ⟨hk.1, hr.parent ▸ hk.2⟩
  have hv : v.Ok := he.ok v (by simp)
  obtain ⟨N₂, H₂, hok₂, h₂, hi⟩ := insert_spec (t := t.withHeaps N₁ H₁) (v := v)
    (ρ := rest.map Value.type) h₁ hw id hr.child_ne_leaf hr.hashed_of_null htypes
    fun c hk => by
      rw [withHeaps_nodes, hr.data]
      exact he.missed c (hkid c hk)
  have hnext : N₁.arena.next = t.nodes.arena.next := by rw [hr.arena]
  have hfresh : ∀ x, (word x).isSome → x ≠ N₁.arena.next := fun x hx =>
    (Arena.lt_next (h₁.live x hx)).ne
  obtain ⟨N₃, H₃, word', c, hok₃, h₃, hc, hext⟩ := insertRest_spec
    (t := (t.withHeaps N₁ H₁).withHeaps N₂ H₂) (u := w ++ [v.store]) _ (v.pushed ++ rest) le_rfl
    (fun x hx => (List.mem_append.mp hx).elim (Value.pushed_ok hv x) fun hx => he.ok x (by simp [hx]))
    h₂ (by simp) (fun _ => id) hi.new_child hi.new_hashed
    (by rw [restTypes_append, htypes, List.map_cons, descend_store hv, List.map_append])
  simp only [withHeaps_withHeaps, withHeaps_nodes, withHeaps_root] at hok₂ hok₃ h₃ hext hi
  -- the three changes together
  have hext' := (Extended.of_inserted hi hsome hfresh hext).of_roomier hr
  have htree := Tree.extended h he.child h₃ hext'
  have hpath : word' c = some (w ++ levels (v :: rest)) := by
    simpa [levels_cons] using hc
  have hcomplete : restTypes types (w ++ levels (v :: rest)) = [] :=
    restTypes_append_levels _ he.ok htypes
  have hvalid := Tree.attached htree hpath hcomplete hext.child_last hext.hashed_last (mk many)
  refine ⟨_, word', c, w, done, ?_, hlev, hfol, ⟨b, hw⟩, hvalid, hpath, hext'.keep_word, rfl, rfl, rfl⟩
  have htne : types ≠ [] := by
    rintro rfl
    simp at htypes
  rw [insertNew, hok₁, ok_bind, hok₂, ok_bind]
  simp only
  rw [assert_pos (by exact (hfresh _ h.shape.root_some).symm), ok_bind, hok₃, ok_bind]
  simp only
  rw [attachLeaf_eq htree.leafList (htree.shape.live c (Option.isSome_of_eq_some hpath)), ok_bind,
    assert_pos (hvalid.root_not_leaf htne), ok_bind,
    assert_pos (by rw [Ne, hvalid.leafList.empty_iff]; simp), ok_bind,
    assert_pos (hvalid.child_root_ne_null (by simp)), ok_bind]
  rfl

/-- The leaf `l` is the one of the tuple `vs`. -/
structure Found (t : Trie L) (word : Words) (ls : List ℕ) (vs : List Value) (l : ℕ) : Prop where
  mem : l ∈ ls
  path : ∃ w, word (t.leaves.node l) = some w ∧ Follows w (levels vs)
  leads : Leads t t.root vs l
  unique : NarrowTree t.nodes word → ∀ l' ∈ ls, ∀ w, word (t.leaves.node l') = some w →
    Follows w (levels vs) → l' = l

/-- The trie has no leaf for the tuple `vs`. -/
structure Absent (t : Trie L) (word : Words) (ls : List ℕ) (vs : List Value) : Prop where
  stuck : ∀ l, ¬Leads t t.root vs l
  not_follows : NarrowTree t.nodes word → ∀ l ∈ ls, ∀ w, word (t.leaves.node l) = some w →
    ¬Follows w (levels vs)

/-- What `check_insert` does when the tuple has the leaf `l`. -/
def foundAt (t : Trie L) (many : ℤ) (vs : List Value) (l : ℕ) :
    Exec (Trie L × Option ℕ × Bool) :=
  if vs = [] then do
    let t ← t.addCount l many
    pure (t, some t.root, true)
  else t.foundLeaf many (t.leaves.node l) l

theorem checkInsert_nil (h : Valid types t word ls) (hty : types = []) :
    (∃ l, Found t word ls [] l ∧
      ∀ (mk : ℤ → L) (many : ℤ), t.checkInsert mk many [] = t.foundAt many [] l) ∨
    (Absent t word ls [] ∧ ∀ (mk : ℤ → L) (many : ℤ),
      ∃ t', t.checkInsert mk many [] = .ok (t', some t.root, false) ∧
        Added types t t' word word ls (mk many) t.root []) := by
  subst hty
  have hroot : t.nodes.arena.live t.root = true := h.shape.live _ h.shape.root_some
  -- every leaf is the root's
  have hnode : ∀ l ∈ ls, t.leaves.node l = t.root := fun l hl => by
    by_contra hne
    obtain ⟨p, hp⟩ := h.shape.exists_parent (h.leafNodes.attached l hl).1 hne
    obtain ⟨u, hu, -⟩ := h.shape.kid_word hp
    obtain ⟨τ, ρ, hτ, -⟩ := h.shape.typed p u _ hu hp
    simp at hτ
  by_cases hleaf : ∃ l, t.nodes.child t.root = .leaf l
  · obtain ⟨l, hc⟩ := hleaf
    obtain ⟨hl, hn⟩ := h.leafNodes.mem t.root l h.shape.root_some hc
    refine .inl ⟨l, ⟨hl, ⟨[], hn ▸ h.shape.root_word, .nil⟩, .leaf hc, fun _ l' hl' w _ _ => ?_⟩,
      fun mk many => ?_⟩
    · have hc' := (h.leafNodes.attached l' hl').2
      rw [hnode l' hl', hc, Child.leaf.injEq] at hc'
      exact hc'.symm
    · simp only [checkInsert, foundAt, if_true, Arena.check_of_live hroot, ok_bind, hc]
  · have hnull : t.nodes.child t.root = .null := by
      by_contra hne
      rcases h.shape.leaf_or_kid h.shape.root_some id hne with hl | ⟨c, hk⟩
      · exact hleaf hl
      · obtain ⟨τ, ρ, hτ, -⟩ := h.shape.typed _ _ _ h.shape.root_word hk
        simp at hτ
    have hls := h.root_null_iff.mp hnull
    have hfirst : t.firstLeaf = none := h.leafList.empty_iff.mpr hls
    have hlast : t.lastLeaf = none := h.leafList.last_none_iff.mpr hls
    refine .inr ⟨⟨fun l hl => by cases hl with | leaf hc => exact hleaf ⟨l, hc⟩,
      fun _ l hl => by simp [hls] at hl⟩, fun mk many => ⟨t.attached t.root (mk many), ?_,
      Tree.attached { h with
        full := fun b hb hbr _ => h.full b hb hbr id
        root_hashed := fun hr => absurd rfl hr } h.shape.root_word (by simp) hnull
        (h.root_hashed id hnull) (mk many), h.shape.root_word, fun _ _ => rfl, rfl, rfl, rfl⟩⟩
    simp only [checkInsert, if_true, Arena.check_of_live hroot, ok_bind, hnull, newLeaf]
    rw [setChild_eq (by exact hroot)]
    simp [attached, pushLeaf, hfirst, hlast, updateIfSome_none]

/-- `check_insert` finds the leaf of the tuple, or, when there is none, does nothing for a
retraction and else adds one. -/
theorem checkInsert_cases (h : Valid types t word ls) {vs : List Value}
    (hty : vs.map Value.type = types) (hvs : ∀ v ∈ vs, v.Ok) :
    (∃ l, Found t word ls vs l ∧
      ∀ (mk : ℤ → L) (many : ℤ), t.checkInsert mk many vs = t.foundAt many vs l) ∨
    (Absent t word ls vs ∧ ∀ (mk : ℤ → L) (many : ℤ),
      (vs ≠ [] ∧ many < 0 ∧ t.checkInsert mk many vs = .ok (t, none, false)) ∨
      ∃ (t' : Trie L) (word' : Words) (b : ℕ) (path done : List TupleField) (rest : List Value),
        (vs = [] ∨ 0 ≤ many) ∧ t.checkInsert mk many vs = .ok (t', some b, false) ∧
        levels vs = done ++ levels rest ∧ Follows path done ∧ (∃ a, word a = some path) ∧
        Added types t t' word word' ls (mk many) b (path ++ levels rest)) := by
  by_cases hnil : vs = []
  · subst hnil
    rcases checkInsert_nil h hty.symm with hfound | ⟨habs, hrun⟩
    · exact .inl hfound
    · refine .inr ⟨habs, fun mk many => .inr ?_⟩
      obtain ⟨t', hok, hadd⟩ := hrun mk many
      exact ⟨t', word, t.root, [], [], [], .inl rfl, hok, rfl, .nil, ⟨_, h.shape.root_word⟩, hadd⟩
  · have hrun : ∀ (mk : ℤ → L) (many : ℤ), t.checkInsert mk many vs =
        insertFrom mk many (levels vs).length t t.root vs := fun mk many => if_neg hnil
    rcases insertFrom_cases h.shape (fun b hb hbr => h.full b hb hbr id) _ le_rfl hvs
      h.shape.root_word (by simpa [restTypes] using hty.symm) (fun hn => absurd hn hnil) with
      ⟨b, l, he⟩ | ⟨b, v, rest, n, he⟩
    · obtain ⟨w, hw, hfol⟩ := he.path
      obtain ⟨hl, hn⟩ := h.leafNodes.mem b l (Option.isSome_of_eq_some hw) he.child
      refine .inl ⟨l, ⟨hl, ⟨w, by simpa [hn] using hw, hfol⟩, he.leads,
        fun hs l' hl' w' hw' hfol' => ?_⟩, fun mk many => ?_⟩
      · have hb := he.unique hs _ w' (h.shape.down_of_word hw') hfol'
        have hc := (h.leafNodes.attached l' hl').2
        rw [hb, he.child, Child.leaf.injEq] at hc
        exact hc.symm
      · rw [hrun, he.run, foundAt, if_neg hnil, hn]
    · refine .inr ⟨⟨he.stuck, fun hs l hl w hw hfol =>
        he.absent hs _ w (h.shape.down_of_word hw) hfol⟩, fun mk many => ?_⟩
      rw [hrun, he.run]
      by_cases hmany : many < 0
      · exact .inl ⟨hnil, hmany, by rw [if_pos hmany]; rfl⟩
      · rw [if_neg hmany]
        obtain ⟨t', word', c, path, done, hok, hlev, hfol, hpath, hadd⟩ :=
          insertNew_spec h he mk many
        exact .inr ⟨t', word', c, path, done, v :: rest, .inr (by omega), hok, hlev, hfol, hpath,
          hadd⟩

end Trie

end

end Meld.Db
