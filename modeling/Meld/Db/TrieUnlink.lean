import Meld.Db.TrieAttach

/-!
# Removing a node

`delete_path` takes a node without children out of the children of its parent, and goes on with
the parent when it was the last of them. `deletePath_spec` says that afterwards every node but
the root has something below it again.
-/

namespace Meld.Db

open Meld.Lib Meld.Vm

theorem kid_detached {N : NodeHeap} {word : Words} {p a : ℕ} (c : ℕ) :
    Kid N (Function.update word a none) p c ↔ Kid N word p c ∧ c ≠ a := by
  by_cases hc : c = a
  · simp [Kid, hc]
  · simp [Kid, hc]

/-- The children of a node without a detached one. -/
theorem Kids.erase_detached {N : NodeHeap} {word : Words} {p a : ℕ} {ks : List ℕ}
    (hks : Kids N word p ks) : Kids N (Function.update word a none) p (ks.erase a) where
  nodup := hks.nodup.erase a
  mem c := by rw [hks.nodup.mem_erase_iff, kid_detached, hks.mem, and_comm]

/-- The node heap after the neighbours of `a` were made to point to each other. -/
def NodeHeap.unlinked (N : NodeHeap) (a : ℕ) : NodeHeap :=
  { N with
    next := updateIfSome N.next (N.prev a) (N.next a)
    prev := updateIfSome N.prev (N.next a) (N.prev a) }

section

variable {N : NodeHeap} {H : HashHeap} {h a i : ℕ} {K : ℕ → Prop} {chain : ℕ → List ℕ}
  {xs ys : List ℕ}

/-- A list of children without the removed one. -/
theorem linked_unlinked (hl : Linked N.next N.prev none (xs ++ a :: ys))
    (hnodup : (xs ++ a :: ys).Nodup) :
    Linked (N.unlinked a).next (N.unlinked a).prev none (xs ++ ys) := by
  obtain ⟨hprev, hnext⟩ := hl.at_split
  refine hl.erase hnodup (fun x _ => ?_) fun x _ => ?_
  · simp only [NodeHeap.unlinked, updateIfSome_apply, hprev, hnext]
  · simp only [NodeHeap.unlinked, updateIfSome_apply, hprev, hnext]
    cases xs <;> simp

/-- Only the neighbours of the removed node have a new place. -/
theorem unlinked_place (hl : Linked N.next N.prev none (xs ++ a :: ys)) {x : ℕ}
    (hx : x ∉ xs ++ a :: ys) : SamePlace N (N.unlinked a) x := by
  obtain ⟨hprev, hnext⟩ := hl.at_split
  have hxp : N.prev a ≠ some x := fun he => by
    rw [hprev] at he
    exact hx (List.mem_append_left _ (List.mem_of_getLast? he))
  have hxn : N.next a ≠ some x := fun he => by
    rw [hnext] at he
    exact hx (by simp [List.mem_of_mem_head? he])
  exact ⟨by simp [NodeHeap.unlinked, updateIfSome, hxp],
    by simp [NodeHeap.unlinked, updateIfSome, hxn], rfl⟩

/-- A table without one of its children. -/
theorem Table.remove (ht : Table N H h K chain) (hi : i < H.numBuckets h)
    (hchain : chain i = xs ++ a :: ys) :
    Table (N.unlinked a)
      (if xs = [] then H.withSlots h (Function.update (H.slots h) i ys.head?) else H) h
      (fun c => K c ∧ c ≠ a) (Function.update chain i (xs ++ ys)) := by
  set H' := if xs = [] then H.withSlots h (Function.update (H.slots h) i ys.head?) else H with hH
  have hnum : H'.numBuckets = H.numBuckets := by rw [hH]; split_ifs <;> rfl
  have hbuckets : H'.buckets = H.buckets := by rw [hH]; split_ifs <;> rfl
  have hitem : ∀ x, H'.item h x = H.item h x := fun x => by
    rw [HashHeap.item, HashHeap.item, hnum]
  have hnodup := ht.nodup i hi
  have hlinked := ht.linked i hi
  rw [hchain] at hnodup hlinked
  have hai : H.item h (hashField (N.data a)) = i :=
    ((ht.mem i hi a).mp (by simp [hchain])).2
  -- `a` is in its bucket once, and in no other
  have hnot : ∀ x ∈ xs ++ ys, x ≠ a := by
    rintro x hx rfl
    rw [List.nodup_middle, List.nodup_cons] at hnodup
    exact hnodup.1 hx
  have hdisj : ∀ j < H.numBuckets h, j ≠ i → ∀ x ∈ chain j, x ∉ xs ++ a :: ys := by
    intro j hj hji x hx hx'
    rw [← hchain] at hx'
    exact hji (((ht.mem j hj x).mp hx).2.symm.trans ((ht.mem i hi x).mp hx').2)
  refine ⟨by rw [hnum]; exact ht.size, ?_, ?_, ?_, ?_, ?_⟩
  · -- the slots
    rw [hnum]
    intro j hj
    by_cases hji : j = i
    · subst hji
      rw [Function.update_self, hH]
      split_ifs with hx
      · simp [HashHeap.withSlots, hx]
      · rw [ht.slot j hj, hchain]
        cases xs with
        | nil => exact absurd rfl hx
        | cons x xs => rfl
    · rw [Function.update_of_ne hji, ← ht.slot j hj, hH]
      split_ifs <;> simp [HashHeap.withSlots, hji]
  · -- the links of the buckets
    rw [hnum]
    intro j hj
    by_cases hji : j = i
    · subst hji
      rw [Function.update_self]
      exact linked_unlinked hlinked hnodup
    · rw [Function.update_of_ne hji]
      have hp := fun x hx => unlinked_place hlinked (hdisj j hj hji x hx)
      exact (ht.linked j hj).congr (fun x hx => (hp x hx).next) fun x hx => (hp x hx).prev
  · -- no node is twice in a bucket
    rw [hnum]
    intro j hj
    by_cases hji : j = i
    · subst hji
      rw [Function.update_self]
      rw [List.nodup_middle, List.nodup_cons] at hnodup
      exact hnodup.2
    · rw [Function.update_of_ne hji]
      exact ht.nodup j hj
  · -- each node is in the bucket of its value
    rw [hnum]
    intro j hj x
    change x ∈ Function.update chain i (xs ++ ys) j ↔
      (K x ∧ x ≠ a) ∧ H'.item h (hashField (N.data x)) = j
    rw [hitem]
    by_cases hji : j = i
    · subst hji
      rw [Function.update_self, and_right_comm, ← ht.mem j hj x, hchain]
      constructor
      · intro hx
        refine ⟨?_, hnot x hx⟩
        simp only [List.mem_append, List.mem_cons] at hx ⊢
        tauto
      · rintro ⟨hx, hxa⟩
        simp only [List.mem_append, List.mem_cons] at hx ⊢
        tauto
    · rw [Function.update_of_ne hji, and_right_comm, ← ht.mem j hj x]
      refine ⟨fun hx => ⟨hx, ?_⟩, And.left⟩
      rintro rfl
      exact hji (((ht.mem j hj x).mp hx).2.symm.trans hai)
  · -- the pointers back to the buckets
    intro x hx
    change N.bucket x = some (H'.buckets h, H'.item h (hashField (N.data x)))
    rw [hitem, hbuckets]
    exact ht.bucket x hx.1

end

namespace Trie

variable {L : Type} [LeafOps L] {t : Trie L} {types : List FieldType} {P G : ℕ → Prop}
  {word : Words} {ls : List ℕ} {a p : ℕ} {u : List TupleField}

/-- What taking `a` out of the children of `p` leaves of the nodes; `e` tells whether `p` is
without children then. -/
structure Unlinked (N N' : NodeHeap) (p a : ℕ) (e : Bool) : Prop where
  arena : N'.arena = N.arena
  child : ∀ x, x ≠ p → N'.child x = N.child x
  hashed : ∀ x, x ≠ a → N'.hashed x = N.hashed x
  child_ne_leaf : (N'.child p).isLeaf = false
  child_null : N'.child p = .null ↔ e = true

private theorem unlinkNode_links {prev next : Option ℕ} (hp : t.nodes.prev a = prev)
    (hn : t.nodes.next a = next) (hprev : ∀ x, prev = some x → t.nodes.arena.live x = true)
    (hnext : ∀ x, next = some x → t.nodes.arena.live x = true) :
    (do let t ← t.setIfSome setNext prev next
        t.setIfSome setPrev next prev) = .ok (t.withHeaps (t.nodes.unlinked a) t.hashes) := by
  rw [setIfSome_setNext_eq hprev, ok_bind, setIfSome_setPrev_eq (by exact hnext)]
  simp only [NodeHeap.unlinked, hp, hn]
  rfl

/-- Taking a node out of a list of children. -/
theorem unlinkNode_plain {b : ℕ} {xs ys : List ℕ} (hc : t.nodes.child p = .node b)
    (hd : (xs ++ a :: ys).head? = some b) (hl : Linked t.nodes.next t.nodes.prev none (xs ++ a :: ys))
    (hb : t.nodes.bucket a = none) (hlive : ∀ x ∈ xs ++ a :: ys, t.nodes.arena.live x = true)
    (hp : t.nodes.arena.live p = true) :
    t.unlinkNode p a = .ok (t.withHeaps { t.nodes.unlinked a with
      child := Function.update t.nodes.child p (.ofNode (xs ++ ys).head?) } t.hashes,
      decide (xs ++ ys = [])) := by
  obtain ⟨hprev, hnext⟩ := hl.at_split
  have hlinks := unlinkNode_links (t := t) hprev hnext
    (fun x hx => hlive x (List.mem_append_left _ (List.mem_of_getLast? hx)))
    fun x hx => hlive x (by simp [List.mem_of_mem_head? hx])
  simp only [unlinkNode, hprev, hnext]
  rw [← bind_assoc, hlinks, ok_bind]
  have hbk : (t.withHeaps (t.nodes.unlinked a) t.hashes).nodes.bucket a = none := hb
  simp only [hbk, Option.isSome_none, Bool.false_eq_true, if_false, pure_eq_ok, ok_bind]
  cases xs with
  | nil =>
    rw [List.nil_append, List.head?_cons, Option.some.injEq] at hd
    subst hd
    simp only [List.getLast?_nil, if_true]
    rw [assert_pos (by exact hc), ok_bind, setChild_eq (by exact hp)]
    simp [withHeaps, NodeHeap.unlinked]
  | cons x xs =>
    have hx : x = b := by simpa using hd
    have hself : Function.update t.nodes.child p (.node x) = t.nodes.child := by
      rw [hx, ← hc, Function.update_eq_self]
    simp [withHeaps, NodeHeap.unlinked, Child.ofNode, hself]

/-- Taking a node out of a table. -/
theorem unlinkNode_table {h i : ℕ} {ks : List ℕ} {chain : ℕ → List ℕ} {xs ys : List ℕ}
    (hc : t.nodes.child p = .hash h) (hlh : t.hashes.arena.live h = true)
    (htotal : t.hashes.total h = ks.length) (hak : a ∈ ks)
    (ht : Table t.nodes t.hashes h (· ∈ ks) chain) (hi : i < t.hashes.numBuckets h)
    (hchain : chain i = xs ++ a :: ys) (hlive : ∀ x ∈ ks, t.nodes.arena.live x = true)
    (hp : t.nodes.arena.live p = true) :
    (ks = [a] ∧ ∃ H', t.unlinkNode p a = .ok (t.withHeaps { t.nodes.unlinked a with
        child := Function.update t.nodes.child p .null
        hashed := Function.update t.nodes.hashed a false
        bucket := Function.update t.nodes.bucket a none } H', true) ∧
      ∀ g, g ≠ h → SameHash t.hashes H' g) ∨
    (ks ≠ [a] ∧ t.unlinkNode p a = .ok (t.withHeaps (t.nodes.unlinked a)
      ((if xs = [] then t.hashes.withSlots h (Function.update (t.hashes.slots h) i ys.head?)
        else t.hashes).withTotal h (ks.length - 1)), false)) := by
  have hmem : ∀ x ∈ xs ++ a :: ys, x ∈ ks := fun x hx =>
    ((ht.mem i hi x).mp (by rw [hchain]; exact hx)).1
  obtain ⟨hprev, hnext⟩ := (hchain ▸ ht.linked i hi).at_split
  have hlinks := unlinkNode_links (t := t) hprev hnext
    (fun x hx => hlive x (hmem x (List.mem_append_left _ (List.mem_of_getLast? hx))))
    fun x hx => hlive x (hmem x (by simp [List.mem_of_mem_head? hx]))
  -- the parent keeps its table while the links are changed
  have hget : (t.withHeaps (t.nodes.unlinked a) t.hashes).getHash p = .ok h := by
    have hck : (t.nodes.unlinked a).arena.check p = .ok () := Arena.check_of_live hp
    have hcu : (t.nodes.unlinked a).child p = .hash h := hc
    simp [getHash, hck, hcu, Arena.check_of_live hlh]
  have hbk : (t.withHeaps (t.nodes.unlinked a) t.hashes).nodes.bucket a =
      some (t.hashes.buckets h, i) := by
    have := ht.bucket a hak
    rw [((ht.mem i hi a).mp (by simp [hchain])).2] at this
    exact this
  simp only [unlinkNode, hprev, hnext]
  rw [← bind_assoc, hlinks, ok_bind]
  simp only [hbk, Option.isSome_some, if_true, hget, ok_bind]
  have hpos : 0 < ks.length := List.length_pos_of_mem hak
  -- the table has one node less
  have hdec : decSize (t.hashes.total h) = ks.length - 1 := by
    rw [htotal, decSize, if_neg (by omega)]
  rw [setTotal_eq (by exact hlh), ok_bind]
  simp only [withHeaps_hashes, withHeaps_nodes, withHeaps_withHeaps, hdec]
  have hget' : (t.withHeaps (t.nodes.unlinked a) (t.hashes.withTotal h (ks.length - 1))).getHash p =
      .ok h := by
    have hck : (t.nodes.unlinked a).arena.check p = .ok () := Arena.check_of_live hp
    have hcu : (t.nodes.unlinked a).child p = .hash h := hc
    have hch : (t.hashes.withTotal h (ks.length - 1)).arena.check h = .ok () :=
      Arena.check_of_live hlh
    simp [getHash, hck, hcu, hch]
  by_cases hxs : xs = []
  · subst hxs
    simp only [List.getLast?_nil, if_true]
    have hbk' : (t.nodes.unlinked a).bucket a = some (t.hashes.buckets h, i) := hbk
    simp only [hbk', hget', ok_bind]
    rw [setBucketSlot, if_pos (by exact ⟨rfl, hi⟩), setSlot_eq (by exact hlh), ok_bind]
    by_cases hone : ks.length - 1 = 0
    · have hks1 : ks = [a] := by
        obtain ⟨x, hx⟩ := List.length_eq_one_iff.mp (show ks.length = 1 by omega)
        rw [hx, List.mem_singleton] at hak
        rw [hx, hak]
      refine .inl ⟨hks1, ((t.hashes.withTotal h (ks.length - 1)).withSlots h
        (Function.update (t.hashes.slots h) i ys.head?)).freed h, ?_, fun g hg => ?_⟩
      · rw [if_pos (by simp [HashHeap.withSlots, HashHeap.withTotal, hone]),
          freeHash_eq (by exact hlh), ok_bind, setHashed_eq (by exact hlive a hak), ok_bind,
          setBucket_eq (by exact hlive a hak), ok_bind, setChild_eq (by exact hp)]
        rfl
      · exact ((HashHeap.withTotal_same _ _ hg).trans (HashHeap.withSlots_same _ _ hg)).trans
          (HashHeap.freed_same _ hg)
    · refine .inr ⟨fun he => hone (by simp [he]), ?_⟩
      rw [if_neg (by simpa [HashHeap.withSlots, HashHeap.withTotal] using hone)]
      rfl
  · refine .inr ⟨fun he => ?_, ?_⟩
    · cases xs with
      | nil => exact hxs rfl
      | cons x xs =>
        have hx := hmem x (by simp)
        have hnodup := ht.nodup i hi
        rw [he, List.mem_singleton] at hx
        simp [hchain, hx] at hnodup
    · rw [if_neg (by simpa [List.getLast?_eq_none_iff] using hxs), if_neg hxs]
      rfl

/-- Taking a node with nothing below it out of the tree. -/
theorem unlinkNode_spec (h : Shape types t.nodes t.hashes t.root (fun _ => False) word)
    (hk : Kid t.nodes word p a) (hnull : t.nodes.child a = .null) :
    ∃ (N' : NodeHeap) (H' : HashHeap) (e : Bool),
      t.unlinkNode p a = .ok (t.withHeaps N' H', e) ∧
      Shape types N' H' t.root (fun _ => False) (Function.update word a none) ∧
      Unlinked t.nodes N' p a e := by
  have hps := h.kid_parent_some hk
  have hlp := h.live p hps
  have hpa : p ≠ a := (h.parent_lt hk).ne
  have hmono : Shape types t.nodes t.hashes t.root (· = p) word := h.mono fun _ ho => ho.elim
  have hopen := hmono.detach (h.no_kid_of_null hk.1 id hnull) hk.2 rfl
  have hkid : ∀ c, Kid t.nodes (Function.update word a none) p c ↔ Kid t.nodes word p c ∧ c ≠ a :=
    kid_detached
  have hsome : ∀ b, (Function.update word a none b).isSome → b ≠ a := by
    rintro b hb rfl
    simp at hb
  cases h.rep p hps id with
  | null hc hk' => exact absurd hk (hk' a)
  | leaf l hc hh hk' => exact absurd hk (hk' a)
  -- the children are in one list
  | plain b ks hc hh hks hd hl hb =>
    obtain ⟨xs, ys, rfl⟩ := List.append_of_mem ((hks.mem a).mpr hk)
    have hlive : ∀ x ∈ xs ++ a :: ys, t.nodes.arena.live x = true := fun x hx =>
      h.live x ((hks.mem x).mp hx).1
    have hkids : Kids t.nodes (Function.update word a none) p (xs ++ ys) := by
      have he := hks.erase_detached (a := a)
      rwa [List.erase_append_right _ (fun hm => ?_), List.erase_cons_head] at he
      have hnodup := hks.nodup
      rw [List.nodup_middle, List.nodup_cons] at hnodup
      exact hnodup.1 (List.mem_append_left _ hm)
    refine ⟨_, _, _, unlinkNode_plain hc hd hl (hb a (by simp)) hlive hlp, ?_, ?_⟩
    · refine hopen.restore (a := p) ⟨fun _ => id, fun _ _ => ⟨rfl, rfl⟩,
        fun x _ hx => ⟨by simp [hx], rfl⟩, fun x hx hkx => ?_⟩ (fun x hx ho => hx ho)
        (fun g _ _ => .refl _ g) (fun l => ?_) ?_
      · have hp := unlinked_place hl (x := x) fun hm =>
          hkx ((hkid x).mpr ⟨(hks.mem x).mp hm, hsome x hx⟩)
        exact ⟨hp.next, hp.prev, hp.bucket⟩
      · simp only [Function.update_self]
        cases (xs ++ ys).head? <;> simp [Child.ofNode]
      · cases hys : (xs ++ ys).head? with
        | none =>
          -- the last child was taken out, and the node has none
          rw [List.head?_eq_none_iff] at hys
          refine .null (by simp [Child.ofNode]) fun c hkc => ?_
          have := (hkids.mem c).mpr hkc
          simp [hys] at this
        | some y =>
          exact .plain y (xs ++ ys) (by simp [Child.ofNode]) hh ⟨hkids.nodup, hkids.mem⟩ hys
            (linked_unlinked hl hks.nodup) fun c hc => hb c (by
              simp only [List.mem_append, List.mem_cons] at hc ⊢
              tauto)
    · refine ⟨rfl, fun x hx => by simp [hx], fun _ _ => rfl, ?_, ?_⟩
      · simp only [Function.update_self]
        cases (xs ++ ys).head? <;> rfl
      · simp only [Function.update_self, decide_eq_true_eq]
        rw [← List.head?_eq_none_iff]
        cases (xs ++ ys).head? <;> simp [Child.ofNode]
  -- the children are in a table
  | table g ks chain hc hh hks hne hlg hpg htotal ht =>
    have hak := (hks.mem a).mpr hk
    have hi := HashHeap.item_lt ht.size (hashField (t.nodes.data a))
    obtain ⟨xs, ys, hchain⟩ := List.append_of_mem ((ht.mem _ hi a).mpr ⟨hk, rfl⟩)
    have hlive : ∀ x ∈ ks, t.nodes.arena.live x = true := fun x hx =>
      h.live x ((hks.mem x).mp hx).1
    have hplace : ∀ x, (Function.update word a none x).isSome →
        ¬Kid t.nodes (Function.update word a none) p x →
        SamePlace t.nodes (t.nodes.unlinked a) x := fun x hx hkx => by
      refine unlinked_place (hchain ▸ ht.linked _ hi) fun hm => hkx ((hkid x).mpr ⟨?_, hsome x hx⟩)
      rw [← hchain] at hm
      exact ((ht.mem _ hi x).mp hm).1
    rcases unlinkNode_table hc hlg htotal hak
      (ht.congr (.refl _ _) hks.mem (fun _ _ => .refl _ _) fun _ _ => rfl) hi hchain hlive hlp with
      -- it was the only one, and the table goes with it
      ⟨hone, H', hok, hsame⟩ | ⟨hne', hok⟩
    · refine ⟨_, _, _, hok, ?_, rfl, fun x hx => by simp [hx], fun x hx => by simp [hx],
        by simp [Child.isLeaf], by simp⟩
      refine hopen.restore (a := p) ⟨fun _ => id, fun _ _ => ⟨rfl, rfl⟩,
        fun x hx hxp => ⟨by simp [hxp], by simp [hsome x hx]⟩, fun x hx hkx => ?_⟩
        (fun x hx ho => hx ho) (fun x hx _ => hsame x fun he => hx (by rw [he, hpg]))
        (fun l => by simp) (.null (by simp) fun c hkc => ?_)
      · have hp := hplace x hx hkx
        exact ⟨hp.next, hp.prev, by simp [hsome x hx]⟩
      · have hc := (hkid c).mp hkc
        have hm := (hks.mem c).mpr hc.1
        rw [hone, List.mem_singleton] at hm
        exact hc.2 hm
    · -- others are left, and only its bucket changes
      refine ⟨_, _, _, hok, ?_, rfl, fun _ _ => rfl, fun _ _ => rfl, ?_, ?_⟩
      · refine hopen.restore (a := p) ⟨fun _ => id, fun _ _ => ⟨rfl, rfl⟩, fun _ _ _ => ⟨rfl, rfl⟩,
          hplace⟩ (fun x hx ho => hx ho) (fun x hx _ => ?_) (fun l => ?_) ?_
        · have hxg : x ≠ g := fun he => hx (by rw [he, hpg])
          refine SameHash.trans ?_ (HashHeap.withTotal_same _ _ hxg)
          split_ifs
          exacts [HashHeap.withSlots_same _ _ hxg, .refl _ _]
        · change t.nodes.child p ≠ .leaf l
          simp [hc]
        · have hks' := hks.erase_detached (a := a)
          refine .table g (ks.erase a) _ hc hh ⟨hks'.nodup, hks'.mem⟩ (fun he => hne' ?_) ?_ ?_
            ?_ (Trie.table_withTotal.mpr
              ((ht.remove hi hchain).congr (.refl _ _) hkid (fun _ _ => .refl _ _) fun _ _ => rfl))
          · have hlen := List.length_erase_of_mem hak
            have hpos := List.length_pos_of_mem hak
            rw [he, List.length_nil] at hlen
            obtain ⟨x, rfl⟩ := List.length_eq_one_iff.mp (show ks.length = 1 by omega)
            rw [List.mem_singleton.mp hak]
          · split_ifs <;> exact hlg
          · split_ifs <;> exact hpg
          · simp [HashHeap.withTotal, List.length_erase_of_mem hak]
      · change (t.nodes.child p).isLeaf = false
        rw [hc]
        rfl
      · change t.nodes.child p = .null ↔ _
        simp [hc]

end Trie

section

variable {L : Type} [LeafOps L] {t : Trie L} {types : List FieldType} {P G : ℕ → Prop}
  {word : Words} {ls : List ℕ} {a p : ℕ}

/-- The trie after `delete` of a node. -/
def Trie.freed (t : Trie L) (a : ℕ) : Trie L :=
  t.withHeaps { t.nodes with arena := t.nodes.arena.free a } t.hashes

theorem Trie.freeNode_eq (ha : t.nodes.arena.live a = true) : t.freeNode a = .ok (t.freed a) := by
  rw [Trie.freeNode, Arena.check_of_live ha]; rfl

/-- Freeing an object outside the tree. -/
theorem Shape.freed {N : NodeHeap} {H : HashHeap} {root : ℕ} {O : ℕ → Prop}
    (h : Shape types N H root O word) (ha : word a = none) :
    Shape types { N with arena := N.arena.free a } H root O word := by
  refine h.frame (fun _ _ => ⟨rfl, rfl⟩) (fun b hb hl => ?_) (fun _ _ => ⟨rfl, rfl⟩)
    (fun _ _ => ⟨rfl, rfl, rfl⟩) fun g _ => .refl _ g
  have hba : b ≠ a := by
    rintro rfl
    simp [ha] at hb
  simpa [Arena.free_live, hba] using hl

theorem Tree.freed (h : Tree types t P (fun x => G x ∨ x = a) word ls) (ha : word a = none) :
    Tree types (t.freed a) P G word ls := by
  refine ⟨h.shape.freed ha, h.full, h.root_hashed, fun b hb => ?_, h.leafList, h.leafNodes⟩
  simp only [Trie.freed, Trie.withHeaps_nodes, Arena.free_live] at hb
  split_ifs at hb with hba
  exact (h.clean b hb).imp_right fun hg => hg.resolve_right hba

/-- The invariant after a node with nothing below it was taken out of the tree. -/
theorem Tree.unlinked {N' : NodeHeap} {H' : HashHeap} {e : Bool}
    (h : Tree types t (· = a) G word ls) (hk : Kid t.nodes word p a)
    (hnull : t.nodes.child a = .null)
    (hs : Shape types N' H' t.root (fun _ => False) (Function.update word a none))
    (hu : Trie.Unlinked t.nodes N' p a e) :
    Tree types (t.withHeaps N' H') (fun x => e = true ∧ x = p) (fun x => G x ∨ x = a)
      (Function.update word a none) ls := by
  have hsome : ∀ {b}, (Function.update word a none b).isSome → b ≠ a ∧ (word b).isSome := by
    intro b hb
    by_cases hba : b = a
    · simp [hba] at hb
    · exact ⟨hba, by rwa [Function.update_of_ne hba] at hb⟩
  have hra : t.root ≠ a := (h.shape.ne_root_of_parent hk.2).symm
  refine ⟨hs, fun b hb hbr hbp => ?_, fun hrp hn => ?_, fun b hb => ?_, h.leafList,
    fun l hl => ?_, fun b l hb hl => ?_⟩
  · obtain ⟨hba, hwb⟩ := hsome hb
    simp only [Trie.withHeaps_nodes]
    by_cases hb : b = p
    · rw [hb, Ne, hu.child_null]
      exact fun he => hbp ⟨he, hb⟩
    · rw [hu.child b hb]
      exact h.full b hwb hbr hba
  · simp only [Trie.withHeaps_nodes, Trie.withHeaps_root] at hrp hn ⊢
    have hne : t.root ≠ p := fun hrp' => hrp ⟨hu.child_null.mp (hrp' ▸ hn), hrp'⟩
    rw [hu.hashed _ hra]
    exact h.root_hashed hra (hu.child _ hne ▸ hn)
  · simp only [Trie.withHeaps_nodes, hu.arena] at hb
    by_cases hba : b = a
    · exact .inr (.inr hba)
    · rw [Function.update_of_ne hba]
      exact (h.clean b hb).imp_right .inl
  · obtain ⟨hw, hc⟩ := h.leafNodes.attached l hl
    have hna : t.leaves.node l ≠ a := fun he => by simp [he, hnull] at hc
    have hnp : t.leaves.node l ≠ p := fun he =>
      h.shape.no_kid_of_leaf (h.shape.kid_parent_some hk) id (he ▸ hc) a hk
    exact ⟨by simpa [hna] using hw, (hu.child _ hnp).trans hc⟩
  · simp only [Trie.withHeaps_nodes] at hl
    have hbp : b ≠ p := fun he => by
      have := hu.child_ne_leaf
      simp [← he, hl, Child.isLeaf] at this
    exact h.leafNodes.mem b l (hsome hb).2 (hu.child b hbp ▸ hl)

namespace Trie

/-- `delete_path` from a node with nothing below it takes it out of the tree, and with it every
node above that has nothing else below it. -/
theorem deletePath_spec (fuel : ℕ) (hfuel : a < fuel) (h : Tree types t (· = a) G word ls)
    (ha : (word a).isSome) (hnull : t.nodes.child a = .null) :
    ∃ (N' : NodeHeap) (H' : HashHeap) (word' : Words),
      deletePath fuel t a = .ok (t.withHeaps N' H') ∧
      Tree types (t.withHeaps N' H') (fun _ => False) G word' ls ∧
      (∀ x w, word' x = some w → word x = some w) ∧
      (∀ x, word x = none → N'.arena.live x = t.nodes.arena.live x) := by
  induction fuel generalizing t a word G with
  | zero => omega
  | succ fuel ih =>
    have hla := h.shape.live a ha
    rw [deletePath, Arena.check_of_live hla, ok_bind]
    by_cases har : a = t.root
    · subst har
      rw [if_pos rfl, setHashed_eq hla]
      have hk := h.shape.no_kid_of_null ha id hnull
      refine ⟨_, _, word, rfl, ⟨?_, fun b hb hbr _ => h.full b hb hbr hbr, fun _ _ => by simp,
        h.clean, h.leafList, h.leafNodes⟩, fun _ _ => id, fun _ _ => rfl⟩
      exact h.shape.relink (p := t.root) (fun _ _ => ⟨rfl, rfl⟩) (fun _ _ => id)
        (fun b _ hb _ => ⟨rfl, by simp [hb]⟩) (fun _ _ _ => ⟨rfl, rfl, rfl⟩)
        (fun g _ _ => .refl _ g) (fun _ _ => id) h.shape.leaf_typed
        fun _ _ => .null hnull hk
    · obtain ⟨p, hk⟩ := h.shape.exists_parent ha har
      have hlt := h.shape.parent_lt hk
      obtain ⟨N₁, H₁, e, hok, hs, hu⟩ := unlinkNode_spec h.shape hk hnull
      have htree := h.unlinked hk hnull hs hu
      rw [if_neg har, assert_pos hnull, ok_bind, hk.2, deref_some, ok_bind, hok, ok_bind]
      -- words are only taken away
      have hkeep : ∀ x w, Function.update word a none x = some w → word x = some w := by
        intro x w hx
        by_cases hxa : x = a
        · simp [hxa] at hx
        · rwa [Function.update_of_ne hxa] at hx
      have hnone : ∀ x, word x = none → Function.update word a none x = none := fun x hx => by
        by_cases hxa : x = a <;> simp [hxa, hx]
      have hne : ∀ x, word x = none → x ≠ a := by
        rintro x hx rfl
        simp [hx] at ha
      have hla' : N₁.arena.live a = true := by rw [hu.arena]; exact hla
      cases e with
      | false =>
        simp only [Bool.false_eq_true, if_false, pure_eq_ok, ok_bind]
        rw [freeNode_eq (by exact hla')]
        refine ⟨_, _, _, rfl, Tree.freed (htree.mono (by simp) fun _ => id) (by simp), hkeep, fun x hx => ?_⟩
        simp [Arena.free_live, hne x hx, hu.arena]
      | true =>
        simp only [if_true]
        obtain ⟨N₂, H₂, word₂, hok₂, htree₂, hkeep₂, hlive₂⟩ := ih (t := t.withHeaps N₁ H₁) (a := p)
          (by omega) (htree.mono (by simp) fun _ => id)
          (by simpa [hlt.ne] using h.shape.kid_parent_some hk) (hu.child_null.mpr rfl)
        simp only [withHeaps_withHeaps, withHeaps_nodes] at hok₂ htree₂ hlive₂
        rw [hok₂, ok_bind, freeNode_eq (by
          rw [withHeaps_nodes, hlive₂ a (by simp)]
          exact hla')]
        refine ⟨_, _, word₂, rfl, htree₂.freed ?_, fun x w hx => hkeep x w (hkeep₂ x w hx),
          fun x hx => ?_⟩
        · rw [Option.eq_none_iff_forall_ne_some]
          intro w hw
          simpa using hkeep₂ a w hw
        · simp [Arena.free_live, hne x hx, hlive₂ x (hnone x hx), hu.arena]

end Trie

end

end Meld.Db
