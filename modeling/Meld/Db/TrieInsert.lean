import Meld.Db.TrieSearch

/-!
# Inserting below a node

What `trie_node::insert`, `makeRoom` and the loop over the rest of the stack do to the shape of
the tree: they add one node for each level, give it the path of its parent extended by the
stored field, and leave every other path alone. The last new node has no children and no leaf
yet.
-/

namespace Meld.Db

open Meld.Lib Meld.Vm

/-- `N'` has the children of `a` stored in another way, and is otherwise `N`. -/
structure Restored (N N' : NodeHeap) (word : Words) (a : ℕ) : Prop where
  live : ∀ b, N.arena.live b = true → N'.arena.live b = true
  core : ∀ b, (word b).isSome → N'.parent b = N.parent b ∧ N'.data b = N.data b
  child : ∀ b, (word b).isSome → b ≠ a → N'.child b = N.child b ∧ N'.hashed b = N.hashed b
  place : ∀ b, (word b).isSome → ¬Kid N word a b → SamePlace N N' b

section

variable {types : List FieldType} {N N' : NodeHeap} {H H' : HashHeap} {root a c : ℕ}
  {O O' : ℕ → Prop} {word : Words} {u : List TupleField}

/-- Storing the children of `a` in another way; afterwards `a` is closed. -/
theorem Shape.restore (h : Shape types N H root O word) (hr : Restored N N' word a)
    (hO : ∀ b, b ≠ a → O b → O' b)
    (hhash : ∀ g, H.parent g ≠ a → H.arena.live g = true → SameHash H H' g)
    (hleaf : ∀ l, N'.child a ≠ .leaf l) (hrep : NodeRep N' H' word a) :
    Shape types N' H' root O' word := by
  refine h.relink (p := a) hr.core (fun b _ => hr.live b) (fun b hb hba _ => hr.child b hb hba)
    (fun b hb hp => hr.place b hb fun hk => hp hk.2) hhash (fun b hba hO' ho => hO' (hO b hba ho))
    (fun b w l hw hl => ?_) fun _ _ => hrep
  by_cases hba : b = a
  · exact absurd (hba ▸ hl) (hleaf l)
  · exact h.leaf_typed b w l hw ((hr.child b (Option.isSome_of_eq_some hw) hba).1 ▸ hl)

/-- The children of `a` and a new node `c`, stored in another way. -/
theorem Shape.grow (h : Shape types N H root O word) (hu : word a = some u) (hc : word c = none)
    (hparent : N.parent c = some a) (hlt : a < c) (hlive : N.arena.live c = true)
    (hnull : N.child c = .null)
    (htyped : ∃ τ ρ, restTypes types u = τ :: ρ ∧ τ.Fits (N.data c))
    (hdist : ∀ b, Kid N word a b → (N.data b).sameAs (N.data c) = false)
    (hr : Restored N N' (Function.update word c (some (u ++ [N.data c]))) a)
    (hhash : ∀ g, H.parent g ≠ a → H.arena.live g = true → SameHash H H' g)
    (hleaf : ∀ l, N'.child a ≠ .leaf l)
    (hrep : NodeRep N' H' (Function.update word c (some (u ++ [N.data c]))) a) :
    Shape types N' H' root O (Function.update word c (some (u ++ [N.data c]))) := by
  have hmono : Shape types N H root (fun b => O b ∨ b = a ∨ b = c) word := h.mono fun b => .inl
  have hopen := hmono.attach hc hu (.inr (.inl rfl)) (.inr (.inr rfl)) hparent hlt hlive (fun l => by simp [hnull]) htyped hdist
  have hkid : ∀ b, ¬Kid N (Function.update word c (some (u ++ [N.data c]))) c b := by
    intro b hk
    obtain ⟨w, -, hw⟩ := hopen.kid_word hk
    have hbc : b ≠ c := by
      rintro rfl
      exact absurd (hopen.parent_lt hk) (lt_irrefl _)
    have hkb : Kid N word c b := ⟨by simpa [hbc] using hk.1, hk.2⟩
    exact h.no_kid hc hkb
  have hclosed : Shape types N H root (fun b => O b ∨ b = a)
      (Function.update word c (some (u ++ [N.data c]))) :=
    hopen.close (p := c) (fun b hb ho => by tauto) (.null hnull hkid)
  exact hclosed.restore hr (fun b hba ho => ho.resolve_right hba) hhash hleaf hrep

end

namespace Trie

variable {L : Type} [LeafOps L] {t : Trie L} {types : List FieldType} {O : ℕ → Prop}
  {word : Words} {a : ℕ} {u : List TupleField} {v : Value} {ρ : List FieldType}

@[simp] theorem newNode_hashes (t : Trie L) (f : TupleField) (p : Option ℕ) :
    (t.newNode f p).hashes = t.hashes := rfl

/-- What an insertion below `a` leaves of the nodes: the new node has neither children nor a
leaf, and `a` has children. -/
structure Inserted (N N' : NodeHeap) (word : Words) (a : ℕ) : Prop where
  arena : N'.arena = N.arena.alloc
  child : ∀ b, (word b).isSome → b ≠ a → N'.child b = N.child b
  hashed : ∀ b, (word b).isSome → b ≠ a → N'.hashed b = N.hashed b
  child_ne_null : N'.child a ≠ .null
  child_ne_leaf : (N'.child a).isLeaf = false
  new_child : N'.child N.arena.next = .null
  new_hashed : N'.hashed N.arena.next = false

/-- The node heap after `c`, a new node, became the first of the children `ks` of `a`. -/
theorem plain_push {N : NodeHeap} {H : HashHeap} {c : ℕ} {ks : List ℕ} {word' : Words}
    (hks : Kids N word a ks) (hl : Linked N.next N.prev none ks)
    (hb : ∀ x ∈ ks, N.bucket x = none) (hh : N.hashed a = false) (hck : c ∉ ks)
    (hkid : ∀ b, Kid N word' a b ↔ b = c ∨ Kid N word a b) :
    Restored N { pushNode N c ks.head? none with
      child := Function.update N.child a (.node c) } word' a ∧
    NodeRep { pushNode N c ks.head? none with
      child := Function.update N.child a (.node c) } H word' a := by
  constructor
  · refine ⟨fun _ => id, fun _ _ => ⟨rfl, rfl⟩, fun b _ hb => ⟨by simp [hb], rfl⟩, fun b _ hk => ?_⟩
    rw [hkid, ← hks.mem, not_or] at hk
    have hp := (pushNode_relinked (N := N) none (S := fun x => x = c ∨ x ∈ ks) (.inl rfl)
      fun o ho => .inr (List.mem_of_mem_head? ho)).place b (by simpa using hk)
    exact ⟨hp.next, hp.prev, hp.bucket⟩
  · refine .plain c (c :: ks) (by simp) hh ⟨List.nodup_cons.mpr ⟨hck, hks.nodup⟩, fun b => ?_⟩ rfl
      ?_ fun x hx => ?_
    · rw [List.mem_cons, hks.mem]
      exact (hkid b).symm
    · have hne : ∀ x ∈ ks, x ≠ c := fun x hx he => hck (he ▸ hx)
      refine hl.pushFront hks.nodup ?_ (by simp [pushNode]) (fun x hx => ?_) fun x hx => ?_
      · have hc : ks.head? ≠ some c := fun he => hck (List.mem_of_mem_head? he)
        simp [pushNode, updateIfSome, hc]
      · simp [pushNode, hne x hx]
      · simp [pushNode, updateIfSome, hne x hx]
    · rcases List.mem_cons.mp hx with rfl | hx
      · simp [pushNode]
      · have hne : x ≠ c := fun he => hck (he ▸ hx)
        simpa [pushNode, hne] using hb x hx

/-- `trie_node::insert` adds a child with the stored form of the value. -/
theorem insert_spec (h : Shape types t.nodes t.hashes t.root O word) (hu : word a = some u)
    (hOa : ¬O a) (hleaf : (t.nodes.child a).isLeaf = false)
    (hnull : t.nodes.child a = .null → t.nodes.hashed a = false)
    (htypes : restTypes types u = v.type :: ρ)
    (hmiss : ∀ b, Kid t.nodes word a b → (t.nodes.data b).sameAs v.store = false) :
    ∃ (N' : NodeHeap) (H' : HashHeap),
      t.insert a v = .ok (t.withHeaps N' H', t.nodes.arena.next) ∧
      Shape types N' H' t.root O
        (Function.update word t.nodes.arena.next (some (u ++ [v.store]))) ∧
      Inserted t.nodes N' word a := by
  set c := t.nodes.arena.next with hc
  set N := (t.newNode v.store (some a)).nodes with hN
  set word' := Function.update word c (some (u ++ [v.store])) with hword'
  have hfresh : ∀ b, (word b).isSome → b ≠ c := fun b hb =>
    (Arena.lt_next (h.live b hb)).ne
  have hwc : word c = none := by
    by_contra hn
    exact hfresh c (Option.isSome_iff_ne_none.mpr hn) rfl
  have hua := Option.isSome_of_eq_some hu
  have hac : a < c := Arena.lt_next (h.live a hua)
  have hfields : N.parent c = some a ∧ N.data c = v.store ∧ N.child c = .null ∧
      N.hashed c = false ∧ N.bucket c = none ∧ N.arena.live c = true := by
    simp [hN, newNode, ← hc, Arena.alloc_live]
  obtain ⟨hparent, hdata, hchild, hhashed, hbucket, hlive⟩ := hfields
  have hold : ∀ b, (word b).isSome → N.child b = t.nodes.child b ∧
      N.hashed b = t.nodes.hashed b := fun b hb => by simp [hN, newNode, hfresh b hb, ← hc]
  -- the new node is not part of the tree yet
  have hN₁ : Shape types N t.hashes t.root O word := by
    refine h.frame (fun b hb => ?_) (fun b _ hl => Arena.alloc_live_of_live hl) hold
      (fun b hb => ?_) fun g _ => .refl _ g <;>
      simp [hN, newNode, SamePlace.mk, hfresh b hb, ← hc]
  have hkid : ∀ b, Kid N word' a b ↔ b = c ∨ Kid N word a b := by
    intro b
    by_cases hb : b = c
    · simp [hword', Kid, hb, hparent]
    · simp [hword', Kid, hb]
  -- no child has the value, so that the new one is told apart from all of them
  have hdist : ∀ b, Kid N word a b → (N.data b).sameAs (N.data c) = false := by
    intro b hk
    have hbc : b ≠ c := hfresh b hk.1
    have hkb : Kid t.nodes word a b := by simpa [hN, newNode, Kid, hbc, ← hc] using hk
    simpa [hdata, hN, newNode, hbc, ← hc] using hmiss b hkb
  suffices hsuff : ∃ (N' : NodeHeap) (H' : HashHeap),
      t.insert a v = .ok (t.withHeaps N' H', c) ∧ Restored N N' word' a ∧
      (∀ g, t.hashes.parent g ≠ a → t.hashes.arena.live g = true → SameHash t.hashes H' g) ∧
      N'.arena = N.arena ∧ N'.child a ≠ .null ∧ (N'.child a).isLeaf = false ∧
      NodeRep N' H' word' a by
    obtain ⟨N', H', hok, hr, hhash, harena, hn, hl, hrep⟩ := hsuff
    have hcw : (word' c).isSome := by simp [hword']
    have hca := hr.child c hcw hac.ne'
    have hchild' : ∀ b, (word b).isSome → b ≠ a →
        N'.child b = t.nodes.child b ∧ N'.hashed b = t.nodes.hashed b := fun b hb hba => by
      obtain ⟨h₁, h₂⟩ := hr.child b (by simpa [hword', hfresh b hb] using hb) hba
      exact ⟨h₁.trans (hold b hb).1, h₂.trans (hold b hb).2⟩
    refine ⟨N', H', hok, ?_, harena, fun b hb hba => (hchild' b hb hba).1,
      fun b hb hba => (hchild' b hb hba).2, hn, hl, hca.1.trans hchild, hca.2.trans hhashed⟩
    rw [hword', ← hdata] at hr hrep ⊢
    exact hN₁.grow hu hwc hparent hac hlive hchild ⟨v.type, ρ, htypes, hdata ▸ Value.fits_store⟩
      hdist hr hhash (fun l hl' => by simp [hl', Child.isLeaf] at hl) hrep
  have hrep := hN₁.rep a hua hOa
  obtain ⟨hca, hha⟩ := hold a hua
  have hck : N.arena.check a = .ok () := Arena.check_of_live (hN₁.live a hua)
  -- the children are in a table, whose total goes up before the node is put into its bucket
  by_cases hh : t.nodes.hashed a = true
  · cases hrep with
    | null hcn => simp [hh] at hnull; simp [← hca, hcn] at hnull
    | plain b ks hcb hhb => simp [hha, hh] at hhb
    | leaf l hcl => simp [← hca, hcl, Child.isLeaf] at hleaf
    | table g ks chain hcg hhg hks hne hlg hpg htotal ht =>
      obtain ⟨N', s, chain', hok, hrel, ht'⟩ :=
        insertField_spec (t := (t.newNode v.store (some a)).withHeaps N
          (t.hashes.withTotal g (t.hashes.total g + 1))) (c := c) (table_withTotal.mpr ht) hlg hlive
          (fun x hx => hN₁.live x hx.1) fun hk => hfresh c hk.1 rfl
      simp only [withHeaps_hashes, withHeaps_nodes] at hok hrel ht'
      have hkid' : ∀ b, b = c ∨ Kid N word a b ↔ Kid N' word' a b := fun b => by
        rw [← hkid, Kid, Kid, hrel.parent]
      simp only [hkid'] at hrel ht'
      refine ⟨N', (t.hashes.withTotal g (t.hashes.total g + 1)).withSlots g s, ?_,
        ⟨fun b hb => hrel.arena ▸ hb, fun b _ => ⟨by rw [hrel.parent],
        by rw [hrel.data]⟩, fun b _ _ => ⟨by rw [hrel.child], by rw [hrel.hashed]⟩, fun b _ hk =>
        hrel.place b fun hk' => hk ((hkid b).mpr ((hkid' b).mpr hk'))⟩, fun x hxp hxl => ?_,
        hrel.arena, by rw [hrel.child, hcg]; simp, by rw [hrel.child, hcg]; rfl,
        .table g (c :: ks) chain' (by rw [hrel.child, hcg]) (by rw [hrel.hashed, hhg])
        ⟨List.nodup_cons.mpr ⟨fun hm => hfresh c ((hks.mem c).mp hm).1 rfl, hks.nodup⟩, fun b => ?_⟩
        (by simp) hlg hpg ?_ ht'⟩
      · simp only [insert, ← hN, ← hc, hck, ok_bind, hca, assert_pos hleaf, hha, hh, if_true]
        rw [assert_pos (by simp [← hca, hcg]), ok_bind]
        have hget : (t.newNode v.store (some a)).getHash a = .ok g := by
          simp [getHash, ← hN, hck, hcg, Arena.check_of_live hlg]
        rw [hget, ok_bind, setTotal_eq (by exact hlg), ok_bind]
        rw [hdata] at hok
        simp only [newNode_hashes, ← hN, hok, ok_bind]
        rw [assert_pos (by rw [withHeaps_nodes, hrel.parent, hparent])]
        rfl
      · have hxg : x ≠ g := fun he => hxp (by rw [he, hpg])
        exact (HashHeap.withTotal_same _ _ hxg).trans (HashHeap.withSlots_same _ _ hxg)
      · rw [List.mem_cons, hks.mem]
        exact hkid' b
      · simp [HashHeap.withSlots, HashHeap.withTotal, htotal]
  · -- the children are in one list, and the new one goes to its front
    rw [Bool.not_eq_true] at hh
    obtain ⟨ks, hks, hd, hl, hb⟩ : ∃ ks, Kids N word a ks ∧
        (t.newNode v.store (some a)).nodeChild a = .ok ks.head? ∧
        Linked N.next N.prev none ks ∧ ∀ x ∈ ks, N.bucket x = none := by
      cases hrep with
      | null hnull hk =>
        refine ⟨[], ⟨List.nodup_nil, fun c => by simpa using hk c⟩, ?_, trivial, by simp⟩
        simp [nodeChild, ← hN, hck, hnull]
      | plain b ks hcb _ hks hd hl hb =>
        exact ⟨ks, hks, by simp [nodeChild, ← hN, hck, hcb, hd], hl, hb⟩
      | table g ks chain _ hhash => simp [hha, hh] at hhash
      | leaf l hcl => simp [← hca, hcl, Child.isLeaf] at hleaf
    have hck' : c ∉ ks := fun hm => hfresh c ((hks.mem c).mp hm).1 rfl
    obtain ⟨hr, hrep'⟩ := plain_push (H := t.hashes) hks hl hb (hha.trans hh) hck' hkid
    refine ⟨_, t.hashes, ?_, hr, fun g _ _ => .refl _ g, rfl, by simp, by simp [Child.isLeaf], hrep'⟩
    have hlive' : ∀ o, ks.head? = some o → N.arena.live o = true := fun o ho =>
      hN₁.live o ((hks.mem o).mp (List.mem_of_mem_head? ho)).1
    simp only [insert, ← hN, ← hc, hck, ok_bind, hca, assert_pos hleaf, hha, hh,
      Bool.false_eq_true, if_false, hd]
    rw [setNext_eq (by exact hlive), ok_bind, setPrev_eq (by exact hlive), ok_bind,
      setIfSome_setPrev_eq (by exact hlive'), ok_bind,
      setChild_eq (by exact hN₁.live a hua), ok_bind, assert_pos (by exact hparent)]
    have hbk : Function.update N.bucket c none = N.bucket := by
      rw [← hbucket, Function.update_eq_self]
    simp only [ok_bind, pure_eq_ok, withHeaps, pushNode, hbk]
    rfl

/-- What storing the children of `a` in another way leaves of the nodes. -/
structure Roomier (N N' : NodeHeap) (a : ℕ) : Prop where
  arena : N'.arena = N.arena
  parent : N'.parent = N.parent
  data : N'.data = N.data
  child : ∀ b, b ≠ a → N'.child b = N.child b
  hashed : ∀ b, b ≠ a → N'.hashed b = N.hashed b
  child_ne_leaf : (N'.child a).isLeaf = false
  hashed_of_null : N'.child a = .null → N'.hashed a = false

/-- The children of a node are put into a table, or into a larger one, when they are many. -/
theorem makeRoom_spec (h : Shape types t.nodes t.hashes t.root O word) (hua : (word a).isSome)
    (hOa : ¬O a) (hleaf : (t.nodes.child a).isLeaf = false)
    (hnull : t.nodes.child a = .null → t.nodes.hashed a = false) (type : FieldType) (count : ℕ)
    (hcount : t.nodes.child a = .null → count ≤ 1) :
    ∃ (N' : NodeHeap) (H' : HashHeap), t.makeRoom a type count = .ok (t.withHeaps N' H') ∧
      Shape types N' H' t.root O word ∧ Roomier t.nodes N' a := by
  have hrep := h.rep a hua hOa
  have hlive := h.live a hua
  by_cases hmany : hashListThreshold < count ∧ t.nodes.hashed a = false
  · -- the children are in one list
    -- a node without children has room
    have hne : t.nodes.child a ≠ .null := fun hc => by
      have := hcount hc
      simp only [hashListThreshold] at hmany
      omega
    cases hrep with
    | null hc => exact absurd hc hne
    | table g ks chain _ hh => simp [hmany.2] at hh
    | leaf l hc => simp [hc, Child.isLeaf] at hleaf
    | plain b ks hc hh hks hd hl hb =>
      -- the list of children becomes a table
      obtain ⟨N', H', chain', hok, hrel, hlg, hpg, htotal, hsame, ht⟩ :=
        convertHash_spec (t := t) type hlive hc hh hks.nodup hd hl
          fun x hx => h.live x ((hks.mem x).mp hx).1
      have hkids : Kids N' word a ks := ⟨hks.nodup, fun c => by
        rw [hks.mem, Kid, Kid, hrel.parent]⟩
      refine ⟨{ N' with
          child := Function.update N'.child a (.hash t.hashes.arena.next)
          hashed := Function.update N'.hashed a true }, H', ?_,
        h.restore (a := a) ⟨fun b hb => by rw [hrel.arena]; exact hb,
          fun b _ => ⟨by rw [hrel.parent], by rw [hrel.data]⟩,
          fun b _ hba => ⟨by simp [hba, hrel.child], by simp [hba, hrel.hashed]⟩,
          fun b _ hk => ?_⟩ (fun _ _ => id) (fun g _ => hsame g) (fun l => by simp) ?_,
        hrel.arena, hrel.parent, hrel.data, fun b hba => by simp [hba, hrel.child],
        fun b hba => by simp [hba, hrel.hashed], by simp [Child.isLeaf], by simp⟩
      · rw [makeRoom, if_pos hmany, hok, ok_bind, assert_pos (by simp)]
        rfl
      · have hp := hrel.place b fun hm => hk ((hks.mem b).mp hm)
        exact ⟨hp.next, hp.prev, hp.bucket⟩
      · refine .table _ ks chain' (by simp) (by simp) ⟨hks.nodup, hkids.mem⟩
          (by intro he; simp [he] at hd) hlg hpg htotal ?_
        exact ht.congr (.refl _ _) (fun c => (hkids.mem c).symm) (fun _ _ => ⟨rfl, rfl, rfl⟩)
          fun _ _ => rfl
  · rw [makeRoom, if_neg hmany]
    by_cases hfull : t.nodes.hashed a = true ∧ hashMaxNodesPerBucket < count
    · rw [if_pos hfull]
      cases hrep with
      | null hc => simp [hnull hc] at hfull
      | plain b ks hc hh => simp [hh] at hfull
      | leaf l hc => simp [hc, Child.isLeaf] at hleaf
      | table g ks chain hc hh hks hne hlg hpg htotal ht =>
        -- the table gets more buckets
        obtain ⟨N', H', chain', hok, hrel, harena, hparent, htotal', hsame, ht'⟩ :=
          expand_spec ht hlg fun x hx => h.live x hx.1
        -- no node gets another parent
        have hkid : ∀ c, Kid N' word a c ↔ Kid t.nodes word a c := fun c => by
          rw [Kid, Kid, hrel.parent]
        refine ⟨N', H', ?_, h.restore (a := a) ⟨fun b hb => by rw [hrel.arena]; exact hb,
            fun b _ => ⟨by rw [hrel.parent], by rw [hrel.data]⟩,
            fun b _ _ => ⟨by rw [hrel.child], by rw [hrel.hashed]⟩,
            fun b _ hk => hrel.place b hk⟩ (fun _ _ => id)
            (fun x hx _ => hsame x fun he => hx (by rw [he, hpg])) (fun l => by simp [hrel.child, hc])
            ?_, hrel.arena, hrel.parent, hrel.data, fun b _ => by rw [hrel.child],
          fun b _ => by rw [hrel.hashed], by rw [hrel.child, hc]; rfl, by simp [hrel.child, hc]⟩
        · simp [getHash, Arena.check_of_live hlive, hc, Arena.check_of_live hlg, hok]
        · refine .table g ks chain' (by rw [hrel.child, hc]) (by rw [hrel.hashed, hh])
            ⟨hks.nodup, fun c => by rw [hks.mem, hkid]⟩ hne (by rw [harena]; exact hlg)
            (by rw [hparent]; exact hpg) (by rw [htotal']; exact htotal) ?_
          exact ht'.congr (.refl _ _) hkid (fun _ _ => .refl _ _) fun _ _ => rfl
    · rw [if_neg hfull]
      exact ⟨t.nodes, t.hashes, rfl, h, rfl, rfl, rfl, fun _ _ => rfl, fun _ _ => rfl, hleaf, hnull⟩

/-- New nodes below `a`, down to `b`, which has neither children nor a leaf. Old nodes keep
their paths and, apart from `a`, what they point to. -/
structure Extended (N N' : NodeHeap) (word word' : Words) (a b : ℕ) : Prop where
  keep_word : ∀ x, (word x).isSome → word' x = word x
  keep_child : ∀ x, (word x).isSome → x ≠ a → N'.child x = N.child x
  keep_hashed : ∀ x, (word x).isSome → x ≠ a → N'.hashed x = N.hashed x
  base : (N'.child a).isLeaf = false ∧ (a = b ∨ N'.child a ≠ .null)
  new : ∀ x, (word' x).isSome →
    (word x).isSome ∨ (N'.child x).isLeaf = false ∧ (x = b ∨ N'.child x ≠ .null)
  child_last : N'.child b = .null
  hashed_last : N'.hashed b = false
  live : ∀ x, N'.arena.live x = true → N.arena.live x = true ∨ (word' x).isSome

namespace Extended

variable {N N₁ N' : NodeHeap} {word₁ word' : Words} {b c : ℕ}

theorem refl (hnull : N.child a = .null) (hhash : N.hashed a = false) :
    Extended N N word word a a :=
  ⟨fun _ _ => rfl, fun _ _ _ => rfl, fun _ _ _ => rfl, by simp [hnull, Child.isLeaf],
    fun _ hx => .inl hx, hnull, hhash, fun _ hx => .inl hx⟩

/-- Making room first. -/
theorem of_roomier (hr : Roomier N N₁ a) (he : Extended N₁ N' word word' a b) :
    Extended N N' word word' a b :=
  { he with
    keep_child := fun x hx hxa => (he.keep_child x hx hxa).trans (hr.child x hxa)
    keep_hashed := fun x hx hxa => (he.keep_hashed x hx hxa).trans (hr.hashed x hxa)
    live := fun x hx => (he.live x hx).imp_left fun h => hr.arena ▸ h }

/-- Inserting one node first. -/
theorem of_inserted (hi : Inserted N N₁ word a) {w : List TupleField} (hua : (word a).isSome)
    (hfresh : ∀ x, (word x).isSome → x ≠ N.arena.next)
    (he : Extended N₁ N' (Function.update word N.arena.next (some w)) word' N.arena.next b) :
    Extended N N' word word' a b := by
  have hold : ∀ x, (word x).isSome →
      (Function.update word N.arena.next (some w) x).isSome := fun x hx => by
    rwa [Function.update_of_ne (hfresh x hx)]
  have hchild_a := he.keep_child a (hold a hua) (hfresh a hua)
  refine ⟨fun x hx => ?_, fun x hx hxa => ?_, fun x hx hxa => ?_, ⟨?_, .inr ?_⟩, fun x hx => ?_,
    he.child_last, he.hashed_last, fun x hx => ?_⟩
  · rw [he.keep_word x (hold x hx), Function.update_of_ne (hfresh x hx)]
  · exact (he.keep_child x (hold x hx) (hfresh x hx)).trans (hi.child x hx hxa)
  · exact (he.keep_hashed x (hold x hx) (hfresh x hx)).trans (hi.hashed x hx hxa)
  · rw [hchild_a]
    exact hi.child_ne_leaf
  · rw [hchild_a]
    exact hi.child_ne_null
  · rcases he.new x hx with hx' | hx'
    · by_cases hxc : x = N.arena.next
      · exact .inr (hxc ▸ he.base)
      · rw [Function.update_of_ne hxc] at hx'
        exact .inl hx'
    · exact .inr hx'
  · rcases he.live x hx with hx' | hx'
    · rw [hi.arena, Arena.alloc_live] at hx'
      split_ifs at hx' with hxc
      · refine .inr ?_
        rw [hxc, he.keep_word _ (by simp)]
        simp
      · exact .inl hx'
    · exact .inr hx'

end Extended

/-- The loop over the rest of the stack adds one node for each level. -/
theorem insertRest_spec (fuel : ℕ) (vs : List Value) (hfuel : (levels vs).length ≤ fuel)
    (hvs : ∀ v ∈ vs, v.Ok) (h : Shape types t.nodes t.hashes t.root O word)
    (hu : word a = some u) (hO : ∀ x, ¬O x) (hnull : t.nodes.child a = .null)
    (hhash : t.nodes.hashed a = false) (htypes : restTypes types u = vs.map Value.type) :
    ∃ (N' : NodeHeap) (H' : HashHeap) (word' : Words) (b : ℕ),
      insertRest fuel t a vs = .ok (t.withHeaps N' H', b) ∧
      Shape types N' H' t.root O word' ∧ word' b = some (u ++ levels vs) ∧
      Extended t.nodes N' word word' a b := by
  induction fuel generalizing t word a u vs with
  | zero =>
    cases vs with
    | nil => exact ⟨t.nodes, t.hashes, word, a, rfl, h, by simpa using hu, .refl hnull hhash⟩
    | cons v vs => simp [levels_cons] at hfuel
  | succ fuel ih =>
    cases vs with
    | nil => exact ⟨t.nodes, t.hashes, word, a, rfl, h, by simpa using hu, .refl hnull hhash⟩
    | cons v vs =>
      have hua := Option.isSome_of_eq_some hu
      have hv : v.Ok := hvs v (by simp)
      have hleaf : (t.nodes.child a).isLeaf = false := by simp [hnull, Child.isLeaf]
      obtain ⟨N₁, H₁, hok, h₁, hi⟩ := insert_spec (ρ := vs.map Value.type) h hu (hO a) hleaf
        (fun _ => hhash) htypes (fun b hk => by
          cases h.rep a hua (hO a) with
          | null _ hk' => exact absurd hk (hk' b)
          | plain b ks hc => simp [hnull] at hc
          | table g ks chain hc => simp [hnull] at hc
          | leaf l hc => simp [hnull] at hc)
      obtain ⟨N', H', word', b, hok', h', hb, he⟩ :=
        ih (t := t.withHeaps N₁ H₁) (u := u ++ [v.store]) (v.pushed ++ vs) (by simpa [levels_cons] using hfuel)
          (fun w hw => (List.mem_append.mp hw).elim (Value.pushed_ok hv w)
            fun hw => hvs w (by simp [hw]))
          h₁ (by simp) hi.new_child hi.new_hashed
          (by rw [restTypes_append, htypes, List.map_cons, descend_store hv, List.map_append])
      refine ⟨N', H', word', b, ?_, h', by simpa [levels_cons] using hb,
        .of_inserted hi hua (fun x hx => (Arena.lt_next (h.live x hx)).ne) he⟩
      rw [insertRest, Arena.check_of_live (h.live a hua), ok_bind, assert_pos hleaf, ok_bind, hok,
        ok_bind]
      exact hok'

end Trie

end Meld.Db
