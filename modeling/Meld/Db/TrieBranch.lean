import Meld.Db.TrieRemove

/-!
# Removing what is below a node

`delete_branch` frees every node below a node and the leaves found there, and clears the child
pointers on the way; the stored fields and the pointers between nodes stay as they were, also in
what is freed. `Pruned` says this for a set `R` of freed nodes and a set `S` of nodes whose child
pointers were cleared, and the loops over the children of a node put such sets together.
-/

namespace Meld.Db

open Meld.Lib Meld.Vm

/-- `t'` has the fields of the nodes, tables and leaves of `t`, except for the child pointers and
the neighbours of leaves. -/
structure SameFields {L : Type} [LeafOps L] (t t' : Trie L) : Prop where
  parent : t'.nodes.parent = t.nodes.parent
  next : t'.nodes.next = t.nodes.next
  prev : t'.nodes.prev = t.nodes.prev
  data : t'.nodes.data = t.nodes.data
  hashed : t'.nodes.hashed = t.nodes.hashed
  bucket : t'.nodes.bucket = t.nodes.bucket
  bound : t'.nodes.arena.next = t.nodes.arena.next
  hashes : t'.hashes = t.hashes
  node : t'.leaves.node = t.leaves.node
  payload : t'.leaves.payload = t.leaves.payload
  root : t'.root = t.root
  references : t'.numberOfReferences = t.numberOfReferences

theorem SameFields.refl {L : Type} [LeafOps L] (t : Trie L) : SameFields t t :=
  ⟨rfl, rfl, rfl, rfl, rfl, rfl, rfl, rfl, rfl, rfl, rfl, rfl⟩

theorem SameFields.trans {L : Type} [LeafOps L] {t t' t'' : Trie L} (h : SameFields t t')
    (h' : SameFields t' t'') : SameFields t t'' :=
  ⟨h'.parent.trans h.parent, h'.next.trans h.next, h'.prev.trans h.prev, h'.data.trans h.data,
    h'.hashed.trans h.hashed, h'.bucket.trans h.bucket, h'.bound.trans h.bound,
    h'.hashes.trans h.hashes, h'.node.trans h.node, h'.payload.trans h.payload,
    h'.root.trans h.root, h'.references.trans h.references⟩

/-- The sum of the counts of leaves. -/
def totalCount {L : Type} [LeafOps L] (V : LeafHeap L) (ls : List ℕ) : ℤ :=
  (ls.map fun l => LeafOps.getCount (V.payload l)).sum

/-- The trie `t'` is `t` without the nodes `R` of its tree; the child pointers of the nodes `S`
are cleared, and their leaves, with the counts `n` in all, are gone. -/
structure Pruned {L : Type} [LeafOps L] (types : List FieldType) (O : ℕ → Prop) (t t' : Trie L)
    (word word' : Words) (ls ls' : List ℕ) (R S : ℕ → Prop) (n : ℤ) : Prop where
  cut : Cut types t' O word' ls'
  same : SameFields t t'
  gone : ∀ b, (word b).isSome → R b → word' b = none
  keep : ∀ b, (word b).isSome → ¬R b → word' b = word b
  outside : ∀ b, word b = none → word' b = none
  live : ∀ b, t'.nodes.arena.live b = true →
    t.nodes.arena.live b = true ∧ ((word b).isSome → ¬R b)
  child : ∀ b, (word b).isSome → ¬S b → t'.nodes.child b = t.nodes.child b
  mem : ∀ l, l ∈ ls' ↔ l ∈ ls ∧ ¬S (t.leaves.node l)
  count : totalCount t.leaves ls = totalCount t.leaves ls' + n

section

variable {L : Type} [LeafOps L] {types : List FieldType} {O R S R' S' : ℕ → Prop}
  {t t' t'' : Trie L} {word word' word'' : Words} {ls ls' ls'' : List ℕ} {n m : ℤ} {a b c k p : ℕ}

namespace Pruned

theorem refl (h : Cut types t O word ls) (hR : ∀ b, ¬R b) (hS : ∀ b, ¬S b) :
    Pruned types O t t word word ls ls R S 0 where
  cut := h
  same := .refl t
  gone b _ hb := absurd hb (hR b)
  keep _ _ _ := rfl
  outside _ hb := hb
  live b hb := ⟨hb, fun _ => hR b⟩
  child _ _ _ := rfl
  mem l := by simp [hS]
  count := by simp

theorem isSome (h : Pruned types O t t' word word' ls ls' R S n) (hb : (word' b).isSome) :
    (word b).isSome ∧ ¬R b := by
  have hw : (word b).isSome := by
    by_contra hn
    rw [Option.not_isSome_iff_eq_none] at hn
    simp [h.outside b hn] at hb
  refine ⟨hw, fun hR => ?_⟩
  simp [h.gone b hw hR] at hb

theorem word_eq (h : Pruned types O t t' word word' ls ls' R S n) (hb : (word' b).isSome) :
    word' b = word b := h.keep b (h.isSome hb).1 (h.isSome hb).2

/-- Only the sets of the nodes in the tree matter. -/
theorem congr (h : Pruned types O t t' word word' ls ls' R S n)
    (hc : LeafNodes t.nodes.child word t.leaves.node ls)
    (hR : ∀ b, (word b).isSome → (R' b ↔ R b)) (hS : ∀ b, (word b).isSome → (S' b ↔ S b)) :
    Pruned types O t t' word word' ls ls' R' S' n where
  cut := h.cut
  same := h.same
  gone b hb hRb := h.gone b hb ((hR b hb).mp hRb)
  keep b hb hRb := h.keep b hb fun hr => hRb ((hR b hb).mpr hr)
  outside := h.outside
  live b hb := ⟨(h.live b hb).1, fun hw hRb => (h.live b hb).2 hw ((hR b hw).mp hRb)⟩
  child b hb hSb := h.child b hb fun hs => hSb ((hS b hb).mpr hs)
  mem l := by
    rw [h.mem]
    exact and_congr_right fun hl => not_congr (hS _ (hc.attached l hl).1).symm
  count := h.count

/-- One removal after another. -/
theorem trans (h : Pruned types O t t' word word' ls ls' R S n)
    (h' : Pruned types O t' t'' word' word'' ls' ls'' R' S' m)
    (hRS : ∀ b, (word b).isSome → R b → S b) :
    Pruned types O t t'' word word'' ls ls'' (fun b => R b ∨ R' b) (fun b => S b ∨ S' b)
      (n + m) where
  cut := h'.cut
  same := h.same.trans h'.same
  gone b hb hRb := by
    by_cases hr : R b
    · exact h'.outside b (h.gone b hb hr)
    · have hk := h.keep b hb hr
      exact h'.gone b (hk ▸ hb) (hRb.resolve_left hr)
  keep b hb hRb := by
    have hk := h.keep b hb fun hr => hRb (.inl hr)
    rw [h'.keep b (hk ▸ hb) fun hr => hRb (.inr hr), hk]
  outside b hb := h'.outside b (h.outside b hb)
  live b hb := by
    have hl := h'.live b hb
    refine ⟨(h.live b hl.1).1, fun hw => not_or.mpr ⟨(h.live b hl.1).2 hw, hl.2 ?_⟩⟩
    rwa [h.keep b hw ((h.live b hl.1).2 hw)]
  child b hb hSb := by
    have hk := h.keep b hb fun hr => hSb (.inl (hRS b hb hr))
    rw [h'.child b (hk ▸ hb) fun hs => hSb (.inr hs), h.child b hb fun hs => hSb (.inl hs)]
  mem l := by
    rw [h'.mem, h.mem, h.same.node, and_assoc, not_or]
  count := by
    have hc := h'.count
    simp only [totalCount, h.same.payload] at hc
    have hc' := h.count
    simp only [totalCount] at hc' ⊢
    omega

/-- Freeing a node with nothing below it, which nothing stores. -/
theorem free (h : Pruned types O t t' word word' ls ls' R S n) (hk : Kid t'.nodes word' p c)
    (hOp : O p) (hkids : ∀ b, ¬Kid t'.nodes word' c b) (hnull : t'.nodes.child c = .null)
    (hRS : ∀ b, (word b).isSome → (S b ↔ R b ∨ b = c)) :
    Pruned types O t (t'.freed c) word (Function.update word' c none) ls ls' S S n := by
  have hc := h.isSome hk.1
  refine ⟨⟨(h.cut.shape.detach hkids hk.2 hOp).freed (by simp), h.cut.leafList,
    fun l hl => ?_, fun b l hb hl => ?_⟩, h.same.trans ?_, fun b hb hS => ?_, fun b hb hS => ?_,
    fun b hb => ?_, fun b hb => ?_, h.child, h.mem, h.count⟩
  · obtain ⟨hw, hcl⟩ := h.cut.leafNodes.attached l hl
    have hne : t'.leaves.node l ≠ c := fun he => by simp [he, hnull] at hcl
    exact ⟨by simpa [Trie.freed, hne] using hw, hcl⟩
  · have hne : b ≠ c := by
      rintro rfl
      simp at hb
    exact h.cut.leafNodes.mem b l (by simpa [hne] using hb) hl
  · exact ⟨rfl, rfl, rfl, rfl, rfl, rfl, rfl, rfl, rfl, rfl, rfl, rfl⟩
  · rcases (hRS b hb).mp hS with hR | rfl
    · by_cases hbc : b = c
      · simp [hbc]
      · simp [hbc, h.gone b hb hR]
    · simp
  · have hnot := mt (hRS b hb).mpr hS
    rw [not_or] at hnot
    simp [hnot.2, h.keep b hb hnot.1]
  · by_cases hbc : b = c
    · simp [hbc]
    · simp [hbc, h.outside b hb]
  · simp only [Trie.freed, Trie.withHeaps_nodes, Arena.free_live] at hb
    split_ifs at hb with hbc
    refine ⟨(h.live b hb).1, fun hw hS => ?_⟩
    exact ((hRS b hw).mp hS).elim ((h.live b hb).2 hw) hbc

/-- Clearing the child pointer of a node all of whose children are gone. -/
theorem clear (h : Pruned types (fun x => O x ∨ x = a) t t' word word' ls ls' R R n)
    (hc : LeafNodes t.nodes.child word t.leaves.node ls)
    (hR : ∀ b, (word b).isSome → (R b ↔ b ≠ a ∧ Above t.nodes b a)) (ha : (word a).isSome)
    (hOa : ¬O a) (hleaf : (t.nodes.child a).isLeaf = false) {t'' : Trie L}
    (hclear : t'.setChild a .null = .ok t'') :
    Pruned types O t t'' word word' ls ls' R (fun b => Above t.nodes b a) n := by
  have hRa : ¬R a := fun hr => ((hR a ha).mp hr).1 rfl
  have hwa : word' a = word a := h.keep a ha hRa
  have hla : t'.nodes.arena.live a = true := h.cut.shape.live a (hwa ▸ ha)
  have hkid : ∀ c, ¬Kid t'.nodes word' a c := by
    intro c hk
    have hkc : Kid t.nodes word' a c := by rwa [Kid, ← h.same.parent]
    obtain ⟨hw, hnr⟩ := h.isSome hk.1
    refine hnr ((hR c hw).mpr ⟨?_, .single hkc.2⟩)
    rintro rfl
    exact absurd (h.cut.shape.parent_lt hk) (lt_irrefl _)
  rw [Trie.setChild_eq hla, Except.ok.injEq] at hclear
  subst hclear
  have hother : ∀ b, b ≠ a → Function.update t'.nodes.child a .null b = t'.nodes.child b :=
    fun b hb => by simp [hb]
  have hchild : t'.nodes.child a = t.nodes.child a := h.child a ha hRa
  refine ⟨⟨?_, h.cut.leafList, fun l hl => ?_, fun b l hb hl => ?_⟩, h.same.trans ?_, h.gone,
    h.keep, h.outside, h.live, fun b hb hS => ?_, fun l => ?_, h.count⟩
  · refine h.cut.shape.relink (p := a) (fun _ _ => ⟨rfl, rfl⟩) (fun _ _ => id)
      (fun b _ hb _ => ⟨hother b hb, rfl⟩) (fun _ _ _ => ⟨rfl, rfl, rfl⟩) (fun g _ _ => .refl _ g)
      (fun b hb hO hor => hO (hor.resolve_right hb)) (fun b u l hu hl => ?_)
      fun _ _ => .null (by simp) hkid
    by_cases hb : b = a
    · simp [hb] at hl
    · exact h.cut.shape.leaf_typed b u l hu (hother b hb ▸ hl)
  · obtain ⟨hw, hc⟩ := h.cut.leafNodes.attached l hl
    refine ⟨hw, (hother _ fun he => ?_).trans hc⟩
    rw [he, hchild] at hc
    simp [hc, Child.isLeaf] at hleaf
  · by_cases hb' : b = a
    · simp [hb'] at hl
    · exact h.cut.leafNodes.mem b l hb (hother b hb' ▸ hl)
  · exact ⟨rfl, rfl, rfl, rfl, rfl, rfl, rfl, rfl, rfl, rfl, rfl, rfl⟩
  · have hba : b ≠ a := by
      rintro rfl
      exact hS .refl
    rw [← h.child b hb fun hr => hS ((hR b hb).mp hr).2]
    exact hother b hba
  · rw [h.mem]
    refine and_congr_right fun hl => not_congr ?_
    obtain ⟨hw, hcl⟩ := hc.attached l hl
    rw [hR _ hw, and_iff_right_iff_imp]
    rintro - he
    rw [he] at hcl
    simp [hcl, Child.isLeaf] at hleaf

end Pruned

/-! ### The loops over the children -/

/-- What `delete_branch` does below the node `a`. -/
def Prunes (types : List FieldType) (O : ℕ → Prop) (body : Trie L → ℕ → Exec (Trie L × ℤ))
    (t : Trie L) (word : Words) (ls : List ℕ) (a : ℕ) : Prop :=
  ∃ (t' : Trie L) (word' : Words) (ls' : List ℕ) (n : ℤ), body t a = .ok (t', n) ∧
    Pruned types O t t' word word' ls ls' (fun b => b ≠ a ∧ Above t.nodes b a)
      (fun b => Above t.nodes b a) n ∧ t'.nodes.child a = .null

/-- No node of the tree with nothing below it is hashed, and every leaf may be destroyed. -/
structure Prunable (t : Trie L) (word : Words) (ls : List ℕ) : Prop where
  plain : ∀ b, (word b).isSome → t.nodes.child b = .null → t.nodes.hashed b = false
  destructible : ∀ l ∈ ls, LeafOps.destructible (t.leaves.payload l) = true

theorem Prunable.pruned (hn : Prunable t word ls)
    (h : Pruned types O t t' word word' ls ls' R R n) : Prunable t' word' ls' where
  plain b hb hc := by
    obtain ⟨hw, hR⟩ := h.isSome hb
    rw [h.same.hashed]
    exact hn.plain b hw (h.child b hw hR ▸ hc)
  destructible l hl := by
    rw [h.same.payload]
    exact hn.destructible l ((h.mem l).mp hl).1

variable {body : Trie L → ℕ → Exec (Trie L × ℤ)} {cs : List ℕ}

/-- The loop over a list of children of the open node `p`. -/
theorem deleteChain_spec (hOp : O p)
    (hbody : ∀ (t : Trie L) (word : Words) (ls : List ℕ) (c : ℕ), Cut types t O word ls →
      Prunable t word ls → t.nodes.arena.next ≤ k → Kid t.nodes word p c →
      Prunes types O body t word ls c)
    (fuel : ℕ) (hfuel : cs.length ≤ fuel) (h : Cut types t O word ls) (hn : Prunable t word ls)
    (hk : t.nodes.arena.next ≤ k) (hnodup : cs.Nodup)
    (hnext : ∀ xs c ys, cs = xs ++ c :: ys → t.nodes.next c = ys.head?)
    (hkids : ∀ c ∈ cs, Kid t.nodes word p c) (count : ℤ) :
    ∃ (t' : Trie L) (word' : Words) (ls' : List ℕ) (n : ℤ),
      Trie.deleteChain body fuel t cs.head? count = .ok (t', count + n) ∧
      Pruned types O t t' word word' ls ls' (fun b => ∃ c ∈ cs, Above t.nodes b c)
        (fun b => ∃ c ∈ cs, Above t.nodes b c) n := by
  induction cs generalizing t word ls fuel count with
  | nil =>
    refine ⟨t, word, ls, 0, ?_, .refl h (by simp) (by simp)⟩
    cases fuel <;> simp [Trie.deleteChain]
  | cons c cs ih =>
    obtain ⟨fuel, rfl⟩ : ∃ m, fuel = m + 1 := ⟨fuel - 1, by simp at hfuel; omega⟩
    have hkc := hkids c (by simp)
    obtain ⟨t₁, word₁, ls₁, n₁, hok₁, h₁, hnull⟩ := hbody t word ls c h hn hk hkc
    -- the child itself is kept, with nothing below it, and freed
    have hwc : (word₁ c).isSome := by
      rw [h₁.keep c hkc.1 (by simp)]
      exact hkc.1
    have hbelow : ∀ b, ¬Kid t₁.nodes word₁ c b := by
      intro b hkb
      obtain ⟨hw, hR⟩ := h₁.isSome hkb.1
      refine hR ⟨?_, .single (h₁.same.parent ▸ hkb.2)⟩
      rintro rfl
      exact absurd (h₁.cut.shape.parent_lt hkb) (lt_irrefl _)
    have h₂ := h₁.free ⟨hwc, h₁.same.parent ▸ hkc.2⟩ hOp hbelow hnull fun b _ => by
      by_cases hbc : b = c
      · simp [hbc, Relation.ReflTransGen.refl]
      · simp [hbc]
    have hpar : (t₁.freed c).nodes.parent = t.nodes.parent := h₂.same.parent
    -- its siblings are not touched
    have hrest : ∀ x ∈ cs, Kid (t₁.freed c).nodes (Function.update word₁ c none) p x := by
      intro x hx
      have hkx := hkids x (by simp [hx])
      have hne : x ≠ c := by
        rintro rfl
        exact (List.nodup_cons.mp hnodup).1 hx
      refine ⟨?_, hpar ▸ hkx.2⟩
      rw [h₂.keep x hkx.1 (h.shape.not_above_sibling hkc hkx hne)]
      exact hkx.1
    obtain ⟨t₃, word₃, ls₃, n₃, hok₃, h₃⟩ := ih fuel (by simpa using hfuel) h₂.cut
      (hn.pruned h₂) (h₂.same.bound ▸ hk) (List.nodup_cons.mp hnodup).2
      (fun xs x ys he => by rw [h₂.same.next]; exact hnext (c :: xs) x ys (by simp [he]))
      hrest (count + n₁)
    refine ⟨t₃, word₃, ls₃, n₁ + n₃, ?_, ?_⟩
    · rw [List.head?_cons, Trie.deleteChain, Arena.check_of_live (h.shape.live c hkc.1), ok_bind]
      simp only [hok₁, ok_bind]
      rw [Trie.freeNode_eq (h₁.cut.shape.live c hwc), ok_bind, hnext [] c cs rfl, hok₃,
        add_assoc]
    · refine (h₂.trans h₃ fun _ _ => id).congr h.leafNodes (fun b _ => ?_) fun b _ => ?_ <;>
        simp [Above, hpar]

/-- The loop over the buckets of a table of the open node `p`. -/
theorem deleteBuckets_spec {g : ℕ} {chain : ℕ → List ℕ} (hOp : O p)
    (hbody : ∀ (t : Trie L) (word : Words) (ls : List ℕ) (c : ℕ), Cut types t O word ls →
      Prunable t word ls → t.nodes.arena.next ≤ k → Kid t.nodes word p c →
      Prunes types O body t word ls c)
    (is : List ℕ) (his : is.Nodup) (h : Cut types t O word ls) (hn : Prunable t word ls)
    (hk : t.nodes.arena.next ≤ k) (hslot : ∀ i ∈ is, t.hashes.slots g i = (chain i).head?)
    (hnodup : ∀ i ∈ is, (chain i).Nodup)
    (hdisj : ∀ i ∈ is, ∀ j ∈ is, i ≠ j → ∀ c ∈ chain i, c ∉ chain j)
    (hlink : ∀ i ∈ is, Linked t.nodes.next t.nodes.prev none (chain i))
    (hkids : ∀ i ∈ is, ∀ c ∈ chain i, Kid t.nodes word p c) (count : ℤ) :
    ∃ (t' : Trie L) (word' : Words) (ls' : List ℕ) (n : ℤ),
      Trie.deleteBuckets body g is t count = .ok (t', count + n) ∧
      Pruned types O t t' word word' ls ls'
        (fun b => ∃ i ∈ is, ∃ c ∈ chain i, Above t.nodes b c)
        (fun b => ∃ i ∈ is, ∃ c ∈ chain i, Above t.nodes b c) n := by
  induction is generalizing t word ls count with
  | nil =>
    exact ⟨t, word, ls, 0, by simp [Trie.deleteBuckets], .refl h (by simp) (by simp)⟩
  | cons i is ih =>
    have hki := hkids i (by simp)
    have hlen : (chain i).length ≤ t.nodes.arena.next :=
      length_le_of_nodup_of_lt (hnodup i (by simp)) fun c hc =>
        Arena.lt_next (h.shape.live c (hki c hc).1)
    obtain ⟨t₁, word₁, ls₁, n₁, hok₁, h₁⟩ := deleteChain_spec hOp hbody _ hlen h hn hk
      (hnodup i (by simp)) (fun xs c ys he => ((he ▸ hlink i (by simp)).at_split).2) hki count
    have hpar : t₁.nodes.parent = t.nodes.parent := h₁.same.parent
    -- the children in the other buckets are not touched
    have hrest : ∀ j ∈ is, ∀ c ∈ chain j, Kid t₁.nodes word₁ p c := by
      intro j hj c hc
      have hkc := hkids j (by simp [hj]) c hc
      have hij : j ≠ i := by
        rintro rfl
        exact (List.nodup_cons.mp his).1 hj
      refine ⟨?_, hpar ▸ hkc.2⟩
      rw [h₁.keep c hkc.1 ?_]
      · exact hkc.1
      · rintro ⟨d, hd, hcd⟩
        refine h.shape.not_above_sibling (hki d hd) hkc ?_ hcd
        rintro rfl
        exact hdisj j (by simp [hj]) i (by simp) hij c hc hd
    obtain ⟨t₂, word₂, ls₂, n₂, hok₂, h₂⟩ := ih (List.nodup_cons.mp his).2 h₁.cut (hn.pruned h₁)
      (h₁.same.bound ▸ hk) (fun j hj => by rw [h₁.same.hashes]; exact hslot j (by simp [hj]))
      (fun j hj => hnodup j (by simp [hj]))
      (fun j hj k hk => hdisj j (by simp [hj]) k (by simp [hk]))
      (fun j hj => by
        rw [h₁.same.next, h₁.same.prev]
        exact hlink j (by simp [hj]))
      hrest (count + n₁)
    refine ⟨t₂, word₂, ls₂, n₁ + n₂, ?_, ?_⟩
    · rw [Trie.deleteBuckets, hslot i (by simp), hok₁]
      simp only [ok_bind, hok₂, add_assoc]
    · refine (h₁.trans h₂ fun _ _ => id).congr h.leafNodes (fun b _ => ?_) fun b _ => ?_ <;>
        simp [Above, hpar]

/-! ### `delete_branch` -/

/-- Taking a leaf out of the list of leaves. -/
theorem unlinkLeaf_eq {l : ℕ} (h : LeafList t.leaves t.firstLeaf t.lastLeaf ls) (hl : l ∈ ls) :
    t.unlinkLeaf l = .ok { t with
      leaves.next := updateIfSome t.leaves.next (t.leaves.prev l) (t.leaves.next l)
      leaves.prev := updateIfSome t.leaves.prev (t.leaves.next l) (t.leaves.prev l)
      firstLeaf := if t.firstLeaf = some l then t.leaves.next l else t.firstLeaf
      lastLeaf := if t.lastLeaf = some l then t.leaves.prev l else t.lastLeaf } := by
  obtain ⟨-, -, hprev, hnext⟩ := h.neighbours hl
  simp only [Trie.unlinkLeaf, Arena.check_of_live ((h.live l).mpr hl), ok_bind]
  rw [Trie.setIfSome_setLeafNext_eq fun x hx => (h.live x).mpr (hprev x hx).1, ok_bind,
    Trie.setIfSome_setLeafPrev_eq (by exact fun x hx => (h.live x).mpr (hnext x hx).1)]
  rfl

/-- `delete_branch` on the node of a leaf. -/
theorem deleteBranch_leaf {l : ℕ} (depth : ℕ) (h : Cut types t O word ls) (ha : (word a).isSome)
    (hOa : ¬O a) (hn : Prunable t word ls) (hc : t.nodes.child a = .leaf l) :
    Prunes types O (Trie.deleteBranch (depth + 1)) t word ls a := by
  obtain ⟨hl, hnode⟩ := h.leafNodes.mem a l ha hc
  have hla := h.shape.live a ha
  have habove : ∀ b, (word b).isSome → (Above t.nodes b a ↔ b = a) := fun b hb => by
    rw [h.shape.above_iff hb]
    exact or_iff_left fun ⟨c, hk, _⟩ => h.shape.no_kid_of_leaf ha hOa hc c hk
  have hcut := h.withoutLeaf hl (hnode ▸ hOa)
  have hsum := List.sum_map_erase (fun x => LeafOps.getCount (t.leaves.payload x)) hl
  refine ⟨t.withoutLeaf l, word, ls.erase l, LeafOps.getCount (t.leaves.payload l), ?_,
    ⟨hcut, ⟨rfl, rfl, rfl, rfl, rfl, rfl, rfl, rfl, rfl, rfl, rfl, rfl⟩, fun b hb hR => ?_,
      fun _ _ _ => rfl, fun _ => id, fun b hb => ⟨hb, fun hw hR => ?_⟩, fun b hb hS => ?_,
      fun x => ?_, ?_⟩, by simp [Trie.withoutLeaf, hnode]⟩
  · rw [Trie.deleteBranch, Arena.check_of_live hla, ok_bind, hc]
    simp only [unlinkLeaf_eq h.leafList hl, ok_bind]
    rw [Trie.freeLeaf_eq (by exact (h.leafList.live l).mpr hl) (by exact hn.destructible l hl),
      ok_bind, Trie.setChild_eq (by exact hla), ok_bind]
    simp only [Trie.withoutLeaf, LeafHeap.unlinked, hnode]
    rfl
  · exact absurd ((habove b hb).mp hR.2) hR.1
  · exact hR.1 ((habove b hw).mp hR.2)
  · have hba : b ≠ a := fun he => hS ((habove b hb).mpr he)
    simp [Trie.withoutLeaf, hnode, hba]
  · rw [h.leafList.nodup.mem_erase_iff, and_comm]
    refine and_congr_right fun hx => not_congr ?_
    obtain ⟨hwx, hcx⟩ := h.leafNodes.attached x hx
    rw [habove _ hwx]
    constructor
    · rintro rfl
      exact hnode
    · intro he
      rw [he, hc, Child.leaf.injEq] at hcx
      exact hcx.symm
  · simp only [totalCount]
    omega

/-- `delete_branch` frees the nodes below `a` and the leaves found there. -/
theorem deleteBranch_spec (depth : ℕ) (h : Cut types t O word ls) (ha : (word a).isSome)
    (hO : ∀ x, O x → x < a) (hn : Prunable t word ls) (hdepth : t.nodes.arena.next ≤ a + depth) :
    Prunes types O (Trie.deleteBranch depth) t word ls a := by
  induction depth generalizing t word ls a O with
  | zero =>
    have := Arena.lt_next (h.shape.live a ha)
    omega
  | succ depth ih =>
    have hOa : ¬O a := fun ho => absurd (hO a ho) (lt_irrefl a)
    have hla := h.shape.live a ha
    by_cases hleaf : ∃ l, t.nodes.child a = .leaf l
    · obtain ⟨l, hc⟩ := hleaf
      exact deleteBranch_leaf depth h ha hOa hn hc
    · have hopen : Cut types t (fun x => O x ∨ x = a) word ls :=
        ⟨h.shape.mono fun _ => .inl, h.leafList, h.leafNodes⟩
      have hbody : ∀ (t' : Trie L) (word' : Words) (ls' : List ℕ) (c : ℕ),
          Cut types t' (fun x => O x ∨ x = a) word' ls' → Prunable t' word' ls' →
          t'.nodes.arena.next ≤ t.nodes.arena.next → Kid t'.nodes word' a c →
          Prunes types (fun x => O x ∨ x = a) (Trie.deleteBranch depth) t' word' ls' c := by
        intro t' word' ls' c hcut hn' hk hkid
        have hlt := hcut.shape.parent_lt hkid
        refine ih hcut hkid.1 (fun x hx => ?_) hn' (by omega)
        rcases hx with hx | rfl
        · have := hO x hx
          omega
        · exact hlt
      -- once the children are gone, the child pointer is cleared
      have hclear : ∀ {t₁ word₁ ls₁ n R},
          Pruned types (fun x => O x ∨ x = a) t t₁ word word₁ ls ls₁ R R n →
          (∀ b, (word b).isSome → (R b ↔ b ≠ a ∧ Above t.nodes b a)) →
          Trie.deleteBranch (depth + 1) t a = (t₁.setChild a .null >>= fun t => pure (t, n)) →
          Prunes types O (Trie.deleteBranch (depth + 1)) t word ls a := by
        intro t₁ word₁ ls₁ n R h₁ hR hok
        have hRa : ¬R a := fun hr => ((hR a ha).mp hr).1 rfl
        have hla₁ := h₁.cut.shape.live a (by rw [h₁.keep a ha hRa]; exact ha)
        have hset := Trie.setChild_eq hla₁ .null
        have hnl : (t.nodes.child a).isLeaf = false := by
          cases hc : t.nodes.child a with
          | leaf l => exact absurd ⟨l, hc⟩ hleaf
          | null => rfl
          | node b => rfl
          | hash g => rfl
        refine ⟨_, word₁, ls₁, n, by rw [hok, hset]; rfl, ?_, by simp⟩
        exact (h₁.clear h.leafNodes hR ha hOa hnl hset).congr h.leafNodes
          (fun b hb => (hR b hb).symm) fun _ _ => .rfl
      have hbelow : ∀ b, (word b).isSome →
          ((∃ c, Kid t.nodes word a c ∧ Above t.nodes b c) ↔ b ≠ a ∧ Above t.nodes b a) := by
        intro b hb
        rw [h.shape.above_iff hb]
        constructor
        · rintro ⟨c, hk, hbc⟩
          refine ⟨?_, .inr ⟨c, hk, hbc⟩⟩
          rintro rfl
          exact absurd (h.shape.above_le hb hbc).2 (h.shape.parent_lt hk).not_ge
        · rintro ⟨hne, hba⟩
          exact hba.resolve_left hne
      cases h.shape.rep a ha hOa with
      | leaf l hc => exact absurd ⟨l, hc⟩ hleaf
      | null hc hk =>
        refine hclear (Pruned.refl hopen (R := fun _ => False) (by simp) (by simp))
          (fun b hb => ?_) ?_
        · rw [← hbelow b hb, false_iff]
          exact fun ⟨c, hkc, _⟩ => hk c hkc
        · simp [Trie.deleteBranch, Arena.check_of_live hla, hc, hn.plain a ha hc, Trie.nodeChild,
            Trie.deleteChain]
      | plain b ks hc hh hks hd hl hb =>
        have hlen : ks.length ≤ t.nodes.arena.next := length_le_of_nodup_of_lt hks.nodup
          fun c hc => Arena.lt_next (h.shape.live c ((hks.mem c).mp hc).1)
        obtain ⟨t₁, word₁, ls₁, n, hok, h₁⟩ := deleteChain_spec (.inr rfl) hbody _ hlen hopen hn
          le_rfl hks.nodup (fun xs c ys he => ((he ▸ hl).at_split).2)
          (fun c hc => (hks.mem c).mp hc) 0
        refine hclear h₁ (fun b hb => ?_) ?_
        · simp only [hks.mem]
          exact hbelow b hb
        · rw [hd, zero_add] at hok
          simp [Trie.deleteBranch, Arena.check_of_live hla, hc, hh, Trie.nodeChild, hok]
      | table g ks chain hc hh hks hne hlg hpg htotal ht =>
        have hmem := fun {i} (hi : i ∈ List.range (t.hashes.numBuckets g)) =>
          ht.mem i (List.mem_range.mp hi)
        obtain ⟨t₁, word₁, ls₁, n, hok, h₁⟩ := deleteBuckets_spec (g := g)
          (.inr rfl) hbody (List.range (t.hashes.numBuckets g)) List.nodup_range hopen hn le_rfl
          (fun i hi => ht.slot i (List.mem_range.mp hi))
          (fun i hi => ht.nodup i (List.mem_range.mp hi))
          (fun i hi j hj hij c hci hcj => hij (((hmem hi c).mp hci).2.symm.trans ((hmem hj c).mp hcj).2))
          (fun i hi => ht.linked i (List.mem_range.mp hi)) (fun i hi c hc => ((hmem hi c).mp hc).1) 0
        refine hclear h₁ (fun b hb => ?_) ?_
        · rw [← hbelow b hb]
          constructor
          · rintro ⟨i, hi, c, hc, hbc⟩
            exact ⟨c, ((hmem hi c).mp hc).1, hbc⟩
          · rintro ⟨c, hk, hbc⟩
            have hi := List.mem_range.mpr (HashHeap.item_lt ht.size (hashField (t.nodes.data c)))
            exact ⟨_, hi, c, (hmem hi c).mpr ⟨hk, rfl⟩, hbc⟩
        · rw [zero_add] at hok
          simp [Trie.deleteBranch, Arena.check_of_live hla, hc, hh, Trie.getHash,
            Arena.check_of_live hlg, hok]

end

end Meld.Db
