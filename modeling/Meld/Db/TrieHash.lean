import Meld.Db.TrieShape

/-!
# Storing children in tables

The specifications of the operations on tables: the insertion of one node, the loop that inserts
a list of nodes, and from it the expansion of a table and the conversion of a list of children.
Each says that afterwards the table holds the old children and the new ones, and that only the
places of these nodes and the bucket array of this table changed.
-/

namespace Meld.Db

open Meld.Lib Meld.Vm

/-- The two heaps differ in the places of the nodes in `S` only. -/
structure Relinked (N N' : NodeHeap) (S : ℕ → Prop) : Prop where
  arena : N'.arena = N.arena
  parent : N'.parent = N.parent
  child : N'.child = N.child
  data : N'.data = N.data
  hashed : N'.hashed = N.hashed
  place : ∀ b, ¬S b → SamePlace N N' b

namespace Relinked

variable {N N' N'' : NodeHeap} {S S' : ℕ → Prop}

/-- Nothing is linked anew. -/
theorem refl (N : NodeHeap) (S : ℕ → Prop) : Relinked N N S :=
  ⟨rfl, rfl, rfl, rfl, rfl, fun b _ => .refl N b⟩

/-- Two relinkings, one after the other. -/
theorem trans (h₁ : Relinked N N' S) (h₂ : Relinked N' N'' S) : Relinked N N'' S :=
  ⟨h₂.arena.trans h₁.arena, h₂.parent.trans h₁.parent, h₂.child.trans h₁.child,
    h₂.data.trans h₁.data, h₂.hashed.trans h₁.hashed,
    fun b hb => (h₁.place b hb).trans (h₂.place b hb)⟩

/-- A relinking of fewer nodes is one of more. -/
theorem mono (h : Relinked N N' S) (hS : ∀ b, S b → S' b) : Relinked N N' S' :=
  { h with place := fun b hb => h.place b fun hs => hb (hS b hs) }

end Relinked

/-- The heap with another array for the table `h`. -/
def HashHeap.withSlots (H : HashHeap) (h : ℕ) (s : ℕ → Option ℕ) : HashHeap :=
  { H with slots := Function.update H.slots h s }

/-- New slots for a table leave the other tables. -/
theorem HashHeap.withSlots_same (H : HashHeap) {h g : ℕ} (s : ℕ → Option ℕ) (hg : g ≠ h) :
    SameHash H (H.withSlots h s) g :=
  ⟨rfl, rfl, rfl, by simp [HashHeap.withSlots, hg], rfl, rfl⟩

/-- The slots that are set last stay. -/
@[simp] theorem HashHeap.withSlots_withSlots (H : HashHeap) (h : ℕ) (s s' : ℕ → Option ℕ) :
    (H.withSlots h s).withSlots h s' = H.withSlots h s' := by
  simp [HashHeap.withSlots]

@[simp] theorem HashHeap.withSlots_self (H : HashHeap) (h : ℕ) :
    H.withSlots h (H.slots h) = H := by
  simp [HashHeap.withSlots]

/-- The heap with another number of children for the table `h`. -/
def HashHeap.withTotal (H : HashHeap) (h n : ℕ) : HashHeap :=
  { H with total := Function.update H.total h n }

/-- A new number of elements leaves the other tables. -/
theorem HashHeap.withTotal_same (H : HashHeap) {h g : ℕ} (n : ℕ) (hg : g ≠ h) :
    SameHash H (H.withTotal h n) g :=
  ⟨rfl, rfl, rfl, rfl, rfl, by simp [HashHeap.withTotal, hg]⟩

/-- The heap without the table `h`. -/
def HashHeap.freed (H : HashHeap) (h : ℕ) : HashHeap := { H with arena := H.arena.free h }

/-- A table that is freed leaves the other tables. -/
theorem HashHeap.freed_same (H : HashHeap) {h g : ℕ} (hg : g ≠ h) : SameHash H (H.freed h) g :=
  ⟨by simp [HashHeap.freed, Arena.free_live, hg], rfl, rfl, rfl, rfl, rfl⟩

/-- Fields that are the same by `==` have the same hash. -/
theorem hashField_eq_of_sameAs {d f : TupleField} (h : d.sameAs f = true) :
    hashField d = hashField f := by
  cases d with
  | item x =>
    cases f with
    | ptr q => simp [TupleField.sameAs] at h
    | item y =>
      cases x <;> cases y <;> simp only [TupleField.sameAs, Item.eq, beq_iff_eq,
        Bool.false_eq_true] at h
      · rw [h]
      · simp only [floatEq, Bool.and_eq_true, Bool.or_eq_true, beq_iff_eq] at h
        rcases h.2 with rfl | ⟨hx, hy⟩
        · rfl
        · simp [hashField, hashFloat, hx, hy]
      · rw [h]
  | ptr p =>
    cases f with
    | item y => simp [TupleField.sameAs] at h
    | ptr q =>
      simp only [TupleField.sameAs, beq_iff_eq] at h
      subst h
      simp only [hashField, low32, UInt32.toUInt32_toUInt64]

/-- A bucket index is the hash modulo the number of buckets. -/
theorem HashHeap.item_eq_mod {H : HashHeap} {h : ℕ} (hs : ∃ k, H.numBuckets h = 2 ^ k) (x : ℕ) :
    H.item h x = x % H.numBuckets h := by
  obtain ⟨k, hk⟩ := hs
  rw [HashHeap.item, hk, Nat.and_two_pow_sub_one_eq_mod]

/-- The bucket of a value is one of the table's, whose number is a power of two. -/
theorem HashHeap.item_lt {H : HashHeap} {h : ℕ} (hs : ∃ k, H.numBuckets h = 2 ^ k) (x : ℕ) :
    H.item h x < H.numBuckets h := by
  rw [HashHeap.item_eq_mod hs]
  obtain ⟨k, hk⟩ := hs
  exact Nat.mod_lt _ (hk ▸ Nat.two_pow_pos k)

namespace Trie

variable {L : Type} [LeafOps L] {t : Trie L} {h c : ℕ} {K : ℕ → Prop} {chain : ℕ → List ℕ}

/-- The trie with other nodes and tables. -/
def withHeaps (t : Trie L) (N : NodeHeap) (H : HashHeap) : Trie L :=
  { t with nodes := N, hashes := H }

section

variable (t : Trie L) (N N' : NodeHeap) (H H' : HashHeap)

@[simp] theorem withHeaps_nodes : (t.withHeaps N H).nodes = N := rfl

@[simp] theorem withHeaps_hashes : (t.withHeaps N H).hashes = H := rfl

@[simp] theorem withHeaps_leaves : (t.withHeaps N H).leaves = t.leaves := rfl

@[simp] theorem withHeaps_root : (t.withHeaps N H).root = t.root := rfl

@[simp] theorem withHeaps_numberOfReferences :
    (t.withHeaps N H).numberOfReferences = t.numberOfReferences := rfl

@[simp] theorem withHeaps_firstLeaf : (t.withHeaps N H).firstLeaf = t.firstLeaf := rfl

@[simp] theorem withHeaps_lastLeaf : (t.withHeaps N H).lastLeaf = t.lastLeaf := rfl

/-- The heaps that are set last stay. -/
@[simp] theorem withHeaps_withHeaps :
    (t.withHeaps N H).withHeaps N' H' = t.withHeaps N' H' := rfl

@[simp] theorem withHeaps_self : t.withHeaps t.nodes t.hashes = t := rfl

end

/-! ### Writes that succeed -/

/-- The setter of a live node's `next`. -/
theorem setNext_eq {a : ℕ} (ha : t.nodes.arena.live a = true) (v : Option ℕ) :
    t.setNext a v = .ok { t with nodes.next := Function.update t.nodes.next a v } := by
  rw [setNext, Arena.check_of_live ha]; rfl

/-- The setter of a live node's `prev`. -/
theorem setPrev_eq {a : ℕ} (ha : t.nodes.arena.live a = true) (v : Option ℕ) :
    t.setPrev a v = .ok { t with nodes.prev := Function.update t.nodes.prev a v } := by
  rw [setPrev, Arena.check_of_live ha]; rfl

/-- The setter of a live node's `child`. -/
theorem setChild_eq {a : ℕ} (ha : t.nodes.arena.live a = true) (v : Child) :
    t.setChild a v = .ok { t with nodes.child := Function.update t.nodes.child a v } := by
  rw [setChild, Arena.check_of_live ha]; rfl

/-- The setter of a live node's `hashed`. -/
theorem setHashed_eq {a : ℕ} (ha : t.nodes.arena.live a = true) (v : Bool) :
    t.setHashed a v = .ok { t with nodes.hashed := Function.update t.nodes.hashed a v } := by
  rw [setHashed, Arena.check_of_live ha]; rfl

/-- The setter of a live node's `bucket`. -/
theorem setBucket_eq {a : ℕ} (ha : t.nodes.arena.live a = true) (v : Option (ℕ × ℕ)) :
    t.setBucket a v = .ok { t with nodes.bucket := Function.update t.nodes.bucket a v } := by
  rw [setBucket, Arena.check_of_live ha]; rfl

/-- The setter of a live table's `total`. -/
theorem setTotal_eq (hh : t.hashes.arena.live h = true) (n : ℕ) :
    t.setTotal h n = .ok (t.withHeaps t.nodes (t.hashes.withTotal h n)) := by
  rw [setTotal, Arena.check_of_live hh]; rfl

/-- The setter of a slot of a live table. -/
theorem setSlot_eq (hh : t.hashes.arena.live h = true) (i : ℕ) (v : Option ℕ) :
    t.setSlot h i v = .ok (t.withHeaps t.nodes
      (t.hashes.withSlots h (Function.update (t.hashes.slots h) i v))) := by
  rw [setSlot, Arena.check_of_live hh]; rfl

/-- A live table can be freed. -/
theorem freeHash_eq (hh : t.hashes.arena.live h = true) :
    t.freeHash h = .ok (t.withHeaps t.nodes (t.hashes.freed h)) := by
  rw [freeHash, Arena.check_of_live hh]; rfl

/-- The `prev` of a node is set if there is one. -/
theorem setIfSome_setPrev_eq {p : Option ℕ} (hp : ∀ a, p = some a → t.nodes.arena.live a = true)
    (v : Option ℕ) : t.setIfSome setPrev p v =
      .ok { t with nodes.prev := updateIfSome t.nodes.prev p v } := by
  cases p with
  | none => rw [updateIfSome_none]; rfl
  | some a => rw [updateIfSome_some]; exact setPrev_eq (hp a rfl) v

/-- The `next` of a node is set if there is one. -/
theorem setIfSome_setNext_eq {p : Option ℕ} (hp : ∀ a, p = some a → t.nodes.arena.live a = true)
    (v : Option ℕ) : t.setIfSome setNext p v =
      .ok { t with nodes.next := updateIfSome t.nodes.next p v } := by
  cases p with
  | none => rw [updateIfSome_none]; rfl
  | some a => rw [updateIfSome_some]; exact setNext_eq (hp a rfl) v

/-! ### One insertion -/

/-- The node heap after `c` was put in front of a list that starts with `old`. -/
def pushNode (N : NodeHeap) (c : ℕ) (old : Option ℕ) (bucket : Option (ℕ × ℕ)) : NodeHeap :=
  { N with
    next := Function.update N.next c old
    prev := updateIfSome (Function.update N.prev c none) old (some c)
    bucket := Function.update N.bucket c bucket }

/-- The node that is put in front of a list is linked anew, and so is the old first one. -/
theorem pushNode_relinked {N : NodeHeap} {old : Option ℕ} (bucket : Option (ℕ × ℕ))
    {S : ℕ → Prop} (hc : S c) (hold : ∀ o, old = some o → S o) :
    Relinked N (pushNode N c old bucket) S := by
  refine ⟨rfl, rfl, rfl, rfl, rfl, fun b hb => ?_⟩
  have hbc : b ≠ c := fun he => hb (he ▸ hc)
  have hbo : old ≠ some b := fun he => hb (hold b he)
  exact ⟨by simp [pushNode, hbc], by simp [pushNode, updateIfSome, hbo, hbc],
    by simp [pushNode, hbc]⟩

/-- A live node goes to the front of a bucket of a live table. -/
theorem insertBucket_eq (hh : t.hashes.arena.live h = true) {i : ℕ} (hi : i < t.hashes.numBuckets h)
    (hc : t.nodes.arena.live c = true)
    (hold : ∀ o, t.hashes.slots h i = some o → t.nodes.arena.live o = true) :
    t.insertBucket h i c = .ok (t.withHeaps
      (pushNode t.nodes c (t.hashes.slots h i) (some (t.hashes.buckets h, i)))
      (t.hashes.withSlots h (Function.update (t.hashes.slots h) i (some c)))) := by
  simp only [insertBucket, Arena.check_of_live hh, ok_bind, assert_pos hi, setPrev_eq hc]
  rw [setNext_eq (by exact hc), ok_bind, setIfSome_setPrev_eq (by exact hold), ok_bind,
    setBucket_eq (by exact hc), ok_bind, setSlot_eq (by exact hh)]
  rfl

/-- The four insertions differ in the hash function only. -/
theorem insertField_eq (ht : 0 < t.hashes.numBuckets h) (f : TupleField) :
    t.insertField h f c = t.insertBucket h (t.hashes.item h (hashField f)) c := by
  rcases f with (v | v | v) | p <;>
    simp only [insertField, insertInt, insertUint, insertFloat, insertNode, hashField,
      assert_pos ht, ok_bind] <;> rfl

end Trie

/-- A table with one more child. -/
theorem Table.push {N : NodeHeap} {H : HashHeap} {h c : ℕ} {K : ℕ → Prop} {chain : ℕ → List ℕ}
    (ht : Table N H h K chain) (hc : ¬K c) {i : ℕ} (hi : H.item h (hashField (N.data c)) = i) :
    Table (Trie.pushNode N c (H.slots h i) (some (H.buckets h, i)))
      (H.withSlots h (Function.update (H.slots h) i (some c))) h (fun x => x = c ∨ K x)
      (Function.update chain i (c :: chain i)) := by
  have hlt : i < H.numBuckets h := hi ▸ HashHeap.item_lt ht.size _
  -- the node that is pushed was in no bucket
  have hmem : ∀ j < H.numBuckets h, ∀ x ∈ chain j, K x := fun j hj x hx =>
    ((ht.mem j hj x).mp hx).1
  have hne : ∀ j < H.numBuckets h, ∀ x ∈ chain j, x ≠ c := fun j hj x hx he =>
    hc (he ▸ hmem j hj x hx)
  have hslot := ht.slot i hlt
  refine ⟨ht.size, ?_, ?_, ?_, ?_, ?_⟩
  · intro j hj
    by_cases hji : j = i
    · subst hji
      simp [HashHeap.withSlots]
    · simpa [HashHeap.withSlots, hji] using ht.slot j hj
  · intro j hj
    by_cases hji : j = i
    · subst hji
      rw [Function.update_self]
      refine (ht.linked j hj).pushFront (ht.nodup j hj) ?_ ?_ (fun x hx => ?_) fun x hx => ?_
      · have hcj : H.slots h j ≠ some c := fun he =>
          hne j hj c (List.mem_of_mem_head? (hslot ▸ he)) rfl
        simp [Trie.pushNode, updateIfSome, hcj]
      · simp [Trie.pushNode, hslot]
      · simp [Trie.pushNode, hne j hj x hx]
      · simp [Trie.pushNode, updateIfSome, hslot, hne j hj x hx]
    · rw [Function.update_of_ne hji]
      refine (ht.linked j hj).congr (fun x hx => ?_) fun x hx => ?_
      · simp [Trie.pushNode, hne j hj x hx]
      · have hxi : H.slots h i ≠ some x := by
          intro he
          have hx' := ((ht.mem i hlt x).mp (List.mem_of_mem_head? (hslot ▸ he))).2
          exact hji (((ht.mem j hj x).mp hx).2.symm.trans hx')
        simp [Trie.pushNode, updateIfSome, hxi, hne j hj x hx]
  · intro j hj
    by_cases hji : j = i
    · subst hji
      rw [Function.update_self, List.nodup_cons]
      exact ⟨fun hm => hne j hj c hm rfl, ht.nodup j hj⟩
    · rw [Function.update_of_ne hji]
      exact ht.nodup j hj
  · intro j hj x
    change x ∈ Function.update chain i (c :: chain i) j ↔
      (x = c ∨ K x) ∧ H.item h (hashField (N.data x)) = j
    by_cases hji : j = i
    · subst hji
      rw [Function.update_self, List.mem_cons, ht.mem j hj x]
      constructor
      · rintro (rfl | ⟨hk, hx⟩)
        exacts [⟨.inl rfl, hi⟩, ⟨.inr hk, hx⟩]
      · rintro ⟨rfl | hk, hx⟩
        exacts [.inl rfl, .inr ⟨hk, hx⟩]
    · rw [Function.update_of_ne hji, ht.mem j hj x]
      constructor
      · exact fun hx => ⟨.inr hx.1, hx.2⟩
      · rintro ⟨rfl | hk, hx⟩
        exacts [absurd (hx.symm.trans hi) hji, ⟨hk, hx⟩]
  · intro x hx
    change Function.update N.bucket c (some (H.buckets h, i)) x =
      some (H.buckets h, H.item h (hashField (N.data x)))
    by_cases hxc : x = c
    · subst hxc
      rw [Function.update_self, hi]
    · rw [Function.update_of_ne hxc]
      exact ht.bucket x (hx.resolve_left hxc)

namespace Trie

variable {L : Type} [LeafOps L] {t : Trie L} {h c : ℕ} {K : ℕ → Prop} {chain : ℕ → List ℕ}

/-- The number of children is kept beside the table. -/
theorem table_withTotal {N : NodeHeap} {H : HashHeap} {n : ℕ} :
    Table N (H.withTotal h n) h K chain ↔ Table N H h K chain :=
  ⟨fun ht => ⟨ht.size, ht.slot, ht.linked, ht.nodup, ht.mem, ht.bucket⟩,
    fun ht => ⟨ht.size, ht.slot, ht.linked, ht.nodup, ht.mem, ht.bucket⟩⟩

/-- Inserting a node that the table does not hold. -/
theorem insertField_spec (ht : Table t.nodes t.hashes h K chain)
    (hh : t.hashes.arena.live h = true) (hc : t.nodes.arena.live c = true)
    (hK : ∀ x, K x → t.nodes.arena.live x = true) (hcK : ¬K c) :
    ∃ (N' : NodeHeap) (s : ℕ → Option ℕ) (chain' : ℕ → List ℕ),
      t.insertField h (t.nodes.data c) c =
        .ok (t.withHeaps N' (t.hashes.withSlots h s)) ∧
      Relinked t.nodes N' (fun x => x = c ∨ K x) ∧
      Table N' (t.hashes.withSlots h s) h (fun x => x = c ∨ K x) chain' := by
  have hlt := HashHeap.item_lt ht.size (hashField (t.nodes.data c))
  have hold : ∀ o, t.hashes.slots h (t.hashes.item h (hashField (t.nodes.data c))) = some o →
      K o := fun o ho =>
    ((ht.mem _ hlt o).mp (List.mem_of_mem_head? (ht.slot _ hlt ▸ ho))).1
  rw [insertField_eq (by omega), insertBucket_eq hh hlt hc fun o ho => hK o (hold o ho)]
  exact ⟨_, _, _, rfl, pushNode_relinked _ (.inl rfl) fun o ho => .inr (hold o ho),
    ht.push hcK rfl⟩

/-- The loop over a list of nodes that the table does not hold. -/
theorem rehash_spec (hh : t.hashes.arena.live h = true) (l : List ℕ) (fuel total : ℕ)
    (hfuel : l.length ≤ fuel) (hl : l.Nodup)
    (hnext : ∀ xs a ys, l = xs ++ a :: ys → t.nodes.next a = ys.head?)
    (hlive : ∀ x ∈ l, t.nodes.arena.live x = true)
    (hK : ∀ x, K x → t.nodes.arena.live x = true) (hdisj : ∀ x ∈ l, ¬K x)
    (ht : Table t.nodes t.hashes h K chain) :
    ∃ (N' : NodeHeap) (s : ℕ → Option ℕ) (chain' : ℕ → List ℕ),
      rehash h fuel t l.head? total =
        .ok (t.withHeaps N' (t.hashes.withSlots h s), total + l.length) ∧
      Relinked t.nodes N' (fun x => x ∈ l ∨ K x) ∧
      Table N' (t.hashes.withSlots h s) h (fun x => x ∈ l ∨ K x) chain' := by
  induction l generalizing t K chain fuel total with
  | nil =>
    refine ⟨t.nodes, t.hashes.slots h, chain, ?_, .refl _ _, ?_⟩
    · cases fuel <;> simp [rehash]
    · simpa using ht
  | cons a l ih =>
    obtain ⟨fuel, rfl⟩ : ∃ n, fuel = n + 1 := ⟨fuel - 1, by simp at hfuel; omega⟩
    obtain ⟨hal, hl⟩ := List.nodup_cons.mp hl
    have ha := hlive a (by simp)
    obtain ⟨N₁, s₁, chain₁, hok, hrel, ht₁⟩ :=
      insertField_spec ht hh ha hK (hdisj a (by simp))
    have hsame : ∀ x ∈ l, SamePlace t.nodes N₁ x := fun x hx => hrel.place x <| by
      rintro (rfl | hk)
      exacts [hal hx, hdisj x (by simp [hx]) hk]
    obtain ⟨N', s, chain', hok', hrel', ht'⟩ :=
      ih (t := t.withHeaps N₁ (t.hashes.withSlots h s₁)) (by exact hh) fuel
        (total + 1) (by simpa using hfuel) hl
        (fun xs b ys he => (hsame b (by simp [he])).next.trans (hnext (a :: xs) b ys (by simp [he])))
        (fun x hx => by rw [withHeaps_nodes, hrel.arena]; exact hlive x (by simp [hx]))
        (fun x hx => by
          rw [withHeaps_nodes, hrel.arena]
          rcases hx with rfl | hx
          exacts [ha, hK x hx])
        (fun x hx => by
          rintro (rfl | hk)
          exacts [hal hx, hdisj x (by simp [hx]) hk])
        ht₁
    have hset : ∀ x, x ∈ l ∨ x = a ∨ K x ↔ x ∈ a :: l ∨ K x := fun x => by
      simp only [List.mem_cons]
      tauto
    refine ⟨N', s, chain', ?_, ?_, ?_⟩
    · simp only [rehash, List.head?_cons, Arena.check_of_live ha, ok_bind, hok,
        hnext [] a l rfl, hok', List.length_cons]
      simp [Nat.add_assoc, Nat.add_comm 1]
    · exact (hrel.mono fun x hx => (hset x).mp (.inr hx)).trans
        (hrel'.mono fun x hx => (hset x).mp hx)
    · simpa only [withHeaps_hashes, HashHeap.withSlots_withSlots, hset] using ht'

/-- The loop over the buckets of the old array. The lists still to come are where they were. -/
theorem expandLoop_spec (hh : t.hashes.arena.live h = true) {N : NodeHeap}
    (old : ℕ → List ℕ) (is : List ℕ) (his : is.Nodup)
    (hl : ∀ i ∈ is, (old i).Nodup ∧ Linked N.next N.prev none (old i))
    (hplace : ∀ i ∈ is, ∀ x ∈ old i, t.nodes.next x = N.next x)
    (hdisj : ∀ i ∈ is, ∀ j ∈ is, ∀ x ∈ old i, x ∈ old j → i = j)
    (hlive : ∀ i ∈ is, ∀ x ∈ old i, t.nodes.arena.live x = true)
    (hK : ∀ x, K x → t.nodes.arena.live x = true) (hnew : ∀ i ∈ is, ∀ x ∈ old i, ¬K x)
    (ht : Table t.nodes t.hashes h K chain) :
    ∃ (N' : NodeHeap) (s : ℕ → Option ℕ) (chain' : ℕ → List ℕ),
      expandLoop h (fun i => (old i).head?) is t =
        .ok (t.withHeaps N' (t.hashes.withSlots h s)) ∧
      Relinked t.nodes N' (fun x => (∃ i ∈ is, x ∈ old i) ∨ K x) ∧
      Table N' (t.hashes.withSlots h s) h (fun x => (∃ i ∈ is, x ∈ old i) ∨ K x) chain' := by
  induction is generalizing t K chain with
  | nil =>
    refine ⟨t.nodes, t.hashes.slots h, chain, by simp [expandLoop], .refl _ _, ?_⟩
    simpa using ht
  | cons i is ih =>
    obtain ⟨hi, his⟩ := List.nodup_cons.mp his
    obtain ⟨hnodup, hlinked⟩ := hl i (by simp)
    have hlen : (old i).length ≤ t.nodes.arena.next :=
      length_le_of_nodup_of_lt hnodup fun x hx => Arena.lt_next (hlive i (by simp) x hx)
    obtain ⟨N₁, s₁, chain₁, hok, hrel, ht₁⟩ := rehash_spec hh (old i) _ 0 hlen hnodup
      (fun xs a ys he => by
        rw [hplace i (by simp) a (by simp [he])]
        exact ((he ▸ hlinked).at_split).2)
      (hlive i (by simp)) hK (hnew i (by simp)) ht
    -- the nodes of the other buckets are not in the table yet
    have hother : ∀ j ∈ is, ∀ x ∈ old j, ¬(x ∈ old i ∨ K x) := by
      rintro j hj x hx (hxi | hxK)
      · exact hi (hdisj i (by simp) j (by simp [hj]) x hxi hx ▸ hj)
      · exact hnew j (by simp [hj]) x hx hxK
    obtain ⟨N', s, chain', hok', hrel', ht'⟩ :=
      ih (t := t.withHeaps N₁ (t.hashes.withSlots h s₁)) (by exact hh) his
        (fun j hj => hl j (by simp [hj]))
        (fun j hj x hx => (hrel.place x (hother j hj x hx)).next.trans
          (hplace j (by simp [hj]) x hx))
        (fun j hj k hk => hdisj j (by simp [hj]) k (by simp [hk]))
        (fun j hj x hx => by
          rw [withHeaps_nodes, hrel.arena]
          exact hlive j (by simp [hj]) x hx)
        (fun x hx => by
          rw [withHeaps_nodes, hrel.arena]
          rcases hx with hx | hx
          exacts [hlive i (by simp) x hx, hK x hx])
        hother ht₁
    have hset : ∀ x, (∃ j ∈ is, x ∈ old j) ∨ x ∈ old i ∨ K x ↔
        (∃ j ∈ i :: is, x ∈ old j) ∨ K x := fun x => by
      simp only [List.mem_cons, exists_eq_or_imp]
      exact or_left_comm.trans or_assoc.symm
    refine ⟨N', s, chain', ?_, ?_, ?_⟩
    · rw [expandLoop, hok, ok_bind]
      simpa using hok'
    · exact (hrel.mono fun x hx => (hset x).mp (.inr hx)).trans
        (hrel'.mono fun x hx => (hset x).mp hx)
    · simpa only [withHeaps_hashes, HashHeap.withSlots_withSlots, hset] using ht'

end Trie

/-- A table without children. -/
theorem Table.empty {N : NodeHeap} {H : HashHeap} {h k : ℕ} (hn : H.numBuckets h = 2 ^ k)
    (hs : ∀ i, H.slots h i = none) : Table N H h (fun _ => False) fun _ => [] :=
  ⟨⟨k, hn⟩, by simp [hs], by simp, by simp, by simp, by simp⟩

namespace Trie

variable {L : Type} [LeafOps L] {t : Trie L} {h c : ℕ} {K : ℕ → Prop} {chain : ℕ → List ℕ}

/-- The loop looks only at the buckets that it moves. -/
theorem expandLoop_congr {old old' : ℕ → Option ℕ} (is : List ℕ)
    (h₀ : ∀ i ∈ is, old i = old' i) (t : Trie L) :
    expandLoop h old is t = expandLoop h old' is t := by
  induction is generalizing t with
  | nil => rfl
  | cons i is ih =>
    rw [expandLoop, expandLoop, h₀ i (by simp)]
    simp only [ih fun j hj => h₀ j (by simp [hj])]

/-- `expand` keeps the children of the table. -/
theorem expand_spec (ht : Table t.nodes t.hashes h K chain) (hh : t.hashes.arena.live h = true)
    (hK : ∀ x, K x → t.nodes.arena.live x = true) :
    ∃ (N' : NodeHeap) (H' : HashHeap) (chain' : ℕ → List ℕ),
      t.expand h = .ok (t.withHeaps N' H') ∧ Relinked t.nodes N' K ∧
      H'.arena = t.hashes.arena ∧ H'.parent = t.hashes.parent ∧ H'.total = t.hashes.total ∧
      (∀ g, g ≠ h → SameHash t.hashes H' g) ∧ Table N' H' h K chain' := by
  obtain ⟨k, hk⟩ := ht.size
  obtain ⟨N', s, chain', hok, hrel, ht'⟩ := expandLoop_spec (h := h) (N := t.nodes)
    (t := t.withHeaps t.nodes (t.hashes.grow h)) (K := fun _ => False) hh chain (List.range (t.hashes.numBuckets h)) List.nodup_range
    (fun i hi => ⟨ht.nodup i (List.mem_range.mp hi), ht.linked i (List.mem_range.mp hi)⟩)
    (fun i hi x hx => rfl)
    (fun i hi j hj x hxi hxj => by
      rw [← ((ht.mem i (List.mem_range.mp hi) x).mp hxi).2,
        ← ((ht.mem j (List.mem_range.mp hj) x).mp hxj).2])
    (fun i hi x hx => hK x ((ht.mem i (List.mem_range.mp hi) x).mp hx).1)
    (fun _ h => h.elim) (fun _ _ _ _ h => h)
    (Table.empty (k := k + 1) (by simp [HashHeap.grow, hk, Nat.pow_succ])
      (by simp [HashHeap.grow]))
  have hset : ∀ x, (∃ i ∈ List.range (t.hashes.numBuckets h), x ∈ chain i) ∨ False ↔ K x := by
    intro x
    simp only [List.mem_range, or_false]
    constructor
    · rintro ⟨i, hi, hx⟩
      exact ((ht.mem i hi x).mp hx).1
    · intro hx
      have hlt := HashHeap.item_lt ht.size (hashField (t.nodes.data x))
      exact ⟨_, hlt, (ht.mem _ hlt x).mpr ⟨hx, rfl⟩⟩
  simp only [hset] at hrel ht'
  refine ⟨N', (t.hashes.grow h).withSlots h s, chain', ?_, hrel, rfl, rfl, rfl, fun g hg => ?_, ht'⟩
  · rw [expand, Arena.check_of_live hh, ok_bind,
      expandLoop_congr _ (fun i hi => ht.slot i (List.mem_range.mp hi))]
    exact hok
  · exact ⟨rfl, rfl, by simp [HashHeap.grow, HashHeap.withSlots, hg],
      by simp [HashHeap.grow, HashHeap.withSlots, hg],
      by simp [HashHeap.grow, HashHeap.withSlots, hg], rfl⟩

/-- The new table of `newHash` has no children, and the other tables stay. -/
theorem newHash_spec (t : Trie L) (type : FieldType) (a : ℕ) (N : NodeHeap) :
    Table N (t.newHash type a).hashes t.hashes.arena.next (fun _ => False) (fun _ => []) ∧
      ∀ g, t.hashes.arena.live g = true → SameHash t.hashes (t.newHash type a).hashes g := by
  refine ⟨Table.empty (k := 6) (by simp [newHash, hashBaseBuckets]) (by simp [newHash]), ?_⟩
  intro g hg
  have hne : g ≠ t.hashes.arena.next := (Arena.lt_next hg).ne
  exact ⟨by simp [newHash, Arena.alloc_live, hne], by simp [newHash, hne],
    by simp [newHash, hne], by simp [newHash, hne], by simp [newHash, hne],
    by simp [newHash, hne]⟩

/-- `convert_hash` puts the children of a node into a new table. -/
theorem convertHash_spec {a b : ℕ} {ks : List ℕ} (type : FieldType)
    (ha : t.nodes.arena.live a = true) (hc : t.nodes.child a = .node b)
    (hh : t.nodes.hashed a = false) (hks : ks.Nodup) (hd : ks.head? = some b)
    (hl : Linked t.nodes.next t.nodes.prev none ks)
    (hlive : ∀ x ∈ ks, t.nodes.arena.live x = true) :
    ∃ (N' : NodeHeap) (H' : HashHeap) (chain' : ℕ → List ℕ),
      t.convertHash a type = .ok (t.withHeaps
        { N' with
          child := Function.update N'.child a (.hash t.hashes.arena.next)
          hashed := Function.update N'.hashed a true } H') ∧
      Relinked t.nodes N' (· ∈ ks) ∧
      H'.arena.live t.hashes.arena.next = true ∧ H'.parent t.hashes.arena.next = a ∧
      H'.total t.hashes.arena.next = ks.length ∧
      (∀ g, t.hashes.arena.live g = true → SameHash t.hashes H' g) ∧
      Table N' H' t.hashes.arena.next (· ∈ ks) chain' := by
  obtain ⟨hempty, hsame⟩ := newHash_spec t type a t.nodes
  have hnew : (t.newHash type a).hashes.arena.live t.hashes.arena.next = true :=
    Arena.alloc_live_next
  have hlen : ks.length ≤ t.nodes.arena.next :=
    length_le_of_nodup_of_lt hks fun x hx => Arena.lt_next (hlive x hx)
  obtain ⟨N', s, chain', hok, hrel, ht'⟩ :=
    rehash_spec (t := t.newHash type a) (K := fun _ => False) hnew ks _ 0 hlen hks
      (fun xs x ys he => ((he ▸ hl).at_split).2) hlive (fun _ h => h.elim) (fun _ _ h => h) hempty
  simp only [or_false] at hrel ht'
  have ha' : N'.arena.live a = true := by rw [hrel.arena]; exact ha
  have hh' : N'.hashed a = false := by rw [hrel.hashed]; exact hh
  refine ⟨N', ((t.newHash type a).hashes.withSlots t.hashes.arena.next s).withTotal
    t.hashes.arena.next ks.length, chain', ?_, hrel, hnew,
    by simp [newHash, HashHeap.withSlots, HashHeap.withTotal], by simp [HashHeap.withTotal],
    fun g hg => ?_, table_withTotal.mpr ht'⟩
  · have hnode : t.nodeChild a = .ok (some b) := by
      simp [nodeChild, Arena.check_of_live ha, hc]
    simp only [convertHash, assert_pos hh, ok_bind, hnode, ← hd]
    rw [show (t.newHash type a).nodes = t.nodes from rfl, hok, ok_bind]
    simp only [Nat.zero_add]
    rw [setTotal_eq (by exact hnew), ok_bind, setChild_eq (by exact ha'), ok_bind,
      assert_pos (by exact hh'), ok_bind, setHashed_eq (by exact ha')]
    rfl
  · have hne : g ≠ t.hashes.arena.next := (Arena.lt_next hg).ne
    exact ((hsame g hg).trans (HashHeap.withSlots_same _ s hne)).trans
      (HashHeap.withTotal_same _ _ hne)

end Trie

end Meld.Db
