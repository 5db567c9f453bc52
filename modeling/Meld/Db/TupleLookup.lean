import Meld.Db.TupleIndex

/-!
# Hashed and plain lookup

Whatever operations led to a trie, the children of a hashed node are stored in its table as a
plain node stores them in its list: each child is in the bucket of its field, the pointers
between the children of a bucket agree, and a lookup through the table finds what a search
through all children finds.
-/

namespace Meld.Db

open Meld.Lib Meld.Vm

section

variable {L : Type} [LeafOps L] {t : Trie L} {types : List FieldType} {word : Words}
  {ls ks : List ℕ} {a g : ℕ}

/-- `ks` lists the children of the node `a`. -/
structure Children (t : Trie L) (a : ℕ) (ks : List ℕ) : Prop where
  nodup : ks.Nodup
  mem : ∀ c, c ∈ ks ↔ t.nodes.arena.live c = true ∧ t.nodes.parent c = some a

/-- The node `a` stores its children `ks` in the table `g`, bucket `i` holding the list
`chain i`. -/
structure HashedNode (t : Trie L) (a : ℕ) (ks : List ℕ) (g : ℕ) (chain : ℕ → List ℕ) : Prop where
  child : t.nodes.child a = .hash g
  live : t.hashes.arena.live g = true
  total : t.hashes.total g = ks.length
  slot : ∀ i < t.hashes.numBuckets g, t.hashes.slots g i = (chain i).head?
  linked : ∀ i < t.hashes.numBuckets g, Linked t.nodes.next t.nodes.prev none (chain i)
  nodup : ∀ i < t.hashes.numBuckets g, (chain i).Nodup
  mem : ∀ i < t.hashes.numBuckets g, ∀ c,
    c ∈ chain i ↔ c ∈ ks ∧ hashField (t.nodes.data c) % t.hashes.numBuckets g = i
  bucket : ∀ c ∈ ks, t.nodes.bucket c =
    some (t.hashes.buckets g, hashField (t.nodes.data c) % t.hashes.numBuckets g)
  distinct : ∀ c ∈ ks, ∀ c' ∈ ks, c ≠ c' → (t.nodes.data c).sameAs (t.nodes.data c') = false

/-- The nodes of a valid trie are the live ones. -/
theorem Tree.kids_iff (h : Valid types t word ls) : Kids t.nodes word a ks ↔ Children t a ks := by
  have hlive : ∀ c, (word c).isSome ↔ t.nodes.arena.live c = true := fun c =>
    ⟨h.shape.live c, fun hl => (h.clean c hl).resolve_right id⟩
  constructor
  · exact fun hk => ⟨hk.nodup, fun c => by rw [hk.mem, Kid, hlive]⟩
  · exact fun hk => ⟨hk.nodup, fun c => by rw [hk.mem, Kid, hlive]⟩

/-- Every listing of the children is stored by the one table of the node. -/
theorem Tree.hashedNode (h : Valid types t word ls) (hstr : NoString types)
    (ha : t.nodes.arena.live a = true) (hh : t.nodes.hashed a = true) :
    ∃ (g : ℕ) (chain : ℕ → List ℕ), (∃ ks, Children t a ks) ∧
      ∀ ks, Children t a ks → HashedNode t a ks g chain := by
  have hw := (h.clean a ha).resolve_right id
  obtain ⟨u, hu⟩ := Option.isSome_iff_exists.mp hw
  cases h.shape.rep a hw id with
  | null hc =>
    have hne : a = t.root := by
      by_contra hne
      exact h.full a hw hne id hc
    rw [hne, h.root_hashed id (hne ▸ hc)] at hh
    cases hh
  | plain b ks hc hh' => simp [hh'] at hh
  | leaf l hc hh' => simp [hh'] at hh
  | table g ks chain hc _ hks hne hlive hp htotal ht =>
    refine ⟨g, chain, ⟨ks, h.kids_iff.mp hks⟩, fun ks' hks' => ?_⟩
    have hk := h.kids_iff.mpr hks'
    have hperm : ks'.Perm ks := by
      rw [List.perm_ext_iff_of_nodup hk.nodup hks.nodup]
      exact fun c => (hk.mem c).trans (hks.mem c).symm
    refine ⟨hc, hlive, htotal.trans hperm.length_eq.symm, ht.slot, ht.linked, ht.nodup,
      fun i hi c => ?_, fun c hc => ?_, fun c hc c' hc' hcc' => ?_⟩
    · rw [ht.mem i hi, hk.mem, HashHeap.item_eq_mod ht.size]
    · rw [ht.bucket c ((hk.mem c).mp hc), HashHeap.item_eq_mod ht.size]
    · have hkc := (hk.mem c).mp hc
      exact h.shape.distinct a u c c' hu hkc ((hk.mem c').mp hc') hcc'
        (hstr.narrowTree h.shape a c hkc)

/-- What a lookup finds is what a search through all the children finds. -/
theorem Tree.eq_find (h : Valid types t word ls) (hstr : NoString types) {f : TupleField}
    {r : Option ℕ} (hf : Finds t.nodes word a f r) (hk : Kids t.nodes word a ks) :
    r = ks.find? fun c => (t.nodes.data c).sameAs f := by
  cases r with
  | none =>
    refine (List.find?_eq_none.mpr fun c hc => ?_).symm
    simp [hf.missed rfl c ((hk.mem c).mp hc)]
  | some c =>
    obtain ⟨hkc, hs⟩ := hf.found c rfl
    cases hfind : ks.find? fun c => (t.nodes.data c).sameAs f with
    | none =>
      rw [List.find?_eq_none] at hfind
      exact absurd hs (hfind c ((hk.mem c).mpr hkc))
    | some c' =>
      have hkc' := (hk.mem c').mp (List.mem_of_find?_eq_some hfind)
      have hs' := List.find?_some hfind
      rw [Trie.kid_unique h.shape (hstr.narrowTree h.shape a) hkc hs hkc' hs']

end

namespace TupleTrie

variable {types : List FieldType} {t : TupleTrie} {a : ℕ}

/-- In every reachable trie a hashed node has a table that stores its children consistently, and
looking a value up there finds the child that a search through all children finds, in whatever
order these are listed. -/
theorem hashed_lookup (hstr : NoString types) (h : Reachable types t)
    (ha : t.nodes.arena.live a = true) (hh : t.nodes.hashed a = true) :
    ∃ (g : ℕ) (chain : ℕ → List ℕ), (∃ ks, Children t a ks) ∧
      ∀ ks, Children t a ks → HashedNode t a ks g chain ∧
        ((∀ τ ∈ types, τ.Exact) →
          ∀ c ∈ ks, ∀ c' ∈ ks, c ≠ c' → t.nodes.data c ≠ t.nodes.data c') ∧
        (∀ v : Value, ∃ n, t.matchNode a v =
          .ok (ks.find? fun c => (t.nodes.data c).sameAs v.store, n)) ∧
        ∀ x : Item, t.getBy a x = .ok (ks.find? fun c => (t.nodes.data c).sameAs (.item x)) := by
  obtain ⟨word, ls, hinv⟩ := h.inv
  have hv := hinv.valid
  have hw := (hv.clean a ha).resolve_right id
  obtain ⟨g, chain, hex, hnode⟩ := Tree.hashedNode hv hstr ha hh
  refine ⟨g, chain, hex, fun ks hks => ⟨hnode ks hks, fun hexact c hc c' hc' hne heq => ?_,
    fun v => ?_, fun x => ?_⟩⟩
  · have hk := (Tree.kids_iff hv).mpr hks
    obtain ⟨u, hu, -⟩ := hv.shape.kid_word ((hk.mem c).mp hc)
    obtain ⟨τ, ρ, hτ, hfit⟩ := hv.shape.typed a u c hu ((hk.mem c).mp hc)
    have hd := (hnode ks hks).distinct c hc c' hc' hne
    rw [← heq, (TupleField.sameAs_iff (exact_restTypes hexact (w := u) (by simp [hτ])) hfit).mpr rfl] at hd
    cases hd
  · have hk := (Tree.kids_iff hv).mpr hks
    have hc := (hnode ks hks).child
    obtain ⟨r, n, hok, hf, -⟩ := Trie.matchNode_spec v (hv.shape.rep a hw id) ha
      (fun c hc => hv.shape.live c hc.1) (by rw [hc]; rfl)
    exact ⟨n, by rw [hok, Tree.eq_find hv hstr hf hk]⟩
  · have hk := (Tree.kids_iff hv).mpr hks
    have hc := (hnode ks hks).child
    obtain ⟨r, hok, hf⟩ := Trie.getBy_spec x (hv.shape.rep a hw id) ha
      (fun c hc => hv.shape.live c hc.1) (by rw [hc]; rfl) (by rw [hc]; simp)
    rw [hok, Tree.eq_find hv hstr hf hk]

/-- The nine integers that make the root a hashed node. -/
theorem hashed_lookup_nine : ∃ (t : TupleTrie) (ks : List ℕ) (g : ℕ) (chain : ℕ → List ℕ),
    Reachable [.item .int] t ∧ HashedNode t t.root ks g chain := by
  let ops := (List.range 9).map fun i => Op.insert [.item (.int (Int32.ofNat i))] 1
  have hrun : (runAll Trie.new ops).map
      (fun t => (t.nodes.hashed t.root, t.nodes.arena.live t.root)) = .ok (true, true) := by
    decide +kernel
  cases ht : runAll Trie.new ops with
  | error e => simp [ht, Except.map] at hrun
  | ok t =>
    simp only [ht, Except.map, Except.ok.injEq, Prod.mk.injEq] at hrun
    have hfits : ∀ op ∈ ops, ∀ t, op.Fits [.item .int] t := fun op hop t => by
      obtain ⟨i, -, rfl⟩ := List.mem_map.mp hop
      exact ⟨⟨rfl, by simp [Value.Ok]⟩, by decide, by simp [maxShort]⟩
    have hreach := Reachable.new.runAll hfits ht
    obtain ⟨g, chain, ⟨ks, hks⟩, hnode⟩ :=
      hashed_lookup (by simp [NoString]) hreach hrun.2 hrun.1
    exact ⟨t, ks, g, chain, hreach, (hnode ks hks).1⟩

end TupleTrie

end Meld.Db
