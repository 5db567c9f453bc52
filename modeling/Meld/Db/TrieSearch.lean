import Meld.Db.TrieHash

/-!
# Looking up a child

Whether a node's children are in one list or in a table, the search for a field returns a child
whose stored field is the one searched for, or nothing when there is none. Below, `Finds` is this
specification, and the walks of `check_insert` and `delete_by_index` use it for their steps.
-/

namespace Meld.Db

open Meld.Lib Meld.Vm

/-- `r` is a child of `a` that stores the field `f`, or null when there is none. -/
structure Finds (N : NodeHeap) (word : Words) (a : ℕ) (f : TupleField) (r : Option ℕ) : Prop where
  found : ∀ c, r = some c → Kid N word a c ∧ (N.data c).sameAs f = true
  missed : r = none → ∀ c, Kid N word a c → (N.data c).sameAs f = false

/-- Searching a list that holds every child with the field, and only children. -/
theorem Finds.of_find {N : NodeHeap} {word : Words} {a : ℕ} {f : TupleField} {l : List ℕ}
    (hsub : ∀ c ∈ l, Kid N word a c)
    (hall : ∀ c, Kid N word a c → (N.data c).sameAs f = true → c ∈ l) :
    Finds N word a f (l.find? fun c => (N.data c).sameAs f) where
  found c hc := ⟨hsub c (List.mem_of_find?_eq_some hc), by simpa using List.find?_some hc⟩
  missed hn c hc := by
    rw [List.find?_eq_none] at hn
    by_contra hs
    rw [Bool.not_eq_false] at hs
    exact hn c (hall c hc hs) hs

namespace Trie

variable {L : Type} [LeafOps L] {t : Trie L} {word : Words} {a : ℕ}

/-- The loop finds the first node of the list with the field. -/
theorem search_spec (f : TupleField) (l : List ℕ) (fuel count : ℕ) (hfuel : l.length ≤ fuel)
    (hnext : ∀ xs a ys, l = xs ++ a :: ys → t.nodes.next a = ys.head?)
    (hlive : ∀ x ∈ l, t.nodes.arena.live x = true) :
    ∃ n, t.search f fuel l.head? count =
      .ok (l.find? fun c => (t.nodes.data c).sameAs f, n) := by
  induction l generalizing fuel count with
  | nil => exact ⟨count, by cases fuel <;> simp [search]⟩
  | cons x l ih =>
    obtain ⟨fuel, rfl⟩ : ∃ n, fuel = n + 1 := ⟨fuel - 1, by simp at hfuel; omega⟩
    simp only [List.head?_cons, search, Arena.check_of_live (hlive x (by simp)), ok_bind]
    by_cases hx : (t.nodes.data x).sameAs f = true
    · exact ⟨count + 1, by simp [hx]⟩
    · obtain ⟨n, hn⟩ := ih fuel (count + 1) (by simpa using hfuel)
        (fun xs b ys he => hnext (x :: xs) b ys (by simp [he])) fun y hy => hlive y (by simp [hy])
      refine ⟨n, ?_⟩
      rw [if_neg hx, hnext [] x l rfl, hn]
      simp [hx]

/-- The lookup in an inner node. -/
theorem searchNode_spec (f : TupleField) (hrep : NodeRep t.nodes t.hashes word a)
    (ha : t.nodes.arena.live a = true)
    (hlive : ∀ c, Kid t.nodes word a c → t.nodes.arena.live c = true)
    (hleaf : (t.nodes.child a).isLeaf = false) (hnull : t.nodes.child a ≠ .null) :
    ∃ (start r : Option ℕ) (n : ℕ), t.searchStart a f = .ok start ∧
      t.search f t.nodes.arena.next start 0 = .ok (r, n) ∧ Finds t.nodes word a f r := by
  have hlen : ∀ l : List ℕ, l.Nodup → (∀ c ∈ l, Kid t.nodes word a c) →
      l.length ≤ t.nodes.arena.next := fun l hl hk =>
    length_le_of_nodup_of_lt hl fun c hc => Arena.lt_next (hlive c (hk c hc))
  cases hrep with
  | null hc => exact absurd hc hnull
  | leaf l hc => simp [hc, Child.isLeaf] at hleaf
  | plain b ks hc hh hks hd hl hb =>
    obtain ⟨n, hn⟩ := search_spec (t := t) f ks t.nodes.arena.next 0
      (hlen ks hks.nodup fun c hc => (hks.mem c).mp hc)
      (fun xs x ys he => ((he ▸ hl).at_split).2) fun c hc => hlive c ((hks.mem c).mp hc)
    refine ⟨some b, _, n, ?_, hd ▸ hn, .of_find (fun c hc => (hks.mem c).mp hc)
      fun c hc _ => (hks.mem c).mpr hc⟩
    simp [searchStart, hh, nodeChild, Arena.check_of_live ha, hc]
  | table h ks chain hc hh hks hne hlh hp htotal ht =>
    have hlt := HashHeap.item_lt ht.size (hashField f)
    have hmem := ht.mem _ hlt
    obtain ⟨n, hn⟩ := search_spec (t := t) f (chain (t.hashes.item h (hashField f)))
      t.nodes.arena.next 0
      (hlen _ (ht.nodup _ hlt) fun c hc => ((hmem c).mp hc).1)
      (fun xs x ys he => ((he ▸ ht.linked _ hlt).at_split).2)
      fun c hc => hlive c ((hmem c).mp hc).1
    refine ⟨t.hashes.slots h (t.hashes.item h (hashField f)), _, n, ?_, ht.slot _ hlt ▸ hn,
      .of_find (fun c hc => ((hmem c).mp hc).1)
        fun c hc hs => (hmem c).mpr ⟨hc, by rw [hashField_eq_of_sameAs hs]⟩⟩
    have hget : t.getField h f = t.hashes.slots h (t.hashes.item h (hashField f)) := by
      rcases f with (v | v | v) | p <;> rfl
    simp [searchStart, hh, getHash, Arena.check_of_live ha, hc, Arena.check_of_live hlh, hget]

/-- `match` on a node that is no leaf. -/
theorem matchNode_spec (v : Value) (hrep : NodeRep t.nodes t.hashes word a)
    (ha : t.nodes.arena.live a = true)
    (hlive : ∀ c, Kid t.nodes word a c → t.nodes.arena.live c = true)
    (hleaf : (t.nodes.child a).isLeaf = false) :
    ∃ (r : Option ℕ) (n : ℕ), t.matchNode a v = .ok (r, n) ∧
      Finds t.nodes word a v.store r ∧ (t.nodes.child a = .null → n = 0) := by
  simp only [matchNode, Arena.check_of_live ha, ok_bind, assert_pos hleaf]
  by_cases hnull : t.nodes.child a = .null
  · refine ⟨none, 0, by simp [hnull], ⟨fun c hc => by simp at hc, fun _ c hc => ?_⟩, fun _ => rfl⟩
    cases hrep with
    | null _ hk => exact absurd hc (hk c)
    | plain b ks hc => simp [hc] at hnull
    | table h ks chain hc => simp [hc] at hnull
    | leaf l hc => simp [hc] at hnull
  · obtain ⟨start, r, n, hstart, hr, hfind⟩ :=
      searchNode_spec v.store hrep ha hlive hleaf hnull
    exact ⟨r, n, by simp [hnull, hstart, hr], hfind, fun hn => absurd hn hnull⟩

/-- The lookups read nothing but the nodes and the tables. -/
theorem matchNode_congr {t' : Trie L} (hn : t'.nodes = t.nodes) (hh : t'.hashes = t.hashes)
    (a : ℕ) (v : Value) : t'.matchNode a v = t.matchNode a v := by
  have hsearch : ∀ f fuel start count,
      t'.search f fuel start count = t.search f fuel start count := by
    intro f fuel
    induction fuel with
    | zero => rintro (_ | b) count <;> rfl
    | succ fuel ih =>
      rintro (_ | b) count
      · rfl
      · simp only [search, hn, ih]
  have hfield : ∀ h f, t'.getField h f = t.getField h f := fun h f => by
    rcases f with (x | x | x) | p <;>
      simp only [getField, getInt, getFloat, getNode, getUint, hashItem, hh]
  simp only [matchNode, searchStart, getHash, nodeChild, hsearch, hfield, hn, hh]

/-- `get_by_int`, `get_by_float` and `get_by_node` on a node with children. -/
theorem getBy_spec (x : Item) (hrep : NodeRep t.nodes t.hashes word a)
    (ha : t.nodes.arena.live a = true)
    (hlive : ∀ c, Kid t.nodes word a c → t.nodes.arena.live c = true)
    (hleaf : (t.nodes.child a).isLeaf = false) (hnull : t.nodes.child a ≠ .null) :
    ∃ r, t.getBy a x = .ok r ∧ Finds t.nodes word a (.item x) r := by
  obtain ⟨start, r, n, hstart, hr, hfind⟩ := searchNode_spec (.item x) hrep ha hlive hleaf hnull
  refine ⟨r, ?_, hfind⟩
  simp [getBy, Arena.check_of_live ha, assert_pos hleaf, assert_pos hnull, hstart, hr]

/-- The three finders stop on a leaf and on a node without children. -/
theorem getBy_error (x : Item) (ha : t.nodes.arena.live a = true)
    (hc : (t.nodes.child a).isLeaf = true ∨ t.nodes.child a = .null) :
    t.getBy a x = .error .assertion := by
  rw [getBy, Arena.check_of_live ha, ok_bind]
  rcases hc with hc | hc
  · rw [assert_neg (by simp [hc]), error_bind]
  · simp [assert, hc, Child.isLeaf]

end Trie

end Meld.Db
