import Meld.Db.TupleStrings

/-!
# Counts over a run

A leaf keeps its count in a signed 16-bit integer and the trie its total in a signed 32-bit one.
`CountedRun` are the runs of insertions and deletions, with the bag of what was inserted and not
deleted, that keep every count and the total in range and insert only tuples that the trie finds
again. On these the stored numbers are those of the bag, and what `insert_tuple` and
`delete_tuple` say about a tuple is true of the bag.
-/

namespace Meld.Db

open Meld.Lib Meld.Vm

namespace TupleTrie

variable {types : List FieldType} {t t' : TupleTrie} {s : Multiset (List Value)}
  {tpl : List Value} {ls : List ℕ} {n : ℕ}

/-- The tries and bags after a run. The bag has the tuples in their canonical form. -/
inductive CountedRun (types : List FieldType) : TupleTrie → Multiset (List Value) → Prop
  | new : CountedRun types Trie.new 0
  | insert {t t' : TupleTrie} {s : Multiset (List Value)} {tpl : List Value} {n : ℕ} {b : Bool}
      (h : CountedRun types t s) (htpl : Typed types tpl) (hn : 0 < n) (hfind : Findable tpl)
      (hshort : ((s.count (canon tpl) + n : ℕ) : ℤ) ≤ maxShort)
      (hint : ((s.card + n : ℕ) : ℤ) ≤ maxInt)
      (hrun : t.insertTuple tpl n = .ok (t', b)) :
      CountedRun types t' (s + Multiset.replicate n (canon tpl))
  | delete {t t₁ t' : TupleTrie} {s : Multiset (List Value)} {tpl : List Value} {n : ℕ}
      {info : DeleteInfo} (h : CountedRun types t s) (htpl : Typed types tpl) (hn : 0 < n)
      (hle : n ≤ s.count (canon tpl)) (hrun : t.deleteTuple tpl n = .ok (t₁, info))
      (hcommit : t₁.commit info = .ok t') :
      CountedRun types t' (s - Multiset.replicate n (canon tpl))

/-- The numbers in the trie `t` with the leaves `ls` are those of the bag `s`. -/
structure CountsOf (t : TupleTrie) (s : Multiset (List Value)) (ls : List ℕ) : Prop where
  list : LeafList t.leaves t.firstLeaf t.lastLeaf ls
  mem : ∀ tpl, tpl ∈ s ↔ ∃ l ∈ ls, t.leafTuple l = tpl
  single : ∀ l ∈ ls, ∀ l' ∈ ls, t.leafTuple l = t.leafTuple l' → l = l'
  count : ∀ l ∈ ls, (t.leaves.payload l).count = s.count (t.leafTuple l)
  references : t.numberOfReferences = (ls.map fun l => (t.leaves.payload l).count).sum
  card : t.numberOfReferences = s.card

theorem Holds.countsOf {word : Words} (h : Holds types t s word ls) : CountsOf t s ls where
  list := h.inv.valid.leafList
  mem tpl := ⟨h.leaf tpl, fun ⟨l, hl, he⟩ => he ▸ h.mem l hl⟩
  single _ hl _ hl' heq := h.leaf_unique hl hl' heq
  count := h.count
  references := h.references.trans h.sum.symm
  card := h.references

/-- The tuples of the bag are those that the trie finds again. -/
theorem Holds.findable_of_mem {word : Words} (h : Holds types t s word ls)
    (hmem : canon tpl ∈ s) : Findable tpl := by
  obtain ⟨l, hl, heq⟩ := h.leaf _ hmem
  have hleaf := findable_canon.mpr (h.findable l hl)
  rw [leafTuple] at heq
  exact findable_canon.mp (heq ▸ hleaf)

theorem CountedRun.holds (h : CountedRun types t s) :
    ∃ (word : Words) (ls : List ℕ), Holds types t s word ls := by
  induction h with
  | new => exact ⟨_, _, Holds.new types⟩
  | insert _ htpl hn hfind hshort hint hrun ih =>
    obtain ⟨word, ls, hh⟩ := ih
    obtain ⟨t₁, word', ls', hok, hres, -⟩ := hh.insertTuple htpl hfind hn hshort hint
    rw [hrun, Except.ok.injEq, Prod.mk.injEq] at hok
    exact ⟨word', ls', hok.1 ▸ hres⟩
  | delete _ htpl hn hle hrun hcommit ih =>
    obtain ⟨word, ls, hh⟩ := ih
    have hfind := hh.findable_of_mem (Multiset.count_pos.mp (hn.trans_le hle))
    obtain ⟨t₂, t₃, info, word', ls', hok, hcommit', -, hres, -⟩ :=
      hh.deleteTuple htpl hfind hn hle
    rw [hrun, Except.ok.injEq, Prod.mk.injEq] at hok
    obtain ⟨rfl, rfl⟩ := hok
    rw [hcommit, Except.ok.injEq] at hcommit'
    exact ⟨word', ls', hcommit' ▸ hres⟩

/-- After every such run the count of each leaf is the number of insertions of its tuple less the
deletions, the total is the sum of the counts, an insertion says whether the tuple was absent, and
a deletion of what is there says whether nothing is left. -/
theorem counts_exact (h : CountedRun types t s) :
    (∃ ls, CountsOf t s ls) ∧ ∀ tpl n, Typed types tpl → 0 < n →
      (Findable tpl → ((s.count (canon tpl) + n : ℕ) : ℤ) ≤ maxShort →
        ((s.card + n : ℕ) : ℤ) ≤ maxInt →
        ∃ t', t.insertTuple tpl n = .ok (t', decide (canon tpl ∉ s))) ∧
      (n ≤ s.count (canon tpl) → ∃ t₁ info t', t.deleteTuple tpl n = .ok (t₁, info) ∧
        t₁.commit info = .ok t' ∧ info.isSome = decide (s.count (canon tpl) = n)) := by
  obtain ⟨word, ls, hh⟩ := h.holds
  refine ⟨⟨ls, hh.countsOf⟩, fun tpl n htpl hn => ⟨fun hfind hshort hint => ?_, fun hle => ?_⟩⟩
  · obtain ⟨t', -, -, hok, -⟩ := hh.insertTuple htpl hfind hn hshort hint
    exact ⟨t', hok⟩
  · have hfind := hh.findable_of_mem (Multiset.count_pos.mp (hn.trans_le hle))
    obtain ⟨t₁, t', info, -, -, hok, hcommit, hinfo, -⟩ := hh.deleteTuple htpl hfind hn hle
    exact ⟨t₁, info, t', hok, hcommit, hinfo⟩

/-- Two insertions of a float, one of them as the other zero. -/
theorem counts_exact_zeros : ∃ (t : TupleTrie) (ls : List ℕ),
    CountedRun [.item .float] t {[.item (.float 0)], [.item (.float 0)]} ∧
      CountsOf t {[.item (.float 0)], [.item (.float 0)]} ls := by
  have htyped : ∀ x, Typed [.item .float] [.item (.float x)] := fun x => ⟨rfl, by simp [Value.Ok]⟩
  have hfind₀ : Findable [.item (.float 0)] := by decide +kernel
  have hcanon₀ : canon [.item (.float 0)] = [.item (.float 0)] := by decide +kernel
  have hfind₁ : Findable [.item (.float 0x8000000000000000)] := by decide +kernel
  have hcanon₁ : canon [.item (.float 0x8000000000000000)] = [.item (.float 0)] := by
    decide +kernel
  have hrun₀ : CountedRun [.item .float] Trie.new 0 := .new
  have hshort : ∀ k, k ≤ 2 → ((k : ℕ) : ℤ) ≤ maxShort ∧ ((k : ℕ) : ℤ) ≤ maxInt := fun k hk => by
    simp only [maxShort, maxInt]
    omega
  obtain ⟨t₁, h₁⟩ := ((counts_exact hrun₀).2 _ 1 (htyped 0) Nat.one_pos).1 hfind₀
    (hshort _ (by simp)).1 (hshort _ (by simp)).2
  have hrun₁ := hrun₀.insert (htyped 0) Nat.one_pos hfind₀ (hshort _ (by simp)).1
    (hshort _ (by simp)).2 h₁
  rw [hcanon₀, zero_add, Multiset.replicate_one] at hrun₁
  have hcount :
      Multiset.count (canon [.item (.float 0x8000000000000000)]) {[.item (.float 0)]} + 1 ≤ 2 := by
    rw [hcanon₁, Multiset.count_singleton_self]
  obtain ⟨t₂, h₂⟩ := ((counts_exact hrun₁).2 _ 1 (htyped 0x8000000000000000) Nat.one_pos).1 hfind₁
    (hshort _ hcount).1 (hshort _ (by simp)).2
  have hrun₂ := hrun₁.insert (htyped _) Nat.one_pos hfind₁ (hshort _ hcount).1
    (hshort _ (by simp)).2 h₂
  rw [hcanon₁, Multiset.replicate_one] at hrun₂
  obtain ⟨ls, hls⟩ := (counts_exact hrun₂).1
  exact ⟨t₂, ls, hrun₂, hls⟩

/-- An integer inserted 65537 times: its count is one, and deleting it once is to remove it. -/
theorem not_counts_exact : ∃ (t₁ t₂ t₃ t₄ : TupleTrie) (b : Bool) (node : ℕ),
    insertTuple Trie.new [.item (.int 5)] 32767 = .ok (t₁, true) ∧
    t₁.insertTuple [.item (.int 5)] 32767 = .ok (t₂, b) ∧
    t₂.insertTuple [.item (.int 5)] 3 = .ok (t₃, false) ∧
    t₃.numberOfReferences = 65537 ∧ t₃.firstLeaf = some 0 ∧ t₃.leaves.next 0 = none ∧
    (t₃.leaves.payload 0).count = 1 ∧
    t₃.deleteTuple [.item (.int 5)] 1 = .ok (t₄, some (node, 1)) := by
  have hrun : (insertTuple Trie.new [.item (.int 5)] 32767 >>= fun r₁ =>
      r₁.1.insertTuple [.item (.int 5)] 32767 >>= fun r₂ =>
      r₂.1.insertTuple [.item (.int 5)] 3 >>= fun r₃ =>
      (r₃.1.deleteTuple [.item (.int 5)] 1).map fun r₄ =>
        (r₄.2, [r₁.2, r₃.2], [r₃.1.numberOfReferences, (r₃.1.leaves.payload 0).count],
          [r₃.1.firstLeaf, r₃.1.leaves.next 0])) =
      .ok (some (1, 1), [true, false], [65537, 1], [some 0, none]) := by
    decide +kernel
  obtain ⟨⟨t₁, b₁⟩, h₁, hrun⟩ := bind_eq_ok.mp hrun
  obtain ⟨⟨t₂, b₂⟩, h₂, hrun⟩ := bind_eq_ok.mp hrun
  obtain ⟨⟨t₃, b₃⟩, h₃, hrun⟩ := bind_eq_ok.mp hrun
  cases h₄ : t₃.deleteTuple [.item (.int 5)] 1 with
  | error e => simp [h₄, Except.map] at hrun
  | ok r =>
    obtain ⟨t₄, info⟩ := r
    simp only [h₄, Except.map, Except.ok.injEq, Prod.mk.injEq, List.cons.injEq, and_true] at hrun
    obtain ⟨rfl, ⟨rfl, rfl⟩, ⟨hrefs, hcount⟩, hfirst, hnext⟩ := hrun
    exact ⟨t₁, t₂, t₃, t₄, b₂, 1, h₁, h₂, h₃, hrefs, hfirst, hnext, hcount, h₄⟩

end TupleTrie

end Meld.Db
