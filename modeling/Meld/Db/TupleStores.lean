import Meld.Db.TupleAbsent

/-!
# A tuple trie with NaNs

A tuple with a NaN is not equal to itself, so the trie never finds it again: every insertion makes a
leaf of its own, and no deletion reaches it. `Stores` relates a trie to the bag of the other tuples,
as `Holds` does, and to the leaves of the tuples that are not found again.
-/

namespace Meld.Db

open Meld.Lib Meld.Vm

namespace TupleTrie

variable {types : List FieldType} {t t' : TupleTrie} {word word' : Words} {ls ls' : List ℕ}
  {tpl : List Value} {l l' : ℕ} {s s' : Multiset (List Value)}
  {nans nans' : Multiset (List Value × ℤ)} {n : ℕ}

/-- The tuple of a leaf, in its canonical form, and its count. -/
def entry (t : TupleTrie) (l : ℕ) : List Value × ℤ := (t.leafTuple l, (t.leaves.payload l).count)

/-- The trie `t` with the leaves `ls` stores the bag `s` of tuples that it finds again, and one leaf
for each of the `nans`. -/
structure Stores (types : List FieldType) (t : TupleTrie) (s : Multiset (List Value))
    (nans : Multiset (List Value × ℤ)) (word : Words) (ls : List ℕ) : Prop where
  inv : Inv types t word ls
  narrow : NarrowTree t.nodes word
  mem : ∀ l ∈ ls, Findable (t.leafTuple l) → t.leafTuple l ∈ s
  leaf : ∀ tpl ∈ s, Findable tpl ∧ ∃ l ∈ ls, t.leafTuple l = tpl
  count : ∀ l ∈ ls, Findable (t.leafTuple l) →
    (t.leaves.payload l).count = s.count (t.leafTuple l)
  unfound : (((ls.filter fun l => ¬Findable (t.leafTuple l)).map t.entry : List _) :
    Multiset (List Value × ℤ)) = nans
  pos : ∀ e ∈ nans, 0 < e.2
  references : t.numberOfReferences = s.card + (nans.map Prod.snd).sum
  short : ∀ tpl, (s.count tpl : ℤ) ≤ maxShort
  int : s.card + (nans.map Prod.snd).sum ≤ maxInt

namespace Stores

theorem nonneg (h : Stores types t s nans word ls) : 0 ≤ (nans.map Prod.snd).sum := by
  refine Multiset.sum_nonneg fun k hk => ?_
  obtain ⟨e, he, rfl⟩ := Multiset.mem_map.mp hk
  exact (h.pos e he).le

/-- The leaves that are not found again. -/
theorem mem_nans (h : Stores types t s nans word ls) (hl : l ∈ ls)
    (hfind : ¬Findable (t.leafTuple l)) : t.entry l ∈ nans := by
  rw [← h.unfound, Multiset.mem_coe]
  exact List.mem_map_of_mem (List.mem_filter.mpr ⟨hl, decide_eq_true hfind⟩)

theorem eq_nil_iff (h : Stores types t s nans word ls) :
    (s.card : ℤ) + (nans.map Prod.snd).sum = 0 ↔ ls = [] := by
  constructor
  · intro hzero
    have hnonneg := h.nonneg
    obtain rfl : s = 0 := Multiset.card_eq_zero.mp (by omega)
    rw [List.eq_nil_iff_forall_not_mem]
    intro l hl
    by_cases hfind : Findable (t.leafTuple l)
    · exact Multiset.notMem_zero _ (h.mem l hl hfind)
    · have hmem := h.mem_nans hl hfind
      have hle := Multiset.single_le_sum (s := nans.map Prod.snd) (fun k hk => by
        obtain ⟨e, he, rfl⟩ := Multiset.mem_map.mp hk
        exact (h.pos e he).le) _ (Multiset.mem_map_of_mem Prod.snd hmem)
      have hpos := h.pos _ hmem
      rw [Multiset.card_zero] at hzero
      omega
  · rintro rfl
    have hs : s = 0 := by
      rw [Multiset.eq_zero_iff_forall_notMem]
      intro tpl htpl
      obtain ⟨-, l, hl, -⟩ := h.leaf tpl htpl
      exact List.not_mem_nil hl
    have hnans : nans = 0 := h.unfound.symm
    rw [hs, hnans]
    rfl

/-- The new trie stores nothing. -/
theorem new (types : List FieldType) : Stores types (Trie.new : TupleTrie) 0 0
    (Function.update (fun _ => none) 0 (some [])) [] :=
  ⟨⟨Tree.new types, by simp, by simp⟩, (Tree.narrowTree_iff (Tree.new types)).mpr (by simp),
    by simp, by simp, by simp, rfl, by simp, rfl, by simp [maxShort_nonneg], by simp [maxInt]⟩

theorem leaf_unique (h : Stores types t s nans word ls) (hl : l ∈ ls) (hl' : l' ∈ ls)
    (hfind : Findable (t.leafTuple l)) (heq : t.leafTuple l = t.leafTuple l') : l = l' :=
  h.inv.leaf_unique h.narrow hl hl' (findable_canon.mp hfind)
    (findable_canon.mp (heq ▸ hfind : Findable (t.leafTuple l'))) heq

/-- The leaf that the search ends at holds the tuple, which is found again. -/
theorem found (h : Stores types t s nans word ls) (htpl : Typed types tpl)
    (hf : Trie.Found t word ls tpl l) :
    Findable (canon tpl) ∧ t.leafTuple l = canon tpl := by
  have hsame := h.inv.sameValues_of_found h.narrow htpl hf
  obtain ⟨hleaf, hfind⟩ := findable_of_sameValues hsame (h.inv.narrow_levels h.narrow hf.mem)
  exact ⟨findable_canon.mpr hfind, h.inv.leafTuple_of_found h.narrow htpl hfind hf hleaf⟩

/-- A tuple that the search does not end at is not in the bag. -/
theorem absent (h : Stores types t s nans word ls) (habs : Trie.Absent t word ls tpl) :
    canon tpl ∉ s := by
  intro hmem
  obtain ⟨hfind, l, hl, hlt⟩ := h.leaf _ hmem
  exact h.inv.leafTuple_ne_of_absent h.narrow (findable_canon.mp hfind) habs hl
    (findable_canon.mp (hlt.symm ▸ hfind : Findable (t.leafTuple l))) hlt

theorem entry_counted {k r : ℤ} {x : ℕ} (hx : x ≠ l) :
    entry ((t.counted l k).withRefs r) x = t.entry x := by
  rw [entry, entry, Holds.leafTuple_counted]
  simp [Trie.counted, Trie.withRefs, hx]

/-- The number of a leaf changes, and the bag with it. -/
theorem counted (h : Stores types t s nans word ls) (hl : l ∈ ls)
    (hfind : Findable (t.leafTuple l)) {k r : ℤ}
    (hcount : ∀ tpl, (s'.count tpl : ℤ) = s.count tpl + if tpl = t.leafTuple l then k else 0)
    (hpos : t.leafTuple l ∈ s')
    (hr : r = s'.card + (nans.map Prod.snd).sum)
    (hshort : ∀ tpl, (s'.count tpl : ℤ) ≤ maxShort) (hint : r ≤ maxInt) :
    Stores types ((t.counted l k).withRefs r) s' nans word ls := by
  have hself : ((t.counted l k).leaves.payload l).count = (t.leaves.payload l).count + k := by
    have hc := hcount (t.leafTuple l)
    have hs := hshort (t.leafTuple l)
    rw [if_pos rfl] at hc
    have hm := h.count l hl hfind
    simp only [Trie.counted, LeafOps.addCount, Function.update_self]
    refine wrap16_of_mem ?_ (by omega)
    simp only [maxShort] at *
    omega
  have hkeep : ∀ x ∈ ls, x ≠ l → s'.count (t.leafTuple x) = s.count (t.leafTuple x) :=
    fun x hx hxl => by
      have hc := hcount (t.leafTuple x)
      rw [if_neg fun he => hxl (h.leaf_unique hl hx hfind he.symm).symm] at hc
      omega
  refine ⟨(h.inv.counted l k).withRefs _, h.narrow, fun x hx hxf => ?_, fun u hu => ?_,
    fun x hx hxf => ?_, ?_, h.pos, hr, hshort, hr ▸ hint⟩
  · rw [Holds.leafTuple_counted] at hxf ⊢
    by_cases hxl : x = l
    · exact hxl ▸ hpos
    · have hm := Multiset.count_pos.mpr (h.mem x hx hxf)
      exact Multiset.count_pos.mp (by rwa [hkeep x hx hxl])
  · by_cases he : u = t.leafTuple l
    · exact ⟨he ▸ hfind, l, hl, (Holds.leafTuple_counted t l l k _).trans he.symm⟩
    · have hc := hcount u
      rw [if_neg he] at hc
      have hp := Multiset.count_pos.mpr hu
      obtain ⟨hu', x, hx, hxt⟩ := h.leaf u (Multiset.count_pos.mp (by omega))
      exact ⟨hu', x, hx, (Holds.leafTuple_counted t l x k _).trans hxt⟩
  · rw [Holds.leafTuple_counted] at hxf ⊢
    change ((t.counted l k).leaves.payload x).count = s'.count (t.leafTuple x)
    by_cases hxl : x = l
    · subst hxl
      have hc := hcount (t.leafTuple x)
      rw [if_pos rfl] at hc
      rw [hself, h.count x hx hfind, hc]
    · have hpay : (t.counted l k).leaves.payload x = t.leaves.payload x := by
        simp [Trie.counted, hxl]
      rw [hpay, h.count x hx hxf, hkeep x hx hxl]
  · rw [← h.unfound]
    simp only [Holds.leafTuple_counted]
    refine congrArg _ (List.map_congr_left fun x hx => entry_counted ?_)
    rintro rfl
    exact absurd hfind (of_decide_eq_true (List.mem_filter.mp hx).2)

/-- A leaf goes, with all that the bag has of its tuple. -/
theorem removed (h : Stores types t s nans word ls) (hl : l ∈ ls)
    (hfind : Findable (t.leafTuple l)) {t₁ : TupleTrie}
    (hr : Trie.Removed types t₁ t' word word' ls l) (hinv : Inv types t' word' (ls.erase l))
    (hnarrow : NarrowTree t'.nodes word')
    (hpay : ∀ x, x ≠ l → t₁.leaves.payload x = t.leaves.payload x)
    (hcount : ∀ tpl, s'.count tpl = if tpl = t.leafTuple l then 0 else s.count tpl)
    (hcard : s'.card ≤ s.card)
    (href : t₁.numberOfReferences = s'.card + (nans.map Prod.snd).sum) :
    Stores types t' s' nans word' (ls.erase l) := by
  have hnodup := h.inv.valid.leafList.nodup
  have hpay' : ∀ x, x ≠ l → t'.leaves.payload x = t.leaves.payload x := fun x hx => by
    rw [hr.payload, hpay x hx]
  -- the other leaves keep their tuples
  have htuple : ∀ x, x ≠ l → t'.leafTuple x = t.leafTuple x := fun x hx =>
    Holds.leafTuple_congr (hpay' x hx)
  have hmem : ∀ x ∈ ls.erase l, x ∈ ls ∧ x ≠ l := fun x hx => by
    rw [hnodup.mem_erase_iff] at hx
    exact ⟨hx.2, hx.1⟩
  -- and no other leaf has the removed tuple
  have hkeep : ∀ x ∈ ls, x ≠ l → s'.count (t.leafTuple x) = s.count (t.leafTuple x) :=
    fun x hx hxl => by
      rw [hcount, if_neg fun he => hxl (h.leaf_unique hl hx hfind he.symm).symm]
  refine ⟨hinv, hnarrow, fun x hx hxf => ?_, fun u hu => ?_, fun x hx hxf => ?_, ?_, h.pos,
    hr.references.trans href, fun u => ?_, ?_⟩
  · obtain ⟨hxm, hxl⟩ := hmem x hx
    rw [htuple x hxl] at hxf ⊢
    have hm := Multiset.count_pos.mpr (h.mem x hxm hxf)
    exact Multiset.count_pos.mp (by rwa [hkeep x hxm hxl])
  · have hp := Multiset.count_pos.mpr hu
    rw [hcount] at hp
    split_ifs at hp with he
    · omega
    · obtain ⟨hu', x, hx, hxt⟩ := h.leaf u (Multiset.count_pos.mp hp)
      have hxl : x ≠ l := by
        rintro rfl
        exact he hxt.symm
      exact ⟨hu', x, (hnodup.mem_erase_iff).mpr ⟨hxl, hx⟩, (htuple x hxl).trans hxt⟩
  · obtain ⟨hxm, hxl⟩ := hmem x hx
    rw [htuple x hxl] at hxf ⊢
    rw [hpay' x hxl, h.count x hxm hxf, hkeep x hxm hxl]
  · have hfilter : (ls.erase l).filter (fun x => ¬Findable (t'.leafTuple x)) =
        ls.filter fun x => ¬Findable (t.leafTuple x) := by
      have herase : (ls.erase l).filter (fun x => ¬Findable (t'.leafTuple x)) =
          (ls.erase l).filter fun x => ¬Findable (t.leafTuple x) :=
        List.filter_congr fun x hx => by rw [htuple x (hmem x hx).2]
      rw [herase, hnodup.erase_eq_filter, List.filter_filter]
      refine List.filter_congr fun x _ => ?_
      by_cases hxl : x = l
      · subst hxl
        rw [decide_eq_false (not_not.mpr hfind), Bool.false_and]
      · rw [bne_iff_ne.mpr hxl, Bool.and_true]
    rw [hfilter, ← h.unfound]
    refine congrArg _ (List.map_congr_left fun x hx => ?_)
    have hxl : x ≠ l := by
      rintro rfl
      exact absurd hfind (of_decide_eq_true (List.mem_filter.mp hx).2)
    rw [entry, entry, htuple x hxl, hpay' x hxl]
  · rw [hcount]
    split_ifs
    · exact_mod_cast maxShort_nonneg
    · exact h.short u
  · have := h.int
    omega

/-- The leaves after one was added. -/
theorem entry_added {t₁ : TupleTrie} {b : ℕ} {path : List TupleField} {many : ℤ}
    (h : Inv types t word ls)
    (hadd : Added types t₁ t' word word' ls ⟨tpl, many⟩ b path) (hlv : t₁.leaves = t.leaves) :
    (∀ x ∈ ls, t'.leaves.payload x = t.leaves.payload x) ∧
      t'.leaves.payload t.leaves.arena.next = ⟨tpl, many⟩ := by
  refine ⟨fun x hx => ?_, by simp [hadd.leaves, Trie.pushLeaf, hlv]⟩
  have hne : x ≠ t.leaves.arena.next :=
    (Arena.lt_next ((h.valid.leafList.live x).mpr hx)).ne
  simp [hadd.leaves, Trie.pushLeaf, hlv, hne]

/-- A leaf for a new tuple that is found again. -/
theorem added (h : Stores types t s nans word ls) {t₁ : TupleTrie} {b : ℕ}
    {path : List TupleField} (hlv : t₁.leaves = t.leaves)
    (hinv : Inv types t' word' (ls ++ [t.leaves.arena.next])) (hnarrow : NarrowTree t'.nodes word')
    (hadd : Added types t₁ t' word word' ls ⟨tpl, n⟩ b path) (hfind : Findable (canon tpl))
    (htpl : canon tpl ∉ s) (hn : 0 < n) (hshort : (n : ℤ) ≤ maxShort)
    (hint : s.card + n + (nans.map Prod.snd).sum ≤ maxInt)
    (href : t₁.numberOfReferences = s.card + n + (nans.map Prod.snd).sum) :
    Stores types t' (s + Multiset.replicate n (canon tpl)) nans word'
      (ls ++ [t.leaves.arena.next]) := by
  -- the other leaves are as they were
  obtain ⟨hold, hnew⟩ := entry_added h.inv hadd hlv
  have hnew' : t'.leafTuple t.leaves.arena.next = canon tpl := by rw [leafTuple, hnew]
  have hold' : ∀ x ∈ ls, t'.leafTuple x = t.leafTuple x := fun x hx =>
    Holds.leafTuple_congr (hold x hx)
  have hzero : s.count (canon tpl) = 0 := Multiset.count_eq_zero.mpr htpl
  -- the tuple gets its references, and no other does
  have hcount : ∀ u, (s + Multiset.replicate n (canon tpl)).count u =
      s.count u + if canon tpl = u then n else 0 := fun u => by
    rw [Multiset.count_add, Multiset.count_replicate]
  have hcard : (s + Multiset.replicate n (canon tpl)).card = s.card + n := by simp
  refine ⟨hinv, hnarrow, fun x hx hxf => ?_, fun u hu => ?_, fun x hx hxf => ?_, ?_, h.pos, ?_,
    fun u => ?_, ?_⟩
  · rcases List.mem_append.mp hx with hx | hx
    · rw [hold' x hx] at hxf ⊢
      exact Multiset.mem_add.mpr (.inl (h.mem x hx hxf))
    · rw [List.mem_singleton.mp hx, hnew']
      exact Multiset.mem_add.mpr (.inr (Multiset.mem_replicate.mpr ⟨by omega, rfl⟩))
  · rcases Multiset.mem_add.mp hu with hu | hu
    · obtain ⟨hu', x, hx, hxt⟩ := h.leaf u hu
      exact ⟨hu', x, List.mem_append_left _ hx, (hold' x hx).trans hxt⟩
    · rw [(Multiset.mem_replicate.mp hu).2]
      exact ⟨hfind, t.leaves.arena.next, by simp, hnew'⟩
  · rcases List.mem_append.mp hx with hx | hx
    · rw [hold' x hx] at hxf ⊢
      have hne : canon tpl ≠ t.leafTuple x := fun he => htpl (he ▸ h.mem x hx hxf)
      rw [hold x hx, hcount, if_neg hne, h.count x hx hxf, Nat.add_zero]
    · rw [List.mem_singleton.mp hx, hnew', hnew]
      simp only [hcount, if_true, hzero, Nat.zero_add]
  · have hfilter : ls.filter (fun x => ¬Findable (t'.leafTuple x)) =
        ls.filter fun x => ¬Findable (t.leafTuple x) :=
      List.filter_congr fun x hx => by rw [hold' x hx]
    have hlast : [t.leaves.arena.next].filter (fun x => ¬Findable (t'.leafTuple x)) = [] :=
      List.filter_cons_of_neg fun hd => of_decide_eq_true hd (hnew'.symm ▸ hfind)
    rw [List.filter_append, hlast, List.append_nil, hfilter, ← h.unfound]
    refine congrArg _ (List.map_congr_left fun x hx => ?_)
    have hxm := (List.mem_filter.mp hx).1
    rw [entry, entry, hold' x hxm, hold x hxm]
  · rw [hadd.references, href, hcard]
    push_cast
    rfl
  · rw [hcount]
    split_ifs with he
    · subst he
      simpa [hzero] using hshort
    · exact h.short u
  · rw [hcard]
    push_cast
    exact hint

/-- A leaf for a tuple that is not found again. -/
theorem addedNaN (h : Stores types t s nans word ls) {t₁ : TupleTrie} {b : ℕ}
    {path : List TupleField} (hlv : t₁.leaves = t.leaves)
    (hinv : Inv types t' word' (ls ++ [t.leaves.arena.next])) (hnarrow : NarrowTree t'.nodes word')
    (hadd : Added types t₁ t' word word' ls ⟨tpl, n⟩ b path) (hfind : ¬Findable (canon tpl))
    (hn : 0 < n) (hint : s.card + n + (nans.map Prod.snd).sum ≤ maxInt)
    (href : t₁.numberOfReferences = s.card + n + (nans.map Prod.snd).sum) :
    Stores types t' s (nans + {(canon tpl, (n : ℤ))}) word' (ls ++ [t.leaves.arena.next]) := by
  obtain ⟨hold, hnew⟩ := entry_added h.inv hadd hlv
  have hnew' : t'.leafTuple t.leaves.arena.next = canon tpl := by rw [leafTuple, hnew]
  have hold' : ∀ x ∈ ls, t'.leafTuple x = t.leafTuple x := fun x hx =>
    Holds.leafTuple_congr (hold x hx)
  -- the references that no search finds grow by those of the new leaf
  have hsum : ((nans + {(canon tpl, (n : ℤ))}).map Prod.snd).sum = (nans.map Prod.snd).sum + n := by
    rw [Multiset.map_add, Multiset.sum_add, Multiset.map_singleton, Multiset.sum_singleton]
  refine ⟨hinv, hnarrow, fun x hx hxf => ?_, fun u hu => ?_, fun x hx hxf => ?_, ?_,
    fun e he => ?_, ?_, h.short, ?_⟩
  · rcases List.mem_append.mp hx with hx | hx
    · rw [hold' x hx] at hxf ⊢
      exact h.mem x hx hxf
    · rw [List.mem_singleton.mp hx, hnew'] at hxf
      exact absurd hxf hfind
  · obtain ⟨hu', x, hx, hxt⟩ := h.leaf u hu
    exact ⟨hu', x, List.mem_append_left _ hx, (hold' x hx).trans hxt⟩
  · rcases List.mem_append.mp hx with hx | hx
    · rw [hold' x hx] at hxf ⊢
      rw [hold x hx, h.count x hx hxf]
    · rw [List.mem_singleton.mp hx, hnew'] at hxf
      exact absurd hxf hfind
  · -- the leaves of before are kept as they were
    have hfilter : ls.filter (fun x => ¬Findable (t'.leafTuple x)) =
        ls.filter fun x => ¬Findable (t.leafTuple x) :=
      List.filter_congr fun x hx => by rw [hold' x hx]
    have hentry : (ls.filter fun x => ¬Findable (t.leafTuple x)).map t'.entry =
        (ls.filter fun x => ¬Findable (t.leafTuple x)).map t.entry :=
      List.map_congr_left fun x hx => by
        have hxm := (List.mem_filter.mp hx).1
        rw [entry, entry, hold' x hxm, hold x hxm]
    have hlast : [t.leaves.arena.next].filter (fun x => ¬Findable (t'.leafTuple x)) =
        [t.leaves.arena.next] :=
      List.filter_cons_of_pos (decide_eq_true (hnew'.symm ▸ hfind))
    rw [List.filter_append, hlast, hfilter, List.map_append, hentry, ← Multiset.coe_add,
      h.unfound, List.map_singleton, entry, hnew', hnew]
    rfl
  · rcases Multiset.mem_add.mp he with he | he
    · exact h.pos e he
    · rw [Multiset.mem_singleton.mp he]
      exact Int.natCast_pos.mpr hn
  · rw [hadd.references, href, hsum]
    omega
  · rw [hsum]
    omega

/-- `insert_tuple` adds to the bag, or adds a leaf that is not found again. -/
theorem insertTuple (h : Stores types t s nans word ls) (htpl : Typed types tpl)
    (hlev : ∀ f ∈ levels tpl, f.Narrow) (hn : 0 < n)
    (hshort : ((s.count (canon tpl) + n : ℕ) : ℤ) ≤ maxShort)
    (hint : s.card + n + (nans.map Prod.snd).sum ≤ maxInt) :
    ∃ (t' : TupleTrie) (b : Bool) (word' : Words) (ls' : List ℕ),
      t.insertTuple tpl n = .ok (t', b) ∧
      Stores types t' (if Findable (canon tpl) then s + Multiset.replicate n (canon tpl) else s)
        (if Findable (canon tpl) then nans else nans + {(canon tpl, (n : ℤ))}) word' ls' := by
  have hnonneg := h.nonneg
  have href : t.numberOfReferences + n = s.card + n + (nans.map Prod.snd).sum := by
    rw [h.references]
    omega
  have hadd : addInt t.numberOfReferences n =
      .ok (s.card + n + (nans.map Prod.snd).sum) := by
    rw [addInt_of_mem (by simp only [maxInt]; omega) (by omega), href]
  rcases insertTuple_cases h.inv htpl (Int.natCast_pos.mpr hn) with
    ⟨l, hf, hok⟩ | ⟨habs, t', word', b, path, hinv, hnew, hnarrow, hok⟩
  · obtain ⟨hfind, hl⟩ := h.found htpl hf
    have hcard : (s + Multiset.replicate n (canon tpl)).card = s.card + n := by simp
    have hcount : ∀ u, (s + Multiset.replicate n (canon tpl)).count u =
        s.count u + if canon tpl = u then n else 0 := fun u => by
      rw [Multiset.count_add, Multiset.count_replicate]
    rw [if_pos hfind, if_pos hfind]
    refine ⟨_, false, word, ls, ?_, h.counted (k := n) hf.mem (hl ▸ hfind) (fun u => ?_) ?_ ?_
      (fun u => ?_) hint⟩
    · rw [hok, hadd, ok_bind, assert_pos (by omega)]
      rfl
    · rw [hcount, hl]
      by_cases hu : u = canon tpl
      · simp [hu]
      · simp [hu, Ne.symm hu]
    · rw [hl]
      exact Multiset.mem_add.mpr (.inr (Multiset.mem_replicate.mpr ⟨by omega, rfl⟩))
    · rw [hcard]
      push_cast
      rfl
    · rw [hcount]
      split_ifs with hu
      · exact hu ▸ hshort
      · exact h.short u
  · have hrun : t.insertTuple tpl n = .ok (t', true) := by
      rw [hok, hadd, ok_bind, assert_pos (by omega)]
      rfl
    have hnarrow' := hnarrow h.narrow hlev
    by_cases hfind : Findable (canon tpl)
    · rw [if_pos hfind, if_pos hfind]
      exact ⟨t', true, word', _, hrun, h.added (by rfl) hinv hnarrow' hnew hfind (h.absent habs) hn
        (by omega) hint href⟩
    · rw [if_neg hfind, if_neg hfind]
      exact ⟨t', true, word', _, hrun, h.addedNaN (by rfl) hinv hnarrow' hnew hfind hn hint href⟩

/-- `delete_tuple`, committed, takes from the bag. -/
theorem deleteTuple (h : Stores types t s nans word ls) (htpl : Typed types tpl) (hpos : 0 < n)
    (hn : n ≤ s.count (canon tpl)) :
    ∃ (t₁ t' : TupleTrie) (info : DeleteInfo) (word' : Words) (ls' : List ℕ),
      t.deleteTuple tpl n = .ok (t₁, info) ∧ t₁.commit info = .ok t' ∧
      Stores types t' (s - Multiset.replicate n (canon tpl)) nans word' ls' := by
  have hmem : canon tpl ∈ s := Multiset.count_pos.mp (hpos.trans_le hn)
  -- the tuple is found, since there are copies of it
  rcases deleteTuple_cases h.inv htpl (Int.natCast_pos.mpr hpos) with ⟨l, hf, hok⟩ | ⟨habs, -⟩
  · obtain ⟨hfind, hl⟩ := h.found htpl hf
    have hlf : Findable (t.leafTuple l) := hl ▸ hfind
    have hc := h.count l hf.mem hlf
    have hshort := h.short (canon tpl)
    have hle := Multiset.count_le_card (canon tpl) s
    have hnonneg := h.nonneg
    have hint := h.int
    have href := h.references
    have hcard : (s - Multiset.replicate n (canon tpl)).card = s.card - n := by
      rw [Multiset.card_sub (Multiset.le_count_iff_replicate_le.mp hn), Multiset.card_replicate]
    have hcount : ∀ u, (s - Multiset.replicate n (canon tpl)).count u =
        s.count u - if canon tpl = u then n else 0 := fun u => by
      rw [Multiset.count_sub, Multiset.count_replicate]
    have hsub : t.numberOfReferences - n =
        (s - Multiset.replicate n (canon tpl)).card + (nans.map Prod.snd).sum := by
      rw [hcard]
      omega
    have hadd : addInt t.numberOfReferences (-n) =
        .ok ((s - Multiset.replicate n (canon tpl)).card + (nans.map Prod.snd).sum) := by
      rw [addInt_of_mem (by simp only [maxInt]; omega) (by omega), ← hsub]
      rfl
    have hself : ((t.counted l (-n)).leaves.payload l).count = s.count (canon tpl) - n := by
      simp only [Trie.counted, LeafOps.addCount, Function.update_self]
      rw [hc, hl, ← sub_eq_add_neg]
      refine wrap16_of_mem ?_ (by omega)
      simp only [maxShort] at *
      omega
    rw [assert_pos (by omega), ok_bind] at hok
    -- the last copy goes, and the leaf with it
    by_cases he : s.count (canon tpl) = n
    · have hdel : LeafOps.toDelete ((t.counted l (-n)).leaves.payload l) = true := by
        simp only [LeafOps.toDelete, hself, he, sub_self, beq_self_eq_true]
      rw [hdel, if_pos rfl] at hok
      obtain ⟨t', word', hrem, hcommit⟩ := commitDelete_spec (h.inv.counted l (-n)) hf.mem hdel n
      have href' : (t.counted l (-n)).numberOfReferences = t.numberOfReferences := rfl
      rw [href', hadd, ok_bind, assert_pos (by omega), ok_bind] at hcommit
      have hinv := (h.inv.counted l (-n)).withRefs ((t.counted l (-n)).numberOfReferences - n)
      have hres : Stores types t' (s - Multiset.replicate n (canon tpl)) nans word'
          (ls.erase l) := by
        refine h.removed hf.mem hlf hrem (hinv.removed hrem)
          (narrowTree_removed hinv.valid h.narrow hrem) (fun x hx => ?_) (fun u => ?_)
          (by omega) hsub
        · simp [Trie.withRefs, Trie.counted, hx]
        · rw [hcount, hl]
          by_cases hu : u = canon tpl
          · rw [hu, if_pos rfl, if_pos rfl]
            omega
          · rw [if_neg (Ne.symm hu), if_neg hu, Nat.sub_zero]
      rw [assert_pos hres.eq_nil_iff] at hcommit
      exact ⟨_, t', _, word', _, hok, hcommit, hres⟩
    · -- others are left, and only the count changes
      have hdel : LeafOps.toDelete ((t.counted l (-n)).leaves.payload l) = false := by
        simp only [LeafOps.toDelete, hself, beq_eq_false_iff_ne]
        omega
      rw [hdel, if_neg (by simp), hadd, ok_bind] at hok
      refine ⟨_, _, none, word, ls, hok, rfl, h.counted (k := -n) hf.mem hlf (fun u => ?_) ?_ rfl
        (fun u => ?_) (by omega)⟩
      · rw [hcount, hl]
        by_cases hu : u = canon tpl
        · rw [hu, if_pos rfl, if_pos rfl]
          omega
        · rw [if_neg (Ne.symm hu), if_neg hu, Nat.sub_zero, add_zero]
      · rw [hl, ← Multiset.count_pos, hcount, if_pos rfl]
        omega
      · have := h.short u
        rw [hcount]
        omega
  · -- a tuple that is stored is found
    exact absurd hmem (h.absent habs)

/-- The leaves with their counts. -/
theorem entries (h : Stores types t s nans word ls) :
    ((ls.map t.entry : List _) : Multiset (List Value × ℤ)) =
      s.dedup.map (fun u => (u, (s.count u : ℤ))) + nans := by
  have hperm := (List.filter_append_perm (fun l => decide (Findable (t.leafTuple l))) ls).map t.entry
  have hnot : (ls.filter fun l => !decide (Findable (t.leafTuple l))) =
      ls.filter fun l => ¬Findable (t.leafTuple l) :=
    List.filter_congr fun l _ => by rw [decide_not]
  have hfound : (ls.filter fun l => Findable (t.leafTuple l)).map t.entry =
      ((ls.filter fun l => Findable (t.leafTuple l)).map t.leafTuple).map
        fun u => (u, (s.count u : ℤ)) := by
    rw [List.map_map]
    refine List.map_congr_left fun l hl => ?_
    obtain ⟨hmem, hfind⟩ := List.mem_filter.mp hl
    rw [entry, h.count l hmem (of_decide_eq_true hfind)]
    rfl
  have hkeys : (((ls.filter fun l => Findable (t.leafTuple l)).map t.leafTuple : List _) :
      Multiset (List Value)) = s.dedup := by
    refine (Multiset.Nodup.ext ?_ s.nodup_dedup).mpr fun u => ?_
    · refine (List.Nodup.filter _ h.inv.valid.leafList.nodup).map_on fun l hl l' hl' heq => ?_
      obtain ⟨hmem, hfind⟩ := List.mem_filter.mp hl
      exact h.leaf_unique hmem (List.mem_filter.mp hl').1 (of_decide_eq_true hfind) heq
    · rw [Multiset.mem_dedup, Multiset.mem_coe, List.mem_map]
      constructor
      · rintro ⟨l, hl, rfl⟩
        obtain ⟨hmem, hfind⟩ := List.mem_filter.mp hl
        exact h.mem l hmem (of_decide_eq_true hfind)
      · intro hu
        obtain ⟨hfind, l, hl, rfl⟩ := h.leaf u hu
        exact ⟨l, List.mem_filter.mpr ⟨hl, decide_eq_true hfind⟩, rfl⟩
  rw [← Multiset.coe_eq_coe.mpr hperm, List.map_append, ← Multiset.coe_add, hnot, h.unfound, hfound,
    ← Multiset.map_coe, hkeys]

end Stores

/-- The tries have the same tuples with the same counts. -/
def SameFacts (t t' : TupleTrie) : Prop :=
  ∃ ls ls', LeafList t.leaves t.firstLeaf t.lastLeaf ls ∧
    LeafList t'.leaves t'.firstLeaf t'.lastLeaf ls' ∧ (ls.map t.entry).Perm (ls'.map t'.entry)

theorem Stores.sameFacts (h : Stores types t s nans word ls)
    (h' : Stores types t' s nans word' ls') : SameFacts t t' :=
  ⟨ls, ls', h.inv.valid.leafList, h'.inv.valid.leafList,
    Multiset.coe_eq_coe.mp (h.entries.trans h'.entries.symm)⟩

end TupleTrie

end Meld.Db
