import Meld.Db.TupleIndex

/-!
# The references of a trie of tuples

The number of references of a trie is the sum of the counts of its leaves, all of them positive, as
long as tuples are only inserted and deleted by index. While a tuple is being deleted its leaf may
be left with the count 0 and the trie with a reference too many; `Within` is what holds then too.
No deletion adds a reference, and one that removes a leaf of a trie that is `Counted` takes some.
-/

namespace Meld.Db.TupleTrie

open Meld.Lib Meld.Vm

/-- No count is negative, and there are references for all counts, `n` of them at most. -/
structure Within (types : List FieldType) (t : TupleTrie) (n : ℤ) (word : Words) (ls : List ℕ) :
    Prop where
  inv : Inv types t word ls
  nonneg : ∀ l ∈ ls, 0 ≤ (t.leaves.payload l).count
  total_le : totalCount t.leaves ls ≤ t.numberOfReferences
  le : t.numberOfReferences ≤ n

/-- Every count is positive, and the references are the sum of the counts and a short integer. -/
structure Counted (types : List FieldType) (t : TupleTrie) (word : Words) (ls : List ℕ) :
    Prop where
  inv : Inv types t word ls
  pos : ∀ l ∈ ls, 0 < (t.leaves.payload l).count
  total : totalCount t.leaves ls = t.numberOfReferences
  le : t.numberOfReferences ≤ maxShort

variable {types : List FieldType} {t t' : TupleTrie} {word : Words} {ls : List ℕ} {l : ℕ} {n : ℤ}
  {tpl : List Value} {args : List Item} {m : Match} {b : Bool} {info : DeleteInfo}

theorem Counted.within (h : Counted types t word ls) :
    Within types t t.numberOfReferences word ls :=
  ⟨h.inv, fun l hl => (h.pos l hl).le, h.total.le, le_rfl⟩

theorem Counted.new (types : List FieldType) : ∃ word, Counted types Trie.new word [] :=
  ⟨_, ⟨Tree.new types, by simp, by simp⟩, by simp, rfl, maxShort_nonneg⟩

/-! ### Sums of counts -/

theorem count_le_totalCount (h : ∀ l ∈ ls, 0 ≤ (t.leaves.payload l).count) (hl : l ∈ ls) :
    (t.leaves.payload l).count ≤ totalCount t.leaves ls := by
  refine List.single_le_sum (fun x hx => ?_) _ (List.mem_map_of_mem hl)
  obtain ⟨y, hy, rfl⟩ := List.mem_map.mp hx
  exact h y hy

theorem totalCount_nonneg (h : ∀ l ∈ ls, 0 ≤ (t.leaves.payload l).count) :
    0 ≤ totalCount t.leaves ls := by
  refine List.sum_nonneg fun x hx => ?_
  obtain ⟨y, hy, rfl⟩ := List.mem_map.mp hx
  exact h y hy

theorem Within.nonneg_references (h : Within types t n word ls) : 0 ≤ t.numberOfReferences :=
  (totalCount_nonneg h.nonneg).trans h.total_le

theorem Counted.eq_nil_iff (h : Counted types t word ls) : t.numberOfReferences = 0 ↔ ls = [] := by
  rw [← h.total]
  constructor
  · refine fun hz => List.eq_nil_iff_forall_not_mem.mpr fun l hl => ?_
    have hle := count_le_totalCount (fun l hl => (h.pos l hl).le) hl
    have hpos := h.pos l hl
    omega
  · rintro rfl
    rfl

/-! ### Deleting by index -/

/-- `delete_by_index` takes the references of the leaves that it removes. -/
theorem Within.deleteByIndex (h : Within types t n word ls) (hn : n ≤ maxInt)
    (hm : deleteMatch types args = .ok m) (hrun : t.deleteByIndex m = .ok t') :
    (t' = t ∧ ls ≠ [] ∧ ∀ l ∈ ls, ¬m.accepts (t.leaves.payload l).tpl) ∨
    (∃ l ∈ ls, m.accepts (t.leaves.payload l).tpl ∧ ∃ word' ls',
      Within types t' n word' ls' ∧
        t'.numberOfReferences + (t.leaves.payload l).count ≤ t.numberOfReferences) := by
  rcases deleteByIndex_cases h.inv hm with
    ⟨-, hok⟩ | ⟨hnone, hok⟩ | ⟨⟨l, hl, hacc⟩, t₁, word₁, ls₁, hinv₁, hmem, hpay, -, href, hok⟩
  · rw [hok] at hrun
    cases hrun
  · simp only [hok, bind_eq_ok, assert_eq_ok, pure_eq_ok, Except.ok.injEq] at hrun
    obtain ⟨-, ⟨hne, -⟩, rfl⟩ := hrun
    exact .inl ⟨rfl, hne, hnone⟩
  · simp only [hok, bind_eq_ok, assert_eq_ok, pure_eq_ok, Except.ok.injEq] at hrun
    obtain ⟨-, -, -, -, -, -, rfl⟩ := hrun
    have hrefs := h.nonneg_references
    have hle := h.le
    have hsub : ∀ x ∈ ls₁, x ∈ ls := fun x hx => ((hmem x).mp hx).1
    have hnonneg : ∀ x ∈ ls₁, 0 ≤ (t.leaves.payload x).count := fun x hx => h.nonneg x (hsub x hx)
    have hkept := totalCount_nonneg hnonneg
    have hsplit := totalCount_sub h.inv.valid.leafList.nodup hinv₁.valid.leafList.nodup hmem
    have hmatched : (t.leaves.payload l).count ≤ matchedCount t m ls :=
      count_le_totalCount (fun x hx => h.nonneg x (List.mem_of_mem_filter hx))
        (List.mem_filter.mpr ⟨hl, decide_eq_true hacc⟩)
    have hcount := h.nonneg l hl
    have htotal := h.total_le
    rw [wrap32_of_mem (by simp only [maxInt]; omega) (by omega)] at href
    have htotal₁ : totalCount t₁.leaves ls₁ = totalCount t.leaves ls₁ := by
      simp only [totalCount, hpay]
    exact .inr ⟨l, hl, hacc, word₁, ls₁, ⟨hinv₁, by rwa [hpay], by omega, by omega⟩, by omega⟩

/-- `delete_by_index` leaves no negative number of references. -/
theorem deleteByIndex_nonneg (h : Inv types t word ls) (hm : deleteMatch types args = .ok m)
    (hrefs : 0 ≤ t.numberOfReferences) (hrun : t.deleteByIndex m = .ok t') :
    0 ≤ t'.numberOfReferences := by
  rcases deleteByIndex_cases h hm with
    ⟨-, hok⟩ | ⟨-, hok⟩ | ⟨-, t₁, word₁, ls₁, -, -, -, -, -, hok⟩
  · rw [hok] at hrun
    cases hrun
  · simp only [hok, bind_eq_ok, pure_eq_ok, Except.ok.injEq] at hrun
    obtain ⟨-, -, rfl⟩ := hrun
    exact hrefs
  · simp only [hok, bind_eq_ok, assert_eq_ok, pure_eq_ok, Except.ok.injEq] at hrun
    obtain ⟨-, -, -, hpos, -, -, rfl⟩ := hrun
    exact hpos

/-- A match that accepts no stored tuple deletes none. -/
theorem Counted.deleteByIndex (h : Counted types t word ls) (hm : deleteMatch types args = .ok m)
    (hne : ls ≠ []) (hnone : ∀ l ∈ ls, ¬m.accepts (t.leaves.payload l).tpl) :
    t.deleteByIndex m = .ok t := by
  rcases deleteByIndex_cases h.inv hm with ⟨hnil, -⟩ | ⟨-, hok⟩ | ⟨⟨l, hl, hacc⟩, -⟩
  · exact absurd hnil hne
  · rw [hok, assert_pos ⟨hne, mt h.eq_nil_iff.mp hne⟩]
    rfl
  · exact absurd hacc (hnone l hl)

/-! ### Inserting -/

/-- `insert_tuple` adds a reference, whatever the counts. -/
theorem insertTuple_references (h : Inv types t word ls) (htpl : Typed types tpl)
    (hrun : t.insertTuple tpl 1 = .ok (t', b)) :
    (∃ word' ls', Inv types t' word' ls') ∧ t'.numberOfReferences = t.numberOfReferences + 1 := by
  rcases insertTuple_cases h htpl Int.one_pos with
    ⟨l, -, hok⟩ | ⟨-, t₁, word₁, b₁, path, hinv, hadd, -, hok⟩
  · simp only [hok, bind_eq_ok, assert_eq_ok, addInt_eq_ok, pure_eq_ok, Except.ok.injEq,
      Prod.mk.injEq] at hrun
    obtain ⟨r, ⟨-, rfl⟩, -, -, rfl, -⟩ := hrun
    exact ⟨⟨word, ls, (h.counted l 1).withRefs _⟩, rfl⟩
  · simp only [hok, bind_eq_ok, assert_eq_ok, addInt_eq_ok, pure_eq_ok, Except.ok.injEq,
      Prod.mk.injEq] at hrun
    obtain ⟨r, -, -, -, rfl, -⟩ := hrun
    exact ⟨⟨word₁, _, hinv⟩, hadd.references⟩

/-- The sum of the counts after one changed. -/
theorem totalCount_counted {k : ℤ} (hls : ls.Nodup) (hl : l ∈ ls)
    (h₁ : 0 ≤ (t.leaves.payload l).count + k) (h₂ : (t.leaves.payload l).count + k ≤ maxShort) :
    totalCount (t.counted l k).leaves ls = totalCount t.leaves ls + k :=
  sum_map_change hls hl (counted_count h₁ h₂) fun x _ hx => by simp [Trie.counted, hx]

theorem count_counted {k : ℤ} {x : ℕ} (hx : x ≠ l) :
    ((t.counted l k).leaves.payload x).count = (t.leaves.payload x).count := by
  simp [Trie.counted, hx]

/-- A tuple more, if that does not make too many. -/
theorem Counted.insertTuple (h : Counted types t word ls) (htpl : Typed types tpl)
    (hlt : t.numberOfReferences < maxShort) :
    ∃ t' b word' ls', t.insertTuple tpl 1 = .ok (t', b) ∧ Counted types t' word' ls' ∧
      t'.numberOfReferences = t.numberOfReferences + 1 ∧
      (b = false → 0 < t.numberOfReferences) := by
  have hrefs := h.within.nonneg_references
  have hint : addInt t.numberOfReferences 1 = .ok (t.numberOfReferences + 1) :=
    addInt_of_mem (by simp only [maxInt]; omega) (by simp only [maxInt, maxShort] at *; omega)
  have hnodup := h.inv.valid.leafList.nodup
  rcases insertTuple_cases h.inv htpl Int.one_pos with
    ⟨l, hf, hok⟩ | ⟨-, t₁, word₁, b₁, path, hinv, hadd, -, hok⟩
  · have hpos := h.pos l hf.mem
    have hle := count_le_totalCount (fun l hl => (h.pos l hl).le) hf.mem
    have htotal := h.total
    refine ⟨(t.counted l 1).withRefs (t.numberOfReferences + 1), false, word, ls, ?_,
      ⟨(h.inv.counted l 1).withRefs _, fun x hx => ?_, ?_, by
        rw [Trie.withRefs_references]; omega⟩, rfl, fun _ => by omega⟩
    · rw [hok, hint, ok_bind, assert_pos (by omega)]
      rfl
    · change 0 < ((t.counted l 1).leaves.payload x).count
      by_cases hx' : x = l
      · rw [hx', counted_count (by omega) (by omega)]
        omega
      · rw [count_counted hx']
        exact h.pos x hx
    · change totalCount (t.counted l 1).leaves ls = t.numberOfReferences + 1
      rw [totalCount_counted hnodup hf.mem (by omega) (by omega), htotal]
  · have hfresh : ∀ x ∈ ls, x ≠ t.leaves.arena.next := fun x hx =>
      (Arena.lt_next ((h.inv.valid.leafList.live x).mpr hx)).ne
    have hold : ∀ x ∈ ls, t₁.leaves.payload x = t.leaves.payload x := fun x hx => by
      simp [hadd.leaves, Trie.pushLeaf, Trie.withRefs, hfresh x hx]
    have hnew : t₁.leaves.payload t.leaves.arena.next = ⟨tpl, 1⟩ := by
      simp [hadd.leaves, Trie.pushLeaf, Trie.withRefs]
    have href : t₁.numberOfReferences = t.numberOfReferences + 1 := hadd.references
    refine ⟨t₁, true, word₁, _, ?_, ⟨hinv, fun x hx => ?_, ?_, by omega⟩, href, by simp⟩
    · rw [hok, hint, ok_bind, assert_pos (by omega)]
      rfl
    · rcases List.mem_append.mp hx with hx | hx
      · rw [hold x hx]
        exact h.pos x hx
      · rw [List.mem_singleton.mp hx, hnew]
        exact Int.one_pos
    · have hsum : totalCount t₁.leaves ls = totalCount t.leaves ls :=
        congrArg List.sum (List.map_congr_left fun x hx => by rw [hold x hx])
      have hone : totalCount t₁.leaves [t.leaves.arena.next] = 1 := by
        simp [totalCount, hnew, LeafOps.getCount]
      have happ : totalCount t₁.leaves (ls ++ [t.leaves.arena.next]) =
          totalCount t₁.leaves ls + totalCount t₁.leaves [t.leaves.arena.next] := by
        simp [totalCount]
      rw [happ, hsum, hone, h.total, href]

/-- `delete_by_leaf` takes a reference, whatever the counts. -/
theorem deleteByLeaf_references (h : Inv types t word ls) (hrun : t.deleteByLeaf l = .ok t') :
    (∃ word' ls', Inv types t' word' ls') ∧ 0 ≤ t'.numberOfReferences ∧
      t'.numberOfReferences + 1 = t.numberOfReferences := by
  have hl : l ∈ ls := by
    have hrun' := hrun
    rw [Trie.deleteByLeaf, Trie.addReferences_bind] at hrun'
    obtain ⟨r, -, hrun'⟩ := bind_eq_ok.mp hrun'
    obtain ⟨u, -, hrun'⟩ := bind_eq_ok.mp hrun'
    obtain ⟨u', hcheck, -⟩ := bind_eq_ok.mp hrun'
    exact (h.valid.leafList.live l).mp (Arena.check_eq_ok.mp hcheck)
  rcases deleteByLeaf_cases h hl with ⟨-, hok⟩ | ⟨-, t₁, word₁, hrem, hok⟩
  · simp only [hok, bind_eq_ok, assert_eq_ok, addInt_eq_ok, pure_eq_ok, Except.ok.injEq] at hrun
    obtain ⟨r, ⟨-, rfl⟩, -, hpos, rfl⟩ := hrun
    exact ⟨⟨word, ls, (h.counted l (-1)).withRefs _⟩, hpos, by rw [Trie.withRefs_references]; omega⟩
  · simp only [hok, bind_eq_ok, assert_eq_ok, addInt_eq_ok, pure_eq_ok, Except.ok.injEq] at hrun
    obtain ⟨r, ⟨-, rfl⟩, -, hpos, rfl⟩ := hrun
    have href : t₁.numberOfReferences = t.numberOfReferences - 1 := hrem.references
    exact ⟨⟨word₁, _, ((h.counted l (-1)).withRefs (t.numberOfReferences - 1)).removed hrem⟩,
      by omega, by omega⟩

/-! ### Deleting a tuple -/

/-- `delete_tuple` adds no reference. -/
theorem Counted.deleteTuple (h : Counted types t word ls) (htpl : Typed types tpl)
    (hrun : t.deleteTuple tpl 1 = .ok (t', info)) :
    Within types t' t.numberOfReferences word ls ∧ ∀ a k, info = some (a, k) → k = 1 := by
  rcases deleteTuple_cases h.inv htpl Int.one_pos with ⟨l, hf, hok⟩ | ⟨-, hok⟩
  · have hpos := h.pos l hf.mem
    have hle := count_le_totalCount (fun l hl => (h.pos l hl).le) hf.mem
    have htotal := h.total
    have hmax := h.le
    have hless := totalCount_counted h.inv.valid.leafList.nodup hf.mem
      (t := t) (l := l) (k := -1) (by omega) (by omega)
    have hnonneg : ∀ x ∈ ls, 0 ≤ ((t.counted l (-1)).leaves.payload x).count := fun x hx => by
      by_cases hx' : x = l
      · rw [hx', counted_count (by omega) (by omega)]
        omega
      · rw [count_counted hx']
        exact (h.pos x hx).le
    simp only [hok, bind_eq_ok, assert_eq_ok] at hrun
    obtain ⟨-, -, hrun⟩ := hrun
    split_ifs at hrun with hdel
    · rw [pure_eq_ok, Except.ok.injEq, Prod.mk.injEq] at hrun
      obtain ⟨rfl, rfl⟩ := hrun
      refine ⟨⟨h.inv.counted l (-1), hnonneg, ?_, le_rfl⟩, by simp⟩
      change totalCount (t.counted l (-1)).leaves ls ≤ t.numberOfReferences
      omega
    · simp only [bind_eq_ok, addInt_eq_ok, pure_eq_ok, Except.ok.injEq, Prod.mk.injEq] at hrun
      obtain ⟨r, ⟨-, rfl⟩, rfl, rfl⟩ := hrun
      refine ⟨⟨(h.inv.counted l (-1)).withRefs _, hnonneg, ?_, ?_⟩, by simp⟩
      · change totalCount (t.counted l (-1)).leaves ls ≤ t.numberOfReferences + -1
        omega
      · rw [Trie.withRefs_references]
        omega
  · simp only [hok, bind_eq_ok, assert_eq_ok, pure_eq_ok, Except.ok.injEq, Prod.mk.injEq] at hrun
    obtain ⟨-, -, -, -, rfl, rfl⟩ := hrun
    exact ⟨h.within, by simp⟩

/-- What `delete_tuple` left to be done takes a reference. -/
theorem Within.commit (h : Within types t n word ls) (hinfo : ∀ a k, info = some (a, k) → k = 1)
    (hrun : t.commit info = .ok t') :
    0 ≤ t'.numberOfReferences ∧ t'.numberOfReferences ≤ n := by
  have hrefs := h.nonneg_references
  have hle := h.le
  cases info with
  | none =>
    rw [TupleTrie.commit, pure_eq_ok, Except.ok.injEq] at hrun
    exact hrun ▸ ⟨hrefs, hle⟩
  | some p =>
    obtain ⟨a, k⟩ := p
    obtain rfl := hinfo a k rfl
    have hrun' : t.commitDelete a 1 = .ok t' := hrun
    have hlive : t.nodes.arena.live a = true := by
      rw [Trie.commitDelete, bind_eq_ok] at hrun'
      obtain ⟨u, hu, -⟩ := hrun'
      exact Arena.check_eq_ok.mp hu
    have hword := (h.inv.valid.clean a hlive).resolve_right id
    cases hc : t.nodes.child a with
    | leaf l =>
      obtain ⟨hl, rfl⟩ := h.inv.valid.leafNodes.mem a l hword hc
      by_cases hdel : LeafOps.toDelete (t.leaves.payload l) = true
      · obtain ⟨t₁, word₁, hrem, hok⟩ := commitDelete_spec h.inv hl hdel 1
        simp only [hok, bind_eq_ok, assert_eq_ok, addInt_eq_ok, pure_eq_ok,
          Except.ok.injEq] at hrun'
        obtain ⟨r, ⟨-, rfl⟩, -, hpos, -, -, rfl⟩ := hrun'
        have href : t₁.numberOfReferences = t.numberOfReferences - 1 := hrem.references
        omega
      · have hkeep := (h.inv.valid.leafList.live l).mpr hl
        rw [Trie.commitDelete, Arena.check_of_live hlive, ok_bind, hc] at hrun'
        simp only [Trie.addReferences_bind, bind_eq_ok, assert_eq_ok, addInt_eq_ok] at hrun'
        obtain ⟨r, ⟨-, rfl⟩, -, hpos, t₁, hok, -, -, hres⟩ := hrun'
        rw [Trie.innerDeleteByLeaf_keep (by exact hkeep) (by exact Bool.not_eq_true _ ▸ hdel),
          Except.ok.injEq] at hok
        subst hok
        rw [pure_eq_ok, Except.ok.injEq] at hres
        subst hres
        rw [Trie.withRefs_references] at hpos ⊢
        omega
    | null =>
      rw [Trie.commitDelete, Arena.check_of_live hlive, ok_bind, hc] at hrun'
      cases hrun'
    | node c =>
      rw [Trie.commitDelete, Arena.check_of_live hlive, ok_bind, hc] at hrun'
      cases hrun'
    | hash g =>
      rw [Trie.commitDelete, Arena.check_of_live hlive, ok_bind, hc] at hrun'
      cases hrun'

end Meld.Db.TupleTrie
