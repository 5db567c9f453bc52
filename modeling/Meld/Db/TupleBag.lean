import Meld.Db.TupleTrie
import Meld.Vm.Tuple

/-!
# A tuple trie is a bag of tuples

On tuples that the trie finds again the comparison of stored fields is an equivalence, so no
two leaves hold equal tuples. `Holds` relates a trie to the bag of the tuples inserted and not yet
deleted, each in its canonical form, and every operation that the bag allows keeps the relation: no
assertion fails on the way, and what is removed from the bag leaves no node behind.

Over integer, node and list fields every tuple is its own canonical form, and the path to a leaf is
the sequence of levels of its tuple. The number of references is an `int`, so the bag is allowed as
many tuples as an `int` counts (`not_run_refines`).
-/

namespace Meld.Db

open Meld.Lib Meld.Vm

section

variable {L : Type} [LeafOps L] {t : Trie L} {types : List FieldType} {P G : ℕ → Prop}
  {word : Words} {ls : List ℕ} {a b : ℕ} {u w : List TupleField}

/-- The fields stored on the way from the root down to a node. -/
inductive PathTo (t : Trie L) : ℕ → List TupleField → Prop
  | root : PathTo t t.root []
  | child {p c : ℕ} {w : List TupleField} (hp : PathTo t p w) (hc : t.nodes.parent c = some p)
      (hlive : t.nodes.arena.live c = true) : PathTo t c (w ++ [t.nodes.data c])

theorem Tree.pathTo (h : Tree types t P G word ls) (hw : word b = some w) : PathTo t b w := by
  induction b using Nat.strong_induction_on generalizing w with
  | _ b ih =>
    by_cases hb : b = t.root
    · subst hb
      rw [h.shape.root_word, Option.some.injEq] at hw
      exact hw ▸ .root
    · obtain ⟨p, u, hp, hu, rfl, hlt⟩ := h.shape.up b w hw hb
      exact .child (ih p hlt hu) hp (h.shape.live b (Option.isSome_of_eq_some hw))

/-- Every node is the root or on the path of a leaf. -/
theorem Tree.above_leaf (h : Valid types t word ls) (ha : t.nodes.arena.live a = true) :
    a = t.root ∨ ∃ l ∈ ls, Above t.nodes (t.leaves.node l) a := by
  by_cases hr : a = t.root
  · exact .inl hr
  · have hw := (h.clean a ha).resolve_right id
    obtain ⟨w, b, l, hd, hl⟩ := h.exists_leaf hw (h.full a hw hr id)
    have hwb : (word b).isSome := by
      by_cases hab : a = b
      · exact hab ▸ hw
      · exact hd.some_of_ne hab
    obtain ⟨hm, hn⟩ := h.leafNodes.mem b l hwb hl
    exact .inr ⟨l, hm, hn ▸ hd.above⟩

/-- Every stored field fits a type of the levels below the root. -/
theorem Shape.fits_of_mem {N : NodeHeap} {H : HashHeap} {root : ℕ} {O : ℕ → Prop}
    {Q : FieldType → Prop} (h : Shape types N H root O word)
    (hQ : ∀ w, ∀ τ ∈ restTypes types w, Q τ) (hw : word b = some w) :
    ∀ d ∈ w, ∃ τ : FieldType, Q τ ∧ τ.Fits d := by
  refine h.forall_data (fun p c hk => ?_) hw
  obtain ⟨u, hu, -⟩ := h.kid_word hk
  obtain ⟨τ, ρ, hτ, hfit⟩ := h.typed p u c hu hk
  exact ⟨τ, hQ u τ (by simp [hτ]), hfit⟩

end

/-- Findable fields follow each other when their canonical forms agree. -/
theorem Trie.follows_iff_canon {w fs : List TupleField} (hw : ∀ d ∈ w, d.Findable)
    (hfs : ∀ f ∈ fs, f.Findable) :
    Trie.Follows w fs ↔ w.map TupleField.canon = fs.map TupleField.canon := by
  induction w generalizing fs with
  | nil => cases fs <;> simp
  | cons d w ih =>
    cases fs with
    | nil => simp
    | cons f fs =>
      rw [Trie.follows_cons, TupleField.sameAs_iff_canon (hw d (by simp)) (hfs f (by simp)),
        ih (fun x hx => hw x (by simp [hx])) fun x hx => hfs x (by simp [hx])]
      simp

namespace TupleTrie

variable {types : List FieldType} {t t' : TupleTrie} {word word' : Words} {ls ls' : List ℕ}
  {tpl : List Value} {l l' : ℕ} {s s' : Multiset (List Value)} {n : ℕ}

/-! ### Leaves and tuples -/

/-- The tuple of a leaf, in its canonical form. -/
def leafTuple (t : TupleTrie) (l : ℕ) : List Value := canon (t.leaves.payload l).tpl

theorem Typed.findable (h : Typed types tpl) (hex : ∀ τ ∈ types, τ.Exact) : Findable tpl :=
  Regular.findable fun v hv =>
    Value.regular_of_exact (h.ok v hv) (hex _ (h.types ▸ List.mem_map_of_mem hv))

theorem Typed.canon_eq (h : Typed types tpl) (hex : ∀ τ ∈ types, τ.Exact) : canon tpl = tpl := by
  have hmap : tpl.map Value.canon = tpl.map id := List.map_congr_left fun v hv =>
    Value.canon_of_exact (h.ok v hv) (hex _ (h.types ▸ List.mem_map_of_mem hv))
  rw [canon, hmap, List.map_id]

/-- Narrow fields that spell findable ones are findable and have the same canonical forms. -/
private theorem canon_of_spells {w fs : List TupleField} (hw : ∀ d ∈ w, d.Narrow)
    (hfs : ∀ f ∈ fs, f.Findable) (h : Spells w fs) :
    (∀ d ∈ w, d.Findable) ∧ w.map TupleField.canon = fs.map TupleField.canon := by
  induction h with
  | nil => simp
  | cons hdf _ ih =>
    rename_i d f w fs _
    obtain ⟨hfind, hmap⟩ := ih (fun x hx => hw x (by simp [hx])) fun x hx => hfs x (by simp [hx])
    have hf := hfs f (by simp)
    have hd : d.Findable :=
      hdf.elim (fun he => he ▸ hf) (TupleField.findable_of_sameAs (hw d (by simp)))
    have hcanon : d.canon = f.canon :=
      hdf.elim (congrArg _) (TupleField.sameAs_iff_canon hd hf).mp
    exact ⟨by simpa using ⟨hd, hfind⟩, by simp [hcanon, hmap]⟩

/-- The path to a leaf has the levels of the leaf's tuple. -/
theorem Inv.word_canon (h : Inv types t word ls) (hn : NarrowTree t.nodes word) (hl : l ∈ ls)
    (hr : Findable (t.leaves.payload l).tpl) :
    ∃ w, word (t.leaves.node l) = some w ∧ (∀ d ∈ w, d.Findable) ∧
      w.map TupleField.canon = levels (t.leafTuple l) := by
  obtain ⟨w, hw, hs⟩ := h.spells l hl
  obtain ⟨hfind, hmap⟩ :=
    canon_of_spells (h.valid.shape.forall_data hn hw) (findable_levels hr) hs
  exact ⟨w, hw, hfind, by rw [hmap, leafTuple, levels_canon]⟩

/-- Over exact fields the path to a leaf is the sequence of levels of the leaf's tuple. -/
theorem Inv.word_eq (h : Inv types t word ls) (hex : ∀ τ ∈ types, τ.Exact) (hl : l ∈ ls) :
    word (t.leaves.node l) = some (levels (t.leaves.payload l).tpl) := by
  obtain ⟨w, hw, hs⟩ := h.spells l hl
  have hfit := h.valid.shape.fits_of_mem (fun w τ hτ => exact_restTypes hex hτ) hw
  have heq : w = levels (t.leaves.payload l).tpl := by
    rw [← List.forall₂_eq_eq_eq]
    refine ((List.forall₂_and_left w _).mpr ⟨hfit, hs⟩).imp fun d f => ?_
    rintro ⟨⟨τ, hτ, hd⟩, rfl | hdf⟩
    exacts [rfl, (TupleField.sameAs_iff hτ hd).mp hdf]
  rw [hw, heq]

/-- The leaf at the end of the path that the search for a tuple follows holds the tuple. -/
theorem Inv.leafTuple_of_follows (h : Inv types t word ls) (hn : NarrowTree t.nodes word)
    (htpl : Typed types tpl) (hr : Findable tpl) (hl : l ∈ ls) {w : List TupleField}
    (hw : word (t.leaves.node l) = some w) (hfol : Trie.Follows w (levels tpl))
    (hrl : Findable (t.leaves.payload l).tpl) : t.leafTuple l = canon tpl := by
  obtain ⟨w', hw', hfind, hmap⟩ := h.word_canon hn hl hrl
  obtain rfl : w' = w := Option.some.inj (hw'.symm.trans hw)
  rw [Trie.follows_iff_canon hfind (findable_levels hr)] at hfol
  have hty := h.typed l hl
  rw [leafTuple, levels_canon] at hmap
  exact canon_eq_of_levels (hty.types.trans htpl.types.symm) hty.ok htpl.ok (hmap.symm.trans hfol)

/-- The leaf found for a tuple holds the tuple. -/
theorem Inv.leafTuple_of_found (h : Inv types t word ls) (hn : NarrowTree t.nodes word)
    (htpl : Typed types tpl) (hr : Findable tpl) (hf : Trie.Found t word ls tpl l)
    (hrl : Findable (t.leaves.payload l).tpl) : t.leafTuple l = canon tpl := by
  obtain ⟨w, hw, hfol⟩ := hf.path
  exact h.leafTuple_of_follows hn htpl hr hf.mem hw hfol hrl

/-- The path of a leaf with the tuple is followed by the search for the tuple. -/
theorem Inv.follows (h : Inv types t word ls) (hn : NarrowTree t.nodes word)
    (hr : Findable tpl) (hl : l ∈ ls) (hrl : Findable (t.leaves.payload l).tpl)
    (htpl : t.leafTuple l = canon tpl) :
    ∃ w, word (t.leaves.node l) = some w ∧ Trie.Follows w (levels tpl) := by
  obtain ⟨w, hw, hfind, hmap⟩ := h.word_canon hn hl hrl
  refine ⟨w, hw, (Trie.follows_iff_canon hfind (findable_levels hr)).mpr ?_⟩
  rw [hmap, htpl, levels_canon]

/-- A tuple that is not found has no leaf. -/
theorem Inv.leafTuple_ne_of_absent (h : Inv types t word ls) (hn : NarrowTree t.nodes word)
    (hr : Findable tpl) (habs : Trie.Absent t word ls tpl) (hl : l ∈ ls)
    (hrl : Findable (t.leaves.payload l).tpl) : t.leafTuple l ≠ canon tpl := by
  intro heq
  obtain ⟨w, hw, hfol⟩ := h.follows hn hr hl hrl heq
  exact habs.not_follows hn l hl w hw hfol

/-- No two leaves hold the same tuple. -/
theorem Inv.leaf_unique (h : Inv types t word ls) (hn : NarrowTree t.nodes word) (hl : l ∈ ls)
    (hl' : l' ∈ ls) (hr : Findable (t.leaves.payload l).tpl)
    (hr' : Findable (t.leaves.payload l').tpl) (heq : t.leafTuple l = t.leafTuple l') :
    l = l' := by
  have htpl := h.typed l' hl'
  rcases h.cases htpl with ⟨x, hf, -⟩ | ⟨habs, -⟩
  · obtain ⟨w, hw, hfol⟩ := h.follows hn hr' hl hr heq
    obtain ⟨w', hw', hfol'⟩ := h.follows hn hr' hl' hr' rfl
    rw [hf.unique hn l hl _ hw hfol, hf.unique hn l' hl' _ hw' hfol']
  · exact absurd rfl (h.leafTuple_ne_of_absent hn hr' habs hl' hr')

/-! ### The bag of a trie -/

theorem counted_count {k : ℤ} (h₁ : 0 ≤ (t.leaves.payload l).count + k)
    (h₂ : (t.leaves.payload l).count + k ≤ maxShort) :
    ((t.counted l k).leaves.payload l).count = (t.leaves.payload l).count + k := by
  simp only [Trie.counted, LeafOps.addCount, Function.update_self]
  refine wrap16_of_mem ?_ h₂
  simp only [maxShort] at *
  omega

/-- A sum of which one term changes. -/
theorem sum_map_change {ls : List ℕ} {f g : ℕ → ℤ} {k : ℤ} (hls : ls.Nodup) (hl : l ∈ ls)
    (hself : g l = f l + k) (hother : ∀ x ∈ ls, x ≠ l → g x = f x) :
    (ls.map g).sum = (ls.map f).sum + k := by
  have hrest : (ls.erase l).map g = (ls.erase l).map f :=
    List.map_congr_left fun x hx => by
      rw [hls.mem_erase_iff] at hx
      exact hother x hx.2 hx.1
  rw [← List.sum_map_erase g hl, ← List.sum_map_erase f hl, hrest, hself]
  omega

/-- An element that alone has its image is erased from the images too. -/
private theorem map_erase_of_unique {α β : Type} [DecidableEq α] [BEq β] [LawfulBEq β] {f : α → β}
    {xs : List α} {y : α} (hf : ∀ x ∈ xs, f x = f y → x = y) :
    (xs.erase y).map f = (xs.map f).erase (f y) := by
  induction xs with
  | nil => rfl
  | cons x xs ih =>
    have ih := ih fun z hz => hf z (by simp [hz])
    by_cases hx : x = y
    · simp [hx]
    · have hfx : f x ≠ f y := fun he => hx (hf x (by simp) he)
      rw [List.erase_cons_tail (by simpa using hx), List.map_cons, List.map_cons,
        List.erase_cons_tail (by simpa using hfx), ih]

/-- The trie `t` with the leaves `ls` holds the bag `s`, and its counters are in range. -/
structure Holds (types : List FieldType) (t : TupleTrie) (s : Multiset (List Value))
    (word : Words) (ls : List ℕ) : Prop where
  inv : Inv types t word ls
  narrow : NarrowTree t.nodes word
  findable : ∀ l ∈ ls, Findable (t.leaves.payload l).tpl
  mem : ∀ l ∈ ls, t.leafTuple l ∈ s
  leaf : ∀ tpl ∈ s, ∃ l ∈ ls, t.leafTuple l = tpl
  count : ∀ l ∈ ls, (t.leaves.payload l).count = s.count (t.leafTuple l)
  sum : (ls.map fun l => (t.leaves.payload l).count).sum = s.card
  references : t.numberOfReferences = s.card
  short : ∀ tpl, (s.count tpl : ℤ) ≤ maxShort
  int : (s.card : ℤ) ≤ maxInt

namespace Holds

theorem eq_nil_iff (h : Holds types t s word ls) : ls = [] ↔ s = 0 := by
  constructor
  · rintro rfl
    rw [Multiset.eq_zero_iff_forall_notMem]
    intro tpl htpl
    obtain ⟨l, hl, -⟩ := h.leaf tpl htpl
    exact List.not_mem_nil hl
  · rintro rfl
    rw [List.eq_nil_iff_forall_not_mem]
    exact fun l hl => Multiset.notMem_zero _ (h.mem l hl)

/-- The new trie holds nothing. -/
theorem new (types : List FieldType) : Holds types (Trie.new : TupleTrie) 0
    (Function.update (fun _ => none) 0 (some [])) [] :=
  ⟨⟨Tree.new types, by simp, by simp⟩, (Tree.narrowTree_iff (Tree.new types)).mpr (by simp),
    by simp, by simp, by simp, by simp, by simp, rfl,
    by simp [maxShort_nonneg], by simp [maxInt]⟩

theorem leafTuple_congr (h : t'.leaves.payload l = t.leaves.payload l) :
    t'.leafTuple l = t.leafTuple l := by rw [leafTuple, h, leafTuple]

theorem leafTuple_counted (t : TupleTrie) (l x : ℕ) (k r : ℤ) :
    leafTuple ((t.counted l k).withRefs r) x = t.leafTuple x :=
  congrArg canon (counted_tpl t l x k)

theorem leaf_unique (h : Holds types t s word ls) (hl : l ∈ ls) (hl' : l' ∈ ls)
    (heq : t.leafTuple l = t.leafTuple l') : l = l' :=
  h.inv.leaf_unique h.narrow hl hl' (h.findable l hl) (h.findable l' hl') heq

/-- The number of a leaf changes, and the bag with it. -/
theorem counted (h : Holds types t s word ls) (hl : l ∈ ls)
    {k : ℤ} (hcount : ∀ tpl, (s'.count tpl : ℤ) =
      s.count tpl + if tpl = t.leafTuple l then k else 0)
    (hcard : (s'.card : ℤ) = s.card + k) (hpos : t.leafTuple l ∈ s')
    (hshort : ∀ tpl, (s'.count tpl : ℤ) ≤ maxShort) (hint : (s'.card : ℤ) ≤ maxInt) :
    Holds types ((t.counted l k).withRefs s'.card) s' word ls := by
  have hother : ∀ x, x ≠ l → (t.counted l k).leaves.payload x = t.leaves.payload x :=
    fun x hx => by simp [Trie.counted, hx]
  have hself : ((t.counted l k).leaves.payload l).count = (t.leaves.payload l).count + k := by
    have hc := hcount (t.leafTuple l)
    have hs := hshort (t.leafTuple l)
    rw [if_pos rfl] at hc
    have hm := h.count l hl
    exact counted_count (by omega) (by omega)
  have hne : ∀ x ∈ ls, x ≠ l → t.leafTuple x ≠ t.leafTuple l :=
    fun x hx hxl he => hxl (h.leaf_unique hx hl he)
  have hkeep : ∀ x ∈ ls, x ≠ l →
      s'.count (t.leafTuple x) = s.count (t.leafTuple x) := fun x hx hxl => by
    have := hcount (t.leafTuple x)
    rw [if_neg (hne x hx hxl)] at this
    omega
  refine ⟨(h.inv.counted l k).withRefs _, h.narrow, fun x hx => ?_, fun x hx => ?_,
    fun u hu => ?_, fun x hx => ?_, ?_, rfl, hshort, hint⟩
  · exact (counted_tpl t l x k).symm ▸ h.findable x hx
  · rw [leafTuple_counted]
    by_cases hxl : x = l
    · exact hxl ▸ hpos
    · have := Multiset.count_pos.mpr (h.mem x hx)
      exact Multiset.count_pos.mp (by rwa [hkeep x hx hxl])
  · by_cases he : u = t.leafTuple l
    · exact ⟨l, hl, (leafTuple_counted t l l k _).trans he.symm⟩
    · have hc := hcount u
      rw [if_neg he] at hc
      have hp := Multiset.count_pos.mpr hu
      obtain ⟨x, hx, hxt⟩ := h.leaf u (Multiset.count_pos.mp (by omega))
      exact ⟨x, hx, (leafTuple_counted t l x k _).trans hxt⟩
  · rw [leafTuple_counted]
    change ((t.counted l k).leaves.payload x).count = s'.count (t.leafTuple x)
    by_cases hxl : x = l
    · subst hxl
      have hc := hcount (t.leafTuple x)
      rw [if_pos rfl] at hc
      rw [hself, h.count x hx, hc]
    · rw [hother x hxl, h.count x hx, hkeep x hx hxl]
  · change (ls.map fun x => ((t.counted l k).leaves.payload x).count).sum = s'.card
    rw [sum_map_change h.inv.valid.leafList.nodup hl hself fun x _ hx => by rw [hother x hx],
      h.sum, hcard]

/-- The tuples of the leaves after one was added. -/
theorem map_leafTuple_added {t₁ : TupleTrie} {b : ℕ} {path : List TupleField}
    {many : ℤ} (h : Inv types t word ls)
    (hadd : Added types t₁ t' word word' ls ⟨tpl, many⟩ b path) (hlv : t₁.leaves = t.leaves) :
    (ls ++ [t.leaves.arena.next]).map t'.leafTuple = ls.map t.leafTuple ++ [canon tpl] := by
  have hold : ls.map t'.leafTuple = ls.map t.leafTuple := List.map_congr_left fun x hx => by
    have hne : x ≠ t.leaves.arena.next :=
      (Arena.lt_next ((h.valid.leafList.live x).mpr hx)).ne
    exact leafTuple_congr (by simp [hadd.leaves, Trie.pushLeaf, hlv, hne])
  have hnew : t'.leafTuple t.leaves.arena.next = canon tpl := by
    simp [leafTuple, hadd.leaves, Trie.pushLeaf, hlv]
  rw [List.map_append, hold, List.map_singleton, hnew]

/-- A leaf goes, with all that the bag has of its tuple. -/
theorem removed (h : Holds types t s word ls) (hl : l ∈ ls)
    {t₁ : TupleTrie} (hr : Trie.Removed types t₁ t' word word' ls l)
    (hinv : Inv types t' word' (ls.erase l)) (hnarrow : NarrowTree t'.nodes word')
    (hpay : ∀ x, x ≠ l → t₁.leaves.payload x = t.leaves.payload x)
    (hcount : ∀ tpl, s'.count tpl = if tpl = t.leafTuple l then 0 else s.count tpl)
    (hcard : s.card = s'.card + s.count (t.leafTuple l))
    (href : t₁.numberOfReferences = s'.card) : Holds types t' s' word' (ls.erase l) := by
  have hnodup := h.inv.valid.leafList.nodup
  have hpay' : ∀ x ∈ ls.erase l, t'.leaves.payload x = t.leaves.payload x := fun x hx => by
    rw [hr.payload, hpay x ((hnodup.mem_erase_iff).mp hx).1]
  have hkeep : ∀ x ∈ ls.erase l,
      s'.count (t.leafTuple x) = s.count (t.leafTuple x) := fun x hx => by
    rw [hnodup.mem_erase_iff] at hx
    rw [hcount, if_neg fun he => hx.1 (h.leaf_unique hx.2 hl he)]
  refine ⟨hinv, hnarrow, fun x hx => ?_, fun x hx => ?_, fun tpl htpl => ?_, fun x hx => ?_, ?_,
    hr.references.trans href, fun tpl => ?_, ?_⟩
  · rw [hpay' x hx]
    exact h.findable x (List.mem_of_mem_erase hx)
  · rw [leafTuple_congr (hpay' x hx)]
    have := Multiset.count_pos.mpr (h.mem x (List.mem_of_mem_erase hx))
    exact Multiset.count_pos.mp (by rwa [hkeep x hx])
  · have hp := Multiset.count_pos.mpr htpl
    rw [hcount] at hp
    split_ifs at hp with he
    · omega
    · obtain ⟨x, hx, hxt⟩ := h.leaf tpl (Multiset.count_pos.mp hp)
      have hx' : x ∈ ls.erase l := by
        refine (hnodup.mem_erase_iff).mpr ⟨?_, hx⟩
        rintro rfl
        exact he hxt.symm
      exact ⟨x, hx', by rw [leafTuple_congr (hpay' x hx'), hxt]⟩
  · rw [leafTuple_congr (hpay' x hx), hpay' x hx, hkeep x hx]
    exact h.count x (List.mem_of_mem_erase hx)
  · have hsum : (t.leaves.payload l).count +
        ((ls.erase l).map fun x => (t.leaves.payload x).count).sum =
        (ls.map fun x => (t.leaves.payload x).count).sum :=
      List.sum_map_erase (fun x => (t.leaves.payload x).count) hl
    have hmap : (ls.erase l).map (fun x => (t'.leaves.payload x).count) =
        (ls.erase l).map fun x => (t.leaves.payload x).count :=
      List.map_congr_left fun x hx => by rw [hpay' x hx]
    have hc := h.count l hl
    have hs := h.sum
    rw [hmap]
    omega
  · rw [hcount]
    split_ifs
    · exact_mod_cast maxShort_nonneg
    · exact h.short tpl
  · have := h.int
    omega

/-- A leaf for a new tuple. -/
theorem added (h : Holds types t s word ls) {t₁ : TupleTrie} {b : ℕ} {path : List TupleField}
    (hlv : t₁.leaves = t.leaves)
    (hinv : Inv types t' word' (ls ++ [t.leaves.arena.next])) (hnarrow : NarrowTree t'.nodes word')
    (hadd : Added types t₁ t' word word' ls ⟨tpl, n⟩ b path) (hfind : Findable tpl)
    (htpl : canon tpl ∉ s) (hn : 0 < n) (hshort : (n : ℤ) ≤ maxShort)
    (hint : ((s.card + n : ℕ) : ℤ) ≤ maxInt) (href : t₁.numberOfReferences = s.card + n) :
    Holds types t' (s + Multiset.replicate n (canon tpl)) word'
      (ls ++ [t.leaves.arena.next]) := by
  -- the new leaf is none of the old ones
  have hfresh : ∀ x ∈ ls, x ≠ t.leaves.arena.next := fun x hx =>
    (Arena.lt_next ((h.inv.valid.leafList.live x).mpr hx)).ne
  have hold : ∀ x ∈ ls, t'.leaves.payload x = t.leaves.payload x := fun x hx => by
    simp [hadd.leaves, Trie.pushLeaf, hlv, hfresh x hx]
  have hnew : t'.leaves.payload t.leaves.arena.next = ⟨tpl, n⟩ := by
    simp [hadd.leaves, Trie.pushLeaf, hlv]
  have hnew' : t'.leafTuple t.leaves.arena.next = canon tpl := by rw [leafTuple, hnew]
  have hzero : s.count (canon tpl) = 0 := Multiset.count_eq_zero.mpr htpl
  -- the tuple gets its references, and no other does
  have hcount : ∀ u, (s + Multiset.replicate n (canon tpl)).count u =
      s.count u + if canon tpl = u then n else 0 := fun u => by
    rw [Multiset.count_add, Multiset.count_replicate]
  have hcard : (s + Multiset.replicate n (canon tpl)).card = s.card + n := by simp
  refine ⟨hinv, hnarrow, fun x hx => ?_, fun x hx => ?_, fun u hu => ?_, fun x hx => ?_, ?_, ?_,
    fun u => ?_, ?_⟩
  · rcases List.mem_append.mp hx with hx | hx
    · rw [hold x hx]
      exact h.findable x hx
    · rw [List.mem_singleton.mp hx, hnew]
      exact hfind
  · rcases List.mem_append.mp hx with hx | hx
    · rw [leafTuple_congr (hold x hx)]
      exact Multiset.mem_add.mpr (.inl (h.mem x hx))
    · rw [List.mem_singleton.mp hx, hnew']
      exact Multiset.mem_add.mpr (.inr (Multiset.mem_replicate.mpr ⟨by omega, rfl⟩))
  · rcases Multiset.mem_add.mp hu with hu | hu
    · obtain ⟨x, hx, hxt⟩ := h.leaf u hu
      exact ⟨x, by simp [hx], by rw [leafTuple_congr (hold x hx), hxt]⟩
    · refine ⟨t.leaves.arena.next, by simp, ?_⟩
      rw [hnew', (Multiset.mem_replicate.mp hu).2]
  · rcases List.mem_append.mp hx with hx | hx
    · have hne : canon tpl ≠ t.leafTuple x := fun he => htpl (he ▸ h.mem x hx)
      rw [leafTuple_congr (hold x hx), hold x hx, hcount, if_neg hne, h.count x hx, Nat.add_zero]
    · rw [List.mem_singleton.mp hx, hnew', hnew]
      simp only [hcount, if_true, hzero, Nat.zero_add]
  · have hmap : ls.map (fun x => (t'.leaves.payload x).count) =
        ls.map fun x => (t.leaves.payload x).count :=
      List.map_congr_left fun x hx => by rw [hold x hx]
    rw [List.map_append, List.sum_append, hmap, h.sum, hcard]
    simp [hnew]
  · rw [hadd.references, href, hcard]
    push_cast
    rfl
  · rw [hcount]
    split_ifs with he
    · subst he
      simpa [hzero] using hshort
    · exact h.short u
  · rwa [hcard]

end Holds

/-! ### Operations -/

/-- The operations on a tuple trie. A deletion is committed at once when it is to be. -/
inductive Op
  | insert (tpl : List Value) (n : ℕ)
  | delete (tpl : List Value) (n : ℕ)
  | deleteByLeaf (l : ℕ)
  deriving DecidableEq, Repr

namespace Op

/-- What an operation does to a trie, and what `insert_tuple` returns. -/
def run (t : TupleTrie) : Op → Exec (TupleTrie × Bool)
  | insert tpl n => t.insertTuple tpl n
  | delete tpl n => do
    let (t, info) ← t.deleteTuple tpl n
    let t ← t.commit info
    pure (t, false)
  | deleteByLeaf l => do
    let t ← t.deleteByLeaf l
    pure (t, false)

/-- What an operation does to a bag. -/
def effect (t : TupleTrie) (s : Multiset (List Value)) : Op → Multiset (List Value)
  | insert tpl n => s + Multiset.replicate n tpl
  | delete tpl n => s - Multiset.replicate n tpl
  | deleteByLeaf l => s - Multiset.replicate 1 (t.leaves.payload l).tpl

/-- The operations a bag allows: insertions that keep the counts in range, deletions of what is
there, and the deletion of a present leaf. -/
def Legal (types : List FieldType) (t : TupleTrie) (s : Multiset (List Value)) : Op → Prop
  | insert tpl n => Typed types tpl ∧ 0 < n ∧ ((s.count tpl + n : ℕ) : ℤ) ≤ maxShort ∧
      ((s.card + n : ℕ) : ℤ) ≤ maxInt
  | delete tpl n => 0 < n ∧ n ≤ s.count tpl
  | deleteByLeaf l => t.leaves.arena.live l = true

end Op

/-- The tries and bags after a run of allowed operations. -/
inductive Run (types : List FieldType) : TupleTrie → Multiset (List Value) → Prop
  | new : Run types Trie.new 0
  | step {t t' : TupleTrie} {s : Multiset (List Value)} {op : Op} {b : Bool}
      (h : Run types t s) (hop : op.Legal types t s) (hrun : op.run t = .ok (t', b)) :
      Run types t' (op.effect t s)

/-- What is taken from a bag is counted off. -/
private theorem count_sub_replicate (s : Multiset (List Value)) (n : ℕ) (tpl u : List Value) :
    (s - Multiset.replicate n tpl).count u = s.count u - if tpl = u then n else 0 := by
  rw [Multiset.count_sub, Multiset.count_replicate]

private theorem card_sub_replicate {s : Multiset (List Value)} {n : ℕ} {tpl : List Value}
    (h : n ≤ s.count tpl) : (s - Multiset.replicate n tpl).card = s.card - n := by
  rw [Multiset.card_sub (Multiset.le_count_iff_replicate_le.mp h), Multiset.card_replicate]

namespace Holds

/-- `insert_tuple` keeps the relation, and returns true for a new tuple. -/
theorem insertTuple (h : Holds types t s word ls) (htpl : Typed types tpl)
    (hfind : Findable tpl) (hn : 0 < n) (hshort : ((s.count (canon tpl) + n : ℕ) : ℤ) ≤ maxShort)
    (hint : ((s.card + n : ℕ) : ℤ) ≤ maxInt) :
    ∃ (t' : TupleTrie) (word' : Words) (ls' : List ℕ),
      t.insertTuple tpl n = .ok (t', decide (canon tpl ∉ s)) ∧
      Holds types t' (s + Multiset.replicate n (canon tpl)) word' ls' ∧
      ls'.map t'.leafTuple =
        if canon tpl ∈ s then ls.map t.leafTuple else ls.map t.leafTuple ++ [canon tpl] := by
  have href := h.references
  have hadd : addInt t.numberOfReferences n = .ok ((s.card + n : ℕ) : ℤ) := by
    rw [href, addInt_of_mem (by simp only [maxInt]; omega) (by push_cast at hint; exact hint)]
    push_cast
    rfl
  have hcard : (s + Multiset.replicate n (canon tpl)).card = s.card + n := by simp
  rcases insertTuple_cases h.inv htpl (Int.natCast_pos.mpr hn) with
    ⟨l, hf, hok⟩ | ⟨habs, t', word', b, path, hinv, hnew, hnarrow, hok⟩
  · have hl := h.inv.leafTuple_of_found h.narrow htpl hfind hf (h.findable l hf.mem)
    have hmem : canon tpl ∈ s := hl ▸ h.mem l hf.mem
    refine ⟨_, word, ls, ?_, h.counted hf.mem (k := n) (fun u => ?_) ?_ ?_ (fun u => ?_) ?_, ?_⟩
    · rw [hok, hadd, ok_bind, assert_pos (by omega), hcard]
      simp [hmem]
    · rw [Multiset.count_add, Multiset.count_replicate, hl]
      by_cases hu : u = canon tpl
      · simp [hu]
      · simp [hu, Ne.symm hu]
    · rw [hcard]
      push_cast
      rfl
    · rw [hl]
      exact Multiset.mem_add.mpr (.inl hmem)
    · rw [Multiset.count_add, Multiset.count_replicate]
      split_ifs with hu
      · exact hu ▸ hshort
      · exact h.short u
    · rwa [hcard]
    · rw [if_pos hmem]
      exact List.map_congr_left fun x _ => leafTuple_counted t l x n _
  · have hnot : canon tpl ∉ s := fun hm => by
      obtain ⟨l, hl, ht⟩ := h.leaf (canon tpl) hm
      exact h.inv.leafTuple_ne_of_absent h.narrow hfind habs hl (h.findable l hl) ht
    have hnarrow' := hnarrow h.narrow fun f hf => (findable_levels hfind f hf).narrow
    refine ⟨t', word', _, ?_, h.added (by rfl) hinv hnarrow' hnew hfind hnot hn
      (by push_cast at hshort; omega) hint (by simp [href]), ?_⟩
    · rw [hok, hadd, ok_bind, assert_pos (by omega)]
      simp [hnot]
    · rw [if_neg hnot]
      exact map_leafTuple_added h.inv hnew rfl

/-- Whether a leaf is to be deleted once `n` were taken from its count. -/
theorem toDelete (h : Holds types t s word ls) (hl : l ∈ ls)
    (hn : n ≤ s.count (t.leafTuple l)) :
    LeafOps.toDelete ((t.counted l (-n)).leaves.payload l) =
      decide (s.count (t.leafTuple l) = n) := by
  have hc := h.count l hl
  have hs := h.short (t.leafTuple l)
  have hself : ((t.counted l (-n)).leaves.payload l).count =
      s.count (t.leafTuple l) - n := by
    rw [counted_count (by omega) (by omega), hc]
    omega
  simp only [LeafOps.toDelete, hself]
  by_cases he : s.count (t.leafTuple l) = n
  · simp [he]
  · simp [he]
    omega

/-- What is taken from the count of a leaf is taken from the bag. -/
theorem taken (h : Holds types t s word ls) (hl : l ∈ ls)
    (hn : n ≤ s.count (t.leafTuple l)) (hne : s.count (t.leafTuple l) ≠ n) :
    Holds types ((t.counted l (-n)).withRefs (s.card - n : ℕ))
      (s - Multiset.replicate n (t.leafTuple l)) word ls := by
  have hcard := card_sub_replicate hn
  have hle := (Multiset.count_le_card (t.leafTuple l) s)
  have hsub := count_sub_replicate s n (t.leafTuple l)
  rw [← hcard]
  refine h.counted hl (fun u => ?_) ?_ ?_ (fun u => ?_) ?_
  · rw [hsub]
    by_cases hu : u = t.leafTuple l
    · subst hu
      rw [if_pos rfl, if_pos rfl]
      omega
    · rw [if_neg (Ne.symm hu), if_neg hu]
      omega
  · rw [hcard]
    omega
  · rw [← Multiset.count_pos, hsub, if_pos rfl]
    omega
  · have := h.short u
    rw [hsub]
    omega
  · have := h.int
    rw [hcard]
    omega

/-- Taking all that is left of a leaf's tuple removes the leaf. -/
theorem emptied (h : Holds types t s word ls) (hl : l ∈ ls)
    (hn : s.count (t.leafTuple l) = n)
    (hr : Trie.Removed types ((t.counted l (-n)).withRefs (s.card - n : ℕ)) t' word word' ls l) :
    Holds types t' (s - Multiset.replicate n (t.leafTuple l)) word' (ls.erase l) := by
  have hle := (Multiset.count_le_card (t.leafTuple l) s)
  have hcard := card_sub_replicate hn.ge
  have hinv := (h.inv.counted l (-n)).withRefs (s.card - n : ℕ)
  refine h.removed hl hr (hinv.removed hr) (narrowTree_removed hinv.valid h.narrow hr)
    (fun x hx => ?_) (fun u => ?_) ?_ ?_
  · simp [Trie.withRefs, Trie.counted, hx]
  · rw [count_sub_replicate]
    by_cases hu : u = t.leafTuple l
    · subst hu
      simp [hn]
    · simp [hu, Ne.symm hu]
  · rw [hcard]
    omega
  · rw [hcard]
    rfl

/-- `delete_tuple`, committed, keeps the relation. -/
theorem deleteTuple (h : Holds types t s word ls) (htpl : Typed types tpl)
    (hfind : Findable tpl) (hpos : 0 < n) (hn : n ≤ s.count (canon tpl)) :
    ∃ (t₁ t' : TupleTrie) (info : DeleteInfo) (word' : Words) (ls' : List ℕ),
      t.deleteTuple tpl n = .ok (t₁, info) ∧ t₁.commit info = .ok t' ∧
      info.isSome = decide (s.count (canon tpl) = n) ∧
      Holds types t' (s - Multiset.replicate n (canon tpl)) word' ls' ∧
      ls'.map t'.leafTuple = if s.count (canon tpl) = n then (ls.map t.leafTuple).erase (canon tpl)
        else ls.map t.leafTuple := by
  obtain ⟨x, hx, hxt⟩ := h.leaf (canon tpl) (Multiset.count_pos.mp (by omega))
  rcases deleteTuple_cases h.inv htpl (Int.natCast_pos.mpr hpos) with ⟨l, hf, hok⟩ | ⟨habs, -⟩
  · have hl := h.inv.leafTuple_of_found h.narrow htpl hfind hf (h.findable l hf.mem)
    obtain rfl := h.leaf_unique hf.mem hx (hl.trans hxt.symm)
    rw [← hl] at hn ⊢
    have hle := Multiset.count_le_card (t.leafTuple l) s
    have href := h.references
    have hint := h.int
    have hsub : ((s.card - n : ℕ) : ℤ) = t.numberOfReferences - n := by omega
    have hadd : addInt t.numberOfReferences (-n) = .ok ((s.card - n : ℕ) : ℤ) := by
      rw [hsub, addInt_of_mem (by simp only [maxInt]; omega) (by omega)]
      rfl
    rw [assert_pos (by omega), ok_bind, h.toDelete hx hn] at hok
    by_cases he : s.count (t.leafTuple l) = n
    · rw [decide_eq_true he, if_pos rfl] at hok
      have hdel := h.toDelete hx hn
      rw [decide_eq_true he] at hdel
      obtain ⟨t', word', hrem, hcommit⟩ := commitDelete_spec (h.inv.counted l (-n)) hx hdel n
      have href' : (t.counted l (-n)).numberOfReferences = t.numberOfReferences := rfl
      rw [href', hadd, ok_bind, assert_pos (by omega), ok_bind] at hcommit
      rw [href', ← hsub] at hrem
      have hres := h.emptied hx he hrem
      have horder : (ls.erase l).map t'.leafTuple = (ls.map t.leafTuple).erase (t.leafTuple l) := by
        rw [← map_erase_of_unique (f := t.leafTuple) (y := l) fun x hx he =>
          h.leaf_unique hx hf.mem he]
        refine List.map_congr_left fun x hx => ?_
        have hxl := ((h.inv.valid.leafList.nodup.mem_erase_iff).mp hx).1
        exact leafTuple_congr (by rw [hrem.payload]; simp [Trie.withRefs, Trie.counted, hxl])
      refine ⟨_, t', _, word', _, hok, ?_, (decide_eq_true he).symm, hres,
        by rw [if_pos he, horder]⟩
      have hzero : ((s.card - n : ℕ) : ℤ) = 0 ↔ ls.erase l = [] := by
        rw [hres.eq_nil_iff, ← Multiset.card_eq_zero, card_sub_replicate hn]
        omega
      exact hcommit.trans (by rw [assert_pos hzero]; rfl)
    · rw [decide_eq_false he, if_neg (by simp), hadd, ok_bind] at hok
      exact ⟨_, _, none, word, ls, hok, rfl, (decide_eq_false he).symm, h.taken hx hn he,
        by rw [if_neg he]; exact List.map_congr_left fun x _ => leafTuple_counted t l x _ _⟩
  · exact absurd hxt (h.inv.leafTuple_ne_of_absent h.narrow hfind habs hx (h.findable x hx))

/-- `delete_by_leaf` keeps the relation. -/
theorem deleteByLeaf (h : Holds types t s word ls) (hl : l ∈ ls) :
    ∃ (t' : TupleTrie) (word' : Words) (ls' : List ℕ), t.deleteByLeaf l = .ok t' ∧
      Holds types t' (s - Multiset.replicate 1 (t.leafTuple l)) word' ls' := by
  have hn : 1 ≤ s.count (t.leafTuple l) := Multiset.count_pos.mpr (h.mem l hl)
  have hle := Multiset.count_le_card (t.leafTuple l) s
  have href := h.references
  have hint := h.int
  have hsub : ((s.card - 1 : ℕ) : ℤ) = t.numberOfReferences - 1 := by omega
  have hadd : addInt t.numberOfReferences (-1) = .ok ((s.card - 1 : ℕ) : ℤ) := by
    rw [hsub, addInt_of_mem (by simp only [maxInt]; omega) (by omega)]
    rfl
  have hdel := h.toDelete hl hn
  rcases deleteByLeaf_cases h.inv hl with ⟨hkeep, hok⟩ | ⟨hgo, t', word', hrem, hok⟩
  · have hne : s.count (t.leafTuple l) ≠ 1 := by
      rintro he
      rw [decide_eq_true he] at hdel
      exact absurd hdel (by simpa using hkeep)
    rw [hadd, ok_bind, assert_pos (by omega), ok_bind] at hok
    exact ⟨_, word, ls, hok, h.taken hl hn hne⟩
  · have he : s.count (t.leafTuple l) = 1 := by
      by_contra hne
      rw [decide_eq_false hne] at hdel
      exact absurd hgo (by simpa using hdel)
    rw [hadd, ok_bind, assert_pos (by omega), ok_bind] at hok
    exact ⟨t', word', _, hok, h.emptied hl he (by simpa [hsub] using hrem)⟩

end Holds

/-- Over exact fields a leaf's tuple is canonical. -/
theorem Holds.leafTuple_eq (h : Holds types t s word ls) (hex : ∀ τ ∈ types, τ.Exact)
    (hl : l ∈ ls) : t.leafTuple l = (t.leaves.payload l).tpl :=
  (h.inv.typed l hl).canon_eq hex

/-- An operation the bag allows succeeds and keeps the relation. -/
theorem Holds.step (h : Holds types t s word ls) (hex : ∀ τ ∈ types, τ.Exact) {op : Op}
    (hop : op.Legal types t s) :
    ∃ (t' : TupleTrie) (b : Bool) (word' : Words) (ls' : List ℕ), op.run t = .ok (t', b) ∧
      Holds types t' (op.effect t s) word' ls' ∧
      ∀ tpl n, op = .insert tpl n → b = decide (tpl ∉ s) := by
  cases op with
  | insert tpl n =>
    obtain ⟨htpl, hn, hshort, hint⟩ := hop
    have hcanon := htpl.canon_eq hex
    obtain ⟨t', word', ls', hok, hres, -⟩ := h.insertTuple htpl (htpl.findable hex) hn
      (hcanon.symm ▸ hshort) hint
    rw [hcanon] at hok hres
    refine ⟨t', _, word', ls', hok, hres, fun u m he => ?_⟩
    obtain ⟨rfl, rfl⟩ := Op.insert.inj he
    rfl
  | delete tpl n =>
    have htpl : Typed types tpl := by
      obtain ⟨l, hl, hlt⟩ := h.leaf tpl (Multiset.count_pos.mp (hop.1.trans_le hop.2))
      rw [h.leafTuple_eq hex hl] at hlt
      exact hlt ▸ h.inv.typed l hl
    have hcanon := htpl.canon_eq hex
    obtain ⟨t₁, t', info, word', ls', hok, hcommit, -, hres, -⟩ :=
      h.deleteTuple htpl (htpl.findable hex) hop.1 (hcanon.symm ▸ hop.2)
    rw [hcanon] at hres
    refine ⟨t', false, word', ls', ?_, hres, fun _ _ he => by cases he⟩
    simp only [Op.run, hok, ok_bind, hcommit, pure_eq_ok]
  | deleteByLeaf l =>
    have hl := (h.inv.valid.leafList.live l).mp hop
    obtain ⟨t', word', ls', hok, hres⟩ := h.deleteByLeaf hl
    rw [h.leafTuple_eq hex hl] at hres
    refine ⟨t', false, word', ls', ?_, hres, fun _ _ he => by cases he⟩
    simp only [Op.run, hok, ok_bind, pure_eq_ok]

/-- Every run of allowed operations keeps the relation. -/
theorem Run.holds (hex : ∀ τ ∈ types, τ.Exact) (h : Run types t s) :
    ∃ (word : Words) (ls : List ℕ), Holds types t s word ls := by
  induction h with
  | new => exact ⟨_, _, Holds.new types⟩
  | step h hop hrun ih =>
    obtain ⟨word, ls, hh⟩ := ih
    obtain ⟨t', b, word', ls', hok, hres, -⟩ := hh.step hex hop
    rw [hrun, Except.ok.injEq, Prod.mk.injEq] at hok
    exact ⟨word', ls', hok.1 ▸ hres⟩

/-! ### The objects of a trie -/

/-- The objects of the trie `t` are those of the bag `s`: a leaf in the list `ls` for each tuple,
with its count, and the nodes on the paths of these. -/
structure Represents (t : TupleTrie) (s : Multiset (List Value)) (ls : List ℕ) : Prop where
  list : LeafList t.leaves t.firstLeaf t.lastLeaf ls
  single : (ls.map fun l => (t.leaves.payload l).tpl).Nodup
  mem : ∀ tpl, (∃ l ∈ ls, (t.leaves.payload l).tpl = tpl) ↔ tpl ∈ s
  count : ∀ l ∈ ls, (t.leaves.payload l).count = s.count (t.leaves.payload l).tpl
  references : t.numberOfReferences = (ls.map fun l => (t.leaves.payload l).count).sum
  path : ∀ l ∈ ls, PathTo t (t.leaves.node l) (levels (t.leaves.payload l).tpl) ∧
    t.nodes.child (t.leaves.node l) = .leaf l
  pruned : ∀ a, t.nodes.arena.live a = true →
    a = t.root ∨ ∃ l ∈ ls, Above t.nodes (t.leaves.node l) a

theorem Holds.represents (h : Holds types t s word ls) (hex : ∀ τ ∈ types, τ.Exact) :
    Represents t s ls where
  list := h.inv.valid.leafList
  single := h.inv.valid.leafList.nodup.map_on fun _ hl _ hl' heq => h.leaf_unique hl hl'
    (by rw [h.leafTuple_eq hex hl, h.leafTuple_eq hex hl', heq])
  mem tpl := by
    constructor
    · rintro ⟨l, hl, ht⟩
      exact ht ▸ h.leafTuple_eq hex hl ▸ h.mem l hl
    · intro htpl
      obtain ⟨l, hl, ht⟩ := h.leaf tpl htpl
      exact ⟨l, hl, h.leafTuple_eq hex hl ▸ ht⟩
  count l hl := h.leafTuple_eq hex hl ▸ h.count l hl
  references := h.references.trans h.sum.symm
  path l hl := ⟨h.inv.valid.pathTo (h.inv.word_eq hex hl), (h.inv.valid.leafNodes.attached l hl).2⟩
  pruned _ ha := h.inv.valid.above_leaf ha

/-- A tuple trie over integer, node and list fields refines a bag of tuples: after any run of
allowed operations its objects are those of the bag, and every operation the bag allows then
succeeds, an insertion telling whether the tuple is new. -/
theorem run_refines (hex : ∀ τ ∈ types, τ.Exact) (h : Run types t s) :
    (∃ ls, Represents t s ls) ∧
    ∀ op : Op, op.Legal types t s → ∃ (t' : TupleTrie) (b : Bool), op.run t = .ok (t', b) ∧
      ∀ tpl n, op = .insert tpl n → b = decide (tpl ∉ s) := by
  obtain ⟨word, ls, hh⟩ := h.holds hex
  refine ⟨⟨ls, hh.represents hex⟩, fun op hop => ?_⟩
  obtain ⟨t', b, -, -, hok, -, hb⟩ := hh.step hex hop
  exact ⟨t', b, hok, hb⟩

/-- The run that inserts the list `[4, 5]` twice and takes one of them back. -/
theorem run_refines_listTwice :
    ∃ (t : TupleTrie) (ls : List ℕ), Run [.list .int] t {[.list .int [.int 4, .int 5]]} ∧
      Represents t {[.list .int [.int 4, .int 5]]} ls := by
  have hex : ∀ τ ∈ [FieldType.list .int], τ.Exact := by simp [FieldType.Exact]
  have htyped : Typed [.list .int] [.list .int [.int 4, .int 5]] :=
    ⟨rfl, by simp [Value.Ok, Item.type]⟩
  have hlegal₁ : (Op.insert [.list .int [.int 4, .int 5]] 2).Legal [.list .int] Trie.new 0 :=
    ⟨htyped, by decide, by simp [maxShort], by simp [maxInt]⟩
  obtain ⟨t₁, b₁, h₁, -⟩ := (run_refines hex .new).2 _ hlegal₁
  have hrun₁ := Run.step .new hlegal₁ h₁
  have hlegal₂ : (Op.delete [.list .int [.int 4, .int 5]] 1).Legal [.list .int] t₁
      (Op.effect Trie.new 0 (.insert [.list .int [.int 4, .int 5]] 2)) :=
    ⟨by decide, by simp [Op.effect]⟩
  obtain ⟨t₂, b₂, h₂, -⟩ := (run_refines hex hrun₁).2 _ hlegal₂
  have hrun₂ := Run.step hrun₁ hlegal₂ h₂
  have hbag : Op.effect t₁ (Op.effect Trie.new 0 (.insert [.list .int [.int 4, .int 5]] 2))
      (.delete [.list .int [.int 4, .int 5]] 1) = {[.list .int [.int 4, .int 5]]} := by
    simp only [Op.effect]
    decide
  rw [hbag] at hrun₂
  obtain ⟨ls, hls⟩ := (run_refines hex hrun₂).1
  exact ⟨t₂, ls, hrun₂, hls⟩

/-! ### The range of the sum -/

/-- The tuple of one node. -/
def nodeTuple (i : ℕ) : List Value := [.item (.node (UInt32.ofNat i))]

theorem typed_nodeTuple (i : ℕ) : Typed [.item .node] (nodeTuple i) :=
  ⟨rfl, by simp [nodeTuple, Value.Ok]⟩

theorem nodeTuple_ne {i k : ℕ} (hk : k < 2 ^ 32) (hi : i < k) : nodeTuple i ≠ nodeTuple k := by
  intro heq
  simp only [nodeTuple, List.cons.injEq, Value.item.injEq, Item.node.injEq, and_true] at heq
  have h := congrArg UInt32.toNat heq
  rw [UInt32.toNat_ofNat_of_lt' (hi.trans hk), UInt32.toNat_ofNat_of_lt' hk] at h
  omega

/-- The first `k` nodes, each inserted as often as a count allows. -/
theorem exists_full {k : ℕ} (hk : ((k * 32767 : ℕ) : ℤ) ≤ maxInt) :
    ∃ (t : TupleTrie) (s : Multiset (List Value)), Run [.item .node] t s ∧ s.card = k * 32767 ∧
      ∀ tpl ∈ s, ∃ i < k, tpl = nodeTuple i := by
  induction k with
  | zero => exact ⟨_, 0, .new, by simp, by simp⟩
  | succ k ih =>
    have hle : k * 32767 ≤ (k + 1) * 32767 := Nat.mul_le_mul_right _ (Nat.le_succ k)
    have hk' : ((k * 32767 : ℕ) : ℤ) ≤ maxInt := (Int.ofNat_le.mpr hle).trans hk
    obtain ⟨t, s, hrun, hcard, hmem⟩ := ih hk'
    have habsent : s.count (nodeTuple k) = 0 := by
      rw [Multiset.count_eq_zero]
      intro hin
      obtain ⟨i, hi, heq⟩ := hmem _ hin
      exact nodeTuple_ne (by simp only [maxInt] at hk'; omega) hi heq.symm
    have hex : ∀ τ ∈ [FieldType.item .node], τ.Exact := by simp [FieldType.Exact]
    have hlegal : (Op.insert (nodeTuple k) 32767).Legal [.item .node] t s := by
      refine ⟨typed_nodeTuple k, by decide, ?_, ?_⟩
      · simp [habsent, maxShort]
      · rw [hcard]
        push_cast at hk ⊢
        omega
    obtain ⟨word, ls, hh⟩ := hrun.holds hex
    obtain ⟨t', b, -, -, hok, -⟩ := hh.step hex hlegal
    refine ⟨t', _, hrun.step hlegal hok, ?_, fun tpl htpl => ?_⟩
    · simp only [Op.effect, Multiset.card_add, Multiset.card_replicate, hcard]
      omega
    · rcases Multiset.mem_add.mp htpl with hin | hin
      · obtain ⟨i, hi, rfl⟩ := hmem tpl hin
        exact ⟨i, by omega, rfl⟩
      · exact ⟨k, by omega, Multiset.eq_of_mem_replicate hin⟩

/-- When the first 65538 nodes have been inserted 32767 times each, another node cannot be inserted
twice: the counts stay in their range, and the number of references leaves that of an `int`. -/
theorem not_run_refines : ¬∀ (t : TupleTrie) (s : Multiset (List Value)), Run [.item .node] t s →
    ∀ tpl n, Typed [.item .node] tpl → 0 < n → ((s.count tpl + n : ℕ) : ℤ) ≤ maxShort →
      ∃ (t' : TupleTrie) (b : Bool), (Op.insert tpl n).run t = .ok (t', b) := by
  intro hall
  obtain ⟨t, s, hrun, hcard, hmem⟩ := exists_full (k := 65538) (by decide)
  have habsent : s.count (nodeTuple 65538) = 0 := by
    rw [Multiset.count_eq_zero]
    intro hin
    obtain ⟨i, hi, heq⟩ := hmem _ hin
    exact nodeTuple_ne (by decide) hi heq.symm
  obtain ⟨t', b, hok⟩ := hall t s hrun (nodeTuple 65538) 2 (typed_nodeTuple _) (by decide)
    (by simp [habsent, maxShort])
  obtain ⟨word, ls, hh⟩ := hrun.holds (by simp [FieldType.Exact])
  have hover : addInt t.numberOfReferences (2 : ℕ) = .error .overflow := by
    rw [hh.references, hcard]
    decide
  rcases insertTuple_cases hh.inv (typed_nodeTuple 65538) (by decide : (0 : ℤ) < (2 : ℕ)) with
    ⟨l, -, heq⟩ | ⟨-, _, _, _, _, -, -, -, heq⟩
  · rw [Op.run, heq, hover] at hok
    cases hok
  · rw [Op.run, heq, hover] at hok
    cases hok

end TupleTrie

end Meld.Db
