import Meld.Db.AggGenerate
import Meld.Db.AggTrie

/-!
# The groups of an aggregate predicate

`tuple_aggregate` puts every fact into the configuration of its group, which the trie finds by the
group-by fields. After `generate` the trie should have a configuration for each group with facts and
none for another. `erase` is to remove the configurations that became empty, but a leaf of this trie
is never to be deleted: it stays, only the number of references goes down. So the trie mirrors the
facts after `generate` exactly when no group was empty before.
-/

namespace Meld.Db

open Meld.Lib Meld.Vm

namespace AggTrie

/-- The facts of the group with a key. -/
def groupOf (field : ℕ) (s : Multiset (List Value)) (k : List Value) : Multiset (List Value) :=
  s.filter fun u => u.take field = canon k

/-- No configuration of the trie is empty. -/
def NoEmptyGroup (t : AggTrie) : Prop :=
  ∀ l conf, t.leaves.arena.live l = true → (t.leaves.payload l).conf = some conf →
    conf.isEmpty = false

/-- The trie, with the leaves `ls` for the keys `key`, mirrors the facts `s`: it has one
configuration for each group with facts, which holds them, and none else, its number of references
is their number, and its structure is that of a trie. -/
structure Mirrors (types : List FieldType) (field : ℕ) (t : AggTrie) (s : Multiset (List Value))
    (key : ℕ → List Value) (word : Words) (ls : List ℕ) : Prop where
  valid : Valid (types.take field) t word ls
  leads : ∀ l ∈ ls, Trie.Leads t t.root (key l) l
  distinct : ∀ l ∈ ls, ∀ l' ∈ ls, canon (key l) = canon (key l') → l = l'
  mem : ∀ k, (∃ l ∈ ls, canon (key l) = k) ↔ ∃ u ∈ s, u.take field = k
  holds : ∀ l ∈ ls, ∃ conf, (t.leaves.payload l).conf = some conf ∧
    ∃ word' ls', TupleTrie.Holds types conf.vals (groupOf field s (key l)) word' ls'
  references : t.numberOfReferences = ls.length

/-- A fact without strings and NaNs may be added as long as its count and the numbers of facts and
of groups stay in range; where lists are summed, they have one length in each group. -/
structure InRange (typ : AggregateType) (field : ℕ) (t : AggTrie) (s : Multiset (List Value))
    (tpl : List Value) (n : ℕ) : Prop where
  regular : Regular tpl
  short : ((s.count (canon tpl) + n : ℕ) : ℤ) ≤ maxShort
  int : ((s.card + n : ℕ) : ℤ) ≤ maxInt
  groups : t.numberOfReferences < maxInt
  lengths : typ = .sumListFloat → ∀ u ∈ s, u.take field = (canon tpl).take field →
    listLength field u = listLength field tpl

/-- The tries after any sequence of `add_to_set`, with positive and negative counts, and `generate`,
with the facts that are there; no group is empty when `generate` is called. -/
inductive Run (F : FloatOps) (types : List FieldType) (typ : AggregateType) (field : ℕ) :
    AggTrie → Multiset (List Value) → Prop
  | new : Run F types typ field Trie.new 0
  | add {t t' : AggTrie} {s : Multiset (List Value)} {tpl : List Value} {n : ℕ}
      (h : Run F types typ field t s) (htpl : TupleTrie.Typed types tpl) (hn : 0 < n)
      (hrange : InRange typ field t s tpl n) (hrun : t.addToSet field tpl n = .ok t') :
      Run F types typ field t' (s + Multiset.replicate n (canon tpl))
  | remove {t t' : AggTrie} {s : Multiset (List Value)} {tpl : List Value} {n : ℕ}
      (h : Run F types typ field t s) (htpl : TupleTrie.Typed types tpl) (hn : 0 < n)
      (hle : n ≤ s.count (canon tpl)) (hrun : t.addToSet field tpl (-n) = .ok t') :
      Run F types typ field t' (s - Multiset.replicate n (canon tpl))
  | generate {t t' : AggTrie} {s : Multiset (List Value)} {cont : List Emission}
      (h : Run F types typ field t s) (hne : NoEmptyGroup t)
      (hrun : generate F typ field t = .ok (t', cont)) : Run F types typ field t' s

/-! ### Groups of facts -/

section

variable {field n : ℕ} {s : Multiset (List Value)} {k u : List Value}

theorem groupOf_replicate (h : u.take field = canon k) :
    groupOf field (Multiset.replicate n u) k = Multiset.replicate n u :=
  Multiset.filter_eq_self.mpr fun v hv => by rw [Multiset.eq_of_mem_replicate hv, h]

theorem groupOf_replicate_ne (h : u.take field ≠ canon k) :
    groupOf field (Multiset.replicate n u) k = 0 :=
  Multiset.filter_eq_nil.mpr fun v hv => by rwa [Multiset.eq_of_mem_replicate hv]

theorem groupOf_add (h : u.take field = canon k) :
    groupOf field (s + Multiset.replicate n u) k =
      groupOf field s k + Multiset.replicate n u :=
  (Multiset.filter_add _ _ _).trans (congrArg _ (groupOf_replicate h))

theorem groupOf_add_ne (h : u.take field ≠ canon k) :
    groupOf field (s + Multiset.replicate n u) k = groupOf field s k :=
  (Multiset.filter_add _ _ _).trans ((congrArg _ (groupOf_replicate_ne h)).trans (add_zero _))

theorem groupOf_sub (h : u.take field = canon k) :
    groupOf field (s - Multiset.replicate n u) k =
      groupOf field s k - Multiset.replicate n u :=
  (Multiset.filter_sub _ _ _).trans (congrArg _ (groupOf_replicate h))

theorem groupOf_sub_ne (h : u.take field ≠ canon k) :
    groupOf field (s - Multiset.replicate n u) k = groupOf field s k :=
  (Multiset.filter_sub _ _ _).trans ((congrArg _ (groupOf_replicate_ne h)).trans (tsub_zero _))

theorem count_groupOf (h : u.take field = canon k) :
    (groupOf field s k).count u = s.count u := Multiset.count_filter_of_pos h

theorem card_groupOf_le : (groupOf field s k).card ≤ s.card :=
  Multiset.card_le_card (Multiset.filter_le _ _)

theorem canon_take (field : ℕ) (tpl : List Value) :
    canon (tpl.take field) = (canon tpl).take field := List.map_take

theorem typed_take {types : List FieldType} {tpl : List Value}
    (h : TupleTrie.Typed types tpl) (field : ℕ) :
    TupleTrie.Typed (types.take field) (tpl.take field) :=
  ⟨by rw [List.map_take, h.types], fun v hv => h.ok v (List.mem_of_mem_take hv)⟩

end

/-! ### Adding and taking facts -/

/-- The configuration holds the facts `bag`. -/
structure Keeps (types : List FieldType) (conf : AggConfiguration)
    (bag : Multiset (List Value)) : Prop where
  holds : ∃ word ls, TupleTrie.Holds types conf.vals bag word ls
  corresponds : ∀ c, conf.corresponds = some c → AggConfiguration.Comparable types c

/-- Every leaf's configuration holds the facts of its group, and every fact has a leaf. -/
structure Groups (types : List FieldType) (typ : AggregateType) (field : ℕ) (t : AggTrie)
    (s : Multiset (List Value)) (key : ℕ → List Value) (word : Words) (ls : List ℕ) : Prop where
  keyed : Keyed (types.take field) t key word ls
  conf : ∀ l ∈ ls, ∃ conf, (t.leaves.payload l).conf = some conf ∧
    Keeps types conf (groupOf field s (key l))
  covers : ∀ u ∈ s, ∃ l ∈ ls, canon (key l) = u.take field
  regular : ∀ u ∈ s, Regular u
  lengths : typ = .sumListFloat → ∀ u ∈ s, ∀ u' ∈ s, u.take field = u'.take field →
    listLength field u = listLength field u'
  references : t.numberOfReferences = ls.length
  groups : (ls.length : ℤ) ≤ maxInt

section

variable {F : FloatOps} {types : List FieldType} {typ : AggregateType} {field n : ℕ}
  {t t' : AggTrie} {s s' : Multiset (List Value)} {key : ℕ → List Value} {word : Words}
  {ls : List ℕ} {tpl : List Value} {conf : AggConfiguration} {l : ℕ}

theorem Groups.new (types : List FieldType) (typ : AggregateType) (field : ℕ) :
    Groups types typ field Trie.new 0 (fun _ => [])
      (Function.update (fun _ => none) 0 (some [])) [] where
  keyed := by
    have hvalid : Valid (types.take field) (keyTrie Trie.new fun _ => [])
        (Function.update (fun _ => none) 0 (some [])) [] := valid_keyTrie.mpr (Tree.new _)
    exact ⟨⟨hvalid, by simp, by simp⟩, (Tree.narrowTree_iff hvalid).mpr (by simp), by simp⟩
  conf := by simp
  covers := by simp
  regular := by simp
  lengths := by simp
  references := rfl
  groups := by simp [maxInt]

/-- A configuration for the facts of its group, when the other groups stay. -/
theorem Groups.setConf (h : Groups types typ field t s key word ls) (hl : l ∈ ls)
    (hother : ∀ l' ∈ ls, canon (key l') ≠ canon (key l) →
      groupOf field s' (key l') = groupOf field s (key l'))
    (hk : Keeps types conf (groupOf field s' (key l)))
    (hmem : ∀ u ∈ s', u ∈ s ∨ u.take field = canon (key l)) (hregular : ∀ u ∈ s', Regular u)
    (hlengths : typ = .sumListFloat → ∀ u ∈ s', ∀ u' ∈ s', u.take field = u'.take field →
      listLength field u = listLength field u') :
    Groups types typ field (t.setConf l conf) s' key word ls where
  keyed := h.keyed.setConf l conf
  conf x hx := by
    by_cases hxl : x = l
    · exact ⟨conf, by simp [AggTrie.setConf, hxl], hxl ▸ hk⟩
    · obtain ⟨conf', hc, hkeeps⟩ := h.conf x hx
      refine ⟨conf', by simp [AggTrie.setConf, hxl, hc], ?_⟩
      rwa [hother x hx fun he => hxl (h.keyed.unique hx hl he)]
  covers u hu := (hmem u hu).elim (h.covers u) fun he => ⟨l, hl, he.symm⟩
  regular := hregular
  lengths := hlengths
  references := h.references
  groups := h.groups

/-- A leaf with a new configuration, for a group without facts. -/
theorem Groups.grown (h : Groups types typ field t s key word ls) {word' : Words} {k : List Value}
    {l : ℕ} (hkeyed : Keyed (types.take field) t' (Function.update key l k) word' (ls ++ [l]))
    (hpay : t'.leaves.payload = Function.update t.leaves.payload l ⟨none⟩)
    (href : t'.numberOfReferences = t.numberOfReferences + 1)
    (hgroups : t.numberOfReferences < maxInt) (hl : l ∉ ls)
    (hnone : ∀ l' ∈ ls, canon (key l') ≠ canon k) :
    Groups types typ field (t'.setConf l .new) s (Function.update key l k) word' (ls ++ [l]) := by
  have hold : ∀ x ∈ ls, Function.update key l k x = key x := fun x hx =>
    Function.update_of_ne (show x ≠ l from fun he => hl (he ▸ hx)) k key
  have hempty : ∀ u ∈ s, u.take field ≠ canon k := fun u hu he => by
    obtain ⟨x, hx, hkx⟩ := h.covers u hu
    exact hnone x hx (hkx.trans he)
  have hrefs := h.references
  refine ⟨hkeyed.setConf l .new, fun x hx => ?_, fun u hu => ?_, h.regular, h.lengths, ?_, ?_⟩
  · rcases List.mem_append.mp hx with hx | hx
    · have hxl : x ≠ l := fun he => hl (he ▸ hx)
      obtain ⟨conf, hc, hk⟩ := h.conf x hx
      exact ⟨conf, by simp [AggTrie.setConf, hxl, hpay, hc], by rwa [hold x hx]⟩
    · obtain rfl := List.mem_singleton.mp hx
      have hbag : groupOf field s k = 0 := Multiset.filter_eq_nil.mpr hempty
      have hnew : ∃ word ls, TupleTrie.Holds types AggConfiguration.new.vals
          (groupOf field s (Function.update key x k x)) word ls := by
        rw [Function.update_self, hbag]
        exact ⟨_, [], TupleTrie.Holds.new types⟩
      exact ⟨.new, by simp [AggTrie.setConf], hnew, fun c hc => by cases hc⟩
  · obtain ⟨x, hx, hkx⟩ := h.covers u hu
    exact ⟨x, by simp [hx], by rw [hold x hx, hkx]⟩
  · change t'.numberOfReferences = _
    rw [href, hrefs]
    simp
  · rw [hrefs] at hgroups
    simp only [List.length_append, List.length_singleton]
    push_cast
    omega

/-- `find_configuration` on the group of a fact, whose configuration is made if there is none. -/
theorem Groups.findConfiguration (h : Groups types typ field t s key word ls)
    (htpl : TupleTrie.Typed types tpl) (hreg : Regular tpl)
    (hgroups : (∀ u ∈ s, u.take field ≠ (canon tpl).take field) → t.numberOfReferences < maxInt) :
    ∃ (t' : AggTrie) (key' : ℕ → List Value) (word' : Words) (ls' : List ℕ) (l : ℕ)
      (conf : AggConfiguration), t.findConfiguration field tpl = .ok (t', l) ∧
      t'.leaves.arena.live l = true ∧ (t'.leaves.payload l).conf.getD .new = conf ∧ l ∈ ls' ∧
      canon (key' l) = (canon tpl).take field ∧
      Keeps types conf (groupOf field s (key' l)) ∧
      Groups types typ field (t'.setConf l conf) s key' word' ls' := by
  have hrefs := h.references
  have hfind : Findable (tpl.take field) :=
    fun v hv => hreg.findable v (List.mem_of_mem_take hv)
  have hne : ls ≠ [] → t.numberOfReferences ≠ 0 := fun hls => by
    have := List.length_pos_iff.mpr hls
    omega
  rcases h.keyed.findConfiguration (typed_take htpl field) hfind hne (by omega) with
    ⟨l, hl, hkey, hok⟩ | ⟨hnone, hnew⟩
  · obtain ⟨conf, hc, hk⟩ := h.conf l hl
    refine ⟨t, key, word, ls, l, conf, hok, (h.keyed.valid.leafList.live l).mpr hl, by rw [hc]; rfl,
      hl, hkey.trans (canon_take field tpl), hk, ?_⟩
    exact h.setConf hl (fun _ _ _ => rfl) hk (fun u hu => .inl hu) h.regular h.lengths
  · have hroom := hgroups fun u hu he => by
      obtain ⟨l, hl, hkl⟩ := h.covers u hu
      exact hnone l hl (hkl.trans (he.trans (canon_take field tpl).symm))
    obtain ⟨t', word', hok, hkeyed, hpay, href⟩ := hnew hroom
    have hfresh : t.leaves.arena.next ∉ ls := fun hm =>
      (Arena.lt_next ((h.keyed.valid.leafList.live _).mpr hm)).ne rfl
    have hmem : t.leaves.arena.next ∈ ls ++ [t.leaves.arena.next] := by simp
    have hgrown := h.grown hkeyed hpay href hroom hfresh hnone
    obtain ⟨conf, hc, hk⟩ := hgrown.conf _ hmem
    have hconf : conf = .new := by
      simpa [AggTrie.setConf] using hc.symm
    refine ⟨t', _, word', _, t.leaves.arena.next, .new, hok,
      (hkeyed.valid.leafList.live _).mpr hmem, by simp [hpay], hmem, ?_, hconf ▸ hk, hgrown⟩
    rw [Function.update_self, canon_take]

theorem setConf_setConf (t : AggTrie) (l : ℕ) (conf conf' : AggConfiguration) :
    (t.setConf l conf).setConf l conf' = t.setConf l conf' := by
  simp [AggTrie.setConf]

/-- `add_to_set` with a positive count. -/
theorem Groups.add (h : Groups types typ field t s key word ls)
    (htpl : TupleTrie.Typed types tpl) (hn : 0 < n) (hrange : InRange typ field t s tpl n) :
    ∃ (t' : AggTrie) (key' : ℕ → List Value) (word' : Words) (ls' : List ℕ),
      t.addToSet field tpl n = .ok t' ∧
      Groups types typ field t' (s + Multiset.replicate n (canon tpl)) key' word' ls' := by
  obtain ⟨t₁, key', word', ls', l, conf, hok, hlive, hget, hl, hkey, hk, hg⟩ :=
    h.findConfiguration htpl hrange.regular fun _ => hrange.groups
  obtain ⟨w, xs, hh⟩ := hk.holds
  have hcard : (groupOf field s (key' l)).card ≤ s.card := card_groupOf_le
  have hint := hrange.int
  obtain ⟨vals, w', xs', hadd, hh', -⟩ := AggConfiguration.addToSet_add hh htpl
    hrange.regular.findable hn (by rw [count_groupOf hkey.symm]; exact hrange.short)
    (by push_cast at hint ⊢; omega)
  refine ⟨t₁.setConf l { conf with changed := true, vals := vals }, key', word', ls', ?_, ?_⟩
  · rw [AggTrie.addToSet, hok]
    simp only [ok_bind, Arena.check_of_live hlive, hget, hadd]
    rfl
  · have hnew : ∀ u ∈ s + Multiset.replicate n (canon tpl), u ∈ s ∨ u = canon tpl :=
      fun u hu => (Multiset.mem_add.mp hu).imp_right Multiset.eq_of_mem_replicate
    rw [← setConf_setConf t₁ l conf]
    refine hg.setConf hl (fun l' _ hne => ?_) ⟨⟨w', xs', ?_⟩, hk.corresponds⟩ (fun u hu => ?_)
      (fun u hu => ?_) fun ht u hu u' hu' he => ?_
    · exact groupOf_add_ne fun he => hne (he.symm.trans hkey.symm)
    · rw [groupOf_add hkey.symm]
      exact hh'
    · rcases hnew u hu with hu | rfl
      · exact .inl hu
      · exact .inr hkey.symm
    · rcases hnew u hu with hu | rfl
      · exact h.regular u hu
      · exact regular_canon.mpr hrange.regular
    · rcases hnew u hu with hu | rfl <;> rcases hnew u' hu' with hu' | rfl
      · exact h.lengths ht u hu u' hu' he
      · rw [listLength_canon, hrange.lengths ht u hu he]
      · rw [listLength_canon, hrange.lengths ht u' hu' he.symm]
      · rfl

/-- `add_to_set` with a negative count. -/
theorem Groups.remove (h : Groups types typ field t s key word ls)
    (htpl : TupleTrie.Typed types tpl) (hn : 0 < n) (hle : n ≤ s.count (canon tpl)) :
    ∃ (t' : AggTrie) (key' : ℕ → List Value) (word' : Words) (ls' : List ℕ),
      t.addToSet field tpl (-n) = .ok t' ∧
      Groups types typ field t' (s - Multiset.replicate n (canon tpl)) key' word' ls' := by
  have hmem : canon tpl ∈ s := Multiset.count_pos.mp (by omega)
  have hreg : Regular tpl := regular_canon.mp (h.regular _ hmem)
  obtain ⟨t₁, key', word', ls', l, conf, hok, hlive, hget, hl, hkey, hk, hg⟩ :=
    h.findConfiguration htpl hreg fun hnone => absurd rfl (hnone _ hmem)
  obtain ⟨w, xs, hh⟩ := hk.holds
  obtain ⟨vals, w', xs', hrem, hh', -⟩ := AggConfiguration.addToSet_remove hh htpl
    hreg.findable hn (by rwa [count_groupOf hkey.symm])
  refine ⟨t₁.setConf l { conf with changed := true, vals := vals }, key', word', ls', ?_, ?_⟩
  · rw [AggTrie.addToSet, hok]
    simp only [ok_bind, Arena.check_of_live hlive, hget, hrem]
    rfl
  · have hold : ∀ u ∈ s - Multiset.replicate n (canon tpl), u ∈ s :=
      fun u hu => Multiset.mem_of_le (Multiset.sub_le_self _ _) hu
    rw [← setConf_setConf t₁ l conf]
    refine hg.setConf hl (fun l' _ hne => ?_) ⟨⟨w', xs', ?_⟩, hk.corresponds⟩
      (fun u hu => .inl (hold u hu)) (fun u hu => h.regular u (hold u hu))
      fun ht u hu u' hu' => h.lengths ht u (hold u hu) u' (hold u' hu')
    · exact groupOf_sub_ne fun he => hne (he.symm.trans hkey.symm)
    · rw [groupOf_sub hkey.symm]
      exact hh'

/-! ### Generating -/

/-- The next leaf, and the rest of the list. -/
theorem Groups.next_eq (h : Groups types typ field t s key word ls) {xs ys : List ℕ}
    (hls : ls = xs ++ l :: ys) : t.leaves.next l = ys.head? :=
  ((hls ▸ h.keyed.valid.leafList.linked).at_split).2

/-- The loop of `generate` when no group is empty. -/
theorem Groups.generateFrom (F : FloatOps) (h : Groups types typ field t s key word ls)
    (hfits : typ.Fits types field) (hne : ∀ l ∈ ls, ∃ u ∈ s, u.take field = canon (key l))
    {xs ys : List ℕ} (hls : ls = xs ++ ys) {fuel : ℕ} (hfuel : ys.length ≤ fuel)
    (cont : List Emission) :
    ∃ t' cont', generateFrom F typ field fuel t ys.head? cont = .ok (t', cont') ∧
      Groups types typ field t' s key word ls := by
  induction ys generalizing t xs fuel cont with
  | nil => exact ⟨t, cont, by cases fuel <;> rfl, h⟩
  | cons l ys ih =>
    obtain ⟨fuel, rfl⟩ : ∃ k, fuel = k + 1 := ⟨fuel - 1, by simp at hfuel; omega⟩
    have hl : l ∈ ls := by simp [hls]
    have hlive := (h.keyed.valid.leafList.live l).mpr hl
    obtain ⟨conf, hc, hk⟩ := h.conf l hl
    obtain ⟨w, vs, hh⟩ := hk.holds
    have hmem : ∀ u ∈ groupOf field s (key l), u ∈ s ∧ u.take field = canon (key l) :=
      fun u hu => Multiset.mem_filter.mp hu
    obtain ⟨u₀, hu₀, hu₀k⟩ := hne l hl
    have hlengths : typ = .sumListFloat →
        ∃ len, ∀ tpl ∈ groupOf field s (key l), listLength field tpl = len := fun ht =>
      ⟨listLength field u₀, fun u hu => h.lengths ht u (hmem u hu).1 u₀ hu₀
        ((hmem u hu).2.trans hu₀k.symm)⟩
    -- the configuration after its own `generate`
    obtain ⟨conf', cont', hgen, hvals, hchanged, hk'⟩ : ∃ conf' cont',
        generateChanged F typ field conf cont = .ok (conf', cont') ∧ conf'.vals = conf.vals ∧
        conf'.changed = false ∧ Keeps types conf' (groupOf field s (key l)) := by
      rw [generateChanged]
      cases hch : conf.changed with
      | true =>
        obtain ⟨r, cont', hok, hcomp⟩ := AggConfiguration.generate_returns F hh
          (fun u hu => h.regular u (hmem u hu).1) hfits hlengths hk.corresponds cont
        exact ⟨_, cont', hok, rfl, rfl, hk.holds, hcomp⟩
      | false => exact ⟨conf, cont, rfl, rfl, hch, hk⟩
    have hempty : conf'.isEmpty = false := by
      have hpos : 0 < (groupOf field s (key l)).card :=
        Multiset.card_pos_iff_exists_mem.mpr ⟨u₀, Multiset.mem_filter.mpr ⟨hu₀, hu₀k⟩⟩
      rw [AggConfiguration.isEmpty, hvals, hh.references, beq_eq_false_iff_ne]
      omega
    have hnext : Groups types typ field (t.setConf l conf') s key word ls :=
      h.setConf hl (fun _ _ _ => rfl) hk' (fun u hu => .inl hu) h.regular h.lengths
    have hls' : ls = (xs ++ [l]) ++ ys := by simp [hls]
    have hfuel' : ys.length ≤ fuel := by simpa using hfuel
    obtain ⟨t', cont'', hok, hg⟩ := ih hnext hls' hfuel' cont'
    refine ⟨t', cont'', ?_, hg⟩
    rw [List.head?_cons, AggTrie.generateFrom, Arena.check_of_live hlive, ok_bind, hc]
    simp only [hgen, ok_bind, assert_pos hchanged, hempty, Bool.false_eq_true, if_false]
    rw [hnext.next_eq hls]
    exact hok

/-- `generate` leaves the tuples of a configuration alone. -/
theorem isEmpty_generateChanged {conf' : AggConfiguration} {cont cont' : List Emission}
    (hrun : generateChanged F typ field conf cont = .ok (conf', cont')) :
    conf'.isEmpty = conf.isEmpty := by
  rw [generateChanged] at hrun
  split_ifs at hrun
  · rw [AggConfiguration.generate, bind_eq_ok] at hrun
    obtain ⟨r, -, hrun⟩ := hrun
    have hpair : ∃ cont₁, (({ conf with changed := false, corresponds := r }, cont₁) :
        AggConfiguration × List Emission) = (conf', cont') := by
      cases hc : conf.corresponds with
      | none => cases r <;> exact ⟨_, Except.ok.inj (hc ▸ hrun)⟩
      | some c =>
        cases r with
        | none => exact ⟨_, Except.ok.inj (hc ▸ hrun)⟩
        | some g =>
          rw [hc] at hrun
          obtain ⟨same, -, hrun⟩ := bind_eq_ok.mp hrun
          cases same <;> exact ⟨_, Except.ok.inj hrun⟩
    obtain ⟨cont₁, heq⟩ := hpair
    obtain ⟨rfl, -⟩ := Prod.mk.inj heq
    rfl
  · obtain ⟨rfl, -⟩ := Prod.mk.inj (Except.ok.inj hrun)
    rfl

/-- Whatever `generate` does, the leaves stay, and the empty configurations stay empty. -/
theorem Keyed.generateFrom {types' : List FieldType} (h : Keyed types' t key word ls)
    (hpos : 0 < t.numberOfReferences) (hmax : t.numberOfReferences ≤ maxInt) {xs ys : List ℕ}
    (hls : ls = xs ++ ys) {fuel : ℕ} {cont cont' : List Emission}
    (hrun : generateFrom F typ field fuel t ys.head? cont = .ok (t', cont')) :
    Keyed types' t' key word ls ∧ ∀ l, (t'.leaves.payload l).conf.map AggConfiguration.isEmpty =
      (t.leaves.payload l).conf.map AggConfiguration.isEmpty := by
  induction ys generalizing t xs fuel cont with
  | nil =>
    have hnil : AggTrie.generateFrom F typ field fuel t none cont = .ok (t, cont) := by
      cases fuel <;> rfl
    rw [List.head?_nil, hnil] at hrun
    obtain ⟨rfl, -⟩ := Prod.mk.inj (Except.ok.inj hrun)
    exact ⟨h, fun _ => rfl⟩
  | cons l ys ih =>
    have hl : l ∈ ls := by simp [hls]
    have hlive := (h.valid.leafList.live l).mpr hl
    have hls' : ls = (xs ++ [l]) ++ ys := by simp [hls]
    cases fuel with
    | zero => cases hrun
    | succ fuel =>
      rw [List.head?_cons, AggTrie.generateFrom, Arena.check_of_live hlive, ok_bind] at hrun
      cases hc : (t.leaves.payload l).conf with
      | none => rw [hc] at hrun; cases hrun
      | some conf =>
        rw [hc] at hrun
        obtain ⟨⟨conf', cont₁⟩, hgen, hrun⟩ := bind_eq_ok.mp hrun
        obtain ⟨-, -, hrun⟩ := bind_eq_ok.mp hrun
        have hempty := isEmpty_generateChanged hgen
        have hset := h.setConf l conf'
        -- emitting a group leaves the leaf behind it as it was
        have hnext : (t.setConf l conf').leaves.next l = ys.head? :=
          ((hls ▸ hset.valid.leafList.linked).at_split).2
        -- and no group becomes empty by it
        have hsame : ∀ x, ((t.setConf l conf').leaves.payload x).conf.map
            AggConfiguration.isEmpty = (t.leaves.payload x).conf.map AggConfiguration.isEmpty := by
          intro x
          by_cases hx : x = l
          · simp [AggTrie.setConf, hx, hc, hempty]
          · simp [AggTrie.setConf, hx]
        simp only at hrun
        split_ifs at hrun
        · rw [hset.erase hl hpos hmax, bind_assoc] at hrun
          obtain ⟨_, hne, hrun⟩ := bind_eq_ok.mp hrun
          rw [pure_eq_ok, ok_bind] at hrun
          have hne := assert_eq_ok.mp hne
          have hrefs : (t.setConf l conf').numberOfReferences = t.numberOfReferences := rfl
          simp only [hnext, hrefs] at hrun hne
          obtain ⟨hk, hs⟩ := ih (hset.withRefs _) (by rw [Trie.withRefs_references]; omega)
            (by rw [Trie.withRefs_references]; omega) hls' hrun
          exact ⟨hk, fun x => (hs x).trans (hsame x)⟩
        · rw [hnext] at hrun
          obtain ⟨hk, hs⟩ := ih hset hpos hmax hls' hrun
          exact ⟨hk, fun x => (hs x).trans (hsame x)⟩

/-- A group with facts has a configuration that is not empty. -/
theorem Groups.isEmpty_iff (h : Groups types typ field t s key word ls) (hl : l ∈ ls)
    (hc : (t.leaves.payload l).conf = some conf) :
    conf.isEmpty = false ↔ ∃ u ∈ s, u.take field = canon (key l) := by
  obtain ⟨conf', hc', ⟨w, vs, hh⟩, -⟩ := h.conf l hl
  obtain rfl : conf' = conf := Option.some.inj (hc'.symm.trans hc)
  rw [AggConfiguration.isEmpty, hh.references, beq_eq_false_iff_ne, Ne, Nat.cast_eq_zero,
    ← Ne, ← Nat.pos_iff_ne_zero, Multiset.card_pos_iff_exists_mem]
  exact exists_congr fun u => Multiset.mem_filter

/-- When every group has facts, the trie mirrors them. -/
theorem Groups.mirrors (h : Groups types typ field t s key word ls)
    (hne : ∀ l ∈ ls, ∃ u ∈ s, u.take field = canon (key l)) :
    Mirrors types field t s key word ls where
  valid := h.keyed.valid
  leads _ hl := h.keyed.leads hl
  distinct _ hl _ hl' he := h.keyed.unique hl hl' he
  mem k := by
    constructor
    · rintro ⟨l, hl, rfl⟩
      exact hne l hl
    · rintro ⟨u, hu, rfl⟩
      exact h.covers u hu
  holds l hl := by
    obtain ⟨conf, hc, hk⟩ := h.conf l hl
    exact ⟨conf, hc, hk.holds⟩
  references := h.references

/-- Without empty groups `generate` returns, and the trie then mirrors the facts. -/
theorem Groups.generate (F : FloatOps) (h : Groups types typ field t s key word ls)
    (hfits : typ.Fits types field) (hne : NoEmptyGroup t) :
    ∃ t' cont, AggTrie.generate F typ field t = .ok (t', cont) ∧
      Groups types typ field t' s key word ls ∧ Mirrors types field t' s key word ls := by
  have hlist := h.keyed.valid.leafList
  have hfacts : ∀ l ∈ ls, ∃ u ∈ s, u.take field = canon (key l) := fun l hl => by
    obtain ⟨conf, hc, -⟩ := h.conf l hl
    exact (h.isEmpty_iff hl hc).mp (hne l conf ((hlist.live l).mpr hl) hc)
  have hlength : ls.length ≤ t.leaves.arena.next := length_le_of_nodup_of_lt hlist.nodup
    fun l hl => Arena.lt_next ((hlist.live l).mpr hl)
  obtain ⟨t', cont, hok, hg⟩ := h.generateFrom F hfits hfacts (List.nil_append ls).symm hlength []
  rw [← hlist.first_eq] at hok
  exact ⟨t', cont, hok, hg, hg.mirrors hfacts⟩

/-- If the trie mirrors the facts after `generate`, no group was empty before. -/
theorem Groups.noEmptyGroup (h : Groups types typ field t s key word ls) {cont : List Emission}
    (hrun : AggTrie.generate F typ field t = .ok (t', cont)) {key' : ℕ → List Value}
    {word' : Words} {ls' : List ℕ} (hm : Mirrors types field t' s key' word' ls') :
    NoEmptyGroup t := by
  intro l conf hlive hc
  have hlist := h.keyed.valid.leafList
  have hl : l ∈ ls := (hlist.live l).mp hlive
  have hpos : 0 < ls.length := List.length_pos_of_mem hl
  have hrefs := h.references
  have hgroups := h.groups
  rw [AggTrie.generate, hlist.first_eq] at hrun
  obtain ⟨hk, hsame⟩ := h.keyed.generateFrom (by omega) (by omega) (List.nil_append ls).symm hrun
  -- the leaves are still there
  have hlist' := hk.valid.leafList
  obtain rfl : ls' = ls := hm.valid.leafList.linked.unique hlist'.linked
    (hm.valid.leafList.first_eq.symm.trans hlist'.first_eq)
  obtain ⟨conf', hc', w, vs, hh⟩ := hm.holds l hl
  obtain ⟨u, hu, huk⟩ := (hm.mem (canon (key' l))).mp ⟨l, hl, rfl⟩
  have hcard : 0 < (groupOf field s (key' l)).card :=
    Multiset.card_pos_iff_exists_mem.mpr ⟨u, Multiset.mem_filter.mpr ⟨hu, huk⟩⟩
  have hempty := hsame l
  rw [hc, hc', Option.map_some, Option.map_some, Option.some.injEq] at hempty
  rw [← hempty, AggConfiguration.isEmpty, hh.references, beq_eq_false_iff_ne]
  omega

/-- Every run keeps the groups. -/
theorem Run.groups (hfits : typ.Fits types field) (h : Run F types typ field t s) :
    ∃ (key : ℕ → List Value) (word : Words) (ls : List ℕ),
      Groups types typ field t s key word ls := by
  induction h with
  | new => exact ⟨_, _, [], Groups.new types typ field⟩
  | add _ htpl hn hrange hrun ih =>
    obtain ⟨key, word, ls, hg⟩ := ih
    obtain ⟨t', key', word', ls', hok, hg'⟩ := hg.add htpl hn hrange
    rw [hrun, Except.ok.injEq] at hok
    exact ⟨key', word', ls', hok ▸ hg'⟩
  | remove _ htpl hn hle hrun ih =>
    obtain ⟨key, word, ls, hg⟩ := ih
    obtain ⟨t', key', word', ls', hok, hg'⟩ := hg.remove htpl hn hle
    rw [hrun, Except.ok.injEq] at hok
    exact ⟨key', word', ls', hok ▸ hg'⟩
  | generate _ hne hrun ih =>
    obtain ⟨key, word, ls, hg⟩ := ih
    obtain ⟨t', cont, hok, hg', -⟩ := hg.generate F hfits hne
    rw [hrun, Except.ok.injEq, Prod.mk.injEq] at hok
    exact ⟨key, word, ls, hok.1 ▸ hg'⟩

/-- After `generate` the trie of an aggregate predicate mirrors the facts exactly when no group was
empty before. -/
theorem generate_iff (hfits : typ.Fits types field) (h : Run F types typ field t s) :
    (∃ t' cont, AggTrie.generate F typ field t = .ok (t', cont) ∧
      ∃ key word ls, Mirrors types field t' s key word ls) ↔ NoEmptyGroup t := by
  obtain ⟨key, word, ls, hg⟩ := h.groups hfits
  constructor
  · rintro ⟨t', cont, hrun, key', word', ls', hm⟩
    exact hg.noEmptyGroup hrun hm
  · intro hne
    obtain ⟨t', cont, hok, -, hm⟩ := hg.generate F hfits hne
    exact ⟨t', cont, hok, key, word, ls, hm⟩

end

/-! ### Two groups -/

/-- A fact of a predicate with a key and a number. -/
private def fact (k v : Int32) : List Value := [.item (.int k), .item (.int v)]

private theorem typed_fact (k v : Int32) :
    TupleTrie.Typed [.item .int, .item .int] (fact k v) :=
  ⟨rfl, by simp [fact, Value.Ok]⟩

private theorem regular_fact (k v : Int32) : Regular (fact k v) := by
  simp [fact, Regular, Value.Regular, Item.Regular, Item.eq]

/-- The facts `[1, 5]` and `[2, 7]`, in two groups. -/
private theorem run_twoFacts (F : FloatOps) : ∃ t, Run F [.item .int, .item .int] .maxInt 1 t
      (0 + Multiset.replicate 1 (canon (fact 1 5)) + Multiset.replicate 1 (canon (fact 2 7))) ∧
    (∀ l, t.leaves.arena.live l = true → l < 2) ∧
    ((t.leaves.payload 0).conf.map AggConfiguration.isEmpty = some false ∧
      (t.leaves.payload 1).conf.map AggConfiguration.isEmpty = some false) ∧
    ∃ t', t.addToSet 1 (fact 1 5) (-(1 : ℕ)) = .ok t' ∧ t'.leaves.arena.live 0 = true ∧
      (t'.leaves.payload 0).conf.map AggConfiguration.isEmpty = some true := by
  obtain ⟨⟨t₁, t, t'⟩, hrun, hvals⟩ := exists_ok_of_map (x := (do
      let t₁ ← AggTrie.addToSet Trie.new 1 (fact 1 5) (1 : ℕ)
      let t ← t₁.addToSet 1 (fact 2 7) (1 : ℕ)
      let t' ← t.addToSet 1 (fact 1 5) (-(1 : ℕ))
      pure (t₁, t, t')))
    (f := fun (t₁, t, t') => decide (t₁.numberOfReferences = 1 ∧ t.leaves.arena.next = 2 ∧
      (t.leaves.payload 0).conf.map AggConfiguration.isEmpty = some false ∧
      (t.leaves.payload 1).conf.map AggConfiguration.isEmpty = some false ∧
      t'.leaves.arena.live 0 = true ∧
      (t'.leaves.payload 0).conf.map AggConfiguration.isEmpty = some true))
    (b := true) (by decide +kernel)
  obtain ⟨t₁, h₁, hrun⟩ := bind_eq_ok.mp hrun
  obtain ⟨t₂, h₂, hrun⟩ := bind_eq_ok.mp hrun
  obtain ⟨t₃, h₃, hrun⟩ := bind_eq_ok.mp hrun
  obtain ⟨rfl, rfl, rfl⟩ : t₁ = _ ∧ t₂ = _ ∧ t₃ = _ := by
    simpa only [pure_eq_ok, Except.ok.injEq, Prod.mk.injEq] using hrun
  obtain ⟨hrefs, hnext, he₀, he₁, hlive, he⟩ := of_decide_eq_true hvals
  have hrange : ∀ (t : AggTrie) (s : Multiset (List Value)) (k v : Int32),
      s.card ≤ 1 → t.numberOfReferences ≤ 1 → InRange .maxInt 1 t s (fact k v) 1 := by
    intro t s k v hs ht
    have hcount := Multiset.count_le_card (canon (fact k v)) s
    refine ⟨regular_fact k v, ?_, ?_, ?_, nofun⟩
    · simp only [maxShort]
      omega
    · simp only [maxInt]
      omega
    · simp only [maxInt]
      omega
  have hrun₁ := (Run.new (F := F)).add (typed_fact 1 5) one_pos
    (hrange Trie.new 0 1 5 (by simp) (by decide)) h₁
  exact ⟨t₂, hrun₁.add (typed_fact 2 7) one_pos (hrange t₁ _ 2 7 (by simp) hrefs.le) h₂,
    fun l hl => hnext ▸ Arena.lt_next hl, ⟨he₀, he₁⟩, t₃, h₃, hlive, he⟩

/-- After two facts came `generate` returns, and the trie has the configurations of two groups. -/
theorem generate_iff_twoFacts : ∃ (F : FloatOps) (t t' : AggTrie) (s : Multiset (List Value))
    (cont : List Emission), Run F [.item .int, .item .int] .maxInt 1 t s ∧ s.card = 2 ∧
      AggTrie.generate F .maxInt 1 t = .ok (t', cont) ∧
      ∃ key word ls, Mirrors [.item .int, .item .int] 1 t' s key word ls := by
  let F : FloatOps := ⟨fun _ _ => false, fun a _ => a⟩
  obtain ⟨t, hrun, hlt, ⟨he₀, he₁⟩, -⟩ := run_twoFacts F
  have hne : NoEmptyGroup t := fun l conf hlive hc => by
    have hl := hlt l hlive
    obtain rfl | rfl : l = 0 ∨ l = 1 := by omega
    · simpa [hc] using he₀
    · simpa [hc] using he₁
  obtain ⟨t', cont, hok, hm⟩ := (generate_iff (by rfl) hrun).mpr hne
  exact ⟨F, t, t', _, cont, hrun, by simp, hok, hm⟩

/-- When the only fact of one of two groups goes, `generate` does not remove the configuration of
the group. -/
theorem not_mirrors_emptied : ∃ (F : FloatOps) (t : AggTrie) (s : Multiset (List Value)),
    Run F [.item .int, .item .int] .maxInt 1 t s ∧
    ¬∃ t' cont, AggTrie.generate F .maxInt 1 t = .ok (t', cont) ∧
      ∃ key word ls, Mirrors [.item .int, .item .int] 1 t' s key word ls := by
  let F : FloatOps := ⟨fun _ _ => false, fun a _ => a⟩
  obtain ⟨t, hrun, -, -, t', hok, hlive, he⟩ := run_twoFacts F
  have hrun' := hrun.remove (typed_fact 1 5) one_pos (by decide) hok
  refine ⟨F, t', _, hrun', ?_⟩
  rintro ⟨t'', cont, hgen, key', word', ls', hm⟩
  obtain ⟨key, word, ls, hg⟩ := hrun'.groups (by rfl)
  have hne := hg.noEmptyGroup hgen hm
  cases hc : (t'.leaves.payload 0).conf with
  | none => simp [hc] at he
  | some conf =>
    have := hne 0 conf hlive hc
    simp [hc, this] at he

end AggTrie

end Meld.Db
