import Meld.Db.AggConfiguration
import Meld.Db.TupleSearch

/-!
# What an aggregate configuration has emitted

A `Group` is the bag of the tuples that `add_to_set` was given and that were not taken back, with
the distinct ones in the order in which they came; its aggregate is computed by recomputation.
`AggRun` is any interleaving of `add_to_set` and `generate`. The retractions and insertions emitted
so far add up, after every `generate`, to one copy of the aggregate of the group, or to nothing when
the group is empty: each `generate` retracts what the one before left standing.

The sixteen bits of a count have to hold the copies of a tuple, and the trie has to find the tuple
again. Where a count wraps around, a sum misses all copies of the tuple.
-/

namespace Meld.Vm

/-- The aggregates `first`, and the maxima, minima and sums of a field of integers. -/
def AggregateType.OverInts (types : List FieldType) (field : ℕ) : AggregateType → Prop
  | first => True
  | maxInt | minInt | sumInt => types[field]? = some (.item .int)
  | _ => False

end Meld.Vm

namespace Meld.Db

open Meld.Lib Meld.Vm

/-! ### Groups and their aggregates -/

/-- The integer in a field of a tuple. -/
def intAt (field : ℕ) (tpl : List Value) : ℤ :=
  match tpl[field]? with
  | some (.item (.int v)) => v.toInt
  | _ => 0

/-- The tuples of a group, with the distinct ones in the order in which they came. -/
structure Group where
  bag : Multiset (List Value)
  order : List (List Value)

namespace Group

/-- The group without tuples. -/
def empty : Group := ⟨0, []⟩

/-- `n` copies of a tuple come. -/
def add (g : Group) (tpl : List Value) (n : ℕ) : Group where
  bag := g.bag + Multiset.replicate n tpl
  order := if tpl ∈ g.bag then g.order else g.order ++ [tpl]

/-- `n` copies of a tuple go. -/
def remove (g : Group) (tpl : List Value) (n : ℕ) : Group where
  bag := g.bag - Multiset.replicate n tpl
  order := if g.bag.count tpl = n then g.order.erase tpl else g.order

/-- The aggregate of a group: its oldest tuple, the oldest of those with the largest or the
smallest integer, or the oldest with the sum of all integers, each counted as often as its tuple is
there, modulo `2 ^ 32`. -/
noncomputable def aggregate (typ : AggregateType) (field : ℕ) (g : Group) : Option (List Value) :=
  match typ with
  | .first => g.order.head?
  | .maxInt => g.order.argmax (intAt field)
  | .minInt => g.order.argmin (intAt field)
  | .sumInt => g.order.head?.map fun tpl =>
      tpl.set field (.item (.int (.ofInt (g.bag.map (intAt field)).sum)))
  | _ => none

theorem aggregate_of_empty (g : Group) (typ : AggregateType) (field : ℕ) (h : g.order = []) :
    g.aggregate typ field = none := by
  cases typ <;> simp [aggregate, h]

end Group

/-- What the emissions add up to, for each tuple. -/
def net (cont : List Emission) (tpl : List Value) : ℤ :=
  ((cont.filter fun e => canon e.tpl = tpl).map Emission.count).sum

/-- One copy of a tuple, or nothing. -/
def copies : Option (List Value) → List Value → ℤ
  | none, _ => 0
  | some g, tpl => if tpl = g then 1 else 0

namespace AggConfiguration

/-- The configurations after any interleaving of `add_to_set` and `generate`, with the group of the
tuples and all that was emitted. A count is never taken below zero, and `Allowed` says what may be
added. -/
inductive Run (Allowed : Group → List Value → ℕ → Prop) (F : FloatOps) (types : List FieldType)
    (typ : AggregateType) (field : ℕ) : AggConfiguration → Group → List Emission → Prop
  | new : Run Allowed F types typ field new .empty []
  | add {conf conf' : AggConfiguration} {g : Group} {cont : List Emission} {tpl : List Value}
      {n : ℕ} (h : Run Allowed F types typ field conf g cont) (htpl : TupleTrie.Typed types tpl)
      (hn : 0 < n) (hallowed : Allowed g tpl n) (hrun : conf.addToSet tpl n = .ok conf') :
      Run Allowed F types typ field conf' (g.add (canon tpl) n) cont
  | remove {conf conf' : AggConfiguration} {g : Group} {cont : List Emission} {tpl : List Value}
      {n : ℕ} (h : Run Allowed F types typ field conf g cont) (htpl : TupleTrie.Typed types tpl)
      (hn : 0 < n) (hle : n ≤ g.bag.count (canon tpl)) (hrun : conf.addToSet tpl (-n) = .ok conf') :
      Run Allowed F types typ field conf' (g.remove (canon tpl) n) cont
  | generate {conf conf' : AggConfiguration} {g : Group} {cont cont' : List Emission}
      (h : Run Allowed F types typ field conf g cont)
      (hrun : conf.generate F typ field cont = .ok (conf', cont')) :
      Run Allowed F types typ field conf' g cont'

/-- Any count of sixteen bits may be added. -/
def AnyCount (_ : Group) (_ : List Value) (n : ℕ) : Prop := (n : ℤ) ≤ maxShort

/-- A tuple without strings and NaNs may be added as long as its count and the number of all tuples
stay in range. -/
def InRange (g : Group) (tpl : List Value) (n : ℕ) : Prop :=
  Regular tpl ∧ ((g.bag.count (canon tpl) + n : ℕ) : ℤ) ≤ maxShort ∧
    ((g.bag.card + n : ℕ) : ℤ) ≤ maxInt

/-- `generate` succeeds, and what was emitted then adds up to the aggregate of the group. -/
def Telescopes (F : FloatOps) (typ : AggregateType) (field : ℕ) (conf : AggConfiguration)
    (g : Group) (cont : List Emission) : Prop :=
  ∃ conf' cont', conf.generate F typ field cont = .ok (conf', cont') ∧
    ∀ tpl, net cont' tpl = copies (g.aggregate typ field) tpl

section

variable {F : FloatOps} {types : List FieldType} {typ : AggregateType} {field : ℕ}
  {conf conf' : AggConfiguration} {g : Group} {cont cont' : List Emission} {tpl u : List Value}
  {n : ℕ}

/-! ### What emissions add up to -/

theorem net_append (cont cont' : List Emission) (tpl : List Value) :
    net (cont ++ cont') tpl = net cont tpl + net cont' tpl := by
  simp [net]

theorem net_createNew (c tpl : List Value) :
    net [createNew c] tpl = copies (some (canon c)) tpl := by
  by_cases h : canon c = tpl
  · simp [net, createNew, copies, h]
  · simp [net, createNew, copies, h, Ne.symm h]

theorem net_removeNew (c tpl : List Value) :
    net [removeNew c] tpl = -copies (some (canon c)) tpl := by
  by_cases h : canon c = tpl
  · simp [net, removeNew, copies, h]
  · simp [net, removeNew, copies, h, Ne.symm h]

/-! ### The aggregates of a list of leaves -/

theorem intAt_canon (field : ℕ) (tpl : List Value) : intAt field (canon tpl) = intAt field tpl := by
  rw [intAt, intAt, canon, List.getElem?_map]
  rcases tpl[field]? with _ | (x | _ | _)
  · rfl
  · rcases x with v | v | v <;> rfl
  · rfl
  · rfl

theorem toInt_ofInt_intAt (field : ℕ) (tpl : List Value) :
    (Int32.ofInt (intAt field tpl)).toInt = intAt field tpl := by
  rw [intAt]
  split
  · rw [Int32.ofInt_toInt]
  · rfl

/-- The integer of a typed tuple is read. -/
theorem getInt_eq (hty : tpl.map Value.type = types) (hfield : types[field]? = some (.item .int)) :
    getInt tpl field = .ok (.ofInt (intAt field tpl)) := by
  subst hty
  rw [List.getElem?_map, Option.map_eq_some_iff] at hfield
  obtain ⟨v, hv, hvt⟩ := hfield
  rcases v with x | _ | _
  · rcases x with v | v | v
    · simp [getInt, intAt, hv]
    · simp [Value.type, Item.type] at hvt
    · simp [Value.type, Item.type] at hvt
  · simp [Value.type] at hvt
  · simp [Value.type] at hvt

/-- What a list of leaves is to the aggregates: its tuples are typed and regular. -/
def Plain (types : List FieldType) (ts : List TupleTrieLeaf) : Prop :=
  ∀ s ∈ ts, s.tpl.map Value.type = types ∧ Regular s.tpl

/-- The loop for the best tuple is a fold over the canonical tuples. -/
theorem bestFrom_spec {beats : Int32 → Int32 → Bool} {r : ℤ → ℤ → Prop} [DecidableRel r]
    (hbeats : ∀ a b, beats a b = decide (r a.toInt b.toInt))
    (hfield : types[field]? = some (.item .int)) {rest : List TupleTrieLeaf}
    (hrest : Plain types rest) {best : List Value} (hty : best.map Value.type = types)
    (hbest : Regular best) :
    ∃ tpl, bestFrom (getInt · field) beats (.ofInt (intAt field best)) best rest = .ok tpl ∧
      (rest.map fun s => canon s.tpl).foldl
        (List.argAux fun b c => r (intAt field b) (intAt field c)) (some (canon best)) =
          some (canon tpl) ∧ Regular tpl ∧ tpl.map Value.type = types := by
  induction rest generalizing best with
  | nil => exact ⟨best, copyTuple_eq hbest, rfl, hbest, hty⟩
  | cons s rest ih =>
    obtain ⟨hs, hreg⟩ := hrest s (by simp)
    have hrest' : Plain types rest := fun x hx => hrest x (by simp [hx])
    rw [bestFrom, getInt_eq hs hfield, ok_bind, hbeats, toInt_ofInt_intAt, toInt_ofInt_intAt,
      List.map_cons, List.foldl_cons]
    simp only [List.argAux, intAt_canon]
    by_cases hr : r (intAt field s.tpl) (intAt field best)
    · simp only [hr, decide_true, if_true]
      exact ih hrest' hs hreg
    · simp only [hr, decide_false, if_false, Bool.false_eq_true]
      exact ih hrest' hty hbest

/-- The maxima and minima are folds over the canonical tuples. -/
theorem generateBest_spec {beats : Int32 → Int32 → Bool} {r : ℤ → ℤ → Prop} [DecidableRel r]
    (hbeats : ∀ a b, beats a b = decide (r a.toInt b.toInt))
    (hfield : types[field]? = some (.item .int)) {ts : List TupleTrieLeaf}
    (hts : Plain types ts) (hne : ts ≠ []) :
    ∃ tpl, generateBest (getInt · field) beats ts = .ok tpl ∧
      (ts.map fun s => canon s.tpl).foldl
        (List.argAux fun b c => r (intAt field b) (intAt field c)) none = some (canon tpl) ∧
      Regular tpl ∧ tpl.map Value.type = types := by
  obtain ⟨s, rest, rfl⟩ := List.exists_cons_of_ne_nil hne
  obtain ⟨hs, hreg⟩ := hts s (by simp)
  rw [generateBest, getInt_eq hs hfield, ok_bind]
  exact bestFrom_spec hbeats hfield (fun x hx => hts x (by simp [hx])) hs hreg

/-- The loop over the copies of a tuple adds its integer as often. -/
theorem addCopies_spec (hty : tpl.map Value.type = types)
    (hfield : types[field]? = some (.item .int)) (n : ℕ) (sum : ℤ) :
    addCopies (getInt · field) (· + ·) tpl n (.ofInt sum) =
      .ok (.ofInt (sum + n * intAt field tpl)) := by
  induction n generalizing sum with
  | zero => simp [addCopies]
  | succ n ih =>
    rw [addCopies, getInt_eq hty hfield, ok_bind, ← Int32.ofInt_add, ih]
    congr 2
    push_cast
    ring

/-- The loop over the tuples adds the integers, each as often as its tuple is there. -/
theorem sumFrom_spec (hfield : types[field]? = some (.item .int)) {ts : List TupleTrieLeaf}
    (hts : Plain types ts) (sum : ℤ) :
    sumFrom (getInt · field) (· + ·) (.ofInt sum) ts =
      .ok (.ofInt (sum + (ts.map fun s => (s.count.toNat : ℤ) * intAt field s.tpl).sum)) := by
  induction ts generalizing sum with
  | nil => simp [sumFrom]
  | cons s rest ih =>
    obtain ⟨hs, -⟩ := hts s (by simp)
    rw [sumFrom, addCopies_spec hs hfield, ok_bind, ih fun x hx => hts x (by simp [hx])]
    simp [Int.add_assoc]

/-! ### The trie of a configuration -/

section

variable {s : Multiset (List Value)} {word : Words} {ls : List ℕ}

/-- The leaves that the iterator goes through. -/
theorem tuples_eq {t : TupleTrie} (h : TupleTrie.Holds types t s word ls) :
    tuples t = .ok (ls.map t.leaves.payload) := by
  have hlive := h.inv.valid.leafList.live
  rw [tuples, h.inv.valid.leafList.first_eq, TupleTrie.allLeaves_spec
    (fun l hl => (hlive l).mpr hl)
    (fun xs l ys he => ((he ▸ h.inv.valid.leafList.linked).at_split).2) _
    (length_le_of_nodup_of_lt h.inv.valid.leafList.nodup fun l hl =>
      Arena.lt_next ((hlive l).mpr hl))]
  rfl

/-- `add_to_set` with a positive count. -/
theorem addToSet_add (h : TupleTrie.Holds types conf.vals s word ls)
    (htpl : TupleTrie.Typed types tpl) (hfind : Findable tpl) (hn : 0 < n)
    (hshort : ((s.count (canon tpl) + n : ℕ) : ℤ) ≤ maxShort)
    (hint : ((s.card + n : ℕ) : ℤ) ≤ maxInt) :
    ∃ (t' : TupleTrie) (word' : Words) (ls' : List ℕ),
      conf.addToSet tpl n = .ok { conf with changed := true, vals := t' } ∧
      TupleTrie.Holds types t' (s + Multiset.replicate n (canon tpl)) word' ls' ∧
      ls'.map t'.leafTuple = if canon tpl ∈ s then ls.map conf.vals.leafTuple
        else ls.map conf.vals.leafTuple ++ [canon tpl] := by
  obtain ⟨t', word', ls', hok, h', hls'⟩ := h.insertTuple htpl hfind hn hshort hint
  have hrefs : t'.numberOfReferences = conf.vals.numberOfReferences + n := by
    rw [h'.references, h.references]
    simp
  refine ⟨t', word', ls', ?_, h', hls'⟩
  rw [addToSet, assert_pos (by omega), ok_bind, if_pos (by omega), hok]
  simp only [ok_bind]
  rw [assert_pos hrefs]
  rfl

/-- `add_to_set` with a negative count. -/
theorem addToSet_remove (h : TupleTrie.Holds types conf.vals s word ls)
    (htpl : TupleTrie.Typed types tpl) (hfind : Findable tpl) (hn : 0 < n)
    (hle : n ≤ s.count (canon tpl)) :
    ∃ (t' : TupleTrie) (word' : Words) (ls' : List ℕ),
      conf.addToSet tpl (-n) = .ok { conf with changed := true, vals := t' } ∧
      TupleTrie.Holds types t' (s - Multiset.replicate n (canon tpl)) word' ls' ∧
      ls'.map t'.leafTuple = if s.count (canon tpl) = n
        then (ls.map conf.vals.leafTuple).erase (canon tpl) else ls.map conf.vals.leafTuple := by
  obtain ⟨t₁, t', info, word', ls', hok, hcommit, -, h', hls'⟩ := h.deleteTuple htpl hfind hn hle
  have hshort := h.short (canon tpl)
  have hwrap : wrap16 (-(-(n : ℤ))) = n := by
    rw [Int.neg_neg, wrap16_of_mem (by simp only [maxShort] at hshort ⊢; omega) (by omega)]
  refine ⟨t', word', ls', ?_, h', hls'⟩
  rw [addToSet, assert_pos (by omega), ok_bind, if_neg (by omega), hwrap, hok]
  simp only [ok_bind, hcommit]
  rfl

end

/-! ### The configuration of a group -/

/-- The configuration holds the tuples of the group, in their order, and the emissions add up to
the tuple it remembers. -/
structure Mirrors (types : List FieldType) (conf : AggConfiguration) (g : Group)
    (cont : List Emission) : Prop where
  holds : ∃ word ls, TupleTrie.Holds types conf.vals g.bag word ls ∧
    ls.map conf.vals.leafTuple = g.order
  regular : ∀ tpl ∈ g.bag, Regular tpl
  corresponds : ∀ c, conf.corresponds = some c → Regular c ∧ c.map Value.type = types
  stands : ∀ tpl, net cont tpl = copies (conf.corresponds.map canon) tpl

/-- The order lists every tuple of the group once. -/
theorem Mirrors.order (h : Mirrors types conf g cont) :
    g.order.Nodup ∧ ∀ tpl, tpl ∈ g.order ↔ tpl ∈ g.bag := by
  obtain ⟨word, ls, hh, horder⟩ := h.holds
  rw [← horder]
  refine ⟨hh.inv.valid.leafList.nodup.map_on fun _ hl _ hl' heq => hh.leaf_unique hl hl' heq,
    fun tpl => ⟨fun ht => ?_, fun ht => ?_⟩⟩
  · obtain ⟨l, hl, rfl⟩ := List.mem_map.mp ht
    exact hh.mem l hl
  · obtain ⟨l, hl, hlt⟩ := hh.leaf tpl ht
    exact List.mem_map.mpr ⟨l, hl, hlt⟩

/-- The integers of the group, summed over its distinct tuples. -/
theorem Mirrors.sum (h : Mirrors types conf g cont) :
    (g.bag.map (intAt field)).sum =
      (g.order.map fun tpl => (g.bag.count tpl : ℤ) * intAt field tpl).sum := by
  obtain ⟨hnodup, hmem⟩ := h.order
  have hset : g.bag.toFinset = g.order.toFinset := by
    ext tpl
    simp [hmem]
  rw [Finset.sum_multiset_map_count, hset, List.sum_toFinset _ hnodup]
  simp

/-- The tuples that the iterator goes through. -/
theorem Mirrors.tuples (h : Mirrors types conf g cont) :
    ∃ ts, tuples conf.vals = .ok ts ∧ Plain types ts ∧ (ts.map fun s => canon s.tpl) = g.order ∧
      ∀ s ∈ ts, s.count = g.bag.count (canon s.tpl) := by
  obtain ⟨word, ls, hh, horder⟩ := h.holds
  refine ⟨_, tuples_eq hh, fun s hs => ?_, ?_, fun s hs => ?_⟩
  · obtain ⟨l, hl, rfl⟩ := List.mem_map.mp hs
    exact ⟨(hh.inv.typed l hl).types, regular_canon.mp (h.regular _ (hh.mem l hl))⟩
  · rw [List.map_map]
    exact horder
  · obtain ⟨l, hl, rfl⟩ := List.mem_map.mp hs
    exact hh.count l hl

/-- A sum is that of the group, in a copy of its oldest tuple. -/
theorem Mirrors.generateSum (h : Mirrors types conf g cont)
    (hfield : types[field]? = some (.item .int)) {ts : List TupleTrieLeaf} (hts : Plain types ts)
    (horder : (ts.map fun s => canon s.tpl) = g.order)
    (hcount : ∀ s ∈ ts, s.count = g.bag.count (canon s.tpl)) (hne : ts ≠ []) :
    ∃ tpl, generateSumInt field ts = .ok tpl ∧
      g.aggregate .sumInt field = some (canon tpl) ∧ Regular tpl ∧ tpl.map Value.type = types := by
  have hsum : (ts.map fun s => (s.count.toNat : ℤ) * intAt field s.tpl).sum =
      (g.bag.map (intAt field)).sum := by
    rw [h.sum, ← horder, List.map_map]
    congr 1
    refine List.map_congr_left fun s hs => ?_
    simp [hcount s hs, intAt_canon]
  obtain ⟨s, rest, rfl⟩ := List.exists_cons_of_ne_nil hne
  obtain ⟨hs, hreg⟩ := hts s (by simp)
  refine ⟨s.tpl.set field (.item (.int (.ofInt (g.bag.map (intAt field)).sum))), ?_, ?_, ?_, ?_⟩
  · have hfrom := sumFrom_spec hfield hts 0
    rw [hsum, Int.zero_add] at hfrom
    rw [generateSumInt, AggConfiguration.generateSum, copyTuple_eq hreg, ok_bind]
    change (sumFrom _ _ (Int32.ofInt 0) _ >>= _) = _
    rw [hfrom]
    rfl
  · rw [Group.aggregate, ← horder]
    simp [canon, List.map_set, Value.canon, Item.canon]
  · intro v hv
    rcases List.mem_or_eq_of_mem_set hv with hv | rfl
    · exact hreg v hv
    · simp [Value.Regular, Item.Regular, Item.eq]
  · rw [List.map_set, hs]
    obtain ⟨hlt, hget⟩ := List.getElem?_eq_some_iff.mp hfield
    rw [Value.type, Item.type, ← hget, List.set_getElem_self]

/-- What `do_generate` returns is the aggregate of the group. -/
theorem Mirrors.doGenerate (h : Mirrors types conf g cont) (htyp : typ.OverInts types field) :
    ∃ r, doGenerate F typ field conf = .ok r ∧ r.map canon = g.aggregate typ field ∧
      ∀ c, r = some c → Regular c ∧ c.map Value.type = types := by
  obtain ⟨word, ls, hh, hls⟩ := h.holds
  obtain ⟨hnodup, hmem⟩ := h.order
  have hempty : conf.isEmpty = decide (g.order = []) := by
    have hzero : g.order = [] ↔ g.bag = 0 := by
      rw [← hls, List.map_eq_nil_iff, hh.eq_nil_iff]
    rw [AggConfiguration.isEmpty, hh.references, beq_eq_decide]
    exact decide_eq_decide.mpr (by rw [hzero, ← Multiset.card_eq_zero]; omega)
  by_cases hnil : g.order = []
  · refine ⟨none, ?_, ?_, by simp⟩
    · rw [AggConfiguration.doGenerate, hempty, decide_eq_true hnil, if_pos rfl]
      rfl
    · rw [g.aggregate_of_empty typ field hnil, Option.map_none]
  · obtain ⟨ts, hts, hplain, horder, hcount⟩ := h.tuples
    have hne : ts ≠ [] := by
      rintro rfl
      exact hnil (horder ▸ rfl)
    suffices hgen : ∃ tpl, generateOf F typ field conf.vals.numberOfReferences ts = .ok tpl ∧
        g.aggregate typ field = some (canon tpl) ∧ Regular tpl ∧ tpl.map Value.type = types by
      obtain ⟨tpl, hok, hagg, hreg⟩ := hgen
      refine ⟨some tpl, ?_, hagg.symm, fun c hc => Option.some.inj hc ▸ hreg⟩
      exact doGenerate_of_generateOf F (by rw [hempty, decide_eq_false hnil]) hts hok
    cases typ with
    | first =>
      obtain ⟨s, rest, rfl⟩ := List.exists_cons_of_ne_nil hne
      obtain ⟨hs, hreg⟩ := hplain s (by simp)
      exact ⟨s.tpl, copyTuple_eq hreg, by rw [Group.aggregate, ← horder]; rfl, hreg, hs⟩
    | maxInt =>
      rw [Group.aggregate, ← horder]
      exact generateBest_spec (r := fun a b => b < a)
        (fun a b => decide_eq_decide.mpr Int32.lt_iff_toInt_lt) htyp hplain hne
    | minInt =>
      rw [Group.aggregate, ← horder]
      exact generateBest_spec (r := fun a b => a < b)
        (fun a b => decide_eq_decide.mpr Int32.lt_iff_toInt_lt) htyp hplain hne
    | sumInt => exact h.generateSum htyp hplain horder hcount hne
    | maxFloat => exact htyp.elim
    | minFloat => exact htyp.elim
    | sumFloat => exact htyp.elim
    | sumListFloat => exact htyp.elim

theorem Mirrors.new (types : List FieldType) : Mirrors types AggConfiguration.new .empty [] where
  holds := ⟨_, [], TupleTrie.Holds.new types, rfl⟩
  regular := by simp [Group.empty]
  corresponds := by simp [AggConfiguration.new]
  stands := by simp [AggConfiguration.new, net, copies]

/-- `add_to_set` with a positive count adds to the group. -/
theorem Mirrors.add (h : Mirrors types conf g cont) (htpl : TupleTrie.Typed types tpl)
    (hn : 0 < n) (hrange : InRange g tpl n) :
    ∃ conf', conf.addToSet tpl n = .ok conf' ∧ Mirrors types conf' (g.add (canon tpl) n) cont := by
  obtain ⟨hreg, hshort, hint⟩ := hrange
  obtain ⟨word, ls, hh, hls⟩ := h.holds
  obtain ⟨t', word', ls', hok, hh', hls'⟩ := addToSet_add hh htpl hreg.findable hn hshort hint
  refine ⟨_, hok, ⟨word', ls', hh', ?_⟩, fun u hu => ?_, h.corresponds, h.stands⟩
  · rw [hls', hls]
    rfl
  · rcases Multiset.mem_add.mp hu with hu | hu
    · exact h.regular u hu
    · rw [Multiset.eq_of_mem_replicate hu]
      exact regular_canon.mpr hreg

/-- `add_to_set` with a negative count takes from the group. -/
theorem Mirrors.remove (h : Mirrors types conf g cont) (htpl : TupleTrie.Typed types tpl)
    (hn : 0 < n) (hle : n ≤ g.bag.count (canon tpl)) :
    ∃ conf', conf.addToSet tpl (-n) = .ok conf' ∧
      Mirrors types conf' (g.remove (canon tpl) n) cont := by
  obtain ⟨word, ls, hh, hls⟩ := h.holds
  have hreg : Regular tpl := regular_canon.mp (h.regular _ (Multiset.count_pos.mp (by omega)))
  obtain ⟨t', word', ls', hok, hh', hls'⟩ := addToSet_remove hh htpl hreg.findable hn hle
  refine ⟨_, hok, ⟨word', ls', hh', ?_⟩, fun u hu => ?_, h.corresponds, h.stands⟩
  · rw [hls', hls]
    rfl
  · exact h.regular u (Multiset.mem_of_le (Multiset.sub_le_self _ _) hu)

/-- `generate` retracts what is left standing of the emissions and emits the aggregate. -/
theorem Mirrors.generate (h : Mirrors types conf g cont) (htyp : typ.OverInts types field) :
    ∃ conf' cont', conf.generate F typ field cont = .ok (conf', cont') ∧
      Mirrors types conf' g cont' ∧ ∀ tpl, net cont' tpl = copies (g.aggregate typ field) tpl := by
  obtain ⟨r, hr, hagg, hplain⟩ := h.doGenerate (F := F) htyp
  suffices hemit : ∃ cont', (conf.generate F typ field cont = .ok
      ({ conf with changed := false, corresponds := r }, cont')) ∧
      ∀ tpl, net cont' tpl = copies (r.map canon) tpl by
    obtain ⟨cont', hok, hnet⟩ := hemit
    exact ⟨_, cont', hok, ⟨h.holds, h.regular, hplain, hnet⟩, hagg ▸ hnet⟩
  have hnet := h.stands
  rw [AggConfiguration.generate, hr, ok_bind]
  cases hc : conf.corresponds with
  | none =>
    rw [hc] at hnet
    cases r with
    | none => exact ⟨cont, rfl, hnet⟩
    | some c =>
      refine ⟨_, rfl, fun tpl => ?_⟩
      rw [net_append, net_createNew, hnet, Option.map_some]
      simp [copies]
  | some c =>
    rw [hc] at hnet
    cases r with
    | none =>
      refine ⟨_, rfl, fun tpl => ?_⟩
      rw [net_append, net_removeNew, hnet, Option.map_some, Option.map_none]
      simp [copies]
    | some d =>
      obtain ⟨hcreg, hcty⟩ := h.corresponds c hc
      obtain ⟨hdreg, hdty⟩ := hplain d rfl
      simp only [tupleEqual_eq (hcty.trans hdty.symm) hcreg hdreg, ok_bind]
      by_cases heq : canon c = canon d
      · refine ⟨cont, by rw [decide_eq_true heq]; rfl, fun tpl => ?_⟩
        rw [hnet, Option.map_some, Option.map_some, heq]
      · refine ⟨cont ++ [removeNew c, createNew d], by rw [decide_eq_false heq]; rfl,
          fun tpl => ?_⟩
        have hsplit : [removeNew c, createNew d] = [removeNew c] ++ [createNew d] := rfl
        rw [hsplit, net_append, net_append, net_removeNew, net_createNew, hnet, Option.map_some,
          Option.map_some]
        omega

/-- Every interleaving keeps the relation. -/
theorem Run.mirrors (htyp : typ.OverInts types field)
    (h : Run InRange F types typ field conf g cont) : Mirrors types conf g cont := by
  induction h with
  | new => exact Mirrors.new types
  | add _ htpl hn hallowed hrun ih =>
    obtain ⟨conf', hok, hmirrors⟩ := ih.add htpl hn hallowed
    rw [hrun, Except.ok.injEq] at hok
    exact hok ▸ hmirrors
  | remove _ htpl hn hle hrun ih =>
    obtain ⟨conf', hok, hmirrors⟩ := ih.remove htpl hn hle
    rw [hrun, Except.ok.injEq] at hok
    exact hok ▸ hmirrors
  | generate _ hrun ih =>
    obtain ⟨conf', cont', hok, hmirrors, -⟩ := ih.generate (F := F) htyp
    rw [hrun, Except.ok.injEq, Prod.mk.injEq] at hok
    exact hok.1 ▸ hok.2 ▸ hmirrors

/-- An aggregate configuration's emissions telescope: after any interleaving of allowed operations
`generate` leaves exactly one copy of the aggregate of the group, or nothing for an empty one; the
allowed operations succeed, and the order of the group lists each of its tuples once. -/
theorem telescopes (F : FloatOps) (htyp : typ.OverInts types field)
    (h : Run InRange F types typ field conf g cont) :
    Telescopes F typ field conf g cont ∧
    (g.order.Nodup ∧ ∀ tpl, tpl ∈ g.order ↔ tpl ∈ g.bag) ∧
    ∀ (tpl : List Value) (n : ℕ), TupleTrie.Typed types tpl → 0 < n →
      (InRange g tpl n → ∃ conf', conf.addToSet tpl n = .ok conf') ∧
      (n ≤ g.bag.count (canon tpl) → ∃ conf', conf.addToSet tpl (-n) = .ok conf') := by
  have hm := h.mirrors htyp
  obtain ⟨conf', cont', hok, -, hnet⟩ := hm.generate (F := F) htyp
  refine ⟨⟨conf', cont', hok, hnet⟩, hm.order, fun tpl n htpl hn => ⟨fun hr => ?_, fun hle => ?_⟩⟩
  · obtain ⟨conf', hok, -⟩ := hm.add htpl hn hr
    exact ⟨conf', hok⟩
  · obtain ⟨conf', hok, -⟩ := hm.remove htpl hn hle
    exact ⟨conf', hok⟩

end

/-! ### Runs -/

/-- A run that adds `[3]` twice and emits the sum, then takes one `[3]` back and adds `[4]`. -/
theorem telescopes_threeFour : ∃ (F : FloatOps) (conf : AggConfiguration) (g : Group)
    (cont : List Emission), Run InRange F [.item .int] .sumInt 0 conf g cont ∧
      g.order = [[.item (.int 3)], [.item (.int 4)]] ∧
      g.aggregate .sumInt 0 = some [.item (.int 7)] ∧ Telescopes F .sumInt 0 conf g cont := by
  have htyp : AggregateType.OverInts [.item .int] 0 .sumInt := rfl
  have htpl : ∀ x, TupleTrie.Typed [.item .int] [.item (.int x)] :=
    fun x => ⟨rfl, by simp [Value.Ok]⟩
  have hreg : ∀ x, Regular [.item (.int x)] := fun x => by
    simp [Regular, Value.Regular, Item.Regular, Item.eq]
  let F : FloatOps := ⟨fun _ _ => false, fun a _ => a⟩
  have hnew : Run InRange F [.item .int] .sumInt 0 AggConfiguration.new .empty [] := .new
  have hrange : InRange .empty [.item (.int 3)] 2 := ⟨hreg 3, by decide, by decide⟩
  obtain ⟨c₁, h₁⟩ := ((telescopes F htyp hnew).2.2 _ 2 (htpl 3) (by decide)).1 hrange
  have hrun₁ := hnew.add (htpl 3) (by decide) hrange h₁
  obtain ⟨c₂, cont, h₂, -⟩ := (telescopes F htyp hrun₁).1
  have hrun₂ := hrun₁.generate h₂
  have hle : 1 ≤ (Group.empty.add (canon [.item (.int 3)]) 2).bag.count
      (canon [.item (.int 3)]) := by decide
  obtain ⟨c₃, h₃⟩ := ((telescopes F htyp hrun₂).2.2 _ 1 (htpl 3) (by decide)).2 hle
  have hrun₃ := hrun₂.remove (htpl 3) (by decide) hle h₃
  have hrange' : InRange ((Group.empty.add (canon [.item (.int 3)]) 2).remove
      (canon [.item (.int 3)]) 1) [.item (.int 4)] 1 := ⟨hreg 4, by decide, by decide⟩
  obtain ⟨c₄, h₄⟩ := ((telescopes F htyp hrun₃).2.2 _ 1 (htpl 4) (by decide)).1 hrange'
  have hrun₄ := hrun₃.add (htpl 4) (by decide) hrange' h₄
  exact ⟨F, c₄, _, cont, hrun₄, by decide, by decide, (telescopes F htyp hrun₄).1⟩

/-- The sum of a group to which a tuple came twice. -/
private theorem aggregate_addTwice (field : ℕ) (tpl : List Value) (n m : ℕ) :
    ((Group.empty.add tpl (n + 1)).add tpl m).aggregate .sumInt field =
      some (tpl.set field (.item (.int (.ofInt ((n + 1 + m : ℕ) * intAt field tpl))))) := by
  have hmem : tpl ∈ (Group.empty.add tpl (n + 1)).bag :=
    Multiset.mem_add.mpr (.inr (Multiset.mem_replicate.mpr ⟨by omega, rfl⟩))
  have horder : ((Group.empty.add tpl (n + 1)).add tpl m).order = [tpl] := by
    rw [Group.add, if_pos hmem]
    rfl
  have hsum : (((Group.empty.add tpl (n + 1)).add tpl m).bag.map (intAt field)).sum =
      (n + 1 + m : ℕ) * intAt field tpl := by
    simp only [Group.add, Group.empty, Multiset.map_add, Multiset.map_replicate, Multiset.sum_add,
      Multiset.sum_replicate, Multiset.map_zero, Multiset.sum_zero]
    push_cast
    ring
  rw [Group.aggregate, horder, hsum]
  rfl

/-- A NaN. -/
private def nan : UInt64 := 0x7ff8000000000000

/-- Two calls of `add_to_set` and one of `generate`, taken apart. -/
private theorem exists_of_addTwice {F : FloatOps} {typ : AggregateType} {field : ℕ}
    {conf : AggConfiguration} {tpl : List Value} {many many' : ℤ} {cont : List Emission}
    (hrun : (do
      let conf ← conf.addToSet tpl many
      let conf ← conf.addToSet tpl many'
      let (_, cont) ← conf.generate F typ field []
      pure cont) = .ok cont) :
    ∃ c₁ c₂ c₃, conf.addToSet tpl many = .ok c₁ ∧ c₁.addToSet tpl many' = .ok c₂ ∧
      c₂.generate F typ field [] = .ok (c₃, cont) := by
  obtain ⟨c₁, h₁, hrun⟩ := bind_eq_ok.mp hrun
  obtain ⟨c₂, h₂, hrun⟩ := bind_eq_ok.mp hrun
  obtain ⟨⟨c₃, cont'⟩, h₃, hrun⟩ := bind_eq_ok.mp hrun
  obtain rfl := Except.ok.inj hrun
  exact ⟨c₁, c₂, c₃, h₁, h₂, h₃⟩

/-- Counts wrap around: of `32768` copies of `[1]` the sum is `0`. The trie does not find a NaN
again, so what was taken back stays. A string is not copied. -/
theorem not_telescopes_anyCount :
    (∃ (F : FloatOps) (conf : AggConfiguration) (g : Group) (cont : List Emission),
      Run AnyCount F [.item .int] .sumInt 0 conf g cont ∧ ¬Telescopes F .sumInt 0 conf g cont) ∧
    (∃ (F : FloatOps) (conf : AggConfiguration) (g : Group) (cont : List Emission),
      Run AnyCount F [.item .float] .first 0 conf g cont ∧ ¬Telescopes F .first 0 conf g cont) ∧
    ∃ (F : FloatOps) (conf : AggConfiguration) (g : Group) (cont : List Emission),
      Run AnyCount F [.string] .first 0 conf g cont ∧ ¬Telescopes F .first 0 conf g cont := by
  -- the operations on floats play no part
  let F : FloatOps := ⟨fun _ _ => false, fun a _ => a⟩
  refine ⟨⟨F, ?_⟩, ⟨F, ?_⟩, ⟨F, ?_⟩⟩
  · have htpl : TupleTrie.Typed [.item .int] [.item (.int 1)] := ⟨rfl, by simp [Value.Ok]⟩
    have hnew : Run AnyCount F [.item .int] .sumInt 0 new .empty [] := .new
    obtain ⟨c₁, c₂, c₃, h₁, h₂, h₃⟩ : ∃ c₁ c₂ c₃,
        new.addToSet [.item (.int 1)] (32767 : ℕ) = .ok c₁ ∧
        c₁.addToSet [.item (.int 1)] (1 : ℕ) = .ok c₂ ∧
        c₂.generate F .sumInt 0 [] = .ok (c₃, [createNew [.item (.int 0)]]) :=
      exists_of_addTwice (by decide +kernel)
    have hrun := (hnew.add htpl (by decide) (by simp [AnyCount, maxShort]) h₁).add htpl (by decide)
      (by simp [AnyCount, maxShort]) h₂
    refine ⟨c₂, _, [], hrun, ?_⟩
    rintro ⟨c₄, cont, hok, hnet⟩
    obtain ⟨-, rfl⟩ := Prod.mk.inj (Except.ok.inj (h₃.symm.trans hok))
    have hagg := aggregate_addTwice 0 [.item (.int 1)] 32766 1
    have := hnet [.item (.int 0)]
    rw [net_createNew] at this
    change _ = copies (Group.aggregate .sumInt 0 _) _ at this
    rw [show canon [.item (.int 1)] = [.item (.int 1)] from rfl, hagg] at this
    revert this
    decide
  · have htpl : TupleTrie.Typed [.item .float] [.item (.float nan)] := ⟨rfl, by simp [Value.Ok]⟩
    have hnew : Run AnyCount F [.item .float] .first 0 new .empty [] := .new
    obtain ⟨c₁, c₂, c₃, h₁, h₂, h₃⟩ : ∃ c₁ c₂ c₃,
        new.addToSet [.item (.float nan)] (1 : ℕ) = .ok c₁ ∧
        c₁.addToSet [.item (.float nan)] (-(1 : ℕ)) = .ok c₂ ∧
        c₂.generate F .first 0 [] = .ok (c₃, [createNew [.item (.float nan)]]) :=
      exists_of_addTwice (by decide +kernel)
    have hrun := (hnew.add htpl (by decide) (by simp [AnyCount, maxShort]) h₁).remove htpl
      (by decide) (by decide) h₂
    refine ⟨c₂, _, [], hrun, ?_⟩
    rintro ⟨c₄, cont, hok, hnet⟩
    obtain ⟨-, rfl⟩ := Prod.mk.inj (Except.ok.inj (h₃.symm.trans hok))
    have := hnet (canon [.item (.float nan)])
    simp [net_createNew, Group.aggregate, Group.add, Group.remove, Group.empty, copies] at this
  · have htpl : TupleTrie.Typed [.string] [.string 8] := ⟨rfl, by simp [Value.Ok]⟩
    have hnew : Run AnyCount F [.string] .first 0 new .empty [] := .new
    have hthrow : (new.addToSet [.string 8] (1 : ℕ)).map (fun conf =>
        (conf.generate F .first 0 []).map Prod.snd) = .ok (.error .thrown) := by decide +kernel
    cases h : new.addToSet [.string 8] (1 : ℕ) with
    | error e =>
      rw [h] at hthrow
      cases hthrow
    | ok c₁ =>
      have hrun := hnew.add htpl (by decide) (by simp [AnyCount, maxShort]) h
      refine ⟨c₁, _, [], hrun, ?_⟩
      rintro ⟨c₂, cont, hok, -⟩
      rw [h, Except.map, hok] at hthrow
      cases hthrow

end AggConfiguration

end Meld.Db
