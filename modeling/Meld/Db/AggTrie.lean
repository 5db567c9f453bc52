import Meld.Db.AggTelescope

/-!
# Tries of aggregate configurations

An `agg_trie` has a level for each group-by field and a leaf for each group, which holds the
`agg_configuration` of the group. Its leaves are all counted once and are never to be deleted.
What it shares with the tuple tries is told by the trie of the groups' keys, which has the same
nodes; `Keyed` is its invariant.
-/

namespace Meld.Db

open Meld.Lib Meld.Vm

/-- `agg_trie_leaf`. -/
structure AggTrieLeaf where
  conf : Option AggConfiguration

instance : LeafOps AggTrieLeaf where
  default := ⟨none⟩
  getCount _ := 1
  addCount l _ := l
  toDelete _ := false
  destructible l := l.conf.isSome

/-- `agg_trie`. -/
abbrev AggTrie := Trie AggTrieLeaf

namespace AggTrie

/-- `find_configuration`, for a predicate whose field `field` is aggregated. -/
def findConfiguration (t : AggTrie) (field : ℕ) (tpl : List Value) : Exec (AggTrie × ℕ) := do
  let (t, node, found) ← t.checkInsert (fun _ => ⟨none⟩) 1 (tpl.take field)
  let a ← deref node
  let t ← if found then pure t else t.addReferences 1
  match t.nodes.child a with
  | .leaf l => pure (t, l)
  | _ => throw .dangling

/-- `set_conf`. -/
def setConf (t : AggTrie) (l : ℕ) (conf : AggConfiguration) : AggTrie :=
  { t with leaves.payload := Function.update t.leaves.payload l ⟨some conf⟩ }

/-- `tuple_aggregate::add_to_set`. -/
def addToSet (t : AggTrie) (field : ℕ) (tpl : List Value) (many : ℤ) : Exec AggTrie := do
  let (t, l) ← t.findConfiguration field tpl
  t.leaves.arena.check l
  let conf := (t.leaves.payload l).conf.getD .new
  let conf ← conf.addToSet tpl many
  pure (t.setConf l conf)

/-- `erase`: the leaf that follows. -/
def erase (t : AggTrie) (l : ℕ) : Exec (AggTrie × Option ℕ) := do
  t.leaves.arena.check l
  let next := t.leaves.next l
  let t ← t.commitDelete (t.leaves.node l) (LeafOps.getCount (t.leaves.payload l))
  pure (t, next)

/-- `if(conf->has_changed()) conf->generate(typ, field, ls)`. -/
def generateChanged (F : FloatOps) (typ : AggregateType) (field : ℕ) (conf : AggConfiguration)
    (cont : List Emission) : Exec (AggConfiguration × List Emission) :=
  if conf.changed then conf.generate F typ field cont else pure (conf, cont)

/-- The loop of `tuple_aggregate::generate`, from a leaf of the list. -/
def generateFrom (F : FloatOps) (typ : AggregateType) (field : ℕ) :
    ℕ → AggTrie → Option ℕ → List Emission → Exec (AggTrie × List Emission)
  | _, t, none, cont => pure (t, cont)
  | 0, _, some _, _ => throw .diverge
  | fuel + 1, t, some l, cont => do
    t.leaves.arena.check l
    match (t.leaves.payload l).conf with
    | none => throw .assertion
    | some conf => do
      let (conf, cont) ← generateChanged F typ field conf cont
      assert (conf.changed = false)
      let t := t.setConf l conf
      if conf.isEmpty then do
        let (t, next) ← t.erase l
        generateFrom F typ field fuel t next cont
      else generateFrom F typ field fuel t (t.leaves.next l) cont

/-- `tuple_aggregate::generate`. -/
def generate (F : FloatOps) (typ : AggregateType) (field : ℕ) (t : AggTrie) :
    Exec (AggTrie × List Emission) :=
  generateFrom F typ field t.leaves.arena.next t t.firstLeaf []

/-! ### The trie of the keys -/

/-- The trie of the groups' keys, with the nodes of the trie `t`. -/
def keyTrie (t : AggTrie) (key : ℕ → List Value) : TupleTrie where
  nodes := t.nodes
  hashes := t.hashes
  leaves :=
    { arena := t.leaves.arena
      prev := t.leaves.prev
      next := t.leaves.next
      node := t.leaves.node
      payload := fun l => ⟨key l, 1⟩ }
  root := t.root
  numberOfReferences := t.numberOfReferences
  firstLeaf := t.firstLeaf
  lastLeaf := t.lastLeaf

/-- The invariant of a trie whose leaves `ls` are those of the keys `key`, in which no key occurs
twice. -/
structure Keyed (types : List FieldType) (t : AggTrie) (key : ℕ → List Value) (word : Words)
    (ls : List ℕ) : Prop where
  inv : TupleTrie.Inv types (t.keyTrie key) word ls
  narrow : NarrowTree t.nodes word
  findable : ∀ l ∈ ls, Findable (key l)

section

variable {types : List FieldType} {t t' : AggTrie} {key key' : ℕ → List Value}
  {word word' : Words} {ls : List ℕ} {l l' : ℕ} {k : List Value}

theorem valid_keyTrie : Valid types (t.keyTrie key) word ls ↔ Valid types t word ls := by
  constructor
  · rintro ⟨hshape, hfull, hroot, hclean, hl, hnodes⟩
    exact ⟨hshape, hfull, hroot, hclean,
      ⟨hl.nodup, hl.linked, hl.first_eq, hl.last_eq, hl.live⟩, hnodes⟩
  · rintro ⟨hshape, hfull, hroot, hclean, hl, hnodes⟩
    exact ⟨hshape, hfull, hroot, hclean,
      ⟨hl.nodup, hl.linked, hl.first_eq, hl.last_eq, hl.live⟩, hnodes⟩

/-- The trie of the keys does not depend on the configurations. -/
theorem keyTrie_congr (hnodes : t'.nodes = t.nodes) (hhashes : t'.hashes = t.hashes)
    (hroot : t'.root = t.root) (hfirst : t'.firstLeaf = t.firstLeaf)
    (hlast : t'.lastLeaf = t.lastLeaf) (harena : t'.leaves.arena = t.leaves.arena)
    (hprev : t'.leaves.prev = t.leaves.prev) (hnext : t'.leaves.next = t.leaves.next)
    (hnode : t'.leaves.node = t.leaves.node) :
    t'.keyTrie key = (t.keyTrie key).withRefs t'.numberOfReferences := by
  simp only [keyTrie, Trie.withRefs, hnodes, hhashes, hroot, hfirst, hlast, harena, hprev, hnext,
    hnode]

/-- A leaf that is added is one of the trie of the keys. -/
theorem added_keyTrie {payload : AggTrieLeaf} {b : ℕ} {path : List TupleField}
    (ha : Added types t t' word word' ls payload b path) :
    Added types (t.keyTrie key) (t'.keyTrie (Function.update key t.leaves.arena.next k)) word word'
      ls ⟨k, 1⟩ b path := by
  refine ⟨valid_keyTrie.mpr ha.valid, ha.word_new, ha.keep_word, ?_, ha.root, ha.references⟩
  have hleaves := ha.leaves
  simp only [keyTrie, hleaves, Trie.pushLeaf, LeafHeap.mk.injEq, true_and]
  funext x
  by_cases hx : x = t.leaves.arena.next
  · simp [hx]
  · simp [hx]

namespace Keyed

theorem valid (h : Keyed types t key word ls) : Valid types t word ls :=
  valid_keyTrie.mp h.inv.valid

theorem typed (h : Keyed types t key word ls) (hl : l ∈ ls) : TupleTrie.Typed types (key l) :=
  h.inv.typed l hl

/-- No two groups have one key. -/
theorem unique (h : Keyed types t key word ls) (hl : l ∈ ls) (hl' : l' ∈ ls)
    (heq : canon (key l) = canon (key l')) : l = l' :=
  h.inv.leaf_unique h.narrow hl hl' (h.findable l hl) (h.findable l' hl') heq

/-- The invariant does not depend on the configurations and the number of references. -/
theorem congr (h : Keyed types t key word ls) (hnodes : t'.nodes = t.nodes)
    (hhashes : t'.hashes = t.hashes) (hroot : t'.root = t.root)
    (hfirst : t'.firstLeaf = t.firstLeaf) (hlast : t'.lastLeaf = t.lastLeaf)
    (harena : t'.leaves.arena = t.leaves.arena)
    (hprev : t'.leaves.prev = t.leaves.prev) (hnext : t'.leaves.next = t.leaves.next)
    (hnode : t'.leaves.node = t.leaves.node) : Keyed types t' key word ls := by
  have heq := @keyTrie_congr t t' key hnodes hhashes hroot hfirst hlast harena hprev hnext hnode
  exact ⟨heq ▸ h.inv.withRefs _, hnodes ▸ h.narrow, h.findable⟩

theorem withRefs (h : Keyed types t key word ls) (n : ℤ) :
    Keyed types (t.withRefs n) key word ls :=
  h.congr rfl rfl rfl rfl rfl rfl rfl rfl rfl

theorem setConf (h : Keyed types t key word ls) (l : ℕ) (conf : AggConfiguration) :
    Keyed types (t.setConf l conf) key word ls :=
  h.congr rfl rfl rfl rfl rfl rfl rfl rfl rfl

/-- The leaf of a key, which a search for the key ends at. -/
theorem found (h : Keyed types t key word ls) (htyped : TupleTrie.Typed types k)
    (hfind : Findable k) (hf : Trie.Found t word ls k l) : canon (key l) = canon k := by
  obtain ⟨w, hw, hfol⟩ := hf.path
  exact h.inv.leafTuple_of_follows h.narrow htyped hfind hf.mem hw hfol (h.findable l hf.mem)

/-- A key that is not found has no leaf. -/
theorem absent (h : Keyed types t key word ls) (hfind : Findable k)
    (habs : Trie.Absent t word ls k) (hl : l ∈ ls) : canon (key l) ≠ canon k := fun heq => by
  obtain ⟨w, hw, hfol⟩ := h.inv.follows h.narrow hfind hl (h.findable l hl) heq
  exact habs.not_follows h.narrow l hl w hw hfol

/-- The search for the key of a leaf ends at the leaf. -/
theorem leads (h : Keyed types t key word ls) (hl : l ∈ ls) : Trie.Leads t t.root (key l) l := by
  have htyped := h.typed hl
  rcases Trie.checkInsert_cases h.valid htyped.types htyped.ok with ⟨x, hf, -⟩ | ⟨habs, -⟩
  · have := h.unique hf.mem hl (h.found htyped (h.findable l hl) hf)
    exact this ▸ hf.leads
  · exact absurd rfl (h.absent (h.findable l hl) habs hl)

/-- A leaf for a new key. -/
theorem added (h : Keyed types t key word ls) (htyped : TupleTrie.Typed types k)
    (hfind : Findable k) {payload : AggTrieLeaf} {b : ℕ} {path done : List TupleField}
    {rest : List Value} (hlev : levels k = done ++ levels rest) (hfol : Trie.Follows path done)
    (hpath : ∃ a, word a = some path)
    (ha : Added types t t' word word' ls payload b (path ++ levels rest)) :
    Keyed types t' (Function.update key t.leaves.arena.next k) word'
      (ls ++ [t.leaves.arena.next]) := by
  have hfresh : ∀ x ∈ ls, x ≠ t.leaves.arena.next := fun x hx =>
    (Arena.lt_next ((h.valid.leafList.live x).mpr hx)).ne
  have hadd : Added types (t.keyTrie key)
      (t'.keyTrie (Function.update key t.leaves.arena.next k)) word word' ls ⟨k, 1⟩ b
      (path ++ levels rest) := added_keyTrie ha
  have hinv := h.inv.added htyped hlev hfol hadd
  obtain ⟨a, hpath⟩ := hpath
  refine ⟨hinv, TupleTrie.narrowTree_added h.inv.valid h.narrow hlev hpath hadd
    fun f hf => (findable_levels hfind f hf).narrow, fun x hx => ?_⟩
  rcases List.mem_append.mp hx with hx | hx
  · rw [Function.update_of_ne (hfresh x hx)]
    exact h.findable x hx
  · rw [List.mem_singleton.mp hx, Function.update_self]
    exact hfind

end Keyed

/-! ### The operations -/

variable {tpl : List Value} {field : ℕ}

/-- Counting a group does nothing. -/
theorem counted_eq (t : AggTrie) (l : ℕ) (many : ℤ) : t.counted l many = t := by
  rw [Trie.counted, show LeafOps.addCount (t.leaves.payload l) many = t.leaves.payload l from rfl,
    Function.update_eq_self]

/-- `find_configuration` finds the leaf of the group of a tuple, or adds a leaf without
configuration. -/
theorem Keyed.findConfiguration (h : Keyed types t key word ls)
    (htyped : TupleTrie.Typed types (tpl.take field)) (hfind : Findable (tpl.take field))
    (hrefs : ls ≠ [] → t.numberOfReferences ≠ 0) (hmin : 0 ≤ t.numberOfReferences) :
    (∃ l ∈ ls, canon (key l) = canon (tpl.take field) ∧
      t.findConfiguration field tpl = .ok (t, l)) ∨
    ((∀ l ∈ ls, canon (key l) ≠ canon (tpl.take field)) ∧ (t.numberOfReferences < maxInt →
      ∃ (t' : AggTrie) (word' : Words),
        t.findConfiguration field tpl = .ok (t', t.leaves.arena.next) ∧
        Keyed types t' (Function.update key t.leaves.arena.next (tpl.take field)) word'
          (ls ++ [t.leaves.arena.next]) ∧
        t'.leaves.payload = Function.update t.leaves.payload t.leaves.arena.next ⟨none⟩ ∧
        t'.numberOfReferences = t.numberOfReferences + 1)) := by
  rw [AggTrie.findConfiguration]
  rcases Trie.checkInsert_cases h.valid htyped.types htyped.ok with ⟨l, hf, hl⟩ | ⟨habs, hnew⟩
  · refine .inl ⟨l, hf.mem, h.found htyped hfind hf, ?_⟩
    have hr := hrefs (List.ne_nil_of_mem hf.mem)
    have hc := (h.valid.leafNodes.attached l hf.mem).2
    rw [hl, Trie.foundAt_eq h.valid hf htyped.types, assert_pos (.inr hr), counted_eq]
    simp [hc]
  · refine .inr ⟨fun l hl => h.absent hfind habs hl, fun hmax => ?_⟩
    rcases hnew (fun _ => (⟨none⟩ : AggTrieLeaf)) 1 with ⟨-, hneg, -⟩ |
      ⟨t', word', b, path, done, rest, -, hok, hlev, hfol, hpath, hadd⟩
    · omega
    · have hkeyed := h.added htyped hfind hlev hfol hpath hadd
      have hnode : t'.leaves.node t.leaves.arena.next = b := by
        simp [hadd.leaves, Trie.pushLeaf]
      have hc := (hkeyed.valid.leafNodes.attached t.leaves.arena.next (by simp)).2
      rw [hnode] at hc
      refine ⟨t'.withRefs (t.numberOfReferences + 1), word', ?_, hkeyed.withRefs _,
        by simp [Trie.withRefs, hadd.leaves, Trie.pushLeaf], rfl⟩
      have hint : addInt t.numberOfReferences 1 = .ok (t.numberOfReferences + 1) :=
        addInt_of_mem (by simp only [maxInt]; omega) (by omega)
      rw [hok]
      simp only [ok_bind, deref_some, Bool.false_eq_true, if_false]
      rw [Trie.addReferences_bind, hadd.references, hint, ok_bind]
      simp [Trie.withRefs, hc]

/-- `erase` on a group's leaf takes a reference and nothing else; and the assertion it depends
on. -/
theorem Keyed.erase (h : Keyed types t key word ls) (hl : l ∈ ls)
    (hpos : 0 < t.numberOfReferences) (hmax : t.numberOfReferences ≤ maxInt) :
    t.erase l = (do
      assert (t.numberOfReferences ≠ 1)
      pure (t.withRefs (t.numberOfReferences - 1), t.leaves.next l)) := by
  have hlive := (h.valid.leafList.live l).mpr hl
  obtain ⟨hw, hc⟩ := h.valid.leafNodes.attached l hl
  have hne : ls ≠ [] := List.ne_nil_of_mem hl
  have hint : addInt t.numberOfReferences (-1) = .ok (t.numberOfReferences - 1) := by
    rw [addInt_of_mem (by simp only [maxInt] at *; omega) (by omega)]
    rfl
  have hvalid := h.valid.withRefs (t.numberOfReferences - 1)
  rw [AggTrie.erase, Arena.check_of_live hlive, ok_bind,
    show LeafOps.getCount (t.leaves.payload l) = 1 from rfl, Trie.commitDelete,
    Arena.check_of_live (h.valid.shape.live _ hw), ok_bind, hc]
  simp only []
  rw [Trie.addReferences_bind, hint, ok_bind, assert_pos (by rw [Trie.withRefs_references]; omega),
    ok_bind, Trie.innerDeleteByLeaf_keep (by exact hlive) rfl, ok_bind, hvalid.basicInvariants]
  by_cases hr : t.numberOfReferences = 1
  · simp [Trie.withRefs, hr, hne, assert]
  · have hr' : t.numberOfReferences - 1 ≠ 0 := by omega
    simp [Trie.withRefs, hr, hr', hne, assert]

end

end AggTrie

end Meld.Db
