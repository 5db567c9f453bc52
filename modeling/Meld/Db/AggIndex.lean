import Meld.Db.AggGroups
import Meld.Db.TupleIndex

/-!
# Deleting facts of an aggregate predicate

A node keeps the facts of an aggregate predicate in two tries: the tuples that are stored, with a
level for every field, and the configurations of the groups, with a level for every field before
the aggregated one. `delete_by_index` applies one match to both.

`deletesGroups_iff` says when this removes exactly the groups that agree with the match. Neither
trie may be empty; and when the match asks for the aggregated field or a field after it, the walk
through the trie of the groups goes past the leaf of any group that agrees with what comes before.
-/

namespace Meld.Db

open Meld.Lib Meld.Vm

/-! ### The facts of an aggregate predicate at a node -/

/-- What a node has of an aggregate predicate: the trie of its tuples, which `get_storage` makes when
there is none, and the trie of its `tuple_aggregate`, if there is one. -/
structure AggNode where
  tuples : TupleTrie
  aggs : Option AggTrie

namespace AggNode

/-- The trie of the `tuple_aggregate`, which `add_agg_tuple` makes when there is none. -/
def groups (node : AggNode) : AggTrie := node.aggs.getD Trie.new

/-- `add_agg_tuple`. -/
def addAggTuple (field : ℕ) (tpl : List Value) (many : ℤ) (node : AggNode) : Exec AggNode := do
  let t ← node.groups.addToSet field tpl many
  return { node with aggs := some t }

/-- `end_iteration`. -/
def endIteration (F : FloatOps) (typ : AggregateType) (field : ℕ) (node : AggNode) :
    Exec (AggNode × List Emission) :=
  match node.aggs with
  | none => pure (node, [])
  | some t => do
    let (t, cont) ← t.generate F typ field
    return ({ node with aggs := some t }, cont)

/-- `delete_by_index`. -/
def deleteByIndex (m : Match) (node : AggNode) : Exec AggNode := do
  let tuples ← node.tuples.deleteByIndex m
  match node.aggs with
  | none => return { node with tuples := tuples }
  | some t => do
    let t ← t.deleteByIndex m
    return { tuples := tuples, aggs := some t }

/-- The keys of the groups after a fact was added: a leaf that was not there is the one of the
group-by fields of the fact. -/
def keyAfter (field : ℕ) (tpl : List Value) (node : AggNode) (key : ℕ → List Value) :
    ℕ → List Value :=
  fun l => if node.groups.leaves.arena.live l then key l else tpl.take field

/-- What runs of the operations lead to, with the keys of the groups. -/
inductive Run (F : FloatOps) (types : List FieldType) (typ : AggregateType) (field : ℕ) :
    AggNode → (ℕ → List Value) → Prop
  | new : Run F types typ field ⟨Trie.new, none⟩ fun _ => []
  | store {node : AggNode} {key : ℕ → List Value} {op : TupleTrie.Op} {t : TupleTrie} {b : Bool}
      (h : Run F types typ field node key) (hop : op.Fits types node.tuples)
      (hrun : op.run node.tuples = .ok (t, b)) : Run F types typ field { node with tuples := t } key
  | addAggTuple {node node' : AggNode} {key : ℕ → List Value} {tpl : List Value} {many : ℤ}
      (h : Run F types typ field node key) (htpl : TupleTrie.Typed types tpl)
      (hrun : node.addAggTuple field tpl many = .ok node') :
      Run F types typ field node' (node.keyAfter field tpl key)
  | endIteration {node node' : AggNode} {key : ℕ → List Value} {cont : List Emission}
      (h : Run F types typ field node key)
      (hrun : node.endIteration F typ field = .ok (node', cont)) : Run F types typ field node' key
  | deleteByIndex {node node' : AggNode} {key : ℕ → List Value} {args : List Item} {m : Match}
      (h : Run F types typ field node key) (hm : deleteMatch types args = .ok m)
      (hrun : node.deleteByIndex m = .ok node') : Run F types typ field node' key

end AggNode

/-! ### What `delete_by_index` is for -/

/-- The group-by fields of a group agree with the match where it constrains them. -/
def AgreesWith (m : Match) (field : ℕ) (k : List Value) : Prop :=
  List.Forall₂ (fun f v => f.accepts v = true) (m.fields.take field) k

instance (m : Match) (field : ℕ) : DecidablePred (AgreesWith m field) :=
  fun _ => by unfold AgreesWith; infer_instance

namespace AggTrie

/-- The leaves `ls` are those of the groups with the keys `key`, each with a configuration. -/
structure Keys (types : List FieldType) (t : AggTrie) (key : ℕ → List Value) (word : Words)
    (ls : List ℕ) : Prop where
  inv : TupleTrie.Inv types (t.keyTrie key) word ls
  conf : ∀ l ∈ ls, (t.leaves.payload l).conf.isSome = true

/-- The trie `t'` is `t` without the groups that agree with the match. -/
structure DeletesGroups (types : List FieldType) (field : ℕ) (m : Match) (key : ℕ → List Value)
    (t t' : AggTrie) : Prop where
  leaf : ∀ l, t'.leaves.arena.live l = true ↔
    t.leaves.arena.live l = true ∧ ¬AgreesWith m field (key l)
  conf : t'.leaves.payload = t.leaves.payload
  keys : ∃ (word : Words) (ls : List ℕ), Keys (types.take field) t' key word ls

/-- The number of references after the groups that agree with the match are gone. -/
def referencesWithout (t : AggTrie) (m : Match) (field : ℕ) (key : ℕ → List Value) (ls : List ℕ) :
    ℤ :=
  wrap32 (t.numberOfReferences - ls.countP fun l => decide (AgreesWith m field (key l)))

/-- The trie is not empty, its counter shows whether it is, now and after the groups that agree are
gone; and if the match has values for more fields than there are levels, no group agrees with it. -/
def Removable (t : AggTrie) (m : Match) (field num : ℕ) (key : ℕ → List Value) : Prop :=
  ∃ ls, LeafList t.leaves t.firstLeaf t.lastLeaf ls ∧ ls ≠ [] ∧ t.numberOfReferences ≠ 0 ∧
    if num ≤ field then (∃ l ∈ ls, AgreesWith m field (key l)) →
      0 ≤ t.referencesWithout m field key ls ∧
      (t.referencesWithout m field key ls = 0 ↔ ∀ l ∈ ls, AgreesWith m field (key l))
    else ∀ l ∈ ls, ¬AgreesWith m field (key l)

end AggTrie

namespace TupleTrie

/-- The number of references after the tuples that the match accepts are gone. -/
def referencesWithout (t : TupleTrie) (m : Match) (ls : List ℕ) : ℤ :=
  wrap32 (t.numberOfReferences - matchedCount t m ls)

/-- The trie is not empty, and its counter shows whether it is, now and after the tuples that the
match accepts are gone. -/
def Removable (t : TupleTrie) (m : Match) : Prop :=
  ∃ ls, LeafList t.leaves t.firstLeaf t.lastLeaf ls ∧ ls ≠ [] ∧ t.numberOfReferences ≠ 0 ∧
    ((∃ l ∈ ls, m.accepts (t.leaves.payload l).tpl) → 0 ≤ t.referencesWithout m ls ∧
      (t.referencesWithout m ls = 0 ↔ ∀ l ∈ ls, m.accepts (t.leaves.payload l).tpl))

end TupleTrie

/-- The node `node'` is without the groups of `node` that agree with the match, and has the
others. -/
def AggNode.DeletesGroups (types : List FieldType) (field : ℕ) (m : Match) (key : ℕ → List Value)
    (node node' : AggNode) : Prop :=
  (node.aggs = none → node'.aggs = none) ∧ ∀ t, node.aggs = some t →
    ∃ t', node'.aggs = some t' ∧ AggTrie.DeletesGroups types field m key t t'

/-! ### The invariant of the trie of the groups -/

namespace AggTrie

section

variable {F : FloatOps} {types : List FieldType} {typ : AggregateType} {field : ℕ}
  {t t' : AggTrie} {key key' : ℕ → List Value} {word word' : Words} {ls ls' : List ℕ} {l : ℕ}
  {tpl k : List Value} {many : ℤ} {args : List Item} {m : Match}

namespace Keys

theorem valid (h : Keys types t key word ls) : Valid types t word ls := valid_keyTrie.mp h.inv.valid

theorem live (h : Keys types t key word ls) : t.leaves.arena.live l = true ↔ l ∈ ls :=
  h.valid.leafList.live l

theorem new (types : List FieldType) (key : ℕ → List Value) :
    Keys types Trie.new key (Function.update (fun _ => none) 0 (some [])) [] :=
  ⟨⟨valid_keyTrie.mpr (Tree.new types), by simp, by simp⟩, by simp⟩

/-- Only the keys of the leaves matter. -/
theorem congr_key (h : Keys types t key word ls) (hkey : ∀ l ∈ ls, key' l = key l) :
    Keys types t key' word ls where
  inv := by
    refine ⟨valid_keyTrie.mpr h.valid, fun l hl => ?_, fun l hl => ?_⟩
    · change TupleTrie.Typed types (key' l)
      exact hkey l hl ▸ h.inv.typed l hl
    · obtain ⟨w, hw, hs⟩ := h.inv.spells l hl
      refine ⟨w, hw, ?_⟩
      change TupleTrie.Spells w (levels (key' l))
      exact hkey l hl ▸ hs
  conf := h.conf

theorem withRefs (h : Keys types t key word ls) (n : ℤ) : Keys types (t.withRefs n) key word ls :=
  ⟨h.inv.withRefs n, h.conf⟩

theorem setConf (h : Keys types t key word ls) (l : ℕ) (conf : AggConfiguration) :
    Keys types (t.setConf l conf) key word ls := by
  refine ⟨h.inv, fun x hx => ?_⟩
  by_cases hxl : x = l
  · simp [AggTrie.setConf, hxl]
  · simpa [AggTrie.setConf, hxl] using h.conf x hx

/-- What `find_configuration` returns is a leaf of the trie, or a new one for the key. -/
theorem findConfiguration_cases (h : Keys types t key word ls)
    (htyped : TupleTrie.Typed types (tpl.take field))
    (hrun : t.findConfiguration field tpl = .ok (t', l)) :
    (l ∈ ls ∧ t' = t) ∨ (l = t.leaves.arena.next ∧ ∃ word' : Words,
      TupleTrie.Inv types (t'.keyTrie (Function.update key l (tpl.take field))) word'
        (ls ++ [l]) ∧ t'.leaves.payload = Function.update t.leaves.payload l ⟨none⟩) := by
  rw [AggTrie.findConfiguration] at hrun
  rcases Trie.checkInsert_cases h.valid htyped.types htyped.ok with ⟨x, hf, hfound⟩ | ⟨-, hnew⟩
  · rw [hfound, Trie.foundAt_eq h.valid hf htyped.types, counted_eq] at hrun
    obtain ⟨found, hok, hrun⟩ := bind_eq_ok.mp hrun
    obtain ⟨-, -, hok⟩ := bind_eq_ok.mp hok
    cases hok
    simp only [deref_some, ok_bind, if_true, pure_eq_ok] at hrun
    rw [(h.valid.leafNodes.attached x hf.mem).2] at hrun
    simp only [Except.ok.injEq, Prod.mk.injEq] at hrun
    exact .inl ⟨hrun.2 ▸ hf.mem, hrun.1.symm⟩
  · rcases hnew (fun _ => (⟨none⟩ : AggTrieLeaf)) 1 with ⟨-, hneg, -⟩ |
      ⟨t₁, word₁, b, path, done, rest, -, hok, hlev, hfol, hpath, hadd⟩
    · omega
    · have hinv := h.inv.added htyped hlev hfol (added_keyTrie hadd)
      have hnode : t₁.leaves.node t.leaves.arena.next = b := by simp [hadd.leaves, Trie.pushLeaf]
      have hc := (hinv.valid.leafNodes.attached t.leaves.arena.next
        (List.mem_append_right _ (List.mem_singleton.mpr rfl))).2
      change t₁.nodes.child (t₁.leaves.node t.leaves.arena.next) = .leaf t.leaves.arena.next at hc
      rw [hnode] at hc
      rw [hok, ok_bind] at hrun
      simp only [deref_some, ok_bind, Bool.false_eq_true, if_false] at hrun
      rw [Trie.addReferences_bind] at hrun
      obtain ⟨r, -, hrun⟩ := bind_eq_ok.mp hrun
      rw [show (t₁.withRefs r).nodes.child b = .leaf t.leaves.arena.next from hc] at hrun
      simp only [pure_eq_ok, Except.ok.injEq, Prod.mk.injEq] at hrun
      obtain ⟨rfl, rfl⟩ := hrun
      refine .inr ⟨rfl, word₁, hinv.withRefs r, ?_⟩
      change t₁.leaves.payload = _
      simp [hadd.leaves, Trie.pushLeaf]

/-- After a fact was added the leaves are those before and the one of its key. -/
theorem addToSet (h : Keys (types.take field) t key word ls) (htpl : TupleTrie.Typed types tpl)
    (hrun : t.addToSet field tpl many = .ok t') : ∃ (word' : Words) (ls' : List ℕ),
      Keys (types.take field) t' (fun l => if t.leaves.arena.live l then key l else tpl.take field)
        word' ls' := by
  rw [AggTrie.addToSet] at hrun
  obtain ⟨⟨t₁, l⟩, hfind, hrun⟩ := bind_eq_ok.mp hrun
  obtain ⟨-, -, hrun⟩ := bind_eq_ok.mp hrun
  obtain ⟨conf, -, hrun⟩ := bind_eq_ok.mp hrun
  cases hrun
  rcases h.findConfiguration_cases (typed_take htpl field) hfind with
    ⟨-, rfl⟩ | ⟨rfl, word₁, hinv, hpay⟩
  · exact ⟨word, ls, (h.setConf l conf).congr_key fun x hx => if_pos (h.live.mpr hx)⟩
  · have hfresh : ∀ x ∈ ls, x ≠ t.leaves.arena.next := fun x hx =>
      (Arena.lt_next (h.live.mpr hx)).ne
    have hconf : ∀ x ∈ ls ++ [t.leaves.arena.next],
        ((t₁.setConf t.leaves.arena.next conf).leaves.payload x).conf.isSome = true :=
      fun x hx => by
        by_cases hxl : x = t.leaves.arena.next
        · simp [AggTrie.setConf, hxl]
        · have hx' : x ∈ ls := by simpa [hxl] using hx
          simpa [AggTrie.setConf, hxl, hpay] using h.conf x hx'
    have hkeys : Keys (types.take field) (t₁.setConf t.leaves.arena.next conf)
        (Function.update key t.leaves.arena.next (tpl.take field)) word₁
        (ls ++ [t.leaves.arena.next]) := ⟨hinv, hconf⟩
    refine ⟨word₁, _, hkeys.congr_key fun x hx => ?_⟩
    rcases List.mem_append.mp hx with hx | hx
    · rw [Function.update_of_ne (hfresh x hx)]
      exact if_pos (h.live.mpr hx)
    · rw [List.mem_singleton.mp hx, Function.update_self]
      exact if_neg fun hlive => (Arena.lt_next hlive).ne rfl

/-- `erase` changes the number of references only. -/
theorem erase (h : Keys types t key word ls) (hl : l ∈ ls) {next : Option ℕ}
    (hrun : t.erase l = .ok (t', next)) : Keys types t' key word ls := by
  have hlive := h.live.mpr hl
  obtain ⟨-, hc⟩ := h.valid.leafNodes.attached l hl
  rw [AggTrie.erase, Arena.check_of_live hlive, ok_bind] at hrun
  obtain ⟨t₁, hcommit, hrun⟩ := bind_eq_ok.mp hrun
  cases hrun
  rw [Trie.commitDelete, hc] at hcommit
  obtain ⟨-, -, hcommit⟩ := bind_eq_ok.mp hcommit
  simp only [] at hcommit
  rw [Trie.addReferences_bind] at hcommit
  obtain ⟨r, -, hcommit⟩ := bind_eq_ok.mp hcommit
  obtain ⟨-, -, hcommit⟩ := bind_eq_ok.mp hcommit
  rw [Trie.innerDeleteByLeaf_keep (by exact hlive) rfl, ok_bind] at hcommit
  obtain ⟨-, -, hcommit⟩ := bind_eq_ok.mp hcommit
  cases hcommit
  exact h.withRefs r

/-- `generate` keeps the leaves. -/
theorem generateFrom {fuel : ℕ} {start : Option ℕ} {cont cont' : List Emission}
    (h : Keys types t key word ls)
    (hrun : generateFrom F typ field fuel t start cont = .ok (t', cont')) :
    Keys types t' key word ls := by
  induction fuel generalizing t start cont with
  | zero =>
    cases start with
    | none => cases hrun; exact h
    | some l => cases hrun
  | succ fuel ih =>
    cases start with
    | none => cases hrun; exact h
    | some l =>
      rw [AggTrie.generateFrom] at hrun
      obtain ⟨_, hcheck, hrun⟩ := bind_eq_ok.mp hrun
      have hl : l ∈ ls := h.live.mp (Arena.check_eq_ok.mp hcheck)
      cases hc : (t.leaves.payload l).conf with
      | none => simp [hc] at hrun
      | some conf =>
        simp only [hc] at hrun
        obtain ⟨⟨conf', cont₁⟩, -, hrun⟩ := bind_eq_ok.mp hrun
        obtain ⟨-, -, hrun⟩ := bind_eq_ok.mp hrun
        have hset := h.setConf l conf'
        split_ifs at hrun
        · obtain ⟨⟨t₁, next⟩, herase, hrun⟩ := bind_eq_ok.mp hrun
          exact ih (hset.erase hl herase) hrun
        · exact ih hset hrun

/-- The leaves that agree with the values are those of the groups that agree with the match. -/
theorem agrees_iff (h : Keys (types.take field) t key word ls) (hl : l ∈ ls) {xs : List Item}
    {ρ : List FieldType} (hty : types.take field = xs.map (fun x => .item x.type) ++ ρ)
    (hm : m.fields.take field = xs.map .exact ++ ρ.map .any) :
    Agrees t word xs l ↔ AgreesWith m field (key l) :=
  h.inv.agrees_iff hl hty hm

/-- The trie has one leaf list. -/
theorem removable_iff (h : Keys types t key word ls) {num : ℕ} :
    t.Removable m field num key ↔ ls ≠ [] ∧ t.numberOfReferences ≠ 0 ∧
      if num ≤ field then (∃ l ∈ ls, AgreesWith m field (key l)) →
        0 ≤ t.referencesWithout m field key ls ∧
        (t.referencesWithout m field key ls = 0 ↔ ∀ l ∈ ls, AgreesWith m field (key l))
      else ∀ l ∈ ls, ¬AgreesWith m field (key l) := by
  have hls := h.valid.leafList
  constructor
  · rintro ⟨ls', hls', hrem⟩
    obtain rfl : ls = ls' := hls.linked.unique hls'.linked (hls.first_eq.symm.trans hls'.first_eq)
    exact hrem
  · exact fun hrem => ⟨ls, hls, hrem⟩

/-- A trie in which no group agrees with the match stays as it is. -/
theorem deletesGroups_self (h : Keys (types.take field) t key word ls)
    (hnone : ∀ l ∈ ls, ¬AgreesWith m field (key l)) : DeletesGroups types field m key t t :=
  ⟨fun l => (and_iff_left_of_imp fun hlive => hnone l (h.live.mp hlive)).symm, rfl, word, ls, h⟩

/-- What is deleted is what agrees. -/
theorem deletesGroups (h : Keys (types.take field) t key word ls) {xs : List Item}
    (hagrees : ∀ l ∈ ls, Agrees t word xs l ↔ AgreesWith m field (key l))
    (hdel : IndexDeleted (types.take field) t t' word word' ls ls' xs) :
    DeletesGroups types field m key t t' := by
  have hmem : ∀ l, l ∈ ls' ↔ l ∈ ls ∧ ¬AgreesWith m field (key l) := fun l => by
    rw [hdel.mem]
    exact and_congr_right fun hl => not_congr (hagrees l hl)
  have hkey : IndexDeleted (types.take field) (t.keyTrie key) (t'.keyTrie key) word word' ls ls'
      xs :=
    ⟨valid_keyTrie.mpr hdel.valid, hdel.mem, hdel.keep_word, rfl, hdel.node, hdel.root,
      hdel.references⟩
  refine ⟨fun l => ?_, hdel.payload, word', ls', h.inv.indexDeleted hkey, fun l hl => ?_⟩
  · rw [hdel.valid.leafList.live, hmem, h.live]
  · rw [hdel.payload]
    exact h.conf l ((hmem l).mp hl).1

/-- The counter after the groups that agree are gone. -/
theorem references_eq (h : Keys (types.take field) t key word ls)
    (hnodup : ls'.Nodup) (hmem : ∀ l, l ∈ ls' ↔ l ∈ ls ∧ ¬AgreesWith m field (key l)) :
    totalCount t.leaves ls - totalCount t.leaves ls' =
      (ls.countP fun l => decide (AgreesWith m field (key l)) : ℕ) := by
  have htotal : ∀ xs : List ℕ, totalCount t.leaves xs = xs.length := fun xs => by
    simp [totalCount, LeafOps.getCount]
  have hperm : ls'.Perm (ls.filter fun l => !decide (AgreesWith m field (key l))) := by
    rw [List.perm_ext_iff_of_nodup hnodup (h.valid.leafList.nodup.filter _)]
    intro l
    simp [hmem]
  have hsplit := List.length_eq_countP_add_countP (l := ls)
    fun l => decide (AgreesWith m field (key l))
  have hlen := hperm.length_eq
  rw [← List.countP_eq_length_filter] at hlen
  simp only [Bool.not_eq_true] at hsplit
  rw [htotal, htotal, hlen]
  simp only [Bool.decide_eq_false] at hsplit
  omega

/-- A match for group-by fields only. -/
private theorem deleteByIndex_within (h : Keys (types.take field) t key word ls)
    (hm : deleteMatch types args = .ok m) (hle : args.length ≤ field) :
    (t.Removable m field args.length key ∧
      ∃ t', t.deleteByIndex m = .ok t' ∧ DeletesGroups types field m key t t') ∨
    (¬t.Removable m field args.length key ∧ ∀ t', t.deleteByIndex m ≠ .ok t') := by
  obtain ⟨hne, ρ, hty, hfields⟩ := deleteMatch_spec hm
  rw [h.removable_iff, if_pos hle]
  have htake : types.take field =
      args.map (fun x => .item x.type) ++ ρ.take (field - args.length) := by
    rw [hty, List.take_append, List.length_map, List.take_of_length_le (by simpa using hle)]
  have hmtake : m.fields.take field =
      args.map .exact ++ (ρ.take (field - args.length)).map .any := by
    rw [hfields, List.take_append, List.length_map, List.take_of_length_le (by simpa using hle),
      List.map_take]
  have hagrees := fun l (hl : l ∈ ls) => h.agrees_iff hl htake hmtake
  have hdes : ∀ l ∈ ls, LeafOps.destructible (t.leaves.payload l) = true := h.conf
  rcases Meld.Db.deleteByIndex_cases h.valid hdes hfields htake hne with
    ⟨hnil, hok⟩ | ⟨hnone, hok⟩ | ⟨⟨l, hl, ha⟩, t', word', ls', hdel, hok⟩
  · exact .inr ⟨fun hrem => hrem.1 hnil, fun t' => by rw [hok]; nofun⟩
  · have hnone' : ∀ l ∈ ls, ¬AgreesWith m field (key l) := fun l hl =>
      mt (hagrees l hl).mpr (hnone l hl)
    by_cases hrefs : ls ≠ [] ∧ t.numberOfReferences ≠ 0
    · refine .inl ⟨⟨hrefs.1, hrefs.2, fun ⟨l, hl, ha⟩ => absurd ha (hnone' l hl)⟩, t, ?_,
        h.deletesGroups_self hnone'⟩
      rw [hok, assert_pos hrefs]
      rfl
    · refine .inr ⟨fun hrem => hrefs ⟨hrem.1, hrem.2.1⟩, fun t' => ?_⟩
      rw [hok, assert_neg hrefs]
      nofun
  · have hmem : ∀ l, l ∈ ls' ↔ l ∈ ls ∧ ¬AgreesWith m field (key l) := fun l => by
      rw [hdel.mem]
      exact and_congr_right fun hl => not_congr (hagrees l hl)
    have href : t'.numberOfReferences = t.referencesWithout m field key ls := by
      rw [hdel.references, h.references_eq hdel.valid.leafList.nodup hmem]
      rfl
    have hnil : ls' = [] ↔ ∀ l ∈ ls, AgreesWith m field (key l) := by
      simp [List.eq_nil_iff_forall_not_mem, hmem]
    have hsome : ∃ l ∈ ls, AgreesWith m field (key l) := ⟨l, hl, (hagrees l hl).mp ha⟩
    rw [href] at hok
    simp only [← hnil]
    by_cases hrefs : t.numberOfReferences ≠ 0 ∧ 0 ≤ t.referencesWithout m field key ls ∧
        (t.referencesWithout m field key ls = 0 ↔ ls' = [])
    · refine .inl ⟨⟨List.ne_nil_of_mem hl, hrefs.1, fun _ => hrefs.2⟩, t', ?_,
        h.deletesGroups hagrees hdel⟩
      rw [hok, assert_pos hrefs.1, assert_pos hrefs.2.1, assert_pos hrefs.2.2]
      rfl
    · refine .inr ⟨fun hrem => hrefs ⟨hrem.2.1, hrem.2.2 hsome⟩, fun t' hrun => hrefs ?_⟩
      simp only [hok, bind_eq_ok, assert_eq_ok] at hrun
      obtain ⟨-, h₁, -, h₂, -, h₃, -⟩ := hrun
      exact ⟨h₁, h₂, h₃⟩

/-- A match for more fields than the group-by fields. -/
private theorem deleteByIndex_beyond (h : Keys (types.take field) t key word ls)
    (hm : deleteMatch types args = .ok m) (hlt : field < args.length) :
    (t.Removable m field args.length key ∧
      ∃ t', t.deleteByIndex m = .ok t' ∧ DeletesGroups types field m key t t') ∨
    (¬t.Removable m field args.length key ∧ ∀ t', t.deleteByIndex m ≠ .ok t') := by
  obtain ⟨-, ρ, hty, hfields⟩ := deleteMatch_spec hm
  rw [h.removable_iff, if_neg (not_le.mpr hlt)]
  have hsplit : args = args.take field ++ args[field] :: args.drop (field + 1) := by
    rw [List.getElem_cons_drop, List.take_append_drop]
  have hlen : ((args.take field).map fun x => FieldType.item x.type).length = field := by
    simp [hlt.le]
  have htake : types.take field = (args.take field).map fun x => .item x.type := by
    rw [hty, hsplit, List.map_append, List.append_assoc, List.take_left' hlen]
    simp
  have hmtake : m.fields.take field =
      (args.take field).map .exact ++ ([] : List FieldType).map .any := by
    rw [hfields, List.take_append_of_le_length (by simpa using hlt.le), ← List.map_take,
      List.map_nil, List.append_nil]
  have hagrees := fun l (hl : l ∈ ls) => h.agrees_iff hl (by simpa using htake) hmtake
  have hm' : m.fields = (args.take field).map .exact ++
      .exact args[field] :: ((args.drop (field + 1)).map .exact ++ ρ.map .any) := by
    rw [hfields]
    conv_lhs => rw [hsplit]
    simp only [List.map_append, List.map_cons, List.append_assoc, List.cons_append]
  rcases deleteByIndex_past h.valid hm' htake with ⟨hsome, hok⟩ | ⟨hne, hnone, hok⟩
  · refine .inr ⟨fun hrem => ?_, fun t' => by rw [hok]; nofun⟩
    rcases hsome with hnil | ⟨l, hl, ha⟩
    · exact hrem.1 hnil
    · exact hrem.2.2 l hl ((hagrees l hl).mp ha)
  · have hnone' : ∀ l ∈ ls, ¬AgreesWith m field (key l) := fun l hl =>
      mt (hagrees l hl).mpr (hnone l hl)
    by_cases hrefs : t.numberOfReferences = 0
    · refine .inr ⟨fun hrem => hrem.2.1 hrefs, fun t' => ?_⟩
      rw [hok, assert_neg (by simpa using hrefs)]
      nofun
    · refine .inl ⟨⟨hne, hrefs, hnone'⟩, t, ?_, h.deletesGroups_self hnone'⟩
      rw [hok, assert_pos hrefs]
      rfl

/-- `delete_by_index` on the trie of the groups removes those that agree with the match, or fails
an assertion. -/
theorem deleteByIndex_spec (h : Keys (types.take field) t key word ls)
    (hm : deleteMatch types args = .ok m) :
    (t.Removable m field args.length key ∧
      ∃ t', t.deleteByIndex m = .ok t' ∧ DeletesGroups types field m key t t') ∨
    (¬t.Removable m field args.length key ∧ ∀ t', t.deleteByIndex m ≠ .ok t') := by
  rcases le_or_gt args.length field with hle | hlt
  · exact h.deleteByIndex_within hm hle
  · exact h.deleteByIndex_beyond hm hlt

end Keys

end

end AggTrie

/-! ### The trie of the tuples -/

namespace TupleTrie

variable {types : List FieldType} {t : TupleTrie} {word : Words} {ls : List ℕ} {args : List Item}
  {m : Match}

/-- `delete_by_index` on the trie of the tuples returns, or fails an assertion. -/
theorem Inv.deleteByIndex_spec (h : Inv types t word ls) (hm : deleteMatch types args = .ok m) :
    (t.Removable m ∧ ∃ t', t.deleteByIndex m = .ok t') ∨
    (¬t.Removable m ∧ ∀ t', t.deleteByIndex m ≠ .ok t') := by
  have hls := h.valid.leafList
  have hiff : t.Removable m ↔ ls ≠ [] ∧ t.numberOfReferences ≠ 0 ∧
      ((∃ l ∈ ls, m.accepts (t.leaves.payload l).tpl) → 0 ≤ t.referencesWithout m ls ∧
        (t.referencesWithout m ls = 0 ↔ ∀ l ∈ ls, m.accepts (t.leaves.payload l).tpl)) := by
    constructor
    · rintro ⟨ls', hls', hrem⟩
      obtain rfl : ls = ls' :=
        hls.linked.unique hls'.linked (hls.first_eq.symm.trans hls'.first_eq)
      exact hrem
    · exact fun hrem => ⟨ls, hls, hrem⟩
  rw [hiff]
  rcases deleteByIndex_cases h hm with
    ⟨hnil, hok⟩ | ⟨hnone, hok⟩ | ⟨hsome, t', word', ls', hinv, hmem, -, -, href, hok⟩
  · exact .inr ⟨fun hrem => hrem.1 hnil, fun t' => by rw [hok]; nofun⟩
  · by_cases hrefs : ls ≠ [] ∧ t.numberOfReferences ≠ 0
    · refine .inl ⟨⟨hrefs.1, hrefs.2, fun ⟨l, hl, ha⟩ => absurd ha (hnone l hl)⟩, t, ?_⟩
      rw [hok, assert_pos hrefs]
      rfl
    · refine .inr ⟨fun hrem => hrefs ⟨hrem.1, hrem.2.1⟩, fun t' => ?_⟩
      rw [hok, assert_neg hrefs]
      nofun
  · rw [totalCount_sub hls.nodup hinv.valid.leafList.nodup hmem] at href
    have hnil : ls' = [] ↔ ∀ l ∈ ls, m.accepts (t.leaves.payload l).tpl := by
      simp [List.eq_nil_iff_forall_not_mem, hmem]
    have href' : t'.numberOfReferences = t.referencesWithout m ls := href
    rw [href'] at hok
    simp only [← hnil]
    obtain ⟨l, hl, ha⟩ := hsome
    by_cases hrefs : t.numberOfReferences ≠ 0 ∧ 0 ≤ t.referencesWithout m ls ∧
        (t.referencesWithout m ls = 0 ↔ ls' = [])
    · refine .inl ⟨⟨List.ne_nil_of_mem hl, hrefs.1, fun _ => hrefs.2⟩, t', ?_⟩
      rw [hok, assert_pos hrefs.1, assert_pos hrefs.2.1, assert_pos hrefs.2.2]
      rfl
    · refine .inr ⟨fun hrem => hrefs ⟨hrem.2.1, hrem.2.2 ⟨l, hl, ha⟩⟩, fun t' hrun => hrefs ?_⟩
      simp only [hok, bind_eq_ok, assert_eq_ok] at hrun
      obtain ⟨-, h₁, -, h₂, -, h₃, -⟩ := hrun
      exact ⟨h₁, h₂, h₃⟩

end TupleTrie

/-! ### Both tries -/

namespace AggNode

variable {F : FloatOps} {types : List FieldType} {typ : AggregateType} {field : ℕ}
  {node node' : AggNode} {key : ℕ → List Value} {args : List Item} {m : Match}

/-- `delete_by_index` returns when it does on both tries. -/
theorem deleteByIndex_eq_ok : node.deleteByIndex m = .ok node' ↔
    ∃ tuples, node.tuples.deleteByIndex m = .ok tuples ∧
      ((node.aggs = none ∧ node' = ⟨tuples, none⟩) ∨
        ∃ t t', node.aggs = some t ∧ t.deleteByIndex m = .ok t' ∧ node' = ⟨tuples, some t'⟩) := by
  rw [deleteByIndex, bind_eq_ok]
  refine exists_congr fun tuples => and_congr_right fun _ => ?_
  cases hagg : node.aggs with
  | none => simp [eq_comm]
  | some t =>
    constructor
    · intro hrun
      obtain ⟨t', hok, hrun⟩ := bind_eq_ok.mp hrun
      cases hrun
      exact .inr ⟨t, t', rfl, hok, rfl⟩
    · rintro (⟨hnone, -⟩ | ⟨_, t', ht, hok, rfl⟩)
      · cases hnone
      · cases ht
        exact bind_eq_ok.mpr ⟨t', hok, rfl⟩

/-- In every run both tries have their invariant. -/
theorem Run.inv (h : Run F types typ field node key) :
    (∃ word ls, TupleTrie.Inv types node.tuples word ls) ∧
      ∀ t, node.aggs = some t → ∃ word ls, AggTrie.Keys (types.take field) t key word ls := by
  induction h with
  | new => exact ⟨⟨_, [], Tree.new types, by simp, by simp⟩, nofun⟩
  | store _ hop hrun ih =>
    obtain ⟨⟨word, ls, hinv⟩, hkeys⟩ := ih
    obtain ⟨word', ls', hinv', -⟩ := hinv.op hop hrun
    exact ⟨⟨word', ls', hinv'⟩, hkeys⟩
  | @addAggTuple node _ key tpl many _ htpl hrun ih =>
    obtain ⟨hinv, hkeys⟩ := ih
    obtain ⟨t, hadd, hrun⟩ := bind_eq_ok.mp hrun
    cases hrun
    refine ⟨hinv, fun t' ht' => ?_⟩
    cases ht'
    -- the first tuple makes the trie of the groups
    have hgroups : ∃ word ls, AggTrie.Keys (types.take field) node.groups key word ls := by
      cases hagg : node.aggs with
      | none =>
        rw [groups, hagg]
        exact ⟨_, _, AggTrie.Keys.new _ key⟩
      | some t =>
        rw [groups, hagg]
        exact hkeys t hagg
    obtain ⟨word, ls, hk⟩ := hgroups
    exact hk.addToSet htpl hadd
  | @endIteration node _ key cont _ hrun ih =>
    obtain ⟨hinv, hkeys⟩ := ih
    rw [AggNode.endIteration] at hrun
    cases hagg : node.aggs with
    | none =>
      rw [hagg] at hrun
      cases hrun
      exact ⟨hinv, hkeys⟩
    | some t =>
      rw [hagg] at hrun
      obtain ⟨⟨t', cont'⟩, hgen, hrun⟩ := bind_eq_ok.mp hrun
      cases hrun
      obtain ⟨word, ls, hk⟩ := hkeys t hagg
      refine ⟨hinv, fun t₁ ht₁ => ?_⟩
      cases ht₁
      exact ⟨word, ls, hk.generateFrom hgen⟩
  | deleteByIndex _ hm hrun ih =>
    obtain ⟨⟨word, ls, hinv⟩, hkeys⟩ := ih
    obtain ⟨tuples, hdel, hrun⟩ := deleteByIndex_eq_ok.mp hrun
    obtain ⟨word', ls', hinv', -⟩ := hinv.deleteByIndex hm hdel
    rcases hrun with ⟨-, rfl⟩ | ⟨t, t', hagg, hgroups, rfl⟩
    · exact ⟨⟨word', ls', hinv'⟩, nofun⟩
    · refine ⟨⟨word', ls', hinv'⟩, fun t₁ ht₁ => ?_⟩
      cases ht₁
      obtain ⟨word₁, ls₁, hk⟩ := hkeys t hagg
      rcases hk.deleteByIndex_spec hm with ⟨-, t₂, hok, hd⟩ | ⟨-, herr⟩
      · rw [hgroups, Except.ok.injEq] at hok
        exact hok ▸ hd.keys
      · exact absurd hgroups (herr t')

/-- Whatever `delete_by_index` returns is without the groups that agree with the match, and has the
others. -/
theorem Run.deletesGroups (h : Run F types typ field node key)
    (hm : deleteMatch types args = .ok m) (hrun : node.deleteByIndex m = .ok node') :
    node.DeletesGroups types field m key node' := by
  obtain ⟨-, hkeys⟩ := h.inv
  obtain ⟨tuples, -, hrun⟩ := deleteByIndex_eq_ok.mp hrun
  rcases hrun with ⟨hnone, rfl⟩ | ⟨t, t', hagg, hgroups, rfl⟩
  · exact ⟨fun _ => rfl, fun t ht => by simp [hnone] at ht⟩
  · refine ⟨fun hnone => by simp [hagg] at hnone, fun t₁ ht₁ => ?_⟩
    rw [hagg, Option.some.injEq] at ht₁
    subst ht₁
    obtain ⟨word, ls, hk⟩ := hkeys t hagg
    rcases hk.deleteByIndex_spec hm with ⟨-, t₂, hok, hd⟩ | ⟨-, herr⟩
    · rw [hgroups, Except.ok.injEq] at hok
      exact ⟨t', rfl, hok ▸ hd⟩
    · exact absurd hgroups (herr t')

/-- When `delete_by_index` removes the groups that agree with the match, and nothing else, from the
trie of the groups. -/
theorem deletesGroups_iff (h : Run F types typ field node key)
    (hm : deleteMatch types args = .ok m) :
    (∃ node', node.deleteByIndex m = .ok node' ∧ node.DeletesGroups types field m key node') ↔
      node.tuples.Removable m ∧ ∀ t, node.aggs = some t → t.Removable m field args.length key := by
  obtain ⟨⟨word, ls, hinv⟩, hkeys⟩ := h.inv
  constructor
  · rintro ⟨node', hrun, -⟩
    obtain ⟨tuples, hdel, hrun⟩ := deleteByIndex_eq_ok.mp hrun
    refine ⟨?_, fun t ht => ?_⟩
    · rcases hinv.deleteByIndex_spec hm with ⟨hrem, -⟩ | ⟨-, herr⟩
      · exact hrem
      · exact absurd hdel (herr tuples)
    · rcases hrun with ⟨hnone, -⟩ | ⟨t₁, t', hagg, hgroups, -⟩
      · simp [ht] at hnone
      · rw [ht, Option.some.injEq] at hagg
        subst hagg
        obtain ⟨word₁, ls₁, hk⟩ := hkeys t ht
        rcases hk.deleteByIndex_spec hm with ⟨hrem, -⟩ | ⟨-, herr⟩
        · exact hrem
        · exact absurd hgroups (herr t')
  · rintro ⟨htuples, hgroups⟩
    obtain ⟨node', hrun⟩ : ∃ node', node.deleteByIndex m = .ok node' := by
      rcases hinv.deleteByIndex_spec hm with ⟨-, tuples, hdel⟩ | ⟨hno, -⟩
      · cases hagg : node.aggs with
        | none =>
          exact ⟨⟨tuples, none⟩, deleteByIndex_eq_ok.mpr ⟨tuples, hdel, .inl ⟨hagg, rfl⟩⟩⟩
        | some t =>
          obtain ⟨word₁, ls₁, hk⟩ := hkeys t hagg
          rcases hk.deleteByIndex_spec hm with ⟨-, t', hok, -⟩ | ⟨hno, -⟩
          · exact ⟨⟨tuples, some t'⟩,
              deleteByIndex_eq_ok.mpr ⟨tuples, hdel, .inr ⟨t, t', hagg, hok, rfl⟩⟩⟩
          · exact absurd (hgroups t hagg) hno
      · exact absurd htuples hno
    exact ⟨node', hrun, h.deletesGroups hm hrun⟩

end AggNode

/-! ### Two groups -/

/-- The fact `[1, 5]` of a predicate with a key and a number, the maximum of which is taken. -/
private def oneFive : List Value := [.item (.int 1), .item (.int 5)]

/-- The fact `[2, 3]`, of another group. -/
private def twoThree : List Value := [.item (.int 2), .item (.int 3)]

private theorem typed_oneFive : TupleTrie.Typed [.item .int, .item .int] oneFive :=
  ⟨rfl, by simp [oneFive, Value.Ok]⟩

private theorem typed_twoThree : TupleTrie.Typed [.item .int, .item .int] twoThree :=
  ⟨rfl, by simp [twoThree, Value.Ok]⟩

/-- The call fails an assertion. -/
private def fails {α : Type} : Exec α → Bool
  | .ok _ => false
  | .error e => decide (e = .assertion)

private theorem eq_error_of_fails {α : Type} {x : Exec α} (h : fails x = true) :
    x = .error .assertion := by
  cases x with
  | ok a => cases h
  | error e => exact congrArg _ (of_decide_eq_true h)

/-- Arithmetic of floats that is never used. -/
private def noFloats : FloatOps := ⟨fun _ _ => false, fun a _ => a⟩

/-- The facts arrive, `generate` emits them, and they are stored. -/
private def twoGroupsRun : Exec (AggNode × AggNode × (AggNode × List Emission) ×
    (TupleTrie × Bool) × (TupleTrie × Bool)) := do
  let node₁ ← AggNode.addAggTuple 1 oneFive 1 ⟨Trie.new, none⟩
  let node₂ ← node₁.addAggTuple 1 twoThree 1
  let r ← node₂.endIteration noFloats .maxInt 1
  let t₁ ← (TupleTrie.Op.insert oneFive 1).run r.1.tuples
  let t₂ ← (TupleTrie.Op.insert twoThree 1).run t₁.1
  pure (node₁, node₂, r, t₁, t₂)

/-- The node with both facts. -/
private def twoGroups : Exec AggNode := do
  let r ← twoGroupsRun
  pure { r.2.2.1.1 with tuples := r.2.2.2.2.1 }

/-- The match of the DELETE of the group `1`, and the one of the DELETE of the tuple `[1, 5]`. -/
private def groupOne : Match := ⟨[.exact (.int 1), .any (.item .int)], true, by simp⟩

private def tupleOneFive : Match := ⟨[.exact (.int 1), .exact (.int 5)], true, by simp⟩

private theorem run_twoGroups {node : AggNode} (hrun : twoGroups = .ok node) :
    ∃ key : ℕ → List Value, AggNode.Run noFloats [.item .int, .item .int] .maxInt 1 node key := by
  obtain ⟨x, hfacts, hnode⟩ := bind_eq_ok.mp hrun
  cases hnode
  clear hrun
  unfold twoGroupsRun at hfacts
  obtain ⟨n₁, h₁, hrun⟩ := bind_eq_ok.mp hfacts
  obtain ⟨n₂, h₂, hrun⟩ := bind_eq_ok.mp hrun
  obtain ⟨r', h₃, hrun⟩ := bind_eq_ok.mp hrun
  obtain ⟨u₁, h₄, hrun⟩ := bind_eq_ok.mp hrun
  obtain ⟨u₂, h₅, hrun⟩ := bind_eq_ok.mp hrun
  cases hrun
  have hfits : ∀ t, (TupleTrie.Op.insert oneFive 1).Fits [.item .int, .item .int] t := fun _ =>
    ⟨typed_oneFive, by decide, by simp [maxShort]⟩
  have hfits' : ∀ t, (TupleTrie.Op.insert twoThree 1).Fits [.item .int, .item .int] t := fun _ =>
    ⟨typed_twoThree, by decide, by simp [maxShort]⟩
  have hnew : AggNode.Run noFloats [.item .int, .item .int] .maxInt 1 ⟨Trie.new, none⟩
      fun _ => [] := .new
  have hadd := (hnew.addAggTuple typed_oneFive h₁).addAggTuple typed_twoThree h₂
  exact ⟨_, ((hadd.endIteration h₃).store (hfits _) h₄).store (hfits' _) h₅⟩

namespace AggNode

/-- The DELETE of the group `1` removes it, and its tuple, and keeps the other group. -/
theorem deletesGroups_iff_groupOne : ∃ (F : FloatOps) (node node' : AggNode)
    (key : ℕ → List Value) (m : Match), Run F [.item .int, .item .int] .maxInt 1 node key ∧
      deleteMatch [.item .int, .item .int] [.int 1] = .ok m ∧ node.deleteByIndex m = .ok node' ∧
      node.aggs.map Trie.numberOfReferences = some 2 ∧ node.tuples.numberOfReferences = 2 ∧
      node'.aggs.map Trie.numberOfReferences = some 1 ∧ node'.tuples.numberOfReferences = 1 ∧
      node.DeletesGroups [.item .int, .item .int] 1 m key node' ∧
      node.tuples.Removable m ∧ ∀ t, node.aggs = some t → t.Removable m 1 1 key := by
  have hm : deleteMatch [.item .int, .item .int] [.int 1] = .ok groupOne := rfl
  obtain ⟨⟨node, node'⟩, hrun, hvals⟩ := exists_ok_of_map
    (x := do
      let node ← twoGroups
      let node' ← node.deleteByIndex groupOne
      pure (node, node'))
    (f := fun r => decide (r.1.aggs.map Trie.numberOfReferences = some 2 ∧
      r.1.tuples.numberOfReferences = 2 ∧ r.2.aggs.map Trie.numberOfReferences = some 1 ∧
      r.2.tuples.numberOfReferences = 1)) (b := true) (by decide +kernel)
  obtain ⟨n, hnode, hrun⟩ := bind_eq_ok.mp hrun
  obtain ⟨n', hdel, hrun⟩ := bind_eq_ok.mp hrun
  cases hrun
  obtain ⟨haggs, hrefs, haggs', hrefs'⟩ := of_decide_eq_true hvals
  obtain ⟨key, hreach⟩ := run_twoGroups hnode
  have hgroups := hreach.deletesGroups hm hdel
  exact ⟨noFloats, node, node', key, groupOne, hreach, hm, hdel, haggs, hrefs, haggs', hrefs',
    hgroups, (deletesGroups_iff hreach hm).mp ⟨node', hdel, hgroups⟩⟩

/-- The DELETE of the tuple `[1, 5]`, whose second field is the aggregated one, fails an
assertion. -/
theorem not_deletesGroups_oneFive : ∃ (F : FloatOps) (node : AggNode) (key : ℕ → List Value)
    (m : Match), Run F [.item .int, .item .int] .maxInt 1 node key ∧ node.aggs.isSome = true ∧
      deleteMatch [.item .int, .item .int] [.int 1, .int 5] = .ok m ∧
      node.deleteByIndex m = .error .assertion := by
  have hm : deleteMatch [.item .int, .item .int] [.int 1, .int 5] = .ok tupleOneFive := rfl
  obtain ⟨node, hnode, hvals⟩ := exists_ok_of_map (x := twoGroups)
    (f := fun n => decide (n.aggs.isSome = true ∧ fails (n.deleteByIndex tupleOneFive) = true))
    (b := true) (by decide +kernel)
  obtain ⟨hsome, hfails⟩ := of_decide_eq_true hvals
  obtain ⟨key, hreach⟩ := run_twoGroups hnode
  exact ⟨noFloats, node, key, tupleOneFive, hreach, hsome, hm, eq_error_of_fails hfails⟩

end AggNode

end Meld.Db
