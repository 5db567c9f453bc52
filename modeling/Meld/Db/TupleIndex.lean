import Meld.Db.TrieIndex
import Meld.Db.TupleBag

/-!
# Deleting tuples by index

`Reachable` are the tries that the operations lead to, whatever their counts: a count that leaves
its range wraps around, and a run ends at a failed assertion. All of them have the invariant.
`deleteByIndex_iff` says when `delete_by_index` does on such a trie what it is for.
-/

namespace Meld.Db

open Meld.Lib Meld.Vm

namespace TupleTrie

/-- The operations with arguments of the right types. -/
def Op.Fits (types : List FieldType) (t : TupleTrie) : Op → Prop
  | .insert tpl n => Typed types tpl ∧ 0 < n ∧ (n : ℤ) ≤ maxShort
  | .delete tpl n => Typed types tpl ∧ 0 < n ∧ (n : ℤ) ≤ maxShort
  | .deleteByLeaf l => t.leaves.arena.live l = true

/-- The tries of a predicate that runs of operations lead to. -/
inductive Reachable (types : List FieldType) : TupleTrie → Prop
  | new : Reachable types Trie.new
  | op {t t' : TupleTrie} {op : Op} {b : Bool} (h : Reachable types t) (hop : op.Fits types t)
      (hrun : op.run t = .ok (t', b)) : Reachable types t'
  | deleteByIndex {t t' : TupleTrie} {args : List Item} {m : Match} (h : Reachable types t)
      (hm : deleteMatch types args = .ok m) (hrun : t.deleteByIndex m = .ok t') :
      Reachable types t'

variable {types : List FieldType} {t t' : TupleTrie} {word word' : Words} {ls ls' : List ℕ}
  {tpl : List Value} {l : ℕ} {xs ys : List Item} {ρ : List FieldType} {m : Match}

/-! ### The invariant -/

/-- The operations insert narrow fields only. -/
def Op.Narrow : Op → Prop
  | .insert tpl _ => ∀ f ∈ levels tpl, f.Narrow
  | _ => True

theorem Inv.op (h : Inv types t word ls) {op : Op} {b : Bool} (hop : op.Fits types t)
    (hrun : op.run t = .ok (t', b)) : ∃ (word' : Words) (ls' : List ℕ), Inv types t' word' ls' ∧
      (NarrowTree t.nodes word → op.Narrow → NarrowTree t'.nodes word') := by
  cases op with
  | insert tpl n =>
    obtain ⟨htpl, hn, -⟩ := hop
    rcases insertTuple_cases h htpl (Int.natCast_pos.mpr hn) with
      ⟨l, hf, hok⟩ | ⟨habs, t₁, word₁, b₁, path, hinv, -, hnarrow, hok⟩
    · simp only [Op.run, hok, bind_eq_ok, pure_eq_ok, Except.ok.injEq, Prod.mk.injEq] at hrun
      obtain ⟨r, -, -, -, rfl, -⟩ := hrun
      exact ⟨word, ls, (h.counted l n).withRefs r, fun hn _ => hn⟩
    · simp only [Op.run, hok, bind_eq_ok, pure_eq_ok, Except.ok.injEq, Prod.mk.injEq] at hrun
      obtain ⟨r, -, -, -, rfl, -⟩ := hrun
      exact ⟨word₁, _, hinv, hnarrow⟩
  | delete tpl n =>
    obtain ⟨htpl, hn, -⟩ := hop
    simp only [Op.run, bind_eq_ok, pure_eq_ok, Except.ok.injEq, Prod.mk.injEq] at hrun
    obtain ⟨⟨t₁, info⟩, hdel, t₂, hcommit, rfl, -⟩ := hrun
    rcases deleteTuple_cases h htpl (Int.natCast_pos.mpr hn) with ⟨l, hf, hok⟩ | ⟨habs, hok⟩
    · rw [hok, bind_eq_ok] at hdel
      obtain ⟨-, -, hdel⟩ := hdel
      split_ifs at hdel with hzero
      · rw [pure_eq_ok, Except.ok.injEq, Prod.mk.injEq] at hdel
        obtain ⟨rfl, rfl⟩ := hdel
        have hcount := h.counted l (-n)
        -- the count is zero, and the leaf goes with its nodes
        obtain ⟨t', word', hrem, hc⟩ := commitDelete_spec hcount hf.mem hzero n
        have hres : t₂ = t' := by
          have hcm := hcommit
          change Trie.commitDelete _ _ _ = _ at hcm
          rw [show (t.leaves.node l) = (t.counted l (-n)).leaves.node l from rfl, hc] at hcm
          simp only [bind_eq_ok, pure_eq_ok, Except.ok.injEq] at hcm
          obtain ⟨r, -, -, -, -, -, rfl⟩ := hcm
          rfl
        have hbefore := hcount.withRefs ((t.counted l (-n)).numberOfReferences - n)
        exact ⟨word', _, hres ▸ hbefore.removed hrem,
          fun hn _ => hres ▸ narrowTree_removed hbefore.valid hn hrem⟩
      · simp only [bind_eq_ok, pure_eq_ok, Except.ok.injEq, Prod.mk.injEq] at hdel
        obtain ⟨r, -, rfl, rfl⟩ := hdel
        rw [commit, pure_eq_ok, Except.ok.injEq] at hcommit
        exact ⟨word, ls, hcommit ▸ (h.counted l (-n)).withRefs r, fun hn _ => hcommit ▸ hn⟩
    · simp only [hok, bind_eq_ok, pure_eq_ok, Except.ok.injEq, Prod.mk.injEq] at hdel
      obtain ⟨-, -, -, -, rfl, rfl⟩ := hdel
      rw [commit, pure_eq_ok, Except.ok.injEq] at hcommit
      exact ⟨word, ls, hcommit ▸ h, fun hn _ => hcommit ▸ hn⟩
  | deleteByLeaf l =>
    have hl := (h.valid.leafList.live l).mp hop
    simp only [Op.run, bind_eq_ok, pure_eq_ok, Except.ok.injEq, Prod.mk.injEq] at hrun
    obtain ⟨t₁, hdel, rfl, -⟩ := hrun
    rcases deleteByLeaf_cases h hl with ⟨-, hok⟩ | ⟨-, t', word', hrem, hok⟩
    · simp only [hok, bind_eq_ok, pure_eq_ok, Except.ok.injEq] at hdel
      obtain ⟨r, -, -, -, rfl⟩ := hdel
      exact ⟨word, ls, (h.counted l (-1)).withRefs r, fun hn _ => hn⟩
    · simp only [hok, bind_eq_ok, pure_eq_ok, Except.ok.injEq] at hdel
      obtain ⟨r, -, -, -, rfl⟩ := hdel
      -- so does a leaf whose last reference is taken
      have hbefore := (h.counted l (-1)).withRefs (t.numberOfReferences - 1)
      exact ⟨word', _, hbefore.removed hrem,
        fun hn _ => narrowTree_removed hbefore.valid hn hrem⟩

/-! ### Agreement with the first fields -/

/-- A stored field that spells a scalar is compared like the scalar. -/
private theorem sameAs_of_spells {d : TupleField} {x y : Item}
    (h : d = .item y ∨ d.sameAs (.item y) = true) : d.sameAs (.item x) = y.eq x := by
  rcases h with rfl | h
  · rfl
  · cases d with
    | ptr p => simp [TupleField.sameAs] at h
    | item z =>
      change z.eq y = true at h
      change z.eq x = y.eq x
      rw [Bool.eq_iff_iff]
      exact ⟨Item.eq_trans (Item.eq_symm h), Item.eq_trans h⟩

private theorem follows_of_spells {w : List TupleField} (h : Spells w (ys.map .item)) :
    Trie.Follows w (xs.map .item) ↔ List.Forall₂ (fun x y => y.eq x = true) xs ys := by
  induction ys generalizing w xs with
  | nil =>
    cases h
    cases xs <;> simp
  | cons y ys ih =>
    cases h with
    | cons hd htl =>
      cases xs with
      | nil => simp
      | cons x xs =>
        rw [List.map_cons, Trie.follows_cons, sameAs_of_spells hd, ih htl, List.forall₂_cons]

/-- A tuple whose first fields are scalars. -/
private theorem exists_items (hty : tpl.map Value.type = xs.map (fun x => .item x.type) ++ ρ) :
    ∃ (ys : List Item) (rest : List Value), tpl = ys.map .item ++ rest ∧
      ys.length = xs.length ∧ rest.map Value.type = ρ := by
  induction xs generalizing tpl with
  | nil => exact ⟨[], tpl, rfl, rfl, by simpa using hty⟩
  | cons x xs ih =>
    cases tpl with
    | nil => simp at hty
    | cons v tpl =>
      rw [List.map_cons, List.map_cons, List.cons_append, List.cons.injEq] at hty
      obtain ⟨ys, rest, rfl, hlen, hrest⟩ := ih hty.2
      cases v with
      | item y => exact ⟨y :: ys, rest, rfl, by simp [hlen], hrest⟩
      | list τ l => simp [Value.type] at hty
      | string p => simp [Value.type] at hty

private theorem accepts_iff {rest : List Value} {fs : List MatchField}
    (hfs : fs = xs.map .exact ++ ρ.map .any) (hlen : ys.length = xs.length)
    (hrest : rest.length = ρ.length) :
    List.Forall₂ (fun f v => f.accepts v = true) fs (ys.map .item ++ rest) ↔
      List.Forall₂ (fun x y => y.eq x = true) xs ys := by
  have hany : List.Forall₂ (fun (f : MatchField) v => f.accepts v = true) (ρ.map .any) rest := by
    rw [List.forall₂_map_left_iff]
    clear hfs
    induction ρ generalizing rest with
    | nil =>
      rw [List.length_nil, List.length_eq_zero_iff] at hrest
      exact hrest ▸ .nil
    | cons τ ρ ih =>
      cases rest with
      | nil => simp at hrest
      | cons v rest => exact .cons rfl (ih (by simpa using hrest))
  rw [hfs]
  clear hfs
  induction xs generalizing ys with
  | nil =>
    rw [List.length_nil, List.length_eq_zero_iff] at hlen
    subst hlen
    simpa using hany
  | cons x xs ih =>
    cases ys with
    | nil => simp at hlen
    | cons y ys =>
      have hlen' : ys.length = xs.length := by simpa using hlen
      rw [List.map_cons, List.map_cons, List.cons_append, List.cons_append, List.forall₂_cons,
        List.forall₂_cons]
      exact and_congr Iff.rfl (ih hlen')

/-- The leaves that agree with the values of the first fields are those whose tuples the match
fields accept. -/
theorem Inv.agrees_iff (h : Inv types t word ls) (hl : l ∈ ls) {fs : List MatchField}
    (hty : types = xs.map (fun x => .item x.type) ++ ρ)
    (hfs : fs = xs.map .exact ++ ρ.map .any) :
    Agrees t word xs l ↔
      List.Forall₂ (fun f v => f.accepts v = true) fs (t.leaves.payload l).tpl := by
  obtain ⟨ys, rest, htpl, hlen, hrest⟩ := exists_items ((h.typed l hl).types.trans hty)
  obtain ⟨w, hw, hs⟩ := h.spells l hl
  have hitems : levels (ys.map .item) = ys.map .item := by
    clear htpl hlen
    induction ys with
    | nil => rfl
    | cons y ys ih =>
      rw [List.map_cons, levels_cons, show (Value.item y).pushed = [] from rfl, List.nil_append, ih]
      rfl
  rw [htpl, levels_append, hitems] at hs
  have htake : Spells (w.take xs.length) (ys.map .item) := by
    have := List.forall₂_take xs.length hs
    rwa [List.take_left' (by simp [hlen])] at this
  rw [htpl, accepts_iff hfs hlen (by rw [← hrest, List.length_map]), ← follows_of_spells htake]
  constructor
  · rintro ⟨w', hw', hfol⟩
    rw [hw, Option.some.injEq] at hw'
    exact hw' ▸ hfol
  · exact fun hfol => ⟨w, hw, hfol⟩

/-! ### `delete_by_index` on tuples -/

/-- The invariant after leaves that agree with values are gone. -/
theorem Inv.indexDeleted (h : Inv types t word ls)
    (hdel : IndexDeleted types t t' word word' ls ls' xs) : Inv types t' word' ls' where
  valid := hdel.valid
  typed x hx := by
    rw [hdel.payload]
    exact h.typed x ((hdel.mem x).mp hx).1
  spells x hx := by
    obtain ⟨w, hw, hs⟩ := h.spells x ((hdel.mem x).mp hx).1
    obtain ⟨w', hw'⟩ := Option.isSome_iff_exists.mp (hdel.valid.leafNodes.attached x hx).1
    have hkeep := hdel.keep_word _ _ hw'
    rw [hdel.node, hw, Option.some.injEq] at hkeep
    exact ⟨w', hw', by rw [hdel.payload]; exact hkeep ▸ hs⟩

/-- What `delete_by_index` does to a trie of tuples, and the assertions it depends on. -/
theorem deleteByIndex_cases (h : Inv types t word ls) {args : List Item}
    (hm : deleteMatch types args = .ok m) :
    (ls = [] ∧ t.deleteByIndex m = .error .assertion) ∨
    ((∀ l ∈ ls, ¬m.accepts (t.leaves.payload l).tpl) ∧ t.deleteByIndex m = (do
      assert (ls ≠ [] ∧ t.numberOfReferences ≠ 0)
      pure t)) ∨
    ((∃ l ∈ ls, m.accepts (t.leaves.payload l).tpl) ∧
      ∃ (t' : TupleTrie) (word' : Words) (ls' : List ℕ), Inv types t' word' ls' ∧
        (∀ l, l ∈ ls' ↔ l ∈ ls ∧ ¬m.accepts (t.leaves.payload l).tpl) ∧
        t'.leaves.payload = t.leaves.payload ∧
        (NarrowTree t.nodes word → NarrowTree t'.nodes word') ∧
        t'.numberOfReferences =
          wrap32 (t.numberOfReferences - (totalCount t.leaves ls - totalCount t.leaves ls')) ∧
        t.deleteByIndex m = (do
          assert (t.numberOfReferences ≠ 0)
          assert (0 ≤ t'.numberOfReferences)
          assert (t'.numberOfReferences = 0 ↔ ls' = [])
          pure t')) := by
  obtain ⟨hne, ρ, hty, hfields⟩ := deleteMatch_spec hm
  have hacc := fun l (hl : l ∈ ls) => h.agrees_iff hl hty hfields
  rcases Meld.Db.deleteByIndex_cases h.valid (fun _ _ => rfl) hfields hty hne with
    hnil | ⟨hnone, hok⟩ | ⟨⟨l, hl, hagree⟩, t', word', ls', hdel, hok⟩
  · exact .inl hnil
  · exact .inr (.inl ⟨fun l hl ha => hnone l hl ((hacc l hl).mpr ha), hok⟩)
  · have hmem : ∀ l, l ∈ ls' ↔ l ∈ ls ∧ ¬m.accepts (t.leaves.payload l).tpl := fun l => by
      rw [hdel.mem]
      exact and_congr_right fun hl => not_congr (hacc l hl)
    refine .inr (.inr ⟨⟨l, hl, (hacc l hl).mp hagree⟩, t', word', ls', h.indexDeleted hdel, hmem,
      hdel.payload, fun hn => ?_, hdel.references, hok⟩)
    rw [Tree.narrowTree_iff hdel.valid]
    intro x hx w hw
    rw [hdel.node] at hw
    exact (Tree.narrowTree_iff h.valid).mp hn x ((hmem x).mp hx).1 w (hdel.keep_word _ _ hw)

/-- `delete_by_index` keeps the invariant. -/
theorem Inv.deleteByIndex (h : Inv types t word ls) {args : List Item}
    (hm : deleteMatch types args = .ok m) (hrun : t.deleteByIndex m = .ok t') :
    ∃ (word' : Words) (ls' : List ℕ), Inv types t' word' ls' ∧
      (NarrowTree t.nodes word → NarrowTree t'.nodes word') := by
  rcases deleteByIndex_cases h hm with
    ⟨-, hok⟩ | ⟨-, hok⟩ | ⟨-, t₁, word', ls', h', -, -, hnarrow, -, hok⟩
  · rw [hok] at hrun
    cases hrun
  · rw [hok] at hrun
    simp only [bind_eq_ok, pure_eq_ok, Except.ok.injEq] at hrun
    obtain ⟨-, -, rfl⟩ := hrun
    exact ⟨word, ls, h, id⟩
  · rw [hok] at hrun
    simp only [bind_eq_ok, pure_eq_ok, Except.ok.injEq] at hrun
    obtain ⟨-, -, -, -, -, -, rfl⟩ := hrun
    exact ⟨word', ls', h', hnarrow⟩

theorem Reachable.inv (h : Reachable types t) :
    ∃ (word : Words) (ls : List ℕ), Inv types t word ls := by
  induction h with
  | new => exact ⟨_, [], Tree.new types, by simp, by simp⟩
  | op _ hop hrun ih =>
    obtain ⟨word, ls, hinv⟩ := ih
    obtain ⟨word', ls', hinv', -⟩ := hinv.op hop hrun
    exact ⟨word', ls', hinv'⟩
  | deleteByIndex _ hm hrun ih =>
    obtain ⟨word, ls, hinv⟩ := ih
    obtain ⟨word', ls', hinv', -⟩ := hinv.deleteByIndex hm hrun
    exact ⟨word', ls', hinv'⟩

/-- A run of operations. -/
def runAll (t : TupleTrie) : List Op → Exec TupleTrie
  | [] => pure t
  | op :: ops => do
    let (t, _) ← op.run t
    runAll t ops

theorem Reachable.runAll {ops : List Op} (h : Reachable types t)
    (hops : ∀ op ∈ ops, ∀ t, op.Fits types t) (hrun : t.runAll ops = .ok t') :
    Reachable types t' := by
  induction ops generalizing t with
  | nil =>
    rw [TupleTrie.runAll, pure_eq_ok, Except.ok.injEq] at hrun
    exact hrun ▸ h
  | cons op ops ih =>
    rw [TupleTrie.runAll, bind_eq_ok] at hrun
    obtain ⟨⟨t₁, b⟩, hop, hrun⟩ := hrun
    exact ih (h.op (hops op (by simp) t) hop) (fun o ho => hops o (by simp [ho])) hrun

/-- The counts of the leaves whose tuples the match accepts, in all. -/
def matchedCount (t : TupleTrie) (m : Match) (ls : List ℕ) : ℤ :=
  totalCount t.leaves (ls.filter fun l => decide (m.accepts (t.leaves.payload l).tpl))

/-- The trie `t'` is `t`, with the leaves `ls`, without the tuples that the match accepts. -/
structure DeletesMatching (types : List FieldType) (t t' : TupleTrie) (m : Match)
    (ls : List ℕ) : Prop where
  leaf : ∀ l, t'.leaves.arena.live l = true ↔
    l ∈ ls ∧ ¬m.accepts (t.leaves.payload l).tpl
  payload : t'.leaves.payload = t.leaves.payload
  references : t'.numberOfReferences = t.numberOfReferences - matchedCount t m ls
  inv : ∃ (word' : Words) (ls' : List ℕ), Inv types t' word' ls'

theorem totalCount_sub (hls : ls.Nodup) (hls' : ls'.Nodup)
    (hmem : ∀ l, l ∈ ls' ↔ l ∈ ls ∧ ¬m.accepts (t.leaves.payload l).tpl) :
    totalCount t.leaves ls - totalCount t.leaves ls' = matchedCount t m ls := by
  have hperm : ls'.Perm (ls.filter fun l => !decide (m.accepts (t.leaves.payload l).tpl)) := by
    rw [List.perm_ext_iff_of_nodup hls' (hls.filter _)]
    intro l
    rw [hmem, List.mem_filter]
    simp
  have hsplit := List.filter_append_perm
    (fun l => decide (m.accepts (t.leaves.payload l).tpl)) ls
  have h₁ := (hperm.map fun l => LeafOps.getCount (t.leaves.payload l)).sum_eq
  have h₂ := (hsplit.map fun l => LeafOps.getCount (t.leaves.payload l)).sum_eq
  rw [List.map_append, List.sum_append] at h₂
  simp only [matchedCount, totalCount]
  omega

/-- When `delete_by_index` removes the matching tuples and nothing else. -/
theorem deleteByIndex_iff {args : List Item} (h : Reachable types t)
    (hm : deleteMatch types args = .ok m) (hls : LeafList t.leaves t.firstLeaf t.lastLeaf ls) :
    (∃ t', t.deleteByIndex m = .ok t' ∧ DeletesMatching types t t' m ls) ↔
      ls ≠ [] ∧ t.numberOfReferences ≠ 0 ∧
      ((∃ l ∈ ls, m.accepts (t.leaves.payload l).tpl) →
        0 ≤ t.numberOfReferences - matchedCount t m ls ∧
        t.numberOfReferences - matchedCount t m ls ≤ maxInt ∧
        (t.numberOfReferences - matchedCount t m ls = 0 ↔
          ∀ l ∈ ls, m.accepts (t.leaves.payload l).tpl)) := by
  obtain ⟨word, ls₀, hinv⟩ := h.inv
  have hls₀ := hinv.valid.leafList
  obtain rfl : ls₀ = ls := hls₀.linked.unique hls.linked (hls₀.first_eq.symm.trans hls.first_eq)
  rcases deleteByIndex_cases hinv hm with
    ⟨hnil, hok⟩ | ⟨hnone, hok⟩ | ⟨hsome, t₁, word₁, ls₁, hinv₁, hmem, hpay, -, href, hok⟩
  · simp [hok, hnil]
  · have hsum : matchedCount t m ls₀ = 0 := by
      rw [matchedCount, List.filter_eq_nil_iff.mpr (by simpa using hnone)]
      rfl
    have hno : ¬∃ l ∈ ls₀, m.accepts (t.leaves.payload l).tpl := by simpa using hnone
    constructor
    · rintro ⟨t', hrun, -⟩
      simp only [hok, bind_eq_ok, assert_eq_ok] at hrun
      obtain ⟨-, ⟨hne, hr⟩, -⟩ := hrun
      exact ⟨hne, hr, fun he => absurd he hno⟩
    · rintro ⟨hne, hr, -⟩
      refine ⟨t, by rw [hok, assert_pos ⟨hne, hr⟩]; rfl, fun l => ?_, rfl, by omega,
        word, ls₀, hinv⟩
      rw [hls₀.live]
      exact (and_iff_left_of_imp fun hl => hnone l hl).symm
  · rw [totalCount_sub hls₀.nodup hinv₁.valid.leafList.nodup hmem] at href
    have hnil : ls₁ = [] ↔ ∀ l ∈ ls₀, m.accepts (t.leaves.payload l).tpl := by
      simp [List.eq_nil_iff_forall_not_mem, hmem]
    have hne : ls₀ ≠ [] := by
      obtain ⟨l, hl, -⟩ := hsome
      exact List.ne_nil_of_mem hl
    constructor
    · rintro ⟨t', hrun, hdel⟩
      simp only [hok, bind_eq_ok, assert_eq_ok, pure_eq_ok, Except.ok.injEq] at hrun
      obtain ⟨-, hr, -, hpos, -, hzero, rfl⟩ := hrun
      have hle := wrap32_le (t.numberOfReferences - matchedCount t m ls₀)
      rw [← href] at hle
      rw [hdel.references] at hpos hle hzero
      exact ⟨hne, hr, fun _ => ⟨hpos, hle, hzero.trans hnil⟩⟩
    · rintro ⟨-, hr, hrange⟩
      obtain ⟨hpos, hle, hzero⟩ := hrange hsome
      rw [wrap32_of_mem (by simp only [maxInt]; omega) hle] at href
      refine ⟨t₁, ?_, fun l => ?_, hpay, href, word₁, ls₁, hinv₁⟩
      · rw [hok, assert_pos hr, assert_pos (by omega), assert_pos (by rw [href, hzero, hnil])]
        rfl
      · rw [hinv₁.valid.leafList.live, hmem]

/-- The DELETE instruction on a predicate without facts fails an assertion. -/
theorem deleteByIndex_empty : ∃ m : Match, deleteMatch [.item .int] [.int 1] = .ok m ∧
    Reachable [.item .int] Trie.new ∧
    (Trie.new : TupleTrie).deleteByIndex m = .error .assertion := by
  have hm : deleteMatch [.item .int] [.int 1] = .ok ⟨[.exact (.int 1)], true, by simp⟩ := rfl
  refine ⟨_, hm, .new, ?_⟩
  rcases deleteByIndex_cases (⟨Tree.new [.item .int], by simp, by simp⟩ : Inv _ Trie.new _ [])
    hm with ⟨-, hok⟩ | ⟨-, hok⟩ | ⟨⟨l, hl, -⟩, -⟩
  · exact hok
  · exact hok
  · cases hl

/-! ### Three tuples -/

/-- Three tuples, of which `[7]` is inserted twice. -/
def sevens : List Op :=
  [.insert [.item (.int 7)] 1, .insert [.item (.int 8)] 2, .insert [.item (.int 9)] 1,
    .insert [.item (.int 7)] 1]

/-- A run of narrow operations leads to a narrow tree. -/
theorem exists_narrow_of_runAll {ops : List Op}
    (h : ∃ (word : Words) (ls : List ℕ), Inv types t word ls ∧ NarrowTree t.nodes word)
    (hops : ∀ op ∈ ops, (∀ t, op.Fits types t) ∧ op.Narrow) (hrun : t.runAll ops = .ok t') :
    ∃ (word : Words) (ls : List ℕ), Inv types t' word ls ∧ NarrowTree t'.nodes word := by
  induction ops generalizing t with
  | nil =>
    rw [TupleTrie.runAll, pure_eq_ok, Except.ok.injEq] at hrun
    exact hrun ▸ h
  | cons op ops ih =>
    rw [TupleTrie.runAll, bind_eq_ok] at hrun
    obtain ⟨⟨t₁, b⟩, hop, hrun⟩ := hrun
    obtain ⟨word, ls, hinv, hn⟩ := h
    obtain ⟨hfits, hnarrow⟩ := hops op List.mem_cons_self
    obtain ⟨word', ls', hinv', hkeep⟩ := hinv.op (hfits t) hop
    exact ih ⟨word', ls', hinv', hkeep hn hnarrow⟩
      (fun op hmem => hops op (List.mem_cons_of_mem _ hmem)) hrun

/-- The trie with the three tuples, which are its leaves. -/
structure HasSevens (t : TupleTrie) : Prop where
  reachable : Reachable [.item .int] t
  leaves : LeafList t.leaves t.firstLeaf t.lastLeaf [0, 1, 2]
  references : t.numberOfReferences = 5
  count : (t.leaves.payload 0).count = 2
  tuples : [0, 1, 2].map (fun l => (t.leaves.payload l).tpl) =
    [[.item (.int 7)], [.item (.int 8)], [.item (.int 9)]]
  narrow : ∃ (word : Words) (ls : List ℕ), Inv [.item .int] t word ls ∧ NarrowTree t.nodes word

theorem exists_hasSevens : ∃ t, HasSevens t := by
  obtain ⟨t, hrun, hvals⟩ := exists_ok_of_map (x := runAll Trie.new sevens)
    (f := fun t => decide (t.firstLeaf = some 0 ∧ t.numberOfReferences = 5 ∧
      (t.leaves.payload 0).count = 2 ∧ [0, 1, 2].map (fun l => (t.leaves.payload l).tpl) =
        [[.item (.int 7)], [.item (.int 8)], [.item (.int 9)]] ∧
      [0, 1, 2].map t.leaves.prev = [none, some 0, some 1] ∧
      [0, 1, 2].map t.leaves.next = [some 1, some 2, none])) (b := true) (by decide +kernel)
  obtain ⟨hfirst, hrefs, hcount, htuples, hprev, hnext⟩ := of_decide_eq_true hvals
  simp only [List.map_cons, List.map_nil, List.cons.injEq, and_true] at hprev hnext
  have hops : ∀ op ∈ sevens, (∀ t, op.Fits [.item .int] t) ∧ op.Narrow := by
    intro op hop
    simp only [sevens, List.mem_cons, List.not_mem_nil, or_false] at hop
    rcases hop with rfl | rfl | rfl | rfl <;>
      exact ⟨fun _ => ⟨⟨rfl, by simp [Value.Ok]⟩, by decide, by simp [maxShort]⟩,
        by simp [Op.Narrow, levels, Value.levels, TupleField.Narrow]⟩
  obtain ⟨word, ls, hinv, hn⟩ := exists_narrow_of_runAll
    ⟨_, [], ⟨Tree.new [.item .int], by simp, by simp⟩,
      (Tree.narrowTree_iff (Tree.new [.item .int])).mpr (by simp)⟩ hops hrun
  have hls := hinv.valid.leafList
  have hlinked : Linked t.leaves.next t.leaves.prev none [0, 1, 2] :=
    ⟨hprev.1, hnext.1, hprev.2.1, hnext.2.1, hprev.2.2, hnext.2.2, trivial⟩
  obtain rfl : ls = [0, 1, 2] := hls.linked.unique hlinked (hls.first_eq.symm.trans hfirst)
  exact ⟨t, .runAll .new (fun op hop => (hops op hop).1) hrun, hls, hrefs, hcount, htuples,
    _, _, hinv, hn⟩

/-- The match of the DELETE of `7`. -/
private def sevenMatch : Match := ⟨[.exact (.int 7)], true, by simp⟩

/-- The DELETE of `7` removes its tuple and keeps the other two. -/
theorem deleteByIndex_iff_seven : ∃ (t t' : TupleTrie) (m : Match) (ls : List ℕ),
    Reachable [.item .int] t ∧ ls.length = 3 ∧ deleteMatch [.item .int] [.int 7] = .ok m ∧
      t.deleteByIndex m = .ok t' ∧ DeletesMatching [.item .int] t t' m ls ∧
      t.numberOfReferences = 5 ∧ t'.numberOfReferences = 3 := by
  have hm : deleteMatch [.item .int] [.int 7] = .ok sevenMatch := rfl
  obtain ⟨t, h⟩ := exists_hasSevens
  have htuples := h.tuples
  simp only [List.map_cons, List.map_nil, List.cons.injEq, and_true] at htuples
  have hacc₀ : sevenMatch.accepts (t.leaves.payload 0).tpl := by
    rw [htuples.1]
    decide
  have hacc₁ : ¬sevenMatch.accepts (t.leaves.payload 1).tpl := by
    rw [htuples.2.1]
    decide
  have hacc₂ : ¬sevenMatch.accepts (t.leaves.payload 2).tpl := by
    rw [htuples.2.2]
    decide
  have hmatched : matchedCount t sevenMatch [0, 1, 2] = 2 := by
    have hfilter : ([0, 1, 2].filter fun l =>
        decide (sevenMatch.accepts (t.leaves.payload l).tpl)) = [0] := by
      rw [List.filter_cons_of_pos (by simpa using hacc₀),
        List.filter_cons_of_neg (by simpa using hacc₁),
        List.filter_cons_of_neg (by simpa using hacc₂), List.filter_nil]
    rw [matchedCount, hfilter]
    simp [totalCount, LeafOps.getCount, h.count]
  have hrefs := h.references
  obtain ⟨t', hok, hdel⟩ := (deleteByIndex_iff h.reachable hm h.leaves).mpr
    ⟨by simp, by omega, fun _ => ⟨by omega, by simp only [maxInt]; omega, by simp [hacc₁]; omega⟩⟩
  refine ⟨t, t', sevenMatch, _, h.reachable, rfl, hm, hok, hdel, hrefs, ?_⟩
  rw [hdel.references, hrefs, hmatched]
  rfl

/-! ### Deleting from a bag -/

variable {s : Multiset (List Value)}

/-- The counts of the elements of a bag, one for each, add up to its size. -/
private theorem sum_count {k : List (List Value)} (hnd : k.Nodup) (hmem : ∀ x, x ∈ k ↔ x ∈ s) :
    (k.map fun x => (s.count x : ℤ)).sum = s.card := by
  have hks : k.toFinset = s.toFinset := by
    ext x
    simp [hmem]
  rw [← Multiset.toFinset_sum_count_eq, ← hks, List.sum_toFinset _ hnd]
  clear hnd hmem hks
  induction k with
  | nil => rfl
  | cons x k ih => simp [ih]

/-- On a trie whose counters are in range, `delete_by_index` filters the bag. -/
theorem Holds.deleteByIndex (h : Holds types t s word ls) {args : List Item}
    (hm : deleteMatch types args = .ok m) (hs : s ≠ 0) :
    ∃ (t' : TupleTrie) (word' : Words) (ls' : List ℕ), t.deleteByIndex m = .ok t' ∧
      Holds types t' (s.filter fun tpl => ¬m.accepts tpl) word' ls' := by
  have hls : ls ≠ [] := mt h.eq_nil_iff.mp hs
  have hcard : s.card ≠ 0 := mt Multiset.card_eq_zero.mp hs
  have href := h.references
  have hnr : t.numberOfReferences ≠ 0 := by omega
  have hacc : ∀ l, m.accepts (t.leafTuple l) ↔ m.accepts (t.leaves.payload l).tpl :=
    fun l => m.accepts_canon _
  rcases deleteByIndex_cases h.inv hm with
    ⟨hnil, -⟩ | ⟨hnone, hok⟩ |
      ⟨hsome, t₁, word₁, ls₁, hinv₁, hmem, hpay, hnarrow, href₁, hok⟩
  · exact absurd hnil hls
  · refine ⟨t, word, ls, by rw [hok, assert_pos ⟨hls, hnr⟩]; rfl, ?_⟩
    rw [Multiset.filter_eq_self.mpr fun tpl htpl => ?_]
    · exact h
    · obtain ⟨l, hl, rfl⟩ := h.leaf tpl htpl
      exact mt (hacc l).mp (hnone l hl)
  · have htuple : ∀ l, t₁.leafTuple l = t.leafTuple l := fun l =>
      leafTuple_congr (congrFun hpay l)
    have hcount : ∀ l ∈ ls₁, (t₁.leaves.payload l).count =
        (s.filter fun tpl => ¬m.accepts tpl).count (t₁.leafTuple l) := fun l hl => by
      obtain ⟨hl', hna⟩ := (hmem l).mp hl
      rw [htuple, hpay, Multiset.count_filter, if_pos (mt (hacc l).mp hna)]
      exact h.count l hl'
    have hleaf : ∀ tpl, tpl ∈ s.filter (fun tpl => ¬m.accepts tpl) ↔
        ∃ l ∈ ls₁, t₁.leafTuple l = tpl := fun tpl => by
      simp only [Multiset.mem_filter, htuple]
      constructor
      · rintro ⟨htpl, hna⟩
        obtain ⟨l, hl, rfl⟩ := h.leaf tpl htpl
        exact ⟨l, (hmem l).mpr ⟨hl, mt (hacc l).mpr hna⟩, rfl⟩
      · rintro ⟨l, hl, rfl⟩
        obtain ⟨hl', hna⟩ := (hmem l).mp hl
        exact ⟨h.mem l hl', mt (hacc l).mp hna⟩
    have hfind : ∀ l ∈ ls₁, Findable (t₁.leaves.payload l).tpl := fun l hl => by
      rw [hpay]
      exact h.findable l ((hmem l).mp hl).1
    have hsum : (ls₁.map fun l => (t₁.leaves.payload l).count).sum =
        (s.filter fun tpl => ¬m.accepts tpl).card := by
      rw [← sum_count (k := ls₁.map t₁.leafTuple), List.map_map]
      · exact congrArg List.sum (List.map_congr_left hcount)
      · exact hinv₁.valid.leafList.nodup.map_on fun l hl l' hl' =>
          hinv₁.leaf_unique (hnarrow h.narrow) hl hl' (hfind l hl) (hfind l' hl')
      · intro x
        rw [hleaf, List.mem_map]
    have htotal : totalCount t.leaves ls₁ = (s.filter fun tpl => ¬m.accepts tpl).card := by
      rw [← hsum, hpay]
      rfl
    have htotal' : totalCount t.leaves ls = s.card := h.sum
    have hle := Multiset.card_le_card (Multiset.filter_le (fun tpl => ¬m.accepts tpl) s)
    have hint := h.int
    rw [htotal, htotal', href, sub_sub_cancel, wrap32_of_mem (by simp only [maxInt]; omega)
      (by omega)] at href₁
    have hres : Holds types t₁ (s.filter fun tpl => ¬m.accepts tpl) word₁ ls₁ :=
      ⟨hinv₁, hnarrow h.narrow, hfind, fun l hl => (hleaf _).mpr ⟨l, hl, rfl⟩,
        fun tpl htpl => (hleaf tpl).mp htpl, hcount, hsum, href₁, fun tpl => ?_, by omega⟩
    · refine ⟨t₁, word₁, ls₁, ?_, hres⟩
      rw [hok, assert_pos hnr, assert_pos (by omega), assert_pos]
      · rfl
      · rw [href₁, hres.eq_nil_iff, ← Multiset.card_eq_zero]
        omega
    · have := h.short tpl
      have := Multiset.count_le_of_le tpl (Multiset.filter_le (fun tpl => ¬m.accepts tpl) s)
      omega

end TupleTrie

end Meld.Db
