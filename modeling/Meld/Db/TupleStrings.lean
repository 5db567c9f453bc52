import Meld.Db.TupleAbsent

/-!
# Strings in the trie

A trie node stores the whole reference of a string and hashes its low 32 bits, but the walk
compares the reference it searches for with the low 32 bits of the stored one. So a reference of
at most 32 bits is found again, in a list of children as in a table and through every expansion,
as long as no longer one was inserted; and a longer one is never found: the tuple gets a new leaf
at every insertion, and no deletion reaches it.
-/

namespace Meld.Db

open Meld.Lib Meld.Vm

namespace TupleTrie

variable {types : List FieldType} {t t' : TupleTrie} {word : Words} {ls : List ℕ}
  {tpl : List Value} {l : ℕ}

/-- The string references of the tuple have at most 32 bits. -/
def ShortRefs (tpl : List Value) : Prop := ∀ p, Value.string p ∈ tpl → p.toNat < 2 ^ 32

theorem low32_eq_iff {p : UInt64} : low32 p = p ↔ p.toNat < 2 ^ 32 := by
  rw [← UInt64.toNat_inj, low32, UInt32.toNat_toUInt64, UInt64.toNat_toUInt32]
  exact Nat.mod_eq_iff_lt (by decide)

theorem narrow_levels_iff : (∀ f ∈ levels tpl, f.Narrow) ↔ ShortRefs tpl := by
  constructor
  · intro h p hp
    exact low32_eq_iff.mp (h (.ptr p) (List.mem_flatMap.mpr ⟨_, hp, by simp [Value.levels]⟩))
  · intro h f hf
    obtain ⟨v, hv, hf⟩ := List.mem_flatMap.mp hf
    cases v with
    | item x =>
      rw [Value.levels, List.mem_singleton] at hf
      exact hf ▸ trivial
    | list τ l =>
      rw [Value.levels, List.mem_append, List.mem_flatMap, List.mem_singleton] at hf
      rcases hf with ⟨x, -, hf⟩ | rfl
      · simp only [List.mem_cons, List.not_mem_nil, or_false] at hf
        rcases hf with rfl | rfl
        · exact low32_eq_iff.mpr (by decide)
        · trivial
      · exact low32_eq_iff.mpr (by decide)
    | string p =>
      rw [Value.levels, List.mem_singleton] at hf
      exact hf ▸ low32_eq_iff.mpr (h p hv)

/-- The tries that runs lead to whose insertions have references of at most 32 bits. -/
inductive ShortReachable (types : List FieldType) : TupleTrie → Prop
  | new : ShortReachable types Trie.new
  | op {t t' : TupleTrie} {op : Op} {b : Bool} (h : ShortReachable types t)
      (hop : op.Fits types t) (hshort : ∀ tpl n, op = .insert tpl n → ShortRefs tpl)
      (hrun : op.run t = .ok (t', b)) : ShortReachable types t'
  | deleteByIndex {t t' : TupleTrie} {args : List Item} {m : Match} (h : ShortReachable types t)
      (hm : deleteMatch types args = .ok m) (hrun : t.deleteByIndex m = .ok t') :
      ShortReachable types t'

theorem ShortReachable.inv (h : ShortReachable types t) :
    ∃ (word : Words) (ls : List ℕ), Inv types t word ls ∧ NarrowTree t.nodes word := by
  induction h with
  | new => exact ⟨_, [], ⟨Tree.new types, by simp, by simp⟩,
      (Tree.narrowTree_iff (Tree.new types)).mpr (by simp)⟩
  | @op t t' op b _ hop hshort hrun ih =>
    obtain ⟨word, ls, hinv, hn⟩ := ih
    obtain ⟨word', ls', hinv', hkeep⟩ := hinv.op hop hrun
    have hnarrow : op.Narrow := by
      cases op with
      | insert tpl n => exact narrow_levels_iff.mpr (hshort tpl n rfl)
      | delete tpl n => trivial
      | deleteByLeaf l => trivial
    exact ⟨word', ls', hinv', hkeep hn hnarrow⟩
  | deleteByIndex _ hm hrun ih =>
    obtain ⟨word, ls, hinv, hn⟩ := ih
    obtain ⟨word', ls', hinv', hkeep⟩ := hinv.deleteByIndex hm hrun
    exact ⟨word', ls', hinv', hkeep hn⟩

/-- The walk for the tuple ends at the leaf `l`: an insertion raises the leaf's count, and a
deletion takes from it. -/
structure Reaches (t : TupleTrie) (tpl : List Value) (l : ℕ) : Prop where
  leads : Trie.Leads t t.root tpl l
  insert : ∀ n : ℕ, 0 < n → t.insertTuple tpl n = (do
    let r ← addInt t.numberOfReferences n
    assert (0 < r)
    pure ((t.counted l n).withRefs r, false))
  delete : ∀ n : ℕ, 0 < n → t.deleteTuple tpl n = (do
    assert (t.numberOfReferences ≠ 0)
    if LeafOps.toDelete ((t.counted l (-n)).leaves.payload l) then
      pure (t.counted l (-n), some (t.leaves.node l, (n : ℤ)))
    else do
      let r ← addInt t.numberOfReferences (-n)
      pure ((t.counted l (-n)).withRefs r, none))

/-- In a narrow tree the walk for the values of a leaf ends at the leaf. -/
theorem Inv.reaches (h : Inv types t word ls) (hn : NarrowTree t.nodes word) (hl : l ∈ ls)
    (htpl : Typed types tpl) (hsame : SameValues (t.leaves.payload l).tpl tpl) :
    t.Reaches tpl l := by
  obtain ⟨hleaf, hfind⟩ := findable_of_sameValues hsame (h.narrow_levels hn hl)
  have hty := (h.typed l hl).types.trans htpl.types.symm
  have hcanon : t.leafTuple l = canon tpl := (sameValues_iff hty hleaf hfind).mp hsame
  have hne : ¬Trie.Absent t word ls tpl := fun habs =>
    h.leafTuple_ne_of_absent hn hfind habs hl hleaf hcanon
  -- whatever leaf the walk finds holds the values, as `l` does
  have heq : ∀ x, Trie.Found t word ls tpl x → x = l := fun x hf => by
    have hx := h.sameValues_of_found hn htpl hf
    obtain ⟨hxleaf, -⟩ := findable_of_sameValues hx (h.narrow_levels hn hf.mem)
    exact h.leaf_unique hn hf.mem hl hxleaf hleaf
      ((h.leafTuple_of_found hn htpl hfind hf hxleaf).trans hcanon.symm)
  refine ⟨?_, fun n hpos => ?_, fun n hpos => ?_⟩
  · rcases h.cases htpl with ⟨x, hf, -⟩ | ⟨habs, -⟩
    · exact heq x hf ▸ hf.leads
    · exact absurd habs hne
  · rcases insertTuple_cases h htpl (Int.natCast_pos.mpr hpos) with ⟨x, hf, hok⟩ | ⟨habs, -⟩
    · exact heq x hf ▸ hok
    · exact absurd habs hne
  · rcases deleteTuple_cases h htpl (Int.natCast_pos.mpr hpos) with ⟨x, hf, hok⟩ | ⟨habs, -⟩
    · exact heq x hf ▸ hok
    · exact absurd habs hne

/-- In every trie that insertions of references of at most 32 bits lead to, the walk for a tuple
with the values of a leaf ends at that leaf. -/
theorem strings_found (h : ShortReachable types t) (hl : t.leaves.arena.live l = true)
    (htpl : Typed types tpl) (hsame : SameValues (t.leaves.payload l).tpl tpl) :
    t.Reaches tpl l := by
  obtain ⟨word, ls, hinv, hn⟩ := h.inv
  exact hinv.reaches hn ((hinv.valid.leafList.live l).mp hl) htpl hsame

theorem ShortReachable.runAll {ops : List Op} (h : ShortReachable types t)
    (hops : ∀ op ∈ ops, (∀ t, op.Fits types t) ∧ ∀ tpl n, op = .insert tpl n → ShortRefs tpl)
    (hrun : t.runAll ops = .ok t') : ShortReachable types t' := by
  induction ops generalizing t with
  | nil =>
    rw [TupleTrie.runAll, pure_eq_ok, Except.ok.injEq] at hrun
    exact hrun ▸ h
  | cons op ops ih =>
    rw [TupleTrie.runAll, bind_eq_ok] at hrun
    obtain ⟨⟨t₁, b⟩, hop, hrun⟩ := hrun
    obtain ⟨hfits, hshort⟩ := hops op List.mem_cons_self
    exact ih (h.op (hfits t) hshort hop)
      (fun op hmem => hops op (List.mem_cons_of_mem _ hmem)) hrun

/-- Two strings, of which the first is inserted again and the second deleted once. -/
private def sevenNine : List Op :=
  [.insert [.string 7] 1, .insert [.string 9] 2, .insert [.string 7] 1, .delete [.string 9] 1]

/-- The trie that holds the two strings. -/
theorem strings_found_sevenNine : ∃ t : TupleTrie, ShortReachable [.string] t ∧
    t.numberOfReferences = 3 ∧ (t.leaves.payload 0).tpl = [.string 7] ∧
      (t.leaves.payload 1).tpl = [.string 9] ∧ t.Reaches [.string 7] 0 ∧
      t.Reaches [.string 9] 1 := by
  obtain ⟨t, hrun, hvals⟩ := exists_ok_of_map (x := runAll Trie.new sevenNine)
    (f := fun t => decide (t.numberOfReferences = 3 ∧ t.leaves.arena.live 0 = true ∧
      t.leaves.arena.live 1 = true ∧ (t.leaves.payload 0).tpl = [.string 7] ∧
      (t.leaves.payload 1).tpl = [.string 9])) (b := true) (by decide +kernel)
  obtain ⟨hrefs, hlive₀, hlive₁, hload₀, hload₁⟩ := of_decide_eq_true hvals
  have htpl : ∀ p : UInt64, Typed [.string] [.string p] := fun p => ⟨rfl, by simp [Value.Ok]⟩
  have hshort : ∀ p : UInt64, p.toNat < 2 ^ 32 → ShortRefs [.string p] := by
    intro p hp q hq
    rw [List.mem_singleton, Value.string.injEq] at hq
    rw [hq]
    exact hp
  have hreach : ShortReachable [.string] t := by
    refine ShortReachable.runAll .new ?_ hrun
    intro op hop
    simp only [sevenNine, List.mem_cons, List.not_mem_nil, or_false] at hop
    rcases hop with rfl | rfl | rfl | rfl
    all_goals refine ⟨fun _ => ⟨htpl _, by decide, by simp [maxShort]⟩, ?_⟩
    all_goals intro tpl n heq
    · rw [← (Op.insert.inj heq).1]
      exact hshort 7 (by decide)
    · rw [← (Op.insert.inj heq).1]
      exact hshort 9 (by decide)
    · rw [← (Op.insert.inj heq).1]
      exact hshort 7 (by decide)
    · cases heq
  have hsame : ∀ l p, (t.leaves.payload l).tpl = [.string p] →
      SameValues (t.leaves.payload l).tpl [.string p] := by
    intro l p hl
    rw [hl]
    simp [Value.same]
  exact ⟨t, hreach, hrefs, hload₀, hload₁,
    strings_found hreach hlive₀ (htpl 7) (hsame 0 7 hload₀),
    strings_found hreach hlive₁ (htpl 9) (hsame 1 9 hload₁)⟩

/-- No walk for a longer reference ends at a leaf, whatever the trie holds. -/
theorem not_leads_of_long (h : Reachable types t) (htpl : Typed types tpl)
    (hlong : ¬ShortRefs tpl) (l : ℕ) : ¬Trie.Leads t t.root tpl l := by
  intro hl
  obtain ⟨word, ls, hinv⟩ := h.inv
  rcases hinv.cases htpl with ⟨x, hf, -⟩ | ⟨habs, -⟩
  · obtain ⟨w, -, hfol⟩ := hf.path
    refine hlong (narrow_levels_iff.mp fun f hf => ?_)
    obtain ⟨d, -, hdf⟩ := (exists_partner hfol).2 f hf
    exact TupleField.narrow_of_sameAs hdf
  · exact habs.stuck l hl

/-- A string with the reference `0x100000000` that was inserted: the walk for it ends nowhere, deleting
it finds nothing, and inserting it again makes a second leaf. -/
theorem not_strings_found : ∃ (t t' : TupleTrie) (l l' : ℕ), Reachable [.string] t ∧
    t.leaves.arena.live l = true ∧ (t.leaves.payload l).tpl = [.string 0x100000000] ∧
    ¬Trie.Leads t t.root [.string 0x100000000] l ∧
    t.deleteTuple [.string 0x100000000] 1 = .ok (t, none) ∧
    t.insertTuple [.string 0x100000000] 1 = .ok (t', true) ∧ l' ≠ l ∧
    t'.leaves.arena.live l' = true ∧ (t'.leaves.payload l').tpl = [.string 0x100000000] := by
  have hrun : (insertTuple Trie.new [.string 0x100000000] 1 >>= fun r =>
      (insertTuple r.1 [.string 0x100000000] 1).map fun r' =>
        ((r.1.leaves.arena.live 0, (r.1.leaves.payload 0).tpl, r.1.numberOfReferences),
          r'.2, r'.1.leaves.arena.live 1, (r'.1.leaves.payload 1).tpl)) =
      .ok ((true, [.string 0x100000000], 1), true, true, [.string 0x100000000]) := by
    decide +kernel
  obtain ⟨⟨t, b⟩, ht, hrun⟩ := bind_eq_ok.mp hrun
  cases ht' : insertTuple t [.string 0x100000000] 1 with
  | error e => simp [ht', Except.map] at hrun
  | ok r =>
    obtain ⟨t', b'⟩ := r
    simp only [ht', Except.map, Except.ok.injEq, Prod.mk.injEq] at hrun
    obtain ⟨⟨hlive, htpl, hrefs⟩, rfl, hlive', htpl'⟩ := hrun
    have htyped : Typed [.string] [.string 0x100000000] := ⟨rfl, by simp [Value.Ok]⟩
    have hfits : (Op.insert [.string 0x100000000] 1).Fits [.string] Trie.new :=
      ⟨htyped, by decide, by decide⟩
    have hreach : Reachable [.string] t := .op .new hfits ht
    have hlong : ¬ShortRefs [.string 0x100000000] := fun h =>
      absurd (h 0x100000000 (by simp)) (by decide)
    have hstuck := not_leads_of_long hreach htyped hlong
    refine ⟨t, t', 0, 1, hreach, hlive, htpl, hstuck 0, ?_, ht', by decide, hlive', htpl'⟩
    obtain ⟨word, ls, hinv⟩ := hreach.inv
    rcases deleteTuple_cases hinv htyped Int.one_pos with ⟨x, hf, -⟩ | ⟨-, hok⟩
    · exact absurd hf.leads (hstuck x)
    · have hne : ls ≠ [] := List.ne_nil_of_mem ((hinv.valid.leafList.live 0).mp hlive)
      rw [hok, assert_pos (by simp [hrefs, hne]), ok_bind, assert_pos (by simp)]
      rfl

end TupleTrie

end Meld.Db
