import Meld.Db.TrieBranch
import Meld.Vm.Match

/-!
# Deleting by index

`delete_by_index` follows the values of the first fields down from the root, removes what is
below the node it reaches, and then the path that led there alone. `deleteByIndex_cases` gives
the assertions on which it depends.
-/

namespace Meld.Db

open Meld.Lib Meld.Vm

namespace Trie

variable {L : Type} [LeafOps L]

/-- The finder of an exact field. -/
def getByItem (t : Trie L) (a : ℕ) : Item → Exec (Option ℕ)
  | .int v => t.getByInt a v
  | .float v => t.getByFloat a v
  | .node v => t.getByNode a v

/-- The loop of `delete_by_index`, which stops at the first free field. -/
def descendIndex (t : Trie L) : List MatchField → ℕ → Exec (Option ℕ)
  | [], a => pure (some a)
  | .any _ :: _, a => pure (some a)
  | .exact x :: fs, a => do
    let node ← t.getByItem a x
    match node with
    | none => pure none
    | some b => descendIndex t fs b

/-- `delete_by_index`. -/
def deleteByIndex (t : Trie L) (m : Match) : Exec (Trie L) := do
  t.basicInvariants
  let node ← t.descendIndex m.fields t.root
  match node with
  | none => pure t
  | some a => do
    let (t, n) ← deleteBranch t.nodes.arena.next t a
    let t : Trie L := { t with numberOfReferences := wrap32 (t.numberOfReferences - n) }
    assert (0 ≤ t.numberOfReferences)
    let t ← deletePath t.nodes.arena.next t a
    t.basicInvariants
    pure t

end Trie

section

variable {L : Type} [LeafOps L] {t t' : Trie L} {types : List FieldType} {word word' : Words}
  {ls ls' : List ℕ} {a : ℕ} {u : List TupleField} {xs : List Item} {ρ σ : List FieldType}
  {fs : List MatchField} {m : Match}

namespace Trie

theorem getByItem_eq (t : Trie L) (a : ℕ) (x : Item) : t.getByItem a x = t.getBy a x := by
  cases x <;> rfl

/-- Where the loop of `delete_by_index` ends, when the trie has a level for each exact field: at
the only node below `a` that the values lead to, or nowhere when there is none. -/
theorem descendIndex_cases (h : Shape types t.nodes t.hashes t.root (fun _ => False) word)
    (hfull : ∀ b, (word b).isSome → b ≠ t.root → t.nodes.child b ≠ .null)
    (hfs : fs = xs.map .exact ++ σ.map .any) (hu : word a = some u)
    (hty : restTypes types u = xs.map (fun x => .item x.type) ++ ρ)
    (hne : xs ≠ [] → t.nodes.child a ≠ .null) :
    (∃ b w, Down t.nodes word a w b ∧ Follows w (xs.map .item) ∧
      t.descendIndex fs a = .ok (some b) ∧
      ∀ b' w', Down t.nodes word a w' b' → Follows w' (xs.map .item) → b' = b) ∨
    (t.descendIndex fs a = .ok none ∧
      ∀ b' w', Down t.nodes word a w' b' → ¬Follows w' (xs.map .item)) := by
  induction xs generalizing a u fs with
  | nil =>
    refine .inl ⟨a, [], .refl a, .nil, ?_, fun b' w' hd hw => ?_⟩
    · subst hfs
      cases σ <;> rfl
    · cases hw
      cases hd
      rfl
  | cons x xs ih =>
    have hua := Option.isSome_of_eq_some hu
    have hleaf : (t.nodes.child a).isLeaf = false := by
      cases hc : t.nodes.child a with
      | leaf l => simp [h.leaf_typed a u l hu hc] at hty
      | null => rfl
      | node b => rfl
      | hash g => rfl
    obtain ⟨r, hr, hfind⟩ := getBy_spec x (h.rep a hua id) (h.live a hua)
      (fun c hc => h.live c hc.1) hleaf (hne (by simp))
    have hfs' : fs = .exact x :: (xs.map .exact ++ σ.map .any) := by simpa using hfs
    -- no child has the value, so that no path follows it
    cases r with
    | none =>
      have hstep : t.descendIndex fs a = .ok none := by
        simp [hfs', descendIndex, getByItem_eq, hr]
      refine .inr ⟨hstep, fun b' w' hd hw => ?_⟩
      cases hd with
      | refl => cases hw
      | step hk hd =>
        rw [List.map_cons, follows_cons] at hw
        simp [hfind.missed rfl _ hk] at hw
    -- one child has it, and every path that follows goes through this child
    | some c =>
      have hstep : t.descendIndex fs a =
          t.descendIndex (xs.map .exact ++ σ.map .any) c := by
        simp [hfs', descendIndex, getByItem_eq, hr]
      obtain ⟨hk, hs⟩ := hfind.found c rfl
      obtain ⟨v, hv, hwc⟩ := h.kid_word hk
      rw [hu, Option.some.injEq] at hv
      subst hv
      have hnarrow := h.narrow_of_type hu hty (by simp)
      have huniq : ∀ c', Kid t.nodes word a c' →
          (t.nodes.data c').sameAs (.item x) = true → c' = c := fun c' hk' hs' =>
        kid_unique h hnarrow hk' hs' hk hs
      have hrest : restTypes types (u ++ [t.nodes.data c]) =
          xs.map (fun x => .item x.type) ++ ρ := by
        rw [restTypes_append, hty]
        rfl
      rcases ih rfl hwc hrest (fun _ => hfull c hk.1 (h.ne_root_of_parent hk.2)) with
        ⟨b, w, hd, hw, hok, hu'⟩ | ⟨hok, hnone⟩
      · refine .inl ⟨b, _, .step hk hd, .cons hs hw, hstep.trans hok, fun b' w' hd' hw' => ?_⟩
        cases hd' with
        | refl => cases hw'
        | step hk' hd' =>
          rw [List.map_cons, follows_cons] at hw'
          rw [huniq _ hk' hw'.1] at hd'
          exact hu' _ _ hd' hw'.2
      · refine .inr ⟨hstep.trans hok, fun b' w' hd' hw' => ?_⟩
        cases hd' with
        | refl => cases hw'
        | step hk' hd' =>
          rw [List.map_cons, follows_cons] at hw'
          rw [huniq _ hk' hw'.1] at hd'
          exact hnone _ _ hd' hw'.2

end Trie

/-! ### What the values of the first fields select -/

theorem Down.split {N : NodeHeap} {b : ℕ} {w₁ w₂ : List TupleField}
    (h : Down N word a (w₁ ++ w₂) b) : ∃ c, Down N word a w₁ c ∧ Down N word c w₂ b := by
  induction w₁ generalizing a with
  | nil => exact ⟨a, .refl a, h⟩
  | cons d w₁ ih =>
    cases h with
    | step hk hd =>
      obtain ⟨c, hd₁, hd₂⟩ := ih hd
      exact ⟨c, .step hk hd₁, hd₂⟩

theorem Shape.down_of_above {N : NodeHeap} {H : HashHeap} {root b : ℕ} {O : ℕ → Prop}
    (h : Shape types N H root O word) (hb : (word b).isSome) (hab : Above N b a) :
    ∃ w, Down N word a w b := by
  induction hab with
  | refl => exact ⟨[], .refl b⟩
  | tail hbc hc ih =>
    obtain ⟨w, hd⟩ := ih
    exact ⟨_, .step ⟨(h.above_le hb hbc).1, hc⟩ hd⟩

/-- The first stored fields on the path of the leaf `l` are those searched for with `xs`. -/
def Agrees (t : Trie L) (word : Words) (xs : List Item) (l : ℕ) : Prop :=
  ∃ w, word (t.leaves.node l) = some w ∧ Trie.Follows (w.take xs.length) (xs.map .item)

/-- The leaves that agree with the values are below the nodes these lead to. -/
theorem agrees_iff {O : ℕ → Prop} (h : Shape types t.nodes t.hashes t.root O word) {l : ℕ}
    (hl : (word (t.leaves.node l)).isSome) :
    Agrees t word xs l ↔ ∃ b w, Down t.nodes word t.root w b ∧
      Trie.Follows w (xs.map .item) ∧ Above t.nodes (t.leaves.node l) b := by
  constructor
  · rintro ⟨w, hw, hfol⟩
    have hd := h.down_of_word hw
    rw [← List.take_append_drop xs.length w] at hd
    obtain ⟨b, hd₁, hd₂⟩ := hd.split
    exact ⟨b, _, hd₁, hfol, hd₂.above⟩
  · rintro ⟨b, w, hd, hfol, hab⟩
    obtain ⟨w', hd'⟩ := h.down_of_above hl hab
    have hb := h.word_of_down hd h.root_word
    have hword := h.word_of_down hd' hb
    refine ⟨_, hword, ?_⟩
    have hlen := hfol.length_eq
    rw [List.length_map] at hlen
    rwa [List.nil_append, ← hlen, List.take_left']
    rfl

/-- The trie `t'` is `t` without the leaves that agree with `xs`. -/
structure IndexDeleted (types : List FieldType) (t t' : Trie L) (word word' : Words)
    (ls ls' : List ℕ) (xs : List Item) : Prop where
  valid : Valid types t' word' ls'
  mem : ∀ l, l ∈ ls' ↔ l ∈ ls ∧ ¬Agrees t word xs l
  keep_word : ∀ x w, word' x = some w → word x = some w
  payload : t'.leaves.payload = t.leaves.payload
  node : t'.leaves.node = t.leaves.node
  root : t'.root = t.root
  references : t'.numberOfReferences =
    wrap32 (t.numberOfReferences - (totalCount t.leaves ls - totalCount t.leaves ls'))

theorem Tree.prunable (h : Valid types t word ls)
    (hdes : ∀ l ∈ ls, LeafOps.destructible (t.leaves.payload l) = true) :
    Prunable t word ls where
  plain b hb hc := by
    by_cases hbr : b = t.root
    · exact hbr ▸ h.root_hashed id (hbr ▸ hc)
    · exact absurd hc (h.full b hb hbr id)
  destructible := hdes

/-- After `delete_branch` on a node of a valid trie. -/
theorem Tree.pruned {n : ℤ} (h : Valid types t word ls)
    (hp : Pruned types (fun _ => False) t t' word word' ls ls'
      (fun b => b ≠ a ∧ Above t.nodes b a) (fun b => Above t.nodes b a) n) :
    Tree types t' (· = a) (fun _ => False) word' ls' := by
  have hchild : ∀ b, (word' b).isSome → b ≠ a → t'.nodes.child b = t.nodes.child b := by
    intro b hb hba
    obtain ⟨hw, hR⟩ := hp.isSome hb
    exact hp.child b hw fun hs => hR ⟨hba, hs⟩
  refine ⟨hp.same.root ▸ hp.cut.shape, fun b hb hbr hba => ?_, fun hr hn => ?_, fun b hb => ?_,
    hp.cut.leafList, hp.cut.leafNodes⟩
  · rw [hchild b hb hba]
    exact h.full b (hp.isSome hb).1 (hp.same.root ▸ hbr) id
  · rw [hchild _ hp.cut.shape.root_some hr, hp.same.root] at hn
    rw [hp.same.hashed, hp.same.root]
    exact h.root_hashed id hn
  · obtain ⟨hl, hR⟩ := hp.live b hb
    have hw := (h.clean b hl).resolve_right id
    rw [hp.keep b hw (hR hw)]
    exact .inl hw

/-- `delete_by_index` fails on an empty trie. -/
theorem deleteByIndex_nil {x : Item} (h : Valid types t word [])
    (hm : m.fields = .exact x :: fs) : t.deleteByIndex m = .error .assertion := by
  have hroot : t.nodes.child t.root = .null := h.root_null_iff.mpr rfl
  rw [Trie.deleteByIndex, Tree.basicInvariants h]
  by_cases hr : t.numberOfReferences = 0
  · rw [if_pos (by simp [hr]), ok_bind, hm, Trie.descendIndex, Trie.getByItem_eq,
      Trie.getBy_error x (h.shape.live _ h.shape.root_some) (.inr hroot)]
    rfl
  · rw [if_neg (by simpa using hr)]
    rfl

/-- `delete_by_index` fails on an empty trie; else it removes the leaves that agree with the
values of the first fields, if there are any. -/
theorem deleteByIndex_cases (h : Valid types t word ls)
    (hdes : ∀ l ∈ ls, LeafOps.destructible (t.leaves.payload l) = true)
    (hm : m.fields = xs.map .exact ++ σ.map .any)
    (hty : types = xs.map (fun x => .item x.type) ++ ρ) (hxs : xs ≠ []) :
    (ls = [] ∧ t.deleteByIndex m = .error .assertion) ∨
    ((∀ l ∈ ls, ¬Agrees t word xs l) ∧ t.deleteByIndex m = (do
      assert (ls ≠ [] ∧ t.numberOfReferences ≠ 0)
      pure t)) ∨
    ((∃ l ∈ ls, Agrees t word xs l) ∧ ∃ (t' : Trie L) (word' : Words) (ls' : List ℕ),
      IndexDeleted types t t' word word' ls ls' xs ∧ t.deleteByIndex m = (do
        assert (t.numberOfReferences ≠ 0)
        assert (0 ≤ t'.numberOfReferences)
        assert (t'.numberOfReferences = 0 ↔ ls' = [])
        pure t')) := by
  -- without leaves the assertion on the references fails
  by_cases hls : ls = []
  · subst hls
    obtain ⟨x, xs, rfl⟩ := List.exists_cons_of_ne_nil hxs
    exact .inl ⟨rfl, deleteByIndex_nil h hm⟩
  · rw [Trie.deleteByIndex, Tree.basicInvariants h]
    have hroot := h.child_root_ne_null hls
    have hinv : (t.numberOfReferences = 0 ↔ ls = []) ↔ t.numberOfReferences ≠ 0 := by
      simp [hls]
    refine .inr ?_
    -- the exact fields lead to one node, or to none
    rcases Trie.descendIndex_cases (t := t) h.shape
      (fun b hb hbr => h.full b hb hbr id) hm h.shape.root_word hty (fun _ => hroot) with
      ⟨b, w, hd, hfol, hok, huniq⟩ | ⟨hok, hnone⟩
    · refine .inr ?_
      have hwb := h.shape.word_of_down hd h.shape.root_word
      have hb := Option.isSome_of_eq_some hwb
      have hagrees : ∀ l ∈ ls, Agrees t word xs l ↔ Above t.nodes (t.leaves.node l) b :=
        fun l hl => by
          rw [agrees_iff h.shape (h.leafNodes.attached l hl).1]
          constructor
          · rintro ⟨b', w', hd', hfol', hab⟩
            exact huniq b' w' hd' hfol' ▸ hab
          · exact fun hab => ⟨b, w, hd, hfol, hab⟩
      -- everything below the node goes, and then the nodes above that have lost their last child
      obtain ⟨t₁, word₁, ls₁, n, hok₁, hp, hnull⟩ := deleteBranch_spec t.nodes.arena.next h.cut hb
        (fun _ => False.elim) (Tree.prunable h hdes) (by omega)
      have htree := (Tree.pruned h hp).withRefs (wrap32 (t.numberOfReferences - n))
      have hwb₁ : (word₁ b).isSome := by
        rw [hp.keep b hb (by simp)]
        exact hb
      have hlt := Arena.lt_next (hp.cut.shape.live b hwb₁)
      obtain ⟨N', H', word₂, hok₂, hvalid, hkeep, -⟩ :=
        Trie.deletePath_spec t₁.nodes.arena.next hlt htree hwb₁ hnull
      have hmem : ∀ l, l ∈ ls₁ ↔ l ∈ ls ∧ ¬Agrees t word xs l := fun l => by
        rw [hp.mem]
        exact and_congr_right fun hl => not_congr (hagrees l hl).symm
      have hcount := hp.count
      refine ⟨?_, _, word₂, ls₁, ⟨hvalid, hmem, fun x v hx => ?_, hp.same.payload, hp.same.node,
        hp.same.root, ?_⟩, ?_⟩
      · -- below the node there is a leaf
        have hcb : t.nodes.child b ≠ .null := by
          by_cases hbr : b = t.root
          · exact hbr ▸ hroot
          · exact h.full b hb hbr id
        obtain ⟨w', x, l, hd', hl⟩ := h.exists_leaf hb hcb
        have hwx := h.shape.word_of_down hd' hwb
        obtain ⟨hm', hn'⟩ := h.leafNodes.mem x l (Option.isSome_of_eq_some hwx) hl
        exact ⟨l, hm', (hagrees l hm').mpr (hn' ▸ hd'.above)⟩
      · have hx₁ := hkeep x v hx
        rwa [hp.word_eq (Option.isSome_of_eq_some hx₁)] at hx₁
      · change wrap32 (t.numberOfReferences - n) = _
        congr 2
        omega
      · -- the assertions of the source stand in front of and behind the deletion
        by_cases hr : t.numberOfReferences = 0
        · simp [hr, hls, assert]
        · rw [if_pos (hinv.mpr hr), ok_bind, assert_pos hr, ok_bind, hok, ok_bind]
          simp only [hok₁, ok_bind]
          have href : t₁.numberOfReferences = t.numberOfReferences := hp.same.references
          rw [href]
          by_cases hpos : 0 ≤ wrap32 (t.numberOfReferences - n)
          · rw [assert_pos (by exact hpos), assert_pos (by exact hpos), ok_bind, ok_bind]
            change (Trie.deletePath t₁.nodes.arena.next (t₁.withRefs _) b >>= _) = _
            rw [hok₂, ok_bind, Tree.basicInvariants hvalid]
            rfl
          · rw [assert_neg (by exact hpos), assert_neg (by exact hpos)]
            rfl
    · refine .inl ⟨fun l hl ha => ?_, ?_⟩
      · obtain ⟨b, w, hd, hfol, -⟩ := (agrees_iff h.shape (h.leafNodes.attached l hl).1).mp ha
        exact hnone b w hd hfol
      · by_cases hr : t.numberOfReferences = 0
        · simp [hr, hls, assert]
        · simp [hr, hls, assert, hok]

/-! ### More values than levels -/

namespace Trie

theorem descendIndex_append (t : Trie L) (xs : List Item) (fs : List MatchField) (a : ℕ) :
    t.descendIndex (xs.map .exact ++ fs) a = (do
      let node ← t.descendIndex (xs.map .exact) a
      match node with
      | none => pure none
      | some b => t.descendIndex fs b) := by
  induction xs generalizing a with
  | nil => rfl
  | cons x xs ih =>
    rw [List.map_cons, List.cons_append, descendIndex, descendIndex, bind_assoc]
    refine bind_congr fun node => ?_
    cases node with
    | none => rfl
    | some b => exact ih b

end Trie

/-- The types of scalars are used up by as many stored fields. -/
theorem restTypes_items {w : List TupleField} (hlen : w.length = xs.length) :
    restTypes (xs.map fun x => .item x.type) w = [] := by
  induction xs generalizing w with
  | nil => rw [List.length_eq_zero_iff.mp hlen]; rfl
  | cons x xs ih =>
    cases w with
    | nil => simp at hlen
    | cons d w => exact ih (by simpa using hlen)

/-- With a value for a field that the trie has no level for, `delete_by_index` fails at the leaf
that agrees with the values before it; when there is none it leaves the trie as it is. -/
theorem deleteByIndex_past {x : Item} (h : Valid types t word ls)
    (hm : m.fields = xs.map .exact ++ .exact x :: fs)
    (hty : types = xs.map fun x => .item x.type) :
    ((ls = [] ∨ ∃ l ∈ ls, Agrees t word xs l) ∧ t.deleteByIndex m = .error .assertion) ∨
    (ls ≠ [] ∧ (∀ l ∈ ls, ¬Agrees t word xs l) ∧ t.deleteByIndex m = (do
      assert (t.numberOfReferences ≠ 0)
      pure t)) := by
  -- without leaves the root has no children, and the first assertion fails
  by_cases hls : ls = []
  · subst hls
    refine .inl ⟨.inl rfl, ?_⟩
    cases xs with
    | nil => exact deleteByIndex_nil h hm
    | cons y xs => exact deleteByIndex_nil h hm
  · have hroot := h.child_root_ne_null hls
    have hinv : (t.numberOfReferences = 0 ↔ ls = []) ↔ t.numberOfReferences ≠ 0 := by
      simp [hls]
    have hrun : t.deleteByIndex m = (do
        assert (t.numberOfReferences ≠ 0)
        let node ← t.descendIndex m.fields t.root
        match node with
        | none => pure t
        | some a => do
          let (t, n) ← Trie.deleteBranch t.nodes.arena.next t a
          let t : Trie L := { t with numberOfReferences := wrap32 (t.numberOfReferences - n) }
          assert (0 ≤ t.numberOfReferences)
          let t ← Trie.deletePath t.nodes.arena.next t a
          t.basicInvariants
          pure t) := by
      rw [Trie.deleteByIndex, Tree.basicInvariants h]
      simp only [hinv]
      rfl
    have hfields : xs.map MatchField.exact =
        xs.map .exact ++ ([] : List FieldType).map .any := by simp
    have htypes : restTypes types [] = xs.map (fun x => .item x.type) ++ [] := by
      rw [List.append_nil, ← hty]
      rfl
    rcases Trie.descendIndex_cases (t := t) h.shape (fun b hb hbr => h.full b hb hbr id) hfields
      h.shape.root_word htypes (fun _ => hroot) with ⟨b, w, hd, hfol, hok, -⟩ | ⟨hok, hnone⟩
    · -- the fields lead to a leaf, below which there is nothing to match
      have hwb := h.shape.word_of_down hd h.shape.root_word
      have hb := Option.isSome_of_eq_some hwb
      have hlen : w.length = xs.length := by simpa using hfol.length_eq
      have hrest : restTypes types ([] ++ w) = [] := hty ▸ restTypes_items hlen
      have hcb : t.nodes.child b ≠ .null := by
        by_cases hbr : b = t.root
        · exact hbr ▸ hroot
        · exact h.full b hb hbr id
      rcases h.shape.leaf_or_kid hb id hcb with ⟨l, hl⟩ | ⟨c, hk⟩
      · obtain ⟨hmem, hn⟩ := h.leafNodes.mem b l hb hl
        refine .inl ⟨.inr ⟨l, hmem, w, by rw [hn]; exact hwb, ?_⟩, ?_⟩
        · rwa [← hlen, List.take_length]
        · have hget : t.descendIndex (.exact x :: fs) b = .error .assertion := by
            rw [Trie.descendIndex, Trie.getByItem_eq,
              Trie.getBy_error x (h.shape.live b hb) (.inl (by rw [hl]; rfl))]
            rfl
          rw [hrun, hm, Trie.descendIndex_append, hok, ok_bind]
          by_cases hr : t.numberOfReferences = 0
          · rw [assert_neg (by simpa using hr)]
            rfl
          · rw [assert_pos hr, ok_bind]
            simp only [hget]
            rfl
      · obtain ⟨τ, ρ, hτ, -⟩ := h.shape.typed b _ c hwb hk
        rw [hrest] at hτ
        cases hτ
    · -- no tuple has these fields
      refine .inr ⟨hls, fun l hl ha => ?_, ?_⟩
      · obtain ⟨b, w, hd, hfol, -⟩ := (agrees_iff h.shape (h.leafNodes.attached l hl).1).mp ha
        exact hnone b w hd hfol
      · rw [hrun, hm, Trie.descendIndex_append, hok]
        rfl

end

end Meld.Db
