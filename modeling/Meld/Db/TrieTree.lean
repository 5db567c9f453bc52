import Meld.Db.TrieInsert

/-!
# Tries between operations

`Tree` is the invariant of a whole trie: the shape of its nodes, none of which is open; every
node but the root has children or a leaf; no object is outside the tree; and the leaves form the
list `ls`, each pointing to the node that points to it. The operations break the second and the
third part for a while, so these take the nodes they do not hold for.

`Down` relates a node to the nodes below it by the fields stored on the way.
-/

namespace Meld.Db

open Meld.Lib Meld.Vm

/-- The leaves are the doubly linked list `ls`. -/
structure LeafList {L : Type} [Inhabited L] (V : LeafHeap L) (first last : Option ℕ)
    (ls : List ℕ) : Prop where
  nodup : ls.Nodup
  linked : Linked V.next V.prev none ls
  first_eq : first = ls.head?
  last_eq : last = ls.getLast?
  live : ∀ l, V.arena.live l = true ↔ l ∈ ls

/-- The leaves of the list are those the nodes of the tree point to. -/
structure LeafNodes (child : ℕ → Child) (word : Words) (node : ℕ → ℕ) (ls : List ℕ) : Prop where
  attached : ∀ l ∈ ls, (word (node l)).isSome ∧ child (node l) = .leaf l
  mem : ∀ b l, (word b).isSome → child b = .leaf l → l ∈ ls ∧ node l = b

/-- The invariant of a trie, with nodes `P` that may have nothing below them and objects `G` that
may be outside the tree. -/
structure Tree {L : Type} [LeafOps L] (types : List FieldType) (t : Trie L) (P G : ℕ → Prop)
    (word : Words) (ls : List ℕ) : Prop where
  shape : Shape types t.nodes t.hashes t.root (fun _ => False) word
  full : ∀ b, (word b).isSome → b ≠ t.root → ¬P b → t.nodes.child b ≠ .null
  root_hashed : ¬P t.root → t.nodes.child t.root = .null → t.nodes.hashed t.root = false
  clean : ∀ b, t.nodes.arena.live b = true → (word b).isSome ∨ G b
  leafList : LeafList t.leaves t.firstLeaf t.lastLeaf ls
  leafNodes : LeafNodes t.nodes.child word t.leaves.node ls

/-- The invariant of a trie between operations. -/
abbrev Valid {L : Type} [LeafOps L] (types : List FieldType) (t : Trie L) (word : Words)
    (ls : List ℕ) : Prop :=
  Tree types t (fun _ => False) (fun _ => False) word ls

/-- `b` is below `a`, the nodes on the way storing the fields `w`. -/
inductive Down (N : NodeHeap) (word : Words) : ℕ → List TupleField → ℕ → Prop
  | refl (a : ℕ) : Down N word a [] a
  | step {a b c : ℕ} {w : List TupleField} (hk : Kid N word a c) (hd : Down N word c w b) :
      Down N word a (N.data c :: w) b

/-- `a` is `b` or one of the nodes above it. -/
abbrev Above (N : NodeHeap) (b a : ℕ) : Prop :=
  Relation.ReflTransGen (fun c p => N.parent c = some p) b a

section

variable {types : List FieldType} {N : NodeHeap} {H : HashHeap} {root a b c : ℕ}
  {O : ℕ → Prop} {word : Words} {u w : List TupleField}

theorem Down.snoc (h : Down N word a w b) (hk : Kid N word b c) :
    Down N word a (w ++ [N.data c]) c := by
  induction h with
  | refl a => exact .step hk (.refl c)
  | step hk' _ ih => exact .step hk' (ih hk)

theorem Shape.word_of_down (h : Shape types N H root O word) (hd : Down N word a w b)
    (hu : word a = some u) : word b = some (u ++ w) := by
  induction hd generalizing u with
  | refl a => simpa using hu
  | step hk _ ih =>
    obtain ⟨v, hv, hc⟩ := h.kid_word hk
    rw [hu, Option.some.injEq] at hv
    subst hv
    simpa using ih hc

/-- Every node of the tree is below the root, along its path. -/
theorem Shape.down_of_word (h : Shape types N H root O word) (hw : word b = some w) :
    Down N word root w b := by
  induction b using Nat.strong_induction_on generalizing w with
  | _ b ih =>
    by_cases hb : b = root
    · subst hb
      rw [h.root_word, Option.some.injEq] at hw
      exact hw ▸ .refl b
    · obtain ⟨p, u, hp, hu, rfl, hlt⟩ := h.up b w hw hb
      exact (ih p hlt hu).snoc ⟨Option.isSome_of_eq_some hw, hp⟩

theorem Down.above (h : Down N word a w b) : Above N b a := by
  induction h with
  | refl a => exact .refl
  | step hk _ ih => exact ih.tail hk.2

/-- The nodes above a node of the tree are in the tree, and are older. -/
theorem Shape.above_le (h : Shape types N H root O word) (hb : (word b).isSome)
    (hab : Above N b a) : (word a).isSome ∧ a ≤ b := by
  induction hab with
  | refl => exact ⟨hb, le_rfl⟩
  | tail _ hp ih =>
    have hk : Kid N word _ _ := ⟨ih.1, hp⟩
    exact ⟨h.kid_parent_some hk, (h.parent_lt hk).le.trans ih.2⟩

/-- What is below a node is the node, or is below one of its children. -/
theorem Shape.above_iff (h : Shape types N H root O word) (hb : (word b).isSome) :
    Above N b a ↔ b = a ∨ ∃ c, Kid N word a c ∧ Above N b c := by
  constructor
  · intro hab
    rcases Relation.ReflTransGen.cases_tail hab with rfl | ⟨c, hbc, hc⟩
    · exact .inl rfl
    · exact .inr ⟨c, ⟨(h.above_le hb hbc).1, hc⟩, hbc⟩
  · rintro (rfl | ⟨c, hk, hbc⟩)
    exacts [.refl, hbc.tail hk.2]

/-- Nothing is below two children of a node. -/
theorem Shape.not_above_sibling (h : Shape types N H root O word) {p : ℕ} (hc : Kid N word p c)
    (hb : Kid N word p b) (hne : b ≠ c) : ¬Above N b c := by
  intro hbc
  rcases Relation.ReflTransGen.cases_head hbc with rfl | ⟨q, hq, hqc⟩
  · exact hne rfl
  · rw [hb.2, Option.some.injEq] at hq
    subst hq
    exact absurd (h.above_le (h.kid_parent_some hb) hqc).2 (h.parent_lt hc).not_ge

theorem Down.some_of_ne (hd : Down N word a w b) (hne : a ≠ b) : (word b).isSome := by
  induction hd with
  | refl a => exact absurd rfl hne
  | step hk hd ih =>
    rename_i a b c w
    by_cases hcb : c = b
    · exact hcb ▸ hk.1
    · exact ih hcb

end

/-- No level of the trie holds strings. -/
def NoString (types : List FieldType) : Prop := ∀ τ ∈ types, τ ≠ .string

theorem NoString.descend {types : List FieldType} (h : NoString types) (d : TupleField) :
    NoString (Vm.descend types d) := by
  cases types with
  | nil => exact h
  | cons τ ρ =>
    have hρ : NoString ρ := fun σ hσ => h σ (by simp [hσ])
    cases τ with
    | item ι => exact hρ
    | string => exact hρ
    | list ι =>
      cases d with
      | item x => exact hρ
      | ptr p =>
        simp only [Vm.descend]
        split_ifs
        · exact hρ
        · intro σ hσ
          simp only [List.mem_cons] at hσ
          rcases hσ with rfl | rfl | hσ
          exacts [by simp, by simp, hρ σ hσ]

theorem NoString.restTypes {types : List FieldType} (h : NoString types) (w : List TupleField) :
    NoString (Vm.restTypes types w) := by
  induction w generalizing types with
  | nil => exact h
  | cons d w ih => exact ih (h.descend d)

/-- Every stored field of the tree is narrow. -/
def NarrowTree (N : NodeHeap) (word : Words) : Prop := ∀ p c, Kid N word p c → (N.data c).Narrow

/-- Below a level that is no string all fields are narrow. -/
theorem Shape.narrow_of_type {types ρ : List FieldType} {N : NodeHeap} {H : HashHeap} {root a : ℕ}
    {O : ℕ → Prop} {word : Words} {u : List TupleField} {τ : FieldType}
    (h : Shape types N H root O word) (hu : word a = some u) (hτ : restTypes types u = τ :: ρ)
    (hne : τ ≠ .string) : ∀ c, Kid N word a c → (N.data c).Narrow := by
  intro c hk
  obtain ⟨τ', ρ', hτ', hfit⟩ := h.typed a u c hu hk
  rw [hτ, List.cons.injEq] at hτ'
  exact hfit.narrow (hτ'.1 ▸ hne)

theorem NoString.narrowTree {types : List FieldType} {N : NodeHeap} {H : HashHeap} {root : ℕ}
    {O : ℕ → Prop} {word : Words} (hs : NoString types) (h : Shape types N H root O word) :
    NarrowTree N word := by
  intro p c hk
  obtain ⟨u, hu, -⟩ := h.kid_word hk
  obtain ⟨τ, ρ, hτ, -⟩ := h.typed p u c hu hk
  exact h.narrow_of_type hu hτ (hs.restTypes u τ (by simp [hτ])) c hk

/-- What holds of every stored field holds of the fields on a path. -/
theorem Shape.forall_data {types : List FieldType} {N : NodeHeap} {H : HashHeap} {root b : ℕ}
    {O : ℕ → Prop} {word : Words} {w : List TupleField} {Q : TupleField → Prop}
    (h : Shape types N H root O word) (hQ : ∀ p c, Kid N word p c → Q (N.data c))
    (hw : word b = some w) : ∀ d ∈ w, Q d := by
  induction b using Nat.strong_induction_on generalizing w with
  | _ b ih =>
    intro d hd
    by_cases hb : b = root
    · subst hb
      rw [h.root_word, Option.some.injEq] at hw
      simp [← hw] at hd
    · obtain ⟨p, u, hp, hu, rfl, hlt⟩ := h.up b w hw hb
      rcases List.mem_append.mp hd with hd | hd
      · exact ih p hlt hu d hd
      · rw [List.mem_singleton.mp hd]
        exact hQ p b ⟨Option.isSome_of_eq_some hw, hp⟩

section

variable {L : Type} [LeafOps L] {t : Trie L} {types : List FieldType} {P G : ℕ → Prop}
  {word : Words} {ls : List ℕ} {a b l : ℕ} {u w : List TupleField}

/-- A node with nothing below it has no children. -/
theorem Shape.no_kid_of_null {N : NodeHeap} {H : HashHeap} {root : ℕ} {O : ℕ → Prop}
    (h : Shape types N H root O word) (ha : (word a).isSome) (hOa : ¬O a)
    (hnull : N.child a = .null) (c : ℕ) : ¬Kid N word a c := by
  cases h.rep a ha hOa with
  | null _ hk => exact hk c
  | plain b ks hc => simp [hnull] at hc
  | table g ks chain hc => simp [hnull] at hc
  | leaf l hc => simp [hnull] at hc

/-- A leaf's node has no children. -/
theorem Shape.no_kid_of_leaf {N : NodeHeap} {H : HashHeap} {root : ℕ} {O : ℕ → Prop}
    (h : Shape types N H root O word) (ha : (word a).isSome) (hOa : ¬O a)
    (hleaf : N.child a = .leaf l) (c : ℕ) : ¬Kid N word a c := by
  cases h.rep a ha hOa with
  | null _ hk => exact hk c
  | plain b ks hc => simp [hleaf] at hc
  | table g ks chain hc => simp [hleaf] at hc
  | leaf _ _ _ hk => exact hk c

/-- A node with something below it is a leaf's node or has a child. -/
theorem Shape.leaf_or_kid {N : NodeHeap} {H : HashHeap} {root : ℕ} {O : ℕ → Prop}
    (h : Shape types N H root O word) (ha : (word a).isSome) (hOa : ¬O a)
    (hne : N.child a ≠ .null) : (∃ l, N.child a = .leaf l) ∨ ∃ c, Kid N word a c := by
  cases h.rep a ha hOa with
  | null hc => exact absurd hc hne
  | plain b ks hc hh hks hd => exact .inr ⟨b, (hks.mem b).mp (List.mem_of_mem_head? hd)⟩
  | table g ks chain hc hh hks hks' =>
    obtain ⟨c, hc⟩ := List.exists_mem_of_ne_nil ks hks'
    exact .inr ⟨c, (hks.mem c).mp hc⟩
  | leaf l hc => exact .inl ⟨l, hc⟩

theorem Tree.mono {P' G' : ℕ → Prop} (h : Tree types t P G word ls) (hP : ∀ x, P x → P' x)
    (hG : ∀ x, G x → G' x) : Tree types t P' G' word ls :=
  { h with
    full := fun b hb hbr hPb => h.full b hb hbr fun hp => hPb (hP b hp)
    root_hashed := fun hPr => h.root_hashed fun hp => hPr (hP _ hp)
    clean := fun b hb => (h.clean b hb).imp_right (hG b) }

/-- Below a node with something below it there is a leaf. -/
theorem Tree.exists_leaf (h : Tree types t (fun _ => False) G word ls) (ha : (word a).isSome)
    (hne : t.nodes.child a ≠ .null) :
    ∃ w b l, Down t.nodes word a w b ∧ t.nodes.child b = .leaf l := by
  induction hn : t.nodes.arena.next - a using Nat.strong_induction_on generalizing a with
  | _ n ih =>
    rcases h.shape.leaf_or_kid ha id hne with ⟨l, hl⟩ | ⟨c, hk⟩
    · exact ⟨[], a, l, .refl a, hl⟩
    · have hlt := h.shape.parent_lt hk
      have hbound := Arena.lt_next (h.shape.live c hk.1)
      obtain ⟨w, b, l, hd, hl⟩ := ih (t.nodes.arena.next - c) (by omega) hk.1
        (h.full c hk.1 (h.shape.ne_root_of_parent hk.2) id) rfl
      exact ⟨_, b, l, .step hk hd, hl⟩

/-- The fields stored in a trie are those on the paths of its leaves. -/
theorem Tree.narrowTree_iff (h : Valid types t word ls) :
    NarrowTree t.nodes word ↔
      ∀ l ∈ ls, ∀ w, word (t.leaves.node l) = some w → ∀ d ∈ w, d.Narrow := by
  refine ⟨fun hn l _ w hw => h.shape.forall_data hn hw, fun hls p c hk => ?_⟩
  obtain ⟨u, -, hc⟩ := h.shape.kid_word hk
  obtain ⟨w, b, l, hd, hl⟩ := h.exists_leaf hk.1
    (h.full c hk.1 (h.shape.ne_root_of_parent hk.2) id)
  have hb := h.shape.word_of_down hd hc
  obtain ⟨hm, hn⟩ := h.leafNodes.mem b l (Option.isSome_of_eq_some hb) hl
  exact hls l hm _ (hn ▸ hb) _ (by simp)

/-- The trie has no leaf exactly when nothing is below the root. -/
theorem Tree.root_null_iff (h : Tree types t (fun _ => False) G word ls) :
    t.nodes.child t.root = .null ↔ ls = [] := by
  constructor
  · intro hnull
    rw [List.eq_nil_iff_forall_not_mem]
    intro l hl
    obtain ⟨hw, hc⟩ := h.leafNodes.attached l hl
    obtain ⟨w, hw⟩ := Option.isSome_iff_exists.mp hw
    have hd := h.shape.down_of_word hw
    generalize t.leaves.node l = b at hc hd
    cases hd with
    | refl => simp [hnull] at hc
    | step hk _ => exact h.shape.no_kid_of_null h.shape.root_some id hnull _ hk
  · rintro rfl
    by_contra hne
    obtain ⟨w, b, l, hd, hl⟩ := h.exists_leaf h.shape.root_some hne
    have hw := h.shape.word_of_down hd h.shape.root_word
    exact absurd (h.leafNodes.mem b l (Option.isSome_of_eq_some hw) hl).1 List.not_mem_nil

/-- What `basic_invariants` asserts beyond the invariant. -/
theorem Tree.basicInvariants (h : Tree types t (fun _ => False) G word ls) :
    t.basicInvariants = if (t.numberOfReferences = 0 ↔ ls = []) then .ok () else
      .error .assertion := by
  have hs := h.shape
  have hfirst : t.firstLeaf = none ↔ ls = [] := by
    rw [h.leafList.first_eq, List.head?_eq_none_iff]
  have hlast : t.lastLeaf = none ↔ ls = [] := by
    rw [h.leafList.last_eq, List.getLast?_eq_none_iff]
  simp only [Trie.basicInvariants, Arena.check_of_live (hs.live _ hs.root_some), ok_bind,
    assert_pos hs.root_parent, assert_pos hs.root_next, assert_pos hs.root_prev]
  by_cases hn : t.numberOfReferences = 0 <;> by_cases hl : ls = [] <;>
    simp [assert, hn, hl, h.root_null_iff, hfirst, hlast]

end

namespace Trie

variable {L : Type} [LeafOps L] {t : Trie L} {types : List FieldType} {P G : ℕ → Prop}
  {word : Words} {ls : List ℕ} {a : ℕ} {u : List TupleField}

/-- At most one of a node's children that store narrow fields has a given field. -/
theorem kid_unique {N : NodeHeap} {H : HashHeap} {root c c' : ℕ} {O : ℕ → Prop} {f : TupleField}
    (h : Shape types N H root O word) (hn : ∀ c, Kid N word a c → (N.data c).Narrow)
    (hc : Kid N word a c) (hs : (N.data c).sameAs f = true)
    (hc' : Kid N word a c') (hs' : (N.data c').sameAs f = true) : c = c' := by
  by_contra hne
  obtain ⟨u, hu, -⟩ := h.kid_word hc
  have hd := h.distinct a u c c' hu hc hc' hne (hn c hc)
  rw [TupleField.sameAs_trans hs (TupleField.sameAs_symm (hn c' hc') hs')] at hd
  cases hd

/-- From the node `a`, matching the values `vs` level by level ends at the leaf `l`. -/
inductive Leads (t : Trie L) : ℕ → List Value → ℕ → Prop
  | leaf {a l : ℕ} (hc : t.nodes.child a = .leaf l) : Leads t a [] l
  | step {a c l n : ℕ} {v : Value} {vs : List Value} (hm : t.matchNode a v = .ok (some c, n))
      (h : Leads t c (v.pushed ++ vs) l) : Leads t a (v :: vs) l

theorem insertFrom_leaf {l : ℕ} (ha : t.nodes.arena.live a = true)
    (hc : t.nodes.child a = .leaf l) (fuel : ℕ) (mk : ℤ → L) (many : ℤ) :
    insertFrom mk many fuel t a [] = t.foundLeaf many a l := by
  cases fuel <;> simp [insertFrom, Arena.check_of_live ha, hc, assert_pos]

theorem insertFrom_step (ha : t.nodes.arena.live a = true)
    (hc : (t.nodes.child a).isLeaf = false) (fuel : ℕ) (mk : ℤ → L) (many : ℤ) (v : Value)
    (vs : List Value) {r : Option ℕ} {n : ℕ} (hok : t.matchNode a v = .ok (r, n)) :
    insertFrom mk many (fuel + 1) t a (v :: vs) =
      match r with
      | some c => insertFrom mk many fuel t c (v.pushed ++ vs)
      | none => if many < 0 then pure (t, none, false) else t.insertNew mk many a v vs n := by
  rw [insertFrom, Arena.check_of_live ha, ok_bind]
  cases hch : t.nodes.child a with
  | leaf l => simp [hch, Child.isLeaf] at hc
  | null => simp only [hok, ok_bind]; cases r <;> rfl
  | node b => simp only [hok, ok_bind]; cases r <;> rfl
  | hash g => simp only [hok, ok_bind]; cases r <;> rfl

/-- A node whose path has all the levels of its trie is the root or a leaf's node. -/
theorem child_of_complete {N : NodeHeap} {H : HashHeap} {root : ℕ}
    (h : Shape types N H root (fun _ => False) word)
    (hfull : ∀ b, (word b).isSome → b ≠ root → N.child b ≠ .null) (hu : word a = some u)
    (htypes : restTypes types u = []) (hne : a ≠ root) : (N.child a).isLeaf = true := by
  have hkid : ∀ c, ¬Kid N word a c := fun c hk => by
    obtain ⟨τ, ρ, hτ, -⟩ := h.typed a u c hu hk
    simp [htypes] at hτ
  have hua := Option.isSome_of_eq_some hu
  cases h.rep a hua id with
  | null hc => exact absurd hc (hfull a hua hne)
  | leaf l hc => rw [hc]; rfl
  | plain b ks _ _ hks hd => exact absurd ((hks.mem b).mp (List.mem_of_mem_head? hd)) (hkid b)
  | table g ks _ _ _ hks hks' =>
    obtain ⟨c, hc⟩ := List.exists_mem_of_ne_nil ks hks'
    exact absurd ((hks.mem c).mp hc) (hkid c)

/-- The fields `w` are, one by one, those searched for with `fs`. -/
abbrev Follows (w fs : List TupleField) : Prop :=
  List.Forall₂ (fun d f => d.sameAs f = true) w fs

theorem follows_cons {d f : TupleField} {w fs : List TupleField} :
    Follows (d :: w) (f :: fs) ↔ d.sameAs f = true ∧ Follows w fs := List.forall₂_cons

theorem Leads.unique {l l' : ℕ} {vs : List Value} (h : Leads t a vs l) (h' : Leads t a vs l') :
    l = l' := by
  induction h with
  | leaf hc =>
    cases h' with
    | leaf hc' =>
      rw [hc, Child.leaf.injEq] at hc'
      exact hc'
  | step hm _ ih =>
    cases h' with
    | step hm' h' =>
      rw [hm, Except.ok.injEq, Prod.mk.injEq, Option.some.injEq] at hm'
      exact ih (hm'.1 ▸ h')

/-- The loop of `check_insert`, from the node `a` with the values `vs`, ends at the leaf `l` of
the node `b`. -/
structure EndsFound (types : List FieldType) (t : Trie L) (word : Words) (a : ℕ)
    (u : List TupleField) (vs : List Value) (fuel b l : ℕ) : Prop where
  path : ∃ w, word b = some (u ++ w) ∧ Follows w (levels vs)
  child : t.nodes.child b = .leaf l
  ne_root : b ≠ t.root
  leads : Leads t a vs l
  unique : NarrowTree t.nodes word → ∀ x w, Down t.nodes word a w x → Follows w (levels vs) → x = b
  run : ∀ (mk : ℤ → L) (many : ℤ), insertFrom mk many fuel t a vs = t.foundLeaf many b l

/-- The loop of `check_insert`, from the node `a` with the values `vs`, ends at the node `b`,
which has no child for the next value `v`; `rest` is what is left on the stack below it. -/
structure EndsMissing (types : List FieldType) (t : Trie L) (word : Words) (a : ℕ)
    (u : List TupleField) (vs : List Value) (fuel b : ℕ) (v : Value) (rest : List Value)
    (n : ℕ) : Prop where
  path : ∃ w done, word b = some (u ++ w) ∧ levels vs = done ++ levels (v :: rest) ∧
    Follows w done ∧ restTypes types (u ++ w) = (v :: rest).map Value.type
  ok : ∀ v' ∈ v :: rest, v'.Ok
  child : (t.nodes.child b).isLeaf = false
  missed : ∀ c, Kid t.nodes word b c → (t.nodes.data c).sameAs v.store = false
  count : t.nodes.child b = .null → n = 0
  stuck : ∀ l, ¬Leads t a vs l
  absent : NarrowTree t.nodes word → ∀ x w, Down t.nodes word a w x → ¬Follows w (levels vs)
  run : ∀ (mk : ℤ → L) (many : ℤ), insertFrom mk many fuel t a vs =
    if many < 0 then pure (t, none, false) else t.insertNew mk many b v rest n

variable {vs : List Value}

private theorem endsFound_leaf {l : ℕ}
    (h : Shape types t.nodes t.hashes t.root (fun _ => False) word) (hu : word a = some u)
    (hc : t.nodes.child a = .leaf l) (hne : a ≠ t.root) (fuel : ℕ) :
    EndsFound types t word a u [] fuel a l where
  path := ⟨[], by simpa using hu, .nil⟩
  child := hc
  ne_root := hne
  leads := .leaf hc
  unique _ x w hd hw := by
    cases hw
    cases hd
    rfl
  run mk many := insertFrom_leaf (h.live a (Option.isSome_of_eq_some hu)) hc fuel mk many

/-- Where the loop of `check_insert` ends: at a leaf whose path has the levels of the tuple, or
at a node without a child for the next value. -/
theorem insertFrom_cases (h : Shape types t.nodes t.hashes t.root (fun _ => False) word)
    (hfull : ∀ b, (word b).isSome → b ≠ t.root → t.nodes.child b ≠ .null) (fuel : ℕ)
    (hfuel : (levels vs).length ≤ fuel) (hvs : ∀ v ∈ vs, v.Ok)
    (hu : word a = some u) (htypes : restTypes types u = vs.map Value.type)
    (hne : vs = [] → a ≠ t.root) :
    (∃ b l, EndsFound types t word a u vs fuel b l) ∨
      ∃ b v rest n, EndsMissing types t word a u vs fuel b v rest n := by
  induction fuel generalizing a u vs with
  | zero =>
    cases vs with
    | cons v vs => simp [levels_cons] at hfuel
    | nil =>
      have hleaf := child_of_complete h hfull hu htypes (hne rfl)
      cases hc : t.nodes.child a with
      | leaf l => exact .inl ⟨a, l, endsFound_leaf h hu hc (hne rfl) 0⟩
      | null => simp [hc, Child.isLeaf] at hleaf
      | node b => simp [hc, Child.isLeaf] at hleaf
      | hash g => simp [hc, Child.isLeaf] at hleaf
  | succ fuel ih =>
    have hua := Option.isSome_of_eq_some hu
    have hla := h.live a hua
    by_cases hleaf : ∃ l, t.nodes.child a = .leaf l
    · obtain ⟨l, hl⟩ := hleaf
      have hnil : vs = [] := by simpa [htypes] using h.leaf_typed a u l hu hl
      subst hnil
      exact .inl ⟨a, l, endsFound_leaf h hu hl (hne rfl) _⟩
    · have hleaf : (t.nodes.child a).isLeaf = false := by
        cases hc : t.nodes.child a <;> simp_all [Child.isLeaf]
      cases vs with
      | nil =>
        have := child_of_complete h hfull hu htypes (hne rfl)
        simp [hleaf] at this
      | cons v vs =>
        have hv : v.Ok := hvs v (by simp)
        obtain ⟨r, n, hok, hfind, hn⟩ := matchNode_spec v (h.rep a hua id) hla
          (fun c hk => h.live c hk.1) hleaf
        have hstep := fun mk many => insertFrom_step hla hleaf fuel mk many v vs hok
        cases r with
        | none =>
          refine .inr ⟨a, v, vs, n, ⟨[], [], by simpa using hu, rfl, .nil, by simpa using htypes⟩,
            hvs, hleaf, hfind.missed rfl, hn, fun l hl => ?_, fun _ x w hd hw => ?_, hstep⟩
          · cases hl with
            | step hm _ => simp [hok] at hm
          · rw [levels_cons] at hw
            cases hd with
            | refl => cases hw
            | step hk hd =>
              have hmiss := hfind.missed rfl _ hk
              rw [follows_cons, hmiss] at hw
              cases hw.1
        | some c =>
          obtain ⟨hk, hsame⟩ := hfind.found c rfl
          obtain ⟨u', hu', hc⟩ := h.kid_word hk
          rw [hu, Option.some.injEq] at hu'
          subst hu'
          obtain ⟨τ, ρ, hτ, hfit⟩ := h.typed a u c hu hk
          have hτv : τ = v.type := by
            rw [htypes, List.map_cons, List.cons.injEq] at hτ
            exact hτ.1.symm
          have htypes' : restTypes types (u ++ [t.nodes.data c]) =
              (v.pushed ++ vs).map Value.type := by
            rw [restTypes_append, htypes, List.map_cons,
              descend_of_sameAs hv (hτv ▸ hfit) hsame, List.map_append]
          -- at most one child continues a path with the levels of the values
          have honly : NarrowTree t.nodes word → ∀ x w, Down t.nodes word a w x →
              Follows w (levels (v :: vs)) →
              ∃ w', w = t.nodes.data c :: w' ∧ Down t.nodes word c w' x ∧
                Follows w' (levels (v.pushed ++ vs)) := by
            intro hs x w hd hw
            rw [levels_cons] at hw
            cases hd with
            | refl => cases hw
            | step hk' hd =>
              rename_i c' w'
              rw [follows_cons] at hw
              obtain rfl := kid_unique h (hs a) hk hsame hk' hw.1
              exact ⟨w', rfl, hd, hw.2⟩
          have hcr : c ≠ t.root := h.ne_root_of_parent hk.2
          rcases @ih c (u ++ [t.nodes.data c]) (v.pushed ++ vs) (by simpa [levels_cons] using hfuel)
            (fun w hw => (List.mem_append.mp hw).elim (Value.pushed_ok hv w)
              fun hw => hvs w (by simp [hw])) hc htypes' (fun _ => hcr) with
            ⟨b, l, he⟩ | ⟨b, v', rest, n', he⟩
          · obtain ⟨w, hw, hfol⟩ := he.path
            refine .inl ⟨b, l, ⟨t.nodes.data c :: w, by simpa using hw, ?_⟩, he.child, he.ne_root,
              .step hok he.leads, fun hs x w' hd hw' => ?_,
              fun mk many => (hstep mk many).trans (he.run mk many)⟩
            · rw [levels_cons]
              exact .cons hsame hfol
            · obtain ⟨w'', -, hd', hw''⟩ := honly hs x w' hd hw'
              exact he.unique hs x w'' hd' hw''
          · obtain ⟨w, done, hw, hlev, hfol, hty⟩ := he.path
            refine .inr ⟨b, v', rest, n', ⟨t.nodes.data c :: w, v.store :: done, by simpa using hw,
              by rw [levels_cons, hlev]; rfl, .cons hsame hfol, by simpa using hty⟩, he.ok,
              he.child, he.missed, he.count, fun l hl => ?_, fun hs x w' hd hw' => ?_,
              fun mk many => (hstep mk many).trans (he.run mk many)⟩
            · cases hl with
              | step hm hl =>
                rw [hok, Except.ok.injEq, Prod.mk.injEq, Option.some.injEq] at hm
                exact he.stuck l (hm.1 ▸ hl)
            · obtain ⟨w'', -, hd', hw''⟩ := honly hs x w' hd hw'
              exact he.absent hs x w'' hd' hw''

end Trie

/-- The new trie. -/
theorem Tree.new {L : Type} [LeafOps L] (types : List FieldType) :
    Valid types (Trie.new : Trie L) (Function.update (fun _ => none) 0 (some [])) [] := by
  have hword : ∀ a, (Function.update (fun _ => none) 0 (some []) : Words) a =
      if a = 0 then some [] else none := fun a => by simp [Function.update_apply]
  have hkid : ∀ p c, ¬Kid (Trie.new : Trie L).nodes
      (Function.update (fun _ => none) 0 (some [])) p c := by
    rintro p c ⟨hc, hp⟩
    by_cases h0 : c = 0
    · subst h0
      simp [Trie.new, Trie.newNode] at hp
    · simp [h0] at hc
  have hroot : (Trie.new : Trie L).root = 0 := rfl
  have hsome : ∀ {a w}, (Function.update (fun _ => none) 0 (some []) : Words) a = some w →
      a = 0 ∧ w = [] := by
    intro a w hw
    rw [hword] at hw
    split_ifs at hw with h0
    exact ⟨h0, (Option.some.inj hw).symm⟩
  have hchild : ∀ a, (Trie.new : Trie L).nodes.child a = .null := fun a => by
    simp [Trie.new, Trie.newNode]
  refine ⟨⟨?_, ?_, ?_, ?_, ?_, ?_, ?_, ?_, ?_, ?_⟩, ?_, fun _ _ => ?_, ?_,
    ⟨List.nodup_nil, trivial, rfl, rfl, ?_⟩, ⟨?_, ?_⟩⟩
  · simp [hroot]
  · simp [Trie.new, Trie.newNode, Arena.empty]
  · simp [Trie.new, Trie.newNode, Arena.empty]
  · simp [Trie.new, Trie.newNode, Arena.empty]
  · intro a ha
    obtain ⟨w, hw⟩ := Option.isSome_iff_exists.mp ha
    simp [(hsome hw).1, Trie.new, Trie.newNode, Arena.empty, Arena.alloc]
  · exact fun c w hw hc => absurd (hsome hw).1 hc
  · exact fun p u c _ hk => absurd hk (hkid p c)
  · exact fun p u c c' _ hk => absurd hk (hkid p c)
  · exact fun p u l _ hl => by simp [hchild] at hl
  · exact fun p _ _ => .null (hchild p) (hkid p)
  · intro b hb hbr
    obtain ⟨w, hw⟩ := Option.isSome_iff_exists.mp hb
    exact absurd (hsome hw).1 hbr
  · simp [Trie.new, Trie.newNode]
  · intro b hb
    refine .inl ?_
    by_cases h0 : b = 0
    · simp [h0]
    · simp [Trie.new, Trie.newNode, Arena.empty, Arena.alloc, h0] at hb
  · intro l
    simp [Trie.new, Trie.newNode, Arena.empty]
  · simp
  · exact fun b l _ hl => by simp [hchild] at hl

end Meld.Db
