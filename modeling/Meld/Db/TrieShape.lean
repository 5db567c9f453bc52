import Meld.Db.Trie
import Meld.Lib.Linked

/-!
# The shape of a trie

`Shape` describes the nodes and tables of a trie through a map `word` that gives each node of
the tree its path, the stored fields from the root down to it; an object without a path is not
part of the tree (it may be about to be freed). A node's children are the nodes that point to it
as their parent, and `NodeRep` says how they are stored: not at all, in one list, or in a table.

Operations break the storage of one node at a time. `Shape` takes the set of the nodes that are
open in this sense; opening a node (`Shape.mono`), attaching a child to an open node, detaching
one from it (`Shape.attach`, `Shape.detach`), and storing its children again (`Shape.relink`) are
the steps of every operation, and nothing else about the tree changes in them.
-/

namespace Meld.Db

open Meld.Lib Meld.Vm

/-- The paths of the nodes of the tree. -/
abbrev Words := ℕ → Option (List TupleField)

/-- `c` is a node of the tree and a child of `p`. -/
def Kid (N : NodeHeap) (word : Words) (p c : ℕ) : Prop :=
  (word c).isSome ∧ N.parent c = some p

/-- The bucket of a hash value in the table `h`. -/
def HashHeap.item (H : HashHeap) (h x : ℕ) : ℕ := x &&& (H.numBuckets h - 1)

/-- The children `K` are stored in the table `h`, bucket `i` holding the list `chain i`. -/
structure Table (N : NodeHeap) (H : HashHeap) (h : ℕ) (K : ℕ → Prop) (chain : ℕ → List ℕ) :
    Prop where
  size : ∃ k, H.numBuckets h = 2 ^ k
  slot : ∀ i < H.numBuckets h, H.slots h i = (chain i).head?
  linked : ∀ i < H.numBuckets h, Linked N.next N.prev none (chain i)
  nodup : ∀ i < H.numBuckets h, (chain i).Nodup
  mem : ∀ i < H.numBuckets h, ∀ c, c ∈ chain i ↔ K c ∧ H.item h (hashField (N.data c)) = i
  bucket : ∀ c, K c → N.bucket c = some (H.buckets h, H.item h (hashField (N.data c)))

/-- `ks` lists the children of `p`. -/
structure Kids (N : NodeHeap) (word : Words) (p : ℕ) (ks : List ℕ) : Prop where
  nodup : ks.Nodup
  mem : ∀ c, c ∈ ks ↔ Kid N word p c

/-- How the children of a node are stored. -/
inductive NodeRep (N : NodeHeap) (H : HashHeap) (word : Words) (p : ℕ) : Prop
  | null (hc : N.child p = .null) (hk : ∀ c, ¬Kid N word p c)
  | plain (a : ℕ) (ks : List ℕ) (hc : N.child p = .node a) (hh : N.hashed p = false)
      (hks : Kids N word p ks) (hd : ks.head? = some a) (hl : Linked N.next N.prev none ks)
      (hb : ∀ c ∈ ks, N.bucket c = none)
  | table (h : ℕ) (ks : List ℕ) (chain : ℕ → List ℕ) (hc : N.child p = .hash h)
      (hh : N.hashed p = true) (hks : Kids N word p ks) (hne : ks ≠ [])
      (hlive : H.arena.live h = true) (hp : H.parent h = p) (htotal : H.total h = ks.length)
      (ht : Table N H h (Kid N word p) chain)
  | leaf (l : ℕ) (hc : N.child p = .leaf l) (hh : N.hashed p = false)
      (hk : ∀ c, ¬Kid N word p c)

/-- The nodes of the tree, with all but the open ones storing their children properly. -/
structure Shape (types : List FieldType) (N : NodeHeap) (H : HashHeap) (root : ℕ)
    (O : ℕ → Prop) (word : Words) : Prop where
  root_word : word root = some []
  root_parent : N.parent root = none
  root_next : N.next root = none
  root_prev : N.prev root = none
  live : ∀ a, (word a).isSome → N.arena.live a = true
  up : ∀ c w, word c = some w → c ≠ root →
    ∃ p u, N.parent c = some p ∧ word p = some u ∧ w = u ++ [N.data c] ∧ p < c
  typed : ∀ p u c, word p = some u → Kid N word p c →
    ∃ τ ρ, restTypes types u = τ :: ρ ∧ τ.Fits (N.data c)
  distinct : ∀ p u c c', word p = some u → Kid N word p c → Kid N word p c' → c ≠ c' →
    (N.data c).Narrow → (N.data c).sameAs (N.data c') = false
  leaf_typed : ∀ p u l, word p = some u → N.child p = .leaf l → restTypes types u = []
  rep : ∀ p, (word p).isSome → ¬O p → NodeRep N H word p

/-- The table `h` is the same in both heaps. -/
structure SameHash (H H' : HashHeap) (h : ℕ) : Prop where
  live : H'.arena.live h = H.arena.live h
  parent : H'.parent h = H.parent h
  buckets : H'.buckets h = H.buckets h
  slots : H'.slots h = H.slots h
  numBuckets : H'.numBuckets h = H.numBuckets h
  total : H'.total h = H.total h

/-- The node `c` has the same place among its siblings in both heaps. -/
structure SamePlace (N N' : NodeHeap) (c : ℕ) : Prop where
  next : N'.next c = N.next c
  prev : N'.prev c = N.prev c
  bucket : N'.bucket c = N.bucket c

theorem SameHash.refl (H : HashHeap) (h : ℕ) : SameHash H H h := ⟨rfl, rfl, rfl, rfl, rfl, rfl⟩

theorem SameHash.trans {H H' H'' : HashHeap} {h : ℕ} (h₁ : SameHash H H' h)
    (h₂ : SameHash H' H'' h) : SameHash H H'' h :=
  ⟨h₂.live.trans h₁.live, h₂.parent.trans h₁.parent, h₂.buckets.trans h₁.buckets,
    h₂.slots.trans h₁.slots, h₂.numBuckets.trans h₁.numBuckets, h₂.total.trans h₁.total⟩

theorem SamePlace.refl (N : NodeHeap) (c : ℕ) : SamePlace N N c := ⟨rfl, rfl, rfl⟩

theorem SamePlace.trans {N N' N'' : NodeHeap} {c : ℕ} (h₁ : SamePlace N N' c)
    (h₂ : SamePlace N' N'' c) : SamePlace N N'' c :=
  ⟨h₂.next.trans h₁.next, h₂.prev.trans h₁.prev, h₂.bucket.trans h₁.bucket⟩

section

variable {types : List FieldType} {N N' : NodeHeap} {H H' : HashHeap} {root p c h : ℕ}
  {O O' K K' : ℕ → Prop} {word word' : Words} {chain : ℕ → List ℕ} {ks : List ℕ}
  {u : List TupleField}

theorem Table.congr (ht : Table N H h K chain) (hH : SameHash H H' h)
    (hK : ∀ c, K' c ↔ K c) (hplace : ∀ c, K c → SamePlace N N' c)
    (hdata : ∀ c, K c → N'.data c = N.data c) : Table N' H' h K' chain := by
  have hitem : ∀ x, H'.item h x = H.item h x := fun x => by
    rw [HashHeap.item, HashHeap.item, hH.numBuckets]
  refine ⟨hH.numBuckets ▸ ht.size, ?_, ?_, ?_, ?_, ?_⟩
  · rw [hH.numBuckets, hH.slots]
    exact ht.slot
  · rw [hH.numBuckets]
    intro i hi
    have hmem : ∀ x ∈ chain i, K x := fun x hx => ((ht.mem i hi x).mp hx).1
    exact (ht.linked i hi).congr (fun x hx => (hplace x (hmem x hx)).next)
      fun x hx => (hplace x (hmem x hx)).prev
  · rw [hH.numBuckets]
    exact ht.nodup
  · rw [hH.numBuckets]
    intro i hi c
    rw [ht.mem i hi c, hK, hitem]
    exact and_congr_right fun hc => by rw [hdata c hc]
  · intro c hc
    rw [hK] at hc
    rw [(hplace c hc).bucket, hH.buckets, hitem, hdata c hc]
    exact ht.bucket c hc

/-- A node whose child pointer, children and table are the same stores them still. -/
theorem NodeRep.congr (hr : NodeRep N H word p) (hchild : N'.child p = N.child p)
    (hhashed : N'.hashed p = N.hashed p)
    (hkid : ∀ c, Kid N' word' p c ↔ Kid N word p c)
    (hplace : ∀ c, Kid N word p c → SamePlace N N' c)
    (hdata : ∀ c, Kid N word p c → N'.data c = N.data c)
    (hhash : ∀ h, H.parent h = p → H.arena.live h = true → SameHash H H' h) :
    NodeRep N' H' word' p := by
  have hkids : ∀ {ks}, Kids N word p ks → Kids N' word' p ks := fun hks =>
    ⟨hks.nodup, fun c => (hks.mem c).trans (hkid c).symm⟩
  cases hr with
  | null hc hk => exact .null (hchild.trans hc) fun c hkc => hk c ((hkid c).mp hkc)
  | plain a ks hc hh hks hd hl hb =>
    have hplace' := fun c hc => hplace c ((hks.mem c).mp hc)
    refine .plain a ks (hchild.trans hc) (hhashed.trans hh) (hkids hks) hd ?_ fun c hc => ?_
    · exact hl.congr (fun x hx => (hplace' x hx).next) fun x hx => (hplace' x hx).prev
    · rw [(hplace' c hc).bucket, hb c hc]
  | table h ks chain hc hh hks hne hlive hp htotal ht =>
    have hH := hhash h hp hlive
    exact .table h ks chain (hchild.trans hc) (hhashed.trans hh) (hkids hks) hne
      (hH.live.trans hlive) (hH.parent.trans hp) (hH.total.trans htotal)
      (ht.congr hH hkid hplace hdata)
  | leaf l hc hh hk =>
    exact .leaf l (hchild.trans hc) (hhashed.trans hh) fun c hkc => hk c ((hkid c).mp hkc)

namespace Shape

theorem root_some (h : Shape types N H root O word) : (word root).isSome := by simp [h.root_word]

/-- More nodes may be open. -/
theorem mono (h : Shape types N H root O word) (hO : ∀ a, O a → O' a) :
    Shape types N H root O' word :=
  { h with rep := fun p hp hO' => h.rep p hp fun ho => hO' (hO p ho) }

theorem ne_root_of_parent (h : Shape types N H root O word) (hp : N.parent c = some p) :
    c ≠ root := by
  rintro rfl
  rw [h.root_parent] at hp
  cases hp

theorem parent_lt (h : Shape types N H root O word) (hk : Kid N word p c) : p < c := by
  obtain ⟨w, hw⟩ := Option.isSome_iff_exists.mp hk.1
  obtain ⟨q, u, hq, -, -, hlt⟩ := h.up c w hw (h.ne_root_of_parent hk.2)
  rw [hk.2, Option.some.injEq] at hq
  exact hq ▸ hlt

/-- A child's path extends its parent's. -/
theorem kid_word (h : Shape types N H root O word) (hk : Kid N word p c) :
    ∃ u, word p = some u ∧ word c = some (u ++ [N.data c]) := by
  obtain ⟨w, hw⟩ := Option.isSome_iff_exists.mp hk.1
  obtain ⟨q, u, hq, hu, hwu, -⟩ := h.up c w hw (h.ne_root_of_parent hk.2)
  rw [hk.2, Option.some.injEq] at hq
  exact ⟨u, hq ▸ hu, hwu ▸ hw⟩

theorem kid_parent_some (h : Shape types N H root O word) (hk : Kid N word p c) :
    (word p).isSome := by
  obtain ⟨u, hu, -⟩ := h.kid_word hk
  simp [hu]

theorem exists_parent (h : Shape types N H root O word) (hc : (word c).isSome) (hr : c ≠ root) :
    ∃ p, Kid N word p c := by
  obtain ⟨w, hw⟩ := Option.isSome_iff_exists.mp hc
  obtain ⟨p, -, hp, -⟩ := h.up c w hw hr
  exact ⟨p, hc, hp⟩

/-- An object that is not part of the tree has no children. -/
theorem no_kid (h : Shape types N H root O word) (hp : word p = none) : ¬Kid N word p c :=
  fun hk => by simpa [hp] using h.kid_parent_some hk

/-- Storing the children of `p` again. Only the places of the children of `p`, what `p` points
to, and the tables of `p` change. -/
theorem relink (h : Shape types N H root O word)
    (hcore : ∀ b, (word b).isSome → N'.parent b = N.parent b ∧ N'.data b = N.data b)
    (hlive : ∀ b, (word b).isSome → N.arena.live b = true → N'.arena.live b = true)
    (hchild : ∀ b, (word b).isSome → b ≠ p → ¬O' b →
      N'.child b = N.child b ∧ N'.hashed b = N.hashed b)
    (hplace : ∀ b, (word b).isSome → N.parent b ≠ some p → SamePlace N N' b)
    (hhash : ∀ h, H.parent h ≠ p → H.arena.live h = true → SameHash H H' h)
    (hO : ∀ b, b ≠ p → ¬O' b → ¬O b)
    (hleaf : ∀ b u l, word b = some u → N'.child b = .leaf l → restTypes types u = [])
    (hrep : (word p).isSome → ¬O' p → NodeRep N' H' word p) :
    Shape types N' H' root O' word := by
  have hkid : ∀ q c, Kid N' word q c ↔ Kid N word q c := fun q c =>
    and_congr_right fun hc => by rw [(hcore c hc).1]
  have hroot := hplace root h.root_some (by simp [h.root_parent])
  refine ⟨h.root_word, (hcore root h.root_some).1.trans h.root_parent,
    hroot.next.trans h.root_next, hroot.prev.trans h.root_prev,
    fun a ha => hlive a ha (h.live a ha), ?_, ?_, ?_, hleaf, ?_⟩
  · intro c w hw hc
    have hsome := Option.isSome_of_eq_some hw
    rw [(hcore c hsome).1, (hcore c hsome).2]
    exact h.up c w hw hc
  · intro q u c hu hk
    rw [(hcore c hk.1).2]
    exact h.typed q u c hu ((hkid q c).mp hk)
  · intro q u c c' hu hk hk' hne
    rw [(hcore c hk.1).2, (hcore c' hk'.1).2]
    exact h.distinct q u c c' hu ((hkid q c).mp hk) ((hkid q c').mp hk') hne
  · intro q hq hOq
    by_cases hqp : q = p
    · exact hqp ▸ hrep (hqp ▸ hq) (hqp ▸ hOq)
    · obtain ⟨hc, hh⟩ := hchild q hq hqp hOq
      refine (h.rep q hq (hO q hqp hOq)).congr hc hh (hkid q) (fun c hk => ?_)
        (fun c hk => (hcore c hk.1).2) fun g hg hl => hhash g (hg ▸ hqp) hl
      exact hplace c hk.1 (by rw [hk.2]; simpa using hqp)

/-- Objects that are not part of the tree may change. -/
theorem frame (h : Shape types N H root O word)
    (hcore : ∀ b, (word b).isSome → N'.parent b = N.parent b ∧ N'.data b = N.data b)
    (hlive : ∀ b, (word b).isSome → N.arena.live b = true → N'.arena.live b = true)
    (hchild : ∀ b, (word b).isSome → N'.child b = N.child b ∧ N'.hashed b = N.hashed b)
    (hplace : ∀ b, (word b).isSome → SamePlace N N' b)
    (hhash : ∀ h, H.arena.live h = true → SameHash H H' h) : Shape types N' H' root O word := by
  have hfresh : word N.arena.next = none := by
    by_contra hn
    have hl := h.live _ (Option.isSome_iff_ne_none.mpr hn)
    exact absurd (Arena.lt_next hl) (lt_irrefl _)
  refine h.relink (p := N.arena.next) hcore hlive (fun b hb _ _ => hchild b hb)
    (fun b hb _ => hplace b hb) (fun g _ => hhash g) (fun _ _ => id) (fun b u l hu hl => ?_)
    fun hs => by simp [hfresh] at hs
  exact h.leaf_typed b u l hu ((hchild b (Option.isSome_of_eq_some hu)).1 ▸ hl)

/-- An open node that stores its children properly is closed. -/
theorem close (h : Shape types N H root O word) (hO : ∀ b, b ≠ p → O b → O' b)
    (hrep : NodeRep N H word p) : Shape types N H root O' word :=
  { h with
    rep := fun b hb hOb => by
      by_cases hbp : b = p
      · exact hbp ▸ hrep
      · exact h.rep b hb fun ho => hOb (hO b hbp ho) }

/-- Attaching a new node to an open one. -/
theorem attach (h : Shape types N H root O word) (hc : word c = none) (hp : word p = some u)
    (hOp : O p) (hOc : O c) (hparent : N.parent c = some p) (hlt : p < c)
    (hlive : N.arena.live c = true) (hchild : ∀ l, N.child c ≠ .leaf l)
    (htyped : ∃ τ ρ, restTypes types u = τ :: ρ ∧ τ.Fits (N.data c))
    (hdist : ∀ b, Kid N word p b → (N.data b).sameAs (N.data c) = false) :
    Shape types N H root O (Function.update word c (some (u ++ [N.data c]))) := by
  -- only the new child gets a word
  have hold : ∀ b, (word b).isSome →
      Function.update word c (some (u ++ [N.data c])) b = word b := by
    intro b hb
    refine Function.update_of_ne ?_ _ _
    rintro rfl
    simp [hc] at hb
  have hself : Function.update word c (some (u ++ [N.data c])) c = some (u ++ [N.data c]) := by simp
  -- and only its parent gets a child
  have hkid : ∀ q b, Kid N (Function.update word c (some (u ++ [N.data c]))) q b ↔
      Kid N word q b ∨ q = p ∧ b = c := by
    intro q b
    by_cases hb : b = c
    · subst hb
      simp [Kid, hc, hparent, eq_comm]
    · simp [Kid, hb]
  refine ⟨?_, h.root_parent, h.root_next, h.root_prev, ?_, ?_, ?_, ?_, ?_, ?_⟩
  · -- the root keeps its word
    rw [hold root h.root_some, h.root_word]
  · intro a ha
    by_cases hac : a = c
    · exact hac ▸ hlive
    · exact h.live a (by rwa [Function.update_of_ne hac] at ha)
  · -- every node but the root has its parent's word in front of its own
    intro b w hw hb
    by_cases hbc : b = c
    · subst hbc
      rw [hself, Option.some.injEq] at hw
      exact ⟨p, u, hparent, by rw [hold p (by simp [hp]), hp], hw.symm, hlt⟩
    · rw [Function.update_of_ne hbc] at hw
      obtain ⟨q, v, hq, hv, hwv, hlt⟩ := h.up b w hw hb
      exact ⟨q, v, hq, by rw [hold q (by simp [hv]), hv], hwv, hlt⟩
  · -- the new child fits its level
    intro q v b hv hk
    rcases (hkid q b).mp hk with hk | ⟨rfl, rfl⟩
    · rw [hold q (h.kid_parent_some hk)] at hv
      exact h.typed q v b hv hk
    · rw [hold q (by simp [hp]), hp, Option.some.injEq] at hv
      exact hv ▸ htyped
  · -- no two children have the same value
    intro q v b b' hv hk hk' hne hnarrow
    rcases (hkid q b).mp hk with hkb | ⟨hq, hb⟩
    · rw [hold q (h.kid_parent_some hkb)] at hv
      rcases (hkid q b').mp hk' with hkb' | ⟨rfl, rfl⟩
      · exact h.distinct q v b b' hv hkb hkb' hne hnarrow
      · exact hdist b hkb
    · rcases (hkid q b').mp hk' with hkb' | ⟨-, hb'⟩
      · by_contra hs
        rw [Bool.not_eq_false] at hs
        have hnot := hdist b' (hq ▸ hkb')
        rw [← hb, TupleField.sameAs_symm hnarrow hs] at hnot
        cases hnot
      · exact absurd (hb.trans hb'.symm) hne
  · -- the new node is no leaf
    intro q v l hv hl
    by_cases hqc : q = c
    · exact absurd (hqc ▸ hl) (hchild l)
    · rw [Function.update_of_ne hqc] at hv
      exact h.leaf_typed q v l hv hl
  · -- the representation of the other nodes is as it was
    intro q hq hOq
    have hqc : q ≠ c := by
      rintro rfl
      exact hOq hOc
    have hqp : q ≠ p := by
      rintro rfl
      exact hOq hOp
    rw [Function.update_of_ne hqc] at hq
    refine (h.rep q hq hOq).congr rfl rfl (fun b => ?_) (fun b _ => .refl N b) (fun _ _ => rfl)
      fun g _ _ => .refl H g
    rw [hkid]
    simp [hqp]

/-- Detaching a node without children from an open one. -/
theorem detach (h : Shape types N H root O word) (hkids : ∀ b, ¬Kid N word c b)
    (hparent : N.parent c = some p) (hOp : O p) :
    Shape types N H root O (Function.update word c none) := by
  have hcr : c ≠ root := h.ne_root_of_parent hparent
  have hkid : ∀ q b, Kid N (Function.update word c none) q b ↔ Kid N word q b ∧ b ≠ c := by
    intro q b
    by_cases hb : b = c
    · simp [Kid, hb]
    · simp [Kid, hb]
  have hword : ∀ {b w}, Function.update word c none b = some w → b ≠ c ∧ word b = some w := by
    intro b w hb
    by_cases hbc : b = c
    · simp [hbc] at hb
    · exact ⟨hbc, by rwa [Function.update_of_ne hbc] at hb⟩
  have hsome : ∀ {b}, (Function.update word c none b).isSome → b ≠ c ∧ (word b).isSome := by
    intro b hb
    obtain ⟨w, hw⟩ := Option.isSome_iff_exists.mp hb
    exact ⟨(hword hw).1, by simp [(hword hw).2]⟩
  refine ⟨?_, h.root_parent, h.root_next, h.root_prev, fun a ha => h.live a (hsome ha).2, ?_, ?_,
    ?_, ?_, ?_⟩
  · rw [Function.update_of_ne hcr.symm, h.root_word]
  · intro b w hw hb
    obtain ⟨-, hwb⟩ := hword hw
    obtain ⟨q, v, hq, hv, hwv, hlt⟩ := h.up b w hwb hb
    have hqc : q ≠ c := by
      rintro rfl
      exact hkids b ⟨Option.isSome_of_eq_some hwb, hq⟩
    exact ⟨q, v, hq, by rw [Function.update_of_ne hqc, hv], hwv, hlt⟩
  · intro q v b hv hk
    exact h.typed q v b (hword hv).2 ((hkid q b).mp hk).1
  · intro q v b b' hv hk hk' hne
    exact h.distinct q v b b' (hword hv).2 ((hkid q b).mp hk).1 ((hkid q b').mp hk').1 hne
  · intro q v l hv hl
    exact h.leaf_typed q v l (hword hv).2 hl
  · intro q hq hOq
    have hqp : q ≠ p := by
      rintro rfl
      exact hOq hOp
    refine (h.rep q (hsome hq).2 hOq).congr rfl rfl (fun b => ?_) (fun b _ => .refl N b)
      (fun _ _ => rfl) fun g _ _ => .refl H g
    rw [hkid, and_iff_left_iff_imp]
    rintro hk rfl
    exact hqp (Option.some.inj (hk.2.symm.trans hparent))

end Shape

end

end Meld.Db
