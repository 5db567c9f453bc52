import Meld.Queue.BoundedPqueue

/-!
# The tree of the bounded queue

`AddrTree` is the tree that the pointers of the nodes spell. `Counted` says that the counter of each
inner node is the number of elements in the bins on its left. A walk from a leaf up to the root or
from the root down to the first leaf with elements keeps this for the elements that are there
afterwards, and takes fewer steps than the tree has leaves.
-/

namespace Meld.Queue

open Lib

/-- A binary tree of addresses. -/
inductive AddrTree
  | leaf (a : ℕ)
  | node (a : ℕ) (l r : AddrTree)

namespace AddrTree

/-- The address of the root. -/
def root : AddrTree → ℕ
  | leaf a => a
  | node a _ _ => a

/-- The addresses of all nodes. -/
def addrs : AddrTree → List ℕ
  | leaf a => [a]
  | node a l r => a :: (l.addrs ++ r.addrs)

/-- The addresses of the leaves, from left to right. -/
def leaves : AddrTree → List ℕ
  | leaf a => [a]
  | node _ l r => l.leaves ++ r.leaves

/-- The pointers of the nodes spell the tree, below the node `p`. -/
def Shape (parent left right : ℕ → Option ℕ) : Option ℕ → AddrTree → Prop
  | p, leaf a => parent a = p ∧ left a = none ∧ right a = none
  | p, node a l r => parent a = p ∧ left a = some l.root ∧ right a = some r.root ∧
      Shape parent left right (some a) l ∧ Shape parent left right (some a) r

/-- The elements in the bins of the tree. -/
def sum (size : ℕ → ℕ) (t : AddrTree) : ℕ := (t.leaves.map size).sum

/-- Each counter is the number of elements on the left. -/
def Counted (counter size : ℕ → ℕ) : AddrTree → Prop
  | leaf _ => True
  | node a l r => counter a = l.sum size ∧ Counted counter size l ∧ Counted counter size r

variable {t l r : AddrTree} {a x : ℕ} {counter counter' size size' : ℕ → ℕ} {k m : ℕ}

@[simp] theorem sum_leaf : (leaf a).sum size = size a := by simp [sum, leaves]

@[simp] theorem sum_node : (node a l r).sum size = l.sum size + r.sum size := by
  simp [sum, leaves]

/-- The root is one of the addresses. -/
theorem root_mem (t : AddrTree) : t.root ∈ t.addrs := by cases t <;> simp [root, addrs]

/-- The leaves are some of the addresses. -/
theorem leaves_subset (t : AddrTree) : t.leaves ⊆ t.addrs := by
  induction t with
  | leaf a => simp [leaves, addrs]
  | node a l r ihl ihr =>
    intro x hx
    rcases List.mem_append.mp hx with hx | hx
    · simp [addrs, ihl hx]
    · simp [addrs, ihr hx]

/-- The parent of the root is the one given. -/
theorem Shape.parent_root {parent left right : ℕ → Option ℕ} {p : Option ℕ}
    (h : Shape parent left right p t) : parent t.root = p := by
  cases t <;> exact h.1

/-- A tree has a leaf. -/
theorem leaves_length_pos (t : AddrTree) : 0 < t.leaves.length := by
  induction t with
  | leaf a => simp [leaves]
  | node a l r ihl ihr =>
    rw [leaves, List.length_append]
    omega

/-- The parts of a tree have no address in common. -/
theorem nodup_node (h : (node a l r).addrs.Nodup) :
    a ∉ l.addrs ∧ a ∉ r.addrs ∧ l.addrs.Nodup ∧ r.addrs.Nodup ∧ l.addrs.Disjoint r.addrs := by
  obtain ⟨ha, hlr⟩ := List.nodup_cons.mp h
  rw [List.mem_append, not_or] at ha
  obtain ⟨hl, hr, hdisj⟩ := List.nodup_append'.mp hlr
  exact ⟨ha.1, ha.2, hl, hr, hdisj⟩

/-- The leaves are different if the addresses are. -/
theorem nodup_leaves (h : t.addrs.Nodup) : t.leaves.Nodup := by
  induction t with
  | leaf a => simp [leaves]
  | node a l r ihl ihr =>
    obtain ⟨-, -, hl, hr, hdisj⟩ := nodup_node h
    exact List.nodup_append'.mpr ⟨ihl hl, ihr hr, fun x hx hx' =>
      hdisj (l.leaves_subset hx) (r.leaves_subset hx')⟩

/-- A leaf has no more than the whole tree. -/
theorem size_le_sum (size : ℕ → ℕ) (t : AddrTree) (hx : x ∈ t.leaves) : size x ≤ t.sum size :=
  List.single_le_sum (fun _ _ => Nat.zero_le _) _ (List.mem_map_of_mem hx)

/-- The sum depends on the leaves only. -/
theorem sum_congr (h : ∀ x ∈ t.leaves, size' x = size x) : t.sum size' = t.sum size := by
  rw [sum, List.map_congr_left h, sum]

/-- Whether a tree is counted depends on its own addresses. -/
theorem Counted.congr (h : Counted counter size t) (hc : ∀ x ∈ t.addrs, counter' x = counter x)
    (hs : ∀ x ∈ t.leaves, size' x = size x) : Counted counter' size' t := by
  induction t with
  | leaf a => trivial
  | node a l r ihl ihr =>
    refine ⟨?_, ihl h.2.1 (fun x hx => hc x (by simp [addrs, hx])) fun x hx =>
        hs x (by simp [leaves, hx]),
      ihr h.2.2 (fun x hx => hc x (by simp [addrs, hx])) fun x hx => hs x (by simp [leaves, hx])⟩
    rw [hc a (by simp [addrs]), h.1, sum_congr fun x hx => hs x (by simp [leaves, hx])]

/-- The elements when one bin changes. -/
theorem sum_update (size : ℕ → ℕ) (m : ℕ) (hn : t.leaves.Nodup) (hx : x ∈ t.leaves) :
    t.sum (Function.update size x m) + size x = t.sum size + m := by
  rw [sum, sum]
  generalize t.leaves = ys at hn hx
  induction ys with
  | nil => cases hx
  | cons y ys ih =>
    obtain ⟨hy, hys⟩ := List.nodup_cons.mp hn
    rcases List.mem_cons.mp hx with rfl | hx
    · have hrest : ys.map (Function.update size x m) = ys.map size :=
        List.map_congr_left fun z hz => by
          have hne : z ≠ x := fun he => hy (he ▸ hz)
          rw [Function.update_of_ne hne]
      rw [List.map_cons, List.map_cons, hrest, Function.update_self, List.sum_cons, List.sum_cons]
      omega
    · have hne : y ≠ x := fun he => hy (he ▸ hx)
      have ih := ih hys hx
      rw [List.map_cons, List.map_cons, Function.update_of_ne hne, List.sum_cons, List.sum_cons]
      omega

/-- A change elsewhere leaves the sum. -/
theorem sum_update_of_notMem (hx : x ∉ t.leaves) : t.sum (Function.update size x m) = t.sum size :=
  sum_congr fun y hy => by
    have hne : y ≠ x := fun he => hx (he ▸ hy)
    rw [Function.update_of_ne hne]

/-- One part of a tree changes, and not the other. -/
theorem Counted.frame (h : Counted counter size t) {ts : List ℕ} (hdisj : t.addrs.Disjoint ts)
    (hc : ∀ y, y ∉ ts → counter' y = counter y) (hx : x ∈ ts) :
    Counted counter' (Function.update size x m) t :=
  h.congr (fun y hy => hc y fun hm => hdisj hy hm) fun y hy => by
    have hne : y ≠ x := fun he => hdisj (t.leaves_subset hy) (he ▸ hx)
    rw [Function.update_of_ne hne]

end AddrTree

open AddrTree

variable {C : Type} {H : TreeHeap C} {t : AddrTree} {p : Option ℕ} {x root : ℕ} {upd : ℕ → ℕ}
  {size : ℕ → ℕ} {m : ℕ}

/-! ### Walks -/

/-- The loop up from a leaf, when the number of its elements changes from `size x` to `m`. -/
theorem climb_spec (hs : Shape H.parent H.left H.right p t) (hn : t.addrs.Nodup)
    (hx : x ∈ t.leaves) (hroot : ∀ y ∈ t.addrs, y ≠ t.root → y ≠ root)
    (hc : Counted H.counter size t) (hupd : ∀ n, size x ≤ n → upd n + size x = n + m) :
    ∃ (d : ℕ) (c : ℕ → ℕ), d < t.leaves.length ∧
      (∀ fuel, iterate (BoundedPqueue.climbStep root upd) (fuel + d) (H, x) =
        iterate (BoundedPqueue.climbStep root upd) fuel ({ H with counter := c }, t.root)) ∧
      (∀ y, y ∉ t.addrs → c y = H.counter y) ∧ Counted c (Function.update size x m) t := by
  induction t generalizing p with
  | leaf a =>
    obtain rfl := List.mem_singleton.mp hx
    exact ⟨0, H.counter, by simp [leaves], fun fuel => rfl, fun _ _ => rfl, trivial⟩
  | node a l r ihl ihr =>
    obtain ⟨hp, hleft, hright, hsl, hsr⟩ := hs
    obtain ⟨hal, har, hnl, hnr, hdisj⟩ := nodup_node hn
    have hlen : (AddrTree.node a l r).leaves.length = l.leaves.length + r.leaves.length := by
      simp [leaves]
    have hl := l.leaves_length_pos
    have hr := r.leaves_length_pos
    rcases List.mem_append.mp hx with hxl | hxr
    · have hroot' : ∀ y ∈ l.addrs, y ≠ root := fun y hy =>
        hroot y (by simp [addrs, hy]) fun he : y = a => hal (he ▸ hy)
      obtain ⟨d, c, hd, hrun, hout, hcount⟩ := ihl hsl hnl hxl (fun y hy _ => hroot' y hy) hc.2.1
      have hca : c a = l.sum size := (hout a hal).trans hc.1
      have hxl' := l.leaves_subset hxl
      refine ⟨d + 1, Function.update c a (upd (c a)), by omega, fun fuel => ?_, fun y hy => ?_, ?_⟩
      · rw [← Nat.add_assoc, Nat.add_right_comm, hrun, iterate]
        simp only [BoundedPqueue.climbStep, if_neg (hroot' _ l.root_mem), hsl.parent_root,
          deref_some, ok_bind, hleft, if_true, pure_eq_ok]
        rfl
      · rw [addrs, List.mem_cons, not_or, List.mem_append, not_or] at hy
        rw [Function.update_of_ne hy.1, hout y hy.2.1]
      · have hkeep : ∀ y, y ≠ a → Function.update c a (upd (c a)) y = c y := fun y hy =>
          Function.update_of_ne hy _ _
        refine ⟨?_, hcount.congr (fun y hy => hkeep y fun he => hal (he ▸ hy)) fun _ _ => rfl, ?_⟩
        · have hsum := sum_update size m (nodup_leaves hnl) hxl
          have hle : size x ≤ l.sum size := l.size_le_sum size hxl
          have hnew := hupd _ hle
          rw [Function.update_self, hca]
          omega
        · refine (hc.2.2.frame (List.disjoint_comm.mp hdisj) hout hxl').congr (fun y hy => ?_)
            fun _ _ => rfl
          exact hkeep y fun he => har (he ▸ hy)
    · have hroot' : ∀ y ∈ r.addrs, y ≠ root := fun y hy =>
        hroot y (by simp [addrs, hy]) fun he : y = a => har (he ▸ hy)
      obtain ⟨d, c, hd, hrun, hout, hcount⟩ := ihr hsr hnr hxr (fun y hy _ => hroot' y hy) hc.2.2
      have hxr' := r.leaves_subset hxr
      have hne : r.root ≠ l.root := fun he => hdisj l.root_mem (he ▸ r.root_mem)
      refine ⟨d + 1, c, by omega, fun fuel => ?_, fun y hy => ?_, ?_⟩
      · have hne' : some r.root ≠ some l.root := by simpa using hne
        rw [← Nat.add_assoc, Nat.add_right_comm, hrun, iterate]
        simp only [BoundedPqueue.climbStep, if_neg (hroot' _ r.root_mem), hsr.parent_root,
          deref_some, ok_bind, hleft, if_neg hne', pure_eq_ok]
        rfl
      · rw [addrs, List.mem_cons, not_or, List.mem_append, not_or] at hy
        exact hout y hy.2.2
      · have hxl : x ∉ l.leaves := fun hm => hdisj (l.leaves_subset hm) hxr'
        refine ⟨?_, hc.2.1.frame hdisj hout hxr', hcount⟩
        rw [hout a har, hc.1, sum_update_of_notMem hxl]

/-- The loop down to the first bin with elements, when `k` of them are counted off on the way. -/
theorem descend_spec {k : ℕ} (hs : Shape H.parent H.left H.right p t) (hn : t.addrs.Nodup)
    (hc : Counted H.counter size t) (hpos : 0 < t.sum size) (hk : k ≤ 1)
    (hupd : ∀ n, 0 < n → upd n + k = n) :
    ∃ (d : ℕ) (c : ℕ → ℕ) (xs : List ℕ) (x : ℕ) (ys : List ℕ), d < t.leaves.length ∧
      t.leaves = xs ++ x :: ys ∧ (∀ y ∈ xs, size y = 0) ∧ 0 < size x ∧ H.right x = none ∧
      (∀ fuel, iterate (BoundedPqueue.descendStep upd) (fuel + d) (H, t.root) =
        iterate (BoundedPqueue.descendStep upd) fuel ({ H with counter := c }, x)) ∧
      (∀ y, y ∉ t.addrs → c y = H.counter y) ∧
      Counted c (Function.update size x (size x - k)) t := by
  -- the descent follows the shape of the tree, with the counters of what it has passed lowered
  induction t generalizing p H with
  | leaf a =>
    rw [sum_leaf] at hpos
    exact ⟨0, H.counter, [], a, [], by simp [leaves], rfl, by simp, hpos, hs.2.2,
      fun fuel => rfl, fun _ _ => rfl, trivial⟩
  | node a l r ihl ihr =>
    obtain ⟨hp, hleft, hright, hsl, hsr⟩ := hs
    obtain ⟨hal, har, hnl, hnr, hdisj⟩ := nodup_node hn
    have hlen : (AddrTree.node a l r).leaves.length = l.leaves.length + r.leaves.length := by
      simp [leaves]
    have hl := l.leaves_length_pos
    have hr := r.leaves_length_pos
    have hinner : ∀ c : ℕ → ℕ, ¬TreeHeap.isLeaf { H with counter := c } a = true := fun c => by
      simp [TreeHeap.isLeaf, hright]
    by_cases hsum : 0 < l.sum size
    · -- the first elements are on the left
      have hkeep : ∀ y, y ≠ a → Function.update H.counter a (upd (H.counter a)) y = H.counter y :=
        fun y hy => Function.update_of_ne hy _ _
      have hcl : Counted (Function.update H.counter a (upd (H.counter a))) size l :=
        hc.2.1.congr (fun y hy => hkeep y fun he => hal (he ▸ hy)) fun _ _ => rfl
      obtain ⟨d, c, xs, x, ys, hd, hleaves, hxs, hx, hend, hrun, hout, hcount⟩ := ihl
        (H := { H with counter := Function.update H.counter a (upd (H.counter a)) }) hsl hnl hcl hsum
      have hxl : x ∈ l.leaves := by simp [hleaves]
      refine ⟨d + 1, c, xs, x, ys ++ r.leaves, by omega, by simp [leaves, hleaves], hxs, hx, hend,
        fun fuel => ?_, fun y hy => ?_, ?_, hcount, ?_⟩
      · rw [← Nat.add_assoc, iterate]
        have hcount : 0 < H.counter a := by rw [hc.1]; omega
        simp only [BoundedPqueue.descendStep, AddrTree.root, if_neg (hinner H.counter),
          if_pos hcount, hleft, deref_some, ok_bind, pure_eq_ok]
        exact hrun fuel
      · rw [addrs, List.mem_cons, not_or, List.mem_append, not_or] at hy
        exact (hout y hy.2.1).trans (hkeep y hy.1)
      · have hnew := sum_update size (size x - k) (nodup_leaves hnl) hxl
        have hold := hupd _ hsum
        have hca : c a = upd (l.sum size) := by
          rw [hout a hal, ← hc.1]
          exact Function.update_self ..
        rw [hca]
        omega
      · refine (hc.2.2.congr (fun y hy => hkeep y fun he => har (he ▸ hy)) fun _ _ => rfl).frame
          (List.disjoint_comm.mp hdisj) hout (l.leaves_subset hxl)
    · -- the left side is empty, and the first elements are on the right
      have hzero : l.sum size = 0 := by omega
      obtain ⟨d, c, xs, x, ys, hd, hleaves, hxs, hx, hend, hrun, hout, hcount⟩ := ihr hsr hnr hc.2.2
        (by rw [sum_node] at hpos; omega)
      have hxr : x ∈ r.leaves := by simp [hleaves]
      have hxr' := r.leaves_subset hxr
      have hxl : x ∉ l.leaves := fun hm => hdisj (l.leaves_subset hm) hxr'
      refine ⟨d + 1, c, l.leaves ++ xs, x, ys, by omega, by simp [leaves, hleaves], fun y hy => ?_,
        hx, hend, fun fuel => ?_, fun y hy => ?_, ?_, hc.2.1.frame hdisj hout hxr', hcount⟩
      · rcases List.mem_append.mp hy with hy | hy
        · have := l.size_le_sum size hy
          omega
        · exact hxs y hy
      · rw [← Nat.add_assoc, iterate]
        have hcount : ¬0 < H.counter a := by rw [hc.1]; omega
        simp only [BoundedPqueue.descendStep, AddrTree.root, if_neg (hinner H.counter),
          if_neg hcount, hright, deref_some, ok_bind, pure_eq_ok]
        exact hrun fuel
      · rw [addrs, List.mem_cons, not_or, List.mem_append, not_or] at hy
        exact hout y hy.2.2
      · rw [hout a har, hc.1, sum_update_of_notMem hxl]

/-! ### Building the tree -/

section

variable {T : Type} [Bin C T] {H' H'' : TreeHeap C} {n : ℕ}

/-- The nodes below `n` are as before. -/
structure TreeHeap.Kept (H H' : TreeHeap C) (n : ℕ) : Prop where
  parent : ∀ y < n, H'.parent y = H.parent y
  left : ∀ y < n, H'.left y = H.left y
  right : ∀ y < n, H'.right y = H.right y
  counter : ∀ y < n, H'.counter y = H.counter y
  bin : ∀ y < n, H'.bin y = H.bin y

/-- What two extensions keep, one after the other. -/
theorem TreeHeap.Kept.trans {k : ℕ} (h : H.Kept H' n) (h' : H'.Kept H'' k) (hk : n ≤ k) :
    H.Kept H'' n where
  parent y hy := (h'.parent y (by omega)).trans (h.parent y hy)
  left y hy := (h'.left y (by omega)).trans (h.left y hy)
  right y hy := (h'.right y (by omega)).trans (h.right y hy)
  counter y hy := (h'.counter y (by omega)).trans (h.counter y hy)
  bin y hy := (h'.bin y (by omega)).trans (h.bin y hy)

/-- A tree of new nodes between `n` and `H.next`, without elements. -/
structure Built (H : TreeHeap C) (n : ℕ) (t : AddrTree) : Prop where
  shape : Shape H.parent H.left H.right none t
  nodup : t.addrs.Nodup
  bounds : ∀ y ∈ t.addrs, n ≤ y ∧ y < H.next
  counter : ∀ y ∈ t.addrs, H.counter y = 0
  bin : ∀ y ∈ t.leaves, H.bin y = Bin.new

/-- A new node keeps the others. -/
theorem TreeHeap.Kept.newNode (H : TreeHeap C) : H.Kept H.newNode.1 H.next where
  parent _ hy := Function.update_of_ne (Nat.ne_of_lt hy) _ _
  left _ hy := Function.update_of_ne (Nat.ne_of_lt hy) _ _
  right _ hy := Function.update_of_ne (Nat.ne_of_lt hy) _ _
  counter _ hy := Function.update_of_ne (Nat.ne_of_lt hy) _ _
  bin _ hy := Function.update_of_ne (Nat.ne_of_lt hy) _ _

/-- A new node is a tree with one leaf. -/
theorem Built.newNode (H : TreeHeap C) : Built H.newNode.1 H.next (.leaf H.next) where
  shape := ⟨Function.update_self .., Function.update_self .., Function.update_self ..⟩
  nodup := List.nodup_singleton _
  bounds y hy := by
    rw [List.mem_singleton.mp hy]
    exact ⟨le_rfl, Nat.lt_succ_self _⟩
  counter y hy := by
    rw [List.mem_singleton.mp hy]
    exact Function.update_self ..
  bin y hy := by
    rw [List.mem_singleton.mp hy]
    exact Function.update_self ..

/-- The shape only depends on the pointers of the nodes, and on the parent of the root. -/
theorem AddrTree.Shape.congr {parent left right parent' left' right' : ℕ → Option ℕ} {p q : Option ℕ}
    (h : Shape parent left right p t) (hn : t.addrs.Nodup) (hroot : parent' t.root = q)
    (hp : ∀ y ∈ t.addrs, y ≠ t.root → parent' y = parent y)
    (hl : ∀ y ∈ t.addrs, left' y = left y) (hr : ∀ y ∈ t.addrs, right' y = right y) :
    Shape parent' left' right' q t := by
  induction t generalizing p q with
  | leaf a =>
    exact ⟨hroot, (hl a (by simp [addrs])).trans h.2.1, (hr a (by simp [addrs])).trans h.2.2⟩
  | node a l r ihl ihr =>
    obtain ⟨-, hleft, hright, hsl, hsr⟩ := h
    obtain ⟨hal, har, hnl, hnr, hdisj⟩ := nodup_node hn
    have hla : ∀ y ∈ l.addrs, y ∈ (AddrTree.node a l r).addrs ∧ y ≠ a := fun y hy =>
      ⟨by simp [addrs, hy], fun he => hal (he ▸ hy)⟩
    have hra : ∀ y ∈ r.addrs, y ∈ (AddrTree.node a l r).addrs ∧ y ≠ a := fun y hy =>
      ⟨by simp [addrs, hy], fun he => har (he ▸ hy)⟩
    refine ⟨hroot, (hl a (by simp [addrs])).trans hleft, (hr a (by simp [addrs])).trans hright,
      ihl hsl hnl ?_ (fun y hy _ => hp y (hla y hy).1 (hla y hy).2)
        (fun y hy => hl y (hla y hy).1) fun y hy => hr y (hla y hy).1,
      ihr hsr hnr ?_ (fun y hy _ => hp y (hra y hy).1 (hra y hy).2)
        (fun y hy => hl y (hra y hy).1) fun y hy => hr y (hra y hy).1⟩
    · rw [hp _ (hla _ l.root_mem).1 (hla _ l.root_mem).2, hsl.parent_root]
    · rw [hp _ (hra _ r.root_mem).1 (hra _ r.root_mem).2, hsr.parent_root]

/-- The node above two trees that were built one after the other. -/
theorem Built.node {H₁ H₂ : TreeHeap C} {l r : AddrTree} (hl : Built H₁ (H.next + 1) l)
    (hkeptl : H.newNode.1.Kept H₁ (H.next + 1)) (hnextl : H.next + 1 ≤ H₁.next)
    (hr : Built H₂ H₁.next r)
    (hkeptr : TreeHeap.Kept { H₁ with left := Function.update H₁.left H.next (some l.root) } H₂
      H₁.next) (hnextr : H₁.next ≤ H₂.next) :
    let H' := { H₂ with
      right := Function.update H₂.right H.next (some r.root)
      parent := Function.update (Function.update H₂.parent r.root (some H.next)) l.root
        (some H.next) }
    Built H' H.next (.node H.next l r) ∧ H.Kept H' H.next ∧ H.next ≤ H'.next := by
  have hlroot := hl.bounds _ l.root_mem
  have hrroot := hr.bounds _ r.root_mem
  -- what the nodes below `H₁.next` have in the end
  have hparent : ∀ y < H₁.next, y ≠ l.root →
      Function.update (Function.update H₂.parent r.root (some H.next)) l.root (some H.next) y =
        H₁.parent y := fun y hy hne => by
    rw [Function.update_of_ne hne, Function.update_of_ne (by omega)]
    exact hkeptr.parent y hy
  have hright : ∀ y < H₁.next, y ≠ H.next →
      Function.update H₂.right H.next (some r.root) y = H₁.right y := fun y hy hne => by
    rw [Function.update_of_ne hne]
    exact hkeptr.right y hy
  have hleft : ∀ y < H₁.next, y ≠ H.next → H₂.left y = H₁.left y := fun y hy hne =>
    (hkeptr.left y hy).trans (Function.update_of_ne hne _ _)
  refine ⟨⟨⟨?_, ?_, Function.update_self .., ?_, ?_⟩, ?_, fun y hy => ?_, fun y hy => ?_,
    fun y hy => ?_⟩, ?_, by change H.next ≤ H₂.next; omega⟩
  · exact ((hparent _ (by omega) (by omega)).trans (hkeptl.parent _ (by omega))).trans
      (Function.update_self ..)
  · exact (hkeptr.left _ (by omega)).trans (Function.update_self ..)
  · refine hl.shape.congr hl.nodup (Function.update_self ..) (fun y hy hne => ?_)
      (fun y hy => ?_) fun y hy => ?_
    · exact hparent y (hl.bounds y hy).2 hne
    · exact hleft y (hl.bounds y hy).2 (by have := hl.bounds y hy; omega)
    · exact hright y (hl.bounds y hy).2 (by have := hl.bounds y hy; omega)
  · refine hr.shape.congr hr.nodup ?_ (fun y hy hne => ?_) (fun y hy => rfl) fun y hy => ?_
    · have hne : r.root ≠ l.root := by omega
      exact (Function.update_of_ne hne _ _).trans (Function.update_self ..)
    · have hne' : y ≠ l.root := by
        have := hr.bounds y hy
        omega
      exact (Function.update_of_ne hne' _ _).trans (Function.update_of_ne hne _ _)
    · have hne : y ≠ H.next := by
        have := hr.bounds y hy
        omega
      exact Function.update_of_ne hne _ _
  · refine List.nodup_cons.mpr ⟨fun hm => ?_, List.nodup_append'.mpr ⟨hl.nodup, hr.nodup,
      fun y hy hy' => ?_⟩⟩
    · rcases List.mem_append.mp hm with hm | hm
      · have := hl.bounds _ hm
        omega
      · have := hr.bounds _ hm
        omega
    · have := hl.bounds y hy
      have := hr.bounds y hy'
      omega
  · rcases List.mem_cons.mp hy with rfl | hy
    · change H.next ≤ H.next ∧ H.next < H₂.next
      omega
    · change H.next ≤ y ∧ y < H₂.next
      rcases List.mem_append.mp hy with hy | hy
      · have := hl.bounds y hy
        omega
      · have := hr.bounds y hy
        omega
  · rcases List.mem_cons.mp hy with rfl | hy
    · exact ((hkeptr.counter _ (by omega)).trans (hkeptl.counter _ (by omega))).trans
        (Function.update_self ..)
    · rcases List.mem_append.mp hy with hy | hy
      · exact (hkeptr.counter y (hl.bounds y hy).2).trans (hl.counter y hy)
      · exact hr.counter y hy
  · rcases List.mem_append.mp hy with hy | hy
    · exact (hkeptr.bin y (hl.bounds y (l.leaves_subset hy)).2).trans (hl.bin y hy)
    · exact hr.bin y hy
  · have hnew := (TreeHeap.Kept.newNode H).trans hkeptl (Nat.le_succ _)
    refine ⟨fun y hy => ?_, fun y hy => ?_, fun y hy => ?_, fun y hy => ?_, fun y hy => ?_⟩
    · exact (hparent y (by omega) (by omega)).trans (hnew.parent y hy)
    · exact (hleft y (by omega) (by omega)).trans (hnew.left y hy)
    · exact (hright y (by omega) (by omega)).trans (hnew.right y hy)
    · exact (hkeptr.counter y (by omega)).trans (hnew.counter y hy)
    · exact (hkeptr.bin y (by omega)).trans (hnew.bin y hy)

/-- Two neighbouring parts of a list are written. -/
private theorem splice_splice {α : Type} {xs ls rs : List α} {n w : ℕ} (hl : ls.length = w)
    (hn : n + w + w ≤ xs.length) :
    (xs.take n ++ ls ++ xs.drop (n + w)).take (n + w) ++ rs ++
      (xs.take n ++ ls ++ xs.drop (n + w)).drop (n + w + w) =
    xs.take n ++ (ls ++ rs) ++ xs.drop (n + w + w) := by
  have hfirst : (xs.take n ++ ls).length = n + w := by
    rw [List.length_append, List.length_take, hl]
    omega
  rw [List.take_left' hfirst, ← List.drop_drop, List.drop_left' hfirst, List.drop_drop]
  simp

/-- `build_tree` makes a tree of new nodes and writes its leaves into the vector. -/
theorem buildTree_spec (height prio : ℕ) (H : TreeHeap C) (leaves : List (Option ℕ))
    (hlen : 2 ^ height * (prio + 1) ≤ leaves.length) :
    ∃ (t : AddrTree) (H' : TreeHeap C), buildTree height prio (H, leaves) =
        .ok ((H', leaves.take (2 ^ height * prio) ++ t.leaves.map some ++
          leaves.drop (2 ^ height * (prio + 1))), t.root) ∧
      Built H' H.next t ∧ H.Kept H' H.next ∧ H.next ≤ H'.next ∧
      t.leaves.length = 2 ^ height := by
  induction height generalizing prio H leaves with
  | zero =>
    have hprio : prio < leaves.length := by
      rw [pow_zero, Nat.one_mul] at hlen
      omega
    refine ⟨.leaf H.next, H.newNode.1, ?_, Built.newNode H, TreeHeap.Kept.newNode H, Nat.le_succ _,
      rfl⟩
    simp only [buildTree, TreeHeap.newNode, assert_pos hprio, ok_bind, pure_eq_ok, pow_zero,
      Nat.one_mul, AddrTree.leaves, List.map_singleton]
    rw [List.set_eq_take_append_cons_drop, if_pos hprio, List.append_assoc]
    rfl
  | succ height ih =>
    -- the subtrees have the two halves of the leaves
    have hstart : 2 ^ (height + 1) * prio = 2 ^ height * (2 * prio) := by
      rw [pow_succ, Nat.mul_assoc]
    have hend : 2 ^ (height + 1) * (prio + 1) = 2 ^ height * (2 * prio + 1 + 1) := by
      rw [pow_succ, Nat.mul_assoc, Nat.mul_succ]
    have hmid : 2 ^ height * (2 * prio + 1) = 2 ^ height * (2 * prio) + 2 ^ height := Nat.mul_succ ..
    have hstop : 2 ^ height * (2 * prio + 1 + 1) = 2 ^ height * (2 * prio + 1) + 2 ^ height :=
      Nat.mul_succ ..
    rw [hend] at hlen
    have hpos := Nat.two_pow_pos height
    have hle : 2 ^ height * (2 * prio) ≤ leaves.length := by omega
    have hfits : 2 ^ height * (2 * prio) + 2 ^ height + 2 ^ height ≤ leaves.length := by omega
    obtain ⟨l, H₁, hrunl, hl, hkeptl, hnextl, hlenl⟩ :=
      ih (2 * prio) H.newNode.1 leaves (by omega)
    -- the first half takes the place of as many leaves as it has
    have hlen' : 2 ^ height * (2 * prio + 1 + 1) ≤ (leaves.take (2 ^ height * (2 * prio)) ++
        l.leaves.map some ++ leaves.drop (2 ^ height * (2 * prio + 1))).length := by
      simp only [List.length_append, List.length_take, List.length_map, List.length_drop,
        Nat.min_eq_left hle, hlenl]
      generalize 2 ^ height * (2 * prio + 1 + 1) = c at *
      generalize 2 ^ height * (2 * prio + 1) = b at *
      generalize 2 ^ height * (2 * prio) = a at *
      omega
    obtain ⟨r, H₂, hrunr, hr, hkeptr, hnextr, hlenr⟩ := ih (2 * prio + 1)
      { H₁ with left := Function.update H₁.left H.next (some l.root) }
      (leaves.take (2 ^ height * (2 * prio)) ++ l.leaves.map some ++
        leaves.drop (2 ^ height * (2 * prio + 1))) hlen'
    obtain ⟨hbuilt, hkept, hnext⟩ := Built.node hl hkeptl hnextl hr hkeptr hnextr
    refine ⟨.node H.next l r, _, ?_, hbuilt, hkept, hnext, ?_⟩
    · simp only [buildTree, TreeHeap.newNode] at hrunl hrunr ⊢
      rw [hrunl, ok_bind, hrunr, ok_bind]
      rw [hstart, hend, hstop, hmid, splice_splice (by simpa using hlenl) hfits]
      simp only [AddrTree.leaves, List.map_append]
      rfl
    · rw [AddrTree.leaves, List.length_append, hlenl, hlenr, pow_succ]
      omega

end

end Meld.Queue
