import Meld.Queue.CountingTree

/-!
# The bins of the bounded queue

`Represents` relates the bins of the tree to lists, one for each leaf, and the counters to the
lengths of these lists. Each operation works on one list: `push` appends to the list of its
priority, `pop` takes the head of the first list that is not empty and `top_list` all of it. An
iteration goes through the lists one after the other.
-/

namespace Meld.Queue

open Lib AddrTree

/-! ### Powers of two -/

theorem nextPower2_eq (val : ℕ) : ∃ k, nextPower2 val = .ok (2 ^ k) ∧ val ≤ 2 ^ k := by
  have hrun : ∃ n, nextPower2 val = .ok n ∧ ∃ k, n = 2 ^ k ∧ val ≤ n := by
    refine iterate_of_variant (fun ret => ∃ k, ret = 2 ^ k) _ (fun ret => val - ret) ?_ ⟨0, rfl⟩
      (by omega)
    rintro _ ⟨k, rfl⟩
    have hpos := Nat.two_pow_pos k
    split_ifs with hlt
    · exact .inl ⟨_, rfl, ⟨k + 1, pow_succ 2 k⟩, by omega⟩
    · exact .inr ⟨_, rfl, k, rfl, by omega⟩
  obtain ⟨_, hrun, k, rfl, hle⟩ := hrun
  exact ⟨k, hrun, hle⟩

theorem upperLog2_two_pow (k : ℕ) : upperLog2 (2 ^ k) = .ok k := by
  have hrun : ∃ i, upperLog2 (2 ^ k) = .ok i ∧ i = k := by
    refine iterate_of_variant (fun s : ℕ × ℕ => s.1 = 2 ^ s.2 ∧ s.2 ≤ k) _ (fun s => k - s.2) ?_
      ⟨rfl, Nat.zero_le k⟩ ?_
    · rintro ⟨m, i⟩ ⟨hm, hi⟩
      simp only at hm hi ⊢
      subst hm
      have hiff : 2 ^ k ≤ 2 ^ i ↔ k ≤ i := Nat.pow_le_pow_iff_right (by decide)
      simp only [hiff]
      split_ifs with hle
      · exact .inr ⟨_, rfl, by omega⟩
      · exact .inl ⟨_, rfl, ⟨pow_succ 2 i, by omega⟩, by omega⟩
    · have := Nat.lt_two_pow_self (n := k)
      omega
  obtain ⟨_, hrun, rfl⟩ := hrun
  exact hrun

/-! ### The walks of an operation -/

section

variable {C : Type} {H : TreeHeap C} {t : AddrTree} {x : ℕ} {size : ℕ → ℕ}

/-- The loop up to the root ends within as many steps as there are leaves. -/
theorem climb_run (upd : ℕ → ℕ) (m : ℕ) (hs : Shape H.parent H.left H.right none t) (hn : t.addrs.Nodup)
    (hx : x ∈ t.leaves) (hc : Counted H.counter size t)
    (hupd : ∀ n, size x ≤ n → upd n + size x = n + m) :
    ∃ c, iterate (BoundedPqueue.climbStep t.root upd) (t.leaves.length + 1) (H, x) =
        .ok { H with counter := c } ∧ Counted c (Function.update size x m) t := by
  obtain ⟨d, c, hd, hrun, -, hcount⟩ := climb_spec hs hn hx (fun _ _ hne => hne) hc hupd
  obtain ⟨fuel, hfuel⟩ := Nat.exists_eq_add_of_le' hd
  refine ⟨c, ?_, hcount⟩
  rw [hfuel, show fuel + (d + 1) + 1 = fuel + 1 + 1 + d by omega, hrun, iterate]
  simp only [BoundedPqueue.climbStep, if_true, pure_eq_ok, ok_bind]

/-- The loop down to the first leaf with elements ends within as many steps as there are leaves. -/
theorem descend_run (upd : ℕ → ℕ) (k : ℕ) (hs : Shape H.parent H.left H.right none t) (hn : t.addrs.Nodup)
    (hc : Counted H.counter size t) (hpos : 0 < t.sum size) (hk : k ≤ 1)
    (hupd : ∀ n, 0 < n → upd n + k = n) :
    ∃ (c : ℕ → ℕ) (xs : List ℕ) (x : ℕ) (ys : List ℕ),
      iterate (BoundedPqueue.descendStep upd) (t.leaves.length + 1) (H, t.root) =
        .ok ({ H with counter := c }, x) ∧
      t.leaves = xs ++ x :: ys ∧ (∀ y ∈ xs, size y = 0) ∧ 0 < size x ∧
      Counted c (Function.update size x (size x - k)) t := by
  obtain ⟨d, c, xs, x, ys, hd, hleaves, hxs, hx, hend, hrun, -, hcount⟩ :=
    descend_spec hs hn hc hpos hk hupd
  obtain ⟨fuel, hfuel⟩ := Nat.exists_eq_add_of_le' hd
  refine ⟨c, xs, x, ys, ?_, hleaves, hxs, hx, hcount⟩
  rw [hfuel, show fuel + (d + 1) + 1 = fuel + 1 + 1 + d by omega, hrun, iterate]
  simp only [BoundedPqueue.descendStep, TreeHeap.isLeaf, hend, Option.isNone_none, if_true,
    pure_eq_ok, ok_bind]

end

/-! ### The bins of the tree -/

variable {C T : Type} [LawfulBin C T]

/-- The leaves of the tree hold the elements `items`, and the counters are theirs. -/
structure Represents (q : BoundedPqueue C) (t : AddrTree) (items : ℕ → List T) : Prop where
  shape : Shape q.nodes.parent q.nodes.left q.nodes.right none t
  nodup : t.addrs.Nodup
  root : q.root = t.root
  leaves : q.leaves = t.leaves.map some
  contents : ∀ a ∈ t.leaves, LawfulBin.Contents (q.nodes.bin a) (items a)
  counted : Counted q.nodes.counter (fun a => (items a).length) t
  total : q.total = t.sum fun a => (items a).length

theorem counted_zero {t : AddrTree} {counter : ℕ → ℕ} (h : ∀ y ∈ t.addrs, counter y = 0) :
    Counted counter (fun _ => 0) t := by
  induction t with
  | leaf a => trivial
  | node a l r ihl ihr =>
    refine ⟨?_, ihl fun y hy => h y (by simp [addrs, hy]),
      ihr fun y hy => h y (by simp [addrs, hy])⟩
    rw [h a (by simp [addrs])]
    simp [AddrTree.sum]

theorem length_update (items : ℕ → List T) (a : ℕ) (xs : List T) :
    (fun x => (Function.update items a xs x).length) =
      Function.update (fun x => (items x).length) a xs.length := by
  funext x
  by_cases hx : x = a
  · simp [hx]
  · simp [hx]

namespace Represents

variable {q : BoundedPqueue C} {t : AddrTree} {items : ℕ → List T} {a : ℕ}

/-- The constructor makes a tree without elements, with a leaf for each priority. -/
theorem new {range : ℕ} (h : 0 < range) :
    ∃ (q : BoundedPqueue C) (t : AddrTree), BoundedPqueue.new range = .ok q ∧
      Represents q t (fun _ => []) ∧ range ≤ t.leaves.length := by
  obtain ⟨k, hpower, hle⟩ := nextPower2_eq range
  obtain ⟨t, H, hrun, hbuilt, -, -, hlen⟩ := buildTree_spec (C := C) k 0 TreeHeap.empty
    (List.replicate (2 ^ k) none) (by simp)
  refine ⟨⟨H, t.leaves.map some, t.root, 0, range⟩, t, ?_, ⟨hbuilt.shape, hbuilt.nodup, rfl, rfl,
    fun a ha => hbuilt.bin a ha ▸ LawfulBin.new_contents, ?_, ?_⟩, hlen ▸ hle⟩
  · simp only [BoundedPqueue.new, assert_pos h, hpower, assert_pos hle, upperLog2_two_pow, hrun,
      ok_bind, pure_eq_ok]
    simp
  · exact counted_zero hbuilt.counter
  · simp [AddrTree.sum]

/-- The vector of the queue has the leaf for a priority. -/
theorem leaf (h : Represents q t items) {i : ℕ} (ha : t.leaves[i]? = some a) :
    i < t.leaves.length ∧ q.leaves[i]?.join = some a := by
  obtain ⟨hi, -⟩ := List.getElem?_eq_some_iff.mp ha
  rw [h.leaves, List.getElem?_map, ha]
  exact ⟨hi, rfl⟩

/-- One bin and the counters change. -/
theorem setBin (h : Represents q t items) {xs : List T} {bin : C} {c : ℕ → ℕ} (total : ℕ)
    (ha : a ∈ t.leaves) (hbin : LawfulBin.Contents bin xs)
    (hc : Counted c (Function.update (fun x => (items x).length) a xs.length) t)
    (htotal : total + (items a).length = q.total + xs.length) :
    Represents { q with
      nodes := { q.nodes with bin := Function.update q.nodes.bin a bin, counter := c }
      total := total } t (Function.update items a xs) where
  shape := h.shape
  nodup := h.nodup
  root := h.root
  leaves := h.leaves
  contents x hx := by
    by_cases hxa : x = a
    · subst hxa
      simpa using hbin
    · simpa [hxa] using h.contents x hx
  counted := by
    rw [length_update]
    exact hc
  total := by
    have hsum := sum_update (fun x => (items x).length) xs.length
      (nodup_leaves h.nodup) ha
    have hold := h.total
    rw [length_update]
    simp only
    omega

/-- `push` puts the element at the end of the bin for its priority. -/
theorem push (h : Represents q t items) {i : ℕ} (ha : t.leaves[i]? = some a) (el : T) :
    ∃ q', q.push el i = .ok q' ∧ Represents q' t (Function.update items a (items a ++ [el])) := by
  obtain ⟨hi, hjoin⟩ := h.leaf ha
  have hmem : a ∈ t.leaves := List.mem_of_getElem? ha
  obtain ⟨bin, hpush, hbin⟩ := LawfulBin.push_contents (h.contents a hmem) el
  obtain ⟨c, hrun, hc⟩ := climb_run (H := { q.nodes with bin := Function.update q.nodes.bin a bin })
    (· + 1) (items a ++ [el]).length h.shape h.nodup hmem h.counted
    (by intro n hn; simp only [List.length_append, List.length_singleton]; omega)
  refine ⟨_, ?_, h.setBin (q.total + 1) hmem hbin hc (by simp; omega)⟩
  have hlen : q.leaves.length = t.leaves.length := by rw [h.leaves, List.length_map]
  simp only [BoundedPqueue.push, hlen, assert_pos hi, hjoin, deref_some, hpush, ok_bind, h.root,
    hrun, pure_eq_ok]

/-- `pop` takes the first element of the first bin with elements. -/
theorem pop (h : Represents q t items) (hpos : 0 < q.total) :
    ∃ (xs : List ℕ) (a : ℕ) (ys : List ℕ) (el : T) (els : List T) (q' : BoundedPqueue C),
      t.leaves = xs ++ a :: ys ∧ (∀ y ∈ xs, items y = []) ∧ items a = el :: els ∧
      q.pop = .ok (q', el) ∧ Represents q' t (Function.update items a els) := by
  have hsum := h.total ▸ hpos
  obtain ⟨c, xs, a, ys, hrun, hleaves, hxs, hlen, hc⟩ := descend_run decSize 1
    h.shape h.nodup h.counted hsum le_rfl (fun n hn => by rw [decSize]; split_ifs <;> omega)
  obtain ⟨el, els, hitems⟩ : ∃ el els, items a = el :: els := List.exists_cons_of_length_pos hlen
  have hmem : a ∈ t.leaves := by simp [hleaves]
  have hcontents := h.contents a hmem
  rw [hitems] at hcontents
  obtain ⟨bin, hpop, hbin⟩ := LawfulBin.pop_contents hcontents
  have hfull : Bin.isEmpty (q.nodes.bin a) = false := by
    have := LawfulBin.isEmpty_iff hcontents
    simpa using this
  have hempty : q.isEmpty = false := by simp [BoundedPqueue.isEmpty]; omega
  have hdec : decSize q.total = q.total - 1 := by rw [decSize, if_neg (by omega)]
  refine ⟨xs, a, ys, el, els, _, hleaves, fun y hy => List.length_eq_zero_iff.mp (hxs y hy), hitems,
    ?_, h.setBin (decSize q.total) hmem hbin (hitems ▸ hc)
      (by rw [hitems, hdec, List.length_cons]; omega)⟩
  have hlen' : q.leaves.length = t.leaves.length := by rw [h.leaves, List.length_map]
  simp only [BoundedPqueue.pop, assert_pos hempty, hlen', h.root, hrun, ok_bind, assert_pos hfull,
    hpop, assert_pos hpos, pure_eq_ok]

/-- `top_list` takes the elements of the first bin with elements. -/
theorem topList (h : Represents q t items) (hpos : 0 < q.total) :
    ∃ (xs : List ℕ) (a : ℕ) (ys : List ℕ) (q' : BoundedPqueue C),
      t.leaves = xs ++ a :: ys ∧ (∀ y ∈ xs, items y = []) ∧ items a ≠ [] ∧
      q.topList [] = .ok (q', items a) ∧ Represents q' t (Function.update items a []) := by
  have hsum := h.total ▸ hpos
  obtain ⟨c, xs, a, ys, hrun, hleaves, hxs, hlen, hc⟩ := descend_run id 0
    h.shape h.nodup h.counted hsum (Nat.zero_le 1) fun n hn => rfl
  have hmem : a ∈ t.leaves := by simp [hleaves]
  have hne : items a ≠ [] := List.ne_nil_of_length_pos hlen
  have hcontents := h.contents a hmem
  obtain ⟨bin, hpop, hbin⟩ := LawfulBin.popList_contents hcontents []
  rw [List.nil_append] at hpop
  have hfull : Bin.isEmpty (q.nodes.bin a) = false := by
    have := LawfulBin.isEmpty_iff hcontents
    simpa [hne] using this
  have hempty : q.isEmpty = false := by simp [BoundedPqueue.isEmpty]; omega
  rw [Nat.sub_zero, Function.update_eq_self] at hc
  obtain ⟨c', hrun', hc'⟩ := climb_run
    (H := { q.nodes with counter := c, bin := Function.update q.nodes.bin a bin })
    (subSize · (items a).length) 0 h.shape h.nodup hmem hc
    (fun n hn => by simp only [subSize, if_pos hn]; omega)
  have hle : (items a).length ≤ q.total := by
    rw [h.total]
    exact t.size_le_sum (fun x => (items x).length) hmem
  have hsub : subSize q.total (items a).length = q.total - (items a).length := by
    rw [subSize, if_pos hle]
  refine ⟨xs, a, ys, _, hleaves, fun y hy => List.length_eq_zero_iff.mp (hxs y hy), hne, ?_,
    h.setBin (subSize q.total (items a).length) hmem hbin hc'
      (by rw [hsub, List.length_nil]; omega)⟩
  have hlen' : q.leaves.length = t.leaves.length := by rw [h.leaves, List.length_map]
  simp only [BoundedPqueue.topList, hempty, hlen', h.root, hrun, ok_bind, assert_pos hfull, hpop,
    assert_pos hne, hrun', pure_eq_ok]
  simp

/-! ### Iteration -/

/-- The elements that an iterator has still to visit. -/
def Ahead (q : BoundedPqueue C) (t : AddrTree) (items : ℕ → List T)
    (it : BoundedPqueue.Iterator) (xs : List T) : Prop :=
  (it.isEnd = true ∧ xs = []) ∨
    ∃ a ys, it.isEnd = false ∧ it.startedCur = true ∧ t.leaves[it.curPos]? = some a ∧ ys ≠ [] ∧
      Visits (q.nodes.bin a) it.sub ys ∧ xs = ys ++ (t.leaves.drop (it.curPos + 1)).flatMap items

/-- An iterator that has the elements `ys` left in the leaf at its position goes on with them. -/
structure Advancing (q : BoundedPqueue C) (t : AddrTree) (items : ℕ → List T)
    (it : BoundedPqueue.Iterator) (xs : List T) (a : ℕ) (sub : Option ℕ) (ys : List T) : Prop where
  isEnd : it.isEnd = false
  leaf : t.leaves[it.curPos]? = some a
  next : (if it.startedCur then do
      let cur ← deref it.sub
      Bin.iterNext (q.nodes.bin a) cur
    else Bin.begin (q.nodes.bin a)) = .ok sub
  visits : Visits (q.nodes.bin a) sub ys
  rest : xs = ys ++ (t.leaves.drop (it.curPos + 1)).flatMap items

theorem advanceStep_spec (h : Represents q t items) {it : BoundedPqueue.Iterator} {xs ys : List T}
    {sub : Option ℕ} (hit : Advancing q t items it xs a sub ys) :
    (∃ it', q.advanceStep it = .ok (.inl it') ∧ (∃ a sub ys, Advancing q t items it' xs a sub ys) ∧
      t.leaves.length - it'.curPos < t.leaves.length - it.curPos) ∨
    ∃ it', q.advanceStep it = .ok (.inr it') ∧ Ahead q t items it' xs := by
  obtain ⟨hlt, hjoin⟩ := h.leaf hit.leaf
  have hlen : q.leaves.length = t.leaves.length := by rw [h.leaves, List.length_map]
  have hrun : q.advanceStep it = (if sub = none then
      if t.leaves.length ≤ it.curPos + 1 then
        pure (.inr ⟨true, it.curPos + 1, false, sub⟩)
      else pure (.inl ⟨it.isEnd, it.curPos + 1, false, sub⟩)
    else pure (.inr ⟨it.isEnd, it.curPos, true, sub⟩)) := by
    have hnext := hit.next
    simp only [BoundedPqueue.advanceStep, hjoin, deref_some, ok_bind, hlen]
    cases hstarted : it.startedCur with
    | false =>
      rw [hstarted, if_neg Bool.false_ne_true] at hnext
      simp only [Bool.false_eq_true, if_false, hnext, ok_bind]
    | true =>
      rw [hstarted, if_pos rfl] at hnext
      obtain ⟨cur, hcur, hnext⟩ := bind_eq_ok.mp hnext
      simp only [if_true, hcur, hnext, ok_bind]
  cases ys with
  | nil =>
    -- nothing is left in this leaf
    have hsub : sub = none := hit.visits
    rw [hrun, if_pos hsub]
    split_ifs with hpos
    · refine .inr ⟨_, rfl, .inl ⟨rfl, ?_⟩⟩
      rw [hit.rest, List.drop_eq_nil_of_le hpos]
      rfl
    · have hnext : t.leaves[it.curPos + 1]? = some (t.leaves.get ⟨it.curPos + 1, by omega⟩) := by
        rw [List.getElem?_eq_getElem (by omega)]
        rfl
      have hmem := List.mem_of_getElem? hnext
      obtain ⟨sub', hbegin, hvisits⟩ := LawfulBin.begin_visits (h.contents _ hmem)
      refine .inl ⟨_, rfl, ⟨_, sub', _, hit.isEnd, hnext, hbegin, hvisits, ?_⟩, ?_⟩
      · rw [hit.rest, List.nil_append, List.drop_eq_getElem_cons (by omega), List.flatMap_cons]
        rfl
      · simp only
        omega
  | cons y ys =>
    obtain ⟨b, it', hb, -⟩ := hit.visits
    have hsub : sub ≠ none := by simp [hb]
    rw [hrun, if_neg hsub]
    exact .inr ⟨_, rfl, .inr ⟨a, y :: ys, hit.isEnd, rfl, hit.leaf, by simp, hit.visits, hit.rest⟩⟩

theorem advance (h : Represents q t items) {it : BoundedPqueue.Iterator} {xs ys : List T}
    {sub : Option ℕ} (hit : Advancing q t items it xs a sub ys) :
    ∃ it', q.advance it = .ok it' ∧ Ahead q t items it' xs := by
  refine iterate_of_variant (fun it => ∃ a sub ys, Advancing q t items it xs a sub ys)
    (Ahead q t items · xs) (fun it => t.leaves.length - it.curPos) ?_ ⟨a, sub, ys, hit⟩ ?_
  · rintro it ⟨a, sub, ys, hit⟩
    exact h.advanceStep_spec hit
  · rw [h.leaves, List.length_map]
    omega

theorem elementsFrom (h : Represents q t items) (n : ℕ) {it : BoundedPqueue.Iterator} {xs : List T}
    (hit : Ahead q t items it xs) (hn : xs.length ≤ n) : q.elementsFrom n it = .ok xs := by
  induction n generalizing it xs with
  | zero =>
    obtain rfl := List.length_eq_zero_iff.mp (Nat.le_zero.mp hn)
    rcases hit with ⟨hend, -⟩ | ⟨a, ys, -, -, -, hne, -, hxs⟩
    · simp [BoundedPqueue.elementsFrom, hend, pure_eq_ok]
    · exact absurd (List.append_eq_nil_iff.mp hxs.symm).1 hne
  | succ n ih =>
    rcases hit with ⟨hend, rfl⟩ | ⟨a, ys, hend, hstarted, hleaf, hne, hvisits, rfl⟩
    · simp [BoundedPqueue.elementsFrom, hend, pure_eq_ok]
    · obtain ⟨y, ys, rfl⟩ := List.exists_cons_of_ne_nil hne
      obtain ⟨b, sub, hsub, hdata, hnext, hrest⟩ := hvisits
      obtain ⟨-, hjoin⟩ := h.leaf hleaf
      have hleft : Advancing q t items it (ys ++ (t.leaves.drop (it.curPos + 1)).flatMap items) a
          sub ys :=
        ⟨hend, hleaf, by rw [if_pos hstarted, hsub, deref_some, ok_bind, hnext], hrest, rfl⟩
      obtain ⟨it', hadv, hit'⟩ := h.advance hleft
      have hrec := ih hit' (by simpa using hn)
      simp only [BoundedPqueue.elementsFrom, hend, BoundedPqueue.current, BoundedPqueue.increment,
        hjoin, hsub, deref_some, ok_bind, hdata, hadv, pure_eq_ok]
      simp [hrec]

/-- An iteration visits the elements of the bins, from the lowest priority on. -/
theorem elements (h : Represents q t items) : q.elements = .ok (t.leaves.flatMap items) := by
  obtain ⟨a, as, hleaves⟩ := List.exists_cons_of_length_pos t.leaves_length_pos
  obtain ⟨sub, hbegin, hvisits⟩ := LawfulBin.begin_visits
    (h.contents a (by rw [hleaves]; exact List.mem_cons_self))
  have hstart : Advancing q t items ⟨false, 0, false, none⟩ (t.leaves.flatMap items) a sub
      (items a) := ⟨rfl, by simp [hleaves], hbegin, hvisits, by simp [hleaves]⟩
  obtain ⟨it, hadv, hit⟩ := h.advance hstart
  have hsize : (t.leaves.flatMap items).length ≤ q.size := by
    rw [BoundedPqueue.size, h.total, List.length_flatMap]
    exact le_rfl
  simp only [BoundedPqueue.elements, BoundedPqueue.begin, hadv, ok_bind]
  exact h.elementsFrom _ hit hsize

end Represents

end Meld.Queue
