import Meld.Queue.BoundedBins

/-!
# The bounded queue serves the lowest priority first

What the bounded queue is for: the elements that are in it with their priorities, in the order of
their age. `pop` takes the oldest element of the lowest priority that occurs, `top_list` takes all
of these, and an iteration visits the elements by priority and then by age. The lists of the bins
are the levels of these elements, and this stays so over every sequence of operations.
-/

namespace Meld.Queue

open Lib AddrTree
open scoped List

namespace LowestFirst

variable {T : Type}

/-! ### The elements in the order of their age -/

/-- The elements of one priority. -/
def level (es : List (ℕ × T)) (i : ℕ) : List T := (es.filter (·.1 == i)).map Prod.snd

/-- The lowest priority that occurs. -/
def lowest (es : List (ℕ × T)) : Option ℕ := (es.map Prod.fst).min?

/-- An operation of the queue; `top_list` is called with an empty list. -/
inductive Op (T : Type)
  | push (item : T) (prio : ℕ)
  | pop
  | topList

/-- What an operation takes from the elements, and what it leaves. -/
def Op.serve : Op T → List (ℕ × T) → List T × List (ℕ × T)
  | push item prio, es => ([], es ++ [(prio, item)])
  | pop, es =>
    (((es.find? fun e => lowest es == some e.1).map Prod.snd).toList,
      es.eraseP fun e => lowest es == some e.1)
  | topList, es =>
    ((es.filter fun e => lowest es == some e.1).map Prod.snd,
      es.filter fun e => lowest es != some e.1)

/-- What an operation requires: a priority in range, and elements to pop. -/
def Op.Legal (range : ℕ) (es : List (ℕ × T)) : Op T → Prop
  | push _ prio => prio < range
  | pop => es ≠ []
  | topList => True

/-- The operations of a sequence one after the other, with what each one takes. -/
def serveAll : List (Op T) → List (ℕ × T) → List (List T) × List (ℕ × T)
  | [], es => ([], es)
  | op :: ops, es =>
    let (taken, es) := op.serve es
    let (rest, es) := serveAll ops es
    (taken :: rest, es)

/-- Each operation finds what it requires. -/
def LegalRun (range : ℕ) : List (Op T) → List (ℕ × T) → Prop
  | [], _ => True
  | op :: ops, es => op.Legal range es ∧ LegalRun range ops (op.serve es).2

/-- The elements that an operation pushes. -/
def Op.pushed : Op T → List T
  | push item _ => [item]
  | _ => []

/-! ### The queue -/

/-- An operation on the queue, with what it hands over. -/
def Op.run {C : Type} [Bin C T] (q : BoundedPqueue C) : Op T → Exec (BoundedPqueue C × List T)
  | push item prio => do
    let q ← q.push item prio
    return (q, [])
  | pop => do
    let (q, el) ← q.pop
    return (q, [el])
  | topList => q.topList []

/-- The operations of a sequence on the queue. -/
def runAll {C : Type} [Bin C T] : List (Op T) → BoundedPqueue C →
    Exec (BoundedPqueue C × List (List T))
  | [], q => pure (q, [])
  | op :: ops, q => do
    let (q, taken) ← op.run q
    let (q, rest) ← runAll ops q
    return (q, taken :: rest)

/-- The queue has the elements `es`: an iteration visits them by priority and then by age, and the
counter of each inner node is the number of elements in the bins on its left. -/
structure Serves {C : Type} [LawfulBin C T] (q : BoundedPqueue C) (range : ℕ)
    (es : List (ℕ × T)) : Prop where
  size : q.size = es.length
  elements : q.elements = .ok ((List.range range).flatMap (level es))
  counters : ∃ (t : AddrTree) (items : ℕ → List T),
    Shape q.nodes.parent q.nodes.left q.nodes.right none t ∧ t.addrs.Nodup ∧ q.root = t.root ∧
      q.leaves = t.leaves.map some ∧
      (∀ i a, t.leaves[i]? = some a → items a = level es i ∧
        LawfulBin.Contents (q.nodes.bin a) (items a)) ∧
      Counted q.nodes.counter (fun a => (items a).length) t

/-- A sequence of operations on a new queue takes what is to be taken, and nothing else gets lost
or comes twice. -/
def ServedRun (C : Type) [LawfulBin C T] (range : ℕ) (ops : List (Op T)) : Prop :=
  ∃ (q : BoundedPqueue C) (q' : BoundedPqueue C), BoundedPqueue.new range = .ok q ∧
    runAll ops q = .ok (q', (serveAll ops []).1) ∧ Serves q' range (serveAll ops []).2 ∧
    (ops.flatMap Op.pushed).Perm ((serveAll ops []).1.flatten ++ (serveAll ops []).2.map Prod.snd)

/-! ### Levels -/

variable {es : List (ℕ × T)} {i j : ℕ}

theorem level_eq_nil_iff : level es i = [] ↔ ∀ e ∈ es, e.1 ≠ i := by
  simp [level]

/-- The lowest priority is the first with elements. -/
theorem lowest_eq (hi : level es i ≠ []) (hlt : ∀ j < i, level es j = []) : lowest es = some i := by
  rw [lowest, List.min?_eq_some_iff]
  refine ⟨?_, fun b hb => ?_⟩
  · by_contra hnone
    refine hi (level_eq_nil_iff.mpr fun e he hei => hnone ?_)
    exact hei ▸ List.mem_map_of_mem he
  · obtain ⟨e, he, rfl⟩ := List.mem_map.mp hb
    by_contra hle
    exact level_eq_nil_iff.mp (hlt e.1 (by omega)) e he rfl

/-- The oldest element of a level is found first. -/
theorem find_level {el : T} {els : List T} (h : level es i = el :: els) :
    es.find? (·.1 == i) = some (i, el) := by
  obtain ⟨e, rest, hfilter, rfl, -⟩ := List.map_eq_cons_iff.mp h
  have he : e ∈ es.filter (·.1 == i) := by simp [hfilter]
  have hprio : e.1 = i := by simpa using (List.mem_filter.mp he).2
  rw [← List.head?_filter, hfilter, List.head?_cons, ← hprio]

/-- Without its oldest element, a level is shorter and the others are the same. -/
theorem level_eraseP : level (es.eraseP (·.1 == i)) j =
    if j = i then (level es i).tail else level es j := by
  induction es with
  | nil => simp [level]
  | cons e es ih =>
    by_cases he : e.1 = i
    · rw [List.eraseP_cons_of_pos (by simpa using he)]
      split_ifs with hj
      · simp [level, he, hj]
      · have hne : e.1 ≠ j := by omega
        simp [level, hne]
    · rw [List.eraseP_cons_of_neg (by simpa using he)]
      simp only [level, List.filter_cons] at ih ⊢
      by_cases hej : e.1 = j
      · have hji : j ≠ i := by omega
        simp only [if_neg hji] at ih
        simp [hej, hji, ih]
      · simp [he, hej, ih]

theorem level_filter : level (es.filter (·.1 != i)) j = if j = i then [] else level es j := by
  rw [level, List.filter_filter]
  split_ifs with hj
  · simp [hj]
  · rw [level]
    congr 1
    refine List.filter_congr fun e _ => ?_
    by_cases he : e.1 = j
    · simp [he, hj]
    · simp [he]

/-- The levels below `n` are the elements whose priority is below `n`. -/
theorem flatMap_level_perm_filter (es : List (ℕ × T)) (n : ℕ) :
    ((List.range n).flatMap (level es)).Perm ((es.filter (·.1 < n)).map Prod.snd) := by
  induction n with
  | zero => simp
  | succ n ih =>
    have hsplit := List.filter_append_perm (·.1 < n) (es.filter (·.1 < n + 1))
    have hlow : (es.filter (·.1 < n + 1)).filter (·.1 < n) = es.filter (·.1 < n) := by
      rw [List.filter_filter]
      refine List.filter_congr fun e _ => ?_
      rw [← Bool.decide_and, decide_eq_decide]
      omega
    have hlast : (es.filter (·.1 < n + 1)).filter (fun e => !decide (e.1 < n)) =
        es.filter (·.1 == n) := by
      rw [List.filter_filter]
      refine List.filter_congr fun e _ => ?_
      rw [Bool.eq_iff_iff, ← decide_not, ← Bool.decide_and, decide_eq_true_iff, beq_iff_eq]
      omega
    rw [hlow, hlast] at hsplit
    rw [List.range_succ, List.flatMap_append, List.flatMap_singleton]
    refine (ih.append_right _).trans ?_
    rw [level, ← List.map_append]
    exact hsplit.map _

/-- All levels together are the elements. -/
theorem flatMap_level_perm {range : ℕ} (h : ∀ e ∈ es, e.1 < range) :
    ((List.range range).flatMap (level es)).Perm (es.map Prod.snd) := by
  have hall : es.filter (·.1 < range) = es := List.filter_eq_self.mpr fun e he => by
    simpa using h e he
  simpa only [hall] using flatMap_level_perm_filter es range

/-! ### Nothing gets lost -/

theorem find_append_eraseP_perm {α : Type} (p : α → Bool) (xs : List α) :
    ((xs.find? p).toList ++ xs.eraseP p).Perm xs := by
  induction xs with
  | nil => simp
  | cons x xs ih =>
    by_cases hx : p x = true
    · simp [List.find?_cons_of_pos hx, List.eraseP_cons_of_pos hx]
    · rw [List.find?_cons_of_neg hx, List.eraseP_cons_of_neg hx]
      exact List.perm_middle.trans (ih.cons x)

/-- What an operation takes and leaves is what was there and what it pushes. -/
theorem Op.serve_perm (op : Op T) (es : List (ℕ × T)) :
    (op.pushed ++ es.map Prod.snd).Perm ((op.serve es).1 ++ (op.serve es).2.map Prod.snd) := by
  cases op with
  | push item prio => simpa [Op.pushed, Op.serve] using (List.perm_append_singleton item _).symm
  | pop =>
    have hperm := (find_append_eraseP_perm (fun e => lowest es == some e.1) es).map Prod.snd
    rw [List.map_append] at hperm
    simpa [Op.pushed, Op.serve, Option.toList_map] using hperm.symm
  | topList =>
    have hperm := (List.filter_append_perm (fun e => lowest es == some e.1) es).map Prod.snd
    rw [List.map_append] at hperm
    exact hperm.symm

theorem serveAll_perm (ops : List (Op T)) (es : List (ℕ × T)) :
    (ops.flatMap Op.pushed ++ es.map Prod.snd).Perm
      ((serveAll ops es).1.flatten ++ (serveAll ops es).2.map Prod.snd) := by
  induction ops generalizing es with
  | nil => exact List.Perm.refl _
  | cons op ops ih =>
    have hop := op.serve_perm es
    have hrest := ih (op.serve es).2
    rw [List.flatMap_cons, List.append_assoc]
    calc op.pushed ++ (ops.flatMap Op.pushed ++ es.map Prod.snd)
        _ ~ ops.flatMap Op.pushed ++ (op.pushed ++ es.map Prod.snd) := by
          rw [← List.append_assoc, ← List.append_assoc]
          exact List.perm_append_comm.append_right _
        _ ~ ops.flatMap Op.pushed ++ ((op.serve es).1 ++ (op.serve es).2.map Prod.snd) :=
          hop.append_left _
        _ ~ (op.serve es).1 ++ (ops.flatMap Op.pushed ++ (op.serve es).2.map Prod.snd) := by
          rw [← List.append_assoc, ← List.append_assoc]
          exact List.perm_append_comm.append_right _
        _ ~ (op.serve es).1 ++ ((serveAll ops (op.serve es).2).1.flatten ++
              (serveAll ops (op.serve es).2).2.map Prod.snd) := hrest.append_left _
        _ = _ := by rw [← List.append_assoc]; rfl

/-! ### The bins are the levels -/

section

variable {C : Type} [LawfulBin C T] {q : BoundedPqueue C} {range : ℕ}

/-- The lists of the bins are the levels of the elements. -/
structure Levels (q : BoundedPqueue C) (range : ℕ) (es : List (ℕ × T)) (t : AddrTree)
    (items : ℕ → List T) : Prop where
  represents : Represents q t items
  leaves : range ≤ t.leaves.length
  level : ∀ i a, t.leaves[i]? = some a → items a = level es i
  prio : ∀ e ∈ es, e.1 < range

namespace Levels

variable {t : AddrTree} {items : ℕ → List T}

/-- The bins in the order of the leaves are the levels in the order of their priority. -/
theorem flatMap_items (h : Levels q range es t items) :
    t.leaves.flatMap items = (List.range range).flatMap (LowestFirst.level es) := by
  have hleaves : t.leaves.map items = (List.range t.leaves.length).map (LowestFirst.level es) := by
    refine List.ext_getElem (by simp) fun i hi hi' => ?_
    rw [List.getElem_map, List.getElem_map, List.getElem_range]
    rw [List.length_map] at hi
    exact h.level i _ (List.getElem?_eq_getElem hi)
  obtain ⟨k, hk⟩ := Nat.exists_eq_add_of_le h.leaves
  have hnone : ((List.range k).map (range + ·)).flatMap (LowestFirst.level es) = [] := by
    refine List.flatMap_eq_nil_iff.mpr fun i hi => level_eq_nil_iff.mpr fun e he => ?_
    obtain ⟨j, -, rfl⟩ := List.mem_map.mp hi
    have := h.prio e he
    omega
  rw [List.flatMap_def, hleaves, ← List.flatMap_def, hk, List.range_add, List.flatMap_append, hnone,
    List.append_nil]

/-- One level changes. -/
theorem setLevel (h : Levels q range es t items) {q' : BoundedPqueue C} {es' : List (ℕ × T)}
    {i a : ℕ} {xs : List T} (ha : t.leaves[i]? = some a)
    (hq : Represents q' t (Function.update items a xs)) (hi : LowestFirst.level es' i = xs)
    (hother : ∀ j, j ≠ i → LowestFirst.level es' j = LowestFirst.level es j)
    (hprio : ∀ e ∈ es', e.1 < range) : Levels q' range es' t (Function.update items a xs) where
  represents := hq
  leaves := h.leaves
  level j b hb := by
    by_cases hj : j = i
    · subst hj
      obtain rfl := Option.some.inj (hb.symm.trans ha)
      rw [Function.update_self, hi]
    · have hne : b ≠ a := by
        rintro rfl
        have hj' := (List.getElem?_eq_some_iff.mp hb).1
        exact hj ((List.getElem?_inj hj' (nodup_leaves h.represents.nodup)).mp (hb.trans ha.symm))
      rw [Function.update_of_ne hne, h.level j b hb, hother j hj]
  prio := hprio

/-- The queue counts the elements. -/
theorem total (h : Levels q range es t items) : q.total = es.length := by
  rw [h.represents.total, AddrTree.sum, ← List.length_flatMap, h.flatMap_items,
    (flatMap_level_perm h.prio).length_eq, List.length_map]

/-- The priority of the first bin with elements is the lowest. -/
theorem lowest_of_split (h : Levels q range es t items) {xs ys : List ℕ} {a : ℕ}
    (hleaves : t.leaves = xs ++ a :: ys) (hxs : ∀ y ∈ xs, items y = []) (ha : items a ≠ []) :
    t.leaves[xs.length]? = some a ∧ lowest es = some xs.length ∧
      LowestFirst.level es xs.length = items a := by
  have hget : t.leaves[xs.length]? = some a := by simp [hleaves]
  have hlevel := h.level _ _ hget
  refine ⟨hget, lowest_eq (hlevel ▸ ha) fun j hj => ?_, hlevel.symm⟩
  have hj' : t.leaves[j]? = some (xs.get ⟨j, hj⟩) := by
    rw [hleaves, List.getElem?_append_left hj, List.getElem?_eq_getElem hj]
    rfl
  rw [← h.level _ _ hj']
  exact hxs _ (List.get_mem _ _)

/-- The queue serves the elements. -/
theorem serves (h : Levels q range es t items) : Serves q range es where
  size := h.total
  elements := by rw [h.represents.elements, h.flatMap_items]
  counters := ⟨t, items, h.represents.shape, h.represents.nodup, h.represents.root,
    h.represents.leaves, fun i a ha => ⟨h.level i a ha,
      h.represents.contents a (List.mem_of_getElem? ha)⟩, h.represents.counted⟩

/-- A step of the queue is a step of the elements. -/
theorem run_op (h : Levels q range es t items) {op : Op T} (hop : op.Legal range es) :
    ∃ q' items', op.run q = .ok (q', (op.serve es).1) ∧
      Levels q' range (op.serve es).2 t items' := by
  cases op with
  | push item prio =>
    obtain ⟨a, ha⟩ : ∃ a, t.leaves[prio]? = some a :=
      ⟨_, List.getElem?_eq_getElem (Nat.lt_of_lt_of_le hop h.leaves)⟩
    obtain ⟨q', hpush, hq⟩ := h.represents.push ha item
    refine ⟨q', _, by simp only [Op.run, hpush, ok_bind, Op.serve, pure_eq_ok],
      h.setLevel ha hq ?_ (fun j hj => ?_) fun e he => ?_⟩
    · simp [Op.serve, h.level _ _ ha, LowestFirst.level]
    · have hne : prio ≠ j := fun he => hj he.symm
      simp [Op.serve, LowestFirst.level, hne]
    · rcases List.mem_append.mp he with he | he
      · exact h.prio e he
      · rw [List.mem_singleton.mp he]
        exact hop
  | pop =>
    have hpos : 0 < q.total := by
      rw [h.total]
      exact List.length_pos_of_ne_nil hop
    obtain ⟨xs, a, ys, el, els, q', hleaves, hxs, hitems, hpop, hq⟩ := h.represents.pop hpos
    obtain ⟨ha, hlowest, hlevel⟩ := h.lowest_of_split hleaves hxs (by simp [hitems])
    rw [hitems] at hlevel
    -- the lowest priority is that of the first bin with elements
    have hsame : (fun e : ℕ × T => lowest es == some e.1) = (·.1 == xs.length) := by
      funext e
      rw [hlowest]
      grind
    refine ⟨q', _, ?_, h.setLevel ha hq ?_ (fun j hj => ?_) fun e he => ?_⟩
    · simp only [Op.run, hpop, ok_bind, Op.serve, pure_eq_ok, hsame, find_level hlevel]
      rfl
    · simp only [Op.serve, hsame, level_eraseP, if_true, hlevel, List.tail_cons]
    · simp only [Op.serve, hsame, level_eraseP, if_neg hj]
    · exact h.prio e (List.mem_of_mem_eraseP he)
  | topList =>
    by_cases hes : es = []
    · subst hes
      have hempty : q.isEmpty = true := by simp [BoundedPqueue.isEmpty, h.total]
      exact ⟨q, items, by simp [Op.run, BoundedPqueue.topList, hempty, Op.serve, pure_eq_ok], h⟩
    · have hpos : 0 < q.total := by
        rw [h.total]
        exact List.length_pos_of_ne_nil hes
      obtain ⟨xs, a, ys, q', hleaves, hxs, hitems, hpop, hq⟩ := h.represents.topList hpos
      obtain ⟨ha, hlowest, hlevel⟩ := h.lowest_of_split hleaves hxs hitems
      -- as above, for the elements that are taken and those that stay
      have hsame : (fun e : ℕ × T => lowest es == some e.1) = (·.1 == xs.length) := by
        funext e
        rw [hlowest]
        grind
      have hdiff : (fun e : ℕ × T => lowest es != some e.1) = (·.1 != xs.length) := by
        funext e
        rw [hlowest]
        grind
      refine ⟨q', _, ?_, h.setLevel ha hq ?_ (fun j hj => ?_) fun e he => ?_⟩
      · simp only [Op.run, hpop, Op.serve, hsame]
        rw [← hlevel]
        rfl
      · simp only [Op.serve, hdiff, level_filter, if_true]
      · simp only [Op.serve, hdiff, level_filter, if_neg hj]
      · exact h.prio e (List.mem_filter.mp he).1

/-- A run of the queue is a run of the elements. -/
theorem runAll (h : Levels q range es t items) {ops : List (Op T)} (hops : LegalRun range ops es) :
    ∃ q' items', LowestFirst.runAll ops q = .ok (q', (serveAll ops es).1) ∧
      Levels q' range (serveAll ops es).2 t items' := by
  induction ops generalizing q items es with
  | nil => exact ⟨q, items, rfl, h⟩
  | cons op ops ih =>
    obtain ⟨q', items', hrun, h'⟩ := h.run_op hops.1
    obtain ⟨q'', items'', hrest, h''⟩ := ih h' hops.2
    refine ⟨q'', items'', ?_, h''⟩
    simp only [LowestFirst.runAll, hrun, hrest, ok_bind, pure_eq_ok, serveAll]

end Levels

/-- Each container with the operations of a list serves every legal run. -/
theorem servedRun (h : 0 < range) {ops : List (Op T)} (hops : LegalRun range ops []) :
    ServedRun C range ops := by
  obtain ⟨q, t, hnew, hq, hrange⟩ := Represents.new (C := C) (T := T) h
  have hlevels : Levels q range [] t fun _ => [] := ⟨hq, hrange, fun _ _ _ => rfl, by simp⟩
  obtain ⟨q', items, hrun, hend⟩ := hlevels.runAll hops
  refine ⟨q, q', hnew, hrun, hend.serves, ?_⟩
  simpa using serveAll_perm ops []

end

end LowestFirst

open LowestFirst

/-- A bounded queue over either kind of bins, for every number of priorities and every sequence of
operations, serves the lowest priority first and the oldest element of it. -/
theorem boundedPqueue_lowestFirst {T : Type} [Inhabited T] {range : ℕ} (h : 0 < range)
    {ops : List (Op T)} (hops : LegalRun range ops []) :
    ServedRun (UnsafeBin T) range ops ∧ ServedRun (PushSafeBin T) range ops :=
  ⟨servedRun h hops, servedRun h hops⟩

theorem boundedPqueue_lowestFirst_three :
    ServedRun (UnsafeBin ℕ) 3 [.push 7 2, .push 8 0, .push 9 0, .topList, .pop] ∧
      ServedRun (PushSafeBin ℕ) 3 [.push 7 2, .push 8 0, .push 9 0, .topList, .pop] :=
  boundedPqueue_lowestFirst (by decide)
    ⟨by simp [Op.Legal], by simp [Op.Legal], by simp [Op.Legal], trivial,
      by simp [Op.Legal, Op.serve, lowest], trivial⟩

end Meld.Queue
