import Meld.Lib.Exec
import Meld.Lib.Loop
import Meld.Lib.Transition

/-!
# The tree barrier

The participants of the barrier are the nodes of a tree, numbered in the order in which `build`
makes them: a node before its subtrees. A participant waits until its children have arrived, resets
its counter for the next round, tells its parent, and waits for the shared sense to flip; the root
flips the sense instead.

A participant's step is one read or write of a counter, of the shared sense or of its own sense.
-/

namespace Meld.Utils

open Lib

/-! ### Building the tree -/

/-- What `build` makes of a participant: its parent and the number of its children. -/
structure InnerNode where
  parent : Option ℕ
  count : ℕ
  deriving DecidableEq, Repr

/-- `build(parent, depth)` after the nodes made so far: whether it made a node, and the nodes. -/
def build (size radix : ℕ) : ℕ → Option ℕ → List InnerNode → Bool × List InnerNode
  | depth, parent, nodes =>
    let thisId := nodes.length
    if thisId = size then
      (false, nodes)
    else
      match depth with
      | 0 => (true, nodes ++ [⟨parent, 0⟩])
      | depth + 1 =>
        let (numChildren, nodes) := (List.range radix).foldl
          (fun (numChildren, nodes) _ =>
            let (made, nodes) := build size radix depth (some thisId) nodes
            (if made then numChildren + 1 else numChildren, nodes))
          (0, nodes ++ [⟨parent, radix⟩])
        -- `set_count`
        (true, if numChildren ≠ radix then nodes.set thisId ⟨parent, numChildren⟩ else nodes)

/-- The body of the loop for the depth of the tree, over `s` and `depth`. -/
def depthStep (radix : ℕ) (s : ℕ × ℕ) : Exec ((ℕ × ℕ) ⊕ ℕ) :=
  if 1 < s.1 then return .inl (s.1 / radix, s.2 + 1) else return .inr s.2

/-- The nodes that the constructor makes. -/
def treeNodes (size radix : ℕ) : Exec (List InnerNode) := do
  let depth ← iterate (depthStep radix) (size + 1) (size, 0)
  return (build size radix depth none []).2

/-! ### Waiting -/

/-- Where a participant is in `wait`; all but `outside` with the sense it read when it entered. -/
inductive Pc
  | outside
  /-- `while(children_count > 0) {}` -/
  | spinChildren (mySense : Bool)
  /-- `children_count = count` -/
  | reset (mySense : Bool)
  /-- `parent->children_count--` -/
  | signal (mySense : Bool)
  /-- `while(outer->sense != my_sense) {}` -/
  | spinSense (mySense : Bool)
  /-- the read of `outer->sense = !outer->sense` -/
  | readSense (mySense : Bool)
  /-- the write of `outer->sense = !outer->sense` -/
  | writeSense (mySense tmp : Bool)
  /-- `assert(outer->sense == my_sense)` -/
  | checkSense (mySense : Bool)
  /-- `thread_sense = !my_sense` -/
  | setSense (mySense : Bool)
  /-- a failed assertion or a node that is not there -/
  | failed
  deriving DecidableEq, Repr

/-- The barrier: its nodes, the counters, the senses, where the participants are, and how often each
has returned. -/
structure TreeBarrier where
  nodes : List InnerNode
  childrenCount : ℕ → ℕ
  sense : Bool
  threadSense : ℕ → Bool
  pc : ℕ → Pc
  returned : ℕ → ℕ

namespace TreeBarrier

/-- The barrier after the constructor. -/
def new (nodes : List InnerNode) : TreeBarrier where
  nodes := nodes
  childrenCount i := ((nodes[i]?).map InnerNode.count).getD 0
  sense := false
  threadSense _ := true
  pc _ := .outside
  returned _ := 0

/-- The barrier with the participant `i` at another place. -/
def goTo (b : TreeBarrier) (i : ℕ) (pc : Pc) : TreeBarrier :=
  { b with pc := Function.update b.pc i pc }

/-- The barrier with another counter of the node `i`. -/
def setChildren (b : TreeBarrier) (i k : ℕ) : TreeBarrier :=
  { b with childrenCount := Function.update b.childrenCount i k }

/-- The barrier after the participant `i` has returned with its sense set. -/
def ret (b : TreeBarrier) (i : ℕ) (threadSense : Bool) : TreeBarrier :=
  { b.goTo i .outside with
    threadSense := Function.update b.threadSense i threadSense
    returned := Function.update b.returned i (b.returned i + 1) }

/-- The next step of the participant `i`. -/
def stepOf (b : TreeBarrier) (i : ℕ) : TreeBarrier :=
  match b.nodes[i]? with
  | none => b.goTo i .failed
  | some node =>
    match b.pc i with
    | .outside =>
      if i = 0 ∧ node.parent ≠ none then b.goTo i .failed
      else b.goTo i (.spinChildren (b.threadSense i))
    | .spinChildren mySense => if 0 < b.childrenCount i then b else b.goTo i (.reset mySense)
    | .reset mySense =>
      (b.setChildren i node.count).goTo i
        (if node.parent = none then .readSense mySense else .signal mySense)
    | .signal mySense =>
      match node.parent with
      | some p => (b.setChildren p (decSize (b.childrenCount p))).goTo i (.spinSense mySense)
      | none => b.goTo i .failed
    | .spinSense mySense => if b.sense ≠ mySense then b else b.goTo i (.setSense mySense)
    | .readSense mySense => b.goTo i (.writeSense mySense b.sense)
    | .writeSense mySense tmp => { b with sense := !tmp }.goTo i (.checkSense mySense)
    | .checkSense mySense =>
      if b.sense = mySense then b.goTo i (.setSense mySense) else b.goTo i .failed
    | .setSense mySense => b.ret i (!mySense)
    | .failed => b

/-- How often the participant has entered `wait`. -/
def entered (b : TreeBarrier) (i : ℕ) : ℕ :=
  b.returned i + if b.pc i = .outside then 0 else 1

end TreeBarrier

/-- The barrier of the given size and radix, with every order of the participants' steps. -/
def treeBarrier (size radix : ℕ) : System TreeBarrier where
  init b := ∃ nodes, treeNodes size radix = .ok nodes ∧ b = TreeBarrier.new nodes
  step b b' := ∃ i < size, b' = b.stepOf i

/-! ### The shape of the tree -/

/-- The subtrees of the node `root`, made from the number `base` on: each node has a parent before
it, `num` of them have `root` as their parent, and each counts its children. -/
structure Forest (base root num : ℕ) (l : List InnerNode) : Prop where
  root_lt : root < base
  parent : ∀ (k : ℕ) node, l[k]? = some node →
    node.parent = some root ∨ ∃ p, node.parent = some p ∧ base ≤ p ∧ p < base + k
  roots : l.countP (fun node => node.parent = some root) = num
  count : ∀ (k : ℕ) node, l[k]? = some node →
    node.count = l.countP fun node => node.parent = some (base + k)

namespace Forest

variable {base root num num' : ℕ} {l l' : List InnerNode}

theorem nil (h : root < base) : Forest base root 0 [] :=
  ⟨h, fun k node hk => by simp at hk, rfl, fun k node hk => by simp at hk⟩

/-- The parents in a forest: the root, or nodes of the forest. -/
theorem parent_of_mem (h : Forest base root num l) {node : InnerNode} (hmem : node ∈ l) :
    node.parent = some root ∨ ∃ p, node.parent = some p ∧ base ≤ p ∧ p < base + l.length := by
  obtain ⟨k, hk⟩ := List.getElem?_of_mem hmem
  have hlt := (List.getElem?_eq_some_iff.mp hk).1
  refine (h.parent k node hk).imp_right ?_
  rintro ⟨p, hp, hbase, hpk⟩
  exact ⟨p, hp, hbase, by omega⟩

/-- No node of the forest has a parent that is neither the root nor in the forest. -/
theorem countP_eq_zero (h : Forest base root num l) {p : ℕ} (hroot : p ≠ root)
    (hout : p < base ∨ base + l.length ≤ p) :
    l.countP (fun node => node.parent = some p) = 0 := by
  refine List.countP_eq_zero.mpr fun node hmem => ?_
  rcases h.parent_of_mem hmem with hr | ⟨q, hq, hbase, hlt⟩
  · simp [hr, Ne.symm hroot]
  · simp only [hq, Option.some.injEq, decide_eq_true_eq]
    omega

/-- Further subtrees. -/
theorem append (h : Forest base root num l) (h' : Forest (base + l.length) root num' l') :
    Forest base root (num + num') (l ++ l') := by
  have hroot := h.root_lt
  refine ⟨hroot, fun k node hk => ?_, ?_, fun k node hk => ?_⟩
  · rcases Nat.lt_or_ge k l.length with hlt | hge
    · rw [List.getElem?_append_left hlt] at hk
      exact h.parent k node hk
    · rw [List.getElem?_append_right hge] at hk
      refine (h'.parent _ node hk).imp_right ?_
      rintro ⟨p, hp, hbase, hpk⟩
      exact ⟨p, hp, by omega, by omega⟩
  · rw [List.countP_append, h.roots, h'.roots]
  · rw [List.countP_append]
    rcases Nat.lt_or_ge k l.length with hlt | hge
    · rw [List.getElem?_append_left hlt] at hk
      rw [h.count k node hk, h'.countP_eq_zero (by omega) (.inl (by omega)), Nat.add_zero]
    · rw [List.getElem?_append_right hge] at hk
      rw [h.countP_eq_zero (by omega) (.inr (by omega)), h'.count _ node hk, Nat.zero_add,
        show base + l.length + (k - l.length) = base + k by omega]

/-- A node before its subtrees. -/
theorem node (h : Forest (base + 1) base num l) (hroot : root < base) :
    Forest base root 1 (⟨some root, num⟩ :: l) := by
  refine ⟨hroot, fun k nd hk => ?_, ?_, fun k nd hk => ?_⟩
  · cases k with
    | zero =>
      rw [List.getElem?_cons_zero, Option.some.injEq] at hk
      exact .inl (hk ▸ rfl)
    | succ k =>
      rw [List.getElem?_cons_succ] at hk
      right
      rcases h.parent k nd hk with hp | ⟨p, hp, hbase, hpk⟩
      · exact ⟨base, hp, le_rfl, by omega⟩
      · exact ⟨p, hp, by omega, by omega⟩
  · rw [List.countP_cons_of_pos (by simp), h.countP_eq_zero (by omega) (.inl (by omega))]
  · cases k with
    | zero =>
      rw [List.getElem?_cons_zero, Option.some.injEq] at hk
      rw [List.countP_cons_of_neg (by simp; omega), Nat.add_zero, h.roots, ← hk]
    | succ k =>
      rw [List.getElem?_cons_succ] at hk
      rw [List.countP_cons_of_neg (by simp; omega), h.count k nd hk,
        show base + 1 + k = base + (k + 1) by omega]

end Forest

/-- One more child of the node `root`, in the loop of `build`. -/
def addChild (size radix depth root : ℕ) (s : ℕ × List InnerNode) : ℕ × List InnerNode :=
  let (made, nodes) := build size radix depth (some root) s.2
  (if made then s.1 + 1 else s.1, nodes)

variable {size radix depth : ℕ}

theorem build_full {parent : Option ℕ} {nodes : List InnerNode} (h : nodes.length = size) :
    build size radix depth parent nodes = (false, nodes) := by
  cases depth <;> rw [build, if_pos h]

theorem build_leaf {parent : Option ℕ} {nodes : List InnerNode} (h : nodes.length ≠ size) :
    build size radix 0 parent nodes = (true, nodes ++ [⟨parent, 0⟩]) := by
  rw [build, if_neg h]

/-- A node and its children, whose number is set at the end. -/
theorem build_node {parent : Option ℕ} {nodes l : List InnerNode} {num : ℕ}
    (h : nodes.length ≠ size)
    (hchildren : (List.range radix).foldl (fun s _ => addChild size radix depth nodes.length s)
      (0, nodes ++ [⟨parent, radix⟩]) = (num, nodes ++ [⟨parent, radix⟩] ++ l)) :
    build size radix (depth + 1) parent nodes = (true, nodes ++ ⟨parent, num⟩ :: l) := by
  have hset : (nodes ++ [(⟨parent, radix⟩ : InnerNode)] ++ l).set nodes.length ⟨parent, num⟩ =
      nodes ++ ⟨parent, num⟩ :: l := by
    rw [List.append_assoc, List.set_append_right _ _ le_rfl, Nat.sub_self]
    rfl
  rw [build, if_neg h]
  simp only [addChild] at hchildren
  simp only [hchildren]
  split_ifs with hnum
  · rw [hset]
  · obtain rfl := not_not.mp hnum
    simp

/-- The nodes of a full tree of the depth. -/
def fullSize (radix : ℕ) : ℕ → ℕ
  | 0 => 1
  | depth + 1 => 1 + radix * fullSize radix depth

theorem fullSize_mono (hradix : 0 < radix) : Monotone (fullSize radix) := by
  refine monotone_nat_of_le_succ fun depth => ?_
  rw [fullSize]
  exact (Nat.le_mul_of_pos_left _ hradix).trans (Nat.le_add_left ..)

theorem fullSize_two (depth : ℕ) : fullSize 2 depth = 2 ^ (depth + 1) - 1 := by
  induction depth with
  | zero => rfl
  | succ depth ih =>
    have hpos := Nat.two_pow_pos (depth + 1)
    rw [fullSize, ih, Nat.pow_succ' (n := depth + 1)]
    omega

/-- What the recursive calls of `build` make below a node: a full tree, or as much of it as there
are nodes left. -/
def Fills (size radix depth : ℕ) : Prop :=
  ∀ (root : ℕ) (nodes : List InnerNode), root < nodes.length → nodes.length ≤ size →
    ∃ l, (build size radix depth (some root) nodes).2 = nodes ++ l ∧
      Forest nodes.length root (if (build size radix depth (some root) nodes).1 then 1 else 0) l ∧
      l.length = min (fullSize radix depth) (size - nodes.length)

/-- The loop over the children makes a forest. -/
theorem foldl_addChild (hbuild : Fills size radix depth) (xs : List ℕ) (root : ℕ) {num : ℕ}
    {nodes l : List InnerNode} (hroot : root < nodes.length)
    (hsize : nodes.length + l.length ≤ size) (hforest : Forest nodes.length root num l) :
    ∃ num' l', xs.foldl (fun s _ => addChild size radix depth root s) (num, nodes ++ l) =
        (num', nodes ++ l') ∧ Forest nodes.length root num' l' ∧
      l'.length = min (l.length + xs.length * fullSize radix depth) (size - nodes.length) := by
  induction xs generalizing num l with
  | nil => exact ⟨num, l, rfl, hforest, by simp; omega⟩
  | cons x xs ih =>
    obtain ⟨m, hm, hnew, hlen⟩ := hbuild root (nodes ++ l) (by simp; omega) (by simp; omega)
    rw [List.length_append] at hnew hlen
    have happend := hforest.append hnew
    have hstep : addChild size radix depth root (num, nodes ++ l) =
        (num + (if (build size radix depth (some root) (nodes ++ l)).1 then 1 else 0),
          nodes ++ (l ++ m)) := by
      rw [addChild]
      simp only [hm, List.append_assoc]
      split_ifs <;> rfl
    obtain ⟨num', l', hrun, hforest', hlen'⟩ := ih (l := l ++ m) (by simp; omega) happend
    refine ⟨num', l', ?_, hforest', ?_⟩
    · rw [List.foldl_cons, hstep, hrun]
    · rw [hlen', List.length_append, hlen, List.length_cons, Nat.succ_mul]
      generalize xs.length * fullSize radix depth = k
      generalize fullSize radix depth = c
      omega

/-- The children of a node of positive depth. -/
theorem children_spec (hbuild : Fills size radix depth) (parent : Option ℕ)
    {nodes : List InnerNode} (hlt : nodes.length < size) :
    ∃ num l, (List.range radix).foldl (fun s _ => addChild size radix depth nodes.length s)
        (0, nodes ++ [⟨parent, radix⟩]) = (num, nodes ++ [⟨parent, radix⟩] ++ l) ∧
      Forest (nodes.length + 1) nodes.length num l ∧
      l.length = min (radix * fullSize radix depth) (size - nodes.length - 1) := by
  have hlen : (nodes ++ [(⟨parent, radix⟩ : InnerNode)]).length = nodes.length + 1 := by simp
  obtain ⟨num, l, hrun, hforest, hl⟩ := foldl_addChild hbuild (List.range radix) nodes.length
    (by rw [hlen]; omega) (by rw [hlen, List.length_nil]; omega)
    (.nil (by rw [hlen]; exact Nat.lt_succ_self nodes.length))
  rw [List.append_nil] at hrun
  rw [hlen] at hforest hl
  refine ⟨num, l, hrun, hforest, ?_⟩
  rw [hl, List.length_range, List.length_nil, Nat.zero_add, Nat.sub_sub]

theorem fills : ∀ depth, Fills size radix depth := by
  intro depth
  induction depth with
  | zero =>
    intro root nodes hroot hsize
    by_cases hfull : nodes.length = size
    · rw [build_full hfull]
      exact ⟨[], (List.append_nil _).symm, .nil hroot, by simp; omega⟩
    · rw [build_leaf hfull]
      exact ⟨_, rfl, (Forest.nil (Nat.lt_succ_self _)).node hroot, by simp [fullSize]; omega⟩
  | succ depth ih =>
    intro root nodes hroot hsize
    by_cases hfull : nodes.length = size
    · rw [build_full hfull]
      exact ⟨[], (List.append_nil _).symm, .nil hroot, by simp; omega⟩
    · obtain ⟨num, l, hrun, hforest, hlen⟩ :=
        children_spec ih (some root) (by omega : nodes.length < size)
      rw [build_node hfull hrun]
      refine ⟨_, rfl, hforest.node hroot, ?_⟩
      rw [List.length_cons, hlen, fullSize]
      generalize radix * fullSize radix depth = c
      omega

/-- The tree of the participants: the root has the number 0, every other node has a parent before
it, and each counts its children. -/
structure Tree (size : ℕ) (nodes : List InnerNode) : Prop where
  length : nodes.length = size
  root : ∀ node, nodes[0]? = some node → node.parent = none
  parent : ∀ i node, 0 < i → nodes[i]? = some node → ∃ p, node.parent = some p ∧ p < i
  count : ∀ i node, nodes[i]? = some node →
    node.count = nodes.countP fun node => node.parent = some i

/-- The depth of the tree: how often its size can be divided by the radix before it is below two. -/
theorem depth_spec (size : ℕ) (hradix : 2 ≤ radix) :
    ∃ depth, iterate (depthStep radix) (size + 1) (size, 0) = .ok depth ∧
      size < 2 * radix ^ depth ∧ ∀ d < depth, 2 * radix ^ d ≤ size := by
  have hpos : ∀ d, 0 < radix ^ d := fun d => Nat.pow_pos (by omega)
  have hstep : ∀ s : ℕ × ℕ, (s.1 = size / radix ^ s.2 ∧ ∀ d < s.2, 2 * radix ^ d ≤ size) →
      (∃ s', depthStep radix s = .ok (.inl s') ∧
        (s'.1 = size / radix ^ s'.2 ∧ ∀ d < s'.2, 2 * radix ^ d ≤ size) ∧ s'.1 < s.1) ∨
      ∃ a, depthStep radix s = .ok (.inr a) ∧
        size < 2 * radix ^ a ∧ ∀ d < a, 2 * radix ^ d ≤ size := by
    rintro ⟨m, depth⟩ ⟨hm, hdepth⟩
    dsimp only at hm hdepth
    by_cases hlt : 1 < m
    · have hle : 2 * radix ^ depth ≤ size := (Nat.le_div_iff_mul_le (hpos depth)).mp (hm ▸ hlt)
      refine .inl ⟨(m / radix, depth + 1), by rw [depthStep, if_pos hlt]; rfl, ⟨?_, ?_⟩,
        Nat.div_lt_self (by omega) hradix⟩
      · rw [hm, Nat.div_div_eq_div_mul, Nat.pow_succ]
      · intro d hd
        rcases Nat.lt_succ_iff_lt_or_eq.mp hd with hd | rfl
        · exact hdepth d hd
        · exact hle
    · refine .inr ⟨depth, by rw [depthStep, if_neg hlt]; rfl, ?_, hdepth⟩
      exact (Nat.div_lt_iff_lt_mul (hpos depth)).mp (by omega)
  obtain ⟨a, hrun, ha⟩ := iterate_of_variant _ _ (fun s : ℕ × ℕ => s.1) hstep
    (s := (size, 0)) ⟨by simp, fun d hd => absurd hd (Nat.not_lt_zero d)⟩ (Nat.lt_succ_self size)
  exact ⟨a, hrun, ha⟩

/-- The root and what is below it. -/
theorem Forest.tree {num : ℕ} {l : List InnerNode} (h : Forest 1 0 num l)
    (hlen : l.length + 1 = size) : Tree size (⟨none, num⟩ :: l) := by
  refine ⟨hlen, fun node hnode => ?_, fun i node hi hnode => ?_, fun i node hnode => ?_⟩
  · rw [List.getElem?_cons_zero, Option.some.injEq] at hnode
    exact hnode ▸ rfl
  · obtain ⟨k, rfl⟩ := Nat.exists_eq_add_of_le' hi
    rw [List.getElem?_cons_succ] at hnode
    rcases h.parent k node hnode with hp | ⟨p, hp, -, hlt⟩
    · exact ⟨0, hp, hi⟩
    · exact ⟨p, hp, by omega⟩
  · rw [List.countP_cons_of_neg (by simp)]
    cases i with
    | zero =>
      rw [List.getElem?_cons_zero, Option.some.injEq] at hnode
      rw [h.roots, ← hnode]
    | succ k =>
      rw [List.getElem?_cons_succ] at hnode
      rw [h.count k node hnode, Nat.add_comm]

/-- The constructor makes a full tree of its depth, or as much of it as there are participants. -/
theorem treeNodes_eq (hsize : 0 < size) (hradix : 2 ≤ radix) :
    ∃ depth nodes, treeNodes size radix = .ok nodes ∧ size < 2 * radix ^ depth ∧
      (∀ d < depth, 2 * radix ^ d ≤ size) ∧ nodes.length = min (fullSize radix depth) size ∧
      Tree nodes.length nodes := by
  obtain ⟨depth, hrun, hlt, hle⟩ := depth_spec size hradix
  have hne : ([] : List InnerNode).length ≠ size := hsize.ne
  rw [treeNodes, hrun, ok_bind]
  cases depth with
  | zero =>
    rw [build_leaf hne]
    refine ⟨0, _, rfl, hlt, hle, ?_, (Forest.nil Nat.one_pos).tree rfl⟩
    rw [fullSize]
    exact (Nat.min_eq_left hsize).symm
  | succ depth =>
    obtain ⟨num, l, hchildren, hforest, hlen⟩ :=
      children_spec (fills depth : Fills size radix depth) none
        (show ([] : List InnerNode).length < size from hsize)
    rw [build_node hne hchildren]
    refine ⟨depth + 1, _, rfl, hlt, hle, ?_, hforest.tree rfl⟩
    rw [List.length_nil, Nat.sub_zero] at hlen
    rw [List.nil_append, List.length_cons, hlen, fullSize]
    generalize radix * fullSize radix depth = c
    omega

/-- The constructor makes a tree of all participants. -/
theorem treeNodes_spec (hsize : 0 < size) :
    ∃ nodes, treeNodes size 2 = .ok nodes ∧ Tree size nodes := by
  obtain ⟨depth, nodes, hrun, hlt, -, hlen, htree⟩ := treeNodes_eq hsize le_rfl
  refine ⟨nodes, hrun, ?_⟩
  have hfull : size ≤ fullSize 2 depth := by
    rw [fullSize_two, Nat.pow_succ']
    omega
  rwa [hlen, Nat.min_eq_right hfull] at htree

end Meld.Utils
