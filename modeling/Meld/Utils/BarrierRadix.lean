import Meld.Utils.BarrierRounds

/-!
# The tree barrier for every radix

The constructor divides the number of participants by the radix until it is below two, and makes a
tree of that depth. `BarrierRounds` is about a barrier whose nodes are a tree of all participants;
here is for which sizes and radices they are. A tree of depth `d` has room for `1 + r + … + rᵈ`
participants, while the divisions stop at the depth `d` for sizes up to `2 rᵈ - 1`: with the radix 2
these are the same, with a larger one the participants in between get no node.

That a round can be completed is by a variant (`Inv.exists_returned`): how many steps the
participants have left in it.
-/

namespace Meld.Utils

open Lib

variable {size radix i j n : ℕ} {nodes : List InnerNode}

/-! ### A round that all have entered is completed -/

/-- How many steps a participant that is there has left in its present call. -/
def Pc.left : Pc → ℕ
  | .outside | .failed => 0
  | .setSense _ => 1
  | .spinSense _ | .checkSense _ => 2
  | .signal _ | .writeSense _ _ => 3
  | .readSense _ => 4
  | .reset _ => 5
  | .spinChildren _ => 6

namespace TreeBarrier

variable {b : TreeBarrier}

/-- How many steps the participant has left in the round `n`, when it has entered `wait` for it. -/
def left (b : TreeBarrier) (n i : ℕ) : ℕ := if n ≤ b.returned i then 0 else (b.pc i).left

/-- A step of one participant leaves the others where they are. -/
theorem stepOf_frame (b : TreeBarrier) (hne : j ≠ i) :
    (b.stepOf i).pc j = b.pc j ∧ (b.stepOf i).returned j = b.returned j := by
  have hgoTo : ∀ (b' : TreeBarrier) pc, b'.pc = b.pc → b'.returned = b.returned →
      (b'.goTo i pc).pc j = b.pc j ∧ (b'.goTo i pc).returned j = b.returned j :=
    fun b' pc hpc hreturned => ⟨(goTo_pc_of_ne hne).trans (congrFun hpc j), congrFun hreturned j⟩
  rw [stepOf]
  cases b.nodes[i]? with
  | none => exact hgoTo b _ rfl rfl
  | some node =>
    cases b.pc i with
    | outside =>
      simp only
      split_ifs <;> exact hgoTo b _ rfl rfl
    | spinChildren | spinSense =>
      simp only
      split_ifs
      · exact ⟨rfl, rfl⟩
      · exact hgoTo b _ rfl rfl
    | reset | readSense | writeSense => exact hgoTo _ _ rfl rfl
    | signal =>
      simp only
      cases node.parent <;> exact hgoTo _ _ rfl rfl
    | checkSense =>
      simp only
      split_ifs <;> exact hgoTo b _ rfl rfl
    | setSense => exact ⟨Function.update_of_ne hne _ _, Function.update_of_ne hne _ _⟩
    | failed => exact ⟨rfl, rfl⟩

/-- A step of a participant that is there either ends its call or brings it nearer to the end. -/
theorem Inv.stepOf_left (htree : Tree size nodes) (h : Inv nodes size b) (hi : i < size)
    (hinside : b.pc i ≠ .outside) (hne : b.stepOf i ≠ b) :
    ((b.stepOf i).pc i = .outside ∧ (b.stepOf i).returned i = b.returned i + 1) ∨
      ((b.stepOf i).pc i ≠ .outside ∧ (b.stepOf i).returned i = b.returned i ∧
        ((b.stepOf i).pc i).left < (b.pc i).left) := by
  obtain ⟨node, hnode⟩ := htree.exists_node hi
  have hnode' : b.nodes[i]? = some node := h.nodes_eq.symm ▸ hnode
  have hok := h.pcOk i hi
  rw [TreeBarrier.stepOf, hnode'] at hne ⊢
  cases hpc : b.pc i with
  | outside => exact absurd hpc hinside
  | spinChildren v =>
    simp only [hpc] at hne ⊢
    split_ifs at hne ⊢
    · exact absurd rfl hne
    · simp [TreeBarrier.goTo, Pc.left]
  | reset v =>
    simp only
    right
    split_ifs <;> simp [TreeBarrier.goTo, TreeBarrier.setChildren, Pc.left]
  | signal v =>
    rw [hpc] at hok
    obtain ⟨p, hp, -⟩ := htree.parent i node (Nat.pos_of_ne_zero hok.2) hnode
    simp [hp, TreeBarrier.goTo, TreeBarrier.setChildren, Pc.left]
  | spinSense v =>
    simp only [hpc] at hne ⊢
    split_ifs at hne ⊢
    · exact absurd rfl hne
    · simp [TreeBarrier.goTo, Pc.left]
  | readSense v => simp [TreeBarrier.goTo, Pc.left]
  | writeSense v tmp => simp [TreeBarrier.goTo, Pc.left]
  | checkSense v =>
    simp [h.sense_eq hi hpc, TreeBarrier.goTo, Pc.left]
  | setSense v => simp [TreeBarrier.ret, TreeBarrier.goTo]
  | failed =>
    rw [hpc] at hok
    exact hok.elim

/-- A step of a participant that has entered the round and has not returned from it: all have still
entered it, and there is less left to do. -/
theorem Inv.left_stepOf (htree : Tree size nodes) (h : Inv nodes size b)
    (hn : ∀ j < size, n ≤ b.entered j) (hi : i < size) (hlt : b.returned i < n)
    (hne : b.stepOf i ≠ b) :
    (∀ j < size, n ≤ (b.stepOf i).entered j) ∧
      ∑ j ∈ Finset.range size, (b.stepOf i).left n j < ∑ j ∈ Finset.range size, b.left n j := by
  have hinside : b.pc i ≠ .outside := by
    intro hpc
    have hentered := hn i hi
    rw [entered, if_pos hpc] at hentered
    omega
  have hround : n = b.returned i + 1 := le_antisymm ((hn i hi).trans entered_le) hlt
  have hself : n ≤ (b.stepOf i).entered i ∧ (b.stepOf i).left n i < b.left n i := by
    rw [left, left, entered, if_neg hlt.not_ge]
    obtain ⟨hout, hreturned⟩ | ⟨hin, hreturned, hless⟩ := h.stepOf_left htree hi hinside hne
    · rw [hreturned, if_pos hround.le]
      refine ⟨hround.le.trans (Nat.le_add_right ..), ?_⟩
      have hok := h.pcOk i hi
      cases hpc : b.pc i with
      | outside => exact absurd hpc hinside
      | failed =>
        rw [hpc] at hok
        exact hok.elim
      | _ => exact Nat.succ_pos _
    · rw [hreturned, if_neg hin, if_neg hlt.not_ge]
      exact ⟨hround.le, hless⟩
  refine ⟨fun j hj => ?_, Finset.sum_lt_sum (fun j _ => ?_) ⟨i, Finset.mem_range.mpr hi, hself.2⟩⟩
  · rcases eq_or_ne j i with rfl | hji
    · exact hself.1
    · rw [entered, (b.stepOf_frame hji).1, (b.stepOf_frame hji).2]
      exact hn j hj
  · rcases eq_or_ne j i with rfl | hji
    · exact hself.2.le
    · rw [left, left, (b.stepOf_frame hji).1, (b.stepOf_frame hji).2]

/-- When all participants have entered `wait` for the round `n`, they can go on until all have
returned from it. -/
theorem Inv.exists_returned (htree : Tree size nodes) (h : Inv nodes size b)
    (hn : ∀ j < size, n ≤ b.entered j) :
    ∃ b', Relation.ReflTransGen (treeBarrier size radix).step b b' ∧
      ∀ i < size, n ≤ b'.returned i := by
  induction hm : ∑ j ∈ Finset.range size, b.left n j using Nat.strong_induction_on
    generalizing b with
  | _ m ih =>
    by_cases hdone : ∀ i < size, n ≤ b.returned i
    · exact ⟨b, .refl, hdone⟩
    · obtain ⟨i, hdone⟩ := not_forall.mp hdone
      obtain ⟨hi, hlt⟩ := Classical.not_imp.mp hdone
      obtain ⟨k, hk, hklt, hne⟩ := h.progress htree hn hi (Nat.lt_of_not_ge hlt)
      obtain ⟨hn', hless⟩ := h.left_stepOf htree hn hk hklt hne
      obtain ⟨b', hsteps, hreturned⟩ := ih _ (hm ▸ hless) (h.stepOf htree hk) hn' rfl
      exact ⟨b', .head ⟨k, hk, rfl⟩ hsteps, hreturned⟩

end TreeBarrier

open TreeBarrier

/-! ### The sizes that the depth is enough for -/

/-- The barrier is for all its participants: the constructor makes a tree with one node for each,
whose nodes count their children; no participant returns from a round that another has not entered;
and when all have entered a round, one that has not returned from it can step, and all can go on
until they have returned. -/
structure CountsEveryone (size radix : ℕ) : Prop where
  tree : ∃ nodes, treeNodes size radix = .ok nodes ∧ Tree size nodes
  closed : ∀ b, (treeBarrier size radix).Reachable b → ∀ i < size, ∀ j < size,
    b.returned i ≤ b.entered j
  progress : ∀ b, (treeBarrier size radix).Reachable b → ∀ n, (∀ j < size, n ≤ b.entered j) →
    ∀ i < size, b.returned i < n → ∃ k < size, b.returned k < n ∧ b.stepOf k ≠ b
  opens : ∀ b, (treeBarrier size radix).Reachable b → ∀ n, (∀ j < size, n ≤ b.entered j) →
    ∃ b', Relation.ReflTransGen (treeBarrier size radix).step b b' ∧ ∀ i < size, n ≤ b'.returned i

/-- A tree of all participants is enough for the rounds. -/
theorem CountsEveryone.of_tree (hrun : treeNodes size radix = .ok nodes) (htree : Tree size nodes) :
    CountsEveryone size radix where
  tree := ⟨nodes, hrun, htree⟩
  closed _ hb _ hi _ hj := (Inv.of_reachable hrun htree hb).returned_le_entered htree hi hj
  progress _ hb _ hn _ hi hlt := (Inv.of_reachable hrun htree hb).progress htree hn hi hlt
  opens _ hb _ hn := (Inv.of_reachable hrun htree hb).exists_returned htree hn

/-- The barrier is for all its participants unless their number is more than a full tree of some
depth has nodes, and the divisions stop at that depth. -/
theorem countsEveryone_iff (hsize : 1 ≤ size) (hradix : 2 ≤ radix) :
    CountsEveryone size radix ↔ ¬∃ d, fullSize radix d < size ∧ size < 2 * radix ^ d := by
  obtain ⟨depth, nodes, hrun, hlt, hle, hlen, htree⟩ := treeNodes_eq hsize hradix
  constructor
  · rintro ⟨⟨nodes', hrun', htree'⟩, -, -, -⟩ ⟨d, hfull, hd⟩
    rw [hrun, Except.ok.injEq] at hrun'
    subst hrun'
    rw [htree'.length] at hlen
    -- the divisions stop at the first depth that is low enough
    have hdepth : depth ≤ d := by
      by_contra hgt
      exact absurd (hle d (Nat.lt_of_not_ge hgt)) hd.not_ge
    have hmono := fullSize_mono (Nat.zero_lt_of_lt hradix) hdepth
    omega
  · intro hnone
    have hfull : size ≤ fullSize radix depth := by
      by_contra hgt
      exact hnone ⟨depth, Nat.lt_of_not_ge hgt, hlt⟩
    rw [hlen, Nat.min_eq_right hfull] at htree
    exact .of_tree hrun htree

/-- Seven participants with the radix 3: the divisions stop at the depth 2, with room for 13. -/
theorem countsEveryone_seven : 1 ≤ 7 ∧ 2 ≤ 3 ∧ CountsEveryone 7 3 := by
  refine ⟨by decide, by decide, (countsEveryone_iff (by decide) (by decide)).mpr ?_⟩
  rintro ⟨d, hfull, hd⟩
  rcases Nat.lt_or_ge d 2 with hlt | hge
  · interval_cases d <;> revert hfull hd <;> decide
  · exact absurd (hfull.trans (by decide : 7 < fullSize 3 2)) (fullSize_mono (by decide) hge).not_gt

/-- With the radix 2 every number of participants gets its nodes. -/
theorem countsEveryone_two (hsize : 1 ≤ size) : CountsEveryone size 2 := by
  obtain ⟨nodes, hrun, htree⟩ := treeNodes_spec hsize
  exact .of_tree hrun htree

/-- Five participants with the radix 3 get four nodes. -/
theorem not_countsEveryone_five :
    ¬∀ size radix, 1 ≤ size → 2 ≤ radix → CountsEveryone size radix := by
  intro h
  obtain ⟨nodes, hrun, htree⟩ := (h 5 3 (by decide) (by decide)).tree
  have hnodes : treeNodes 5 3 = .ok [⟨none, 3⟩, ⟨some 0, 0⟩, ⟨some 0, 0⟩, ⟨some 0, 0⟩] := by decide
  rw [hnodes, Except.ok.injEq] at hrun
  subst hrun
  exact absurd htree.length (by decide)

end Meld.Utils
