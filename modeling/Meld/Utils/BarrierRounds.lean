import Meld.Utils.TreeBarrier

/-!
# The rounds of the tree barrier

How far each participant has come is counted over all rounds: how often it has reset its counter
and how often it has told its parent, or, at the root, flipped the sense. A node has reset its
counter at most as often as each of its children has told it (`Counts.lower`), at most one time
less (`Counts.upper`), and its counter is what is missing (`Counts.counter`). The flips of the root
are the number of rounds that are over, and by induction over the tree no participant is behind them
(`Inv.flips_le`).

`barrier_rounds` is what the barrier is for, and that it does not block.
-/

namespace Meld.Utils

open Lib

/-- The parent of a node. -/
def parentOf (nodes : List InnerNode) (i : ℕ) : Option ℕ := (nodes[i]?).bind InnerNode.parent

/-- The children of a node. -/
def childrenOf (nodes : List InnerNode) (p : ℕ) : Finset ℕ :=
  (Finset.range nodes.length).filter fun c => parentOf nodes c = some p

/-- Counting in a list is counting its indices. -/
theorem countP_parent (nodes : List InnerNode) (p : ℕ) :
    nodes.countP (fun node => node.parent = some p) = (childrenOf nodes p).card := by
  rw [childrenOf, Finset.card_filter]
  induction nodes using List.reverseRecOn with
  | nil => rfl
  | append_singleton nodes node ih =>
    have hlast : parentOf (nodes ++ [node]) nodes.length = node.parent := by
      simp [parentOf]
    rw [List.countP_append, List.length_append, List.length_singleton, Finset.sum_range_succ,
      hlast, ih]
    congr 1
    · refine Finset.sum_congr rfl fun c hc => ?_
      rw [parentOf, parentOf, List.getElem?_append_left (Finset.mem_range.mp hc)]
    · simp [List.countP_singleton]

variable {size i j p c : ℕ} {nodes : List InnerNode}

theorem Tree.mem_childrenOf (h : Tree size nodes) :
    c ∈ childrenOf nodes p ↔ c < size ∧ parentOf nodes c = some p := by
  rw [childrenOf, Finset.mem_filter, Finset.mem_range, h.length]

theorem Tree.exists_node (h : Tree size nodes) (hi : i < size) : ∃ node, nodes[i]? = some node :=
  ⟨_, List.getElem?_eq_getElem (h.length.symm ▸ hi)⟩

theorem Tree.parentOf_zero (h : Tree size nodes) : parentOf nodes 0 = none := by
  unfold parentOf
  cases hnode : nodes[0]? with
  | none => rfl
  | some node => exact h.root node hnode

theorem Tree.exists_parent (h : Tree size nodes) (hi : i < size) (hpos : 0 < i) :
    ∃ p, parentOf nodes i = some p ∧ p < i := by
  obtain ⟨node, hnode⟩ := h.exists_node hi
  obtain ⟨p, hp, hlt⟩ := h.parent i node hpos hnode
  exact ⟨p, by rw [parentOf, hnode]; exact hp, hlt⟩

theorem Tree.parent_lt (h : Tree size nodes) (hi : i < size) (hp : parentOf nodes i = some p) :
    p < i := by
  rcases Nat.eq_zero_or_pos i with rfl | hpos
  · rw [h.parentOf_zero] at hp
    cases hp
  · obtain ⟨q, hq, hlt⟩ := h.exists_parent hi hpos
    rw [hp, Option.some.injEq] at hq
    exact hq ▸ hlt

/-! ### How far the participants have come -/

/-- Whether a participant that is there has reset its counter in its present call. -/
def Pc.resets : Pc → ℕ
  | .signal _ | .spinSense _ | .readSense _ | .writeSense _ _ | .checkSense _ | .setSense _ => 1
  | .outside | .spinChildren _ | .reset _ | .failed => 0

/-- Whether a participant that is there has told its parent, or flipped the sense, in its present
call. -/
def Pc.signals : Pc → ℕ
  | .spinSense _ | .checkSense _ | .setSense _ => 1
  | .outside | .spinChildren _ | .reset _ | .signal _ | .readSense _ | .writeSense _ _
  | .failed => 0

namespace TreeBarrier

variable {b b' : TreeBarrier}

/-- How often the participant has reset its counter. -/
def resets (b : TreeBarrier) (i : ℕ) : ℕ := b.returned i + (b.pc i).resets

/-- How often the participant has told its parent, or flipped the sense. -/
def signals (b : TreeBarrier) (i : ℕ) : ℕ := b.returned i + (b.pc i).signals

theorem signals_le_resets : b.signals i ≤ b.resets i := by
  unfold signals resets
  cases b.pc i <;> simp [Pc.signals, Pc.resets]

theorem signals_le_entered : b.signals i ≤ b.entered i := by
  unfold signals entered
  cases b.pc i <;> simp [Pc.signals]

theorem signals_le_returned : b.signals i ≤ b.returned i + 1 := by
  unfold signals
  cases b.pc i <;> simp [Pc.signals]

/-- The counters, by how far the participants have come. -/
structure Counts (nodes : List InnerNode) (size : ℕ) (childrenCount resets signals : ℕ → ℕ) :
    Prop where
  counter : ∀ p < size, childrenCount p + ∑ c ∈ childrenOf nodes p, signals c =
    (childrenOf nodes p).card * (resets p + 1)
  lower : ∀ p, ∀ c ∈ childrenOf nodes p, resets p ≤ signals c
  upper : ∀ p, ∀ c ∈ childrenOf nodes p, signals c ≤ resets p + 1

/-- What holds of a participant at each place; `flips` is how often the sense was flipped. -/
def PcOk (b : TreeBarrier) (flips i : ℕ) : Pc → Prop
  | .outside => True
  | .spinChildren v => v = !(b.returned i).bodd
  | .reset v => v = !(b.returned i).bodd ∧ b.childrenCount i = 0
  | .signal v | .spinSense v => v = !(b.returned i).bodd ∧ i ≠ 0
  | .readSense v => v = !(b.returned i).bodd ∧ i = 0
  | .writeSense v tmp => v = !(b.returned i).bodd ∧ i = 0 ∧ tmp = b.sense
  | .checkSense v => v = !(b.returned i).bodd ∧ i = 0
  | .setSense v => v = !(b.returned i).bodd ∧ b.returned i + 1 ≤ flips
  | .failed => False

/-- The invariant of the barrier. -/
structure Inv (nodes : List InnerNode) (size : ℕ) (b : TreeBarrier) : Prop where
  nodes_eq : b.nodes = nodes
  sense : b.sense = (b.signals 0).bodd
  threadSense : ∀ i < size, b.threadSense i = !(b.returned i).bodd
  returned_le : ∀ i < size, b.returned i ≤ b.signals 0
  pcOk : ∀ i < size, b.PcOk (b.signals 0) i (b.pc i)
  counts : Counts nodes size b.childrenCount b.resets b.signals

theorem Inv.new (htree : Tree size nodes) : Inv nodes size (TreeBarrier.new nodes) := by
  refine ⟨rfl, Nat.bodd_zero.symm, fun _ _ => (congrArg not Nat.bodd_zero).symm,
    fun _ _ => le_rfl, fun _ _ => trivial,
    ⟨fun p hp => ?_, fun _ _ _ => le_rfl, fun _ _ _ => Nat.zero_le _⟩⟩
  obtain ⟨node, hnode⟩ := htree.exists_node hp
  have hcount : (TreeBarrier.new nodes).childrenCount p = (childrenOf nodes p).card := by
    simp only [TreeBarrier.new, hnode, Option.map_some, Option.getD_some]
    rw [htree.count p node hnode, countP_parent]
  have hsignals : ∑ c ∈ childrenOf nodes p, (TreeBarrier.new nodes).signals c = 0 :=
    Finset.sum_eq_zero fun _ _ => rfl
  rw [hcount, hsignals, Nat.add_zero]
  exact (Nat.mul_one _).symm

/-- No participant is behind the flips of the sense. -/
theorem Inv.flips_le (htree : Tree size nodes) (h : Inv nodes size b) :
    ∀ i < size, b.signals 0 ≤ b.signals i := by
  intro i
  induction i using Nat.strong_induction_on with
  | _ i ih =>
    intro hi
    rcases Nat.eq_zero_or_pos i with rfl | hpos
    · exact le_rfl
    · obtain ⟨p, hp, hlt⟩ := htree.exists_parent hi hpos
      have hlower := h.counts.lower p i (htree.mem_childrenOf.mpr ⟨hi, hp⟩)
      exact (ih p hlt (hlt.trans hi)).trans (signals_le_resets.trans hlower)

/-! ### Steps that keep the counts -/

@[simp] theorem goTo_pc_self {pc : Pc} : (b.goTo i pc).pc i = pc := Function.update_self _ _ _

theorem goTo_pc_of_ne {pc : Pc} (h : j ≠ i) : (b.goTo i pc).pc j = b.pc j :=
  Function.update_of_ne h _ _

/-- What holds of a participant depends on its own counter and returns, on the flips, and for the
root on the sense. -/
theorem PcOk.congr {flips flips' : ℕ} {pc : Pc} (h : b.PcOk flips i pc)
    (hreturned : b'.returned i = b.returned i) (hflips : flips ≤ flips')
    (hcounter : ∀ v, pc = .reset v → b'.childrenCount i = b.childrenCount i)
    (hsense : ∀ v tmp, pc = .writeSense v tmp → b'.sense = b.sense) : b'.PcOk flips' i pc := by
  cases pc with
  | outside => trivial
  | spinChildren | signal | spinSense | readSense | checkSense =>
    rw [PcOk, hreturned]
    exact h
  | reset v =>
    rw [PcOk, hreturned, hcounter v rfl]
    exact h
  | writeSense v tmp =>
    rw [PcOk, hreturned, hsense v tmp rfl]
    exact h
  | setSense v =>
    rw [PcOk, hreturned]
    exact ⟨h.1, h.2.trans hflips⟩
  | failed => exact h

/-- A step of the participant `i` that neither resets a counter nor tells the parent nor returns. -/
theorem Inv.goTo (h : Inv nodes size b) {pc : Pc} (hresets : pc.resets = (b.pc i).resets)
    (hsignals : pc.signals = (b.pc i).signals) (hok : i < size → b.PcOk (b.signals 0) i pc) :
    Inv nodes size (b.goTo i pc) := by
  have hpc : ∀ j, ((b.goTo i pc).pc j).resets = (b.pc j).resets ∧
      ((b.goTo i pc).pc j).signals = (b.pc j).signals := by
    intro j
    rcases eq_or_ne j i with rfl | hne
    · rw [goTo_pc_self]
      exact ⟨hresets, hsignals⟩
    · rw [goTo_pc_of_ne hne]
      exact ⟨rfl, rfl⟩
  have hres : (b.goTo i pc).resets = b.resets := funext fun j => by
    rw [TreeBarrier.resets, TreeBarrier.resets, (hpc j).1]
    rfl
  have hsig : (b.goTo i pc).signals = b.signals := funext fun j => by
    rw [TreeBarrier.signals, TreeBarrier.signals, (hpc j).2]
    rfl
  refine ⟨h.nodes_eq, hsig ▸ h.sense, h.threadSense, hsig ▸ h.returned_le, fun j hj => ?_,
    hres ▸ hsig ▸ h.counts⟩
  rw [hsig]
  rcases eq_or_ne j i with rfl | hne
  · rw [goTo_pc_self]
    exact (hok hj).congr rfl le_rfl (fun _ _ => rfl) fun _ _ _ => rfl
  · rw [goTo_pc_of_ne hne]
    exact (h.pcOk j hj).congr rfl le_rfl (fun _ _ => rfl) fun _ _ _ => rfl

/-- The return of the participant `i`, which makes its present call one of the past. -/
theorem Inv.ret (h : Inv nodes size b) (hi : i < size) {v : Bool} (hpc : b.pc i = .setSense v) :
    Inv nodes size (b.ret i (!v)) := by
  have hok := h.pcOk i hi
  rw [hpc] at hok
  have hother : ∀ j, j ≠ i → (b.ret i (!v)).pc j = b.pc j ∧
      (b.ret i (!v)).returned j = b.returned j ∧
      (b.ret i (!v)).threadSense j = b.threadSense j := fun j hj =>
    ⟨Function.update_of_ne hj _ _, Function.update_of_ne hj _ _, Function.update_of_ne hj _ _⟩
  have hself : (b.ret i (!v)).pc i = .outside ∧ (b.ret i (!v)).returned i = b.returned i + 1 ∧
      (b.ret i (!v)).threadSense i = !v :=
    ⟨Function.update_self _ _ _, Function.update_self _ _ _, Function.update_self _ _ _⟩
  have hres : (b.ret i (!v)).resets = b.resets := funext fun j => by
    rw [TreeBarrier.resets, TreeBarrier.resets]
    rcases eq_or_ne j i with rfl | hne
    · rw [hself.1, hself.2.1, hpc]
      rfl
    · rw [(hother j hne).1, (hother j hne).2.1]
  have hsig : (b.ret i (!v)).signals = b.signals := funext fun j => by
    rw [TreeBarrier.signals, TreeBarrier.signals]
    rcases eq_or_ne j i with rfl | hne
    · rw [hself.1, hself.2.1, hpc]
      rfl
    · rw [(hother j hne).1, (hother j hne).2.1]
  refine ⟨h.nodes_eq, hsig ▸ h.sense, fun j hj => ?_, fun j hj => ?_, fun j hj => ?_,
    hres ▸ hsig ▸ h.counts⟩
  · rcases eq_or_ne j i with rfl | hne
    · rw [hself.2.2, hself.2.1, hok.1, Nat.bodd_succ]
    · rw [(hother j hne).2.2, (hother j hne).2.1]
      exact h.threadSense j hj
  · rw [hsig]
    rcases eq_or_ne j i with rfl | hne
    · rw [hself.2.1]
      exact hok.2
    · rw [(hother j hne).2.1]
      exact h.returned_le j hj
  · rw [hsig]
    rcases eq_or_ne j i with rfl | hne
    · rw [hself.1]
      trivial
    · rw [(hother j hne).1]
      exact (h.pcOk j hj).congr (hother j hne).2.1 le_rfl (fun _ _ => rfl) fun _ _ _ => rfl

/-! ### Steps that change the counts -/

/-- When the counter of a node is zero, all its children have told it. -/
theorem Inv.signals_eq (h : Inv nodes size b) (hi : i < size) (hzero : b.childrenCount i = 0) :
    ∀ c ∈ childrenOf nodes i, b.signals c = b.resets i + 1 := by
  have hcounter := h.counts.counter i hi
  rw [hzero, Nat.zero_add] at hcounter
  have hsum : ∑ c ∈ childrenOf nodes i, b.signals c =
      ∑ _c ∈ childrenOf nodes i, (b.resets i + 1) := by
    rw [hcounter, Finset.sum_const, Nat.nsmul_eq_mul]
  exact (Finset.sum_eq_sum_iff_of_le (h.counts.upper i)).mp hsum

/-- A node resets its counter when all its children have told it. -/
theorem Inv.reset (h : Inv nodes size b) (hi : i < size) {v : Bool} (hpc : b.pc i = .reset v)
    {pc : Pc} (hresets : pc.resets = 1) (hsignals : pc.signals = 0)
    (hok : ((b.setChildren i (childrenOf nodes i).card).goTo i pc).PcOk (b.signals 0) i pc) :
    Inv nodes size ((b.setChildren i (childrenOf nodes i).card).goTo i pc) := by
  have hzero := h.pcOk i hi
  rw [hpc] at hzero
  -- all children have signalled
  have hall := h.signals_eq hi hzero.2
  -- and the reset is no signal
  have hsig : ((b.setChildren i (childrenOf nodes i).card).goTo i pc).signals = b.signals := by
    funext j
    rw [TreeBarrier.signals, TreeBarrier.signals]
    rcases eq_or_ne j i with rfl | hne
    · rw [goTo_pc_self, hsignals, hpc]
      rfl
    · rw [goTo_pc_of_ne hne]
      rfl
  have hres_of_ne : ∀ j, j ≠ i →
      ((b.setChildren i (childrenOf nodes i).card).goTo i pc).resets j = b.resets j := by
    intro j hj
    rw [TreeBarrier.resets, TreeBarrier.resets, goTo_pc_of_ne hj]
    rfl
  have hres : ((b.setChildren i (childrenOf nodes i).card).goTo i pc).resets i =
      b.resets i + 1 := by
    rw [TreeBarrier.resets, TreeBarrier.resets, goTo_pc_self, hresets, hpc]
    rfl
  have hcount_of_ne : ∀ j, j ≠ i →
      ((b.setChildren i (childrenOf nodes i).card).goTo i pc).childrenCount j =
        b.childrenCount j := fun j hj => Function.update_of_ne hj _ _
  have hcount : ((b.setChildren i (childrenOf nodes i).card).goTo i pc).childrenCount i =
      (childrenOf nodes i).card := Function.update_self _ _ _
  refine ⟨h.nodes_eq, hsig ▸ h.sense, h.threadSense, hsig ▸ h.returned_le, fun j hj => ?_,
    ⟨fun p hp => ?_, fun p c hc => ?_, fun p c hc => ?_⟩⟩
  · rw [hsig]
    rcases eq_or_ne j i with rfl | hne
    · rw [goTo_pc_self]
      exact hok
    · rw [goTo_pc_of_ne hne]
      exact (h.pcOk j hj).congr rfl le_rfl (fun _ _ => hcount_of_ne j hne) fun _ _ _ => rfl
  · rw [hsig]
    rcases eq_or_ne p i with rfl | hne
    · have hcounter := h.counts.counter p hp
      rw [hzero.2, Nat.zero_add] at hcounter
      rw [hcount, hres, hcounter, Nat.mul_succ _ (b.resets p + 1), Nat.add_comm]
    · rw [hcount_of_ne p hne, hres_of_ne p hne]
      exact h.counts.counter p hp
  · rw [hsig]
    rcases eq_or_ne p i with rfl | hne
    · rw [hres, hall c hc]
    · rw [hres_of_ne p hne]
      exact h.counts.lower p c hc
  · rw [hsig]
    rcases eq_or_ne p i with rfl | hne
    · rw [hres]
      exact (h.counts.upper p c hc).trans (Nat.le_succ _)
    · rw [hres_of_ne p hne]
      exact h.counts.upper p c hc

/-- A participant that is about to tell its parent has not done so in the round of the parent. -/
theorem Inv.signals_eq_resets (htree : Tree size nodes) (h : Inv nodes size b) (hi : i < size)
    {v : Bool} (hpc : b.pc i = .signal v) (hp : parentOf nodes i = some p) :
    b.signals i = b.signals 0 ∧ b.resets p = b.signals i := by
  have hchild := htree.mem_childrenOf.mpr ⟨hi, hp⟩
  have hlt := htree.parent_lt hi hp
  have hsignals : b.signals i = b.returned i := by
    rw [TreeBarrier.signals, hpc]
    rfl
  have hflips := h.flips_le htree i hi
  have hparent := h.flips_le htree p (hlt.trans hi)
  have := h.returned_le i hi
  have := h.counts.lower p i hchild
  have := signals_le_resets (b := b) (i := p)
  omega

/-- The counter of the parent is positive when a child is about to decrement it. -/
theorem Inv.counter_pos (htree : Tree size nodes) (h : Inv nodes size b) (hi : i < size)
    {v : Bool} (hpc : b.pc i = .signal v) (hp : parentOf nodes i = some p) :
    0 < b.childrenCount p := by
  by_contra hzero
  have hlt := htree.parent_lt hi hp
  have hall := h.signals_eq (hlt.trans hi) (Nat.eq_zero_of_not_pos hzero) i
    (htree.mem_childrenOf.mpr ⟨hi, hp⟩)
  have := (h.signals_eq_resets htree hi hpc hp).2
  omega

/-- A participant tells its parent. -/
theorem Inv.signal (htree : Tree size nodes) (h : Inv nodes size b) (hi : i < size) {v : Bool}
    (hpc : b.pc i = .signal v) (hp : parentOf nodes i = some p) :
    Inv nodes size ((b.setChildren p (decSize (b.childrenCount p))).goTo i (.spinSense v)) := by
  have hchild := htree.mem_childrenOf.mpr ⟨hi, hp⟩
  have hpos := h.counter_pos htree hi hpc hp
  have hround := (h.signals_eq_resets htree hi hpc hp).2
  have hok := h.pcOk i hi
  rw [hpc] at hok
  have hdec : decSize (b.childrenCount p) = b.childrenCount p - 1 := if_neg hpos.ne'
  rw [hdec]
  have hres : ((b.setChildren p (b.childrenCount p - 1)).goTo i (.spinSense v)).resets =
      b.resets := by
    funext j
    rw [TreeBarrier.resets, TreeBarrier.resets]
    rcases eq_or_ne j i with rfl | hne
    · rw [goTo_pc_self, hpc]
      rfl
    · rw [goTo_pc_of_ne hne]
      rfl
  have hsig_of_ne : ∀ j, j ≠ i →
      ((b.setChildren p (b.childrenCount p - 1)).goTo i (.spinSense v)).signals j =
        b.signals j := by
    intro j hj
    rw [TreeBarrier.signals, TreeBarrier.signals, goTo_pc_of_ne hj]
    rfl
  have hsig : ((b.setChildren p (b.childrenCount p - 1)).goTo i (.spinSense v)).signals i =
      b.signals i + 1 := by
    rw [TreeBarrier.signals, TreeBarrier.signals, goTo_pc_self, hpc]
    rfl
  have hflips := hsig_of_ne 0 (Ne.symm hok.2)
  have hcount_of_ne : ∀ j, j ≠ p →
      ((b.setChildren p (b.childrenCount p - 1)).goTo i (.spinSense v)).childrenCount j =
        b.childrenCount j := fun j hj => Function.update_of_ne hj _ _
  have hcount : ((b.setChildren p (b.childrenCount p - 1)).goTo i
      (.spinSense v)).childrenCount p = b.childrenCount p - 1 := Function.update_self _ _ _
  refine ⟨h.nodes_eq, hflips ▸ h.sense, h.threadSense, hflips ▸ h.returned_le, fun j hj => ?_,
    ⟨fun q hq => ?_, fun q c hc => ?_, fun q c hc => ?_⟩⟩
  · rw [hflips]
    rcases eq_or_ne j i with rfl | hne
    · rw [goTo_pc_self]
      exact hok
    · rw [goTo_pc_of_ne hne]
      refine (h.pcOk j hj).congr rfl le_rfl (fun w hw => ?_) fun _ _ _ => rfl
      -- a parent that is about to reset its counter has been told by all its children
      refine hcount_of_ne j ?_
      rintro rfl
      have hzero := h.pcOk j hj
      rw [hw] at hzero
      have := hzero.2
      omega
  · rw [hres]
    have hcounter := h.counts.counter q hq
    rcases eq_or_ne q p with rfl | hne
    · have hothers : ∑ c ∈ (childrenOf nodes q).erase i,
          ((b.setChildren q (b.childrenCount q - 1)).goTo i (.spinSense v)).signals c =
          ∑ c ∈ (childrenOf nodes q).erase i, b.signals c :=
        Finset.sum_congr rfl fun c hc => hsig_of_ne c (Finset.ne_of_mem_erase hc)
      have hsum : b.signals i + ∑ c ∈ (childrenOf nodes q).erase i, b.signals c =
          ∑ c ∈ childrenOf nodes q, b.signals c := Finset.add_sum_erase _ _ hchild
      rw [← hsum] at hcounter
      rw [hcount, ← Finset.add_sum_erase _ _ hchild, hsig, hothers]
      omega
    · have hsum : ∑ c ∈ childrenOf nodes q,
          ((b.setChildren p (b.childrenCount p - 1)).goTo i (.spinSense v)).signals c =
          ∑ c ∈ childrenOf nodes q, b.signals c := by
        refine Finset.sum_congr rfl fun c hc => hsig_of_ne c ?_
        rintro rfl
        have hq' := (htree.mem_childrenOf.mp hc).2
        rw [hp, Option.some.injEq] at hq'
        exact hne hq'.symm
      rw [hcount_of_ne q hne, hsum]
      exact hcounter
  · rw [hres]
    rcases eq_or_ne c i with rfl | hne
    · rw [hsig]
      exact (h.counts.lower q c hc).trans (Nat.le_succ _)
    · rw [hsig_of_ne c hne]
      exact h.counts.lower q c hc
  · rw [hres]
    rcases eq_or_ne c i with rfl | hne
    · have hq' := (htree.mem_childrenOf.mp hc).2
      rw [hp, Option.some.injEq] at hq'
      subst hq'
      rw [hsig]
      omega
    · rw [hsig_of_ne c hne]
      exact h.counts.upper q c hc

/-- The root flips the sense. -/
theorem Inv.flip (htree : Tree size nodes) (h : Inv nodes size b) (hi : i < size) {v tmp : Bool}
    (hpc : b.pc i = .writeSense v tmp) :
    Inv nodes size ({ b with sense := !tmp }.goTo i (.checkSense v)) := by
  have hok := h.pcOk i hi
  rw [hpc] at hok
  obtain ⟨hv, rfl, rfl⟩ := hok
  -- turning the sense is a signal of the root, and no reset
  have hres : ({ b with sense := !b.sense }.goTo 0 (.checkSense v)).resets = b.resets := by
    funext j
    rw [TreeBarrier.resets, TreeBarrier.resets]
    rcases eq_or_ne j 0 with rfl | hne
    · rw [goTo_pc_self, hpc]
      rfl
    · rw [goTo_pc_of_ne hne]
      rfl
  have hsig_of_ne : ∀ j, j ≠ 0 →
      ({ b with sense := !b.sense }.goTo 0 (.checkSense v)).signals j = b.signals j := by
    intro j hj
    rw [TreeBarrier.signals, TreeBarrier.signals, goTo_pc_of_ne hj]
    rfl
  have hsig : ({ b with sense := !b.sense }.goTo 0 (.checkSense v)).signals 0 =
      b.signals 0 + 1 := by
    rw [TreeBarrier.signals, TreeBarrier.signals, goTo_pc_self, hpc]
    rfl
  -- the root is nobody's child
  have hchild : ∀ q, ∀ c ∈ childrenOf nodes q,
      ({ b with sense := !b.sense }.goTo 0 (.checkSense v)).signals c = b.signals c := by
    intro q c hc
    refine hsig_of_ne c ?_
    rintro rfl
    have hq := (htree.mem_childrenOf.mp hc).2
    rw [htree.parentOf_zero] at hq
    cases hq
  refine ⟨h.nodes_eq, ?_, h.threadSense, fun j hj => ?_, fun j hj => ?_,
    ⟨fun q hq => ?_, fun q c hc => ?_, fun q c hc => ?_⟩⟩
  · rw [hsig, Nat.bodd_succ, ← h.sense]
    rfl
  · rw [hsig]
    exact (h.returned_le j hj).trans (Nat.le_succ _)
  · rw [hsig]
    rcases eq_or_ne j 0 with rfl | hne
    · rw [goTo_pc_self]
      exact ⟨hv, rfl⟩
    · rw [goTo_pc_of_ne hne]
      refine (h.pcOk j hj).congr rfl (Nat.le_succ _) (fun _ _ => rfl) fun w tmp hw => ?_
      have hroot := h.pcOk j hj
      rw [hw] at hroot
      exact absurd hroot.2.1 hne
  · rw [hres, Finset.sum_congr rfl (hchild q)]
    exact h.counts.counter q hq
  · rw [hres, hchild q c hc]
    exact h.counts.lower q c hc
  · rw [hres, hchild q c hc]
    exact h.counts.upper q c hc

/-! ### Runs -/

/-- A participant that leaves the loop on the sense leaves it after the flip of its round. -/
theorem Inv.returned_lt (h : Inv nodes size b) (hi : i < size) {v : Bool}
    (hpc : b.pc i = .spinSense v) (hsense : b.sense = v) : b.returned i + 1 ≤ b.signals 0 := by
  have hok := h.pcOk i hi
  rw [hpc] at hok
  have hle := h.returned_le i hi
  by_contra hlt
  -- before the flip the sense is the one of the round before
  have heq : b.signals 0 = b.returned i := by omega
  have hbad := h.sense
  rw [heq, hsense, hok.1] at hbad
  cases hbodd : (b.returned i).bodd <;> rw [hbodd] at hbad <;> cases hbad

/-- The sense is what the root expects after the flip. -/
theorem Inv.sense_eq (h : Inv nodes size b) (hi : i < size) {v : Bool}
    (hpc : b.pc i = .checkSense v) : b.sense = v := by
  have hok := h.pcOk i hi
  rw [hpc] at hok
  obtain ⟨hv, rfl⟩ := hok
  have hsignals : b.signals 0 = b.returned 0 + 1 := by
    rw [signals, hpc]
    rfl
  rw [h.sense, hsignals, Nat.bodd_succ, hv]

theorem Inv.stepOf (htree : Tree size nodes) (h : Inv nodes size b) (hi : i < size) :
    Inv nodes size (b.stepOf i) := by
  obtain ⟨node, hnode⟩ := htree.exists_node hi
  have hnode' : b.nodes[i]? = some node := h.nodes_eq.symm ▸ hnode
  have hparent : parentOf nodes i = node.parent := by
    rw [parentOf, hnode]
    rfl
  have hcount : node.count = (childrenOf nodes i).card := by
    rw [htree.count i node hnode, countP_parent]
  have hok := h.pcOk i hi
  rw [TreeBarrier.stepOf, hnode']
  cases hpc : b.pc i with
  | outside =>
    simp only
    rw [if_neg]
    · exact h.goTo (by rw [hpc]; rfl) (by rw [hpc]; rfl) fun _ => h.threadSense i hi
    · rintro ⟨rfl, hne⟩
      exact hne (htree.root node hnode)
  | spinChildren v =>
    rw [hpc] at hok
    simp only
    split_ifs with hpos
    · exact h
    · exact h.goTo (by rw [hpc]; rfl) (by rw [hpc]; rfl) fun _ =>
        ⟨hok, Nat.eq_zero_of_not_pos hpos⟩
  | reset v =>
    rw [hpc] at hok
    simp only
    rw [hcount]
    -- only the root has no parent to signal
    split_ifs with hroot
    · refine h.reset hi hpc rfl rfl ⟨hok.1, ?_⟩
      by_contra hne
      obtain ⟨p, hp, -⟩ := htree.exists_parent hi (Nat.pos_of_ne_zero hne)
      rw [hparent, hroot] at hp
      cases hp
    · refine h.reset hi hpc rfl rfl ⟨hok.1, ?_⟩
      rintro rfl
      exact hroot (htree.root node hnode)
  | signal v =>
    rw [hpc] at hok
    obtain ⟨p, hp, -⟩ := htree.exists_parent hi (Nat.pos_of_ne_zero hok.2)
    simp only
    rw [← hparent, hp]
    exact h.signal htree hi hpc hp
  | spinSense v =>
    rw [hpc] at hok
    simp only
    split_ifs with hsense
    · exact h
    · exact h.goTo (by rw [hpc]; rfl) (by rw [hpc]; rfl) fun _ =>
        ⟨hok.1, h.returned_lt hi hpc (not_not.mp hsense)⟩
  | readSense v =>
    rw [hpc] at hok
    exact h.goTo (by rw [hpc]; rfl) (by rw [hpc]; rfl) fun _ => ⟨hok.1, hok.2, rfl⟩
  | writeSense v tmp => exact h.flip htree hi hpc
  | checkSense v =>
    have hsignals : b.signals i = b.returned i + 1 := by
      rw [signals, hpc]
      rfl
    rw [hpc] at hok
    simp only
    rw [if_pos (h.sense_eq hi hpc)]
    refine h.goTo (by rw [hpc]; rfl) (by rw [hpc]; rfl) fun _ => ⟨hok.1, ?_⟩
    rw [hok.2] at hsignals ⊢
    exact hsignals.ge
  | setSense v => exact h.ret hi hpc
  | failed =>
    rw [hpc] at hok
    exact hok.elim

/-- Every reachable state of a barrier whose nodes are a tree keeps the invariant. -/
theorem Inv.of_reachable {radix : ℕ} (hrun : treeNodes size radix = .ok nodes)
    (htree : Tree size nodes) (h : (treeBarrier size radix).Reachable b) : Inv nodes size b := by
  refine h.invariant (I := Inv nodes size) ?_ ?_
  · rintro b ⟨nodes', hrun', rfl⟩
    rw [hrun, Except.ok.injEq] at hrun'
    exact hrun' ▸ Inv.new htree
  · rintro b b' hb ⟨i, hi, rfl⟩
    exact hb.stepOf htree hi

/-- No participant has returned more often than another has entered. -/
theorem Inv.returned_le_entered (htree : Tree size nodes) (h : Inv nodes size b) (hi : i < size)
    (hj : j < size) : b.returned i ≤ b.entered j :=
  calc
    b.returned i ≤ b.signals 0 := h.returned_le i hi
    _ ≤ b.signals j := h.flips_le htree j hj
    _ ≤ b.entered j := signals_le_entered

/-! ### Progress -/

/-- The loops are the only places where a participant can be held up. -/
theorem blocked_of_stepOf_eq (hok : b.PcOk (b.signals 0) i (b.pc i)) {node : InnerNode}
    (hnode : b.nodes[i]? = some node) (hstuck : b.stepOf i = b) :
    (∃ v, b.pc i = .spinChildren v ∧ 0 < b.childrenCount i) ∨
      ∃ v, b.pc i = .spinSense v ∧ b.sense ≠ v := by
  have hpc_eq : (b.stepOf i).pc i = b.pc i := by rw [hstuck]
  rw [stepOf, hnode] at hpc_eq
  cases hpc : b.pc i with
  | outside =>
    simp only [hpc] at hpc_eq
    split_ifs at hpc_eq <;> simp at hpc_eq
  | spinChildren v =>
    simp only [hpc] at hpc_eq
    split_ifs at hpc_eq with hpos
    · exact .inl ⟨v, rfl, hpos⟩
    · simp at hpc_eq
  | reset v =>
    simp only [hpc, goTo_pc_self] at hpc_eq
    split_ifs at hpc_eq
  | signal v =>
    simp only [hpc] at hpc_eq
    cases hparent : node.parent <;> simp [hparent] at hpc_eq
  | spinSense v =>
    simp only [hpc] at hpc_eq
    split_ifs at hpc_eq with hsense
    · exact .inr ⟨v, rfl, hsense⟩
    · simp at hpc_eq
  | readSense v => simp [hpc] at hpc_eq
  | writeSense v tmp => simp [hpc] at hpc_eq
  | checkSense v =>
    simp only [hpc] at hpc_eq
    split_ifs at hpc_eq <;> simp at hpc_eq
  | setSense v => simp [hpc, ret, goTo] at hpc_eq
  | failed =>
    rw [hpc] at hok
    exact hok.elim

/-- A node that waits for its children has a child that has not told it. -/
theorem Inv.exists_child (h : Inv nodes size b) (hi : i < size) (hpos : 0 < b.childrenCount i) :
    ∃ c ∈ childrenOf nodes i, b.signals c = b.resets i := by
  have hcounter := h.counts.counter i hi
  have hsum : ∑ c ∈ childrenOf nodes i, b.signals c <
      ∑ _c ∈ childrenOf nodes i, (b.resets i + 1) := by
    rw [Finset.sum_const, Nat.nsmul_eq_mul, ← hcounter]
    exact Nat.lt_add_of_pos_left hpos
  obtain ⟨c, hc, hlt⟩ := Finset.exists_lt_of_sum_lt hsum
  exact ⟨c, hc, le_antisymm (Nat.le_of_lt_succ hlt) (h.counts.lower i c hc)⟩

theorem entered_le : b.entered i ≤ b.returned i + 1 := by
  unfold entered
  split_ifs <;> omega

/-- When all participants have entered `wait` for the round `n` and none of those that have not
returned from it can step, none of them waits for its children: the deepest such node would wait for
a child that has not entered. -/
theorem Inv.not_spinChildren (htree : Tree size nodes) (h : Inv nodes size b) {n : ℕ}
    (hn : ∀ j < size, n ≤ b.entered j)
    (hstuck : ∀ j < size, b.returned j < n → b.stepOf j = b) :
    ∀ k i, i < size → size ≤ i + k → b.returned i < n → ∀ v, b.pc i ≠ .spinChildren v := by
  intro k
  induction k with
  | zero => exact fun i hi hk => absurd hk (by omega)
  | succ k ih =>
    intro i hi hk hlt v hpc
    obtain ⟨node, hnode⟩ := htree.exists_node hi
    obtain ⟨_, -, hpos⟩ | ⟨_, hspin, -⟩ :=
      blocked_of_stepOf_eq (h.pcOk i hi) (h.nodes_eq.symm ▸ hnode) (hstuck i hi hlt)
    · obtain ⟨c, hc, hround⟩ := h.exists_child hi hpos
      obtain ⟨hcsize, hparent⟩ := htree.mem_childrenOf.mp hc
      have hparent_lt := htree.parent_lt hcsize hparent
      have hresets : b.resets i = b.returned i := by
        rw [resets, hpc]
        rfl
      have hclt : b.returned c < n := by
        have : b.returned c ≤ b.signals c := Nat.le_add_right ..
        omega
      obtain ⟨node, hnode⟩ := htree.exists_node hcsize
      obtain ⟨w, hspin, -⟩ | ⟨w, hspin, -⟩ :=
        blocked_of_stepOf_eq (h.pcOk c hcsize) (h.nodes_eq.symm ▸ hnode) (hstuck c hcsize hclt)
      · exact ih c hcsize (by omega) hclt w hspin
      · -- the child has told its parent in the round before
        have hsignals : b.signals c = b.returned c + 1 := by
          rw [signals, hspin]
          rfl
        have hentered := (hn c hcsize).trans entered_le
        omega
    · rw [hpc] at hspin
      cases hspin

/-- When all participants have entered `wait` for the round `n`, one of those that have not returned
from it can step. -/
theorem Inv.progress (htree : Tree size nodes) (h : Inv nodes size b) {n : ℕ}
    (hn : ∀ j < size, n ≤ b.entered j) (hi : i < size) (hlt : b.returned i < n) :
    ∃ k < size, b.returned k < n ∧ b.stepOf k ≠ b := by
  by_contra hnone
  have hstuck : ∀ j < size, b.returned j < n → b.stepOf j = b := fun j hj hjn => by
    by_contra hne
    exact hnone ⟨j, hj, hjn, hne⟩
  have hspins : ∀ j < size, b.returned j < n → ∃ v, b.pc j = .spinSense v ∧ b.sense ≠ v := by
    intro j hj hjn
    obtain ⟨node, hnode⟩ := htree.exists_node hj
    refine (blocked_of_stepOf_eq (h.pcOk j hj) (h.nodes_eq.symm ▸ hnode)
      (hstuck j hj hjn)).resolve_left ?_
    rintro ⟨v, hspin, -⟩
    exact h.not_spinChildren htree hn hstuck size j hj (Nat.le_add_left ..) hjn v hspin
  obtain ⟨v, hspin, hsense⟩ := hspins i hi hlt
  have hok := h.pcOk i hi
  rw [hspin] at hok
  -- the sense has not flipped in this round, so the root has not returned from it
  have hflips : b.signals 0 = b.returned i := by
    have hentered := (hn i hi).trans entered_le
    have hle := h.returned_le i hi
    have hup := (h.flips_le htree i hi).trans signals_le_returned
    rcases Nat.lt_or_ge (b.returned i) (b.signals 0) with hgt | hge
    · have heq : b.signals 0 = b.returned i + 1 := by omega
      exact absurd (by rw [h.sense, heq, Nat.bodd_succ, hok.1]) hsense
    · omega
  have hsize : 0 < size := Nat.zero_lt_of_lt hi
  have hroot : b.returned 0 < n :=
    ((Nat.le_add_right _ _ : b.returned 0 ≤ b.signals 0).trans hflips.le).trans_lt hlt
  obtain ⟨w, hspin0, -⟩ := hspins 0 hsize hroot
  have hok0 := h.pcOk 0 hsize
  rw [hspin0] at hok0
  exact hok0.2 rfl

end TreeBarrier

open TreeBarrier

/-- In every state that the participants can reach, no participant has returned more often than
another has entered, a counter that is about to be decremented is positive, the assertion on the
sense holds and no other fails, and when all participants are in `wait` one of them can take a step
that changes the state. -/
theorem barrier_rounds (size : ℕ) (hsize : 1 ≤ size) :
    (∃ b, (treeBarrier size 2).init b) ∧ ∀ b, (treeBarrier size 2).Reachable b →
      (∀ i < size, ∀ j < size, b.returned i ≤ b.entered j) ∧
      (∀ i < size, ∀ v, b.pc i = .signal v →
        ∃ p < size, parentOf b.nodes i = some p ∧ 0 < b.childrenCount p) ∧
      (∀ i < size, b.pc i ≠ .failed ∧ ∀ v, b.pc i = .checkSense v → b.sense = v) ∧
      ((∀ i < size, b.pc i ≠ .outside) → ∃ i < size, b.stepOf i ≠ b) := by
  obtain ⟨nodes, hrun, htree⟩ := treeNodes_spec hsize
  refine ⟨⟨_, nodes, hrun, rfl⟩, fun b hb => ?_⟩
  have h := Inv.of_reachable hrun htree hb
  refine ⟨fun i hi j hj => h.returned_le_entered htree hi hj, fun i hi v hpc => ?_,
    fun i hi => ⟨fun hpc => ?_, fun v hpc => ?_⟩, fun hinside => ?_⟩
  · have hok := h.pcOk i hi
    rw [hpc] at hok
    obtain ⟨p, hp, hlt⟩ := htree.exists_parent hi (Nat.pos_of_ne_zero hok.2)
    exact ⟨p, hlt.trans hi, h.nodes_eq.symm ▸ hp, h.counter_pos htree hi hpc hp⟩
  · have hok := h.pcOk i hi
    rw [hpc] at hok
    exact hok
  · exact h.sense_eq hi hpc
  · -- all are in the round of the participant that has returned least often
    obtain ⟨i, hi, hmin⟩ := Finset.exists_min_image (Finset.range size) b.returned
      ⟨0, Finset.mem_range.mpr hsize⟩
    have hi := Finset.mem_range.mp hi
    obtain ⟨k, hk, -, hne⟩ := h.progress htree (n := b.returned i + 1)
      (fun j hj => by
        rw [entered, if_neg (hinside j hj)]
        exact Nat.succ_le_succ (hmin j (Finset.mem_range.mpr hj)))
      hi (Nat.lt_succ_self _)
    exact ⟨k, hk, hne⟩

/-! ### Three participants -/

/-- One round: the children of the root signal, the root opens the barrier, and all return. -/
private def oneRound : List ℕ :=
  List.replicate 4 1 ++ List.replicate 4 2 ++ List.replicate 7 0 ++ [1, 1, 2, 2]

/-- A step of one of the three. -/
private def stepThree (b : TreeBarrier) (i : ℕ) : Option TreeBarrier :=
  if i < 3 then some (b.stepOf i) else none

/-- Two rounds, after which the participant 1 enters a third. -/
theorem barrier_rounds_three : ∃ b, (treeBarrier 3 2).Reachable b ∧
    [0, 1, 2].map b.returned = [2, 2, 2] ∧ [0, 1, 2].map b.entered = [2, 3, 2] ∧
      (∀ i < 3, ∀ j < 3, b.returned i ≤ b.entered j) ∧
      ((∀ i < 3, b.pc i ≠ .outside) → ∃ i < 3, b.stepOf i ≠ b) := by
  obtain ⟨b₀, hinit⟩ := (barrier_rounds 3 (by decide)).1
  obtain ⟨nodes, hnodes, rfl⟩ := hinit
  have htree : treeNodes 3 2 = .ok [⟨none, 2⟩, ⟨some 0, 0⟩, ⟨some 0, 0⟩] := by decide
  obtain rfl := Except.ok.inj (hnodes.symm.trans htree)
  have hrun : ((oneRound ++ oneRound ++ [1]).foldlM stepThree
      (TreeBarrier.new [⟨none, 2⟩, ⟨some 0, 0⟩, ⟨some 0, 0⟩])).map
        (fun b : TreeBarrier => ([0, 1, 2].map b.returned, [0, 1, 2].map b.entered)) =
      some ([2, 2, 2], [2, 3, 2]) := by decide +kernel
  obtain ⟨b, hb, hvals⟩ := Option.map_eq_some_iff.mp hrun
  obtain ⟨hreturned, hentered⟩ := Prod.mk.inj hvals
  have hreach : (treeBarrier 3 2).Reachable b := by
    refine System.Reachable.foldlM (fun b i b' hstep => ?_) (.init ⟨_, hnodes, rfl⟩) hb
    rw [stepThree] at hstep
    split_ifs at hstep with hi
    exact ⟨i, hi, (Option.some.inj hstep).symm⟩
  obtain ⟨hrounds, -, -, hprogress⟩ := (barrier_rounds 3 (by decide)).2 b hreach
  exact ⟨b, hreach, hreturned, hentered, hrounds, hprogress⟩

end Meld.Utils
