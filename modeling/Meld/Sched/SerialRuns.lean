import Meld.Sched.Serial

/-!
# The serial scheduler serves the nodes in turn

The scheduler does what `Waiting` says: over any run, with any rules and any aggregates, it fails no
assertion, hands out the nodes in the order in which they joined the line, runs each on the oldest
facts of its lowest level, and loses or repeats no fact; and when the program ends no fact is left.

The invariant `Stands` ties the queue of nodes to the line, the queue of each node to its facts and
the flag `i_am_on_queue` to the nodes that run or wait; that all nodes with facts run or wait, and
that the facts of a node are those sent to it less those it was run on, holds of the line by itself
(`Waiting.Ok`).
-/

namespace Meld.Sched

open Lib Queue

variable {ω φ C : Type}

/-! ### The line -/

namespace Waiting

variable {p : Rules ω φ} {a : Waiting φ} {dest node : ℕ} {stpl : φ}

/-- The nodes with facts run or wait, and no fact was lost. -/
structure Ok (a : Waiting φ) : Prop where
  apart : ∀ node, a.current = some node → node ∉ a.line
  currentNode : ∀ node, a.current = some node → node < a.numNodes
  line : ∀ node ∈ a.line, node < a.numNodes ∧ a.facts node ≠ []
  waits : ∀ node, a.facts node ≠ [] → a.current = some node ∨ node ∈ a.line
  log : ∀ node, (a.log.flatMap (Event.sentTo node)).Perm
    (a.log.flatMap (Event.ranOn node) ++ (a.facts node).map Prod.snd)

/-- A node that is not there has no facts and neither runs nor waits. -/
theorem Ok.outside (h : a.Ok) (hnode : a.numNodes ≤ node) :
    a.facts node = [] ∧ a.current ≠ some node ∧ node ∉ a.line := by
  have hcurrent : a.current ≠ some node := by
    intro hc
    have := h.currentNode node hc
    omega
  have hline : node ∉ a.line := by
    intro hl
    have := (h.line node hl).1
    omega
  refine ⟨?_, hcurrent, hline⟩
  by_contra hfacts
  rcases h.waits node hfacts with hc | hl
  · exact hcurrent hc
  · exact hline hl

theorem Ok.start (n : ℕ) : (start n : Waiting φ).Ok where
  apart _ hc := by simp [Waiting.start] at hc
  currentNode _ hc := by simp [Waiting.start] at hc
  line _ hl := by simp [Waiting.start] at hl
  waits _ hf := by simp [Waiting.start] at hf
  log _ := by simp [Waiting.start]

/-- The line after a fact was sent. -/
theorem mem_send_line : node ∈ (a.send p dest stpl).line ↔
    node ∈ a.line ∨ node = dest ∧ a.current ≠ some dest := by
  rw [send]
  by_cases hcurrent : a.current = some dest
  · simp [hcurrent]
  · by_cases hline : dest ∈ a.line
    · simp only [hline, or_true, if_true, hcurrent, ne_eq, not_false_iff, and_true]
      constructor
      · exact Or.inl
      · rintro (h | rfl)
        · exact h
        · exact hline
    · simp [hcurrent, hline]

theorem send_facts_ne_nil (h : a.facts node ≠ []) : (a.send p dest stpl).facts node ≠ [] := by
  rw [send]
  by_cases hnode : node = dest
  · simp [hnode]
  · simpa [Function.update_of_ne hnode] using h

theorem Ok.send (h : a.Ok) (hdest : dest < a.numNodes) : (a.send p dest stpl).Ok where
  apart node hc hl := by
    rcases mem_send_line.mp hl with hl | ⟨rfl, hne⟩
    · exact h.apart node hc hl
    · exact hne hc
  currentNode := h.currentNode
  line node hl := by
    rcases mem_send_line.mp hl with hl | ⟨rfl, -⟩
    · exact ⟨(h.line node hl).1, send_facts_ne_nil (h.line node hl).2⟩
    · exact ⟨hdest, by simp [Waiting.send]⟩
  waits node hf := by
    rw [mem_send_line]
    by_cases hnode : node = dest
    · subst hnode
      by_cases hcurrent : a.current = some node
      · exact Or.inl hcurrent
      · exact Or.inr (Or.inr ⟨rfl, hcurrent⟩)
    · rw [Waiting.send] at hf
      simp only [Function.update_of_ne hnode] at hf
      rcases h.waits node hf with hc | hl
      · exact Or.inl hc
      · exact Or.inr (Or.inl hl)
  log node := by
    have hlog := h.log node
    rw [Waiting.send]
    simp only [List.flatMap_append, List.flatMap_singleton]
    by_cases hnode : node = dest
    · subst hnode
      simp only [Event.sentTo, Event.ranOn, if_true, List.append_nil, Function.update_self,
        List.map_append, ← List.append_assoc]
      exact hlog.append_right _
    · have hne : dest ≠ node := fun he => hnode he.symm
      simpa [Event.sentTo, Event.ranOn, hne, Function.update_of_ne hnode] using hlog

/-- A node is created. -/
theorem Ok.create (h : a.Ok) : Ok { a with numNodes := a.numNodes + 1 } where
  apart := h.apart
  currentNode node hc := Nat.lt_succ_of_lt (h.currentNode node hc)
  line node hl := ⟨Nat.lt_succ_of_lt (h.line node hl).1, (h.line node hl).2⟩
  waits := h.waits
  log := h.log

theorem Ok.next (h : a.Ok) (hnodup : a.line.Nodup) : a.next.Ok := by
  rw [Waiting.next]
  split_ifs with hkeep
  · exact h
  · -- the node that ran has no facts left
    have hempty : ∀ node, a.current = some node → a.facts node = [] := by
      intro node hc
      simpa [hc] using hkeep
    refine ⟨fun node hc hl => ?_, fun node hc => ?_, fun node hl => ?_, fun node hf => ?_, h.log⟩
    · obtain ⟨rest, hline⟩ := List.head?_eq_some_iff.mp hc
      simp only [hline, List.tail_cons] at hl
      rw [hline] at hnodup
      exact (List.nodup_cons.mp hnodup).1 hl
    · exact (h.line node (List.mem_of_head? hc)).1
    · exact h.line node (List.mem_of_mem_tail hl)
    · rcases h.waits node hf with hc | hl
      · exact absurd (hempty node hc) hf
      · obtain ⟨first, rest, hline⟩ := List.exists_cons_of_ne_nil (List.ne_nil_of_mem hl)
        rw [hline] at hl
        simp only [hline, List.head?_cons, List.tail_cons]
        rcases List.mem_cons.mp hl with rfl | hl
        · exact Or.inl rfl
        · exact Or.inr hl

/-- The node that is next has facts. -/
theorem Ok.next_facts (h : a.Ok) (hnode : a.next.current = some node) :
    a.next.facts node ≠ [] := by
  rw [Waiting.next] at hnode ⊢
  split_ifs at hnode ⊢ with hkeep
  · simpa [hnode] using hkeep
  · exact (h.line node (List.mem_of_head? hnode)).2

theorem Ok.take (h : a.Ok) (hnode : a.current = some node) : (a.take node).Ok where
  apart := h.apart
  currentNode := h.currentNode
  line other hl := by
    have hne : other ≠ node := by
      rintro rfl
      exact h.apart other hnode hl
    simpa [Waiting.take, Function.update_of_ne hne] using h.line other hl
  waits other hf := by
    by_cases hne : other = node
    · exact Or.inl (hne ▸ hnode)
    · simp only [Waiting.take, Function.update_of_ne hne] at hf
      exact h.waits other hf
  log other := by
    have hlog := h.log other
    simp only [Waiting.take, List.flatMap_append, List.flatMap_singleton]
    by_cases hne : other = node
    · subst hne
      have hserve := LowestFirst.Op.serve_perm LowestFirst.Op.topList (a.facts other)
      simp only [LowestFirst.Op.pushed, List.nil_append] at hserve
      simp only [Event.sentTo, Event.ranOn, if_true, List.append_nil, Function.update_self,
        List.append_assoc]
      exact hlog.trans (hserve.append_left _)
    · have hne' : node ≠ other := fun he => hne he.symm
      simpa [Event.sentTo, Event.ranOn, hne', Function.update_of_ne hne] using hlog

theorem next_numNodes : a.next.numNodes = a.numNodes := by
  rw [next]
  split_ifs
  · rfl
  · rfl

/-- If no node is next then none waits. -/
theorem line_of_next (h : a.next.current = none) : a.next.line = [] := by
  rw [next] at h ⊢
  split_ifs at h ⊢ with hkeep
  · simp [h] at hkeep
  · rw [List.head?_eq_none_iff.mp h, List.tail_nil]

variable (p)

/-- Facts that are sent create no nodes and change no turn. -/
theorem sendAll_kept (a : Waiting φ) (dest : ℕ) (facts : List φ) :
    (facts.foldl (fun a stpl => a.send p dest stpl) a).numNodes = a.numNodes ∧
      (facts.foldl (fun a stpl => a.send p dest stpl) a).current = a.current := by
  induction facts generalizing a with
  | nil => exact ⟨rfl, rfl⟩
  | cons stpl facts ih => exact ih (a.send p dest stpl)

theorem le_numNodes_run (a : Waiting φ) (node : ℕ) (w : ω) :
    a.numNodes ≤ (a.run p node w).1.numNodes := by
  have heffects : ∀ (effects : List (Effect φ)) (b : Waiting φ),
      b.numNodes ≤ (effects.foldl (apply p) b).numNodes := by
    intro effects
    induction effects with
    | nil => exact fun b => Nat.le_refl _
    | cons e effects ih =>
      intro b
      refine Nat.le_trans ?_ (ih (b.apply p e))
      cases e with
      | newWork dest stpl => exact Nat.le_refl _
      | newNode => exact Nat.le_succ _
  exact heffects _ (a.take node)

theorem init_numNodes (nodesTotal : ℕ) : (init p nodesTotal).numNodes = nodesTotal := by
  have hsends : ∀ (ids : List ℕ) (b : Waiting φ),
      (ids.foldl (fun a node => a.send p node p.initFact) b).numNodes = b.numNodes := by
    intro ids
    induction ids with
    | nil => exact fun b => rfl
    | cons id ids ih => exact fun b => ih (b.send p id p.initFact)
  exact hsends _ (start nodesTotal)

end Waiting

/-! ### One operation of the scheduler -/

section

variable [LawfulBin C φ]

/-- The node has the facts, and its flag. -/
structure SerialNode.Holds (p : Rules ω φ) (n : SerialNode C) (facts : List (ℕ × φ)) (flag : Bool) :
    Prop where
  levels : ∃ t items, LowestFirst.Levels n.queue p.maxStratLevel facts t items
  flag : n.iAmOnQueue = flag

/-- The scheduler is where the line is. -/
structure SerialLocal.Stands (p : Rules ω φ) (s : SerialLocal C φ) (a : Waiting φ) : Prop where
  ok : a.Ok
  numNodes : s.numNodes = a.numNodes
  currentNode : s.currentNode = a.current
  log : s.log = a.log
  line : IntrusiveQueue.IntrusiveDeque s.queueNodes a.line
  node : ∀ id < a.numNodes, ∃ n, s.nodes id = some n ∧
    n.Holds p (a.facts id) (decide (a.current = some id ∨ id ∈ a.line))

variable {p : Rules ω φ} {a : Waiting φ} {dest id : ℕ} {stpl : φ}

namespace SerialNode.Holds

variable {n : SerialNode C} {facts : List (ℕ × φ)} {flag : Bool}

theorem hasWork (h : n.Holds p facts flag) : n.hasWork = !facts.isEmpty := by
  obtain ⟨t, items, hlevels⟩ := h.levels
  rw [SerialNode.hasWork, BoundedPqueue.isEmpty, hlevels.total]
  cases facts with
  | nil => rfl
  | cons fact facts => simp

theorem setFlag (h : n.Holds p facts flag) (val : Bool) :
    SerialNode.Holds p { n with iAmOnQueue := val } facts val :=
  ⟨h.levels, rfl⟩

/-- `set_in_queue` with the other value. -/
theorem setInQueue (h : n.Holds p facts flag) : ∃ n', n.setInQueue (!flag) = .ok n' ∧
    n'.Holds p facts !flag := by
  refine ⟨_, ?_, h.setFlag _⟩
  rw [SerialNode.setInQueue, assert_pos (by simp [h.flag])]
  rfl

theorem addWork (h : n.Holds p facts flag) (hlevel : p.stratLevel stpl < p.maxStratLevel) :
    ∃ n', n.addWork p stpl = .ok n' ∧
      n'.Holds p (facts ++ [(p.stratLevel stpl, stpl)]) flag := by
  obtain ⟨t, items, hlevels⟩ := h.levels
  have hlegal : (LowestFirst.Op.push stpl (p.stratLevel stpl)).Legal p.maxStratLevel facts := hlevel
  obtain ⟨q', items', hrun, hlevels'⟩ := hlevels.run_op hlegal
  obtain ⟨q, hpush, hq⟩ := bind_eq_ok.mp hrun
  obtain rfl : q = q' := congrArg Prod.fst (Except.ok.inj hq)
  refine ⟨{ n with queue := q }, ?_, ⟨t, items', hlevels'⟩, h.flag⟩
  rw [SerialNode.addWork, hpush]
  rfl

theorem topList (h : n.Holds p facts flag) : ∃ q',
    n.queue.topList [] = .ok (q', ((LowestFirst.Op.topList : LowestFirst.Op φ).serve facts).1) ∧
      SerialNode.Holds p { n with queue := q' }
        ((LowestFirst.Op.topList : LowestFirst.Op φ).serve facts).2 flag := by
  obtain ⟨t, items, hlevels⟩ := h.levels
  have hlegal : (LowestFirst.Op.topList : LowestFirst.Op φ).Legal p.maxStratLevel facts := trivial
  obtain ⟨q', items', hrun, hlevels'⟩ := hlevels.run_op hlegal
  exact ⟨q', hrun, ⟨t, items', hlevels'⟩, h.flag⟩

/-- An iteration visits the facts. -/
theorem elements (h : n.Holds p facts flag) :
    ∃ els, n.queue.elements = .ok els ∧ els.Perm (facts.map Prod.snd) := by
  obtain ⟨t, items, hlevels⟩ := h.levels
  exact ⟨_, hlevels.serves.elements, LowestFirst.flatMap_level_perm hlevels.prio⟩

end SerialNode.Holds

namespace SerialLocal.Stands

variable {s : SerialLocal C φ}

theorem hasWork (h : s.Stands p a) : s.hasWork = !a.line.isEmpty := by
  rw [SerialLocal.hasWork, IntrusiveQueue.empty, h.line.head]
  cases a.line with
  | nil => rfl
  | cons node line => rfl

/-- One node changes, and the others keep their facts and flags. -/
theorem setNode (h : s.Stands p a) {n' : SerialNode C} {facts : List (ℕ × φ)}
    {current : Option ℕ} {line : List ℕ}
    (hn : n'.Holds p facts (decide (current = some id ∨ id ∈ line)))
    (hflag : ∀ other, other ≠ id → (a.current = some other ∨ other ∈ a.line ↔
      current = some other ∨ other ∈ line)) :
    ∀ other < a.numNodes, ∃ n, (s.setNode id n').nodes other = some n ∧
      n.Holds p (Function.update a.facts id facts other)
        (decide (current = some other ∨ other ∈ line)) := by
  intro other hother
  by_cases hne : other = id
  · subst hne
    exact ⟨n', by simp [SerialLocal.setNode], by simpa using hn⟩
  · obtain ⟨n, hget, hn⟩ := h.node other hother
    refine ⟨n, by simpa [SerialLocal.setNode, Function.update_of_ne hne] using hget, ?_⟩
    rw [Function.update_of_ne hne]
    simpa only [hflag other hne] using hn

/-- `new_work`. -/
theorem newWork (h : s.Stands p a) (hdest : dest < a.numNodes)
    (hlevel : p.stratLevel stpl < p.maxStratLevel) :
    ∃ s', s.newWork p dest stpl = .ok s' ∧ s'.Stands p (a.send p dest stpl) := by
  obtain ⟨n, hget, hn⟩ := h.node dest hdest
  obtain ⟨n', hadd, hn'⟩ := hn.addWork hlevel
  have hline : ∀ other, other ≠ dest → (a.current = some other ∨ other ∈ a.line ↔
      a.current = some other ∨ other ∈ (a.send p dest stpl).line) := by
    intro other hne
    simp [Waiting.mem_send_line, hne]
  have hflag : n'.iAmOnQueue = decide (a.current = some dest ∨ dest ∈ a.line) := hn'.flag
  by_cases hqueued : a.current = some dest ∨ dest ∈ a.line
  · have hsame : (a.send p dest stpl).line = a.line := by simp [Waiting.send, hqueued]
    refine ⟨(s.record (.sent dest stpl)).setNode dest n', ?_, h.ok.send hdest, h.numNodes,
      h.currentNode, ?_, ?_, ?_⟩
    · simp [SerialLocal.newWork, SerialLocal.findNode, hget, hadd, hflag, hqueued]
    · simp [SerialLocal.setNode, SerialLocal.record, Waiting.send, h.log]
    · rw [hsame]
      exact h.line
    · refine h.setNode ?_ hline
      rw [hsame]
      exact hn'
  · -- the node joins the line
    have hnew : (a.send p dest stpl).line = a.line ++ [dest] := by simp [Waiting.send, hqueued]
    obtain ⟨n'', hset, hn''⟩ := hn'.setInQueue
    obtain ⟨q, hpush, hq⟩ := h.line.push (not_or.mp hqueued).2
    simp only [hqueued, decide_false, Bool.not_false] at hset hn''
    refine ⟨{ (s.record (.sent dest stpl)).setNode dest n'' with queueNodes := q }, ?_,
      h.ok.send hdest, h.numNodes, h.currentNode, ?_, ?_, ?_⟩
    · simp [SerialLocal.newWork, SerialLocal.findNode, hget, hadd, hflag, hqueued,
        SerialLocal.enqueue, hset, SerialLocal.record, hpush]
    · simp [SerialLocal.setNode, SerialLocal.record, Waiting.send, h.log]
    · simpa [hnew] using hq
    · exact h.setNode (by simpa [hnew] using hn'') hline

/-- The assertions at the end of `get_work`. -/
theorem handOut (h : s.Stands p a) (hcurrent : a.current = some id) (hfacts : a.facts id ≠ []) :
    s.handOut = .ok (s, some id) := by
  obtain ⟨n, hget, hn⟩ := h.node id (h.ok.currentNode id hcurrent)
  have hflag : n.iAmOnQueue = true := by simp [hn.flag, hcurrent]
  have hwork : n.hasWork = true := by
    rw [hn.hasWork]
    simpa using hfacts
  simp [SerialLocal.handOut, h.currentNode, hcurrent, SerialLocal.findNode, hget, hflag, hwork,
    assert_pos]

/-- `get_work` without a current node. -/
theorem nextNode (h : s.Stands p a) (hcurrent : a.current = none) :
    ∃ s', s.nextNode = .ok (s', a.next.current) ∧ s'.Stands p a.next := by
  have hnext : a.next = { a with current := a.line.head?, line := a.line.tail } := by
    simp [Waiting.next, hcurrent]
  have hok := h.ok.next h.line.nodup
  by_cases hline : a.line = []
  · have hsame : a.next = a := by
      rw [hnext, hline, List.head?_nil, List.tail_nil, ← hcurrent, ← hline]
    refine ⟨s, ?_, hsame.symm ▸ h⟩
    simp [SerialLocal.nextNode, h.hasWork, hline, hsame, hcurrent]
  · obtain ⟨first, rest, hrest⟩ := List.exists_cons_of_ne_nil hline
    obtain ⟨q, hpop, hq⟩ := h.line.pop
    have hstands : Stands p { s with queueNodes := q, currentNode := a.line.head? } a.next := by
      refine ⟨hok, ?_, ?_, ?_, ?_, ?_⟩
      · simpa [hnext] using h.numNodes
      · simp [hnext]
      · simpa [hnext] using h.log
      · simpa [hnext] using hq
      · intro id hid
        obtain ⟨n, hget, hn⟩ := h.node id (by simpa [hnext] using hid)
        refine ⟨n, hget, ?_⟩
        simpa [hnext, hcurrent, hrest, eq_comm] using hn
    have hfirst : a.next.current = some first := by simp [hnext, hrest]
    refine ⟨_, ?_, hstands⟩
    have hhand := hstands.handOut hfirst (h.ok.next_facts hfirst)
    rw [hrest, List.head?_cons] at hhand hpop
    simp [SerialLocal.nextNode, h.hasWork, hrest, hpop, hhand, hfirst]

/-- `get_work`. -/
theorem getWork (h : s.Stands p a) :
    ∃ s', s.getWork = .ok (s', a.next.current) ∧ s'.Stands p a.next := by
  cases hcurrent : a.current with
  | none =>
    rw [SerialLocal.getWork, h.currentNode, hcurrent]
    exact h.nextNode hcurrent
  | some id =>
    obtain ⟨n, hget, hn⟩ := h.node id (h.ok.currentNode id hcurrent)
    rw [SerialLocal.getWork, h.currentNode, hcurrent, Option.elim_some, SerialLocal.keepCurrent,
      SerialLocal.findNode, hget, deref_some, ok_bind, hn.hasWork]
    by_cases hfacts : a.facts id = []
    · -- the node leaves, and the rest is as without a current node
      obtain ⟨n', hset, hn'⟩ := hn.setInQueue
      simp only [hcurrent, true_or, decide_true, Bool.not_true] at hset hn'
      have hnot : id ∉ a.line := h.ok.apart id hcurrent
      have hok : Waiting.Ok { a with current := none } := by
        refine ⟨fun node hc => by simp at hc, fun node hc => by simp at hc, h.ok.line,
          fun node hf => ?_, h.ok.log⟩
        rcases h.ok.waits node hf with hc | hl
        · rw [hcurrent, Option.some.injEq] at hc
          exact absurd (hc ▸ hfacts) hf
        · exact Or.inr hl
      have hstands : Stands p { s.setNode id n' with currentNode := none }
          { a with current := none } := by
        refine ⟨hok, h.numNodes, rfl, h.log, h.line, ?_⟩
        have hflag : n'.Holds p (a.facts id)
            (decide ((none : Option ℕ) = some id ∨ id ∈ a.line)) := by
          simpa [hnot] using hn'
        have hnodes := h.setNode hflag fun other hne => by simp [hcurrent, hne.symm]
        simpa only [Function.update_eq_self] using hnodes
      obtain ⟨s', hrun, hs'⟩ := hstands.nextNode rfl
      have hsame : a.next = Waiting.next { a with current := none } := by
        simp [Waiting.next, hcurrent, hfacts]
      refine ⟨s', ?_, hsame ▸ hs'⟩
      rw [hsame]
      simp [hfacts, hset, hrun]
    · have hsame : a.next = a := by simp [Waiting.next, hcurrent, hfacts]
      refine ⟨s, ?_, hsame.symm ▸ h⟩
      rw [hsame, hcurrent]
      simpa [hfacts] using h.handOut hcurrent hfacts

/-- `create_node`. -/
theorem createNode (h : s.Stands p a) (hp : p.Leveled) : ∃ s', s.createNode p = .ok s' ∧
    s'.Stands p { a with numNodes := a.numNodes + 1 } := by
  obtain ⟨q, t, hnew, hq, hrange⟩ :=
    Represents.new (C := C) (T := φ) (Nat.zero_lt_of_lt hp.initFact)
  obtain ⟨hfacts, hcurrent, hline⟩ := h.ok.outside (Nat.le_refl a.numNodes)
  refine ⟨{ s.setNode s.numNodes ⟨q, false⟩ with numNodes := s.numNodes + 1 }, ?_, h.ok.create,
    congrArg (· + 1) h.numNodes, h.currentNode, h.log, h.line, fun id hid => ?_⟩
  · rw [SerialLocal.createNode, hnew]
    rfl
  · by_cases hid' : id = a.numNodes
    · subst hid'
      refine ⟨⟨q, false⟩, by simp [SerialLocal.setNode, h.numNodes], ⟨t, fun _ => [], ?_⟩, ?_⟩
      · exact ⟨hq, hrange, fun _ _ _ => by simp [hfacts, LowestFirst.level], by simp [hfacts]⟩
      · simp [hcurrent, hline]
    · obtain ⟨n, hget, hn⟩ := h.node id (Nat.lt_of_le_of_ne (Nat.le_of_lt_succ hid) hid')
      refine ⟨n, ?_, hn⟩
      simpa [SerialLocal.setNode, h.numNodes, Function.update_of_ne hid'] using hget

/-- `create_node` and `init_node`. -/
theorem newNode (h : s.Stands p a) (hp : p.Leveled) : ∃ s', s.runEffect p .newNode = .ok s' ∧
    s'.Stands p (a.apply p .newNode) := by
  obtain ⟨s₁, hcreate, h₁⟩ := h.createNode hp
  obtain ⟨s₂, hinit, h₂⟩ := h₁.newWork (Nat.lt_succ_self a.numNodes) hp.initFact
  refine ⟨s₂, ?_, h₂⟩
  simpa only [SerialLocal.runEffect, hcreate, ok_bind, SerialLocal.initNode, h.numNodes] using hinit

/-- What the rules of a node do. -/
theorem runEffects (h : s.Stands p a) (hp : p.Leveled) {effects : List (Effect φ)}
    (hlegal : a.LegalRun p effects)
    (hlevel : ∀ dest stpl, .newWork dest stpl ∈ effects → p.stratLevel stpl < p.maxStratLevel) :
    ∃ s', effects.foldlM (SerialLocal.runEffect p) s = .ok s' ∧
      s'.Stands p (effects.foldl (Waiting.apply p) a) := by
  induction effects generalizing s a with
  | nil => exact ⟨s, rfl, h⟩
  | cons e effects ih =>
    have hrest : ∀ dest stpl, .newWork dest stpl ∈ effects →
        p.stratLevel stpl < p.maxStratLevel :=
      fun dest stpl he => hlevel dest stpl (List.mem_cons_of_mem _ he)
    have hstep : ∃ s', s.runEffect p e = .ok s' ∧ s'.Stands p (a.apply p e) ∧
        (a.apply p e).LegalRun p effects := by
      cases e with
      | newWork dest stpl =>
        obtain ⟨s', hrun, h'⟩ := h.newWork hlegal.1 (hlevel dest stpl List.mem_cons_self)
        exact ⟨s', hrun, h', hlegal.2⟩
      | newNode =>
        obtain ⟨s', hrun, h'⟩ := h.newNode hp
        exact ⟨s', hrun, h', hlegal⟩
    obtain ⟨s', hrun, h', hlegal'⟩ := hstep
    obtain ⟨s'', hrest', h''⟩ := ih h' hlegal' hrest
    exact ⟨s'', by rw [List.foldlM_cons, hrun, ok_bind, hrest'], h''⟩

/-- `do_work`. -/
theorem doWork (h : s.Stands p a) (hp : p.Leveled) (hcurrent : a.current = some id) (w : ω)
    (hlegal : (a.take id).LegalRun p (p.runNode id (a.lowest id) w).1) :
    ∃ s', s.doWork p id w = .ok (s', (a.run p id w).2) ∧ s'.Stands p (a.run p id w).1 := by
  have hid := h.ok.currentNode id hcurrent
  obtain ⟨n, hget, hn⟩ := h.node id hid
  obtain ⟨q, htop, hq⟩ := hn.topList
  have hstands : ((s.setNode id { n with queue := q }).record (.ran id (a.lowest id))).Stands p
      (a.take id) := by
    refine ⟨h.ok.take hcurrent, h.numNodes, h.currentNode, ?_, h.line, ?_⟩
    · simp [SerialLocal.setNode, SerialLocal.record, Waiting.take, h.log]
    · exact h.setNode hq fun _ _ => Iff.rfl
  obtain ⟨s', hrun, hs'⟩ := hstands.runEffects hp hlegal fun dest stpl he =>
    hp.runNode _ _ _ dest stpl he
  refine ⟨s', ?_, hs'⟩
  have hlowest : ((LowestFirst.Op.topList : LowestFirst.Op φ).serve (a.facts id)).1 = a.lowest id :=
    rfl
  simp only [SerialLocal.doWork, SerialLocal.gatherNextTuples, SerialLocal.findNode, hget,
    deref_some, ok_bind, htop, hlowest, pure_eq_ok, hrun, Waiting.run]

/-- Facts for one node. -/
theorem sendAll (h : s.Stands p a) (hdest : dest < a.numNodes) {facts : List φ}
    (hlevel : ∀ stpl ∈ facts, p.stratLevel stpl < p.maxStratLevel) :
    ∃ s', facts.foldlM (fun s stpl => s.newWork p dest stpl) s = .ok s' ∧
      s'.Stands p (facts.foldl (fun a stpl => a.send p dest stpl) a) := by
  induction facts generalizing s a with
  | nil => exact ⟨s, rfl, h⟩
  | cons stpl facts ih =>
    obtain ⟨s', hrun, h'⟩ := h.newWork hdest (hlevel stpl List.mem_cons_self)
    obtain ⟨s'', hrest, h''⟩ := ih h' hdest fun other ho => hlevel other (List.mem_cons_of_mem _ ho)
    exact ⟨s'', by rw [List.foldlM_cons, hrun, ok_bind, hrest], h''⟩

/-- `generate_aggs`: no node takes a turn meanwhile. -/
theorem generateAggs (h : s.Stands p a) (hp : p.Leveled) {nodesTotal : ℕ}
    (htotal : nodesTotal ≤ a.numNodes) (w : ω) :
    ∃ s', s.generateAggs p nodesTotal w = .ok (s', (a.endRound p nodesTotal w).2) ∧
      s'.Stands p (a.endRound p nodesTotal w).1 ∧
      (a.endRound p nodesTotal w).1.numNodes = a.numNodes ∧
      (a.endRound p nodesTotal w).1.current = a.current := by
  have hids : ∀ id ∈ List.range nodesTotal, id < a.numNodes := by
    intro id hid
    exact Nat.lt_of_lt_of_le (List.mem_range.mp hid) htotal
  rw [SerialLocal.generateAggs, Waiting.endRound]
  revert hids
  induction List.range nodesTotal generalizing s a w with
  | nil =>
    intro _
    exact ⟨s, rfl, h, rfl, rfl⟩
  | cons id ids ih =>
    intro hids
    have hkept := Waiting.sendAll_kept p a id (p.endIteration id w).1
    obtain ⟨s', hrun, h'⟩ := h.sendAll (hids id List.mem_cons_self) (hp.endIteration id w)
    have hstep : SerialLocal.nodeIteration p (s, w) id = .ok (s', (p.endIteration id w).2) := by
      rw [SerialLocal.nodeIteration, hrun]
      rfl
    obtain ⟨s'', hrest, h'', hnum, hcurrent⟩ := ih h' (hkept.1.symm ▸ htotal)
      (p.endIteration id w).2 fun other ho => by
        rw [hkept.1]
        exact hids other (List.mem_cons_of_mem _ ho)
    rw [List.foldlM_cons, hstep, ok_bind, List.foldl_cons]
    exact ⟨s'', hrest, h'', hnum.trans hkept.1, hcurrent.trans hkept.2⟩

/-- The assertions hold when no node runs or waits. -/
theorem assertEnd (h : s.Stands p a) {nodesTotal : ℕ} (htotal : nodesTotal ≤ a.numNodes)
    (hcurrent : a.current = none) (hline : a.line = []) :
    s.assertEnd nodesTotal = .ok () := by
  have hwork : s.hasWork = false := by simp [h.hasWork, hline]
  have hids : ∀ id ∈ List.range nodesTotal, id < a.numNodes := by
    intro id hid
    exact Nat.lt_of_lt_of_le (List.mem_range.mp hid) htotal
  rw [SerialLocal.assertEnd, assert_pos hwork, ok_bind]
  revert hids
  induction List.range nodesTotal with
  | nil =>
    intro _
    rfl
  | cons id ids ih =>
    intro hids
    obtain ⟨n, hget, hn⟩ := h.node id (hids id List.mem_cons_self)
    have hfacts : a.facts id = [] := by
      by_contra hf
      simpa [hcurrent, hline] using h.ok.waits id hf
    have hflag : n.iAmOnQueue = false := by simp [hn.flag, hcurrent, hline]
    have hnone : n.hasWork = false := by simp [hn.hasWork, hfacts]
    have hrest := ih fun other ho => hids other (List.mem_cons_of_mem _ ho)
    simpa only [List.forM, SerialLocal.findNode, hget, deref_some, ok_bind, assert_pos hflag,
      assert_pos hnone] using hrest

/-- `do_loop`. -/
theorem doLoop (hp : p.Leveled) {nodesTotal : ℕ} (n : ℕ) (h : s.Stands p a)
    (htotal : nodesTotal ≤ a.numNodes) {w : ω} (hlegal : a.LegalTurns p nodesTotal n w) :
    ∃ s', s.doLoop p nodesTotal n w =
        .ok ((a.serve p nodesTotal n w).1, s', (a.serve p nodesTotal n w).2.2) ∧
      s'.Stands p (a.serve p nodesTotal n w).2.1 ∧
      ((a.serve p nodesTotal n w).1 = true →
        (a.serve p nodesTotal n w).2.1.current = none ∧
          (a.serve p nodesTotal n w).2.1.line = []) := by
  induction n generalizing s a w with
  | zero => exact ⟨s, rfl, h, fun hend => by simp [Waiting.serve] at hend⟩
  | succ n ih =>
    obtain ⟨s₁, hget, h₁⟩ := h.getWork
    have htotal₁ : nodesTotal ≤ a.next.numNodes := by
      rw [Waiting.next_numNodes]
      exact htotal
    rw [SerialLocal.doLoop, hget, ok_bind, Waiting.serve]
    rw [Waiting.LegalTurns] at hlegal
    cases hcurrent : a.next.current with
    | none =>
      have hline : a.next.line = [] := Waiting.line_of_next hcurrent
      obtain ⟨s₂, haggs, h₂, hnum, hcurrent₂⟩ := h₁.generateAggs hp htotal₁ w
      have htotal₂ : nodesTotal ≤ (a.next.endRound p nodesTotal w).1.numNodes := by
        rw [hnum]
        exact htotal₁
      simp only [hcurrent, Option.elim_none] at hlegal ⊢
      simp only [h₁.assertEnd htotal₁ hcurrent hline, haggs, ok_bind, h₂.hasWork]
      by_cases hend : (a.next.endRound p nodesTotal w).1.line = []
      · have hassert := h₂.assertEnd htotal₂ (hcurrent₂.trans hcurrent) hend
        refine ⟨s₂, ?_, ?_, ?_⟩
        · simp [hend, hassert]
        · simpa [hend] using h₂
        · intro _
          simpa [hend] using hcurrent₂.trans hcurrent
      · obtain ⟨s₃, hrun, h₃, hdone⟩ := ih h₂ htotal₂ hlegal
        exact ⟨s₃, by simpa [hend] using hrun, by simpa [hend] using h₃,
          by simpa [hend] using hdone⟩
    | some id =>
      simp only [hcurrent, Option.elim_some] at hlegal ⊢
      obtain ⟨s₂, hwork, h₂⟩ := h₁.doWork hp hcurrent w hlegal.1
      have htotal₂ : nodesTotal ≤ (a.next.run p id w).1.numNodes :=
        Nat.le_trans htotal₁ (Waiting.le_numNodes_run p a.next id w)
      obtain ⟨s₃, hrun, h₃, hdone⟩ := ih h₂ htotal₂ hlegal.2
      exact ⟨s₃, by rw [hwork, ok_bind, hrun], h₃, hdone⟩

/-- The constructors of the nodes. -/
theorem load (hp : p.Leveled) (nodesTotal : ℕ) :
    ∃ s : SerialLocal C φ, (List.range nodesTotal).foldlM (fun s _ => s.createNode p)
      (SerialLocal.new : SerialLocal C φ) = .ok s ∧ s.Stands p (Waiting.start nodesTotal) := by
  induction nodesTotal with
  | zero =>
    refine ⟨.new, rfl, .start 0, rfl, rfl, rfl, .new, fun id hid => ?_⟩
    exact absurd hid (Nat.not_lt_zero id)
  | succ n ih =>
    obtain ⟨s, hrun, hs⟩ := ih
    obtain ⟨s', hcreate, hs'⟩ := hs.createNode hp
    exact ⟨s', by simp [List.range_succ, hrun, hcreate], hs'⟩

/-- `init`. -/
theorem init (h : s.Stands p a) (hp : p.Leveled) {ids : List ℕ}
    (hids : ∀ id ∈ ids, id < a.numNodes) :
    ∃ s', ids.foldlM (SerialLocal.initStatic p) s = .ok s' ∧
      s'.Stands p (ids.foldl (fun a id => a.send p id p.initFact) a) := by
  induction ids generalizing s a with
  | nil => exact ⟨s, rfl, h⟩
  | cons id ids ih =>
    obtain ⟨s', hrun, h'⟩ := h.newWork (hids id List.mem_cons_self) hp.initFact
    obtain ⟨n, hget, hn⟩ := h'.node id (hids id List.mem_cons_self)
    have hfacts : (a.send p id p.initFact).facts id ≠ [] := by simp [Waiting.send]
    have hflag : n.iAmOnQueue = true := by
      rw [hn.flag]
      exact decide_eq_true (h'.ok.waits id hfacts)
    have hwork : n.hasWork = true := by
      rw [hn.hasWork]
      simpa using hfacts
    have hstep : SerialLocal.initStatic p s id = .ok s' := by
      simp [SerialLocal.initStatic, SerialLocal.initNode, hrun, SerialLocal.findNode, hget, hflag,
        hwork, assert_pos]
    obtain ⟨s'', hrest, h''⟩ := ih h' fun other ho => hids other (List.mem_cons_of_mem _ ho)
    exact ⟨s'', by rw [List.foldlM_cons, hstep, ok_bind, hrest], h''⟩

end SerialLocal.Stands

end

/-! ### All turns -/

/-- After a number of calls of `get_work` the scheduler is where the line is: the same facts were
sent and the same nodes were run on the same facts, each node has the facts that were sent to it but
not handed to a run, and if the program has ended these are none. -/
def ServesInTurn [Inhabited φ] (p : Rules ω φ) (nodesTotal n : ℕ) (w : ω) : Prop :=
  ∃ s : SerialLocal (UnsafeBin φ) φ,
    SerialLocal.loop p nodesTotal n w =
      .ok (((Waiting.init p nodesTotal).serve p nodesTotal n w).1, s,
        ((Waiting.init p nodesTotal).serve p nodesTotal n w).2.2) ∧
    s.log = ((Waiting.init p nodesTotal).serve p nodesTotal n w).2.1.log ∧
    ∀ node < s.numNodes, ∃ facts, s.factsAt node = .ok facts ∧
      (s.log.flatMap (Event.sentTo node)).Perm (s.log.flatMap (Event.ranOn node) ++ facts) ∧
      (((Waiting.init p nodesTotal).serve p nodesTotal n w).1 = true → facts = [])

/-- In every run of the serial scheduler, with any rules that send facts to nodes that exist, no
assertion fails, the nodes take turns in the order in which they joined the line, and no fact is
lost or handed out twice. -/
theorem serial_servesInTurn [Inhabited φ] {p : Rules ω φ} (hp : p.Leveled) {nodesTotal n : ℕ}
    {w : ω} (hlegal : (Waiting.init p nodesTotal).LegalTurns p nodesTotal n w) :
    ServesInTurn p nodesTotal n w := by
  obtain ⟨s₁, hload, h₁⟩ := SerialLocal.Stands.load (C := UnsafeBin φ) hp nodesTotal
  have hids : ∀ id ∈ List.range nodesTotal, id < (Waiting.start nodesTotal : Waiting φ).numNodes :=
    fun id hid => List.mem_range.mp hid
  obtain ⟨s₂, hinit, h₂⟩ := h₁.init hp hids
  have htotal : nodesTotal ≤ (Waiting.init p nodesTotal).numNodes :=
    (Waiting.init_numNodes p nodesTotal).ge
  obtain ⟨s, hrun, h, hdone⟩ := h₂.doLoop hp n htotal hlegal
  refine ⟨s, ?_, h.log, fun node hnode => ?_⟩
  · rw [SerialLocal.loop, hload, ok_bind, hinit, ok_bind]
    exact hrun
  · obtain ⟨nd, hget, hn⟩ := h.node node (h.numNodes ▸ hnode)
    obtain ⟨els, hels, hperm⟩ := hn.elements
    refine ⟨els, ?_, ?_, fun hend => ?_⟩
    · rw [SerialLocal.factsAt, SerialLocal.findNode, hget]
      exact hels
    · rw [h.log]
      exact (h.ok.log node).trans (hperm.symm.append_left _)
    · obtain ⟨hcurrent, hline⟩ := hdone hend
      have hfacts := h.ok.waits node
      rw [hcurrent, hline] at hfacts
      rw [not_imp_comm.mp hfacts (by simp), List.map_nil] at hperm
      exact hperm.eq_nil

/-- On the fact that starts it, the node 0 sends two facts to the node 1 and creates a node. -/
def relay : Rules Unit ℕ where
  stratLevel fact := fact % 2
  maxStratLevel := 2
  initFact := 0
  runNode node _ _ :=
    (if node = 0 then [.newWork 1 3, .newNode, .newWork 1 2] else [], ())
  endIteration _ _ := ([], ())

theorem serial_servesInTurn_relay : ServesInTurn relay 2 6 () := by
  refine serial_servesInTurn ⟨by decide, ?_, ?_⟩ ?_
  · intro _ _ _ _ stpl _
    exact Nat.mod_lt stpl (by decide)
  · intro _ _ stpl _
    exact Nat.mod_lt stpl (by decide)
  · exact ⟨⟨by decide, by decide, trivial⟩, trivial, trivial, trivial, trivial⟩

/-- The node 1 is run on the facts 0 and 2 of the lower level, in the order in which they came, and
then on 3. -/
example : ((Waiting.init relay 2).serve relay 2 6 ()).2.1.log.flatMap (Event.ranOn 1) = [0, 2, 3] :=
  by decide

end Meld.Sched
