import Meld.Thread.Static

/-!
# The invariant of the static scheduler

The barrier counts the threads that are not inactive (`Locks.count`), with the exception of those
whose state is set and whose update of the barrier is still to come. A thread with facts in its
inbox is active or is about to be woken by a thread that runs rules (`Inbox.awake`), and a node with
facts is in the run queue or in the hands of its owner (`Nodes.queue`).
-/

namespace Meld.Thread

open Lib

variable {size : ℕ} {φ : Type}

/-- The thread whose lock a thread holds, and the state it has set there. -/
def Pc.pending (i : Fin size) : Pc size φ → Option (Fin size × ThreadState)
  | .barrierWake _ j => some (j, .active)
  | .barrierActive _ => some (i, .active)
  | .barrierInactive => some (i, .inactive)
  | _ => none

/-- The owner of the inbox into which a thread has pushed a fact. -/
def Pc.waking : Pc size φ → Option (Fin size)
  | .wake _ j | .barrierWake _ j => some j
  | _ => none

/-- Whether a thread is at a place where it neither has nor expects work. -/
def Pc.idle : Pc size φ → Bool
  | .getWork | .nextNode | .retrieve _ | .checkWork | .spin | .makeInactive | .makeInactiveLocked
  | .checkDone | .popNode | .left => true
  | _ => false

/-- Whether a thread has a fact that is neither in its inbox nor in its run queue. -/
def Pc.hand : Pc size φ → Bool
  | .popped _ _ _ | .added _ _ => true
  | _ => false

namespace Static

variable {s s' : Static size φ} {i j k : Fin size} {owner : ℕ → Fin size} {level : φ → ℕ}

@[simp] theorem goTo_pc_self {pc : Pc size φ} : (s.goTo i pc).pc i = pc :=
  Function.update_self _ _ _

/-- The other threads stay where they are. -/
theorem goTo_pc_of_ne {pc : Pc size φ} (h : j ≠ i) : (s.goTo i pc).pc j = s.pc j :=
  Function.update_of_ne h _ _

/-! ### The locks and the count of the barrier -/

/-- Whether the barrier counts the thread. While its lock is held its state runs ahead of the
barrier. -/
def Counted (s : Static size φ) (j : Fin size) : Prop := s.tstate j = .active ↔ s.lock j = none

instance (s : Static size φ) : DecidablePred s.Counted := fun _ => instDecidableIff

/-- The locks are held for the updates of the barrier, which counts the threads. -/
structure Locks (s : Static size φ) : Prop where
  count : s.activeThreads = (Finset.univ.filter s.Counted).card
  holder : ∀ i j, s.lock j = some i ↔ ∃ state, (s.pc i).pending i = some (j, state)
  state : ∀ i j state, (s.pc i).pending i = some (j, state) → s.tstate j = state

/-- A step that leaves the states and the locks as they are. -/
theorem Locks.congr (h : s.Locks) (htstate : s'.tstate = s.tstate) (hlock : s'.lock = s.lock)
    (hactive : s'.activeThreads = s.activeThreads)
    (hpc : ∀ k, (s'.pc k).pending k = (s.pc k).pending k) : s'.Locks := by
  have hcounted : s'.Counted = s.Counted := by
    funext j
    rw [Counted, Counted, htstate, hlock]
  refine ⟨?_, fun i j => ?_, fun i j state hpending => ?_⟩
  · simp only [hactive, hcounted]
    exact h.count
  · rw [hlock, hpc]
    exact h.holder i j
  · rw [hpc] at hpending
    rw [htstate]
    exact h.state i j state hpending

/-- The locks are as they were if the thread waits for the same change of its state. -/
theorem Locks.goTo (h : s.Locks) {pc : Pc size φ} (hpc : pc.pending i = (s.pc i).pending i) :
    (s.goTo i pc).Locks := by
  refine h.congr rfl rfl rfl fun k => ?_
  rcases eq_or_ne k i with rfl | hne
  · rw [goTo_pc_self, hpc]
  · rw [goTo_pc_of_ne hne]

/-- A thread that takes a lock and changes the state. -/
theorem Locks.setState (h : s.Locks) {state : ThreadState} {pc : Pc size φ}
    (hlock : s.lock j = none) (hne : s.tstate j ≠ state) (hold : (s.pc i).pending i = none)
    (hpc : pc.pending i = some (j, state)) : ((s.setState i j state).goTo i pc).Locks := by
  -- the barrier is told later, and counts the thread as before
  have hcounted : ((s.setState i j state).goTo i pc).Counted = s.Counted := by
    funext k
    rcases eq_or_ne k j with rfl | hk
    · have htstate : ((s.setState i k state).goTo i pc).tstate k = state :=
        Function.update_self _ _ _
      have hlock' : ((s.setState i k state).goTo i pc).lock k = some i :=
        Function.update_self _ _ _
      rw [Counted, Counted, htstate, hlock', hlock]
      revert hne
      cases s.tstate k <;> cases state <;> simp
    · have htstate : ((s.setState i j state).goTo i pc).tstate k = s.tstate k :=
        Function.update_of_ne hk _ _
      have hlock' : ((s.setState i j state).goTo i pc).lock k = s.lock k :=
        Function.update_of_ne hk _ _
      rw [Counted, Counted, htstate, hlock']
  refine ⟨?_, fun m k => ?_, fun m k st hpending => ?_⟩
  · simp only [hcounted]
    exact h.count
  · rcases eq_or_ne k j with rfl | hk
    · have hlock' : ((s.setState i k state).goTo i pc).lock k = some i :=
        Function.update_self _ _ _
      rw [hlock']
      rcases eq_or_ne m i with rfl | hm
      · rw [goTo_pc_self, hpc]
        exact ⟨fun _ => ⟨state, rfl⟩, fun _ => rfl⟩
      · rw [goTo_pc_of_ne hm]
        refine ⟨fun heq => absurd (Option.some.inj heq).symm hm, fun hpending => ?_⟩
        rw [show ((s.setState i k state).pc m) = s.pc m from rfl, ← h.holder m k, hlock]
          at hpending
        cases hpending
    · have hlock' : ((s.setState i j state).goTo i pc).lock k = s.lock k :=
        Function.update_of_ne hk _ _
      rw [hlock', h.holder m k]
      rcases eq_or_ne m i with rfl | hm
      · rw [goTo_pc_self, hpc, hold]
        refine ⟨fun ⟨_, heq⟩ => (nomatch heq), fun ⟨_, heq⟩ => ?_⟩
        exact absurd (Prod.mk.inj (Option.some.inj heq)).1.symm hk
      · rw [goTo_pc_of_ne hm]
        rfl
  · rcases eq_or_ne m i with rfl | hm
    · rw [goTo_pc_self, hpc, Option.some.injEq, Prod.mk.injEq] at hpending
      obtain ⟨rfl, rfl⟩ := hpending
      exact Function.update_self _ _ _
    · rw [goTo_pc_of_ne hm] at hpending
      have hk : k ≠ j := by
        rintro rfl
        have hheld := (h.holder m k).mpr ⟨st, hpending⟩
        rw [hlock] at hheld
        cases hheld
      have htstate : ((s.setState i j state).goTo i pc).tstate k = s.tstate k :=
        Function.update_of_ne hk _ _
      rw [htstate]
      exact h.state m k st hpending

/-- The release of a lock. -/
theorem Locks.release (h : s.Locks) {state : ThreadState}
    (hold : (s.pc i).pending i = some (j, state)) (hlock : s'.lock = Function.update s.lock j none)
    (htstate : s'.tstate = s.tstate) (hpc : (s'.pc i).pending i = none)
    (hpc_of_ne : ∀ k, k ≠ i → s'.pc k = s.pc k)
    (hcount : s'.activeThreads = (Finset.univ.filter s'.Counted).card) : s'.Locks := by
  have hheld := (h.holder i j).mpr ⟨state, hold⟩
  refine ⟨hcount, fun m k => ?_, fun m k st hpending => ?_⟩
  · rw [hlock]
    rcases eq_or_ne m i with rfl | hm
    · rw [hpc]
      refine ⟨fun heq => ?_, fun ⟨_, heq⟩ => nomatch heq⟩
      rcases eq_or_ne k j with rfl | hk
      · rw [Function.update_self] at heq
        cases heq
      · rw [Function.update_of_ne hk, h.holder m k, hold] at heq
        obtain ⟨st, heq⟩ := heq
        exact absurd (Prod.mk.inj (Option.some.inj heq)).1.symm hk
    · rw [hpc_of_ne m hm, ← h.holder m k]
      rcases eq_or_ne k j with rfl | hk
      · rw [Function.update_self, hheld]
        exact ⟨fun heq => (nomatch heq), fun heq => absurd (Option.some.inj heq).symm hm⟩
      · rw [Function.update_of_ne hk]
  · rw [htstate]
    rcases eq_or_ne m i with rfl | hm
    · rw [hpc] at hpending
      cases hpending
    · rw [hpc_of_ne m hm] at hpending
      exact h.state m k st hpending

/-- The release of a lock changes whether its thread is counted, and of no other. -/
theorem counted_release (s s' : Static size φ) (j : Fin size)
    (hlock : s'.lock = Function.update s.lock j none)
    (htstate : s'.tstate = s.tstate) :
    (s'.Counted j ↔ s.tstate j = .active) ∧ ∀ k, k ≠ j → (s'.Counted k ↔ s.Counted k) := by
  refine ⟨?_, fun k hk => ?_⟩
  · rw [Counted, hlock, htstate, Function.update_self]
    exact iff_true_right rfl
  · rw [Counted, Counted, hlock, htstate, Function.update_of_ne hk]

/-- Counting a thread in at the barrier, which has room for it. -/
theorem Locks.barrierIsActive (h : s.Locks) {pc : Pc size φ}
    (hold : (s.pc i).pending i = some (j, .active)) (hpc : pc.pending i = none) :
    s.activeThreads < size ∧ ((s.barrierIsActive j).goTo i pc).Locks := by
  obtain ⟨hj, hothers⟩ := counted_release s ((s.barrierIsActive j).goTo i pc) j rfl rfl
  have hstate := h.state i j _ hold
  have hheld := (h.holder i j).mpr ⟨_, hold⟩
  have hnot : ¬s.Counted j := by
    rw [Counted, hstate, hheld]
    simp
  have hcounted : Finset.univ.filter ((s.barrierIsActive j).goTo i pc).Counted =
      insert j (Finset.univ.filter s.Counted) := by
    ext k
    rw [Finset.mem_insert, Finset.mem_filter, Finset.mem_filter]
    rcases eq_or_ne k j with rfl | hk
    · simp [hj, hstate]
    · simp [hothers k hk, hk]
  have hcard : (insert j (Finset.univ.filter s.Counted)).card = s.activeThreads + 1 := by
    rw [Finset.card_insert_of_notMem (by simp [hnot]), ← h.count]
  refine ⟨?_, h.release hold rfl rfl (by rw [goTo_pc_self, hpc])
    (fun k hk => goTo_pc_of_ne hk) (by rw [hcounted, hcard]; rfl)⟩
  have hle := Finset.card_le_univ (insert j (Finset.univ.filter s.Counted))
  rw [hcard, Fintype.card_fin] at hle
  exact hle

/-- Counting a thread out at the barrier, which has counted it. -/
theorem Locks.barrierIsInactive (h : s.Locks) {pc : Pc size φ}
    (hold : (s.pc i).pending i = some (j, .inactive)) (hpc : pc.pending i = none) :
    0 < s.activeThreads ∧ ((s.barrierIsInactive j).goTo i pc).Locks := by
  obtain ⟨hj, hothers⟩ := counted_release s ((s.barrierIsInactive j).goTo i pc) j rfl rfl
  have hstate := h.state i j _ hold
  have hheld := (h.holder i j).mpr ⟨_, hold⟩
  have hmem : j ∈ Finset.univ.filter s.Counted := by
    rw [Finset.mem_filter, Counted, hstate, hheld]
    simp
  have hcounted : Finset.univ.filter ((s.barrierIsInactive j).goTo i pc).Counted =
      (Finset.univ.filter s.Counted).erase j := by
    ext k
    rw [Finset.mem_erase, Finset.mem_filter, Finset.mem_filter]
    rcases eq_or_ne k j with rfl | hk
    · simp [hj, hstate]
    · simp [hothers k hk, hk]
  have hpos := Finset.card_pos.mpr ⟨j, hmem⟩
  rw [← h.count] at hpos
  refine ⟨hpos, h.release hold rfl rfl (by rw [goTo_pc_self, hpc])
    (fun k hk => goTo_pc_of_ne hk) ?_⟩
  rw [hcounted, Finset.card_erase_of_mem hmem, ← h.count]
  rfl

/-! ### The inboxes -/

/-- A thread that will see its inbox: it is active, or it is about to be woken. -/
def Awake (s : Static size φ) (j : Fin size) : Prop :=
  (s.tstate j = .active ∧ s.lock j = none) ∨ ∃ m, (s.pc m).waking = some j

/-- The inboxes have facts for nodes of their threads, and only of threads that will see them. -/
structure Inbox (owner : ℕ → Fin size) (s : Static size φ) : Prop where
  awake : ∀ j, s.buffer j ≠ [] → s.Awake j
  owned : ∀ j, ∀ fact ∈ s.buffer j, owner fact.1 = j

/-- A step that adds no fact to an inbox. -/
theorem Inbox.mono (h : Inbox owner s) (hbuffer : ∀ j, ∀ fact ∈ s'.buffer j, fact ∈ s.buffer j)
    (hawake : ∀ j, s'.buffer j ≠ [] → s.Awake j → s'.Awake j) : Inbox owner s' := by
  refine ⟨fun j hj => ?_, fun j fact hfact => h.owned j fact (hbuffer j fact hfact)⟩
  obtain ⟨fact, hfact⟩ := List.exists_mem_of_ne_nil _ hj
  exact hawake j hj (h.awake j (List.ne_nil_of_mem (hbuffer j fact hfact)))

/-- A thread stays awake when it stays active and no thread stops waking it. -/
theorem Awake.congr (h : s.Awake j) (hactive : s.tstate j = .active → s.lock j = none →
      s'.tstate j = .active ∧ s'.lock j = none)
    (hold : (s.pc i).waking ≠ some j ∨ (s'.pc i).waking = (s.pc i).waking)
    (hpc : ∀ k, k ≠ i → s'.pc k = s.pc k) : s'.Awake j := by
  rcases h with ⟨htstate, hlock⟩ | ⟨m, hm⟩
  · exact .inl (hactive htstate hlock)
  · right
    rcases eq_or_ne m i with rfl | hne
    · rcases hold with hnot | heq
      · exact absurd hm hnot
      · exact ⟨m, heq.trans hm⟩
    · exact ⟨m, by rw [hpc m hne, hm]⟩

/-- The inboxes are as they were if the thread was not about to wake another. -/
theorem Inbox.goTo (h : Inbox owner s) {pc : Pc size φ} (hold : (s.pc i).waking = none) :
    Inbox owner (s.goTo i pc) :=
  h.mono (fun _ _ hfact => hfact) fun _ _ hawake =>
    hawake.congr (i := i) .intro (.inl (by rw [hold]; exact nofun)) fun _ hk => goTo_pc_of_ne hk

/-! ### The nodes -/

/-- The facts of a node are seen: the node is in the run queue of its owner, or is its current
node, or its owner has it in its hands. -/
structure Nodes (owner : ℕ → Fin size) (s : Static size φ) : Prop where
  queue : ∀ n, s.queue n ≠ [] → n ∈ s.queueNodes (owner n) ∨ s.currentNode (owner n) = some n ∨
    ∃ c, s.pc (owner n) = .added c n
  inQueue : ∀ n, s.inQueue n = true → n ∈ s.queueNodes (owner n) ∨
    s.currentNode (owner n) = some n

/-- The nodes are as they were if the thread was not about to queue one. -/
theorem Nodes.goTo (h : Nodes owner s) (pc : Pc size φ) (hold : ∀ c n, s.pc i ≠ .added c n) :
    Nodes owner (s.goTo i pc) := by
  refine ⟨fun n hn => (h.queue n hn).imp_right fun hn => hn.imp_right ?_, h.inQueue⟩
  rintro ⟨c, hc⟩
  refine ⟨c, ?_⟩
  rwa [goTo_pc_of_ne]
  rintro rfl
  exact hold c n hc

/-! ### The threads -/

/-- What holds of a thread that puts a fact into a node or an inbox. -/
def CallerOk (s : Static size φ) (i : Fin size) : Caller → Prop
  | .work => s.tstate i = .active ∧ (s.currentNode i).isSome
  | .next | .busy => s.currentNode i = none

/-- What holds of a thread that is about to be active. -/
def ActivatorOk (s : Static size φ) (i : Fin size) : Activator → Prop
  | .wait => s.currentNode i = none ∧ s.hasWork i = true
  | .node => (s.currentNode i).isSome

/-- What holds of a thread at each place. -/
def PcOk (owner : ℕ → Fin size) (s : Static size φ) (i : Fin size) : Pc size φ → Prop
  | .getWork | .nextNode => True
  | .checkUseless => (s.currentNode i).isSome
  | .retrieve c => c ≠ .work ∧ s.currentNode i = none
  | .popped c dest _ => c ≠ .work ∧ s.currentNode i = none ∧ owner dest = i
  | .added c dest => s.CallerOk i c ∧ owner dest = i
  | .queued c dest => s.CallerOk i c ∧ owner dest = i ∧ dest ∈ s.queueNodes i
  | .wake c j | .barrierWake c j => c = .work ∧ s.CallerOk i c ∧ i ≠ j
  | .checkWork | .popNode | .spin | .makeInactive | .makeInactiveLocked | .checkDone =>
    s.currentNode i = none
  | .barrierInactive => s.currentNode i = none ∧ s.queueNodes i = []
  | .activate a | .activateLocked a | .barrierActive a => s.ActivatorOk i a
  | .waitEnd => s.ActivatorOk i .wait ∧ s.tstate i = .active
  | .working => s.CallerOk i .work
  | .left | .failed => s.done = true

/-- What a caller relies on is its own state. -/
theorem CallerOk.congr {c : Caller} (h : s.CallerOk i c)
    (hactive : s.tstate i = .active → s'.tstate i = .active)
    (hcurrent : s'.currentNode i = s.currentNode i) : s'.CallerOk i c := by
  cases c with
  | work => exact ⟨hactive h.1, hcurrent ▸ h.2⟩
  | next => exact hcurrent.trans h
  | busy => exact hcurrent.trans h

/-- What an activator relies on is its own state. -/
theorem ActivatorOk.congr {a : Activator} (h : s.ActivatorOk i a)
    (hcurrent : s'.currentNode i = s.currentNode i)
    (hwork : s.hasWork i = true → s'.hasWork i = true) : s'.ActivatorOk i a := by
  cases a with
  | wait => exact ⟨hcurrent.trans h.1, hwork h.2⟩
  | node =>
    rw [ActivatorOk, hcurrent]
    exact h

/-- What the steps of the others leave as it is. -/
theorem PcOk.congr {pc : Pc size φ} (h : PcOk owner s i pc)
    (hactive : s.tstate i = .active → s'.tstate i = .active)
    (hcurrent : s'.currentNode i = s.currentNode i)
    (hqueue : s'.queueNodes i = s.queueNodes i)
    (hwork : s.hasWork i = true → s'.hasWork i = true)
    (hdone : s.done = true → s'.done = true) : PcOk owner s' i pc := by
  cases pc with
  | getWork | nextNode => trivial
  | left | failed => exact hdone h
  | checkUseless | checkWork | popNode | spin | makeInactive | makeInactiveLocked | checkDone =>
    rw [PcOk, hcurrent]
    exact h
  | retrieve | popped =>
    rw [PcOk, hcurrent]
    exact h
  | added => exact ⟨h.1.congr hactive hcurrent, h.2⟩
  | queued => exact ⟨h.1.congr hactive hcurrent, h.2.1, hqueue ▸ h.2.2⟩
  | wake | barrierWake => exact ⟨h.1, h.2.1.congr hactive hcurrent, h.2.2⟩
  | barrierInactive =>
    rw [PcOk, hcurrent, hqueue]
    exact h
  | activate | activateLocked | barrierActive => exact ActivatorOk.congr h hcurrent hwork
  | waitEnd => exact ⟨h.1.congr hcurrent hwork, hactive h.2⟩
  | working => exact CallerOk.congr (c := .work) h hactive hcurrent

/-- A caller goes on where it may. -/
theorem CallerOk.resume {c : Caller} (h : s.CallerOk i c) : PcOk owner s i c.resume := by
  cases c with
  | work => exact h
  | next | busy => exact ⟨nofun, h⟩

/-- An activator goes on once its thread is active. -/
theorem ActivatorOk.resume {a : Activator} (h : s.ActivatorOk i a)
    (hactive : s.tstate i = .active) : PcOk owner s i a.resume := by
  cases a with
  | wait => exact ⟨h, hactive⟩
  | node => exact ⟨hactive, h⟩

@[simp] theorem pending_caller_resume {c : Caller} :
    (c.resume : Pc size φ).pending i = none := by
  cases c <;> rfl

@[simp] theorem pending_caller_done {c : Caller} : (c.done : Pc size φ).pending i = none := by
  cases c <;> rfl

@[simp] theorem pending_activator_resume {a : Activator} :
    (a.resume : Pc size φ).pending i = none := by
  cases a <;> rfl

/-! ### The invariant -/

/-- The invariant of the scheduler. -/
structure Inv (owner : ℕ → Fin size) (s : Static size φ) : Prop where
  locks : s.Locks
  inbox : Inbox owner s
  nodes : Nodes owner s
  pcOk : ∀ i, PcOk owner s i (s.pc i)

/-- The invariant holds at the start. -/
theorem Start.inv (h : s.Start owner) : Inv owner s := by
  have hcounted : ∀ j, s.Counted j ↔ s.tstate j = .active := fun j => by
    rw [Counted, h.lock j]
    exact iff_true_right rfl
  refine ⟨⟨?_, fun i j => ?_, fun i j state hpending => ?_⟩,
    ⟨fun j hj => .inl ⟨?_, h.lock j⟩, h.buffer⟩,
    ⟨fun n hn => .inl (h.queue n hn), fun n hn => .inl (h.inQueue n hn)⟩, fun i => ?_⟩
  · rw [h.activeThreads, Fintype.card_subtype]
    congr 1
    exact Finset.filter_congr fun j _ => (hcounted j).symm
  · rw [h.lock, h.pc]
    exact ⟨fun heq => (nomatch heq), fun ⟨_, heq⟩ => (nomatch heq)⟩
  · rw [h.pc] at hpending
    cases hpending
  · by_contra hne
    have hinactive : s.tstate j = .inactive := by
      cases hstate : s.tstate j
      · exact absurd hstate hne
      · rfl
    have hwork := h.hasWork j hinactive
    rw [Static.hasWork, Bool.or_eq_false_iff] at hwork
    simp [hj] at hwork
  · rw [h.pc]
    trivial

/-- A step of the thread `i` that changes only where it is. -/
theorem Inv.goTo (h : Inv owner s) {pc : Pc size φ} (hpending : (s.pc i).pending i = none)
    (hpending' : pc.pending i = none) (hwaking : (s.pc i).waking = none)
    (hadded : ∀ c n, s.pc i ≠ .added c n) (hok : PcOk owner s i pc) : Inv owner (s.goTo i pc) := by
  refine ⟨h.locks.goTo (hpending'.trans hpending.symm), h.inbox.goTo hwaking,
    h.nodes.goTo pc hadded, fun j => ?_⟩
  rcases eq_or_ne j i with rfl | hne
  · rw [goTo_pc_self]
    exact hok.congr id rfl rfl id id
  · rw [goTo_pc_of_ne hne]
    exact (h.pcOk j).congr id rfl rfl id id

end Static

end Meld.Thread
