import Meld.Lib.Transition
import Meld.Sched.EndIteration

/-!
# The broadcast of the end of an iteration

The machines as parties of a network. The leader starts with the calls of
`do_collective_end_iteration` at stage 1; every other machine polls for a message from the source
that it computes, and then makes the calls of the stages after the one in the message. Every order
of the machines' steps is a run.

`broadcasts_iff` says for which sizes of the world the broadcast reaches every machine exactly once:
up to `2 ^ 30`, the last power of two below the largest rank.
-/

namespace Meld.Sched

open Lib

/-- A message of the broadcast. -/
structure Message where
  source : ℕ
  dest : ℤ
  stage : ℕ
  deriving DecidableEq

/-- Where a machine is: polling for the message, or at the calls that remain. -/
inductive Status
  | waiting
  | running (calls : List Call)

/-- The machines, the messages on their way and the messages sent so far. -/
structure Network where
  status : ℕ → Status
  inFlight : Multiset Message
  sent : Multiset Message

namespace Network

/-- The leader has started, and no other machine has. -/
inductive Init (n : ℕ) : Network → Prop
  | leader {calls : List Call} (h : doCollectiveEndIteration n 0 1 = .ok calls) :
    Init n ⟨Function.update (fun _ => .waiting) 0 (.running calls), 0, 0⟩

/-- A step of one machine. -/
inductive Step (n : ℕ) : Network → Network → Prop
  /-- `send_end_iteration` -/
  | send {s : Network} {r stage : ℕ} {dest : ℤ} {calls : List Call} (hr : r < n)
    (h : s.status r = .running (.send stage dest :: calls)) :
    Step n s ⟨Function.update s.status r (.running calls), ⟨r, dest, stage⟩ ::ₘ s.inFlight,
      ⟨r, dest, stage⟩ ::ₘ s.sent⟩
  /-- `receive_end_iteration`, which blocks until there is a message from the source -/
  | receive {s : Network} {r : ℕ} {source : ℤ} {calls : List Call} {m : Message}
    {rest : Multiset Message} (hr : r < n)
    (h : s.status r = .running (.receive source :: calls)) (hm : s.inFlight = m ::ₘ rest)
    (hsource : (m.source : ℤ) = source) (hdest : m.dest = r) :
    Step n s ⟨Function.update s.status r (.running calls), rest, s.sent⟩
  /-- `try_fetch_end_iteration` with a message -/
  | fetch {s : Network} {r : ℕ} {calls : List Call} {m : Message} {rest : Multiset Message}
    (hr : r < n) (h : s.status r = .waiting) (hm : s.inFlight = m ::ₘ rest)
    (hsource : findSourceCollective n r = .ok m.source) (hdest : m.dest = r)
    (hcalls : doCollectiveEndIteration n r (m.stage + 1) = .ok calls) :
    Step n s ⟨Function.update s.status r (.running calls), rest, s.sent⟩

end Network

/-- The broadcast in a world of the given size. -/
def broadcast (n : ℕ) : System Network := ⟨Network.Init n, Network.Step n⟩

/-- Every machine is sent one message, from the machine it waits for, no message goes elsewhere, and
the broadcast comes to its end. -/
structure Broadcasts (n : ℕ) : Prop where
  starts : ∃ s, (broadcast n).init s
  target : ∀ s, (broadcast n).Reachable s → ∀ m ∈ s.sent, ∃ d : ℕ, m.dest = d ∧ d ≠ 0 ∧ d < n ∧
    findSourceCollective n d = .ok m.source ∧ m.source = clearHighest d
  once : ∀ s, (broadcast n).Reachable s → ∀ d : ℕ, s.sent.countP (fun m => m.dest = (d : ℤ)) ≤ 1
  bounded : ∀ s, (broadcast n).init s → ∃ bound, ∀ k s', (broadcast n).Run k s s' → k ≤ bound
  completes : ∀ s, (broadcast n).Reachable s → (broadcast n).Stuck s →
    (∀ r < n, s.status r = .running []) ∧ s.inFlight = 0 ∧
      ∀ d : ℕ, d ≠ 0 → d < n → s.sent.countP (fun m => m.dest = (d : ℤ)) = 1

namespace Network

variable {n : ℕ} {s s' : Network} {m : Message} {r d : ℕ}

/-- The message to the machine `d`. -/
def messageTo (d : ℕ) : Message := ⟨clearHighest d, d, reachedAt d⟩

/-- The invariant: a machine has a suffix of its calls before it and has sent the messages of the
others; a message is on its way while its machine waits. -/
structure InvAt (n : ℕ) (status : ℕ → Status) (inFlight sent : Multiset Message) : Prop where
  suffix : ∀ r calls, status r = .running calls → calls <:+ program n r
  leader : status 0 ≠ .waiting
  nodup : sent.Nodup
  mem_sent : ∀ m, m ∈ sent ↔ ∃ d calls, d ≠ 0 ∧ d < n ∧ m = messageTo d ∧
    status (clearHighest d) = .running calls ∧ Call.send (reachedAt d) d ∉ calls
  nodup_inFlight : inFlight.Nodup
  mem_inFlight : ∀ m, m ∈ inFlight ↔ m ∈ sent ∧ status m.dest.toNat = .waiting
  reached : ∀ d, d ≠ 0 → d < n → status d ≠ .waiting → messageTo d ∈ sent

/-- The invariant of a network. -/
abbrev Inv (n : ℕ) (s : Network) : Prop := InvAt n s.status s.inFlight s.sent

theorem Inv.init (hpos : 0 < n) (hn : n ≤ 2 ^ 30) (h : Init n s) : Inv n s := by
  obtain ⟨hcalls⟩ := h
  rw [show (0 : ℤ) = ((0 : ℕ) : ℤ) from rfl,
    doCollectiveEndIteration_eq hn (by decide) hpos (by decide)] at hcalls
  cases hcalls
  have hprogram : sends n 0 (Nat.clog 2 n + 1 - 1) 1 = program n 0 := rfl
  have hwaiting : ∀ r, r ≠ 0 → Function.update (fun _ => Status.waiting) 0
      (.running (program n 0)) r = .waiting := fun r hr => Function.update_of_ne hr _ _
  rw [hprogram]
  refine ⟨fun r calls hr => ?_, ?_, Multiset.nodup_zero, fun m => ?_, Multiset.nodup_zero,
    fun m => by simp, fun d hd _ hne => absurd (hwaiting d hd) hne⟩
  · rcases eq_or_ne r 0 with rfl | hne
    · simp only [Function.update_self, Status.running.injEq] at hr
      exact hr ▸ List.suffix_rfl
    · simp only [hwaiting r hne] at hr
      cases hr
  · simp only [Function.update_self]
    nofun
  · simp only [Multiset.notMem_zero, false_iff, not_exists]
    rintro d calls ⟨hd, hlt, -, hrun, hnot⟩
    rcases eq_or_ne (clearHighest d) 0 with hzero | hne
    · rw [hzero, Function.update_self, Status.running.injEq] at hrun
      exact hnot (hrun ▸ mem_program.mpr ⟨d, hd, hlt, hzero, rfl⟩)
    · rw [hwaiting _ hne] at hrun
      cases hrun

theorem messageTo_inj (h : messageTo d = messageTo r) : d = r := by
  rw [messageTo, messageTo, Message.mk.injEq] at h
  exact Int.ofNat_inj.mp h.2.1

/-- A message that was sent is the one to its destination. -/
theorem Inv.eq_messageTo (h : Inv n s) (hm : m ∈ s.sent) (hdest : m.dest.toNat = d) :
    m = messageTo d ∧ d ≠ 0 ∧ d < n := by
  obtain ⟨d', calls, hd, hlt, rfl, -⟩ := (h.mem_sent m).mp hm
  rw [messageTo, Int.toNat_natCast] at hdest
  exact hdest ▸ ⟨rfl, hd, hlt⟩

/-- The calls of a machine are sends. -/
theorem Inv.head_eq (h : Inv n s) {c : Call} {calls : List Call}
    (hrun : s.status r = .running (c :: calls)) :
    ∃ d, d ≠ 0 ∧ d < n ∧ clearHighest d = r ∧ c = .send (reachedAt d) d :=
  mem_program.mp ((h.suffix r _ hrun).subset List.mem_cons_self)

theorem Inv.send (h : Inv n s) {c : Call} {calls : List Call}
    (hrun : s.status (clearHighest d) = .running (c :: calls)) (hc : c = .send (reachedAt d) d)
    (hd : d ≠ 0) (hlt : d < n) :
    InvAt n (Function.update s.status (clearHighest d) (.running calls))
      (messageTo d ::ₘ s.inFlight) (messageTo d ::ₘ s.sent) := by
  subst hc
  have hsuffix := h.suffix _ _ hrun
  have hnot : Call.send (reachedAt d) d ∉ calls :=
    (List.nodup_cons.mp (hsuffix.sublist.nodup (sends_nodup _ _ _ _))).1
  have hnew : messageTo d ∉ s.sent := by
    intro hmem
    obtain ⟨d', calls', -, -, he, hrun', hnot'⟩ := (h.mem_sent _).mp hmem
    obtain rfl := messageTo_inj he
    rw [hrun, Status.running.injEq] at hrun'
    exact hnot' (hrun' ▸ List.mem_cons_self)
  have hbelow := clearHighest_lt hd
  have hwait : s.status d = .waiting := by
    by_contra hne
    exact hnew (h.reached d hd hlt hne)
  -- only the status of the sender has changed, and it is not waiting before or after
  have hstatus : ∀ k, Function.update s.status (clearHighest d) (.running calls) k = .waiting ↔
      s.status k = .waiting := by
    intro k
    rcases eq_or_ne k (clearHighest d) with rfl | hk
    · simp [hrun]
    · rw [Function.update_of_ne hk]
  refine ⟨fun k calls' hk => ?_, by rw [Ne, hstatus]; exact h.leader,
    Multiset.nodup_cons.mpr ⟨hnew, h.nodup⟩, fun m => ?_,
    Multiset.nodup_cons.mpr ⟨fun hm => hnew ((h.mem_inFlight _).mp hm).1, h.nodup_inFlight⟩,
    fun m => ?_, fun k hk hkn hne => ?_⟩
  · rcases eq_or_ne k (clearHighest d) with rfl | hne
    · rw [Function.update_self, Status.running.injEq] at hk
      exact hk ▸ (List.suffix_cons _ _).trans hsuffix
    · rw [Function.update_of_ne hne] at hk
      exact h.suffix k calls' hk
  · rw [Multiset.mem_cons]
    constructor
    · rintro (rfl | hm)
      · exact ⟨d, calls, hd, hlt, rfl, Function.update_self _ _ _, hnot⟩
      · obtain ⟨d', calls', hd', hlt', rfl, hrun', hnot'⟩ := (h.mem_sent m).mp hm
        rcases eq_or_ne (clearHighest d') (clearHighest d) with he | hne
        · rw [he, hrun, Status.running.injEq] at hrun'
          refine ⟨d', calls, hd', hlt', rfl, by rw [he, Function.update_self], fun hmem => ?_⟩
          exact hnot' (hrun' ▸ List.mem_cons_of_mem _ hmem)
        · exact ⟨d', calls', hd', hlt', rfl, by rwa [Function.update_of_ne hne], hnot'⟩
    · rintro ⟨d', calls', hd', hlt', rfl, hrun', hnot'⟩
      rcases eq_or_ne d' d with rfl | hdd
      · exact .inl rfl
      · refine .inr ((h.mem_sent _).mpr ?_)
        rcases eq_or_ne (clearHighest d') (clearHighest d) with he | hne
        · rw [he, Function.update_self, Status.running.injEq] at hrun'
          refine ⟨d', _, hd', hlt', rfl, he ▸ hrun, fun hmem => ?_⟩
          rcases List.mem_cons.mp hmem with heq | hmem
          · rw [Call.send.injEq] at heq
            exact hdd (Int.ofNat_inj.mp heq.2)
          · exact hnot' (hrun' ▸ hmem)
        · exact ⟨d', calls', hd', hlt', rfl, by rwa [Function.update_of_ne hne] at hrun', hnot'⟩
  · simp only [Multiset.mem_cons, hstatus, h.mem_inFlight, or_and_right]
    refine or_congr_left ⟨?_, And.left⟩
    rintro rfl
    exact ⟨rfl, by rw [messageTo, Int.toNat_natCast]; exact hwait⟩
  · rw [Ne, hstatus] at hne
    exact Multiset.mem_cons_of_mem (h.reached k hk hkn hne)

theorem Inv.fetch (hn : n ≤ 2 ^ 30) (h : Inv n s) {rest : Multiset Message} {calls : List Call}
    (hr : r < n) (hwait : s.status r = .waiting) (hm : s.inFlight = m ::ₘ rest)
    (hdest : m.dest = r) (hcalls : doCollectiveEndIteration n r (m.stage + 1) = .ok calls) :
    InvAt n (Function.update s.status r (.running calls)) rest s.sent ∧
      calls = program n r := by
  have hnodup := Multiset.nodup_cons.mp (hm ▸ h.nodup_inFlight)
  have hsent : m ∈ s.sent := ((h.mem_inFlight m).mp (hm ▸ Multiset.mem_cons_self m rest)).1
  obtain ⟨rfl, hr0, -⟩ := h.eq_messageTo hsent (d := r) (by rw [hdest, Int.toNat_natCast])
  -- the receiver goes on at the stage behind the one it was reached at
  have hfirst : reachedAt r + 1 = firstStage r := by rw [firstStage, if_neg hr0]
  have hprogram : calls = program n r := by
    change doCollectiveEndIteration n r (reachedAt r + 1) = .ok calls at hcalls
    rw [hfirst, doCollectiveEndIteration_eq hn (lt_pow_firstStage r) (by omega)
      (firstStage_pos r)] at hcalls
    cases hcalls
    rfl
  refine ⟨⟨fun k calls' hk => ?_, ?_, h.nodup, fun m => ?_, hnodup.2, fun m => ?_,
    fun k hk hkn hne => ?_⟩, hprogram⟩
  · rcases eq_or_ne k r with rfl | hne
    · rw [Function.update_self, Status.running.injEq] at hk
      exact hk ▸ hprogram ▸ List.suffix_rfl
    · rw [Function.update_of_ne hne] at hk
      exact h.suffix k calls' hk
  · rw [Function.update_of_ne (Ne.symm hr0)]
    exact h.leader
  · rw [h.mem_sent]
    refine exists_congr fun d => exists_congr fun calls' => and_congr_right fun hd =>
      and_congr_right fun hlt => and_congr_right fun _ => ?_
    rcases eq_or_ne (clearHighest d) r with he | hne
    · rw [he, Function.update_self, hwait]
      refine iff_of_false (fun hrun => by cases hrun.1) fun hrun => hrun.2 ?_
      rw [← Status.running.inj hrun.1, hprogram]
      exact mem_program.mpr ⟨d, hd, hlt, he, rfl⟩
    · rw [Function.update_of_ne hne]
  · have hrest : m ∈ rest ↔ m ∈ s.inFlight ∧ m ≠ messageTo r := by
      rw [hm, Multiset.mem_cons]
      refine ⟨fun hmem => ⟨.inr hmem, ?_⟩, fun hmem => hmem.1.resolve_left hmem.2⟩
      rintro rfl
      exact hnodup.1 hmem
    rw [hrest, h.mem_inFlight, and_assoc]
    refine and_congr_right fun hmem => ?_
    rcases eq_or_ne m.dest.toNat r with he | hne
    · rw [he, Function.update_self, (h.eq_messageTo hmem he).1]
      simp
    · rw [Function.update_of_ne hne]
      refine and_iff_left ?_
      rintro rfl
      exact hne (by rw [messageTo, Int.toNat_natCast])
  · rcases eq_or_ne k r with rfl | hkr
    · exact hsent
    · rw [Function.update_of_ne hkr] at hne
      exact h.reached k hk hkn hne

theorem Inv.step (hn : n ≤ 2 ^ 30) (h : Inv n s) (hstep : Step n s s') : Inv n s' := by
  cases hstep with
  | send hr hrun =>
    obtain ⟨d, hd, hlt, rfl, hc⟩ := h.head_eq hrun
    rw [Call.send.injEq] at hc
    obtain ⟨rfl, rfl⟩ := hc
    exact h.send hrun rfl hd hlt
  | receive hr hrun hm hsource hdest =>
    obtain ⟨d, -, -, -, hc⟩ := h.head_eq hrun
    cases hc
  | fetch hr hwait hm hsource hdest hcalls => exact (h.fetch hn hr hwait hm hdest hcalls).1

theorem Inv.of_reachable (hpos : 0 < n) (hn : n ≤ 2 ^ 30) (h : (broadcast n).Reachable s) :
    Inv n s :=
  h.invariant (fun _ => Inv.init hpos hn) fun _ _ hinv => Inv.step hn hinv

/-! ### The end of the broadcast -/

/-- The steps that a machine has before it. -/
def remaining (n r : ℕ) : Status → ℕ
  | .waiting => (program n r).length + 1
  | .running calls => calls.length

/-- The steps that all machines have before them. -/
def totalRemaining (n : ℕ) (s : Network) : ℕ := ∑ r ∈ Finset.range n, remaining n r (s.status r)

theorem totalRemaining_lt {status : Status} {inFlight sent : Multiset Message} (hr : r < n)
    (hlt : remaining n r status < remaining n r (s.status r)) :
    totalRemaining n ⟨Function.update s.status r status, inFlight, sent⟩ < totalRemaining n s := by
  refine Finset.sum_lt_sum (fun k _ => ?_) ⟨r, Finset.mem_range.mpr hr, ?_⟩ <;> dsimp only
  · rcases eq_or_ne k r with rfl | hne
    · rw [Function.update_self]
      exact hlt.le
    · rw [Function.update_of_ne hne]
  · rw [Function.update_self]
    exact hlt

/-- Every step brings the broadcast closer to its end. -/
theorem Inv.totalRemaining_lt (hn : n ≤ 2 ^ 30) (h : Inv n s) (hstep : Step n s s') :
    totalRemaining n s' < totalRemaining n s := by
  cases hstep with
  | send hr hrun => exact Network.totalRemaining_lt hr (by simp [remaining, hrun])
  | receive hr hrun hm hsource hdest => exact Network.totalRemaining_lt hr (by simp [remaining, hrun])
  | fetch hr hwait hm hsource hdest hcalls =>
    have hprogram := (h.fetch hn hr hwait hm hdest hcalls).2
    exact Network.totalRemaining_lt hr (by simp [remaining, hwait, hprogram])

/-- Where no step is possible every machine has made its calls: by induction on the rank, since the
source of a machine has a smaller rank. -/
theorem Inv.finished (hn : n ≤ 2 ^ 30) (h : Inv n s) (hstuck : (broadcast n).Stuck s) :
    ∀ r < n, s.status r = .running [] := by
  intro r
  induction r using Nat.strong_induction_on with
  | _ r ih =>
    intro hr
    cases hstatus : s.status r with
    | running calls =>
      cases calls with
      | nil => rfl
      | cons c calls =>
        obtain ⟨d, -, -, -, rfl⟩ := h.head_eq hstatus
        exact absurd (Step.send hr hstatus) (hstuck _)
    | waiting =>
      have hr0 : r ≠ 0 := by
        rintro rfl
        exact h.leader hstatus
      have hbelow := clearHighest_lt hr0
      have hsent : messageTo r ∈ s.sent := (h.mem_sent _).mpr
        ⟨r, [], hr0, hr, rfl, ih _ hbelow (hbelow.trans hr), List.not_mem_nil⟩
      have hflight : messageTo r ∈ s.inFlight :=
        (h.mem_inFlight _).mpr ⟨hsent, by rw [messageTo, Int.toNat_natCast]; exact hstatus⟩
      obtain ⟨rest, hrest⟩ := Multiset.exists_cons_of_mem hflight
      have hfirst : reachedAt r + 1 = firstStage r := by rw [firstStage, if_neg hr0]
      have hcalls : doCollectiveEndIteration n r ((messageTo r).stage + 1) =
          .ok (sends n r (Nat.clog 2 n + 1 - firstStage r) (firstStage r)) := by
        rw [messageTo, hfirst, doCollectiveEndIteration_eq hn (lt_pow_firstStage r) (by omega)
          (firstStage_pos r)]
      exact absurd (Step.fetch hr hstatus hrest (findSourceCollective_eq hn hr0 hr) rfl hcalls)
        (hstuck _)

/-- The messages to a machine are copies of one. -/
theorem Inv.filter_sent (h : Inv n s) (d : ℕ) :
    s.sent.filter (fun m => m.dest = (d : ℤ)) = if messageTo d ∈ s.sent then {messageTo d} else 0 := by
  have hnodup := Multiset.Nodup.filter (fun m : Message => m.dest = (d : ℤ)) h.nodup
  have hmem : ∀ m, m ∈ s.sent.filter (fun m => m.dest = (d : ℤ)) ↔
      messageTo d ∈ s.sent ∧ m = messageTo d := by
    intro m
    rw [Multiset.mem_filter]
    constructor
    · rintro ⟨hm, hdest⟩
      obtain ⟨rfl, -⟩ := h.eq_messageTo hm (d := d) (by rw [hdest, Int.toNat_natCast])
      exact ⟨hm, rfl⟩
    · rintro ⟨hm, rfl⟩
      exact ⟨hm, rfl⟩
  split_ifs with hsent
  · exact (Multiset.Nodup.ext hnodup (Multiset.nodup_singleton _)).mpr fun m => by
      rw [hmem, Multiset.mem_singleton, and_iff_right hsent]
  · exact Multiset.eq_zero_of_forall_notMem fun m hm => hsent ((hmem m).mp hm).1

end Network

open Network

/-- The broadcast in a world whose ranks have powers of two that fit. -/
theorem broadcasts_of_le {n : ℕ} (hpos : 0 < n) (hn : n ≤ 2 ^ 30) : Broadcasts n where
  starts := ⟨_, .leader (doCollectiveEndIteration_eq (r := 0) hn (by decide) hpos (by decide))⟩
  target s hs m hm := by
    obtain ⟨d, calls, hd, hlt, rfl, -⟩ := ((Inv.of_reachable hpos hn hs).mem_sent m).mp hm
    exact ⟨d, rfl, hd, hlt, findSourceCollective_eq hn hd hlt, rfl⟩
  once s hs d := by
    rw [Multiset.countP_eq_card_filter, (Inv.of_reachable hpos hn hs).filter_sent]
    split_ifs <;> simp
  bounded s hs := by
    refine ⟨totalRemaining n s, fun k s' hrun => ?_⟩
    have := hrun.length_le (v := totalRemaining n) (fun t t' ht hstep =>
      (Inv.of_reachable hpos hn ht).totalRemaining_lt hn hstep) (.init hs)
    omega
  completes s hs hstuck := by
    have hinv := Inv.of_reachable hpos hn hs
    have hfinished := hinv.finished hn hstuck
    refine ⟨hfinished, Multiset.eq_zero_of_forall_notMem fun m hm => ?_, fun d hd hlt => ?_⟩
    · obtain ⟨hsent, hwait⟩ := (hinv.mem_inFlight m).mp hm
      obtain ⟨d, calls, -, hlt, rfl, -⟩ := (hinv.mem_sent m).mp hsent
      rw [messageTo, Int.toNat_natCast, hfinished d hlt] at hwait
      cases hwait
    · have hsent := hinv.reached d hd hlt (by rw [hfinished d hlt]; nofun)
      rw [Multiset.countP_eq_card_filter, hinv.filter_sent, if_pos hsent, Multiset.card_singleton]

/-- In a larger world the machine of rank `2 ^ 30` cannot compute the machine it waits for. -/
theorem not_broadcasts_of_gt {n : ℕ} (hn : 2 ^ 30 < n) : ¬Broadcasts n := by
  intro h
  obtain ⟨s, hs⟩ := h.starts
  obtain ⟨bound, hbound⟩ := h.bounded s hs
  obtain ⟨k, s', hrun, hstuck⟩ := System.exists_stuck_of_bounded hbound
  have hreach := hrun.reachable (.init hs)
  have hcount := (h.completes s' hreach hstuck).2.2 (2 ^ 30) (by decide) hn
  obtain ⟨m, hm, hdest⟩ := Multiset.countP_pos.mp (hcount ▸ Nat.one_pos)
  obtain ⟨d, hd, -, -, hsource, -⟩ := h.target s' hreach m hm
  obtain rfl : 2 ^ 30 = d := Int.ofNat_inj.mp (hdest.symm.trans hd)
  exact findSourceCollective_overflow hn _ hsource

/-- The broadcast reaches every machine exactly once precisely in the worlds of at most `2 ^ 30`
machines. -/
theorem broadcasts_iff (n : ℕ) (hpos : 1 ≤ n) : Broadcasts n ↔ n ≤ 2 ^ 30 :=
  ⟨fun h => not_lt.mp fun hlt => not_broadcasts_of_gt hlt h, broadcasts_of_le hpos⟩

/-- A world whose size is no power of two. -/
theorem broadcasts_iff_six : Broadcasts 6 ↔ 6 ≤ 2 ^ 30 := broadcasts_iff 6 (by decide)

/-- The smallest world that is too large. -/
theorem not_broadcasts_large : ¬Broadcasts (2 ^ 30 + 1) := not_broadcasts_of_gt (by decide)

end Meld.Sched
