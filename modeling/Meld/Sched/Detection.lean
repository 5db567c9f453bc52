import Meld.Sched.Termination

/-!
# The end of an iteration is found

`leader_concludes` says that the leader is right when it takes the iteration for over. Here it finds
the end: in a run with no more messages than an `int` can count no counter overflows and no
assertion of the busy loop fails, and once all machines are idle and no message is on its way, only
the token moves, and after fewer than `3 * n` moves the turn of the leader finds the iteration over
(`end_detected`).

The counts of the tokens are exact in such a run (`Counts`): the count of a machine is what it sent
less what it received, and the token of the ring has the counts of the machines that it has visited,
each from the time of its visit. Once all is quiet the token may have to go round three times. What
it collected so far may be outdated; on the next round the machines that received something since
its last visit make it black and become white themselves; and on the round after that it stays white
and comes back with the sum of all counts, which is zero. `Remaining` gives the number of moves that
are left.
-/

namespace Meld.Sched

open Lib

/-! ### Turns of an idle machine -/

namespace Tokenizer

variable {t : Tokenizer} {tok : Token} {useMpi : Bool}

/-- The numbers of an `int`. -/
def InRange (c : ℤ) : Prop := -maxInt - 1 ≤ c ∧ c ≤ maxInt

theorem addCount_of_inRange {plus : ℤ} (h : InRange (tok.count + plus)) :
    tok.addCount plus = .ok ⟨tok.white, tok.count + plus⟩ := by
  rw [Token.addCount, addInt_of_mem h.1 h.2]
  rfl

/-- Without a token nothing happens. -/
theorem busyLoopToken_none {leader idle : Bool} (hhas : t.hasGlobalTok = false) :
    busyLoopToken leader useMpi idle false none t = .ok ⟨t, true, none, true⟩ := by
  cases idle <;> cases leader <;>
    simp [busyLoopToken, hhas, tryFetchTokenAsWorker, tryFetchTokenAsLeader, tryFetchTokenAsIdler,
      assert_pos]

/-- A machine with work keeps the token that it has. -/
theorem busyLoopToken_keep {leader : Bool} {incoming : Option Token}
    (hhas : t.hasGlobalTok = true) :
    busyLoopToken leader useMpi false false incoming t = .ok ⟨t, false, none, true⟩ := by
  simp [busyLoopToken, hhas]

/-- A machine with work takes the token that comes. -/
theorem busyLoopToken_take {leader : Bool} (hhas : t.hasGlobalTok = false) :
    busyLoopToken leader useMpi false false (some tok) t =
      .ok ⟨{ t with hasGlobalTok := true, globalTok := tok }, true, none, true⟩ := by
  simp [busyLoopToken, hhas, tryFetchTokenAsWorker, assert_pos]

/-- The leader starts a round. -/
theorem busyLoopToken_start {incoming : Option Token} (hhas : t.hasGlobalTok = true) :
    busyLoopToken true true true false incoming t =
      .ok ⟨⟨t.tok.setWhite, false, ⟨true, 0⟩⟩, false, some ⟨true, 0⟩, true⟩ := by
  simp [busyLoopToken, hhas, sendTokenAsLeader_eq]

/-- The only machine has the token and is idle. -/
theorem busyLoopToken_alone {incoming : Option Token} (hhas : t.hasGlobalTok = true) :
    busyLoopToken true false true false incoming t = .ok ⟨t, false, none, false⟩ := by
  simp [busyLoopToken, hhas]

/-- The token has come back to the leader: white, with a sum of zero, and nothing was received. -/
def IsOver (t : Tokenizer) (tok : Token) : Prop :=
  tok.white = true ∧ tok.count + t.tok.count = 0 ∧ t.tok.white = true

/-- The leader takes the iteration for over. -/
theorem busyLoopToken_conclude (hhas : t.hasGlobalTok = false)
    (hover : t.IsOver tok) (hrange : InRange (tok.count + t.tok.count)) :
    busyLoopToken true useMpi true false (some tok) t =
      .ok ⟨⟨t.tok, true, ⟨tok.white, tok.count + t.tok.count⟩⟩, true, none, false⟩ := by
  simp [busyLoopToken, hhas, tryFetchTokenAsLeader, assert_pos, addCount_of_inRange hrange,
    Token.isZero, hover.1, hover.2.1, hover.2.2]

/-- The leader starts another round. -/
theorem busyLoopToken_restart (hhas : t.hasGlobalTok = false)
    (hover : ¬ t.IsOver tok) (hrange : InRange (tok.count + t.tok.count)) :
    busyLoopToken true useMpi true false (some tok) t =
      .ok ⟨⟨t.tok.setWhite, false, ⟨true, 0⟩⟩, true, some ⟨true, 0⟩, true⟩ := by
  have hif : ¬ (tok.white = true ∧ Token.isZero ⟨tok.white, tok.count + t.tok.count⟩ = true ∧
      t.tok.white = true) := by
    simpa [Token.isZero, IsOver] using hover
  simp only [busyLoopToken, hhas, if_true, Bool.false_eq_true, false_and, if_false,
    tryFetchTokenAsLeader, assert_pos, ok_bind, addCount_of_inRange hrange, if_neg hif,
    sendTokenAsLeader_eq, pure_eq_ok, Bool.not_false]

/-- Another machine passes the token on that it has. -/
theorem busyLoopToken_release {incoming : Option Token} (hhas : t.hasGlobalTok = true)
    (hrange : InRange (t.globalTok.count + t.tok.count)) :
    busyLoopToken false useMpi true false incoming t =
      .ok ⟨⟨t.tok, false, ⟨false, t.globalTok.count + t.tok.count⟩⟩, false,
        some ⟨false, t.globalTok.count + t.tok.count⟩, true⟩ := by
  simp [busyLoopToken, hhas, sendTokenAsIdler, assert_pos, addCount_of_inRange hrange,
    Token.setBlack]

/-- Another machine passes the token on that comes. -/
theorem busyLoopToken_pass (hhas : t.hasGlobalTok = false)
    (hrange : InRange (tok.count + t.tok.count)) :
    busyLoopToken false useMpi true false (some tok) t =
      .ok ⟨⟨t.tok.setWhite, false, ⟨t.tok.white && tok.white, tok.count + t.tok.count⟩⟩, true,
        some ⟨t.tok.white && tok.white, tok.count + t.tok.count⟩, true⟩ := by
  cases hwhite : t.tok.white <;>
    simp [busyLoopToken, hhas, tryFetchTokenAsIdler, assert_pos, addCount_of_inRange hrange,
      hwhite, Token.setBlack]

end Tokenizer

namespace Ring

variable {n k : ℕ} {s s' : Ring} {r t : ℕ} {tk : Token} {sent got sent' got' : ℕ → ℕ}

/-! ### Exact counts -/

/-- The messages on their way. -/
def numInFlight (n : ℕ) (s : Ring) : ℕ := ∑ i ∈ Finset.range n, s.inFlight i

/-- The states of the runs in which the given number of messages was sent. Only a message that is
sent adds to those on their way. -/
inductive Reached (n : ℕ) : ℕ → Ring → Prop
  | init {s : Ring} (h : Init n s) : Reached n 0 s
  | step {k : ℕ} {s s' : Ring} (h : Reached n k s) (hstep : Step n s s') :
    Reached n (k + (numInFlight n s' - numInFlight n s)) s'

theorem Reached.reachable (h : Reached n k s) : (ring n).Reachable s := by
  induction h with
  | init h => exact .init h
  | step _ hstep ih => exact ih.step hstep

/-- The token collected the counts of the machines after `t`, as they were when it visited them. -/
def Collected (n : ℕ) (sent got : ℕ → ℕ) (t : ℕ) (c : ℤ) : Prop :=
  ∃ a b : ℕ, c = a - b ∧ a ≤ ∑ i ∈ Finset.Ico (t + 1) n, sent i ∧
    b ≤ ∑ i ∈ Finset.Ico (t + 1) n, got i

/-- The machine `i` has counted `sent i` messages that it sent and `got i` that it received. -/
structure Counts (n k : ℕ) (s : Ring) (sent got : ℕ → ℕ) : Prop where
  count : ∀ i < n, s.tokCount i = sent i - got i
  numSent : ∑ i ∈ Finset.range n, (sent i + (s.machine i).sending) ≤ k
  numGot : ∑ i ∈ Finset.range n, (got i + (s.machine i).receiving) + numInFlight n s =
    ∑ i ∈ Finset.range n, (sent i + (s.machine i).sending)
  held : ∀ i < n, (s.machine i).tokenizer.hasGlobalTok = true →
    Collected n sent got i (s.machine i).tokenizer.globalTok.count
  flying : ∀ i < n, ∀ tk ∈ s.channel i, Collected n sent got i tk.count

theorem collected_zero : Collected n sent got t 0 := ⟨0, 0, rfl, Nat.zero_le _, Nat.zero_le _⟩

/-- What was collected stays so when the machines count more. -/
theorem Collected.mono {c : ℤ} (h : Collected n sent got t c) (hsent : ∀ i, sent i ≤ sent' i)
    (hgot : ∀ i, got i ≤ got' i) : Collected n sent' got' t c := by
  obtain ⟨a, b, hc, ha, hb⟩ := h
  exact ⟨a, b, hc, ha.trans (Finset.sum_le_sum fun i _ => hsent i),
    hb.trans (Finset.sum_le_sum fun i _ => hgot i)⟩

/-- The next machine adds its count. -/
theorem Collected.pass {c : ℤ} (h : Collected n sent got r c) (hr : r < n) (hr0 : r ≠ 0) :
    Collected n sent got (r - 1) (c + (sent r - got r)) := by
  obtain ⟨a, b, rfl, ha, hb⟩ := h
  have hpred : r - 1 + 1 = r := Nat.sub_add_cancel (Nat.pos_of_ne_zero hr0)
  refine ⟨a + sent r, b + got r, by push_cast; ring, ?_, ?_⟩
  · rw [hpred, Finset.sum_eq_sum_Ico_succ_bot hr]
    omega
  · rw [hpred, Finset.sum_eq_sum_Ico_succ_bot hr]
    omega

/-- The numbers of all messages bound what is collected. -/
theorem Collected.inRange {c : ℤ} (h : Collected n sent got r c) (hc : Counts n k s sent got)
    (hr : r < n) (hk : (k : ℤ) ≤ maxInt) : Tokenizer.InRange (c + (sent r - got r)) := by
  obtain ⟨a, b, rfl, ha, hb⟩ := h
  have hsplit (f : ℕ → ℕ) : f r + ∑ i ∈ Finset.Ico (r + 1) n, f i ≤ ∑ i ∈ Finset.range n, f i := by
    rw [← Finset.sum_eq_sum_Ico_succ_bot hr, Finset.range_eq_Ico]
    exact Finset.sum_le_sum_of_subset (Finset.Ico_subset_Ico_left (Nat.zero_le r))
  have hsent := hsplit sent
  have hgot := hsplit got
  have hnum := hc.numSent
  have hnum' := hc.numGot
  rw [Finset.sum_add_distrib] at hnum
  rw [Finset.sum_add_distrib, Finset.sum_add_distrib] at hnum'
  simp only [Tokenizer.InRange, maxInt] at hk ⊢
  omega

theorem Counts.init (h : Init n s) : Counts n 0 s (fun _ => 0) fun _ => 0 := by
  obtain ⟨hmachine, hempty⟩ := h
  refine ⟨fun i hi => ?_, ?_, ?_, fun i hi _ => ?_, fun i hi tk htk => ?_⟩
  · rw [tokCount, (hmachine i hi).2.2]
    rfl
  · refine (Finset.sum_eq_zero fun i hi => ?_).le
    rw [(hmachine i (Finset.mem_range.mp hi)).1, Nat.add_zero]
  · rw [numInFlight, ← Finset.sum_add_distrib]
    refine Finset.sum_congr rfl fun i hi => ?_
    have hi := Finset.mem_range.mp hi
    rw [(hmachine i hi).1, (hmachine i hi).2.1, (hempty i hi).1]
  · rw [(hmachine i hi).2.2]
    have hzero : (Tokenizer.init (i == 0)).globalTok.count = 0 := by
      cases hleader : i == 0 <;> rfl
    rw [hzero]
    exact collected_zero
  · rw [(hempty i hi).2] at htk
    exact absurd htk List.not_mem_nil

/-- A step of the machine `r` that neither gives nor takes the token, and changes how many messages
it has counted. -/
theorem Counts.of_machine {k' : ℕ} (h : Counts n k s sent got) (hr : r < n)
    (hother : ∀ i, i ≠ r → s'.machine i = s.machine i) (hchannel : s'.channel = s.channel)
    (htok : (s'.machine r).tokenizer.hasGlobalTok = (s.machine r).tokenizer.hasGlobalTok ∧
      (s'.machine r).tokenizer.globalTok = (s.machine r).tokenizer.globalTok) {x y : ℕ}
    (hcount : s'.tokCount r = s.tokCount r + x - y)
    (hnum : (s'.machine r).sending + x + k ≤ (s.machine r).sending + k')
    (hflow : (s'.machine r).receiving + y + numInFlight n s' + (s.machine r).sending =
      (s.machine r).receiving + numInFlight n s + ((s'.machine r).sending + x)) :
    Counts n k' s' (Function.update sent r (sent r + x)) (Function.update got r (got r + y)) := by
  have hsent : ∀ i, sent i ≤ Function.update sent r (sent r + x) i := by
    intro i
    rcases eq_or_ne i r with rfl | hne
    · rw [Function.update_self]
      omega
    · rw [Function.update_of_ne hne]
  have hgot : ∀ i, got i ≤ Function.update got r (got r + y) i := by
    intro i
    rcases eq_or_ne i r with rfl | hne
    · rw [Function.update_self]
      omega
    · rw [Function.update_of_ne hne]
  have hsumSent := sum_range_change (fun i => sent i + (s.machine i).sending)
    (fun i => Function.update sent r (sent r + x) i + (s'.machine i).sending) hr
    fun i hi => by rw [Function.update_of_ne hi, hother i hi]
  have hsumGot := sum_range_change (fun i => got i + (s.machine i).receiving)
    (fun i => Function.update got r (got r + y) i + (s'.machine i).receiving) hr
    fun i hi => by rw [Function.update_of_ne hi, hother i hi]
  simp only [Function.update_self] at hsumSent hsumGot
  have hnumSent := h.numSent
  have hnumGot := h.numGot
  refine ⟨fun i hi => ?_, by omega, by omega, fun i hi hhas => ?_, fun i hi tk htk => ?_⟩
  · rcases eq_or_ne i r with rfl | hne
    · rw [hcount, h.count i hi, Function.update_self, Function.update_self]
      push_cast
      ring
    · rw [tokCount, hother i hne, Function.update_of_ne hne, Function.update_of_ne hne]
      exact h.count i hi
  · have htok' : (s'.machine i).tokenizer.hasGlobalTok = (s.machine i).tokenizer.hasGlobalTok ∧
        (s'.machine i).tokenizer.globalTok = (s.machine i).tokenizer.globalTok := by
      rcases eq_or_ne i r with rfl | hne
      · exact htok
      · rw [hother i hne]
        exact ⟨rfl, rfl⟩
    rw [htok'.1] at hhas
    rw [htok'.2]
    exact (h.held i hi hhas).mono hsent hgot
  · rw [hchannel] at htk
    exact (h.flying i hi tk htk).mono hsent hgot

/-- The messages on their way when one is sent to a machine or received. -/
theorem numInFlight_setFlight {dest m : ℕ} (hdest : dest < n) :
    numInFlight n (s.setFlight dest m) + s.inFlight dest = numInFlight n s + m := by
  have hsum := sum_range_change s.inFlight (s.setFlight dest m).inFlight hdest
    fun i hi => by rw [setFlight_inFlight, Function.update_of_ne hi]
  rwa [setFlight_inFlight, Function.update_self] at hsum

@[simp] theorem numInFlight_setMachine (m : Machine) :
    numInFlight n (s.setMachine r m) = numInFlight n s := rfl

theorem numInFlight_setFlight_setMachine {dest : ℕ} (hdest : dest < n) (r m : ℕ)
    (machine : Machine) :
    numInFlight n ((s.setMachine r machine).setFlight dest m) + s.inFlight dest =
      numInFlight n s + m :=
  numInFlight_setFlight hdest

/-- A token that is on its way after a turn was so before, or was sent. -/
theorem mem_passTokens {rest : List Token} {o : Tokenizer.Outcome} {incoming : Option Token} {i : ℕ}
    (ha : Arrives s r incoming rest) (htk : tk ∈ passTokens n s r rest o i) :
    tk ∈ s.channel i ∨ (i = leftRemoteId n r ∧ o.sent = some tk) := by
  have hrest : ∀ i, tk ∈ (if o.polled then Function.update s.channel r rest else s.channel) i →
      tk ∈ s.channel i := by
    intro i hi
    split_ifs at hi
    · rcases eq_or_ne i r with rfl | hne
      · rw [Function.update_self] at hi
        cases ha with
        | none => exact hi
        | some hchannel =>
          rw [hchannel]
          exact List.mem_cons_of_mem _ hi
      · rwa [Function.update_of_ne hne] at hi
    · exact hi
  rw [passTokens] at htk
  cases hsent : o.sent with
  | none =>
    simp only [hsent] at htk
    exact .inl (hrest i htk)
  | some tok =>
    simp only [hsent] at htk
    rcases eq_or_ne i (leftRemoteId n r) with rfl | hne
    · rw [Function.update_self, List.mem_append, List.mem_singleton] at htk
      rcases htk with htk | rfl
      · exact .inl (hrest _ htk)
      · exact .inr ⟨rfl, rfl⟩
    · rw [Function.update_of_ne hne] at htk
      exact .inl (hrest i htk)

/-- A turn of the machine `r` changes where the token is. -/
theorem Counts.of_turn (h : Counts n k s sent got) {rest : List Token} {o : Tokenizer.Outcome}
    {incoming : Option Token} (ha : Arrives s r incoming rest)
    (hcount : o.tokenizer.tok.count = (s.machine r).tokenizer.tok.count)
    (hheld : o.tokenizer.hasGlobalTok = true → Collected n sent got r o.tokenizer.globalTok.count)
    (hsent : ∀ tk, o.sent = some tk → Collected n sent got (leftRemoteId n r) tk.count) :
    Counts n k (afterTurn n s r rest o) sent got := by
  have hwork : ∀ i, ((afterTurn n s r rest o).machine i).sending = (s.machine i).sending ∧
      ((afterTurn n s r rest o).machine i).receiving = (s.machine i).receiving := by
    intro i
    rcases eq_or_ne i r with rfl | hne
    · rw [afterTurn_self]
      exact ⟨rfl, rfl⟩
    · rw [afterTurn_of_ne hne]
      exact ⟨rfl, rfl⟩
  refine ⟨fun i hi => ?_, ?_, ?_, fun i hi hhas => ?_, fun i hi tk htk => ?_⟩
  · rw [← h.count i hi, tokCount, tokCount]
    rcases eq_or_ne i r with rfl | hne
    · rw [afterTurn_self]
      exact hcount
    · rw [afterTurn_of_ne hne]
  · simp only [hwork]
    exact h.numSent
  · simp only [hwork]
    exact h.numGot
  · rcases eq_or_ne i r with rfl | hne
    · rw [afterTurn_self] at hhas ⊢
      exact hheld hhas
    · rw [afterTurn_of_ne hne] at hhas ⊢
      exact h.held i hi hhas
  · rcases mem_passTokens ha htk with htk | ⟨rfl, hsome⟩
    · exact h.flying i hi tk htk
    · exact hsent tk hsome

/-! ### The turns of the machines -/

/-- What a machine with a token adds its count to. -/
theorem Counts.inRange_held (h : Counts n k s sent got) (hk : (k : ℤ) ≤ maxInt) (hr : r < n)
    (hhas : (s.machine r).tokenizer.hasGlobalTok = true) :
    Tokenizer.InRange ((s.machine r).tokenizer.globalTok.count + s.tokCount r) := by
  rw [h.count r hr]
  exact (h.held r hr hhas).inRange h hr hk

theorem Counts.inRange_flying (h : Counts n k s sent got) (hk : (k : ℤ) ≤ maxInt) (hr : r < n)
    {rest : List Token} (ha : Arrives s r (some tk) rest) :
    Tokenizer.InRange (tk.count + s.tokCount r) := by
  have htk : tk ∈ s.channel r := by
    cases ha with
    | some hchannel => exact hchannel ▸ List.mem_cons_self
  rw [h.count r hr]
  exact (h.flying r hr tk htk).inRange h hr hk

/-- No turn of the busy loop fails. -/
theorem Counts.busyLoop_returns (h : Counts n k s sent got)
    (hk : (k : ℤ) ≤ maxInt) (hr : r < n) {incoming : Option Token} {rest : List Token}
    (ha : Arrives s r incoming rest) :
    ∃ o, Tokenizer.busyLoopToken (r == 0) (1 < n) (!(s.machine r).active) false incoming
      (s.machine r).tokenizer = .ok o := by
  cases hhas : (s.machine r).tokenizer.hasGlobalTok with
  | true =>
    have hrange := h.inRange_held hk hr hhas
    cases (s.machine r).active with
    | true => exact ⟨_, Tokenizer.busyLoopToken_keep hhas⟩
    | false =>
      cases r == 0 with
      | true =>
        cases decide (1 < n) with
        | true => exact ⟨_, Tokenizer.busyLoopToken_start hhas⟩
        | false => exact ⟨_, Tokenizer.busyLoopToken_alone hhas⟩
      | false => exact ⟨_, Tokenizer.busyLoopToken_release hhas hrange⟩
  | false =>
    cases incoming with
    | none => exact ⟨_, Tokenizer.busyLoopToken_none hhas⟩
    | some tk =>
      have hrange := h.inRange_flying hk hr ha
      cases (s.machine r).active with
      | true => exact ⟨_, Tokenizer.busyLoopToken_take hhas⟩
      | false =>
        cases r == 0 with
        | true =>
          by_cases hover : (s.machine r).tokenizer.IsOver tk
          · exact ⟨_, Tokenizer.busyLoopToken_conclude hhas hover hrange⟩
          · exact ⟨_, Tokenizer.busyLoopToken_restart hhas hover hrange⟩
        | false => exact ⟨_, Tokenizer.busyLoopToken_pass hhas hrange⟩

/-- A turn that does nothing. -/
theorem afterTurn_stay {rest : List Token} {polled : Bool} {incoming : Option Token}
    (ha : Arrives s r incoming rest) (hpolled : polled = true → incoming = none) :
    afterTurn n s r rest ⟨(s.machine r).tokenizer, polled, none, true⟩ = s := by
  have hchannel : passTokens n s r rest ⟨(s.machine r).tokenizer, polled, none, true⟩ =
      s.channel := by
    cases polled with
    | false => rfl
    | true =>
      obtain rfl := hpolled rfl
      cases ha
      exact Function.update_eq_self _ _
  rw [afterTurn, hchannel]
  have hmachine : Function.update s.machine r ((s.machine r).setTokenizer (s.machine r).tokenizer) =
      s.machine := Function.update_eq_self _ _
  rw [setMachine, hmachine]
  rfl

/-- The counts stay exact in a turn of the busy loop. -/
theorem Counts.busyLoop (h : Counts n k s sent got) (hk : (k : ℤ) ≤ maxInt)
    (hr : r < n) {rest : List Token} {o : Tokenizer.Outcome} (hloop : BusyLoop n s r rest o)
    (hresult : o.result = true) : Counts n k (afterTurn n s r rest o) sent got := by
  obtain ⟨incoming, ha, hrun⟩ := hloop
  have hcount := h.count r hr
  have hflying : ∀ tk, incoming = some tk → Collected n sent got r tk.count := by
    rintro tk rfl
    cases ha with
    | some hchannel => exact h.flying r hr tk (hchannel ▸ List.mem_cons_self)
  have hturn := Tokenizer.busyLoopToken_turn hrun hresult
  cases hturn with
  | stay hpolled =>
    rw [afterTurn_stay ha hpolled]
    exact h
  | fetch hidle hhas =>
    exact h.of_turn ha rfl (fun _ => hflying _ rfl) (by simp)
  | start hleader hhas =>
    refine h.of_turn ha rfl (by simp) fun tk htk => ?_
    obtain rfl := Option.some.inj htk
    exact collected_zero
  | restart hleader hhas =>
    refine h.of_turn ha rfl (by simp) fun tk htk => ?_
    obtain rfl := Option.some.inj htk
    exact collected_zero
  | release hidle hleader hhas hblack =>
    have hr0 : r ≠ 0 := beq_eq_false_iff_ne.mp hleader
    rw [hidle, hleader, Tokenizer.busyLoopToken_release hhas (h.inRange_held hk hr hhas)] at hrun
    cases hrun
    refine h.of_turn ha rfl (by simp) fun tk htk => ?_
    obtain rfl := Option.some.inj htk
    rw [leftRemoteId, if_neg hr0]
    have hpass := (h.held r hr hhas).pass hr hr0
    rwa [← hcount] at hpass
  | pass hidle hleader hhas hsum hwhite =>
    have hr0 : r ≠ 0 := beq_eq_false_iff_ne.mp hleader
    refine h.of_turn ha rfl (by simp) fun tk htk => ?_
    obtain rfl := Option.some.inj htk
    rw [leftRemoteId, if_neg hr0, hsum]
    have hpass := (hflying _ rfl).pass hr hr0
    rwa [← hcount] at hpass

/-- The counts stay exact in every step. -/
theorem Counts.step (h : Counts n k s sent got)
    (hk : ((k + (numInFlight n s' - numInFlight n s) : ℕ) : ℤ) ≤ maxInt) (hstep : Step n s s') :
    ∃ sent' got', Counts n (k + (numInFlight n s' - numInFlight n s)) s' sent' got' := by
  cases hstep with
  | @transmit r dest hr hdest hne hactive =>
    have hflight := numInFlight_setFlight_setMachine (s := s) hdest r (s.inFlight dest + 1)
      (s.machine r).transmit
    have hother : ∀ i, i ≠ r → ((s.setMachine r (s.machine r).transmit).setFlight dest
        (s.inFlight dest + 1)).machine i = s.machine i := fun i => setMachine_of_ne
    refine ⟨_, _, h.of_machine hr hother rfl ?_ (x := 0) (y := 0) ?_ ?_ ?_⟩
    · rw [setFlight_machine, setMachine_self]
      exact ⟨rfl, rfl⟩
    · rw [tokCount, tokCount, setFlight_machine, setMachine_self, Machine.transmit]
      simp
    · simp only [setFlight_machine, setMachine_self, Machine.transmit] at hflight ⊢
      omega
    · simp only [setFlight_machine, setMachine_self, Machine.transmit] at hflight ⊢
      omega
  | @transmitted r total tokenizer hr hpos hle hint htok =>
    obtain ⟨htokenizer, -⟩ := Tokenizer.messagesTransmitted_eq_ok hint htok
    refine ⟨_, _, h.of_machine hr (fun i => setMachine_of_ne) rfl ?_ (x := total) (y := 0) ?_ ?_
      ?_⟩
    · rw [setMachine_self, Machine.transmitted, htokenizer]
      exact ⟨rfl, rfl⟩
    · rw [tokCount, tokCount, setMachine_self, Machine.transmitted, htokenizer]
      simp
    · simp only [setMachine_self, Machine.transmitted, numInFlight_setMachine]
      omega
    · simp only [setMachine_self, Machine.transmitted, numInFlight_setMachine]
      omega
  | @receive r hr hpos =>
    have hflight := numInFlight_setFlight_setMachine (s := s) hr r (s.inFlight r - 1)
      (s.machine r).receive
    have hother : ∀ i, i ≠ r → ((s.setMachine r (s.machine r).receive).setFlight r
        (s.inFlight r - 1)).machine i = s.machine i := fun i => setMachine_of_ne
    refine ⟨_, _, h.of_machine hr hother rfl ?_ (x := 0) (y := 0) ?_ ?_ ?_⟩
    · rw [setFlight_machine, setMachine_self]
      exact ⟨rfl, rfl⟩
    · rw [tokCount, tokCount, setFlight_machine, setMachine_self, Machine.receive]
      simp
    · simp only [setFlight_machine, setMachine_self, Machine.receive] at hflight ⊢
      omega
    · simp only [setFlight_machine, setMachine_self, Machine.receive] at hflight ⊢
      omega
  | @received r total hr hpos hle =>
    -- the subtraction does not wrap around: not so many messages were received
    have hlow : -maxInt - 1 ≤ s.tokCount r - total := by
      have hnumGot := h.numGot
      have hnumSent := h.numSent
      have hone : got r + (s.machine r).receiving ≤
          ∑ i ∈ Finset.range n, (got i + (s.machine i).receiving) :=
        Finset.single_le_sum (f := fun i => got i + (s.machine i).receiving)
          (fun i _ => Nat.zero_le _) (Finset.mem_range.mpr hr)
      rw [h.count r hr]
      omega
    have hhigh : s.tokCount r - total ≤ maxInt := by
      have hnumSent := h.numSent
      have hone : sent r + (s.machine r).sending ≤
          ∑ i ∈ Finset.range n, (sent i + (s.machine i).sending) :=
        Finset.single_le_sum (f := fun i => sent i + (s.machine i).sending)
          (fun i _ => Nat.zero_le _) (Finset.mem_range.mpr hr)
      rw [h.count r hr]
      omega
    refine ⟨_, _, h.of_machine hr (fun i => setMachine_of_ne) rfl ?_ (x := 0) (y := total) ?_ ?_
      ?_⟩
    · rw [setMachine_self]
      exact ⟨rfl, rfl⟩
    · rw [tokCount, setMachine_self]
      have hwrap : wrap32 (s.tokCount r - total) = s.tokCount r - total :=
        wrap32_of_mem hlow hhigh
      rw [Nat.cast_zero, add_zero]
      exact hwrap
    · simp only [setMachine_self, Machine.received, numInFlight_setMachine]
      omega
    · simp only [setMachine_self, Machine.received, numInFlight_setMachine]
      omega
  | @idle r hr hsending hreceiving =>
    refine ⟨_, _, h.of_machine hr (fun i => setMachine_of_ne) rfl ?_ (x := 0) (y := 0) ?_ ?_ ?_⟩
    · rw [setMachine_self]
      exact ⟨rfl, rfl⟩
    · rw [tokCount, tokCount, setMachine_self, Machine.idle]
      simp
    · simp only [setMachine_self, Machine.idle, numInFlight_setMachine]
      omega
    · simp only [setMachine_self, Machine.idle, numInFlight_setMachine]
      omega
  | @busyLoop r rest o hr hloop hresult =>
    have hflight : numInFlight n ((s.setMachine r ((s.machine r).setTokenizer
        o.tokenizer)).setChannel (passTokens n s r rest o)) = numInFlight n s := rfl
    rw [hflight, Nat.sub_self, Nat.add_zero] at hk ⊢
    exact ⟨sent, got, h.busyLoop hk hr hloop hresult⟩

theorem Reached.counts (h : Reached n k s) (hk : (k : ℤ) ≤ maxInt) :
    ∃ sent got, Counts n k s sent got := by
  induction h with
  | init h => exact ⟨_, _, Counts.init h⟩
  | step _ hstep ih =>
    obtain ⟨sent, got, hcounts⟩ := ih (by omega)
    exact hcounts.step hk hstep

/-- Whatever part of its messages a machine counts next, `transmitted` and `received` stay in the
range of an `int`. -/
theorem Counts.counters_inRange (hc : Counts n k s sent got) (hk : (k : ℤ) ≤ maxInt) (hr : r < n) :
    (∀ total ≤ (s.machine r).sending, (total : ℤ) ≤ maxInt ∧
      Tokenizer.InRange (s.tokCount r + total)) ∧
    ∀ total ≤ (s.machine r).receiving, Tokenizer.InRange (s.tokCount r - total) := by
  have hmem := Finset.mem_range.mpr hr
  have hsent := Finset.single_le_sum
    (f := fun i => sent i + (s.machine i).sending) (fun _ _ => Nat.zero_le _) hmem
  have hgot := Finset.single_le_sum
    (f := fun i => got i + (s.machine i).receiving) (fun _ _ => Nat.zero_le _) hmem
  have hnumSent := hc.numSent
  have hnumGot := hc.numGot
  rw [hc.count r hr]
  simp only [Tokenizer.InRange, maxInt] at hk ⊢
  refine ⟨fun total htotal => ?_, fun total htotal => ?_⟩
  · omega
  · omega

/-- The counters of a machine never overflow. -/
theorem Counts.counted_exactly (hc : Counts n k s sent got) (hk : (k : ℤ) ≤ maxInt) (hr : r < n) :
    (∀ total ≤ (s.machine r).sending, (total : ℤ) ≤ maxInt ∧ ∃ tokenizer,
      (s.machine r).tokenizer.messagesTransmitted total = .ok tokenizer ∧
        tokenizer.tok.count = s.tokCount r + total) ∧
    ∀ total ≤ (s.machine r).receiving,
      ((s.machine r).tokenizer.messagesReceived total).tok.count = s.tokCount r - total := by
  obtain ⟨hsending, hreceiving⟩ := hc.counters_inRange hk hr
  refine ⟨fun total htotal => ?_, fun total htotal => ?_⟩
  · obtain ⟨hint, hlow, hhigh⟩ := hsending total htotal
    refine ⟨hint, { (s.machine r).tokenizer with
      tok := ⟨(s.machine r).tokenizer.tok.white, s.tokCount r + total⟩ }, ?_, rfl⟩
    have hwrap : wrap32 total = total := wrap32_of_mem (by simp only [maxInt]; omega) hint
    have hadd : addInt (s.machine r).tokenizer.tok.count total = .ok (s.tokCount r + total) :=
      addInt_of_mem hlow hhigh
    rw [Tokenizer.messagesTransmitted, Token.transmitted, hwrap, hadd]
    rfl
  · obtain ⟨hlow, hhigh⟩ := hreceiving total htotal
    exact wrap32_of_mem hlow hhigh

/-! ### When all is quiet -/

/-- All machines are idle, and no message is on its way. -/
structure Quiet (n : ℕ) (s : Ring) : Prop where
  idle : ∀ r < n, (s.machine r).active = false
  empty : ∀ r < n, s.inFlight r = 0

/-- The machine has received nothing since it last passed the token on. -/
def White (s : Ring) (i : ℕ) : Prop := (s.machine i).tokenizer.tok.white = true

/-- How often the token still moves before the leader finds the iteration over. -/
inductive Remaining (n : ℕ) (s : Ring) : ℕ → Prop
  /-- the token is on the round that finds the end -/
  | last {t : ℕ} {tk : Token} (ht : t < n) (h : Flying n s t tk) (hwhite : tk.white = true)
    (hcount : tk.count = ∑ i ∈ Finset.Ico (t + 1) n, s.tokCount i)
    (hmachines : ∀ i ≤ t, s.White i) : Remaining n s t
  /-- the machines that the token has visited are white -/
  | washing {t : ℕ} (ht : t < n)
    (h : (∃ tk, Flying n s t tk) ∨ Held n s t ∧ (t = 0 ∨ s.White t))
    (hmachines : ∀ i, t < i → i < n → s.White i) : Remaining n s (n + t)
  | dirty {t : ℕ} (ht : t < n) (h : (∃ tk, Flying n s t tk) ∨ Held n s t) :
    Remaining n s (2 * n + t)

theorem Inv.exists_remaining (h : Inv n s) (hpos : 0 < n) : ∃ m < 3 * n, Remaining n s m := by
  cases h.token with
  | leader h => exact ⟨2 * n + 0, by omega, .dirty hpos (.inr h)⟩
  | @held t ht h hsafe => exact ⟨2 * n + t, by omega, .dirty ht (.inr h)⟩
  | @flying t tk ht h hsafe => exact ⟨2 * n + t, by omega, .dirty ht (.inl ⟨tk, h⟩)⟩

/-! ### There is one token -/

theorem Flying.not_held (h : Flying n s t tk) {t' : ℕ} (ht' : t' < n) : ¬ Held n s t' := by
  intro h'
  have hhas := (h'.held t' ht').mpr rfl
  rw [h.held t' ht'] at hhas
  cases hhas

theorem Flying.unique (h : Flying n s t tk) {t' : ℕ} {tk' : Token} (ht' : t' < n)
    (h' : Flying n s t' tk') : t' = t ∧ tk' = tk := by
  have htt : t' = t := by
    by_contra hne
    have hempty := h.others t' ht' hne
    rw [h'.channel] at hempty
    cases hempty
  subst htt
  have hchannel := h'.channel.symm.trans h.channel
  exact ⟨rfl, (List.cons.inj hchannel).1⟩

theorem Held.unique (h : Held n s t) {t' : ℕ} (ht' : t' < n) (h' : Held n s t') : t' = t :=
  (h.held t' ht').mp ((h'.held t' ht').mpr rfl)

/-! ### The token moves -/

theorem white_afterTurn_self {rest : List Token} {o : Tokenizer.Outcome} :
    (afterTurn n s r rest o).White r ↔ o.tokenizer.tok.white = true := by
  rw [White, afterTurn_self]
  rfl

theorem white_afterTurn_of_ne {rest : List Token} {o : Tokenizer.Outcome} {i : ℕ} (hi : i ≠ r) :
    (afterTurn n s r rest o).White i ↔ s.White i := by
  rw [White, afterTurn_of_ne hi]
  rfl

theorem tokCount_afterTurn {rest : List Token} {o : Tokenizer.Outcome}
    (hcount : o.tokenizer.tok.count = (s.machine r).tokenizer.tok.count) (i : ℕ) :
    (afterTurn n s r rest o).tokCount i = s.tokCount i := by
  rw [tokCount, tokCount]
  rcases eq_or_ne i r with rfl | hne
  · rw [afterTurn_self]
    exact hcount
  · rw [afterTurn_of_ne hne]

/-- The leader sends a fresh token, which it had or which came to it. -/
theorem Remaining.restart {m : ℕ} (h : Remaining n s m) {rest : List Token} {o : Tokenizer.Outcome}
    (hpos : 0 < n) (hat : Held n s 0 ∨ ∃ tk, Flying n s 0 tk) (hlast : ¬ Remaining n s 0)
    (hwhite : o.tokenizer.tok.white = true)
    (hflying : Flying n (afterTurn n s 0 rest o) (leftRemoteId n 0) ⟨true, 0⟩) :
    ∃ m' < m, Remaining n (afterTurn n s 0 rest o) m' := by
  have hleft : leftRemoteId n 0 + 1 = n := Nat.sub_add_cancel hpos
  have hlt : leftRemoteId n 0 < n := leftRemoteId_lt hpos
  have hzero {t : ℕ} (ht : t < n) (h : (∃ tk, Flying n s t tk) ∨ Held n s t) : t = 0 := by
    rcases hat with hheld | ⟨tk, hfly⟩
    · rcases h with ⟨tk, h⟩ | h
      · exact absurd hheld (h.not_held hpos)
      · exact hheld.unique ht h
    · rcases h with ⟨tk', h⟩ | h
      · exact (hfly.unique ht h).1
      · exact absurd h (hfly.not_held ht)
  cases h with
  | @last t tk ht h hwhite' hcount hmachines =>
    obtain rfl := hzero ht (.inl ⟨tk, h⟩)
    exact absurd (.last ht h hwhite' hcount hmachines) hlast
  | @washing t ht h hmachines =>
    obtain rfl := hzero ht (h.imp_right And.left)
    -- all machines are white, and the round starts with none visited
    refine ⟨leftRemoteId n 0, by omega, .last hlt hflying rfl ?_ fun i hi => ?_⟩
    · rw [hleft, Finset.Ico_self, Finset.sum_empty]
    · rcases Nat.eq_zero_or_pos i with rfl | hi0
      · exact white_afterTurn_self.mpr hwhite
      · exact (white_afterTurn_of_ne hi0.ne').mpr (hmachines i hi0 (by omega))
  | @dirty t ht h =>
    obtain rfl := hzero ht h
    exact ⟨n + leftRemoteId n 0, by omega,
      .washing hlt (.inl ⟨_, hflying⟩) fun i hi hin => by omega⟩

/-- Another machine passes the token on that it has. -/
theorem Remaining.release {m : ℕ} (h : Remaining n s m) {rest : List Token} {o : Tokenizer.Outcome}
    (hr : r < n) (hr0 : r ≠ 0) (hheld : Held n s r)
    (htok : o.tokenizer.tok = (s.machine r).tokenizer.tok)
    (hflying : Flying n (afterTurn n s r rest o) (leftRemoteId n r) tk) :
    ∃ m' < m, Remaining n (afterTurn n s r rest o) m' := by
  have hpred : r - 1 < n := by omega
  rw [leftRemoteId, if_neg hr0] at hflying
  cases h with
  | @last t tk ht h _ _ _ => exact absurd hheld (h.not_held hr)
  | @washing t ht h hmachines =>
    rcases h with ⟨tk', h⟩ | ⟨h, hwhite⟩
    · exact absurd hheld (h.not_held hr)
    · obtain rfl := hheld.unique ht h
      have hself : s.White t := hwhite.resolve_left hr0
      refine ⟨n + (t - 1), by omega, .washing hpred (.inl ⟨_, hflying⟩) fun i hi hin => ?_⟩
      rcases eq_or_ne i t with rfl | hne
      · rw [white_afterTurn_self, htok]
        exact hself
      · exact (white_afterTurn_of_ne hne).mpr (hmachines i (by omega) hin)
  | @dirty t ht h =>
    rcases h with ⟨tk', h⟩ | h
    · exact absurd hheld (h.not_held hr)
    · obtain rfl := hheld.unique ht h
      exact ⟨2 * n + (t - 1), by omega, .dirty hpred (.inl ⟨_, hflying⟩)⟩

/-- Another machine passes the token on that comes, and becomes white. -/
theorem Remaining.pass {m : ℕ} (h : Remaining n s m) {rest : List Token} {o : Tokenizer.Outcome}
    {tk' : Token} (hr : r < n) (hr0 : r ≠ 0) (hfly : Flying n s r tk)
    (hwhite : o.tokenizer.tok.white = true)
    (hcount : o.tokenizer.tok.count = (s.machine r).tokenizer.tok.count)
    (hflying : Flying n (afterTurn n s r rest o) (leftRemoteId n r) tk')
    (htk : tk' = ⟨(s.machine r).tokenizer.tok.white && tk.white, tk.count + s.tokCount r⟩) :
    ∃ m' < m, Remaining n (afterTurn n s r rest o) m' := by
  have hpred : r - 1 < n := by omega
  have hsucc : r - 1 + 1 = r := Nat.sub_add_cancel (Nat.pos_of_ne_zero hr0)
  rw [leftRemoteId, if_neg hr0] at hflying
  cases h with
  | @last _ tk₁ ht h hwhite' hcount' hmachines =>
    obtain ⟨rfl, rfl⟩ := hfly.unique ht h
    refine ⟨m - 1, by omega, .last hpred hflying ?_ ?_ fun i hi => ?_⟩
    · have hself : (s.machine m).tokenizer.tok.white = true := hmachines m le_rfl
      rw [htk, hself, hwhite']
      rfl
    · simp only [tokCount_afterTurn hcount]
      rw [htk, hsucc, Finset.sum_eq_sum_Ico_succ_bot hr, ← hcount', add_comm]
    · exact (white_afterTurn_of_ne (by omega)).mpr (hmachines i (by omega))
  | @washing t ht h hmachines =>
    rcases h with ⟨tk', h⟩ | ⟨h, -⟩
    · obtain ⟨rfl, rfl⟩ := hfly.unique ht h
      refine ⟨n + (t - 1), by omega, .washing hpred (.inl ⟨_, hflying⟩) fun i hi hin => ?_⟩
      rcases eq_or_ne i t with rfl | hne
      · exact white_afterTurn_self.mpr hwhite
      · exact (white_afterTurn_of_ne hne).mpr (hmachines i (by omega) hin)
    · exact absurd h (hfly.not_held ht)
  | @dirty t ht h =>
    rcases h with ⟨tk', h⟩ | h
    · obtain ⟨rfl, rfl⟩ := hfly.unique ht h
      exact ⟨2 * n + (t - 1), by omega, .dirty hpred (.inl ⟨_, hflying⟩)⟩
    · exact absurd h (hfly.not_held ht)

/-! ### Runs of a quiet ring -/

/-- A quiet ring with exact counts. -/
structure Settled (n : ℕ) (s : Ring) : Prop where
  inv : Inv n s
  quiet : Quiet n s
  counts : ∃ (k : ℕ) (sent got : ℕ → ℕ), (k : ℤ) ≤ maxInt ∧ Counts n k s sent got

/-- The sum of the counts is zero: what was sent was received, and all of it was counted. -/
theorem Settled.sum_tokCount (h : Settled n s) : ∑ i ∈ Finset.range n, s.tokCount i = 0 := by
  obtain ⟨k, sent, got, -, hc⟩ := h.counts
  have hnum := hc.numGot
  have hflight : numInFlight n s = 0 :=
    Finset.sum_eq_zero fun i hi => h.quiet.empty i (Finset.mem_range.mp hi)
  have hwork : ∀ i ∈ Finset.range n, (s.machine i).sending = 0 ∧ (s.machine i).receiving = 0 :=
    fun i hi => h.inv.quiet i (Finset.mem_range.mp hi) (h.quiet.idle i (Finset.mem_range.mp hi))
  rw [hflight, Nat.add_zero,
    Finset.sum_congr rfl fun i hi => congrArg (got i + ·) (hwork i hi).2,
    Finset.sum_congr rfl fun i hi => congrArg (sent i + ·) (hwork i hi).1] at hnum
  simp only [Nat.add_zero] at hnum
  rw [Finset.sum_congr rfl fun i hi => hc.count i (Finset.mem_range.mp hi),
    Finset.sum_sub_distrib, ← Nat.cast_sum, ← Nat.cast_sum, hnum, sub_self]

/-- When nothing is left, the leader finds the iteration over. -/
theorem Settled.isOver (h : Settled n s) (hpos : 0 < n) (hlast : Remaining n s 0)
    (hfly : Flying n s 0 tk) : (s.machine 0).tokenizer.IsOver tk := by
  generalize hm : 0 = m at hlast
  cases hlast with
  | @last t tk' ht h' hwhite hcount hmachines =>
    subst hm
    obtain ⟨-, rfl⟩ := hfly.unique hpos h'
    refine ⟨hwhite, ?_, hmachines 0 le_rfl⟩
    have hsum := h.sum_tokCount
    rw [Finset.range_eq_Ico, Finset.sum_eq_sum_Ico_succ_bot hpos, ← hcount, add_comm] at hsum
    exact hsum
  | @washing t ht _ _ => omega
  | @dirty t ht _ => omega

/-- A turn of the machine that has the token, or to which it comes, finds the iteration over or
takes the token further. -/
theorem Settled.move (h : Settled n s) {m : ℕ} (hrem : Remaining n s m) (hr : r < n)
    {incoming : Option Token} {rest : List Token} {o : Tokenizer.Outcome}
    (ha : Arrives s r incoming rest)
    (hrun : Tokenizer.busyLoopToken (r == 0) (1 < n) (!(s.machine r).active) false incoming
      (s.machine r).tokenizer = .ok o)
    (hmove : (s.machine r).tokenizer.hasGlobalTok = true ∨ ∃ tk, incoming = some tk) :
    (r = 0 ∧ o.result = false) ∨
      (o.result = true ∧ ∃ m' < m, Remaining n (afterTurn n s r rest o) m') := by
  obtain ⟨k, sent, got, hk, hc⟩ := h.counts
  have hpos : 0 < n := Nat.zero_lt_of_lt hr
  have hidle : (!(s.machine r).active) = true := by rw [h.quiet.idle r hr]; rfl
  rw [hidle] at hrun
  cases hhas : (s.machine r).tokenizer.hasGlobalTok with
  | true =>
    obtain ⟨hheld, -⟩ := h.inv.token.held_of_has hr hhas
    have hothers : ∀ i < n, i ≠ r → (s.machine i).tokenizer.hasGlobalTok = false :=
      fun i hi hne => Bool.eq_false_iff.mpr fun hi' => hne ((hheld.held i hi).mp hi')
    rcases eq_or_ne r 0 with rfl | hr0
    · rcases Nat.lt_or_ge 1 n with hmpi | halone
      · rw [decide_eq_true hmpi, beq_self_eq_true, Tokenizer.busyLoopToken_start hhas] at hrun
        cases hrun
        -- a token that has come round is on its way, not at the leader
        have hlast : ¬ Remaining n s 0 := by
          intro hlast
          generalize hm : 0 = m' at hlast
          cases hlast with
          | last ht hfly _ _ _ => exact hfly.not_held hr hheld
          | washing ht _ _ => omega
          | dirty ht _ => omega
        exact .inr ⟨rfl, hrem.restart hpos (.inl hheld) hlast rfl
          (.of_send hr hheld.channel rfl rfl hothers)⟩
      · rw [decide_eq_false (not_lt.mpr halone), beq_self_eq_true,
          Tokenizer.busyLoopToken_alone hhas] at hrun
        cases hrun
        exact .inl ⟨rfl, rfl⟩
    · rw [beq_eq_false_iff_ne.mpr hr0,
        Tokenizer.busyLoopToken_release hhas (hc.inRange_held hk hr hhas)] at hrun
      cases hrun
      exact .inr ⟨rfl, hrem.release hr hr0 hheld rfl
        (.of_send hr hheld.channel rfl rfl hothers)⟩
  | false =>
    obtain ⟨tk, rfl⟩ := hmove.resolve_left (by rw [hhas]; simp)
    obtain ⟨hfly, -, rfl⟩ := h.inv.token.flying_of_arrives hr ha
    have hrange := hc.inRange_flying hk hr ha
    have hothers : ∀ i < n, i ≠ r → (s.machine i).tokenizer.hasGlobalTok = false :=
      fun i hi _ => hfly.held i hi
    rcases eq_or_ne r 0 with rfl | hr0
    · rw [beq_self_eq_true] at hrun
      by_cases hover : (s.machine 0).tokenizer.IsOver tk
      · rw [Tokenizer.busyLoopToken_conclude hhas hover hrange] at hrun
        cases hrun
        exact .inl ⟨rfl, rfl⟩
      · rw [Tokenizer.busyLoopToken_restart hhas hover hrange] at hrun
        cases hrun
        exact .inr ⟨rfl, hrem.restart hpos (.inr ⟨tk, hfly⟩)
          (fun hlast => hover (h.isOver hpos hlast hfly)) rfl
          (.of_send hr hfly.update_nil rfl rfl hothers)⟩
    · rw [beq_eq_false_iff_ne.mpr hr0, Tokenizer.busyLoopToken_pass hhas hrange] at hrun
      cases hrun
      exact .inr ⟨rfl, hrem.pass hr hr0 hfly rfl rfl
        (.of_send hr hfly.update_nil rfl rfl hothers) rfl⟩

/-- Once all is quiet only the turns of the busy loop change anything. -/
theorem Settled.step_cases (h : Settled n s) (hstep : Step n s s') :
    s' = s ∨ ∃ r incoming rest o, r < n ∧ Arrives s r incoming rest ∧
      Tokenizer.busyLoopToken (r == 0) (1 < n) (!(s.machine r).active) false incoming
        (s.machine r).tokenizer = .ok o ∧ o.result = true ∧ s' = afterTurn n s r rest o ∧
      ((s.machine r).tokenizer.hasGlobalTok = true ∨ ∃ tk, incoming = some tk) := by
  cases hstep with
  | transmit hr _ _ hactive =>
    rw [h.quiet.idle _ hr] at hactive
    cases hactive
  | transmitted hr hpos hle _ _ =>
    have := (h.inv.quiet _ hr (h.quiet.idle _ hr)).1
    omega
  | receive hr hpos =>
    have := h.quiet.empty _ hr
    omega
  | received hr hpos hle =>
    have := (h.inv.quiet _ hr (h.quiet.idle _ hr)).2
    omega
  | @idle r hr _ _ =>
    have hidle : (s.machine r).idle = s.machine r := by
      rw [Machine.idle, ← h.quiet.idle r hr]
    rw [hidle, setMachine, Function.update_eq_self]
    exact .inl rfl
  | @busyLoop r rest o hr hloop hresult =>
    obtain ⟨incoming, ha, hrun⟩ := hloop
    by_cases hmove : (s.machine r).tokenizer.hasGlobalTok = true ∨ ∃ tk, incoming = some tk
    · exact .inr ⟨r, incoming, rest, o, hr, ha, hrun, hresult, rfl, hmove⟩
    · rw [not_or, Bool.not_eq_true, not_exists] at hmove
      obtain rfl : incoming = none := Option.eq_none_iff_forall_ne_some.mpr hmove.2
      rw [Tokenizer.busyLoopToken_none hmove.1] at hrun
      cases hrun
      exact .inl (afterTurn_stay ha fun _ => rfl)

theorem Settled.step (h : Settled n s) (hstep : Step n s s') : Settled n s' := by
  rcases h.step_cases hstep with rfl | ⟨r, incoming, rest, o, hr, ha, hrun, hresult, rfl, -⟩
  · exact h
  · obtain ⟨k, sent, got, hk, hc⟩ := h.counts
    refine ⟨h.inv.step hstep, ⟨fun i hi => ?_, h.quiet.empty⟩,
      k, sent, got, hk, hc.busyLoop hk hr ⟨incoming, ha, hrun⟩ hresult⟩
    rcases eq_or_ne i r with rfl | hne
    · rw [afterTurn_self]
      exact h.quiet.idle i hi
    · rw [afterTurn_of_ne hne]
      exact h.quiet.idle i hi

end Ring

/-- The steps of the ring that change something. -/
def moves (n : ℕ) : System Ring := ⟨Ring.Init n, fun s s' => Ring.Step n s s' ∧ s' ≠ s⟩

namespace Ring

variable {n : ℕ} {s s' : Ring}

/-- Every step that changes something brings the end nearer. -/
theorem Settled.run (h : Settled n s) {j m : ℕ} (hrem : Remaining n s m)
    (hrun : (moves n).Run j s s') : Settled n s' ∧ ∃ m', m' + j ≤ m ∧ Remaining n s' m' := by
  induction hrun with
  | refl => exact ⟨h, m, le_rfl, hrem⟩
  | tail _ hstep ih =>
    obtain ⟨hsettled, m', hle, hrem'⟩ := ih h hrem
    refine ⟨hsettled.step hstep.1, ?_⟩
    rcases hsettled.step_cases hstep.1 with
      heq | ⟨r, incoming, rest, o, hr, ha, hturn, hresult, rfl, hmove⟩
    · exact absurd heq hstep.2
    · rcases hsettled.move hrem' hr ha hturn hmove with ⟨-, hfalse⟩ | ⟨-, m'', hlt, hrem''⟩
      · rw [hresult] at hfalse
        cases hfalse
      · exact ⟨m'', by omega, hrem''⟩

/-- When no step changes anything, the next turn of the leader finds the iteration over. -/
theorem Settled.concludes (h : Settled n s) (hpos : 0 < n) (hstuck : (moves n).Stuck s) :
    ∃ rest o, BusyLoop n s 0 rest o ∧ o.result = false := by
  classical
  obtain ⟨k, sent, got, hk, hc⟩ := h.counts
  -- the machine that has the token, or to which it comes
  have hturn : ∃ r incoming rest, r < n ∧ Arrives s r incoming rest ∧
      ((s.machine r).tokenizer.hasGlobalTok = true ∨ ∃ tk, incoming = some tk) := by
    cases h.inv.token with
    | leader hheld => exact ⟨0, none, _, hpos, .none, .inl ((hheld.held 0 hpos).mpr rfl)⟩
    | held ht hheld _ => exact ⟨_, none, _, ht, .none, .inl ((hheld.held _ ht).mpr rfl)⟩
    | flying ht hfly _ => exact ⟨_, _, _, ht, .some hfly.channel, .inr ⟨_, rfl⟩⟩
  obtain ⟨r, incoming, rest, hr, ha, hmove⟩ := hturn
  obtain ⟨o, hrun⟩ := hc.busyLoop_returns hk hr ha
  -- the least number of moves that may be left
  obtain ⟨m, -, hrem⟩ := h.inv.exists_remaining hpos
  have hex : ∃ m, Remaining n s m := ⟨m, hrem⟩
  rcases h.move (Nat.find_spec hex) hr ha hrun hmove with ⟨rfl, hresult⟩ | ⟨hresult, m', hlt, hrem'⟩
  · exact ⟨rest, o, ⟨incoming, ha, hrun⟩, hresult⟩
  · refine absurd ⟨.busyLoop hr ⟨incoming, ha, hrun⟩ hresult, fun heq => ?_⟩
      (hstuck (afterTurn n s r rest o))
    have hrem'' : Remaining n s m' := heq ▸ hrem'
    exact Nat.find_min hex hlt hrem''

end Ring

/-- In every run in which no more messages are sent than an `int` can count, no counter of a token
overflows, whatever part of its messages a machine counts next, and no turn of the busy loop fails.
Once all machines are idle and no message is on its way, fewer than `3 * n` steps change anything,
and when none does the turn of the leader finds the iteration over. -/
theorem end_detected (n k : ℕ) (hpos : 0 < n) (hk : (k : ℤ) ≤ maxInt) (s : Ring)
    (h : Ring.Reached n k s) :
    (∀ r < n, (∀ total ≤ (s.machine r).sending, (total : ℤ) ≤ maxInt ∧ ∃ tokenizer,
        (s.machine r).tokenizer.messagesTransmitted total = .ok tokenizer ∧
          tokenizer.tok.count = s.tokCount r + total) ∧
      ∀ total ≤ (s.machine r).receiving,
        ((s.machine r).tokenizer.messagesReceived total).tok.count = s.tokCount r - total) ∧
    (∀ r < n, ∀ incoming rest, Ring.Arrives s r incoming rest →
      ∃ o, Tokenizer.busyLoopToken (r == 0) (1 < n) (!(s.machine r).active) false incoming
        (s.machine r).tokenizer = .ok o) ∧
    (Ring.Quiet n s → ∀ j s', (moves n).Run j s s' → j < 3 * n ∧ ((moves n).Stuck s' →
      ∃ rest o, Ring.BusyLoop n s' 0 rest o ∧ o.result = false)) := by
  have hinv : Ring.Inv n s :=
    h.reachable.invariant (fun _ => Ring.Inv.init hpos) fun _ _ => Ring.Inv.step
  obtain ⟨sent, got, hc⟩ := h.counts hk
  refine ⟨fun r hr => hc.counted_exactly hk hr,
    fun r hr incoming rest ha => hc.busyLoop_returns hk hr ha, fun hquiet j s' hrun => ?_⟩
  have hsettled : Ring.Settled n s := ⟨hinv, hquiet, k, sent, got, hk, hc⟩
  obtain ⟨m, hlt, hrem⟩ := hinv.exists_remaining hpos
  obtain ⟨hsettled', m', hle, -⟩ := hsettled.run hrem hrun
  exact ⟨by omega, fun hstuck => hsettled'.concludes hpos hstuck⟩

/-- Two machines: the leader sends a message, which the other machine receives. -/
theorem end_detected_pair : ∃ k s, Ring.Reached 2 k s ∧ k = 1 ∧ Ring.Quiet 2 s ∧
    (∀ r < 2, (∀ total ≤ (s.machine r).sending, (total : ℤ) ≤ maxInt ∧ ∃ tokenizer,
        (s.machine r).tokenizer.messagesTransmitted total = .ok tokenizer ∧
          tokenizer.tok.count = s.tokCount r + total) ∧
      ∀ total ≤ (s.machine r).receiving,
        ((s.machine r).tokenizer.messagesReceived total).tok.count = s.tokCount r - total) ∧
    (∀ r < 2, ∀ incoming rest, Ring.Arrives s r incoming rest →
      ∃ o, Tokenizer.busyLoopToken (r == 0) (1 < 2) (!(s.machine r).active) false incoming
        (s.machine r).tokenizer = .ok o) ∧
    (Ring.Quiet 2 s → ∀ j s', (moves 2).Run j s s' → j < 3 * 2 ∧ ((moves 2).Stuck s' →
      ∃ rest o, Ring.BusyLoop 2 s' 0 rest o ∧ o.result = false)) := by
  have h₀ : Ring.Reached 2 0
      ⟨fun r => ⟨r == 0, 0, 0, Tokenizer.init (r == 0)⟩, fun _ => 0, fun _ => []⟩ :=
    .init ⟨fun _ _ => ⟨rfl, rfl, rfl⟩, fun _ _ => ⟨rfl, rfl⟩⟩
  have h₁ := h₀.step (@Ring.Step.transmit 2 _ 0 1 (by decide) (by decide) (by decide) rfl)
  have h₂ := h₁.step (@Ring.Step.transmitted 2 _ 0 1 _ (by decide) (by decide) (by decide)
    (by decide) rfl)
  have h₃ := h₂.step (.idle (r := 0) (by decide) rfl rfl)
  have h₄ := h₃.step (.receive (r := 1) (by decide) (by decide))
  have h₅ := h₄.step (@Ring.Step.received 2 _ 1 1 (by decide) (by decide) (by decide))
  have h₆ := h₅.step (.idle (r := 1) (by decide) rfl rfl)
  refine ⟨_, _, h₆, rfl, ⟨by decide, by decide⟩, ?_⟩
  exact end_detected 2 _ (by decide) (by decide) _ h₆

end Meld.Sched
