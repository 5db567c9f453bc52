import Meld.Lib.Transition
import Meld.Sched.Tokenizer

/-!
# The end of an iteration, detected

The machines form a ring in which a token goes from each machine to its left. A machine that is
active sends messages and counts them, a message makes the machine that receives it active, and a
machine that is idle passes the token on, with its count added and black if it received a message
since the last time. `leader_concludes` says that the leader takes the iteration for over only when
every machine is idle and no message is on its way.

The invariant is the one of a token algorithm: `Safe` says that, when the token has come to the
machine `t`, one of four reasons speaks for it. Either the token or a machine the token has yet to
visit is black, or the machines it has yet to visit sent more than the token's count makes up for, or
all machines it has visited are idle and the token has their counts. Sending and counting are two
steps here, and so are receiving and counting; a machine with a message not yet counted is active.
-/

namespace Meld.Sched

open Lib

/-- A machine: whether it has work, the messages it sent or received and has not counted yet, and
its tokenizer. -/
structure Machine where
  active : Bool
  sending : ℕ
  receiving : ℕ
  tokenizer : Tokenizer

namespace Machine

variable (m : Machine)

/-- The machine has sent a message. -/
def transmit : Machine := { m with sending := m.sending + 1 }

/-- The machine has counted messages it sent. -/
def transmitted (total : ℕ) (tokenizer : Tokenizer) : Machine :=
  { m with sending := m.sending - total, tokenizer := tokenizer }

/-- The machine has received a message and has work. -/
def receive : Machine := { m with active := true, receiving := m.receiving + 1 }

/-- The machine has counted messages it received. -/
def received (total : ℕ) : Machine :=
  { m with
    receiving := m.receiving - total
    tokenizer := m.tokenizer.messagesReceived total }

/-- The machine has run out of work. -/
def idle : Machine := { m with active := false }

/-- The machine with another tokenizer. -/
def setTokenizer (tokenizer : Tokenizer) : Machine := { m with tokenizer := tokenizer }

end Machine

/-- The machines, the number of messages on their way to each, and the tokens on their way to
each. -/
structure Ring where
  machine : ℕ → Machine
  inFlight : ℕ → ℕ
  channel : ℕ → List Token

/-- `left_remote_id` in a world of the given size. -/
def leftRemoteId (n r : ℕ) : ℕ := if r = 0 then n - 1 else r - 1

namespace Ring

variable {n : ℕ} {s s' : Ring} {r t : ℕ} {tk : Token}

/-- The ring with another state of one machine. -/
def setMachine (s : Ring) (r : ℕ) (m : Machine) : Ring :=
  { s with machine := Function.update s.machine r m }

/-- The ring with another number of messages on their way to a machine. -/
def setFlight (s : Ring) (r k : ℕ) : Ring :=
  { s with inFlight := Function.update s.inFlight r k }

/-- The ring with other tokens on their way. -/
def setChannel (s : Ring) (channel : ℕ → List Token) : Ring := { s with channel := channel }

/-- The tokens on their way after a part of the busy loop of the machine `r`: the one that was
received is gone, and the one that was sent goes to the left. -/
def passTokens (n : ℕ) (s : Ring) (r : ℕ) (rest : List Token) (o : Tokenizer.Outcome) :
    ℕ → List Token :=
  let channel := if o.polled then Function.update s.channel r rest else s.channel
  match o.sent with
  | some tok => Function.update channel (leftRemoteId n r)
      (channel (leftRemoteId n r) ++ [tok])
  | none => channel

/-- What `receive_token` finds on the machine, and the tokens that stay on their way. A token on its
way need not have arrived. -/
inductive Arrives (s : Ring) (r : ℕ) : Option Token → List Token → Prop
  | none : Arrives s r none (s.channel r)
  | some {tok : Token} {rest : List Token} (h : s.channel r = tok :: rest) :
    Arrives s r (some tok) rest

/-- `busy_loop_token` on the machine `r`. No message of the end of the iteration is there before
the leader has concluded that it is over. -/
def BusyLoop (n : ℕ) (s : Ring) (r : ℕ) (rest : List Token) (o : Tokenizer.Outcome) : Prop :=
  ∃ incoming, Arrives s r incoming rest ∧
    Tokenizer.busyLoopToken (r == 0) (1 < n) (!(s.machine r).active) false incoming
      (s.machine r).tokenizer = .ok o

/-- `init` on every machine. -/
def Init (n : ℕ) (s : Ring) : Prop :=
  (∀ r < n, (s.machine r).sending = 0 ∧ (s.machine r).receiving = 0 ∧
    (s.machine r).tokenizer = Tokenizer.init (r == 0)) ∧
  ∀ r < n, s.inFlight r = 0 ∧ s.channel r = []

/-- A step of one machine. -/
inductive Step (n : ℕ) : Ring → Ring → Prop
  /-- an active machine sends a message to another -/
  | transmit {s : Ring} {r dest : ℕ} (hr : r < n) (hdest : dest < n) (hne : dest ≠ r)
    (hactive : (s.machine r).active = true) :
    Step n s ((s.setMachine r (s.machine r).transmit).setFlight dest (s.inFlight dest + 1))
  /-- `messages_were_transmitted`; the messages of one call fit an `int` -/
  | transmitted {s : Ring} {r total : ℕ} {tokenizer : Tokenizer} (hr : r < n) (hpos : 0 < total)
    (hle : total ≤ (s.machine r).sending) (hint : (total : ℤ) ≤ maxInt)
    (h : (s.machine r).tokenizer.messagesTransmitted total = .ok tokenizer) :
    Step n s (s.setMachine r ((s.machine r).transmitted total tokenizer))
  /-- a message is received, and the machine has work -/
  | receive {s : Ring} {r : ℕ} (hr : r < n) (hpos : 0 < s.inFlight r) :
    Step n s ((s.setMachine r (s.machine r).receive).setFlight r (s.inFlight r - 1))
  /-- `messages_were_received` -/
  | received {s : Ring} {r total : ℕ} (hr : r < n) (hpos : 0 < total)
    (hle : total ≤ (s.machine r).receiving) :
    Step n s (s.setMachine r ((s.machine r).received total))
  /-- all threads of the machine have run out of work -/
  | idle {s : Ring} {r : ℕ} (hr : r < n) (hsending : (s.machine r).sending = 0)
    (hreceiving : (s.machine r).receiving = 0) :
    Step n s (s.setMachine r (s.machine r).idle)
  /-- `busy_loop_token`, which does not find the iteration over -/
  | busyLoop {s : Ring} {r : ℕ} {rest : List Token} {o : Tokenizer.Outcome} (hr : r < n)
    (h : BusyLoop n s r rest o) (hresult : o.result = true) :
    Step n s ((s.setMachine r ((s.machine r).setTokenizer o.tokenizer)).setChannel
      (passTokens n s r rest o))

end Ring

/-- The ring of the given number of machines. -/
def ring (n : ℕ) : System Ring := ⟨Ring.Init n, Ring.Step n⟩

namespace Ring

variable {n : ℕ} {s s' : Ring} {r t : ℕ} {tk : Token}

/-! ### The invariant -/

/-- The count of a machine's token. -/
def tokCount (s : Ring) (r : ℕ) : ℤ := (s.machine r).tokenizer.tok.count

/-- The messages a machine sent less those it received, by its count and what it has not counted
yet. -/
def balance (s : Ring) (r : ℕ) : ℤ :=
  s.tokCount r + (s.machine r).sending - (s.machine r).receiving

/-- The machine received a message since it last passed the token on. -/
def Marked (s : Ring) (r : ℕ) : Prop :=
  (s.machine r).tokenizer.tok.white = false ∨ 0 < (s.machine r).receiving

/-- The token of the ring has visited the machines after `t`. -/
inductive Safe (n : ℕ) (s : Ring) (t : ℕ) (tk : Token) : Prop
  | black (h : tk.white = false)
  | marked {i : ℕ} (hi : i ≤ t) (h : s.Marked i)
  | surplus (h : 0 < ∑ i ∈ Finset.range (t + 1), s.balance i + tk.count)
  | quiet (hidle : ∀ i, t < i → i < n → (s.machine i).active = false)
    (hcount : ∑ i ∈ Finset.Ico (t + 1) n, s.tokCount i = tk.count)

/-- The token is on its way to the machine `t`. -/
structure Flying (n : ℕ) (s : Ring) (t : ℕ) (tk : Token) : Prop where
  channel : s.channel t = [tk]
  others : ∀ i < n, i ≠ t → s.channel i = []
  held : ∀ i < n, (s.machine i).tokenizer.hasGlobalTok = false

/-- The machine `t` has the token. -/
structure Held (n : ℕ) (s : Ring) (t : ℕ) : Prop where
  channel : ∀ i < n, s.channel i = []
  held : ∀ i < n, (s.machine i).tokenizer.hasGlobalTok = true ↔ i = t

/-- Where the token is, and what it has come with. The leader starts afresh with a token that it
has. -/
inductive TokenAt (n : ℕ) (s : Ring) : Prop
  | leader (h : Held n s 0)
  | held {t : ℕ} (ht : t < n) (h : Held n s t)
    (hsafe : Safe n s t (s.machine t).tokenizer.globalTok)
  | flying {t : ℕ} {tk : Token} (ht : t < n) (h : Flying n s t tk) (hsafe : Safe n s t tk)

/-- The invariant of the ring. -/
structure Inv (n : ℕ) (s : Ring) : Prop where
  quiet : ∀ i < n, (s.machine i).active = false →
    (s.machine i).sending = 0 ∧ (s.machine i).receiving = 0
  conserved : ∑ i ∈ Finset.range n, (s.inFlight i : ℤ) ≤ ∑ i ∈ Finset.range n, s.balance i
  range : ∀ i < n, s.tokCount i ≤ maxInt
  alone : n = 1 → s.inFlight 0 = 0
  token : TokenAt n s

theorem Inv.init (hpos : 0 < n) (h : Init n s) : Inv n s := by
  obtain ⟨hmachine, hempty⟩ := h
  have hbalance : ∀ i ∈ Finset.range n, s.balance i = 0 := by
    intro i hi
    obtain ⟨hsending, hreceiving, htok⟩ := hmachine i (Finset.mem_range.mp hi)
    rw [balance, tokCount, hsending, hreceiving, htok]
    rfl
  have hflight : ∀ i ∈ Finset.range n, (s.inFlight i : ℤ) = 0 := by
    intro i hi
    rw [(hempty i (Finset.mem_range.mp hi)).1]
    rfl
  refine ⟨fun i hi _ => ⟨(hmachine i hi).1, (hmachine i hi).2.1⟩, ?_, fun i hi => ?_,
    fun _ => (hempty 0 hpos).1, .leader ⟨fun i hi => (hempty i hi).2, fun i hi => ?_⟩⟩
  · rw [Finset.sum_eq_zero hbalance, Finset.sum_eq_zero hflight]
  · rw [tokCount, (hmachine i hi).2.2]
    exact (by decide : (0 : ℤ) ≤ maxInt)
  · rw [(hmachine i hi).2.2]
    exact beq_iff_eq

/-! ### Steps of one machine -/

@[simp] theorem setMachine_self (m : Machine) : (s.setMachine r m).machine r = m :=
  Function.update_self _ _ _

theorem setMachine_of_ne {m : Machine} {i : ℕ} (h : i ≠ r) :
    (s.setMachine r m).machine i = s.machine i := Function.update_of_ne h _ _

@[simp] theorem setFlight_machine (k : ℕ) : (s.setFlight r k).machine = s.machine := rfl

@[simp] theorem setFlight_inFlight (k : ℕ) :
    (s.setFlight r k).inFlight = Function.update s.inFlight r k := rfl

@[simp] theorem setMachine_inFlight (m : Machine) : (s.setMachine r m).inFlight = s.inFlight := rfl

@[simp] theorem setChannel_machine (channel : ℕ → List Token) :
    (s.setChannel channel).machine = s.machine := rfl

/-- Two families that differ in one place. -/
theorem sum_range_change {M : Type} [AddCommMonoid M] (f f' : ℕ → M) (hr : r < n)
    (h : ∀ i, i ≠ r → f' i = f i) :
    ∑ i ∈ Finset.range n, f' i + f r = ∑ i ∈ Finset.range n, f i + f' r := by
  have hmem := Finset.mem_range.mpr hr
  have hrest : ∑ i ∈ (Finset.range n).erase r, f' i = ∑ i ∈ (Finset.range n).erase r, f i :=
    Finset.sum_congr rfl fun i hi => h i (Finset.ne_of_mem_erase hi)
  rw [← Finset.add_sum_erase _ f' hmem, ← Finset.add_sum_erase _ f hmem, hrest]
  abel

/-- The balance of all machines is split by the position of the token. -/
theorem sum_balance_split (ht : t < n) : ∑ i ∈ Finset.range n, s.balance i =
    ∑ i ∈ Finset.range (t + 1), s.balance i + ∑ i ∈ Finset.Ico (t + 1) n, s.balance i :=
  (Finset.sum_range_add_sum_Ico _ ht).symm

/-- The reason for the token is kept when the machines before it gain, and when those behind it
that are idle stay so. -/
theorem Safe.mono (h : Safe n s t tk) (hmarked : ∀ i ≤ t, s.Marked i → s'.Marked i)
    (hbalance : ∀ i ≤ t, s.balance i ≤ s'.balance i)
    (hidle : ∀ i, t < i → i < n → (s.machine i).active = false →
      (s'.machine i).active = false ∧ s'.tokCount i = s.tokCount i) : Safe n s' t tk := by
  cases h with
  | black h => exact .black h
  | marked hi h => exact .marked hi (hmarked _ hi h)
  | surplus h =>
    refine .surplus (h.trans_le (Int.add_le_add_right (Finset.sum_le_sum fun i hi => ?_) _))
    exact hbalance i (Nat.lt_succ_iff.mp (Finset.mem_range.mp hi))
  | quiet hquiet hcount =>
    refine .quiet (fun i ht hi => (hidle i ht hi (hquiet i ht hi)).1) ?_
    rw [← hcount]
    refine Finset.sum_congr rfl fun i hi => ?_
    have hi := Finset.mem_Ico.mp hi
    exact (hidle i hi.1 hi.2 (hquiet i hi.1 hi.2)).2

/-- The token stays where it is when no machine gives or takes it. -/
theorem TokenAt.mono (h : TokenAt n s) (hchannel : s'.channel = s.channel)
    (htok : ∀ i, (s'.machine i).tokenizer.hasGlobalTok = (s.machine i).tokenizer.hasGlobalTok ∧
      (s'.machine i).tokenizer.globalTok = (s.machine i).tokenizer.globalTok)
    (hsafe : ∀ t tk, t < n → Safe n s t tk → Safe n s' t tk) : TokenAt n s' := by
  have hheld : ∀ t, Held n s t → Held n s' t := fun t h =>
    ⟨hchannel ▸ h.channel, fun i hi => (htok i).1 ▸ h.held i hi⟩
  cases h with
  | leader h => exact .leader (hheld 0 h)
  | held ht h hs => exact .held ht (hheld _ h) ((htok _).2 ▸ hsafe _ _ ht hs)
  | flying ht h hs =>
    refine .flying ht ⟨hchannel ▸ h.channel, hchannel ▸ h.others, fun i hi => ?_⟩ (hsafe _ _ ht hs)
    rw [(htok i).1]
    exact h.held i hi

/-- The parts of the state that a step of the machine `r` does not touch. -/
theorem frame (hother : ∀ i, i ≠ r → s'.machine i = s.machine i) {i : ℕ} (h : i ≠ r) :
    s'.balance i = s.balance i ∧ s'.tokCount i = s.tokCount i ∧ (s'.Marked i ↔ s.Marked i) := by
  rw [balance, balance, tokCount, tokCount, Marked, Marked, hother i h]
  exact ⟨rfl, rfl, Iff.rfl⟩

/-- A step of a machine that neither gives nor takes the token. -/
theorem Inv.of_machine (h : Inv n s) (hr : r < n)
    (hother : ∀ i, i ≠ r → s'.machine i = s.machine i) (hchannel : s'.channel = s.channel)
    (htok : (s'.machine r).tokenizer.hasGlobalTok = (s.machine r).tokenizer.hasGlobalTok ∧
      (s'.machine r).tokenizer.globalTok = (s.machine r).tokenizer.globalTok)
    (hquiet : (s'.machine r).active = false →
      (s'.machine r).sending = 0 ∧ (s'.machine r).receiving = 0)
    (hconserved : ∑ i ∈ Finset.range n, (s'.inFlight i : ℤ) ≤
      ∑ i ∈ Finset.range n, (s.inFlight i : ℤ) + (s'.balance r - s.balance r))
    (hrange : s'.tokCount r ≤ maxInt) (halone : n = 1 → s'.inFlight 0 = 0)
    (hsafe : ∀ t tk, t < n → Safe n s t tk → Safe n s' t tk) : Inv n s' := by
  refine ⟨fun i hi hidle => ?_, ?_, fun i hi => ?_, halone,
    h.token.mono hchannel (fun i => ?_) hsafe⟩
  · rcases eq_or_ne i r with rfl | hne
    · exact hquiet hidle
    · rw [hother i hne] at hidle ⊢
      exact h.quiet i hi hidle
  · have hsum := sum_range_change s.balance s'.balance hr fun i hi => (frame hother hi).1
    have := h.conserved
    omega
  · rcases eq_or_ne i r with rfl | hne
    · exact hrange
    · rw [(frame hother hne).2.1]
      exact h.range i hi
  · rcases eq_or_ne i r with rfl | hne
    · exact htok
    · rw [hother i hne]
      exact ⟨rfl, rfl⟩

/-- The reason for the token is kept by a step of a machine whose balance does not fall, which stays
marked, and which is active or keeps its count and stays idle. -/
theorem Safe.of_machine (h : Safe n s t tk)
    (hother : ∀ i, i ≠ r → s'.machine i = s.machine i)
    (hmarked : s.Marked r → s'.Marked r) (hbalance : s.balance r ≤ s'.balance r)
    (hidle : (s.machine r).active = false →
      (s'.machine r).active = false ∧ s'.tokCount r = s.tokCount r) : Safe n s' t tk := by
  refine h.mono (fun i _ hi => ?_) (fun i _ => ?_) fun i _ _ hi => ?_
  · rcases eq_or_ne i r with rfl | hne
    · exact hmarked hi
    · exact (frame hother hne).2.2.mpr hi
  · rcases eq_or_ne i r with rfl | hne
    · exact hbalance
    · exact (frame hother hne).1.ge
  · rcases eq_or_ne i r with rfl | hne
    · exact hidle hi
    · rw [hother i hne]
      exact ⟨hi, (frame hother hne).2.1⟩

/-- The messages on their way after one is sent or received. -/
theorem sum_setFlight {dest k : ℕ} (hdest : dest < n) :
    ∑ i ∈ Finset.range n, ((s.setFlight dest k).inFlight i : ℤ) =
      ∑ i ∈ Finset.range n, (s.inFlight i : ℤ) + (k - s.inFlight dest) := by
  have hsum := sum_range_change (fun i => (s.inFlight i : ℤ))
    (fun i => ((s.setFlight dest k).inFlight i : ℤ)) hdest fun i hi => by
      rw [setFlight_inFlight, Function.update_of_ne hi]
  have hdest' : (s.setFlight dest k).inFlight dest = k := by
    rw [setFlight_inFlight, Function.update_self]
  simp only [hdest'] at hsum
  omega

theorem Inv.transmit {dest : ℕ} (h : Inv n s) (hr : r < n) (hdest : dest < n) (hne : dest ≠ r)
    (hactive : (s.machine r).active = true) :
    Inv n ((s.setMachine r (s.machine r).transmit).setFlight dest (s.inFlight dest + 1)) := by
  have hother : ∀ i, i ≠ r → ((s.setMachine r (s.machine r).transmit).setFlight dest
      (s.inFlight dest + 1)).machine i = s.machine i := fun i => setMachine_of_ne
  have hbalance : ((s.setMachine r (s.machine r).transmit).setFlight dest
      (s.inFlight dest + 1)).balance r = s.balance r + 1 := by
    simp only [balance, tokCount, setFlight_machine, setMachine_self, Machine.transmit]
    omega
  refine h.of_machine hr hother rfl ?_ ?_ ?_ ?_ ?_ fun t tk ht hsafe =>
    hsafe.of_machine hother ?_ (by omega) ?_
  · rw [setFlight_machine, setMachine_self]
    exact ⟨rfl, rfl⟩
  · intro hidle
    rw [setFlight_machine, setMachine_self, Machine.transmit, hactive] at hidle
    cases hidle
  · rw [sum_setFlight hdest, hbalance, setMachine_inFlight]
    omega
  · rw [tokCount, setFlight_machine, setMachine_self]
    exact h.range r hr
  · omega
  · rw [Marked, Marked, setFlight_machine, setMachine_self]
    exact id
  · rw [hactive]
    nofun

theorem Inv.transmitted {total : ℕ} {tokenizer : Tokenizer} (h : Inv n s) (hr : r < n)
    (hpos : 0 < total) (hle : total ≤ (s.machine r).sending) (hint : (total : ℤ) ≤ maxInt)
    (htok : (s.machine r).tokenizer.messagesTransmitted total = .ok tokenizer) :
    Inv n (s.setMachine r ((s.machine r).transmitted total tokenizer)) := by
  obtain ⟨htokenizer, hmax⟩ := Tokenizer.messagesTransmitted_eq_ok hint htok
  have hactive : (s.machine r).active = true := by
    by_contra hidle
    have := (h.quiet r hr (Bool.not_eq_true _ ▸ hidle)).1
    omega
  have hbalance : (s.setMachine r ((s.machine r).transmitted total tokenizer)).balance r =
      s.balance r := by
    simp only [balance, tokCount, setMachine_self, Machine.transmitted, htokenizer]
    omega
  refine h.of_machine hr (fun i => setMachine_of_ne) rfl ?_ ?_ ?_ ?_ h.alone
    fun t tk ht hsafe => hsafe.of_machine (fun i => setMachine_of_ne) ?_ hbalance.ge ?_
  · rw [setMachine_self, Machine.transmitted, htokenizer]
    exact ⟨rfl, rfl⟩
  · intro hidle
    rw [setMachine_self, Machine.transmitted, hactive] at hidle
    cases hidle
  · rw [hbalance, setMachine_inFlight]
    omega
  · rw [tokCount, setMachine_self, Machine.transmitted, htokenizer]
    exact hmax
  · rw [Marked, Marked, setMachine_self, Machine.transmitted, htokenizer]
    exact id
  · rw [hactive]
    nofun

/-- When all machines behind the token are idle and the token has their counts, a message on its
way was sent by the machines before it. -/
theorem Inv.surplus_of_quiet (h : Inv n s) (ht : t < n)
    (hidle : ∀ i, t < i → i < n → (s.machine i).active = false)
    (hcount : ∑ i ∈ Finset.Ico (t + 1) n, s.tokCount i = tk.count) (hr : r < n)
    (hpos : 0 < s.inFlight r) : 0 < ∑ i ∈ Finset.range (t + 1), s.balance i + tk.count := by
  have hbehind : ∑ i ∈ Finset.Ico (t + 1) n, s.balance i = tk.count := by
    rw [← hcount]
    refine Finset.sum_congr rfl fun i hi => ?_
    obtain ⟨hi, hin⟩ := Finset.mem_Ico.mp hi
    obtain ⟨hsending, hreceiving⟩ := h.quiet i hin (hidle i hi hin)
    rw [balance, hsending, hreceiving]
    simp
  have hflight : (s.inFlight r : ℤ) ≤ ∑ i ∈ Finset.range n, (s.inFlight i : ℤ) :=
    Finset.single_le_sum (f := fun i => (s.inFlight i : ℤ)) (fun i _ => Int.natCast_nonneg _)
      (Finset.mem_range.mpr hr)
  have hsplit := sum_balance_split (s := s) ht
  have := h.conserved
  omega

theorem Inv.receive (h : Inv n s) (hr : r < n) (hpos : 0 < s.inFlight r) :
    Inv n ((s.setMachine r (s.machine r).receive).setFlight r (s.inFlight r - 1)) := by
  have hother : ∀ i, i ≠ r → ((s.setMachine r (s.machine r).receive).setFlight r
      (s.inFlight r - 1)).machine i = s.machine i := fun i => setMachine_of_ne
  have hbalance : ((s.setMachine r (s.machine r).receive).setFlight r
      (s.inFlight r - 1)).balance r = s.balance r - 1 := by
    simp only [balance, tokCount, setFlight_machine, setMachine_self, Machine.receive]
    omega
  refine h.of_machine hr hother rfl ?_ ?_ ?_ ?_ ?_ fun t tk ht hsafe => ?_
  · rw [setFlight_machine, setMachine_self]
    exact ⟨rfl, rfl⟩
  · rw [setFlight_machine, setMachine_self]
    nofun
  · rw [sum_setFlight hr, hbalance, setMachine_inFlight]
    omega
  · rw [tokCount, setFlight_machine, setMachine_self]
    exact h.range r hr
  · intro hn
    have := h.alone hn
    obtain rfl : r = 0 := by omega
    omega
  · rcases Nat.lt_or_ge t r with htr | hrt
    · -- a machine that the token has visited wakes up: the message came from before the token
      have hbefore : ∀ i ≤ t, ((s.setMachine r (s.machine r).receive).setFlight r
          (s.inFlight r - 1)).balance i = s.balance i ∧
          (((s.setMachine r (s.machine r).receive).setFlight r
            (s.inFlight r - 1)).Marked i ↔ s.Marked i) := fun i hi =>
        ⟨(frame hother (by omega)).1, (frame hother (by omega)).2.2⟩
      have hsum : ∑ i ∈ Finset.range (t + 1), ((s.setMachine r (s.machine r).receive).setFlight r
          (s.inFlight r - 1)).balance i = ∑ i ∈ Finset.range (t + 1), s.balance i :=
        Finset.sum_congr rfl fun i hi =>
          (hbefore i (Nat.lt_succ_iff.mp (Finset.mem_range.mp hi))).1
      cases hsafe with
      | black h => exact .black h
      | marked hi h => exact .marked hi ((hbefore _ hi).2.mpr h)
      | surplus h => exact .surplus (hsum ▸ h)
      | quiet hidle hcount => exact .surplus (hsum ▸ h.surplus_of_quiet ht hidle hcount hr hpos)
    · refine .marked hrt (.inr ?_)
      rw [setFlight_machine, setMachine_self]
      exact Nat.succ_pos _

theorem Inv.received {total : ℕ} (h : Inv n s) (hr : r < n) (hpos : 0 < total)
    (hle : total ≤ (s.machine r).receiving) :
    Inv n (s.setMachine r ((s.machine r).received total)) := by
  obtain ⟨hcount, hmax⟩ := Tokenizer.messagesReceived_count total (h.range r hr)
  have hactive : (s.machine r).active = true := by
    by_contra hidle
    have := (h.quiet r hr (Bool.not_eq_true _ ▸ hidle)).2
    omega
  have hbalance : s.balance r ≤ (s.setMachine r ((s.machine r).received total)).balance r := by
    simp only [balance, tokCount, setMachine_self, Machine.received]
    omega
  refine h.of_machine hr (fun i => setMachine_of_ne) rfl ?_ ?_ ?_ ?_ h.alone
    fun t tk ht hsafe => hsafe.of_machine (fun i => setMachine_of_ne) ?_ hbalance ?_
  · rw [setMachine_self]
    exact ⟨rfl, rfl⟩
  · intro hidle
    rw [setMachine_self, Machine.received, hactive] at hidle
    cases hidle
  · rw [setMachine_inFlight]
    omega
  · rw [tokCount, setMachine_self]
    exact hmax
  · intro _
    rw [Marked, setMachine_self]
    exact .inl rfl
  · rw [hactive]
    nofun

theorem Inv.idle (h : Inv n s) (hr : r < n) (hsending : (s.machine r).sending = 0)
    (hreceiving : (s.machine r).receiving = 0) :
    Inv n (s.setMachine r (s.machine r).idle) := by
  have hbalance : (s.setMachine r (s.machine r).idle).balance r = s.balance r := by
    rw [balance, balance, tokCount, tokCount, setMachine_self]
    rfl
  refine h.of_machine hr (fun i => setMachine_of_ne) rfl ?_ ?_ ?_ ?_ h.alone
    fun t tk ht hsafe => hsafe.of_machine (fun i => setMachine_of_ne) ?_ hbalance.ge ?_
  · rw [setMachine_self]
    exact ⟨rfl, rfl⟩
  · rw [setMachine_self]
    exact fun _ => ⟨hsending, hreceiving⟩
  · rw [hbalance, setMachine_inFlight]
    omega
  · rw [tokCount, setMachine_self]
    exact h.range r hr
  · rw [Marked, Marked, setMachine_self]
    exact id
  · intro _
    rw [tokCount, tokCount, setMachine_self]
    exact ⟨rfl, rfl⟩

/-! ### The turns of the busy loop -/

/-- The ring after a turn of the machine `r`. -/
def afterTurn (n : ℕ) (s : Ring) (r : ℕ) (rest : List Token) (o : Tokenizer.Outcome) : Ring :=
  (s.setMachine r ((s.machine r).setTokenizer o.tokenizer)).setChannel (passTokens n s r rest o)

theorem afterTurn_self {rest : List Token} {o : Tokenizer.Outcome} :
    (afterTurn n s r rest o).machine r = (s.machine r).setTokenizer o.tokenizer :=
  setMachine_self _

theorem afterTurn_of_ne {rest : List Token} {o : Tokenizer.Outcome} {i : ℕ} (h : i ≠ r) :
    (afterTurn n s r rest o).machine i = s.machine i := setMachine_of_ne h

theorem leftRemoteId_lt (hr : r < n) : leftRemoteId n r < n := by
  unfold leftRemoteId
  split_ifs <;> omega

/-- A token that is received was on its way to the machine. -/
theorem TokenAt.flying_of_arrives (h : TokenAt n s) (hr : r < n) {rest : List Token} {tok : Token}
    (ha : Arrives s r (some tok) rest) : Flying n s r tok ∧ Safe n s r tok ∧ rest = [] := by
  cases ha with
  | some hchannel =>
    cases h with
    | leader h => exact absurd (h.channel r hr) (by rw [hchannel]; nofun)
    | held ht h => exact absurd (h.channel r hr) (by rw [hchannel]; nofun)
    | flying ht h hsafe =>
      rename_i t tk
      have htr : r = t := by
        by_contra hne
        exact absurd (h.others r hr hne) (by rw [hchannel]; nofun)
      subst htr
      have hcons := h.channel
      rw [hchannel, List.cons.injEq] at hcons
      obtain ⟨rfl, rfl⟩ := hcons
      exact ⟨h, hsafe, rfl⟩

/-- A machine that has the token is where the token is. -/
theorem TokenAt.held_of_has (h : TokenAt n s) (hr : r < n)
    (hhas : (s.machine r).tokenizer.hasGlobalTok = true) :
    Held n s r ∧ (r = 0 ∨ Safe n s r (s.machine r).tokenizer.globalTok) := by
  cases h with
  | leader h =>
    obtain rfl := (h.held r hr).mp hhas
    exact ⟨h, .inl rfl⟩
  | held ht h hsafe =>
    obtain rfl := (h.held r hr).mp hhas
    exact ⟨h, .inr hsafe⟩
  | flying ht h hsafe => exact absurd hhas (by rw [h.held r hr]; decide)

/-- A turn that sends a token when no other is on its way. -/
theorem Flying.of_send {rest : List Token} {o : Tokenizer.Outcome} {tok : Token} (hr : r < n)
    (hempty : ∀ i < n, (if o.polled then Function.update s.channel r rest else s.channel) i = [])
    (hsent : o.sent = some tok) (hhas : o.tokenizer.hasGlobalTok = false)
    (hother : ∀ i < n, i ≠ r → (s.machine i).tokenizer.hasGlobalTok = false) :
    Flying n (afterTurn n s r rest o) (leftRemoteId n r) tok := by
  have hleft := leftRemoteId_lt hr
  have hchannel : (afterTurn n s r rest o).channel = passTokens n s r rest o := rfl
  refine ⟨?_, fun i hi hne => ?_, fun i hi => ?_⟩
  · simp only [hchannel, passTokens, hsent, Function.update_self, hempty _ hleft, List.nil_append]
  · simp only [hchannel, passTokens, hsent, Function.update_of_ne hne, hempty i hi]
  · rcases eq_or_ne i r with rfl | hne
    · rw [afterTurn_self]
      exact hhas
    · rw [afterTurn_of_ne hne]
      exact hother i hi hne

/-- Once the token has been received no other is on its way. -/
theorem Flying.update_nil (h : Flying n s r tk) :
    ∀ i < n, Function.update s.channel r [] i = [] := by
  intro i hi
  rcases eq_or_ne i r with rfl | hne
  · rw [Function.update_self]
  · rw [Function.update_of_ne hne, h.others i hi hne]

/-- A turn changes neither the counts nor the work of the machines. -/
theorem Inv.of_turn (h : Inv n s) {rest : List Token} {o : Tokenizer.Outcome} (hr : r < n)
    (hcount : o.tokenizer.tok.count = (s.machine r).tokenizer.tok.count)
    (htoken : TokenAt n (afterTurn n s r rest o)) : Inv n (afterTurn n s r rest o) := by
  have htok : ∀ i, (afterTurn n s r rest o).tokCount i = s.tokCount i := by
    intro i
    rw [tokCount, tokCount]
    rcases eq_or_ne i r with rfl | hne
    · rw [afterTurn_self]
      exact hcount
    · rw [afterTurn_of_ne hne]
  have hwork : ∀ i, ((afterTurn n s r rest o).machine i).active = (s.machine i).active ∧
      ((afterTurn n s r rest o).machine i).sending = (s.machine i).sending ∧
      ((afterTurn n s r rest o).machine i).receiving = (s.machine i).receiving := by
    intro i
    rcases eq_or_ne i r with rfl | hne
    · rw [afterTurn_self]
      exact ⟨rfl, rfl, rfl⟩
    · rw [afterTurn_of_ne hne]
      exact ⟨rfl, rfl, rfl⟩
  have hbalance : ∀ i, (afterTurn n s r rest o).balance i = s.balance i := by
    intro i
    rw [balance, balance, htok, (hwork i).2.1, (hwork i).2.2]
  refine ⟨fun i hi hidle => ?_, ?_, fun i hi => htok i ▸ h.range i hi, h.alone, htoken⟩
  · rw [(hwork i).2.1, (hwork i).2.2]
    exact h.quiet i hi ((hwork i).1 ▸ hidle)
  · rw [Finset.sum_congr rfl fun i _ => hbalance i]
    exact h.conserved

/-- A turn of a machine whose token keeps its colour. -/
theorem Safe.of_turn (h : Safe n s t tk) {rest : List Token} {o : Tokenizer.Outcome}
    (htok : o.tokenizer.tok = (s.machine r).tokenizer.tok) :
    Safe n (afterTurn n s r rest o) t tk := by
  refine h.of_machine (fun i => afterTurn_of_ne) ?_ (le_of_eq ?_) fun hidle => ?_
  · rw [Marked, Marked, afterTurn_self, Machine.setTokenizer, htok]
    exact id
  · rw [balance, balance, tokCount, tokCount, afterTurn_self, Machine.setTokenizer, htok]
  · rw [tokCount, tokCount, afterTurn_self, Machine.setTokenizer, htok]
    exact ⟨hidle, rfl⟩

/-- A fresh token goes out with no machine behind it. -/
theorem TokenAt.of_fresh {rest : List Token} {o : Tokenizer.Outcome} (hn : 0 < n)
    (hflying : Flying n (afterTurn n s 0 rest o) (leftRemoteId n 0) ⟨true, 0⟩) :
    TokenAt n (afterTurn n s 0 rest o) := by
  have hleft : leftRemoteId n 0 + 1 = n := Nat.sub_add_cancel hn
  refine .flying (leftRemoteId_lt hn) hflying (.quiet (fun i hi hin => by omega) ?_)
  rw [hleft, Finset.Ico_self, Finset.sum_empty]

/-- An idle machine passes the token on with its count. -/
theorem Inv.safe_of_pass (h : Inv n s) {rest : List Token} {o : Tokenizer.Outcome} {tk' : Token}
    (hr : r < n) (hr0 : r ≠ 0) (hidle : (s.machine r).active = false) (hsafe : Safe n s r tk)
    (htok : o.tokenizer.tok.count = s.tokCount r) (hcount : tk'.count = tk.count + s.tokCount r)
    (hwhite : tk'.white = true → tk.white = true ∧ (s.machine r).tokenizer.tok.white = true) :
    Safe n (afterTurn n s r rest o) (r - 1) tk' := by
  obtain ⟨hsending, hreceiving⟩ := h.quiet r hr hidle
  have hpred : r - 1 + 1 = r := Nat.sub_add_cancel (Nat.pos_of_ne_zero hr0)
  have hself : (afterTurn n s r rest o).tokCount r = s.tokCount r := by
    rw [tokCount, afterTurn_self]
    exact htok
  have hother : ∀ {i}, i ≠ r → (afterTurn n s r rest o).balance i = s.balance i ∧
      (afterTurn n s r rest o).tokCount i = s.tokCount i ∧
      ((afterTurn n s r rest o).Marked i ↔ s.Marked i) := frame fun i => afterTurn_of_ne
  cases hwhite' : tk'.white with
  | false => exact .black hwhite'
  | true =>
    obtain ⟨htk, hmachine⟩ := hwhite hwhite'
    cases hsafe with
    | black hblack => exact absurd hblack (by rw [htk]; decide)
    | marked hi hmarked =>
      rename_i i
      rcases eq_or_ne i r with rfl | hne
      · rcases hmarked with hblack | hpos
        · exact absurd hblack (by rw [hmachine]; decide)
        · omega
      · exact .marked (i := i) (by omega) ((hother hne).2.2.mpr hmarked)
    | surplus hsum =>
      refine .surplus ?_
      have hbalance : s.balance r = s.tokCount r := by
        rw [balance, hsending, hreceiving]
        simp
      have hbefore : ∑ i ∈ Finset.range r, (afterTurn n s r rest o).balance i =
          ∑ i ∈ Finset.range r, s.balance i :=
        Finset.sum_congr rfl fun i hi => (hother (Finset.mem_range.mp hi).ne).1
      rw [Finset.sum_range_succ, hbalance] at hsum
      rw [hpred, hcount, hbefore]
      omega
    | quiet hquiet hsum =>
      refine .quiet (fun i hi hin => ?_) ?_
      · rcases eq_or_ne i r with rfl | hne
        · rw [afterTurn_self]
          exact hidle
        · rw [afterTurn_of_ne hne]
          exact hquiet i (by omega) hin
      · rw [hpred, Finset.sum_eq_sum_Ico_succ_bot hr, hself, hcount, ← hsum, add_comm]
        refine congrArg (· + _) (Finset.sum_congr rfl fun i hi => ?_)
        have := (Finset.mem_Ico.mp hi).1
        exact (hother (by omega)).2.1

theorem Inv.busyLoop (h : Inv n s) {rest : List Token} {o : Tokenizer.Outcome} (hr : r < n)
    (hloop : BusyLoop n s r rest o) (hresult : o.result = true) :
    Inv n (afterTurn n s r rest o) := by
  obtain ⟨incoming, harrives, hrun⟩ := hloop
  -- by what the turn does with the token
  have hturn := Tokenizer.busyLoopToken_turn hrun hresult
  cases hturn with
  | stay hpolled =>
    rename_i polled
    refine h.of_turn hr rfl ?_
    refine h.token.mono ?_ (fun i => ?_) fun t tk ht hsafe => hsafe.of_turn rfl
    · change (if polled = true then Function.update s.channel r rest else s.channel) = s.channel
      cases polled with
      | false => rfl
      | true =>
        obtain rfl := hpolled rfl
        cases harrives
        exact Function.update_eq_self _ _
    · rcases eq_or_ne i r with rfl | hne
      · rw [afterTurn_self]
        exact ⟨rfl, rfl⟩
      · rw [afterTurn_of_ne hne]
        exact ⟨rfl, rfl⟩
  | fetch hidle hhas =>
    obtain ⟨hflying, hsafe, rfl⟩ := h.token.flying_of_arrives hr harrives
    refine h.of_turn hr rfl (.held hr ⟨fun i hi => ?_, fun i hi => ?_⟩ ?_)
    · exact hflying.update_nil i hi
    · rcases eq_or_ne i r with rfl | hne
      · rw [afterTurn_self]
        exact iff_of_true rfl rfl
      · rw [afterTurn_of_ne hne, hflying.held i hi]
        exact iff_of_false (by decide) hne
    · rw [afterTurn_self]
      exact hsafe.of_turn rfl
  | start hleader hhas =>
    obtain rfl : r = 0 := beq_iff_eq.mp hleader
    obtain ⟨hheld, -⟩ := h.token.held_of_has hr hhas
    refine h.of_turn hr rfl (.of_fresh hr (.of_send hr hheld.channel rfl rfl fun i hi hne => ?_))
    exact Bool.eq_false_iff.mpr fun hi' => hne ((hheld.held i hi).mp hi')
  | restart hleader hhas =>
    obtain rfl : r = 0 := beq_iff_eq.mp hleader
    obtain ⟨hflying, -, rfl⟩ := h.token.flying_of_arrives hr harrives
    exact h.of_turn hr rfl (.of_fresh hr (.of_send hr hflying.update_nil rfl rfl
      fun i hi _ => hflying.held i hi))
  | release hidle hleader hhas hblack =>
    have hr0 : r ≠ 0 := beq_eq_false_iff_ne.mp hleader
    obtain ⟨hheld, -⟩ := h.token.held_of_has hr hhas
    refine h.of_turn hr rfl (.flying (leftRemoteId_lt hr) (.of_send hr hheld.channel rfl rfl
      fun i hi hne => ?_) (.black hblack))
    exact Bool.eq_false_iff.mpr fun hi' => hne ((hheld.held i hi).mp hi')
  | pass hidle hleader hhas hcount hwhite =>
    have hr0 : r ≠ 0 := beq_eq_false_iff_ne.mp hleader
    have hleft : leftRemoteId n r = r - 1 := if_neg hr0
    obtain ⟨hflying, hsafe, rfl⟩ := h.token.flying_of_arrives hr harrives
    refine h.of_turn hr rfl (.flying (leftRemoteId_lt hr) (.of_send hr hflying.update_nil rfl rfl
      fun i hi _ => hflying.held i hi) ?_)
    rw [hleft]
    exact h.safe_of_pass hr hr0 (by simpa using hidle) hsafe rfl hcount hwhite

theorem Inv.step (h : Inv n s) (hstep : Step n s s') : Inv n s' := by
  cases hstep with
  | transmit hr hdest hne hactive => exact h.transmit hr hdest hne hactive
  | transmitted hr hpos hle hint htok => exact h.transmitted hr hpos hle hint htok
  | receive hr hpos => exact h.receive hr hpos
  | received hr hpos hle => exact h.received hr hpos hle
  | idle hr hsending hreceiving => exact h.idle hr hsending hreceiving
  | busyLoop hr hloop hresult => exact h.busyLoop hr hloop hresult

/-- When the leader finds the iteration over, all machines are idle and the sum of the counts is
zero. -/
theorem Inv.over (h : Inv n s) (hpos : 0 < n) {rest : List Token} {o : Tokenizer.Outcome}
    (hloop : BusyLoop n s 0 rest o) (hresult : o.result = false) :
    (∀ r < n, (s.machine r).active = false) ∧ ∀ r < n, s.inFlight r = 0 := by
  obtain ⟨incoming, harrives, hrun⟩ := hloop
  obtain ⟨hidle, hover⟩ := Tokenizer.busyLoopToken_over hrun hresult
  have hleader : (s.machine 0).active = false := by simpa using hidle
  rcases hover with ⟨hhas, hmpi⟩ | ⟨hhas, tok, rfl, htok, hmachine, hzero⟩
  · -- the only machine
    obtain rfl : n = 1 := by
      have := of_decide_eq_false hmpi
      omega
    refine ⟨fun r hr => ?_, fun r hr => ?_⟩ <;> obtain rfl : r = 0 := by omega
    · exact hleader
    · exact h.alone rfl
  · obtain ⟨hflying, hsafe, -⟩ := h.token.flying_of_arrives hpos harrives
    obtain ⟨hsending, hreceiving⟩ := h.quiet 0 hpos hleader
    have hbalance : s.balance 0 = s.tokCount 0 := by
      rw [balance, hsending, hreceiving]
      simp
    cases hsafe with
    | black hblack => exact absurd hblack (by rw [htok]; decide)
    | marked hi hmarked =>
      obtain rfl := Nat.le_zero.mp hi
      rcases hmarked with hblack | hpos
      · exact absurd hblack (by rw [hmachine]; decide)
      · omega
    | surplus hsum =>
      rw [Finset.sum_range_one, hbalance, tokCount] at hsum
      omega
    | quiet hquiet hcount =>
      have hall : ∀ r < n, (s.machine r).active = false := by
        intro r hr
        rcases Nat.eq_zero_or_pos r with rfl | hr0
        · exact hleader
        · exact hquiet r hr0 hr
      refine ⟨hall, fun r hr => ?_⟩
      by_contra hne
      have hsurplus := h.surplus_of_quiet hpos hquiet hcount hr (Nat.pos_of_ne_zero hne)
      rw [Finset.sum_range_one, hbalance, tokCount] at hsurplus
      omega

end Ring

/-- When the leader of a ring of any size finds the iteration over, every machine is idle and no
message is on its way. -/
theorem leader_concludes (n : ℕ) (hpos : 0 < n) (s : Ring) (h : (ring n).Reachable s)
    (rest : List Token) (o : Tokenizer.Outcome) (hloop : Ring.BusyLoop n s 0 rest o)
    (hresult : o.result = false) :
    (∀ r < n, (s.machine r).active = false) ∧ ∀ r < n, s.inFlight r = 0 :=
  (h.invariant (fun _ => Ring.Inv.init hpos) fun _ _ => Ring.Inv.step).over hpos hloop hresult

/-- Two machines: a message is sent and received, and the token goes round twice. -/
theorem leader_concludes_pair : ∃ s rest o, (ring 2).Reachable s ∧ Ring.BusyLoop 2 s 0 rest o ∧
    o.result = false ∧ (s.machine 0).tokenizer.tok.count = 1 ∧
      (∀ r < 2, (s.machine r).active = false) ∧ ∀ r < 2, s.inFlight r = 0 := by
  have h₀ : (ring 2).Reachable
      ⟨fun r => ⟨r == 0, 0, 0, Tokenizer.init (r == 0)⟩, fun _ => 0, fun _ => []⟩ :=
    .init ⟨fun _ _ => ⟨rfl, rfl, rfl⟩, fun _ _ => ⟨rfl, rfl⟩⟩
  -- the first machine sends and counts a message and is idle
  have h₁ := h₀.step (.transmit (r := 0) (by decide) (by decide : 1 < 2) (by decide) rfl)
  have h₂ := h₁.step (.transmitted (r := 0) (by decide) Nat.one_pos (by decide) (by decide) rfl)
  have h₃ := h₂.step (.idle (r := 0) (by decide) rfl rfl)
  -- the second machine receives and counts it and is idle
  have h₄ := h₃.step (.receive (r := 1) (by decide) (by decide))
  have h₅ := h₄.step (.received (r := 1) (by decide) Nat.one_pos (by decide))
  have h₆ := h₅.step (.idle (r := 1) (by decide) rfl rfl)
  -- the token comes back black, and then white
  have h₇ := h₆.step (.busyLoop (r := 0) (by decide) ⟨none, .none, rfl⟩ rfl)
  have h₈ := h₇.step (.busyLoop (r := 1) (by decide) ⟨some ⟨true, 0⟩, .some rfl, rfl⟩ rfl)
  have h₉ := h₈.step (.busyLoop (r := 0) (by decide) ⟨some ⟨false, -1⟩, .some rfl, rfl⟩ rfl)
  have h := h₉.step (.busyLoop (r := 1) (by decide) ⟨some ⟨true, 0⟩, .some rfl, rfl⟩ rfl)
  refine ⟨_, [], ⟨⟨⟨true, 1⟩, true, ⟨true, 0⟩⟩, true, none, false⟩, h,
    ⟨some ⟨true, -1⟩, .some rfl, rfl⟩, rfl, rfl, ?_⟩
  exact leader_concludes 2 (by decide) _ h [] ⟨⟨⟨true, 1⟩, true, ⟨true, 0⟩⟩, true, none, false⟩
    ⟨some ⟨true, -1⟩, .some rfl, rfl⟩ rfl

/-! ### Without a bound on the counts -/

/-- A step of one machine, with any number of messages in a call of `messages_were_transmitted`. -/
inductive Ring.AnyStep (n : ℕ) : Ring → Ring → Prop
  | step {s s' : Ring} (h : Ring.Step n s s') : AnyStep n s s'
  | transmitted {s : Ring} {r total : ℕ} {tokenizer : Tokenizer} (hr : r < n) (hpos : 0 < total)
    (hle : total ≤ (s.machine r).sending)
    (h : (s.machine r).tokenizer.messagesTransmitted total = .ok tokenizer) :
    AnyStep n s (s.setMachine r ((s.machine r).transmitted total tokenizer))

/-- The ring in which a call may count any number of messages. -/
def anyRing (n : ℕ) : System Ring := ⟨Ring.Init n, Ring.AnyStep n⟩

/-- Two machines, of which the first has sent the given number of messages. -/
def sendingRing (k : ℕ) : Ring where
  machine r := ⟨r == 0, if r = 0 then k else 0, 0, Tokenizer.init (r == 0)⟩
  inFlight r := if r = 1 then k else 0
  channel _ := []

theorem sendingRing_succ (k : ℕ) : sendingRing (k + 1) =
    ((sendingRing k).setMachine 0 ((sendingRing k).machine 0).transmit).setFlight 1
      ((sendingRing k).inFlight 1 + 1) := by
  simp only [sendingRing, Ring.setMachine, Ring.setFlight, Ring.mk.injEq, and_true]
  refine ⟨funext fun r => ?_, funext fun r => ?_⟩
  · rcases eq_or_ne r 0 with rfl | hne
    · simp [Machine.transmit]
    · simp [hne]
  · rcases eq_or_ne r 1 with rfl | hne
    · simp
    · simp [hne]

theorem reachable_sendingRing (k : ℕ) : (anyRing 2).Reachable (sendingRing k) := by
  induction k with
  | zero =>
    refine .init ⟨fun r _ => ⟨?_, rfl, rfl⟩, fun r _ => ⟨?_, rfl⟩⟩
    · simp [sendingRing]
    · simp [sendingRing]
  | succ k ih =>
    rw [sendingRing_succ]
    exact ih.step (.step (.transmit (by decide) (by decide) (by decide) rfl))

/-- A call that counts `2 ^ 32` messages counts none, since the number is made an `int`: the leader
finds the iteration over while all of them are on their way. -/
theorem not_leader_concludes : ¬∀ (n : ℕ), 0 < n → ∀ s, (anyRing n).Reachable s →
    ∀ rest o, Ring.BusyLoop n s 0 rest o → o.result = false →
      (∀ r < n, (s.machine r).active = false) ∧ ∀ r < n, s.inFlight r = 0 := by
  intro hall
  have h₀ := reachable_sendingRing (2 ^ 32)
  have hcount : (Tokenizer.init true).messagesTransmitted (2 ^ 32) = .ok (Tokenizer.init true) := by
    decide
  have h₁ := h₀.step (.transmitted (r := 0) (by decide) (by decide : 0 < 2 ^ 32) le_rfl hcount)
  have h₂ := h₁.step (.step (.idle (r := 0) (by decide) (Nat.sub_self _) rfl))
  have h₃ := h₂.step (.step (.busyLoop (r := 0) (by decide) ⟨none, .none, rfl⟩ rfl))
  have h := h₃.step (.step
    (.busyLoop (r := 1) (by decide) ⟨some ⟨true, 0⟩, .some rfl, rfl⟩ rfl))
  have hover := hall 2 (by decide) _ h []
    ⟨⟨⟨true, 0⟩, true, ⟨true, 0⟩⟩, true, none, false⟩ ⟨some ⟨true, 0⟩, .some rfl, rfl⟩ rfl
  have hflight : (2 ^ 32 : ℕ) = 0 := hover.2 1 (by decide)
  exact absurd hflight (by decide)

end Meld.Sched
