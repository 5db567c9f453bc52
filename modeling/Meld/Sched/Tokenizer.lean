import Meld.Lib.Exec

/-!
# The tokenizer

Each machine keeps a token of its own, with the number of messages it sent less those it received,
and whether it received any since it last passed the token of the ring on. The token of the ring
collects both on its way from machine to machine, and the leader concludes from it whether the
iteration is over.

The message layer appears as what `receive_token` returns and what `send_token` is given.
-/

namespace Meld.Sched

open Lib

/-- A token: its colour and its count. -/
structure Token where
  white : Bool
  count : ℤ
  deriving DecidableEq, Repr

namespace Token

/-- `token()`. -/
def new : Token := ⟨false, 0⟩

/-- `transmitted`, with its conversion of the total to an `int`. -/
def transmitted (tok : Token) (total : ℕ) : Exec Token := do
  return { tok with count := ← addInt tok.count (wrap32 total) }

/-- `received`: the subtraction is one of unsigned 64-bit integers. -/
def received (tok : Token) (total : ℕ) : Token :=
  { tok with count := wrap32 (tok.count - total) }

def addCount (tok : Token) (plus : ℤ) : Exec Token := do
  return { tok with count := ← addInt tok.count plus }

def isZero (tok : Token) : Bool := tok.count == 0

def resetCount (tok : Token) : Token := { tok with count := 0 }

def setWhite (tok : Token) : Token := { tok with white := true }

def setBlack (tok : Token) : Token := { tok with white := false }

end Token

/-- The tokenizer of a machine: its token, and the token of the ring as it last had it. -/
structure Tokenizer where
  tok : Token
  hasGlobalTok : Bool
  globalTok : Token
  deriving DecidableEq, Repr

namespace Tokenizer

/-- `init`. -/
def init (leader : Bool) : Tokenizer where
  tok := Token.new.setWhite
  hasGlobalTok := leader
  globalTok := if leader then Token.new.setWhite else Token.new

def messagesTransmitted (t : Tokenizer) (total : ℕ) : Exec Tokenizer := do
  return { t with tok := ← t.tok.transmitted total }

def messagesReceived (t : Tokenizer) (total : ℕ) : Tokenizer :=
  { t with tok := (t.tok.received total).setBlack }

/-- What a part of the busy loop does: the tokenizer afterwards, whether `receive_token` was called,
the token that was sent, and the value returned. -/
structure Outcome where
  tokenizer : Tokenizer
  polled : Bool
  sent : Option Token
  result : Bool
  deriving DecidableEq, Repr

/-- `try_fetch_token_as_worker`; `incoming` is what `receive_token` finds. -/
def tryFetchTokenAsWorker (t : Tokenizer) (incoming : Option Token) : Exec Tokenizer := do
  assert (t.hasGlobalTok = false)
  match incoming with
  | some tok => return { t with hasGlobalTok := true, globalTok := tok }
  | none => return t

/-- `send_token_as_leader`: the tokenizer afterwards and the token sent. -/
def sendTokenAsLeader (t : Tokenizer) : Exec (Tokenizer × Token) := do
  assert (t.hasGlobalTok = true)
  let globalTok := t.globalTok.setWhite.resetCount
  assert (globalTok.white = true ∧ globalTok.isZero = true)
  return ({ tok := t.tok.setWhite, hasGlobalTok := false, globalTok := globalTok }, globalTok)

/-- `try_fetch_token_as_leader`: it returns true when the iteration is over. -/
def tryFetchTokenAsLeader (t : Tokenizer) (incoming : Option Token) : Exec Outcome := do
  assert (t.hasGlobalTok = false)
  match incoming with
  | none => return ⟨t, true, none, false⟩
  | some tok =>
    let globalTok ← tok.addCount t.tok.count
    let t : Tokenizer := { t with hasGlobalTok := true, globalTok := globalTok }
    if globalTok.white ∧ globalTok.isZero ∧ t.tok.white then
      -- `do_collective_end_iteration(1)`
      return ⟨t, true, none, true⟩
    else
      let (t, tok) ← t.sendTokenAsLeader
      return ⟨t, true, some tok, false⟩

/-- `send_token_as_idler`: the tokenizer afterwards and the token sent. -/
def sendTokenAsIdler (t : Tokenizer) : Exec (Tokenizer × Token) := do
  assert (t.hasGlobalTok = true)
  let globalTok := (← t.globalTok.addCount t.tok.count).setBlack
  return ({ t with globalTok := globalTok, hasGlobalTok := false }, globalTok)

/-- `try_fetch_token_as_idler`: it returns true when there was a token. -/
def tryFetchTokenAsIdler (t : Tokenizer) (incoming : Option Token) : Exec Outcome := do
  assert (t.hasGlobalTok = false)
  match incoming with
  | none => return ⟨t, true, none, false⟩
  | some tok =>
    let globalTok ← tok.addCount t.tok.count
    let globalTok := if t.tok.white then globalTok else globalTok.setBlack
    return ⟨{ tok := t.tok.setWhite, hasGlobalTok := false, globalTok := globalTok }, true,
      some globalTok, true⟩

/-- `busy_loop_token` on a machine; `ended` is what `try_fetch_end_iteration` returns. It returns
false when the iteration is over. -/
def busyLoopToken (leader useMpi turnedInactive ended : Bool) (incoming : Option Token)
    (t : Tokenizer) : Exec Outcome := do
  if turnedInactive then
    if leader then
      if t.hasGlobalTok ∧ ¬useMpi then
        return ⟨t, false, none, false⟩
      if t.hasGlobalTok then
        let (t, tok) ← t.sendTokenAsLeader
        return ⟨t, false, some tok, true⟩
      else
        let o ← t.tryFetchTokenAsLeader incoming
        return { o with result := !o.result }
    else if t.hasGlobalTok then
      let (t, tok) ← t.sendTokenAsIdler
      return ⟨t, false, some tok, true⟩
    else
      let o ← t.tryFetchTokenAsIdler incoming
      return { o with result := o.result || !ended }
  else if t.hasGlobalTok then
    return ⟨t, false, none, true⟩
  else
    return ⟨← t.tryFetchTokenAsWorker incoming, true, none, true⟩

/-! ### What a turn of the busy loop does -/

/-- `add_count` adds, where the sum is an `int`. -/
theorem Token.addCount_eq_ok {tok tok' : Token} {plus : ℤ} (h : tok.addCount plus = .ok tok') :
    tok' = ⟨tok.white, tok.count + plus⟩ := by
  obtain ⟨c, hc, hret⟩ := bind_eq_ok.mp h
  rw [(addInt_eq_ok.mp hc).2] at hret
  cases hret
  rfl

/-- What a call of `messages_were_transmitted` that returns has counted. -/
theorem messagesTransmitted_eq_ok {t t' : Tokenizer} {total : ℕ} (hint : (total : ℤ) ≤ maxInt)
    (h : t.messagesTransmitted total = .ok t') :
    t' = { t with tok := ⟨t.tok.white, t.tok.count + total⟩ } ∧
      t.tok.count + total ≤ maxInt := by
  obtain ⟨tok, htok, hret⟩ := bind_eq_ok.mp h
  obtain ⟨c, hc, hret'⟩ := bind_eq_ok.mp htok
  obtain ⟨hrange, rfl⟩ := addInt_eq_ok.mp hc
  cases hret'
  cases hret
  rw [wrap32_of_mem (by simp only [maxInt]; omega) hint] at hrange ⊢
  exact ⟨rfl, hrange.2⟩

/-- Messages that are received are taken off the count, which may wrap around upwards only. -/
theorem messagesReceived_count {t : Tokenizer} (total : ℕ) (h : t.tok.count ≤ maxInt) :
    t.tok.count - total ≤ (t.messagesReceived total).tok.count ∧
      (t.messagesReceived total).tok.count ≤ maxInt :=
  ⟨le_wrap32 (by omega), wrap32_le _⟩

/-- The leader sends a white token with a count of zero. -/
theorem sendTokenAsLeader_eq {t : Tokenizer} (h : t.hasGlobalTok = true) :
    t.sendTokenAsLeader = .ok (⟨t.tok.setWhite, false, ⟨true, 0⟩⟩, ⟨true, 0⟩) := by
  rw [sendTokenAsLeader, assert_pos h]
  rfl

/-- A turn that does not find the iteration over. -/
inductive Turn (leader idle : Bool) (t : Tokenizer) : Option Token → Outcome → Prop
  /-- nothing happens -/
  | stay {incoming : Option Token} {polled : Bool} (h : polled = true → incoming = none) :
    Turn leader idle t incoming ⟨t, polled, none, true⟩
  /-- an active machine takes the token -/
  | fetch {tok : Token} (hidle : idle = false) (hhas : t.hasGlobalTok = false) :
    Turn leader idle t (some tok)
      ⟨{ t with hasGlobalTok := true, globalTok := tok }, true, none, true⟩
  /-- the leader sends a fresh token for the one it has -/
  | start {incoming : Option Token} (hleader : leader = true) (hhas : t.hasGlobalTok = true) :
    Turn leader idle t incoming
      ⟨⟨t.tok.setWhite, false, ⟨true, 0⟩⟩, false, some ⟨true, 0⟩, true⟩
  /-- the leader sends a fresh token for the one that comes -/
  | restart {tok : Token} (hleader : leader = true) (hhas : t.hasGlobalTok = false) :
    Turn leader idle t (some tok)
      ⟨⟨t.tok.setWhite, false, ⟨true, 0⟩⟩, true, some ⟨true, 0⟩, true⟩
  /-- another machine passes the token it has on, black -/
  | release {incoming : Option Token} {tok : Token} (hidle : idle = true) (hleader : leader = false)
    (hhas : t.hasGlobalTok = true) (hblack : tok.white = false) :
    Turn leader idle t incoming ⟨⟨t.tok, false, tok⟩, false, some tok, true⟩
  /-- another machine passes the token that comes on -/
  | pass {tok tok' : Token} (hidle : idle = true) (hleader : leader = false)
    (hhas : t.hasGlobalTok = false) (hcount : tok'.count = tok.count + t.tok.count)
    (hwhite : tok'.white = true → tok.white = true ∧ t.tok.white = true) :
    Turn leader idle t (some tok) ⟨⟨t.tok.setWhite, false, tok'⟩, true, some tok', true⟩

/-- The turn of a leader that waits for the token, unless it finds the iteration over. -/
theorem tryFetchTokenAsLeader_turn {t : Tokenizer} {idle : Bool} {incoming : Option Token}
    {o : Outcome} (hhas : t.hasGlobalTok = false) (h : t.tryFetchTokenAsLeader incoming = .ok o)
    (hresult : o.result = false) : Turn true idle t incoming { o with result := !o.result } := by
  cases incoming with
  | none =>
    rw [tryFetchTokenAsLeader, assert_pos hhas, ok_bind] at h
    cases h
    exact .stay fun _ => rfl
  | some tok =>
    rw [tryFetchTokenAsLeader, assert_pos hhas, ok_bind] at h
    obtain ⟨globalTok, -, hrest⟩ := bind_eq_ok.mp h
    simp only at hrest
    split_ifs at hrest with hover
    · cases hrest
      cases hresult
    · rw [sendTokenAsLeader_eq rfl, ok_bind] at hrest
      cases hrest
      exact .restart rfl hhas

/-- The turn of another machine that waits for the token. -/
theorem tryFetchTokenAsIdler_turn {t : Tokenizer} {incoming : Option Token} {o : Outcome}
    (hhas : t.hasGlobalTok = false) (h : t.tryFetchTokenAsIdler incoming = .ok o) :
    Turn false true t incoming { o with result := true } := by
  cases incoming with
  | none =>
    rw [tryFetchTokenAsIdler, assert_pos hhas, ok_bind] at h
    cases h
    exact .stay fun _ => rfl
  | some tok =>
    rw [tryFetchTokenAsIdler, assert_pos hhas, ok_bind] at h
    obtain ⟨globalTok, hadd, hrest⟩ := bind_eq_ok.mp h
    obtain rfl := Token.addCount_eq_ok hadd
    cases hrest
    refine .pass rfl rfl hhas ?_ ?_
    · split_ifs <;> rfl
    · intro hwhite
      split_ifs at hwhite with htok
      · exact ⟨hwhite, htok⟩
      · cases hwhite

/-- The turns of the busy loop as long as no message of the end of the iteration comes. -/
theorem busyLoopToken_turn {leader useMpi idle : Bool} {incoming : Option Token} {t : Tokenizer}
    {o : Outcome} (h : busyLoopToken leader useMpi idle false incoming t = .ok o)
    (hresult : o.result = true) : Turn leader idle t incoming o := by
  -- by who has the token, who is idle and who leads
  cases hhas : t.hasGlobalTok with
  | true =>
    cases idle with
    | false =>
      simp only [busyLoopToken, hhas, Bool.false_eq_true, if_false, if_true, pure_eq_ok] at h
      cases h
      exact .stay nofun
    | true =>
      cases leader with
      | true =>
        cases useMpi with
        | false =>
          simp only [busyLoopToken, hhas, Bool.false_eq_true, not_false_eq_true, and_self, if_true,
            pure_eq_ok] at h
          cases h
          cases hresult
        | true =>
          simp only [busyLoopToken, hhas, not_true, and_false, if_false, if_true,
            sendTokenAsLeader_eq hhas, ok_bind, pure_eq_ok] at h
          cases h
          exact .start rfl hhas
      | false =>
        simp only [busyLoopToken, hhas, Bool.false_eq_true, if_false, if_true] at h
        obtain ⟨⟨t', tok⟩, hsend, hret⟩ := bind_eq_ok.mp h
        cases hret
        rw [sendTokenAsIdler, assert_pos hhas, ok_bind] at hsend
        obtain ⟨globalTok, -, hret⟩ := bind_eq_ok.mp hsend
        cases hret
        exact .release rfl rfl hhas rfl
  | false =>
    cases idle with
    | false =>
      simp only [busyLoopToken, hhas, Bool.false_eq_true, if_false] at h
      obtain ⟨t', hfetch, hret⟩ := bind_eq_ok.mp h
      cases hret
      cases incoming with
      | none =>
        rw [tryFetchTokenAsWorker, assert_pos hhas, ok_bind] at hfetch
        cases hfetch
        exact .stay fun _ => rfl
      | some tok =>
        rw [tryFetchTokenAsWorker, assert_pos hhas, ok_bind] at hfetch
        cases hfetch
        exact .fetch rfl hhas
    | true =>
      cases leader with
      | true =>
        simp only [busyLoopToken, hhas, Bool.false_eq_true, false_and, if_false, if_true] at h
        obtain ⟨o', hfetch, hret⟩ := bind_eq_ok.mp h
        cases hret
        exact tryFetchTokenAsLeader_turn hhas hfetch (by simpa using hresult)
      | false =>
        simp only [busyLoopToken, hhas, Bool.false_eq_true, if_false, if_true, Bool.not_false,
          Bool.or_true] at h
        obtain ⟨o', hfetch, hret⟩ := bind_eq_ok.mp h
        cases hret
        exact tryFetchTokenAsIdler_turn hhas hfetch

/-- When the busy loop of the leader finds the iteration over. -/
theorem busyLoopToken_over {useMpi idle ended : Bool} {incoming : Option Token} {t : Tokenizer}
    {o : Outcome} (h : busyLoopToken true useMpi idle ended incoming t = .ok o)
    (hresult : o.result = false) :
    idle = true ∧ (t.hasGlobalTok = true ∧ useMpi = false ∨ t.hasGlobalTok = false ∧
      ∃ tok, incoming = some tok ∧ tok.white = true ∧ t.tok.white = true ∧
        tok.count + t.tok.count = 0) := by
  cases idle with
  | false =>
    exfalso
    cases hhas : t.hasGlobalTok with
    | true =>
      simp only [busyLoopToken, hhas, Bool.false_eq_true, if_false, if_true, pure_eq_ok] at h
      cases h
      cases hresult
    | false =>
      simp only [busyLoopToken, hhas, Bool.false_eq_true, if_false] at h
      obtain ⟨t', -, hret⟩ := bind_eq_ok.mp h
      cases hret
      cases hresult
  | true =>
    refine ⟨rfl, ?_⟩
    cases hhas : t.hasGlobalTok with
    | true =>
      cases useMpi with
      | false => exact .inl ⟨rfl, rfl⟩
      | true =>
        simp only [busyLoopToken, hhas, not_true, and_false, if_false, if_true,
          sendTokenAsLeader_eq hhas, ok_bind, pure_eq_ok] at h
        cases h
        cases hresult
    | false =>
      simp only [busyLoopToken, hhas, Bool.false_eq_true, false_and, if_false, if_true] at h
      obtain ⟨o', hfetch, hret⟩ := bind_eq_ok.mp h
      cases hret
      refine .inr ⟨rfl, ?_⟩
      cases incoming with
      | none =>
        rw [tryFetchTokenAsLeader, assert_pos hhas, ok_bind] at hfetch
        cases hfetch
        cases hresult
      | some tok =>
        rw [tryFetchTokenAsLeader, assert_pos hhas, ok_bind] at hfetch
        obtain ⟨globalTok, hadd, hrest⟩ := bind_eq_ok.mp hfetch
        obtain rfl := Token.addCount_eq_ok hadd
        simp only at hrest
        split_ifs at hrest with hover
        · exact ⟨tok, rfl, hover.1, hover.2.2, beq_iff_eq.mp hover.2.1⟩
        · rw [sendTokenAsLeader_eq rfl, ok_bind] at hrest
          cases hrest
          cases hresult

end Tokenizer

end Meld.Sched
