import Meld.Lib.Exec
import Meld.Lib.Loop

/-!
# The end of an iteration among the machines

When the leader has found that an iteration is over it tells the others along a binomial tree: at
stage `s` every machine of a rank below `2 ^ (s - 1)` sends to the machine `2 ^ (s - 1)` above.
Sender and receiver compute the tree separately, `doCollectiveEndIteration` from the stage and
`findSourceCollective` from the rank.

Ranks are signed 32-bit integers, and so are the powers of two that they are compared with; a
power that does not fit is an overflow.
-/

namespace Meld.Sched

open Lib

/-! ### Powers and logarithms -/

/-- Signed 32-bit multiplication; overflow is undefined and stops the run. -/
def mulInt (x y : ℤ) : Exec ℤ :=
  if -maxInt - 1 ≤ x * y ∧ x * y ≤ maxInt then .ok (x * y) else .error .overflow

/-- The loop of `power`: the multiplications that remain. -/
def powerLoop (base : ℤ) : ℕ → ℤ → Exec ℤ
  | 0, ret => return ret
  | k + 1, ret => do powerLoop base k (← mulInt ret base)

/-- `power<int>(base, exp)`. -/
def power (base : ℤ) (exp : ℕ) : Exec ℤ :=
  if exp = 0 then return 1 else powerLoop base (exp - 1) base

/-- The body of the loop of `upper_log2`, over `m` and `i`. -/
def upperLog2Step (n : ℕ) (s : ℕ × ℕ) : Exec ((ℕ × ℕ) ⊕ ℕ) :=
  if n ≤ s.1 then return .inr s.2 else return .inl (s.1 * 2 % 2 ^ 64, s.2 + 1)

/-- `upper_log2` of an unsigned 64-bit integer: doubles `m` until it reaches `n`. Beyond `2 ^ 63`
the loop does not end. -/
def upperLog2 (n : ℕ) : Exec ℕ :=
  if 0 < n then iterate (upperLog2Step n) 65 (1, 0) else return 2 ^ 64 - 1

/-- A call of the message layer. -/
inductive Call
  /-- `send_end_iteration(stage, dest)` -/
  | send (stage : ℕ) (dest : ℤ)
  /-- `receive_end_iteration(source)` -/
  | receive (source : ℤ)
  deriving DecidableEq, Repr

/-- The stages of `do_collective_end_iteration` from `stage` on, of which `k` remain, on the
machine `rank` of a world of `worldSize`. -/
def collectiveLoop (worldSize : ℕ) (rank : ℤ) : ℕ → ℕ → Exec (List Call)
  | 0, _ => return []
  | k + 1, stage => do
    let half ← power 2 (stage - 1)
    if rank < half then
      let dest ← addInt rank half
      assert (0 ≤ dest)
      let calls ← collectiveLoop worldSize rank k (stage + 1)
      if dest.toNat < worldSize then
        return .send stage dest :: calls
      else
        return calls
    else
      let full ← power 2 stage
      let calls ← collectiveLoop worldSize rank k (stage + 1)
      if half ≤ rank ∧ rank < full then
        return .receive (rank - half) :: calls
      else
        return calls

/-- `do_collective_end_iteration`: the calls it makes, in order. -/
def doCollectiveEndIteration (worldSize : ℕ) (rank : ℤ) (stage : ℕ) : Exec (List Call) := do
  let last ← upperLog2 worldSize
  collectiveLoop worldSize rank (last + 1 - stage) stage

/-- The stages of `find_source_collective`. -/
def sourceLoop (rank : ℤ) : ℕ → ℕ → Exec ℤ
  | 0, _ => throw .assertion
  | k + 1, stage => do
    let half ← power 2 (stage - 1)
    if rank < half then
      throw .assertion
    else
      let full ← power 2 stage
      if half ≤ rank ∧ rank < full then
        return rank - half
      else
        sourceLoop rank k (stage + 1)

/-- `find_source_collective`: the rank from which the machine `rank` gets the message. -/
def findSourceCollective (worldSize : ℕ) (rank : ℤ) : Exec ℤ := do
  let last ← upperLog2 worldSize
  sourceLoop rank last 1

/-! ### What they compute -/

theorem powerLoop_two {k e : ℕ} (h : k + e ≤ 30) :
    powerLoop 2 k (2 ^ e : ℕ) = .ok (2 ^ (k + e) : ℕ) := by
  induction k generalizing e with
  | zero => rw [Nat.zero_add]; rfl
  | succ k ih =>
    have hle : 2 ^ (e + 1) ≤ 2 ^ 30 := Nat.pow_le_pow_right (by decide) (by omega)
    have hpow : ((2 ^ e : ℕ) : ℤ) * 2 = (2 ^ (e + 1) : ℕ) := by
      rw [Nat.pow_succ]
      rfl
    have hmul : mulInt (2 ^ e : ℕ) 2 = .ok (2 ^ (e + 1) : ℕ) := by
      rw [mulInt, hpow]
      generalize 2 ^ (e + 1) = p at hle
      rw [if_pos ⟨by simp only [maxInt]; omega, by simp only [maxInt]; omega⟩]
    rw [powerLoop, hmul, ok_bind, ih (by omega), show k + (e + 1) = k + 1 + e by omega]

theorem power_two {e : ℕ} (h : e ≤ 30) : power 2 e = .ok (2 ^ e : ℕ) := by
  rcases Nat.eq_zero_or_pos e with rfl | hpos
  · rfl
  · have hloop := powerLoop_two (k := e - 1) (e := 1) (by omega)
    rw [power, if_neg hpos.ne']
    rwa [Nat.sub_add_cancel hpos] at hloop

/-- The first power of two that does not fit. -/
theorem power_two_overflow : power 2 31 = .error .overflow := by decide +kernel

/-- `upper_log2` rounds the logarithm up. -/
theorem upperLog2_eq {n : ℕ} (hpos : 0 < n) (hn : n ≤ 2 ^ 63) :
    upperLog2 n = .ok (Nat.clog 2 n) := by
  have hstep : ∀ s : ℕ × ℕ, s.1 = 2 ^ s.2 ∧ s.2 ≤ Nat.clog 2 n →
      (∃ s', upperLog2Step n s = .ok (.inl s') ∧ (s'.1 = 2 ^ s'.2 ∧ s'.2 ≤ Nat.clog 2 n) ∧
        Nat.clog 2 n - s'.2 < Nat.clog 2 n - s.2) ∨
      ∃ a, upperLog2Step n s = .ok (.inr a) ∧ a = Nat.clog 2 n := by
    rintro ⟨m, i⟩ ⟨hm, hi⟩
    simp only [upperLog2Step] at hm hi ⊢
    subst hm
    rcases Nat.lt_or_ge (2 ^ i) n with hlt | hge
    · have hi' : i < Nat.clog 2 n := (Nat.lt_clog_iff_pow_lt (by decide)).mpr hlt
      refine .inl ⟨(2 ^ (i + 1), i + 1), ?_, ⟨rfl, hi'⟩, by omega⟩
      rw [if_neg (by omega), Nat.mod_eq_of_lt (by omega), Nat.pow_succ]
      rfl
    · refine .inr ⟨i, by rw [if_pos hge]; rfl, ?_⟩
      exact Nat.le_antisymm hi ((Nat.clog_le_iff_le_pow (by decide)).mpr hge)
  have hclog : Nat.clog 2 n ≤ 63 := (Nat.clog_le_iff_le_pow (by decide)).mpr hn
  obtain ⟨a, hrun, rfl⟩ := iterate_of_variant _ _ (fun s : ℕ × ℕ => Nat.clog 2 n - s.2) hstep
    (s := (1, 0)) ⟨rfl, Nat.zero_le _⟩ (show Nat.clog 2 n - 0 < 65 by omega)
  rw [upperLog2, if_pos hpos]
  exact hrun

/-- The logarithm of a large number is large; beyond `2 ^ 63` there is none. -/
theorem lt_of_upperLog2 {n last : ℕ} (h : upperLog2 n = .ok last) (hn : 2 ^ 30 < n) :
    30 < last := by
  rw [upperLog2, if_pos (by omega)] at h
  refine iterate_of_invariant (I := fun s => s.2 ≤ 30 → s.1 = 2 ^ s.2) (Q := fun a => 30 < a)
    ?_ ?_ (fun _ => rfl) h
  · rintro ⟨m, i⟩ s' hm hs' hi
    simp only [upperLog2Step, pure_eq_ok] at hm hs'
    split_ifs at hs' with hle
    · cases hs'
    · cases hs'
      change i + 1 ≤ 30 at hi
      change m * 2 % 2 ^ 64 = 2 ^ (i + 1)
      have hlt : 2 ^ i ≤ 2 ^ 30 := Nat.pow_le_pow_right (by decide) (by omega)
      rw [hm (by omega), Nat.mod_eq_of_lt (by omega), Nat.pow_succ]
  · rintro ⟨m, i⟩ a hm ha
    simp only [upperLog2Step, pure_eq_ok] at hm ha
    split_ifs at ha with hle
    · cases ha
      by_contra hi
      have hlt : 2 ^ i ≤ 2 ^ 30 := Nat.pow_le_pow_right (by decide) (by omega)
      rw [hm (by omega)] at hle
      omega
    · cases ha

/-! ### The tree -/

/-- The stage at which the machine `r` is reached. -/
def reachedAt (r : ℕ) : ℕ := Nat.log2 r + 1

/-- The rank with the highest bit cleared. -/
def clearHighest (r : ℕ) : ℕ := r - 2 ^ Nat.log2 r

theorem clearHighest_lt {r : ℕ} (hr : r ≠ 0) : clearHighest r < r := by
  have := Nat.log2_self_le hr
  have := Nat.two_pow_pos (Nat.log2 r)
  unfold clearHighest
  omega

/-- The sends of a machine `r` from a stage on, `k` stages remaining. -/
def sends (n r : ℕ) : ℕ → ℕ → List Call
  | 0, _ => []
  | k + 1, stage =>
    if r + 2 ^ (stage - 1) < n then
      .send stage (r + 2 ^ (stage - 1) : ℕ) :: sends n r k (stage + 1)
    else sends n r k (stage + 1)

/-- A machine below the power of its first stage only sends. -/
theorem collectiveLoop_eq {n r k stage : ℕ} (hlast : stage + k ≤ 32) (hr : r < 2 ^ (stage - 1))
    (hstage : 0 < stage) : collectiveLoop n r k stage = .ok (sends n r k stage) := by
  induction k generalizing stage with
  | zero => rfl
  | succ k ih =>
    have hpow : 2 ^ (stage - 1) ≤ 2 ^ 30 := Nat.pow_le_pow_right (by decide) (by omega)
    have hnext : r < 2 ^ (stage + 1 - 1) :=
      hr.trans_le (Nat.pow_le_pow_right (by decide) (by omega))
    rw [collectiveLoop, sends, power_two (by omega), ok_bind, if_pos (by exact_mod_cast hr)]
    generalize 2 ^ (stage - 1) = half at *
    have hadd : addInt r half = .ok (r + half : ℕ) := by
      rw [addInt_of_mem (by simp only [maxInt]; omega) (by simp only [maxInt]; omega)]
      rfl
    rw [hadd, ok_bind, assert_pos (by omega), ok_bind, ih (by omega) hnext (by omega), ok_bind,
      Int.toNat_natCast]
    split_ifs <;> rfl

/-- The calls of a machine that has been reached, and those of the leader. -/
theorem doCollectiveEndIteration_eq {n r stage : ℕ} (hn : n ≤ 2 ^ 30) (hr : r < 2 ^ (stage - 1))
    (hpos : 0 < n) (hstage : 0 < stage) :
    doCollectiveEndIteration n r stage = .ok (sends n r (Nat.clog 2 n + 1 - stage) stage) := by
  have hclog : Nat.clog 2 n ≤ 30 := (Nat.clog_le_iff_le_pow (by decide)).mpr hn
  rw [doCollectiveEndIteration, upperLog2_eq hpos (by omega), ok_bind]
  rcases Nat.lt_or_ge stage (Nat.clog 2 n + 2) with hlt | hge
  · exact collectiveLoop_eq (by omega) hr hstage
  · rw [show Nat.clog 2 n + 1 - stage = 0 by omega]
    rfl

/-- The search finds the stage whose powers enclose the rank. -/
theorem sourceLoop_eq {r k stage : ℕ} (hr : r ≠ 0) (hfits : reachedAt r ≤ 30)
    (hstage : 0 < stage) (hle : stage ≤ reachedAt r) (hlt : reachedAt r < stage + k) :
    sourceLoop r k stage = .ok (clearHighest r) := by
  induction k generalizing stage with
  | zero => omega
  | succ k ih =>
    unfold reachedAt at hle hlt hfits ih
    have hhalf : 2 ^ (stage - 1) ≤ r := (Nat.le_log2 hr).mp (by omega)
    rw [sourceLoop, power_two (by omega), ok_bind, if_neg (by exact_mod_cast hhalf.not_gt),
      power_two (by omega), ok_bind]
    rcases hle.eq_or_lt with rfl | hlt'
    · have hself := Nat.log2_self_le hr
      have hfull : r < 2 ^ (Nat.log2 r + 1) := Nat.lt_log2_self
      rw [Nat.add_sub_cancel, if_pos ⟨by exact_mod_cast hself, by exact_mod_cast hfull⟩,
        clearHighest, pure_eq_ok, Int.ofNat_sub hself]
    · have hfull : 2 ^ stage ≤ r := (Nat.le_log2 hr).mp (by omega)
      rw [if_neg fun h => hfull.not_gt (by exact_mod_cast h.2)]
      exact ih (by omega) (by omega) (by omega)

/-- `find_source_collective` clears the highest bit. -/
theorem findSourceCollective_eq {n r : ℕ} (hn : n ≤ 2 ^ 30) (hr : r ≠ 0) (hlt : r < n) :
    findSourceCollective n r = .ok (clearHighest r) := by
  have hlog : Nat.log2 r < Nat.clog 2 n :=
    (Nat.log2_lt hr).mpr (hlt.trans_le (Nat.le_pow_clog (by decide) n))
  have hclog : Nat.clog 2 n ≤ 30 := (Nat.clog_le_iff_le_pow (by decide)).mpr hn
  rw [findSourceCollective, upperLog2_eq (by omega) (by omega), ok_bind]
  exact sourceLoop_eq hr (by unfold reachedAt; omega) (by decide) (by unfold reachedAt; omega)
    (by unfold reachedAt; omega)

/-- At the rank `2 ^ 30` the search runs into the power that does not fit. -/
theorem sourceLoop_overflow {k stage : ℕ} (hstage : 0 < stage) (hle : stage ≤ 31)
    (hlt : 31 < stage + k) : sourceLoop (2 ^ 30 : ℕ) k stage = .error .overflow := by
  induction k generalizing stage with
  | zero => omega
  | succ k ih =>
    have hhalf : 2 ^ (stage - 1) ≤ 2 ^ 30 := Nat.pow_le_pow_right (by decide) (by omega)
    rw [sourceLoop, power_two (by omega), ok_bind, if_neg (by exact_mod_cast hhalf.not_gt)]
    rcases hle.eq_or_lt with rfl | hlt'
    · rw [power_two_overflow, error_bind]
    · have hfull : 2 ^ stage ≤ 2 ^ 30 := Nat.pow_le_pow_right (by decide) (by omega)
      rw [power_two (by omega), ok_bind, if_neg fun h => hfull.not_gt (by exact_mod_cast h.2)]
      exact ih (by omega) (by omega) (by omega)

/-- The machine of rank `2 ^ 30` finds no source. -/
theorem findSourceCollective_overflow {n : ℕ} (hn : 2 ^ 30 < n) (source : ℤ) :
    findSourceCollective n (2 ^ 30 : ℕ) ≠ .ok source := by
  intro h
  obtain ⟨last, hlast, hloop⟩ := bind_eq_ok.mp h
  have := lt_of_upperLog2 hlast hn
  rw [sourceLoop_overflow (by decide) (by decide) (by omega)] at hloop
  cases hloop

/-! ### The calls of one machine -/

/-- The first stage at which the machine sends. -/
def firstStage (r : ℕ) : ℕ := if r = 0 then 1 else reachedAt r + 1

theorem firstStage_pos (r : ℕ) : 0 < firstStage r := by
  unfold firstStage
  split_ifs <;> omega

theorem lt_pow_firstStage (r : ℕ) : r < 2 ^ (firstStage r - 1) := by
  unfold firstStage
  split_ifs with hr
  · omega
  · exact Nat.lt_log2_self

/-- All calls of the machine. -/
def program (n r : ℕ) : List Call := sends n r (Nat.clog 2 n + 1 - firstStage r) (firstStage r)

theorem mem_sends {n r k stage : ℕ} {c : Call} :
    c ∈ sends n r k stage ↔ ∃ i, stage ≤ i ∧ i < stage + k ∧ r + 2 ^ (i - 1) < n ∧
      c = .send i (r + 2 ^ (i - 1) : ℕ) := by
  induction k generalizing stage with
  | zero =>
    simp only [sends, List.not_mem_nil, false_iff, not_exists]
    omega
  | succ k ih =>
    have hsplit : ∀ i, (stage ≤ i ∧ i < stage + (k + 1)) ↔
        i = stage ∨ (stage + 1 ≤ i ∧ i < stage + 1 + k) := by omega
    rw [sends]
    split_ifs with hdest
    · rw [List.mem_cons, ih]
      constructor
      · rintro (rfl | ⟨i, h₁, h₂, h₃, rfl⟩)
        · exact ⟨stage, le_rfl, by omega, hdest, rfl⟩
        · exact ⟨i, by omega, by omega, h₃, rfl⟩
      · rintro ⟨i, h₁, h₂, h₃, rfl⟩
        rcases (hsplit i).mp ⟨h₁, h₂⟩ with rfl | ⟨h₁, h₂⟩
        · exact .inl rfl
        · exact .inr ⟨i, h₁, h₂, h₃, rfl⟩
    · rw [ih]
      constructor
      · rintro ⟨i, h₁, h₂, h₃, rfl⟩
        exact ⟨i, by omega, by omega, h₃, rfl⟩
      · rintro ⟨i, h₁, h₂, h₃, rfl⟩
        rcases (hsplit i).mp ⟨h₁, h₂⟩ with rfl | ⟨h₁, h₂⟩
        · exact absurd h₃ hdest
        · exact ⟨i, h₁, h₂, h₃, rfl⟩

theorem sends_nodup (n r k stage : ℕ) : (sends n r k stage).Nodup := by
  induction k generalizing stage with
  | zero => exact List.nodup_nil
  | succ k ih =>
    rw [sends]
    split_ifs
    · refine List.nodup_cons.mpr ⟨fun hmem => ?_, ih _⟩
      obtain ⟨i, hi, -, -, he⟩ := mem_sends.mp hmem
      rw [Call.send.injEq] at he
      omega
    · exact ih _

/-- The message to `d` is sent by the machine that `d` waits for, and by no other. -/
theorem mem_program {n r : ℕ} {c : Call} :
    c ∈ program n r ↔ ∃ d, d ≠ 0 ∧ d < n ∧ clearHighest d = r ∧ c = .send (reachedAt d) d := by
  rw [program, mem_sends]
  constructor
  · rintro ⟨i, hi, hi', hlt, rfl⟩
    have hr : r < 2 ^ (i - 1) :=
      (lt_pow_firstStage r).trans_le (Nat.pow_le_pow_right (by decide) (by omega))
    have hpos := firstStage_pos r
    have hsucc : 2 ^ (i - 1 + 1) = 2 * 2 ^ (i - 1) := Nat.pow_succ'
    have hne : r + 2 ^ (i - 1) ≠ 0 := by omega
    have hlog : Nat.log2 (r + 2 ^ (i - 1)) = i - 1 :=
      (Nat.log2_eq_iff hne).mpr ⟨by omega, by omega⟩
    refine ⟨r + 2 ^ (i - 1), hne, hlt, ?_, ?_⟩
    · rw [clearHighest, hlog, Nat.add_sub_cancel]
    · rw [reachedAt, hlog, Nat.sub_add_cancel (by omega)]
  · rintro ⟨d, hd, hlt, rfl, rfl⟩
    have hself := Nat.log2_self_le hd
    have hsum : clearHighest d + 2 ^ (reachedAt d - 1) = d := by
      rw [clearHighest, reachedAt, Nat.add_sub_cancel, Nat.sub_add_cancel hself]
    have hlog : Nat.log2 d < Nat.clog 2 n :=
      (Nat.log2_lt hd).mpr (hlt.trans_le (Nat.le_pow_clog (by decide) n))
    have hfirst : firstStage (clearHighest d) ≤ reachedAt d := by
      unfold firstStage
      split_ifs with hzero
      · unfold reachedAt
        omega
      · have hbelow : clearHighest d < 2 ^ Nat.log2 d := by
          have hself' : d < 2 ^ (Nat.log2 d + 1) := Nat.lt_log2_self
          rw [Nat.pow_succ'] at hself'
          unfold clearHighest
          omega
        have := (Nat.log2_lt hzero).mpr hbelow
        unfold reachedAt
        omega
    refine ⟨reachedAt d, hfirst, ?_, by rw [hsum]; exact hlt, by rw [hsum]⟩
    unfold reachedAt at hfirst ⊢
    omega

end Meld.Sched
