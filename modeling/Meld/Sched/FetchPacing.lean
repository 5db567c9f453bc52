import Mathlib

/-!
# The pace of fetching messages

An MPI handler looks for messages every `step_fetch` rounds of its work loop, and whenever its idle
loop has nothing to do. It looks less often after it has found nothing and more often after it has
found something. A round compares the counter of the rounds with the step for equality, so the step
must not come down to the counter: `paced_iff` says for which sequences of calls it does not.
-/

namespace Meld.Sched

/-! ### The constants -/

/-- `MPI_ROUND_TRIP_UPDATE`. -/
def roundTripUpdateMax : ℕ := 200

/-- `MPI_DEFAULT_ROUND_TRIP_SEND`. -/
def defaultRoundTripSend : ℕ := 250

/-- `MPI_DEFAULT_ROUND_TRIP_FETCH`. -/
def defaultRoundTripFetch : ℕ := 500

/-- `MPI_MIN_ROUND_TRIP_FETCH`. -/
def minRoundTripFetch : ℕ := 10

/-- `MPI_DECREASE_ROUND_TRIP_FETCH`. -/
def decreaseRoundTripFetch : ℕ := 10

/-- `MPI_INCREASE_ROUND_TRIP_FETCH`. -/
def increaseRoundTripFetch : ℕ := 10

/-- `MPI_MAX_ROUND_TRIP_FETCH`. -/
def maxRoundTripFetch : ℕ := 100000

/-! ### The handler -/

/-- The counters of an `mpi_handler`. -/
structure Pacing where
  stepFetch : ℕ
  stepSend : ℕ
  roundTripFetch : ℕ
  roundTripUpdate : ℕ
  roundTripSend : ℕ
  deriving DecidableEq, Repr

namespace Pacing

/-- `mpi_handler()`. -/
def new : Pacing := ⟨defaultRoundTripFetch, defaultRoundTripSend, 0, 0, 0⟩

/-- The increment of a `size_t`. -/
def inc (n : ℕ) : ℕ := (n + 1) % 2 ^ 64

/-- `fetch_work`, when `recv_attempt` returns that many sets of messages before it returns none. A
router without MPI does not look for any. -/
def fetchWork (useMpi : Bool) (sets : ℕ) (p : Pacing) : Pacing :=
  if useMpi = false then p
  else if 0 < sets % 2 ^ 64 then
    let step := if minRoundTripFetch < p.stepFetch then p.stepFetch - decreaseRoundTripFetch
      else p.stepFetch
    { p with stepFetch := max step minRoundTripFetch }
  else if p.stepFetch < maxRoundTripFetch then
    { p with stepFetch := p.stepFetch + increaseRoundTripFetch }
  else p

/-- `do_mpi_worker_cycle`. -/
def doMpiWorkerCycle (p : Pacing) : Pacing :=
  let update := inc p.roundTripUpdate
  let send := inc p.roundTripSend
  { p with
    roundTripUpdate := if update = roundTripUpdateMax then 0 else update
    roundTripSend := if send = p.stepSend then 0 else send }

/-- One more round, in which messages are fetched when it is time. -/
def fetchRound (useMpi : Bool) (sets : ℕ) (p : Pacing) : Pacing :=
  let p := { p with roundTripFetch := inc p.roundTripFetch }
  if p.roundTripFetch = p.stepFetch then { fetchWork useMpi sets p with roundTripFetch := 0 } else p

/-- `do_mpi_leader_cycle`. -/
def doMpiLeaderCycle (useMpi : Bool) (sets : ℕ) (p : Pacing) : Pacing := fetchRound useMpi sets p

/-- `do_mpi_cycle`. -/
def doMpiCycle (useMpi : Bool) (sets : ℕ) (p : Pacing) : Pacing :=
  fetchRound useMpi sets (doMpiWorkerCycle p)

/-! ### Runs -/

/-- The calls of the two loops, each with the sets of messages that it would receive. -/
inductive Call
  | workerCycle
  | leaderCycle (sets : ℕ)
  | cycle (sets : ℕ)
  | fetchWork (sets : ℕ)
  deriving DecidableEq, Repr

/-- A call. -/
def run (useMpi : Bool) (p : Pacing) : Call → Pacing
  | .workerCycle => doMpiWorkerCycle p
  | .leaderCycle sets => doMpiLeaderCycle useMpi sets p
  | .cycle sets => doMpiCycle useMpi sets p
  | .fetchWork sets => fetchWork useMpi sets p

/-- The states of the handler, from one on. -/
def states (useMpi : Bool) : Pacing → List Call → List Pacing
  | p, [] => [p]
  | p, c :: cs => p :: states useMpi (run useMpi p c) cs

/-- A round of a loop that counts towards the next time messages are fetched. -/
def Call.isRound : Call → Bool
  | .leaderCycle _ | .cycle _ => true
  | .workerCycle | .fetchWork _ => false

/-- No call of `fetch_work` happens. -/
def NoFetch (useMpi : Bool) : Pacing → List Call → Prop
  | _, [] => True
  | p, c :: cs =>
    (match c with
      | .workerCycle => True
      | .leaderCycle _ | .cycle _ => inc p.roundTripFetch ≠ p.stepFetch
      | .fetchWork _ => False) ∧ NoFetch useMpi (run useMpi p c) cs

/-! ### The pace -/

/-- The counter is below the step, and the step within its bounds. -/
structure Paced (p : Pacing) : Prop where
  round_lt : p.roundTripFetch < p.stepFetch
  min_le : minRoundTripFetch ≤ p.stepFetch
  le_max : p.stepFetch ≤ maxRoundTripFetch

/-- Among calls that follow one another without a call of `fetch_work` there are less than
`maxRoundTripFetch` rounds, with any number of worker cycles between them. -/
def FetchesInTime (useMpi : Bool) (calls : List Call) : Prop :=
  ∀ pre mid post, calls = pre ++ (mid ++ post) →
    NoFetch useMpi (pre.foldl (run useMpi) new) mid → mid.countP Call.isRound < maxRoundTripFetch

/-- The idle loop does not receive messages when the counter is within one decrease of the step,
unless the step is the least one. -/
def InStep (useMpi : Bool) (p : Pacing) : Call → Prop
  | .fetchWork sets => useMpi = true → 0 < sets % 2 ^ 64 →
    p.stepFetch ≤ minRoundTripFetch ∨ p.roundTripFetch + decreaseRoundTripFetch < p.stepFetch
  | _ => True

/-- All calls are in step. -/
def AllInStep (useMpi : Bool) : Pacing → List Call → Prop
  | _, [] => True
  | p, c :: cs => InStep useMpi p c ∧ AllInStep useMpi (run useMpi p c) cs

/-! ### Steps -/

variable {useMpi : Bool} {sets : ℕ} {p : Pacing} {c : Call}

/-- A step that the decrease and the increase lead to. -/
structure Tuned (p : Pacing) : Prop where
  dvd : 10 ∣ p.stepFetch
  min_le : minRoundTripFetch ≤ p.stepFetch
  le_max : p.stepFetch ≤ maxRoundTripFetch

theorem Tuned.new : Tuned new := by
  refine ⟨?_, ?_, ?_⟩ <;> decide

@[simp] theorem fetchWork_roundTripFetch :
    (fetchWork useMpi sets p).roundTripFetch = p.roundTripFetch := by
  unfold fetchWork
  split_ifs <;> rfl

/-- What fetching does to the step. -/
theorem Tuned.stepFetch_fetchWork (h : Tuned p) (useMpi : Bool) (sets : ℕ) :
    (fetchWork useMpi sets p).stepFetch =
      if useMpi = true ∧ 0 < sets % 2 ^ 64 then
        (if minRoundTripFetch < p.stepFetch then p.stepFetch - decreaseRoundTripFetch
          else p.stepFetch)
      else if useMpi = true ∧ p.stepFetch < maxRoundTripFetch then
        p.stepFetch + increaseRoundTripFetch
      else p.stepFetch := by
  obtain ⟨hdvd, hmin, hmax⟩ := h
  unfold minRoundTripFetch at hmin
  unfold fetchWork
  cases useMpi with
  | false => simp
  | true =>
    simp only [Bool.true_eq_false, if_false, true_and]
    by_cases hsets : 0 < sets % 2 ^ 64
    · simp only [if_pos hsets]
      refine Nat.max_eq_left ?_
      unfold minRoundTripFetch decreaseRoundTripFetch
      split_ifs <;> omega
    · simp only [if_neg hsets]
      split_ifs <;> rfl

theorem Tuned.fetchWork (h : Tuned p) : Tuned (fetchWork useMpi sets p) := by
  have hstep := h.stepFetch_fetchWork useMpi sets
  obtain ⟨hdvd, hmin, hmax⟩ := h
  unfold minRoundTripFetch maxRoundTripFetch at *
  unfold decreaseRoundTripFetch increaseRoundTripFetch at hstep
  refine ⟨?_, ?_, ?_⟩
  · rw [hstep]
    split_ifs <;> omega
  · rw [hstep, minRoundTripFetch]
    split_ifs <;> omega
  · rw [hstep, maxRoundTripFetch]
    split_ifs <;> omega

theorem Tuned.fetchRound (h : Tuned p) : Tuned (fetchRound useMpi sets p) := by
  unfold Pacing.fetchRound
  have h' : Tuned { p with roundTripFetch := inc p.roundTripFetch } := ⟨h.dvd, h.min_le, h.le_max⟩
  dsimp only
  split_ifs
  · have h'' : Tuned (Pacing.fetchWork useMpi sets _) := h'.fetchWork
    exact ⟨h''.dvd, h''.min_le, h''.le_max⟩
  · exact h'

/-- The step stays within its bounds whatever is called. -/
theorem Tuned.run (h : Tuned p) : Tuned (run useMpi p c) := by
  have hworker : Tuned (doMpiWorkerCycle p) := ⟨h.dvd, h.min_le, h.le_max⟩
  cases c with
  | workerCycle => exact hworker
  | leaderCycle sets => exact h.fetchRound
  | cycle sets => exact hworker.fetchRound
  | fetchWork sets => exact h.fetchWork

/-- A round leaves the counter below the step. -/
theorem Paced.fetchRound (h : Tuned p) (hp : Paced p) : Paced (fetchRound useMpi sets p) := by
  have htuned : Tuned (Pacing.fetchRound useMpi sets p) := h.fetchRound
  refine ⟨?_, htuned.min_le, htuned.le_max⟩
  have hmin := htuned.min_le
  have hlt := hp.round_lt
  have hmax := hp.le_max
  unfold minRoundTripFetch at hmin
  unfold maxRoundTripFetch at hmax
  unfold Pacing.fetchRound inc at *
  dsimp only at *
  split_ifs at * with heq
  · exact Nat.lt_of_lt_of_le (by decide : 0 < 10) hmin
  · dsimp only at *
    omega

/-- A call that is in step leaves the counter below the step, and only such a call does. -/
theorem Paced.run_iff (h : Tuned p) (hp : Paced p) :
    Paced (run useMpi p c) ↔ InStep useMpi p c := by
  have hworker : Tuned (doMpiWorkerCycle p) := ⟨h.dvd, h.min_le, h.le_max⟩
  have hpworker : Paced (doMpiWorkerCycle p) := ⟨hp.round_lt, hp.min_le, hp.le_max⟩
  cases c with
  | workerCycle => exact iff_of_true hpworker trivial
  | leaderCycle sets => exact iff_of_true (hp.fetchRound h) trivial
  | cycle sets => exact iff_of_true (hpworker.fetchRound hworker) trivial
  | fetchWork sets =>
    have htuned : Tuned (Pacing.fetchWork useMpi sets p) := h.fetchWork
    have hstep := h.stepFetch_fetchWork useMpi sets
    have hlt := hp.round_lt
    have hiff : Paced (run useMpi p (.fetchWork sets)) ↔
        p.roundTripFetch < (Pacing.fetchWork useMpi sets p).stepFetch := by
      constructor
      · intro hpaced
        have hround := hpaced.round_lt
        rwa [run, fetchWork_roundTripFetch] at hround
      · intro hround
        refine ⟨?_, htuned.min_le, htuned.le_max⟩
        rwa [run, fetchWork_roundTripFetch]
    rw [hiff, hstep, InStep]
    unfold increaseRoundTripFetch decreaseRoundTripFetch
    by_cases hreceived : useMpi = true ∧ 0 < sets % 2 ^ 64
    · rw [if_pos hreceived]
      split_ifs with hmin
      · constructor
        · intro hround _ _
          exact .inr (by omega)
        · intro hround
          rcases hround hreceived.1 hreceived.2 with hle | hlt
          · exact absurd hmin (Nat.not_lt.mpr hle)
          · omega
      · exact iff_of_true hlt fun _ _ => .inl (Nat.not_lt.mp hmin)
    · rw [if_neg hreceived]
      refine iff_of_true ?_ fun hmpi hsets => absurd ⟨hmpi, hsets⟩ hreceived
      split_ifs <;> omega

/-! ### Runs in step -/

theorem allInStep_iff (h : Tuned p) (hp : Paced p) (calls : List Call) :
    (∀ q ∈ states useMpi p calls, Paced q) ↔ AllInStep useMpi p calls := by
  induction calls generalizing p with
  | nil => simpa [states, AllInStep] using hp
  | cons c cs ih =>
    rw [states, AllInStep, List.forall_mem_cons, ← hp.run_iff h]
    have hmem : run useMpi p c ∈ states useMpi (run useMpi p c) cs := by
      cases cs <;> exact List.mem_cons_self
    constructor
    · rintro ⟨-, hall⟩
      exact ⟨hall _ hmem, (ih h.run (hall _ hmem)).mp hall⟩
    · rintro ⟨hpaced, hrest⟩
      exact ⟨hp, (ih h.run hpaced).mpr hrest⟩

/-- A call without `fetch_work` leaves the step, and counts up to below it if it is a round. -/
theorem Paced.counts (hp : Paced p) {mid : List Call} (hno : NoFetch useMpi p (c :: mid)) :
    Paced (run useMpi p c) ∧ (run useMpi p c).stepFetch = p.stepFetch ∧
      (run useMpi p c).roundTripFetch = p.roundTripFetch + if c.isRound = true then 1 else 0 := by
  obtain ⟨hfetch, -⟩ := hno
  have hlt := hp.round_lt
  have hmax := hp.le_max
  unfold maxRoundTripFetch at hmax
  have hinc : inc p.roundTripFetch = p.roundTripFetch + 1 := by
    unfold inc
    omega
  have hpaced : ∀ q : Pacing, q.stepFetch = p.stepFetch → q.roundTripFetch < p.stepFetch →
      Paced q := by
    intro q hq hround
    refine ⟨by rwa [hq], ?_, ?_⟩
    · rw [hq]
      exact hp.min_le
    · rw [hq]
      exact hp.le_max
  cases c with
  | workerCycle => exact ⟨hpaced _ rfl hlt, rfl, rfl⟩
  | leaderCycle sets =>
    have hne : inc p.roundTripFetch ≠ p.stepFetch := hfetch
    have hround : inc p.roundTripFetch < p.stepFetch := by omega
    rw [run, doMpiLeaderCycle, Pacing.fetchRound]
    dsimp only
    rw [if_neg hne]
    exact ⟨hpaced _ rfl hround, rfl, hinc⟩
  | cycle sets =>
    have hne : inc p.roundTripFetch ≠ p.stepFetch := hfetch
    have hround : inc p.roundTripFetch < p.stepFetch := by omega
    rw [run, doMpiCycle, Pacing.fetchRound, doMpiWorkerCycle]
    dsimp only
    rw [if_neg hne]
    exact ⟨hpaced _ rfl hround, rfl, hinc⟩
  | fetchWork sets => exact hfetch.elim

/-- Rounds without a call of `fetch_work` count up to the step. -/
theorem Paced.rounds_lt (hp : Paced p) {mid : List Call} (hno : NoFetch useMpi p mid) :
    p.roundTripFetch + mid.countP Call.isRound < p.stepFetch := by
  induction mid generalizing p with
  | nil => exact hp.round_lt
  | cons c mid ih =>
    obtain ⟨hpaced, hstep, hround⟩ := hp.counts hno
    have ih := ih hpaced hno.2
    rw [hround, hstep] at ih
    rw [List.countP_cons]
    omega

/-- The state after a part of the calls is one of the states. -/
theorem foldl_mem_states (useMpi : Bool) (p : Pacing) (pre rest : List Call) :
    pre.foldl (run useMpi) p ∈ states useMpi p (pre ++ rest) := by
  induction pre generalizing p with
  | nil => cases rest <;> exact List.mem_cons_self
  | cons c pre ih => exact List.mem_cons_of_mem _ (ih _)

/-- In a sequence of calls, the counter is always below the step and the step within its bounds, and
messages are fetched in time, exactly when the idle loop receives no messages when the counter is
close to the step. -/
theorem paced_iff (useMpi : Bool) (calls : List Call) :
    ((∀ p ∈ states useMpi new calls, Paced p) ∧ FetchesInTime useMpi calls) ↔
      AllInStep useMpi new calls := by
  have hnew : Paced new := by
    refine ⟨?_, ?_, ?_⟩ <;> decide
  constructor
  · rintro ⟨hall, -⟩
    exact (allInStep_iff Tuned.new hnew calls).mp hall
  · intro hstep
    have hall := (allInStep_iff Tuned.new hnew calls).mpr hstep
    refine ⟨hall, fun pre mid post heq hno => ?_⟩
    subst heq
    have hp := hall _ (foldl_mem_states _ new pre (mid ++ post))
    have hrounds := hp.rounds_lt hno
    have hmax := hp.le_max
    omega

/-- After 495 rounds the step is 500, and a message that the idle loop receives takes it to 490. -/
theorem not_paced : ∃ calls, ¬ ∀ p ∈ states true new calls, Paced p := by
  refine ⟨List.replicate 495 (.cycle 0) ++ [.fetchWork 1], fun hall => ?_⟩
  have hmem := foldl_mem_states true new
    (List.replicate 495 (.cycle 0) ++ [.fetchWork 1]) []
  rw [List.append_nil] at hmem
  exact absurd (hall _ hmem).round_lt (by decide +kernel)

end Pacing

end Meld.Sched
