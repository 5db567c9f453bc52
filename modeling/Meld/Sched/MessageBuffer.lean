import Meld.Vm.TuplePack

/-!
# Buffered messages

A thread buffers its messages to other machines, one set for each machine and thread there. A set
is sent when the next message would not fit, or when the whole buffer is transmitted; `total` counts
the sets that are not empty, and the sets that were sent are reported to the tokenizer. No message
is lost or sent twice, and as many sets are reported as were sent (`messages_kept`).

The message layer appears as the list of the sets that were given to `send`. The map of the machines
and the map of the threads of each are one map by machine and thread.
-/

namespace Meld.Sched.Mpi

open Lib Vm

/-- `MPI_BUF_SIZE`. -/
def mpiBufSize : ℕ := 4096

/-- `MPI_BUFFER_THRESHOLD`. -/
def mpiBufferThreshold : ℕ := mpiBufSize

/-- `message`: a tuple for a node. -/
structure Message where
  id : UInt32
  data : SimpleTuple

/-- `get_storage_size`. -/
def Message.storageSize (msg : Message) : Exec ℕ := do return 4 + (← msg.data.storageSize)

/-- `message_set`. -/
structure MessageSet where
  lst : List Message
  totalSize : ℕ

namespace MessageSet

/-- `INITIAL_MESSAGE_SIZE`: the size of the number of messages. -/
def initialMessageSize : ℕ := 2

/-- `message_set()`, and what `wipeout` leaves. -/
def new : MessageSet := ⟨[], initialMessageSize⟩

variable (ms : MessageSet)

def add (msg : Message) : Exec MessageSet := do
  assert (0 < ms.totalSize)
  let ms : MessageSet := ⟨ms.lst ++ [msg], ms.totalSize + (← msg.storageSize)⟩
  assert (ms.lst.length < ms.totalSize)
  return ms

def empty : Exec Bool := do
  if ms.lst = [] then assert (ms.totalSize = initialMessageSize)
  return ms.lst.isEmpty

end MessageSet

/-- A machine and a thread there, in the order of the maps. -/
abbrev Dest := ℕ ×ₗ ℕ

/-- `message_buffer`. -/
structure MessageBuffer where
  /-- the keys of the map -/
  keys : Finset Dest
  sets : Dest → MessageSet
  total : ℕ
  /-- the sets that were given to `send`, the last one at the end -/
  sent : List (Dest × MessageSet)

namespace MessageBuffer

/-- `message_buffer()`. -/
def new : MessageBuffer := ⟨∅, fun _ => .new, 0, []⟩

variable (buf : MessageBuffer)

/-- `transmit_list`. -/
def transmitList (d : Dest) : Exec MessageBuffer := do
  let ms := buf.sets d
  let empty ← ms.empty
  assert (empty = false)
  assert (0 < buf.total)
  assert (ms.totalSize < mpiBufferThreshold)
  -- `router::send`
  assert (ms.totalSize < mpiBufSize)
  return { buf with
    sets := Function.update buf.sets d .new
    total := buf.total - 1
    sent := buf.sent ++ [(d, ms)] }

/-- `insert`: whether the set had to be transmitted before. -/
def insert (d : Dest) (msg : Message) : Exec (MessageBuffer × Bool) := do
  let buf := { buf with keys := Insert.insert d buf.keys }
  let size ← msg.storageSize
  let transmitted := decide (mpiBufferThreshold ≤ (buf.sets d).totalSize + size)
  let buf ← if transmitted then buf.transmitList d else pure buf
  let empty ← (buf.sets d).empty
  let total := if empty then buf.total + 1 else buf.total
  let ms ← (buf.sets d).add msg
  return ({ buf with sets := Function.update buf.sets d ms, total := total }, transmitted)

/-- `transmit`: how many sets were transmitted. -/
def transmit : Exec (MessageBuffer × ℕ) := do
  if 0 < buf.total then
    let buf' ← (buf.keys.sort (· ≤ ·)).foldlM (fun buf d => do
      let empty ← (buf.sets d).empty
      if empty then pure buf else buf.transmitList d) buf
    return (buf', buf.total)
  else
    return (buf, 0)

end MessageBuffer

/-- What `mpi_handler` buffers and reports. -/
structure MpiHandler where
  msgBuf : MessageBuffer
  /-- the sum of what `messages_transmitted` of the tokenizer was called with -/
  reported : ℕ

namespace MpiHandler

def new : MpiHandler := ⟨.new, 0⟩

variable (h : MpiHandler)

/-- `messages_were_transmitted`. -/
def messagesWereTransmitted (total : ℕ) : MpiHandler := { h with reported := h.reported + total }

/-- `buffer_message`. -/
def bufferMessage (d : Dest) (msg : Message) : Exec MpiHandler := do
  let (msgBuf, transmitted) ← h.msgBuf.insert d msg
  let h := { h with msgBuf := msgBuf }
  return if transmitted then h.messagesWereTransmitted 1 else h

/-- `transmit_messages`. -/
def transmitMessages : Exec MpiHandler := do
  let (msgBuf, transmitted) ← h.msgBuf.transmit
  let h := { h with msgBuf := msgBuf }
  return if 0 < transmitted then h.messagesWereTransmitted transmitted else h

end MpiHandler

/-- What a thread does with its buffer. -/
inductive BufferOp
  | bufferMessage (d : Dest) (msg : Message)
  | transmitMessages

/-- One step. -/
def MpiHandler.step (h : MpiHandler) : BufferOp → Exec MpiHandler
  | .bufferMessage d msg => h.bufferMessage d msg
  | .transmitMessages => h.transmitMessages

/-- A run from the start. -/
def MpiHandler.run (ops : List BufferOp) : Exec MpiHandler := ops.foldlM MpiHandler.step .new

/-! ### What is kept -/

/-- The messages that were inserted for the thread, in their order. -/
def insertedFor (d : Dest) (ops : List BufferOp) : List Message :=
  ops.flatMap fun
    | .bufferMessage d' msg => if d' = d then [msg] else []
    | .transmitMessages => []

/-- The messages in the sets that were sent to the thread. -/
def sentTo (d : Dest) (sent : List (Dest × MessageSet)) : List Message :=
  sent.flatMap fun s => if s.1 = d then s.2.lst else []

/-- The keys of the sets that are not empty. -/
def MessageBuffer.nonempty (buf : MessageBuffer) : Finset Dest :=
  buf.keys.filter fun d => (buf.sets d).lst ≠ []

/-- The message fits in an empty set. -/
def Message.Fits (msg : Message) : Prop :=
  ∃ size, msg.storageSize = .ok size ∧
    MessageSet.initialMessageSize + size < mpiBufferThreshold

/-- The bytes that the number of messages and the messages take. -/
def MessageSet.packedSize (ms : MessageSet) : Exec ℕ :=
  ms.lst.foldlM (fun size msg => do return size + (← msg.storageSize)) initialMessageSize

/-- A set knows its size, which is below the threshold. -/
structure MessageSet.Ok (ms : MessageSet) : Prop where
  packedSize : ms.packedSize = .ok ms.totalSize
  length_add : ms.lst.length + initialMessageSize ≤ ms.totalSize
  totalSize_of_nil : ms.lst = [] → ms.totalSize = initialMessageSize
  totalSize_lt : ms.totalSize < mpiBufferThreshold

/-- The buffer after the messages were inserted. -/
structure MessageBuffer.Holds (inserted : Dest → List Message) (buf : MessageBuffer) : Prop where
  ok : ∀ d, (buf.sets d).Ok
  mem_keys : ∀ d, (buf.sets d).lst ≠ [] → d ∈ buf.keys
  total : buf.total = buf.nonempty.card
  kept : ∀ d, sentTo d buf.sent ++ (buf.sets d).lst = inserted d
  sent : ∀ s ∈ buf.sent, s.2.Ok

section

variable {ms : MessageSet} {msg : Message} {size : ℕ} {buf : MessageBuffer} {d : Dest}
  {inserted : Dest → List Message}

/-- A new set is well formed. -/
theorem MessageSet.ok_new : MessageSet.new.Ok := ⟨rfl, le_rfl, fun _ => rfl, by decide⟩

/-- A well-formed set says rightly whether it is empty. -/
theorem MessageSet.empty_eq (h : ms.Ok) : ms.empty = .ok (decide (ms.lst = [])) := by
  rw [MessageSet.empty]
  by_cases hnil : ms.lst = []
  · rw [if_pos hnil, assert_pos (h.totalSize_of_nil hnil), ok_bind, hnil]
    rfl
  · rw [if_neg hnil, decide_eq_false hnil]
    cases hlst : ms.lst with
    | nil => exact absurd hlst hnil
    | cons m l => rfl

/-- A message has four bytes at least. -/
theorem Message.four_le_storageSize (h : msg.storageSize = .ok size) : 4 ≤ size := by
  obtain ⟨n, -, hn⟩ := bind_eq_ok.mp h
  cases hn
  omega

/-- A message of a known size can be added. -/
theorem MessageSet.add_eq (h : ms.Ok) (hsize : msg.storageSize = .ok size) :
    ms.add msg = .ok ⟨ms.lst ++ [msg], ms.totalSize + size⟩ := by
  have hlen := h.length_add
  have hfour := Message.four_le_storageSize hsize
  rw [MessageSet.initialMessageSize] at hlen
  have hcount : (ms.lst ++ [msg]).length < ms.totalSize + size := by
    rw [List.length_append, List.length_singleton]
    omega
  rw [MessageSet.add, assert_pos (by omega), ok_bind, hsize, ok_bind]
  simp only [assert_pos hcount, ok_bind]
  rfl

/-- A set stays well formed while it is below the threshold. -/
theorem MessageSet.Ok.add (h : ms.Ok) (hsize : msg.storageSize = .ok size)
    (hlt : ms.totalSize + size < mpiBufferThreshold) :
    MessageSet.Ok ⟨ms.lst ++ [msg], ms.totalSize + size⟩ := by
  have hlen := h.length_add
  have hfour := Message.four_le_storageSize hsize
  refine ⟨?_, ?_, fun hnil => ?_, hlt⟩
  · have hprev := h.packedSize
    rw [MessageSet.packedSize] at hprev ⊢
    rw [List.foldlM_append, hprev, ok_bind, List.foldlM_cons, hsize]
    rfl
  · simp only [List.length_append, List.length_singleton]
    omega
  · cases List.append_ne_nil_of_right_ne_nil _ (List.cons_ne_nil msg []) hnil

/-- The buffer when the set of the thread was sent. -/
def MessageBuffer.without (buf : MessageBuffer) (d : Dest) : MessageBuffer :=
  { buf with
    sets := Function.update buf.sets d .new
    total := buf.total - 1
    sent := buf.sent ++ [(d, buf.sets d)] }

/-- A destination that was served has nothing left. -/
theorem MessageBuffer.nonempty_without (buf : MessageBuffer) (d : Dest) :
    (buf.without d).nonempty = buf.nonempty.erase d := by
  ext d'
  rw [nonempty, Finset.mem_filter, Finset.mem_erase, nonempty, Finset.mem_filter]
  simp only [without]
  rcases eq_or_ne d' d with rfl | hd
  · simp only [Function.update_self, MessageSet.new, ne_eq, not_true_eq_false, and_false,
      false_and]
  · simp only [Function.update_of_ne hd, ne_eq, hd, not_false_eq_true, true_and]

namespace MessageBuffer.Holds

/-- A destination with messages is one of the nonempty ones. -/
theorem mem_nonempty (h : buf.Holds inserted) (hne : (buf.sets d).lst ≠ []) : d ∈ buf.nonempty :=
  Finset.mem_filter.mpr ⟨h.mem_keys d hne, hne⟩

/-- Where there are messages the total is positive. -/
theorem total_pos (h : buf.Holds inserted) (hne : (buf.sets d).lst ≠ []) : 0 < buf.total :=
  h.total ▸ Finset.card_pos.mpr ⟨d, h.mem_nonempty hne⟩

/-- The messages of a destination are handed over, and its set is empty. -/
theorem transmitList_eq (h : buf.Holds inserted) (hne : (buf.sets d).lst ≠ []) :
    buf.transmitList d = .ok (buf.without d) := by
  have hlt := (h.ok d).totalSize_lt
  rw [MessageBuffer.transmitList, MessageSet.empty_eq (h.ok d), ok_bind,
    assert_pos (decide_eq_false hne), ok_bind, assert_pos (h.total_pos hne), ok_bind,
    assert_pos hlt, ok_bind, assert_pos (show _ < mpiBufSize from hlt), ok_bind]
  rfl

/-- Sending the set of a thread keeps what the buffer holds. -/
theorem without (h : buf.Holds inserted) (hne : (buf.sets d).lst ≠ []) :
    (buf.without d).Holds inserted := by
  refine ⟨fun d' => ?_, fun d' hd' => ?_, ?_, fun d' => ?_, fun s hs => ?_⟩
  · rcases eq_or_ne d' d with rfl | hd
    · simp only [MessageBuffer.without, Function.update_self]
      exact MessageSet.ok_new
    · simp only [MessageBuffer.without, Function.update_of_ne hd]
      exact h.ok d'
  · rcases eq_or_ne d' d with rfl | hd
    · exact h.mem_keys d' hne
    · simp only [MessageBuffer.without, Function.update_of_ne hd] at hd'
      exact h.mem_keys d' hd'
  · rw [nonempty_without, Finset.card_erase_of_mem (h.mem_nonempty hne), ← h.total]
    rfl
  · rw [← h.kept d', MessageBuffer.without, sentTo, List.flatMap_append]
    rcases eq_or_ne d' d with rfl | hd
    · simp [sentTo, MessageSet.new]
    · simp [sentTo, Function.update_of_ne hd, hd.symm]
  · rcases List.mem_append.mp hs with hs | hs
    · exact h.sent s hs
    · rw [List.mem_singleton.mp hs]
      exact h.ok d

end MessageBuffer.Holds

/-- The messages after one more was inserted. -/
def insertedWith (inserted : Dest → List Message) (d : Dest) (msg : Message) (d' : Dest) :
    List Message :=
  inserted d' ++ if d = d' then [msg] else []

/-- The buffer when a message was added to the set of the thread. -/
def MessageBuffer.withMessage (buf : MessageBuffer) (d : Dest) (msg : Message) (size : ℕ) :
    MessageBuffer :=
  { buf with
    sets := Function.update buf.sets d ⟨(buf.sets d).lst ++ [msg], (buf.sets d).totalSize + size⟩
    total := if (buf.sets d).lst = [] then buf.total + 1 else buf.total }

/-- The destination of a message has something to send. -/
theorem MessageBuffer.nonempty_withMessage (hd : d ∈ buf.keys) :
    (buf.withMessage d msg size).nonempty = Insert.insert d buf.nonempty := by
  ext d'
  rw [nonempty, Finset.mem_filter, Finset.mem_insert, nonempty, Finset.mem_filter]
  simp only [withMessage]
  rcases eq_or_ne d' d with rfl | hne
  · simp only [hd, Function.update_self, ne_eq, List.append_eq_nil_iff, List.cons_ne_nil, and_false,
      not_false_eq_true, true_and, true_or]
  · simp only [Function.update_of_ne hne, hne, false_or]

namespace MessageBuffer.Holds

/-- A destination without messages changes nothing. -/
theorem insertKey (h : buf.Holds inserted) (d : Dest) :
    MessageBuffer.Holds inserted { buf with keys := Insert.insert d buf.keys } := by
  refine ⟨h.ok, fun d' hd' => Finset.mem_insert_of_mem (h.mem_keys d' hd'), ?_, h.kept, h.sent⟩
  have hsame : MessageBuffer.nonempty { buf with keys := Insert.insert d buf.keys } =
      buf.nonempty := by
    ext d'
    rw [nonempty, Finset.mem_filter, nonempty, Finset.mem_filter, Finset.mem_insert]
    exact and_congr_left fun hne => or_iff_right_of_imp fun heq => h.mem_keys d' hne
  rw [hsame]
  exact h.total

/-- Adding a message that fits. -/
theorem withMessage (h : buf.Holds inserted) (hd : d ∈ buf.keys) (hsize : msg.storageSize = .ok size)
    (hlt : (buf.sets d).totalSize + size < mpiBufferThreshold) :
    (buf.withMessage d msg size).Holds (insertedWith inserted d msg) := by
  refine ⟨fun d' => ?_, fun d' hd' => ?_, ?_, fun d' => ?_, h.sent⟩
  · rcases eq_or_ne d' d with rfl | hne
    · simp only [MessageBuffer.withMessage, Function.update_self]
      exact (h.ok d').add hsize hlt
    · simp only [MessageBuffer.withMessage, Function.update_of_ne hne]
      exact h.ok d'
  · rcases eq_or_ne d' d with rfl | hne
    · exact hd
    · simp only [MessageBuffer.withMessage, Function.update_of_ne hne] at hd'
      exact h.mem_keys d' hd'
  · rw [nonempty_withMessage hd]
    by_cases hnil : (buf.sets d).lst = []
    · have hnotMem : d ∉ buf.nonempty := fun hmem => (Finset.mem_filter.mp hmem).2 hnil
      rw [Finset.card_insert_of_notMem hnotMem, ← h.total, MessageBuffer.withMessage]
      exact if_pos hnil
    · rw [Finset.insert_eq_of_mem (h.mem_nonempty hnil), ← h.total, MessageBuffer.withMessage]
      exact if_neg hnil
  · rw [insertedWith, ← h.kept d', List.append_assoc]
    refine congrArg (sentTo d' buf.sent ++ ·) ?_
    rcases eq_or_ne d' d with rfl | hne
    · simp only [MessageBuffer.withMessage, Function.update_self, if_true]
    · simp only [MessageBuffer.withMessage, Function.update_of_ne hne, if_neg hne.symm,
        List.append_nil]

/-- `insert` keeps all messages, and says whether a set was sent. -/
theorem insert (h : buf.Holds inserted) (hfits : msg.Fits) (d : Dest) :
    ∃ buf' transmitted, buf.insert d msg = .ok (buf', transmitted) ∧
      buf'.Holds (insertedWith inserted d msg) ∧
      buf'.sent.length = buf.sent.length + if transmitted then 1 else 0 := by
  obtain ⟨size, hsize, hlt⟩ := hfits
  -- what follows once there is room in the set
  have hadd : ∀ buf : MessageBuffer, buf.Holds inserted → d ∈ buf.keys →
      (buf.sets d).totalSize + size < mpiBufferThreshold → ∀ transmitted : Bool,
      (do
        let empty ← (buf.sets d).empty
        let total := if empty then buf.total + 1 else buf.total
        let ms ← (buf.sets d).add msg
        return ({ buf with sets := Function.update buf.sets d ms, total := total }, transmitted)) =
        (.ok (buf.withMessage d msg size, transmitted) : Exec (MessageBuffer × Bool)) := by
    intro buf h _ _ transmitted
    rw [MessageSet.empty_eq (h.ok d), ok_bind, MessageSet.add_eq (h.ok d) hsize]
    simp only [ok_bind, decide_eq_true_eq]
    rfl
  have hkey := h.insertKey d
  have hmem : d ∈ Insert.insert d buf.keys := Finset.mem_insert_self ..
  rw [MessageBuffer.insert, hsize, ok_bind]
  simp only []
  by_cases hfull : mpiBufferThreshold ≤ (buf.sets d).totalSize + size
  · have hne : (buf.sets d).lst ≠ [] := fun hnil => by
      rw [(h.ok d).totalSize_of_nil hnil] at hfull
      omega
    have hroom : (Function.update buf.sets d MessageSet.new d).totalSize + size <
        mpiBufferThreshold := by
      rw [Function.update_self]
      exact hlt
    rw [decide_eq_true hfull, if_pos rfl, hkey.transmitList_eq hne, ok_bind,
      hadd _ (hkey.without hne) hmem hroom]
    refine ⟨_, _, rfl, (hkey.without hne).withMessage hmem hsize hroom, ?_⟩
    exact List.length_append
  · have hroom : (buf.sets d).totalSize + size < mpiBufferThreshold := not_le.mp hfull
    rw [decide_eq_false hfull, if_neg (by decide), pure_eq_ok, ok_bind, hadd _ hkey hmem hroom]
    exact ⟨_, _, rfl, hkey.withMessage hmem hsize hroom, rfl⟩

/-- The loop of `transmit`. -/
theorem transmitLoop (h : buf.Holds inserted) (ds : List Dest) :
    ∃ buf', ds.foldlM (fun (buf : MessageBuffer) d => do
        let empty ← (buf.sets d).empty
        if empty then pure buf else buf.transmitList d) buf = .ok buf' ∧
      buf'.Holds inserted ∧ (∀ d, (buf'.sets d).lst ≠ [] → (buf.sets d).lst ≠ [] ∧ d ∉ ds) ∧
      buf'.sent.length + buf'.total = buf.sent.length + buf.total := by
  induction ds generalizing buf with
  | nil => exact ⟨buf, rfl, h, fun d hd => ⟨hd, List.not_mem_nil⟩, rfl⟩
  | cons d ds ih =>
    rw [List.foldlM_cons, MessageSet.empty_eq (h.ok d), ok_bind]
    by_cases hnil : (buf.sets d).lst = []
    · obtain ⟨buf', hrun, hholds, hsets, hlen⟩ := ih h
      rw [decide_eq_true hnil, if_pos rfl, pure_eq_ok, ok_bind]
      refine ⟨buf', hrun, hholds, fun d' hd' => ⟨(hsets d' hd').1, ?_⟩, hlen⟩
      rw [List.mem_cons, not_or]
      exact ⟨fun heq => (hsets d' hd').1 (heq ▸ hnil), (hsets d' hd').2⟩
    · obtain ⟨buf', hrun, hholds, hsets, hlen⟩ := ih (h.without hnil)
      rw [decide_eq_false hnil, if_neg (by decide), h.transmitList_eq hnil, ok_bind]
      refine ⟨buf', hrun, hholds, fun d' hd' => ?_, ?_⟩
      · obtain ⟨hne, hmem⟩ := hsets d' hd'
        have hd : d' ≠ d := by
          rintro rfl
          simp only [MessageBuffer.without, Function.update_self] at hne
          exact hne rfl
        simp only [MessageBuffer.without, Function.update_of_ne hd] at hne
        exact ⟨hne, by rw [List.mem_cons, not_or]; exact ⟨hd, hmem⟩⟩
      · have hpos := h.total_pos hnil
        simp only [MessageBuffer.without, List.length_append, List.length_singleton] at hlen
        omega

/-- `transmit` keeps all messages, and says how many sets were sent. -/
theorem transmit (h : buf.Holds inserted) :
    ∃ buf' transmitted, buf.transmit = .ok (buf', transmitted) ∧ buf'.Holds inserted ∧
      buf'.sent.length = buf.sent.length + transmitted := by
  rw [MessageBuffer.transmit]
  split_ifs with hpos
  · obtain ⟨buf', hrun, hholds, hsets, hlen⟩ := h.transmitLoop (buf.keys.sort (· ≤ ·))
    refine ⟨buf', buf.total, by rw [hrun]; rfl, hholds, ?_⟩
    -- every set was sent
    have hempty : buf'.nonempty = ∅ := by
      rw [Finset.eq_empty_iff_forall_notMem]
      intro d hd
      obtain ⟨hne, hmem⟩ := hsets d (Finset.mem_filter.mp hd).2
      exact hmem ((Finset.mem_sort _).mpr (h.mem_keys d hne))
    have hzero : buf'.total = 0 := by rw [hholds.total, hempty, Finset.card_empty]
    omega
  · exact ⟨buf, 0, rfl, h, rfl⟩

end MessageBuffer.Holds

/-! ### Runs -/

/-- The handler after the messages were inserted. -/
structure MpiHandler.Holds (inserted : Dest → List Message) (h : MpiHandler) : Prop where
  msgBuf : h.msgBuf.Holds inserted
  reported : h.reported = h.msgBuf.sent.length

/-- A new handler has buffered and sent nothing. -/
theorem MpiHandler.holds_new : MpiHandler.new.Holds fun _ => [] :=
  ⟨⟨fun _ => MessageSet.ok_new, fun _ hd => absurd rfl hd, rfl, fun _ => rfl,
    fun _ hs => absurd hs List.not_mem_nil⟩, rfl⟩

/-- The messages of a step fit. -/
def BufferOp.Fits : BufferOp → Prop
  | .bufferMessage _ msg => msg.Fits
  | .transmitMessages => True

/-- A step keeps all messages and reports the sets that it sends. -/
theorem MpiHandler.Holds.step {h : MpiHandler} (hholds : h.Holds inserted) {op : BufferOp}
    (hfits : op.Fits) :
    ∃ h', h.step op = .ok h' ∧ h'.Holds fun d => inserted d ++ insertedFor d [op] := by
  cases op with
  | bufferMessage d msg =>
    obtain ⟨buf', transmitted, hrun, hbuf, hlen⟩ := hholds.msgBuf.insert hfits d
    have hinserted : (fun d' => inserted d' ++ insertedFor d' [.bufferMessage d msg]) =
        insertedWith inserted d msg := by
      funext d'
      simp only [insertedFor, insertedWith, List.flatMap_singleton]
    rw [hinserted]
    refine ⟨_, by rw [MpiHandler.step, MpiHandler.bufferMessage, hrun, ok_bind]; rfl, ?_⟩
    cases transmitted with
    | false => exact ⟨hbuf, hholds.reported.trans hlen.symm⟩
    | true => exact ⟨hbuf, (congrArg (· + 1) hholds.reported).trans hlen.symm⟩
  | transmitMessages =>
    obtain ⟨buf', transmitted, hrun, hbuf, hlen⟩ := hholds.msgBuf.transmit
    have hinserted : (fun d' => inserted d' ++ insertedFor d' [.transmitMessages]) = inserted := by
      funext d'
      exact List.append_nil _
    rw [hinserted]
    refine ⟨_, by rw [MpiHandler.step, MpiHandler.transmitMessages, hrun, ok_bind]; rfl, ?_⟩
    have hreported := hholds.reported
    split_ifs with hpos
    · exact ⟨hbuf, (congrArg (· + transmitted) hreported).trans hlen.symm⟩
    · rw [Nat.eq_zero_of_not_pos hpos] at hlen
      exact ⟨hbuf, hreported.trans hlen.symm⟩

/-- A sequence of operations that fit returns, and keeps the messages. -/
theorem MpiHandler.Holds.run {h : MpiHandler} (hholds : h.Holds inserted) {ops : List BufferOp}
    (hfits : ∀ op ∈ ops, op.Fits) : ∃ h', ops.foldlM MpiHandler.step h = .ok h' ∧
      h'.Holds fun d => inserted d ++ insertedFor d ops := by
  induction ops generalizing h inserted with
  | nil =>
    refine ⟨h, rfl, ?_⟩
    simpa only [insertedFor, List.flatMap_nil, List.append_nil] using hholds
  | cons op ops ih =>
    rw [List.forall_mem_cons] at hfits
    obtain ⟨h₁, hstep, hholds₁⟩ := hholds.step hfits.1
    obtain ⟨h', hrun, hholds'⟩ := ih hholds₁ hfits.2
    refine ⟨h', by rw [List.foldlM_cons, hstep, ok_bind, hrun], ?_⟩
    have hsplit : (fun d => inserted d ++ insertedFor d [op] ++ insertedFor d ops) =
        fun d => inserted d ++ insertedFor d (op :: ops) := by
      funext d
      rw [List.append_assoc, insertedFor, insertedFor, insertedFor, ← List.flatMap_append]
      rfl
    rwa [hsplit] at hholds'

end

/-- No run loses or repeats a message, whatever is inserted and transmitted: what was sent to a
thread and what is buffered for it are the messages inserted for it. The sets that are not empty are
counted, those that were sent are reported, and none of them exceeds the threshold. -/
theorem messages_kept (ops : List BufferOp) (hfits : ∀ op ∈ ops, op.Fits) :
    ∃ h, MpiHandler.run ops = .ok h ∧
      (∀ d, sentTo d h.msgBuf.sent ++ (h.msgBuf.sets d).lst = insertedFor d ops) ∧
      h.msgBuf.total = h.msgBuf.nonempty.card ∧ h.reported = h.msgBuf.sent.length ∧
      ∀ s ∈ h.msgBuf.sent, ∃ size, s.2.packedSize = .ok size ∧ size < mpiBufferThreshold := by
  obtain ⟨h, hrun, hholds⟩ := MpiHandler.holds_new.run hfits
  refine ⟨h, hrun, hholds.msgBuf.kept, hholds.msgBuf.total, hholds.reported, fun s hs => ?_⟩
  exact ⟨_, (hholds.msgBuf.sent s hs).packedSize, (hholds.msgBuf.sent s hs).totalSize_lt⟩

/-- A message of which two do not fit into a set, and a short one. -/
private def longMessage : Message := ⟨3, listTuple (List.replicate 600 (.int 5))⟩

private def shortMessage : Message := ⟨4, listTuple [.int 6]⟩

/-- Messages for two threads. -/
private def threeMessages : List BufferOp :=
  [.bufferMessage (toLex (1, 0)) longMessage, .bufferMessage (toLex (2, 1)) shortMessage,
    .bufferMessage (toLex (1, 0)) longMessage]

/-- The first message of three is sent when there is no room for the third, the others when the
buffer is transmitted. -/
theorem messages_kept_three :
    (∃ h, MpiHandler.run threeMessages = .ok h ∧ h.reported = 1 ∧ h.msgBuf.total = 2) ∧
    ∃ h, MpiHandler.run (threeMessages ++ [.transmitMessages]) = .ok h ∧
      (∀ d, sentTo d h.msgBuf.sent ++ (h.msgBuf.sets d).lst =
        insertedFor d (threeMessages ++ [.transmitMessages])) ∧
      h.msgBuf.total = h.msgBuf.nonempty.card ∧ h.reported = h.msgBuf.sent.length ∧
      ∀ s ∈ h.msgBuf.sent, ∃ size, s.2.packedSize = .ok size ∧ size < mpiBufferThreshold := by
  constructor
  · obtain ⟨h, hrun, hvals⟩ := exists_ok_of_map (x := MpiHandler.run threeMessages)
      (f := fun h => (h.reported, h.msgBuf.total)) (b := (1, 2)) (by decide +kernel)
    rw [Prod.mk.injEq] at hvals
    exact ⟨h, hrun, hvals⟩
  · refine messages_kept _ ?_
    intro op hop
    have hlong : longMessage.Fits := ⟨2411, by decide +kernel, by decide⟩
    have hshort : shortMessage.Fits := ⟨15, rfl, by decide⟩
    simp only [threeMessages, List.cons_append, List.nil_append, List.mem_cons, List.not_mem_nil,
      or_false] at hop
    rcases hop with rfl | rfl | rfl | rfl
    · exact hlong
    · exact hshort
    · exact hlong
    · trivial

end Meld.Sched.Mpi
