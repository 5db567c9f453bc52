import Meld.Sched.MessageBuffer

/-!
# Sets of messages on the wire

A set of messages is sent as one packet: the number of messages in two bytes, and for each message
the id of its node and its tuple. The packet is packed into a buffer of the size that the set keeps
track of while messages are added, and unpacked from the buffer of the receiver, which is larger and
whose end still holds what earlier packets left there.

`MPI_Pack` and `MPI_Unpack` copy the memory of a number, as `utils::pack` and `utils::unpack` do.

The tuple of the last message ends where the buffer ends, so that only this one must not end with an
empty list (`packet_iff`): the assertion in `cons::pack` looks at the end of the buffer, not at the
end of the tuple.
-/

namespace Meld.Sched.Mpi

open Lib Lib.Bytes Vm

/-! ### Packing and unpacking -/

/-- `message::pack`. -/
def Message.pack (msg : Message) (bufSize : ℕ) (s : PackState) : Exec PackState := do
  let s ← Vm.pack bufSize (le 4 msg.id.toNat) s
  msg.data.pack bufSize s

/-- `message::unpack`. -/
def Message.unpack (buf : List UInt8) (prog : Program) (pos : ℤ) : Exec (Message × ℤ) := do
  let (id, pos) ← Vm.unpack buf 4 pos
  let (stpl, pos) ← SimpleTuple.unpack buf prog pos
  return (⟨.ofNat (ofLe id), stpl⟩, pos)

/-- `message_set::pack`. -/
def MessageSet.pack (ms : MessageSet) (bufSize : ℕ) : Exec PackState := do
  let s ← Vm.pack bufSize (le 2 ms.lst.length) ⟨0, []⟩
  ms.lst.foldlM (fun s msg => msg.pack bufSize s) s

/-- The loop of `message_set::unpack`. -/
def MessageSet.unpackLoop (buf : List UInt8) (prog : Program) :
    ℕ → MessageSet × ℤ → Exec (MessageSet × ℤ)
  | 0, s => pure s
  | n + 1, (ms, pos) => do
    let (msg, pos) ← Message.unpack buf prog pos
    let ms ← ms.add msg
    unpackLoop buf prog n (ms, pos)

/-- `message_set::unpack`. -/
def MessageSet.unpack (buf : List UInt8) (prog : Program) : Exec MessageSet := do
  let (size, pos) ← Vm.unpack buf 2 0
  let (ms, _) ← unpackLoop buf prog (ofLe size) (.new, pos)
  return ms

/-- What a message becomes in a packet. -/
def Message.bytes (msg : Message) : List UInt8 := le 4 msg.id.toNat ++ msg.data.bytes

/-- What a set becomes. -/
def MessageSet.bytes (ms : MessageSet) : List UInt8 :=
  le 2 ms.lst.length ++ ms.lst.flatMap Message.bytes

/-- What the receiver gets: the tuple without the flags that the sender kept with it. -/
def Message.received (msg : Message) : Message :=
  ⟨msg.id, { tpl := msg.data.tpl, count := msg.data.count }⟩

/-- The set is packed into a buffer of its size, which it fills, and unpacked from a buffer that
starts with the packet, whatever else is there. -/
def MessageSet.Arrives (prog : Program) (ms : MessageSet) : Prop :=
  ∃ packet : List UInt8, ms.pack ms.totalSize = .ok ⟨ms.totalSize, packet⟩ ∧
    packet.length = ms.totalSize ∧
    ∀ stale : List UInt8, (packet ++ stale).length = mpiBufSize →
      MessageSet.unpack (packet ++ stale) prog = .ok ⟨ms.lst.map Message.received, ms.totalSize⟩

/-- The last message ends with an empty list. -/
def MessageSet.EndsEmpty (ms : MessageSet) : Prop :=
  ∃ msg ∈ ms.lst.getLast?, endsEmpty msg.data.tpl.fields

/-! ### Packing -/

section

variable {prog : Program} {msg : Message} {ms : MessageSet} {bufSize : ℕ} {l : List UInt8}

/-- Fields are packed when there is room behind them. -/
theorem packFields_room {vs : List Value} (hstring : ∀ v ∈ vs, v.type ≠ .string)
    (hfit : l.length + (fieldsBytes vs).length < bufSize) (hsize : (bufSize : ℤ) ≤ maxInt) :
    vs.foldlM (packField bufSize) (.wrote l) = .ok (.wrote (l ++ fieldsBytes vs)) := by
  induction vs generalizing l with
  | nil =>
    rw [fieldsBytes, List.flatMap_nil, List.append_nil]
    rfl
  | cons v vs ih =>
    rw [List.forall_mem_cons] at hstring
    have hbytes : fieldsBytes (v :: vs) = v.bytes ++ fieldsBytes vs := List.flatMap_cons
    rw [hbytes, List.length_append] at hfit
    -- the position after the field is before the end of the buffer
    have hend : ¬ (v.isEmptyList = true ∧ l.length + v.bytes.length = bufSize) := by omega
    rw [List.foldlM_cons, packField_wrote hstring.1 (by omega) hsize, if_neg hend, ok_bind,
      ih hstring.2 (by rw [List.length_append]; omega), hbytes, List.append_assoc]

/-- The part of a tuple before its fields. -/
theorem packTuple_head {t : SimpleTuple} (hfit : l.length + t.bytes.length ≤ bufSize)
    (hsize : (bufSize : ℤ) ≤ maxInt) :
    t.pack bufSize (.wrote l) = t.tpl.fields.foldlM (packField bufSize)
      (.wrote (l ++ (le 2 (t.count % 2 ^ 16).toNat ++ [.ofNat t.tpl.pred.id]))) := by
  have hlen : t.bytes.length = 2 + (1 + (fieldsBytes t.tpl.fields).length) := by
    rw [SimpleTuple.bytes, List.length_append, length_le, List.length_cons, Nat.add_comm 1]
  have hcount : (l ++ le 2 (t.count % 2 ^ 16).toNat).length = l.length + 2 := by
    rw [List.length_append, length_le]
  rw [SimpleTuple.pack, pack_wrote (by rw [length_le]; omega) hsize, ok_bind, packTuple,
    wrap32_bufSize hsize, PackState.wrote_pos, hcount, assert_pos (by omega), ok_bind,
    pack_wrote (by rw [hcount, List.length_singleton]; omega) hsize, ok_bind, PackState.wrote_pos,
    List.length_append, hcount, List.length_singleton, assert_pos (by omega), ok_bind,
    List.append_assoc]

/-- A message is packed when there is room behind it; at the end of the buffer, its tuple must not
end with an empty list. -/
theorem Message.pack_wrote (h : msg.data.Sendable prog)
    (hfit : l.length + msg.bytes.length ≤ bufSize) (hsize : (bufSize : ℤ) ≤ maxInt) :
    (l.length + msg.bytes.length < bufSize ∨ ¬ endsEmpty msg.data.tpl.fields →
      msg.pack bufSize (.wrote l) = .ok (.wrote (l ++ msg.bytes))) ∧
    (l.length + msg.bytes.length = bufSize → endsEmpty msg.data.tpl.fields →
      msg.pack bufSize (.wrote l) = .error .assertion) := by
  set front := l ++ le 4 msg.id.toNat with hfront
  set head := le 2 (msg.data.count % 2 ^ 16).toNat ++ [UInt8.ofNat msg.data.tpl.pred.id] with hhead
  have hbytes : l ++ msg.bytes = front ++ head ++ fieldsBytes msg.data.tpl.fields := by
    simp only [hfront, hhead, Message.bytes, SimpleTuple.bytes, List.append_assoc,
      List.singleton_append]
  have hlen : (front ++ head).length + (fieldsBytes msg.data.tpl.fields).length =
      l.length + msg.bytes.length := by
    rw [← List.length_append, ← hbytes, List.length_append]
  have hdata : front.length + msg.data.bytes.length = l.length + msg.bytes.length := by
    rw [hfront, Message.bytes, List.length_append, List.length_append, Nat.add_assoc]
  have hpack : msg.pack bufSize (.wrote l) =
      msg.data.tpl.fields.foldlM (packField bufSize) (.wrote (front ++ head)) := by
    have hfour : front.length = l.length + 4 := by rw [hfront, List.length_append, length_le]
    rw [Message.pack, Vm.pack_wrote (by rw [length_le]; omega) hsize, ok_bind, ← hfront,
      packTuple_head (by omega) hsize]
  rw [hpack, hbytes]
  rcases hfit.lt_or_eq with hlt | heq
  · have hroom := packFields_room (l := front ++ head) h.noString (by omega) hsize
    exact ⟨fun _ => hroom, fun heq => absurd heq hlt.ne⟩
  · have hfull := packFields_wrote (l := front ++ head) h.noString (by omega) hsize
    exact ⟨fun hor => hfull.1 (hor.resolve_left (by omega)), fun _ => hfull.2⟩

theorem Message.bytes_pos (msg : Message) : 0 < msg.bytes.length := by
  rw [Message.bytes, List.length_append, length_le]
  omega

/-- The messages fill the buffer, unless the last one ends with an empty list. -/
theorem packMessages_wrote {msgs : List Message} (h : ∀ msg ∈ msgs, msg.data.Sendable prog)
    (hfit : l.length + (msgs.flatMap Message.bytes).length = bufSize)
    (hsize : (bufSize : ℤ) ≤ maxInt) :
    (¬ (∃ msg ∈ msgs.getLast?, endsEmpty msg.data.tpl.fields) →
      msgs.foldlM (fun s msg => msg.pack bufSize s) (.wrote l) =
        .ok (.wrote (l ++ msgs.flatMap Message.bytes))) ∧
    ((∃ msg ∈ msgs.getLast?, endsEmpty msg.data.tpl.fields) →
      msgs.foldlM (fun s msg => msg.pack bufSize s) (.wrote l) = .error .assertion) := by
  induction msgs generalizing l with
  | nil =>
    refine ⟨fun _ => ?_, ?_⟩
    · rw [List.flatMap_nil, List.append_nil]
      rfl
    · rintro ⟨msg, hmsg, -⟩
      exact absurd hmsg (by simp)
  | cons msg msgs ih =>
    rw [List.forall_mem_cons] at h
    rw [List.flatMap_cons, List.length_append] at hfit
    obtain ⟨hok, hfail⟩ := Message.pack_wrote (l := l) h.1 (by omega) hsize
    rw [List.foldlM_cons, List.flatMap_cons]
    cases msgs with
    | nil =>
      rw [List.flatMap_nil, List.length_nil, Nat.add_zero] at hfit
      rw [List.flatMap_nil, List.append_nil]
      simp only [List.getLast?_singleton, Option.mem_some_iff, exists_eq_left']
      refine ⟨fun hne => ?_, fun hends => ?_⟩
      · rw [hok (.inr hne), ok_bind]
        rfl
      · rw [hfail hfit hends]
        rfl
    | cons msg' msgs =>
      -- the next message takes some bytes, so that there is room behind this one
      have hnext := msg'.bytes_pos
      have hlt : l.length + msg.bytes.length < bufSize := by
        rw [List.flatMap_cons, List.length_append] at hfit
        omega
      rw [hok (.inl hlt), ok_bind, List.getLast?_cons_cons, ← List.append_assoc]
      exact ih h.2 (by rw [List.length_append]; omega)

/-! ### Unpacking -/

theorem unpacks_message (h : msg.data.Sendable prog) (hsize : (msg.bytes.length : ℤ) ≤ maxInt) :
    Unpacks (fun buf pos => Message.unpack buf prog pos) msg.bytes msg.received := by
  have hid : UInt32.ofNat (ofLe (le 4 msg.id.toNat)) = msg.id := by
    rw [ofLe_le_of_lt msg.id.toNat_lt, UInt32.ofNat_toNat]
  have hdata : (msg.data.bytes.length : ℤ) ≤ maxInt := by
    rw [Message.bytes, List.length_append] at hsize
    omega
  have hcount := unpacks_unpack (le 4 msg.id.toNat)
  rw [length_le] at hcount
  have hall := hcount.bind (q := fun id buf pos =>
    SimpleTuple.unpack buf prog pos >>= fun r => pure ((⟨.ofNat (ofLe id), r.1⟩ : Message), r.2))
    ((unpacks_simpleTuple h hdata).map fun stpl =>
      (⟨.ofNat (ofLe (le 4 msg.id.toNat)), stpl⟩ : Message))
  rw [hid] at hall
  exact hall

theorem Message.storageSize_eq (h : msg.data.Sendable prog) :
    msg.storageSize = .ok msg.bytes.length := by
  rw [Message.storageSize, SimpleTuple.storageSize_eq h, ok_bind, Message.bytes,
    List.length_append, length_le]
  rfl

theorem Message.sendable_received (h : msg.data.Sendable prog) :
    msg.received.data.Sendable prog := ⟨h.pred, h.id_lt, h.types, h.ok, h.noString, h.count⟩

theorem Message.bytes_received (msg : Message) : msg.received.bytes = msg.bytes := rfl

/-- The messages that follow are added to the set. -/
theorem unpacks_loop {msgs : List Message} (h : ∀ msg ∈ msgs, msg.data.Sendable prog) (hok : ms.Ok)
    (hlt : ms.totalSize + (msgs.flatMap Message.bytes).length < mpiBufferThreshold) :
    Unpacks (fun buf pos => MessageSet.unpackLoop buf prog msgs.length (ms, pos))
      (msgs.flatMap Message.bytes) ⟨ms.lst ++ msgs.map Message.received,
        ms.totalSize + (msgs.flatMap Message.bytes).length⟩ := by
  induction msgs generalizing ms with
  | nil =>
    simp only [List.map_nil, List.append_nil, List.flatMap_nil, List.length_nil, Nat.add_zero]
    exact .pure ms
  | cons msg msgs ih =>
    rw [List.forall_mem_cons] at h
    rw [List.flatMap_cons, List.length_append] at hlt
    have hsize := Message.storageSize_eq (Message.sendable_received h.1)
    rw [Message.bytes_received] at hsize
    have hadd := MessageSet.add_eq hok hsize
    have hmsg := unpacks_message h.1 (by
      simp only [maxInt, mpiBufferThreshold, mpiBufSize] at hlt ⊢
      omega)
    have hrest := ih h.2 (hok.add hsize (by omega)) (by simp only; omega)
    rw [List.flatMap_cons, List.map_cons, List.length_append, ← Nat.add_assoc]
    refine hmsg.bind (q := fun m buf pos =>
      ms.add m >>= fun ms => MessageSet.unpackLoop buf prog msgs.length (ms, pos)) ?_
    rw [hadd]
    simp only [List.append_assoc, List.singleton_append] at hrest
    exact hrest

/-! ### Sets -/

/-- A set knows the length of its packet. -/
theorem MessageSet.Ok.length_bytes (hok : ms.Ok) (h : ∀ msg ∈ ms.lst, msg.data.Sendable prog) :
    ms.bytes.length = ms.totalSize := by
  have hfold : ∀ (msgs : List Message) (n : ℕ), (∀ msg ∈ msgs, msg.data.Sendable prog) →
      msgs.foldlM (fun size msg => do return size + (← msg.storageSize)) n =
        (.ok (n + (msgs.flatMap Message.bytes).length) : Exec ℕ) := by
    intro msgs
    induction msgs with
    | nil => exact fun n _ => rfl
    | cons msg msgs ih =>
      intro n h
      rw [List.forall_mem_cons] at h
      rw [List.foldlM_cons, Message.storageSize_eq h.1, ok_bind, pure_eq_ok, ok_bind, ih _ h.2,
        List.flatMap_cons, List.length_append, Nat.add_assoc]
  have hpacked := hok.packedSize
  rw [MessageSet.packedSize, hfold ms.lst _ h] at hpacked
  rw [MessageSet.bytes, List.length_append, length_le]
  exact Except.ok.inj hpacked

theorem MessageSet.Ok.totalSize_le (hok : ms.Ok) : (ms.totalSize : ℤ) ≤ maxInt := by
  have hthreshold := hok.totalSize_lt
  simp only [maxInt, mpiBufferThreshold, mpiBufSize] at hthreshold ⊢
  omega

/-- A set fills its packet, unless its last message ends with an empty list. -/
theorem MessageSet.Ok.pack_eq (hok : ms.Ok) (h : ∀ msg ∈ ms.lst, msg.data.Sendable prog) :
    (¬ ms.EndsEmpty → ms.pack ms.totalSize = .ok (.wrote ms.bytes)) ∧
    (ms.EndsEmpty → ms.pack ms.totalSize = .error .assertion) := by
  have hbytes : (le 2 ms.lst.length).length + (ms.lst.flatMap Message.bytes).length =
      ms.totalSize := by
    rw [← List.length_append]
    exact hok.length_bytes h
  have hstart : ms.pack ms.totalSize = ms.lst.foldlM (fun s msg => msg.pack ms.totalSize s)
      (.wrote (le 2 ms.lst.length)) := by
    have hcount := @Vm.pack_wrote ms.totalSize [] (le 2 ms.lst.length)
      (by rw [List.length_nil]; omega) hok.totalSize_le
    rw [MessageSet.pack]
    change (Vm.pack _ _ (.wrote []) >>= _) = _
    rw [hcount, ok_bind, List.nil_append]
  rw [hstart]
  exact packMessages_wrote h hbytes hok.totalSize_le

/-- The messages of a packet are unpacked, whatever follows it in the buffer. -/
theorem MessageSet.Ok.unpack_eq (hok : ms.Ok) (h : ∀ msg ∈ ms.lst, msg.data.Sendable prog)
    {stale : List UInt8} (hstale : (ms.bytes ++ stale).length = mpiBufSize) :
    MessageSet.unpack (ms.bytes ++ stale) prog =
      .ok ⟨ms.lst.map Message.received, ms.totalSize⟩ := by
  have hthreshold := hok.totalSize_lt
  have hbytes : 2 + (ms.lst.flatMap Message.bytes).length = ms.totalSize := by
    rw [← hok.length_bytes h, MessageSet.bytes, List.length_append, length_le]
  have hnum : ofLe (le 2 ms.lst.length) = ms.lst.length := by
    have := hok.length_add
    simp only [mpiBufferThreshold, mpiBufSize] at hthreshold
    exact ofLe_le_of_lt (by omega)
  have hcount := unpacks_unpack (le 2 ms.lst.length)
  rw [length_le] at hcount
  have hloop := unpacks_loop h MessageSet.ok_new (by
    rw [MessageSet.new, MessageSet.initialMessageSize, hbytes]
    exact hthreshold)
  rw [← hnum] at hloop
  have hall := hcount.bind (q := fun n buf pos =>
    MessageSet.unpackLoop buf prog (ofLe n) (.new, pos)) hloop [] stale (by
      simp only [List.nil_append]
      change ((ms.bytes ++ stale).length : ℤ) ≤ _
      rw [hstale]
      simp only [maxInt, mpiBufSize]
      omega)
  simp only [List.nil_append] at hall
  obtain ⟨⟨count, pos⟩, hread, hrun⟩ := bind_eq_ok.mp hall
  change Vm.unpack (ms.bytes ++ stale) 2 0 = _ at hread
  have hunpack : MessageSet.unpack (ms.bytes ++ stale) prog =
      .ok ⟨[] ++ ms.lst.map Message.received, MessageSet.initialMessageSize +
        (ms.lst.flatMap Message.bytes).length⟩ := by
    rw [MessageSet.unpack, hread, ok_bind]
    exact congrArg (· >>= fun r => pure r.1) hrun
  rw [hunpack, List.nil_append, MessageSet.initialMessageSize, hbytes]

/-- A set that the buffer can hold arrives, unless its last message ends with an empty list. -/
theorem MessageSet.Ok.arrives_iff (hok : ms.Ok) (h : ∀ msg ∈ ms.lst, msg.data.Sendable prog) :
    ms.Arrives prog ↔ ¬ ms.EndsEmpty := by
  obtain ⟨hpack, hfail⟩ := hok.pack_eq h
  constructor
  · rintro ⟨packet, hok, -⟩ hends
    rw [hfail hends] at hok
    exact absurd hok (by simp)
  · intro hends
    refine ⟨ms.bytes, ?_, hok.length_bytes h, fun stale hstale => hok.unpack_eq h hstale⟩
    rw [hpack hends, PackState.wrote, hok.length_bytes h]

/-- What a run of the handler may put into sets. -/
def BufferOp.Sendable (prog : Program) : BufferOp → Prop
  | .bufferMessage _ msg => msg.data.Sendable prog
  | .transmitMessages => True

/-- What was sent to a thread was inserted for it. -/
theorem mem_inserted_of_sent {ops : List BufferOp} {h : MpiHandler} {d : Dest}
    (hkept : sentTo d h.msgBuf.sent ++ (h.msgBuf.sets d).lst = insertedFor d ops)
    {s : Dest × MessageSet} (hs : s ∈ h.msgBuf.sent) (hd : s.1 = d) (hmsg : msg ∈ s.2.lst) :
    BufferOp.bufferMessage d msg ∈ ops := by
  have hmem : msg ∈ insertedFor d ops := by
    rw [← hkept]
    refine List.mem_append_left _ (List.mem_flatMap.mpr ⟨s, hs, ?_⟩)
    rw [if_pos hd]
    exact hmsg
  obtain ⟨op, hop, hin⟩ := List.mem_flatMap.mp hmem
  cases op with
  | transmitMessages => exact absurd hin List.not_mem_nil
  | bufferMessage d' msg' =>
    change msg ∈ if d' = d then [msg'] else [] at hin
    by_cases hd' : d' = d
    · rw [if_pos hd', List.mem_singleton] at hin
      rw [← hd', hin]
      exact hop
    · rw [if_neg hd'] at hin
      exact absurd hin List.not_mem_nil

end

/-- In every run of the handler, with any messages in any order, each set that is sent fills its
packet, and the receiver unpacks exactly its messages, in their order, whatever its buffer held
before, unless the last message of the set ends with an empty list. -/
theorem sent_arrives_iff (prog : Program) (ops : List BufferOp) (hfits : ∀ op ∈ ops, op.Fits)
    (hsend : ∀ op ∈ ops, op.Sendable prog) :
    ∃ h, MpiHandler.run ops = .ok h ∧
      ∀ s ∈ h.msgBuf.sent, s.2.Arrives prog ↔ ¬ s.2.EndsEmpty := by
  obtain ⟨h, hrun, hholds⟩ := MpiHandler.holds_new.run hfits
  refine ⟨h, hrun, fun s hs => (hholds.msgBuf.sent s hs).arrives_iff fun msg hmsg => ?_⟩
  exact hsend _ (mem_inserted_of_sent (hholds.msgBuf.kept s.1) hs rfl hmsg)

/-- Two messages in one set, the first of which ends with an empty list. -/
theorem sent_arrives_iff_two : ∃ h,
    MpiHandler.run [.bufferMessage (toLex (1, 0)) ⟨3, listTuple []⟩,
      .bufferMessage (toLex (1, 0)) ⟨4, listTuple [.int 5]⟩, .transmitMessages] = .ok h ∧
      ∀ s ∈ h.msgBuf.sent, s.2.Arrives listSample ↔ ¬ s.2.EndsEmpty := by
  refine sent_arrives_iff listSample _ (fun op hop => ?_) fun op hop => ?_
  · rcases List.mem_cons.mp hop with rfl | hop
    · exact ⟨11, rfl, by decide⟩
    · rcases List.mem_pair.mp hop with rfl | rfl
      · exact ⟨15, rfl, by decide⟩
      · trivial
  · rcases List.mem_cons.mp hop with rfl | hop
    · exact sendable_listTuple (by simp)
    · rcases List.mem_pair.mp hop with rfl | rfl
      · exact sendable_listTuple (by simp [Item.type])
      · trivial

end Meld.Sched.Mpi
