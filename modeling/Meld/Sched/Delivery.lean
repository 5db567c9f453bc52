import Meld.Db.Database
import Meld.Sched.MessageWire

/-!
# Delivery of messages between machines

The threads of several machines buffer messages for each other, send the sets that are full, and
fetch what was sent to them, in any order of steps. A message goes through three places: the buffer
of its sender, the channel between the two machines, where packets with one tag do not overtake each
other, and the receive buffer of the thread it is for, which is used for one packet after another.

Whatever the threads do, the messages that one of them inserted for another are at every moment the
ones delivered to it, the ones in flight and the ones still buffered, in this order, each of them
once (`delivered_in_order`). A run can only stop at a packet whose last tuple ends with an empty
list, where `cons::pack` fails its assertion, or at a message for a node that the database of its
machine does not have, where `find_node` calls `abort`. Meanwhile nodes are created.
-/

namespace Meld.Sched.Mpi

open Lib Lib.Bytes Vm

/-- What travels between machines: the bytes, and what the proofs remember of them. -/
structure Packet where
  sender : Dest
  set : MessageSet
  bytes : List UInt8

/-- The machines with their threads, and the message layer. -/
structure World where
  handlers : Dest → MpiHandler
  /-- the packets from a machine with the tag of a thread, the oldest first -/
  channel : ℕ → Dest → List Packet
  /-- `recv_buf` -/
  recvBuf : Dest → List UInt8
  /-- the database of each machine -/
  databases : ℕ → Db.Database
  /-- what `new_mpi_message` was called with, and who had sent it -/
  delivered : Dest → List (Dest × Message)

/-- A step of a thread. -/
inductive WorldEvent
  /-- it buffers a message or transmits the buffer -/
  | handle (t : Dest) (op : BufferOp)
  /-- `recv_attempt` finds a packet from the machine -/
  | receive (t : Dest) (source : ℕ)
  /-- a node is created on the machine -/
  | createNode (machine : ℕ)

/-- `router::send`, whose assertion on the size `transmitList` has checked. -/
def send (t : Dest) (s : Dest × MessageSet) : Exec (Dest × Packet) := do
  let packed ← s.2.pack s.2.totalSize
  return (s.1, ⟨t, s.2, packed.written⟩)

namespace World

/-- The start, where each machine has read the ids of its nodes. -/
def new (ids : ℕ → List (UInt32 × UInt32)) : World where
  handlers _ := .new
  channel _ _ := []
  recvBuf _ := List.replicate mpiBufSize 0
  databases m := .load (ids m)
  delivered _ := []

variable (w : World)

/-- A thread works on its buffer; the sets that this sends become packets. -/
def handle (t : Dest) (op : BufferOp) : Exec World := do
  let h := w.handlers t
  let h' ← h.step op
  let packets ← (h'.msgBuf.sent.drop h.msgBuf.sent.length).mapM (send t)
  return { w with
    handlers := Function.update w.handlers t h'
    channel := fun m d => if m = t.1 then
      w.channel m d ++ (packets.filter fun p => decide (p.1 = d)).map Prod.snd else w.channel m d }

/-- What `fetch_work` does with a message: `new_mpi_message` is called with the node. -/
def newMpiMessage (d : Db.Database) (sender : Dest) (msg : Message) : Exec (Dest × Message) := do
  let node ← d.findNode msg.id
  assert (msg.id = node.id)
  return (sender, msg)

/-- A round of the loop in `fetch_work`: a packet is received over the last one. -/
def receive (prog : Program) (t : Dest) (source : ℕ) : Exec World :=
  match w.channel source t with
  | [] => pure w
  | p :: rest => do
    let buf := p.bytes ++ (w.recvBuf t).drop p.bytes.length
    let ms ← MessageSet.unpack buf prog
    let empty ← ms.empty
    assert (empty = false)
    let msgs ← ms.lst.mapM (newMpiMessage (w.databases t.1) p.sender)
    return { w with
      channel := Function.update w.channel source (Function.update (w.channel source) t rest)
      recvBuf := Function.update w.recvBuf t buf
      delivered := Function.update w.delivered t
        (w.delivered t ++ msgs) }

/-- `create_node` on a machine. -/
def createNode (machine : ℕ) : Exec World := do
  let (_, d) ← (w.databases machine).createNode
  return { w with databases := Function.update w.databases machine d }

/-- One step. -/
def step (prog : Program) (w : World) : WorldEvent → Exec World
  | .handle t op => w.handle t op
  | .receive t source => w.receive prog t source
  | .createNode machine => w.createNode machine

/-- A run from the start. -/
def run (prog : Program) (ids : ℕ → List (UInt32 × UInt32)) (es : List WorldEvent) : Exec World :=
  es.foldlM (step prog) (.new ids)

/-- The messages of a thread that another one got. -/
def deliveredFrom (s d : Dest) : List Message :=
  (w.delivered d).flatMap fun r => if r.1 = s then [r.2] else []

/-- The messages of a thread that are on their way to another one, as they will be received. -/
def inFlight (s d : Dest) : List Message :=
  (w.channel s.1 d).flatMap fun p => if p.sender = s then p.set.lst.map Message.received else []

/-- The messages for a thread that another one has not sent yet. -/
def buffered (s d : Dest) : List Message :=
  ((w.handlers s).msgBuf.sets d).lst.map Message.received

end World

/-- What a thread did with its buffer. -/
def opsOf (s : Dest) (es : List WorldEvent) : List BufferOp :=
  es.flatMap fun
    | .handle t op => if t = s then [op] else []
    | .receive _ _ => []
    | .createNode _ => []

/-! ### What a step sends -/

/-- Sets were sent, none of them empty. -/
def MessageBuffer.Grows (buf buf' : MessageBuffer) : Prop :=
  ∃ new, buf'.sent = buf.sent ++ new ∧ ∀ s ∈ new, s.2.lst ≠ []

section

variable {buf buf₁ buf' : MessageBuffer} {d : Dest} {msg : Message} {op : BufferOp}

namespace MessageBuffer.Grows

theorem refl (buf : MessageBuffer) : buf.Grows buf :=
  ⟨[], (List.append_nil _).symm, fun _ hs => absurd hs List.not_mem_nil⟩

theorem trans (h : buf.Grows buf₁) (h' : buf₁.Grows buf') : buf.Grows buf' := by
  obtain ⟨new, hnew, hne⟩ := h
  obtain ⟨new', hnew', hne'⟩ := h'
  refine ⟨new ++ new', by rw [hnew', hnew, List.append_assoc], fun s hs => ?_⟩
  exact (List.mem_append.mp hs).elim (hne s) (hne' s)

end MessageBuffer.Grows

theorem MessageSet.ne_nil_of_empty {ms : MessageSet} (h : ms.empty = .ok false) : ms.lst ≠ [] := by
  intro hnil
  rw [MessageSet.empty, if_pos hnil, hnil] at h
  obtain ⟨⟨⟩, -, h⟩ := bind_eq_ok.mp h
  exact absurd (Except.ok.inj h) (by decide)

theorem MessageBuffer.grows_transmitList (h : buf.transmitList d = .ok buf') : buf.Grows buf' := by
  obtain ⟨empty, hempty, h⟩ := bind_eq_ok.mp h
  obtain ⟨⟨⟩, hfalse, h⟩ := bind_eq_ok.mp h
  obtain ⟨⟨⟩, -, h⟩ := bind_eq_ok.mp h
  obtain ⟨⟨⟩, -, h⟩ := bind_eq_ok.mp h
  obtain ⟨⟨⟩, -, h⟩ := bind_eq_ok.mp h
  rw [assert_eq_ok.mp hfalse] at hempty
  cases h
  refine ⟨[(d, buf.sets d)], rfl, fun s hs => ?_⟩
  rw [List.mem_singleton.mp hs]
  exact MessageSet.ne_nil_of_empty hempty

theorem MessageBuffer.grows_insert {b : Bool} (h : buf.insert d msg = .ok (buf', b)) :
    buf.Grows buf' := by
  -- nothing is sent once there is room in the set
  have hadd : ∀ (buf₁ : MessageBuffer) (b₁ : Bool), (do
      let empty ← (buf₁.sets d).empty
      let total := if empty then buf₁.total + 1 else buf₁.total
      let ms ← (buf₁.sets d).add msg
      return ({ buf₁ with sets := Function.update buf₁.sets d ms, total := total }, b₁)) =
        (.ok (buf', b) : Exec (MessageBuffer × Bool)) → buf'.sent = buf₁.sent := by
    intro buf₁ b₁ h
    obtain ⟨empty, -, h⟩ := bind_eq_ok.mp h
    obtain ⟨ms, -, h⟩ := bind_eq_ok.mp h
    cases h
    rfl
  obtain ⟨size, -, h⟩ := bind_eq_ok.mp h
  simp only [] at h
  split_ifs at h
  · obtain ⟨buf₁, hsend, h⟩ := bind_eq_ok.mp h
    obtain ⟨new, hnew, hne⟩ := grows_transmitList hsend
    exact ⟨new, (hadd _ _ h).trans hnew, hne⟩
  · obtain ⟨new, hnew, hne⟩ := Grows.refl buf
    exact ⟨new, (hadd _ _ h).trans hnew, hne⟩

theorem MessageBuffer.grows_transmit {n : ℕ} (h : buf.transmit = .ok (buf', n)) :
    buf.Grows buf' := by
  have hloop : ∀ (ds : List Dest) (buf buf' : MessageBuffer), ds.foldlM (fun buf d => do
      let empty ← (buf.sets d).empty
      if empty then pure buf else buf.transmitList d) buf = .ok buf' → buf.Grows buf' := by
    intro ds
    induction ds with
    | nil =>
      intro buf buf' h
      cases h
      exact .refl _
    | cons d ds ih =>
      intro buf buf' h
      rw [List.foldlM_cons] at h
      obtain ⟨buf₁, hfirst, h⟩ := bind_eq_ok.mp h
      obtain ⟨empty, -, hfirst⟩ := bind_eq_ok.mp hfirst
      refine MessageBuffer.Grows.trans ?_ (ih _ _ h)
      split_ifs at hfirst
      · cases hfirst
        exact .refl _
      · exact grows_transmitList hfirst
  rw [MessageBuffer.transmit] at h
  split_ifs at h
  · obtain ⟨buf₁, hrun, h⟩ := bind_eq_ok.mp h
    cases h
    exact hloop _ _ _ hrun
  · cases h
    exact .refl _

theorem MpiHandler.grows_step {h h' : MpiHandler} (hstep : h.step op = .ok h') :
    h.msgBuf.Grows h'.msgBuf := by
  cases op with
  | bufferMessage d msg =>
    obtain ⟨⟨buf, b⟩, hrun, hstep⟩ := bind_eq_ok.mp hstep
    have hgrows := MessageBuffer.grows_insert hrun
    cases b with
    | false => cases hstep; exact hgrows
    | true => cases hstep; exact hgrows
  | transmitMessages =>
    obtain ⟨⟨buf, n⟩, hrun, hstep⟩ := bind_eq_ok.mp hstep
    have hgrows := MessageBuffer.grows_transmit hrun
    cases hstep
    change h.msgBuf.Grows (if 0 < n then _ else _ : MpiHandler).msgBuf
    split_ifs
    · exact hgrows
    · exact hgrows

end

/-! ### What is kept -/

/-- A packet holds its messages. -/
structure Packet.Ok (prog : Program) (p : Packet) : Prop where
  set : p.set.Ok
  sendable : ∀ msg ∈ p.set.lst, msg.data.Sendable prog
  ne_nil : p.set.lst ≠ []
  bytes : p.bytes = p.set.bytes

/-- The messages of an event fit and can be sent. -/
def WorldEvent.Fits (prog : Program) : WorldEvent → Prop
  | .handle _ op => op.Fits ∧ op.Sendable prog
  | .receive _ _ => True
  | .createNode _ => True

/-- The message does not end with an empty list. -/
def BufferOp.Closed : BufferOp → Prop
  | .bufferMessage _ msg => ¬ endsEmpty msg.data.tpl.fields
  | .transmitMessages => True

/-- The message is for a node that its machine has read. -/
def BufferOp.Known (ids : ℕ → List (UInt32 × UInt32)) : BufferOp → Prop
  | .bufferMessage d msg => msg.id ∈ (Db.Database.load (ids d.1)).nodes
  | .transmitMessages => True

/-- The databases have the nodes that were read. -/
structure World.Populated (ids : ℕ → List (UInt32 × UInt32)) (w : World) : Prop where
  keyed : ∀ m, (w.databases m).Keyed
  read : ∀ m, ∀ id ∈ (Db.Database.load (ids m)).nodes, id ∈ (w.databases m).nodes

/-- Nothing is lost or repeated, after the threads did what is listed. -/
structure World.Holds (prog : Program) (ops : Dest → List BufferOp) (w : World) : Prop where
  sendable : ∀ t, ∀ op ∈ ops t, op.Sendable prog
  handler : ∀ t, (w.handlers t).Holds fun d => insertedFor d (ops t)
  packet : ∀ m d, ∀ p ∈ w.channel m d, p.Ok prog ∧ p.sender.1 = m
  recvBuf : ∀ t, (w.recvBuf t).length = mpiBufSize
  kept : ∀ s d, w.deliveredFrom s d ++ w.inFlight s d =
    (sentTo d (w.handlers s).msgBuf.sent).map Message.received

section

variable {prog : Program} {w w' : World} {ops : Dest → List BufferOp} {e : WorldEvent}
  {s t d : Dest} {op : BufferOp} {source : ℕ} {ms : MessageSet}

/-- The packet of a set. -/
def packetOf (t : Dest) (ms : MessageSet) : Packet := ⟨t, ms, ms.bytes⟩

/-- A set that is sent becomes its packet, unless its last message ends with an empty list. -/
theorem send_eq (hok : ms.Ok) (h : ∀ msg ∈ ms.lst, msg.data.Sendable prog) :
    (¬ ms.EndsEmpty → send t (d, ms) = .ok (d, packetOf t ms)) ∧
    (ms.EndsEmpty → send t (d, ms) = .error .assertion) := by
  obtain ⟨hpack, hfail⟩ := hok.pack_eq h
  refine ⟨fun hends => ?_, fun hends => ?_⟩
  · rw [send, hpack hends]
    rfl
  · rw [send, hfail hends]
    rfl

theorem mapM_send {new : List (Dest × MessageSet)} (hok : ∀ s ∈ new, s.2.Ok)
    (h : ∀ s ∈ new, ∀ msg ∈ s.2.lst, msg.data.Sendable prog) :
    ((∀ s ∈ new, ¬ s.2.EndsEmpty) →
      new.mapM (send t) = .ok (new.map fun s => (s.1, packetOf t s.2))) ∧
    ∀ ps, new.mapM (send t) = .ok ps → ps = new.map fun s => (s.1, packetOf t s.2) := by
  induction new with
  | nil =>
    refine ⟨fun _ => rfl, fun ps hps => ?_⟩
    cases hps
    rfl
  | cons s new ih =>
    rw [List.forall_mem_cons] at hok h
    obtain ⟨hsend, hfail⟩ := send_eq (t := t) (d := s.1) hok.1 h.1
    obtain ⟨hall, hinv⟩ := ih hok.2 h.2
    rw [List.mapM_cons]
    refine ⟨fun hends => ?_, fun ps hps => ?_⟩
    · rw [List.forall_mem_cons] at hends
      rw [hsend hends.1, ok_bind, hall hends.2]
      rfl
    · by_cases hends : s.2.EndsEmpty
      · rw [hfail hends] at hps
        cases hps
      · rw [hsend hends, ok_bind] at hps
        obtain ⟨ps', hps', hps⟩ := bind_eq_ok.mp hps
        cases hps
        rw [hinv _ hps', List.map_cons]

/-- The messages in the new packets to a thread, if they are from the right one. -/
theorem flatMap_packets (s t d : Dest) (new : List (Dest × MessageSet)) :
    (((new.map fun x => (x.1, packetOf t x.2)).filter fun p => decide (p.1 = d)).map
      Prod.snd).flatMap (fun p => if p.sender = s then p.set.lst.map Message.received else []) =
      if t = s then (sentTo d new).map Message.received else [] := by
  induction new with
  | nil =>
    simp only [List.map_nil, List.filter_nil, List.flatMap_nil, sentTo, ite_self]
  | cons x new ih =>
    rw [List.map_cons, List.filter_cons]
    have hsent : sentTo d (x :: new) = (if x.1 = d then x.2.lst else []) ++ sentTo d new :=
      List.flatMap_cons
    rw [hsent, List.map_append]
    by_cases hd : x.1 = d
    · rw [if_pos (decide_eq_true hd), List.map_cons, List.flatMap_cons, ih, if_pos hd]
      by_cases hts : t = s
      · rw [if_pos hts, if_pos hts, if_pos (show (packetOf t x.2).sender = s from hts)]
        rfl
      · rw [if_neg hts, if_neg hts, if_neg (show (packetOf t x.2).sender ≠ s from hts),
          List.nil_append]
    · rw [if_neg (by simpa using hd), ih, if_neg hd, List.map_nil, List.nil_append]

theorem flatMap_delivered (r s : Dest) (msgs : List Message) :
    (msgs.map fun msg => (r, msg)).flatMap (fun x => if x.1 = s then [x.2] else []) =
      if r = s then msgs else [] := by
  split_ifs with hrs
  · simp only [List.flatMap_map, hrs, if_true, List.flatMap_singleton']
  · simp [List.flatMap_map, hrs]

namespace World.Holds

theorem new (prog : Program) (ids : ℕ → List (UInt32 × UInt32)) :
    (World.new ids).Holds prog fun _ => [] where
  sendable := fun _ _ hop => absurd hop List.not_mem_nil
  handler := fun _ => MpiHandler.holds_new
  packet := fun _ _ _ hp => absurd hp List.not_mem_nil
  recvBuf := fun _ => List.length_replicate
  kept := fun _ _ => rfl

/-- The packets of a step of a thread. -/
theorem handle (h : w.Holds prog ops) (hfits : op.Fits) (hsend : op.Sendable prog) :
    ∃ h' new, (w.handlers t).step op = .ok h' ∧
      h'.msgBuf.sent = (w.handlers t).msgBuf.sent ++ new ∧
      (h'.Holds fun d => insertedFor d (ops t) ++ insertedFor d [op]) ∧
      (∀ x ∈ new, x.2.Ok) ∧ (∀ x ∈ new, x.2.lst ≠ []) ∧
      (∀ x ∈ new, ∀ msg ∈ x.2.lst, BufferOp.bufferMessage x.1 msg ∈ ops t ++ [op]) ∧
      ∀ x ∈ new, ∀ msg ∈ x.2.lst, msg.data.Sendable prog := by
  obtain ⟨h', hstep, hholds⟩ := (h.handler t).step hfits
  obtain ⟨new, hnew, hne⟩ := MpiHandler.grows_step hstep
  have hmem : ∀ x ∈ new, x ∈ h'.msgBuf.sent := fun x hx => by
    rw [hnew]
    exact List.mem_append_right _ hx
  have hops : ∀ x ∈ new, ∀ msg ∈ x.2.lst, BufferOp.bufferMessage x.1 msg ∈ ops t ++ [op] := by
    intro x hx msg hmsg
    refine mem_inserted_of_sent (h := h') ?_ (hmem x hx) rfl hmsg
    have hkept := hholds.msgBuf.kept x.1
    rwa [insertedFor, insertedFor, ← List.flatMap_append] at hkept
  refine ⟨h', new, hstep, hnew, hholds, fun x hx => hholds.msgBuf.sent x (hmem x hx), hne, hops, ?_⟩
  intro x hx msg hmsg
  rcases List.mem_append.mp (hops x hx msg hmsg) with hop | hop
  · exact h.sendable t _ hop
  · rw [← List.mem_singleton.mp hop] at hsend
    exact hsend

/-- A step of a thread keeps all messages. -/
theorem handled (h : w.Holds prog ops) (hfits : op.Fits) (hsend : op.Sendable prog)
    (hstep : w.handle t op = .ok w') :
    w'.Holds prog fun s => ops s ++ if t = s then [op] else [] := by
  obtain ⟨h', new, hop, hnew, hholds, hok, hne, -, hsendable⟩ := h.handle (t := t) hfits hsend
  rw [World.handle, hop, ok_bind, hnew, List.drop_left] at hstep
  obtain ⟨ps, hps, hstep⟩ := bind_eq_ok.mp hstep
  obtain rfl := (mapM_send hok hsendable).2 ps hps
  cases hstep
  have hself : ∀ s, Function.update w.handlers t h' s = if t = s then h' else w.handlers s := by
    intro s
    rcases eq_or_ne t s with rfl | hts
    · rw [Function.update_self, if_pos rfl]
    · rw [Function.update_of_ne hts.symm, if_neg hts]
  refine ⟨fun s op' hop' => ?_, fun s => ?_, fun m d p hp => ?_, h.recvBuf, fun s d => ?_⟩
  · rcases List.mem_append.mp hop' with hop' | hop'
    · exact h.sendable s op' hop'
    · split_ifs at hop'
      · rw [List.mem_singleton.mp hop']
        exact hsend
      · exact absurd hop' List.not_mem_nil
  · simp only [hself s]
    split_ifs with hts
    · rw [← hts]
      simpa only [insertedFor, List.flatMap_append] using hholds
    · simpa only [List.append_nil] using h.handler s
  · simp only at hp
    split_ifs at hp with hm
    · rcases List.mem_append.mp hp with hp | hp
      · exact h.packet m d p hp
      · obtain ⟨q, hq, rfl⟩ := List.mem_map.mp hp
        obtain ⟨x, hx, rfl⟩ := List.mem_map.mp (List.mem_filter.mp hq).1
        exact ⟨⟨hok x hx, hsendable x hx, hne x hx, rfl⟩, hm.symm⟩
    · exact h.packet m d p hp
  · have hkept := h.kept s d
    simp only [deliveredFrom, inFlight, hself s] at hkept ⊢
    rcases eq_or_ne t s with rfl | hts
    · rw [if_pos rfl, if_pos rfl, List.flatMap_append, flatMap_packets, if_pos rfl,
        ← List.append_assoc, hkept, hnew, sentTo, sentTo, sentTo, List.flatMap_append,
        List.map_append]
    · rw [if_neg hts]
      split_ifs with hm
      · rw [List.flatMap_append, flatMap_packets, if_neg hts, List.append_nil]
        exact hkept
      · exact hkept

/-- The messages of a packet are given to the nodes that they are for. -/
theorem mapM_newMpiMessage (d : Db.Database) (msgs : List Message) :
    (∀ got, msgs.mapM (newMpiMessage d s) = .ok got → got = msgs.map fun msg => (s, msg)) ∧
    ((∀ msg ∈ msgs, ∃ node, d.findNode msg.id = .ok node ∧ node.id = msg.id) →
      ∃ got, msgs.mapM (newMpiMessage d s) = .ok got) := by
  induction msgs with
  | nil =>
    refine ⟨fun got hgot => ?_, fun _ => ⟨[], rfl⟩⟩
    cases hgot
    rfl
  | cons msg msgs ih =>
    rw [List.mapM_cons, List.forall_mem_cons]
    constructor
    · intro got hgot
      obtain ⟨r, hr, hgot⟩ := bind_eq_ok.mp hgot
      obtain ⟨rs, hrs, hgot⟩ := bind_eq_ok.mp hgot
      obtain ⟨node, -, hr⟩ := bind_eq_ok.mp hr
      obtain ⟨_, -, hr⟩ := bind_eq_ok.mp hr
      cases hr
      cases hgot
      rw [ih.1 rs hrs, List.map_cons]
    · rintro ⟨⟨node, hnode, hid⟩, hmsgs⟩
      obtain ⟨rs, hrs⟩ := ih.2 hmsgs
      refine ⟨(s, msg) :: rs, ?_⟩
      rw [newMpiMessage, hnode, ok_bind, assert_pos hid.symm, hrs]
      rfl

/-- Receiving a packet keeps all messages, and does not fail when the nodes that they are for are
found. -/
theorem received (h : w.Holds prog ops) (t : Dest) (source : ℕ) :
    (∀ w', w.receive prog t source = .ok w' → w'.Holds prog ops ∧ w'.databases = w.databases) ∧
    ((∀ p ∈ w.channel source t, ∀ msg ∈ p.set.lst,
        ∃ node, (w.databases t.1).findNode msg.id = .ok node ∧ node.id = msg.id) →
      ∃ w', w.receive prog t source = .ok w') := by
  rw [World.receive]
  cases hchannel : w.channel source t with
  | nil =>
    refine ⟨fun w' hw' => ?_, fun _ => ⟨w, rfl⟩⟩
    cases hw'
    exact ⟨h, rfl⟩
  | cons p rest =>
    obtain ⟨hp, hsource⟩ := h.packet source t p (hchannel ▸ List.mem_cons_self)
    have hthreshold := hp.set.totalSize_lt
    have hlen : (p.bytes ++ (w.recvBuf t).drop p.bytes.length).length = mpiBufSize := by
      rw [List.length_append, List.length_drop, h.recvBuf t, hp.bytes,
        hp.set.length_bytes hp.sendable]
      simp only [mpiBufferThreshold] at hthreshold
      omega
    -- what the buffer held before does not matter
    have hunpack := hp.set.unpack_eq hp.sendable (hp.bytes ▸ hlen)
    rw [← hp.bytes] at hunpack
    have hempty : MessageSet.empty ⟨p.set.lst.map Message.received, p.set.totalSize⟩ =
        .ok false := by
      have hne : p.set.lst.map Message.received ≠ [] := by simpa using hp.ne_nil
      rw [MessageSet.empty, if_neg hne]
      cases hlst : p.set.lst with
      | nil => exact absurd hlst hp.ne_nil
      | cons msg msgs => rfl
    simp only [hunpack, ok_bind, hempty, assert_pos, pure_eq_ok]
    obtain ⟨hall, hfound⟩ := mapM_newMpiMessage (s := p.sender) (w.databases t.1)
      (p.set.lst.map Message.received)
    refine ⟨fun w' hw' => ?_, fun hnodes => ?_⟩
    · obtain ⟨got, hgot, hw'⟩ := bind_eq_ok.mp hw'
      obtain rfl := hall got hgot
      rw [Except.ok.injEq] at hw'
      subst hw'
      have hrest : ∀ m d, Function.update w.channel source
          (Function.update (w.channel source) t rest) m d =
            if m = source ∧ d = t then rest else w.channel m d := by
        intro m d
        rcases eq_or_ne m source with rfl | hm
        · rw [Function.update_self, Function.update_apply]
          exact if_congr (by simp) rfl rfl
        · rw [Function.update_of_ne hm, if_neg fun hmd => hm hmd.1]
      refine ⟨⟨h.sendable, h.handler, fun m d q hq => ?_, fun d => ?_, fun s d => ?_⟩, rfl⟩
      · simp only [hrest] at hq
        split_ifs at hq with hmd
        · obtain ⟨rfl, rfl⟩ := hmd
          exact h.packet m d q (hchannel ▸ List.mem_cons_of_mem p hq)
        · exact h.packet m d q hq
      · simp only [Function.update_apply]
        split_ifs
        · exact hlen
        · exact h.recvBuf d
      · have hkept := h.kept s d
        simp only [deliveredFrom, inFlight, hrest, Function.update_apply] at hkept ⊢
        rcases eq_or_ne d t with rfl | hd
        · rw [if_pos rfl, List.flatMap_append, flatMap_delivered]
          rcases eq_or_ne p.sender s with hs | hs
          · have hm : s.1 = source := hs ▸ hsource
            rw [hm, hchannel, List.flatMap_cons, if_pos hs] at hkept
            rw [if_pos hs, if_pos ⟨hm, rfl⟩, List.append_assoc]
            exact hkept
          · rw [if_neg hs, List.append_nil]
            split_ifs with hm
            · rw [hm.1, hchannel, List.flatMap_cons, if_neg hs, List.nil_append] at hkept
              exact hkept
            · exact hkept
        · rw [if_neg hd, if_neg fun hmd => hd hmd.2]
          exact hkept
    · obtain ⟨got, hgot⟩ := hfound fun msg hmsg => by
        obtain ⟨msg₀, hmsg₀, rfl⟩ := List.mem_map.mp hmsg
        exact hnodes p List.mem_cons_self msg₀ hmsg₀
      rw [hgot]
      exact ⟨_, rfl⟩

/-- The messages of a packet were inserted by its sender. -/
theorem inserted_of_packet (h : w.Holds prog ops) {p : Packet} (hp : p ∈ w.channel source d)
    {msg : Message} (hmsg : msg ∈ p.set.lst) :
    ∃ msg' : Message, msg'.id = msg.id ∧ BufferOp.bufferMessage d msg' ∈ ops p.sender := by
  obtain ⟨-, hsource⟩ := h.packet source d p hp
  have hflight : msg.received ∈ w.inFlight p.sender d := by
    rw [inFlight, hsource]
    refine List.mem_flatMap.mpr ⟨p, hp, ?_⟩
    rw [if_pos rfl]
    exact List.mem_map_of_mem hmsg
  have hsent : msg.received ∈ (sentTo d (w.handlers p.sender).msgBuf.sent).map
      Message.received := by
    rw [← h.kept p.sender d]
    exact List.mem_append_right _ hflight
  obtain ⟨msg', hmsg', heq⟩ := List.mem_map.mp hsent
  have hid : msg'.received.id = msg.received.id := congrArg Message.id heq
  obtain ⟨x, hx, hin⟩ := List.mem_flatMap.mp hmsg'
  split_ifs at hin with hd
  · exact ⟨msg', hid, mem_inserted_of_sent ((h.handler p.sender).msgBuf.kept d) hx hd hin⟩
  · exact absurd hin List.not_mem_nil

/-- A step keeps all messages. -/
theorem step (h : w.Holds prog ops) (hfits : e.Fits prog) (hstep : World.step prog w e = .ok w') :
    w'.Holds prog fun s => ops s ++ opsOf s [e] := by
  cases e with
  | handle t op =>
    have hnext := h.handled hfits.1 hfits.2 hstep
    simpa only [opsOf, List.flatMap_singleton] using hnext
  | receive t source =>
    have hnext := ((h.received t source).1 w' hstep).1
    simpa only [opsOf, List.flatMap_singleton, List.append_nil] using hnext
  | createNode machine =>
    obtain ⟨-, -, hstep⟩ := bind_eq_ok.mp hstep
    cases hstep
    simp only [opsOf, List.flatMap_singleton, List.append_nil]
    exact ⟨h.sendable, h.handler, h.packet, h.recvBuf, h.kept⟩

end World.Holds

variable {ids : ℕ → List (UInt32 × UInt32)}

namespace World.Populated

theorem new (ids : ℕ → List (UInt32 × UInt32)) : (World.new ids).Populated ids :=
  ⟨fun m => Db.Database.keyed_load (ids m), fun _ _ hid => hid⟩

/-- A step keeps the nodes. -/
theorem step (hw : w.Populated ids) (h : w.Holds prog ops)
    (hstep : World.step prog w e = .ok w') : w'.Populated ids := by
  cases e with
  | handle t op =>
    obtain ⟨h', -, hstep⟩ := bind_eq_ok.mp hstep
    obtain ⟨packets, -, hstep⟩ := bind_eq_ok.mp hstep
    cases hstep
    exact ⟨hw.keyed, hw.read⟩
  | receive t source =>
    have hsame := ((h.received t source).1 w' hstep).2
    refine ⟨fun m => ?_, fun m => ?_⟩
    · rw [hsame]
      exact hw.keyed m
    · rw [hsame]
      exact hw.read m
  | createNode machine =>
    obtain ⟨⟨node, d⟩, hcreate, hstep⟩ := bind_eq_ok.mp hstep
    cases hstep
    have hcall : (w.databases machine).call .createNode = .ok (node, d) := hcreate
    refine ⟨fun m => ?_, fun m id hid => ?_⟩
    · simp only [Function.update_apply]
      split_ifs
      · exact (hw.keyed machine).call hcall
      · exact hw.keyed m
    · simp only [Function.update_apply]
      split_ifs with hm
      · subst hm
        rw [(Db.Database.call_eq_ok hcall).1]
        exact (AList.mem_insert _).mpr (.inr (hw.read _ id hid))
      · exact hw.read m id hid

/-- The nodes of the messages on their way to a thread are found. -/
theorem found (hw : w.Populated ids) (h : w.Holds prog ops)
    (hknown : ∀ s, ∀ op ∈ ops s, op.Known ids) : ∀ p ∈ w.channel source t, ∀ msg ∈ p.set.lst,
      ∃ node, (w.databases t.1).findNode msg.id = .ok node ∧ node.id = msg.id := by
  intro p hp msg hmsg
  obtain ⟨msg', hid, hop⟩ := h.inserted_of_packet hp hmsg
  have hmem : msg'.id ∈ (Db.Database.load (ids t.1)).nodes := hknown p.sender _ hop
  exact Db.Database.findNode_of_mem (hw.keyed t.1) (hw.read t.1 _ (hid ▸ hmem))

end World.Populated

namespace World.Holds

/-- A step does not fail when no message ends with an empty list and all nodes are there. -/
theorem step_returns (h : w.Holds prog ops) (hw : w.Populated ids) (hfits : e.Fits prog)
    (hclosed : ∀ s, ∀ op ∈ ops s ++ opsOf s [e], op.Closed ∧ op.Known ids) :
    ∃ w', World.step prog w e = .ok w' := by
  cases e with
  | receive t source =>
    refine (h.received t source).2 (hw.found h fun s op hop => ?_)
    exact (hclosed s op (List.mem_append_left _ hop)).2
  | createNode machine => exact ⟨_, rfl⟩
  | handle t op =>
    obtain ⟨h', new, hop, hnew, -, hok, -, hops, hsendable⟩ :=
      h.handle (t := t) hfits.1 hfits.2
    have hends : ∀ x ∈ new, ¬ x.2.EndsEmpty := by
      rintro x hx ⟨msg, hmsg, hempty⟩
      have hmem := hops x hx msg (List.mem_of_getLast? hmsg)
      have hall : BufferOp.bufferMessage x.1 msg ∈ ops t ++ opsOf t [.handle t op] := by
        simpa only [opsOf, List.flatMap_singleton, if_pos] using hmem
      exact (hclosed t _ hall).1 hempty
    change ∃ w', w.handle t op = .ok w'
    rw [World.handle, hop, ok_bind, hnew, List.drop_left, (mapM_send hok hsendable).1 hends]
    exact ⟨_, rfl⟩

theorem run (h : w.Holds prog ops) (hw : w.Populated ids) {es : List WorldEvent}
    (hfits : ∀ e ∈ es, e.Fits prog) :
    (∀ w', es.foldlM (World.step prog) w = .ok w' →
      w'.Holds prog fun s => ops s ++ opsOf s es) ∧
    ((∀ s, ∀ op ∈ ops s ++ opsOf s es, op.Closed ∧ op.Known ids) →
      ∃ w', es.foldlM (World.step prog) w = .ok w') := by
  induction es generalizing w ops with
  | nil =>
    refine ⟨fun w' hrun => ?_, fun _ => ⟨w, rfl⟩⟩
    cases hrun
    simpa only [opsOf, List.flatMap_nil, List.append_nil] using h
  | cons e es ih =>
    rw [List.forall_mem_cons] at hfits
    have hsplit : ∀ s, ops s ++ opsOf s (e :: es) = ops s ++ opsOf s [e] ++ opsOf s es := by
      intro s
      rw [List.append_assoc, opsOf, opsOf, opsOf, ← List.flatMap_append]
      rfl
    simp only [hsplit, List.foldlM_cons]
    constructor
    · intro w' hrun
      obtain ⟨w₁, hstep, hrun⟩ := bind_eq_ok.mp hrun
      exact (ih (h.step hfits.1 hstep) (hw.step h hstep) hfits.2).1 w' hrun
    · intro hclosed
      obtain ⟨w₁, hstep⟩ := h.step_returns hw hfits.1 fun s op hop =>
        hclosed s op (List.mem_append_left _ hop)
      obtain ⟨w', hrun⟩ := (ih (h.step hfits.1 hstep) (hw.step h hstep) hfits.2).2 hclosed
      exact ⟨w', by rw [hstep, ok_bind, hrun]⟩

end World.Holds

end

/-- In every interleaving of what the threads of all machines do, what a thread has inserted for
another is what the other got from it, what is in flight and what is still buffered, in this order.
No run stops where no message ends with an empty list and each is for a node that its machine has
read. -/
theorem delivered_in_order (prog : Program) (ids : ℕ → List (UInt32 × UInt32))
    (es : List WorldEvent) (hfits : ∀ e ∈ es, e.Fits prog) :
    (∀ w, World.run prog ids es = .ok w → ∀ s d,
      w.deliveredFrom s d ++ w.inFlight s d ++ w.buffered s d =
        (insertedFor d (opsOf s es)).map Message.received) ∧
    ((∀ s, ∀ op ∈ opsOf s es, op.Closed ∧ op.Known ids) → ∃ w, World.run prog ids es = .ok w) := by
  obtain ⟨hkept, hreturns⟩ := (World.Holds.new prog ids).run (World.Populated.new ids) hfits
  refine ⟨fun w hrun s d => ?_, fun hclosed => hreturns hclosed⟩
  have h := hkept w hrun
  rw [h.kept s d, World.buffered, ← List.map_append, (h.handler s).msgBuf.kept d]
  rfl

/-- A message for the node `3` of the second machine is buffered and sent, a node is created there,
and the message is received. -/
def deliveryRun : List WorldEvent :=
  [.handle (toLex (0, 0)) (.bufferMessage (toLex (1, 0)) ⟨3, listTuple [.int 5]⟩),
    .handle (toLex (0, 0)) .transmitMessages, .createNode 1, .receive (toLex (1, 0)) 0]

theorem delivered_in_order_one : ∃ w, World.run listSample (fun _ => [(3, 3)]) deliveryRun = .ok w ∧
    (w.deliveredFrom (toLex (0, 0)) (toLex (1, 0))).map Message.id = [3] ∧
      ∀ s d, w.deliveredFrom s d ++ w.inFlight s d ++ w.buffered s d =
        (insertedFor d (opsOf s deliveryRun)).map Message.received := by
  have hfits : ∀ e ∈ deliveryRun, e.Fits listSample := by
    intro e he
    rcases List.mem_cons.mp he with rfl | he
    · exact ⟨⟨15, rfl, by decide⟩, sendable_listTuple (by simp [Item.type])⟩
    · rcases List.mem_cons.mp he with rfl | he
      · exact ⟨trivial, trivial⟩
      · rcases List.mem_pair.mp he with rfl | rfl
        · trivial
        · trivial
  obtain ⟨hkept, hreturns⟩ := delivered_in_order listSample (fun _ => [(3, 3)]) deliveryRun hfits
  obtain ⟨w, hw⟩ := hreturns fun s op hop => by
    obtain ⟨e, he, hop⟩ := List.mem_flatMap.mp hop
    simp only [deliveryRun, List.mem_cons, List.not_mem_nil, or_false] at he
    rcases he with rfl | rfl | rfl | rfl
    · obtain ⟨-, rfl⟩ := by simpa using hop
      have hclosed : ¬ endsEmpty (listTuple [.int 5]).tpl.fields := by
        simp [endsEmpty, listTuple, Value.isEmptyList]
      have hknown : (3 : UInt32) ∈ (Db.Database.load [(3, 3)]).nodes := by decide
      exact ⟨hclosed, hknown⟩
    · obtain ⟨-, rfl⟩ := by simpa using hop
      exact ⟨trivial, trivial⟩
    · exact absurd hop List.not_mem_nil
    · exact absurd hop List.not_mem_nil
  have hgot : (World.run listSample (fun _ => [(3, 3)]) deliveryRun).map (fun w =>
      (w.deliveredFrom (toLex (0, 0)) (toLex (1, 0))).map Message.id) = .ok [3] := by
    decide +kernel
  rw [hw] at hgot
  exact ⟨w, hw, Except.ok.inj hgot, hkept w hw⟩

end Meld.Sched.Mpi
