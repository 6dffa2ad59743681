import Proteus.Machine

/-!
# Remote writes of `IBHandler`

A server writes into buffers of another one. It gets them in advance: the receiver allocates `buffnum`
blocks, appends them to `send_buffers` and sends their addresses, which the sender appends to
`pend_buffers`. A write takes the first of them; a notification, which takes one as well, tells the
receiver what has been written since the last one, and the receiver goes through its own list. A packet
of a notification is a size and a subscription. The size is that of the write, or -1 for a silent one,
or minus the size for a `write_to`, which goes to memory of the caller's choice and takes no buffer.

So a `write_to` of one byte looks like a silent write: it is not published, and the receiver takes a
buffer for it (`one_byte_lost`). A `write_to` is never published with the memory it was written to.

Work requests arrive in order. The receiver sees them as completions, which it handles later, while
more requests may arrive and be written to its memory; a pool of threads runs the tasks.
The calls of the sender are atomic up to the flush after each `packNotifications` packets, since they
hold a lock. `issued`, `unflushed`, `published`, `consumed`, `taken` and `allocated` are history
variables, and so are the batches of notifications.

`receive_packets`: the receiver decodes what the sender has encoded, but for a `write_to` of one byte.
-/

namespace Proteus.Infiniband

/-! ## Model -/

def packNotifications : ℕ := 256

def buffnum : ℕ := 8 * packNotifications

/-- `(size_t)(buffnum * 0.2)`. -/
def lowWater : ℕ := buffnum / 5

/-- `packet_t`. -/
structure Packet where
  size : BitVec 64
  sub : ℕ

/-- Memory of the receiver: a block of its block manager, or memory it has registered. -/
inductive Addr
  | block (n : ℕ)
  | registered (n : ℕ)

/-- A call of the sender. What is written is given as the packets the receiver would read in it. -/
inductive Call
  | write (bytes sub : ℕ) (data : ℕ → Packet)
  | write_silent (bytes : ℕ) (data : ℕ → Packet)
  | write_to (bytes dest : ℕ)

def Call.bytes : Call → ℕ
  | .write bytes _ _ | .write_silent bytes _ | .write_to bytes _ => bytes

/-- What the call appends to `cnts`. -/
def Call.packet : Call → Packet
  | .write bytes sub _ => ⟨BitVec.ofNat 64 bytes, sub⟩
  | .write_silent _ _ => ⟨-1#64, 0⟩
  | .write_to bytes _ => ⟨-BitVec.ofNat 64 bytes, 0⟩

/-- A call, with the buffer it has taken. -/
structure Entry where
  call : Call
  buff : Option ℕ

/-- The calls a notification is about, and the buffer it was written to. -/
structure Batch where
  entries : List Entry
  note : ℕ

/-- Work requests. -/
inductive Wr
  | data (b : ℕ) (content : ℕ → Packet)
  | remote (dest : ℕ)
  | notify (b : ℕ) (packets : List Packet) (imm : ℕ) (batch : Batch)
  | request

/-- What the poller of the receiver gets. -/
inductive Completion
  | notify (imm count : ℕ) (batch : Batch)
  | request

/-- An element of `send_buffers`, whose pointer may have been released. -/
structure Slot where
  addr : ℕ
  owned : Bool

def Slot.get (b : Slot) : Option Addr := if b.owned then some (.block b.addr) else none

/-- A call of `publish`; the subscription 0 is that of the handler. -/
structure Pub where
  buff : Option Addr
  size : ℕ
  sub : ℕ

structure State where
  /-- The sender. -/
  pend_buffers : List ℕ
  has_requested_buffers : Bool
  requests : ℕ
  cnts : List Packet
  actual_writes : ℕ
  flushing : Bool
  /-- The channels. -/
  wire : List Wr
  back : List (List ℕ)
  /-- The receiver. -/
  mem : ℕ → ℕ → Packet
  cq : List Completion
  tasks : ℕ
  refills : List (List ℕ)
  send_buffers : List Slot
  /-- History. -/
  issued : List Entry
  unflushed : List Entry
  published : List Pub
  consumed : List ℕ
  taken : List ℕ
  allocated : List ℕ

/-- The constructor of the sender has requested buffers. -/
def init (mem : ℕ → ℕ → Packet) : State where
  pend_buffers := []
  has_requested_buffers := false
  requests := 0
  cnts := []
  actual_writes := 0
  flushing := false
  wire := [.request]
  back := []
  mem := mem
  cq := []
  tasks := 0
  refills := []
  send_buffers := []
  issued := []
  unflushed := []
  published := []
  consumed := []
  taken := []
  allocated := []

/-- What the receiver has done with the packets of a notification. -/
structure Received where
  pubs : List Pub
  taken : List ℕ
  rest : List Slot

/-- The loop of `handle_wc_recv`. -/
def receive : List Packet → List Slot → Option Received
  | [], bufs => some ⟨[], [], bufs⟩
  | p :: ps, bufs =>
    if p.size = -1#64 then
      match bufs with
      | [] => none
      | b :: bufs => (receive ps bufs).map fun r => { r with taken := b.addr :: r.taken }
    else if 0 ≤ p.size.toInt then
      match bufs with
      | [] => none
      | b :: bufs =>
        (receive ps bufs).map fun r =>
          { r with pubs := ⟨b.get, p.size.toNat, p.sub⟩ :: r.pubs, taken := b.addr :: r.taken }
    else (receive ps bufs).map fun r => { r with pubs := ⟨none, (-p.size).toNat, 0⟩ :: r.pubs }

namespace State

variable (s : State)

/-- The first pending buffer, if there is one to wait for no longer. -/
def get_buffer : Option (ℕ × State) :=
  let ask := s.pend_buffers.length = lowWater ∧ s.has_requested_buffers = false
  match s.pend_buffers with
  | [] => none
  | b :: rest =>
    some (b, { s with
      pend_buffers := rest
      has_requested_buffers := s.has_requested_buffers || decide ask
      requests := if ask then s.requests + 1 else s.requests
      consumed := s.consumed ++ [b] })

/-- `write_to_int`, up to the flush. -/
def issue (c : Call) (buff : Option ℕ) (wr : Wr) : State :=
  { s with
    cnts := s.cnts ++ [c.packet]
    actual_writes := s.actual_writes + buff.toList.length
    wire := s.wire ++ [wr]
    flushing := (s.cnts.length + 1) % packNotifications = 0
    issued := s.issued ++ [⟨c, buff⟩]
    unflushed := s.unflushed ++ [⟨c, buff⟩] }

/-- `flush_write`, with the buffer `b`. -/
def notify (b : ℕ) : State :=
  { s with
    wire := s.wire ++ [.notify b s.cnts s.actual_writes ⟨s.unflushed, b⟩]
    cnts := []
    actual_writes := 0
    flushing := false
    unflushed := [] }

def call : Call → Option State
  | .write bytes sub data =>
    s.get_buffer.map fun r => r.2.issue (.write bytes sub data) (some r.1) (.data r.1 data)
  | .write_silent bytes data =>
    s.get_buffer.map fun r => r.2.issue (.write_silent bytes data) (some r.1) (.data r.1 data)
  | .write_to bytes dest => some (s.issue (.write_to bytes dest) none (.remote dest))

/-- A work request arrives. -/
def deliver : Wr → State
  | .data b content => { s with mem := Function.update s.mem b content }
  | .remote _ => s
  | .notify b packets imm batch =>
    { s with
      mem := Function.update s.mem b fun i => packets[i]?.getD (s.mem b i)
      cq := s.cq ++ [.notify imm packets.length batch] }
  | .request => { s with cq := s.cq ++ [.request] }

def handle : Completion → Option State
  | .request => some { s with tasks := s.tasks + 1 }
  | .notify imm count _ =>
    match s.send_buffers[imm]? with
    | none => none
    | some slot =>
      let sizes := (List.range count).map (s.mem slot.addr)
      match receive sizes (s.send_buffers.set imm { slot with owned := false }) with
      | some ⟨pubs, taken, b :: rest⟩ =>
        some { s with
          send_buffers := rest
          published := s.published ++ pubs
          taken := s.taken ++ taken ++ [b.addr] }
      | _ => none

end State

inductive Move
  | call (c : Call)
  | flush
  | sendRequest
  | deliver
  | handle
  /-- The critical section of a task that allocates blocks. -/
  | allocate (bs : List ℕ)
  | sendRefill (k : ℕ)
  | refill

/-- The block manager hands out blocks that nobody has. The size of a work request is a positive 32-bit
number. -/
def step (s : State) : Move → Option State
  | .call c => if s.flushing = false ∧ 0 < c.bytes ∧ c.bytes < 2 ^ 32 then s.call c else none
  | .flush => if s.cnts.isEmpty then none else s.get_buffer.map fun r => r.2.notify r.1
  | .sendRequest =>
    match s.requests with
    | 0 => none
    | n + 1 => some { s with requests := n, wire := s.wire ++ [.request] }
  | .deliver =>
    match s.wire with
    | [] => none
    | wr :: wire => some ({ s with wire := wire }.deliver wr)
  | .handle =>
    match s.cq with
    | [] => none
    | c :: cq => { s with cq := cq }.handle c
  | .allocate bs =>
    match s.tasks with
    | 0 => none
    | n + 1 =>
      if bs.length = buffnum ∧ bs.Nodup ∧ ∀ b ∈ bs, b ∉ s.send_buffers.map Slot.addr then
        some { s with
          tasks := n
          send_buffers := s.send_buffers ++ bs.map fun b => ⟨b, true⟩
          refills := s.refills ++ [bs]
          allocated := s.allocated ++ bs }
      else none
  | .sendRefill k =>
    match s.refills[k]? with
    | none => none
    | some bs => some { s with refills := s.refills.eraseIdx k, back := s.back ++ [bs] }
  | .refill =>
    match s.back with
    | [] => none
    | bs :: back =>
      some { s with back := back, pend_buffers := s.pend_buffers ++ bs, has_requested_buffers := false }

/-! ## Packets -/

/-- A write or a silent write takes a buffer. -/
def Call.takes : Call → Bool
  | .write_to _ _ => false
  | _ => true

/-- A `write_to` whose packet is that of a silent write. -/
def Call.misread : Call → Bool
  | .write_to bytes _ => bytes = 1
  | _ => false

/-- A call that can be told from its packet. -/
structure Entry.Valid (e : Entry) : Prop where
  pos : 0 < e.call.bytes
  lt : e.call.bytes < 2 ^ 32
  buff : e.buff.isSome = e.call.takes
  clear : e.call.misread = false

/-- What a call is published as. -/
def Entry.pub (e : Entry) : Option Pub :=
  match e.call with
  | .write bytes sub _ => some ⟨e.buff.map .block, bytes, sub⟩
  | .write_silent _ _ => none
  | .write_to bytes _ => some ⟨none, bytes, 0⟩

/-- The same, with the memory that a `write_to` has written to. -/
def Entry.addressed (e : Entry) : Option Pub :=
  match e.call with
  | .write_to bytes dest => some ⟨some (.registered dest), bytes, 0⟩
  | _ => e.pub

section

variable {n : ℕ}

theorem toNat_size (h : n < 2 ^ 32) : (BitVec.ofNat 64 n).toNat = n := by
  rw [BitVec.toNat_ofNat]
  exact Nat.mod_eq_of_lt (by omega)

theorem size_ne_silent (h : n < 2 ^ 32) : BitVec.ofNat 64 n ≠ -1#64 := by
  intro heq
  have := congrArg BitVec.toNat heq
  rw [toNat_size h] at this
  simp at this
  omega

theorem size_nonneg (h : n < 2 ^ 32) : 0 ≤ (BitVec.ofNat 64 n).toInt := by
  rw [BitVec.toInt_eq_toNat_cond, toNat_size h, if_pos (by omega)]
  exact Int.natCast_nonneg n

section

variable (hpos : 0 < n) (h : n < 2 ^ 32)
include hpos h

theorem toNat_neg_size : (-BitVec.ofNat 64 n).toNat = 2 ^ 64 - n := by
  rw [BitVec.toNat_neg, toNat_size h]
  exact Nat.mod_eq_of_lt (by omega)

theorem neg_size_eq_silent_iff : -BitVec.ofNat 64 n = -1#64 ↔ n = 1 := by
  rw [← BitVec.toNat_inj, toNat_neg_size hpos h]
  simp
  omega

theorem neg_size_neg : ¬0 ≤ (-BitVec.ofNat 64 n).toInt := by
  rw [BitVec.toInt_eq_toNat_cond, toNat_neg_size hpos h, if_neg (by omega)]
  omega

end

end

/-- **The receiver decodes what the sender has encoded**: it takes the buffers of the calls, in order, and
publishes what was written. -/
theorem receive_packets {es : List Entry} (h : ∀ e ∈ es, e.Valid) (rest : List Slot) :
    receive (es.map fun e => e.call.packet) ((es.filterMap Entry.buff).map (⟨·, true⟩) ++ rest) =
      some ⟨es.filterMap Entry.pub, es.filterMap Entry.buff, rest⟩ := by
  induction es with
  | nil => rfl
  | cons e es ih =>
    have ih := ih fun e he => h e (List.mem_cons_of_mem _ he)
    obtain ⟨hpos, hlt, hbuff, hclear⟩ := h e List.mem_cons_self
    obtain ⟨c, buff⟩ := e
    cases c with
    | write bytes sub data =>
      obtain ⟨b, rfl⟩ := Option.isSome_iff_exists.1 hbuff
      show receive (⟨BitVec.ofNat 64 bytes, sub⟩ :: _) (⟨b, true⟩ :: (_ ++ rest)) = _
      change bytes < 2 ^ 32 at hlt
      rw [receive]
      rw [if_neg (size_ne_silent hlt), if_pos (size_nonneg hlt), ih, toNat_size hlt]
      rfl
    | write_silent bytes data =>
      obtain ⟨b, rfl⟩ := Option.isSome_iff_exists.1 hbuff
      show receive (⟨-1#64, 0⟩ :: _) (⟨b, true⟩ :: (_ ++ rest)) = _
      rw [receive, if_pos rfl]
      rw [ih]
      rfl
    | write_to bytes dest =>
      obtain rfl : buff = none := by
        cases buff with
        | none => rfl
        | some b => cases hbuff
      change bytes < 2 ^ 32 at hlt
      change 0 < bytes at hpos
      have hne : -BitVec.ofNat 64 bytes ≠ -1#64 := by
        rw [Ne, neg_size_eq_silent_iff hpos hlt]
        exact of_decide_eq_false hclear
      show receive (⟨-BitVec.ofNat 64 bytes, 0⟩ :: _) _ = _
      rw [receive.eq_def]
      dsimp only
      rw [if_neg hne, if_neg (neg_size_neg hpos hlt), BitVec.neg_neg, toNat_size hlt]
      show (receive _ ((es.filterMap Entry.buff).map (⟨·, true⟩) ++ rest)).map _ = _
      rw [ih]
      rfl

end Proteus.Infiniband
