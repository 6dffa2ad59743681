import Proteus.Machine

/-!
# A router between two servers

`RouterScaleOut` sends tuples to its own server, through the ready queue that a worker empties, or to the
other one, over the network; there a receiver pushes them to the ready queue of its own server, with the
lowest bit of the pointer set. A buffer with that bit goes back to the block manager when it is freed,
the others to the free pool.

A producer that closes the router writes a message of size 3, the end of its stream, waits for the worker
and the receiver, writes a message of size 2 and waits for the one of the other server. The ready queue is
closed by the one that sets the counter `closed` to 2: the second of the producer and the receiver, if
there is one producer. Two producers of the same server close it without the other server
(`two_producers`), and `open` always sets `remaining_producers` to 1.

The period of the flushes is computed as `slack / (slack / 16)`, which divides by zero for a slack below
16 (`small_slack`). The pool has `N` slots, and the worker waits for ever if it has more buffers than that
to put there before it can begin (`large_slack`).

The servers start with `open` behind them. A channel delivers what has been flushed, in order; messages
may also be flushed at any time. The buffers of the pool are handed out in order. An acquisition that does not
wait and finds no buffer changes nothing, and is left out.

`Trans` lists what a step of one server can do; all invariants are proved by cases on it.
-/

namespace Proteus.Routing.ScaleOut

/-! ## Model -/

/-- What both servers agree on. A tuple has at least an OID and the number of its server, both words: its
size is even, and not that of a control message. The worker of a server carves its buffers out of
pinned memory at an even address. -/
structure Exchange where
  producers : Bool → ℕ
  slack : ℕ
  buf_size : ℕ
  mem : Bool → BitVec 64
  producers_pos : ∀ p, 0 < producers p
  buf_size_ge : 16 ≤ buf_size
  buf_size_even : buf_size % 2 = 0
  mem_even : ∀ p, mem p &&& 1#64 = 0#64

/-- The slots of the free pool, an `AsyncQueueMPMCWithSleep`. -/
def N : ℕ := 2 * 1024

/-- A message: its size, and the tuple it holds, unless it is a control message. -/
structure Message (α : Type*) where
  size : ℕ
  task : Option α

/-- A pointer to a buffer. The rest is history: whether the buffer has come from the network, its address
and the tuple in it. -/
structure Item (α : Type*) where
  ptr : BitVec 64
  arrived : Bool
  addr : BitVec 64
  task : Option α

inductive Place
  | freePool
  | blockManager

/-- A call of `freeBuffer`: where the buffer went, with which address. -/
structure Freed (α : Type*) where
  item : Item α
  place : Place
  addr : BitVec 64

/-- Where a producer stands in `close`; `rem` is what it has left of `remaining_producers`. -/
inductive Closer
  /-- It has set `closed` to 2. -/
  | closeFifo
  | drain
  /-- Flush, and write 3. -/
  | endOfStream
  | flushEnd
  | leave
  | join
  /-- Write 2. -/
  | done (rem : ℤ)
  | flushDone (rem : ℤ)
  | wait (rem : ℤ)
  | cleanUp (rem : ℤ)
  | returned

inductive Producer
  | idle
  /-- In `acquireBuffer`, for its own server. -/
  | popping
  | holding (buff : BitVec 64)
  /-- It has a block of the block manager, for the other server. -/
  | filling
  | closing (c : Closer)

/-- The thread in `fire` for its own server. -/
inductive Worker (α : Type*)
  | carving (j : ℕ)
  | running
  | consuming (x : Item α)
  | reclaiming (k : ℕ)
  | finished

/-- The thread in `fire` for the other server. -/
inductive Receiver (α : Type*)
  | waiting
  | pushing (x : Item α)
  /-- It has set `closed` to 2. -/
  | closeFifo
  | drain
  | finished

structure Server (α : Type*) where
  producer : ℕ → Producer
  worker : Worker α
  receiver : Receiver α
  free_pool : List (BitVec 64)
  ready_fifo : List (Item α)
  terminating : Bool
  closed : ℕ
  remaining_producers : ℤ
  cnt : ℕ
  /-- Is there a subscription, and are there queues? -/
  sub : Bool
  queues : Bool
  /-- A division by zero, or a use of what is not there any more. -/
  fault : Bool
  /-- The messages written to the other server, and those flushed. -/
  unflushed : List (Message α)
  wire : List (Message α)
  /-- History: the tuples released to each server, all messages written and read, what the worker has
  consumed and what has been freed. -/
  released : Bool → List α
  sent : List (Message α)
  got : List (Message α)
  consumed : List (Item α)
  freed : List (Freed α)

abbrev State (α : Type*) := Bool → Server α

inductive Move (α : Type*)
  | acquire (i : ℕ) (target : Bool)
  | pop (i : ℕ)
  | release (i : ℕ) (a : α)
  | close (i : ℕ)
  /-- The next step in `close`. -/
  | go (i : ℕ)
  | work
  /-- The receiver gets a message in the block at `addr`. -/
  | receive (addr : BitVec 64)
  | serve
  | flush

def init (α : Type*) : State α := fun _ =>
  { producer := fun _ => .idle
    worker := .carving 0
    receiver := .waiting
    free_pool := []
    ready_fifo := []
    terminating := false
    closed := 0
    remaining_producers := 1
    cnt := 0
    sub := true
    queues := true
    fault := false
    unflushed := []
    wire := []
    released := fun _ => []
    sent := []
    got := []
    consumed := []
    freed := [] }

variable {α : Type*}

namespace Server

variable (v : Server α)

def setProducer (i : ℕ) (x : Producer) : Server α :=
  { v with producer := Function.update v.producer i x }

def setWire (inc : List (Message α)) : Server α := { v with wire := inc }

def die : Server α := { v with fault := true }

/-- `InfiniBandManager::write` and `flush`. -/
def write (m : Message α) : Server α :=
  { v with unflushed := v.unflushed ++ [m], sent := v.sent ++ [m] }

def flush : Server α := { v with wire := v.wire ++ v.unflushed, unflushed := [] }

/-- A buffer with the lowest bit set is one from the network. -/
def freeBuffer (x : Item α) : Server α :=
  { v with
    free_pool := if x.ptr &&& 1#64 = 0#64 then v.free_pool ++ [x.ptr] else v.free_pool
    freed := v.freed ++ [if x.ptr &&& 1#64 = 0#64 then ⟨x, .freePool, x.ptr⟩
      else ⟨x, .blockManager, x.ptr &&& ~~~1#64⟩] }

/-- `emplace` waits while all slots of the pool are taken. -/
def full (x : Item α) : Bool := decide (x.ptr &&& 1#64 = 0#64 ∧ N ≤ v.free_pool.length)

/-- `releaseBuffer` for the own server. -/
def keep (p : Bool) (a : α) (b : BitVec 64) : Server α :=
  { v with
    ready_fifo := v.ready_fifo ++ [⟨b, false, b, some a⟩]
    released := Function.update v.released p (v.released p ++ [a]) }

/-- `releaseBuffer` for the other server. -/
def ship (X : Exchange) (p : Bool) (a : α) : Server α :=
  let v := { v.write ⟨X.buf_size, some a⟩ with
    cnt := v.cnt + 1
    released := Function.update v.released (!p) (v.released (!p) ++ [a]) }
  if X.slack / 16 = 0 then v.die
  else if v.cnt % (X.slack / (X.slack / 16)) = 0 then v.flush else v

end Server

section

variable (X : Exchange) (p : Bool) (v : Server α)

/-- The steps of a producer before it closes. -/
def producerStep (i : ℕ) : Move α → Producer → Option (Server α)
  | .acquire _ target, .idle =>
    if target = p then some (if v.queues then v.setProducer i .popping else v.die)
    else some (v.setProducer i .filling)
  | .pop _, .popping =>
    match v.free_pool with
    | [] => none
    | b :: rest => some ({ v with free_pool := rest }.setProducer i (.holding b))
  | .release _ a, .holding b =>
    some (if v.queues then (v.keep p a b).setProducer i .idle else v.die)
  | .release _ a, .filling =>
    some (if v.sub then (v.ship X p a).setProducer i .idle else v.die)
  | .close _, .idle =>
    some ({ v with closed := v.closed + 1 }.setProducer i
      (.closing (if v.closed + 1 = 2 then .closeFifo else .endOfStream)))
  | _, _ => none

/-- The steps of `close`. A message is taken from `inc`, the wire of the other server. -/
def closerStep (i : ℕ) (inc : List (Message α)) : Closer → Option (Server α × List (Message α))
  | .closeFifo =>
    some (if v.queues then { v.flush with terminating := true }.setProducer i (.closing .drain)
      else v.die, inc)
  | .drain => if v.ready_fifo.isEmpty then some (v.setProducer i (.closing .endOfStream), inc) else none
  | .endOfStream =>
    some (if v.sub then (v.flush.write ⟨3, none⟩).setProducer i (.closing .flushEnd) else v.die, inc)
  | .flushEnd => some (v.flush.setProducer i (.closing .leave), inc)
  | .leave =>
    let rem := v.remaining_producers - 1
    some ({ v with remaining_producers := rem }.setProducer i
      (.closing (if rem = 0 then .join else .done rem)), inc)
  | .join =>
    match v.worker, v.receiver with
    | .finished, .finished => some (v.setProducer i (.closing (.done 0)), inc)
    | _, _ => none
  | .done rem =>
    some (if v.sub then (v.write ⟨2, none⟩).setProducer i (.closing (.flushDone rem)) else v.die, inc)
  | .flushDone rem =>
    some (if v.sub then v.flush.setProducer i (.closing (.wait rem)) else v.die, inc)
  | .wait rem =>
    match inc with
    | [] => none
    | m :: inc =>
      some ({ v with got := v.got ++ [m] }.setProducer i (.closing (.cleanUp rem)), inc)
  | .cleanUp rem =>
    some ({ v with cnt := 0, closed := 0, queues := v.queues && rem != 0, sub := false }.setProducer i
      (.closing .returned), inc)
  | .returned => none

def workerStep : Worker α → Option (Server α)
  | .carving j =>
    if j < X.slack then
      let ptr := X.mem p + BitVec.ofNat 64 (j * X.buf_size)
      if v.full ⟨ptr, false, ptr, none⟩ then none
      else some { v.freeBuffer ⟨ptr, false, ptr, none⟩ with worker := .carving (j + 1) }
    else some { v with worker := .running }
  | .running =>
    match v.ready_fifo with
    | x :: rest => some { v with worker := .consuming x, ready_fifo := rest }
    | [] => if v.terminating then some { v with worker := .reclaiming 0 } else none
  | .consuming x =>
    if v.full x then none
    else some { v.freeBuffer x with worker := .running, consumed := v.consumed ++ [x] }
  | .reclaiming k =>
    if k < X.slack then
      match v.free_pool with
      | [] => none
      | _ :: rest => some { v with worker := .reclaiming (k + 1), free_pool := rest }
    else some { v with worker := .finished }
  | .finished => none

/-- `get_ready` has a message. -/
def receiveStep (addr : BitVec 64) : Receiver α → List (Message α) → Option (Server α × List (Message α))
  | .waiting, m :: inc =>
    if addr &&& 1#64 = 0#64 then
      if m.size = 3 then
        some ({ v with
          got := v.got ++ [m]
          closed := v.closed + 1
          receiver := if v.closed + 1 = 2 then .closeFifo else .finished }, inc)
      else
        some ({ v with
          got := v.got ++ [m]
          receiver := .pushing ⟨addr ||| 1#64, true, addr, m.task⟩ }, inc)
    else none
  | _, _ => none

def serveStep : Receiver α → Option (Server α)
  | .pushing x =>
    some (if v.sub then { v with ready_fifo := v.ready_fifo ++ [x], receiver := .waiting } else v.die)
  | .closeFifo => some { v with terminating := true, receiver := .drain }
  | .drain => if v.ready_fifo.isEmpty then some { v with receiver := .finished } else none
  | _ => none

/-- A step of the server `p`, and what it leaves of the messages on their way to it. -/
def serverStep (inc : List (Message α)) (m : Move α) : Option (Server α × List (Message α)) :=
  if v.fault then none
  else match m with
  | .acquire i _ | .pop i | .release i _ | .close i =>
    if i < X.producers p then (producerStep X p v i m (v.producer i)).map (·, inc) else none
  | .go i =>
    if i < X.producers p then
      match v.producer i with
      | .closing c => closerStep v i inc c
      | _ => none
    else none
  | .work => (workerStep X p v v.worker).map (·, inc)
  | .receive addr => receiveStep v addr v.receiver inc
  | .serve => (serveStep v v.receiver).map (·, inc)
  | .flush => if v.unflushed.isEmpty then none else some (v.flush, inc)

def State.set (s : State α) (p : Bool) (v : Server α) (inc : List (Message α)) : State α :=
  fun q => if q = p then v else (s q).setWire inc

def step (s : State α) (m : Bool × Move α) : Option (State α) :=
  (serverStep X m.1 (s m.1) (s !m.1).wire m.2).map fun r => State.set s m.1 r.1 r.2

end

/-! ## What a step can do -/

section

variable (X : Exchange) (p : Bool)

/-- The steps of a server. -/
inductive Trans (v : Server α) (inc : List (Message α)) : Server α → List (Message α) → Prop
  | die (h : v.queues = false ∨ v.sub = false)
      (hact : (∃ i < X.producers p, v.producer i ≠ .closing .returned) ∨ v.receiver ≠ .finished) :
      Trans v inc v.die inc
  | acquire {i x} (hi : i < X.producers p) (h : v.producer i = .idle)
      (hx : x = .popping ∨ x = .filling) : Trans v inc (v.setProducer i x) inc
  | pop {i b rest} (hi : i < X.producers p) (h : v.producer i = .popping)
      (hb : v.free_pool = b :: rest) :
      Trans v inc ({ v with free_pool := rest }.setProducer i (.holding b)) inc
  | keep {i a b} (hi : i < X.producers p) (h : v.producer i = .holding b) :
      Trans v inc ((v.keep p a b).setProducer i .idle) inc
  | ship {i a} (hi : i < X.producers p) (h : v.producer i = .filling) :
      Trans v inc ((v.ship X p a).setProducer i .idle) inc
  | close {i} (hi : i < X.producers p) (h : v.producer i = .idle) :
      Trans v inc ({ v with closed := v.closed + 1 }.setProducer i
        (.closing (if v.closed + 1 = 2 then .closeFifo else .endOfStream))) inc
  | closeFifo {i} (hi : i < X.producers p) (h : v.producer i = .closing .closeFifo) :
      Trans v inc ({ v.flush with terminating := true }.setProducer i (.closing .drain)) inc
  | drained {i} (hi : i < X.producers p) (h : v.producer i = .closing .drain) :
      Trans v inc (v.setProducer i (.closing .endOfStream)) inc
  | endOfStream {i} (hi : i < X.producers p) (h : v.producer i = .closing .endOfStream) :
      Trans v inc ((v.flush.write ⟨3, none⟩).setProducer i (.closing .flushEnd)) inc
  | flushEnd {i} (hi : i < X.producers p) (h : v.producer i = .closing .flushEnd) :
      Trans v inc (v.flush.setProducer i (.closing .leave)) inc
  | leave {i} (hi : i < X.producers p) (h : v.producer i = .closing .leave) :
      Trans v inc ({ v with remaining_producers := v.remaining_producers - 1 }.setProducer i
        (.closing (if v.remaining_producers - 1 = 0 then .join
          else .done (v.remaining_producers - 1)))) inc
  | join {i} (hi : i < X.producers p) (h : v.producer i = .closing .join)
      (hw : v.worker = .finished) (hr : v.receiver = .finished) :
      Trans v inc (v.setProducer i (.closing (.done 0))) inc
  | done {i rem} (hi : i < X.producers p) (h : v.producer i = .closing (.done rem)) :
      Trans v inc ((v.write ⟨2, none⟩).setProducer i (.closing (.flushDone rem))) inc
  | flushDone {i rem} (hi : i < X.producers p) (h : v.producer i = .closing (.flushDone rem)) :
      Trans v inc (v.flush.setProducer i (.closing (.wait rem))) inc
  | wait {i rem m inc'} (hi : i < X.producers p) (h : v.producer i = .closing (.wait rem))
      (hinc : inc = m :: inc') :
      Trans v inc ({ v with got := v.got ++ [m] }.setProducer i (.closing (.cleanUp rem))) inc'
  | cleanUp {i rem} (hi : i < X.producers p) (h : v.producer i = .closing (.cleanUp rem)) :
      Trans v inc ({ v with cnt := 0, closed := 0, queues := v.queues && rem != 0, sub := false
        }.setProducer i (.closing .returned)) inc
  | carve {j} (hw : v.worker = .carving j) (hj : j < X.slack) :
      Trans v inc { v.freeBuffer ⟨X.mem p + BitVec.ofNat 64 (j * X.buf_size), false,
        X.mem p + BitVec.ofNat 64 (j * X.buf_size), none⟩ with worker := .carving (j + 1) } inc
  | start {j} (hw : v.worker = .carving j) (hj : X.slack ≤ j) :
      Trans v inc { v with worker := .running } inc
  | take {x rest} (hw : v.worker = .running) (hr : v.ready_fifo = x :: rest) :
      Trans v inc { v with worker := .consuming x, ready_fifo := rest } inc
  | stop (hw : v.worker = .running) (hr : v.ready_fifo = []) (ht : v.terminating = true) :
      Trans v inc { v with worker := .reclaiming 0 } inc
  | consume {x} (hw : v.worker = .consuming x) :
      Trans v inc { v.freeBuffer x with worker := .running, consumed := v.consumed ++ [x] } inc
  | reclaim {k b rest} (hw : v.worker = .reclaiming k) (hk : k < X.slack)
      (hb : v.free_pool = b :: rest) :
      Trans v inc { v with worker := .reclaiming (k + 1), free_pool := rest } inc
  | finish {k} (hw : v.worker = .reclaiming k) (hk : X.slack ≤ k) :
      Trans v inc { v with worker := .finished } inc
  | arrive {addr m inc'} (hv : v.receiver = .waiting) (hinc : inc = m :: inc')
      (ha : addr &&& 1#64 = 0#64) (hm : m.size ≠ 3) :
      Trans v inc { v with
        got := v.got ++ [m]
        receiver := .pushing ⟨addr ||| 1#64, true, addr, m.task⟩ } inc'
  | ended {m inc'} (hv : v.receiver = .waiting) (hinc : inc = m :: inc') (hm : m.size = 3) :
      Trans v inc { v with
        got := v.got ++ [m]
        closed := v.closed + 1
        receiver := if v.closed + 1 = 2 then .closeFifo else .finished } inc'
  | push {x} (hv : v.receiver = .pushing x) :
      Trans v inc { v with ready_fifo := v.ready_fifo ++ [x], receiver := .waiting } inc
  | closeReady (hv : v.receiver = .closeFifo) :
      Trans v inc { v with terminating := true, receiver := .drain } inc
  | receiverDone (hv : v.receiver = .drain) : Trans v inc { v with receiver := .finished } inc
  | flush (h : v.unflushed ≠ []) : Trans v inc v.flush inc

variable {X p} {v v' : Server α} {inc inc' : List (Message α)} {m : Move α} {i : ℕ}

/-- A step that needs something of the server. -/
theorem Trans.ite {b : Bool} (hb : b = false → v.queues = false ∨ v.sub = false)
    (hact : (∃ i < X.producers p, v.producer i ≠ .closing .returned) ∨ v.receiver ≠ .finished)
    (h : Trans X p v inc v' inc) : Trans X p v inc (if b then v' else v.die) inc := by
  cases b with
  | true => exact h
  | false => exact .die (hb rfl) hact

theorem trans_of_producerStep (hi : i < X.producers p)
    (h : producerStep X p v i m (v.producer i) = some v') : Trans X p v inc v' inc := by
  unfold producerStep at h
  split at h
  case h_1 target hp =>
    split_ifs at h with ht hq <;> cases h
    · exact .acquire hi hp (.inl rfl)
    · exact .die (.inl (by simpa using hq)) (.inl ⟨i, hi, by rw [hp]; nofun⟩)
    · exact .acquire hi hp (.inr rfl)
  case h_2 hp =>
    split at h
    · cases h
    · rename_i b rest hb
      cases h
      exact .pop hi hp hb
  case h_3 a b hp =>
    cases h
    exact .ite .inl (.inl ⟨i, hi, by rw [hp]; nofun⟩) (.keep hi hp)
  case h_4 a hp =>
    cases h
    exact .ite .inr (.inl ⟨i, hi, by rw [hp]; nofun⟩) (.ship hi hp)
  case h_5 hp =>
    cases h
    exact .close hi hp
  case h_6 => cases h

theorem trans_of_closerStep {c : Closer} (hi : i < X.producers p) (hp : v.producer i = .closing c)
    (h : closerStep v i inc c = some (v', inc')) : Trans X p v inc v' inc' := by
  cases c <;> simp only [closerStep] at h
  case closeFifo =>
    cases h
    exact .ite .inl (.inl ⟨i, hi, by rw [hp]; nofun⟩) (.closeFifo hi hp)
  case drain =>
    split_ifs at h
    cases h
    exact .drained hi hp
  case endOfStream | done | flushDone =>
    cases h
    refine .ite .inr (.inl ⟨i, hi, by rw [hp]; nofun⟩) ?_
    constructor <;> assumption
  case flushEnd | leave | cleanUp =>
    cases h
    constructor <;> assumption
  case join =>
    split at h
    · rename_i hw hr
      cases h
      exact .join hi hp hw hr
    · cases h
  case wait rem =>
    cases inc with
    | nil => cases h
    | cons m inc =>
      cases h
      exact .wait hi hp rfl
  case returned => cases h

theorem trans_of_workerStep (h : workerStep X p v v.worker = some v') : Trans X p v inc v' inc := by
  cases hw : v.worker <;> simp only [hw, workerStep] at h
  case carving j =>
    split_ifs at h with hj <;> cases h
    · exact .carve hw hj
    · exact .start hw (Nat.le_of_not_lt hj)
  case running =>
    split at h
    · rename_i x rest hr
      cases h
      exact .take hw hr
    · rename_i hr
      split_ifs at h with ht
      cases h
      exact .stop hw hr ht
  case consuming x =>
    split_ifs at h
    cases h
    exact .consume hw
  case reclaiming k =>
    split_ifs at h with hk
    · split at h
      · cases h
      · rename_i b rest hb
        cases h
        exact .reclaim hw hk hb
    · cases h
      exact .finish hw (Nat.le_of_not_lt hk)
  case finished => cases h

theorem trans_of_receiveStep {addr : BitVec 64} (h : receiveStep v addr v.receiver inc = some (v', inc')) :
    Trans X p v inc v' inc' := by
  unfold receiveStep at h
  split at h
  case h_1 m inc hv =>
    split at h
    · rename_i ha
      split at h
      · rename_i hm
        cases h
        exact .ended hv rfl hm
      · rename_i hm
        cases h
        exact .arrive hv rfl ha hm
    · cases h
  case h_2 => cases h

theorem trans_of_serveStep (h : serveStep v v.receiver = some v') : Trans X p v inc v' inc := by
  unfold serveStep at h
  split at h
  case h_1 x hv =>
    cases h
    exact .ite .inr (.inr (by rw [hv]; nofun)) (.push hv)
  case h_2 hv =>
    cases h
    exact .closeReady hv
  case h_3 hv =>
    split_ifs at h
    cases h
    exact .receiverDone hv
  case h_4 => cases h

theorem trans_of_serverStep (h : serverStep X p v inc m = some (v', inc')) : Trans X p v inc v' inc' := by
  have hpair : ∀ {o : Option (Server α)}, o.map (·, inc) = some (v', inc') → o = some v' ∧ inc = inc' := by
    intro o ho
    cases o with
    | none => cases ho
    | some _ =>
      cases ho
      exact ⟨rfl, rfl⟩
  unfold serverStep at h
  split at h
  · cases h
  split at h
  case h_5 i =>
    split_ifs at h with hi
    split at h
    · rename_i c hp
      exact trans_of_closerStep hi hp h
    · cases h
  case h_6 =>
    obtain ⟨hs, rfl⟩ := hpair h
    exact trans_of_workerStep hs
  case h_7 => exact trans_of_receiveStep h
  case h_8 =>
    obtain ⟨hs, rfl⟩ := hpair h
    exact trans_of_serveStep hs
  case h_9 =>
    split_ifs at h with hu
    cases h
    exact .flush (by simpa using hu)
  all_goals
    split_ifs at h with hi
    obtain ⟨hs, rfl⟩ := hpair h
    exact trans_of_producerStep hi hs

end

end Proteus.Routing.ScaleOut
