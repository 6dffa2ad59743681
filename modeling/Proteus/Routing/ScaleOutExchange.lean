import Proteus.Routing.ScaleOutServer

/-!
# Two servers and their channels

What one server has read, followed by what is on its way to it, is what the other one has written. Each
server writes tuples, the end of its stream and a last message (`Stage`), so the reader expects every
message it gets.

Results:

* `Inv.step`: the invariants of both servers and their channels are kept;
* `Trans.weight_lt`: every step after the producer has closed brings the end nearer;
* `closer_of_stuck`: a server that cannot move has returned, or waits for the other one;
* `exchange_correct_iff`: the exchange is right exactly for one producer on each server and a slack of at
  least 16 and at most `N`.
-/

namespace Proteus.Routing.ScaleOut

open List Option Server

attribute [local simp] producerStep serverStep

/-! ## Both servers -/

variable {α : Type*} {X : Exchange} {p : Bool} {v v' : Server α} {inc inc' : List (Message α)}
  {s s' : State α}

section

/-- What a step writes is on the wire or waits to be flushed, and what it reads is what came first. -/
theorem Trans.io (ht : Trans X p v inc v' inc') : ∃ written heard, v'.sent = v.sent ++ written ∧
      v'.wire ++ v'.unflushed = v.wire ++ v.unflushed ++ written ∧
      inc = heard ++ inc' ∧ v'.got = v.got ++ heard := by
  cases ht with
  | ship =>
    rename_i a _ _
    refine ⟨[⟨X.buf_size, some a⟩], [], ?_, ?_, rfl, ?_⟩ <;> unfold Server.ship Server.setProducer <;>
      dsimp only <;> split_ifs <;> simp [Server.die, Server.flush, Server.write]
  | endOfStream =>
    exact ⟨[⟨3, none⟩], [], rfl, rfl, rfl, (append_nil _).symm⟩
  | done =>
    exact ⟨[⟨2, none⟩], [], rfl, (append_assoc _ _ _).symm, rfl, (append_nil _).symm⟩
  | wait _ _ hinc | arrive _ hinc | ended _ hinc =>
    exact ⟨[], [_], (append_nil _).symm, (append_nil _).symm, hinc, rfl⟩
  | closeFifo | flushEnd | flushDone | flush =>
    exact ⟨[], [], (append_nil _).symm, rfl, rfl, (append_nil _).symm⟩
  | _ =>
    exact ⟨[], [], (append_nil _).symm, (append_nil _).symm, rfl, (append_nil _).symm⟩

structure Inv (X : Exchange) (s : State α) : Prop where
  phase : ∀ p, Phase X (s p)
  flow : ∀ p, Flow p (s p)
  count : ∀ p, Count X (s p)
  /-- What one server has read, and what is on its way to it, is what the other one has written. -/
  channel : ∀ p, (s !p).got ++ ((s p).wire ++ (s p).unflushed) = (s p).sent

variable {m : Bool × Move α}

/-- A server expects the message that comes next. -/
theorem Inv.expects (inv : Inv X s) {m : Message α} {rest : List (Message α)}
    (h : (s !p).wire = m :: rest) : (next X (s p).heard m).isSome = true := by
  have hchannel := inv.channel !p
  rw [Bool.not_not, h] at hchannel
  have hsent := (inv.phase !p).sent
  rw [← hchannel, exec_append, (inv.phase p).got, bind_some, cons_append, exec_cons] at hsent
  cases hnext : next X (s p).heard m with
  | none => rw [hnext] at hsent; cases hsent
  | some k => rfl

theorem inv_init : Inv X (init α) where
  phase _ := ⟨rfl, fun _ _ => rfl, fun _ => ⟨rfl, rfl⟩, fun _ => rfl, nofun, nofun, fun _ => rfl, nofun,
    nofun, nofun, nofun, nofun, rfl, rfl⟩
  flow _ := ⟨rfl, rfl, rfl, nofun, nofun, nofun, nofun, nofun⟩
  count _ := ⟨rfl, Nat.zero_le _⟩
  channel _ := rfl

theorem step_eq (h : step X s m = some s') :
    ∃ v' inc', Trans X m.1 (s m.1) (s !m.1).wire v' inc' ∧ s' = s.set m.1 v' inc' := by
  obtain ⟨⟨v', inc'⟩, hstep, rfl⟩ := map_eq_some_iff.1 h
  exact ⟨v', inc', trans_of_serverStep hstep, rfl⟩

/-- **A step of either server keeps the exchange in order.** -/
theorem Inv.step (hone : ∀ p, X.producers p = 1) (hslack : 16 ≤ X.slack) (inv : Inv X s)
    (h : ScaleOut.step X s m = some s') : Inv X s' := by
  obtain ⟨v', inc', ht, rfl⟩ := step_eq h
  generalize m.1 = p at ht
  have hread : ∀ m rest, (s !p).wire = m :: rest → (next X (s p).heard m).isSome :=
    fun m rest => inv.expects
  have hself : State.set s p v' inc' p = v' := if_pos rfl
  have hother : State.set s p v' inc' (!p) = (s !p).setWire inc' := if_neg (by cases p <;> decide)
  have hcases : ∀ q, q = p ∨ q = !p := by cases p <;> decide
  obtain ⟨written, heard, hsent, hwire, hinc, hgot⟩ := ht.io
  refine ⟨fun q => ?_, fun q => ?_, fun q => ?_, fun q => ?_⟩
  · obtain rfl | rfl := hcases q
    · rw [hself]
      exact (inv.phase q).trans (hone q) hslack hread ht
    · rw [hother]
      exact { inv.phase !p with }
  · obtain rfl | rfl := hcases q
    · rw [hself]
      exact (inv.flow q).trans (hone q) (inv.phase q) hread ht
    · rw [hother]
      exact { inv.flow !p with }
  · obtain rfl | rfl := hcases q
    · rw [hself]
      exact (inv.count q).trans (hone q) (inv.flow q) ht
    · rw [hother]
      exact inv.count !p
  · obtain rfl | rfl := hcases q
    · rw [hself, hother, hwire, hsent, ← inv.channel q]
      exact (append_assoc _ _ _).symm
    · have hchannel := inv.channel !p
      rw [Bool.not_not] at hchannel ⊢
      rw [hself, hother, hgot]
      show _ ++ heard ++ (inc' ++ (s !p).unflushed) = (s !p).sent
      rw [← hchannel, hinc, append_assoc, append_assoc]

end

/-! ## Progress -/

/-- What is left to do for each thread, and for each message and item. -/
def Closer.weight : Closer → ℕ
  | .closeFifo => 22
  | .drain => 21
  | .endOfStream => 20
  | .flushEnd => 13
  | .leave => 12
  | .join => 11
  | .done _ => 10
  | .flushDone _ => 3
  | .wait _ => 2
  | .cleanUp _ => 1
  | .returned => 0

def Worker.weight (slack : ℕ) : Worker α → ℕ
  | .carving j => slack - j + (slack + 3)
  | .running => slack + 2
  | .consuming _ => slack + 3
  | .reclaiming k => slack - k + 1
  | .finished => 0

def Receiver.weight : Receiver α → ℕ
  | .waiting => 3
  | .pushing _ => 7
  | .closeFifo => 2
  | .drain => 1
  | .finished => 0

def Server.weight (X : Exchange) (v : Server α) : ℕ :=
  v.closer.elim 0 Closer.weight + v.worker.weight X.slack + v.receiver.weight +
    3 * v.ready_fifo.length + 6 * v.unflushed.length + 5 * v.wire.length

def potential (X : Exchange) (s : State α) : ℕ := (s false).weight X + (s true).weight X

/-- The weight of a server whose producer is in `close`. -/
theorem Server.weight_closing {c : Closer} (h : v.producer 0 = .closing c) :
    v.weight X = c.weight + v.worker.weight X.slack + v.receiver.weight +
      3 * v.ready_fifo.length + 6 * v.unflushed.length + 5 * v.wire.length := by
  rw [weight, closer, h]
  rfl

/-- **Every step after the producer has closed brings the end nearer.** -/
theorem Trans.weight_lt (hone : X.producers p = 1) (inv : Phase X v) (inv' : Phase X v')
    (hclosed : v.closer.isSome = true) (ht : Trans X p v inc v' inc') :
    v'.closer.isSome = true ∧ v'.weight X + 5 * inc'.length < v.weight X + 5 * inc.length := by
  have hzero : ∀ {i}, i < X.producers p → i = 0 := fun hi => by omega
  have hnot : ∀ {i x}, i < X.producers p → v.producer i = x → x.closer? = none → False := by
    intro i x hi hp hx
    rw [Server.closer, ← hzero hi, hp, hx] at hclosed
    cases hclosed
  cases ht with
  | die => cases inv'.alive
  | acquire hi hp | pop hi hp | keep hi hp | ship hi hp | close hi hp => exact (hnot hi hp rfl).elim
  -- The steps of `close`.
  | closeFifo hi hp | drained hi hp | endOfStream hi hp | flushEnd hi hp | join hi hp | done hi hp
  | flushDone hi hp | cleanUp hi hp =>
    obtain rfl := hzero hi
    refine ⟨rfl, ?_⟩
    rw [Server.weight_closing hp, Server.weight_closing rfl]
    simp only [Server.setProducer, Server.write, Server.flush, length_append, Closer.weight, length_nil,
      length_cons]
    omega
  | leave hi hp =>
    obtain rfl := hzero hi
    refine ⟨rfl, ?_⟩
    have hr := inv.remaining (by rw [Server.closer, hp]; rfl)
    rw [Server.weight_closing hp, Server.weight_closing rfl, hr, sub_self, if_pos rfl]
    simp only [Server.setProducer, Closer.weight]
    omega
  | wait hi hp hinc =>
    obtain rfl := hzero hi
    refine ⟨rfl, ?_⟩
    rw [Server.weight_closing hp, Server.weight_closing rfl, hinc]
    simp only [Server.setProducer, Closer.weight, length_cons]
    omega
  -- The worker.
  | carve hw | consume hw | start hw | stop hw | reclaim hw | finish hw =>
    refine ⟨hclosed, ?_⟩
    simp only [Server.weight, Server.closer, Server.freeBuffer, hw, Worker.weight]
    omega
  | take hw hr =>
    refine ⟨hclosed, ?_⟩
    simp only [Server.weight, Server.closer, hw, hr, Worker.weight, length_cons]
    omega
  -- The receiver.
  | arrive hv hinc =>
    refine ⟨hclosed, ?_⟩
    simp only [Server.weight, Server.closer, hv, hinc, Receiver.weight, length_cons]
    omega
  | ended hv hinc =>
    refine ⟨hclosed, ?_⟩
    have hr : Receiver.weight (if v.closed + 1 = 2 then .closeFifo else .finished : Receiver α) ≤ 2 := by
      split_ifs <;> simp [Receiver.weight]
    have hwaiting : Receiver.weight (.waiting : Receiver α) = 3 := rfl
    simp only [Server.weight, Server.closer, hv, hinc, hwaiting, length_cons]
    omega
  | push hv | closeReady hv | receiverDone hv =>
    refine ⟨hclosed, ?_⟩
    simp only [Server.weight, Server.closer, hv, Receiver.weight, length_append, length_cons,
      length_nil]
    omega
  | flush h =>
    refine ⟨hclosed, ?_⟩
    have hpos := length_pos_iff.2 h
    simp only [Server.weight, Server.closer, Server.flush, length_append, length_nil]
    omega

/-- The worker waits for more, or is done. -/
theorem worker_of_stuck (hslack : X.slack ≤ N) (inv : Phase X v) (flow : Flow p v) (count : Count X v)
    (h : workerStep X p v v.worker = none) :
    v.worker = .finished ∨ v.worker = .running ∧ v.ready_fifo = [] ∧ v.terminating = false := by
  cases hw : v.worker <;> simp only [hw, workerStep] at h
  case carving j =>
    -- the pool has fewer buffers than the worker has carved
    split_ifs at h with hj hfull
    obtain ⟨htotal, -⟩ := count
    simp only [hw, Worker.items, Worker.reclaimed, Worker.carved] at htotal
    have hle := (of_decide_eq_true hfull).2
    omega
  case running =>
    split at h
    · cases h
    · rename_i hr
      split_ifs at h with ht
      exact .inr ⟨rfl, hr, by simpa using ht⟩
  case consuming x =>
    -- the pool misses the buffer that is to be freed
    split_ifs at h with hfull
    obtain ⟨heven, hle⟩ := of_decide_eq_true hfull
    rw [(flow.tagged x (by simp [hw, Worker.items])).even_iff] at heven
    obtain ⟨htotal, -⟩ := count
    simp only [hw, Worker.items, Worker.reclaimed, Worker.carved, pooled, countP_singleton, heven,
      Bool.not_false, if_true] at htotal
    omega
  case reclaiming k =>
    -- the producer has closed and the queue is empty, so the pool has the buffers that are missing
    exfalso
    obtain ⟨hterm, hready⟩ := inv.stopped (by rw [hw]; rfl)
    have hheld : (v.producer 0).held = 0 := by
      have hc := (inv.terminating hterm).1
      rw [closer] at hc
      cases hp : v.producer 0 with
      | holding b => rw [hp] at hc; cases hc
      | _ => rfl
    obtain ⟨htotal, -⟩ := count
    rw [hheld, hw, hready] at htotal
    split_ifs at h with hk
    split at h
    · rename_i hpool
      rw [hpool] at htotal
      simp only [length_nil, Worker.items, Worker.reclaimed, Worker.carved, pooled, countP_nil] at htotal
      omega
    · cases h
  case finished => exact .inl rfl

/-- The receiver waits for a message, or is done. -/
theorem receiver_of_stuck (hready : v.ready_fifo = []) (h : serveStep v v.receiver = none) :
    v.receiver = .waiting ∨ v.receiver = .finished := by
  cases hv : v.receiver with
  | waiting => exact .inl rfl
  | pushing | closeFifo => simp only [hv, serveStep] at h; cases h
  | drain =>
    simp only [hv, serveStep, hready, isEmpty_nil, if_true] at h
    cases h
  | finished => exact .inr rfl

/-- A producer that needs a buffer finds one: the worker has put all of them in the pool. -/
theorem free_pool_ne_nil (hslack : 16 ≤ X.slack) (inv : Phase X v) (count : Count X v)
    (hwork : v.worker = .finished ∨ v.worker = .running ∧ v.ready_fifo = [] ∧ v.terminating = false)
    (hp : v.producer 0 = .popping) : v.free_pool ≠ [] := by
  intro hpool
  obtain hw | ⟨hw, hr, -⟩ := hwork
  · have hc := (inv.terminating (inv.stopped (by rw [hw]; rfl)).1).1
    rw [closer, hp] at hc
    cases hc
  · obtain ⟨htotal, -⟩ := count
    rw [hpool, hp, hw, hr] at htotal
    simp only [length_nil, Producer.held, Worker.items, Worker.reclaimed, Worker.carved, pooled,
      countP_nil] at htotal
    omega

/-- **Where a server without steps stands**: the producer has returned, or it waits for the other
server. -/
theorem closer_of_stuck [Inhabited α] (hone : X.producers p = 1) (hslack : 16 ≤ X.slack ∧ X.slack ≤ N)
    (inv : Phase X v) (flow : Flow p v) (count : Count X v) (h : ∀ m, serverStep X p v inc m = none) :
    v.closer = some .returned ∨ v.closer = some .join ∧ v.receiver = .waiting ∧ inc = [] ∨
      ∃ rem, v.closer = some (.wait rem) ∧ inc = [] := by
  have hlt : 0 < X.producers p := by omega
  simp only [serverStep, inv.alive, Bool.false_eq_true, if_false] at h
  have hwork := worker_of_stuck hslack.2 inv flow count (map_eq_none_iff.1 (h .work))
  have hready : v.ready_fifo = [] := by
    obtain hw | ⟨-, hr, -⟩ := hwork
    · exact (inv.stopped (by rw [hw]; rfl)).2
    · exact hr
  have hserve := receiver_of_stuck hready (map_eq_none_iff.1 (h .serve))
  have hrecv : v.receiver = .waiting → inc = [] := by
    intro hv
    have hm := h (.receive 0)
    simp only [hv] at hm
    cases inc with
    | nil => rfl
    | cons m inc =>
      unfold receiveStep at hm
      simp only at hm
      split_ifs at hm with heven
      exact absurd rfl heven
  cases hp : v.producer 0 with
  | idle =>
    have hm := h (.close 0)
    simp [hlt, hp] at hm
  | popping =>
    have hm := h (.pop 0)
    simp only [hlt, if_true, hp, producerStep, map_eq_none_iff] at hm
    split at hm
    · next hpool => exact absurd hpool (free_pool_ne_nil hslack.1 inv count hwork hp)
    · cases hm
  | holding | filling =>
    have hm := h (.release 0 default)
    simp [hlt, hp] at hm
  | closing c =>
    have hgo : closerStep v 0 inc c = none := by
      have hm := h (.go 0)
      simpa only [hlt, if_true, hp] using hm
    have hc : v.closer = some c := by rw [closer, hp]; rfl
    cases c with
    | drain =>
      simp only [closerStep, hready, isEmpty_nil, if_true] at hgo
      cases hgo
    | join =>
      obtain hv | hv := hserve
      · exact .inr (.inl ⟨hc, hv, hrecv hv⟩)
      · exfalso
        have hterm : v.terminating = true := by
          obtain ht | ht | ht := inv.closing (by rw [hc]; rfl) (by rw [hv]; rfl)
          · exact ht
          · rw [hc] at ht; cases ht
          · rw [hv] at ht; cases ht
        obtain hw | ⟨-, -, hnot⟩ := hwork
        · simp only [closerStep, hw, hv] at hgo
          cases hgo
        · rw [hterm] at hnot
          cases hnot
    | wait rem =>
      cases inc with
      | nil => exact .inr (.inr ⟨rem, hc, rfl⟩)
      | cons m inc => cases hgo
    | returned => exact .inl hc
    | _ => cases hgo

/-! ## The exchange is right -/

section

variable {ms : List (Message α)}

/-- The tuples that `p` has released to `q`, as far as `q` has consumed them. -/
def consumedFrom (s : State α) (p q : Bool) : List α := tasks (p != q) (s q).consumed

/-- Those that are on their way. -/
def transit (s : State α) (p q : Bool) : List α :=
  if p = q then tasks false ((s q).worker.items ++ (s q).ready_fifo)
  else tasks true ((s q).worker.items ++ (s q).ready_fifo ++ (s q).receiver.items) ++
    ((s p).wire ++ (s p).unflushed).filterMap Message.task

def Returned (X : Exchange) (s : State α) : Prop :=
  ∀ p, ∀ i < X.producers p, (s p).producer i = .closing .returned

structure Correct (X : Exchange) (s : State α) : Prop where
  alive : ∀ p, (s p).fault = false
  /-- A tuple is consumed, in order and once, or on its way. -/
  once : ∀ p q, consumedFrom s p q ++ transit s p q = (s p).released q
  /-- A ready queue is closed after a call of `close` on its server and the end of the other's stream. -/
  closing : ∀ p, (s p).terminating = true →
    (∃ i < X.producers p, ((s p).producer i).closer?.isSome = true) ∧ ∃ m ∈ (s p).got, m.size = 3
  freed : ∀ p, ∀ f ∈ (s p).freed, f.Right
  /-- Nothing is left when all calls of `close` have returned. -/
  finished : Returned X s → ∀ p q, transit s p q = []
  /-- There is no deadlock, and once all producers have called `close` the runs are bounded. -/
  progress : (∀ m, step X s m = none) → Returned X s
  bounded : (∀ p, ∀ i < X.producers p, ((s p).producer i).closer?.isSome = true) →
    ∀ run s', exec (step X) s run = some s' → run.length ≤ potential X s

theorem exists_three {k : Stage} (h : exec (next X) .streaming ms = some k)
    (hk : k ≠ .streaming) : ∃ m ∈ ms, m.size = 3 := by
  induction ms with
  | nil => exact absurd (some.inj h).symm hk
  | cons m ms ih =>
    rw [exec_cons, bind_eq_some_iff] at h
    obtain ⟨k', hm, hrest⟩ := h
    simp only [next] at hm
    split_ifs at hm with hdata hend
    · cases hm
      obtain ⟨m', hm', hsize⟩ := ih hrest
      exact ⟨m', mem_cons_of_mem _ hm', hsize⟩
    · exact ⟨m, mem_cons_self, hend.1⟩

theorem eq_nil_of_over {k : Stage} (h : exec (next X) .over ms = some k) : ms = [] := by
  cases ms with
  | nil => rfl
  | cons m ms => cases h

theorem potential_eq (s : State α) (p : Bool) : potential X s = (s p).weight X + (s !p).weight X := by
  cases p with
  | false => rfl
  | true => exact Nat.add_comm _ _

namespace Inv

theorem once (inv : Inv X s) (p q : Bool) : consumedFrom s p q ++ transit s p q = (s p).released q := by
  have flow := inv.flow q
  by_cases hpq : p = q
  · subst hpq
    rw [consumedFrom, transit, if_pos rfl, bne_self_eq_false, ← tasks_append]
    exact flow.own
  · obtain rfl : p = !q := by cases p <;> cases q <;> first | rfl | exact absurd rfl hpq
    have hchannel := inv.channel !q
    have hshipped := (inv.flow !q).shipped
    rw [Bool.not_not] at hchannel hshipped
    have hne : ((!q) != q) = true := by cases q <;> rfl
    have hsent : ((s q).got ++ ((s !q).wire ++ (s !q).unflushed)).filterMap Message.task =
        (s q).got.filterMap Message.task ++ ((s !q).wire ++ (s !q).unflushed).filterMap Message.task :=
      filterMap_append
    rw [consumedFrom, transit, if_neg hpq, hne, ← hshipped, ← hchannel, hsent, ← flow.arrived]
    simp only [tasks_append, append_assoc]

theorem transit_of_returned (inv : Inv X s) (hclosed : ∀ p, (s p).closer = some .returned) (p q : Bool) :
    transit s p q = [] := by
  obtain ⟨hw, hr⟩ := (inv.phase q).joined (by rw [hclosed]; rfl)
  obtain ⟨-, hready⟩ := (inv.phase q).stopped (by rw [hw]; rfl)
  rw [transit, hw, hr, hready]
  split_ifs with hpq
  · rfl
  · obtain rfl : q = !p := by cases p <;> cases q <;> first | rfl | exact absurd rfl hpq
    have hsent := (inv.phase p).sent
    have hheard : (s !p).heard = .over := by rw [heard, hclosed]; rfl
    rw [← inv.channel p, exec_append, (inv.phase !p).got, hheard] at hsent
    rw [eq_nil_of_over hsent]
    rfl

variable (hone : ∀ p, X.producers p = 1) (hslack : 16 ≤ X.slack ∧ X.slack ≤ N) (inv : Inv X s)
include hone hslack inv

/-- **No deadlock.** -/
theorem returned_of_stuck [Inhabited α] (h : ∀ m, ScaleOut.step X s m = none) (p : Bool) :
    (s p).closer = some .returned := by
  have hstuck : ∀ p, (s p).closer = some .returned ∨
      (s p).closer = some .join ∧ (s p).receiver = .waiting ∧ (s !p).wire = [] ∨
        ∃ rem, (s p).closer = some (.wait rem) ∧ (s !p).wire = [] := by
    intro p
    refine closer_of_stuck (hone p) hslack (inv.phase p) (inv.flow p) (inv.count p) fun m => ?_
    have hm := h (p, m)
    rwa [ScaleOut.step, map_eq_none_iff] at hm
  have hunflushed : ∀ p, (s p).unflushed = [] := by
    intro p
    refine (inv.phase p).flushed ?_
    obtain hc | ⟨hc, -⟩ | ⟨rem, hc, -⟩ := hstuck p <;> rw [hc] <;> rfl
  -- a server that has read everything has heard what the other one has said
  have hheard : ∀ p, (s !p).wire = [] → (s p).heard = (s !p).stage := by
    intro p hwire
    have hsent := (inv.phase !p).sent
    have hchannel := inv.channel !p
    rw [Bool.not_not, hwire, hunflushed, append_nil, append_nil] at hchannel
    rw [← hchannel, (inv.phase p).got] at hsent
    exact some.inj hsent
  have hjoin : ∀ p, (s p).closer ≠ some .join := by
    intro p hc
    obtain hc' | ⟨-, hv, hwire⟩ | ⟨rem, hc', -⟩ := hstuck p
    · rw [hc] at hc'; cases hc'
    · have hsame := hheard p hwire
      have hne : (s p).receiver ≠ .finished := by
        intro hf
        rw [hv] at hf
        cases hf
      rw [heard, (inv.phase p).not_heardLast hne, hv, stage] at hsame
      obtain hq | ⟨hq, -⟩ | ⟨rem, hq, -⟩ := hstuck !p <;> rw [hq] at hsame <;> cases hsame
    · rw [hc] at hc'; cases hc'
  obtain hc | ⟨hc, -⟩ | ⟨rem, hc, hwire⟩ := hstuck p
  · exact hc
  · exact absurd hc (hjoin p)
  · have hsame := hheard p hwire
    have hr := ((inv.phase p).joined (by rw [hc]; rfl)).2
    rw [heard, hc, hr, stage] at hsame
    obtain hq | ⟨hq, -⟩ | ⟨rem', hq, -⟩ := hstuck !p
    · rw [hq] at hsame; cases hsame
    · exact absurd hq (hjoin _)
    · rw [hq] at hsame; cases hsame

theorem potential_lt (hclosed : ∀ p, (s p).closer.isSome = true) {m : Bool × Move α}
    (h : ScaleOut.step X s m = some s') :
    (∀ p, (s' p).closer.isSome = true) ∧ potential X s' < potential X s := by
  have inv' := inv.step hone hslack.1 h
  obtain ⟨v', inc', ht, rfl⟩ := step_eq h
  generalize m.1 = p at ht inv'
  have hself : State.set s p v' inc' p = v' := if_pos rfl
  have hother : State.set s p v' inc' (!p) = (s !p).setWire inc' := if_neg (by cases p <;> decide)
  obtain ⟨hc, hlt⟩ := ht.weight_lt (hone p) (inv.phase p) (hself ▸ inv'.phase p) (hclosed p)
  refine ⟨fun q => ?_, ?_⟩
  · obtain rfl | rfl : q = p ∨ q = !p := by cases p <;> cases q <;> decide
    · rwa [hself]
    · rw [hother]
      exact hclosed !p
  · have hwire : ((s !p).setWire inc').weight X + 5 * (s !p).wire.length =
        (s !p).weight X + 5 * inc'.length := by
      simp only [Server.weight, Server.closer, Server.setWire]
      omega
    rw [potential_eq _ p, potential_eq _ p, hself, hother]
    omega

theorem length_le (hclosed : ∀ p, (s p).closer.isSome = true) {run : List (Bool × Move α)}
    (h : exec (ScaleOut.step X) s run = some s') : run.length ≤ potential X s := by
  refine Nat.le_of_add_right_le (length_add_le_of_exec
    (I := fun s => Inv X s ∧ ∀ p, (s p).closer.isSome = true) h ⟨inv, hclosed⟩ ?_).2
  intro s m s' ⟨inv, hclosed⟩ hs
  obtain ⟨hclosed', hlt⟩ := inv.potential_lt hone hslack hclosed hs
  exact ⟨⟨inv.step hone hslack.1 hs, hclosed'⟩, hlt⟩

end Inv

theorem Inv.correct [Inhabited α] (hone : ∀ p, X.producers p = 1)
    (hslack : 16 ≤ X.slack ∧ X.slack ≤ N) (inv : Inv X s) : Correct X s where
  alive p := (inv.phase p).alive
  once := inv.once
  closing p hterm := by
    obtain ⟨hc, hend⟩ := (inv.phase p).terminating hterm
    refine ⟨⟨0, X.producers_pos p, hc⟩, exists_three (inv.phase p).got ?_⟩
    rw [heard, hend, if_pos rfl]
    split_ifs <;> intro h <;> cases h
  freed p := (inv.flow p).freed
  finished hret p q := by
    refine inv.transit_of_returned (fun p => ?_) p q
    rw [closer, hret p 0 (X.producers_pos p)]
    rfl
  progress h p i hi := by
    obtain rfl : i = 0 := by have := hone p; omega
    have hc := inv.returned_of_stuck hone hslack h p
    rw [closer] at hc
    cases hp : (s p).producer 0 with
    | closing c =>
      rw [hp] at hc
      cases hc
      rfl
    | _ => rw [hp] at hc; cases hc
  bounded h run s' := inv.length_le hone hslack fun p => h p 0 (X.producers_pos p)

/-- Two calls of `close` on one server close its ready queue. -/
theorem two_producers (h : 2 ≤ X.producers p) :
    ∃ s : State α, Reach (step X) Free (init α) s ∧ (s p).terminating = true ∧ (s p).got = [] := by
  have h0 : 0 < X.producers p := by omega
  have h1 : 1 < X.producers p := by omega
  refine exists_reach_of_exec [(p, .close 0), (p, .close 1), (p, .go 1)] ?_
  simp [step, closerStep, init, State.set, setProducer, flush, h0, h1]

/-- Two producers on each server, which send nothing. -/
def twoProducers : Exchange where
  producers _ := 2
  slack := 16
  buf_size := 16
  mem _ := 0
  producers_pos _ := by decide
  buf_size_ge := le_rfl
  buf_size_even := rfl
  mem_even _ := rfl

/-- The ready queue of a server is closed, and nothing has been heard of the other server. -/
theorem closed_by_two_producers :
    ∃ s : State ℕ, Reach (step twoProducers) Free (init ℕ) s ∧ (s false).terminating = true ∧
      (s false).got = [] ∧ ((s true).producer 0).closer? = none :=
  exists_reach_of_exec [(false, .close 0), (false, .close 1), (false, .go 1)]
    ⟨_, rfl, fun _ => ⟨rfl, rfl, rfl⟩⟩

/-- The first tuple for the other server divides by zero. -/
theorem small_slack [Inhabited α] (h : X.slack < 16) :
    ∃ s : State α, Reach (step X) Free (init α) s ∧ (s false).fault = true := by
  have h0 := X.producers_pos false
  have hdiv : X.slack / 16 = 0 := Nat.div_eq_of_lt h
  refine exists_reach_of_exec [(false, .acquire 0 true), (false, .release 0 default)] ?_
  simp [step, init, State.set, setProducer, ship, die, h0, hdiv]

theorem State.set_wire (s : State α) (p : Bool) (v : Server α) :
    s.set p v (s !p).wire = Function.update s p v := by
  funext q
  by_cases hq : q = p
  · simp [State.set, hq]
  · obtain rfl : q = !p := by cases p <;> cases q <;> first | rfl | exact absurd rfl hq
    simp [State.set, setWire]

/-- Only the worker has moved, and has put `pool` in the free pool. -/
def Server.carved (pool : List (BitVec 64)) (freed : List (Freed α)) : Server α :=
  { init α true with worker := .carving pool.length, free_pool := pool, freed := freed }

theorem exists_carved (hslack : N < X.slack) (hp : s p = carved [] []) {j : ℕ} (hj : j ≤ N) :
    ∃ pool freed, pool.length = j ∧
      Reach (step X) Free s (Function.update s p (carved pool freed)) := by
  induction j with
  | zero => exact ⟨[], [], rfl, by rw [← hp, Function.update_eq_self]; exact .init⟩
  | succ j ih =>
    obtain ⟨pool, freed, rfl, hreach⟩ := ih (by omega)
    have hlt : pool.length < X.slack := by omega
    have hroom : ¬N ≤ pool.length := by omega
    have heven := mem_add_even X p pool.length
    let ptr := X.mem p + BitVec.ofNat 64 (pool.length * X.buf_size)
    refine ⟨pool ++ [ptr], freed ++ [⟨⟨ptr, false, ptr, none⟩, .freePool, ptr⟩], length_append,
      hreach.next (p, .work) trivial ?_⟩
    have hwork : ∀ inc, serverStep X p (carved pool freed) inc .work = some (carved (pool ++ [ptr])
        (freed ++ [⟨⟨ptr, false, ptr, none⟩, .freePool, ptr⟩]), inc) := by
      simp [carved, workerStep, full, freeBuffer, init, hlt, hroom, heven, ptr]
    rw [step, Function.update_self, hwork, map_some, State.set_wire, Function.update_idem]

/-- With more buffers than slots both workers wait for ever, and the producers wait for them. -/
theorem large_slack (hone : ∀ p, X.producers p = 1) (hslack : N < X.slack) : ∃ s : State α,
    Reach (step X) Free (init α) s ∧ (∀ m, step X s m = none) ∧ ¬Returned X s := by
  obtain ⟨pool, freed, hpool, hfalse⟩ :=
    exists_carved (s := init α) (p := false) hslack rfl le_rfl
  obtain ⟨pool', freed', hpool', htrue⟩ :=
    exists_carved (s := Function.update (init α) false (carved pool freed)) (p := true) hslack rfl le_rfl
  obtain ⟨s, hs, hstuck⟩ : ∃ s : State α, exec (step X)
      (Function.update (Function.update (init α) false (carved pool freed)) true (carved pool' freed'))
      (([false, true].flatMap fun p => [(p, .close 0), (p, .go 0), (p, .go 0), (p, .go 0)]) ++
        [false, true].flatMap fun p => [(p, .receive 0), (p, .serve), (p, .serve)]) = some s ∧
      ∀ p, (s p).producer 0 = .closing .join ∧ (s p).worker = .carving N ∧ (s p).receiver = .finished ∧
        (s p).free_pool.length = N ∧ (s p).unflushed = [] ∧ (s p).fault = false := by
    clear hfalse htrue hslack
    obtain ⟨producers⟩ := X
    obtain rfl : producers = fun _ => 1 := funext hone
    refine ⟨_, rfl, fun p => ?_⟩
    cases p
    · exact ⟨rfl, congrArg _ hpool, rfl, hpool, rfl, rfl⟩
    · exact ⟨rfl, congrArg _ hpool', rfl, hpool', rfl, rfl⟩
  refine ⟨s, reach_of_exec (hfalse.trans htrue) hs, fun ⟨p, m⟩ => ?_, fun h => ?_⟩
  · obtain ⟨hp, hw, hr, hlen, hu, hf⟩ := hstuck p
    have hpos : ∀ i, i < X.producers p → i = 0 := fun i hi => by rw [hone] at hi; omega
    cases m <;>
      simp +contextual [step, closerStep, workerStep, receiveStep, serveStep, full, mem_add_even, *]
  · cases (hstuck false).1.symm.trans (h false 0 (X.producers_pos false))

/-- **The exchange is right exactly for one producer on each server and a slack of at least 16 that fits
the slots of the pool.** -/
theorem exchange_correct_iff [Inhabited α] : (∀ s : State α, Reach (step X) Free (init α) s → Correct X s) ↔
      (∀ p, X.producers p = 1) ∧ 16 ≤ X.slack ∧ X.slack ≤ N := by
  constructor
  · intro h
    have hone : ∀ p, X.producers p = 1 := by
      intro p
      by_contra hne
      have hpos := X.producers_pos p
      obtain ⟨s, hs, hterm, hgot⟩ := two_producers (α := α) (X := X) (p := p) (by omega)
      obtain ⟨-, m, hm, -⟩ := (h s hs).closing p hterm
      rw [hgot] at hm
      cases hm
    refine ⟨hone, ?_, ?_⟩
    · by_contra hlt
      obtain ⟨s, hs, hfault⟩ := small_slack (α := α) (X := X) (by omega)
      have halive := (h s hs).alive false
      rw [hfault] at halive
      cases halive
    · by_contra hlt
      obtain ⟨s, hs, hstuck, hnot⟩ := large_slack (α := α) hone (not_le.1 hlt)
      exact hnot ((h s hs).progress hstuck)
  · rintro ⟨hone, hslack⟩ s hs
    have inv : Inv X s :=
      hs.invariant (I := fun s => Inv X s) inv_init fun _ _ _ inv _ h => inv.step hone hslack.1 h
    exact inv.correct hone hslack

end

end Proteus.Routing.ScaleOut
