import Proteus.Routing.ScaleOut

/-!
# One server of a router between two servers

Three invariants of a server with one producer, each kept by every step (`Trans`):

* `Phase`: how the counters and flags agree with how far its three threads have come, and in which stage
  the streams to and from the other server are;
* `Flow`: a released tuple is in one place, once and in order, and the tag of a pointer is right;
* `Count`: no buffer of the pool is lost.

`Phase.trans` and `Flow.trans` assume that the server reads what it expects; that is for both servers
together to prove.
-/

namespace Proteus.Routing.ScaleOut

open Closer Function List Server

/-! ## The phases of a server -/

theorem Server.ship_producer {α : Type*} (v : Server α) (X : Exchange) (p : Bool) (a : α) :
    (v.ship X p a).producer = v.producer := by
  unfold ship
  dsimp only
  split_ifs <;> rfl

/-- What has been said on a channel: tuples, the end of the stream, the last message. -/
inductive Stage
  | streaming
  | ended
  | over

def next {α : Type*} (X : Exchange) : Stage → Message α → Option Stage
  | .streaming, m =>
    if m.size = X.buf_size then some .streaming
    else if m.size = 3 ∧ m.task.isNone then some .ended else none
  | .ended, m => if m.size = 2 ∧ m.task.isNone then some .over else none
  | .over, _ => none

namespace Closer

def stage : Closer → Stage
  | .closeFifo | .drain | .endOfStream => .streaming
  | .flushEnd | .leave | .join | .done _ => .ended
  | _ => .over

/-- It has nothing left to flush. -/
def flushed : Closer → Bool
  | .leave | .join | .done _ | .wait _ | .cleanUp _ | .returned => true
  | _ => false

/-- It has waited for the other threads. -/
def joined : Closer → Bool
  | .done _ | .flushDone _ | .wait _ | .cleanUp _ | .returned => true
  | _ => false

/-- It has not yet decremented `remaining_producers`. -/
def remains : Closer → Bool
  | .closeFifo | .drain | .endOfStream | .flushEnd | .leave => true
  | _ => false

/-- It has the last message of the other server. -/
def heardLast : Closer → Bool
  | .cleanUp _ | .returned => true
  | _ => false

end Closer

def Producer.closer? : Producer → Option Closer
  | .closing c => some c
  | _ => none

/-- The receiver has seen the end of the stream. -/
def Receiver.heardEnd {α : Type*} : Receiver α → Bool
  | .waiting | .pushing _ => false
  | _ => true

/-- The worker has found the ready queue closed and empty. -/
def Worker.stopped {α : Type*} : Worker α → Bool
  | .reclaiming _ | .finished => true
  | _ => false

open Receiver

variable {α : Type*} {X : Exchange} {p : Bool} {m : Message α} {inc inc' : List (Message α)}

namespace Server

variable (v : Server α)

/-- Where the only producer stands in `close`. -/
def closer : Option Closer := (v.producer 0).closer?

/-- What the server has said, and what it has heard. -/
def stage : Stage := v.closer.elim .streaming Closer.stage

def heard : Stage :=
  if v.closer.any heardLast then .over else if v.receiver.heardEnd then .ended else .streaming

end Server

/-- How the threads of a server with one producer agree. -/
structure Phase (X : Exchange) (v : Server α) : Prop where
  alive : v.fault = false
  others : ∀ i ≠ 0, v.producer i = .idle
  storage : v.closer ≠ some .returned → v.sub = true ∧ v.queues = true
  closed : v.closer ≠ some .returned → v.closed = v.closer.isSome.toNat + v.receiver.heardEnd.toNat
  producer_second : v.closer = some .closeFifo → v.receiver.heardEnd = true
  receiver_second : v.receiver = .closeFifo → v.closer.isSome = true
  remaining : v.closer.all remains = true → v.remaining_producers = 1
  terminating : v.terminating = true → v.closer.isSome = true ∧ v.receiver.heardEnd = true
  closing : v.closer.isSome = true → v.receiver.heardEnd = true →
    v.terminating = true ∨ v.closer = some .closeFifo ∨ v.receiver = .closeFifo
  flushed : v.closer.any flushed = true → v.unflushed = []
  joined : v.closer.any joined = true → v.worker = .finished ∧ v.receiver = .finished
  stopped : v.worker.stopped = true → v.terminating = true ∧ v.ready_fifo = []
  sent : exec (next X) .streaming v.sent = some v.stage
  got : exec (next X) .streaming v.got = some v.heard

variable {i : ℕ} {r : ℤ}

namespace Phase

variable {v : Server α} {c c' : Closer}

section

variable (inv : Phase X v)
include inv

theorem others_update {x : Producer} (hi : i ≠ 0) : update v.producer 0 x i = .idle := by
  rw [update_of_ne hi]
  exact inv.others i hi

/-- The producer moves on outside `close`. -/
theorem moved (x : Producer) (hx : x.closer? = (v.producer 0).closer?) :
    Phase X (v.setProducer 0 x) := by
  have hc : (v.setProducer 0 x).closer = v.closer := hx
  have hstage : (v.setProducer 0 x).stage = v.stage := congrArg (Option.elim · _ _) hc
  have hheard : (v.setProducer 0 x).heard = v.heard := by rw [heard, hc]; rfl
  exact ⟨inv.alive, fun i hi => inv.others_update hi, hc ▸ inv.storage, hc ▸ inv.closed,
    hc ▸ inv.producer_second, hc ▸ inv.receiver_second, hc ▸ inv.remaining, hc ▸ inv.terminating,
    hc ▸ inv.closing, hc ▸ inv.flushed, hc ▸ inv.joined,
    inv.stopped, hstage ▸ inv.sent, hheard ▸ inv.got⟩

/-- A step in `close`: its effects, and what they have to be for the next one. -/
theorem go {t : Bool} {u w sn g : List (Message α)} (hc : v.closer = some c)
    (hne : c ≠ .returned) (hc' : c' ≠ .closeFifo) (hterm : t = true → v.receiver.heardEnd = true)
    (hclosing : v.receiver.heardEnd = true → t = true ∨ v.receiver = .closeFifo)
    (hstopped : v.terminating = true → t = true)
    (hremaining : c'.remains = true → r = 1) (hflushed : c'.flushed = true → u = [])
    (hjoined : c'.joined = true → v.worker = .finished ∧ v.receiver = .finished)
    (hsent : exec (next X) .streaming sn = some c'.stage)
    (hgot : exec (next X) .streaming g = some (if c'.heardLast then .over
      else if v.receiver.heardEnd then .ended else .streaming)) :
    Phase X ({ v with
      terminating := t
      remaining_producers := r
      unflushed := u
      wire := w
      sent := sn
      got := g }.setProducer 0 (.closing c')) where
  alive := inv.alive
  others i hi := inv.others_update hi
  storage _ := inv.storage (by rw [hc]; exact fun h => hne (Option.some.inj h))
  closed _ := by
    have h := inv.closed (by rw [hc]; exact fun h => hne (Option.some.inj h))
    rwa [hc] at h
  producer_second h := absurd (Option.some.inj h) hc'
  receiver_second _ := rfl
  remaining := hremaining
  terminating ht := ⟨rfl, hterm ht⟩
  closing _ hend := (hclosing hend).imp_right .inr
  flushed := hflushed
  joined := hjoined
  stopped hs := ⟨hstopped (inv.stopped hs).1, (inv.stopped hs).2⟩
  sent := hsent
  got := hgot

/-- The producer calls `close`. -/
theorem close (hc : v.closer = none) :
    Phase X ({ v with closed := v.closed + 1 }.setProducer 0
      (.closing (if v.closed + 1 = 2 then .closeFifo else .endOfStream))) := by
  have hne : v.closer ≠ some .returned := by rw [hc]; nofun
  have hclosed : v.closed = v.receiver.heardEnd.toNat := by
    rw [inv.closed hne, hc]
    exact Nat.zero_add _
  have htwo : v.closed + 1 = 2 ↔ v.receiver.heardEnd = true := by
    rw [hclosed]
    cases v.receiver.heardEnd <;> decide
  have hstage : stage (if v.closed + 1 = 2 then .closeFifo else .endOfStream) = .streaming := by
    split_ifs <;> rfl
  have hlast : heardLast (if v.closed + 1 = 2 then .closeFifo else .endOfStream) = false := by
    split_ifs <;> rfl
  constructor
  case alive => exact inv.alive
  case others => exact fun i hi => inv.others_update hi
  case storage => exact fun _ => inv.storage hne
  case closed =>
    intro _
    show v.closed + 1 = 1 + v.receiver.heardEnd.toNat
    rw [hclosed, add_comm]
  case receiver_second => exact fun _ => rfl
  case producer_second =>
    intro h
    refine htwo.1 (by_contra fun hn => ?_)
    rw [if_neg hn] at h
    exact absurd (Option.some.inj h) nofun
  case remaining => exact fun _ => inv.remaining (by rw [hc]; rfl)
  case terminating => exact fun h => ⟨rfl, (inv.terminating h).2⟩
  case closing =>
    exact fun _ hend => .inr (.inl (congrArg some (if_pos (htwo.2 hend))))
  case flushed =>
    intro h
    revert h
    split_ifs <;> nofun
  case joined =>
    intro h
    revert h
    split_ifs <;> nofun
  case stopped => exact inv.stopped
  case sent =>
    show exec _ _ v.sent = some (Closer.stage _)
    rw [inv.sent, Server.stage, hc, hstage]
    rfl
  case got =>
    show exec _ _ v.got = some (if heardLast _ then _ else _)
    rw [inv.got, heard, hc, hlast]
    rfl

/-- A step of the worker. -/
theorem work (hw : v.worker ≠ .finished) (w : Worker α) (pool : List (BitVec 64))
    (ready consumed : List (Item α)) (freed : List (Freed α))
    (hstopped : w.stopped = true → v.terminating = true ∧ ready = []) : Phase X { v with
      worker := w
      free_pool := pool
      ready_fifo := ready
      consumed := consumed
      freed := freed } :=
  { inv with
    stopped := hstopped
    joined := fun hj => absurd (inv.joined hj).1 hw }

end

/-- Only the end of the stream has size 3. -/
theorem next_three : next X .streaming (⟨3, none⟩ : Message α) = some .ended := by
  have h := X.buf_size_ge
  rw [next, if_neg (by dsimp only; omega), if_pos ⟨rfl, rfl⟩]

theorem next_ended (h : (next X .ended m).isSome = true) : next X .ended m = some .over := by
  simp only [next] at h ⊢
  split_ifs at h ⊢
  · rfl
  · cases h

/-- A step of the receiver, unless it sees the end of the stream. -/
theorem receive (inv : Phase X v) (hr : v.receiver ≠ .finished) (r : Receiver α)
    (hend : r.heardEnd = v.receiver.heardEnd) (hsecond : r ≠ .closeFifo) (t : Bool)
    (ready : List (Item α)) (g : List (Message α))
    (hterm : t = true → v.closer.isSome = true ∧ v.receiver.heardEnd = true)
    (hclosing : v.closer.isSome = true → v.receiver.heardEnd = true →
      t = true ∨ v.closer = some .closeFifo ∨ r = .closeFifo)
    (hstopped : v.worker.stopped = true → t = true ∧ ready = [])
    (hgot : exec (next X) .streaming g = some v.heard) :
    Phase X { v with receiver := r, terminating := t, ready_fifo := ready, got := g } :=
  { inv with
    closed := fun h => (inv.closed h).trans (by rw [← hend]; rfl)
    producer_second := fun h => hend.trans (inv.producer_second h)
    receiver_second := fun h => absurd h hsecond
    terminating := fun h => ⟨(hterm h).1, hend.trans (hterm h).2⟩
    closing := fun h h' => hclosing h (hend.symm.trans h')
    joined := fun h => absurd (inv.joined h).2 hr
    stopped := hstopped
    got := hgot.trans (by rw [heard, ← hend]; rfl) }

theorem next_data {a : α} : next X .streaming ⟨X.buf_size, some a⟩ = some .streaming := if_pos rfl

theorem next_streaming (h : (next X .streaming m).isSome = true) (hm : m.size ≠ 3) :
    next X .streaming m = some .streaming := by
  simp only [next, hm, false_and, if_false] at h ⊢
  split_ifs at h ⊢
  · rfl
  · cases h

theorem not_heardLast (inv : Phase X v) (hr : v.receiver ≠ .finished) :
    v.closer.any heardLast = false := by
  cases hc : v.closer with
  | none => rfl
  | some c =>
    have hj : c.joined = true → False := fun h => hr (inv.joined (by rw [hc]; exact h)).2
    cases c with
    | cleanUp | returned => exact (hj rfl).elim
    | _ => rfl

theorem heard_of_waiting (inv : Phase X v) (hv : v.receiver = .waiting) : v.heard = .streaming := by
  rw [heard, inv.not_heardLast (by rw [hv]; nofun), hv]
  rfl

theorem next_three_size (h : (next X .streaming m).isSome = true) (hm : m.size = 3) :
    next X .streaming m = some .ended := by
  have hsize := X.buf_size_ge
  simp only [next] at h ⊢
  rw [if_neg (by omega)] at h ⊢
  split_ifs at h ⊢
  · rfl
  · cases h

theorem not_stopped (inv : Phase X v) (h : v.closer.isSome = false ∨ v.receiver.heardEnd = false) :
    v.worker.stopped = false := by
  cases hw : v.worker.stopped with
  | false => rfl
  | true =>
    obtain ⟨h₁, h₂⟩ := inv.terminating (inv.stopped hw).1
    rw [h₁, h₂] at h
    exact absurd h (by decide)

variable {k : Stage}

section

variable (inv : Phase X v)
include inv

section

variable (hc : v.closer = some c)
include hc

theorem said (hk : c.stage = k) : exec (next X) .streaming v.sent = some k := by
  rw [inv.sent, Server.stage, hc, Option.elim_some, hk]

theorem was_told (hlast : c.heardLast = false) :
    exec (next X) .streaming v.got = some (if v.receiver.heardEnd then .ended else .streaming) := by
  rw [inv.got, heard, hc, Option.any_some, hlast]
  rfl

theorem closing_second (hne : c ≠ .closeFifo)
    (hend : v.receiver.heardEnd = true) : v.terminating = true ∨ v.receiver = .closeFifo := by
  obtain h | h | h := inv.closing (by rw [hc]; rfl) hend
  · exact .inl h
  · exact absurd (Option.some.inj (hc.symm.trans h)) hne
  · exact .inr h

/-- A later step in `close`, which reads nothing. -/
theorem goOn {u w sn : List (Message α)}
    (hne : c ≠ .returned ∧ c ≠ .closeFifo) (hc' : c' ≠ .closeFifo)
    (hlast : c.heardLast = false ∧ c'.heardLast = false)
    (hremaining : c'.remains = true → r = 1) (hflushed : c'.flushed = true → u = [])
    (hjoined : c'.joined = true → v.worker = .finished ∧ v.receiver = .finished)
    (hsent : exec (next X) .streaming sn = some c'.stage) :
    Phase X ({ v with remaining_producers := r, unflushed := u, wire := w, sent := sn }.setProducer 0
      (.closing c')) :=
  inv.go hc hne.1 hc' (fun h => (inv.terminating h).2) (inv.closing_second hc hne.2) id hremaining
    hflushed hjoined hsent (by rw [hlast.2]; exact inv.was_told hc hlast.1)

end

theorem write (hm : next X v.stage m = some k) : exec (next X) .streaming (v.sent ++ [m]) = some k := by
  rwa [exec_snoc, inv.sent]

theorem read (hm : next X v.heard m = some k) : exec (next X) .streaming (v.got ++ [m]) = some k := by
  rwa [exec_snoc, inv.got]

/-- A tuple for the other server. -/
theorem ship (hslack : 16 ≤ X.slack) (hc : v.closer = none) (a : α) : Phase X (v.ship X p a) := by
  have hdiv : X.slack / 16 ≠ 0 := by omega
  have hstage : v.stage = .streaming := by rw [Server.stage, hc]; rfl
  have hany : ∀ f, v.closer.any f = false := fun f => by rw [hc]; rfl
  have hsent : exec (next X) .streaming (v.sent ++ [⟨X.buf_size, some a⟩]) = some v.stage := by
    exact inv.write (by rw [hstage]; exact next_data)
  rw [Server.ship, if_neg hdiv]
  split_ifs
  · exact { inv with
      flushed := fun _ => rfl
      sent := hsent }
  · exact { inv with
      flushed := fun h => absurd ((hany _).symm.trans h) (by decide)
      sent := hsent }

/-- The receiver sees the end of the stream. -/
theorem hear_end (hv : v.receiver = .waiting)
    (hlast : v.closer.any heardLast = false) {g : List (Message α)}
    (hgot : exec (next X) .streaming g = some .ended) : Phase X { v with
      got := g
      closed := v.closed + 1
      receiver := if v.closed + 1 = 2 then .closeFifo else .finished } := by
  have hclosed : v.closed = v.closer.isSome.toNat := by
    have hne : v.closer ≠ some .returned := by
      intro h
      rw [h] at hlast
      cases hlast
    rw [inv.closed hne, hv]
    rfl
  have htwo : v.closed + 1 = 2 ↔ v.closer.isSome = true := by
    rw [hclosed]
    cases v.closer.isSome <;> decide
  have hend : heardEnd (if v.closed + 1 = 2 then .closeFifo else .finished : Receiver α) = true := by
    split_ifs <;> rfl
  exact { inv with
    closed := fun _ => by
      rw [hend, hclosed]
      rfl
    producer_second := fun _ => hend
    receiver_second := fun h => by
      refine htwo.1 (by_contra fun hn => ?_)
      rw [if_neg hn] at h
      cases h
    terminating := fun h => absurd (inv.terminating h).2 (by rw [hv]; nofun)
    closing := fun h _ => .inr (.inr (if_pos (htwo.2 h)))
    joined := fun h => absurd (inv.joined h).2 (by rw [hv]; nofun)
    got := by
      rw [hgot]
      show _ = some (if v.closer.any heardLast then _ else if heardEnd _ then _ else _)
      rw [hlast, hend]
      rfl }

/-- Control messages hold no tuple. -/
theorem task_of_three (hv : v.receiver = .waiting)
    (hread : (next X v.heard m).isSome = true) (hm : m.size = 3) : m.task = none := by
  have hsize := X.buf_size_ge
  rw [inv.heard_of_waiting hv, next, if_neg (by omega)] at hread
  split_ifs at hread with h
  · exact Option.isNone_iff_eq_none.1 h.2
  · cases hread

theorem task_of_wait (hone : X.producers p = 1) {rem : ℤ}
    (hi : i < X.producers p) (hp : v.producer i = .closing (.wait rem))
    (hread : (next X v.heard m).isSome = true) : v.receiver = .finished ∧ m.task = none := by
  obtain rfl : i = 0 := by omega
  have hc : v.closer = some (.wait rem) := by rw [closer, hp]; rfl
  have hr := (inv.joined (by rw [hc]; rfl)).2
  have hheard : v.heard = .ended := by rw [heard, hc, hr]; rfl
  rw [hheard, next] at hread
  split_ifs at hread with h
  · exact ⟨hr, Option.isNone_iff_eq_none.1 h.2⟩
  · cases hread

end

variable {v' : Server α}

/-- **A step keeps the threads of a server with one producer in agreement**, if the messages it reads
are those it expects. -/
theorem trans (hone : X.producers p = 1) (hslack : 16 ≤ X.slack) (inv : Phase X v)
    (hread : ∀ m rest, inc = m :: rest → (next X v.heard m).isSome)
    (ht : Trans X p v inc v' inc') : Phase X v' := by
  have hzero : ∀ {i}, i < X.producers p → i = 0 := fun hi => by omega
  have hcloser : ∀ {i x}, i < X.producers p → v.producer i = x → v.closer = x.closer? := by
    intro i x hi hp
    rw [← hp, hzero hi, closer]
  have hclosing : ∀ {i c}, i < X.producers p → v.producer i = .closing c → i = 0 ∧ v.closer = some c :=
    fun hi hp => ⟨hzero hi, hcloser hi hp⟩
  cases ht with
  | die h hact =>
    have hc : v.closer = some .returned := by
      by_contra hne
      obtain ⟨hsub, hqueues⟩ := inv.storage hne
      simp [hsub, hqueues] at h
    obtain ⟨-, hfin⟩ := inv.joined (by rw [hc]; rfl)
    obtain ⟨i, hi, hp⟩ | hr := hact
    · rw [hzero hi] at hp
      cases hx : v.producer 0 with
      | closing c =>
        rw [closer, hx] at hc
        rw [hx] at hp
        exact absurd (congrArg Producer.closing (Option.some.inj hc)) hp
      | _ => rw [closer, hx] at hc; cases hc
    · exact absurd hfin hr
  | acquire hi hp hx =>
    obtain rfl := hzero hi
    refine inv.moved _ ?_
    rw [hp]
    obtain rfl | rfl := hx <;> rfl
  | @pop _ _ rest hi hp hb =>
    obtain rfl := hzero hi
    have inv' : Phase X { v with free_pool := rest } := { inv with }
    exact inv'.moved _ (hcloser hi hp).symm
  | keep hi hp =>
    obtain rfl := hzero hi
    have hstop := inv.not_stopped (.inl (by rw [hcloser hi hp]; rfl))
    refine Phase.moved (v := v.keep _ _ _) { inv with stopped := fun h => ?_ } _ ?_
    · exact absurd (hstop.symm.trans h) (by decide)
    · exact (hcloser hi hp).symm
  | ship hi hp =>
    obtain rfl := hzero hi
    refine (inv.ship hslack (hcloser hi hp) _).moved _ ?_
    rw [ship_producer]
    exact (hcloser hi hp).symm
  | close hi hp =>
    obtain rfl := hzero hi
    have hc : v.closer = none := hcloser hi hp
    exact inv.close hc
  | closeFifo hi hp =>
    obtain ⟨rfl, hc⟩ := hclosing hi hp
    exact inv.go hc nofun nofun (fun _ => inv.producer_second hc) (fun _ => .inl rfl)
      (fun _ => rfl) (fun _ => inv.remaining (by rw [hc]; rfl)) nofun nofun
      (inv.said hc rfl) (inv.was_told hc rfl)
  | drained hi hp =>
    obtain ⟨rfl, hc⟩ := hclosing hi hp
    exact inv.goOn hc ⟨nofun, nofun⟩ nofun ⟨rfl, rfl⟩ (fun _ => inv.remaining (by rw [hc]; rfl)) nofun nofun
      (inv.said hc rfl)
  | endOfStream hi hp =>
    obtain ⟨rfl, hc⟩ := hclosing hi hp
    exact inv.goOn hc ⟨nofun, nofun⟩ nofun ⟨rfl, rfl⟩ (fun _ => inv.remaining (by rw [hc]; rfl)) nofun nofun
      (inv.write (by rw [Server.stage, hc]; exact next_three))
  | flushEnd hi hp =>
    obtain ⟨rfl, hc⟩ := hclosing hi hp
    exact inv.goOn hc ⟨nofun, nofun⟩ nofun ⟨rfl, rfl⟩ (fun _ => inv.remaining (by rw [hc]; rfl))
      (fun _ => rfl) nofun (inv.said hc rfl)
  | leave hi hp =>
    obtain ⟨rfl, hc⟩ := hclosing hi hp
    rw [inv.remaining (by rw [hc]; rfl), sub_self, if_pos rfl]
    exact inv.goOn hc ⟨nofun, nofun⟩ nofun ⟨rfl, rfl⟩ nofun (fun _ => inv.flushed (by rw [hc]; rfl)) nofun
      (inv.said hc rfl)
  | join hi hp hw hr =>
    obtain ⟨rfl, hc⟩ := hclosing hi hp
    exact inv.goOn hc ⟨nofun, nofun⟩ nofun ⟨rfl, rfl⟩ nofun (fun _ => inv.flushed (by rw [hc]; rfl))
      (fun _ => ⟨hw, hr⟩) (inv.said hc rfl)
  | @done _ rem hi hp =>
    obtain ⟨rfl, hc⟩ := hclosing hi hp
    exact inv.goOn hc ⟨nofun, nofun⟩ nofun ⟨rfl, rfl⟩ nofun nofun (fun _ => inv.joined (by rw [hc]; rfl))
      (inv.write (by rw [Server.stage, hc]; rfl))
  | @flushDone _ rem hi hp =>
    obtain ⟨rfl, hc⟩ := hclosing hi hp
    exact inv.goOn hc ⟨nofun, nofun⟩ nofun ⟨rfl, rfl⟩ nofun (fun _ => rfl)
      (fun _ => inv.joined (by rw [hc]; rfl)) (inv.said hc rfl)
  | @wait _ rem m _ hi hp hinc =>
    obtain ⟨rfl, hc⟩ := hclosing hi hp
    have hfin := inv.joined (by rw [hc]; rfl)
    have hover : next X v.heard m = some .over := by
      have hheard : v.heard = .ended := by rw [heard, hc, hfin.2]; rfl
      have h := hread _ _ hinc
      rw [hheard] at h ⊢
      exact next_ended h
    exact inv.go hc nofun nofun (fun h => (inv.terminating h).2) (inv.closing_second hc nofun) id
      nofun (fun _ => inv.flushed (by rw [hc]; rfl)) (fun _ => hfin)
      (inv.said hc rfl) (inv.read hover)
  | @cleanUp _ rem hi hp =>
    obtain ⟨rfl, hc⟩ := hclosing hi hp
    exact {
      alive := inv.alive
      others := fun i hi => inv.others_update hi
      storage := fun h => absurd rfl h
      closed := fun h => absurd rfl h
      producer_second := nofun
      receiver_second := fun _ => rfl
      remaining := nofun
      terminating := fun h => ⟨rfl, (inv.terminating h).2⟩
      closing := fun _ h => (inv.closing_second hc nofun h).imp_right .inr
      flushed := fun _ => inv.flushed (by rw [hc]; rfl)
      joined := fun _ => inv.joined (by rw [hc]; rfl)
      stopped := inv.stopped
      sent := inv.said hc rfl
      got := by
        have h := inv.got
        rw [heard, hc] at h
        exact h }
  | carve hw | start hw | take hw | consume hw => exact inv.work (by rw [hw]; nofun) _ _ _ _ _ nofun
  | stop hw hr hterm => exact inv.work (by rw [hw]; nofun) _ _ _ _ _ fun _ => ⟨hterm, hr⟩
  | reclaim hw | finish hw =>
    exact inv.work (by rw [hw]; nofun) _ _ _ _ _ fun _ => inv.stopped (by rw [hw]; rfl)
  | @arrive addr m _ hv hinc ha hm =>
    have hheard := inv.heard_of_waiting hv
    have hnext : next X v.heard m = some .streaming := by
      have h := hread _ _ hinc
      rw [hheard] at h ⊢
      exact next_streaming h hm
    exact inv.receive (by rw [hv]; nofun) (.pushing _) (by rw [hv]; rfl) nofun _ _ _ inv.terminating
      (by rw [hv]; nofun) inv.stopped (hheard ▸ inv.read hnext)
  | @ended m _ hv hinc hm =>
    have hnext : next X v.heard m = some .ended := by
      have h := hread _ _ hinc
      rw [inv.heard_of_waiting hv] at h ⊢
      exact next_three_size h hm
    exact inv.hear_end hv (inv.not_heardLast (by rw [hv]; nofun)) (inv.read hnext)
  | push hv =>
    refine inv.receive (by rw [hv]; nofun) .waiting (by rw [hv]; rfl) nofun _ _ _ inv.terminating
      (by rw [hv]; nofun) (fun h => ?_) inv.got
    exact absurd ((inv.not_stopped (.inr (by rw [hv]; rfl))).symm.trans h) (by decide)
  | closeReady hv =>
    exact inv.receive (by rw [hv]; nofun) .drain (by rw [hv]; rfl) nofun _ _ _
      (fun _ => ⟨inv.receiver_second hv, by rw [hv]; rfl⟩) (fun _ _ => .inl rfl)
      (fun h => ⟨rfl, (inv.stopped h).2⟩) inv.got
  | receiverDone hv =>
    refine inv.receive (by rw [hv]; nofun) .finished (by rw [hv]; rfl) nofun _ _ _ inv.terminating
      (fun h h' => ?_) inv.stopped inv.got
    obtain ht | hc | hr := inv.closing h h'
    · exact .inl ht
    · exact .inr (.inl hc)
    · rw [hv] at hr
      cases hr
  | flush h => exact { inv with flushed := fun _ => rfl }

end Phase

/-! ## Where the tuples are -/

variable {v v' : Server α}

/-- The tuple of an item from the own server, or from the other one. -/
def Item.taskFrom (arrived : Bool) (x : Item α) : Option α := if x.arrived = arrived then x.task else none

def tasks (arrived : Bool) (xs : List (Item α)) : List α := xs.filterMap (Item.taskFrom arrived)

@[simp] theorem tasks_append (b : Bool) (xs ys : List (Item α)) :
    tasks b (xs ++ ys) = tasks b xs ++ tasks b ys := filterMap_append

def Worker.items : Worker α → List (Item α)
  | .consuming x => [x]
  | _ => []

def Receiver.items : Receiver α → List (Item α)
  | .pushing x => [x]
  | _ => []

/-- The lowest bit of the pointer says where the buffer comes from. -/
def Item.Tagged (x : Item α) : Prop :=
  x.addr &&& 1#64 = 0#64 ∧ x.ptr = if x.arrived then x.addr ||| 1#64 else x.addr

/-- A buffer from the network goes to the block manager, one of the pool to the pool. -/
def Freed.Right (f : Freed α) : Prop :=
  f.addr = f.item.addr ∧ f.place = if f.item.arrived then .blockManager else .freePool

variable {b : BitVec 64}

theorem even_iff : b &&& 1#64 = 0#64 ↔ b.toNat % 2 = 0 := by
  rw [← BitVec.toNat_inj]
  show b.toNat &&& 1 = 0 ↔ _
  rw [Nat.and_one_is_mod]

/-- A tag on unused bits can be taken away again. -/
theorem or_and_not {w : ℕ} {a t : BitVec w} (h : a &&& t = 0#w) : (a ||| t) &&& ~~~t = a := by
  ext i hi
  have hbit : (a &&& t)[i] = false := by rw [h, BitVec.getElem_zero]
  rw [BitVec.getElem_and] at hbit
  rw [BitVec.getElem_and, BitVec.getElem_or, BitVec.getElem_not]
  revert hbit
  cases a[i] <;> cases t[i] <;> decide

theorem or_and_tag {w : ℕ} (a t : BitVec w) : (a ||| t) &&& t = t := by
  ext i hi
  rw [BitVec.getElem_and, BitVec.getElem_or]
  cases a[i] <;> cases t[i] <;> rfl

theorem mem_add_even (X : Exchange) (p : Bool) (j : ℕ) :
    (X.mem p + BitVec.ofNat 64 (j * X.buf_size)) &&& 1#64 = 0#64 := by
  have hmem := even_iff.1 (X.mem_even p)
  have hsize : j * X.buf_size % 2 = 0 := by rw [Nat.mul_mod, X.buf_size_even]; simp
  rw [even_iff, BitVec.toNat_add, BitVec.toNat_ofNat]
  omega

variable {x : Item α}

theorem Item.Tagged.even_iff (h : x.Tagged) : x.ptr &&& 1#64 = 0#64 ↔ x.arrived = false := by
  obtain ⟨haddr, hptr⟩ := h
  cases hx : x.arrived <;> rw [hx] at hptr
  case false =>
    simp only [hptr, Bool.false_eq_true, if_false, haddr]
  case true =>
    simp only [hptr, if_true, or_and_tag, Bool.true_eq_false, iff_false]
    decide

theorem Item.Tagged.freed (h : x.Tagged) :
    Freed.Right (if x.ptr &&& 1#64 = 0#64 then ⟨x, .freePool, x.ptr⟩
      else ⟨x, .blockManager, x.ptr &&& ~~~1#64⟩) := by
  have heven := h.even_iff
  obtain ⟨haddr, hptr⟩ := h
  cases hx : x.arrived with
  | false =>
    rw [if_pos (heven.2 hx)]
    rw [hx] at hptr
    exact ⟨hptr, by rw [hx]; rfl⟩
  | true =>
    rw [if_neg (by rw [heven, hx]; nofun)]
    rw [hx] at hptr
    refine ⟨?_, by rw [hx]; rfl⟩
    rw [hptr]
    exact or_and_not haddr

/-- Every tuple that was released to a server is there, once and in order, and every buffer is known for
what it is. -/
structure Flow (p : Bool) (v : Server α) : Prop where
  own : tasks false (v.consumed ++ (v.worker.items ++ v.ready_fifo)) = v.released p
  arrived : tasks true (v.consumed ++ (v.worker.items ++ v.ready_fifo) ++ v.receiver.items) =
    v.got.filterMap Message.task
  shipped : v.sent.filterMap Message.task = v.released !p
  tagged : ∀ x ∈ v.worker.items ++ v.ready_fifo ++ v.receiver.items, x.Tagged
  received : ∀ x ∈ v.receiver.items, x.arrived = true
  pool : ∀ b ∈ v.free_pool, b &&& 1#64 = 0#64
  holding : ∀ i b, v.producer i = .holding b → b &&& 1#64 = 0#64
  freed : ∀ f ∈ v.freed, f.Right

namespace Flow

section

variable (flow : Flow p v)
include flow

theorem holding_update {x : Producer}
    (hx : ∀ b, x = .holding b → b &&& 1#64 = 0#64) (j : ℕ) (b : BitVec 64)
    (h : update v.producer i x j = .holding b) : b &&& 1#64 = 0#64 := by
  by_cases hj : j = i
  · rw [hj, update_self] at h
    exact hx b h
  · rw [update_of_ne hj] at h
    exact flow.holding j b h

/-- A producer that gets no buffer. -/
theorem setProducer {x : Producer} (hx : ∀ b, x ≠ .holding b) : Flow p (v.setProducer i x) :=
  { flow with holding := flow.holding_update fun b h => absurd h (hx b) }

/-- What does not concern tuples and buffers. -/
theorem control {t s q : Bool} {c n : ℕ} {u w : List (Message α)} : Flow p { v with
      terminating := t
      sub := s
      queues := q
      remaining_producers := r
      closed := c
      cnt := n
      unflushed := u
      wire := w } :=
  { flow with }

/-- Items move on between the queue, the worker and what it has consumed. -/
theorem work (w : Worker α) (ready consumed : List (Item α))
    (hsame : consumed ++ (w.items ++ ready) = v.consumed ++ (v.worker.items ++ v.ready_fifo))
    (hsub : w.items ++ ready ⊆ v.worker.items ++ v.ready_fifo) :
    Flow p { v with worker := w, ready_fifo := ready, consumed := consumed } :=
  { flow with
    own := (congrArg (tasks false) hsame).trans flow.own
    arrived := by
      rw [hsame]
      exact flow.arrived
    tagged := fun x hx => by
      refine flow.tagged x ?_
      obtain hx | hx := mem_append.1 hx
      · exact mem_append_left _ (hsub hx)
      · exact mem_append_right _ hx }

theorem read {r : Receiver α} (hv : v.receiver.items = [])
    (htasks : tasks true r.items = m.task.toList) (htagged : ∀ x ∈ r.items, x.Tagged)
    (hreceived : ∀ x ∈ r.items, x.arrived = true) : Flow p { v with got := v.got ++ [m], receiver := r } :=
  { flow with
    arrived := by
      have h := flow.arrived
      rw [hv, append_nil] at h
      rw [tasks_append, filterMap_append, ← h, htasks]
      cases hm : m.task with
      | none => rw [filterMap_cons_none hm]; rfl
      | some a => rw [filterMap_cons_some hm]; rfl
    tagged := fun x hx => by
      obtain hx | hx := mem_append.1 hx
      · exact flow.tagged x (mem_append_left _ hx)
      · exact htagged x hx
    received := hreceived }

theorem write_none (hm : m.task = none) : Flow p (v.write m) :=
  { flow with
    shipped := by
      show (v.sent ++ [m]).filterMap Message.task = _
      rw [filterMap_append, filterMap_cons_none hm, filterMap_nil, append_nil]
      exact flow.shipped }

theorem ship (a : α) : Flow p (v.ship X p a) := by
  have hshipped : (v.sent ++ [(⟨X.buf_size, some a⟩ : Message α)]).filterMap Message.task =
      update v.released (!p) (v.released (!p) ++ [a]) !p := by
    rw [filterMap_append, flow.shipped, update_self]
    rfl
  have hown : tasks false (v.consumed ++ (v.worker.items ++ v.ready_fifo)) =
      update v.released (!p) (v.released (!p) ++ [a]) p := by
    rw [flow.own, update_of_ne (by cases p <;> decide)]
  unfold Server.ship
  dsimp only
  split_ifs <;> exact { flow with own := hown, shipped := hshipped }

/-- A buffer is freed. -/
theorem freeBuffer (hx : x.Tagged) : Flow p (v.freeBuffer x) :=
  { flow with
    pool := by
      intro b hb
      simp only [Server.freeBuffer] at hb
      split_ifs at hb with heven
      · obtain hb | hb := mem_append.1 hb
        · exact flow.pool b hb
        · rwa [mem_singleton.1 hb]
      · exact flow.pool b hb
    freed := by
      intro f hf
      obtain hf | hf := mem_append.1 hf
      · exact flow.freed f hf
      · rw [mem_singleton.1 hf]
        exact hx.freed }

theorem keep (hb : b &&& 1#64 = 0#64) (a : α) : Flow p (v.keep p a b) :=
  { flow with
    own := by
      show tasks false (v.consumed ++ (v.worker.items ++ (v.ready_fifo ++ [_]))) =
        update v.released p (v.released p ++ [a]) p
      rw [update_self, ← flow.own]
      simp only [tasks_append, append_assoc]
      rfl
    arrived := by
      refine Eq.trans ?_ flow.arrived
      show tasks true (v.consumed ++ (v.worker.items ++ (v.ready_fifo ++ [_])) ++ v.receiver.items) = _
      simp only [tasks_append, append_assoc]
      rfl
    shipped := by
      show _ = update v.released p _ !p
      rw [update_of_ne (by cases p <;> decide)]
      exact flow.shipped
    tagged := fun x hx => by
      simp only [Server.keep, mem_append, mem_singleton] at hx
      obtain (hx | hx | rfl) | hx := hx
      · exact flow.tagged x (by simp [hx])
      · exact flow.tagged x (by simp [hx])
      · exact ⟨hb, rfl⟩
      · exact flow.tagged x (by simp [hx]) }

/-- The receiver hands its item over. -/
theorem push (hv : v.receiver = .pushing x) :
    Flow p { v with ready_fifo := v.ready_fifo ++ [x], receiver := .waiting } := by
  have hx : x.arrived = true := flow.received x (by rw [hv]; exact mem_singleton_self x)
  have hown : tasks false [x] = [] := by simp [tasks, Item.taskFrom, hx]
  have harrived := flow.arrived
  have htagged := flow.tagged
  rw [hv] at harrived htagged
  exact { flow with
    own := by
      rw [← append_assoc v.worker.items, ← append_assoc, tasks_append, hown, append_nil]
      exact flow.own
    arrived := by
      show tasks true (v.consumed ++ (v.worker.items ++ (v.ready_fifo ++ [x])) ++ []) = _
      rw [← harrived, append_nil, ← append_assoc v.worker.items, ← append_assoc]
      rfl
    tagged := fun y hy => htagged y (by simpa [items, or_assoc] using hy)
    received := nofun }

theorem receiver_items (r : Receiver α) (hv : v.receiver.items = [])
    (hr : r.items = []) : Flow p { v with receiver := r } :=
  { flow with
    arrived := by
      rw [hr, ← hv]
      exact flow.arrived
    tagged := by
      rw [hr, ← hv]
      exact flow.tagged
    received := by
      rw [hr]
      nofun }

end

/-- **A step neither loses nor doubles a tuple**, and frees a buffer to where it belongs. -/
theorem trans (hone : X.producers p = 1) (inv : Phase X v) (flow : Flow p v)
    (hread : ∀ m rest, inc = m :: rest → (next X v.heard m).isSome)
    (ht : Trans X p v inc v' inc') : Flow p v' := by
  cases ht with
  | die => exact { flow with }
  | acquire hi hp hx =>
    refine flow.setProducer fun b h => ?_
    subst h
    obtain h | h := hx <;> cases h
  | @pop _ b rest hi hp hb =>
    have hpool : ∀ b' ∈ b :: rest, b' &&& 1#64 = 0#64 := hb ▸ flow.pool
    exact { flow with
      pool := fun b' hb' => hpool b' (mem_cons_of_mem _ hb')
      holding := flow.holding_update fun b' h => by
        cases h
        exact hpool b mem_cons_self }
  | @keep i a b hi hp => exact (flow.keep (flow.holding i b hp) a).setProducer nofun
  | ship hi hp => exact (flow.ship _).setProducer nofun
  | close | closeFifo | flushEnd | leave | flushDone | cleanUp => exact flow.control.setProducer nofun
  | drained | join => exact flow.setProducer nofun
  | endOfStream hi hp => exact (write_none flow.control rfl).setProducer nofun
  | done hi hp => exact (flow.write_none rfl).setProducer nofun
  | @wait i rem m _ hi hp hinc =>
    obtain ⟨hr, hm⟩ := inv.task_of_wait hone hi hp (hread _ _ hinc)
    have flow' : Flow p { v with got := v.got ++ [m], receiver := v.receiver } :=
      flow.read (by rw [hr]; rfl) (by rw [hr, hm]; rfl) (by rw [hr]; nofun) (by rw [hr]; nofun)
    exact flow'.setProducer nofun
  | @carve j hw hj =>
    have hx := mem_add_even X p j
    refine (flow.freeBuffer ⟨hx, rfl⟩).work (.carving (j + 1)) v.ready_fifo v.consumed ?_ ?_
    · show _ = v.consumed ++ (v.worker.items ++ v.ready_fifo)
      rw [hw]
      rfl
    · exact subset_append_right _ _
  | start hw | stop hw | finish hw =>
    exact flow.work _ _ _ (by rw [hw]; rfl) (by rw [hw]; exact List.Subset.refl _)
  | take hw hr => exact flow.work _ _ _ (by rw [hw, hr]; rfl) (by rw [hw, hr]; exact List.Subset.refl _)
  | @consume x hw =>
    have hx : x.Tagged := flow.tagged x (by rw [hw]; simp [Worker.items])
    refine (flow.freeBuffer hx).work .running v.ready_fifo (v.consumed ++ [x]) ?_ ?_
    · show _ = v.consumed ++ (v.worker.items ++ v.ready_fifo)
      rw [hw, append_assoc]
      rfl
    · exact subset_append_right _ _
  | @reclaim k b rest hw hk hb =>
    have flow' : Flow p { v with free_pool := rest } :=
      { flow with pool := fun b' hb' => flow.pool b' (hb ▸ mem_cons_of_mem _ hb') }
    exact flow'.work (.reclaiming (k + 1)) _ _ (by rw [hw]; rfl) (by rw [hw]; exact List.Subset.refl _)
  | @arrive addr m _ hv hinc ha hm =>
    refine flow.read (by rw [hv]; rfl) ?_ ?_ ?_
    · cases m.task <;> rfl
    · intro x hx
      rw [mem_singleton.1 hx]
      exact ⟨ha, rfl⟩
    · intro x hx
      rw [mem_singleton.1 hx]
  | @ended m _ hv hinc hm =>
    have hr : items (if v.closed + 1 = 2 then .closeFifo else .finished : Receiver α) = [] := by
      split_ifs <;> rfl
    have htask := inv.task_of_three hv (hread _ _ hinc) hm
    have flow' := flow.read
      (by rw [hv]; rfl) (by rw [hr, htask]; rfl) (by rw [hr]; nofun) (by rw [hr]; nofun)
    exact { flow' with }
  | @push x hv => exact flow.push hv
  | closeReady hv => exact (flow.receiver_items .drain (by rw [hv]; rfl) rfl).control
  | receiverDone hv => exact flow.receiver_items .finished (by rw [hv]; rfl) rfl
  | flush h => exact { flow with }

end Flow

/-! ## The buffers of a server -/

/-- The number of buffers the worker has carved, and of those it has taken back. -/
def Worker.carved (slack : ℕ) : Worker α → ℕ
  | .carving j => j
  | _ => slack

def Worker.reclaimed (slack : ℕ) : Worker α → ℕ
  | .reclaiming k => k
  | .finished => slack
  | _ => 0

def Producer.held : Producer → ℕ
  | .holding _ => 1
  | _ => 0

/-- The number of items in buffers of the pool. -/
def pooled (xs : List (Item α)) : ℕ := xs.countP (!·.arrived)

/-- `n` carved buffers are left. -/
def Balance (slack n : ℕ) (w : Worker α) : Prop :=
  n + w.reclaimed slack = w.carved slack ∧ w.carved slack ≤ slack

/-- Every carved buffer is in the pool, held, used or taken back. -/
def Count (X : Exchange) (v : Server α) : Prop :=
  Balance X.slack (v.free_pool.length + (v.producer 0).held +
    (pooled v.worker.items + pooled v.ready_fifo)) v.worker

theorem pooled_append (xs ys : List (Item α)) : pooled (xs ++ ys) = pooled xs + pooled ys :=
  countP_append

theorem pooled_cons (x : Item α) (xs : List (Item α)) : pooled (x :: xs) = pooled [x] + pooled xs :=
  pooled_append [x] xs

namespace Count

/-- The producer moves on, and neither gets a buffer nor gives one away. -/
theorem moved (count : Count X v) {w : Server α} {x : Producer}
    (hw : w.free_pool = v.free_pool ∧ w.ready_fifo = v.ready_fifo ∧ w.worker = v.worker)
    (hx : x.held = (v.producer 0).held) : Count X (w.setProducer 0 x) := by
  show Balance X.slack (w.free_pool.length + x.held + (pooled w.worker.items + pooled w.ready_fifo)) w.worker
  rwa [hx, hw.1, hw.2.1, hw.2.2]

/-- A buffer that is freed goes to the pool if it is one of the pool's. -/
theorem length_freeBuffer (hx : x.Tagged) :
    (v.freeBuffer x).free_pool.length = v.free_pool.length + pooled [x] := by
  have heven := hx.even_iff
  simp only [freeBuffer]
  cases harr : x.arrived with
  | false =>
    rw [if_pos (heven.2 harr)]
    simp [pooled, harr]
  | true =>
    rw [if_neg (by rw [heven, harr]; nofun)]
    simp [pooled, harr]

theorem trans (hone : X.producers p = 1) (flow : Flow p v) (count : Count X v)
    (ht : Trans X p v inc v' inc') : Count X v' := by
  have hzero : ∀ {i}, i < X.producers p → i = 0 := fun hi => by omega
  cases ht with
  | die => exact count
  | acquire hi hp hx =>
    obtain rfl := hzero hi
    refine count.moved ⟨rfl, rfl, rfl⟩ ?_
    rw [hp]
    obtain rfl | rfl := hx <;> rfl
  | @pop _ b rest hi hp hb =>
    obtain rfl := hzero hi
    rwa [Count, hp, hb] at count
  | @keep _ a b hi hp =>
    obtain rfl := hzero hi
    show Balance X.slack (_ + 0 + (_ + pooled (v.ready_fifo ++ [⟨b, false, b, some a⟩]))) v.worker
    rw [Count, hp] at count
    rwa [pooled_append, ← add_assoc (pooled _), ← add_assoc, add_right_comm]
  | @ship _ a hi hp =>
    obtain rfl := hzero hi
    refine count.moved ?_ (congrArg Producer.held hp).symm
    unfold ship
    dsimp only
    split_ifs <;> exact ⟨rfl, rfl, rfl⟩
  | close hi hp | closeFifo hi hp | drained hi hp | endOfStream hi hp | flushEnd hi hp | leave hi hp
  | join hi hp | done hi hp | flushDone hi hp | wait hi hp | cleanUp hi hp =>
    obtain rfl := hzero hi
    exact count.moved ⟨rfl, rfl, rfl⟩ (congrArg Producer.held hp).symm
  | @carve j hw hj =>
    rw [Count, hw] at count
    obtain ⟨htotal, -⟩ := count
    refine ⟨?_, hj⟩
    rw [length_freeBuffer ⟨mem_add_even X p j, rfl⟩, add_right_comm _ (pooled _), add_right_comm _ (pooled _),
      add_right_comm _ (pooled _)]
    exact congrArg Nat.succ htotal
  | @start j hw hj =>
    rw [Count, hw] at count
    obtain ⟨htotal, hle⟩ := count
    have hslack : j = X.slack := le_antisymm hle hj
    exact ⟨htotal.trans hslack, le_rfl⟩
  | @take x rest hw hr =>
    rw [Count, hw, hr] at count
    show Balance X.slack (_ + _ + (pooled [x] + pooled rest)) (.consuming x)
    rwa [← pooled_cons, ← zero_add (pooled (x :: rest))]
  | stop hw hr hterm =>
    rwa [Count, hw] at count
  | @consume x hw =>
    have hx : x.Tagged := flow.tagged x (by rw [hw]; simp [Worker.items])
    rw [Count, hw] at count
    show Balance X.slack ((v.freeBuffer x).free_pool.length + _ + (0 + pooled v.ready_fifo)) .running
    rwa [length_freeBuffer hx, zero_add, add_right_comm _ (pooled [x]), add_assoc _ (pooled [x])]
  | @reclaim k b rest hw hk hb =>
    rw [Count, hw, hb] at count
    obtain ⟨htotal, hle⟩ := count
    refine ⟨?_, hle⟩
    rwa [length_cons, add_right_comm _ 1, add_right_comm _ 1, add_assoc, add_comm 1] at htotal
  | @finish k hw hk =>
    rw [Count, hw] at count
    obtain ⟨htotal, hle⟩ := count
    have hk' : k = X.slack := le_antisymm ((Nat.le_add_left _ _).trans htotal.le) hk
    refine ⟨?_, hle⟩
    rwa [hk'] at htotal
  | @push x hv =>
    have hx : x.arrived = true := flow.received x (by rw [hv]; exact mem_singleton_self x)
    have hpooled : pooled [x] = 0 := by simp [pooled, hx]
    show Balance X.slack (_ + _ + (_ + pooled (v.ready_fifo ++ [x]))) v.worker
    rwa [pooled_append, hpooled, add_zero]
  | arrive | ended | closeReady | receiverDone | flush => exact count

end Count

end Proteus.Routing.ScaleOut
