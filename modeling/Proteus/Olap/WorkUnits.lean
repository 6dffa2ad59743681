import Proteus.Machine

/-!
# Work units of `MemMoveDevice`

The producer of a memory move acquires an idle work unit, attaches transfers to it and propagates it to
the catcher, a thread that takes the units in that order, waits for their transfers, consumes them and puts
them back. There are three kinds of transfers: reads by `io_uring`, which count in `complete` and whose
callbacks run when the producer polls; operations on the stream of the unit (decompression); and copies
between memory and a GPU on the stream `strm`, which all units share. An event is recorded on `strm` when a
unit is propagated.

`getPropagated` waits for that event, but not if the relation comes from NVMe: then it waits for the
stream of the unit and for `complete` only. So a copy of a block that is in memory already, as for the
second move of a plan that stages pages in CPU memory, may be under way when its unit is consumed
(`consumed_before_copied`).

The two queues are `AsyncQueueSPSC`s, whose consumer keeps up to eight elements in a cache of its own.
`acquired` and `handed` are history variables.

Results:

* `Inv.step`: units are conserved and handed over in order, and their reads and decompressions are done;
* `closes`: from the call of `close` on every run is finite, and it ends with all units back;
* `work_units`: the protocol holds as long as no copy is attached to a unit of an NVMe relation, and each
  such copy can be under way when its unit is consumed.
-/

namespace Proteus.WorkUnits

open Function List

/-! ## `AsyncQueueSPSC` -/

/-- The queue; `cache` is what the consumer has taken out of `data` in advance. -/
structure Queue (α : Type*) where
  data : List α
  cache : List α
  terminating : Bool

namespace Queue

variable {α : Type*} {q q' : Queue α} {x : α}

/-- What is in the queue, in the order in which it will be popped. -/
def contents (q : Queue α) : List α := q.cache ++ q.data

attribute [local simp] contents

def push (q : Queue α) (x : α) : Queue α := { q with data := q.data ++ [x] }

/-- `pop`: nothing while it has to wait, and `none` when the queue was closed. -/
def pop (q : Queue α) : Option (Option α × Queue α) :=
  match q.cache, q.data with
  | x :: cache, _ => some (some x, { q with cache })
  | [], x :: data => some (some x, { q with cache := data.take 8, data := data.drop 8 })
  | [], [] => if q.terminating then some (none, q) else none

/-- `pop_unsafe`, which has to find something. -/
def popUnsafe (q : Queue α) : Option (α × Queue α) :=
  match q.cache, q.data with
  | x :: cache, _ => some (x, { q with cache })
  | [], x :: data => some (x, { q with data })
  | [], [] => none

@[simp] theorem contents_push (q : Queue α) (x : α) : (q.push x).contents = q.contents ++ [x] := by
  simp [push]

/-- A queue is a queue: elements leave it in the order in which they were pushed. -/
theorem pop_some (h : q.pop = some (some x, q')) :
    q.contents = x :: q'.contents ∧ q'.terminating = q.terminating := by
  unfold pop at h
  split at h
  · next hc => cases h; exact ⟨by simp [hc], rfl⟩
  · next hc hd => cases h; exact ⟨by simp [hc, hd], rfl⟩
  · split_ifs at h
    cases h

theorem pop_none (h : q.pop = some (none, q')) : q.contents = [] ∧ q.terminating = true ∧ q' = q := by
  unfold pop at h
  split at h
  · cases h
  · cases h
  · next hc hd =>
    split_ifs at h with ht
    cases h
    exact ⟨by simp [hc, hd], ht, rfl⟩

theorem exists_pop {l : List α} (h : q.contents = x :: l) : ∃ q', q.pop = some (some x, q') := by
  cases hc : q.cache with
  | cons y cache =>
    rw [contents, hc, cons_append, cons.injEq] at h
    exact ⟨{ q with cache }, by rw [pop, hc, h.1]⟩
  | nil =>
    rw [contents, hc, nil_append] at h
    exact ⟨{ q with cache := l.take 8, data := l.drop 8 }, by rw [pop, hc, h]⟩

theorem pop_of_terminating (h : q.contents = []) (ht : q.terminating = true) : q.pop = some (none, q) := by
  obtain ⟨hc, hd⟩ := append_eq_nil_iff.1 h
  rw [pop, hc, hd]
  exact if_pos ht

theorem popUnsafe_some (h : q.popUnsafe = some (x, q')) : q.contents = x :: q'.contents := by
  unfold popUnsafe at h
  split at h
  · next hc => cases h; simp [hc]
  · next hc hd => cases h; simp [hc, hd]
  · cases h

theorem exists_popUnsafe (h : q.contents ≠ []) : ∃ x q', q.popUnsafe = some (x, q') := by
  cases hc : q.cache with
  | cons y cache => exact ⟨_, _, by rw [popUnsafe, hc]⟩
  | nil =>
    cases hd : q.data with
    | cons y data => exact ⟨_, _, by rw [popUnsafe, hc, hd]⟩
    | nil => exact absurd (by rw [contents, hc, hd]; rfl) h

end Queue

/-! ## Model -/

/-- How the operator was opened: `io_uring` is created only for NVMe relations. -/
structure Config where
  slack : ℕ
  nvme : Bool
  io_uring : Bool
  io_uring_nvme : io_uring = true → nvme = true

/-- Where the producer stands. -/
inductive Producer
  | out
  /-- in `make_mem_move_device`, with a unit it has acquired -/
  | attach (u : ℕ)
  /-- in the loop of `propagate` -/
  | polling
  /-- in `close`, at `flush` -/
  | flushing
  /-- at `tran.close` -/
  | closing
  /-- at `worker.get` -/
  | joining
  /-- has popped `i` units -/
  | releasing (i : ℕ)
  | closed
  deriving DecidableEq

/-- Where the catcher stands. -/
inductive Catcher
  /-- at `tran.pop` -/
  | ready
  /-- in `getPropagated`, with a unit it has popped -/
  | waiting (u : ℕ)
  | consuming (u : ℕ)
  | finished
  deriving DecidableEq

/-- What is queued on `strm`. -/
inductive Item
  | copy (u : ℕ)
  | event (u : ℕ)
  deriving DecidableEq

structure State where
  idle : Queue ℕ
  tran : Queue ℕ
  complete : ℕ → ℕ
  /-- reads the kernel has, by their units -/
  kernel : List ℕ
  /-- reads that are done, and whose callbacks have not run -/
  cq : List ℕ
  strm : List Item
  /-- operations on the streams of the units -/
  cufile_strm : ℕ → ℕ
  producer : Producer
  catcher : Catcher
  acquired : List ℕ
  handed : List ℕ

inductive Action
  | acquire
  | read
  | decompress
  | copy
  | propagate
  /-- a callback runs while the producer polls -/
  | callback
  /-- the producer leaves the loop of `propagate` -/
  | leave
  | close
  /-- the producer goes on with `close` -/
  | goOn
  /-- `tran.pop` of the catcher -/
  | pop
  /-- `getPropagated` returns a unit -/
  | hand
  | release
  /-- the kernel completes a read of `u` -/
  | kernel (u : ℕ)
  /-- the first item of `strm` is done -/
  | stream
  /-- an operation on the stream of `u` is done -/
  | unitStream (u : ℕ)

def init (cfg : Config) : State where
  idle := ⟨List.range cfg.slack, [], false⟩
  tran := ⟨[], [], false⟩
  complete _ := 0
  kernel := []
  cq := []
  strm := []
  cufile_strm _ := 0
  producer := .out
  catcher := .ready
  acquired := []
  handed := []

/-- The producer runs callbacks: in `read`, when no slot is free, in `propagate` and in `flush`. -/
def Producer.polls : Producer → Bool
  | .attach _ | .polling | .flushing => true
  | _ => false

/-- The next step of `close`. -/
def closeStep (cfg : Config) (s : State) : Option State :=
  match s.producer with
  | .flushing =>
    if s.kernel = [] ∧ s.cq = [] then
      some { s with producer := .closing, tran := { s.tran with terminating := true } }
    else none
  | .closing => if s.tran.contents = [] then some { s with producer := .joining } else none
  | .joining => if s.catcher = .finished then some { s with producer := .releasing 0 } else none
  | .releasing i =>
    if i < cfg.slack then
      s.idle.popUnsafe.map fun r => { s with producer := .releasing (i + 1), idle := r.2 }
    else if s.idle.contents = [] then some { s with producer := .closed }
    else none
  | _ => none

def step (cfg : Config) (s : State) : Action → Option State
  | .acquire =>
    match s.producer, s.idle.pop with
    | .out, some (some u, idle) =>
      some { s with
        producer := .attach u
        idle
        complete := update s.complete u 0
        acquired := s.acquired ++ [u] }
    | _, _ => none
  | .read =>
    match s.producer with
    | .attach u =>
      if cfg.io_uring then
        some { s with
          complete := update s.complete u (s.complete u + 1)
          kernel := s.kernel ++ [u] }
      else none
    | _ => none
  | .decompress =>
    match s.producer with
    | .attach u =>
      if cfg.nvme then
        some { s with cufile_strm := update s.cufile_strm u (s.cufile_strm u + 1) }
      else none
    | _ => none
  | .copy =>
    match s.producer with
    | .attach u => some { s with strm := s.strm ++ [.copy u] }
    | _ => none
  | .propagate =>
    match s.producer with
    | .attach u =>
      some { s with
        producer := if cfg.io_uring then .polling else .out
        strm := s.strm ++ [.event u]
        tran := s.tran.push u }
    | _ => none
  | .callback =>
    match s.producer.polls, s.cq with
    | true, u :: cq => some { s with cq, complete := update s.complete u (s.complete u - 1) }
    | _, _ => none
  | .leave =>
    if s.producer = .polling ∧ s.idle.contents ≠ [] then some { s with producer := .out } else none
  | .close =>
    if s.producer = .out then
      if cfg.io_uring then some { s with producer := .flushing }
      else some { s with producer := .closing, tran := { s.tran with terminating := true } }
    else none
  | .goOn => closeStep cfg s
  | .pop =>
    match s.catcher, s.tran.pop with
    | .ready, some (some u, tran) => some { s with catcher := .waiting u, tran }
    | .ready, some (none, _) => some { s with catcher := .finished }
    | _, _ => none
  | .hand =>
    match s.catcher with
    | .waiting u =>
      if if cfg.nvme then s.cufile_strm u = 0 ∧ s.complete u = 0 else .event u ∉ s.strm then
        some { s with catcher := .consuming u, handed := s.handed ++ [u] }
      else none
    | _ => none
  | .release =>
    match s.catcher with
    | .consuming u => some { s with catcher := .ready, idle := s.idle.push u }
    | _ => none
  | .kernel u =>
    if u ∈ s.kernel then some { s with kernel := s.kernel.erase u, cq := s.cq ++ [u] } else none
  | .stream =>
    match s.strm with
    | [] => none
    | _ :: strm => some { s with strm }
  | .unitStream u =>
    if 0 < s.cufile_strm u then
      some { s with cufile_strm := update s.cufile_strm u (s.cufile_strm u - 1) }
    else none

/-! ## What a step does -/

variable {cfg : Config} {s s' : State} {a : Action}

/-- The steps, with what they need. -/
inductive Trans (cfg : Config) (s : State) : Action → State → Prop
  | acquire (u : ℕ) (idle : Queue ℕ) : s.producer = .out → s.idle.pop = some (some u, idle) →
      Trans cfg s .acquire
        { s with
          producer := .attach u
          idle
          complete := update s.complete u 0
          acquired := s.acquired ++ [u] }
  | read (u : ℕ) : s.producer = .attach u → cfg.io_uring = true →
      Trans cfg s .read
        { s with
          complete := update s.complete u (s.complete u + 1)
          kernel := s.kernel ++ [u] }
  | decompress (u : ℕ) : s.producer = .attach u → cfg.nvme = true →
      Trans cfg s .decompress
        { s with cufile_strm := update s.cufile_strm u (s.cufile_strm u + 1) }
  | copy (u : ℕ) : s.producer = .attach u →
      Trans cfg s .copy { s with strm := s.strm ++ [.copy u] }
  | propagate (u : ℕ) : s.producer = .attach u →
      Trans cfg s .propagate
        { s with
          producer := if cfg.io_uring then .polling else .out
          strm := s.strm ++ [.event u]
          tran := s.tran.push u }
  | callback (u : ℕ) (cq : List ℕ) : s.producer.polls = true → s.cq = u :: cq →
      Trans cfg s .callback
        { s with cq, complete := update s.complete u (s.complete u - 1) }
  | leave : s.producer = .polling → s.idle.contents ≠ [] →
      Trans cfg s .leave { s with producer := .out }
  | flush : s.producer = .out → cfg.io_uring = true →
      Trans cfg s .close { s with producer := .flushing }
  | terminate (a : Action) :
      a = .close ∧ s.producer = .out ∧ cfg.io_uring = false ∨
        a = .goOn ∧ s.producer = .flushing ∧ s.kernel = [] ∧ s.cq = [] →
      Trans cfg s a { s with producer := .closing, tran := { s.tran with terminating := true } }
  | join : s.producer = .closing → s.tran.contents = [] →
      Trans cfg s .goOn { s with producer := .joining }
  | joined : s.producer = .joining → s.catcher = .finished →
      Trans cfg s .goOn { s with producer := .releasing 0 }
  | free (i u : ℕ) (idle : Queue ℕ) : s.producer = .releasing i → i < cfg.slack →
      s.idle.popUnsafe = some (u, idle) →
      Trans cfg s .goOn { s with producer := .releasing (i + 1), idle }
  | closed (i : ℕ) : s.producer = .releasing i → cfg.slack ≤ i → s.idle.contents = [] →
      Trans cfg s .goOn { s with producer := .closed }
  | pop (u : ℕ) (tran : Queue ℕ) : s.catcher = .ready → s.tran.pop = some (some u, tran) →
      Trans cfg s .pop { s with catcher := .waiting u, tran }
  | finish (tran : Queue ℕ) : s.catcher = .ready → s.tran.pop = some (none, tran) →
      Trans cfg s .pop { s with catcher := .finished }
  | hand (u : ℕ) : s.catcher = .waiting u →
      (if cfg.nvme then s.cufile_strm u = 0 ∧ s.complete u = 0 else .event u ∉ s.strm) →
      Trans cfg s .hand { s with catcher := .consuming u, handed := s.handed ++ [u] }
  | release (u : ℕ) : s.catcher = .consuming u →
      Trans cfg s .release { s with catcher := .ready, idle := s.idle.push u }
  | kernel (u : ℕ) : u ∈ s.kernel →
      Trans cfg s (.kernel u) { s with kernel := s.kernel.erase u, cq := s.cq ++ [u] }
  | stream (x : Item) (strm : List Item) : s.strm = x :: strm → Trans cfg s .stream { s with strm }
  | unitStream (u : ℕ) : 0 < s.cufile_strm u →
      Trans cfg s (.unitStream u)
        { s with cufile_strm := update s.cufile_strm u (s.cufile_strm u - 1) }

theorem trans_of_closeStep (h : closeStep cfg s = some s') : Trans cfg s .goOn s' := by
  unfold closeStep at h
  split at h
  case h_4 i hp =>
    split_ifs at h with hi hq
    · obtain ⟨⟨u, idle⟩, hpop, rfl⟩ := Option.map_eq_some_iff.1 h
      exact .free i u idle hp hi hpop
    · cases h
      exact .closed i hp (not_lt.1 hi) hq
  case h_5 => cases h
  all_goals
    split_ifs at h with hq
    cases h
  · exact .terminate _ (.inr ⟨rfl, ‹_›, hq⟩)
  · exact .join ‹_› hq
  · exact .joined ‹_› hq

theorem trans_of_step (h : step cfg s a = some s') : Trans cfg s a s' := by
  cases a <;> simp only [step] at h
  case acquire | copy | propagate | callback | release | stream =>
    split at h <;> cases h
    constructor <;> assumption
  case read | decompress =>
    split at h <;> try cases h
    split_ifs at h
    cases h
    constructor <;> assumption
  case leave =>
    split_ifs at h with hp
    cases h
    exact .leave hp.1 hp.2
  case close =>
    split_ifs at h with hp hio <;> cases h
    · exact .flush hp hio
    · exact .terminate _ (.inl ⟨rfl, hp, by simpa using hio⟩)
  case goOn => exact trans_of_closeStep h
  case pop =>
    split at h <;> cases h
    · exact .pop _ _ ‹_› ‹_›
    · exact .finish _ ‹_› ‹_›
  case hand =>
    split at h <;> try cases h
    split_ifs at h with hnvme hdone hdone <;> cases h
    · exact .hand _ ‹_› (by rwa [if_pos hnvme])
    · exact .hand _ ‹_› (by rwa [if_neg hnvme])
  case kernel | unitStream =>
    split_ifs at h
    cases h
    constructor
    assumption

/-! ## The protocol -/

/-- The unit the producer has. -/
@[simp] def Producer.attached : Producer → List ℕ
  | .attach u => [u]
  | _ => []

/-- How far `close` has come. -/
@[simp] def Producer.phase : Producer → ℕ
  | .out | .attach _ | .polling => 0
  | .flushing => 1
  | .closing => 2
  | .joining => 3
  | .releasing _ => 4
  | .closed => 5

/-- The unit the catcher has not got yet. -/
@[simp] def Catcher.waits : Catcher → List ℕ
  | .waiting u => [u]
  | _ => []

/-- The unit the catcher has. -/
@[simp] def Catcher.holds : Catcher → List ℕ
  | .waiting u | .consuming u => [u]
  | _ => []

/-- Where the units are. -/
structure Flow (cfg : Config) (s : State) : Prop where
  order : s.acquired = s.handed ++ s.catcher.waits ++ s.tran.contents ++ s.producer.attached
  units : s.producer.phase < 4 → ∀ u, s.idle.contents.count u + s.tran.contents.count u +
    s.catcher.holds.count u + s.producer.attached.count u = if u < cfg.slack then 1 else 0
  terminating : s.tran.terminating = true ↔ 2 ≤ s.producer.phase
  finished : s.catcher = .finished → s.tran.contents = [] ∧ s.tran.terminating = true
  drained : 3 ≤ s.producer.phase → s.tran.contents = []
  joined : 4 ≤ s.producer.phase → s.catcher = .finished
  freed : ∀ i, s.producer = .releasing i → s.idle.contents.length + i = cfg.slack

open Queue Producer

variable {u : ℕ} {p : Producer}

namespace Flow

theorem init (cfg : Config) : Flow cfg (init cfg) where
  order := rfl
  units _ u := by simp [WorkUnits.init, contents, Catcher.holds, attached, count_range]
  terminating := by simp [WorkUnits.init]
  finished := nofun
  drained := nofun
  joined := nofun
  freed := nofun

variable (flow : Flow cfg s)
include flow

/-- The producer goes on, with no unit before and after. -/
theorem move (hs : s.producer.attached = []) (hp : p.attached = [])
    (hle : p.phase < 4 → s.producer.phase < 4) (ht : s.tran.terminating = true ↔ 2 ≤ p.phase)
    (hdrained : 3 ≤ p.phase → s.tran.contents = []) (hjoined : 4 ≤ p.phase → s.catcher = .finished)
    (hfreed : ∀ i, p = .releasing i → s.idle.contents.length + i = cfg.slack) :
    Flow cfg { s with producer := p } where
  order := by rw [flow.order, hs, hp]
  units hlt u := by rw [← flow.units (hle hlt) u, hs, hp]
  terminating := ht
  finished := flow.finished
  drained := hdrained
  joined := hjoined
  freed := hfreed

theorem length_idle (hp : s.producer = .joining) (hc : s.catcher = .finished) :
    s.idle.contents.Perm (List.range cfg.slack) := by
  refine perm_iff_count.2 fun u => ?_
  have hunits := flow.units (by simp [hp]) u
  rw [hp, hc, (flow.finished hc).1] at hunits
  simpa [count_range] using hunits

theorem step (hstep : WorkUnits.step cfg s a = some s') : Flow cfg s' := by
  cases trans_of_step hstep with
  | acquire u idle hp hpop =>
    obtain ⟨hidle, -⟩ := pop_some hpop
    have horder := flow.order
    have hterminating := flow.terminating
    rw [hp] at horder hterminating
    refine ⟨?_, fun _ v => ?_, hterminating, flow.finished, by simp, by simp, by simp⟩
    · rw [horder]
      simp
    · have hunits := flow.units (by simp [hp]) v
      rw [hp, hidle, count_cons] at hunits
      simp only [attached, count_singleton, count_nil] at hunits ⊢
      omega
  | propagate u hp =>
    obtain ⟨q, hq, hphase, hattached⟩ : ∃ q, (if cfg.io_uring then polling else .out) = q ∧
        q.phase = 0 ∧ q.attached = [] := ⟨_, rfl, by split_ifs <;> rfl, by split_ifs <;> rfl⟩
    have horder := flow.order
    have hterminating := flow.terminating
    rw [hp] at horder hterminating
    rw [hq]
    refine ⟨?_, fun _ v => ?_, by rwa [hphase], fun hc => ?_, by rw [hphase]; nofun,
      by rw [hphase]; nofun, fun i hi => ?_⟩
    · rw [horder, hattached, contents_push]
      simp
    · have hunits := flow.units (by simp [hp]) v
      rw [hp] at hunits
      rw [hattached]
      simp only [attached, contents_push, count_append, count_nil] at hunits ⊢
      omega
    · simpa using hterminating.1 (flow.finished hc).2
    · rw [show q = _ from hi] at hphase
      cases hphase
  | leave hp | flush hp =>
    exact flow.move (by simp [hp]) rfl (by simp [hp]) (by simp [flow.terminating, hp]) (by simp) (by simp)
      (by simp)
  | terminate a ha =>
    have hp : s.producer.attached = [] ∧ s.producer.phase < 4 := by
      rcases ha with ⟨-, hp, -⟩ | ⟨-, hp, -⟩ <;> simp [hp]
    refine ⟨?_, fun _ u => ?_, by simp, fun hc => ⟨(flow.finished hc).1, rfl⟩, by simp, by simp, by simp⟩
    · rw [flow.order, hp.1]
      rfl
    · rw [← flow.units hp.2 u, hp.1]
      rfl
  | join hp htran =>
    exact flow.move (by simp [hp]) rfl (by simp [hp]) (by simp [flow.terminating, hp]) (fun _ => htran)
      (by simp) (by simp)
  | joined hp hc =>
    refine flow.move (by simp [hp]) rfl (by simp) (by simp [flow.terminating, hp])
      (fun _ => flow.drained (by simp [hp])) (fun _ => hc) fun i hi => ?_
    cases hi
    simpa using (flow.length_idle hp hc).length_eq
  | free i u idle hp hi hpop =>
    have hfreed := flow.freed i hp
    rw [popUnsafe_some hpop, length_cons] at hfreed
    refine ⟨?_, by simp, ?_, flow.finished, fun _ => flow.drained (by simp [hp]),
      fun _ => flow.joined (by simp [hp]), fun j hj => ?_⟩
    · simpa [hp] using flow.order
    · simp [flow.terminating, hp]
    · cases hj
      simp only
      omega
  | closed i hp hi hidle =>
    exact flow.move (by simp [hp]) rfl (by simp) (by simp [flow.terminating, hp])
      (fun _ => flow.drained (by simp [hp])) (fun _ => flow.joined (by simp [hp])) (by simp)
  | pop u tran hc hpop =>
    obtain ⟨htran, hterminating⟩ := pop_some hpop
    have hphase : s.producer.phase < 3 := by
      by_contra hge
      rw [flow.drained (by omega)] at htran
      cases htran
    refine ⟨?_, fun hlt v => ?_, by rw [hterminating]; exact flow.terminating, by simp, fun hle => ?_,
      fun hle => ?_, flow.freed⟩
    · simpa [hc, htran] using flow.order
    · have hunits := flow.units hlt v
      rw [hc, htran, count_cons] at hunits
      simp only [Catcher.holds, count_singleton, count_nil] at hunits ⊢
      omega
    · exact absurd hle (not_le.2 hphase)
    · exact absurd hle (by simp only; omega)
  | finish tran hc hpop =>
    obtain ⟨htran, hterminating, -⟩ := pop_none hpop
    refine ⟨?_, fun hlt u => ?_, flow.terminating, fun _ => ⟨htran, hterminating⟩, flow.drained,
      fun _ => rfl, flow.freed⟩
    · simpa [hc] using flow.order
    · simpa [hc] using flow.units hlt u
  | hand u hc hdone =>
    refine ⟨?_, fun hlt v => ?_, flow.terminating, by simp, flow.drained, fun hle => ?_, flow.freed⟩
    · simpa [hc] using flow.order
    · simpa [hc] using flow.units hlt v
    · rw [flow.joined hle] at hc
      cases hc
  | release u hc =>
    have hphase : s.producer.phase < 4 := by
      by_contra hge
      rw [flow.joined (by omega)] at hc
      cases hc
    refine ⟨?_, fun hlt v => ?_, flow.terminating, by simp, flow.drained,
      fun hle => absurd hle (not_le.2 hphase), fun i hi => ?_⟩
    · simpa [hc] using flow.order
    · have hunits := flow.units hlt v
      rw [hc] at hunits
      rw [contents_push, count_append]
      simp only [Catcher.holds, count_nil] at hunits ⊢
      omega
    · simp only at hi
      rw [hi] at hphase
      simp at hphase
  | _ => exact { flow with }

/-- The unit the producer has is nowhere else. -/
theorem attached (hp : s.producer = .attach u) :
    u < cfg.slack ∧ u ∉ s.idle.contents ∧ u ∉ s.catcher.holds := by
  have hunits := flow.units (by simp [hp]) u
  simp only [hp, Producer.attached, count_singleton_self] at hunits
  have hlt : u < cfg.slack := by
    by_contra hge
    rw [if_neg hge] at hunits
    omega
  rw [if_pos hlt] at hunits
  exact ⟨hlt, count_eq_zero.1 (by omega), count_eq_zero.1 (by omega)⟩

theorem consuming_ne (hp : s.producer = .attach u) (v : ℕ) (hv : s.catcher = .consuming v) : v ≠ u := by
  rintro rfl
  exact (flow.attached hp).2.2 (by simp [hv])

end Flow

/-- Behind every copy for the unit there is an event of it. -/
def Sealed (u : ℕ) (strm : List Item) : Prop :=
  ∀ l, l <:+ strm → .copy u ∈ l → .event u ∈ l

namespace Sealed

variable {strm : List Item} {x : Item}

theorem snoc (h : Sealed u strm) (hx : x ≠ .copy u) : Sealed u (strm ++ [x]) := by
  intro l hl hcopy
  rcases suffix_concat_iff.1 hl with rfl | ⟨l', rfl, hl'⟩
  · cases hcopy
  · have hmem : Item.copy u ∈ l' := by simpa [hx.symm] using hcopy
    exact mem_append_left _ (h l' hl' hmem)

theorem snoc_event (u : ℕ) (strm : List Item) : Sealed u (strm ++ [.event u]) := by
  intro l hl hcopy
  rcases suffix_concat_iff.1 hl with rfl | ⟨l', rfl, -⟩
  · cases hcopy
  · exact mem_append_right _ (mem_singleton_self _)

theorem tail (h : Sealed u (x :: strm)) : Sealed u strm :=
  fun l hl => h l (hl.trans (suffix_cons x strm))

theorem not_mem (h : Sealed u strm) (hevent : .event u ∉ strm) : .copy u ∉ strm :=
  fun hcopy => hevent (h strm (suffix_refl strm) hcopy)

end Sealed

/-- How far the transfers are. -/
structure Transfers (cfg : Config) (s : State) : Prop where
  complete : ∀ u, s.complete u = s.kernel.count u + s.cq.count u
  noReads : cfg.io_uring = false → s.kernel = [] ∧ s.cq = []
  flushed : 2 ≤ s.producer.phase → s.kernel = [] ∧ s.cq = []
  noStreams : ∀ u, cfg.nvme = false ∨ cfg.slack ≤ u → s.cufile_strm u = 0
  resting : ∀ u ∈ s.idle.contents, s.complete u = 0
  sealed : ∀ u, s.producer ≠ .attach u → Sealed u s.strm
  consuming : ∀ u, s.catcher = .consuming u →
    s.complete u = 0 ∧ s.cufile_strm u = 0 ∧ (cfg.nvme = false → .copy u ∉ s.strm)

namespace Transfers

theorem init (cfg : Config) : Transfers cfg (init cfg) where
  complete _ := rfl
  noReads _ := ⟨rfl, rfl⟩
  flushed _ := ⟨rfl, rfl⟩
  noStreams _ _ := rfl
  resting _ _ := rfl
  sealed u _ l hl hcopy := by
    rw [suffix_nil.1 hl] at hcopy
    cases hcopy
  consuming u hc := by cases hc

/-- The producer moves, with no unit before and after. -/
theorem move (inv : Transfers cfg s) (hs : s.producer.attached = [])
    (hflushed : 2 ≤ p.phase → s.kernel = [] ∧ s.cq = []) : Transfers cfg { s with producer := p } :=
  { inv with
    flushed := hflushed
    sealed := fun u _ => inv.sealed u fun hp => by rw [hp] at hs; cases hs }

theorem update_pred_eq_zero {f : ℕ → ℕ} {v : ℕ} (hv : f v = 0) : update f u (f u - 1) v = 0 := by
  by_cases hvu : v = u
  · rw [hvu, update_self, ← hvu, hv]
  · rw [update_of_ne hvu, hv]

theorem done_of_hand (inv : Transfers cfg s) (flow : Flow cfg s) (hc : s.catcher = .waiting u)
    (h : if cfg.nvme then s.cufile_strm u = 0 ∧ s.complete u = 0 else .event u ∉ s.strm) :
    s.complete u = 0 ∧ s.cufile_strm u = 0 ∧ (cfg.nvme = false → .copy u ∉ s.strm) := by
  split_ifs at h with hnvme
  · exact ⟨h.2, h.1, fun hn => absurd hnvme (by simp [hn])⟩
  · have hn : cfg.nvme = false := by simpa using hnvme
    have hio : cfg.io_uring = false := by
      by_contra hio
      exact hnvme (cfg.io_uring_nvme (by simpa using hio))
    have hreads := inv.noReads hio
    refine ⟨by rw [inv.complete, hreads.1, hreads.2]; rfl, inv.noStreams u (.inl hn), fun _ => ?_⟩
    refine (inv.sealed u fun hp => ?_).not_mem h
    exact (flow.attached hp).2.2 (by simp [hc])

theorem step (inv : Transfers cfg s) (flow : Flow cfg s) (hstep : WorkUnits.step cfg s a = some s') :
    Transfers cfg s' := by
  cases trans_of_step hstep with
  | acquire u idle hp hpop =>
    obtain ⟨hidle, -⟩ := pop_some hpop
    have hzero : s.complete u = 0 := inv.resting u (by rw [hidle]; exact mem_cons_self)
    have hsame : update s.complete u 0 = s.complete := by rw [← hzero, update_eq_self]
    refine ⟨?_, inv.noReads, by simp, inv.noStreams, fun v hv => ?_, fun v _ => ?_, ?_⟩
    · simpa only [hsame] using inv.complete
    · simp only [hsame]
      exact inv.resting v (by rw [hidle]; exact mem_cons_of_mem _ hv)
    · exact inv.sealed v (by simp [hp])
    · simpa only [hsame] using inv.consuming
  | read u hp hio =>
    have hidle := (flow.attached hp).2.1
    have hheld := flow.consuming_ne hp
    refine ⟨fun v => ?_, by simp [hio], by simp [hp], inv.noStreams, fun v hv => ?_, inv.sealed,
      fun v hv => ?_⟩
    · have hcomplete := inv.complete v
      simp only [update_apply, count_append, count_singleton, beq_iff_eq, eq_comm (a := u)]
      split_ifs with hvu
      · subst hvu
        omega
      · exact hcomplete
    · have hne : v ≠ u := fun hvu => hidle (hvu ▸ hv)
      simp only [update_of_ne hne]
      exact inv.resting v hv
    · simp only [update_of_ne (hheld v hv)]
      exact inv.consuming v hv
  | decompress u hp hnvme =>
    have hlt := (flow.attached hp).1
    have hheld := flow.consuming_ne hp
    refine { inv with noStreams := fun v hv => ?_, consuming := fun v hv => ?_ }
    · have hne : v ≠ u := by
        rintro rfl
        rcases hv with hv | hv
        · simp [hv] at hnvme
        · omega
      simp only [update_of_ne hne]
      exact inv.noStreams v hv
    · simp only [update_of_ne (hheld v hv)]
      exact inv.consuming v hv
  | copy u hp =>
    have hheld := flow.consuming_ne hp
    refine { inv with sealed := fun v hv => ?_, consuming := fun v hv => ?_ }
    · have hne : u ≠ v := by
        rintro rfl
        exact hv hp
      exact (inv.sealed v hv).snoc (by simpa using hne)
    · obtain ⟨hreads, hstreams, hcopies⟩ := inv.consuming v hv
      exact ⟨hreads, hstreams, fun hn => by simpa [hheld v hv] using hcopies hn⟩
  | propagate u hp =>
    refine { inv with flushed := fun hle => ?_, sealed := fun v _ => ?_, consuming := fun v hv => ?_ }
    · simp only at hle
      split_ifs at hle <;> cases hle
    · by_cases hvu : v = u
      · rw [hvu]
        exact Sealed.snoc_event u s.strm
      · exact (inv.sealed v (by simpa [hp] using Ne.symm hvu)).snoc (by simp)
    · obtain ⟨hreads, hstreams, hcopies⟩ := inv.consuming v hv
      exact ⟨hreads, hstreams, fun hn => by simpa using hcopies hn⟩
  | callback u cq hp hcq =>
    refine ⟨fun v => ?_, fun hio => ?_, fun hle => ?_, inv.noStreams,
      fun v hv => update_pred_eq_zero (inv.resting v hv), inv.sealed,
      fun v hv => ⟨update_pred_eq_zero (inv.consuming v hv).1, (inv.consuming v hv).2⟩⟩
    · have hcomplete := inv.complete v
      simp only [hcq, count_cons, beq_iff_eq, eq_comm (a := u)] at hcomplete
      simp only [update_apply]
      split_ifs at hcomplete ⊢ with hvu
      · subst hvu
        omega
      · exact hcomplete
    · cases hcq.symm.trans (inv.noReads hio).2
    · cases hcq.symm.trans (inv.flushed hle).2
  | leave hp | flush hp => exact inv.move (by simp [hp]) (by simp)
  | terminate a ha =>
    have hp : s.producer.attached = [] ∧ s.kernel = [] ∧ s.cq = [] := by
      rcases ha with ⟨-, hp, hio⟩ | ⟨-, hp, hflushed⟩
      · exact ⟨by simp [hp], inv.noReads hio⟩
      · exact ⟨by simp [hp], hflushed⟩
    exact { inv.move (p := .closing) hp.1 fun _ => hp.2 with }
  | join hp | joined hp | closed _ hp => exact inv.move (by simp [hp]) fun _ => inv.flushed (by simp [hp])
  | free i u idle hp hi hpop =>
    have hmoved := inv.move (p := .releasing (i + 1)) (by simp [hp]) fun _ => inv.flushed (by simp [hp])
    refine { hmoved with resting := fun v hv => inv.resting v ?_ }
    rw [popUnsafe_some hpop]
    exact mem_cons_of_mem _ hv
  | pop | finish => exact { inv with consuming := nofun }
  | hand u hc hdone =>
    refine { inv with consuming := fun v hv => ?_ }
    cases hv
    exact inv.done_of_hand flow hc hdone
  | release u hc =>
    refine { inv with resting := fun v hv => ?_, consuming := nofun }
    rw [contents_push, mem_append, mem_singleton] at hv
    rcases hv with hv | rfl
    · exact inv.resting v hv
    · exact (inv.consuming v hc).1
  | kernel u hu =>
    refine { inv with complete := fun v => ?_, noReads := fun hio => ?_, flushed := fun hle => ?_ }
    · have hcomplete := inv.complete v
      rw [(perm_cons_erase hu).count_eq, count_cons] at hcomplete
      rw [count_append, count_singleton, hcomplete]
      ac_rfl
    · rw [(inv.noReads hio).1] at hu
      cases hu
    · rw [(inv.flushed hle).1] at hu
      cases hu
  | stream x strm hs =>
    refine { inv with sealed := fun v hv => ?_, consuming := fun v hv => ?_ }
    · have hsealed := inv.sealed v hv
      rw [hs] at hsealed
      exact hsealed.tail
    · obtain ⟨hreads, hstreams, hcopies⟩ := inv.consuming v hv
      refine ⟨hreads, hstreams, fun hn hmem => hcopies hn ?_⟩
      rw [hs]
      exact mem_cons_of_mem _ hmem
  | unitStream u hu =>
    refine { inv with
      noStreams := fun v hv => update_pred_eq_zero (inv.noStreams v hv), consuming := fun v hv => ?_ }
    obtain ⟨hreads, hstreams, hcopies⟩ := inv.consuming v hv
    exact ⟨hreads, update_pred_eq_zero hstreams, hcopies⟩

end Transfers

structure Inv (cfg : Config) (s : State) : Prop where
  flow : Flow cfg s
  transfers : Transfers cfg s

theorem Inv.init (cfg : Config) : Inv cfg (init cfg) := ⟨Flow.init cfg, Transfers.init cfg⟩

theorem Inv.step {cfg : Config} {s s' : State} {a : Action} (inv : Inv cfg s)
    (hstep : WorkUnits.step cfg s a = some s') : Inv cfg s' :=
  ⟨inv.flow.step hstep, inv.transfers.step inv.flow hstep⟩

theorem Inv.reach {cfg : Config} {s t : State} {ok : State → Action → Prop} (inv : Inv cfg s)
    (h : Reach (WorkUnits.step cfg) ok s t) : Inv cfg t :=
  h.invariant inv fun _ _ _ inv _ hstep => inv.step hstep

/-! ## Progress -/

@[simp] def Catcher.work : Catcher → ℕ
  | .ready => 1
  | .waiting _ => 3
  | .consuming _ => 2
  | .finished => 0

/-- What the catcher and the devices have to do for the units that were propagated. -/
def State.work (cfg : Config) (s : State) : ℕ :=
  2 * s.kernel.length + s.cq.length + s.strm.length + ∑ u ∈ Finset.range cfg.slack, s.cufile_strm u +
    3 * s.tran.contents.length + s.catcher.work

/-- The steps of the catcher, the devices and the callbacks. -/
def Action.attends : Action → Bool
  | .callback | .pop | .hand | .release | .kernel _ | .stream | .unitStream _ => true
  | _ => false

section

variable (inv : Inv cfg s)
include inv

theorem Inv.work_lt (ha : a.attends = true) (hstep : WorkUnits.step cfg s a = some s') :
    s'.work cfg < s.work cfg ∧ s'.producer = s.producer := by
  cases trans_of_step hstep with
  | callback _ _ _ hs | stream _ _ hs =>
    refine ⟨?_, rfl⟩
    simp only [State.work, hs, length_cons]
    omega
  | pop u tran hc hpop =>
    refine ⟨?_, rfl⟩
    simp only [State.work, (pop_some hpop).1, hc, Catcher.work, length_cons]
    omega
  | finish _ hc | hand _ hc | release _ hc =>
    refine ⟨?_, rfl⟩
    simp only [State.work, hc, Catcher.work]
    omega
  | kernel u hu =>
    refine ⟨?_, rfl⟩
    have := length_pos_of_mem hu
    simp only [State.work, length_erase_of_mem hu, length_append, length_singleton]
    omega
  | unitStream u hu =>
    refine ⟨?_, rfl⟩
    have hlt : u < cfg.slack := by
      by_contra hge
      rw [inv.transfers.noStreams u (.inr (not_lt.1 hge))] at hu
      cases hu
    have hsum := sum_update_add (Finset.mem_range.2 hlt) s.cufile_strm (s.cufile_strm u - 1) fun _ n => n
    simp only [State.work] at hsum ⊢
    omega
  | terminate a h =>
    rcases h with ⟨rfl, -⟩ | ⟨rfl, -⟩ <;> cases ha
  | _ => cases ha

/-- The unit the catcher waits for can be handed over, or a device or a callback can go on with it. -/
theorem Inv.wait (hc : s.catcher = .waiting u) (hpolls : s.cq ≠ [] → s.producer.polls = true) :
    ∃ a s', WorkUnits.step cfg s a = some s' ∧ a.attends = true ∧ (cfg.nvme = true → a ≠ .stream) := by
  by_cases hdone : if cfg.nvme then s.cufile_strm u = 0 ∧ s.complete u = 0 else .event u ∉ s.strm
  · exact ⟨.hand, _, by simp only [WorkUnits.step, hc, if_pos hdone]; rfl, rfl, by simp⟩
  split_ifs at hdone with hnvme
  · rw [not_and_or] at hdone
    rcases hdone with hstreams | hreads
    · exact ⟨.unitStream u, _, if_pos (Nat.pos_of_ne_zero hstreams), rfl, by simp⟩
    · by_cases hkernel : u ∈ s.kernel
      · exact ⟨.kernel u, _, if_pos hkernel, rfl, by simp⟩
      · rw [inv.transfers.complete, count_eq_zero.2 hkernel] at hreads
        cases hcq : s.cq with
        | nil => exact absurd (by rw [hcq]; rfl) hreads
        | cons v cq =>
          have hp := hpolls (by rw [hcq]; simp)
          exact ⟨.callback, _, by simp only [WorkUnits.step, hp, hcq]; rfl, rfl, by simp⟩
  · cases hs : s.strm with
    | nil => simp [hs] at hdone
    | cons x strm => exact ⟨.stream, _, by simp only [WorkUnits.step, hs]; rfl, rfl, fun h => absurd h hnvme⟩

/-- The catcher goes on until it has finished. -/
theorem Inv.attend (hfinished : s.catcher ≠ .finished)
    (hready : s.tran.contents ≠ [] ∨ s.tran.terminating = true ∨ s.catcher ≠ .ready)
    (hpolls : s.cq ≠ [] → s.producer.polls = true) :
    ∃ a s', WorkUnits.step cfg s a = some s' ∧ a.attends = true ∧ (cfg.nvme = true → a ≠ .stream) := by
  cases hc : s.catcher with
  | ready =>
    cases htran : s.tran.contents with
    | nil =>
      have hpop := pop_of_terminating htran (by simpa [htran, hc] using hready)
      exact ⟨.pop, _, by simp only [WorkUnits.step, hc, hpop]; rfl, rfl, by simp⟩
    | cons v l =>
      obtain ⟨tran, hpop⟩ := exists_pop htran
      exact ⟨.pop, _, by simp only [WorkUnits.step, hc, hpop]; rfl, rfl, by simp⟩
  | waiting u => exact inv.wait hc hpolls
  | consuming u => exact ⟨.release, _, by simp only [WorkUnits.step, hc]; rfl, rfl, by simp⟩
  | finished => exact absurd hc hfinished

/-! ### `close` -/

@[simp] def Producer.work (cfg : Config) : Producer → ℕ
  | .flushing => cfg.slack + 4
  | .closing => cfg.slack + 3
  | .joining => cfg.slack + 2
  | .releasing i => cfg.slack - i + 1
  | _ => 0

/-- Every step after the call of `close` brings its end nearer. -/
theorem Inv.close_lt (hp : 1 ≤ s.producer.phase)
    (hstep : WorkUnits.step cfg s a = some s') : 1 ≤ s'.producer.phase ∧
      s'.work cfg + s'.producer.work cfg < s.work cfg + s.producer.work cfg := by
  by_cases ha : a.attends = true
  · obtain ⟨hlt, hsame⟩ := inv.work_lt ha hstep
    rw [hsame]
    exact ⟨hp, by omega⟩
  cases trans_of_step hstep with
  | acquire _ _ hq | read _ hq | decompress _ hq | copy _ hq | propagate _ hq | leave hq | flush hq =>
    simp [hq] at hp
  | terminate a h =>
    rcases h with ⟨-, hq, -⟩ | ⟨-, hq, -⟩
    · simp [hq] at hp
    · simp [hq, State.work, contents]
  | join hq | joined hq | closed _ hq => simp [hq, State.work]
  | free i u idle hq hi =>
    refine ⟨by simp, ?_⟩
    simp only [State.work, hq, work]
    omega
  | _ => exact absurd rfl ha

/-- `close` does not get stuck. -/
theorem Inv.close_next (hp : 1 ≤ s.producer.phase) (hclosed : s.producer ≠ .closed) :
    ∃ a s', WorkUnits.step cfg s a = some s' := by
  by_cases hattend : s.catcher ≠ .finished ∧ 2 ≤ s.producer.phase
  · obtain ⟨hfinished, hphase⟩ := hattend
    have hcq : s.cq ≠ [] → s.producer.polls = true :=
      fun h => absurd (inv.transfers.flushed hphase).2 h
    obtain ⟨a, s', hstep, -⟩ := inv.attend hfinished (.inr (.inl (inv.flow.terminating.2 hphase))) hcq
    exact ⟨a, s', hstep⟩
  have hfinished : 2 ≤ s.producer.phase → s.catcher = .finished :=
    fun hphase => by_contra fun hc => hattend ⟨hc, hphase⟩
  cases hq : s.producer with
  | out | attach | polling => simp [hq] at hp
  | flushing =>
    cases hkernel : s.kernel with
    | cons u l => exact ⟨.kernel u, _, if_pos (by rw [hkernel]; exact mem_cons_self)⟩
    | nil =>
      cases hcq : s.cq with
      | cons u cq => exact ⟨.callback, _, by simp only [WorkUnits.step, hq, polls, hcq]; rfl⟩
      | nil => exact ⟨.goOn, _, by simp only [WorkUnits.step, closeStep, hq]; exact if_pos ⟨hkernel, hcq⟩⟩
  | closing =>
    have htran := (inv.flow.finished (hfinished (by simp [hq]))).1
    exact ⟨.goOn, _, by simp only [WorkUnits.step, closeStep, hq]; exact if_pos htran⟩
  | joining =>
    have hc := hfinished (by simp [hq])
    exact ⟨.goOn, _, by simp only [WorkUnits.step, closeStep, hq]; exact if_pos hc⟩
  | releasing i =>
    have hfreed := inv.flow.freed i hq
    by_cases hi : i < cfg.slack
    · have hne : s.idle.contents ≠ [] := by
        intro hnil
        rw [hnil, length_nil] at hfreed
        omega
      obtain ⟨u, idle, hpop⟩ := exists_popUnsafe hne
      exact ⟨.goOn, _, by simp only [WorkUnits.step, closeStep, hq, if_pos hi, hpop]; rfl⟩
    · have hnil : s.idle.contents = [] := length_eq_zero_iff.1 (by omega)
      exact ⟨.goOn, _, by simp only [WorkUnits.step, closeStep, hq, if_neg hi]; exact if_pos hnil⟩
  | closed => exact absurd hq hclosed

end

/-- Once `close` was called there is a bound on the steps, and only its end ends them. -/
theorem closes (h : Reach (WorkUnits.step cfg) Free (init cfg) s) (hp : 1 ≤ s.producer.phase)
    {as : List Action} {t : State} (ht : exec (WorkUnits.step cfg) s as = some t) :
    as.length ≤ s.work cfg + s.producer.work cfg ∧
      ((∀ a, WorkUnits.step cfg t a = none) → t.producer = .closed) := by
  have inv := (Inv.init cfg).reach h
  obtain ⟨⟨inv', hp'⟩, hle⟩ := length_add_le_of_exec
    (I := fun s => Inv cfg s ∧ 1 ≤ s.producer.phase)
    (μ := fun s => s.work cfg + s.producer.work cfg) ht ⟨inv, hp⟩ fun _ _ _ ⟨inv, hp⟩ hstep =>
      have ⟨hp', hlt⟩ := inv.close_lt hp hstep
      ⟨⟨inv.step hstep, hp'⟩, hlt⟩
  refine ⟨Nat.le_of_add_right_le hle, fun hstuck => by_contra fun hclosed => ?_⟩
  obtain ⟨a, t', hstep⟩ := inv'.close_next hp' hclosed
  rw [hstuck a] at hstep
  cases hstep

/-! ### Delivery -/

/-- A unit on its way to the catcher stays on its way, and a copy stays on `strm` until that goes on. -/
theorem keep_of_attends (ha : a.attends = true) (hstream : a ≠ .stream)
    (hu : u ∈ s.catcher.waits ++ s.tran.contents) (hstep : WorkUnits.step cfg s a = some s') :
    s'.strm = s.strm ∧ (s'.catcher = .consuming u ∨ u ∈ s'.catcher.waits ++ s'.tran.contents) := by
  cases trans_of_step hstep with
  | callback | kernel | unitStream => exact ⟨rfl, .inr hu⟩
  | pop v tran hc hpop =>
    refine ⟨rfl, .inr ?_⟩
    simpa [hc, (pop_some hpop).1] using hu
  | finish tran hc hpop => simp [hc, (pop_none hpop).1] at hu
  | hand v hc hdone =>
    refine ⟨rfl, ?_⟩
    rw [hc, Catcher.waits, singleton_append, mem_cons] at hu
    rcases hu with rfl | hu
    · exact .inl rfl
    · exact .inr (mem_append_right _ hu)
  | release v hc => exact ⟨rfl, .inr (by simpa [hc] using hu)⟩
  | stream => exact absurd rfl hstream
  | terminate a h => rcases h with ⟨rfl, -⟩ | ⟨rfl, -⟩ <;> cases ha
  | _ => cases ha

/-- For an NVMe relation the catcher gets a unit whether or not `strm` goes on. -/
theorem Inv.deliver (inv : Inv cfg s) (hnvme : cfg.nvme = true)
    (hu : u ∈ s.catcher.waits ++ s.tran.contents) (hpolls : cfg.io_uring = true → s.producer.polls = true) :
    ∃ t, Reach (WorkUnits.step cfg) Free s t ∧ t.catcher = .consuming u ∧ t.strm = s.strm := by
  induction hn : s.work cfg using Nat.strong_induction_on generalizing s with
  | _ n ih =>
    have hcq : s.cq ≠ [] → s.producer.polls = true := by
      intro hne
      by_cases hio : cfg.io_uring = true
      · exact hpolls hio
      · exact absurd (inv.transfers.noReads (by simpa using hio)).2 hne
    have hfinished : s.catcher ≠ .finished := by
      intro hc
      simp [hc, (inv.flow.finished hc).1] at hu
    have hready : s.tran.contents ≠ [] ∨ s.tran.terminating = true ∨ s.catcher ≠ .ready := by
      by_cases hc : s.catcher = .ready
      · left
        rw [hc] at hu
        exact ne_nil_of_mem (by simpa using hu)
      · exact .inr (.inr hc)
    obtain ⟨a, s', hstep, ha, hstream⟩ := inv.attend hfinished hready hcq
    obtain ⟨hlt, hproducer⟩ := inv.work_lt ha hstep
    obtain ⟨hstrm, hcase⟩ := keep_of_attends ha (hstream hnvme) hu hstep
    have hnext : Reach (WorkUnits.step cfg) Free s s' := .next a .init trivial hstep
    rcases hcase with hc | hmem
    · exact ⟨s', hnext, hc, hstrm⟩
    · obtain ⟨t, ht, hc, hsame⟩ := ih _ (hn ▸ hlt) (inv.step hstep) hmem
        (by rw [hproducer]; exact hpolls) rfl
      exact ⟨t, hnext.trans ht, hc, by rw [hsame, hstrm]⟩

/-! ## The protocol holds -/

/-- All transfers of the unit have completed. -/
structure Done (s : State) (u : ℕ) : Prop where
  reads : u ∉ s.kernel ∧ u ∉ s.cq
  streams : s.cufile_strm u = 0
  copies : .copy u ∉ s.strm

/-- What the work units are for. -/
structure Protocol (cfg : Config) (s : State) : Prop where
  order : s.acquired = s.handed ++ s.catcher.waits ++ s.tran.contents ++ s.producer.attached
  done : ∀ u, s.catcher = .consuming u → Done s u
  conserved : s.producer.phase < 4 →
    (s.idle.contents ++ s.tran.contents ++ s.catcher.holds ++ s.producer.attached).Perm
      (List.range cfg.slack)
  /-- when `close` has joined the catcher -/
  returned : s.producer = .releasing 0 → s.handed = s.acquired ∧ s.idle.contents.length = cfg.slack

/-- For an NVMe relation no copies are attached. -/
def Awaited (cfg : Config) (_ : State) (a : Action) : Prop := a = .copy → cfg.nvme = false

theorem no_copies (hcopies : cfg.nvme = true → ∀ u, .copy u ∉ s.strm) (hok : Awaited cfg s a)
    (hstep : step cfg s a = some s') (hnvme : cfg.nvme = true) (u : ℕ) : .copy u ∉ s'.strm := by
  have hcopies := hcopies hnvme u
  cases trans_of_step hstep with
  | copy v hp => simp [hok rfl] at hnvme
  | propagate v hp => simpa using hcopies
  | stream x strm hs =>
    rw [hs] at hcopies
    exact fun hmem => hcopies (mem_cons_of_mem _ hmem)
  | _ => exact hcopies

theorem Inv.protocol (inv : Inv cfg s) (hcopies : cfg.nvme = true → ∀ u, .copy u ∉ s.strm) :
    Protocol cfg s where
  order := inv.flow.order
  done u hc := by
    obtain ⟨hreads, hstreams, hmem⟩ := inv.transfers.consuming u hc
    rw [inv.transfers.complete] at hreads
    refine ⟨⟨count_eq_zero.1 (by omega), count_eq_zero.1 (by omega)⟩, hstreams, ?_⟩
    by_cases hnvme : cfg.nvme = true
    · exact hcopies hnvme u
    · exact hmem (by simpa using hnvme)
  conserved hlt := by
    refine perm_iff_count.2 fun u => ?_
    rw [count_append, count_append, count_append, inv.flow.units hlt u, count_range]
  returned hp := by
    have horder := inv.flow.order
    rw [hp, inv.flow.joined (by simp [hp]), inv.flow.drained (by simp [hp])] at horder
    exact ⟨by simpa using horder.symm, inv.flow.freed 0 hp⟩

/-- A copy for an NVMe relation can be under way when its unit is consumed. -/
theorem Inv.not_protocol (inv : Inv cfg s) (hstep : WorkUnits.step cfg s a = some s')
    (hok : ¬Awaited cfg s a) : ∃ t, Reach (WorkUnits.step cfg) Free s' t ∧ ¬Protocol cfg t := by
  obtain ⟨rfl, hnvme⟩ : a = .copy ∧ cfg.nvme = true := by simpa [Awaited] using hok
  cases trans_of_step hstep with
  | terminate a h => rcases h with ⟨ha, -⟩ | ⟨ha, -⟩ <;> cases ha
  | copy u hp =>
    have inv' := inv.step hstep
    have hprop : ∃ s'', WorkUnits.step cfg { s with strm := s.strm ++ [.copy u] } .propagate = some s'' ∧
        .copy u ∈ s''.strm ∧ u ∈ s''.tran.contents ∧
        (cfg.io_uring = true → s''.producer.polls = true) := by
      refine ⟨_, by simp only [WorkUnits.step, hp]; rfl, by simp, by simp, fun hio => ?_⟩
      simp [hio, polls]
    obtain ⟨s'', hs'', hcopy, htran, hpolls⟩ := hprop
    obtain ⟨t, ht, hc, hstrm⟩ :=
      (inv'.step hs'').deliver hnvme (mem_append_right _ htran) hpolls
    refine ⟨t, (Reach.next .propagate .init trivial hs'').trans ht, fun hprotocol => ?_⟩
    exact (hprotocol.done u hc).copies (hstrm ▸ hcopy)

/-- Units are conserved, are handed over once, in order and with all their transfers done, in every run
that attaches no copies for an NVMe relation. Whatever is attached, `close` ends. Each copy for an NVMe
relation can be under way when its unit is consumed. -/
theorem work_units (cfg : Config) : (∀ s, Reach (step cfg) (Awaited cfg) (init cfg) s → Protocol cfg s) ∧
    (∀ s as t, Reach (step cfg) Free (init cfg) s → 1 ≤ s.producer.phase →
      exec (step cfg) s as = some t →
      as.length ≤ s.work cfg + s.producer.work cfg ∧
        ((∀ a, step cfg t a = none) → t.producer = .closed)) ∧
    ∀ s s' a, Reach (step cfg) Free (init cfg) s → step cfg s a = some s' → ¬Awaited cfg s a →
      ∃ t, Reach (step cfg) Free s' t ∧ ¬Protocol cfg t := by
  refine ⟨fun s hs => ?_, fun s as t hs hp ht => closes hs hp ht, fun s s' a hs hstep hok => ?_⟩
  · refine ((Inv.init cfg).reach hs).protocol ?_
    exact hs.invariant (I := fun s => cfg.nvme = true → ∀ u, .copy u ∉ s.strm) (by simp [init])
      fun s a s' hcopies hok hstep => no_copies hcopies hok hstep
  · exact ((Inv.init cfg).reach hs).not_protocol hstep hok

/-- A unit of an NVMe relation is handed over while the read for the next one is under way. -/
theorem work_units_two_reads : ∃ s, Reach (step ⟨2, true, true, id⟩) (Awaited ⟨2, true, true, id⟩)
      (init ⟨2, true, true, id⟩) s ∧
    s.catcher = .consuming 0 ∧ s.kernel = [1] ∧ Protocol ⟨2, true, true, id⟩ s :=
  exists_reach_of_exec_of_forall [.acquire, .read, .propagate, .leave, .acquire, .read, .propagate, .pop,
    .kernel 0, .callback, .hand] (by simp [Awaited]) ⟨_, rfl, fun h => ⟨rfl, rfl, (work_units _).1 _ h⟩⟩

/-- A block that is in memory already is copied for an NVMe relation, and consumed before that is done. -/
theorem consumed_before_copied :
    ∃ s, Reach (step ⟨1, true, false, by simp⟩) Free (init ⟨1, true, false, by simp⟩) s ∧
      s.catcher = .consuming 0 ∧ s.strm = [.copy 0, .event 0] ∧ ¬Protocol ⟨1, true, false, by simp⟩ s := by
  refine exists_reach_of_exec [.acquire, .copy, .propagate, .pop, .hand]
    ⟨_, rfl, fun _ => ⟨rfl, rfl, fun hprotocol => ?_⟩⟩
  exact (hprotocol.done 0 rfl).copies mem_cons_self

end Proteus.WorkUnits
