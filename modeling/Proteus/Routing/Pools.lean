import Mathlib.Data.Fintype.EquivFin
import Proteus.Machine
import Proteus.Routing.Route

/-!
# Buffers of a generalized router

The run-time side of the router. A producer evaluates its policy, acquires a buffer from the pool the
policy names (retrying with a new evaluation while that pool is empty), fills it and releases it to
the queue the policy names. A firer allocates its pool's buffers if that is its duty, takes buffers
from its queue, consumes them and frees them into its own pool; when its queue is closed and empty it
acquires the buffers it allocated back. The last producer to close closes the queues one by one.

A buffer is the pool it was allocated for and a number below `slack`. In runs in which every
evaluation meets `Router.Agrees`, every buffer is freed into the pool it was acquired from
(`Routed`), and a firer leaves its queue only when nothing can come any more (`Phased`).
-/

namespace Proteus.Routing

open Function

/-! ## Model -/

/-- A buffer: the pool it was allocated for, and its number. -/
abbrev Buffer := ℕ × ℕ

/-- The slots of a pool and of a queue: `emplace` waits while all of them are taken. -/
def AsyncQueueMPMC.N : ℕ := 2 * 1024

/-- Where a producer stands in `consume`. -/
inductive Producer
  | idle
  /-- About to evaluate the policy. -/
  | evaluating (retry_cnt : ℕ)
  /-- About to look at the pool. -/
  | chosen (rt : RoutingTarget) (retry_cnt : ℕ)
  /-- In the blocking `pop` of the pool. -/
  | popping (rt : RoutingTarget)
  /-- Filling the buffer, and releasing it. -/
  | holding (rt : RoutingTarget) (buff : Buffer)
  | closed
  /-- `at` threw `std::out_of_range`. -/
  | thrown
  deriving DecidableEq

/-- Where a worker stands in `fire`. -/
inductive Firer
  /-- Buffers of the pool it has freed so far in `allocate_buffers_for_free_pool`. -/
  | starting (allocated : ℕ)
  /-- Waiting for its queue. -/
  | running
  | consuming (buff : Buffer)
  /-- Buffers it has acquired back. -/
  | reclaiming (acquired : ℕ)
  | finished
  deriving DecidableEq

structure State (Pid Wid : Type*) where
  free_pool : ℕ → List Buffer
  ready_fifo : ℕ → List Buffer
  /-- The queues below this number are closed. -/
  closed_fifos : ℕ
  producer : Pid → Producer
  firer : Wid → Firer

inductive Action (Pid Wid Call : Type*)
  | consume (i : Pid)
  | evaluate (i : Pid) (call : Call)
  | acquire (i : Pid)
  | pop (i : Pid)
  | release (i : Pid)
  | close (i : Pid)
  | closeFifo
  | allocate (w : Wid)
  | openPip (w : Wid)
  | take (w : Wid)
  | free (w : Wid)
  | drained (w : Wid)
  | reclaim (w : Wid)
  | finish (w : Wid)

namespace State

variable {Pid Wid : Type*} [DecidableEq Pid] [DecidableEq Wid] (s : State Pid Wid)

def setProducer (i : Pid) (x : Producer) : State Pid Wid :=
  { s with producer := update s.producer i x }

def setFirer (w : Wid) (x : Firer) : State Pid Wid :=
  { s with firer := update s.firer w x }

def setPool (p : ℕ) (bs : List Buffer) : State Pid Wid :=
  { s with free_pool := update s.free_pool p bs }

def setFifo (q : ℕ) (bs : List Buffer) : State Pid Wid :=
  { s with ready_fifo := update s.ready_fifo q bs }

end State

namespace Router

variable {Ptr Θ Pid : Type*} {topo : Topology} [Throughput Θ] [Fintype Pid] [DecidableEq Pid]
  (R : Router Ptr topo)

/-- The firers, by their place in `firers`. -/
abbrev Wid : Type := Fin R.workers.length

def worker (w : R.Wid) : Worker := R.workers.get w

abbrev St (Pid : Type*) : Type _ := State Pid R.Wid

abbrev Act (Pid Θ : Type*) : Type _ := Action Pid R.Wid (Call Ptr Θ R.consumers.length)

/-- `open` has spawned the firers. -/
def init : R.St Pid where
  free_pool _ := []
  ready_fifo _ := []
  closed_fifos := 0
  producer _ := .idle
  firer _ := .starting 0

variable (s : R.St Pid)

/-- The steps of a producer. -/
def producerStep (i : Pid) : R.Act Pid Θ → Producer → Option (R.St Pid)
  | .consume _, .idle => some (s.setProducer i (.evaluating 0))
  | .evaluate _ call, .evaluating k =>
    if call.retrycnt = k then (R.route call).map fun rt => s.setProducer i (.chosen rt k) else none
  | .acquire _, .chosen rt k =>
    if rt.source_pool < R.queueCnt then
      if R.policy ≠ .sharedRandom ∧ s.free_pool rt.source_pool = [] then
        some (s.setProducer i (.evaluating (k + 1)))
      else some (s.setProducer i (.popping rt))
    else some (s.setProducer i .thrown)
  | .pop _, .popping rt =>
    match s.free_pool rt.source_pool with
    | [] => none
    | b :: rest => some ((s.setProducer i (.holding rt b)).setPool rt.source_pool rest)
  | .release _, .holding rt b =>
    if rt.target < R.queueCnt then
      if (s.ready_fifo rt.target).length < AsyncQueueMPMC.N then
        some ((s.setProducer i .idle).setFifo rt.target (s.ready_fifo rt.target ++ [b]))
      else none
    else some (s.setProducer i .thrown)
  | .close _, .idle => some (s.setProducer i .closed)
  | _, _ => none

/-- The steps of a firer with the arguments `x`. -/
def firerStep (w : R.Wid) (x : Worker) : R.Act Pid Θ → Firer → Option (R.St Pid)
  | .allocate _, .starting j =>
    if x.should_allocate_queue_buffs ∧ j < R.slack ∧
        (s.free_pool x.source_free_pool).length < AsyncQueueMPMC.N then
      some ((s.setFirer w (.starting (j + 1))).setPool x.source_free_pool
        (s.free_pool x.source_free_pool ++ [(x.source_free_pool, j)]))
    else none
  | .openPip _, .starting j =>
    if x.should_allocate_queue_buffs → j = R.slack then some (s.setFirer w .running) else none
  | .take _, .running =>
    match s.ready_fifo x.target_queue with
    | [] => none
    | b :: rest => some ((s.setFirer w (.consuming b)).setFifo x.target_queue rest)
  | .free _, .consuming b =>
    if (s.free_pool x.source_free_pool).length < AsyncQueueMPMC.N then
      some ((s.setFirer w .running).setPool x.source_free_pool
        (s.free_pool x.source_free_pool ++ [b]))
    else none
  | .drained _, .running =>
    if s.ready_fifo x.target_queue = [] ∧ x.target_queue < s.closed_fifos then
      some (s.setFirer w (if x.should_allocate_queue_buffs then .reclaiming 0 else .finished))
    else none
  | .reclaim _, .reclaiming k =>
    if k < R.slack then
      match s.free_pool x.source_free_pool with
      | [] => none
      | _ :: rest => some ((s.setFirer w (.reclaiming (k + 1))).setPool x.source_free_pool rest)
    else none
  | .finish _, .reclaiming k => if k = R.slack then some (s.setFirer w .finished) else none
  | _, _ => none

def step (a : R.Act Pid Θ) : Option (R.St Pid) :=
  match a with
  | .consume i | .evaluate i _ | .acquire i | .pop i | .release i | .close i =>
    R.producerStep s i a (s.producer i)
  | .closeFifo =>
    if (∀ i, s.producer i = .closed) ∧ s.closed_fifos < R.queueCnt then
      some { s with closed_fifos := s.closed_fifos + 1 }
    else none
  | .allocate w | .openPip w | .take w | .free w | .drained w | .reclaim w | .finish w =>
    R.firerStep s w (R.worker w) a (s.firer w)

/-- Every evaluation is of inputs for which the two sides agree. -/
def Orderly (_ : R.St Pid) : R.Act Pid Θ → Prop
  | .evaluate _ call => R.Agrees call
  | _ => True

/-! ## What a step can do -/

/-- The steps of an orderly run. -/
inductive Trans (s : R.St Pid) : R.St Pid → Prop
  | consume {i} (hi : s.producer i = .idle) : Trans s (s.setProducer i (.evaluating 0))
  | choose {i k rt} (hi : s.producer i = .evaluating k) (hrt : R.Agreed rt) :
      Trans s (s.setProducer i (.chosen rt k))
  | retry {i k rt} (hi : s.producer i = .chosen rt k) :
      Trans s (s.setProducer i (.evaluating (k + 1)))
  | wait {i k rt} (hi : s.producer i = .chosen rt k) : Trans s (s.setProducer i (.popping rt))
  | badPool {i k rt} (hi : s.producer i = .chosen rt k) (h : R.queueCnt ≤ rt.source_pool) :
      Trans s (s.setProducer i .thrown)
  | pop {i rt b rest} (hi : s.producer i = .popping rt)
      (hp : s.free_pool rt.source_pool = b :: rest) :
      Trans s ((s.setProducer i (.holding rt b)).setPool rt.source_pool rest)
  | release {i rt b} (hi : s.producer i = .holding rt b) (h : rt.target < R.queueCnt) :
      Trans s ((s.setProducer i .idle).setFifo rt.target (s.ready_fifo rt.target ++ [b]))
  | badTarget {i rt b} (hi : s.producer i = .holding rt b) (h : R.queueCnt ≤ rt.target) :
      Trans s (s.setProducer i .thrown)
  | close {i} (hi : s.producer i = .idle) : Trans s (s.setProducer i .closed)
  | closeFifo (hall : ∀ i, s.producer i = .closed) (h : s.closed_fifos < R.queueCnt) :
      Trans s { s with closed_fifos := s.closed_fifos + 1 }
  | allocate {w j} (hw : s.firer w = .starting j) (ha : (R.worker w).should_allocate_queue_buffs)
      (hj : j < R.slack) :
      Trans s ((s.setFirer w (.starting (j + 1))).setPool (R.worker w).source_free_pool
        (s.free_pool (R.worker w).source_free_pool ++ [((R.worker w).source_free_pool, j)]))
  | openPip {w j} (hw : s.firer w = .starting j)
      (hj : (R.worker w).should_allocate_queue_buffs → j = R.slack) :
      Trans s (s.setFirer w .running)
  | take {w b rest} (hw : s.firer w = .running)
      (hq : s.ready_fifo (R.worker w).target_queue = b :: rest) :
      Trans s ((s.setFirer w (.consuming b)).setFifo (R.worker w).target_queue rest)
  | free {w b} (hw : s.firer w = .consuming b) :
      Trans s ((s.setFirer w .running).setPool (R.worker w).source_free_pool
        (s.free_pool (R.worker w).source_free_pool ++ [b]))
  | drained {w} (hw : s.firer w = .running) (hq : s.ready_fifo (R.worker w).target_queue = [])
      (hc : (R.worker w).target_queue < s.closed_fifos) :
      Trans s (s.setFirer w
        (if (R.worker w).should_allocate_queue_buffs then .reclaiming 0 else .finished))
  | reclaim {w k b rest} (hw : s.firer w = .reclaiming k) (hk : k < R.slack)
      (hp : s.free_pool (R.worker w).source_free_pool = b :: rest) :
      Trans s ((s.setFirer w (.reclaiming (k + 1))).setPool (R.worker w).source_free_pool rest)
  | finish {w} (hw : s.firer w = .reclaiming R.slack) : Trans s (s.setFirer w .finished)

variable {R} {s s' : R.St Pid} {a : R.Act Pid Θ}

omit [Fintype Pid] in
theorem trans_of_producerStep {i : Pid} (hok : R.Orderly s a)
    (h : R.producerStep s i a (s.producer i) = some s') : R.Trans s s' := by
  unfold producerStep at h
  split at h
  case h_1 | h_6 =>
    cases h
    constructor
    assumption
  case h_2 call k hi =>
    split_ifs at h
    obtain ⟨rt, hrt, rfl⟩ := Option.map_eq_some_iff.1 h
    exact .choose hi ((agrees_iff hrt).2 hok)
  case h_3 rt k hi =>
    split_ifs at h with hlt hempty <;> cases h
    · exact .retry hi
    · exact .wait hi
    · exact .badPool hi (not_lt.1 hlt)
  case h_4 rt hi =>
    split at h <;> cases h
    exact .pop hi ‹_›
  case h_5 rt b hi =>
    split_ifs at h with hlt <;> cases h
    · exact .release hi hlt
    · exact .badTarget hi (not_lt.1 hlt)
  case h_7 => cases h

omit [Fintype Pid] [Throughput Θ] in
theorem trans_of_firerStep {w : R.Wid}
    (h : R.firerStep s w (R.worker w) a (s.firer w) = some s') : R.Trans s s' := by
  unfold firerStep at h
  split at h
  case h_1 j hw =>
    split_ifs at h with hj
    cases h
    exact .allocate hw hj.1 hj.2.1
  case h_2 j hw =>
    split_ifs at h with hj
    cases h
    exact .openPip hw hj
  case h_3 hw =>
    split at h <;> cases h
    exact .take hw ‹_›
  case h_4 b hw =>
    split_ifs at h
    cases h
    exact .free hw
  case h_5 hw =>
    obtain ⟨hq, ⟨⟩⟩ := Option.ite_none_right_eq_some.1 h
    exact .drained hw hq.1 hq.2
  case h_6 k hw =>
    split_ifs at h with hk
    split at h <;> cases h
    exact .reclaim hw hk ‹_›
  case h_7 k hw =>
    split_ifs at h with hk
    cases h
    subst hk
    exact .finish hw
  case h_8 => cases h

theorem trans_of_step (hok : R.Orderly s a) (h : R.step s a = some s') : R.Trans s s' := by
  cases a with
  | closeFifo =>
    simp only [step] at h
    split_ifs at h with hc
    cases h
    exact .closeFifo hc.1 hc.2
  | consume | evaluate | acquire | pop | release | close => exact trans_of_producerStep hok h
  | allocate | openPip | take | free | drained | reclaim | finish => exact trans_of_firerStep h

/-! ## Every buffer goes back to its pool -/

end Router

/-- What a producer has been told by its last evaluation. -/
def Producer.target? : Producer → Option RoutingTarget
  | .chosen rt _ | .popping rt | .holding rt _ => some rt
  | _ => none

variable {Ptr Pid : Type*} {x : Firer} {q : ℕ}

namespace Router

section

variable {topo : Topology} {R : Router Ptr topo} {s s' : R.St Pid}

variable (R) in
structure Routed (s : R.St Pid) : Prop where
  targets : ∀ i rt, (s.producer i).target? = some rt → R.Agreed rt
  held : ∀ i rt b, s.producer i = .holding rt b → b.1 = rt.source_pool
  home : ∀ p, ∀ b ∈ s.free_pool p, b.1 = p
  queued : ∀ q, ∀ b ∈ s.ready_fifo q,
    ∃ w ∈ R.workers, w.target_queue = q ∧ w.source_free_pool = b.1
  consuming : ∀ w b, s.firer w = .consuming b → b.1 = (R.worker w).source_free_pool
  not_thrown : ∀ i, s.producer i ≠ .thrown

theorem worker_mem (w : R.Wid) : R.worker w ∈ R.workers := List.get_mem _ _

namespace Routed

variable (h : R.Routed s) {bs : List Buffer}
include h

theorem setProducer [DecidableEq Pid] (i : Pid) {x : Producer}
    (ht : ∀ rt, x.target? = some rt → R.Agreed rt)
    (hb : ∀ rt b, x = .holding rt b → b.1 = rt.source_pool) (hx : x ≠ .thrown) :
    R.Routed (s.setProducer i x) :=
  { h with
    targets := (forall_update_iff s.producer fun _ x => ∀ rt, x.target? = some rt → R.Agreed rt).2
      ⟨ht, fun j _ => h.targets j⟩
    held := (forall_update_iff s.producer fun _ x => ∀ rt b, x = .holding rt b → b.1 = rt.source_pool).2
      ⟨hb, fun j _ => h.held j⟩
    not_thrown := (forall_update_iff s.producer fun _ x => x ≠ .thrown).2 ⟨hx, fun j _ => h.not_thrown j⟩ }

theorem setFirer (w : R.Wid)
    (hx : ∀ b, x = .consuming b → b.1 = (R.worker w).source_free_pool) : R.Routed (s.setFirer w x) :=
  { h with
    consuming := (forall_update_iff s.firer fun v x =>
      ∀ b, x = .consuming b → b.1 = (R.worker v).source_free_pool).2 ⟨hx, fun v _ => h.consuming v⟩ }

theorem setPool {p : ℕ} (hbs : ∀ b ∈ bs, b.1 = p) : R.Routed (s.setPool p bs) :=
  { h with home := (forall_update_iff s.free_pool fun p bs => ∀ b ∈ bs, b.1 = p).2 ⟨hbs, fun q _ => h.home q⟩ }

theorem setFifo (hbs : ∀ b ∈ bs, ∃ w ∈ R.workers, w.target_queue = q ∧ w.source_free_pool = b.1) :
    R.Routed (s.setFifo q bs) :=
  { h with
    queued := (forall_update_iff s.ready_fifo fun q bs => ∀ b ∈ bs,
      ∃ w ∈ R.workers, w.target_queue = q ∧ w.source_free_pool = b.1).2
        ⟨hbs, fun r _ => h.queued r⟩ }

/-- The buffer goes into its pool. -/
theorem free {p : ℕ} {b : Buffer} (hb : b.1 = p) : R.Routed (s.setPool p (s.free_pool p ++ [b])) :=
  h.setPool (List.forall_mem_append.2 ⟨h.home p, List.forall_mem_singleton.2 hb⟩)

/-- A queue with a buffer in it is only drained by workers that free into the buffer's pool. -/
theorem pool_eq {w : R.Wid} {b : Buffer}
    (hb : b ∈ s.ready_fifo (R.worker w).target_queue) : b.1 = (R.worker w).source_free_pool := by
  obtain ⟨v, hv, hq, hp⟩ := h.queued _ b hb
  rw [← hp]
  exact pool_eq_of_queue_eq hv (worker_mem w) hq

theorem trans [DecidableEq Pid] (ht : R.Trans s s') : R.Routed s' := by
  cases ht with
  | consume | retry | close => exact h.setProducer _ (by nofun) (by nofun) (by nofun)
  | choose hi hrt =>
    exact h.setProducer _ (fun rt' hrt' => Option.some.inj hrt' ▸ hrt) (by nofun) (by nofun)
  | @wait i k rt hi =>
    have hrt := h.targets i rt (by rw [hi]; rfl)
    exact h.setProducer _ (fun rt' hrt' => Option.some.inj hrt' ▸ hrt) (by nofun) (by nofun)
  | @badPool i k rt hi hlt =>
    obtain ⟨w, hw, -, hp⟩ := h.targets i rt (by rw [hi]; rfl)
    have := (worker_lt_queueCnt hw).2
    omega
  | @pop i rt b rest hi hp =>
    have hrt := h.targets i rt (by rw [hi]; rfl)
    have hmem : ∀ c ∈ b :: rest, c.1 = rt.source_pool := hp ▸ h.home rt.source_pool
    refine Routed.setPool ?_ fun c hc => hmem c (List.mem_cons_of_mem _ hc)
    refine h.setProducer _ (fun rt' hrt' => Option.some.inj hrt' ▸ hrt) ?_ (by nofun)
    rintro _ _ ⟨⟩
    exact hmem b (by simp)
  | @release i rt b hi hlt =>
    obtain ⟨w, hw, hq, hp⟩ := h.targets i rt (by rw [hi]; rfl)
    have hb := h.held i rt b hi
    exact Routed.setFifo (h.setProducer _ (by nofun) (by nofun) (by nofun)) (List.forall_mem_append.2
      ⟨h.queued _, List.forall_mem_singleton.2 ⟨w, hw, hq, hp.trans hb.symm⟩⟩)
  | @badTarget i rt b hi hlt =>
    obtain ⟨w, hw, hq, -⟩ := h.targets i rt (by rw [hi]; rfl)
    have := (worker_lt_queueCnt hw).1
    omega
  | closeFifo => exact { h with }
  | allocate hw ha hj => exact (h.setFirer _ (by nofun)).free rfl
  | openPip | finish => exact h.setFirer _ (by nofun)
  | @take w b rest hw hq =>
    have hmem : ∀ c ∈ b :: rest, c ∈ s.ready_fifo (R.worker w).target_queue := hq ▸ fun _ hc => hc
    refine Routed.setFifo (h.setFirer _ ?_) fun c hc =>
      h.queued _ c (hmem c (List.mem_cons_of_mem _ hc))
    rintro _ ⟨⟩
    exact h.pool_eq (hmem b (by simp))
  | @free w b hw => exact (h.setFirer _ (by nofun)).free (h.consuming w b hw)
  | drained hw hq hc =>
    refine h.setFirer _ fun b heq => ?_
    split_ifs at heq
  | reclaim hw hk hp =>
    refine Routed.setPool (h.setFirer _ (by nofun)) fun c hc => h.home _ c ?_
    rw [hp]
    exact List.mem_cons_of_mem _ hc

end Routed

end

end Router

/-! ## Shutdown -/

/-- A firer that has left its queue. -/
def Firer.isDone : Firer → Bool
  | .reclaiming _ | .finished => true
  | _ => false

namespace Router

section

variable {topo : Topology} {R : Router Ptr topo} {s s' : R.St Pid}

variable (R) in
/-- Firers keep to their duties, and leave their queues when nothing can come any more. -/
structure Phased (s : R.St Pid) : Prop where
  starting : ∀ w j, s.firer w = .starting j → j ≤ R.slack
  reclaiming : ∀ w k, s.firer w = .reclaiming k →
    (R.worker w).should_allocate_queue_buffs ∧ k ≤ R.slack
  drained : ∀ w, (s.firer w).isDone →
    (R.worker w).target_queue < s.closed_fifos ∧ s.ready_fifo (R.worker w).target_queue = []
  closing : 0 < s.closed_fifos → ∀ i, s.producer i = .closed
  closed_le : s.closed_fifos ≤ R.queueCnt

namespace Phased

variable (h : R.Phased s)
include h

theorem closed_fifos_eq_zero {i : Pid} (hi : s.producer i ≠ .closed) : s.closed_fifos = 0 := by
  by_contra hne
  exact hi (h.closing (Nat.pos_of_ne_zero hne) i)

/-- Only a producer that has not closed moves. -/
theorem setProducer [DecidableEq Pid] {i : Pid} (hi : s.producer i ≠ .closed)
    (x : Producer) : R.Phased (s.setProducer i x) :=
  { h with closing := fun hc => absurd (h.closed_fifos_eq_zero hi) (Nat.ne_of_gt hc) }

theorem setFirer (w : R.Wid) (hs : ∀ j, x = .starting j → j ≤ R.slack)
    (hr : ∀ k, x = .reclaiming k → (R.worker w).should_allocate_queue_buffs ∧ k ≤ R.slack)
    (hd : x.isDone → (R.worker w).target_queue < s.closed_fifos ∧
      s.ready_fifo (R.worker w).target_queue = []) : R.Phased (s.setFirer w x) :=
  { h with
    starting := (forall_update_iff s.firer fun _ x => ∀ j, x = .starting j → j ≤ R.slack).2
      ⟨hs, fun v _ => h.starting v⟩
    reclaiming := (forall_update_iff s.firer fun v x => ∀ k, x = .reclaiming k →
      (R.worker v).should_allocate_queue_buffs ∧ k ≤ R.slack).2 ⟨hr, fun v _ => h.reclaiming v⟩
    drained := (forall_update_iff s.firer fun v x => x.isDone →
      (R.worker v).target_queue < s.closed_fifos ∧ s.ready_fifo (R.worker v).target_queue = []).2
        ⟨hd, fun v _ => h.drained v⟩ }

theorem setPool (p : ℕ) (bs : List Buffer) : R.Phased (s.setPool p bs) :=
  { h with }

/-- A queue changes only while no firer has left it. -/
theorem setFifo {bs : List Buffer}
    (hq : ∀ w, (R.worker w).target_queue = q → (s.firer w).isDone = false) : R.Phased (s.setFifo q bs) :=
  { h with
    drained := fun w hw => by
      have hne : (R.worker w).target_queue ≠ q := fun heq => by cases (hq w heq).symm.trans hw
      simpa [State.setFifo, hne] using h.drained w hw }

theorem trans [DecidableEq Pid] (ht : R.Trans s s') : R.Phased s' := by
  cases ht with
  | consume hi | choose hi | retry hi | wait hi | badPool hi | badTarget hi | close hi =>
    exact h.setProducer (by simp [hi]) _
  | pop hi hp => exact (h.setProducer (by simp [hi]) _).setPool _ _
  | @release i rt b hi hlt =>
    have hzero := h.closed_fifos_eq_zero (i := i) (by simp [hi])
    refine (h.setProducer (by simp [hi]) _).setFifo fun w _ => ?_
    by_contra hd
    have := (h.drained w (by simpa [State.setProducer] using hd)).1
    omega
  | closeFifo hall hlt =>
    refine { h with drained := fun w hw => ?_, closing := fun _ => hall, closed_le := hlt }
    exact (h.drained w hw).imp_left Nat.lt_succ_of_lt
  | allocate hw ha hj =>
    refine (h.setFirer _ ?_ (by nofun) (by nofun)).setPool _ _
    rintro _ ⟨⟩
    exact hj
  | openPip => exact h.setFirer _ (by nofun) (by nofun) (by nofun)
  | @take w b rest hw hq =>
    refine (h.setFirer _ (by nofun) (by nofun) (by nofun)).setFifo fun v hv => ?_
    -- A firer that had left the queue would have left it empty.
    by_cases hvw : v = w
    · simp [State.setFirer, hvw, Firer.isDone]
    · by_contra hd
      have hempty := (h.drained v (by simpa [State.setFirer, hvw] using hd)).2
      rw [hv, hq] at hempty
      cases hempty
  | free => exact (h.setFirer _ (by nofun) (by nofun) (by nofun)).setPool _ _
  | @drained w hw hq hc =>
    refine h.setFirer _ ?_ ?_ (fun _ => ⟨hc, hq⟩)
    · intro j heq
      split_ifs at heq
    · intro k heq
      split_ifs at heq with ha
      cases heq
      exact ⟨ha, Nat.zero_le _⟩
  | @reclaim w k b rest hw hk hp =>
    refine (h.setFirer _ (by nofun) ?_ fun _ => h.drained w (by simp [hw, Firer.isDone])).setPool _ _
    rintro _ ⟨⟩
    exact ⟨(h.reclaiming w k hw).1, hk⟩
  | @finish w hw =>
    exact h.setFirer _ (by nofun) (by nofun) fun _ => h.drained w (by simp [hw, Firer.isDone])

end Phased

end

end Router

end Proteus.Routing
