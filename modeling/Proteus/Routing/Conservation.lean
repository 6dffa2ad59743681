import Mathlib.Algebra.BigOperators.Fin
import Proteus.Routing.Pools

/-!
# Conservation of the buffers of a pool

The free buffers of a pool, those in flight and those its firer has not yet allocated or has acquired
back add up to `slack` (`Balanced`). Together with the routes and phases of `Pools` this gives that
no firer blocks for ever at shutdown: while one waits, a buffer of its pool is in a queue or with a
firer that can move (`Inv.progress`), and every step is one of finitely many (`Inv.remaining_lt`).

With a consumer on a GPU an evaluation does not meet `Router.Agrees`: its buffer is acquired from the
pool of a CPU node and freed into the GPU's, and the CPU node's firer waits for it for ever
(`reclaim_blocks`).
-/

namespace Proteus.Routing

open Finset Function List

/-! ## Counting -/

/-- Buffers of the pool `p` in a producer's hands. -/
def Producer.held (p : ℕ) : Producer → ℕ
  | .holding _ b => if b.1 = p then 1 else 0
  | _ => 0

/-- Buffers of the pool `p` in a firer's hands. -/
def Firer.held (p : ℕ) : Firer → ℕ
  | .consuming b => if b.1 = p then 1 else 0
  | _ => 0

/-- Of the `slack` buffers of its pool, those the allocating firer has not allocated yet or has
acquired back. -/
def Firer.outside (slack : ℕ) : Firer → ℕ
  | .starting j => slack - j
  | .reclaiming k => k
  | .finished => slack
  | _ => 0

open State

variable {Ptr Pid : Type*} {x : Firer} {q : ℕ}

namespace Router

section

variable {topo : Topology} [Fintype Pid] (R : Router Ptr topo) {s s' : R.St Pid}

/-- Buffers of the pool `p` that are neither in it nor outside the router. -/
def inFlight (s : R.St Pid) (p : ℕ) : ℕ :=
  ∑ i, (s.producer i).held p +
    ∑ q ∈ Finset.range R.queueCnt, (s.ready_fifo q).countP (fun b => decide (b.1 = p)) +
      ∑ w, (s.firer w).held p

/-- Buffers of the pool `p` outside the router. -/
def outside (s : R.St Pid) (p : ℕ) : ℕ :=
  ∑ w, if (R.worker w).allocates p then (s.firer w).outside R.slack else 0

/-- The firers that allocate the pool `p`. -/
def allocators (p : ℕ) : ℕ := ∑ w : R.Wid, if (R.worker w).allocates p then 1 else 0

def Balanced (s : R.St Pid) : Prop :=
  ∀ p, (s.free_pool p).length + R.inFlight s p + R.outside s p = R.slack * R.allocators p

variable {R}

theorem inFlight_setProducer [DecidableEq Pid] (s : R.St Pid) (i : Pid) (x : Producer) (p : ℕ) :
    R.inFlight (s.setProducer i x) p + (s.producer i).held p =
      R.inFlight s p + x.held p := by
  have h := sum_update_add (mem_univ i) s.producer x fun _ y => y.held p
  simp only [inFlight, setProducer]
  omega

theorem inFlight_setFirer (s : R.St Pid) (w : R.Wid) (x : Firer) (p : ℕ) :
    R.inFlight (s.setFirer w x) p + (s.firer w).held p = R.inFlight s p + x.held p := by
  have h := sum_update_add (mem_univ w) s.firer x fun _ y => y.held p
  simp only [inFlight, setFirer]
  omega

theorem inFlight_setFifo (s : R.St Pid) (hq : q < R.queueCnt) (bs : List Buffer) (p : ℕ) :
    R.inFlight (s.setFifo q bs) p + (s.ready_fifo q).countP (fun b => decide (b.1 = p)) =
      R.inFlight s p + bs.countP fun b => decide (b.1 = p) := by
  have h := sum_update_add (mem_range.2 hq) s.ready_fifo bs
    fun _ y => y.countP fun b => decide (b.1 = p)
  simp only [inFlight, setFifo]
  omega

omit [Fintype Pid] in
theorem outside_setFirer (s : R.St Pid) (w : R.Wid) (x : Firer) (p : ℕ) : R.outside (s.setFirer w x) p +
        (if (R.worker w).allocates p then (s.firer w).outside R.slack else 0) =
      R.outside s p + if (R.worker w).allocates p then x.outside R.slack else 0 :=
  sum_update_add (mem_univ w) s.firer x
    fun v y => if (R.worker v).allocates p then y.outside R.slack else 0

omit [Fintype Pid] in
theorem length_setPool (s : R.St Pid) (q : ℕ) (bs : List Buffer) (p : ℕ) :
    ((s.setPool q bs).free_pool p).length + (if q = p then (s.free_pool q).length else 0) =
      (s.free_pool p).length + if q = p then bs.length else 0 := by
  by_cases h : q = p
  · subst h
    simp [setPool, Nat.add_comm]
  · simp [setPool, h, Ne.symm h]

omit [Fintype Pid] in
theorem length_free (s : R.St Pid) (q : ℕ) (b : Buffer) (p : ℕ) :
    ((s.setPool q (s.free_pool q ++ [b])).free_pool p).length =
      (s.free_pool p).length + if q = p then 1 else 0 := by
  have h := length_setPool s q (s.free_pool q ++ [b]) p
  rw [length_append] at h
  split_ifs at h ⊢ <;> simp at h ⊢ <;> omega

namespace Balanced

/-- A producer that takes or gives up no buffer changes no count. -/
theorem setProducer [DecidableEq Pid] (h : R.Balanced s) {i : Pid} {x : Producer}
    (hi : ∀ p, (s.producer i).held p = 0) (hx : ∀ p, x.held p = 0) : R.Balanced (s.setProducer i x) := by
  intro p
  have hflight := inFlight_setProducer s i x p
  have hbal := h p
  rw [hi, hx] at hflight
  show (s.free_pool p).length + _ + R.outside s p = _
  omega

/-- A firer that takes or gives up no buffer, of a pool or of its queue. -/
theorem setFirer (h : R.Balanced s) {w : R.Wid} (hw : ∀ p, (s.firer w).held p = 0)
    (hx : ∀ p, x.held p = 0) (hout : (R.worker w).should_allocate_queue_buffs →
      (s.firer w).outside R.slack = x.outside R.slack) : R.Balanced (s.setFirer w x) := by
  intro p
  have hflight := inFlight_setFirer s w x p
  have houtside := outside_setFirer s w x p
  have hbal := h p
  rw [hw, hx] at hflight
  have hsame : (if (R.worker w).allocates p then (s.firer w).outside R.slack else 0) =
      if (R.worker w).allocates p then x.outside R.slack else 0 := by
    split_ifs with ha
    · exact hout (Worker.allocates_iff.1 ha).1
    · rfl
  show (s.free_pool p).length + _ + _ = _
  omega

theorem trans [DecidableEq Pid] (h : R.Balanced s) (hr : R.Routed s) (hph : R.Phased s)
    (ht : R.Trans s s') : R.Balanced s' := by
  cases ht with
  | consume hi | choose hi | retry hi | wait hi | badPool hi | close hi =>
    exact h.setProducer (by simp [hi, Producer.held]) (by simp [Producer.held])
  | @pop i rt b rest hi hp =>
    intro p
    have hflight := inFlight_setProducer s i (.holding rt b) p
    have hlen := length_setPool s rt.source_pool rest p
    have hbal := h p
    have hb : b.1 = rt.source_pool := hr.home _ b (by simp [hp])
    show ((s.setPool _ _).free_pool p).length + R.inFlight (s.setProducer i _) p + R.outside s p = _
    simp only [hi, Producer.held, hb, hp, length_cons] at hflight hlen
    split_ifs at hflight hlen <;> omega
  | @release i rt b hi hlt =>
    intro p
    have hflight := inFlight_setProducer s i .idle p
    have hfifo := inFlight_setFifo (s.setProducer i .idle) hlt (s.ready_fifo rt.target ++ [b]) p
    have hbal := h p
    rw [countP_append, countP_singleton] at hfifo
    simp only [hi, Producer.held, decide_eq_true_eq] at hflight hfifo
    show (s.free_pool p).length + _ + R.outside s p = _
    simp only [State.setProducer] at hflight hfifo ⊢
    omega
  | @badTarget i rt b hi hlt =>
    obtain ⟨w, hw, hq, -⟩ := hr.targets i rt (by rw [hi]; rfl)
    have := (worker_lt_queueCnt hw).1
    omega
  | closeFifo hall hlt => exact h
  | @allocate w j hw ha hj =>
    intro p
    have hflight := inFlight_setFirer s w (.starting (j + 1)) p
    have hout := outside_setFirer s w (.starting (j + 1)) p
    have hlen := length_free s (R.worker w).source_free_pool ((R.worker w).source_free_pool, j) p
    have hbal := h p
    simp only [hw, Firer.held, Firer.outside, Worker.allocates_iff, ha, true_and] at hflight hout
    show ((s.setPool _ _).free_pool p).length + R.inFlight (s.setFirer w _) p +
      R.outside (s.setFirer w _) p = _
    split_ifs at hout hlen <;> omega
  | @openPip w j hw hj =>
    refine h.setFirer (by simp [hw, Firer.held]) (by simp [Firer.held]) fun ha => ?_
    simp [hw, Firer.outside, hj ha]
  | @take w b rest hw hq =>
    intro p
    have hflight := inFlight_setFirer s w (.consuming b) p
    have hout := outside_setFirer s w (.consuming b) p
    have hfifo := inFlight_setFifo (s.setFirer w (.consuming b)) (worker_lt_queueCnt (worker_mem w)).1
      rest p
    have hbal := h p
    have hfront : (s.setFirer w (.consuming b)).ready_fifo (R.worker w).target_queue = b :: rest :=
      hq
    rw [hfront, countP_cons] at hfifo
    simp only [hw, Firer.held, Firer.outside, decide_eq_true_eq, ite_self] at hflight hfifo hout
    show (s.free_pool p).length + _ + R.outside (s.setFirer w _) p = _
    omega
  | @free w b hw =>
    intro p
    have hflight := inFlight_setFirer s w .running p
    have hout := outside_setFirer s w .running p
    have hlen := length_free s (R.worker w).source_free_pool b p
    have hbal := h p
    have hb := hr.consuming w b hw
    simp only [hw, Firer.held, Firer.outside, ite_self, hb] at hflight hout
    show ((s.setPool _ _).free_pool p).length + R.inFlight (s.setFirer w _) p +
      R.outside (s.setFirer w _) p = _
    split_ifs at hflight hlen <;> omega
  | @drained w hw hq hc =>
    refine h.setFirer (by simp [hw, Firer.held]) (fun p => ?_) fun ha => ?_
    · split_ifs <;> rfl
    · rw [hw, if_pos ha]
      rfl
  | @reclaim w k b rest hw hk hp =>
    intro p
    have hflight := inFlight_setFirer s w (.reclaiming (k + 1)) p
    have hout := outside_setFirer s w (.reclaiming (k + 1)) p
    have hlen := length_setPool s (R.worker w).source_free_pool rest p
    have hbal := h p
    have ha := (hph.reclaiming w k hw).1
    simp only [hw, Firer.held, Firer.outside, Worker.allocates_iff, ha, true_and, hp,
      length_cons] at hflight hout hlen
    show ((s.setPool _ _).free_pool p).length + R.inFlight (s.setFirer w _) p +
      R.outside (s.setFirer w _) p = _
    split_ifs at hout hlen <;> omega
  | @finish w hw =>
    exact h.setFirer (by simp [hw, Firer.held]) (by simp [Firer.held]) fun _ => by rw [hw]; rfl

end Balanced

end

end Router

/-! ## The invariant -/

/-- How many steps a firer has left, not counting the buffers of its queue. -/
def Firer.rank (slack : ℕ) : Firer → ℕ
  | .starting j => 2 * slack + 4 - j
  | .running => slack + 2
  | .consuming _ => slack + 3
  | .reclaiming k => slack + 1 - k
  | .finished => 0

namespace Router

section

variable {topo : Topology} [Fintype Pid] {R : Router Ptr topo} {s s' : R.St Pid}

variable (R) in
structure Inv (s : R.St Pid) : Prop where
  routed : R.Routed s
  phased : R.Phased s
  balanced : R.Balanced s

theorem Inv.trans [DecidableEq Pid] (h : R.Inv s) (ht : R.Trans s s') : R.Inv s' :=
  ⟨h.routed.trans ht, h.phased.trans ht, h.balanced.trans h.routed h.phased ht⟩

theorem inv_init : R.Inv (R.init : R.St Pid) where
  routed := ⟨nofun, nofun, nofun, nofun, nofun, nofun⟩
  phased := ⟨by rintro _ _ ⟨⟩; exact Nat.zero_le _, nofun, nofun, nofun, Nat.zero_le _⟩
  balanced := by
    intro p
    simp [init, inFlight, outside, allocators, Producer.held, Firer.held, Firer.outside,
      sum_ite, Nat.mul_comm]

/-- A pool with a firer is allocated by exactly one. -/
theorem allocators_eq_one (w : R.Wid) : R.allocators (R.worker w).source_free_pool = 1 := by
  have hcount : ∀ (l : List Worker) (p : ℕ),
      (l.map fun x => if x.allocates p then 1 else 0).sum = l.countP (Worker.allocates p) := by
    intro l p
    induction l with
    | nil => rfl
    | cons x l ih =>
      rw [List.map_cons, List.sum_cons, countP_cons, ih, Nat.add_comm]
  have hsum := Fin.sum_univ_fun_getElem R.workers
    fun x => if x.allocates (R.worker w).source_free_pool then 1 else 0
  rw [← countP_allocates (worker_mem w), ← hcount, ← hsum]
  rfl

omit [Fintype Pid] in
/-- What is outside of a pool is with its only allocator. -/
theorem outside_eq (s : R.St Pid) {w : R.Wid} (ha : (R.worker w).should_allocate_queue_buffs) :
    R.outside s (R.worker w).source_free_pool = (s.firer w).outside R.slack := by
  have hone := allocators_eq_one w
  rw [allocators, ← card_filter, card_eq_one] at hone
  obtain ⟨v, hv⟩ := hone
  have hw : w ∈ univ.filter fun v : R.Wid =>
      (R.worker v).allocates (R.worker w).source_free_pool :=
    mem_filter.2 ⟨mem_univ w, Worker.allocates_iff.2 ⟨ha, rfl⟩⟩
  rw [hv, Finset.mem_singleton] at hw
  subst hw
  rw [outside, ← sum_filter, hv, Finset.sum_singleton]

/-- Free buffers, buffers in flight and buffers outside of a pool that has a firer. -/
theorem Inv.account (h : R.Inv s) {w : R.Wid} (ha : (R.worker w).should_allocate_queue_buffs) :
    (s.free_pool (R.worker w).source_free_pool).length +
        R.inFlight s (R.worker w).source_free_pool + (s.firer w).outside R.slack = R.slack := by
  have hbal := h.balanced (R.worker w).source_free_pool
  rwa [allocators_eq_one, outside_eq s ha, Nat.mul_one] at hbal

/-! ## No firer blocks for ever -/

/-- A pool some of whose buffers are elsewhere has room for one, if `slack` fits its slots. -/
theorem Inv.length_lt (h : R.Inv s) (hslack : R.slack ≤ AsyncQueueMPMC.N) {w : R.Wid}
    (hmissing : 0 < R.inFlight s (R.worker w).source_free_pool +
      R.outside s (R.worker w).source_free_pool) :
    (s.free_pool (R.worker w).source_free_pool).length < AsyncQueueMPMC.N := by
  have hbal := h.balanced (R.worker w).source_free_pool
  rw [allocators_eq_one, Nat.mul_one] at hbal
  omega

/-- Once the producers have closed, a firer can move, has finished, or waits for a buffer. -/
theorem Inv.firer_cases [DecidableEq Pid] (Θ : Type*) [Throughput Θ] (h : R.Inv s)
    (hslack : R.slack ≤ AsyncQueueMPMC.N) (hclosed : s.closed_fifos = R.queueCnt) (w : R.Wid) :
    (∃ a : R.Act Pid Θ, (R.step s a).isSome) ∨ s.firer w = .finished ∨
      ∃ k, s.firer w = .reclaiming k ∧ k < R.slack ∧
        s.free_pool (R.worker w).source_free_pool = [] := by
  cases hw : s.firer w with
  | starting j =>
    left
    by_cases hj : (R.worker w).should_allocate_queue_buffs ∧ j < R.slack
    · have hroom := h.length_lt hslack (w := w) <| by
        rw [outside_eq s hj.1, hw, Firer.outside]
        omega
      exact ⟨.allocate w, by simp [step, firerStep, hw, hj, hroom]⟩
    · have hle := h.phased.starting w j hw
      have hfull : (R.worker w).should_allocate_queue_buffs → j = R.slack := by
        intro ha
        have := not_and.1 hj ha
        omega
      refine ⟨.openPip w, ?_⟩
      simp only [step, firerStep, hw]
      rw [if_pos hfull]
      rfl
  | running =>
    left
    cases hq : s.ready_fifo (R.worker w).target_queue with
    | nil =>
      have hlt := (worker_lt_queueCnt (worker_mem w)).1
      exact ⟨.drained w, by simp [step, firerStep, hw, hq, hclosed, hlt]⟩
    | cons b rest => exact ⟨.take w, by simp [step, firerStep, hw, hq]⟩
  | consuming b =>
    have hflight := inFlight_setFirer s w .running (R.worker w).source_free_pool
    simp only [hw, Firer.held, if_pos (h.routed.consuming w b hw)] at hflight
    have hroom := h.length_lt hslack (w := w) (by omega)
    exact .inl ⟨.free w, by simp [step, firerStep, hw, hroom]⟩
  | reclaiming k =>
    have hle := (h.phased.reclaiming w k hw).2
    by_cases hk : k = R.slack
    · exact .inl ⟨.finish w, by simp [step, firerStep, hw, hk]⟩
    · have hlt : k < R.slack := by omega
      cases hp : s.free_pool (R.worker w).source_free_pool with
      | nil => exact .inr (.inr ⟨k, rfl, hlt, rfl⟩)
      | cons b rest => exact .inl ⟨.reclaim w, by simp [step, firerStep, hw, hlt, hp]⟩
  | finished => exact .inr (.inl rfl)

/-- A buffer in flight after the producers have closed is in a queue or with a firer. -/
theorem exists_of_inFlight {p : ℕ} (hp : 0 < R.inFlight s p) (hall : ∀ i, s.producer i = .closed) :
    (∃ q, ∃ b ∈ s.ready_fifo q, b.1 = p) ∨ ∃ w b, s.firer w = .consuming b := by
  have hproducers : ∑ i, (s.producer i).held p = 0 :=
    sum_eq_zero fun i _ => by rw [hall i]; rfl
  rw [inFlight, hproducers, Nat.zero_add] at hp
  rcases Nat.add_pos_iff_pos_or_pos.1 hp with hq | hw
  · obtain ⟨q, -, hq⟩ := exists_ne_zero_of_sum_ne_zero hq.ne'
    obtain ⟨b, hb, hbp⟩ := countP_pos_iff.1 (Nat.pos_of_ne_zero hq)
    exact .inl ⟨q, b, hb, of_decide_eq_true hbp⟩
  · obtain ⟨w, -, hw⟩ := exists_ne_zero_of_sum_ne_zero hw.ne'
    cases hf : s.firer w with
    | consuming b => exact .inr ⟨w, b, hf⟩
    | _ => rw [hf] at hw; exact absurd rfl hw

/-- After the producers have closed, some step is possible until all firers have finished. -/
theorem Inv.progress [DecidableEq Pid] (Θ : Type*) [Throughput Θ] (h : R.Inv s)
    (hslack : R.slack ≤ AsyncQueueMPMC.N) (hall : ∀ i, s.producer i = .closed)
    (hstuck : ∀ a : R.Act Pid Θ, R.step s a = none)
    (w : R.Wid) : s.firer w = .finished := by
  have hnone : ¬∃ a : R.Act Pid Θ, (R.step s a).isSome := by
    intro hex
    obtain ⟨a, ha⟩ := hex
    rw [hstuck a] at ha
    cases ha
  have hclosed : s.closed_fifos = R.queueCnt := by
    have hlast := hstuck .closeFifo
    have hle := h.phased.closed_le
    simp only [step] at hlast
    split_ifs at hlast with hc
    have hge := not_lt.1 (not_and.1 hc hall)
    omega
  have hcases := fun v => (h.firer_cases Θ hslack hclosed v).resolve_left hnone
  rcases hcases w with hfin | hwait
  · exact hfin
  · -- A buffer of its pool is in flight, but nobody is left to bring it.
    exfalso
    obtain ⟨k, hw, hk, hp⟩ := hwait
    have hacc := h.account (h.phased.reclaiming w k hw).1
    rw [hp, hw] at hacc
    simp only [length_nil, Firer.outside] at hacc
    have hdone : ∀ v, (s.firer v).isDone := by
      intro v
      rcases hcases v with hv | ⟨j, hv, -⟩ <;> rw [hv] <;> rfl
    have hflight : 0 < R.inFlight s (R.worker w).source_free_pool := by omega
    rcases exists_of_inFlight hflight hall with ⟨q, b, hb, -⟩ | ⟨v, b, hv⟩
    · obtain ⟨x, hx, hq, -⟩ := h.routed.queued q b hb
      obtain ⟨v, rfl⟩ := get_of_mem hx
      have hempty := (h.phased.drained v (hdone v)).2
      rw [show (R.worker v).target_queue = q from hq] at hempty
      rw [hempty] at hb
      cases hb
    · have := hdone v
      rw [hv] at this
      cases this

variable (R) in
/-- A bound on the steps left once the producers have closed. -/
def remaining (s : R.St Pid) : ℕ :=
  (R.queueCnt - s.closed_fifos) + ∑ w, (s.firer w).rank R.slack +
    2 * ∑ q ∈ Finset.range R.queueCnt, (s.ready_fifo q).length

omit [Fintype Pid] in
theorem remaining_setFirer (s : R.St Pid) (w : R.Wid) (x : Firer) :
    R.remaining (s.setFirer w x) + (s.firer w).rank R.slack =
      R.remaining s + x.rank R.slack := by
  have h := sum_update_add (mem_univ w) s.firer x fun _ y => y.rank R.slack
  simp only [remaining, setFirer]
  omega

omit [Fintype Pid] in
theorem remaining_setFirer_lt {w : R.Wid}
    (hx : x.rank R.slack < (s.firer w).rank R.slack) : R.remaining (s.setFirer w x) < R.remaining s := by
  have := remaining_setFirer s w x
  omega

omit [Fintype Pid] in
theorem remaining_setFifo (s : R.St Pid) (hq : q < R.queueCnt) (bs : List Buffer) :
    R.remaining (s.setFifo q bs) + 2 * (s.ready_fifo q).length =
      R.remaining s + 2 * bs.length := by
  have h := sum_update_add (mem_range.2 hq) s.ready_fifo bs fun _ y => y.length
  simp only [remaining, setFifo]
  omega

/-- Every step after the producers have closed is one of the remaining ones. -/
theorem Inv.remaining_lt [DecidableEq Pid] (h : R.Inv s) (hall : ∀ i, s.producer i = .closed)
    (ht : R.Trans s s') : R.remaining s' < R.remaining s ∧ ∀ i, s'.producer i = .closed := by
  cases ht with
  | closeFifo _ hlt =>
    refine ⟨?_, hall⟩
    simp only [remaining]
    omega
  | @allocate w j hw ha hj =>
    exact ⟨show R.remaining (s.setFirer w (.starting (j + 1))) < _ from
      remaining_setFirer_lt (by simp only [hw, Firer.rank]; omega), hall⟩
  | @openPip w j hw hj =>
    have hle := h.phased.starting w j hw
    exact ⟨remaining_setFirer_lt (by simp only [hw, Firer.rank]; omega), hall⟩
  | @take w b rest hw hq =>
    have hrank := remaining_setFirer s w (.consuming b)
    have hfifo := remaining_setFifo (s.setFirer w (.consuming b))
      (worker_lt_queueCnt (worker_mem w)).1 rest
    have hfront : (s.setFirer w (.consuming b)).ready_fifo (R.worker w).target_queue = b :: rest :=
      hq
    rw [hfront, length_cons] at hfifo
    simp only [hw, Firer.rank] at hrank
    exact ⟨by omega, hall⟩
  | @free w b hw =>
    exact ⟨show R.remaining (s.setFirer w .running) < _ from
      remaining_setFirer_lt (by simp [hw, Firer.rank]), hall⟩
  | @drained w hw hq hc =>
    refine ⟨remaining_setFirer_lt ?_, hall⟩
    rw [hw]
    split_ifs <;> simp [Firer.rank]
  | @reclaim w k b rest hw hk hp =>
    exact ⟨show R.remaining (s.setFirer w (.reclaiming (k + 1))) < _ from
      remaining_setFirer_lt (by simp only [hw, Firer.rank]; omega), hall⟩
  | @finish w hw => exact ⟨remaining_setFirer_lt (by simp [hw, Firer.rank]), hall⟩
  | @consume i hi | @choose i _ _ hi | @retry i _ _ hi | @wait i _ _ hi | @badPool i _ _ hi
  | @pop i _ _ _ hi | @release i _ _ hi | @badTarget i _ _ hi | @close i hi =>
    rw [hall i] at hi
    cases hi

/-- After the producers have closed, no run goes on for longer than the remaining steps, and a run
that cannot go on has all firers finished. -/
theorem Inv.shutdown [DecidableEq Pid] {Θ : Type*} [Throughput Θ] (h : R.Inv s)
    (hslack : R.slack ≤ AsyncQueueMPMC.N) (hall : ∀ i, s.producer i = .closed)
    {as : List (R.Act Pid Θ)} (hexec : exec R.step s as = some s') :
    as.length ≤ R.remaining s ∧
      ((∀ a : R.Act Pid Θ, R.step s' a = none) → ∀ w, s'.firer w = .finished) := by
  obtain ⟨⟨h', hall'⟩, hlen⟩ := length_add_le_of_exec
    (I := fun s => R.Inv s ∧ ∀ i, s.producer i = .closed) hexec ⟨h, hall⟩ fun s a s' ⟨h, hall⟩ hstep => by
      -- Nothing is evaluated any more.
      have hok : R.Orderly s a := by
        cases a with
        | evaluate i call =>
          simp only [step, hall i, producerStep] at hstep
          cases hstep
        | _ => trivial
      have ht := trans_of_step hok hstep
      obtain ⟨hlt, hall'⟩ := h.remaining_lt hall ht
      exact ⟨⟨h.trans ht, hall'⟩, hlt⟩
  exact ⟨Nat.le_of_add_right_le hlen, h'.progress Θ hslack hall'⟩

end

section

variable {Ptr Θ Pid : Type*} {topo : Topology} [Throughput Θ] [Fintype Pid] [DecidableEq Pid]

/-- Conservation of the buffers of every pool. -/
structure Conserved (R : Router Ptr topo) (Θ : Type*) [Throughput Θ] (s : R.St Pid) : Prop where
  /-- A pool that is acquired from is allocated, by one firer. -/
  acquired_allocated : ∀ i rt, (s.producer i).target? = some rt → R.allocators rt.source_pool = 1
  /-- A buffer comes from the pool it was allocated for, and is freed into that pool. -/
  acquired_home : ∀ i rt b, s.producer i = .holding rt b → b.1 = rt.source_pool
  freed_home : ∀ w b, s.firer w = .consuming b → b.1 = (R.worker w).source_free_pool
  pool_home : ∀ p, ∀ b ∈ s.free_pool p, b.1 = p
  not_thrown : ∀ i, s.producer i ≠ .thrown
  /-- While the firer that allocated a pool serves its queue. -/
  conserved : ∀ w, (R.worker w).should_allocate_queue_buffs →
    (s.firer w = .running ∨ ∃ b, s.firer w = .consuming b) →
    (s.free_pool (R.worker w).source_free_pool).length +
      R.inFlight s (R.worker w).source_free_pool = R.slack
  /-- At any time, with what is not allocated yet and what has been acquired back. -/
  account : ∀ w, (R.worker w).should_allocate_queue_buffs →
    (s.free_pool (R.worker w).source_free_pool).length +
      R.inFlight s (R.worker w).source_free_pool + (s.firer w).outside R.slack = R.slack
  /-- After the last `close` no firer blocks for ever. -/
  shutdown : (∀ i, s.producer i = .closed) →
    ∀ (as : List (R.Act Pid Θ)) (s' : R.St Pid), exec R.step s as = some s' →
      as.length ≤ R.remaining s ∧
        ((∀ a : R.Act Pid Θ, R.step s' a = none) → ∀ w, s'.firer w = .finished)

theorem Inv.conserved {R : Router Ptr topo} {s : R.St Pid} (h : R.Inv s)
    (hslack : R.slack ≤ AsyncQueueMPMC.N) : R.Conserved Θ s where
  acquired_allocated i rt hi := by
    obtain ⟨x, hx, -, hp⟩ := h.routed.targets i rt hi
    obtain ⟨w, rfl⟩ := get_of_mem hx
    rw [← hp]
    exact allocators_eq_one w
  acquired_home := h.routed.held
  freed_home := h.routed.consuming
  pool_home := h.routed.home
  not_thrown := h.routed.not_thrown
  conserved w ha hw := by
    have hacc := h.account ha
    rcases hw with hw | ⟨b, hw⟩
    all_goals
      rwa [hw] at hacc
  account _ ha := h.account ha
  shutdown hall _ _ hexec := h.shutdown hslack hall hexec

/-- **Conservation.** In every run in which every evaluation is of inputs for which the policy and
the workers agree, with a `slack` that fits the slots of a pool. -/
theorem conserved_of_orderly (R : Router Ptr topo) (hslack : R.slack ≤ AsyncQueueMPMC.N)
    {s : R.St Pid} (h : Reach (R.step (Θ := Θ)) R.Orderly R.init s) : R.Conserved Θ s := by
  refine Inv.conserved (h.invariant (I := R.Inv) inv_init ?_) hslack
  intro s a s' hinv hok hstep
  exact hinv.trans (trans_of_step hok hstep)

end

end Router

/-! ## Runs -/

/-- A consumer on the only CPU node, next to a GPU. -/
def cpuConsumer : Consumer Unit ⟨1, 1⟩ where
  target_device := .CPU
  aff := Affinitizer.allCUs (fun _ _ => ⟨0, by decide⟩) (by decide)
  fanout := 1

variable (consumers : List (Consumer Unit ⟨1, 1⟩))

/-- A router with one buffer per pool. -/
def splitRouter : Router Unit ⟨1, 1⟩ where
  policy := .distinct .randomSplitPreferDataLocal
  consumers := consumers
  numaOf _ _ := ⟨0, by decide⟩
  slack := 1
  cpu_pos := by decide
  implemented := by decide

/-- A first attempt that draws `rand_int`. -/
def firstAttempt (hn : 0 < consumers.length) (rand_int : ℕ) : Call Unit ℚ consumers.length where
  ptr := ()
  retrycnt := 0
  rand_int := rand_int
  rand_int2 := 0
  affDraw := 0
  state := RoutingState.initial _ 0 10 hn

namespace Router

/-- One buffer on its way to the firer of the CPU consumer. -/
theorem conserved_of_orderly_one_buffer : ∃ s : (splitRouter [cpuConsumer]).St Unit,
      Reach ((splitRouter [cpuConsumer]).step (Θ := ℚ)) (splitRouter [cpuConsumer]).Orderly
        (splitRouter [cpuConsumer]).init s ∧
      s.producer () = .holding ⟨0, 0, true⟩ (0, 0) ∧ (splitRouter [cpuConsumer]).Conserved ℚ s := by
  have hagrees : (splitRouter [cpuConsumer]).Agrees (firstAttempt [cpuConsumer] (by decide) 0) :=
    ⟨rfl, by decide⟩
  have hreach : Reach ((splitRouter [cpuConsumer]).step (Θ := ℚ))
      (splitRouter [cpuConsumer]).Orderly ((splitRouter [cpuConsumer]).init : State Unit _) _ :=
    .next (Action.pop ()) (.next (Action.acquire ()) (.next
      (Action.evaluate () (firstAttempt [cpuConsumer] (by decide) 0))
      (.next (Action.consume ()) (.next (Action.allocate ⟨0, by decide⟩) .init trivial rfl)
        trivial rfl) hagrees rfl) trivial rfl) trivial rfl
  exact ⟨_, hreach, rfl, conserved_of_orderly _ (by decide) hreach⟩

/-- A buffer of the CPU node's pool goes to the GPU consumer's queue and is freed into the GPU's
pool. -/
def blockingRun : List ((splitRouter [cpuConsumer, gpuConsumer]).Act Unit ℚ) :=
  let cpu : (splitRouter [cpuConsumer, gpuConsumer]).Wid := ⟨0, by decide⟩
  let gpu : (splitRouter [cpuConsumer, gpuConsumer]).Wid := ⟨1, by decide⟩
  [.allocate cpu, .openPip cpu, .allocate gpu, .openPip gpu,
    .consume (), .evaluate () (firstAttempt [cpuConsumer, gpuConsumer] (by decide) 1), .acquire (),
    .pop (), .release (), .close (), .closeFifo, .closeFifo, .closeFifo, .closeFifo,
    .take gpu, .free gpu, .drained gpu, .reclaim gpu, .finish gpu, .drained cpu]

/-- After `close` the CPU consumer's firer waits for its buffer, which is in the other pool, and
nothing can move any more. -/
theorem reclaim_blocks : ∃ s : (splitRouter [cpuConsumer, gpuConsumer]).St Unit,
      Reach ((splitRouter [cpuConsumer, gpuConsumer]).step (Θ := ℚ)) Free
        (splitRouter [cpuConsumer, gpuConsumer]).init s ∧
      s.producer () = .closed ∧ s.firer ⟨0, by decide⟩ = .reclaiming 0 ∧ s.free_pool 0 = [] ∧
      s.free_pool 1 = [(0, 0)] ∧
      ∀ a : (splitRouter [cpuConsumer, gpuConsumer]).Act Unit ℚ,
        (splitRouter [cpuConsumer, gpuConsumer]).step s a = none := by
  refine exists_reach_of_exec blockingRun ⟨_, rfl, fun _ => ⟨rfl, rfl, rfl, rfl, fun a => ?_⟩⟩
  -- The producer has closed, the GPU consumer's firer has finished, and the other one waits.
  cases a with
  | allocate w | openPip w | take w | free w | drained w | reclaim w | finish w =>
    obtain ⟨n, hn⟩ := w
    match n, hn with
    | 0, _ => rfl
    | 1, _ => rfl
    | n + 2, hn => exact absurd (show n + 2 < 2 from hn) (by omega)
  | _ => rfl

end Router

end Proteus.Routing
