import Mathlib.Algebra.Order.BigOperators.Group.Finset
import Proteus.Machine

/-!
# The blocks of a router's workers

The worker of a target of `Router` allocates one block, carves `slack` buffers out of it and frees them
into a pool. Producers acquire buffers from a pool and release them to the queue of a target, whose
worker consumes them and frees them again. A worker whose queue is closed and empty acquires `slack`
buffers back and then frees its block.

For the policies with a pool of its own for every target these `slack` buffers are the ones it carved.
For `RANDOM` all targets share pool 0, and the worker gets any `slack` buffers: others may still hold
those of the block it frees (`freed_while_pooled`).

A pool hands its buffers out in the order of tickets that waiting threads draw in advance, so that the
threads get them in any order.

Results:

* `Conserved.trans`: whatever the policy, every carved buffer is in exactly one place;
* `Home.trans`: without a shared pool, a buffer stays with the target it was carved for;
* `blocks_unused`: no buffer of a block that is freed is anywhere else.
-/

namespace Proteus.Routing.Blocks

open Function List

/-! ## Model -/

/-- The policies that `Router::getPolicy` builds. -/
inductive RoutingPolicy
  | HASH_BASED
  | LOCAL
  | FORCE_LOCAL
  | RANDOM
  deriving DecidableEq

structure Router where
  policy_type : RoutingPolicy
  fanout : ℕ
  slack : ℕ

/-- The pool `acquireBuffer` and `freeBuffer` use for a target. -/
def Router.pool (R : Router) (target : ℕ) : ℕ := if R.policy_type = .RANDOM then 0 else target

/-- May an evaluation of the policy ask for an acquisition that does not wait? -/
def Router.may_retry (R : Router) : Bool :=
  R.policy_type = .LOCAL ∨ R.policy_type = .FORCE_LOCAL

/-- A buffer: the target whose worker carved it, and its number in the block. -/
abbrev Buffer := ℕ × ℕ

/-- Where a producer stands in `consume`. -/
inductive Producer
  | idle
  | chosen (target : ℕ) (polling : Bool)
  /-- In the blocking `pop` of the pool. -/
  | popping (target : ℕ)
  /-- Filling the buffer, and releasing it. -/
  | holding (target : ℕ) (buff : Buffer)
  | closed

/-- What a producer has been told by its last evaluation. -/
def Producer.target? : Producer → Option ℕ
  | .chosen t _ | .popping t | .holding t _ => some t
  | _ => none

/-- The buffer a producer holds. -/
def Producer.buff? : Producer → Option Buffer
  | .holding _ b => some b
  | _ => none

/-- Where a worker stands in `fire`. The buffers it has acquired back are ignored from then on. -/
inductive Firer
  | starting (carved : ℕ)
  | running
  | consuming (buff : Buffer)
  | reclaiming (acquired : List Buffer)
  /-- After `freePinned`. -/
  | freed (acquired : List Buffer)

structure State (Pid : Type*) where
  free_pool : ℕ → List Buffer
  ready_fifo : ℕ → List Buffer
  /-- The queues below this number are closed. -/
  closed_fifos : ℕ
  producer : Pid → Producer
  firer : ℕ → Firer

inductive Move (Pid : Type*)
  | evaluate (i : Pid) (target : ℕ) (polling : Bool)
  | acquire (i : Pid)
  | pop (i : Pid) (b : Buffer)
  | release (i : Pid)
  | close (i : Pid)
  | closeFifo
  | carve (w : ℕ)
  | openPip (w : ℕ)
  | take (w : ℕ)
  | free (w : ℕ)
  | leave (w : ℕ)
  | reclaim (w : ℕ) (b : Buffer)
  | freePinned (w : ℕ)

variable {Pid : Type*}

namespace State

variable [DecidableEq Pid] (s : State Pid)

def setProducer (i : Pid) (x : Producer) : State Pid :=
  { s with producer := update s.producer i x }

def setFirer (w : ℕ) (x : Firer) : State Pid := { s with firer := update s.firer w x }

def setPool (p : ℕ) (bs : List Buffer) : State Pid :=
  { s with free_pool := update s.free_pool p bs }

def setFifo (q : ℕ) (bs : List Buffer) : State Pid :=
  { s with ready_fifo := update s.ready_fifo q bs }

end State

/-- `open` has spawned the workers. -/
def init (Pid : Type*) : State Pid where
  free_pool _ := []
  ready_fifo _ := []
  closed_fifos := 0
  producer _ := .idle
  firer _ := .starting 0

section

variable [DecidableEq Pid] (R : Router)

/-- The steps of a producer. -/
def producerStep (s : State Pid) (i : Pid) : Move Pid → Producer → Option (State Pid)
  | .evaluate _ target polling, .idle =>
    if target < R.fanout ∧ (polling → R.may_retry) then
      some (s.setProducer i (.chosen target polling))
    else none
  | .acquire _, .chosen target polling =>
    if s.free_pool (R.pool target) = [] ∧ polling then some (s.setProducer i .idle)
    else some (s.setProducer i (.popping target))
  | .pop _ b, .popping target =>
    if b ∈ s.free_pool (R.pool target) then
      some ((s.setProducer i (.holding target b)).setPool (R.pool target)
        ((s.free_pool (R.pool target)).erase b))
    else none
  | .release _, .holding target b =>
    some ((s.setProducer i .idle).setFifo target (s.ready_fifo target ++ [b]))
  | .close _, .idle => some (s.setProducer i .closed)
  | _, _ => none

/-- The steps of the worker of target `w`. -/
def firerStep (s : State Pid) (w : ℕ) : Move Pid → Firer → Option (State Pid)
  | .carve _, .starting j =>
    if j < R.slack then
      some ((s.setFirer w (.starting (j + 1))).setPool (R.pool w)
        (s.free_pool (R.pool w) ++ [(w, j)]))
    else none
  | .openPip _, .starting j => if j = R.slack then some (s.setFirer w .running) else none
  | .take _, .running =>
    match s.ready_fifo w with
    | [] => none
    | b :: rest => some ((s.setFirer w (.consuming b)).setFifo w rest)
  | .free _, .consuming b =>
    some ((s.setFirer w .running).setPool (R.pool w) (s.free_pool (R.pool w) ++ [b]))
  | .leave _, .running =>
    if s.ready_fifo w = [] ∧ w < s.closed_fifos then some (s.setFirer w (.reclaiming [])) else none
  | .reclaim _ b, .reclaiming acquired =>
    if acquired.length < R.slack ∧ b ∈ s.free_pool (R.pool w) then
      some ((s.setFirer w (.reclaiming (b :: acquired))).setPool (R.pool w)
        ((s.free_pool (R.pool w)).erase b))
    else none
  | .freePinned _, .reclaiming acquired =>
    if acquired.length = R.slack then some (s.setFirer w (.freed acquired)) else none
  | _, _ => none

/-- One step. The last producer to close closes the queues; each one has to be empty before the next
is closed. -/
def step [Fintype Pid] (s : State Pid) (m : Move Pid) : Option (State Pid) :=
  match m with
  | .evaluate i _ _ | .acquire i | .pop i _ | .release i | .close i =>
    producerStep R s i m (s.producer i)
  | .closeFifo =>
    if (∀ i, s.producer i matches .closed) ∧ s.closed_fifos < R.fanout ∧
        ∀ q < s.closed_fifos, s.ready_fifo q = [] then
      some { s with closed_fifos := s.closed_fifos + 1 }
    else none
  | .carve w | .openPip w | .take w | .free w | .leave w | .reclaim w _ | .freePinned w =>
    if w < R.fanout then firerStep R s w m (s.firer w) else none

end

/-! ## What a step can do -/

variable {s s' : State Pid} {i : Pid}

section

variable [DecidableEq Pid] (R : Router)

/-- The steps, by what they do to buffers. -/
inductive Trans (s : State Pid) : State Pid → Prop
  /-- A producer that has no buffer moves on. -/
  | producer {i x} (hi : (s.producer i).buff? = none) (hx : x.buff? = none)
      (ht : ∀ t, x.target? = some t → t < R.fanout ∨ (s.producer i).target? = some t) :
      Trans s (s.setProducer i x)
  | pop {i t b} (hi : s.producer i = .popping t) (hb : b ∈ s.free_pool (R.pool t)) :
      Trans s ((s.setProducer i (.holding t b)).setPool (R.pool t)
        ((s.free_pool (R.pool t)).erase b))
  | release {i t b} (hi : s.producer i = .holding t b) :
      Trans s ((s.setProducer i .idle).setFifo t (s.ready_fifo t ++ [b]))
  | closeFifo : Trans s { s with closed_fifos := s.closed_fifos + 1 }
  | carve {w j} (hw : w < R.fanout) (h : s.firer w = .starting j) (hj : j < R.slack) :
      Trans s ((s.setFirer w (.starting (j + 1))).setPool (R.pool w)
        (s.free_pool (R.pool w) ++ [(w, j)]))
  | openPip {w} (hw : w < R.fanout) (h : s.firer w = .starting R.slack) :
      Trans s (s.setFirer w .running)
  | take {w b rest} (hw : w < R.fanout) (h : s.firer w = .running)
      (hq : s.ready_fifo w = b :: rest) : Trans s ((s.setFirer w (.consuming b)).setFifo w rest)
  | free {w b} (hw : w < R.fanout) (h : s.firer w = .consuming b) :
      Trans s ((s.setFirer w .running).setPool (R.pool w) (s.free_pool (R.pool w) ++ [b]))
  | leave {w} (hw : w < R.fanout) (h : s.firer w = .running) :
      Trans s (s.setFirer w (.reclaiming []))
  | reclaim {w acquired b} (hw : w < R.fanout) (h : s.firer w = .reclaiming acquired)
      (hb : b ∈ s.free_pool (R.pool w)) :
      Trans s ((s.setFirer w (.reclaiming (b :: acquired))).setPool (R.pool w)
        ((s.free_pool (R.pool w)).erase b))
  | freePinned {w acquired} (hw : w < R.fanout) (h : s.firer w = .reclaiming acquired)
      (hlen : acquired.length = R.slack) : Trans s (s.setFirer w (.freed acquired))

variable {R} {m : Move Pid}

theorem trans_of_producerStep
    (h : producerStep R s i m (s.producer i) = some s') : Trans R s s' := by
  unfold producerStep at h
  split at h
  case h_1 t polling hi =>
    split_ifs at h with ht
    cases h
    refine .producer (by rw [hi]; rfl) rfl fun _ hx => ?_
    cases hx
    exact .inl ht.1
  case h_2 t polling hi =>
    split_ifs at h <;> cases h
    · exact .producer (by rw [hi]; rfl) rfl nofun
    · exact .producer (by rw [hi]; rfl) rfl fun _ hx => .inr (by rw [hi]; exact hx)
  case h_3 b t hi =>
    split_ifs at h with hb
    cases h
    exact .pop hi hb
  case h_4 t b hi =>
    cases h
    exact .release hi
  case h_5 hi =>
    cases h
    exact .producer (by rw [hi]; rfl) rfl nofun
  case h_6 => cases h

theorem trans_of_firerStep {w : ℕ} (hw : w < R.fanout)
    (h : firerStep R s w m (s.firer w) = some s') : Trans R s s' := by
  unfold firerStep at h
  split at h
  case h_1 | h_5 | h_7 =>
    split_ifs at h
    cases h
    constructor <;> assumption
  case h_2 j hf =>
    split_ifs at h with hj
    cases h
    exact .openPip hw (hj ▸ hf)
  case h_3 hf =>
    split at h <;> cases h
    exact .take hw hf ‹_›
  case h_4 b hf =>
    cases h
    exact .free hw hf
  case h_6 b acquired hf =>
    split_ifs at h with hb
    cases h
    exact .reclaim hw hf hb.2
  case h_8 => cases h

theorem trans_of_step [Fintype Pid] (h : step R s m = some s') : Trans R s s' := by
  unfold step at h
  split at h
  case h_6 =>
    split_ifs at h
    cases h
    exact .closeFifo
  all_goals
    first
    | exact trans_of_producerStep h
    | (split_ifs at h with hw
       exact trans_of_firerStep hw h)

end

/-! ## Every buffer is in one place -/

variable (b : Buffer)

/-- Does a producer hold the buffer? -/
def Producer.holds (x : Producer) : ℕ := if x.buff? = some b then 1 else 0

/-- How often a worker has the buffer. -/
def Firer.has : Firer → ℕ
  | .consuming b' => if b' = b then 1 else 0
  | .reclaiming acquired | .freed acquired => acquired.count b
  | _ => 0

/-- The number of buffers a worker has carved. -/
def Firer.carved (slack : ℕ) : Firer → ℕ
  | .starting j => j
  | _ => slack

open Producer

variable {w p q j : ℕ}

section

variable [Fintype Pid] (R : Router)

/-- The number of places the buffer is in. -/
def places (s : State Pid) (b : Buffer) : ℕ :=
  ∑ p ∈ Finset.range R.fanout, (s.free_pool p).count b +
    ∑ q ∈ Finset.range R.fanout, (s.ready_fifo q).count b +
    ∑ i, (s.producer i).holds b + ∑ w ∈ Finset.range R.fanout, (s.firer w).has b

/-- The number of places it should be in: one if it has been carved. -/
def carved (s : State Pid) (b : Buffer) : ℕ :=
  if b.1 < R.fanout ∧ b.2 < (s.firer b.1).carved R.slack then 1 else 0

/-- Whatever has been carved is in one place, and nothing else is anywhere. -/
structure Conserved (s : State Pid) : Prop where
  target : ∀ i t, (s.producer i).target? = some t → t < R.fanout
  places : ∀ b, places R s b = carved R s b
  freed : ∀ w acquired, s.firer w = .freed acquired → acquired.length = R.slack

variable {R}

theorem pool_lt {t : ℕ} (ht : t < R.fanout) : R.pool t < R.fanout := by
  unfold Router.pool
  split_ifs <;> omega

theorem places_setPool (hp : p < R.fanout) (bs : List Buffer) (b : Buffer) :
    places R (s.setPool p bs) b + (s.free_pool p).count b = places R s b + bs.count b := by
  have h := sum_update_add (Finset.mem_range.2 hp) s.free_pool bs fun _ l => l.count b
  simp only [places, State.setPool]
  omega

theorem places_setFifo (hq : q < R.fanout) (bs : List Buffer) (b : Buffer) :
    places R (s.setFifo q bs) b + (s.ready_fifo q).count b = places R s b + bs.count b := by
  have h := sum_update_add (Finset.mem_range.2 hq) s.ready_fifo bs fun _ l => l.count b
  simp only [places, State.setFifo]
  omega

theorem places_setProducer [DecidableEq Pid] (i : Pid) (x : Producer) (b : Buffer) :
    places R (s.setProducer i x) b + (s.producer i).holds b = places R s b + x.holds b := by
  have h := sum_update_add (Finset.mem_univ i) s.producer x fun _ y => y.holds b
  simp only [places, State.setProducer]
  omega

theorem places_setFirer (hw : w < R.fanout) (x : Firer) (b : Buffer) :
    places R (s.setFirer w x) b + (s.firer w).has b = places R s b + x.has b := by
  have h := sum_update_add (Finset.mem_range.2 hw) s.firer x fun _ y => y.has b
  simp only [places, State.setFirer]
  omega

variable {x : Firer}

omit [Fintype Pid] in
/-- A worker that carves nothing leaves everything carved. -/
theorem carved_setFirer (hx : x.carved R.slack = (s.firer w).carved R.slack) (b : Buffer) :
    carved R (s.setFirer w x) b = carved R s b := by
  have h : ((s.setFirer w x).firer b.1).carved R.slack = (s.firer b.1).carved R.slack := by
    by_cases hb : b.1 = w
    · simp only [State.setFirer, hb, update_self, hx]
    · simp only [State.setFirer, update_of_ne hb]
  rw [carved, carved, h]

omit [Fintype Pid] in
/-- One more buffer is carved. -/
theorem carved_carve (hw : w < R.fanout) (h : s.firer w = .starting j) (b : Buffer) :
    carved R (s.setFirer w (.starting (j + 1))) b =
      carved R s b + if (w, j) = b then 1 else 0 := by
  obtain ⟨v, k⟩ := b
  simp only [carved, State.setFirer, Prod.mk.injEq]
  by_cases hv : v = w
  · subst hv
    simp only [update_self, Firer.carved, h, hw, true_and]
    split_ifs <;> omega
  · simp only [update_of_ne hv, Ne.symm hv, false_and, if_false, add_zero]

omit [Fintype Pid] in
theorem target_setProducer [DecidableEq Pid]
    (h : ∀ i t, (s.producer i).target? = some t → t < R.fanout) {x : Producer}
    (hx : ∀ t, x.target? = some t → t < R.fanout) :
    ∀ j t, ((s.setProducer i x).producer j).target? = some t → t < R.fanout :=
  (forall_update_iff s.producer fun _ x => ∀ t, x.target? = some t → t < R.fanout).2
    ⟨hx, fun j _ => h j⟩

omit [Fintype Pid] in
theorem freed_setFirer (h : ∀ w acquired, s.firer w = .freed acquired → acquired.length = R.slack)
    (hx : ∀ acquired, x = .freed acquired → acquired.length = R.slack) :
    ∀ v acquired, (s.setFirer w x).firer v = .freed acquired → acquired.length = R.slack :=
  (forall_update_iff s.firer fun _ x => ∀ acquired, x = .freed acquired → acquired.length = R.slack).2
    ⟨hx, fun v _ => h v⟩

theorem count_concat (l : List Buffer) (b c : Buffer) :
    (l ++ [b]).count c = l.count c + if b = c then 1 else 0 := by
  rw [count_append, count_singleton]
  simp only [beq_iff_eq]

theorem count_erase_add {l : List Buffer} {b : Buffer} (hb : b ∈ l) (c : Buffer) :
    (l.erase b).count c + (if b = c then 1 else 0) = l.count c := by
  rw [(perm_cons_erase hb).count_eq c, count_cons]
  simp only [beq_iff_eq]

theorem holds_none {x : Producer} (hx : x.buff? = none) (b : Buffer) : x.holds b = 0 := by
  rw [holds, hx]
  rfl

theorem holds_holding (t : ℕ) (b c : Buffer) : (holding t b).holds c = if b = c then 1 else 0 := by
  simp only [holds, buff?, Option.some.injEq]

/-- A worker moves on, and has the same buffers as before. -/
theorem Conserved.setFirer (h : Conserved R s) (hw : w < R.fanout)
    (hx : x.carved R.slack = (s.firer w).carved R.slack) (hhas : ∀ c, x.has c = (s.firer w).has c)
    (hfreed : ∀ acquired, x = .freed acquired → acquired.length = R.slack) :
    Conserved R (s.setFirer w x) := by
  refine ⟨h.target, fun c => ?_, freed_setFirer h.freed hfreed⟩
  have h1 := places_setFirer (s := s) hw x c
  rw [carved_setFirer hx, ← h.places c]
  rw [hhas c] at h1
  omega

/-- A worker and a pool exchange buffers. -/
theorem Conserved.setFirer_setPool (h : Conserved R s) (hw : w < R.fanout)
    (hp : p < R.fanout) {bs : List Buffer} (hx : x.carved R.slack = (s.firer w).carved R.slack)
    (hcount : ∀ c, bs.count c + x.has c = (s.free_pool p).count c + (s.firer w).has c)
    (hfreed : ∀ acquired, x ≠ .freed acquired) : Conserved R ((s.setFirer w x).setPool p bs) := by
  refine ⟨h.target, fun c => ?_, freed_setFirer h.freed fun acquired ha => absurd ha (hfreed acquired)⟩
  have h1 : _ + (s.free_pool p).count c = _ := places_setPool (s := s.setFirer w x) hp bs c
  have h2 := places_setFirer (s := s) hw x c
  have h3 : carved R ((s.setFirer w x).setPool p bs) c = carved R s c := carved_setFirer hx c
  have h4 := hcount c
  rw [h3, ← h.places c]
  omega

/-- **No buffer is lost and none is doubled**, whatever the policy. -/
theorem Conserved.trans [DecidableEq Pid] (h : Conserved R s) (ht : Trans R s s') : Conserved R s' := by
  cases ht with
  | @producer i x hi hx ht =>
    refine ⟨target_setProducer h.target fun t hxt => ?_, fun b => ?_, h.freed⟩
    · exact (ht t hxt).elim id (h.target i t)
    · have h1 := places_setProducer (R := R) (s := s) i x b
      rw [holds_none hi, holds_none hx] at h1
      exact h1.trans (h.places b)
  | @pop i t b hi hb =>
    have hlt : t < R.fanout := h.target i t (by rw [hi]; rfl)
    refine ⟨target_setProducer h.target fun t' ht' => ?_, fun c => ?_, h.freed⟩
    · cases ht'
      exact hlt
    · have h1 : _ + (s.free_pool (R.pool t)).count c = _ :=
        places_setPool (s := s.setProducer i (.holding t b)) (pool_lt hlt)
          ((s.free_pool (R.pool t)).erase b) c
      have h2 := places_setProducer (R := R) (s := s) i (.holding t b) c
      have h3 := count_erase_add hb c
      rw [holds_none (by rw [hi]; rfl), holds_holding] at h2
      show _ = carved R s c
      rw [← h.places c]
      omega
  | @release i t b hi =>
    have hlt : t < R.fanout := h.target i t (by rw [hi]; rfl)
    refine ⟨target_setProducer h.target nofun, fun c => ?_, h.freed⟩
    have h1 : _ + (s.ready_fifo t).count c = _ :=
      places_setFifo (s := s.setProducer i .idle) hlt (s.ready_fifo t ++ [b]) c
    have h2 := places_setProducer (R := R) (s := s) i .idle c
    rw [hi, holds_holding, holds_none rfl] at h2
    rw [count_concat] at h1
    show _ = carved R s c
    rw [← h.places c]
    omega
  | closeFifo => exact { h with }
  | @carve w j hw hf hj =>
    refine ⟨h.target, fun c => ?_, freed_setFirer h.freed nofun⟩
    have h1 : _ + (s.free_pool (R.pool w)).count c = _ :=
      places_setPool (s := s.setFirer w (.starting (j + 1))) (pool_lt hw)
        (s.free_pool (R.pool w) ++ [(w, j)]) c
    have h2 := places_setFirer (s := s) hw (.starting (j + 1)) c
    have h3 := h.places c
    rw [count_concat] at h1
    simp only [hf, Firer.has] at h2
    show _ = carved R (s.setFirer w (.starting (j + 1))) c
    rw [carved_carve hw hf]
    omega
  | openPip hw hf | leave hw hf =>
    exact h.setFirer hw (by rw [hf]; rfl) (fun c => by rw [hf]; rfl) nofun
  | @take w b rest hw hf hq =>
    refine ⟨h.target, fun c => ?_, freed_setFirer h.freed nofun⟩
    have h1 : _ + (s.ready_fifo w).count c = _ :=
      places_setFifo (s := s.setFirer w (.consuming b)) hw rest c
    have h2 := places_setFirer (s := s) hw (.consuming b) c
    simp only [hq, count_cons, beq_iff_eq] at h1
    simp only [hf, Firer.has] at h2
    show _ = carved R (s.setFirer w (.consuming b)) c
    rw [carved_setFirer (by rw [hf]; rfl), ← h.places c]
    omega
  | @free w b hw hf =>
    refine h.setFirer_setPool hw (pool_lt hw) (by rw [hf]; rfl) (fun c => ?_) nofun
    rw [hf, count_concat]
    rfl
  | @reclaim w acquired b hw hf hb =>
    refine h.setFirer_setPool hw (pool_lt hw) (by rw [hf]; rfl) (fun c => ?_) nofun
    have h1 := count_erase_add hb c
    simp only [hf, Firer.has, count_cons, beq_iff_eq]
    omega
  | @freePinned w acquired hw hf hlen =>
    refine h.setFirer hw (by rw [hf]; rfl) (fun c => by rw [hf]; rfl) fun _ ha => ?_
    cases ha
    exact hlen

omit [Fintype Pid] in
theorem carved_le : carved R s b ≤ 1 := by
  unfold carved
  split_ifs <;> omega

end

/-! ## Pools of their own -/

variable {R : Router}

section

variable {bs : List Buffer}

/-- Every buffer is with the target it was carved for. -/
structure Home (s : State Pid) : Prop where
  pool : ∀ p, ∀ b ∈ s.free_pool p, b.1 = p
  fifo : ∀ q, ∀ b ∈ s.ready_fifo q, b.1 = q
  producer : ∀ i t b, s.producer i = .holding t b → b.1 = t
  firer : ∀ w b, (s.firer w).has b ≠ 0 → b.1 = w

section

variable (h : Home s)
include h

theorem Home.setPool (hbs : ∀ b ∈ bs, b.1 = p) : Home (s.setPool p bs) :=
  { h with
    pool := (forall_update_iff s.free_pool fun p bs => ∀ b ∈ bs, b.1 = p).2
      ⟨hbs, fun q _ => h.pool q⟩ }

theorem Home.setFifo (hbs : ∀ b ∈ bs, b.1 = p) : Home (s.setFifo p bs) :=
  { h with
    fifo := (forall_update_iff s.ready_fifo fun p bs => ∀ b ∈ bs, b.1 = p).2
      ⟨hbs, fun q _ => h.fifo q⟩ }

theorem Home.setProducer [DecidableEq Pid] (i : Pid) {x : Producer}
    (hx : ∀ t b, x = .holding t b → b.1 = t) : Home (s.setProducer i x) :=
  { h with
    producer := (forall_update_iff s.producer fun _ x => ∀ t b, x = .holding t b → b.1 = t).2
      ⟨hx, fun j _ => h.producer j⟩ }

theorem Home.setFirer {w : ℕ} {x : Firer} (hx : ∀ b, x.has b ≠ 0 → b.1 = w) :
    Home (s.setFirer w x) :=
  { h with
    firer := (forall_update_iff s.firer fun v x => ∀ b, x.has b ≠ 0 → b.1 = v).2
      ⟨hx, fun v _ => h.firer v⟩ }

/-- **Without a shared pool a buffer stays with its target.** -/
theorem Home.trans [DecidableEq Pid] (hpool : ∀ t < R.fanout, R.pool t = t)
    (htarget : ∀ i t, (s.producer i).target? = some t → t < R.fanout) (ht : Trans R s s') : Home s' := by
  cases ht with
  | @producer i x hi hx ht =>
    refine h.setProducer i fun t b hb => ?_
    rw [hb] at hx
    cases hx
  | @pop i t b hi hb =>
    rw [hpool t (htarget i t (by rw [hi]; rfl))] at hb ⊢
    refine (h.setProducer i fun t' b' hx => ?_).setPool fun c hc => h.pool t c (mem_of_mem_erase hc)
    cases hx
    exact h.pool t b hb
  | @release i t b hi =>
    exact (h.setProducer i (x := .idle) nofun).setFifo (forall_mem_append.2
      ⟨h.fifo t, forall_mem_singleton.2 (h.producer i t b hi)⟩)
  | closeFifo => exact { h with }
  | @carve w j hw hf hj =>
    rw [hpool w hw]
    exact (h.setFirer fun c hc => absurd rfl hc).setPool (forall_mem_append.2
      ⟨h.pool w, forall_mem_singleton.2 rfl⟩)
  | openPip | leave => exact h.setFirer fun c hc => absurd rfl hc
  | @take w b rest hw hf hq =>
    have hmem : ∀ c ∈ b :: rest, c.1 = w := fun c hc => h.fifo w c (hq ▸ hc)
    refine (h.setFirer fun c hc => ?_).setFifo fun c hc => hmem c (mem_cons_of_mem _ hc)
    obtain rfl : b = c := by
      by_contra hne
      exact hc (if_neg hne)
    exact hmem b mem_cons_self
  | @free w b hw hf =>
    rw [hpool w hw]
    refine (h.setFirer fun c hc => absurd rfl hc).setPool (forall_mem_append.2
      ⟨h.pool w, forall_mem_singleton.2 (h.firer w b ?_)⟩)
    rw [hf, Firer.has, if_pos rfl]
    exact Nat.one_ne_zero
  | @reclaim w acquired b hw hf hb =>
    rw [hpool w hw] at hb ⊢
    refine (h.setFirer fun c hc => ?_).setPool fun c hc => h.pool w c (mem_of_mem_erase hc)
    obtain rfl | hc := mem_cons.1 (count_pos_iff.1 (Nat.pos_of_ne_zero hc))
    · exact h.pool w c hb
    · exact h.firer w c (by rw [hf]; exact (count_pos_iff.2 hc).ne')
  | @freePinned w acquired hw hf hlen =>
    exact h.setFirer fun c hc => h.firer w c (by rw [hf]; exact hc)

end

end

/-! ## Freeing a block -/

/-- The worker is at `freePinned`, or behind it. -/
def Firer.frees (slack : ℕ) : Firer → Bool
  | .reclaiming acquired => acquired.length = slack
  | .freed _ => true
  | _ => false

/-- No buffer of the block of target `w` is in a pool or a queue, held by a producer or being consumed. -/
structure Unused (R : Router) (s : State Pid) (w : ℕ) : Prop where
  pool : ∀ p < R.fanout, ∀ b ∈ s.free_pool p, b.1 ≠ w
  fifo : ∀ q < R.fanout, ∀ b ∈ s.ready_fifo q, b.1 ≠ w
  producer : ∀ i t b, s.producer i = .holding t b → b.1 ≠ w
  firer : ∀ v < R.fanout, ∀ b, s.firer v = .consuming b → b.1 ≠ w

/-- Blocks are freed only when they are not used any more. -/
def Sound (R : Router) (s : State Pid) : Prop :=
  ∀ w < R.fanout, (s.firer w).frees R.slack = true → Unused R s w

section

variable [Fintype Pid] {s : State Pid}

omit [Fintype Pid] in
theorem has_le_sum (hw : w < R.fanout) (b : Buffer) :
    (s.firer w).has b ≤ ∑ v ∈ Finset.range R.fanout, (s.firer v).has b :=
  Finset.single_le_sum_of_canonicallyOrdered (f := fun v => (s.firer v).has b) (Finset.mem_range.2 hw)

/-- A buffer that a worker has acquired back, or that was never carved, is nowhere else. -/
theorem Conserved.unused (h : Conserved R s) (hw : w < R.fanout)
    (hhas : ∀ b : Buffer, b.1 = w → carved R s b ≤ (s.firer w).has b)
    (hcons : ∀ b, s.firer w ≠ .consuming b) : Unused R s w := by
  have hnone : ∀ b : Buffer, b.1 = w → (∀ p < R.fanout, b ∉ s.free_pool p) ∧
      (∀ q < R.fanout, b ∉ s.ready_fifo q) ∧ ∀ i, (s.producer i).holds b = 0 := by
    intro b hb
    have hle := (h.places b).le.trans ((hhas b hb).trans (has_le_sum hw b))
    unfold Blocks.places at hle
    have hsums : ∑ p ∈ Finset.range R.fanout, (s.free_pool p).count b = 0 ∧
        ∑ q ∈ Finset.range R.fanout, (s.ready_fifo q).count b = 0 ∧ ∑ i, (s.producer i).holds b = 0 := by
      omega
    simpa [count_eq_zero] using hsums
  refine ⟨fun p hp b hb hbw => (hnone b hbw).1 p hp hb, fun q hq b hb hbw => (hnone b hbw).2.1 q hq hb,
    fun i t b hb hbw => ?_, fun v hv b hb hbw => ?_⟩
  · have hzero := (hnone b hbw).2.2 i
    rw [hb, holds_holding, if_pos rfl] at hzero
    cases hzero
  · -- the two workers would have it twice
    have hne : v ≠ w := fun hvw => hcons b (hvw ▸ hb)
    have hone : (s.firer v).has b = 1 := by rw [hb, Firer.has, if_pos rfl]
    have h1 := Finset.sum_le_sum_of_subset (f := fun v => (s.firer v).has b)
      (Finset.insert_subset (Finset.mem_range.2 hv)
        (Finset.singleton_subset_iff.2 (Finset.mem_range.2 hw)))
    rw [Finset.sum_pair hne, hone] at h1
    have h2 : ∑ v ∈ Finset.range R.fanout, (s.firer v).has b ≤ Blocks.places R s b := by
      unfold Blocks.places
      omega
    have h3 := h.places b
    have h4 := hhas b hbw
    omega

/-- `slack` buffers of a block of `slack` buffers are all of them. -/
theorem mem_of_length {n : ℕ} {acquired : List Buffer} (hlen : acquired.length = n)
    (hone : ∀ b, acquired.count b ≤ 1) (hmem : ∀ b ∈ acquired, b.1 = w ∧ b.2 < n)
    (hj : j < n) : (w, j) ∈ acquired := by
  have hsub : acquired ⊆ (range n).map fun j => (w, j) := by
    intro b hb
    obtain ⟨h1, h2⟩ := hmem b hb
    exact mem_map.2 ⟨b.2, mem_range.2 h2, Prod.ext h1.symm rfl⟩
  have hnodup : acquired.Nodup := nodup_iff_count_le_one.2 hone
  have hperm := (subperm_of_subset hnodup hsub).perm_of_length_le (by simp [hlen])
  exact hperm.mem_iff.2 (mem_map.2 ⟨j, mem_range.2 hj, rfl⟩)

/-- What a worker has acquired back when it frees its block. -/
theorem Conserved.exists_acquired (h : Conserved R s) (hfrees : (s.firer w).frees R.slack = true) :
    ∃ acquired : List Buffer, acquired.length = R.slack ∧ (s.firer w).carved R.slack = R.slack ∧
      (∀ b, (s.firer w).has b = acquired.count b) ∧ ∀ b, s.firer w ≠ .consuming b := by
  cases hx : s.firer w with
  | starting | running | consuming => rw [hx] at hfrees; cases hfrees
  | reclaiming acquired =>
    rw [hx] at hfrees
    exact ⟨acquired, of_decide_eq_true hfrees, rfl, fun _ => rfl, nofun⟩
  | freed acquired => exact ⟨acquired, h.freed w acquired hx, rfl, fun _ => rfl, nofun⟩

/-- A worker with a pool of its own frees its block when it has all of it. -/
theorem Conserved.sound (h : Conserved R s) (hhome : Home s) : Sound R s := by
  intro w hw hfrees
  obtain ⟨acquired, hlen, hcarved, hhas, hcons⟩ := h.exists_acquired hfrees
  have hle : ∀ b, acquired.count b ≤ carved R s b := by
    intro b
    rw [← h.places b, ← hhas b]
    refine (has_le_sum hw b).trans ?_
    unfold Blocks.places
    omega
  refine h.unused hw (fun b hb => ?_) hcons
  obtain ⟨v, j⟩ := b
  obtain rfl : v = w := hb
  have hmem : ∀ b ∈ acquired, b.1 = v ∧ b.2 < R.slack := by
    intro b hb
    have hb1 : b.1 = v := hhome.firer v b (by rw [hhas]; exact (count_pos_iff.2 hb).ne')
    have hpos := (count_pos_iff.2 hb).trans_le (hle b)
    refine ⟨hb1, ?_⟩
    by_contra hlt
    rw [carved, hb1, hcarved, if_neg (fun hc => hlt hc.2)] at hpos
    exact absurd hpos (lt_irrefl 0)
  rw [hhas, carved, hcarved]
  split_ifs with hj
  · exact count_pos_iff.2 (mem_of_length hlen (fun b => (hle b).trans (carved_le b)) hmem hj.2)
  · exact Nat.zero_le _

/-- Without slack there are no buffers. -/
theorem Conserved.sound_of_slack (h : Conserved R s) (hslack : R.slack = 0) : Sound R s := by
  intro w hw hfrees
  obtain ⟨acquired, -, hcarved, -, hcons⟩ := h.exists_acquired hfrees
  refine h.unused hw (fun b hb => ?_) hcons
  rw [carved, hb, hcarved, hslack, if_neg (fun hc => Nat.not_lt_zero _ hc.2)]
  exact Nat.zero_le _

theorem conserved_init : Conserved R (init Pid) := by
  refine ⟨nofun, fun b => ?_, nofun⟩
  rw [carved, if_neg (fun hc => Nat.not_lt_zero _ hc.2)]
  simp [places, init, holds, buff?, Firer.has]

omit [Fintype Pid] in
theorem home_init : Home (init Pid) :=
  ⟨nofun, nofun, nofun, fun _ _ h => absurd rfl h⟩

variable [DecidableEq Pid]

theorem conserved_of_reach (h : Reach (step R) Free (init Pid) s) : Conserved R s :=
  h.invariant conserved_init fun _ _ _ hc _ hs => hc.trans (trans_of_step hs)

theorem home_of_reach (hpool : ∀ t < R.fanout, R.pool t = t)
    (h : Reach (step R) Free (init Pid) s) : Home s := by
  refine (h.invariant (I := fun s => Conserved R s ∧ Home s) ⟨conserved_init, home_init⟩ ?_).2
  intro s m s' hc _ hs
  exact ⟨hc.1.trans (trans_of_step hs), hc.2.trans hpool hc.1.target (trans_of_step hs)⟩

end

/-- Every target has a pool of its own, or there is only one target, or there are no buffers. -/
def Router.Separate (R : Router) : Prop := R.policy_type ≠ .RANDOM ∨ R.fanout ≤ 1 ∨ R.slack = 0

/-- Where pools are not shared, no buffer of a block that is freed is anywhere else. -/
theorem blocks_unused {Pid : Type*} [Fintype Pid] [DecidableEq Pid] {R : Router}
    (hsep : R.Separate) {s : State Pid} (h : Reach (step R) Free (init Pid) s) : Sound R s := by
  have hc : Conserved R s := conserved_of_reach h
  obtain hpol | hone | hslack := hsep
  · exact hc.sound (home_of_reach (fun t _ => if_neg hpol) h)
  · refine hc.sound (home_of_reach (fun t ht => ?_) h)
    unfold Router.pool
    split_ifs <;> omega
  · exact hc.sound_of_slack hslack

/-- The only producer sends nothing, and the worker of target 0 reaches the end of `fire`. -/
def shutdown (first second : ℕ) : List (Move Unit) :=
  [.carve first, .carve second, .openPip 0, .openPip 1, .close (), .closeFifo, .leave 0,
    .reclaim 0 (first, 0), .freePinned 0]

/-- Hash-based routing to two targets with one buffer each. -/
theorem blocks_unused_two_targets : ∃ s : State Unit,
    exec (step ⟨.HASH_BASED, 2, 1⟩) (init Unit) (shutdown 0 1) = some s ∧
      s.firer 0 = .freed [(0, 0)] ∧ Sound ⟨.HASH_BASED, 2, 1⟩ s := by
  have hs : exec (step ⟨.HASH_BASED, 2, 1⟩) (init Unit) (shutdown 0 1) = some _ := rfl
  exact ⟨_, hs, rfl, blocks_unused (.inl (by decide)) (reach_of_exec .init hs)⟩

/-- With a shared pool the worker of target 0 acquires the buffer of target 1, and frees its block while
its own buffer is in the pool. -/
theorem freed_while_pooled : ∃ s : State Unit,
    Reach (step ⟨.RANDOM, 2, 1⟩) Free (init Unit) s ∧ s.firer 0 = .freed [(1, 0)] ∧
      s.free_pool 0 = [(0, 0)] ∧ ¬Sound ⟨.RANDOM, 2, 1⟩ s := by
  refine exists_reach_of_exec (shutdown 1 0) ⟨_, rfl, fun _ => ⟨rfl, rfl, fun hsound => ?_⟩⟩
  exact (hsound 0 (by decide) rfl).pool 0 (by decide) (0, 0) mem_cons_self rfl

end Proteus.Routing.Blocks
