import Mathlib.Algebra.GroupWithZero.Nat
import Mathlib.Algebra.Order.Ring.Unbundled.Rat
import Mathlib.Data.List.GetD
import Mathlib.Data.UInt
import Proteus.Routing.Topology

/-!
# Routing policies

What the generated code of each policy computes for one buffer, following
`lib/routing/routing-policy.cpp`: a target queue, the free pool to acquire a slot from, and
whether the attempt may be retried. The consumer offsets and the table of compute units are
the arrays the entry block fills; a load outside the cells it filled is `none`.

Random numbers are inputs. A policy reads a fresh one (`rand_int`), on a retry a second one
(`rand_int2`, the rehash of the first), and an affinitizer may call `rand()` itself
(`affDraw`). Throughputs are doubles in the source; here they are any type with the three
operations the code applies to them.
-/

namespace Proteus.Routing

variable {Ptr Θ : Type*}

/-! ## Throughput tracking -/

/-- The operations on throughputs: `0.0`, events per unit of time, and `<`. -/
class Throughput (Θ : Type*) where
  zero : Θ
  rate : ℕ → ℕ → Θ
  lt : Θ → Θ → Bool

/-- Exact throughputs. -/
instance : Throughput ℚ where
  zero := 0
  rate events time := (events : ℚ) / time
  lt a b := decide (a < b)

/-- Subtraction of `uint64_t`. -/
def sub64 (a b : ℕ) : ℕ := (a + 2 ^ 64 - b) % 2 ^ 64

/-- `ThroughputTracker`; `current_event` is `none` for `nullptr`. -/
structure ThroughputTracker (Ptr : Type*) where
  completed_events : ℕ
  total_time : UInt64
  current_event : Option Ptr
  current_start_time : UInt64
  first_event : Bool
  count_skip_events : ℕ

namespace ThroughputTracker

def reset (t : ThroughputTracker Ptr) : ThroughputTracker Ptr :=
  { t with
    completed_events := 0
    total_time := 0
    current_event := none
    current_start_time := 0
    first_event := true }

/-- An event is counted when the next, different one arrives. -/
def notify_event [DecidableEq Ptr] (t : ThroughputTracker Ptr) (event : Ptr) (timestamp : UInt64) :
    ThroughputTracker Ptr :=
  if t.first_event then
    { t with current_event := some event, current_start_time := timestamp, first_event := false }
  else if t.current_event ≠ some event then
    { t with
      completed_events := t.completed_events + 1
      total_time :=
        if t.completed_events + 1 > t.count_skip_events then
          t.total_time + (timestamp - t.current_start_time)
        else t.total_time
      current_event := some event
      current_start_time := timestamp }
  else t

def get_current_throughput [Throughput Θ] (t : ThroughputTracker Ptr) : Θ :=
  if t.total_time = 0 ∨ t.completed_events = 0 then Throughput.zero
  else Throughput.rate (sub64 t.completed_events t.count_skip_events) t.total_time.toNat

end ThroughputTracker

/-- The loop of `std::max_element`: `best` is the element at `bi`, and `i` is the next index. -/
def maxElementFrom [Throughput Θ] (best : Θ) (bi i : ℕ) : List Θ → ℕ
  | [] => bi
  | x :: xs =>
    if Throughput.lt best x then maxElementFrom x i (i + 1) xs else maxElementFrom best bi (i + 1) xs

/-- The index of the first largest element. -/
def maxElement [Throughput Θ] : List Θ → ℕ
  | [] => 0
  | x :: xs => maxElementFrom x 0 1 xs

theorem maxElementFrom_lt [Throughput Θ] (best : Θ) (bi i : ℕ) (xs : List Θ) (h : bi < i) :
    maxElementFrom best bi i xs < i + xs.length := by
  induction xs generalizing best bi i with
  | nil => simpa [maxElementFrom] using h
  | cons x xs ih =>
    simp only [maxElementFrom, List.length_cons]
    split_ifs
    · have := ih x i (i + 1) (by omega)
      omega
    · have := ih best bi (i + 1) (by omega)
      omega

theorem maxElement_lt [Throughput Θ] {xs : List Θ} (h : 0 < xs.length) : maxElement xs < xs.length := by
  cases xs with
  | nil => exact absurd h (Nat.lt_irrefl 0)
  | cons x xs =>
    have := maxElementFrom_lt x 0 1 xs (by omega)
    simp only [maxElement, List.length_cons]
    omega

/-- `RoutingState` of a policy over `num_consumers` consumers. The current target is always one
of them, and there is one measured throughput for each. -/
structure RoutingState (Ptr Θ : Type*) (num_consumers : ℕ) where
  tracker : ThroughputTracker Ptr
  curr_target : Fin num_consumers
  throughputs : List Θ
  exploit : Bool
  sample_size : ℕ
  throughputs_length : throughputs.length = num_consumers

variable {n : ℕ}

namespace RoutingState

/-- Store the throughput measured for the current target and move to the next one; after the
last, exploit the best. -/
def advance [Throughput Θ] (st : RoutingState Ptr Θ n) : RoutingState Ptr Θ n :=
  have hn : 0 < n := Nat.lt_of_le_of_lt (Nat.zero_le _) st.curr_target.2
  let throughputs := st.throughputs.set st.curr_target st.tracker.get_current_throughput
  have hlen : throughputs.length = n := by simp [throughputs, st.throughputs_length]
  let next : Fin n := ⟨(st.curr_target + 1) % n, Nat.mod_lt _ hn⟩
  if next.1 = 0 then
    { st with
      tracker := st.tracker.reset
      curr_target := ⟨maxElement throughputs, by
        have h : maxElement throughputs < throughputs.length := maxElement_lt (by omega)
        omega⟩
      throughputs := throughputs
      exploit := true
      throughputs_length := hlen }
  else
    { st with
      tracker := st.tracker.reset
      curr_target := next
      throughputs := throughputs
      throughputs_length := hlen }

/-- `get_target`: the consumer to route to, and the state it leaves. -/
def get_target [Throughput Θ] (st : RoutingState Ptr Θ n) : Fin n × RoutingState Ptr Θ n :=
  if st.exploit then (st.curr_target, st)
  else if st.tracker.completed_events > st.sample_size then (st.advance.curr_target, st.advance)
  else (st.curr_target, st)

/-- The state `createRoutingState` makes for a list of at least one consumer. -/
def initial [Throughput Θ] (n count_skip_events sample_size : ℕ) (hn : 0 < n) :
    RoutingState Ptr Θ n where
  tracker := ⟨0, 0, none, 0, true, count_skip_events⟩
  curr_target := ⟨0, hn⟩
  throughputs := List.replicate n Throughput.zero
  exploit := false
  sample_size := sample_size
  throughputs_length := List.length_replicate

end RoutingState

/-! ## Exploration -/

section

open List Nat RoutingState

variable [DecidableEq Ptr]

/-- The times at which another event than the one before came, both lists with the latest first. -/
def starts : List (Ptr × UInt64) → List UInt64
  | e :: e' :: es => if e.1 = e'.1 then starts (e' :: es) else e.2 :: starts (e' :: es)
  | es => es.map Prod.snd

/-- How often an event differs from the one before it. -/
def changes (es : List (Ptr × UInt64)) : ℕ := (starts es).length - 1

/-- The time between the first event that is not skipped and the latest one. -/
def elapsed (skip : ℕ) (es : List (Ptr × UInt64)) : UInt64 :=
  if skip < changes es then (starts es).headD 0 - (starts es).reverse.getD skip 0 else 0

/-- The tracker after the events, the latest first. -/
structure Tracks (skip : ℕ) (es : List (Ptr × UInt64)) (t : ThroughputTracker Ptr) : Prop where
  completed : t.completed_events = changes es
  time : t.total_time = elapsed skip es
  current : t.current_event = es.head?.map Prod.fst
  start : t.current_start_time = (starts es).headD 0
  first : t.first_event = es.isEmpty
  skip : t.count_skip_events = skip

theorem length_starts_pos (e : Ptr × UInt64) (es : List (Ptr × UInt64)) : 0 < (starts (e :: es)).length := by
  induction es generalizing e with
  | nil => exact one_pos
  | cons e' es ih =>
    rw [starts]
    split_ifs
    · exact ih e'
    · exact succ_pos _

/-- A new start is added, and the time since the last one. -/
theorem elapsed_cons {skip : ℕ} {e e' : Ptr × UInt64} {es : List (Ptr × UInt64)} (he : e.1 ≠ e'.1) :
    elapsed skip (e :: e' :: es) = if changes (e' :: es) + 1 > skip then
      elapsed skip (e' :: es) + (e.2 - (starts (e' :: es)).headD 0) else elapsed skip (e' :: es) := by
  have hpos := length_starts_pos e' es
  have hchanges : changes (e :: e' :: es) = changes (e' :: es) + 1 := by
    rw [changes, changes, starts, if_neg he, length_cons]
    omega
  rw [elapsed, hchanges, starts, if_neg he, headD_cons, reverse_cons]
  rw [elapsed]
  rw [changes] at *
  split_ifs with h1 h2
  · rw [getD_append _ _ _ _ (by rw [length_reverse]; omega), sub_add_sub_cancel']
  · -- the first start that is not skipped is the last one so far
    obtain ⟨a, l, hl⟩ := exists_cons_of_length_pos hpos
    have hskip : skip = l.length := by
      rw [hl, length_cons] at h1 h2
      omega
    rw [hl, hskip]
    simp
  · omega
  · rfl

theorem Tracks.notify_event {skip : ℕ} {es : List (Ptr × UInt64)} {t : ThroughputTracker Ptr}
    (h : Tracks skip es t) (e : Ptr × UInt64) : Tracks skip (e :: es) (t.notify_event e.1 e.2) := by
  rw [ThroughputTracker.notify_event, h.first, h.current]
  cases es with
  | nil =>
    have htime : elapsed skip [e] = elapsed skip ([] : List (Ptr × UInt64)) := by
      simp [elapsed, changes, starts]
    exact ⟨h.completed, h.time.trans htime.symm, rfl, rfl, rfl, h.skip⟩
  | cons e' es =>
    by_cases he : e.1 = e'.1
    · have hsame : starts (e :: e' :: es) = starts (e' :: es) := if_pos he
      simp only [isEmpty_cons, Bool.false_eq_true, if_false, head?_cons, Option.map_some, he, ne_eq,
        not_true_eq_false]
      refine ⟨?_, ?_, by rw [h.current, head?_cons, head?_cons, Option.map_some, Option.map_some, he], ?_,
        h.first, h.skip⟩
      · rw [h.completed, changes, changes, hsame]
      · rw [h.time, elapsed, elapsed, changes, changes, hsame]
      · rw [h.start, hsame]
    · have hnew : starts (e :: e' :: es) = e.2 :: starts (e' :: es) := if_neg he
      have hpos := length_starts_pos e' es
      simp only [isEmpty_cons, Bool.false_eq_true, if_false, head?_cons, Option.map_some, ne_eq,
        Option.some.injEq, Ne.symm he, not_false_eq_true, if_true]
      refine ⟨?_, ?_, rfl, by rw [hnew, headD_cons], rfl, h.skip⟩
      · simp only [h.completed, changes, hnew, length_cons]
        omega
      · simp only [h.completed, h.time, h.start, h.skip]
        exact (elapsed_cons he).symm

variable [Throughput Θ]

/-- What a consumer is measured by: the events that were counted and not skipped, and their time. -/
def measured (skip : ℕ) (es : List (Ptr × UInt64)) : Θ :=
  if elapsed skip es = 0 then Throughput.zero
  else Throughput.rate (sub64 (changes es) skip) (elapsed skip es).toNat

theorem Tracks.get_current_throughput {skip : ℕ} {es : List (Ptr × UInt64)} {t : ThroughputTracker Ptr}
    (h : Tracks skip es t) : t.get_current_throughput = (measured skip es : Θ) := by
  rw [ThroughputTracker.get_current_throughput, h.completed, h.time, h.skip, measured]
  by_cases hzero : elapsed skip es = 0
  · rw [if_pos (.inl hzero), if_pos hzero]
  · have hlt : skip < changes es := by
      by_contra hle
      exact hzero (if_neg hle)
    rw [if_neg (not_or.2 ⟨hzero, by omega⟩), if_neg hzero]

/-- The calls on a routing state. -/
inductive Move (Ptr : Type*)
  | get_target
  | record_event (event : Ptr) (timestamp : UInt64)

def RoutingState.step (st : RoutingState Ptr Θ n) : Move Ptr → RoutingState Ptr Θ n
  | .get_target => st.get_target.2
  | .record_event event timestamp => { st with tracker := st.tracker.notify_event event timestamp }

/-- The purpose of a routing state: the throughputs measured for the consumers left so far, in order,
and the events since. -/
structure Phases (Ptr Θ : Type*) where
  skip : ℕ
  sample_size : ℕ
  left : List Θ
  events : List (Ptr × UInt64)

/-- The current consumer is left. -/
def Phases.leave (p : Phases Ptr Θ) : Phases Ptr Θ :=
  { p with left := p.left ++ [measured p.skip p.events], events := [] }

/-- A consumer is left once enough of its events were counted. -/
def Phases.step (n : ℕ) (p : Phases Ptr Θ) : Move Ptr → Phases Ptr Θ
  | .get_target => if p.left.length < n ∧ p.sample_size < changes p.events then p.leave else p
  | .record_event event timestamp => { p with events := (event, timestamp) :: p.events }

variable [LinearOrder Θ]

/-- `i` is the first index of a largest element. -/
def FirstMax (l : List Θ) (i : ℕ) : Prop :=
  ∃ pre x post, l = pre ++ x :: post ∧ i = pre.length ∧ (∀ y ∈ pre, y < x) ∧ ∀ y ∈ post, y ≤ x

/-- The consumer to route to: the next one that was not left, then the best. -/
def Phases.Routes (n : ℕ) (p : Phases Ptr Θ) (i : ℕ) : Prop :=
  if p.left.length < n then i = p.left.length else FirstMax p.left i

/-- The routing state is where the phases are. -/
structure Follows (st : RoutingState Ptr Θ n) (p : Phases Ptr Θ) : Prop where
  tracker : Tracks p.skip p.events st.tracker
  throughputs : st.throughputs = p.left ++ replicate (n - p.left.length) Throughput.zero
  length_le : p.left.length ≤ n
  exploit : st.exploit = decide (p.left.length = n)
  routes : p.Routes n st.curr_target
  sample_size : st.sample_size = p.sample_size

variable (hlt : ∀ a b : Θ, Throughput.lt a b = decide (a < b))
include hlt

theorem firstMax_maxElementFrom (xs : List Θ) {pre post : List Θ} {best : Θ}
    (hpre : ∀ y ∈ pre, y < best) (hpost : ∀ y ∈ post, y ≤ best) :
    FirstMax (pre ++ best :: post ++ xs) (maxElementFrom best pre.length (pre ++ best :: post).length xs) := by
  induction xs generalizing pre post best with
  | nil => exact ⟨pre, best, post, append_nil _, rfl, hpre, hpost⟩
  | cons x xs ih =>
    rw [maxElementFrom, hlt, append_cons]
    by_cases hx : best < x
    · have hall : ∀ y ∈ pre ++ best :: post, y < x := by
        simp only [forall_mem_append, forall_mem_cons]
        exact ⟨fun y hy => (hpre y hy).trans hx, hx, fun y hy => (hpost y hy).trans_lt hx⟩
      simpa [hx, add_assoc] using ih hall (forall_mem_nil _)
    · have hall : ∀ y ∈ post ++ [x], y ≤ best :=
        forall_mem_append.2 ⟨hpost, forall_mem_singleton.2 (not_lt.1 hx)⟩
      simpa [hx, add_assoc] using ih hpre hall

theorem firstMax_maxElement {l : List Θ} (hl : 0 < l.length) : FirstMax l (maxElement l) := by
  cases l with
  | nil => exact absurd hl (lt_irrefl 0)
  | cons x l => exact firstMax_maxElementFrom hlt l (forall_mem_nil _) (forall_mem_nil _)

variable {st : RoutingState Ptr Θ n} {p : Phases Ptr Θ}

theorem Follows.advance (h : Follows st p) (hleft : p.left.length < n) : Follows st.advance p.leave := by
  have hlen : p.leave.left.length = p.left.length + 1 := length_append
  have hcurr : st.curr_target.1 = p.left.length := by simpa [Phases.Routes, hleft] using h.routes
  have hset : st.throughputs.set st.curr_target st.tracker.get_current_throughput =
      p.leave.left ++ replicate (n - p.leave.left.length) Throughput.zero := by
    rw [hlen, h.throughputs, hcurr, h.tracker.get_current_throughput, set_append_right _ _ le_rfl,
      Nat.sub_self, ← Nat.sub_add_cancel (Nat.sub_pos_of_lt hleft), replicate_succ, set_cons_zero, Nat.sub_sub,
      append_cons, Phases.leave]
  have hreset : Tracks p.skip [] st.tracker.reset := ⟨rfl, rfl, rfl, rfl, rfl, h.tracker.skip⟩
  unfold RoutingState.advance
  by_cases hlast : p.left.length + 1 = n
  · have hnext : (st.curr_target.1 + 1) % n = 0 := by rw [hcurr, hlast, mod_self]
    simp only [hnext, if_true]
    refine ⟨hreset, hset, hlen.trans_le hleft, by simp [hlen, hlast], ?_, h.sample_size⟩
    rw [hlen, hlast, Nat.sub_self, replicate_zero, append_nil] at hset
    simp only [Phases.Routes, hlen, hlast, lt_irrefl, if_false, hset]
    exact firstMax_maxElement hlt (by simp [hlen])
  · have hlt' : p.left.length + 1 < n := lt_of_le_of_ne hleft hlast
    have hnext : (st.curr_target.1 + 1) % n = p.left.length + 1 := by
      rw [hcurr, mod_eq_of_lt hlt']
    simp only [hnext, succ_ne_zero, if_false]
    exact ⟨hreset, hset, hlen.trans_le hleft, by simp [h.exploit, hleft.ne, hlen, hlast],
      by simp [Phases.Routes, hlen, hlt'], h.sample_size⟩

theorem Follows.step (h : Follows st p) (m : Move Ptr) : Follows (st.step m) (p.step n m) := by
  cases m with
  | record_event event timestamp =>
    exact { h with tracker := h.tracker.notify_event (event, timestamp) }
  | get_target =>
    simp only [RoutingState.step, get_target, Phases.step, h.exploit, h.tracker.completed,
      h.sample_size, decide_eq_true_iff]
    by_cases hdone : p.left.length = n
    · simpa [hdone] using h
    · have hleft : p.left.length < n := lt_of_le_of_ne h.length_le hdone
      by_cases hcount : p.sample_size < changes p.events
      · simpa [hdone, hleft, hcount] using h.advance hlt hleft
      · simpa [hdone, hcount] using h

theorem Follows.run (ms : List (Move Ptr)) (h : Follows st p) :
    Follows (ms.foldl RoutingState.step st) (ms.foldl (Phases.step n) p) := by
  induction ms generalizing st p with
  | nil => exact h
  | cons m ms ih => exact ih (h.step hlt m)

/-- **Exploration.** Whatever is called in whatever order, `get_target` returns the consumer the
phases route to: each consumer in turn, until enough of its events were counted, and then the first
of the best. A throughput is never computed from fewer events than are skipped. -/
theorem get_target_routes (skip sample_size : ℕ) (hn : 0 < n) (ms : List (Move Ptr)) :
    let st : RoutingState Ptr Θ n := ms.foldl RoutingState.step (initial n skip sample_size hn)
    let p : Phases Ptr Θ := ms.foldl (Phases.step n) ⟨skip, sample_size, [], []⟩
    (p.step n .get_target).Routes n st.get_target.1 ∧
      (st.tracker.total_time ≠ 0 → st.tracker.count_skip_events < st.tracker.completed_events) := by
  intro st p
  have hinit : Follows (initial n skip sample_size hn : RoutingState Ptr Θ n)
      ⟨skip, sample_size, [], []⟩ :=
    ⟨⟨rfl, rfl, rfl, rfl, rfl, rfl⟩, rfl, zero_le n, by simp [initial, hn.ne],
      by simp [Phases.Routes, hn, initial], rfl⟩
  have h : Follows st p := hinit.run hlt ms
  have hfst : st.get_target.1 = st.get_target.2.curr_target := by
    unfold get_target
    split_ifs <;> rfl
  rw [hfst, h.tracker.time, h.tracker.completed, h.tracker.skip]
  refine ⟨(h.step hlt .get_target).routes, fun htime => ?_⟩
  by_contra hle
  exact htime (if_neg hle)

omit hlt

/-- An event of each consumer is counted, and a repeated one is not. The first consumer takes less time
for it, although the clock of the second one wraps around. -/
def twoConsumers : List (Move ℕ) :=
  [.record_event 5 0, .record_event 5 1, .record_event 6 4, .get_target, .record_event 7 (-3),
    .record_event 8 2]

theorem get_target_twoConsumers :
    let st : RoutingState ℕ ℚ 2 := twoConsumers.foldl RoutingState.step (initial 2 0 0 Nat.two_pos)
    st.get_target.1 = 0 ∧ FirstMax [(1 : ℚ) / 4, 1 / 5] st.get_target.1 := by
  have h := (get_target_routes (fun _ _ : ℚ => rfl) 0 0 Nat.two_pos twoConsumers).1
  have hleft : ((twoConsumers.foldl (Phases.step 2) (⟨0, 0, [], []⟩ : Phases ℕ ℚ)).step 2
      .get_target).left = [1 / 4, 1 / 5] := by decide +kernel
  rw [Phases.Routes, hleft] at h
  exact ⟨by decide +kernel, h⟩

end

/-! ## The arrays of the entry block -/

/-- `routing_target`, for one evaluation. -/
structure RoutingTarget where
  target : ℕ
  source_pool : ℕ
  may_retry : Bool
  deriving DecidableEq, Repr

variable {topo : Topology} (consumers : List (Consumer Ptr topo))

/-- `consumer_offsets`: the GPU offset is part of it. -/
def consumerOffsets : List ℕ :=
  consumers.mapIdx fun i c => topo.countCus * i + c.base

/-- `consumer_count_queues_arr`. -/
def consumerQueueCounts : List ℕ :=
  consumers.map fun c => c.aff.countAffCUs

/-- Cell `idx` of `consumer_used_queues_arr`: every consumer owns `countCus` cells, and the
first `countAffCUs` of them hold its compute units, with the GPU offset added. -/
def consumerNumaNode (idx : ℕ) : Option ℕ :=
  consumers[idx / topo.countCus]?.bind fun c =>
    c.aff.getCUIndexDomain[idx % topo.countCus]?.map fun cu => cu + c.base

theorem consumerNumaNode_row {i j : ℕ} (hj : j < topo.countCus) :
    consumerNumaNode consumers (i * topo.countCus + j) =
      consumers[i]?.bind fun c => c.aff.getCUIndexDomain[j]?.map fun cu => cu + c.base := by
  have hpos : 0 < topo.countCus := by omega
  have hdiv : (i * topo.countCus + j) / topo.countCus = i := by
    rw [Nat.mul_comm, Nat.mul_add_div hpos, Nat.div_eq_of_lt hj, Nat.add_zero]
  have hmod : (i * topo.countCus + j) % topo.countCus = j := by
    rw [Nat.mul_comm, Nat.mul_add_mod, Nat.mod_eq_of_lt hj]
  rw [consumerNumaNode, hdiv, hmod]

/-! ## Evaluation -/

/-- What one evaluation reads at run time. -/
structure Call (Ptr Θ : Type*) (n : ℕ) where
  ptr : Ptr
  retrycnt : ℕ
  rand_int : ℕ
  rand_int2 : ℕ
  affDraw : ℕ
  state : RoutingState Ptr Θ n

variable (target_consumer : ℕ)

/-- `numa_if`: the compute unit of the target consumer that is local to the data. -/
def dataLocalCU (ptr : Ptr)
    (affDraw : ℕ) : Option ℕ :=
  consumers[target_consumer]?.map fun c => c.aff.getLocalCUIndex ptr affDraw

/-- `numa_else`: a random compute unit of the target consumer, from the table. -/
def randomCU (target_consumer rand : ℕ) : Option ℕ :=
  (consumerQueueCounts consumers)[target_consumer]?.bind fun consumer_count_queues =>
    consumerNumaNode consumers (target_consumer * topo.countCus + rand % consumer_count_queues)

/-- The end of every split policy: add the consumer's offset; the compute unit itself names the
free pool. -/
def splitTarget
    (target_numa : Option ℕ) : Option RoutingTarget :=
  target_numa.bind fun numa =>
    (consumerOffsets consumers)[target_consumer]?.map fun queue_offset_for_consumer =>
      { target := numa + queue_offset_for_consumer, source_pool := numa, may_retry := true }

/-- `RandomSplitForceDataLocal::evaluate`. -/
def evaluateRandomSplitForceDataLocal
    (call : Call Ptr Θ consumers.length) : Option RoutingTarget :=
  let target_consumer := call.rand_int % consumers.length
  splitTarget consumers target_consumer
    (dataLocalCU consumers target_consumer call.ptr call.affDraw)

/-- The phi of the two `PreferDataLocal` policies: data local on the first attempt, any compute
unit of the consumer on a retry. -/
def preferDataLocalCU
    (call : Call Ptr Θ consumers.length) (rand : ℕ) : Option ℕ :=
  if call.retrycnt < 1 then dataLocalCU consumers target_consumer call.ptr call.affDraw
  else randomCU consumers target_consumer rand

/-- `RandomSplitPreferDataLocal::evaluate`. -/
def evaluateRandomSplitPreferDataLocal
    (call : Call Ptr Θ consumers.length) : Option RoutingTarget :=
  let target_consumer := call.rand_int % consumers.length
  splitTarget consumers target_consumer
    (preferDataLocalCU consumers target_consumer call call.rand_int2)

/-- `ThroughputSplitPreferDataLocal::evaluate`. -/
def evaluateThroughputSplitPreferDataLocal [Throughput Θ] (consumers : List (Consumer Ptr topo))
    (call : Call Ptr Θ consumers.length) : Option RoutingTarget :=
  let target_consumer := call.state.get_target.1
  splitTarget consumers target_consumer
    (preferDataLocalCU consumers target_consumer call call.rand_int)

/-- The policies with queues of their own for every consumer. -/
inductive SplitPolicy
  | randomSplitForceDataLocal
  | randomSplitPreferDataLocal
  | throughputSplitPreferDataLocal
  deriving DecidableEq, Repr

namespace SplitPolicy

variable [Throughput Θ] (consumers : List (Consumer Ptr topo))

/-- The consumer an evaluation picks. -/
def pick (call : Call Ptr Θ consumers.length) : SplitPolicy → ℕ
  | randomSplitForceDataLocal => call.rand_int % consumers.length
  | randomSplitPreferDataLocal => call.rand_int % consumers.length
  | throughputSplitPreferDataLocal => call.state.get_target.1

def evaluate (call : Call Ptr Θ consumers.length) : SplitPolicy → Option RoutingTarget
  | randomSplitForceDataLocal => evaluateRandomSplitForceDataLocal consumers call
  | randomSplitPreferDataLocal => evaluateRandomSplitPreferDataLocal consumers call
  | throughputSplitPreferDataLocal => evaluateThroughputSplitPreferDataLocal consumers call

/-- The draw a retry takes its compute unit from; a policy that forces locality takes none. -/
def retryDraw (call : Call Ptr Θ consumers.length) : SplitPolicy → Option ℕ
  | randomSplitForceDataLocal => none
  | randomSplitPreferDataLocal => if call.retrycnt < 1 then none else some call.rand_int2
  | throughputSplitPreferDataLocal => if call.retrycnt < 1 then none else some call.rand_int

variable {consumers}

section

variable (call : Call Ptr Θ consumers.length) (p : SplitPolicy)
include call p

theorem pick_lt : p.pick consumers call < consumers.length := by
  have hn : 0 < consumers.length :=
    Nat.lt_of_le_of_lt (Nat.zero_le _) call.state.curr_target.2
  cases p with
  | randomSplitForceDataLocal => exact Nat.mod_lt _ hn
  | randomSplitPreferDataLocal => exact Nat.mod_lt _ hn
  | throughputSplitPreferDataLocal => exact call.state.get_target.1.2

/-- The consumer at the picked index. -/
def picked (call : Call Ptr Θ consumers.length) (p : SplitPolicy) : Consumer Ptr topo :=
  consumers.get ⟨p.pick consumers call, pick_lt call p⟩

theorem getElem?_pick : consumers[p.pick consumers call]? = some (p.picked call) :=
  List.getElem?_eq_getElem (pick_lt call p)

end

end SplitPolicy

/-! ## What an evaluation returns -/

open SplitPolicy

section

variable {consumers : List (Consumer Ptr topo)} {i : ℕ} {c : Consumer Ptr topo}

section

variable (hi : consumers[i]? = some c)
include hi

theorem splitTarget_some (numa : ℕ) : splitTarget consumers i (some numa) =
      some ⟨numa + (topo.countCus * i + c.base), numa, true⟩ := by
  simp [splitTarget, consumerOffsets, hi]

theorem dataLocalCU_eq (ptr : Ptr) (r : ℕ) :
    dataLocalCU consumers i ptr r = some (c.aff.getLocalCUIndex ptr r) := by
  simp [dataLocalCU, hi]

/-- The table already holds the GPU offset. -/
theorem randomCU_eq (r : ℕ) : randomCU consumers i r = some (c.aff.domainAt r + c.base) := by
  have hlt : r % c.aff.countAffCUs < topo.countCus :=
    (Nat.mod_lt _ c.aff.countAffCUs_pos).trans_le c.countAffCUs_le
  simp only [randomCU, consumerQueueCounts, List.getElem?_map, hi, Option.map_some,
    Option.bind_some]
  rw [consumerNumaNode_row consumers hlt, hi, Option.bind_some, c.aff.getElem?_mod, Option.map_some]

theorem preferDataLocalCU_eq (call : Call Ptr Θ consumers.length) (r : ℕ) :
    preferDataLocalCU consumers i call r =
      some (if call.retrycnt < 1 then c.aff.getLocalCUIndex call.ptr call.affDraw
        else c.aff.domainAt r + c.base) := by
  unfold preferDataLocalCU
  split_ifs
  · exact dataLocalCU_eq hi _ _
  · exact randomCU_eq hi r

end

/-- **One evaluation.** The first attempt takes the data-local compute unit and leaves the GPU
offset to the consumer's queue offset; a retry takes a table entry that has the offset already.
-/
theorem evaluate_eq [Throughput Θ] (p : SplitPolicy) (call : Call Ptr Θ consumers.length)
    (hi : consumers[p.pick consumers call]? = some c) : p.evaluate consumers call = some
      (let numa := match p.retryDraw consumers call with
        | none => c.aff.getLocalCUIndex call.ptr call.affDraw
        | some r => c.aff.domainAt r + c.base
      ⟨numa + (topo.countCus * p.pick consumers call + c.base), numa, true⟩) := by
  cases p with
  | randomSplitForceDataLocal =>
    simp only [pick] at hi ⊢
    simp only [evaluate, evaluateRandomSplitForceDataLocal, retryDraw]
    rw [dataLocalCU_eq hi, splitTarget_some hi]
  | randomSplitPreferDataLocal =>
    simp only [pick] at hi ⊢
    simp only [evaluate, evaluateRandomSplitPreferDataLocal, retryDraw]
    rw [preferDataLocalCU_eq hi, splitTarget_some hi]
    split_ifs <;> rfl
  | throughputSplitPreferDataLocal =>
    simp only [pick] at hi ⊢
    simp only [evaluate, evaluateThroughputSplitPreferDataLocal, retryDraw]
    rw [preferDataLocalCU_eq hi, splitTarget_some hi]
    split_ifs <;> rfl

end

end Proteus.Routing
