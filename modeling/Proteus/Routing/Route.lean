import Proteus.Routing.Router

/-!
# Routes: the queue and the pool of one buffer

A producer acquires a buffer from the pool its policy names and releases it to the queue its policy
names; a worker takes buffers from its queue and frees them into its own pool. Both sides compute
their numbers on their own. `Agreed` says that a worker of the targeted queue frees into the pool the
buffer came from, and `agrees_iff` says for which inputs of an evaluation that is so: for a split
policy, when the picked consumer's queues start at the CPU nodes and one of its workers was spawned
on the drawn compute unit.

The second half is about the workers alone: a queue determines the pool its workers free into, and
of the workers on a pool exactly one allocates it.
-/

namespace Proteus.Routing

open Function List Nat

variable {Ptr Θ : Type*} {topo : Topology}

/-! ## The affinity table -/

namespace AffinityPolicy

-- `getAvailableCUIndex` and `getLocalCUIndex` of an affinitizer, below its `countAllCUs`
variable {n : ℕ} (avail : ℕ → Fin n) (loc : Ptr → ℕ → Fin n)

/-- The first loop of the constructor: worker `i` goes to the row of its compute unit. -/
def rows : ℕ → Fin n → List ℕ
  | 0 => fun _ => []
  | i + 1 => update (rows i) (avail i) (rows i (avail i) ++ [i])

/-- The table after the second loop, which gives every worker to an empty row. -/
def indexes (fanout : ℕ) (x : Fin n) : List ℕ :=
  let ind := rows avail fanout x
  if ind.isEmpty then List.range fanout else ind

/-- `getIndexOfRandLocalCU`: `r` is its `rand()`, `affDraw` one that `getLocalCUIndex` makes. -/
def getIndexOfRandLocalCU (fanout : ℕ) (p : Ptr) (r affDraw : ℕ) : Option ℕ :=
  let ind := indexes avail fanout (loc p affDraw)
  ind[r % ind.length]?

theorem rows_eq (fanout : ℕ) (x : Fin n) :
    rows avail fanout x = (List.range fanout).filter (avail · = x) := by
  induction fanout with
  | zero => rfl
  | succ i ih =>
    rw [rows, range_succ, filter_append, ← ih]
    obtain rfl | hne := eq_or_ne x (avail i)
    · rw [update_self]
      simp
    · rw [update_of_ne hne]
      simp [hne.symm]

theorem mem_indexes {fanout i : ℕ} {x : Fin n} : i ∈ indexes avail fanout x ↔
    i < fanout ∧ ((∃ j < fanout, avail j = x) → avail i = x) := by
  have hempty : (rows avail fanout x).isEmpty ↔ ¬∃ j < fanout, avail j = x := by simp [rows_eq]
  rw [indexes]
  split_ifs with h
  · simp [hempty.1 h]
  · simp [rows_eq, not_not.1 (hempty.not.1 h)]

/-- With a worker at all, every row has an entry, and a draw is one of them. -/
theorem exists_draw {fanout : ℕ} (hf : 1 ≤ fanout) (p : Ptr) (r affDraw : ℕ) :
    ∃ i ∈ indexes avail fanout (loc p affDraw),
      getIndexOfRandLocalCU avail loc fanout p r affDraw = some i := by
  simp only [getIndexOfRandLocalCU]
  have hmem := @mem_indexes n avail fanout
  generalize loc p affDraw = x at *
  have hpos : 0 < (indexes avail fanout x).length := by
    by_cases h : ∃ j < fanout, avail j = x
    · obtain ⟨j, hj, hjx⟩ := h
      exact length_pos_of_mem (hmem.2 ⟨hj, fun _ => hjx⟩)
    · exact length_pos_of_mem (hmem.2 ⟨hf, fun hx => absurd hx h⟩)
  exact ⟨_, getElem_mem (mod_lt r hpos), getElem?_eq_getElem _⟩

theorem length_indexes_le (fanout : ℕ) (x : Fin n) : (indexes avail fanout x).length ≤ fanout := by
  simp only [indexes, rows_eq]
  split_ifs
  · exact length_range.le
  · exact (length_filter_le _ _).trans_eq length_range

/-- A draw is below the fan-out and, if the unit local to the pointer has a worker, is one of its
workers; each of those is drawn by some `r`. -/
theorem draw_local {fanout : ℕ} (hf : 1 ≤ fanout) (p : Ptr) (affDraw : ℕ) :
    (∀ r, ∃ i < fanout, getIndexOfRandLocalCU avail loc fanout p r affDraw = some i ∧
      ((∃ j < fanout, avail j = loc p affDraw) → avail i = loc p affDraw)) ∧
    ∀ i < fanout, avail i = loc p affDraw → ∃ r < fanout,
      getIndexOfRandLocalCU avail loc fanout p r affDraw = some i := by
  constructor
  · intro r
    obtain ⟨i, hi, hdraw⟩ := exists_draw avail loc hf p r affDraw
    obtain ⟨hlt, hown⟩ := (mem_indexes avail).1 hi
    exact ⟨i, hlt, hdraw, hown⟩
  · intro i hi hix
    have hle := length_indexes_le avail fanout (loc p affDraw)
    obtain ⟨r, hr, hri⟩ := mem_iff_getElem.1 ((mem_indexes avail).2 ⟨hi, fun _ => hix⟩)
    refine ⟨r, by omega, ?_⟩
    rw [getIndexOfRandLocalCU, mod_eq_of_lt hr, getElem?_eq_getElem hr, hri]

/-- Worker 2 of three is on the unit of the pointer. -/
theorem draw_local_three : (1 : ℕ) ≤ 3 ∧ ∃ r < 3,
    getIndexOfRandLocalCU (Fin.ofNat 2) (fun (p : ℕ) _ => Fin.ofNat 2 p) 3 4 r 0 = some 2 :=
  ⟨by decide, (draw_local (Fin.ofNat 2) (fun p _ => Fin.ofNat 2 p) (by decide) 4 0).2 2 (by decide)
    (by decide)⟩

/-- `routing::Local::evaluate`. -/
def evaluateLocal (fanout : ℕ) (p : Ptr) (r affDraw : ℕ) : Option RoutingTarget :=
  if fanout = 1 then some ⟨0, 0, false⟩
  else (getIndexOfRandLocalCU avail loc fanout p r affDraw).map fun target => ⟨target, target, true⟩

/-- With one worker on each compute unit the index of the local one is the unit itself. -/
theorem evaluateLocal_eq (hn : 0 < n) (p : Ptr) (r affDraw : ℕ) :
    ∃ retry, evaluateLocal (fun i => ⟨i % n, mod_lt i hn⟩) loc n p r affDraw =
      some ⟨loc p affDraw, loc p affDraw, retry⟩ := by
  unfold evaluateLocal
  split_ifs with h
  · have hzero : (loc p affDraw : ℕ) = 0 := by omega
    exact ⟨false, by rw [hzero]⟩
  · obtain ⟨i, hi, hdraw⟩ := exists_draw (fun i => ⟨i % n, mod_lt i hn⟩) loc hn p r affDraw
    obtain ⟨hlt, hown⟩ := (mem_indexes _).1 hi
    have hunit := hown ⟨_, (loc p affDraw).2, Fin.ext (mod_eq_of_lt (loc p affDraw).2)⟩
    have hi : i = loc p affDraw := (mod_eq_of_lt hlt).symm.trans (congrArg Fin.val hunit)
    exact ⟨true, by rw [hdraw, Option.map_some, ← hi]⟩

end AffinityPolicy

open AffinityPolicy

/-! ## Routers -/

/-- A router as `open` finds it. `numaOf` is the NUMA node of a pointer, as
`CpuNumaNodeAffinitizer` tells it. `getPolicy` refuses `SHARED_HASH_BASED`. -/
structure Router (Ptr : Type*) (topo : Topology) where
  policy : GeneralizedRoutingPolicy
  consumers : List (Consumer Ptr topo)
  numaOf : Ptr → ℕ → Fin topo.getCpuNumaNodeCount
  slack : ℕ
  cpu_pos : 0 < topo.getCpuNumaNodeCount
  implemented : policy ≠ .sharedHashBased

namespace Router

variable (R : Router Ptr topo)

def workers : List Worker := openWorkers R.policy R.consumers

def queueCnt : ℕ := getNumberOfQueues R.consumers R.policy

/-- What `consume` takes its target queue and its free pool from. -/
def route [Throughput Θ] (call : Call Ptr Θ R.consumers.length) : Option RoutingTarget :=
  match R.policy with
  | .sharedRandom => some ⟨0, 0, false⟩
  | .sharedLocal | .sharedForceLocal => evaluateLocal (fun i => ⟨i % _, mod_lt i R.cpu_pos⟩) R.numaOf
      topo.getCpuNumaNodeCount call.ptr call.rand_int call.affDraw
  | .sharedHashBased => none
  | .distinct p => p.evaluate R.consumers call

/-- A worker of the targeted queue frees into the pool the buffer is acquired from. -/
def Agreed (rt : RoutingTarget) : Prop :=
  ∃ w ∈ R.workers, w.target_queue = rt.target ∧ w.source_free_pool = rt.source_pool

/-- The local targets a consumer's workers are spawned on. -/
def spawnedOn (c : Consumer Ptr topo) : List ℕ :=
  (List.range c.fanout).map (workerTarget R.policy c)

/-- The compute unit of the picked consumer an evaluation of a split policy draws. -/
def drawnCU [Throughput Θ] (p : SplitPolicy) (call : Call Ptr Θ R.consumers.length) : ℕ :=
  match p.retryDraw R.consumers call with
  | none => (p.picked call).aff.getLocalCUIndex call.ptr call.affDraw
  | some r => (p.picked call).aff.domainAt r

/-- The inputs for which the two sides agree. -/
def Agrees [Throughput Θ] (call : Call Ptr Θ R.consumers.length) : Prop :=
  match R.policy with
  | .sharedRandom => ∃ c ∈ R.consumers, 0 < c.fanout
  | .sharedLocal | .sharedForceLocal =>
    ∃ c ∈ R.consumers, (R.numaOf call.ptr call.affDraw : ℕ) ∈ R.spawnedOn c
  | .sharedHashBased => False
  | .distinct p => (p.picked call).base = 0 ∧ R.drawnCU p call ∈ R.spawnedOn (p.picked call)

end Router

/-! ## Which workers exist -/

variable {w : Worker}

namespace Router

variable {R : Router Ptr topo} {t : ℕ}

theorem exists_worker_iff {q : ℕ} : (∃ w ∈ R.workers, w.target_queue = q ∧ w.source_free_pool = t) ↔
      ∃ k c, R.consumers[k]? = some c ∧ t ∈ R.spawnedOn c ∧
        q = queueOffset topo k R.policy + t := by
  refine ⟨fun h => ?_, fun h => ?_⟩
  · obtain ⟨w, hw, rfl, rfl⟩ := h
    obtain ⟨k, c, hc, hr⟩ := (mem_openWorkers_route R.policy R.consumers w.route).1 ⟨w, hw, rfl⟩
    obtain ⟨i, hi, heq⟩ := mem_map.1 hr
    simp only [Worker.route, Prod.mk.injEq] at heq
    refine ⟨k, c, hc, ?_, by rw [← heq.2.1, heq.2.2]⟩
    rw [← heq.2.2]
    exact mem_map_of_mem hi
  · obtain ⟨k, c, hc, ht, rfl⟩ := h
    obtain ⟨i, hi, rfl⟩ := mem_map.1 ht
    have hr := mem_map_of_mem (f := fun i => (k, queueOffset topo k R.policy +
      workerTarget R.policy c i, workerTarget R.policy c i)) hi
    obtain ⟨w, hw, hroute⟩ := (mem_openWorkers_route R.policy R.consumers _).2 ⟨k, c, hc, hr⟩
    simp only [Worker.route, Prod.mk.injEq] at hroute
    exact ⟨w, hw, hroute.2⟩

theorem workerTarget_sharedRandom (c : Consumer Ptr topo) (i : ℕ) : workerTarget .sharedRandom c i = 0 := by
  simp [workerTarget, localTargets, mod_one]

theorem workerTarget_lt (policy : GeneralizedRoutingPolicy) (hr : policy ≠ .sharedRandom)
    (hh : policy ≠ .sharedHashBased) (c : Consumer Ptr topo) (i : ℕ) :
    workerTarget policy c i < topo.countCus := by
  have htargets : localTargets c policy =
      (range c.aff.countAffCUs).map fun i => c.aff.getAvailableCUIndex i + c.base := by
    cases policy <;> first | rfl | contradiction
  have hi : i % c.aff.countAffCUs < c.aff.countAffCUs := mod_lt _ c.aff.countAffCUs_pos
  have hlt := c.base_add_lt ((c.aff.mem_domain_iff _).2 ⟨_, hi, rfl⟩)
  rw [workerTarget, htargets, length_map, length_range, getD_eq_getElem?_getD,
    getElem?_map, getElem?_range hi]
  simp only [Option.map_some, Option.getD_some]
  omega

/-- A queue of consumer `k` is read back to `k` and to the pool. -/
theorem queue_inj {k k' t' n : ℕ} (ht : t < n) (ht' : t' < n) (h : k * n + t = k' * n + t') :
    k = k' ∧ t = t' := by
  have hdiv := congrArg (· / n) h
  have hmod := congrArg (· % n) h
  have hn : 0 < n := by omega
  simp only [mul_comm _ n, mul_add_div hn, mul_add_mod, div_eq_of_lt ht,
    div_eq_of_lt ht', mod_eq_of_lt ht, mod_eq_of_lt ht', add_zero] at hdiv hmod
  exact ⟨hdiv, hmod⟩

variable {p : SplitPolicy}

theorem mem_spawnedOn_lt (hp : R.policy = .distinct p) {c : Consumer Ptr topo}
    (ht : t ∈ R.spawnedOn c) : t < topo.countCus := by
  obtain ⟨i, -, rfl⟩ := mem_map.1 ht
  exact workerTarget_lt _ (by simp [hp]) (by simp [hp]) c i

/-- A queue determines the pool its workers free into. -/
theorem pool_eq_of_queue_eq {v : Worker} (hv : v ∈ R.workers) (hw : w ∈ R.workers)
    (h : v.target_queue = w.target_queue) : v.source_free_pool = w.source_free_pool := by
  obtain ⟨k, c, -, ht, hq⟩ := exists_worker_iff.1 ⟨v, hv, rfl, rfl⟩
  obtain ⟨k', c', -, ht', hq'⟩ := exists_worker_iff.1 ⟨w, hw, rfl, rfl⟩
  rw [hq, hq'] at h
  cases hp : R.policy with
  | distinct p =>
    simp only [hp, queueOffset] at h
    exact (queue_inj (mem_spawnedOn_lt hp ht) (mem_spawnedOn_lt hp ht') h).2
  | sharedHashBased => exact absurd hp R.implemented
  | _ => simpa [hp, queueOffset] using h

theorem worker_lt_queueCnt (hw : w ∈ R.workers) :
    w.target_queue < R.queueCnt ∧ w.source_free_pool < R.queueCnt := by
  obtain ⟨k, c, hc, ht, hq⟩ := exists_worker_iff.1 ⟨w, hw, rfl, rfl⟩
  obtain ⟨i, -, htarget⟩ := mem_map.1 ht
  rw [hq, ← htarget, queueCnt]
  cases hp : R.policy with
  | sharedRandom =>
    rw [workerTarget_sharedRandom]
    exact ⟨one_pos, one_pos⟩
  | sharedHashBased => exact absurd hp R.implemented
  | sharedLocal =>
    have hlt := workerTarget_lt .sharedLocal (by simp) (by simp) c i
    exact ⟨by simpa [queueOffset, getNumberOfQueues] using hlt, hlt⟩
  | sharedForceLocal =>
    have hlt := workerTarget_lt .sharedForceLocal (by simp) (by simp) c i
    exact ⟨by simpa [queueOffset, getNumberOfQueues] using hlt, hlt⟩
  | distinct p =>
    have hlt := workerTarget_lt (.distinct p) (by simp) (by simp) c i
    have hk : k + 1 ≤ R.consumers.length := (List.getElem?_eq_some_iff.1 hc).1
    have hmul := mul_le_mul_right topo.countCus hk
    rw [succ_mul] at hmul
    simp only [queueOffset, getNumberOfQueues]
    exact ⟨by omega, by omega⟩

/-! ## Agreement -/

section

variable [Throughput Θ] {call : Call Ptr Θ R.consumers.length} {rt : RoutingTarget}

/-- A local policy targets the node of the pointer, and takes its pool. -/
theorem agreed_local_iff {retry : Bool} (hoff : ∀ k, queueOffset topo k R.policy = 0) :
    R.Agreed ⟨t, t, retry⟩ ↔ ∃ c ∈ R.consumers, t ∈ R.spawnedOn c := by
  rw [Agreed, exists_worker_iff]
  refine ⟨fun h => ?_, fun h => ?_⟩
  · obtain ⟨k, c, hc, ht, -⟩ := h
    exact ⟨c, mem_of_getElem? hc, ht⟩
  · obtain ⟨c, hc, ht⟩ := h
    obtain ⟨k, hk⟩ := getElem?_of_mem hc
    exact ⟨k, c, hk, ht, by rw [hoff, zero_add]⟩

theorem agreed_distinct_iff (hp : R.policy = .distinct p)
    (hrt : p.evaluate R.consumers call = some rt) :
    R.Agreed rt ↔ (p.picked call).base = 0 ∧ R.drawnCU p call ∈ R.spawnedOn (p.picked call) := by
  have hc := p.getElem?_pick call
  rw [evaluate_eq p call hc, Option.some.injEq] at hrt
  subst hrt
  -- A consumer's compute units leave room for its base among its own queues.
  have hbase : (p.picked call).base < topo.countCus := by
    have := (p.picked call).base_add_lt ((p.picked call).aff.domainAt_mem 0)
    omega
  have hnuma : (p.picked call).base = 0 →
      (match p.retryDraw R.consumers call with
        | none => (p.picked call).aff.getLocalCUIndex call.ptr call.affDraw
        | some r => (p.picked call).aff.domainAt r + (p.picked call).base) = R.drawnCU p call := by
    intro h0
    rw [drawnCU]
    cases p.retryDraw R.consumers call with
    | none => rfl
    | some r => simp [h0]
  rw [Agreed, exists_worker_iff]
  refine ⟨fun h => ?_, fun h => ?_⟩
  · obtain ⟨k, c, hk, ht, hq⟩ := h
    have hq' : k * topo.countCus + 0 =
        p.pick R.consumers call * topo.countCus + (p.picked call).base := by
      simp only [hp, queueOffset] at hq
      rw [mul_comm (p.pick R.consumers call)]
      omega
    obtain ⟨rfl, h0⟩ := queue_inj (by omega) hbase hq'
    rw [hc] at hk
    cases hk
    refine ⟨h0.symm, ?_⟩
    rwa [← hnuma h0.symm]
  · obtain ⟨h0, hmem⟩ := h
    refine ⟨_, _, hc, ?_, ?_⟩
    · rwa [← hnuma h0] at hmem
    · simp only [hp, queueOffset, h0]
      rw [mul_comm]
      omega

/-- For which inputs the pool a buffer is acquired from is the one it is freed into. -/
theorem agrees_iff (hrt : R.route call = some rt) : R.Agreed rt ↔ R.Agrees call := by
  obtain ⟨retry, hlocal⟩ := evaluateLocal_eq R.numaOf R.cpu_pos call.ptr call.rand_int call.affDraw
  rw [route] at hrt
  rw [Agrees]
  cases hp : R.policy with
  | sharedRandom =>
    simp only [hp] at hrt ⊢
    cases hrt
    rw [agreed_local_iff (fun k => by rw [hp]; rfl)]
    simp only [spawnedOn, hp, mem_map, workerTarget_sharedRandom, mem_range, and_true]
    exact exists_congr fun c => and_congr_right fun _ =>
      ⟨fun ⟨i, hi⟩ => zero_lt_of_lt hi, fun h => ⟨0, h⟩⟩
  | sharedLocal | sharedForceLocal =>
    simp only [hp] at hrt ⊢
    rw [hlocal] at hrt
    cases hrt
    exact agreed_local_iff fun k => by rw [hp]; rfl
  | sharedHashBased => exact absurd hp R.implemented
  | distinct p =>
    simp only [hp] at hrt ⊢
    exact agreed_distinct_iff hp hrt

end

end Router

/-! ## Who allocates a pool -/

section

variable (policy : GeneralizedRoutingPolicy)

/-- A worker that allocates the pool `p`. -/
def Worker.allocates (p : ℕ) (w : Worker) : Bool :=
  w.should_allocate_queue_buffs && decide (w.source_free_pool = p)

attribute [local simp] Worker.allocates

theorem Worker.allocates_iff {p : ℕ} :
    w.allocates p ↔ w.should_allocate_queue_buffs ∧ w.source_free_pool = p := by
  simp

/-- While workers are spawned, every pool that has a worker has one that allocates it, and the set
of allocated pools is what the policies that use it take it for. -/
structure Allocated (st : Spawned) : Prop where
  once : ∀ p, st.firers.countP (Worker.allocates p) =
    if p ∈ st.firers.map Worker.source_free_pool then 1 else 0
  known : ∀ t, (policy = .sharedRandom → t = 0) → ∀ fanout,
    allocBuffers st fanout t policy = decide (t ∉ st.firers.map Worker.source_free_pool)

variable {policy}

theorem spawnOne_firers (k : ℕ) (c : Consumer Ptr topo) (st : Spawned) (i : ℕ) :
    (spawnOne policy k c st i).firers = st.firers ++
      [⟨k, queueOffset topo k policy + workerTarget policy c i, workerTarget policy c i,
        allocBuffers st c.fanout (workerTarget policy c i) policy⟩] := rfl

section

variable (hr : policy ≠ .sharedRandom) (hh : policy ≠ .sharedHashBased)
include hr hh

theorem allocBuffers_eq
    (st : Spawned) (fanout t : ℕ) : allocBuffers st fanout t policy = decide (t ∉ st.allocated_pools) := by
  cases policy <;> first | rfl | contradiction

/-- The set grows exactly when the pool is new. -/
theorem mem_allocated_pools_spawnOne (k : ℕ) (c : Consumer Ptr topo) (st : Spawned) (i x : ℕ) :
    x ∈ (spawnOne policy k c st i).allocated_pools ↔
      x = workerTarget policy c i ∨ x ∈ st.allocated_pools := by
  have hset : (spawnOne policy k c st i).allocated_pools =
      if workerTarget policy c i ∈ st.allocated_pools then st.allocated_pools
      else workerTarget policy c i :: st.allocated_pools := by
    have halloc := allocBuffers_eq hr hh st c.fanout (workerTarget policy c i)
    have hif : (spawnOne policy k c st i).allocated_pools =
        if allocBuffers st c.fanout (workerTarget policy c i) policy
        then workerTarget policy c i :: st.allocated_pools else st.allocated_pools := by
      cases policy <;> first | rfl | contradiction
    rw [hif, halloc]
    by_cases hmem : workerTarget policy c i ∈ st.allocated_pools <;> simp [hmem]
  rw [hset]
  split_ifs with hmem
  · exact ⟨.inr, fun hx => hx.elim (fun heq => heq ▸ hmem) id⟩
  · rw [mem_cons]

end

section

variable (hh : policy ≠ .sharedHashBased)
include hh

theorem Allocated.nil : Allocated policy {} where
  once p := rfl
  known t ht fanout := by
    cases policy with
    | sharedHashBased => exact absurd rfl hh
    | _ => simp [allocBuffers]

theorem Allocated.spawnOne
    {st : Spawned} (h : Allocated policy st) (k : ℕ) (c : Consumer Ptr topo) (i : ℕ) :
    Allocated policy (spawnOne policy k c st i) := by
  have htarget : policy = .sharedRandom → workerTarget policy c i = 0 := by
    rintro rfl
    exact Router.workerTarget_sharedRandom c i
  have halloc := h.known (workerTarget policy c i) htarget c.fanout
  refine ⟨fun p => ?_, fun t ht fanout => ?_⟩
  · have hone := h.once p
    rw [spawnOne_firers, countP_append, hone, halloc, map_append, map_singleton]
    by_cases hp : workerTarget policy c i = p
    · subst hp
      by_cases hmem : workerTarget policy c i ∈ st.firers.map Worker.source_free_pool
      · simp [hmem]
      · simp [hmem]
    · simp [hp, Ne.symm hp]
  · by_cases hr : policy = .sharedRandom
    · subst hr
      simp [allocBuffers, spawnOne_firers, ht rfl, htarget rfl]
    · have hknown := h.known t ht fanout
      rw [allocBuffers_eq hr hh, decide_eq_decide, not_iff_not] at hknown ⊢
      rw [mem_allocated_pools_spawnOne hr hh, hknown, spawnOne_firers, map_append,
        mem_append, map_singleton, mem_singleton]
      exact or_comm

theorem Allocated.spawnFrom (consumers : List (Consumer Ptr topo)) :
    ∀ k st, Allocated policy st → Allocated policy (spawnFrom policy k consumers st) := by
  induction consumers with
  | nil =>
    intro k st h
    exact h
  | cons c cs ih =>
    intro k st h
    refine ih (k + 1) _ ?_
    show Allocated policy ((range c.fanout).foldl _ st)
    generalize range c.fanout = is
    induction is generalizing st with
    | nil => exact h
    | cons i is ihs => exact ihs _ (h.spawnOne hh k c i)

end

/-- Of the workers on a pool exactly one allocates it. -/
theorem Router.countP_allocates {R : Router Ptr topo} (hw : w ∈ R.workers) :
    R.workers.countP (Worker.allocates w.source_free_pool) = 1 := by
  have h := (Allocated.spawnFrom R.implemented R.consumers 0 {} (.nil R.implemented)).once
    w.source_free_pool
  rwa [if_pos (mem_map_of_mem (show w ∈ (spawnFrom R.policy 0 R.consumers {}).firers from hw))] at h

end

end Proteus.Routing
