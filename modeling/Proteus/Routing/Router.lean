import Proteus.Routing.Policy

/-!
# Workers of a generalized router

`GeneralizedRouter::open` lets every consumer spawn its workers. A worker drains one ready
queue and frees the buffers it has consumed into one free pool; the first worker on a pool also
allocates the pool's buffers. The policies choose queues and pools on the producer side with
code of their own, and the results of this module say when the two sides agree on the queue.
-/

namespace Proteus.Routing

open List

variable {Ptr Θ : Type*} {topo : Topology}

/-! ## Model -/

/-- `GeneralizedRoutingPolicy`; the three `DISTINCT_*` policies are `distinct`. -/
inductive GeneralizedRoutingPolicy
  | sharedRandom
  | sharedLocal
  | sharedForceLocal
  | sharedHashBased
  | distinct (p : SplitPolicy)
  deriving DecidableEq, Repr

/-- `getNumberOfQueues`: ready queues, and free pools. `SHARED_HASH_BASED` requires that all
consumers have the same degree of parallelism and takes the first one's. -/
def getNumberOfQueues (consumers : List (Consumer Ptr topo)) : GeneralizedRoutingPolicy → ℕ
  | .sharedRandom => 1
  | .sharedLocal => topo.countCus
  | .sharedForceLocal => topo.countCus
  | .sharedHashBased => (consumers.head?.map (·.fanout)).getD 0
  | .distinct _ => consumers.length * topo.countCus

/-- The arguments of one `fire`: a firer and the consumer it belongs to. -/
structure Worker where
  consumer_index : ℕ
  target_queue : ℕ
  source_free_pool : ℕ
  should_allocate_queue_buffs : Bool
  deriving DecidableEq, Repr

/-- `queue_offset` in `open`. -/
def queueOffset (topo : Topology) (consumer_index : ℕ) : GeneralizedRoutingPolicy → ℕ
  | .distinct _ => consumer_index * topo.countCus
  | _ => 0

/-- `local_targets` in `spawnWorker`. -/
def localTargets (c : Consumer Ptr topo) : GeneralizedRoutingPolicy → List ℕ
  | .sharedRandom => [0]
  | .sharedHashBased => List.range c.fanout
  | _ => (List.range c.aff.countAffCUs).map fun i => c.aff.getAvailableCUIndex i + c.base

/-- What `open` threads through the calls to `spawnWorker`. -/
structure Spawned where
  firers : List Worker := []
  allocated_pools : List ℕ := []

/-- `alloc_buffers`, for a worker on the local target `t`. -/
def allocBuffers (st : Spawned) (fanout t : ℕ) : GeneralizedRoutingPolicy → Bool
  | .sharedRandom => st.firers.isEmpty
  | .sharedHashBased => st.firers.length < fanout
  | _ => t ∉ st.allocated_pools

variable (policy : GeneralizedRoutingPolicy)

/-- One round of the loop in `spawnWorker`. -/
def spawnOne (consumer_index : ℕ) (c : Consumer Ptr topo)
    (st : Spawned) (i : ℕ) : Spawned :=
  let local_targets := localTargets c policy
  let t := local_targets.getD (i % local_targets.length) 0
  let alloc := allocBuffers st c.fanout t policy
  { firers := st.firers ++ [⟨consumer_index, queueOffset topo consumer_index policy + t, t, alloc⟩]
    allocated_pools :=
      match policy with
      | .sharedRandom | .sharedHashBased => st.allocated_pools
      | _ => if alloc then t :: st.allocated_pools else st.allocated_pools }

def spawnWorker (policy : GeneralizedRoutingPolicy) (consumer_index : ℕ) (c : Consumer Ptr topo)
    (st : Spawned) : Spawned :=
  (List.range c.fanout).foldl (spawnOne policy consumer_index c) st

/-- The loop of `open` over the consumers. -/
def spawnFrom (policy : GeneralizedRoutingPolicy) : ℕ → List (Consumer Ptr topo) → Spawned → Spawned
  | _, [], st => st
  | consumer_index, c :: cs, st =>
    spawnFrom policy (consumer_index + 1) cs (spawnWorker policy consumer_index c st)

/-- The firers `open` leaves. -/
def openWorkers (policy : GeneralizedRoutingPolicy) (consumers : List (Consumer Ptr topo)) :
    List Worker :=
  (spawnFrom policy 0 consumers {}).firers

/-! ## Which workers exist -/

/-- The local target of a consumer's `i`-th worker. -/
def workerTarget (c : Consumer Ptr topo) (i : ℕ) : ℕ :=
  (localTargets c policy).getD (i % (localTargets c policy).length) 0

/-- What a worker is apart from its allocation duty. -/
def Worker.route (w : Worker) : ℕ × ℕ × ℕ := (w.consumer_index, w.target_queue, w.source_free_pool)

/-- The routes of the workers of one consumer. -/
def consumerRoutes (policy : GeneralizedRoutingPolicy) (consumer_index : ℕ)
    (c : Consumer Ptr topo) : List (ℕ × ℕ × ℕ) :=
  (List.range c.fanout).map fun i =>
    (consumer_index, queueOffset topo consumer_index policy + workerTarget policy c i,
      workerTarget policy c i)

variable (policy : GeneralizedRoutingPolicy) {c : Consumer Ptr topo}

open Worker

theorem spawnLoop_routes (k : ℕ) (c : Consumer Ptr topo) (is : List ℕ) (st : Spawned) :
    (is.foldl (spawnOne policy k c) st).firers.map route =
      st.firers.map route ++
        is.map fun i => (k, queueOffset topo k policy + workerTarget policy c i,
          workerTarget policy c i) := by
  induction is generalizing st with
  | nil => simp
  | cons i is ih =>
    rw [foldl_cons, ih]
    simp [spawnOne, route, workerTarget]

theorem spawnFrom_routes (k : ℕ) (cs : List (Consumer Ptr topo)) (st : Spawned) :
    (spawnFrom policy k cs st).firers.map route =
      st.firers.map route ++
        (cs.mapIdx fun j c => consumerRoutes policy (k + j) c).flatten := by
  induction cs generalizing k st with
  | nil => simp [spawnFrom]
  | cons c cs ih =>
    rw [spawnFrom, ih, spawnWorker, spawnLoop_routes, mapIdx_cons]
    simp [consumerRoutes, Nat.add_assoc, Nat.add_comm 1]

/-- The workers are those of the consumers, each once per fan-out. -/
theorem mem_openWorkers_route (consumers : List (Consumer Ptr topo)) (r : ℕ × ℕ × ℕ) :
    (∃ w ∈ openWorkers policy consumers, w.route = r) ↔
      ∃ k c, consumers[k]? = some c ∧ r ∈ consumerRoutes policy k c := by
  have h := spawnFrom_routes policy 0 consumers {}
  rw [← mem_map, openWorkers, h]
  simp only [map_nil, nil_append, Nat.zero_add, mem_flatten, mem_mapIdx]
  constructor
  · rintro ⟨_, ⟨k, hk, rfl⟩, hr⟩
    exact ⟨k, consumers[k], getElem?_eq_getElem hk, hr⟩
  · rintro ⟨k, c, hc, hr⟩
    obtain ⟨hk, rfl⟩ := List.getElem?_eq_some_iff.1 hc
    exact ⟨_, ⟨k, hk, rfl⟩, hr⟩

/-- A fan-out that covers the local targets serves exactly them. -/
theorem mem_consumerRoutes {k q t : ℕ}
    (hpos : 0 < (localTargets c policy).length) (hfan : (localTargets c policy).length ≤ c.fanout) :
    (k, q, t) ∈ consumerRoutes policy k c ↔
      t ∈ localTargets c policy ∧ q = queueOffset topo k policy + t := by
  simp only [consumerRoutes, mem_map, mem_range, Prod.mk.injEq, true_and]
  constructor
  · rintro ⟨i, -, rfl, rfl⟩
    have hi : i % (localTargets c policy).length < (localTargets c policy).length :=
      Nat.mod_lt _ hpos
    refine ⟨?_, rfl⟩
    rw [workerTarget, getD_eq_getElem?_getD, getElem?_eq_getElem hi]
    exact getElem_mem hi
  · rintro ⟨ht, rfl⟩
    obtain ⟨i, hi, rfl⟩ := getElem_of_mem ht
    have hget : workerTarget policy c i = (localTargets c policy)[i] := by
      rw [workerTarget, Nat.mod_eq_of_lt hi, getD_eq_getElem?_getD, getElem?_eq_getElem hi]
      rfl
    exact ⟨i, by omega, by rw [hget], hget⟩

/-- The local targets of a consumer with queues of its own. -/
theorem mem_localTargets_distinct {p : SplitPolicy} {t : ℕ} :
    t ∈ localTargets c (.distinct p) ↔ ∃ x ∈ c.aff.getCUIndexDomain, t = x + c.base := by
  simp only [localTargets, mem_map, mem_range]
  constructor
  · rintro ⟨i, hi, rfl⟩
    exact ⟨_, (c.aff.mem_domain_iff _).2 ⟨i, hi, rfl⟩, rfl⟩
  · rintro ⟨x, hx, rfl⟩
    obtain ⟨i, hi, rfl⟩ := (c.aff.mem_domain_iff x).1 hx
    exact ⟨i, hi, rfl⟩

/-! ## Agreement of policies and workers -/

/-- A queue of consumer `k`'s own partition that one of its workers drains. -/
structure Served (p : SplitPolicy) (consumers : List (Consumer Ptr topo)) (k target : ℕ) :
    Prop where
  worker : ∃ w ∈ openWorkers (.distinct p) consumers, w.consumer_index = k ∧
    w.target_queue = target ∧ target = k * topo.countCus + w.source_free_pool
  lt_getNumberOfQueues : target < getNumberOfQueues consumers (.distinct p)
  partition_le : k * topo.countCus ≤ target
  lt_partition : target < (k + 1) * topo.countCus

section

variable {consumers : List (Consumer Ptr topo)} {k : ℕ}

section

variable (p : SplitPolicy) (hc : consumers[k]? = some c) (hfan : c.aff.countAffCUs ≤ c.fanout)
include p hc hfan

theorem exists_worker_iff (t : ℕ) :
    (∃ w ∈ openWorkers (.distinct p) consumers, w.route = (k, k * topo.countCus + t, t)) ↔
      ∃ x ∈ c.aff.getCUIndexDomain, t = x + c.base := by
  have hlen : (localTargets c (.distinct p)).length = c.aff.countAffCUs := by simp [localTargets]
  have hpos : 0 < (localTargets c (.distinct p)).length := by
    rw [hlen]
    exact c.aff.countAffCUs_pos
  rw [mem_openWorkers_route, ← mem_localTargets_distinct (p := p)]
  refine ⟨?_, fun ht => ⟨k, c, hc, ?_⟩⟩
  · intro h
    rcases h with ⟨k', c', hc', hr⟩
    -- A worker carries its consumer's index, so the consumer is `c`.
    have hk : k' = k := by
      simp only [consumerRoutes, mem_map, Prod.mk.injEq] at hr
      rcases hr with ⟨i, -, h, -⟩
      exact h
    subst hk
    rw [hc] at hc'
    cases hc'
    exact ((mem_consumerRoutes (.distinct p) hpos (hlen ▸ hfan)).1 hr).1
  · exact (mem_consumerRoutes (.distinct p) hpos (hlen ▸ hfan)).2 ⟨ht, rfl⟩

/-- The served queues of a consumer are its compute units, behind the consumer's own offset. -/
theorem served_iff (t : ℕ) :
    Served p consumers k (k * topo.countCus + t) ↔ ∃ x ∈ c.aff.getCUIndexDomain, t = x + c.base := by
  rw [← exists_worker_iff p hc hfan]
  refine ⟨?_, ?_⟩
  · intro h
    rcases h.worker with ⟨w, hw, hk, hq, ht⟩
    have hpool : w.source_free_pool = t := by omega
    exact ⟨w, hw, by rw [route, hk, hq, hpool]⟩
  · intro h
    rcases (exists_worker_iff p hc hfan t).1 h with ⟨x, hx, htx⟩
    rcases h with ⟨w, hw, hr⟩
    simp only [route, Prod.mk.injEq] at hr
    have hlt : t < topo.countCus := by
      have := c.base_add_lt hx
      omega
    have hkn : k + 1 ≤ consumers.length := (List.getElem?_eq_some_iff.1 hc).1
    have hpart : k * topo.countCus + t < (k + 1) * topo.countCus := by
      rw [Nat.succ_mul]
      omega
    exact {
      worker := ⟨w, hw, hr.1, hr.2.1, by rw [hr.2.2]⟩
      lt_getNumberOfQueues := hpart.trans_le (Nat.mul_le_mul_right _ hkn)
      partition_le := Nat.le_add_right _ _
      lt_partition := hpart }

end

/-- **Queue targeting.** An evaluation targets a queue that the picked consumer's workers drain
exactly when it is not a retry of a `PreferDataLocal` policy onto a GPU consumer, or the compute
unit one CPU count above the drawn one happens to be the consumer's as well: the retry adds the
GPU offset a second time. -/
theorem evaluate_served_iff [Throughput Θ] (p : SplitPolicy) (call : Call Ptr Θ consumers.length)
    (hfan : ∀ c ∈ consumers, c.aff.countAffCUs ≤ c.fanout) : (∃ rt, p.evaluate consumers call = some rt ∧
        Served p consumers (p.pick consumers call) rt.target) ↔
      ∀ r, p.retryDraw consumers call = some r → (p.picked call).target_device = .GPU →
        topo.getCpuNumaNodeCount + (p.picked call).aff.domainAt r ∈
          (p.picked call).aff.getCUIndexDomain := by
  have hc := p.getElem?_pick call
  have hfan := hfan _ (mem_of_getElem? hc)
  rw [evaluate_eq p call hc]
  simp only [Option.some.injEq, exists_eq_left']
  generalize p.picked call = c at *
  generalize p.pick consumers call = k at *
  cases p.retryDraw consumers call with
  | none =>
    have hserved := (served_iff p hc hfan (c.aff.getLocalCUIndex call.ptr call.affDraw + c.base)).2
      ⟨_, c.aff.local_mem_domain _ _, rfl⟩
    simp only [reduceCtorEq, false_implies, implies_true, iff_true]
    convert hserved using 1
    rw [Nat.mul_comm]
    omega
  | some r =>
    have hserved := served_iff p hc hfan (c.aff.domainAt r + c.base + c.base)
    have htarget : c.aff.domainAt r + c.base + (topo.countCus * k + c.base) =
        k * topo.countCus + (c.aff.domainAt r + c.base + c.base) := by
      rw [Nat.mul_comm]
      omega
    simp only [htarget, hserved, Option.some.injEq, forall_eq']
    by_cases hd : c.target_device = .GPU
    · have hb := Consumer.base_of_gpu hd
      rw [← hb]
      refine ⟨?_, fun h => ⟨_, h hd, by omega⟩⟩
      intro h _
      rcases h with ⟨x, hx, heq⟩
      have hx' : c.base + c.aff.domainAt r = x := by omega
      rwa [hx']
    · have hb := Consumer.base_of_not_gpu hd
      exact ⟨fun _ h => absurd h hd, fun _ => ⟨_, c.aff.domainAt_mem r, by omega⟩⟩

end

/-- One GPU behind one CPU node, and a consumer on the GPU. -/
def gpuConsumer : Consumer Unit ⟨1, 1⟩ where
  target_device := .GPU
  aff := Affinitizer.allCUs (fun _ _ => ⟨0, by decide⟩) (by decide)
  fanout := 1

/-- An attempt to route to the only consumer. -/
def attempt (retrycnt : ℕ) : Call Unit ℚ [gpuConsumer].length where
  ptr := ()
  retrycnt := retrycnt
  rand_int := 0
  rand_int2 := 0
  affDraw := 0
  state := RoutingState.initial _ 0 10 (by decide)

theorem evaluate_served_first_attempt :
    ∃ rt, SplitPolicy.randomSplitPreferDataLocal.evaluate [gpuConsumer] (attempt 0) = some rt ∧
      Served .randomSplitPreferDataLocal [gpuConsumer] 0 rt.target := by
  refine (evaluate_served_iff .randomSplitPreferDataLocal (attempt 0) ?_).2 ?_
  · intro c hc
    rw [mem_singleton.1 hc]
    decide
  · intro r hr
    cases hr

/-- The first retry goes to queue 2, of the queues 0 and 1. -/
theorem evaluate_retry_not_served : (∀ c ∈ [gpuConsumer], c.aff.countAffCUs ≤ c.fanout) ∧
      ¬ ∃ rt, SplitPolicy.randomSplitPreferDataLocal.evaluate [gpuConsumer] (attempt 1) = some rt ∧
        Served .randomSplitPreferDataLocal [gpuConsumer] 0 rt.target := by
  refine ⟨?_, ?_⟩
  · intro c hc
    rw [mem_singleton.1 hc]
    decide
  · intro h
    rcases h with ⟨rt, hrt, hserved⟩
    have heval : SplitPolicy.randomSplitPreferDataLocal.evaluate [gpuConsumer] (attempt 1) =
        some ⟨2, 1, true⟩ := rfl
    rw [heval] at hrt
    cases hrt
    exact absurd hserved.lt_getNumberOfQueues (by decide)

end Proteus.Routing
