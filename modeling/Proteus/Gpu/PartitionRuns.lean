import Proteus.Gpu.BuildPartitions

/-!
# Runs of the partitioning kernel

The invariant of `BuildPartitions` holds from the launch on (`inv_launch`, `step_inv`), in every run
that does not hand out bucket numbers from `2 ^ 18` on; it hands out no more buckets than the
partitions need (`step_used`).

* `Inv.exists_step`: as long as a block is not through, there is a move after which less is left to
  do. So every run can be brought to its end (`Inv.exists_final`).
* `Inv.printpart_perm`: in the end the tuples along the chain of a partition are those of the input.
* `build_partitions_correct` is the specification of the kernel.
-/

namespace Proteus.BuildPartitions

open BucketChain Function Launch List Nat
open BucketHeads (Grant Job Demand)

/-! ## Runs -/

variable {K : Launch} {hK : K.WellFormed} {chains₀ : ℕ → ℕ}

section

variable {s s' : State} {b : ℕ} {k : ℕ × ℕ} {a : Act}

theorem inv_launch (m : PartitionMetadata) (out : ℕ → Tuple) (bucketsNum : ℕ)
    (hparts : K.allParts ≤ 2 ^ 18) : Inv K hK (initMetadata m K.allParts bucketsNum).chains
      (launch (initMetadata m K.allParts bucketsNum) out) := by
  have hfresh : BucketHeads.Fresh (demand hK)
      (launch (initMetadata m K.allParts bucketsNum) out).toState :=
    ⟨fun p hp => if_pos hp, rfl, fun _ => rfl⟩
  refine ⟨⟨_, hfresh.inv hparts⟩, fun b hb => mod_eq_of_lt hb, ?_, fun _ _ => rfl, ?_, ?_, ?_, ?_, ?_⟩
  · intro k hk
    exact absurd rfl hk
  · exact nofun
  · intro k _ hlt
    exact absurd hlt (not_lt.2 (mod_le _ _))
  · intro p hp
    refine Eq.trans (if_pos hp) (Finset.sum_eq_zero fun k _ => ?_).symm
    rfl
  · intro i
    exact ⟨[], .nil _, .nil, fun j => iff_of_false not_mem_nil nofun⟩
  · intro k _ hlt
    exact absurd hlt (not_lt.2 (mod_le _ _))

theorem step_inv (hsmall : ∀ p, (demand hK).total p ≤ 2 ^ 31) (inv : Inv K hK chains₀ s)
    (h : step K s a = some s') (hroom : s'.bucketsUsed ≤ 2 ^ 18) : Inv K hK chains₀ s' := by
  cases trans_of_step h with
  | count hk hstage => exact inv_count hsmall inv hk hstage
  | move hk hstage ha => exact inv_move hsmall inv hk hstage ha hroom
  | reserve hk hstage hg => exact inv_reserve inv hk hstage hg
  | flush hb hi hdone horder hrouter => exact inv_flush inv hb hi hdone horder hrouter

/-- No more buckets are handed out than the partitions need. -/
theorem step_used (inv : Inv K hK chains₀ s) (h : step K s a = some s') :
    s'.bucketsUsed ≤ (demand hK).needed := by
  obtain ⟨L, hL⟩ := inv.heads
  cases trans_of_step h with
  | move hk hstage ha => exact (BucketHeads.step_used hL hk.mem ha).1
  | count | reserve | flush => exact hL.ledger.used_le_needed

/-- What is left to do for a job. -/
def work : Stage → Job → ℕ
  | .count, _ => 7
  | .reserve, x => 1 + x.rank
  | .done _, _ => 0

/-- What is left to do. -/
def measure (hK : K.WellFormed) (s : State) : ℕ :=
  ∑ k ∈ (Launch.demand hK).jobs, work (s.stage k) (s.job k) +
    ∑ b ∈ Finset.range K.gridDim, (K.bucketsNum - s.block b)

theorem measure_lt {x : Stage} {y : Job} (hmem : k ∈ (demand hK).jobs) (hblock : s'.block = s.block)
    (hstage : s'.stage = update s.stage k x) (hjob : s'.job = update s.job k y)
    (hlt : work x y < work (s.stage k) (s.job k)) : measure hK s' < measure hK s := by
  rw [measure, measure, hblock, hstage, hjob]
  refine Nat.add_lt_add_right (Finset.sum_lt_sum (fun k' _ => ?_) ⟨k, hmem, by simpa using hlt⟩) _
  obtain rfl | hne := eq_or_ne k' k
  · simpa using hlt.le
  · rw [update_of_ne hne, update_of_ne hne]

theorem step_serves (hk : Serves K s b k) : step K s (.job b k.2) = jobStep K s k := by
  have hkey : (s.block b, k.2) = k := Prod.ext hk.block rfl
  rw [step, hkey, if_pos ⟨hk.grid, hk.block ▸ hk.lt, hk.part, hk.pos⟩]

theorem Inv.serves (inv : Inv K hK chains₀ s) (hmem : k ∈ (demand hK).jobs)
    (hstage : s.stage k ≠ .count) (hdone : (s.stage k).isDone = false) :
    Serves K s (k.1 % K.gridDim) k := by
  obtain ⟨⟨hi, hj⟩, hpos⟩ := mem_jobs.1 hmem
  refine ⟨mod_lt _ hK.gridDim, ?_, hi, hj, hpos⟩
  apply le_antisymm
  · by_contra hlt
    rw [inv.past k hmem (Nat.lt_of_not_le hlt)] at hdone
    cases hdone
  · exact (inv.active k hstage).2

/-- As long as not all blocks are through, there is a move after which less is left to do. -/
theorem Inv.exists_step (inv : Inv K hK chains₀ s) (h : ¬Final K s) :
    ∃ a s', step K s a = some s' ∧ measure hK s' < measure hK s := by
  simp only [Final, not_forall, not_le] at h
  obtain ⟨b, hb, hi⟩ := h
  by_cases hall : ∀ j < K.parts, 0 < K.hist (s.block b, j) → (s.stage (s.block b, j)).isDone = true
  · obtain ⟨l, hl⟩ := inv.router (s.block b)
    obtain ⟨router, hrouter, -⟩ := shuffle_spec inv hl hi hall (List.Perm.refl _)
    refine ⟨.flush b (range (K.cnt (s.block b))), { s with
        out := writeAll (writes K s (s.block b) router) s.out
        block := update s.block b (s.block b + K.gridDim) }, ?_, ?_⟩
    · rw [step, if_pos ⟨hb, hi, hall, List.Perm.refl _⟩, hrouter, Option.map_some]
    · have hsum := sum_update_add (Finset.mem_range.2 hb) s.block (s.block b + K.gridDim)
        fun _ n => K.bucketsNum - n
      have hjobs : ∑ k ∈ (demand hK).jobs, work (s.stage k) (s.job k) +
          ∑ c ∈ Finset.range K.gridDim, (K.bucketsNum - update s.block b (s.block b + K.gridDim) c) <
          measure hK s := by
        rw [measure]
        omega
      exact hjobs
  · -- a job of the block is not through; the job that moves may be one of another block
    simp only [not_forall] at hall
    obtain ⟨j, hj, hpos, hnot⟩ := hall
    have hk : Serves K s b (s.block b, j) := ⟨hb, rfl, hi, hj, hpos⟩
    have hstep := step_serves hk
    rw [jobStep] at hstep
    cases hstage : s.stage (s.block b, j) with
    | done start =>
      rw [hstage] at hnot
      exact absurd rfl hnot
    | count =>
      rw [hstage] at hstep
      refine ⟨_, _, hstep, measure_lt hk.mem rfl rfl (update_eq_self ..).symm ?_⟩
      rw [inv.count _ hstage, hstage]
      decide
    | reserve =>
      by_cases hwait : 0 < (s.job (s.block b, j)).rank
      · obtain ⟨L, hL⟩ := inv.heads
        obtain ⟨k, hmem, ⟨hkstage, hserves⟩, t, x, ht, hjob, hrank⟩ := hL.exists_move
          (A := fun k => s.stage k = .reserve ∧ Serves K s (k.1 % K.gridDim) k)
          (by
            intro k hmem hholds
            have hcount : s.stage k ≠ .count := by
              intro hc
              rw [inv.count k hc] at hholds
              cases hholds
            have hdone : (s.stage k).isDone = false := by
              by_contra hd
              obtain ⟨g, hg⟩ := inv.granted k (by simpa using hd)
              rw [hg] at hholds
              cases hholds
            refine ⟨?_, inv.serves hmem hcount hdone⟩
            cases hst : s.stage k with
            | count => exact absurd hst hcount
            | reserve => rfl
            | done start =>
              rw [hst] at hdone
              cases hdone)
          hk.mem ⟨hstage, inv.serves hk.mem (by simp [hstage]) (by rw [hstage]; rfl)⟩ hwait
        refine ⟨.job (k.1 % K.gridDim) k.2, { s with toState := t }, ?_, ?_⟩
        · rw [step_serves hserves, jobStep, hkstage]
          cases hx : s.job k with
          | granted g =>
            rw [hx] at hrank
            exact absurd hrank (not_lt_zero _)
          | add | min _ | alloc _ | link _ | swap _ =>
            exact Option.map_eq_some_iff.2 ⟨t, ht, rfl⟩
        · refine measure_lt hmem rfl (update_eq_self ..).symm hjob ?_
          rw [hkstage]
          exact Nat.add_lt_add_left hrank 1
      · obtain ⟨g, hg⟩ : ∃ g, s.job (s.block b, j) = .granted g := by
          cases hx : s.job (s.block b, j) <;> rw [hx, Job.rank] at hwait
          case granted g => exact ⟨g, rfl⟩
          case min old =>
            split_ifs at hwait <;> omega
          case add | alloc _ | link _ | swap _ =>
            omega
        rw [hstage, hg] at hstep
        refine ⟨_, _, hstep, measure_lt hk.mem rfl rfl (update_eq_self ..).symm ?_⟩
        rw [hstage]
        exact Nat.add_pos_left Nat.one_pos _

end

/-! ## The partitions -/

/-- The tuples of a partition in the input. -/
def Launch.partitionTuples (K : Launch) (p : ℕ) : List Tuple :=
  (List.range K.bucketsNum).flatMap fun i =>
    (K.tuples i).filter fun t => K.index (i, K.partition t.key) = p

variable {s : State} {k : ℕ × ℕ}

section

variable {p : ℕ}

/-- The jobs of a partition, in the order of the input. -/
def Launch.jobsOf (K : Launch) (p : ℕ) : List (ℕ × ℕ) :=
  ((List.range K.bucketsNum).map fun i => (i, p % K.parts)).filter fun k =>
    K.index k = p ∧ 0 < K.hist k

theorem mem_jobsOf : k ∈ K.jobsOf p ↔ k ∈ (demand hK).of p := by
  have hpos : 0 < K.parts := Nat.two_pow_pos _
  rw [jobsOf, mem_filter, mem_map, decide_eq_true_iff, Demand.mem_of, mem_jobs]
  constructor
  · rintro ⟨⟨i, hi, rfl⟩, hindex, hhist⟩
    exact ⟨⟨⟨mem_range.1 hi, mod_lt _ hpos⟩, hhist⟩, hindex⟩
  · rintro ⟨⟨⟨hi, hj⟩, hhist⟩, hindex⟩
    obtain ⟨-, hmod⟩ := (index_eq_iff hj).1 hindex
    exact ⟨⟨k.1, mem_range.2 hi, Prod.ext rfl hmod.symm⟩, hindex, hhist⟩

theorem nodup_jobsOf (K : Launch) (p : ℕ) : (K.jobsOf p).Nodup :=
  (nodup_range.map fun _ _ h => congrArg Prod.fst h).filter _

/-- What a filter leaves out may be what has nothing. -/
theorem flatMap_filter {α β : Type*} {q : α → Bool} {f g : α → List β} {l : List α}
    (htrue : ∀ i ∈ l, q i = true → f i = g i) (hfalse : ∀ i ∈ l, q i = false → g i = []) :
    (l.filter q).flatMap f = l.flatMap g := by
  induction l with
  | nil => rfl
  | cons i l ih =>
    have hrest := ih (fun j hj => htrue j (mem_cons_of_mem _ hj))
      fun j hj => hfalse j (mem_cons_of_mem _ hj)
    rw [flatMap_cons]
    cases hq : q i with
    | true =>
      rw [filter_cons_of_pos hq, flatMap_cons, hrest, htrue i mem_cons_self hq]
    | false =>
      rw [filter_cons_of_neg (by rw [hq]; exact Bool.false_ne_true), hrest,
        hfalse i mem_cons_self hq, nil_append]

/-- A tuple of an input bucket is in the partition if and only if the bucket is one of it and the
tuple's number in the bucket is the one of the partition. -/
theorem Launch.index_partition_iff (K : Launch) (i : ℕ) (key : BitVec 32) :
    K.index (i, K.partition key) = p ↔
      K.index (i, p % K.parts) = p ∧ K.partition key = p % K.parts := by
  have hpos : 0 < K.parts := Nat.two_pow_pos _
  rw [index_eq_iff (partition_lt key), index_eq_iff (Nat.mod_lt _ hpos)]
  exact ⟨fun h => ⟨⟨h.1, rfl⟩, h.2⟩, fun h => ⟨h.1.1, h.2⟩⟩

/-- The jobs of a partition have all of its tuples. -/
theorem flatMap_jobsOf (K : Launch) (p : ℕ) : (K.jobsOf p).flatMap K.tuplesOf = K.partitionTuples p := by
  rw [jobsOf, filter_map, flatMap_map, partitionTuples]
  apply flatMap_filter
  · intro i _ hq
    obtain ⟨hindex, -⟩ := decide_eq_true_iff.1 hq
    apply filter_congr
    intro t _
    rw [decide_eq_decide, K.index_partition_iff]
    exact ⟨fun h => ⟨hindex, h⟩, fun h => h.2⟩
  · intro i _ hq
    have hnot := decide_eq_false_iff_not.1 hq
    rw [filter_eq_nil_iff]
    intro t ht hin
    obtain ⟨hindex, hpart⟩ := (K.index_partition_iff i t.key).1 (of_decide_eq_true hin)
    refine hnot ⟨hindex, countP_pos_iff.2 ⟨t, ht, ?_⟩⟩
    exact decide_eq_true hpart

section

variable (inv : Inv K hK chains₀ s) (hfin : Final K s)
include inv hfin

theorem Inv.all_done (hk : k ∈ (demand hK).jobs) :
    k.1 < s.block (k.1 % K.gridDim) ∧ (s.stage k).isDone = true ∧ ∃ g, s.job k = .granted g := by
  obtain ⟨⟨hi, -⟩, -⟩ := mem_jobs.1 hk
  have hlt : k.1 < s.block (k.1 % K.gridDim) := hi.trans_le (hfin _ (mod_lt _ hK.gridDim))
  have hdone := inv.past k hk hlt
  exact ⟨hlt, hdone, inv.granted k hdone⟩

theorem Inv.outCnts_eq (hp : p < K.allParts) : s.outCnts p = (demand hK).total p := by
  rw [inv.outCnts p hp]
  refine Finset.sum_congr rfl fun k hk => ?_
  have hdone := (inv.all_done hfin (Demand.mem_of.1 hk).1).2.1
  cases hs : s.stage k with
  | done start => rfl
  | count | reserve =>
    rw [hs] at hdone
    cases hdone

/-- In the places of a partition's stream are its tuples. -/
theorem Inv.stream_perm {L : BucketHeads.Ledger (ℕ × ℕ)}
    (hL : BucketHeads.Inv (demand hK) chains₀ s.toState L) (p : ℕ) :
    ((List.range (L.granted p)).map fun v => s.out (addr 4096 (L.chain p) v)).Perm
      (K.partitionTuples p) := by
  have hC := hL.complete fun k hk => (inv.all_done hfin hk).2.2
  rw [range_eq_range', ← Nat.sub_zero (L.granted p), (hL.ledger.tiles p).map_range', flatMap_map]
  -- job by job
  have hjobs : ∀ k ∈ L.log p, ((range' (L.lo k) (K.hist k)).map fun v =>
      s.out (addr 4096 (L.chain p) v)).Perm (K.tuplesOf k) := by
    intro k hk
    obtain ⟨hmem, rfl⟩ := Demand.mem_of.1 ((hC.log p k).1 hk)
    obtain ⟨hlt, -, g, hg⟩ := inv.all_done hfin hmem
    refine (List.Perm.of_eq ?_).trans (inv.contents k hmem hlt g hg)
    rw [range'_eq_map_range, map_map]
    apply map_congr_left
    intro r hr
    exact congrArg s.out (hL.slot_eq_addr hmem hg (mem_range.1 hr)).1.symm
  have hlog : (L.log p).Perm (K.jobsOf p) := by
    rw [perm_ext_iff_of_nodup (hL.ledger.nodup p) (nodup_jobsOf K p)]
    intro k
    rw [hC.log, mem_jobsOf]
  rw [← flatMap_jobsOf]
  exact (List.Perm.flatMap_left _ hjobs).trans (hlog.flatMap_right _)

/-- The tuples along the chain of a partition are those of the input. -/
theorem Inv.printpart_perm (hp : p < K.allParts) :
    (printpart s.chains s.out (s.outCnts p) p).Perm (K.partitionTuples p) := by
  obtain ⟨L, hL⟩ := inv.heads
  have hC := hL.complete fun k hk => (inv.all_done hfin hk).2.2
  refine (List.Perm.of_eq ?_).trans (inv.stream_perm hfin hL p)
  -- along the links the places of the stream are read in order
  have hcnt := inv.outCnts_eq hfin hp
  have hlen := hC.length p hp
  have hlinked := hC.linked p
  rw [hC.granted p, ← hcnt]
  rw [← hcnt] at hlen
  cases hchain : L.chain p with
  | nil =>
    rw [hchain, length_nil] at hlen
    have hzero : s.outCnts p = 0 := by omega
    rw [hzero]
    rfl
  | cons c l =>
    rw [hchain] at hlinked hlen
    rw [length_cons] at hlen
    obtain ⟨rfl, -⟩ := hL.ledger.first p c (by rw [hchain]; rfl)
    exact read_eq (by omega) hlinked (by omega) (by omega)

/-- Behind the last bucket of a chain there is none. -/
theorem Inv.chain_end (hp : p < K.allParts)
    (hzero : ∀ c < (demand hK).needed, chains₀ c = 0) (hpos : 0 < s.outCnts p) :
    s.chains^[(s.outCnts p + 4095) / 4096] p = 0 := by
  obtain ⟨L, hL⟩ := inv.heads
  have hC := hL.complete fun k hk => (inv.all_done hfin hk).2.2
  have hlen := hC.length p hp
  have hlinked := hC.linked p
  rw [← inv.outCnts_eq hfin hp] at hlen
  cases hchain : L.chain p with
  | nil =>
    rw [hchain, length_nil] at hlen
    omega
  | cons c l =>
    obtain ⟨rfl, -⟩ := hL.ledger.first p c (by rw [hchain]; rfl)
    have hne : (L.chain c).length = l.length + 1 := by rw [hchain, length_cons]
    obtain ⟨d, hd⟩ : ∃ d, (L.chain c)[l.length]? = some d :=
      ⟨_, getElem?_eq_getElem (by omega)⟩
    have hused := hL.ledger.lt_used hd
    rw [hC.used] at hused
    have hend := (hC.last c d (by rw [hne]; exact hd)).trans (hzero d hused)
    rw [hchain] at hlinked hd
    rwa [← hlen, hne, Function.iterate_succ_apply', iterate_eq hlinked hd]

end

theorem Launch.length_tuplesOf (K : Launch) (k : ℕ × ℕ) : (K.tuplesOf k).length = K.hist k :=
  countP_eq_length_filter.symm

theorem Launch.total_eq (hK : K.WellFormed) (p : ℕ) :
    (demand hK).total p = (K.partitionTuples p).length := by
  rw [← flatMap_jobsOf, length_flatMap]
  have hof : (demand hK).of p = (K.jobsOf p).toFinset := by
    ext k
    rw [mem_toFinset, mem_jobsOf]
  rw [Demand.total, hof, sum_toFinset _ (nodup_jobsOf K p)]
  refine congrArg sum (map_congr_left fun k _ => ?_)
  exact (K.length_tuplesOf k).symm

end

/-- The buckets that a launch needs: each partition has its first one, and as many as its tuples fill. -/
def Launch.needed (K : Launch) : ℕ :=
  ∑ p ∈ Finset.range K.allParts, max 1 (((K.partitionTuples p).length + 4095) / 4096)

section

variable {m : PartitionMetadata} {out : ℕ → Tuple} {bucketsNum : ℕ}

theorem Launch.needed_eq (hK : K.WellFormed) : (demand hK).needed = K.needed :=
  Finset.sum_congr rfl fun p _ => by rw [total_eq]

theorem Launch.total_small (hK : K.WellFormed) (hneeded : K.needed ≤ 2 ^ 18) (p : ℕ) :
    (demand hK).total p ≤ 2 ^ 31 := by
  have := (demand hK).total_le p
  rw [needed_eq] at this
  omega

/-- With enough buckets the invariant holds in every state that the blocks reach. -/
theorem inv_of_reach (hK : K.WellFormed) (hneeded : K.needed ≤ 2 ^ 18)
    (h : Reach (step K) Free (launch (initMetadata m K.allParts bucketsNum) out) s) :
    Inv K hK (initMetadata m K.allParts bucketsNum).chains s := by
  have hsmall := total_small hK hneeded
  refine h.invariant (I := fun s => Inv K hK _ s) (inv_launch m out bucketsNum ?_) ?_
  · have := Demand.parts_le_needed (D := demand hK)
    rw [needed_eq] at this
    exact this.trans hneeded
  · intro s a s' inv _ hs
    have hused := step_used inv hs
    rw [needed_eq] at hused
    exact step_inv hsmall inv hs (hused.trans hneeded)

theorem Inv.exists_final (hneeded : K.needed ≤ 2 ^ 18) (inv : Inv K hK chains₀ s) :
    ∃ t, Reach (step K) Free s t ∧ Final K t := by
  induction hn : measure hK s using Nat.strong_induction_on generalizing s with
  | _ n ih =>
    by_cases hfin : Final K s
    · exact ⟨s, .init, hfin⟩
    · obtain ⟨a, s', hs', hlt⟩ := inv.exists_step hfin
      have hused := step_used inv hs'
      rw [needed_eq] at hused
      have inv' := step_inv (total_small hK hneeded) inv hs' (hused.trans hneeded)
      obtain ⟨t, ht, hend⟩ := ih _ (hn ▸ hlt) inv' rfl
      exact ⟨t, (Reach.next a .init trivial hs').trans ht, hend⟩

theorem Inv.used_le {chains₀ : ℕ → ℕ} (inv : Inv K hK chains₀ s) : s.bucketsUsed ≤ K.needed := by
  obtain ⟨L, hL⟩ := inv.heads
  rw [← needed_eq hK]
  exact hL.ledger.used_le_needed

/-- The kernel, from what `init_metadata` leaves and with as many buckets as it needs, in any
interleaving of its blocks. No slot is reserved twice. The blocks can always be brought to their end,
and in the end `out_cnts` counts the tuples of each partition, which are those that its chain has: the
buckets that the links lead to, full but for the last one, and behind the last one there is none. -/
theorem build_partitions_correct (K : Launch) (hK : K.WellFormed) (m : PartitionMetadata)
    (out : ℕ → Tuple) (bucketsNum : ℕ) (hroom : K.needed ≤ bucketsNum) (hneeded : K.needed ≤ 2 ^ 18)
    (s : State) (h : Reach (step K) Free (launch (initMetadata m K.allParts bucketsNum) out) s) :
    (∀ k k' g g', s.job k = .granted g → s.job k' = .granted g' → k ≠ k' →
      ∀ r < K.hist k, ∀ r' < K.hist k', g.slot (r + 1) ≠ g'.slot (r' + 1)) ∧
    (∃ t, Reach (step K) Free s t ∧ Final K t) ∧
    (Final K s → ∀ p < K.allParts,
      s.outCnts p = (K.partitionTuples p).length ∧
      (printpart s.chains s.out (s.outCnts p) p).Perm (K.partitionTuples p) ∧
      (0 < s.outCnts p → s.chains^[(s.outCnts p + 4095) / 4096] p = 0)) := by
  have inv := inv_of_reach hK hneeded h
  obtain ⟨L, hL⟩ := inv.heads
  refine ⟨?_, ?_, ?_⟩
  · intro k k' g g' hg hg' hne r hr r' hr' heq
    have hmem : ∀ k g, s.job k = .granted g → k ∈ (demand hK).jobs := by
      intro k g hg
      refine (inv.active k fun hstage => ?_).1
      rw [inv.count k hstage] at hg
      cases hg
    exact hne (hL.slot_inj (hmem k g hg) (hmem k' g' hg') hg hg' hr hr' heq).1
  · exact inv.exists_final hneeded
  · intro hfin p hp
    refine ⟨(inv.outCnts_eq hfin hp).trans (total_eq hK p), inv.printpart_perm hfin hp, ?_⟩
    refine inv.chain_end hfin hp fun c hc => if_pos ?_
    rw [needed_eq] at hc
    omega

/-- Two input buckets of three tuples each, and two blocks that part them in two. -/
def small : Launch where
  input := fun i => ⟨BitVec.ofNat 32 i, BitVec.ofNat 32 (100 + i)⟩
  bucketInfo := fun _ => 3
  bucketsNum := 2
  sLogParts := 0
  logParts := 1
  firstBit := 0
  gridDim := 2

theorem build_partitions_correct_small : small.WellFormed ∧ small.needed = 2 ∧ ∃ t, Reach (step small) Free
      (launch (initMetadata ⟨fun _ => 0, fun _ => 0, fun _ => 0, 0⟩ 2 2) fun _ => ⟨0, 0⟩) t ∧
      Final small t := by
  have hwf : small.WellFormed := ⟨by decide, by decide, by decide⟩
  have hneeded : small.needed = 2 := by decide +kernel
  exact ⟨hwf, hneeded,
    (build_partitions_correct small hwf _ _ 2 hneeded.le (by rw [hneeded]; decide) _ .init).2.1⟩

end

end Proteus.BuildPartitions
