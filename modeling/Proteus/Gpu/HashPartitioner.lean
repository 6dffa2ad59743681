import Mathlib.Algebra.BigOperators.Ring.Finset
import Proteus.Gpu.ChainKernels

/-!
# The two passes of the GPU partitioner

`HashPartitioner::close` partitions what its pipeline has collected in two passes, one after the other:
`init_first`, `init_metadata`, `compute_bucket_info` and `build_partitions` over the input, then
`init_metadata`, `compute_bucket_info` and `build_partitions` over the partitions of the first pass, and
in the end `decompose_chains`. All arrays have their sizes from `buckets_num_max`, the buckets that
`maxInputSize` tuples fill if they are spread evenly over the partitions (`Close.bucketsNumMax`).
`Close.step` is the whole call, with the kernels' threads in any interleaving.

What a pass needs is a matter of the keys: each of its partitions has its first bucket, and as many as
its tuples fill. The first pass never needs more than the second one (`needed_first_le`), which needs
`Close.needed` buckets. With as many (`Roomy`) every run can be brought to the end of the second pass
(`Roomy.ends`), whose chains then have the tuples of their partitions (`close_partitions`).
-/

namespace Proteus

open BucketChain Finset InitFirst List Nat

variable {K : Launch} {a : Act}

/-! ## The call -/

namespace HashPartitioner

open BuildPartitions (Tuple Launch PartitionMetadata hashd initMetadata launch)

/-- The arguments of a call of `close`: how the partitioner was made, how many tuples have come, and
what is in the arrays. There are two sets of arrays, the ones of the join, in which the input comes and
to which the second pass writes, and the ones of the first pass. -/
structure Close where
  maxInputSize : ℕ
  maxInputSize_lt : maxInputSize < 2 ^ 64
  logParts : ℕ
  cnt : ℕ
  cnt_le : cnt ≤ maxInputSize
  /-- `keys_init` and `payload_init` -/
  input : ℕ → Tuple
  /-- `heads_init`, `chains_init`, `out_cnts_init`, `buckets_used_init` -/
  init : PartitionMetadata
  bucketInfo : ℕ → ℕ
  /-- `heads1`, `chains1`, `out_cnts1`, `buckets_used1` -/
  fresh : PartitionMetadata
  /-- `keys1` and `payload1` -/
  out : ℕ → Tuple

/-- What `close` has running. -/
inductive Phase
  /-- `init_first` and `init_metadata` are next. -/
  | start
  /-- `compute_bucket_info` over the chain of the input -/
  | inputInfo (w : ComputeBucketInfo.State)
  | first (K : Launch) (s : BuildPartitions.State)
  /-- `compute_bucket_info` over the chains of the first pass -/
  | firstInfo (K : Launch) (s : BuildPartitions.State) (w : ComputeBucketInfo.State)
  | second (K : Launch) (s : BuildPartitions.State)
  /-- `decompose_chains` over the chains of the second pass -/
  | decompose (outCnts : ℕ → ℕ) (w : DecomposeChains.State)

/-- The host goes on to the next kernel, or a thread of the running one goes on. -/
inductive Act
  | next
  | thread (p : ℕ)
  | build (a : BuildPartitions.Act)

namespace Close

variable (C : Close)

def logParts2 : ℕ := C.logParts / 2

def logParts1 : ℕ := C.logParts - C.logParts2

def parts2 : ℕ := 2 ^ (C.logParts1 + C.logParts2)

def bucketsNumMax : ℕ :=
  ((C.maxInputSize + C.parts2 - 1) % 2 ^ 64 / C.parts2 + 4096 - 1) / 4096 * C.parts2

/-- What `init_first` leaves in `payload_init` and `chains_init`. -/
def firstInput : ℕ → Tuple := InitFirst.payload C.cnt C.input

def firstChains : ℕ → ℕ := BuildPartitions.writeAll (InitFirst.links C.cnt) C.init.chains

def launch1 (info : ℕ → ℕ) : Launch where
  input := C.firstInput
  bucketInfo := info
  bucketsNum := (C.cnt + 4095) / 4096
  sLogParts := 0
  logParts := C.logParts1
  firstBit := C.logParts2 + 4
  gridDim := 64

def launch2 (s : BuildPartitions.State) (info : ℕ → ℕ) : Launch where
  input := s.out
  bucketInfo := info
  bucketsNum := s.bucketsUsed
  sLogParts := C.logParts1
  logParts := C.logParts2
  firstBit := 4
  gridDim := 64

/-- What `init_metadata` leaves for the first pass; the number of buckets is passed as `uint32_t`. -/
def metadata1 : PartitionMetadata := initMetadata C.fresh (2 ^ C.logParts1) (C.bucketsNumMax % 2 ^ 32)

def metadata2 (info : ℕ → ℕ) : PartitionMetadata :=
  initMetadata { C.init with chains := info, bucketsUsed := (C.cnt + 4095) / 4096 } C.parts2
    (C.bucketsNumMax % 2 ^ 32)

def step : Phase → Act → Option Phase
  | .start, .next => some (.inputInfo (ComputeBucketInfo.start C.firstChains fun _ => C.cnt))
  | .inputInfo w, .thread p => (ComputeBucketInfo.step 1 w p).map .inputInfo
  | .inputInfo w, .next =>
    if ComputeBucketInfo.Final 1 w then
      some (.first (C.launch1 w.chains) (launch C.metadata1 C.out))
    else none
  | .first K s, .build a => (BuildPartitions.step K s a).map (.first K)
  | .first K s, .next =>
    if BuildPartitions.Final K s then
      some (.firstInfo K s (ComputeBucketInfo.start s.chains s.outCnts))
    else none
  | .firstInfo K s w, .thread p => (ComputeBucketInfo.step (2 ^ C.logParts1) w p).map (.firstInfo K s)
  | .firstInfo K s w, .next =>
    if ComputeBucketInfo.Final (2 ^ C.logParts1) w then
      some (.second (C.launch2 s w.chains) (launch (C.metadata2 K.bucketInfo) K.input))
    else none
  | .second K s, .build a => (BuildPartitions.step K s a).map (.second K)
  | .second K s, .next =>
    if BuildPartitions.Final K s then
      some (.decompose s.outCnts (DecomposeChains.start C.bucketInfo s.chains s.outCnts))
    else none
  | .decompose outCnts w, .thread p =>
    (DecomposeChains.step C.parts2 (2 * 4096) outCnts w p).map (.decompose outCnts)
  | _, _ => none

/-- The partition of a key after both passes. -/
def partition (key : BitVec 32) : ℕ :=
  ((hashd key).sshiftRight 4 &&& BitVec.ofNat 32 (C.parts2 - 1)).toNat

/-- How many keys a partition gets. -/
def count (p : ℕ) : ℕ :=
  ((List.range C.cnt).map fun i => (C.input i).key).countP fun key => C.partition key = p

/-- The buckets that the partitions need. -/
def needed : ℕ := ∑ p ∈ range C.parts2, max 1 ((C.count p + 4095) / 4096)

/-- The tuples of the input. -/
def tuples : List Tuple := (List.range C.cnt).map C.firstInput

end Close

/-! ## What the passes need -/

variable {C : Close} {n : ℕ}

section

variable {info : ℕ → ℕ} {s : BuildPartitions.State} {key : BitVec 32} {q : ℕ}

/-- Some bits of a word. -/
theorem toNat_sshiftRight_and (x : BitVec 32) {f l : ℕ} (h : f + l ≤ 32) :
    (x.sshiftRight f &&& BitVec.ofNat 32 (2 ^ l - 1)).toNat = x.toNat / 2 ^ f % 2 ^ l := by
  have hpow : 2 ^ l ≤ 2 ^ 32 := Nat.pow_le_pow_right (by omega) (by omega)
  rw [BitVec.toNat_and, BitVec.toNat_ofNat, Nat.mod_eq_of_lt (by omega),
    Nat.and_two_pow_sub_one_eq_mod]
  apply eq_of_testBit_eq
  intro i
  rw [testBit_mod_two_pow, testBit_mod_two_pow, testBit_div_two_pow]
  by_cases hi : i < l
  · rw [BitVec.testBit_toNat, BitVec.getLsbD_sshiftRight, if_pos (by omega),
      decide_eq_false (by omega : ¬32 ≤ i), add_comm]
    rfl
  · rw [decide_eq_false hi, Bool.false_and, Bool.false_and]

theorem allParts_launch1 : (C.launch1 info).allParts = 2 ^ C.logParts1 :=
  congrArg (2 ^ ·) (zero_add _)

/-- Counting by numbers that are different. -/
theorem sum_countP {α : Type*} (xs : List α) (f : α → ℕ) {g : ℕ → ℕ} (hg : Function.Injective g) (n : ℕ) :
    ∑ j ∈ range n, xs.countP (fun x => f x = g j) = xs.countP fun x => ∃ j < n, f x = g j := by
  induction xs with
  | nil => simp
  | cons x xs ih =>
    simp only [countP_cons, sum_add_distrib, ih, decide_eq_true_eq]
    congr 1
    by_cases h : ∃ j < n, f x = g j
    · obtain ⟨j, hj, hx⟩ := h
      rw [hx]
      simp [hg.eq_iff, hj]
    · rw [if_neg h]
      exact sum_eq_zero fun j hj => if_neg fun hx => h ⟨j, Finset.mem_range.1 hj, hx⟩

theorem countP_tuples (p : BitVec 32 → Prop) [DecidablePred p] : C.tuples.countP (fun t => p t.key) =
      ((List.range C.cnt).map fun i => (C.input i).key).countP fun key => p key := by
  rw [Close.tuples, countP_map, countP_map]
  refine countP_congr fun i hi => ?_
  have hi : i < C.cnt := List.mem_range.1 hi
  simp [Close.firstInput, payload, hi]

/-- Several streams need no less buckets than one stream of all their tuples. -/
theorem max_ceil_sum_le (x : ℕ → ℕ) (hn : 0 < n) :
    max 1 ((∑ j ∈ range n, x j + 4095) / 4096) ≤
      ∑ j ∈ range n, max 1 ((x j + 4095) / 4096) := by
  induction n, hn using le_induction with
  | base => simp
  | succ n hn ih =>
    rw [Finset.sum_range_succ, Finset.sum_range_succ]
    omega

theorem sum_range_mul (x : ℕ → ℕ) (m n : ℕ) :
    ∑ p ∈ range (m * n), x p = ∑ i ∈ range m, ∑ j ∈ range n, x (i * n + j) := by
  induction m with
  | zero => simp
  | succ m ih => rw [succ_mul, sum_range_add, ih, Finset.sum_range_succ]

theorem parts2_le_needed : C.parts2 ≤ C.needed :=
  calc C.parts2 = ∑ _p ∈ range C.parts2, 1 := by simp
    _ ≤ C.needed := Finset.sum_le_sum fun p _ => le_max_left _ _

variable (hbits : C.logParts1 + C.logParts2 + 4 ≤ 32)
include hbits

theorem partition_eq :
    C.partition key = (hashd key).toNat / 2 ^ 4 % 2 ^ (C.logParts1 + C.logParts2) :=
  toNat_sshiftRight_and _ (by omega)

/-- The first pass looks at the high bits of the partition, the second one at the low ones. -/
theorem partition_launch1 : (C.launch1 info).partition key = C.partition key / 2 ^ C.logParts2 := by
  have hfirst := toNat_sshiftRight_and (hashd key) (f := C.logParts2 + 4) (l := C.logParts1) (by omega)
  rw [partition_eq hbits, Nat.pow_add 2 C.logParts1, Nat.mul_comm, Nat.mod_mul_right_div_self,
    Nat.div_div_eq_div_mul, ← Nat.pow_add, Nat.add_comm 4]
  exact hfirst

theorem partition_launch2 : (C.launch2 s info).partition key = C.partition key % 2 ^ C.logParts2 := by
  have hsecond := toNat_sshiftRight_and (hashd key) (f := 4) (l := C.logParts2) (by omega)
  rwa [partition_eq hbits, mod_mod_of_dvd _ (pow_dvd_pow 2 (le_add_left _ _))]

theorem cnt_le_needed : C.cnt ≤ 4096 * C.needed := by
  have hall : ∑ p ∈ range C.parts2, C.count p = C.cnt := by
    refine (sum_countP _ C.partition (g := fun j => j) (fun _ _ h => h) _).trans ?_
    rw [countP_eq_length.2 fun key _ => ?_, length_map, length_range]
    have hlt : C.partition key < C.parts2 := by
      rw [partition_eq hbits]
      exact Nat.mod_lt _ (Nat.two_pow_pos _)
    exact decide_eq_true ⟨_, hlt, rfl⟩
  rw [← hall, Close.needed, mul_sum]
  exact Finset.sum_le_sum fun p _ => by omega

variable (h : Reads (C.launch1 info) fun _ => C.tuples) {info' : ℕ → ℕ}
include h

theorem first_perm (hq : q < 2 ^ C.logParts1) : ((C.launch1 info).partitionTuples q).Perm
      (C.tuples.filter fun t => C.partition t.key / 2 ^ C.logParts2 = q) := by
  refine (h.perm q (by rwa [allParts_launch1])).trans (List.Perm.of_eq (filter_congr fun t _ => ?_))
  rw [partition_launch1 hbits, show q % (C.launch1 info).parts = q from mod_eq_of_lt hq]

/-- The first pass does not need more buckets than the second one. -/
theorem needed_first_le : (C.launch1 info).needed ≤ C.needed := by
  have hpos := Nat.two_pow_pos C.logParts2
  rw [Launch.needed, allParts_launch1, Close.needed, Close.parts2, Nat.pow_add, sum_range_mul]
  refine Finset.sum_le_sum fun q hq => ?_
  have hlen : ((C.launch1 info).partitionTuples q).length =
      ∑ j ∈ Finset.range (2 ^ C.logParts2), C.count (q * 2 ^ C.logParts2 + j) := by
    rw [(first_perm hbits h (Finset.mem_range.1 hq)).length_eq, ← countP_eq_length_filter,
      countP_tuples fun key => C.partition key / 2 ^ C.logParts2 = q]
    refine Eq.trans (countP_congr fun key _ => ?_) (sum_countP _ C.partition
      (fun i j hij => add_left_cancel hij) _).symm
    rw [decide_eq_true_iff, decide_eq_true_iff]
    constructor
    · rintro rfl
      exact ⟨_, mod_lt _ hpos, by rw [mul_comm]; exact (div_add_mod _ _).symm⟩
    · rintro ⟨j, hj, hkey⟩
      rw [hkey, add_comm, add_mul_div_right _ _ hpos, div_eq_of_lt hj, zero_add]
  rw [hlen]
  exact max_ceil_sum_le _ hpos

variable (h' : Reads (C.launch2 s info') (C.launch1 info).partitionTuples)
include h'

theorem second_perm (hq : q < C.parts2) : ((C.launch2 s info').partitionTuples q).Perm
    (C.tuples.filter fun t => C.partition t.key = q) := by
  have hpos := Nat.two_pow_pos C.logParts2
  have hdiv : q / 2 ^ C.logParts2 < 2 ^ C.logParts1 := by
    rwa [Nat.div_lt_iff_lt_mul hpos, ← Nat.pow_add]
  refine ((h'.perm q hq).trans ((first_perm hbits h hdiv).filter _)).trans (.of_eq ?_)
  rw [List.filter_filter]
  refine filter_congr fun t _ => ?_
  rw [partition_launch2 hbits, ← Bool.decide_and, decide_eq_decide]
  constructor
  · rintro ⟨hmod, hdiv⟩
    rw [← div_add_mod (C.partition t.key) (2 ^ C.logParts2), hmod, hdiv]
    exact div_add_mod q _
  · rintro rfl
    exact ⟨rfl, rfl⟩

theorem length_second (hq : q < C.parts2) :
    ((C.launch2 s info').partitionTuples q).length = C.count q := by
  rw [(second_perm hbits h h' hq).length_eq, ← countP_eq_length_filter, Close.count, ← countP_tuples]

theorem needed_second : (C.launch2 s info').needed = C.needed :=
  Finset.sum_congr rfl fun q hq => by rw [length_second hbits h h' (Finset.mem_range.1 hq)]

end

/-! ## Runs of the call -/

/-- A run of the call is made of runs of its kernels. -/
inductive Runs (C : Close) : Phase → Prop
  | start : Runs C .start
  | inputInfo {w : ComputeBucketInfo.State} (h : Reach (ComputeBucketInfo.step 1) Free
      (ComputeBucketInfo.start C.firstChains fun _ => C.cnt) w) : Runs C (.inputInfo w)
  | first {w : ComputeBucketInfo.State} {s : BuildPartitions.State} (hw : Runs C (.inputInfo w))
      (hfin : ComputeBucketInfo.Final 1 w)
      (h : Reach (BuildPartitions.step (C.launch1 w.chains)) Free (launch C.metadata1 C.out) s) :
      Runs C (.first (C.launch1 w.chains) s)
  | firstInfo {K : Launch} {s : BuildPartitions.State} {w : ComputeBucketInfo.State}
      (hs : Runs C (.first K s)) (hfin : BuildPartitions.Final K s)
      (h : Reach (ComputeBucketInfo.step (2 ^ C.logParts1)) Free
        (ComputeBucketInfo.start s.chains s.outCnts) w) : Runs C (.firstInfo K s w)
  | second {K : Launch} {s s' : BuildPartitions.State} {w : ComputeBucketInfo.State}
      (hw : Runs C (.firstInfo K s w)) (hfin : ComputeBucketInfo.Final (2 ^ C.logParts1) w)
      (h : Reach (BuildPartitions.step (C.launch2 s w.chains)) Free
        (launch (C.metadata2 K.bucketInfo) K.input) s') : Runs C (.second (C.launch2 s w.chains) s')
  | decompose {K : Launch} {s : BuildPartitions.State} {w : DecomposeChains.State}
      (hs : Runs C (.second K s)) (hfin : BuildPartitions.Final K s)
      (h : Reach (DecomposeChains.step C.parts2 (2 * 4096) s.outCnts) Free
        (DecomposeChains.start C.bucketInfo s.chains s.outCnts) w) : Runs C (.decompose s.outCnts w)

section

variable {s s' : Phase}

theorem Runs.step (h : Runs C s) (hs : C.step s a = some s') : Runs C s' := by
  cases a with
  | next =>
    have hr := h
    cases h with
    | start =>
      cases hs
      exact .inputInfo .init
    | inputInfo | first | firstInfo | second =>
      obtain ⟨hend, ⟨⟩⟩ := Option.ite_none_right_eq_some.1 hs
      constructor
      · exact hr
      · exact hend
      · exact .init
    | decompose => cases hs
  | thread p =>
    cases h <;> try cases hs
    all_goals obtain ⟨w, hw, rfl⟩ := Option.map_eq_some_iff.1 hs
    case inputInfo h => exact .inputInfo (h.next p trivial hw)
    case firstInfo hr hfin h => exact .firstInfo hr hfin (h.next p trivial hw)
    case decompose hr hfin h => exact .decompose hr hfin (h.next p trivial hw)
  | build b =>
    cases h <;> try cases hs
    all_goals obtain ⟨t, ht, rfl⟩ := Option.map_eq_some_iff.1 hs
    case first hw hfin h => exact .first hw hfin (h.next b trivial ht)
    case second hw hfin h => exact .second hw hfin (h.next b trivial ht)

theorem Runs.reach (hs : Runs C s) (h : Reach C.step Free s s') : Runs C s' :=
  h.invariant hs fun _ _ _ hs _ hstep => hs.step hstep

/-! ## With enough buckets -/

/-- There is a tuple, there are as many buckets as the partitions need, and their numbers are small. -/
structure Roomy (C : Close) : Prop where
  pos : 0 < C.cnt
  room : C.needed ≤ C.bucketsNumMax
  needed_le : C.needed ≤ 2 ^ 18
  max_lt : C.bucketsNumMax < 2 ^ 31

variable {w : ComputeBucketInfo.State} {t : BuildPartitions.State}

/-- A run of the first pass. -/
structure FirstPass (C : Close) (K : Launch) (t : BuildPartitions.State) : Prop where
  launch : ∃ info, K = C.launch1 info
  reads : Reads K fun _ => C.tuples
  needed_le : K.needed ≤ C.needed
  inv : BuildPartitions.Inv K reads.wf C.metadata1.chains t

/-- A run of the second pass. -/
structure SecondPass (C : Close) (K : Launch) (t : BuildPartitions.State) : Prop where
  parts : K.allParts = C.parts2
  needed : K.needed = C.needed
  perm : ∀ q < C.parts2, (K.partitionTuples q).Perm (C.tuples.filter fun t => C.partition t.key = q)
  inv : ∃ hK chains₀, BuildPartitions.Inv K hK chains₀ t

/-- The run can be brought to the end of the second pass. -/
def Ends (C : Close) (s : Phase) : Prop :=
  ∃ K t, Reach C.step Free s (.second K t) ∧ BuildPartitions.Final K t

theorem Ends.of_reach (hs : Ends C s') (h : Reach C.step Free s s') : Ends C s := by
  obtain ⟨K, t, ht, hfin⟩ := hs
  exact ⟨K, t, h.trans ht, hfin⟩

namespace Roomy

variable (hC : Roomy C)
include hC

theorem logParts_le : C.logParts1 + C.logParts2 ≤ 18 :=
  (Nat.pow_le_pow_iff_right (by omega)).1 (parts2_le_needed.trans hC.needed_le)

theorem bits : C.logParts1 + C.logParts2 + 4 ≤ 32 := by
  have := hC.logParts_le
  omega

theorem parts1_le : 2 ^ C.logParts1 ≤ 2 ^ 17 := by
  have hle := hC.logParts_le
  have hlog1 : C.logParts1 = C.logParts - C.logParts2 := rfl
  have hlog2 : C.logParts2 = C.logParts / 2 := rfl
  exact Nat.pow_le_pow_right (by omega) (by omega)

theorem firstPass (h : Runs C (.first K t)) : FirstPass C K t := by
  cases h with
  | @first w _ hw hfin h =>
    cases hw with
    | inputInfo hw =>
      have hcnt := cnt_le_needed hC.bits
      have hneeded := hC.needed_le
      have hreads : Reads (C.launch1 w.chains) fun _ => C.tuples :=
        (stored hC.pos (by omega) C.init.chains C.firstInput).reads hw hfin
          (succ_pos 63) rfl (by decide) rfl rfl rfl
      have hle := needed_first_le hC.bits hreads
      have hparts : (C.launch1 w.chains).allParts = 2 ^ C.logParts1 := allParts_launch1
      rw [Close.metadata1, ← hparts] at h
      exact ⟨⟨_, rfl⟩, hreads, hle, BuildPartitions.inv_of_reach hreads.wf (hle.trans hneeded) h⟩

theorem secondPass (h : Runs C (.second K t)) : SecondPass C K t := by
  cases h with
  | second hw hfin h =>
    cases hw with
    | firstInfo hr hend hw =>
      have hpass := hC.firstPass hr
      obtain ⟨info, rfl⟩ := hpass.launch
      have hused := (hpass.inv.used_le.trans hpass.needed_le).trans hC.room
      have hmax := hC.max_lt
      obtain ⟨chain, hst⟩ := hpass.inv.stored hend fun c hc => if_pos (by omega)
      rw [allParts_launch1] at hst
      have hreads : Reads (C.launch2 _ _) (C.launch1 info).partitionTuples :=
        hst.reads hw hfin (succ_pos 63) rfl hC.parts1_le rfl rfl rfl
      have hneeded := needed_second hC.bits hpass.reads hreads
      exact ⟨rfl, hneeded, fun q hq => second_perm hC.bits hpass.reads hreads hq, hreads.wf, _,
        BuildPartitions.inv_of_reach hreads.wf (hneeded ▸ hC.needed_le) h⟩

theorem ends_second (h : Runs C (.second K t)) : Ends C (.second K t) := by
  have hpass := hC.secondPass h
  obtain ⟨hK, chains₀, inv⟩ := hpass.inv
  obtain ⟨t', ht', hfin⟩ := inv.exists_final (hpass.needed ▸ hC.needed_le)
  exact ⟨K, t', ht'.map (Phase.second K) Act.build fun _ _ _ h => by rw [Close.step, h]; rfl, hfin⟩

theorem ends_firstInfo (h : Runs C (.firstInfo K t w)) : Ends C (.firstInfo K t w) := by
  obtain ⟨w', hw', hfin⟩ := ComputeBucketInfo.exists_final (2 ^ C.logParts1) w
  have hreach : Reach C.step Free (.firstInfo K t w) (.firstInfo K t w') :=
    hw'.map (Phase.firstInfo K t) Act.thread fun _ _ _ h => by rw [Close.step, h]; rfl
  have hnext := hreach.next Act.next trivial (if_pos hfin)
  exact (hC.ends_second (h.reach hnext)).of_reach hnext

theorem ends_first (h : Runs C (.first K t)) : Ends C (.first K t) := by
  have hpass := hC.firstPass h
  obtain ⟨t', ht', hfin⟩ := hpass.inv.exists_final (hpass.needed_le.trans hC.needed_le)
  have hreach : Reach C.step Free (.first K t) (.first K t') :=
    ht'.map (Phase.first K) Act.build fun _ _ _ h => by rw [Close.step, h]; rfl
  have hnext := hreach.next Act.next trivial (if_pos hfin)
  exact (hC.ends_firstInfo (h.reach hnext)).of_reach hnext

theorem ends_inputInfo (h : Runs C (.inputInfo w)) : Ends C (.inputInfo w) := by
  obtain ⟨w', hw', hfin⟩ := ComputeBucketInfo.exists_final 1 w
  have hreach : Reach C.step Free (.inputInfo w) (.inputInfo w') :=
    hw'.map Phase.inputInfo Act.thread fun _ _ _ h => by rw [Close.step, h]; rfl
  have hnext := hreach.next Act.next trivial (if_pos hfin)
  exact (hC.ends_first (h.reach hnext)).of_reach hnext

/-- From every state of a run, unless the second pass is over. -/
theorem ends (h : Runs C s) : (∃ outCnts w, s = .decompose outCnts w) ∨ Ends C s := by
  cases s with
  | start =>
    have hnext : Reach C.step Free .start _ := .next Act.next .init trivial rfl
    exact .inr ((hC.ends_inputInfo (h.reach hnext)).of_reach hnext)
  | inputInfo => exact .inr (hC.ends_inputInfo h)
  | first => exact .inr (hC.ends_first h)
  | firstInfo => exact .inr (hC.ends_firstInfo h)
  | second => exact .inr (hC.ends_second h)
  | decompose outCnts w => exact .inl ⟨outCnts, w, rfl⟩

end Roomy

end

/-- **The two passes partition the tuples**: with as many buckets as the partitions need every run can be
brought to the end of the second pass, and whatever the blocks do, the chain of a partition then holds
its tuples and no others. -/
theorem close_partitions (hC : Roomy C) :
    (∀ s, Reach C.step Free .start s → (∃ outCnts w, s = .decompose outCnts w) ∨
      ∃ K t, Reach C.step Free s (.second K t) ∧ BuildPartitions.Final K t) ∧
    ∀ K t, Reach C.step Free .start (.second K t) → BuildPartitions.Final K t → ∀ q < C.parts2,
      (BuildPartitions.printpart t.chains t.out (t.outCnts q) q).Perm
        (C.tuples.filter fun x => C.partition x.key = q) := by
  refine ⟨fun s h => hC.ends (Runs.start.reach h), fun K t h hfin q hq => ?_⟩
  have hpass := hC.secondPass (Runs.start.reach h)
  obtain ⟨hK, chains₀, inv⟩ := hpass.inv
  exact (inv.printpart_perm hfin (hpass.parts ▸ hq)).trans (hpass.perm q hq)

/-- A call with `cnt` tuples of one key, and two partitions. -/
def sameKey (maxInputSize cnt : ℕ) (hmax : maxInputSize < 2 ^ 64) (hcnt : cnt ≤ maxInputSize) : Close where
  maxInputSize := maxInputSize
  maxInputSize_lt := hmax
  logParts := 1
  cnt := cnt
  cnt_le := hcnt
  input := fun _ => ⟨0, 0⟩
  init := ⟨fun _ => 0, fun _ => 0, fun _ => 0, 0⟩
  bucketInfo := fun _ => 0
  fresh := ⟨fun _ => 0, fun _ => 0, fun _ => 0, 0⟩
  out := fun _ => ⟨0, 0⟩

theorem parts2_sameKey {m cnt : ℕ} {hmax : m < 2 ^ 64} {hcnt : cnt ≤ m} :
    (sameKey m cnt hmax hcnt).parts2 = 2 := by
  simp [Close.parts2, Close.logParts1, Close.logParts2, sameKey]

theorem count_sameKey {m cnt : ℕ} {hmax : m < 2 ^ 64} {hcnt : cnt ≤ m} (p : ℕ) :
    (sameKey m cnt hmax hcnt).count p = if p = 0 then cnt else 0 := by
  have hkey : (sameKey m cnt hmax hcnt).partition 0 = 0 := by
    rw [Close.partition, parts2_sameKey]
    decide
  have hall : (List.range (sameKey m cnt hmax hcnt).cnt).map
      (fun i => ((sameKey m cnt hmax hcnt).input i).key) = replicate cnt 0 := by
    rw [show (fun i => ((sameKey m cnt hmax hcnt).input i).key) = fun _ => 0 from rfl, map_const',
      length_range]
    rfl
  rw [Close.count, hall, countP_replicate, hkey]
  simp [eq_comm]

theorem roomy_sameKey : Roomy (sameKey 16384 4097 (by decide) (by decide)) := by
  have hneeded : (sameKey 16384 4097 (by decide) (by decide)).needed = 3 := by
    rw [Close.needed, parts2_sameKey, Finset.sum_range_succ, sum_range_one, count_sameKey,
      count_sameKey]
    rfl
  exact ⟨by decide, by rw [hneeded]; decide, by rw [hneeded]; decide, by decide⟩

/-- A tuple more than a bucket holds, all of one key: the chain of its partition has two buckets. -/
theorem close_partitions_sameKey : ∃ K t,
    Reach (sameKey 16384 4097 (by decide) (by decide)).step Free .start (.second K t) ∧
    BuildPartitions.Final K t ∧
    (BuildPartitions.printpart t.chains t.out (t.outCnts 0) 0).length = 4097 := by
  obtain ⟨hends, hperm⟩ := close_partitions roomy_sameKey
  obtain ⟨_, _, ⟨⟩⟩ | ⟨K, t, ht, hfin⟩ := hends .start .init
  refine ⟨K, t, ht, hfin, (hperm K t ht hfin 0 (Nat.two_pow_pos _)).length_eq.trans ?_⟩
  rw [← countP_eq_length_filter, countP_tuples fun key => Close.partition _ key = 0]
  exact count_sameKey 0

end HashPartitioner

end Proteus
