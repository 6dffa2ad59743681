import Proteus.Gpu.PartitionRuns

/-!
# The kernels between the passes

Before a pass of `build_partitions` its input is chained and its buckets are described, and after the
last one the chains are cut to pieces:

* `init_first` chains the buckets that the tuples come in, one behind the other;
* `init_metadata` empties the chains, counts and heads of the partitions (`initMetadata`);
* `compute_bucket_info` has a thread for every partition: it walks along the chain and replaces the
  link of each bucket by the partition and the number of the tuples in the bucket;
* `decompose_chains` walks along the chains too, and ends each one after every second bucket.

The threads' rounds interleave freely. A round of `compute_bucket_info` reads and writes one word, the
link of the bucket that the thread is at. As long as no bucket is in two chains (`Streams`) the links
are read before they are replaced, so that in the end every bucket is described (`Inv.final`), and a
pass over the buckets that the descriptions name reads the streams of the partitions (`Stored.reads`).
-/

namespace Proteus

open BucketChain Function List Nat
open BuildPartitions (Tuple Launch PartitionMetadata writeAll)

/-! ## Chaining the input -/

namespace InitFirst

variable (cnt : ℕ)

/-- `(cnt + bucket_size - 1) / bucket_size - 1`, a `size_t` -/
def last : ℕ := ((cnt + 4095) / 4096 + 2 ^ 64 - 1) % 2 ^ 64

/-- The links that are written. The counter of the loop is an `int`. -/
def links : List (ℕ × ℕ) :=
  (List.range (min (last cnt) (2 ^ 31))).map (fun i => (i, i + 1)) ++ [(last cnt, 0)]

def payload (input : ℕ → Tuple) : ℕ → Tuple := fun i =>
  if i < cnt then ⟨(input i).key, BitVec.ofNat 32 i⟩ else input i

/-- The chain of the input, the only one that there is. -/
def chain (cnt p : ℕ) : List ℕ := if p = 0 then List.range ((cnt + 4095) / 4096) else []

variable {cnt : ℕ}

theorem last_eq (hpos : 0 < cnt) (hcnt : cnt < 2 ^ 64) : last cnt + 1 = (cnt + 4095) / 4096 := by
  rw [last]
  omega

theorem writeAll_links (hpos : 0 < cnt) (hcnt : cnt < 2 ^ 31) (chains : ℕ → ℕ) {i : ℕ}
    (hi : i < (cnt + 4095) / 4096) :
    writeAll (links cnt) chains i = if i + 1 < (cnt + 4095) / 4096 then i + 1 else 0 := by
  have hlast := last_eq hpos (by omega)
  have hmin : min (last cnt) (2 ^ 31) = last cnt := by omega
  have hmem : ∀ w : ℕ × ℕ, w ∈ links cnt ↔ w.1 < last cnt ∧ w.2 = w.1 + 1 ∨ w = (last cnt, 0) := by
    intro w
    rw [links, hmin, mem_append, mem_singleton, mem_map]
    refine or_congr_left ⟨?_, fun h => ⟨w.1, mem_range.2 h.1, Prod.ext rfl h.2.symm⟩⟩
    rintro ⟨j, hj, rfl⟩
    exact ⟨mem_range.1 hj, rfl⟩
  have hdiff : ∀ v ∈ links cnt, ∀ w ∈ links cnt, v.1 = w.1 → v = w := by
    intro v hv w hw heq
    rcases (hmem v).1 hv with ⟨hv, hv'⟩ | rfl <;> rcases (hmem w).1 hw with ⟨hw, hw'⟩ | rfl
    · exact Prod.ext heq (by omega)
    · exact absurd heq hv.ne
    · exact absurd heq hw.ne'
    · rfl
  by_cases hin : i + 1 < (cnt + 4095) / 4096
  · rw [if_pos hin]
    have hlt : i < last cnt := by omega
    exact BuildPartitions.writeAll_of_mem (w := (i, i + 1)) hdiff ((hmem _).2 (.inl ⟨hlt, rfl⟩))
  · rw [if_neg hin]
    have hend : ((i, 0) : ℕ × ℕ) = (last cnt, 0) := Prod.ext (by omega) rfl
    exact BuildPartitions.writeAll_of_mem (w := (i, 0)) hdiff ((hmem _).2 (.inr hend))

end InitFirst

/-! ## Describing the buckets -/

/-- The streams of `cnts p` tuples lie in chains that the links lead along. -/
structure Streams (parts : ℕ) (chains cnts : ℕ → ℕ) (chain : ℕ → List ℕ) : Prop where
  apart : Apart chain
  first : ∀ p < parts, ∀ c, (chain p)[0]? = some c → c = p
  linked : ∀ p < parts, (chain p).IsChain fun a b => chains a = b
  length : ∀ p < parts, (chain p).length = (cnts p + 4095) / 4096

variable {cnt : ℕ}

theorem InitFirst.streams (hpos : 0 < cnt) (hcnt : cnt < 2 ^ 31) (chains : ℕ → ℕ) :
    Streams 1 (writeAll (links cnt) chains) (fun _ => cnt) (chain cnt) := by
  have hget : ∀ p m c : ℕ, (chain cnt p)[m]? = some c → p = 0 ∧ m = c := by
    intro p m c h
    by_cases hp : p = 0
    · rw [chain, if_pos hp] at h
      obtain ⟨hlt, hc⟩ := List.getElem?_eq_some_iff.1 h
      rw [getElem_range] at hc
      exact ⟨hp, hc⟩
    · rw [chain, if_neg hp] at h
      cases h
  refine ⟨?_, ?_, ?_, ?_⟩
  · intro p q m n c hm hn
    obtain ⟨rfl, rfl⟩ := hget p m c hm
    obtain ⟨rfl, rfl⟩ := hget q n m hn
    exact ⟨rfl, rfl⟩
  · intro p hp c hc
    obtain ⟨rfl, rfl⟩ := hget p 0 c hc
    rfl
  · intro p hp
    rw [isChain_iff_getElem]
    intro m hm
    obtain ⟨hp0, hm0⟩ := hget p m _ (getElem?_eq_getElem (by omega))
    obtain ⟨-, hm1⟩ := hget p (m + 1) _ (getElem?_eq_getElem hm)
    rw [chain, if_pos hp0, length_range] at hm
    rw [← hm0, ← hm1, writeAll_links hpos hcnt chains (by omega), if_pos hm]
  · intro p hp
    rw [chain, if_pos (by omega), length_range]

variable {s s' : State} {p : ℕ}

namespace ComputeBucketInfo

/-- A thread: the bucket it is at, and how many tuples there are from there on. -/
structure Thread where
  cur : ℕ
  cnt : ℕ

/-- The links, which are the `bucket_info` too, and the threads of the partitions. -/
structure State where
  chains : ℕ → ℕ
  thread : ℕ → Thread

def start (chains outCnts : ℕ → ℕ) : State := ⟨chains, fun p => ⟨p, outCnts p⟩⟩

def val (p cnt : ℕ) : ℕ := (p * 2 ^ 15 + min cnt 4096) % 2 ^ 32

/-- A round of the thread of the partition `p`. -/
def step (parts : ℕ) (s : State) (p : ℕ) : Option State :=
  if p < parts ∧ 0 < (s.thread p).cnt then some {
    chains := update s.chains (s.thread p).cur (val p (s.thread p).cnt)
    thread := update s.thread p ⟨s.chains (s.thread p).cur, (s.thread p).cnt - 4096⟩ }
  else none

def Final (parts : ℕ) (s : State) : Prop := ∀ p < parts, (s.thread p).cnt = 0

instance (parts : ℕ) (s : State) : Decidable (Final parts s) :=
  inferInstanceAs (Decidable (∀ p < parts, (s.thread p).cnt = 0))

variable {parts : ℕ} {chains cnts pos : ℕ → ℕ} {chain : ℕ → List ℕ}

theorem of_step (h : step parts s p = some s') : (p < parts ∧ 0 < (s.thread p).cnt) ∧ s' =
      { chains := update s.chains (s.thread p).cur (val p (s.thread p).cnt)
        thread := update s.thread p
          ⟨s.chains (s.thread p).cur, (s.thread p).cnt - 4096⟩ } := by
  rw [step] at h
  split_ifs at h with hguard
  exact ⟨hguard, (Option.some.inj h).symm⟩

/-- The thread of `p` has `pos p` buckets of its chain behind it. -/
structure Inv (parts : ℕ) (chains cnts : ℕ → ℕ) (chain : ℕ → List ℕ) (pos : ℕ → ℕ) (s : State) :
    Prop where
  cnt : ∀ p < parts, (s.thread p).cnt = cnts p - 4096 * pos p
  cur : ∀ p < parts, 0 < (s.thread p).cnt → (chain p)[pos p]? = some (s.thread p).cur
  written : ∀ p < parts, ∀ i c : ℕ, (chain p)[i]? = some c →
    s.chains c = if i < pos p then val p (cnts p - 4096 * i) else chains c
  others : ∀ c, (∀ p < parts, c ∉ chain p) → s.chains c = chains c

section

variable (h : Streams parts chains cnts chain)
include h

theorem inv_start : Inv parts chains cnts chain (fun _ => 0) (start chains cnts) := by
  refine ⟨fun p _ => rfl, ?_, fun p _ i c _ => rfl, fun c _ => rfl⟩
  intro p hp hpos
  have hlen := h.length p hp
  have hcnt : 0 < cnts p := hpos
  have hget := getElem?_eq_getElem (l := chain p) (i := 0) (by omega)
  rw [hget]
  exact congrArg some (h.first p hp _ hget)

theorem step_inv (inv : Inv parts chains cnts chain pos s) (hs : step parts s p = some s') :
    Inv parts chains cnts chain (update pos p (pos p + 1)) s' := by
  obtain ⟨⟨hp, hpos⟩, rfl⟩ := of_step hs
  have hcnt := inv.cnt p hp
  have hcur := inv.cur p hp hpos
  refine ⟨?_, ?_, ?_, ?_⟩
  · intro q hq
    by_cases hqp : q = p
    · subst hqp
      simp only [update_self]
      omega
    · simp only [update_of_ne hqp]
      exact inv.cnt q hq
  · intro q hq hq'
    by_cases hqp : q = p
    · subst hqp
      simp only [update_self] at hq' ⊢
      -- there is a bucket behind this one, and the link to it has not been replaced yet
      have hlen := h.length q hq
      have hnext := getElem?_eq_getElem (l := chain q) (i := pos q + 1) (by omega)
      have hlink := isChain_iff_getElem.1 (h.linked q hq) (pos q) (by omega)
      rw [inv.written q hq _ _ hcur, if_neg (lt_irrefl _), hnext, ← hlink]
      rw [(List.getElem?_eq_some_iff.1 hcur).2]
    · simp only [update_of_ne hqp] at hq' ⊢
      exact inv.cur q hq hq'
  · intro q hq i c hc
    by_cases hcc : c = (s.thread p).cur
    · subst hcc
      obtain ⟨rfl, rfl⟩ := h.apart _ _ _ _ _ hc hcur
      simp only [update_self]
      rw [if_pos (lt_succ_self _), hcnt]
    · simp only [update_of_ne hcc]
      rw [inv.written q hq i c hc]
      by_cases hqp : q = p
      · subst hqp
        have hi : i ≠ pos q := by
          rintro rfl
          exact hcc (Option.some.inj (hc.symm.trans hcur))
        rw [update_self]
        exact if_congr (by omega) rfl rfl
      · rw [update_of_ne hqp]
  · intro c hc
    have hne : c ≠ (s.thread p).cur := by
      rintro rfl
      exact hc p hp (mem_of_getElem? hcur)
    simp only [update_of_ne hne]
    exact inv.others c hc

theorem inv_of_reach
    (hs : Reach (step parts) Free (start chains cnts) s) : ∃ pos, Inv parts chains cnts chain pos s :=
  hs.invariant (I := fun s => ∃ pos, Inv parts chains cnts chain pos s) ⟨_, inv_start h⟩
    fun _ _ _ ⟨_, inv⟩ _ hstep => ⟨_, step_inv h inv hstep⟩

/-- In the end every bucket of a chain is described. -/
theorem Inv.final (inv : Inv parts chains cnts chain pos s)
    (hfin : Final parts s) (hp : p < parts) {i c : ℕ} (hc : (chain p)[i]? = some c) :
    s.chains c = val p (cnts p - 4096 * i) := by
  have hcnt := inv.cnt p hp
  have hlen := h.length p hp
  have hi := (List.getElem?_eq_some_iff.1 hc).1
  rw [hfin p hp] at hcnt
  rw [inv.written p hp i c hc, if_pos (by omega)]

end

/-- The threads can always be brought to their end. -/
theorem exists_final (parts : ℕ) (s : State) : ∃ t, Reach (step parts) Free s t ∧ Final parts t := by
  induction hn : ∑ p ∈ Finset.range parts, (s.thread p).cnt using Nat.strong_induction_on
    generalizing s with
  | _ n ih =>
    by_cases hfin : Final parts s
    · exact ⟨s, .init, hfin⟩
    · simp only [Final, not_forall] at hfin
      obtain ⟨p, hp, hcnt⟩ := hfin
      have hguard : p < parts ∧ 0 < (s.thread p).cnt := ⟨hp, pos_of_ne_zero hcnt⟩
      obtain ⟨s', hs'⟩ : ∃ s', step parts s p = some s' := ⟨_, if_pos hguard⟩
      have hsum := sum_update_add (Finset.mem_range.2 hp) s.thread
        ⟨s.chains (s.thread p).cur, (s.thread p).cnt - 4096⟩ fun _ (t : Thread) => t.cnt
      have hlt : ∑ p ∈ Finset.range parts, (s'.thread p).cnt < n := by
        rw [(of_step hs').2]
        simp only at hsum ⊢
        omega
      obtain ⟨t, ht, hfin⟩ := ih _ hlt s' rfl
      exact ⟨t, (Reach.next p .init trivial hs').trans ht, hfin⟩

end ComputeBucketInfo

/-! ## Passes over described buckets -/

/-- The input of a pass: `parts` streams of tuples, in chains of buckets below `used`. -/
structure Stored (parts : ℕ) (chains cnts : ℕ → ℕ) (used : ℕ) (input : ℕ → Tuple)
    (chain : ℕ → List ℕ) (tuples : ℕ → List Tuple) : Prop where
  streams : Streams parts chains cnts chain
  lt : ∀ p < parts, ∀ c ∈ chain p, c < used
  others : ∀ c < used, (∀ p < parts, c ∉ chain p) → chains c = 0
  tuples : ∀ p < parts, ((List.range (cnts p)).map fun v => input (addr 4096 (chain p) v)).Perm (tuples p)

/-- A pass that reads these streams of tuples. -/
structure Reads (K : Launch) (tuples : ℕ → List Tuple) : Prop where
  wf : K.WellFormed
  perm : ∀ q < K.allParts, (K.partitionTuples q).Perm
    ((tuples (q / K.parts)).filter fun t => K.partition t.key = q % K.parts)

section

variable {parts used : ℕ} {chains cnts : ℕ → ℕ} {input : ℕ → Tuple} {chain : ℕ → List ℕ}
  {tuples : ℕ → List Tuple} {K : Launch} {w : ComputeBucketInfo.State}

/-- A list without repetitions may be read in the order of the numbers. -/
theorem perm_flatMap_range {α : Type*} {l : List ℕ} {n : ℕ} {f : ℕ → List α} (hnodup : l.Nodup)
    (hlt : ∀ c ∈ l, c < n) (hnil : ∀ c < n, c ∉ l → f c = []) :
    ((List.range n).flatMap f).Perm (l.flatMap f) := by
  rw [← BuildPartitions.flatMap_filter (fun _ _ _ => rfl)
    fun c hc hq => hnil c (mem_range.1 hc) (of_decide_eq_false hq)]
  refine List.Perm.flatMap_right f ?_
  rw [perm_ext_iff_of_nodup (nodup_range.filter _) hnodup]
  intro c
  rw [mem_filter, mem_range, decide_eq_true_iff]
  exact ⟨fun h => h.2, fun h => ⟨hlt c h, h⟩⟩

theorem Streams.nodup (h : Streams parts chains cnts chain) (p : ℕ) : (chain p).Nodup := by
  rw [nodup_iff_getElem?_ne_getElem?]
  intro i j hij hj heq
  obtain ⟨-, hijeq⟩ := h.apart p p i j _ (getElem?_eq_getElem (by omega))
    (by rw [← heq, getElem?_eq_getElem (by omega)])
  omega

section

variable (h : Stored parts chains cnts used input chain tuples)
  (hw : Reach (ComputeBucketInfo.step parts) Free (ComputeBucketInfo.start chains cnts) w)
include h hw

/-- A pass over the buckets that `compute_bucket_info` has described reads the streams. -/
theorem Stored.reads
    (hfin : ComputeBucketInfo.Final parts w) (hgrid : 0 < K.gridDim) (hparts : 2 ^ K.sLogParts = parts)
    (hsmall : parts ≤ 2 ^ 17) (hinput : K.input = input) (hinfo : K.bucketInfo = w.chains)
    (hused : K.bucketsNum = used) : Reads K tuples := by
  obtain ⟨pos, inv⟩ := ComputeBucketInfo.inv_of_reach h.streams hw
  have hdescribed : ∀ p < parts, ∀ i c : ℕ, (chain p)[i]? = some c →
      K.cnt c = min (cnts p - 4096 * i) 4096 ∧ K.pid c = p := by
    intro p hp i c hc
    rw [Launch.cnt, Launch.pid, hinfo, inv.final h.streams hfin hp hc, ComputeBucketInfo.val]
    omega
  have hempty : ∀ c < used, (∀ p < parts, c ∉ chain p) → K.cnt c = 0 ∧ K.pid c = 0 := by
    intro c hc hnot
    rw [Launch.cnt, Launch.pid, hinfo, inv.others c hnot, h.others c hc hnot]
    exact ⟨rfl, rfl⟩
  -- a bucket of the input is in a chain or empty
  have hcases : ∀ c < used, (∃ p < parts, ∃ i : ℕ, (chain p)[i]? = some c) ∨ K.cnt c = 0 ∧ K.pid c = 0 := by
    intro c hc
    by_cases hin : ∃ p < parts, c ∈ chain p
    · obtain ⟨p, hp, hmem⟩ := hin
      exact .inl ⟨p, hp, mem_iff_getElem?.1 hmem⟩
    · exact .inr (hempty c hc fun p hp hmem => hin ⟨p, hp, hmem⟩)
  have hpos : 0 < K.parts := Nat.two_pow_pos _
  refine ⟨⟨hgrid, ?_, ?_⟩, ?_⟩
  · intro c hc
    rcases hcases c (hused ▸ hc) with ⟨p, hp, i, hi⟩ | ⟨hcnt, -⟩
    · rw [(hdescribed p hp i c hi).1]
      omega
    · omega
  · intro c hc
    rw [hparts]
    rcases hcases c (hused ▸ hc) with ⟨p, hp, i, hi⟩ | ⟨-, hpid⟩
    · rwa [(hdescribed p hp i c hi).2]
    · rw [hpid, ← hparts]
      exact Nat.two_pow_pos _
  · intro q hq
    have hp : q / K.parts < parts := by
      rw [div_lt_iff_lt_mul hpos, ← hparts]
      rwa [Launch.allParts, pow_add] at hq
    -- only the buckets of the chain have tuples of the partition
    have hnil : ∀ c < used, c ∉ chain (q / K.parts) →
        ((K.tuples c).filter fun t => K.index (c, K.partition t.key) = q) = [] := by
      intro c hc hnot
      rw [filter_eq_nil_iff]
      intro t ht hin
      obtain ⟨hpid, -⟩ := (Launch.index_eq_iff (Launch.partition_lt t.key)).1 (of_decide_eq_true hin)
      rcases hcases c hc with ⟨p, hp, i, hi⟩ | ⟨hcnt, -⟩
      · rw [(hdescribed p hp i c hi).2] at hpid
        rw [← hpid] at hnot
        exact hnot (mem_of_getElem? hi)
      · rw [length_eq_zero_iff.1 ((K.length_tuples c).trans hcnt)] at ht
        cases ht
    have hsame : ∀ c ∈ chain (q / K.parts),
        ((K.tuples c).filter fun t => K.index (c, K.partition t.key) = q) =
          (K.tuples c).filter fun t => K.partition t.key = q % K.parts := by
      intro c hc
      obtain ⟨i, hi⟩ := mem_iff_getElem?.1 hc
      have hindex : K.index (c, q % K.parts) = q :=
        (Launch.index_eq_iff (mod_lt _ hpos)).2 ⟨(hdescribed _ hp i c hi).2, rfl⟩
      apply filter_congr
      intro t _
      rw [decide_eq_decide, K.index_partition_iff]
      exact ⟨fun h => h.2, fun h => ⟨hindex, h⟩⟩
    have hstream : (chain (q / K.parts)).flatMap K.tuples =
        (range (cnts (q / K.parts))).map fun v => input (addr 4096 (chain (q / K.parts)) v) := by
      have hlen := h.streams.length _ hp
      refine flatMap_eq (by omega) (by omega) fun i c hc => ?_
      rw [Launch.tuples, hinput, (hdescribed _ hp i c hc).1]
      apply map_congr_left
      intro k _
      rw [mul_comm]
    rw [Launch.partitionTuples, hused]
    refine (perm_flatMap_range (h.streams.nodup _) (h.lt _ hp) hnil).trans ?_
    rw [flatMap_congr hsame, ← filter_flatMap, hstream]
    exact (h.tuples _ hp).filter _

end

/-- What `init_first` leaves is the input of the first pass. -/
theorem InitFirst.stored (hpos : 0 < cnt) (hcnt : cnt < 2 ^ 31) (chains : ℕ → ℕ)
    (input : ℕ → Tuple) : Stored 1 (writeAll (links cnt) chains) (fun _ => cnt) ((cnt + 4095) / 4096) input
      (InitFirst.chain cnt) fun _ => (List.range cnt).map input := by
  have hchain : ∀ p < 1, InitFirst.chain cnt p = range ((cnt + 4095) / 4096) := by
    intro p hp
    rw [InitFirst.chain, if_pos (by omega)]
  refine ⟨streams hpos hcnt chains, ?_, ?_, ?_⟩
  · intro p hp c hc
    rw [hchain p hp] at hc
    exact mem_range.1 hc
  · intro c hc hnot
    refine absurd ?_ (hnot 0 one_pos)
    rw [hchain 0 one_pos]
    exact mem_range.2 hc
  · intro p hp
    refine List.Perm.of_eq (map_congr_left fun v hv => congrArg input ?_)
    have hv : v < cnt := mem_range.1 hv
    have hdiv : v / 4096 < (cnt + 4095) / 4096 := by omega
    have hget : (range ((cnt + 4095) / 4096))[v / 4096]? = some (v / 4096) := by
      rw [getElem?_range hdiv]
    rw [hchain p hp, addr_of_getElem? hget, mul_comm]
    exact div_add_mod v 4096

/-- What a pass leaves is the input of the next one. -/
theorem BuildPartitions.Inv.stored {hK : K.WellFormed} {chains₀ : ℕ → ℕ} {s : BuildPartitions.State}
    (inv : BuildPartitions.Inv K hK chains₀ s) (hfin : BuildPartitions.Final K s)
    (hzero : ∀ c < s.bucketsUsed, chains₀ c = 0) :
    ∃ chain, Stored K.allParts s.chains s.outCnts s.bucketsUsed s.out chain K.partitionTuples := by
  obtain ⟨L, hL⟩ := inv.heads
  have hC := hL.complete fun k hk => (inv.all_done hfin hk).2.2
  refine ⟨L.chain, ⟨hL.ledger.apart, ?_, fun p _ => hC.linked p, ?_⟩, ?_, ?_, ?_⟩
  · intro p _ c hc
    exact (hL.ledger.first p c hc).1
  · intro p hp
    rw [inv.outCnts_eq hfin hp]
    exact hC.length p hp
  · intro p _ c hc
    obtain ⟨i, hi⟩ := mem_iff_getElem?.1 hc
    exact hL.ledger.lt_used hi
  · intro c hc hnot
    rw [← hzero c hc]
    by_contra hne
    obtain ⟨p, m, d, hm, -⟩ := hL.others c hne
    -- the chains of other numbers than those of the partitions are empty
    have hlen := (List.getElem?_eq_some_iff.1 hm).1
    have hp := (hL.ledger.first p _ (getElem?_eq_getElem (by omega))).2
    exact hnot p hp (mem_of_getElem? hm)
  · intro p hp
    have hperm := inv.stream_perm hfin hL p
    rwa [hC.granted, ← inv.outCnts_eq hfin hp] at hperm

end

/-! ## Cutting the chains -/

namespace DecomposeChains

/-- A thread: the bucket it is at, how many tuples there are from there on, and how many it has passed
since the last cut. -/
structure Thread where
  cur : ℕ
  cnt : ℕ
  cutoff : ℕ
  done : Bool

structure State where
  bucketInfo : ℕ → ℕ
  chains : ℕ → ℕ
  thread : ℕ → Thread

def start (bucketInfo chains outCnts : ℕ → ℕ) : State :=
  ⟨bucketInfo, chains, fun p => ⟨p, outCnts p, 0, false⟩⟩

def val (p cnt threshold : ℕ) : ℕ := (p * 2 ^ 15 + min cnt threshold) % 2 ^ 32

/-- A round of the loop. -/
def round (threshold : ℕ) (s : State) (p : ℕ) (t : Thread) : State :=
  if threshold ≤ t.cutoff + 4096 ∧ 0 < t.cnt - 4096 then {
    bucketInfo := update s.bucketInfo (s.chains t.cur) (val p (t.cnt - 4096) threshold)
    chains := update s.chains t.cur 0
    thread := update s.thread p ⟨s.chains t.cur, t.cnt - 4096, 0, false⟩ }
  else { s with
    bucketInfo :=
      if s.chains t.cur ≠ 0 then update s.bucketInfo (s.chains t.cur) 0 else s.bucketInfo
    thread := update s.thread p ⟨s.chains t.cur, t.cnt - 4096, t.cutoff + 4096, false⟩ }

/-- The thread of the partition `p` does a round, or has left the loop and describes its first bucket. -/
def step (parts threshold : ℕ) (outCnts : ℕ → ℕ) (s : State) (p : ℕ) : Option State :=
  if p < parts ∧ (s.thread p).done = false then
    if 0 < (s.thread p).cnt then some (round threshold s p (s.thread p))
    else some { s with
      bucketInfo := update s.bucketInfo p (val p (outCnts p) threshold)
      thread := update s.thread p { s.thread p with done := true } }
  else none

end DecomposeChains

end Proteus
