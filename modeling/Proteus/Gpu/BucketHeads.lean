import Mathlib.Algebra.Order.BigOperators.Group.Finset
import Mathlib.Data.Nat.Bitwise
import Proteus.BucketChain
import Proteus.Machine
import Proteus.Tiling

/-!
# Bucket chains behind packed head words

`build_partitions` writes the tuples of every partition to a chain of buckets of 4096 tuples. The
blocks agree on who writes where through one 64-bit word per partition, `heads[p]`: its low half is
the last bucket of the chain and its high half the last place used in it. The word is also a lock. A
job that wants `cnt` places of the partition adds them to the high half at once:

* if the old high half was 4096 or more, somebody is replacing the bucket, and the job tries again;
* if the places fit in the bucket, the job has them;
* otherwise the job has the rest of the bucket and the first places of a new one. It left a value
  of 4096 or more in the word, so it has the partition for itself until it exchanges the word for one
  with the new bucket.

An `atomicMin` after each attempt keeps the word of a locked partition from running over. It clears
the low half of the word as well, and it may come late, when the lock has changed hands or is free.

The first bucket of the partition `p` is the bucket `p`; before it is in use the word names the bucket
`2 ^ 18`, which is full. All other buckets are handed out by a counter, `buckets_used`.

This module is the protocol alone, for any set of jobs. The jobs' moves interleave freely
(`step`). What is reserved is told by a `Ledger` that the code does not have: the chain of each
partition, the jobs in the order in which they got places, and who holds the lock. `Inv` ties the
words, links and counters to it, and `step_inv` keeps it for as long as bucket numbers stay below
`2 ^ 18` (`BucketMoves`).
-/

namespace Proteus.BucketHeads

open BucketChain Finset Function List

/-! ## The protocol -/

/-- What a job has read from the head of its partition: the last used place of a bucket. What does not
fit behind it goes to the bucket `next`. -/
structure Grant where
  pcnt : ℕ
  bucket : ℕ
  next : ℕ
deriving DecidableEq, Repr

/-- Where a job is, by its next access to the shared arrays. `old` is the word that its addition
returned. -/
inductive Job
  /-- `old_heads = fetch_add(heads + p, cnt << 32)` -/
  | add
  /-- `atomicMin(heads + p, (2 * bucket_size) << 32)` -/
  | min (old : ℕ)
  /-- `next_buck = atomicAdd(buckets_used, 1)` -/
  | alloc (old : ℕ)
  /-- `chains[bucket] = next_buck` -/
  | link (g : Grant)
  /-- `exchange(heads + p, tmp)` -/
  | swap (g : Grant)
  /-- `repeat = false` -/
  | granted (g : Grant)
deriving DecidableEq, Repr

structure State (κ : Type*) where
  heads : ℕ → ℕ
  chains : ℕ → ℕ
  bucketsUsed : ℕ
  job : κ → Job

/-- What a job that wants `cnt` places of the partition `p` does with the old word. -/
def afterMin (p cnt old : ℕ) : Job :=
  if old / 2 ^ 32 < 4096 then
    if 4096 ≤ old / 2 ^ 32 + cnt then
      if old % 2 ^ 32 < 2 ^ 18 then .alloc old else .swap ⟨old / 2 ^ 32, old % 2 ^ 32, p⟩
    else .granted ⟨old / 2 ^ 32, old % 2 ^ 32, old % 2 ^ 32⟩
  else .add

variable {κ : Type*}

section

variable [DecidableEq κ]

/-- The next access of a job. -/
def step (cnt part : κ → ℕ) (s : State κ) (k : κ) : Option (State κ) :=
  match s.job k with
  | .add => some { s with
      heads := update s.heads (part k) ((s.heads (part k) + cnt k * 2 ^ 32) % 2 ^ 64)
      job := update s.job k (.min (s.heads (part k))) }
  | .min old => some { s with
      heads := update s.heads (part k) (min (s.heads (part k)) (2 * 4096 * 2 ^ 32))
      job := update s.job k (afterMin (part k) (cnt k) old) }
  | .alloc old => some { s with
      bucketsUsed := (s.bucketsUsed + 1) % 2 ^ 32
      job := update s.job k (.link ⟨old / 2 ^ 32, old % 2 ^ 32, s.bucketsUsed⟩) }
  | .link g => some { s with
      chains := update s.chains g.bucket g.next
      job := update s.job k (.swap g) }
  | .swap g => some { s with
      heads := update s.heads (part k) (g.next + (g.pcnt + cnt k - 4096) * 2 ^ 32)
      job := update s.job k (.granted g) }
  | .granted _ => none

end

/-- The word `(bucket << 12) + pcnt` that the job leaves for the threads of its block. -/
def Grant.word (g : Grant) : ℕ := (g.bucket * 4096 + g.pcnt) % 2 ^ 32

/-- Where the tuple of rank `r` is written: behind the last used place of the bucket, or in the next
bucket if the sum has left the bucket. -/
def Grant.slot (g : Grant) (r : ℕ) : ℕ :=
  if ((g.word + r) ^^^ g.word) >>> 12 ≠ 0 then
    g.next * 4096 % 2 ^ 32 + (g.word + r) % 4096
  else g.word + r

theorem Grant.slot_eq {g : Grant} {r : ℕ} (hb : g.bucket ≤ 2 ^ 18) (hp : g.pcnt < 4096)
    (hn : 4096 ≤ g.pcnt + r → g.next ≤ 2 ^ 18) (hr : r ≤ 4096) :
    g.slot r = if g.pcnt + r < 4096 then g.bucket * 4096 + (g.pcnt + r)
      else g.next * 4096 + (g.pcnt + r - 4096) := by
  have hword : g.word = g.bucket * 4096 + g.pcnt := by
    rw [Grant.word]
    omega
  -- the bits above the lowest twelve differ if and only if the quotients by 4096 do
  have hcross : ((g.word + r) ^^^ g.word) >>> 12 = 0 ↔ (g.word + r) / 4096 = g.word / 4096 := by
    rw [Nat.shiftRight_xor_distrib, Nat.xor_eq_zero_iff, Nat.shiftRight_eq_div_pow,
      Nat.shiftRight_eq_div_pow]
  rw [Grant.slot]
  by_cases hin : g.pcnt + r < 4096
  · have hsame : ((g.word + r) ^^^ g.word) >>> 12 = 0 := hcross.2 (by omega)
    rw [if_neg (not_not_intro hsame), if_pos hin]
    omega
  · have hdiff : ((g.word + r) ^^^ g.word) >>> 12 ≠ 0 := fun h => by omega
    rw [if_pos hdiff, if_neg hin]
    omega

/-! ## The ledger -/

/-- Which jobs there are, and how many places of which of the `parts` partitions each of them wants. -/
structure Demand (κ : Type*) where
  jobs : Finset κ
  cnt : κ → ℕ
  part : κ → ℕ
  parts : ℕ
  cnt_pos : ∀ k ∈ jobs, 0 < cnt k
  cnt_le : ∀ k ∈ jobs, cnt k ≤ 4096
  part_lt : ∀ k ∈ jobs, part k < parts

namespace Demand

variable (D : Demand κ)

/-- The jobs of a partition. -/
def of (p : ℕ) : Finset κ := D.jobs.filter fun k => D.part k = p

/-- The places that the jobs of a partition want. -/
def total (p : ℕ) : ℕ := ∑ k ∈ D.of p, D.cnt k

/-- The buckets that the partitions need: every partition has its first one, needed or not. -/
def needed : ℕ := ∑ p ∈ range D.parts, max 1 ((D.total p + 4095) / 4096)

variable {D} {k : κ} {p : ℕ}

theorem mem_of : k ∈ D.of p ↔ k ∈ D.jobs ∧ D.part k = p := mem_filter

theorem parts_le_needed : D.parts ≤ D.needed := by
  calc D.parts = ∑ _p ∈ range D.parts, 1 := by simp
    _ ≤ D.needed := Finset.sum_le_sum fun p _ => le_max_left _ _

theorem total_eq_zero (hp : ¬p < D.parts) : D.total p = 0 := by
  refine sum_eq_zero fun k hk => absurd (D.part_lt k (mem_of.1 hk).1) ?_
  rwa [(mem_of.1 hk).2]

/-- The buckets that are needed have room for all places. -/
theorem total_le (D : Demand κ) (p : ℕ) : D.total p ≤ 4096 * D.needed := by
  by_cases hp : p < D.parts
  · have hle := single_le_sum (f := fun p => max 1 ((D.total p + 4095) / 4096))
      (fun _ _ => Nat.zero_le _) (mem_range.2 hp)
    have hroom : D.total p ≤ 4096 * max 1 ((D.total p + 4095) / 4096) := by omega
    exact hroom.trans (Nat.mul_le_mul_left _ hle)
  · rw [total_eq_zero hp]
    exact Nat.zero_le _

end Demand

/-- What has been reserved: the chain of each partition, the number of its places that are taken, the
jobs that took them in their order with the first place of each, and the job that holds the lock. -/
structure Ledger (κ : Type*) where
  chain : ℕ → List ℕ
  granted : ℕ → ℕ
  log : ℕ → List κ
  lo : κ → ℕ
  holder : ℕ → Option κ

variable {D : Demand κ}

namespace Ledger

variable [DecidableEq κ] {L : Ledger κ} {used p c : ℕ} {k : κ}

/-- The job takes the next places of its partition, and perhaps the lock. -/
def grant (L : Ledger κ) (D : Demand κ) (k : κ) (h : Option κ) : Ledger κ :=
  { L with
    granted := update L.granted (D.part k) (L.granted (D.part k) + D.cnt k)
    log := update L.log (D.part k) (L.log (D.part k) ++ [k])
    lo := update L.lo k (L.granted (D.part k))
    holder := update L.holder (D.part k) h }

def extend (L : Ledger κ) (p c : ℕ) : Ledger κ :=
  { L with chain := update L.chain p (L.chain p ++ [c]) }

def unlock (L : Ledger κ) (p : ℕ) : Ledger κ := { L with holder := update L.holder p none }

section

variable (L D k) (h : Option κ)

theorem grant_granted : (L.grant D k h).granted (D.part k) = L.granted (D.part k) + D.cnt k :=
  update_self ..

theorem grant_log : (L.grant D k h).log (D.part k) = L.log (D.part k) ++ [k] := update_self ..

theorem grant_lo : (L.grant D k h).lo k = L.granted (D.part k) := update_self ..

theorem grant_holder : (L.grant D k h).holder (D.part k) = h := update_self ..

/-- The other partitions are as before. -/
theorem grant_of_ne {q : ℕ} (hq : q ≠ D.part k) :
    (L.grant D k h).holder q = L.holder q ∧ (L.grant D k h).granted q = L.granted q ∧
      (L.grant D k h).log q = L.log q :=
  ⟨update_of_ne hq _ _, update_of_ne hq _ _, update_of_ne hq _ _⟩

end

/-- The ledger is in order: the reservations of a partition tile its stream, the chains are apart,
they are no longer than they have to be, and the counter has handed out all buckets that are not the
first of a partition. -/
structure Ok (D : Demand κ) (L : Ledger κ) (used : ℕ) : Prop where
  tiles : ∀ p, Tiles 0 ((L.log p).map fun k => (L.lo k, D.cnt k)) (L.granted p)
  nodup : ∀ p, (L.log p).Nodup
  log_sub : ∀ p, ∀ k ∈ L.log p, k ∈ D.of p
  first : ∀ p c, (L.chain p)[0]? = some c → c = p ∧ p < D.parts
  later : ∀ p m c, (L.chain p)[m + 1]? = some c → D.parts ≤ c ∧ c < used
  apart : Apart L.chain
  length : ∀ p, 4096 * (L.chain p).length ≤ L.granted p + 4095
  used : used = D.parts + ∑ p ∈ range D.parts, ((L.chain p).length - 1)

namespace Ok

theorem granted_eq (h : L.Ok D used) (p : ℕ) : L.granted p = ∑ k ∈ (L.log p).toFinset, D.cnt k := by
  rw [← (h.tiles p).add_sum, List.map_map, Nat.zero_add, sum_toFinset _ (h.nodup p)]
  rfl

theorem granted_le (h : L.Ok D used) (p : ℕ) : L.granted p ≤ D.total p := by
  rw [h.granted_eq, Demand.total]
  refine sum_le_sum_of_subset fun k hk => h.log_sub p k (mem_toFinset.1 hk)

omit [DecidableEq κ] in
theorem used_eq (h : L.Ok D used) : used = ∑ p ∈ range D.parts, (1 + ((L.chain p).length - 1)) := by
  rw [h.used, sum_add_distrib]
  simp

/-- No more buckets are handed out than the partitions need. -/
theorem used_le_needed (h : L.Ok D used) : used ≤ D.needed := by
  rw [h.used_eq, Demand.needed]
  refine Finset.sum_le_sum fun p _ => ?_
  have hlen := h.length p
  have hle := h.granted_le p
  omega

omit [DecidableEq κ] in
theorem lt_used (h : L.Ok D used) {m : ℕ} (hc : (L.chain p)[m]? = some c) : c < used := by
  have hparts : D.parts ≤ used := by
    rw [h.used]
    omega
  cases m with
  | zero =>
    obtain ⟨rfl, hp⟩ := h.first p c hc
    omega
  | succ m => exact (h.later p m c hc).2

theorem grant (h : L.Ok D used) (hk : k ∈ D.jobs) (hnew : k ∉ L.log (D.part k)) (x : Option κ) :
    (L.grant D k x).Ok D used := by
  have hmap : ∀ q, (L.log q).map (fun k' => ((L.grant D k x).lo k', D.cnt k')) =
      (L.log q).map fun k' => (L.lo k', D.cnt k') := by
    intro q
    apply map_congr_left
    intro k' hk'
    have hne : k' ≠ k := by
      rintro rfl
      rw [(Demand.mem_of.1 (h.log_sub q k' hk')).2] at hnew
      exact hnew hk'
    rw [show (L.grant D k x).lo k' = L.lo k' from update_of_ne hne _ _]
  refine { h with tiles := ?_, nodup := ?_, log_sub := ?_, length := ?_ }
  · intro q
    by_cases hq : q = D.part k
    · subst hq
      rw [grant_log, grant_granted, map_append, hmap, List.map_singleton, grant_lo]
      exact (h.tiles _).append (.single _ _)
    · obtain ⟨-, hg, hl⟩ := grant_of_ne D L k x hq
      rw [hl, hg, hmap]
      exact h.tiles q
  · intro q
    by_cases hq : q = D.part k
    · subst hq
      rw [grant_log]
      exact (h.nodup _).append (nodup_singleton k) (disjoint_singleton.2 hnew)
    · rw [(grant_of_ne D L k x hq).2.2]
      exact h.nodup q
  · intro q k' hk'
    by_cases hq : q = D.part k
    · subst hq
      rw [grant_log] at hk'
      rcases mem_append.1 hk' with hmem | hmem
      · exact h.log_sub _ k' hmem
      · rw [List.mem_singleton.1 hmem]
        exact Demand.mem_of.2 ⟨hk, rfl⟩
    · rw [(grant_of_ne D L k x hq).2.2] at hk'
      exact h.log_sub q k' hk'
  · intro q
    have hlen := h.length q
    show 4096 * (L.chain q).length ≤ _
    by_cases hq : q = D.part k
    · subst hq
      rw [grant_granted]
      omega
    · rwa [(grant_of_ne D L k x hq).2.1]

omit [DecidableEq κ]

theorem sum_extend (L : Ledger κ) (hp : p < D.parts) (c : ℕ) :
    ∑ q ∈ range D.parts, (((L.extend p c).chain q).length - 1) + ((L.chain p).length - 1) =
      ∑ q ∈ range D.parts, ((L.chain q).length - 1) + (L.chain p).length := by
  have h := sum_update_add (mem_range.2 hp) L.chain (L.chain p ++ [c])
    fun _ (l : List ℕ) => l.length - 1
  rwa [length_append] at h

section

variable (h : L.Ok D used)
include h

theorem length_extend (hlen : 4096 * ((L.chain p).length + 1) ≤ L.granted p + 4095)
    (q : ℕ) : 4096 * ((L.extend p c).chain q).length ≤ (L.extend p c).granted q + 4095 := by
  show 4096 * (update L.chain p _ q).length ≤ L.granted q + 4095
  by_cases hq : q = p
  · subst hq
    rwa [update_self, length_append]
  · rw [update_of_ne hq]
    exact h.length q

/-- The chain of a partition begins with the bucket of the same number. -/
theorem extend_first (hp : p < D.parts) (hnil : L.chain p = [])
    (hpos : 0 < L.granted p) : (L.extend p p).Ok D used := by
  have hnew : ∀ q, p ∉ L.chain q := by
    intro q hmem
    obtain ⟨m, hm⟩ := getElem?_of_mem hmem
    cases m with
    | zero =>
      obtain ⟨rfl, -⟩ := h.first q p hm
      rw [hnil] at hmem
      cases hmem
    | succ m =>
      have := (h.later q m p hm).1
      omega
  refine { h with
    first := ?_, later := ?_, apart := h.apart.snoc hnew p, length := h.length_extend ?_, used := ?_ }
  · intro q c hc
    rcases getElem?_snoc_cases hc with hc | ⟨rfl, -, rfl⟩
    · exact h.first q c hc
    · exact ⟨rfl, hp⟩
  · intro q m c hc
    rcases getElem?_snoc_cases hc with hc | ⟨rfl, hm, rfl⟩
    · exact h.later q m c hc
    · rw [hnil] at hm
      cases hm
  · rw [hnil, length_nil]
    omega
  · have hsum := sum_extend L hp p
    have hused := h.used
    rw [hnil, length_nil] at hsum
    omega

/-- A chain grows by the next bucket of the counter. -/
theorem extend_next (hp : p < D.parts) (hne : L.chain p ≠ [])
    (hlen : 4096 * ((L.chain p).length + 1) ≤ L.granted p + 4095) : (L.extend p used).Ok D (used + 1) := by
  have hpos := length_pos_iff.2 hne
  have hnew : ∀ q, used ∉ L.chain q := by
    intro q hmem
    obtain ⟨m, hm⟩ := getElem?_of_mem hmem
    exact lt_irrefl _ (h.lt_used hm)
  refine { h with
    first := ?_, later := ?_, apart := h.apart.snoc hnew p, length := h.length_extend hlen, used := ?_ }
  · intro q c hc
    rcases getElem?_snoc_cases hc with hc | ⟨rfl, hm, -⟩
    · exact h.first q c hc
    · omega
  · intro q m c hc
    rcases getElem?_snoc_cases hc with hc | ⟨-, -, rfl⟩
    · have := h.later q m c hc
      omega
    · have := h.used
      omega
  · have hsum := sum_extend L hp used
    have hused := h.used
    omega

theorem unlock (p : ℕ) : (L.unlock p).Ok D used := { h with }

end

end Ok

end Ledger

/-! ## The invariant -/

namespace Job

/-- The job has its places. -/
def taken : Job → Bool
  | .add => false
  | .min old => old / 2 ^ 32 < 4096
  | _ => true

/-- The job is between its addition and the exchange, and its places do not fit in the bucket. -/
def holds (cnt : ℕ) : Job → Bool
  | .add | .granted _ => false
  | .min old => old / 2 ^ 32 < 4096 ∧ 4096 ≤ old / 2 ^ 32 + cnt
  | .alloc _ | .link _ | .swap _ => true

/-- What the job has added to the word and not yet clamped. -/
def pending (cnt : ℕ) : Job → ℕ
  | .min _ => cnt
  | _ => 0

theorem taken_min {old : ℕ} : (Job.min old).taken = true ↔ old / 2 ^ 32 < 4096 := decide_eq_true_iff

theorem holds_min {cnt old : ℕ} :
    (Job.min old).holds cnt = true ↔ old / 2 ^ 32 < 4096 ∧ 4096 ≤ old / 2 ^ 32 + cnt := decide_eq_true_iff

end Job

/-- The bucket a head names when the chain has `m` buckets: the last one, or the full bucket that
stands for none. -/
def lastBucket (l : List ℕ) : ℕ → Option ℕ
  | 0 => some (2 ^ 18)
  | m + 1 => l[m]?

theorem lastBucket_mono {l l' : List ℕ} {m b : ℕ} (hl : l <+: l') (h : lastBucket l m = some b) :
    lastBucket l' m = some b := by
  cases m with
  | zero => exact h
  | succ m => exact getElem?_of_isPrefix hl h

section

variable {L L' : Ledger κ} {k k' : κ} {x : Job}

/-- The places of the job begin behind the place `pcnt` of the `m`-th bucket of the chain. -/
structure Behind (D : Demand κ) (L : Ledger κ) (k : κ) (pcnt bucket m : ℕ) : Prop where
  lo : L.lo k + 4095 = 4096 * m + pcnt
  lt : pcnt < 4096
  bucket : lastBucket (L.chain (D.part k)) m = some bucket

/-- The places of the job are the last ones taken, and they go beyond the `m` buckets that `pcnt` is
at the end of. -/
structure Beyond (D : Demand κ) (L : Ledger κ) (k : κ) (pcnt : ℕ) : Prop where
  cross : 4096 ≤ pcnt + D.cnt k
  last : L.lo k + D.cnt k = L.granted (D.part k)

/-- What a job knows about its places. -/
def Knows (D : Demand κ) (L : Ledger κ) (k : κ) : Job → Prop
  | .add => True
  | .min old => old / 2 ^ 32 < 4096 → ∃ m, Behind D L k (old / 2 ^ 32) (old % 2 ^ 32) m ∧
      (4096 ≤ old / 2 ^ 32 + D.cnt k →
        Beyond D L k (old / 2 ^ 32) ∧ (L.chain (D.part k)).length = m)
  | .alloc old => ∃ m, Behind D L k (old / 2 ^ 32) (old % 2 ^ 32) (m + 1) ∧
      Beyond D L k (old / 2 ^ 32) ∧ (L.chain (D.part k)).length = m + 1
  | .link g => ∃ m, Behind D L k g.pcnt g.bucket (m + 1) ∧ Beyond D L k g.pcnt ∧
      (L.chain (D.part k)).length = m + 2 ∧ (L.chain (D.part k))[m + 1]? = some g.next
  | .swap g => ∃ m, Behind D L k g.pcnt g.bucket m ∧ Beyond D L k g.pcnt ∧
      (L.chain (D.part k)).length = m + 1 ∧ (L.chain (D.part k))[m]? = some g.next
  | .granted g => ∃ m, Behind D L k g.pcnt g.bucket m ∧
      (4096 ≤ g.pcnt + D.cnt k → (L.chain (D.part k))[m]? = some g.next)

/-- The ledger agrees with a job. -/
structure Fits (D : Demand κ) (L : Ledger κ) (k : κ) (x : Job) : Prop where
  taken : x.taken = true ↔ k ∈ L.log (D.part k)
  holds : x.holds (D.cnt k) = true ↔ L.holder (D.part k) = some k
  knows : Knows D L k x

theorem Behind.mono {pcnt bucket m : ℕ} (h : Behind D L k pcnt bucket m) (hlo : L'.lo k = L.lo k)
    (hchain : L.chain (D.part k) <+: L'.chain (D.part k)) : Behind D L' k pcnt bucket m :=
  ⟨by rw [hlo]; exact h.lo, h.lt, lastBucket_mono hchain h.bucket⟩

/-- What a job knows stays true when chains grow, as long as nobody else touches a partition that
the job has locked. -/
theorem Knows.frame (h : Knows D L k x) (hlo : L'.lo k = L.lo k)
    (hchain : L.chain (D.part k) <+: L'.chain (D.part k))
    (hheld : x.holds (D.cnt k) = true → L'.chain (D.part k) = L.chain (D.part k) ∧
      L'.granted (D.part k) = L.granted (D.part k)) : Knows D L' k x := by
  have hbeyond : ∀ {pcnt}, L'.granted (D.part k) = L.granted (D.part k) → Beyond D L k pcnt →
      Beyond D L' k pcnt := by
    intro pcnt hg hb
    exact ⟨hb.cross, by rw [hlo, hg]; exact hb.last⟩
  cases x with
  | add => trivial
  | min old =>
    intro hlt
    obtain ⟨m, hm, hcross⟩ := h hlt
    refine ⟨m, hm.mono hlo hchain, fun hc => ?_⟩
    obtain ⟨hceq, hg⟩ := hheld (Job.holds_min.2 ⟨hlt, hc⟩)
    exact ⟨hbeyond hg (hcross hc).1, by rw [hceq]; exact (hcross hc).2⟩
  | alloc _ | link _ | swap _ =>
    obtain ⟨hceq, hg⟩ := hheld rfl
    obtain ⟨m, hm, hb, hlen⟩ := h
    exact ⟨m, hm.mono hlo hchain, hbeyond hg hb, by rw [hceq]; exact hlen⟩
  | granted g =>
    obtain ⟨m, hm, hnext⟩ := h
    exact ⟨m, hm.mono hlo hchain, fun hc => getElem?_of_isPrefix hchain (hnext hc)⟩

namespace Fits

variable [DecidableEq κ]

/-- Another job takes places of a partition that is not locked. -/
theorem grant {y : Option κ} (h : Fits D L k x) (hne : k ≠ k') (hfree : L.holder (D.part k') = none)
    (hy : y ≠ some k) : Fits D (L.grant D k' y) k x := by
  have hlog : k ∈ (L.grant D k' y).log (D.part k) ↔ k ∈ L.log (D.part k) := by
    by_cases hp : D.part k = D.part k'
    · rw [hp, Ledger.grant_log, mem_append, List.mem_singleton]
      exact or_iff_left hne
    · rw [(Ledger.grant_of_ne D L k' y hp).2.2]
  have hholder : (L.grant D k' y).holder (D.part k) = some k ↔ L.holder (D.part k) = some k := by
    by_cases hp : D.part k = D.part k'
    · rw [hp, Ledger.grant_holder, hfree]
      exact iff_of_false hy nofun
    · rw [(Ledger.grant_of_ne D L k' y hp).1]
  refine ⟨h.taken.trans hlog.symm, h.holds.trans hholder.symm,
    h.knows.frame (update_of_ne hne _ _) prefix_rfl fun hh => ⟨rfl, ?_⟩⟩
  refine update_of_ne (fun hp => ?_) _ _
  have hown := h.holds.1 hh
  rw [hp, hfree] at hown
  cases hown

omit [DecidableEq κ] in
/-- The chain of a partition grows that another job has locked. -/
theorem extend (h : Fits D L k x) (hne : k ≠ k') (hheld : L.holder (D.part k') = some k') (c : ℕ) :
    Fits D (L.extend (D.part k') c) k x := by
  refine ⟨h.taken, h.holds, h.knows.frame rfl (isPrefix_snoc _ _ _ _) fun hh => ⟨?_, rfl⟩⟩
  refine update_of_ne (fun hp => ?_) _ _
  have hown := h.holds.1 hh
  rw [hp, hheld] at hown
  exact hne (Option.some.inj hown).symm

omit [DecidableEq κ] in
/-- Another job gives the lock back. -/
theorem unlock {p : ℕ} (h : Fits D L k x) (hne : L.holder p ≠ some k) : Fits D (L.unlock p) k x := by
  refine ⟨h.taken, h.holds.trans ?_, h.knows.frame rfl prefix_rfl fun _ => ⟨rfl, rfl⟩⟩
  show _ ↔ update L.holder p none (D.part k) = some k
  by_cases hp : D.part k = p
  · rw [hp, update_self]
    exact iff_of_false hne nofun
  · rw [update_of_ne hp]

end Fits

/-- The word of a partition that is not locked says how many places are taken; a locked one is
4096 or more in the high half. -/
def HeadOk (L : Ledger κ) (p word : ℕ) : Prop :=
  match L.holder p with
  | none => word / 2 ^ 32 < 4096 ∧
      L.granted p + 4095 = 4096 * (L.chain p).length + word / 2 ^ 32 ∧
      lastBucket (L.chain p) (L.chain p).length = some (word % 2 ^ 32)
  | some _ => 4096 ≤ word / 2 ^ 32

/-- The shared words and the jobs agree with the ledger. The bound on the head words keeps the
additions of waiting jobs from running over; `chains₀` is what the links were in the beginning. -/
structure Inv (D : Demand κ) (chains₀ : ℕ → ℕ) (s : State κ) (L : Ledger κ) : Prop where
  ledger : L.Ok D s.bucketsUsed
  room : s.bucketsUsed ≤ 2 ^ 18
  fits : ∀ k ∈ D.jobs, Fits D L k (s.job k)
  holder : ∀ p k, L.holder p = some k → k ∈ D.of p
  heads : ∀ p < D.parts, HeadOk L p (s.heads p)
  bound : ∀ p < D.parts, s.heads p / 2 ^ 32 ≤ 8192 + ∑ k ∈ D.of p, (s.job k).pending (D.cnt k)
  links : ∀ p m c d, (L.chain p)[m]? = some c → (L.chain p)[m + 1]? = some d →
    s.chains c = d ∨ ∃ k ∈ D.jobs, ∃ pcnt, s.job k = .link ⟨pcnt, c, d⟩
  others : ∀ c, s.chains c ≠ chains₀ c →
    ∃ p m d, (L.chain p)[m]? = some c ∧ (L.chain p)[m + 1]? = some d

end

end Proteus.BucketHeads
