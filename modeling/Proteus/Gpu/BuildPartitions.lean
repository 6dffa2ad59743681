import Proteus.CountingSort
import Proteus.Gpu.BucketMoves

/-!
# The partitioning kernel of the GPU radix join

`build_partitions` moves the tuples of its input, which come in buckets of up to 4096, to chains of
buckets, one chain for each partition. The block `b` serves the input buckets `b`, `b + gridDim`, … in
turn. For one input bucket it

* counts how many tuples go to each partition (`Launch.hist`);
* has a thread for every partition that gets a tuple: it adds the count to `out_cnts`, reserves slots
  in the chain of the partition (the protocol of `BucketHeads`), and takes places for its tuples in the
  router, the shared memory of the block (`jobStep`);
* moves the tuples to their places in the router, in any order, and from there to their slots
  (`shuffle`, `writes`).

The threads' accesses to the shared arrays interleave freely, within a block and between blocks; the
shuffle and the output of one input bucket are one step, since no other block reads or writes what
they touch.

The invariant `Inv` has the protocol's one, and what else is needed to tell what lies in the slots:
which jobs are through, how the router is divided, and that the slots of the input buckets that the
blocks have left have their tuples. Each kind of step keeps it: `inv_count`, `inv_move`,
`inv_reserve`, `inv_flush`.
-/

namespace Proteus.BuildPartitions

open BucketChain Function List Nat
open BucketHeads (Grant Job Demand)

/-! ## The kernel -/

structure Tuple where
  key : BitVec 32
  payload : BitVec 32
deriving DecidableEq, Repr

def hashd (val : BitVec 32) : BitVec 32 :=
  let val := val.sshiftRight 16 ^^^ val
  let val := val * 0x85ebca6b#32
  let val := val.sshiftRight 13 ^^^ val
  let val := val * 0xc2b2ae35#32
  val.sshiftRight 16 ^^^ val

/-- The arguments of a launch. `input` are the arrays `S` and `P`, and `bucketInfo` says for each of
the `bucketsNum` buckets of the input how many tuples it has and which partition they are of. -/
structure Launch where
  input : ℕ → Tuple
  bucketInfo : ℕ → ℕ
  bucketsNum : ℕ
  sLogParts : ℕ
  logParts : ℕ
  firstBit : ℕ
  gridDim : ℕ

variable {k : ℕ × ℕ}

namespace Launch

variable (K : Launch)

def parts : ℕ := 2 ^ K.logParts

def cnt (i : ℕ) : ℕ := K.bucketInfo i % 2 ^ 15

def pid (i : ℕ) : ℕ := K.bucketInfo i / 2 ^ 15

def partition (key : BitVec 32) : ℕ :=
  ((hashd key).sshiftRight K.firstBit &&& BitVec.ofNat 32 (K.parts - 1)).toNat

/-- The tuples of an input bucket. -/
def tuples (i : ℕ) : List Tuple := (List.range (K.cnt i)).map fun k => K.input (4096 * i + k)

/-- The local histogram: the tuples of the input bucket `k.1` that go to its partition `k.2`. -/
def hist (k : ℕ × ℕ) : ℕ := (K.tuples k.1).countP fun t => K.partition t.key = k.2

/-- The number of the partition, `(pid << log_parts) + j`. -/
def index (k : ℕ × ℕ) : ℕ := K.pid k.1 * K.parts + k.2

/-- The number of all partitions of the output. -/
def allParts : ℕ := 2 ^ (K.sLogParts + K.logParts)

/-- What the kernel expects of its arguments. -/
structure WellFormed : Prop where
  gridDim : 0 < K.gridDim
  cnt_le : ∀ i < K.bucketsNum, K.cnt i ≤ 4096
  pid_lt : ∀ i < K.bucketsNum, K.pid i < 2 ^ K.sLogParts

variable {K}

theorem partition_lt (key : BitVec 32) : K.partition key < K.parts := by
  have hpos : 0 < K.parts := Nat.two_pow_pos _
  have hle : K.partition key ≤ K.parts - 1 := by
    exact and_le_right.trans (mod_le _ _)
  omega

theorem length_tuples (i : ℕ) : (K.tuples i).length = K.cnt i := by
  rw [tuples, length_map, length_range]

theorem hist_le (k : ℕ × ℕ) : K.hist k ≤ K.cnt k.1 :=
  countP_le_length.trans_eq (K.length_tuples k.1)

/-- A partition is known by the bucket it comes from and its number there. -/
theorem index_eq_iff {p : ℕ} (hk : k.2 < K.parts) :
    K.index k = p ↔ K.pid k.1 = p / K.parts ∧ k.2 = p % K.parts := by
  have hpos : 0 < K.parts := Nat.two_pow_pos _
  rw [eq_comm (a := K.pid k.1), eq_comm (a := k.2), Nat.div_mod_unique hpos, Nat.mul_comm,
    Nat.add_comm]
  exact ⟨fun h => ⟨h, hk⟩, fun h => h.1⟩

/-- Every partition that an input bucket has tuples of is one job. -/
def demand (h : K.WellFormed) : Demand (ℕ × ℕ) where
  jobs := (Finset.range K.bucketsNum ×ˢ Finset.range K.parts).filter fun k => 0 < K.hist k
  cnt := K.hist
  part := K.index
  parts := K.allParts
  cnt_pos := fun _ hk => (Finset.mem_filter.1 hk).2
  cnt_le := by
    intro k hk
    obtain ⟨hk, -⟩ := Finset.mem_filter.1 hk
    exact (hist_le k).trans (h.cnt_le _ (Finset.mem_range.1 (Finset.mem_product.1 hk).1))
  part_lt := by
    intro k hk
    obtain ⟨hk, -⟩ := Finset.mem_filter.1 hk
    obtain ⟨hi, hj⟩ := Finset.mem_product.1 hk
    have hpid := h.pid_lt _ (Finset.mem_range.1 hi)
    have hj := Finset.mem_range.1 hj
    rw [index, allParts, pow_add]
    calc K.pid k.1 * K.parts + k.2 < (K.pid k.1 + 1) * K.parts := by
          rw [succ_mul]
          omega
      _ ≤ 2 ^ K.sLogParts * 2 ^ K.logParts := mul_le_mul_right _ hpid

theorem mem_jobs {h : K.WellFormed} :
    k ∈ (demand h).jobs ↔ (k.1 < K.bucketsNum ∧ k.2 < K.parts) ∧ 0 < K.hist k := by
  rw [demand, Finset.mem_filter, Finset.mem_product, Finset.mem_range, Finset.mem_range]

end Launch

open Launch

/-- Where the thread is that serves a partition of an input bucket. -/
inductive Stage
  /-- `atomicAdd(out_cnts + p, cnt)` -/
  | count
  /-- In the loop over the head of the partition, or through with it and before
  `router[1024 * 4 + j] = atomicAdd(router, cnt)`. -/
  | reserve
  /-- The tuples have the places from `start` on in the router of the block. -/
  | done (start : ℕ)
deriving DecidableEq, Repr

def Stage.isDone : Stage → Bool
  | .done _ => true
  | _ => false

/-- The first place of the partition in the router, `router[1024 * 4 + j]`. -/
def Stage.place : Stage → ℕ
  | .done start => start
  | _ => 0

/-- The arrays of the partitions. -/
structure PartitionMetadata where
  heads : ℕ → ℕ
  chains : ℕ → ℕ
  outCnts : ℕ → ℕ
  bucketsUsed : ℕ

/-- The arrays that the blocks share, and what each block has in its registers and its router. The
registers and the word `router[0]` belong to the input bucket that a block is at; the values of the
buckets that it has left are kept. -/
structure State extends BucketHeads.State (ℕ × ℕ) where
  outCnts : ℕ → ℕ
  /-- `output_S` and `output_P` -/
  out : ℕ → Tuple
  /-- The input bucket that a block is at, the loop variable `i`. -/
  block : ℕ → ℕ
  /-- `router[0]` -/
  total : ℕ → ℕ
  stage : ℕ × ℕ → Stage

variable (m : PartitionMetadata)

def initMetadata (parts bucketsNum : ℕ) : PartitionMetadata where
  heads := fun i => if i < parts then 2 ^ 18 + 4095 * 2 ^ 32 else m.heads i
  chains := fun i => if i < bucketsNum then 0 else m.chains i
  outCnts := fun i => if i < parts then 0 else m.outCnts i
  bucketsUsed := parts

/-- The blocks are launched: the block `b` begins with the input bucket `b`. -/
def launch (out : ℕ → Tuple) : State where
  heads := m.heads
  chains := m.chains
  bucketsUsed := m.bucketsUsed
  job := fun _ => .add
  outCnts := m.outCnts
  out := out
  block := fun b => b
  total := fun _ => 0
  stage := fun _ => .count

variable (K : Launch) (s : State)

/-- The next access of the thread that serves a partition of an input bucket. -/
def jobStep (k : ℕ × ℕ) : Option State :=
  match s.stage k with
  | .count => some { s with
      outCnts := update s.outCnts (K.index k) ((s.outCnts (K.index k) + K.hist k) % 2 ^ 32)
      stage := update s.stage k .reserve }
  | .reserve =>
    match s.job k with
    | .granted _ => some { s with
        total := update s.total k.1 (s.total k.1 + K.hist k)
        stage := update s.stage k (.done (s.total k.1)) }
    | _ => (BucketHeads.step K.hist K.index s.toState k).map fun a => { s with toState := a }
  | .done _ => none

/-- What the thread of a partition has left in the router. -/
def grant (k : ℕ × ℕ) : Grant :=
  match s.job k with
  | .granted g => g
  | _ => ⟨0, 0, 0⟩

/-- Where the tuple at the place `x` of the router is written. The counter of its partition has been
moved behind the last tuple of the partition by the shuffle. -/
def slotOf (i : ℕ) (t : Tuple) (x : ℕ) : ℕ :=
  (grant s (i, K.partition t.key)).slot
    ((s.stage (i, K.partition t.key)).place + K.hist (i, K.partition t.key) - x)

def writeAll {α : Type*} (ws : List (ℕ × α)) (out : ℕ → α) : ℕ → α :=
  ws.foldl (fun out w => update out w.1 w.2) out

/-- The tuples of the router and the slots that they are written to. -/
def writes (i : ℕ) (router : List Tuple) : List (ℕ × Tuple) :=
  (List.range (s.total i)).filterMap fun x => router[x]?.map fun t => (slotOf K s i t x, t)

/-- The shuffle of the tuples in the order in which their threads get their places. -/
def shuffle (i : ℕ) (order : List ℕ) : Option (List Tuple) :=
  CountingSort.scatter (fun t => K.partition t.key) (order.map fun k => K.input (4096 * i + k))
    ((List.range K.parts).map fun j => (s.stage (i, j)).place) (List.replicate 4096 ⟨0, 0⟩)

/-- The moves: a block's thread for a partition does its next access, or, when all of them are through,
the block moves the tuples to their slots and goes on to its next input bucket. -/
inductive Act
  | job (b j : ℕ)
  | flush (b : ℕ) (order : List ℕ)
deriving DecidableEq, Repr

def step : Act → Option State
  | .job b j =>
    if b < K.gridDim ∧ s.block b < K.bucketsNum ∧ j < K.parts ∧ 0 < K.hist (s.block b, j) then
      jobStep K s (s.block b, j)
    else none
  | .flush b order =>
    if b < K.gridDim ∧ s.block b < K.bucketsNum ∧
        (∀ j < K.parts, 0 < K.hist (s.block b, j) → (s.stage (s.block b, j)).isDone = true) ∧
        order.Perm (List.range (K.cnt (s.block b))) then
      (shuffle K s (s.block b) order).map fun router => { s with
        out := writeAll (writes K s (s.block b) router) s.out
        block := update s.block b (s.block b + K.gridDim) }
    else none

/-- All blocks are through. -/
def Final : Prop := ∀ b < K.gridDim, K.bucketsNum ≤ s.block b

instance (K : Launch) (s : State) : Decidable (Final K s) :=
  inferInstanceAs (Decidable (∀ b < K.gridDim, K.bucketsNum ≤ s.block b))

/-- The tuples of a partition along the links of its chain. -/
def printpart (chains : ℕ → ℕ) (out : ℕ → Tuple) (cnt p : ℕ) : List Tuple :=
  read 4096 chains out cnt cnt p

/-! ## What a step can do -/

/-- The block `b` is at the input bucket of the job. -/
structure Serves (K : Launch) (s : State) (b : ℕ) (k : ℕ × ℕ) : Prop where
  grid : b < K.gridDim
  block : s.block b = k.1
  lt : k.1 < K.bucketsNum
  part : k.2 < K.parts
  pos : 0 < K.hist k

/-- The moves with what is known before them. -/
inductive Trans (K : Launch) (s : State) : State → Prop
  | count {b : ℕ} {k : ℕ × ℕ} (hk : Serves K s b k) (hstage : s.stage k = .count) : Trans K s { s with
      outCnts := update s.outCnts (K.index k) ((s.outCnts (K.index k) + K.hist k) % 2 ^ 32)
      stage := update s.stage k .reserve }
  | move {b : ℕ} {k : ℕ × ℕ} (hk : Serves K s b k) (hstage : s.stage k = .reserve)
      {a : BucketHeads.State (ℕ × ℕ)} (ha : BucketHeads.step K.hist K.index s.toState k = some a) :
      Trans K s { s with toState := a }
  | reserve {b : ℕ} {k : ℕ × ℕ} (hk : Serves K s b k) (hstage : s.stage k = .reserve) {g : Grant}
      (hg : s.job k = .granted g) : Trans K s { s with
        total := update s.total k.1 (s.total k.1 + K.hist k)
        stage := update s.stage k (.done (s.total k.1)) }
  | flush {b : ℕ} {order : List ℕ} {router : List Tuple} (hb : b < K.gridDim)
      (hi : s.block b < K.bucketsNum)
      (hdone : ∀ j < K.parts, 0 < K.hist (s.block b, j) → (s.stage (s.block b, j)).isDone = true)
      (horder : order.Perm (List.range (K.cnt (s.block b))))
      (hrouter : shuffle K s (s.block b) order = some router) : Trans K s { s with
        out := writeAll (writes K s (s.block b) router) s.out
        block := update s.block b (s.block b + K.gridDim) }

variable {K : Launch} {s s' : State}

section

variable {b : ℕ}

theorem trans_of_jobStep (hk : Serves K s b k) (h : jobStep K s k = some s') : Trans K s s' := by
  rw [jobStep] at h
  cases hstage : s.stage k <;> rw [hstage] at h
  case count =>
    cases h
    exact .count hk hstage
  case done => cases h
  case reserve =>
    cases hx : s.job k <;> rw [hx] at h
    case granted g =>
      cases h
      exact .reserve hk hstage hx
    -- all states of the job but the last one are moves of the protocol
    all_goals
      obtain ⟨a, ha, rfl⟩ := Option.map_eq_some_iff.1 h
      exact .move hk hstage ha

theorem trans_of_step {a : Act} (h : step K s a = some s') : Trans K s s' := by
  cases a with
  | job b j =>
    obtain ⟨⟨hb, hi, hj, hpos⟩, h⟩ := Option.ite_none_right_eq_some.1 h
    exact trans_of_jobStep ⟨hb, rfl, hi, hj, hpos⟩ h
  | flush b order =>
    obtain ⟨⟨hb, hi, hdone, horder⟩, h⟩ := Option.ite_none_right_eq_some.1 h
    obtain ⟨router, hrouter, rfl⟩ := Option.map_eq_some_iff.1 h
    exact .flush hb hi hdone horder hrouter

theorem Serves.mem {hK : K.WellFormed} (hk : Serves K s b k) : k ∈ (demand hK).jobs :=
  mem_jobs.2 ⟨⟨hk.lt, hk.part⟩, hk.pos⟩

end

/-! ## The invariant -/

/-- The tuples of a job. -/
def Launch.tuplesOf (k : ℕ × ℕ) : List Tuple :=
  (K.tuples k.1).filter fun t => K.partition t.key = k.2

/-- What the job has added to the count of its partition. -/
def Stage.counted (cnt : ℕ) : Stage → ℕ
  | .count => 0
  | _ => cnt

/-- The partitions `l` of an input bucket have their places in the router, one behind the other. -/
structure Router (K : Launch) (s : State) (i : ℕ) (l : List ℕ) : Prop where
  tiles : Tiles 0 (l.map fun j => ((s.stage (i, j)).place, K.hist (i, j))) (s.total i)
  nodup : l.Nodup
  mem : ∀ j, j ∈ l ↔ (s.stage (i, j)).isDone = true

/-- The protocol's invariant; the input buckets behind a block are those whose jobs are through;
`out_cnts` counts the jobs that have been counted; and in the slots of what is behind the blocks are
its tuples. -/
structure Inv (K : Launch) (hK : K.WellFormed) (chains₀ : ℕ → ℕ) (s : State) : Prop where
  heads : ∃ L, BucketHeads.Inv (demand hK) chains₀ s.toState L
  mod : ∀ b < K.gridDim, s.block b % K.gridDim = b
  active : ∀ k, s.stage k ≠ .count →
    k ∈ (demand hK).jobs ∧ k.1 ≤ s.block (k.1 % K.gridDim)
  count : ∀ k, s.stage k = .count → s.job k = .add
  granted : ∀ k, (s.stage k).isDone = true → ∃ g, s.job k = .granted g
  past : ∀ k ∈ (demand hK).jobs, k.1 < s.block (k.1 % K.gridDim) → (s.stage k).isDone = true
  outCnts : ∀ p < K.allParts,
    s.outCnts p = ∑ k ∈ (demand hK).of p, (s.stage k).counted (K.hist k)
  router : ∀ i, ∃ l, Router K s i l
  contents : ∀ k ∈ (demand hK).jobs, k.1 < s.block (k.1 % K.gridDim) → ∀ g,
    s.job k = .granted g →
    ((List.range (K.hist k)).map fun r => s.out (g.slot (r + 1))).Perm (K.tuplesOf k)

variable {hK : K.WellFormed} {chains₀ : ℕ → ℕ} {b i : ℕ} {g : Grant}

section

variable {l : List ℕ}

theorem Inv.block_eq (inv : Inv K hK chains₀ s) (hk : Serves K s b k) :
    s.block (k.1 % K.gridDim) = k.1 := by
  rw [← hk.block, inv.mod b hk.grid]

/-- The router of an input bucket is as before if its jobs are. -/
theorem Router.congr (h : Router K s i l) (hdone : ∀ j, (s'.stage (i, j)).isDone = (s.stage (i, j)).isDone)
    (hplace : ∀ j, (s'.stage (i, j)).place = (s.stage (i, j)).place) (htotal : s'.total i = s.total i) :
    Router K s' i l := by
  refine ⟨?_, h.nodup, fun j => by rw [hdone, h.mem]⟩
  simp only [hplace, htotal]
  exact h.tiles

/-- A job goes on to another stage. The block is at its input bucket, so nothing is written yet. -/
theorem Inv.restage (inv : Inv K hK chains₀ s) (hk : Serves K s b k) {x : Stage} (hx : x ≠ .count)
    (hgranted : x.isDone = true → ∃ g, s.job k = .granted g) {outCnts total : ℕ → ℕ}
    (hcnts : ∀ p < K.allParts,
      outCnts p = ∑ k' ∈ (demand hK).of p, (update s.stage k x k').counted (K.hist k'))
    (hrouter : ∀ i, ∃ l,
      Router K { s with outCnts := outCnts, total := total, stage := update s.stage k x } i l) :
    Inv K hK chains₀ { s with outCnts := outCnts, total := total, stage := update s.stage k x } := by
  have hat := inv.block_eq hk
  refine { inv with
    active := ?_, count := ?_, granted := ?_, past := ?_, outCnts := hcnts, router := hrouter }
  · intro k' (hk' : update s.stage k x k' ≠ .count)
    obtain rfl | hne := eq_or_ne k' k
    · exact ⟨hk.mem, hat.ge⟩
    · exact inv.active k' (by rwa [update_of_ne hne] at hk')
  · intro k' hk'
    rcases update_cases hk' with ⟨-, hk'⟩ | ⟨-, hk'⟩
    · exact absurd hk' hx
    · exact inv.count k' hk'
  · intro k' (hk' : (update s.stage k x k').isDone = true)
    obtain rfl | hne := eq_or_ne k' k
    · exact hgranted (by rwa [update_self] at hk')
    · exact inv.granted k' (by rwa [update_of_ne hne] at hk')
  · intro k' hmem hlt
    have hne : k' ≠ k := by
      rintro rfl
      exact absurd hat hlt.ne'
    show (update s.stage k x k').isDone = true
    rw [update_of_ne hne]
    exact inv.past k' hmem hlt

theorem inv_count (hsmall : ∀ p, (demand hK).total p ≤ 2 ^ 31) (inv : Inv K hK chains₀ s)
    (hk : Serves K s b k) (hstage : s.stage k = .count) : Inv K hK chains₀ { s with
      outCnts := update s.outCnts (K.index k) ((s.outCnts (K.index k) + K.hist k) % 2 ^ 32)
      stage := update s.stage k .reserve } := by
  refine inv.restage hk (x := .reserve) nofun nofun ?_ ?_
  · intro p hp
    have hcounts := inv.outCnts p hp
    by_cases hpk : p = K.index k
    · subst hpk
      have hof : k ∈ (demand hK).of (K.index k) := Demand.mem_of.2 ⟨hk.mem, rfl⟩
      have hsum := sum_update_add hof s.stage .reserve fun k' (x : Stage) => x.counted (K.hist k')
      have hzero : (s.stage k).counted (K.hist k) = 0 := by rw [hstage]; rfl
      have hone : Stage.reserve.counted (K.hist k) = K.hist k := rfl
      have hle : ∑ k' ∈ (demand hK).of (K.index k),
          (update s.stage k .reserve k').counted (K.hist k') ≤
          (demand hK).total (K.index k) := by
        refine Finset.sum_le_sum fun k' _ => ?_
        cases update s.stage k .reserve k' <;> simp [Stage.counted, demand]
      have := hsmall (K.index k)
      rw [update_self]
      omega
    · rw [update_of_ne hpk, hcounts]
      refine Finset.sum_congr rfl fun k' hk' => ?_
      have hne : k' ≠ k := fun h => hpk (h ▸ (Demand.mem_of.1 hk').2.symm)
      rw [update_of_ne hne]
  · intro i
    -- neither before nor after the move has the job its places in the router
    have hsame : ∀ {α : Type} (f : Stage → α), f .reserve = f .count →
        ∀ j, f (update s.stage k .reserve (i, j)) = f (s.stage (i, j)) := by
      intro α f hf j
      by_cases hne : (i, j) = k
      · rw [hne, update_self, hstage, hf]
      · rw [update_of_ne hne]
    obtain ⟨l, hl⟩ := inv.router i
    exact ⟨l, hl.congr (hsame Stage.isDone rfl) (hsame Stage.place rfl) rfl⟩

theorem inv_reserve (inv : Inv K hK chains₀ s) (hk : Serves K s b k) (hstage : s.stage k = .reserve)
    (hg : s.job k = .granted g) : Inv K hK chains₀ { s with
      total := update s.total k.1 (s.total k.1 + K.hist k)
      stage := update s.stage k (.done (s.total k.1)) } := by
  refine inv.restage hk (x := .done _) nofun (fun _ => ⟨g, hg⟩) ?_ ?_
  · intro p hp
    rw [inv.outCnts p hp]
    refine (sum_update_eq ?_).symm
    rw [hstage]
    rfl
  · intro i
    obtain ⟨l, hl⟩ := inv.router i
    have hother : ∀ j, (i, j) ≠ k →
        update s.stage k (.done (s.total k.1)) (i, j) = s.stage (i, j) :=
      fun j hne => update_of_ne hne _ _
    by_cases hi : i = k.1
    · -- the partition gets the places behind those that are taken
      subst hi
      have hself : update s.stage k (.done (s.total k.1)) (k.1, k.2) = .done (s.total k.1) :=
        update_self ..
      have hnew : k.2 ∉ l := by
        rw [hl.mem, hstage]
        exact nofun
      have hne : ∀ j, j ≠ k.2 → (k.1, j) ≠ k := fun j hj h => hj (congrArg Prod.snd h)
      refine ⟨l ++ [k.2], ?_, ?_, ?_⟩
      · have hmap : l.map (fun j => ((update s.stage k (.done (s.total k.1)) (k.1, j)).place,
            K.hist (k.1, j))) = l.map fun j => ((s.stage (k.1, j)).place, K.hist (k.1, j)) := by
          apply map_congr_left
          intro j hj
          rw [hother j (hne j fun h => hnew (h ▸ hj))]
        show Tiles 0 ((l ++ [k.2]).map fun j => ((update s.stage k _ (k.1, j)).place, _))
          (update s.total k.1 _ k.1)
        rw [update_self, map_append, hmap, map_singleton, hself]
        exact hl.tiles.append (.single _ _)
      · exact hl.nodup.append (nodup_singleton _) (disjoint_singleton.2 hnew)
      · intro j
        show _ ↔ (update s.stage k _ (k.1, j)).isDone = true
        rw [mem_append, mem_singleton]
        by_cases hj : j = k.2
        · subst hj
          rw [hself]
          exact iff_of_true (.inr rfl) rfl
        · rw [hother j (hne j hj), ← hl.mem]
          exact or_iff_left hj
    · have hne : ∀ j, (i, j) ≠ k := fun j h => hi (congrArg Prod.fst h)
      refine ⟨l, hl.congr (fun j => ?_) (fun j => ?_) (update_of_ne hi _ _)⟩
      · exact congrArg Stage.isDone (hother j (hne j))
      · exact congrArg Stage.place (hother j (hne j))

theorem inv_move (hsmall : ∀ p, (demand hK).total p ≤ 2 ^ 31) (inv : Inv K hK chains₀ s)
    (hk : Serves K s b k) (hstage : s.stage k = .reserve) {a : BucketHeads.State (ℕ × ℕ)}
    (ha : BucketHeads.step K.hist K.index s.toState k = some a) (hroom : a.bucketsUsed ≤ 2 ^ 18) :
    Inv K hK chains₀ { s with toState := a } := by
  obtain ⟨L, hL⟩ := inv.heads
  obtain ⟨x, hx⟩ := BucketHeads.step_job ha
  have hother : ∀ k', s.stage k' ≠ .reserve → a.job k' = s.job k' := by
    intro k' hk'
    have hne : k' ≠ k := fun h => hk' (h ▸ hstage)
    rw [hx, update_of_ne hne]
  have hdone : ∀ {k'}, (s.stage k').isDone = true → a.job k' = s.job k' := fun {k'} hk' =>
    hother k' fun h => by rw [h] at hk'; cases hk'
  refine { inv with
    heads := BucketHeads.step_inv hsmall hL hk.mem ha hroom, count := ?_, granted := ?_, router := ?_,
    contents := ?_ }
  · intro k' hk'
    exact (hother k' (by rw [hk']; nofun)).trans (inv.count k' hk')
  · intro k' hk'
    exact (inv.granted k' hk').imp fun g hg => (hdone hk').trans hg
  · exact fun i => (inv.router i).imp fun _ hl => { hl with }
  · intro k' hmem hlt g hg
    exact inv.contents k' hmem hlt g ((hdone (inv.past k' hmem hlt)).symm.trans hg)

end

/-! ## Writing out -/

section

variable {α : Type*} {ws : List (ℕ × α)} {w : ℕ × α} {out : ℕ → α} {a : ℕ}

theorem writeAll_of_forall_ne (h : ∀ w ∈ ws, w.1 ≠ a) : writeAll ws out a = out a := by
  induction ws generalizing out with
  | nil => rfl
  | cons v ws ih =>
    exact (ih fun w hw => h w (mem_cons_of_mem _ hw)).trans
      (update_of_ne (h v mem_cons_self).symm _ _)

/-- Writes to different addresses are all there in the end. -/
theorem writeAll_of_mem (h : ∀ v ∈ ws, ∀ w ∈ ws, v.1 = w.1 → v = w) (hw : w ∈ ws) :
    writeAll ws out w.1 = w.2 := by
  induction ws generalizing out with
  | nil => cases hw
  | cons v ws ih =>
    rw [writeAll, foldl_cons]
    by_cases hmem : w ∈ ws
    · exact ih (fun v hv w hw => h v (mem_cons_of_mem _ hv) w (mem_cons_of_mem _ hw)) hmem
    · obtain rfl : w = v := (mem_cons.1 hw).resolve_right hmem
      refine (writeAll_of_forall_ne fun v hv heq => hmem ?_).trans (update_self ..)
      rwa [← h v (mem_cons_of_mem _ hv) w hw heq]

end

open CountingSort

section

variable {s : State} {l order : List ℕ} {router : List Tuple}

theorem sum_hist (i : ℕ) : ∑ j ∈ Finset.range K.parts, K.hist (i, j) = K.cnt i := by
  have hrange : Finset.range K.parts = (range K.parts).toFinset := by
    ext j
    rw [Finset.mem_range, mem_toFinset, mem_range]
  rw [hrange, sum_toFinset _ nodup_range, ← length_tuples i]
  have hall := classes_perm (fun t : Tuple => K.partition t.key)
    fun t (_ : t ∈ K.tuples i) => partition_lt t.key
  rw [← hall.length_eq, ← sum_counts]
  rfl

theorem Router.lt (inv : Inv K hK chains₀ s) (hl : Router K s i l) {j : ℕ} (hj : j ∈ l) :
    j < K.parts ∧ 0 < K.hist (i, j) := by
  have hstage : s.stage (i, j) ≠ .count := by
    intro h
    have hdone := (hl.mem j).1 hj
    rw [h] at hdone
    cases hdone
  obtain ⟨⟨-, hlt⟩, hpos⟩ := mem_jobs.1 (inv.active _ hstage).1
  exact ⟨hlt, hpos⟩

theorem Router.total_le (inv : Inv K hK chains₀ s) (hl : Router K s i l) : s.total i ≤ K.cnt i := by
  have hsum := hl.tiles.add_sum
  rw [map_map, zero_add] at hsum
  rw [← hsum, ← sum_hist, ← sum_toFinset _ hl.nodup]
  refine Finset.sum_le_sum_of_subset fun j hj => ?_
  exact Finset.mem_range.2 (hl.lt inv (mem_toFinset.1 hj)).1

/-- The tuples of an input bucket in the order in which they get their places in the router. -/
def Launch.ordered (i : ℕ) (order : List ℕ) (j : ℕ) : List Tuple :=
  (order.map fun k => K.input (4096 * i + k)).filter fun t => K.partition t.key = j

theorem ordered_perm (horder : order.Perm (List.range (K.cnt i))) (j : ℕ) :
    (K.ordered i order j).Perm (K.tuplesOf (i, j)) := (horder.map _).filter _

theorem length_ordered (horder : order.Perm (List.range (K.cnt i))) (j : ℕ) :
    (K.ordered i order j).length = K.hist (i, j) := by
  rw [(ordered_perm horder j).length_eq, hist, countP_eq_length_filter]
  rfl

/-- The shuffle has room, and leaves the tuples of a partition at its places. -/
theorem shuffle_spec (inv : Inv K hK chains₀ s) (hl : Router K s i l) (hi : i < K.bucketsNum)
    (hdone : ∀ j < K.parts, 0 < K.hist (i, j) → (s.stage (i, j)).isDone = true)
    (horder : order.Perm (List.range (K.cnt i))) :
    ∃ router, shuffle K s i order = some router ∧ ∀ j < K.parts, ∀ m < K.hist (i, j),
      router[(s.stage (i, j)).place + m]? = (K.ordered i order j)[m]? := by
  have hcount : ∀ j, ((order.map fun k => K.input (4096 * i + k)).countP
      fun t => K.partition t.key = j) = K.hist (i, j) := by
    intro j
    rw [countP_eq_length_filter]
    exact length_ordered horder j
  have htotal := hl.total_le inv
  have hcnt := hK.cnt_le i hi
  obtain ⟨router, hrouter, -, hplaces, -⟩ := scatter_spec
    (g := fun j => (s.stage (i, j)).place)
    (replicate 4096 (⟨0, 0⟩ : Tuple)) (fun t _ => partition_lt t.key)
    (by
      intro j hj hpos
      rw [hcount] at hpos ⊢
      rw [length_replicate]
      have hmem := (hl.mem j).2 (hdone j hj hpos)
      have := (hl.tiles.within (mem_map_of_mem hmem)).2
      omega)
    (by
      intro j hj j' hj' hne hpos hpos'
      rw [hcount] at hpos hpos'
      rw [hcount, hcount]
      exact hl.tiles.apart ((hl.mem j).2 (hdone j hj hpos)) ((hl.mem j').2 (hdone j' hj' hpos')) hne)
  refine ⟨router, hrouter, fun j hj m hm => hplaces j hj m ?_⟩
  exact lt_of_lt_of_eq hm (length_ordered horder j).symm

/-- What is written: the tuples of each partition, to the slots of its job. -/
theorem mem_writes (inv : Inv K hK chains₀ s) (hl : Router K s i l)
    (hdone : ∀ j < K.parts, 0 < K.hist (i, j) → (s.stage (i, j)).isDone = true)
    (hrouter : ∀ j < K.parts, ∀ m < K.hist (i, j),
      router[(s.stage (i, j)).place + m]? = (K.ordered i order j)[m]?) {w : ℕ × Tuple} :
    w ∈ writes K s i router ↔ ∃ j < K.parts, ∃ m < K.hist (i, j),
      (K.ordered i order j)[m]? = some w.2 ∧
      w.1 = (grant s (i, j)).slot (K.hist (i, j) - 1 - m + 1) := by
  have hpart : ∀ (j m : ℕ) (t : Tuple), (K.ordered i order j)[m]? = some t → K.partition t.key = j := by
    intro j m t ht
    simpa using (mem_filter.1 (mem_of_getElem? ht)).2
  rw [writes, mem_filterMap]
  constructor
  · rintro ⟨x, hx, hw⟩
    obtain ⟨p, hp, hle, hlt⟩ := hl.tiles.covers (zero_le x) (mem_range.1 hx)
    obtain ⟨j, hj, rfl⟩ := mem_map.1 hp
    obtain ⟨hjlt, -⟩ := hl.lt inv hj
    obtain ⟨t, ht, rfl⟩ := Option.map_eq_some_iff.1 hw
    have hm : x - (s.stage (i, j)).place < K.hist (i, j) := by omega
    have hx' : (s.stage (i, j)).place + (x - (s.stage (i, j)).place) = x := by omega
    have hget := hrouter j hjlt _ hm
    rw [hx', ht] at hget
    refine ⟨j, hjlt, _, hm, hget.symm, ?_⟩
    rw [slotOf, hpart j _ t hget.symm]
    exact congrArg (Grant.slot _) (by omega)
  · rintro ⟨j, hj, m, hm, hget, hslot⟩
    have hmem := (hl.mem j).2 (hdone j hj (by omega))
    have hin := (hl.tiles.within (mem_map_of_mem hmem)).2
    refine ⟨(s.stage (i, j)).place + m, mem_range.2 (by simp only at hin; omega), ?_⟩
    rw [hrouter j hj m hm, hget, Option.map_some, slotOf, hpart j m _ hget]
    refine congrArg some (Prod.ext ?_ rfl)
    rw [hslot]
    exact congrArg (Grant.slot _) (by omega)

theorem grant_of_job (h : s.job k = .granted g) : grant s k = g := by
  rw [grant, h]

/-- The jobs of an input bucket all of whose partitions are reserved have their slots. -/
theorem Inv.job_grant (inv : Inv K hK chains₀ s) (h : (s.stage k).isDone = true) :
    s.job k = .granted (grant s k) := by
  obtain ⟨g, hg⟩ := inv.granted k h
  rw [grant_of_job hg, hg]

theorem inv_flush (inv : Inv K hK chains₀ s) (hb : b < K.gridDim) (hi : s.block b < K.bucketsNum)
    (hdone : ∀ j < K.parts, 0 < K.hist (s.block b, j) → (s.stage (s.block b, j)).isDone = true)
    (horder : order.Perm (List.range (K.cnt (s.block b))))
    (hrouter : shuffle K s (s.block b) order = some router) : Inv K hK chains₀ { s with
      out := writeAll (writes K s (s.block b) router) s.out
      block := update s.block b (s.block b + K.gridDim) } := by
  obtain ⟨L, hL⟩ := inv.heads
  obtain ⟨l, hl⟩ := inv.router (s.block b)
  obtain ⟨router', hr, hplaces⟩ := shuffle_spec inv hl hi hdone horder
  obtain rfl : router' = router := Option.some.inj (hr.symm.trans hrouter)
  have hw {w : ℕ × Tuple} := mem_writes (w := w) inv hl hdone hplaces
  have hmod := inv.mod b hb
  have hjob : ∀ j < K.parts, 0 < K.hist (s.block b, j) →
      (s.block b, j) ∈ (demand hK).jobs ∧
        s.job (s.block b, j) = .granted (grant s (s.block b, j)) :=
    fun j hj hpos => ⟨mem_jobs.2 ⟨⟨hi, hj⟩, hpos⟩, inv.job_grant (hdone j hj hpos)⟩
  -- all slots that are written are different
  have hinj : ∀ v ∈ writes K s (s.block b) router', ∀ w ∈ writes K s (s.block b) router',
      v.1 = w.1 → v = w := by
    intro v hv w hw' heq
    obtain ⟨j, hj, m, hm, hget, hslot⟩ := hw.1 hv
    obtain ⟨j', hj', m', hm', hget', hslot'⟩ := hw.1 hw'
    obtain ⟨hmem, hg⟩ := hjob j hj (by omega)
    obtain ⟨hmem', hg'⟩ := hjob j' hj' (by omega)
    have hlt : K.hist (s.block b, j) - 1 - m < K.hist (s.block b, j) := by omega
    have hlt' : K.hist (s.block b, j') - 1 - m' < K.hist (s.block b, j') := by omega
    obtain ⟨hk, hr⟩ := hL.slot_inj hmem hmem' hg hg' hlt hlt' (by rw [← hslot, ← hslot', heq])
    obtain rfl : j = j' := congrArg Prod.snd hk
    obtain rfl : m = m' := by omega
    exact Prod.ext heq (Option.some.inj (hget.symm.trans hget'))
  have hblock : ∀ c, c ≠ b → update s.block b (s.block b + K.gridDim) c = s.block c :=
    fun c hc => update_of_ne hc _ _
  have hself : update s.block b (s.block b + K.gridDim) b = s.block b + K.gridDim :=
    update_self ..
  -- what is behind the blocks now: what was behind them, and the input bucket of this one
  have hbehind : ∀ c, c < update s.block b (s.block b + K.gridDim) (c % K.gridDim) →
      c < s.block (c % K.gridDim) ∨ c = s.block b := by
    intro c hc
    by_cases hcb : c % K.gridDim = b
    · rw [hcb, hself] at hc
      rw [hcb]
      rcases lt_trichotomy c (s.block b) with hlt | heq | hgt
      · exact .inl hlt
      · exact .inr heq
      · have hdiff := sub_mod_eq_zero_of_mod_eq (hcb.trans hmod.symm)
        rw [mod_eq_of_lt (by omega)] at hdiff
        omega
    · exact .inl (hblock _ hcb ▸ hc)
  refine { inv with mod := ?_, active := ?_, past := ?_, router := ?_, contents := ?_ }
  · intro c hc
    show update s.block b _ c % K.gridDim = c
    by_cases hcb : c = b
    · rw [hcb, hself, add_mod_right, hmod]
    · rw [hblock c hcb]
      exact inv.mod c hc
  · intro k hk
    obtain ⟨hmem, hle⟩ := inv.active k hk
    refine ⟨hmem, ?_⟩
    show k.1 ≤ update s.block b _ (k.1 % K.gridDim)
    by_cases hcb : k.1 % K.gridDim = b
    · rw [hcb] at hle ⊢
      omega
    · rwa [hblock _ hcb]
  · intro k hmem hlt
    rcases hbehind _ hlt with hold | hnew
    · exact inv.past k hmem hold
    · obtain ⟨⟨-, hj⟩, hpos⟩ := mem_jobs.1 hmem
      have := hdone k.2 hj (by rwa [← hnew])
      rwa [← hnew] at this
  · exact fun i => (inv.router i).imp fun _ hl => { hl with }
  · intro k hmem hlt g hg
    by_cases hnew : k.1 = s.block b
    · -- the slots of the job, read in order, have the tuples in the reverse of their places
      obtain ⟨⟨-, hj⟩, hpos⟩ := mem_jobs.1 hmem
      have hk : k = (s.block b, k.2) := Prod.ext hnew rfl
      have hread : ((range (K.hist k)).map fun r =>
          writeAll (writes K s (s.block b) router') s.out (g.slot (r + 1))) =
          (K.ordered (s.block b) order k.2).reverse := by
        have hlen := length_ordered (K := K) horder k.2
        rw [← hk] at hlen
        apply ext_getElem?
        intro r
        by_cases hr : r < K.hist k
        · have hm : K.hist k - 1 - r < (K.ordered (s.block b) order k.2).length := by omega
          rw [getElem?_map_range _ hr, getElem?_reverse (by omega), hlen, getElem?_eq_getElem hm]
          refine congrArg some (writeAll_of_mem (w := (g.slot (r + 1), _)) hinj (hw.2 ?_))
          refine ⟨k.2, hj, K.hist k - 1 - r, by rw [← hk]; omega, getElem?_eq_getElem hm, ?_⟩
          rw [← hk, show grant s k = g from grant_of_job hg]
          exact congrArg (Grant.slot _) (by omega)
        · rw [getElem?_eq_none (by simpa using hr), getElem?_eq_none (by simp; omega)]
      rw [hread, hk]
      exact (reverse_perm _).trans (ordered_perm horder k.2)
    · have hold := (hbehind _ hlt).resolve_right hnew
      refine (List.Perm.of_eq (map_congr_left fun r hr => ?_)).trans (inv.contents k hmem hold g hg)
      apply writeAll_of_forall_ne
      intro w hw' heq
      obtain ⟨j, hj, m, hm, -, hslot⟩ := hw.1 hw'
      obtain ⟨hmem', hg'⟩ := hjob j hj (by omega)
      have hlt' : K.hist (s.block b, j) - 1 - m < K.hist (s.block b, j) := by omega
      obtain ⟨hk, -⟩ := hL.slot_inj hmem' hmem hg' hg hlt' (mem_range.1 hr) (by rw [← hslot, heq])
      exact hnew (congrArg Prod.fst hk).symm

end

end Proteus.BuildPartitions
