import Mathlib.Algebra.GroupWithZero.Nat
import Mathlib.Algebra.Order.BigOperators.Group.List
import Mathlib.Algebra.Order.Group.Nat
import Mathlib.Data.List.Nodup
import Mathlib.Order.CompletePartialOrder
import Mathlib.Order.Interval.Set.Disjoint

/-!
# The scan of a partitioned table in blocks

`BinaryBlockPlugin::scan` generates a loop over the partitions of a table. Each round visits
the partitions in turn and takes the next block of each; partitions that are finished are
skipped until the longest one is. A block is passed on with its number of tuples and with the
id of its first tuple, which `nextEntry` computes from the counters of the loop.

The loop is followed by the number `t` of the iteration: the partition is `t` modulo the
number of partitions, the round is the quotient, and the id is `t` times the size of a block.
-/

namespace Proteus.BlockScan

/-- A column: the size of a value, and where its partitions lie. -/
structure Column where
  size : ℕ
  parts : List ℕ
  size_pos : 0 < size

/-- What the code is generated for: the columns, the tuples of each partition, and the size of
a block of the block manager in bytes. Sizes are of type `size_t`, and the last one is four
times a `uint32_t`. -/
structure Table where
  wantedFields : List Column
  tuples : List ℕ
  block_size : ℕ
  fields_pos : wantedFields ≠ [] := by decide
  parts_pos : tuples ≠ [] := by decide
  nparts_lt : tuples.length < 2 ^ 64 := by decide
  total_lt : tuples.sum < 2 ^ 63 := by decide
  block_size_lt : block_size < 2 ^ 34 := by decide

/-- The counters of the loop, in 64 bits. -/
structure Counters where
  part_i : ℕ
  block_i : ℕ
  itemCtr : ℕ

/-- What is passed on: the pointers into the columns, the id of the first tuple and the number
of tuples. Where the block was taken from is noted for the statements. -/
structure Block where
  ptrs : List ℕ
  itemCtr : ℕ
  activeCnt : ℕ
  part : ℕ
  start : ℕ

namespace Table

variable (T : Table)

def Nparts : ℕ := T.tuples.length

/-- The size of the largest partition, from `getPartitionSizes`. -/
def maxPackCnt : ℕ := T.tuples.foldl (fun m v => if v < m then m else v) 0

def max_field_size : ℕ := T.wantedFields.foldl (fun m f => max f.size m) 0

def blockSize : ℕ := T.block_size / T.max_field_size

def init : Counters := ⟨0, 0, 0⟩

def nextEntry (l : Counters) : Counters :=
  let l' := if l.part_i < T.Nparts - 1 then
      { l with part_i := (l.part_i + 1) % 2 ^ 64 }
    else
      { l with part_i := 0, block_i := (l.block_i + T.blockSize) % 2 ^ 64 }
  { l' with
    itemCtr := (l'.block_i * T.Nparts % 2 ^ 64 + l'.part_i * T.blockSize % 2 ^ 64) % 2 ^ 64 }

/-- The body of the loop for a partition of `partTupleCnt` tuples. -/
def body (l : Counters) (partTupleCnt : ℕ) : List Block :=
  if l.block_i < partTupleCnt then
    [{ ptrs := T.wantedFields.map fun f => f.parts.getD l.part_i 0 + l.block_i * f.size
       itemCtr := l.itemCtr
       activeCnt := if T.blockSize < partTupleCnt - l.block_i then T.blockSize
         else partTupleCnt - l.block_i
       part := l.part_i
       start := l.block_i }]
  else []

/-- The loop, for a number of iterations; the partition is read before its block. -/
def loop : ℕ → Counters → Option (List Block)
  | 0, _ => none
  | fuel + 1, l =>
    if l.block_i < T.maxPackCnt then do
      let partTupleCnt ← T.tuples[l.part_i]?
      let rest ← loop fuel (T.nextEntry l)
      return T.body l partTupleCnt ++ rest
    else some []

def scan (fuel : ℕ) : Option (List Block) := T.loop fuel init

end Table

/-- The tuples of a block, by partition and offset. -/
def Block.tuples (b : Block) : List (ℕ × ℕ) :=
  (List.range b.activeCnt).map fun i => (b.part, b.start + i)

/-- The ids of the tuples of a block. -/
def Block.ids (b : Block) : Set ℕ := Set.Ico b.itemCtr (b.itemCtr + b.activeCnt)

/-! ## Sizes -/

namespace Table

variable {T : Table}

theorem maxPackCnt_foldl (l : List ℕ) (m : ℕ) : (m ≤ l.foldl (fun m v => if v < m then m else v) m ∧
      ∀ v ∈ l, v ≤ l.foldl (fun m v => if v < m then m else v) m) ∧
    (l.foldl (fun m v => if v < m then m else v) m = m ∨
      l.foldl (fun m v => if v < m then m else v) m ∈ l) := by
  have hmax : (fun m v : ℕ => if v < m then m else v) = max := by
    funext m v
    split_ifs <;> omega
  have hfold : (m :: l).max? = some (l.foldl max m) := List.max?_cons'
  obtain ⟨hmem, hle⟩ := List.max?_eq_some_iff.1 hfold
  rw [hmax]
  exact ⟨List.forall_mem_cons.1 hle, List.mem_cons.1 hmem⟩

theorem le_maxPackCnt {p v : ℕ} (h : T.tuples[p]? = some v) : v ≤ T.maxPackCnt :=
  (maxPackCnt_foldl T.tuples 0).1.2 v (List.mem_of_getElem? h)

theorem maxPackCnt_lt (T : Table) : T.maxPackCnt < 2 ^ 63 := by
  have ht := T.total_lt
  unfold maxPackCnt
  rcases (maxPackCnt_foldl T.tuples 0).2 with h | h
  · rw [h]
    decide
  · have := List.le_sum_of_mem h
    omega

theorem max_field_size_foldl (l : List Column) (m : ℕ) : m ≤ l.foldl (fun m f => max f.size m) m ∧
      ∀ f ∈ l, f.size ≤ l.foldl (fun m f => max f.size m) m := by
  induction l generalizing m with
  | nil => simp
  | cons f l ih =>
    obtain ⟨hm, hl⟩ := ih (max f.size m)
    rw [List.foldl_cons]
    refine ⟨by omega, ?_⟩
    intro g hg
    rcases List.mem_cons.1 hg with rfl | hg
    · omega
    · exact hl g hg

theorem le_max_field_size {f : Column} (h : f ∈ T.wantedFields) : f.size ≤ T.max_field_size :=
  (max_field_size_foldl T.wantedFields 0).2 f h

theorem max_field_size_pos (T : Table) : 0 < T.max_field_size := by
  obtain ⟨f, hf⟩ := List.exists_mem_of_ne_nil _ T.fields_pos
  have := le_max_field_size hf
  have := f.size_pos
  omega

theorem blockSize_lt (T : Table) : T.blockSize < 2 ^ 34 :=
  (Nat.div_le_self _ _).trans_lt T.block_size_lt

theorem blockSize_pos (h : T.max_field_size ≤ T.block_size) : 0 < T.blockSize :=
  Nat.div_pos h T.max_field_size_pos

theorem Nparts_pos (T : Table) : 0 < T.Nparts := List.length_pos_iff.2 T.parts_pos

/-! ## The counters of an iteration -/

/-- The counters before iteration `t`. -/
def counters (T : Table) (t : ℕ) : Counters where
  part_i := t % T.Nparts
  block_i := t / T.Nparts * T.blockSize
  itemCtr := t * T.blockSize % 2 ^ 64

theorem counters_zero : T.counters 0 = init := by
  simp [counters, init]

/-- What iteration `t` passes on. -/
def blocks (T : Table) (t : ℕ) : List Block :=
  T.body (T.counters t) (T.tuples.getD (t % T.Nparts) 0)

theorem itemCtr_eq (T : Table) (t : ℕ) :
    (t / T.Nparts * T.blockSize * T.Nparts % 2 ^ 64 + t % T.Nparts * T.blockSize % 2 ^ 64) % 2 ^ 64
      = t * T.blockSize % 2 ^ 64 := by
  rw [← Nat.add_mod]
  congr 1
  calc t / T.Nparts * T.blockSize * T.Nparts + t % T.Nparts * T.blockSize
      = (t / T.Nparts * T.Nparts + t % T.Nparts) * T.blockSize := by
        rw [Nat.add_mul, Nat.mul_right_comm]
    _ = t * T.blockSize := by rw [Nat.div_add_mod']

/-- The first iteration after the last round. -/
def stop (T : Table) : ℕ := (T.maxPackCnt + T.blockSize - 1) / T.blockSize * T.Nparts

section

variable (h : T.max_field_size ≤ T.block_size) {t : ℕ}
include h

theorem block_i_lt_iff : t / T.Nparts * T.blockSize < T.maxPackCnt ↔ t < T.stop := by
  have hb := blockSize_pos h
  rw [stop, ← Nat.div_lt_iff_lt_mul T.Nparts_pos, Nat.lt_iff_add_one_le,
    Nat.lt_iff_add_one_le, Nat.le_div_iff_mul_le hb, Nat.add_mul]
  omega

theorem nextEntry_counters (ht : t < T.stop) : T.nextEntry (T.counters t) = T.counters (t + 1) := by
  have hN := T.Nparts_pos
  have hlt : T.Nparts < 2 ^ 64 := T.nparts_lt
  have hmod := Nat.mod_lt t hN
  have hb := (block_i_lt_iff h).2 ht
  have hm := T.maxPackCnt_lt
  have hs := T.blockSize_lt
  have hdm := Nat.mod_add_div t T.Nparts
  by_cases hr : t % T.Nparts < T.Nparts - 1
  · -- the next partition of the same round
    obtain ⟨hq, hp⟩ : (t + 1) / T.Nparts = t / T.Nparts ∧ (t + 1) % T.Nparts = t % T.Nparts + 1 := by
      rw [Nat.div_mod_unique hN]
      omega
    have hw : (t % T.Nparts + 1) % 2 ^ 64 = t % T.Nparts + 1 := Nat.mod_eq_of_lt (by omega)
    have hid := T.itemCtr_eq (t + 1)
    rw [hq, hp] at hid
    simp only [nextEntry, counters, hr, if_true, hw, hq, hp, hid]
  · -- the first partition of the next round
    obtain ⟨hq, hp⟩ : (t + 1) / T.Nparts = t / T.Nparts + 1 ∧ (t + 1) % T.Nparts = 0 := by
      rw [Nat.div_mod_unique hN, Nat.mul_add]
      omega
    have hw : (t / T.Nparts * T.blockSize + T.blockSize) % 2 ^ 64
        = (t / T.Nparts + 1) * T.blockSize := by
      rw [Nat.add_mul, Nat.one_mul]
      exact Nat.mod_eq_of_lt (by omega)
    have hid := T.itemCtr_eq (t + 1)
    rw [hq, hp] at hid
    simp only [nextEntry, counters, hr, if_false, hw, hq, hp, hid]

/-- From iteration `t` on the loop passes on the blocks of the iterations up to `stop`. -/
theorem loop_counters (n : ℕ) (ht : t + n = T.stop) :
    T.loop (n + 1) (T.counters t) = some ((List.range' t n).flatMap T.blocks) := by
  induction n generalizing t with
  | zero =>
    have hstop : ¬ t / T.Nparts * T.blockSize < T.maxPackCnt := by
      rw [block_i_lt_iff h]
      omega
    simp only [loop, counters, hstop, if_false, List.range'_zero, List.flatMap_nil]
  | succ n ih =>
    have hlt : t < T.stop := by omega
    have hgo : (T.counters t).block_i < T.maxPackCnt := (block_i_lt_iff h).2 hlt
    have hread : T.tuples[(T.counters t).part_i]? = some (T.tuples.getD (t % T.Nparts) 0) := by
      show T.tuples[t % T.Nparts]? = _
      have hr : t % T.Nparts < T.tuples.length := Nat.mod_lt _ T.Nparts_pos
      rw [List.getD_eq_getElem?_getD, List.getElem?_eq_getElem hr, Option.getD_some]
    have hrest := ih (t := t + 1) (by omega)
    rw [← nextEntry_counters h hlt] at hrest
    rw [loop, if_pos hgo, hread, Option.bind_eq_bind, Option.bind_some, hrest]
    rfl

theorem scan_eq : T.scan (T.stop + 1) = some ((List.range T.stop).flatMap T.blocks) := by
  rw [scan, ← counters_zero (T := T), loop_counters h T.stop (by omega), List.range_eq_range']

end

/-- A result of the loop does not depend on the number of iterations that are allowed. -/
theorem loop_unique {n m : ℕ} {l : Counters} {out out' : List Block}
    (h : T.loop n l = some out) (h' : T.loop m l = some out') : out = out' := by
  induction n generalizing m l out out' with
  | zero => cases h
  | succ n ih =>
    cases m with
    | zero => cases h'
    | succ m =>
      rw [loop] at h h'
      split_ifs at h h' with hgo
      · simp only [Option.bind_eq_bind, Option.bind_eq_some_iff] at h h'
        obtain ⟨c, hc, rest, hrest, hout⟩ := h
        obtain ⟨c', hc', rest', hrest', hout'⟩ := h'
        rw [hc] at hc'
        cases hc'
        cases hout
        cases hout'
        rw [ih hrest hrest']
      · cases h
        cases h'
        rfl

/-! ## The blocks of an iteration -/

theorem ite_lt_eq_min (a b : ℕ) : (if a < b then a else b) = min a b := by
  split <;> omega

variable {b : Block} {t : ℕ}

theorem mem_blocks (hb : b ∈ T.blocks t) :
    b.part = t % T.Nparts ∧ b.start = t / T.Nparts * T.blockSize ∧
    b.itemCtr = t * T.blockSize % 2 ^ 64 ∧ b.start < T.tuples.getD b.part 0 ∧
    b.activeCnt = min T.blockSize (T.tuples.getD b.part 0 - b.start) ∧
    b.ptrs = T.wantedFields.map fun f => f.parts.getD b.part 0 + b.start * f.size := by
  unfold blocks body at hb
  by_cases hlt : (T.counters t).block_i < T.tuples.getD (t % T.Nparts) 0
  · rw [if_pos hlt, List.mem_singleton] at hb
    rw [hb]
    exact ⟨rfl, rfl, rfl, hlt, ite_lt_eq_min _ _, rfl⟩
  · rw [if_neg hlt] at hb
    cases hb

theorem mem_tuples {p o : ℕ} :
    (p, o) ∈ b.tuples ↔ b.part = p ∧ b.start ≤ o ∧ o < b.start + b.activeCnt := by
  simp only [Block.tuples, List.mem_map, List.mem_range, Prod.mk.injEq]
  constructor
  · rintro ⟨i, hi, rfl, rfl⟩
    omega
  · rintro ⟨rfl, hle, hlt⟩
    exact ⟨o - b.start, by omega, rfl, by omega⟩

section

variable (h : T.max_field_size ≤ T.block_size)
include h

/-- A tuple is in the block of the iteration of its partition and its round. -/
theorem mem_blocks_tuples {p o : ℕ} : (p, o) ∈ (T.blocks t).flatMap Block.tuples ↔
      p = t % T.Nparts ∧ o / T.blockSize = t / T.Nparts ∧ o < T.tuples.getD p 0 := by
  have hB := blockSize_pos h
  rw [List.mem_flatMap]
  constructor
  · rintro ⟨b, hb, hm⟩
    obtain ⟨hp, hs, -, hlt, ha, -⟩ := mem_blocks hb
    obtain ⟨rfl, hle, hlt'⟩ := mem_tuples.1 hm
    refine ⟨hp, ?_, by omega⟩
    rw [Nat.div_eq_iff hB, ← hs]
    omega
  · rintro ⟨rfl, hd, hlt⟩
    have hle : t / T.Nparts * T.blockSize ≤ o := by
      rw [← hd]
      exact Nat.div_mul_le_self _ _
    have hlt' : o < t / T.Nparts * T.blockSize + T.blockSize := by
      rw [← hd]
      exact Nat.lt_div_mul_add hB
    unfold blocks body
    rw [if_pos (show (T.counters t).block_i < _ from hle.trans_lt hlt)]
    refine ⟨_, List.mem_singleton_self _, mem_tuples.2 ⟨rfl, hle, ?_⟩⟩
    refine lt_of_lt_of_eq ?_ (congrArg _ (ite_lt_eq_min _ _).symm)
    simp only [counters]
    omega

omit h in
/-- There is at most one block in an iteration. -/
theorem blocks_cases (t : ℕ) : T.blocks t = [] ∨ ∃ b, T.blocks t = [b] := by
  unfold blocks body
  by_cases hlt : (T.counters t).block_i < T.tuples.getD (t % T.Nparts) 0
  · rw [if_pos hlt]
    exact .inr ⟨_, rfl⟩
  · rw [if_neg hlt]
    exact .inl rfl

theorem nodup_tuples (n : ℕ) :
    ((List.range n).flatMap fun t => (T.blocks t).flatMap Block.tuples).Nodup := by
  rw [List.nodup_flatMap]
  constructor
  · intro t _
    rcases blocks_cases (T := T) t with hb | ⟨b, hb⟩
    · rw [hb]
      exact List.nodup_nil
    · rw [hb, List.flatMap_singleton]
      exact List.Nodup.map (fun i j hij => by simpa using hij) List.nodup_range
  · apply List.pairwise_lt_range.imp
    intro t u htu
    rw [Function.onFun_apply, List.disjoint_left]
    rintro ⟨p, o⟩ ht hu
    obtain ⟨hp, hd, -⟩ := (mem_blocks_tuples h).1 ht
    obtain ⟨hp', hd', -⟩ := (mem_blocks_tuples h).1 hu
    have heq : t = u := by
      rw [← Nat.div_add_mod t T.Nparts, ← Nat.div_add_mod u T.Nparts, ← hp, ← hp', ← hd, ← hd']
    omega

theorem count_tuples (p o : ℕ) :
    (((List.range T.stop).flatMap T.blocks).flatMap Block.tuples).count (p, o) =
      if o < T.tuples.getD p 0 then 1 else 0 := by
  rw [List.flatMap_assoc]
  split_ifs with hlt
  · apply List.count_eq_one_of_mem (nodup_tuples h _)
    have hp : p < T.Nparts := by
      by_contra hp
      rw [List.getD_eq_getElem?_getD, List.getElem?_eq_none (Nat.le_of_not_lt hp)] at hlt
      exact Nat.not_lt_zero _ hlt
    have hN := T.Nparts_pos
    obtain ⟨hd, hm⟩ : (o / T.blockSize * T.Nparts + p) / T.Nparts = o / T.blockSize ∧
        (o / T.blockSize * T.Nparts + p) % T.Nparts = p := by
      rw [Nat.div_mod_unique hN, Nat.mul_comm]
      omega
    have hmax : T.tuples.getD p 0 ≤ T.maxPackCnt := by
      apply le_maxPackCnt (p := p)
      rw [List.getD_eq_getElem?_getD, List.getElem?_eq_getElem hp, Option.getD_some]
    rw [List.mem_flatMap]
    refine ⟨o / T.blockSize * T.Nparts + p, ?_, (mem_blocks_tuples h).2 ⟨hm.symm, hd.symm, hlt⟩⟩
    rw [List.mem_range, ← block_i_lt_iff h, hd]
    have := Nat.div_mul_le_self o T.blockSize
    omega
  · rw [List.count_eq_zero]
    intro hmem
    obtain ⟨t, -, ht⟩ := List.mem_flatMap.1 hmem
    exact hlt ((mem_blocks_tuples h).1 ht).2.2

omit h in
/-- All columns of a block fit in a block of the block manager. -/
theorem activeCnt_mul_le (hb : b ∈ T.blocks t) {f : Column}
    (hf : f ∈ T.wantedFields) : b.activeCnt * f.size ≤ T.block_size := by
  obtain ⟨-, -, -, -, ha, -⟩ := mem_blocks hb
  calc b.activeCnt * f.size ≤ T.blockSize * T.max_field_size :=
        Nat.mul_le_mul (by omega) (le_max_field_size hf)
    _ ≤ T.block_size := Nat.div_mul_le_self _ _

end

/-! ## Ids -/

/-- The ids of all tuples are below 2^64, computed without a bound. -/
def IdsFit (T : Table) : Prop :=
  ∀ p o, o < T.tuples.getD p 0 →
    (o / T.blockSize * T.Nparts + p) * T.blockSize + o % T.blockSize < 2 ^ 64

section

variable (h : T.max_field_size ≤ T.block_size)
include h

theorem itemCtr_of_fit (hfit : T.IdsFit) (hb : b ∈ T.blocks t) : b.itemCtr = t * T.blockSize := by
  have hB := blockSize_pos h
  obtain ⟨hp, hs, hi, hlt, -, -⟩ := mem_blocks hb
  have hid := hfit b.part b.start hlt
  rw [hp, hs, Nat.mul_div_cancel _ hB, Nat.div_add_mod'] at hid
  rw [hi]
  exact Nat.mod_eq_of_lt (by omega)

theorem pairwise_ids (hfit : T.IdsFit) (n : ℕ) :
    ((List.range n).flatMap T.blocks).Pairwise fun a b => Disjoint a.ids b.ids := by
  rw [List.pairwise_flatMap]
  constructor
  · intro t _
    rcases blocks_cases (T := T) t with hb | ⟨b, hb⟩
    · rw [hb]
      exact .nil
    · rw [hb]
      exact List.pairwise_singleton _ _
  · apply List.pairwise_lt_range.imp
    intro t u htu a ha b hb
    have hia := itemCtr_of_fit h hfit ha
    have hib := itemCtr_of_fit h hfit hb
    obtain ⟨-, -, -, -, hca, -⟩ := mem_blocks ha
    have hle : t * T.blockSize + T.blockSize ≤ u * T.blockSize := by
      rw [← Nat.succ_mul]
      exact Nat.mul_le_mul_right _ htu
    rw [Block.ids, Block.ids, Set.disjoint_left]
    rintro x ⟨-, hxa⟩ ⟨hxb, -⟩
    omega

end

/-- What the scan passes on: every tuple of the table once, in blocks of at most `blockSize`
tuples that fit in a block for every column, and at the places that the pointers name. -/
structure Covered (T : Table) (out : List Block) : Prop where
  once : ∀ p o, (out.flatMap Block.tuples).count (p, o) = if o < T.tuples.getD p 0 then 1 else 0
  sized : ∀ b ∈ out, b.activeCnt ≤ T.block_size / T.max_field_size ∧
    ∀ f ∈ T.wantedFields, b.activeCnt * f.size ≤ T.block_size
  placed : ∀ b ∈ out, b.ptrs = T.wantedFields.map fun f => f.parts.getD b.part 0 + b.start * f.size

theorem covered_blocks (h : T.max_field_size ≤ T.block_size) :
    Covered T ((List.range T.stop).flatMap T.blocks) where
  once := count_tuples h
  sized := by
    intro b hb
    obtain ⟨t, -, ht⟩ := List.mem_flatMap.1 hb
    obtain ⟨-, -, -, -, ha, -⟩ := mem_blocks ht
    refine ⟨?_, fun f hf => activeCnt_mul_le ht hf⟩
    show _ ≤ T.blockSize
    omega
  placed := by
    intro b hb
    obtain ⟨t, -, ht⟩ := List.mem_flatMap.1 hb
    exact (mem_blocks ht).2.2.2.2.2

end Table

/-- The tuple ids of different blocks are different. -/
def Apart (out : List Block) : Prop := out.Pairwise fun a b => Disjoint a.ids b.ids

open List Table

/-- The scan of a table whose columns are no wider than a block ends and covers it, and the
ids are different as long as they fit in 64 bits. -/
theorem scan_covers_table (T : Table) (h : T.max_field_size ≤ T.block_size) :
    ∃ fuel out, T.scan fuel = some out ∧ T.Covered out ∧ (T.IdsFit → Apart out) :=
  ⟨T.stop + 1, _, scan_eq h, covered_blocks h, fun hfit => pairwise_ids h hfit _⟩

/-! ## Where ids repeat, and where the scan does not end -/

/-- Three partitions of 32-bit values, of which one is empty. -/
def threeParts : Table where
  wantedFields := [⟨4, [], by decide⟩]
  tuples := [5, 0, 2]
  block_size := 8

theorem scan_covers_threeParts : ∃ fuel out, threeParts.scan fuel = some out ∧ threeParts.Covered out ∧
      (threeParts.IdsFit → Apart out) :=
  scan_covers_table threeParts (by decide)

/-- A column of bytes, with a partition of 2^60 + 1 tuples next to fifteen empty ones. -/
def longPart : Table where
  wantedFields := [⟨1, [], by decide⟩]
  tuples := (2 ^ 60 + 1) :: replicate 15 0
  block_size := 2 ^ 21

/-- A column of values that are larger than a block. -/
def wideColumn : Table where
  wantedFields := [⟨2 ^ 21 + 1, [], by decide⟩]
  tuples := [1]
  block_size := 2 ^ 21

/-- The block of the last tuple has the id of the first block again. -/
theorem longPart_not_apart {fuel : ℕ} {out : List Block} (h : longPart.scan fuel = some out) :
    ¬ Apart out := by
  intro hap
  have hout : out = (range longPart.stop).flatMap longPart.blocks :=
    loop_unique h (scan_eq (by decide))
  rw [hout, Apart, pairwise_flatMap, pairwise_iff_getElem] at hap
  have hstop : 2 ^ 43 < longPart.stop := by decide
  have hd := hap.2 0 (2 ^ 43) (by simp; omega) (by simpa using hstop) (by decide)
  rw [getElem_range, getElem_range] at hd
  have h0 : longPart.blocks 0 = [⟨[0], 0, 2 ^ 21, 0, 0⟩] := rfl
  have h1 : longPart.blocks (2 ^ 43) = [⟨[2 ^ 60], 0, 1, 0, 2 ^ 60⟩] := rfl
  rw [h0, h1] at hd
  have hdis := hd _ (mem_singleton_self _) _ (mem_singleton_self _)
  have hmem : (0 : ℕ) ∈ Set.Ico 0 (0 + 2 ^ 21) := ⟨le_rfl, by decide⟩
  exact Set.disjoint_left.1 hdis hmem ⟨le_rfl, by decide⟩

theorem wideColumn_loop (fuel : ℕ) : wideColumn.loop fuel init = none := by
  induction fuel with
  | zero => rfl
  | succ fuel ih =>
    -- a block of no tuples does not advance the loop
    have hnext : wideColumn.nextEntry init = init := rfl
    rw [loop, if_pos (by decide), hnext, ih]
    rfl

theorem scan_ids_repeat : (¬ ∃ fuel out, longPart.scan fuel = some out ∧ Apart out) ∧
      ∀ fuel, wideColumn.scan fuel = none :=
  ⟨fun ⟨_, _, h, hap⟩ => longPart_not_apart h hap, wideColumn_loop⟩

end Proteus.BlockScan
