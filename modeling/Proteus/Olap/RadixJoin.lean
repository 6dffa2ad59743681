import Mathlib.Data.List.ProdSigma
import Proteus.CountingSort

/-!
# The radix join

`RJStepwise` clusters both relations by the low bits of their keys, in two passes of a counting
sort, and joins the clusters one by one: it chains the positions of the tuples of a cluster of
the one relation by further bits of the key, and looks up every tuple of the cluster of the
other one. `partitionHT` is the clustering for generated code.

The clustering is `CountingSort.sort` (`radix_cluster_eq`), and its two passes make one sort by
the low bits. A chain holds the positions of its bucket in descending order (`prev`), which is
why the look-up ends.
-/

namespace Proteus.RadixJoin

open BitVec CountingSort List Nat Option

/-! ## The code -/

def numRadixBits : ℕ := 14
def numPasses : ℕ := 2

/-- A key and where its tuple lies. -/
structure Tuple where
  key : BitVec 32
  payload : BitVec 64
  deriving DecidableEq

/-- The padding behind a relation, in tuples: three cache lines of tuples of 16 bytes for each
partition of the second pass and one more, for each partition of the first pass. -/
def relationPadding : ℕ :=
  3 * 64 / 16 * (2 ^ (numRadixBits - numRadixBits / numPasses) + 1) * 2 ^ (numRadixBits / numPasses)

/-- What `malloc` leaves in memory that is written before it is read: the temporary relations,
and the positions of each cluster. -/
structure Heap where
  tuple : ℕ → Tuple
  next : ℕ → ℕ → ℕ

def hashBitModulo (K MASK : BitVec 32) (NBITS : ℕ) : BitVec 32 := (K &&& MASK) >>> NBITS

/-- `NEXT_POW_2` -/
def nextPow2 (V : BitVec 32) : BitVec 32 :=
  let V := V - 1
  let V := V ||| V >>> 1
  let V := V ||| V >>> 2
  let V := V ||| V >>> 4
  let V := V ||| V >>> 8
  let V := V ||| V >>> 16
  V + 1

/-- Both functions of this name: one takes relations, the other one tuples and their number. -/
def radix_cluster_nopadding (outTuples inTuples : List Tuple) (num_tuples R D : ℕ) :
    Option (List Tuple) :=
  let M := ((1#32 <<< D) - 1) <<< R
  let ntuples := num_tuples % 2 ^ 32
  if ntuples ≤ inTuples.length then
    sort 32 (fun t => (hashBitModulo t.key M R).toNat) (2 ^ D) (inTuples.take ntuples) outTuples
  else none

variable (t : Tuple)

/-- The cluster of a tuple: the low bits of its key. -/
def cluster : ℕ := (t.key &&& ((1#32 <<< numRadixBits) - 1)).toNat

/-- A temporary relation, with the padding. -/
def malloc (heap : Heap) (num_tuples : ℕ) : List Tuple :=
  (List.range (num_tuples + relationPadding)).map heap.tuple

/-- The tuples in each cluster. -/
def count_per_cluster (num_tuples : ℕ) (tuples : List Tuple) : Option (List ℕ) :=
  if num_tuples ≤ tuples.length then
    tally 32 cluster (tuples.take num_tuples) (List.replicate (2 ^ numRadixBits) 0)
  else none

def partitionHT (heap : Heap) (num_tuples : ℕ) (inTuples : List Tuple) :
    Option (List Tuple × List ℕ) := do
  let outTuples ← radix_cluster_nopadding (malloc heap num_tuples) inTuples num_tuples 0
    (numRadixBits / numPasses)
  let tuples ← radix_cluster_nopadding inTuples outTuples num_tuples (numRadixBits / numPasses)
    (numRadixBits - numRadixBits / numPasses)
  let counts ← count_per_cluster num_tuples tuples
  return (tuples, counts)

/-- The chains of a cluster; positions are counted from 1, and 0 ends a chain. -/
structure HT where
  bucket : List ℕ
  next : List ℕ
  mask : BitVec 32

/-- The loop of `bucket_chaining_join_prepare` over the tuples from position `i` on. -/
def chain (MASK : BitVec 32) : List Tuple → ℕ → HT → Option HT
  | [], _, ht => some ht
  | t :: R, i, ht => do
    let idx := (hashBitModulo t.key MASK numRadixBits).toNat
    let head ← ht.bucket[idx]?
    if i < ht.next.length then
      chain MASK R (i + 1)
        { ht with next := ht.next.set i head, bucket := ht.bucket.set idx (i + 1) }
    else none

def bucket_chaining_join_prepare (next : ℕ → ℕ) (R : List Tuple) : Option HT :=
  let N := nextPow2 (BitVec.ofNat 32 R.length)
  let MASK := (N - 1) <<< numRadixBits
  chain MASK R 0 ⟨List.replicate N.toNat 0, (List.range R.length).map next, MASK⟩

/-- The loop of `bucket_chaining_join_probe`, for a number of iterations. -/
def follow (R : List Tuple) (next : List ℕ) (s : Tuple) : ℕ → ℕ → Option ℕ
  | 0, _ => none
  | fuel + 1, hit =>
    if 0 < hit then do
      let t ← R[hit - 1]?
      let hit' ← next[hit - 1]?
      let found ← follow R next s fuel hit'
      return (if s.key = t.key then 1 else 0) + found
    else some 0

def bucket_chaining_join_probe (fuel : ℕ) (R : List Tuple) (ht : HT) (s : Tuple) : Option ℕ := do
  let hit ← ht.bucket[(hashBitModulo s.key ht.mask numRadixBits).toNat]?
  follow R ht.next s fuel hit

/-- The tuples of a cluster that begins at `start`. -/
def slice (tuples : List Tuple) (start num_tuples : ℕ) : Option (List Tuple) :=
  if start + num_tuples ≤ tuples.length then some ((tuples.drop start).take num_tuples) else none

/-- The look-ups of the tuples of a cluster. -/
def probeAll (fuel : ℕ) (tmpR : List Tuple) (ht : HT) : List Tuple → ℕ → Option ℕ
  | [], result => some result
  | s :: tmpS, result => do
    let found ← bucket_chaining_join_probe fuel tmpR ht s
    probeAll fuel tmpR ht tmpS (result + found)

/-- The loop over the clusters. -/
def joinClusters (heap : Heap) (fuel : ℕ) (relR relS : List Tuple) (countR countS : List ℕ) :
    List ℕ → ℕ → ℕ → ℕ → Option ℕ
  | [], _, _, result => some result
  | i :: is, r, s, result => do
    let cR ← countR[i]?
    let cS ← countS[i]?
    if 0 < cR ∧ 0 < cS then do
      let tmpR ← slice relR r cR
      let tmpS ← slice relS s cS
      let ht ← bucket_chaining_join_prepare (heap.next i) tmpR
      let result' ← probeAll fuel tmpR ht tmpS result
      joinClusters heap fuel relR relS countR countS is (r + cR) (s + cS) result'
    else joinClusters heap fuel relR relS countR countS is (r + cR) (s + cS) result

/-- The join: the relations are clustered in place. -/
def RJStepwise (heapR heapS : Heap) (fuel : ℕ) (relR relS : List Tuple) :
    Option (List Tuple × List Tuple × ℕ) := do
  let outRelR ← radix_cluster_nopadding (malloc heapR relR.length) relR relR.length 0
    (numRadixBits / numPasses)
  let outRelS ← radix_cluster_nopadding (malloc heapS relS.length) relS relS.length 0
    (numRadixBits / numPasses)
  let relR' ← radix_cluster_nopadding relR outRelR relR.length (numRadixBits / numPasses)
    (numRadixBits - numRadixBits / numPasses)
  let relS' ← radix_cluster_nopadding relS outRelS relS.length (numRadixBits / numPasses)
    (numRadixBits - numRadixBits / numPasses)
  let countR ← count_per_cluster relR.length relR'
  let countS ← count_per_cluster relS.length relS'
  let result ← joinClusters heapR fuel relR' relS' countR countS (List.range (2 ^ numRadixBits)) 0 0 0
  return (relR', relS', result)

/-! ## Clustering -/

/-- The bits of a key that a pass looks at. -/
def digit (R D : ℕ) (t : Tuple) : ℕ := t.key.toNat / 2 ^ R % 2 ^ D

theorem hashBitModulo_toNat {K M : BitVec 32} {R D : ℕ} (hM : M.toNat = (2 ^ D - 1) * 2 ^ R) :
    (hashBitModulo K M R).toNat = K.toNat / 2 ^ R % 2 ^ D := by
  rw [hashBitModulo, BitVec.toNat_ushiftRight, BitVec.toNat_and, hM, shiftRight_and_distrib,
    ← Nat.shiftLeft_eq, shiftLeft_shiftRight, and_two_pow_sub_one_eq_mod,
    shiftRight_eq_div_pow]

theorem cluster_eq : cluster t = digit 0 14 t := by
  have hM : ((1#32 <<< numRadixBits) - 1).toNat = 2 ^ 14 - 1 := by decide
  rw [cluster, digit, toNat_and, hM, Nat.and_two_pow_sub_one_eq_mod, pow_zero, Nat.div_one]

theorem digit_lt (R D : ℕ) (t : Tuple) : digit R D t < 2 ^ D := Nat.mod_lt _ (Nat.two_pow_pos D)

section

/-- A pass sorts by its bits. -/
theorem radix_cluster_nopadding_eq (xs out more : List Tuple) {R D : ℕ}
    (hM : (((1#32 <<< D) - 1) <<< R).toNat = (2 ^ D - 1) * 2 ^ R)
    (hlen : xs.length < 2 ^ 32) (hout : xs.length ≤ out.length) :
    radix_cluster_nopadding out (xs ++ more) xs.length R D =
      some (classes (digit R D) (2 ^ D) xs ++ out.drop xs.length) := by
  have hf : (fun t : Tuple => (hashBitModulo t.key (((1#32 <<< D) - 1) <<< R) R).toNat) = digit R D := by
    funext t
    exact hashBitModulo_toNat hM
  simp only [radix_cluster_nopadding, mod_eq_of_lt hlen]
  rw [if_pos (by simp), take_left]
  rw [hf]
  exact sort_eq (fun x _ => digit_lt R D x) hlen hout

variable {xs : List Tuple}

theorem cluster_lt : cluster t < 2 ^ numRadixBits := by
  rw [cluster_eq]
  exact digit_lt 0 14 t

/-- The bits of the two passes are the low bits of the key. -/
theorem digits_eq : digit 7 7 t * 2 ^ 7 + digit 0 7 t = cluster t := by
  rw [cluster_eq]
  simp only [digit, pow_zero, Nat.div_one]
  omega

theorem length_pass₁ (xs : List Tuple) : (classes (digit 0 7) (2 ^ 7) xs).length = xs.length :=
  (classes_perm _ fun x _ => digit_lt 0 7 x).length_eq

theorem pass₁ (heap : Heap) (h : xs.length < 2 ^ 31) :
    ∃ rest, radix_cluster_nopadding (malloc heap xs.length) xs xs.length 0 (numRadixBits / numPasses) =
      some (classes (digit 0 7) (2 ^ 7) xs ++ rest) := by
  have hp := radix_cluster_nopadding_eq xs (malloc heap xs.length) [] (R := 0) (D := 7)
    (by decide) (by omega) (by simp [malloc])
  rw [append_nil] at hp
  exact ⟨_, hp⟩

theorem pass₂ (h : xs.length < 2 ^ 31) (rest : List Tuple) :
    radix_cluster_nopadding xs (classes (digit 0 7) (2 ^ 7) xs ++ rest) xs.length
        (numRadixBits / numPasses) (numRadixBits - numRadixBits / numPasses) =
      some (classes cluster (2 ^ numRadixBits) xs) := by
  have hlen := length_pass₁ xs
  have hp := radix_cluster_nopadding_eq (classes (digit 0 7) (2 ^ 7) xs) xs rest (R := 7) (D := 7)
    (by decide) (by omega) (by omega)
  rw [hlen, drop_length, append_nil,
    classes_classes (digit 7 7) (2 ^ 7) (2 ^ 7) (digit 0 7) (fun x _ => digit_lt 0 7 x),
    funext digits_eq] at hp
  exact hp

theorem count_per_cluster_eq (h : xs.length < 2 ^ 31) :
    count_per_cluster xs.length (classes cluster (2 ^ numRadixBits) xs) =
      some ((List.range (2 ^ numRadixBits)).map fun c => xs.countP fun t => cluster t = c) := by
  have hperm : (classes cluster (2 ^ numRadixBits) xs).Perm xs :=
    classes_perm _ fun x _ => cluster_lt x
  have hlen := hperm.length_eq
  have hzero : List.replicate (2 ^ numRadixBits) 0 = (range (2 ^ numRadixBits)).map fun _ => 0 := by
    rw [map_const', length_range]
  rw [count_per_cluster, if_pos hlen.ge, ← hlen, take_length, hzero, tally_eq]
  · simp only [zero_add, hperm.countP_eq]
  · intro t _
    exact cluster_lt t
  · intro c _
    have := countP_le_length (p := fun t => cluster t = c)
      (l := classes cluster (2 ^ numRadixBits) xs)
    omega

end

/-! ## Chains -/

/-- The last position among the first `i` tuples whose bucket is `c`. -/
def prev (f : Tuple → ℕ) (R : List Tuple) (c : ℕ) : ℕ → ℕ
  | 0 => 0
  | i + 1 => if R[i]?.map f = some c then i + 1 else prev f R c i

/-- The chains of the first `i` tuples. -/
structure Chained (f : Tuple → ℕ) (n : ℕ) (R : List Tuple) (i : ℕ) (ht : HT) : Prop where
  bucket : ht.bucket = (List.range n).map fun c => prev f R c i
  length : ht.next.length = R.length
  next : ∀ j < i, ∀ t, R[j]? = some t → ht.next[j]? = some (prev f R (f t) j)

variable {fuel : ℕ}

section

variable {f : Tuple → ℕ} {n : ℕ} {R : List Tuple} {ht : HT}

theorem chain_eq {MASK : BitVec 32} (hf : f = fun t => (hashBitModulo t.key MASK numRadixBits).toNat)
    (hlt : ∀ t ∈ R, f t < n) {suffix : List Tuple} {i : ℕ} (hs : R.drop i = suffix)
    (hi : i ≤ R.length) (hc : Chained f n R i ht) :
    ∃ ht', chain MASK suffix i ht = some ht' ∧ Chained f n R R.length ht' ∧ ht'.mask = ht.mask := by
  induction suffix generalizing i ht with
  | nil =>
    have : i = R.length := by
      have := drop_eq_nil_iff.1 hs
      omega
    subst this
    exact ⟨ht, rfl, hc, rfl⟩
  | cons t suffix ih =>
    have hilt : i < R.length := by
      by_contra hge
      rw [drop_eq_nil_of_le (by omega)] at hs
      cases hs
    have hget : R[i]? = some t := by
      rw [← head?_drop, hs]
      rfl
    have hft : f t < n := hlt t (mem_of_getElem? hget)
    have hhead : ht.bucket[f t]? = some (prev f R (f t) i) := by
      rw [hc.bucket, getElem?_map_range _ hft]
    have hc' : Chained f n R (i + 1)
        { ht with next := ht.next.set i (prev f R (f t) i), bucket := ht.bucket.set (f t) (i + 1) } := by
      refine ⟨?_, ?_, ?_⟩
      · show ht.bucket.set (f t) (i + 1) = _
        rw [hc.bucket, map_range_set]
        congr 1
        funext c
        rw [prev, hget, map_some]
        by_cases hct : c = f t
        · subst hct
          rw [Function.update_self, if_pos rfl]
        · rw [Function.update_of_ne hct, if_neg (by simpa using Ne.symm hct)]
      · rw [length_set, hc.length]
      · intro j hj u hu
        rw [getElem?_set]
        by_cases hji : i = j
        · subst hji
          rw [hget] at hu
          cases hu
          rw [if_pos rfl, if_pos (by rw [hc.length]; exact hilt)]
        · rw [if_neg hji, hc.next j (by omega) u hu]
    obtain ⟨ht', hch, hfin, hmask⟩ := ih (by rw [← tail_drop, hs]; rfl) hilt hc'
    refine ⟨ht', ?_, hfin, hmask⟩
    have hidx : (hashBitModulo t.key MASK numRadixBits).toNat = f t := by rw [hf]
    rw [chain]
    simp only [hidx]
    rwa [hhead, bind_eq_bind, bind_some, if_pos (by rw [hc.length]; exact hilt)]

/-- A chain leads through all positions of its bucket. -/
theorem follow_eq (hc : Chained f n R R.length ht) (s : Tuple) (c : ℕ) {i : ℕ}
    (hi : i ≤ R.length) (hfuel : i < fuel) : follow R ht.next s fuel (prev f R c i) =
      some ((R.take i).countP fun t => f t = c ∧ s.key = t.key) := by
  induction i generalizing fuel with
  | zero =>
    obtain ⟨fuel, rfl⟩ : ∃ k, fuel = k + 1 := ⟨fuel - 1, by omega⟩
    simp [follow, prev]
  | succ i ih =>
    have hget : R[i]? = some R[i] := getElem?_eq_getElem (by omega)
    rw [prev, hget, map_some, take_add_one, hget, toList_some, countP_append]
    by_cases hft : f R[i] = c
    · obtain ⟨fuel, rfl⟩ : ∃ k, fuel = k + 1 := ⟨fuel - 1, by omega⟩
      have hnext := hc.next i (by omega) _ hget
      rw [hft] at hnext
      rw [if_pos (by rw [hft]), follow, if_pos (Nat.succ_pos i), Nat.add_sub_cancel, hget, hnext]
      simp only [bind_eq_bind, bind_some, ih (show i ≤ R.length by omega)
        (show i < fuel by omega), countP_singleton, hft, true_and, decide_eq_true_eq]
      rw [add_comm]
      rfl
    · rw [if_neg (by simpa using hft), ih (by omega) (by omega), countP_singleton]
      simp [hft]

end

/-! ## Looking up a cluster -/

/-- The size of a table is a power of two that is not lost to overflow. -/
theorem nextPow2_pos {n : ℕ} (h0 : 0 < n) (h : n < 2 ^ 31) : 0 < (nextPow2 (BitVec.ofNat 32 n)).toNat := by
  have hor (V : BitVec 32) (k : ℕ) (hV : V.toNat < 2 ^ 31) : (V ||| V >>> k).toNat < 2 ^ 31 := by
    rw [BitVec.toNat_or, BitVec.toNat_ushiftRight]
    exact or_lt_two_pow hV ((shiftRight_le _ _).trans_lt hV)
  have hpred : (BitVec.ofNat 32 n - 1).toNat < 2 ^ 31 := by
    rw [show (1 : BitVec 32) = BitVec.ofNat 32 1 from rfl,
      BitVec.ofNat_sub_ofNat_of_le n 1 (by decide) h0, BitVec.toNat_ofNat,
      mod_eq_of_lt (by omega)]
    omega
  have hlast := hor _ 16 (hor _ 8 (hor _ 4 (hor _ 2 (hor _ 1 hpred))))
  rw [nextPow2, toNat_add]
  show 0 < (_ + 1) % 2 ^ 32
  rw [mod_eq_of_lt (by omega)]
  exact succ_pos _

/-- A bucket is in the table, also where the mask lost its upper bits. -/
theorem hashBitModulo_lt (K N : BitVec 32) (h : 0 < N.toNat) :
    (hashBitModulo K ((N - 1) <<< numRadixBits) numRadixBits).toNat < N.toNat := by
  have hpred : (N - 1).toNat = N.toNat - 1 := by
    rw [toNat_sub_of_le]
    · rfl
    · exact h
  rw [hashBitModulo, toNat_ushiftRight, toNat_and, shiftRight_and_distrib,
    toNat_shiftLeft, hpred]
  calc (K.toNat >>> numRadixBits &&& ((N.toNat - 1) <<< numRadixBits % 2 ^ 32) >>> numRadixBits)
      ≤ ((N.toNat - 1) <<< numRadixBits % 2 ^ 32) >>> numRadixBits := and_le_right
    _ ≤ ((N.toNat - 1) <<< numRadixBits) >>> numRadixBits := by
        rw [Nat.shiftRight_eq_div_pow, Nat.shiftRight_eq_div_pow]
        exact Nat.div_le_div_right (Nat.mod_le _ _)
    _ = N.toNat - 1 := Nat.shiftLeft_shiftRight _ _
    _ < N.toNat := by omega

/-- The table of a cluster, and what a look-up in it finds. -/
theorem exists_prepared (next : ℕ → ℕ) {R : List Tuple} (h0 : 0 < R.length) (h : R.length < 2 ^ 31) :
    ∃ ht, bucket_chaining_join_prepare next R = some ht ∧
      ∀ fuel s, R.length < fuel →
        bucket_chaining_join_probe fuel R ht s = some (R.countP fun t => s.key = t.key) := by
  obtain ⟨N, hN⟩ : ∃ N, nextPow2 (BitVec.ofNat 32 R.length) = N := ⟨_, rfl⟩
  have hpos : 0 < N.toNat := hN ▸ nextPow2_pos h0 h
  obtain ⟨M, hM⟩ : ∃ M, (N - 1) <<< numRadixBits = M := ⟨_, rfl⟩
  have hlt (t : Tuple) : (hashBitModulo t.key M numRadixBits).toNat < N.toNat :=
    hM ▸ hashBitModulo_lt t.key N hpos
  have hstart : Chained (fun t => (hashBitModulo t.key M numRadixBits).toNat) N.toNat R 0
      ⟨replicate N.toNat 0, (range R.length).map next, M⟩ := by
    refine ⟨?_, by simp, by simp⟩
    show List.replicate N.toNat 0 = (range N.toNat).map fun _ => 0
    rw [map_const', length_range]
  obtain ⟨ht, hch, hc, hmask⟩ := chain_eq rfl (fun t _ => hlt t) drop_zero (zero_le _) hstart
  refine ⟨ht, ?_, ?_⟩
  · simp only [bucket_chaining_join_prepare, hN, hM]
    exact hch
  · intro fuel s hfuel
    rw [bucket_chaining_join_probe, hmask, hc.bucket, getElem?_map_range _ (hlt s),
      bind_eq_bind, bind_some, follow_eq hc s _ le_rfl hfuel, take_length]
    congr 1
    apply countP_congr
    intro t _
    simp only [decide_eq_true_eq, and_iff_right_iff_imp]
    intro hkey
    rw [hkey]

/-! ## Counting matches -/

variable (R S : List Tuple)

/-- The number of pairs with equal keys, by the tuples of the second relation. -/
def pairs : ℕ := (S.map fun s => R.countP fun t => s.key = t.key).sum

theorem pairs_eq_product : pairs R S = (R ×ˢ S).countP fun p => p.1.key = p.2.key := by
  induction R with
  | nil => simp [pairs]
  | cons t R ih =>
    have hsplit : pairs (t :: R) S = (S.countP fun s => t.key = s.key) + pairs R S := by
      clear ih
      induction S with
      | nil => rfl
      | cons s S ih =>
        simp only [pairs, map_cons, sum_cons, countP_cons] at ih ⊢
        simp only [eq_comm (a := t.key)] at ih ⊢
        omega
    rw [hsplit, ih, product_cons, countP_append, countP_map]
    rfl

theorem pairs_le : pairs R S ≤ R.length * S.length := by
  rw [pairs_eq_product, ← length_product]
  exact countP_le_length

/-- Only tuples of one cluster match. -/
theorem pairs_clusters : pairs R S = ((List.range (2 ^ numRadixBits)).map fun c =>
      pairs (R.filter fun t => cluster t = c) (S.filter fun t => cluster t = c)).sum := by
  have hperm : (classes cluster (2 ^ numRadixBits) S).Perm S := classes_perm _ fun x _ => cluster_lt x
  rw [pairs, ← (hperm.map _).sum_eq, classes, map_flatMap, flatMap_def, sum_flatten, List.map_map]
  refine congrArg sum (map_congr_left ?_)
  intro c _
  rw [Function.comp_apply, pairs]
  refine congrArg sum (map_congr_left ?_)
  intro s hs
  have hsc : cluster s = c := by simpa using (mem_filter.1 hs).2
  rw [countP_filter]
  apply countP_congr
  intro t _
  simp only [decide_eq_true_eq, Bool.and_eq_true]
  refine ⟨fun hkey => ⟨hkey, ?_⟩, fun h => h.1⟩
  rw [← hsc, cluster, cluster, hkey]

theorem slice_cluster (xs : List Tuple) {c : ℕ} (hc : c < 2 ^ numRadixBits) :
    slice (classes cluster (2 ^ numRadixBits) xs) (classes cluster c xs).length
        (xs.countP fun t => cluster t = c) = some (xs.filter fun t => cluster t = c) := by
  obtain ⟨rest, hrest⟩ := exists_classes_eq cluster hc xs
  have hle := length_classes_mono cluster (show c + 1 ≤ 2 ^ numRadixBits from hc) xs
  rw [length_classes_succ] at hle
  rw [slice, if_pos hle, hrest, drop_left, countP_eq_length_filter, take_left]

theorem probeAll_eq {tmpR : List Tuple} {ht : HT}
    (h : ∀ s, bucket_chaining_join_probe fuel tmpR ht s = some (tmpR.countP fun t => s.key = t.key))
    (tmpS : List Tuple) (result : ℕ) :
    probeAll fuel tmpR ht tmpS result = some (result + pairs tmpR tmpS) := by
  induction tmpS generalizing result with
  | nil => rfl
  | cons s tmpS ih =>
    rw [probeAll, h s, bind_eq_bind, bind_some, ih]
    simp only [pairs, map_cons, sum_cons]
    rw [add_assoc]

section

variable {R S : List Tuple} (hR : R.length < 2 ^ 31) (heap : Heap) {fuel : ℕ} (hfuel : R.length < fuel)
include hR hfuel

/-- The loop over the clusters from `c` on. -/
theorem joinClusters_eq (m : ℕ) {c : ℕ} (hc : c + m = 2 ^ numRadixBits) (result : ℕ) :
    joinClusters heap fuel (classes cluster (2 ^ numRadixBits) R)
        (classes cluster (2 ^ numRadixBits) S)
        ((List.range (2 ^ numRadixBits)).map fun d => R.countP fun t => cluster t = d)
        ((List.range (2 ^ numRadixBits)).map fun d => S.countP fun t => cluster t = d)
        (List.range' c m) (classes cluster c R).length (classes cluster c S).length result =
      some (result + ((List.range' c m).map fun d =>
        pairs (R.filter fun t => cluster t = d) (S.filter fun t => cluster t = d)).sum) := by
  induction m generalizing c result with
  | zero => rfl
  | succ m ih =>
    have hlt : c < 2 ^ numRadixBits := by omega
    have hnext := ih (c := c + 1) (by omega)
    rw [length_classes_succ, length_classes_succ] at hnext
    rw [range'_succ, map_cons, sum_cons, joinClusters, getElem?_map_range _ hlt,
      getElem?_map_range _ hlt]
    simp only [bind_eq_bind, bind_some]
    by_cases hpos : 0 < (R.countP fun t => cluster t = c) ∧ 0 < S.countP fun t => cluster t = c
    · rw [if_pos hpos, slice_cluster R hlt, slice_cluster S hlt]
      have hle : (R.filter fun t => cluster t = c).length ≤ R.length := length_filter_le _ _
      obtain ⟨ht, hprep, hprobe⟩ := exists_prepared (heap.next c)
        (R := R.filter fun t => cluster t = c)
        (by rw [← countP_eq_length_filter]; exact hpos.1) (by omega)
      simp only [bind_some, hprep,
        probeAll_eq (fun s => hprobe fuel s (by omega)) (S.filter fun t => cluster t = c) result, hnext]
      rw [add_assoc]
    · -- a cluster that is empty on one side is skipped, and has no pairs
      have hzero : pairs (R.filter fun t => cluster t = c) (S.filter fun t => cluster t = c) = 0 := by
        have hle := pairs_le (R.filter fun t => cluster t = c) (S.filter fun t => cluster t = c)
        rw [← countP_eq_length_filter, ← countP_eq_length_filter] at hle
        have hprod : (R.countP fun t => cluster t = c) * (S.countP fun t => cluster t = c) = 0 := by
          rw [mul_eq_zero]
          omega
        omega
      rw [if_neg hpos, hnext, hzero, zero_add]

end

/-- What the clustering leaves: the tuples cluster by cluster, each in the old order, and the
number of tuples of each cluster. -/
structure Partitioned (xs tuples : List Tuple) (counts : List ℕ) : Prop where
  perm : tuples.Perm xs
  grouped : tuples = (List.range (2 ^ numRadixBits)).flatMap fun c => xs.filter fun t => cluster t = c
  counted : counts = (List.range (2 ^ numRadixBits)).map fun c => xs.countP fun t => cluster t = c

theorem exists_partitioned (heap : Heap) {xs : List Tuple} (h : xs.length < 2 ^ 31) :
    ∃ tuples counts, partitionHT heap xs.length xs = some (tuples, counts) ∧
      Partitioned xs tuples counts := by
  obtain ⟨rest, hp⟩ := pass₁ heap h
  refine ⟨_, _, ?_, classes_perm cluster fun x _ => cluster_lt x, rfl, rfl⟩
  simp only [partitionHT, hp, pass₂ h rest, count_per_cluster_eq h, bind_eq_bind,
    bind_some]
  rfl

theorem RJStepwise_eq (heapR heapS : Heap) {R S : List Tuple} (hR : R.length < 2 ^ 31)
    (hS : S.length < 2 ^ 31) (hfuel : R.length < fuel) : RJStepwise heapR heapS fuel R S =
      some (classes cluster (2 ^ numRadixBits) R, classes cluster (2 ^ numRadixBits) S, pairs R S) := by
  obtain ⟨restR, hpR⟩ := pass₁ heapR hR
  obtain ⟨restS, hpS⟩ := pass₁ heapS hS
  have hjoin := joinClusters_eq (S := S) hR heapR hfuel (2 ^ numRadixBits) (zero_add _) 0
  rw [← range_eq_range', ← pairs_clusters, zero_add] at hjoin
  simp only [RJStepwise, hpR, hpS, pass₂ hR restR, pass₂ hS restS, count_per_cluster_eq hR,
    count_per_cluster_eq hS, Option.bind_eq_bind, Option.bind_some]
  exact congrArg (Option.bind · _) hjoin

/-- Both relations are partitioned, and the join finds the pairs with equal keys; there are not
too many for a result of 64 bits. -/
theorem radix_join_counts (heapR heapS : Heap) (fuel : ℕ) (R S : List Tuple)
    (hR : R.length < 2 ^ 31) (hS : S.length < 2 ^ 31) (hfuel : R.length < fuel) :
    (∃ tuples counts, partitionHT heapR R.length R = some (tuples, counts) ∧
      Partitioned R tuples counts) ∧
    (∃ tuples counts, partitionHT heapS S.length S = some (tuples, counts) ∧
      Partitioned S tuples counts) ∧
    ∃ relR relS, RJStepwise heapR heapS fuel R S =
        some (relR, relS, (R ×ˢ S).countP fun p => p.1.key = p.2.key) ∧
      ((R ×ˢ S).countP fun p => p.1.key = p.2.key) < 2 ^ 63 := by
  have hjoin := RJStepwise_eq heapR heapS hR hS hfuel
  rw [pairs_eq_product] at hjoin
  refine ⟨exists_partitioned heapR hR, exists_partitioned heapS hS, _, _, hjoin, ?_⟩
  rw [← pairs_eq_product]
  calc pairs R S ≤ R.length * S.length := pairs_le R S
    _ ≤ 2 ^ 31 * 2 ^ 31 := Nat.mul_le_mul hR.le hS.le
    _ < 2 ^ 63 := by decide

theorem radix_join_counts_three :
    ∃ relR relS, RJStepwise ⟨fun _ => ⟨0, 0⟩, fun _ _ => 0⟩ ⟨fun _ => ⟨0, 0⟩, fun _ _ => 0⟩ 3
      [⟨5, 1⟩, ⟨-1, 2⟩] [⟨5, 3⟩, ⟨5, 4⟩, ⟨0, 5⟩] = some (relR, relS, 2) := by
  obtain ⟨-, -, relR, relS, h, -⟩ := radix_join_counts ⟨fun _ => ⟨0, 0⟩, fun _ _ => 0⟩
    ⟨fun _ => ⟨0, 0⟩, fun _ _ => 0⟩ 3 [⟨5, 1⟩, ⟨-1, 2⟩] [⟨5, 3⟩, ⟨5, 4⟩, ⟨0, 5⟩]
    (by decide) (by decide) (by decide)
  exact ⟨relR, relS, h⟩

end Proteus.RadixJoin
