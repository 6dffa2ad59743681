import Mathlib.Order.CompletePartialOrder
import Mathlib.Order.Interval.Set.Disjoint
import Proteus.Machine

/-!
# The memory of a delta store

A partition of a delta store hands out chunks for versions. Every thread keeps a slack of 8192 bytes
from which it carves its chunks, and takes a new one from the shared cursor of the partition when a
request does not fit; the fetch-and-add is the only shared access of a call, which therefore is one
step here. Chunks are separate as long as no request is larger than a slack (`chunks_separate`):
`remaining_slack` is a signed counter that is compared with an unsigned size, so once it is negative
the thread never takes a new slack.

`create_versions` of `MV_RecordList_Full` requests the bytes of the header and of the record, but
puts the record one alignment behind the header (`versions_separate_iff`).

A `DeltaDataPtr` packs the number of the store, the partition, 20 bits of the tag of the store and
the offset into one word. A reset increments the tag, so a pointer from before it is detected unless
the low 20 bits are back at their value (`stale_detected_iff`).
-/

namespace Proteus.Oltp.DeltaMemory

open Function List Nat

/-! ## Chunks -/

/-- `DeltaSlackCache`. -/
structure SlackCache where
  ptr : ℕ
  remaining_slack : ℤ

def slack_size : ℕ := 8192

/-- A `DeltaPartition`, and the chunks (address and size) returned since its last reset. -/
structure Partition (T : Type*) where
  /-- the address and the size of `ver_data_mem` -/
  data : ℕ
  size : ℕ
  ver_data_cursor : ℕ
  cache : T → SlackCache
  chunks : List (ℕ × ℕ) := []

/-- The value that an `int` keeps. -/
def int32 (x : ℤ) : ℤ := (x + 2 ^ 31) % 2 ^ 32 - 2 ^ 31

variable (c : ℕ × ℕ)

def bytes : Set ℕ := Set.Ico c.1 (c.1 + c.2)

/-- The chunks are separate and inside the memory of the partition. -/
structure Separate {T : Type*} (p : Partition T) : Prop where
  inside : ∀ c ∈ p.chunks, bytes c ⊆ Set.Ico p.data (p.data + p.size)
  disjoint : p.chunks.Pairwise fun c d => Disjoint (bytes c) (bytes d)

variable {T : Type*}

namespace Partition

variable {p p' : Partition T} {t : T} {n : ℕ}

def reset (p : Partition T) : Partition T :=
  { p with
    ver_data_cursor := p.data
    cache := fun t => { p.cache t with remaining_slack := 0 }
    chunks := [] }

/-- What a thread has left of its slack. -/
def free (p : Partition T) (t : T) : Set ℕ :=
  Set.Ico (p.cache t).ptr ((p.cache t).ptr + (p.cache t).remaining_slack.toNat)

/-- The slacks of the threads and the chunks are separate parts of what lies before the cursor. -/
structure Inv (p : Partition T) : Prop where
  slack : ∀ t, 0 ≤ (p.cache t).remaining_slack ∧ (p.cache t).remaining_slack ≤ slack_size
  cursor : ∃ k, p.ver_data_cursor = p.data + k * slack_size ∧
    ∀ m, p.size = m * slack_size → k ≤ m
  own : ∀ t, p.free t ⊆ Set.Ico p.data p.ver_data_cursor
  apart : ∀ t u, t ≠ u → Disjoint (p.free t) (p.free u)
  chunk : ∀ t, ∀ c ∈ p.chunks, Disjoint (p.free t) (bytes c)
  inside : ∀ c ∈ p.chunks, bytes c ⊆ Set.Ico p.data p.ver_data_cursor
  disjoint : p.chunks.Pairwise fun c d => Disjoint (bytes c) (bytes d)

theorem reset_inv : Inv p.reset where
  slack _ := ⟨le_rfl, by simp [reset]⟩
  cursor := ⟨0, by simp [reset], fun m _ => zero_le m⟩
  own t := by simp [free, reset]
  apart t u _ := by simp [free, reset]
  chunk _ _ hc := nomatch hc
  inside _ hc := nomatch hc
  disjoint := .nil

theorem Inv.separate (h : Inv p) (hsize : slack_size ∣ p.size) : Separate p := by
  refine ⟨fun c hc x hx => ?_, h.disjoint⟩
  obtain ⟨k, hk, hle⟩ := h.cursor
  obtain ⟨m, hm⟩ := hsize
  have hx := h.inside c hc hx
  have := mul_le_mul_right slack_size (hle m (by rw [hm, mul_comm]))
  refine ⟨hx.1, hx.2.trans_le ?_⟩
  rw [hk, hm, mul_comm slack_size]
  omega

variable [DecidableEq T]

/-- A new slack for the thread. -/
def takeSlack (p : Partition T) (t : T) : Partition T :=
  { p with
    ver_data_cursor := p.ver_data_cursor + slack_size
    cache := update p.cache t ⟨p.ver_data_cursor, slack_size⟩ }

/-- The chunk at the beginning of the slack. -/
def carve (p : Partition T) (t : T) (rec_size : ℕ) : Partition T :=
  { p with
    cache := update p.cache t ⟨(p.cache t).ptr + rec_size,
      int32 ((p.cache t).remaining_slack - rec_size)⟩
    chunks := ((p.cache t).ptr, rec_size) :: p.chunks }

/-- The counter is converted to `size_t` for the comparison. The assertion refuses a slack that
begins outside the memory. -/
def getVersionDataChunk_ThreadLocal2 (p : Partition T) (a : T × ℕ) : Option (Partition T) :=
  if (p.cache a.1).remaining_slack % 2 ^ 64 < a.2 then
    if p.data ≤ p.ver_data_cursor ∧ p.ver_data_cursor < p.data + p.size then
      some ((p.takeSlack a.1).carve a.1 a.2)
    else none
  else some (p.carve a.1 a.2)

theorem getVersionDataChunk_cases (h : p.getVersionDataChunk_ThreadLocal2 (t, n) = some p') :
    ∃ q, p' = carve q t n ∧ (q = p ∧ (n : ℤ) ≤ (p.cache t).remaining_slack % 2 ^ 64 ∨
      q = p.takeSlack t ∧ p.data ≤ p.ver_data_cursor ∧ p.ver_data_cursor < p.data + p.size) := by
  rw [getVersionDataChunk_ThreadLocal2] at h
  split_ifs at h with hfit hmem
  · exact ⟨_, (Option.some.inj h).symm, .inr ⟨rfl, hmem⟩⟩
  · exact ⟨p, (Option.some.inj h).symm, .inl ⟨rfl, not_lt.1 hfit⟩⟩

/-- A new slack lies behind everything that was handed out. -/
theorem Inv.takeSlack (h : Inv p) (hlo : p.data ≤ p.ver_data_cursor)
    (hhi : p.ver_data_cursor < p.data + p.size) : Inv (p.takeSlack t) := by
  have hother : ∀ u, u ≠ t → (p.takeSlack t).free u = p.free u := by
    intro u hu
    simp only [free, Partition.takeSlack, update_of_ne hu]
  have hnew : (p.takeSlack t).free t =
      Set.Ico p.ver_data_cursor (p.ver_data_cursor + slack_size) := by
    simp [free, Partition.takeSlack]
  have hbehind : ∀ s ⊆ Set.Ico p.data p.ver_data_cursor, Disjoint ((p.takeSlack t).free t) s := by
    intro s hs
    rw [hnew]
    exact Set.disjoint_left.2 fun x hx hxs => absurd (hs hxs).2 hx.1.not_gt
  have hgrow : Set.Ico p.data p.ver_data_cursor ⊆
      Set.Ico p.data (p.ver_data_cursor + slack_size) :=
    Set.Ico_subset_Ico_right (le_add_right _ _)
  refine ⟨fun u => ?_, ?_, fun u => ?_, fun u v huv => ?_, fun u c hc => ?_,
    fun c hc => (h.inside c hc).trans hgrow, h.disjoint⟩
  · obtain rfl | hu := eq_or_ne u t
    · simp [Partition.takeSlack]
    · simpa [Partition.takeSlack, hu] using h.slack u
  · obtain ⟨k, hk, -⟩ := h.cursor
    refine ⟨k + 1, by simp only [Partition.takeSlack, hk, succ_mul, add_assoc], fun m hm => ?_⟩
    rw [hk, show p.size = m * slack_size from hm] at hhi
    exact Nat.lt_of_mul_lt_mul_right (Nat.lt_of_add_lt_add_left hhi)
  · obtain rfl | hu := eq_or_ne u t
    · rw [hnew]
      exact Set.Ico_subset_Ico_left hlo
    · rw [hother u hu]
      exact (h.own u).trans hgrow
  · obtain rfl | hu := eq_or_ne u t
    · rw [hother v huv.symm]
      exact hbehind _ (h.own v)
    · rw [hother u hu]
      obtain rfl | hv := eq_or_ne v t
      · exact (hbehind _ (h.own u)).symm
      · rw [hother v hv]
        exact h.apart u v huv
  · obtain rfl | hu := eq_or_ne u t
    · exact hbehind _ (h.inside c hc)
    · rw [hother u hu]
      exact h.chunk u c hc

/-- A chunk that fits is taken from the slack of its thread. -/
theorem Inv.carve (h : Inv p) (hn : (n : ℤ) ≤ (p.cache t).remaining_slack) : Inv (p.carve t n) := by
  have hslack := h.slack t
  rw [slack_size] at hslack
  have hint : int32 ((p.cache t).remaining_slack - n) = (p.cache t).remaining_slack - n := by
    rw [int32]
    omega
  have hother : ∀ u, u ≠ t → (p.carve t n).free u = p.free u := by
    intro u hu
    simp only [free, Partition.carve, update_of_ne hu]
  have hrest : (p.carve t n).free t = Set.Ico ((p.cache t).ptr + n)
      ((p.cache t).ptr + (p.cache t).remaining_slack.toNat) := by
    simp only [free, Partition.carve, update_self, hint]
    congr 1
    omega
  have hchunk : bytes ((p.cache t).ptr, n) ⊆ p.free t :=
    Set.Ico_subset_Ico_right (by simp only; omega)
  have hsub : ∀ u, (p.carve t n).free u ⊆ p.free u := by
    intro u
    obtain rfl | hu := eq_or_ne u t
    · rw [hrest]
      exact Set.Ico_subset_Ico_left (le_add_right _ _)
    · rw [hother u hu]
  refine ⟨fun u => ?_, h.cursor, fun u => (hsub u).trans (h.own u),
    fun u v huv => (h.apart u v huv).mono (hsub u) (hsub v), fun u c hc => ?_, fun c hc => ?_,
    .cons (fun c hc => (h.chunk t c hc).mono_left hchunk) h.disjoint⟩
  · obtain rfl | hu := eq_or_ne u t
    · simp only [Partition.carve, update_self, hint, slack_size]
      omega
    · simpa [Partition.carve, hu] using h.slack u
  · obtain rfl | hc := mem_cons.1 hc
    · obtain rfl | hu := eq_or_ne u t
      · rw [hrest]
        exact Set.disjoint_left.2 fun x hx hx' => absurd hx'.2 hx.1.not_gt
      · rw [hother u hu]
        exact (h.apart u t hu).mono_right hchunk
    · exact (h.chunk u c hc).mono_left (hsub u)
  · obtain rfl | hc := mem_cons.1 hc
    · exact hchunk.trans (h.own t)
    · exact h.inside c hc

theorem Inv.getVersionDataChunk (h : Inv p) (hn : n ≤ slack_size)
    (hs : p.getVersionDataChunk_ThreadLocal2 (t, n) = some p') : Inv p' ∧ p'.size = p.size := by
  obtain ⟨q, rfl, ⟨rfl, hfit⟩ | ⟨rfl, hlo, hhi⟩⟩ := getVersionDataChunk_cases hs
  · have hslack := h.slack t
    rw [slack_size] at hslack
    exact ⟨h.carve (by omega), rfl⟩
  · refine ⟨(h.takeSlack hlo hhi).carve ?_, rfl⟩
    simp only [Partition.takeSlack, update_self]
    exact_mod_cast hn

end Partition

open DeltaMemory.Partition

section

variable [DecidableEq T]

/-- From a reset on, for any threads and any requests of at most 8192 bytes, the chunks are pairwise
disjoint and inside a memory of whole slacks, as long as no request is refused. -/
theorem chunks_separate {p s : Partition T} (hsize : slack_size ∣ p.size)
    (hs : Reach getVersionDataChunk_ThreadLocal2 (fun _ a => a.2 ≤ slack_size) p.reset s) : Separate s := by
  have hinv : Inv s ∧ s.size = p.size := by
    refine hs.invariant (I := fun s => Inv s ∧ s.size = p.size) ⟨reset_inv, rfl⟩ ?_
    rintro s ⟨t, n⟩ s' ⟨h, hp⟩ hn hstep
    obtain ⟨h', hsize'⟩ := h.getVersionDataChunk hn hstep
    exact ⟨h', hsize'.trans hp⟩
  exact hinv.1.separate (hinv.2 ▸ hsize)

/-- A partition of two slacks. -/
def twoSlacks : Partition Bool := ⟨0, 16384, 0, fun _ => ⟨0, 0⟩, []⟩

theorem chunks_separate_two : ∃ s, exec getVersionDataChunk_ThreadLocal2 twoSlacks.reset
    [(false, 8), (true, 8192), (false, 56)] = some s ∧ Separate s :=
  ⟨_, rfl, chunks_separate (p := twoSlacks) (by decide) (reach_of_exec_of_forall
    (fun a ha _ => (by decide : ∀ a ∈ [(false, 8), (true, 8192), (false, 56)], a.2 ≤ slack_size) a ha)
    .init rfl)⟩

/-- A request of 8193 bytes reaches into the slack that another thread is given next. -/
theorem large_chunk_overlaps : ∃ s, exec getVersionDataChunk_ThreadLocal2 twoSlacks.reset
    [(false, 8193), (true, 8)] = some s ∧ s.chunks = [(8192, 8), (0, 8193)] ∧ ¬Separate s := by
  refine ⟨_, rfl, rfl, fun h => ?_⟩
  have hdis := rel_of_pairwise_cons h.disjoint (mem_singleton_self _)
  exact Set.disjoint_left.1 hdis (by decide : 8192 ∈ Set.Ico 8192 (8192 + 8))
    (by decide : 8192 ∈ Set.Ico 0 (0 + 8193))

/-! ## Versions -/

/-- `sizeof(VersionSingle)`, a packed class: the table of virtual functions, four fields and
`next`. -/
def sizeofVersion : ℕ := 48

/-- `alignof(VersionSingle)`. -/
def alignofVersion : ℕ := 1

/-- `MV_RecordList_Full::create_versions` of a table with this record size, by thread `t`. -/
def create_versions (t : T) (p : Partition T) (record_size : ℕ) : Option (Partition T) :=
  p.getVersionDataChunk_ThreadLocal2 (t, record_size + sizeofVersion)

/-- The bytes of the header, and those of the record, of the version in a chunk. -/
def header : Set ℕ := Set.Ico c.1 (c.1 + sizeofVersion)

def record : Set ℕ :=
  Set.Ico (c.1 + alignofVersion + sizeofVersion)
    (c.1 + alignofVersion + sizeofVersion + (c.2 - sizeofVersion))

/-- Every version lies in its chunk, and no two versions share a byte. -/
structure VersionsSeparate (p : Partition T) : Prop where
  inside : ∀ c ∈ p.chunks, header c ∪ record c ⊆ bytes c
  disjoint : p.chunks.Pairwise fun c d => Disjoint (header c ∪ record c) (header d ∪ record d)

theorem create_versions_chunks {p p' : Partition T} {t : T} {n : ℕ}
    (h : create_versions t p n = some p') : ∃ a, p'.chunks = (a, n + sizeofVersion) :: p.chunks := by
  obtain ⟨q, rfl, ⟨rfl, -⟩ | ⟨rfl, -⟩⟩ := getVersionDataChunk_cases h
  · exact ⟨_, rfl⟩
  · exact ⟨_, rfl⟩

/-- The chunks of a run are those of its versions. -/
theorem exec_create_versions_chunks {p s : Partition T} {t : T} {sizes : List ℕ}
    (h : exec (create_versions t) p sizes = some s) :
    s.chunks.map Prod.snd = (sizes.map (· + sizeofVersion)).reverse ++ p.chunks.map Prod.snd := by
  induction sizes generalizing p with
  | nil =>
    obtain rfl := Option.some.inj h
    rfl
  | cons n sizes ih =>
    obtain ⟨p₁, hp₁, hrun⟩ := Option.bind_eq_some_iff.1 h
    obtain ⟨a, ha⟩ := create_versions_chunks hp₁
    rw [ih hrun, ha]
    simp

/-- The version in a chunk lies inside it if it has no record, and only then. -/
theorem version_inside_iff (a n : ℕ) :
    header (a, n + sizeofVersion) ∪ record (a, n + sizeofVersion) ⊆ bytes (a, n + sizeofVersion) ↔
      n = 0 := by
  constructor
  · intro h
    by_contra hn
    -- the last byte of the record
    have hmem : a + sizeofVersion + n ∈ record (a, n + sizeofVersion) := by
      simp only [record, alignofVersion, sizeofVersion, Set.mem_Ico]
      omega
    have := (h (.inr hmem)).2
    omega
  · rintro rfl x (hx | hx)
    · simpa [header, bytes] using hx
    · simp [record] at hx

/-- The versions that a thread creates between two resets stay inside their chunks and apart from
each other if and only if all their records are empty. -/
theorem versions_separate_iff {p s : Partition T} {t : T} {sizes : List ℕ}
    (hrun : exec (create_versions t) p.reset sizes = some s) : VersionsSeparate s ↔ ∀ n ∈ sizes, n = 0 := by
  have hsizes : s.chunks.map Prod.snd = (sizes.map (· + sizeofVersion)).reverse := by
    simpa [Partition.reset] using exec_create_versions_chunks hrun
  constructor
  · intro h n hn
    have hmem : n + sizeofVersion ∈ s.chunks.map Prod.snd := by
      rw [hsizes]
      exact mem_reverse.2 (mem_map_of_mem hn)
    obtain ⟨⟨a, m⟩, hc, rfl⟩ := mem_map.1 hmem
    exact (version_inside_iff a n).1 (h.inside _ hc)
  · intro hzero
    have hchunk : ∀ c ∈ s.chunks, header c ∪ record c ⊆ bytes c := by
      rintro ⟨a, m⟩ hc
      have hm : m ∈ (sizes.map (· + sizeofVersion)).reverse := hsizes ▸ mem_map_of_mem hc
      obtain ⟨n, hn, rfl⟩ := mem_map.1 (mem_reverse.1 hm)
      exact (version_inside_iff a n).2 (hzero n hn)
    have hreach : Reach (create_versions t) (fun _ n => n = 0) p.reset s :=
      reach_of_exec_of_forall (fun n hn _ => hzero n hn) .init hrun
    have hinv : Inv s := by
      refine hreach.invariant (I := Inv) reset_inv ?_
      rintro q _ q' h rfl hstep
      exact (h.getVersionDataChunk (by decide) hstep).1
    refine ⟨hchunk, hinv.disjoint.imp_of_mem fun hc hd hcd => ?_⟩
    exact hcd.mono (hchunk _ hc) (hchunk _ hd)

theorem versions_separate_of_no_columns : ∃ s, exec (create_versions false) twoSlacks.reset [0, 0] =
    some s ∧ (VersionsSeparate s ↔ ∀ n ∈ [0, 0], n = 0) :=
  ⟨_, rfl, versions_separate_iff (p := twoSlacks) (t := false) rfl⟩

/-- Two versions of records of 8 bytes: the last byte of the first record is the first byte of the
header of the second version. -/
theorem record_overwritten : ∃ s, exec (create_versions false) twoSlacks.reset [8, 8] = some s ∧
    s.chunks = [(56, 56), (0, 56)] ∧ 56 ∈ record (0, 56) ∧ 56 ∈ header (56, 56) ∧ ¬VersionsSeparate s := by
  refine ⟨_, rfl, rfl, ?_, ?_, fun h => ?_⟩
  · exact (by decide : 56 ∈ Set.Ico 49 (49 + 8))
  · exact (by decide : 56 ∈ Set.Ico 56 (56 + 48))
  exact absurd ((version_inside_iff 0 8).1 (h.inside (0, 56) (by decide))) (by decide)

end

/-! ## Tagged pointers -/

variable (offset tag delta_idx pid : ℕ)

/-- `DeltaDataPtr::update`: the word of a pointer. -/
def pack : ℕ :=
  offset % 2 ^ 36 ||| (tag % 2 ^ 20) <<< 36 ||| (pid % 2 ^ 4) <<< 56 ||| (delta_idx % 2 ^ 4) <<< 60

def get_delta_idx (val : ℕ) : ℕ := val >>> 60

def get_tag (val : ℕ) : ℕ := val >>> 36 % 2 ^ 20

/-- `verifyTag`, which is `isValid`, when the stores have these tags. -/
def verifyTag (tag : ℕ → ℕ) (val : ℕ) : Bool := tag (get_delta_idx val) % 2 ^ 20 == get_tag val

/-- The pointer that store `d` returns for a chunk. -/
def allocate (tag : ℕ → ℕ) (d : Fin 16) (pid offset : ℕ) : ℕ := pack offset (tag d) d pid

/-- A successful `GC` of store `d`; the tag has 32 bits. -/
def resetStore (tag : ℕ → ℕ) (d : ℕ) : ℕ → ℕ := update tag d ((tag d + 1) % 2 ^ 32)

/-- The tags after the constructors and these resets. -/
def tagsAfter (resets : List ℕ) : ℕ → ℕ := resets.foldl resetStore fun _ => 1

theorem foldl_resetStore (resets : List ℕ) (tag : ℕ → ℕ) (d : ℕ) :
    resets.foldl resetStore tag d % 2 ^ 20 = (tag d + resets.count d) % 2 ^ 20 := by
  induction resets generalizing tag with
  | nil => rfl
  | cons e resets ih =>
    rw [foldl_cons, ih, resetStore, count_cons]
    obtain rfl | hne := eq_or_ne d e
    · rw [update_self, beq_self_eq_true, if_pos rfl]
      omega
    · rw [update_of_ne hne, beq_eq_false_iff_ne.2 hne.symm]
      simp

theorem or_shiftLeft {a i : ℕ} (ha : a < 2 ^ i) (b : ℕ) : a ||| b <<< i = a + b * 2 ^ i := by
  rw [Nat.or_comm, ← Nat.shiftLeft_add_eq_or_of_lt ha, Nat.shiftLeft_eq, add_comm]

/-- The fields of a packed word do not overlap. -/
theorem pack_eq : pack offset tag delta_idx pid =
    offset % 2 ^ 36 + tag % 2 ^ 20 * 2 ^ 36 + pid % 2 ^ 4 * 2 ^ 56 + delta_idx % 2 ^ 4 * 2 ^ 60 := by
  rw [pack, or_shiftLeft (i := 36) (by omega), or_shiftLeft (i := 56) (by omega),
    or_shiftLeft (i := 60) (by omega)]

/-- A pointer validates when the store has been reset a multiple of 2^20 times since. -/
theorem verifyTag_allocate (tag tag' : ℕ → ℕ) (d : Fin 16) (pid offset : ℕ) :
    verifyTag tag' (allocate tag d pid offset) = true ↔ tag' d % 2 ^ 20 = tag d % 2 ^ 20 := by
  have hidx : get_delta_idx (allocate tag d pid offset) = d := by
    rw [get_delta_idx, allocate, pack_eq, shiftRight_eq_div_pow]
    omega
  have htag : get_tag (allocate tag d pid offset) = tag d % 2 ^ 20 := by
    rw [get_tag, allocate, pack_eq, shiftRight_eq_div_pow]
    omega
  rw [verifyTag, hidx, htag, beq_iff_eq]

/-- After any resets, a pointer whose store was reset since its allocation is detected as stale and the
null pointer is not valid, if and only if neither the number of those resets nor the tag of store 0 is a
multiple of 2^20. -/
theorem stale_detected_iff (before after : List ℕ) (d : Fin 16) (pid offset : ℕ) :
    ((0 < after.count ↑d →
        verifyTag (tagsAfter (before ++ after)) (allocate (tagsAfter before) d pid offset) = false) ∧
      verifyTag (tagsAfter (before ++ after)) 0 = false) ↔
    (0 < after.count ↑d → ¬2 ^ 20 ∣ after.count ↑d) ∧ ¬2 ^ 20 ∣ 1 + (before ++ after).count 0 := by
  have hstale : verifyTag (tagsAfter (before ++ after)) (allocate (tagsAfter before) d pid offset) =
      true ↔ 2 ^ 20 ∣ after.count ↑d := by
    rw [verifyTag_allocate, tagsAfter, foldl_append, foldl_resetStore, tagsAfter]
    omega
  have hnull : verifyTag (tagsAfter (before ++ after)) 0 = true ↔
      2 ^ 20 ∣ 1 + (before ++ after).count 0 := by
    rw [verifyTag, beq_iff_eq]
    exact (foldl_resetStore _ _ 0).congr_left.trans (dvd_iff_mod_eq_zero ..).symm
  rw [← hstale, ← hnull, Bool.not_eq_true, Bool.not_eq_true]

/-- After 2^20 resets of store 0 a pointer from before them is valid, and one reset before that the
null pointer is. -/
theorem stale_valid :
    verifyTag (tagsAfter (List.replicate (2 ^ 20) 0)) (allocate (tagsAfter []) 0 0 0) = true ∧
    verifyTag (tagsAfter (List.replicate (2 ^ 20 - 1) 0)) 0 = true := by
  have hcount : ∀ n, tagsAfter (replicate n 0) 0 % 2 ^ 20 = (1 + n) % 2 ^ 20 := by
    intro n
    rw [tagsAfter, foldl_resetStore, count_replicate_self]
  have hstale : ∀ n, 2 ^ 20 ∣ n →
      verifyTag (tagsAfter (replicate n 0)) (allocate (tagsAfter []) 0 0 0) = true := by
    rintro n ⟨k, rfl⟩
    exact (verifyTag_allocate ..).2 ((hcount _).trans (add_mul_mod_self_left 1 _ k))
  have hnull : ∀ n, 2 ^ 20 ∣ 1 + n → verifyTag (tagsAfter (replicate n 0)) 0 = true :=
    fun n hn => beq_iff_eq.2 ((hcount n).trans (mod_eq_zero_of_dvd hn))
  exact ⟨hstale _ dvd_rfl, hnull _ (by decide)⟩

end Proteus.Oltp.DeltaMemory
