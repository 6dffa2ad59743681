import Proteus.Oltp.DeltaMemory

/-!
# Packed ids

`StorageUtils` packs the master version, the partition and the offset of a row into one word, and its
table, partition and offset into another. A `DeltaDataPtr` packs the store, the partition, the tag and
the offset of a chunk. The fields do not overlap, so each is read back; a pointer keeps four bits of
the store and of the partition and 36 of the offset (`packed_ids`).
-/

namespace Proteus.Oltp

open Nat DeltaMemory

namespace DeltaMemory

variable (val delta_idx pid data_ptr tag : ℕ) (base : ℕ → ℕ)

def get_partition_idx : ℕ := val >>> 56 % 2 ^ 4

def get_offset : ℕ := val % 2 ^ 36

def get_delta_idx_pid_pair : ℕ := val >>> 56 % 2 ^ 8

def create_delta_idx_pid_pair : ℕ := (delta_idx % 2 ^ 4) <<< 4 ||| pid % 2 ^ 4

/-- How far a chunk is from the `data_memory_base` of its store and partition. -/
def distance : ℕ := (data_ptr + 2 ^ 64 - base (create_delta_idx_pid_pair delta_idx pid)) % 2 ^ 64

/-- `DeltaDataPtr(data_ptr, tag, delta_idx, pid)`. -/
def dataPtr : ℕ := pack (distance delta_idx pid data_ptr base) tag delta_idx pid

/-- What `get_ptr` returns if the tag is that of the store. -/
def address : ℕ := (base (get_delta_idx_pid_pair val) + get_offset val) % 2 ^ 64

theorem dataPtr_fields {p : ℕ} (hp : p = dataPtr delta_idx pid data_ptr tag base) :
    get_offset p = distance delta_idx pid data_ptr base % 2 ^ 36 ∧ get_tag p = tag % 2 ^ 20 ∧
      get_partition_idx p = pid % 2 ^ 4 ∧ get_delta_idx p = delta_idx % 2 ^ 4 ∧
      get_delta_idx_pid_pair p = create_delta_idx_pid_pair delta_idx pid := by
  have hpair : create_delta_idx_pid_pair delta_idx pid = pid % 2 ^ 4 + delta_idx % 2 ^ 4 * 2 ^ 4 := by
    rw [create_delta_idx_pid_pair, Nat.or_comm, or_shiftLeft (by omega)]
  rw [dataPtr, pack_eq] at hp
  simp only [get_offset, get_tag, get_partition_idx, get_delta_idx, get_delta_idx_pid_pair,
    shiftRight_eq_div_pow, hpair]
  omega

/-- Store 16 becomes store 0. -/
theorem dataPtr_other_store : get_delta_idx (dataPtr 16 0 8 0 fun _ => 0) = 0 := by decide

end DeltaMemory

namespace StorageUtils

variable (vid partition_id master_version row_uuid : ℕ)

def create_vid : ℕ := vid &&& 0x000000FFFFFFFFFF ||| partition_id <<< 40 ||| master_version <<< 48

def update_mVer : ℕ := vid &&& 0xFF00FFFFFFFFFFFF ||| master_version <<< 48

def get_offset : ℕ := vid &&& 0x000000FFFFFFFFFF

def get_pid : ℕ := (vid &&& 0x0000FF0000000000) >>> 40

def get_m_version : ℕ := (vid &&& 0x00FF000000000000) >>> 48

def get_row_uuid (tableId vid : ℕ) : ℕ := vid &&& 0x0000FFFFFFFFFFFF ||| tableId <<< 48

def get_tableId_from_rowUuid : ℕ := row_uuid >>> 48 % 2 ^ 8

def get_rowId_from_rowUuid : ℕ := row_uuid &&& 0x0000FFFFFFFFFFFF

def get_pid_from_rowUuid : ℕ := get_pid (get_rowId_from_rowUuid row_uuid)

/-- A mask of `w` bits from bit `lo` on. -/
theorem and_mask (x w lo : ℕ) : x &&& (2 ^ w - 1) <<< lo = (x / 2 ^ lo % 2 ^ w) <<< lo := by
  rw [← shiftRight_eq_div_pow, ← and_two_pow_sub_one_eq_mod]
  apply eq_of_testBit_eq
  intro i
  simp only [testBit_and, testBit_shiftLeft, testBit_shiftRight]
  by_cases hi : lo ≤ i
  · simp [hi, Nat.add_sub_cancel' hi]
  · simp [hi]

theorem and_mask_shiftRight (x w lo : ℕ) : (x &&& (2 ^ w - 1) <<< lo) >>> lo = x / 2 ^ lo % 2 ^ w := by
  rw [and_mask, shiftLeft_shiftRight]

variable {vid partition_id master_version row_uuid}

theorem get_offset_eq : get_offset vid = vid % 2 ^ 40 := and_two_pow_sub_one_eq_mod vid 40

theorem get_rowId_eq : get_rowId_from_rowUuid row_uuid = row_uuid % 2 ^ 48 :=
  and_two_pow_sub_one_eq_mod row_uuid 48

theorem get_pid_eq : get_pid vid = vid / 2 ^ 40 % 2 ^ 8 := and_mask_shiftRight vid 8 40

theorem get_m_version_eq : get_m_version vid = vid / 2 ^ 48 % 2 ^ 8 := and_mask_shiftRight vid 8 48

theorem create_vid_eq (hp : partition_id < 2 ^ 8) : create_vid vid partition_id master_version =
    vid % 2 ^ 40 + partition_id * 2 ^ 40 + master_version * 2 ^ 48 := by
  rw [create_vid, show vid &&& 0x000000FFFFFFFFFF = _ from get_offset_eq, or_shiftLeft (i := 40) (by omega),
    or_shiftLeft (by omega)]

theorem update_mVer_eq (hm : master_version < 2 ^ 8) : update_mVer vid master_version =
    vid % 2 ^ 48 + master_version * 2 ^ 48 + vid / 2 ^ 56 % 2 ^ 8 * 2 ^ 56 := by
  rw [update_mVer, show 0xFF00FFFFFFFFFFFF = (2 ^ 48 - 1) ||| (2 ^ 8 - 1) <<< 56 from rfl,
    and_or_distrib_left, and_mask, and_two_pow_sub_one_eq_mod, Nat.or_assoc, Nat.or_comm (_ <<< 56),
    ← Nat.or_assoc, or_shiftLeft (i := 48) (by omega), or_shiftLeft (by omega)]

theorem get_row_uuid_eq (tableId : ℕ) :
    get_row_uuid tableId vid = vid % 2 ^ 48 + tableId * 2 ^ 48 := by
  rw [get_row_uuid, show vid &&& 0x0000FFFFFFFFFFFF = _ from get_rowId_eq, or_shiftLeft (by omega)]

/-- Ids are read back, and so are the fields of a pointer that fit. -/
theorem packed_ids :
    (∀ offset < 2 ^ 40, ∀ pid < 2 ^ 8, ∀ m < 2 ^ 8, get_pid (create_vid offset pid m) = pid ∧
      get_m_version (create_vid offset pid m) = m ∧ get_offset (create_vid offset pid m) = offset) ∧
    (∀ vid < 2 ^ 64, ∀ m < 2 ^ 8, get_m_version (update_mVer vid m) = m ∧
      get_pid (update_mVer vid m) = get_pid vid ∧ get_offset (update_mVer vid m) = get_offset vid ∧
      update_mVer vid m >>> 56 = vid >>> 56) ∧
    (∀ t < 2 ^ 8, ∀ pid < 2 ^ 8, ∀ offset < 2 ^ 40, ∀ m,
      get_tableId_from_rowUuid (get_row_uuid t (create_vid offset pid m)) = t ∧
      get_pid_from_rowUuid (get_row_uuid t (create_vid offset pid m)) = pid ∧
      get_rowId_from_rowUuid (get_row_uuid t (create_vid offset pid m)) = create_vid offset pid 0 ∧
      ∀ t' < 2 ^ 8, ∀ pid' < 2 ^ 8, ∀ offset' < 2 ^ 40, ∀ m',
        get_row_uuid t (create_vid offset pid m) = get_row_uuid t' (create_vid offset' pid' m') →
        t = t' ∧ pid = pid' ∧ offset = offset') ∧
    ∀ base : ℕ → ℕ, (∀ i, base i < 2 ^ 64) → ∀ data_ptr < 2 ^ 64, ∀ tag delta_idx pid p,
      p = dataPtr delta_idx pid data_ptr tag base → get_tag p = tag % 2 ^ 20 ∧
      (address p base = data_ptr ∧ get_delta_idx p = delta_idx ∧ get_partition_idx p = pid ↔
        distance delta_idx pid data_ptr base < 2 ^ 36 ∧ delta_idx < 2 ^ 4 ∧ pid < 2 ^ 4) := by
  refine ⟨?_, ?_, ?_, ?_⟩
  · intro offset ho pid hp m hm
    simp only [get_pid_eq, get_m_version_eq, get_offset_eq, create_vid_eq hp]
    omega
  · intro vid hv m hm
    simp only [get_pid_eq, get_m_version_eq, get_offset_eq, update_mVer_eq hm, shiftRight_eq_div_pow]
    omega
  · intro t ht pid hp offset ho m
    simp only [get_tableId_from_rowUuid, get_pid_from_rowUuid, get_rowId_eq, get_pid_eq, get_row_uuid_eq,
      shiftRight_eq_div_pow, create_vid_eq hp]
    refine ⟨by omega, by omega, by omega, fun t' ht' pid' hp' offset' ho' m' h => ?_⟩
    rw [create_vid_eq hp'] at h
    omega
  · intro base hb data_ptr hd tag delta_idx pid p hp
    obtain ⟨hoffset, htag, hpid, hidx, hpair⟩ := dataPtr_fields delta_idx pid data_ptr tag base hp
    have hlt := hb (create_delta_idx_pid_pair delta_idx pid)
    rw [address, hpair, hoffset, hpid, hidx, distance]
    exact ⟨htag, by omega⟩

theorem packed_ids_one : get_pid (create_vid 5 3 1) = 3 ∧
    get_delta_idx (dataPtr 2 3 8 1 fun _ => 0) = 2 :=
  ⟨(packed_ids.1 5 (by decide) 3 (by decide) 1 (by decide)).1,
    ((packed_ids.2.2.2 (fun _ => 0) (fun _ => by decide) 8 (by decide) 1 2 3 _ rfl).2.2 (by decide)).2.1⟩

end StorageUtils

end Proteus.Oltp
