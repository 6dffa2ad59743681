import Mathlib.Algebra.Order.BigOperators.Group.List
import Mathlib.Algebra.Order.Ring.Nat

/-!
# Decompression of a block

A block is compressed in chunks. `decompress_block` goes through them with two running indices, the GPU
gets an array of pointers for the compressed and one for the decompressed chunks, in which the chunks
are as far apart as the decompressor was told when it was built.
-/

namespace Proteus.Compression

open List

/-- The value of an `int`. -/
def toInt (x : ℤ) : ℤ := x.bmod (2 ^ 32)

/-- The indices at which `decompress_block` reads and writes the chunks, and what it returns. A chunk
is its compressed size and what `LZ4_decompress_safe` returns for it. -/
def decompress_block : List (ℕ × ℤ) → ℤ → ℤ → List (ℤ × ℤ) × ℤ
  | [], _, decomp_idx => ([], decomp_idx)
  | (chunk_size, decompressed_size) :: chunks, comp_idx, decomp_idx =>
    if decompressed_size < 0 then ([(comp_idx, decomp_idx)], decompressed_size)
    else
      let rest := decompress_block chunks (toInt (comp_idx + chunk_size))
        (toInt (decomp_idx + decompressed_size))
      ((comp_idx, decomp_idx) :: rest.1, rest.2)

def get_device_compressed_ptrs : List ℕ → ℕ → List ℤ
  | [], _ => []
  | chunk_size :: chunk_sizes, current_offset =>
    current_offset :: get_device_compressed_ptrs chunk_sizes (current_offset + chunk_size)

def get_device_uncompressed_ptrs (max_decomp_chunk_size : ℕ) (chunk_sizes : List ℕ) : List ℤ :=
  (range chunk_sizes.length).map fun j => ((j * max_decomp_chunk_size : ℕ) : ℤ)

/-- What the memory move builds its decompressors with. -/
def max_decomp_chunk_size : ℕ := 16 * 1024

def batch_decompress_block_gpu (chunk_sizes : List ℕ) : List (ℤ × ℤ) :=
  (get_device_compressed_ptrs chunk_sizes 0).zip
    (get_device_uncompressed_ptrs max_decomp_chunk_size chunk_sizes)

/-- The chunks of a block under a correct codec: all but the last one decompress to `size` bytes. -/
def chunks (size last : ℕ) : List ℕ → List (ℕ × ℤ)
  | [] => []
  | [c] => [(c, last)]
  | c :: cs => (c, size) :: chunks size last cs

theorem differ_at_second : (decompress_block (chunks 32768 5 [10, 10]) 0 0).1 ≠
    batch_decompress_block_gpu [10, 10] := by decide

variable {size last : ℕ} {cs : List ℕ}

theorem toInt_eq_self {x : ℕ} : toInt x = x ↔ x < 2 ^ 31 := by
  rw [toInt, Int.bmod_def]
  split_ifs <;> omega

theorem decompress_block_offsets (x y : ℕ) :
    (decompress_block (chunks size last cs) (toInt x) (toInt y)).1 = (range cs.length).map fun k =>
      (toInt (x + (cs.take k).sum : ℕ), toInt (y + k * size : ℕ)) := by
  have hok : ∀ n : ℕ, ¬(n : ℤ) < 0 := fun n => (Int.natCast_nonneg n).not_gt
  have hadd : ∀ a b : ℕ, toInt (toInt a + b) = toInt (a + b : ℕ) := fun a b => by
    rw [toInt, toInt, Int.bmod_add_bmod, toInt, Int.natCast_add]
  fun_induction chunks size last cs generalizing x y with
  | case1 => rfl
  | case2 c => simp [decompress_block, hok]
  | case3 c cs _ ih =>
    simp only [decompress_block, hadd, ih, if_neg (hok size), length_cons, range_succ_eq_map, map_cons,
      map_map]
    refine congrArg₂ _ (by simp) (map_congr_left fun k _ => ?_)
    simp only [Function.comp_apply, take_succ_cons, sum_cons, Nat.succ_mul, Nat.add_assoc,
      Nat.add_comm size]

theorem get_device_compressed_ptrs_eq (cs : List ℕ) (x : ℕ) :
    get_device_compressed_ptrs cs x = (range cs.length).map fun k => ((x + (cs.take k).sum : ℕ) : ℤ) := by
  induction cs generalizing x with
  | nil => rfl
  | cons c cs ih =>
    simp [get_device_compressed_ptrs, ih, range_succ_eq_map, Nat.add_assoc]

/-- **The CPU and the GPU decompress a block alike** if it has one chunk, or its chunks have the size
that the decompressors are built for and no index overflows. -/
theorem offsets_eq_iff (hsize : size < 2 ^ 31) :
    (decompress_block (chunks size last cs) 0 0).1 = batch_decompress_block_gpu cs ↔
      cs.length ≤ 1 ∨ size = max_decomp_chunk_size ∧ cs.dropLast.sum < 2 ^ 31 ∧
        (cs.length - 1) * max_decomp_chunk_size < 2 ^ 31 := by
  have hcpu := @decompress_block_offsets size last cs 0 0
  have h0 : toInt (0 : ℕ) = 0 := rfl
  rw [h0] at hcpu
  rw [hcpu, batch_decompress_block_gpu, get_device_compressed_ptrs_eq, get_device_uncompressed_ptrs,
    zip_map', map_inj_left]
  simp only [Prod.mk.injEq, Nat.zero_add, toInt_eq_self, mem_range]
  constructor
  · intro h
    by_contra hn
    obtain ⟨hlen, hn⟩ := not_or.1 hn
    have h1 := (h 1 (by omega)).2
    have hlast := h (cs.length - 1) (by omega)
    rw [Nat.one_mul, Nat.one_mul, toInt_eq_self.2 hsize] at h1
    obtain rfl : size = max_decomp_chunk_size := Int.ofNat_inj.1 h1
    exact hn ⟨rfl, dropLast_eq_take ▸ hlast.1, toInt_eq_self.1 hlast.2⟩
  · rintro (hlen | ⟨rfl, hsum, hlen⟩) k hk
    · obtain rfl : k = 0 := by omega
      simp [toInt]
    · have hle : (cs.take k).sum ≤ cs.dropLast.sum := by
        rw [dropLast_eq_take]
        exact (take_sublist_take_left (by omega)).sum_le_sum fun _ _ => Nat.zero_le _
      exact ⟨hle.trans_lt hsum, toInt_eq_self.2 ((Nat.mul_le_mul_right _ (by omega)).trans_lt hlen)⟩

theorem offsets_eq_two : (decompress_block (chunks 16384 5 [10, 10]) 0 0).1 =
    batch_decompress_block_gpu [10, 10] :=
  (offsets_eq_iff (by decide)).2 (by decide)

end Proteus.Compression
