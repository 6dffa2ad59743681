import Mathlib.Data.List.Chain
import Mathlib.Data.Nat.Prime.Basic
import Mathlib.Tactic.Ring
import Proteus.Tiling

/-!
# Partitioning a column file

`FileRecord` cuts a column file into one piece for every device that holds data. The loaders count in
units of a four byte integer per row: `factor` is the width of an element in such units and
`filesize` the size of the file divided by it, so that the pieces, which are multiples of an
alignment in units, end at the same rows in columns of different widths.

The pieces of every loader tile the first `filesize * factor` bytes, start at whole elements, and
the rows they hold are a function of `filesize` (`load_spec`). `loadEverywhere` takes the size of the
file itself for `filesize`. Its pieces therefore reach beyond the file, as soon as an element is
wider than four bytes; `sound_iff` says for every loader when the pieces are a partition of the
file and when those of two columns hold the same rows.

Sizes are natural numbers: no product of a file size below `2 ^ 63` that the loaders form leaves the
range of `size_t`. A division by zero is a `none`.
-/

namespace Proteus.Storage

open List Nat

/-! ## The loaders -/

/-- The memory that a piece is put into. -/
inductive Device
  | cpu (i : ℕ)
  | gpu (i : ℕ)
  deriving DecidableEq, Repr

/-- A piece of the file. -/
structure MmapFile where
  device : Device
  bytes : ℕ
  offset : ℕ
  deriving DecidableEq, Repr

namespace MmapFile

/-- The bytes of the file that the piece holds: the first and how many. -/
def range (f : MmapFile) : ℕ × ℕ := (f.offset, f.bytes)

/-- The rows that the piece holds, for elements of the given width. -/
def rows (width : ℕ) (f : MmapFile) : ℕ × ℕ := (f.offset / width, f.bytes / width)

end MmapFile

structure Topology where
  getCpuNumaNodeCount : ℕ
  getGpuCount : ℕ
  cpu_pos : 0 < getCpuNumaNodeCount

def sizeofInt32 : ℕ := 4

/-- The system and the servers that a file is loaded on. -/
structure Setup where
  page_size : ℕ
  buff_cap : ℕ
  topology : Topology
  server_count : ℕ
  server : ℕ → Topology
  pref_gpu_weight : ℕ
  pref_cpu_weight : ℕ
  page_pos : 0 < page_size
  page_dvd : sizeofInt32 ∣ page_size
  server_pos : 0 < server_count

variable (S : Setup)

namespace Setup

def block_size : ℕ := S.buff_cap * sizeofInt32

def pack_alignment : ℕ := max S.page_size S.block_size

end Setup

/-- A division of the source, which traps on zero. -/
def div? (n d : ℕ) : Option ℕ := if d = 0 then none else some (n / d)

/-- The units of one device: the file in whole alignments, shared out and rounded up. -/
def part_size (pack_alignment devices filesize : ℕ) : Option ℕ :=
  (div? ((filesize + pack_alignment - 1) / pack_alignment + devices - 1) devices).map
    (· * pack_alignment)

variable (place : ℕ → Device)

/-- The loop over the devices. A device behind the end of the file gets no piece. -/
def split (part_size devices filesize factor offset : ℕ) : List MmapFile :=
  (List.range devices).flatMap fun d =>
    if part_size * d < filesize then
      [⟨place d, min part_size (filesize - part_size * d) * factor, part_size * d * factor + offset⟩]
    else []

/-- `psize` bytes of the file from `offset` on, cut for the given number of devices. -/
def loadToDevices (devices type_size psize offset : ℕ) : Option (List MmapFile) := do
  let factor := type_size / sizeofInt32
  let filesize ← div? psize factor
  let part ← part_size S.pack_alignment devices filesize
  return split place part devices filesize factor offset

def loadToGpus (topo : Topology) (type_size psize offset : ℕ) : Option (List MmapFile) :=
  loadToDevices S .gpu topo.getGpuCount type_size psize offset

def loadToCpus (topo : Topology) (type_size psize offset : ℕ) : Option (List MmapFile) :=
  loadToDevices S .cpu topo.getCpuNumaNodeCount type_size psize offset

/-- The part of the file that server `d` loads. -/
def loadDistributed (type_size bytes d : ℕ) : Option (List MmapFile) := do
  let factor := type_size / sizeofInt32
  let filesize ← div? bytes factor
  let part ← part_size S.pack_alignment S.server_count filesize
  let rem := if part * d < filesize then filesize - part * d else 0
  loadToCpus S (S.server d) type_size (min part rem * factor) (part * d * factor)

/-- Number of shares of a file that is spread over all sockets and GPUs. -/
def Setup.everywhereDevices : ℕ :=
  S.topology.getCpuNumaNodeCount * S.pref_cpu_weight + S.topology.getGpuCount * S.pref_gpu_weight

/-- The device of share `d`: the sockets come first. -/
def Setup.everywherePlace (d : ℕ) : Device :=
  if d < S.topology.getCpuNumaNodeCount * S.pref_cpu_weight then
    .cpu (d % S.topology.getCpuNumaNodeCount)
  else
    .gpu ((d - S.topology.getCpuNumaNodeCount * S.pref_cpu_weight) % S.topology.getGpuCount)

variable (type_size bytes : ℕ)

/-- Unlike the other loaders, this one does not divide the size of the file by `factor`. -/
def loadEverywhere : Option (List MmapFile) := do
  let factor := type_size / sizeofInt32
  let filesize := bytes
  let part ← part_size S.pack_alignment S.everywhereDevices filesize
  return split S.everywherePlace part S.everywhereDevices filesize factor 0

inductive Loader
  | cpus
  | gpus
  | distributed
  | everywhere
  deriving DecidableEq, Repr

/-- All pieces of a file; for the distributed loader those of all servers together. -/
def load : Loader → Option (List MmapFile)
  | .cpus => loadToCpus S S.topology type_size bytes 0
  | .gpus => loadToGpus S S.topology type_size bytes 0
  | .distributed =>
    ((List.range S.server_count).mapM (loadDistributed S type_size bytes)).map List.flatten
  | .everywhere => loadEverywhere S type_size bytes

/-! ## Sizes -/

theorem div?_of_pos {n d : ℕ} (h : 0 < d) : div? n d = some (n / d) := if_neg h.ne'

theorem le_mul_div_add {a : ℕ} (n : ℕ) (ha : 0 < a) : n ≤ a * ((n + a - 1) / a) := by
  have h1 := div_add_mod (n + a - 1) a
  have h2 := mod_lt (n + a - 1) ha
  omega

/-- The shares are aligned, and together they hold the file. -/
theorem part_size_spec {align devices : ℕ} (filesize : ℕ) (ha : 0 < align) (hd : 0 < devices) :
    ∃ part, part_size align devices filesize = some part ∧ align ∣ part ∧
      filesize ≤ part * devices := by
  refine ⟨_, by rw [part_size, div?_of_pos hd]; rfl, dvd_mul_left _ _, ?_⟩
  have h1 := le_mul_div_add filesize ha
  have h2 := le_mul_div_add ((filesize + align - 1) / align) hd
  calc filesize ≤ align * ((filesize + align - 1) / align) := h1
    _ ≤ align * (devices * (((filesize + align - 1) / align + devices - 1) / devices)) :=
      mul_le_mul_left _ h2
    _ = _ := by ring

namespace Setup

variable (S : Setup)

theorem align_pos : 0 < S.pack_alignment := lt_max_of_lt_left S.page_pos

theorem align_dvd : sizeofInt32 ∣ S.pack_alignment := by
  rw [Setup.pack_alignment]
  rcases max_choice S.page_size S.block_size with h | h
  · rw [h]
    exact S.page_dvd
  · rw [h]
    exact Dvd.intro_left _ rfl

end Setup

/-! ## The pieces of a loop over the devices -/

open MmapFile

section

variable {place : ℕ → Device} {part devices filesize factor offset : ℕ}

theorem min_piece_end {d : ℕ} (h : part * d < filesize) :
    min (part * d + part) filesize = part * d + min part (filesize - part * d) := by
  omega

theorem tiles_split (h : filesize ≤ part * devices) :
    Tiles offset ((split place part devices filesize factor offset).map range)
      (filesize * factor + offset) := by
  rw [split, map_flatMap]
  have htiles := Tiles.flatMap_range (g := fun d => min (part * d) filesize * factor + offset)
    (f := fun d => (if part * d < filesize then
      [(⟨place d, min part (filesize - part * d) * factor, part * d * factor + offset⟩ : MmapFile)]
      else []).map range) devices fun d _ => ?_
  · simpa [h] using htiles
  · rw [mul_add_one]
    split_ifs with hd
    · rw [min_eq_left hd.le, min_piece_end hd, add_mul, add_right_comm]
      exact .single _ _
    · rw [min_eq_right (not_lt.1 hd), min_eq_right (by omega)]
      exact .nil _

theorem dvd_offset_of_mem_split {f : MmapFile} (hpart : sizeofInt32 ∣ part)
    (hoff : factor * sizeofInt32 ∣ offset) (hf : f ∈ split place part devices filesize factor offset) :
    factor * sizeofInt32 ∣ f.offset := by
  simp only [split, mem_flatMap, mem_range] at hf
  obtain ⟨d, -, hf⟩ := hf
  split_ifs at hf
  · obtain rfl := mem_singleton.1 hf
    refine Nat.dvd_add ?_ hoff
    rw [mul_comm factor]
    exact Nat.mul_dvd_mul_right (Dvd.dvd.mul_right hpart d) factor
  · cases hf

theorem bytes_pos_of_mem_split {f : MmapFile} (hf : 0 < factor) (h : filesize ≤ part * devices)
    (hmem : f ∈ split place part devices filesize factor offset) : 0 < f.bytes := by
  simp only [split, mem_flatMap, mem_range] at hmem
  obtain ⟨d, -, hmem⟩ := hmem
  split_ifs at hmem with hd
  · obtain rfl := mem_singleton.1 hmem
    have hpart : part ≠ 0 := by
      rintro rfl
      omega
    exact mul_pos (lt_min (pos_of_ne_zero hpart) (by omega)) hf
  · cases hmem

/-- The rows of the pieces, for a loop that starts `start` units into the file. -/
def unitRows (part devices filesize start : ℕ) : List (ℕ × ℕ) :=
  (List.range devices).flatMap fun d =>
    if part * d < filesize then
      [((part * d + start) / sizeofInt32, min part (filesize - part * d) / sizeofInt32)]
    else []

theorem rows_split (hf : 0 < factor) (start : ℕ) :
    (split place part devices filesize factor (start * factor)).map
      (rows (factor * sizeofInt32)) = unitRows part devices filesize start := by
  rw [split, map_flatMap]
  congr 1
  funext d
  split_ifs
  · rw [map_singleton, rows, ← Nat.add_mul, mul_comm factor,
      Nat.mul_div_mul_right _ _ hf, Nat.mul_div_mul_right _ _ hf]
  · rfl

end

/-! ## The pieces of the loaders -/

/-- There is a device to load to. -/
def Setup.HasDevice : Loader → Prop
  | .cpus => True
  | .gpus => 0 < S.topology.getGpuCount
  | .distributed => True
  | .everywhere => 0 < S.everywhereDevices

/-- The size of the file in the units that the loader counts in. -/
def units (factor bytes : ℕ) : Loader → ℕ
  | .everywhere => bytes
  | _ => bytes / factor

variable {S : Setup} {start : ℕ} {ℓ : Loader}

section

variable {factor bytes : ℕ}

theorem factor_eq : factor * sizeofInt32 / sizeofInt32 = factor := Nat.mul_div_cancel _ (by decide)

/-- Pieces that hold `filesize` units from `start` on, in the rows that `rows` lists. -/
structure Pieces (factor start filesize : ℕ) (rows : List (ℕ × ℕ)) (fs : List MmapFile) : Prop where
  tiles : Tiles (start * factor) (fs.map MmapFile.range) ((start + filesize) * factor)
  pos : ∀ f ∈ fs, 0 < f.bytes
  aligned : ∀ f ∈ fs, factor * sizeofInt32 ∣ f.offset
  rows : fs.map (MmapFile.rows (factor * sizeofInt32)) = rows

theorem Pieces.eq_nil {rows : List (ℕ × ℕ)} {fs : List MmapFile}
    (h : Pieces factor start 0 rows fs) : fs = [] := by
  refine eq_nil_iff_forall_not_mem.2 fun f hf => ?_
  have hin := h.tiles.within (mem_map_of_mem hf)
  have hpos := h.pos f hf
  simp only [MmapFile.range, add_zero] at hin
  omega

theorem pieces_split {place : ℕ → Device} {part devices filesize : ℕ} (hf : 0 < factor)
    (hpart : sizeofInt32 ∣ part) (hstart : sizeofInt32 ∣ start) (h : filesize ≤ part * devices) :
    Pieces factor start filesize (unitRows part devices filesize start)
      (split place part devices filesize factor (start * factor)) := by
  refine ⟨?_, fun f hmem => ?_, fun f hmem => dvd_offset_of_mem_split hpart ?_ hmem,
    rows_split hf start⟩
  · rw [add_comm, add_mul]
    exact tiles_split h
  · exact bytes_pos_of_mem_split hf h hmem
  · rw [mul_comm factor]
    exact mul_dvd_mul_right hstart factor

/-- The devices of one server: the rows of the pieces depend on the number of units alone. -/
theorem loadToDevices_spec (S : Setup) (place : ℕ → Device) {devices : ℕ} (hd : 0 < devices)
    (hstart : sizeofInt32 ∣ start) (filesize : ℕ) : ∃ rows, ∀ factor psize, 0 < factor →
      psize / factor = filesize → ∃ fs, loadToDevices S place devices (factor * sizeofInt32) psize
        (start * factor) = some fs ∧ Pieces factor start filesize rows fs := by
  obtain ⟨part, hpart, hdvd, hle⟩ := part_size_spec filesize S.align_pos hd
  refine ⟨unitRows part devices filesize start, fun factor psize hf hsize =>
    ⟨split place part devices filesize factor (start * factor), ?_,
      pieces_split hf (S.align_dvd.trans hdvd) hstart hle⟩⟩
  simp [loadToDevices, factor_eq, div?_of_pos hf, hsize, hpart]

theorem mapM_eq_some {α β : Type} {f : α → Option β} {g : α → β} :
    ∀ {l : List α}, (∀ x ∈ l, f x = some (g x)) → l.mapM f = some (l.map g)
  | [], _ => rfl
  | x :: l, h => by
    rw [mapM_cons, h x mem_cons_self, mapM_eq_some fun y hy => h y (mem_cons_of_mem _ hy)]
    rfl

/-- The servers together. Each of them loads the units from `part * d` on, up to the next server. -/
theorem loadDistributed_spec (S : Setup) (filesize : ℕ) : ∃ rows, ∀ factor bytes, 0 < factor →
    bytes / factor = filesize → ∃ fs, load S (factor * sizeofInt32) bytes .distributed = some fs ∧
      Pieces factor 0 filesize rows fs := by
  obtain ⟨part, hpart, hdvd, hle⟩ := part_size_spec filesize S.align_pos S.server_pos
  have hdvd := S.align_dvd.trans hdvd
  have hserver := fun d => loadToDevices_spec S .cpu (S.server d).cpu_pos (hdvd.mul_right d)
    (min part (if part * d < filesize then filesize - part * d else 0))
  choose rows hrows using hserver
  refine ⟨(range S.server_count).flatMap rows, fun factor bytes hf hsize => ?_⟩
  have hload := fun d => hrows d factor _ hf (Nat.mul_div_cancel _ hf)
  choose fs hfs hpieces using hload
  have hmapM : (range S.server_count).mapM
      (loadDistributed S (factor * sizeofInt32) bytes) = some ((range S.server_count).map fs) := by
    refine mapM_eq_some fun d _ => ?_
    simp [loadDistributed, loadToCpus, factor_eq, div?_of_pos hf, hsize, hpart, hfs]
  refine ⟨(range S.server_count).flatMap fs, ?_, ?_, ?_, ?_, ?_⟩
  · rw [load, hmapM]
    rfl
  · rw [map_flatMap]
    have htiles := Tiles.flatMap_range (g := fun d => min (part * d) filesize * factor)
      (f := fun d => (fs d).map range) S.server_count fun d _ => ?_
    · simpa [hle] using htiles
    · have hd := hpieces d
      rw [mul_add_one]
      split_ifs at hd with hlt
      · rw [min_eq_left hlt.le, min_piece_end hlt]
        exact hd.tiles
      · rw [min_zero] at hd
        rw [hd.eq_nil, min_eq_right (not_lt.1 hlt), min_eq_right (by omega)]
        exact .nil _
  · intro f hf
    obtain ⟨d, -, hf⟩ := mem_flatMap.1 hf
    exact (hpieces d).pos f hf
  · intro f hf
    obtain ⟨d, -, hf⟩ := mem_flatMap.1 hf
    exact (hpieces d).aligned f hf
  · rw [map_flatMap]
    congr 1
    funext d
    exact (hpieces d).rows

/-- **The pieces of a loader.** They hold the first `units` units of the file, start at whole
elements, and hold rows that depend on the number of units alone. -/
theorem load_spec (hdev : S.HasDevice ℓ) (filesize : ℕ) : ∃ rows, ∀ factor bytes,
    0 < factor → units factor bytes ℓ = filesize → ∃ fs,
      load S (factor * sizeofInt32) bytes ℓ = some fs ∧ Pieces factor 0 filesize rows fs := by
  have hzero : ∀ factor, 0 * factor = 0 := zero_mul
  cases ℓ with
  | cpus =>
    have h := loadToDevices_spec S .cpu S.topology.cpu_pos (dvd_zero _) filesize
    simp only [hzero] at h
    exact h
  | gpus =>
    have h := loadToDevices_spec S .gpu hdev (dvd_zero _) filesize
    simp only [hzero] at h
    exact h
  | distributed => exact loadDistributed_spec S filesize
  | everywhere =>
    obtain ⟨part, hpart, hdvd, hle⟩ := part_size_spec filesize S.align_pos hdev
    refine ⟨unitRows part S.everywhereDevices filesize 0, fun factor bytes hf hsize => ?_⟩
    refine ⟨split S.everywherePlace part S.everywhereDevices filesize factor (0 * factor), ?_,
      pieces_split hf (S.align_dvd.trans hdvd) (dvd_zero _) hle⟩
    obtain rfl : bytes = filesize := hsize
    simp [load, loadEverywhere, factor_eq, hpart]

/-- Without a device the loaders divide by zero. -/
theorem load_eq_none (hdev : ¬S.HasDevice ℓ) : load S (factor * sizeofInt32) bytes ℓ = none := by
  cases ℓ with
  | cpus | distributed => exact absurd trivial hdev
  | gpus =>
    have h0 : S.topology.getGpuCount = 0 := Nat.eq_zero_of_not_pos hdev
    simp [load, loadToGpus, loadToDevices, factor_eq, part_size, div?, h0]
  | everywhere =>
    have h0 : S.everywhereDevices = 0 := Nat.eq_zero_of_not_pos hdev
    simp [load, loadEverywhere, part_size, div?, h0]

end

/-! ## The partition of a file -/

/-- The pieces of a file of `size` bytes with elements of `width` bytes. -/
structure Partitioned (width size : ℕ) (fs : List MmapFile) : Prop where
  first : ∀ f ∈ fs.head?, f.offset = 0
  consecutive : fs.IsChain fun f g => f.offset + f.bytes = g.offset
  disjoint : fs.Pairwise fun f g => f.offset + f.bytes ≤ g.offset
  aligned : ∀ f ∈ fs, width ∣ f.offset
  whole : width ∣ size → ∀ f ∈ fs, width ∣ f.bytes
  within : ∀ f ∈ fs, f.offset + f.bytes ≤ size
  covers : ∀ x < size, ∃ f ∈ fs, f.offset ≤ x ∧ x < f.offset + f.bytes

/-- What the loaders promise for a column file of `size` bytes, and for it and a column of elements of
`width'` bytes with as many rows. -/
structure Sound (S : Setup) (ℓ : Loader) (width width' size : ℕ) : Prop where
  partitioned : ∃ fs, load S width size ℓ = some fs ∧ Partitioned width size fs
  sameRows : ∀ rows, size = rows * width → ∃ fs fs', load S width (rows * width) ℓ = some fs ∧
    load S width' (rows * width') ℓ = some fs' ∧
    fs.map (MmapFile.rows width) = fs'.map (MmapFile.rows width')

section

variable {ℓ : Loader} {factor factor' bytes filesize : ℕ} {rows : List (ℕ × ℕ)} {fs : List MmapFile}
  {width : ℕ}

section

variable (h : Pieces factor 0 filesize rows fs)
include h

theorem Pieces.tiles_zero : Tiles 0 (fs.map range) (filesize * factor) := by
  have := h.tiles
  rwa [zero_mul, zero_add] at this

theorem Pieces.partitioned : Partitioned (factor * sizeofInt32) (filesize * factor) fs := by
  have ht := h.tiles_zero
  refine ⟨fun f hf => ?_, ?_, ?_, h.aligned, fun hdvd f hf => ?_, fun f hf => ?_, fun x hx => ?_⟩
  · exact ht.head (by rw [head?_map]; exact Option.mem_map_of_mem _ hf)
  · exact (isChain_map _).1 ht.isChain
  · exact pairwise_map.1 ht.pairwise
  · refine ht.dvd_length (fun p hp => ?_) hdvd (mem_map_of_mem hf)
    obtain ⟨g, hg, rfl⟩ := mem_map.1 hp
    exact h.aligned g hg
  · exact (ht.within (mem_map_of_mem hf)).2
  · obtain ⟨p, hp, hpx⟩ := ht.covers (zero_le x) hx
    obtain ⟨f, hf, rfl⟩ := mem_map.1 hp
    exact ⟨f, hf, hpx⟩

/-- Pieces are a partition of the file only if their units are the bytes of the file. -/
theorem Pieces.size_eq (hp : Partitioned (factor * sizeofInt32) bytes fs) : filesize * factor = bytes := by
  refine h.tiles_zero.end_eq (fun p hp' => ?_) fun x hx => ?_
  · obtain ⟨f, hf, rfl⟩ := mem_map.1 hp'
    exact hp.within f hf
  · obtain ⟨f, hf, hfx⟩ := hp.covers x hx
    exact ⟨_, mem_map_of_mem hf, hfx⟩

/-- The rows of all pieces are the rows of the file. -/
theorem Pieces.tiles_rows (hf : 0 < factor)
    (hdvd : sizeofInt32 ∣ filesize) : Tiles 0 rows (filesize / sizeofInt32) := by
  have ht := h.tiles_zero.div (c := factor * sizeofInt32) (dvd_zero _) (fun p hp => ?_)
    (by rw [mul_comm factor]; exact mul_dvd_mul_right hdvd factor)
  · rw [← h.rows]
    rw [mul_comm factor, Nat.mul_div_mul_right _ _ hf, Nat.zero_div, map_map] at ht
    rwa [mul_comm factor]
  · obtain ⟨f, hmem, rfl⟩ := mem_map.1 hp
    exact h.aligned f hmem

end

/-- A width that the loaders can count with: a whole number of four byte units. -/
def Accepted (width : ℕ) : Prop := 0 < width ∧ sizeofInt32 ∣ width

instance (width : ℕ) : Decidable (Accepted width) := inferInstanceAs (Decidable (_ ∧ _))

theorem Accepted.exists_factor (h : Accepted width) :
    ∃ factor, 0 < factor ∧ width = factor * sizeofInt32 := by
  obtain ⟨hpos, factor, rfl⟩ := h
  refine ⟨factor, Nat.pos_of_mul_pos_left hpos, mul_comm _ _⟩

theorem units_rows (hf : 0 < factor) (hℓ : ℓ ≠ .everywhere) (rows : ℕ) :
    units factor (rows * (factor * sizeofInt32)) ℓ = rows * sizeofInt32 := by
  have hdiv : rows * (factor * sizeofInt32) / factor = rows * sizeofInt32 := by
    rw [Nat.mul_left_comm, Nat.mul_div_cancel_left _ hf]
  cases ℓ with
  | everywhere => exact absurd rfl hℓ
  | cpus | gpus | distributed => exact hdiv

/-- The units that a loader counts are the whole file. -/
theorem units_mul_eq_iff : units factor bytes ℓ * factor = bytes ↔
    factor ∣ bytes ∧ (ℓ = .everywhere → bytes = 0 ∨ factor = 1) := by
  cases ℓ with
  | everywhere =>
    constructor
    · intro h
      rcases Nat.eq_zero_or_pos bytes with rfl | hpos
      · exact ⟨dvd_zero _, fun _ => .inl rfl⟩
      · have h1 : factor = 1 := Nat.eq_of_mul_eq_mul_left hpos (h.trans (mul_one bytes).symm)
        exact ⟨h1 ▸ one_dvd _, fun _ => .inr h1⟩
    · rintro ⟨-, h⟩
      rcases h rfl with rfl | rfl
      · exact zero_mul _
      · exact mul_one _
  | cpus | gpus | distributed =>
    have hdiv : bytes / factor * factor = bytes ↔ factor ∣ bytes :=
      ⟨fun h => Dvd.intro_left _ h, Nat.div_mul_cancel⟩
    simpa [units] using hdiv

/-- The pieces of a loader that returns. -/
theorem exists_pieces (hf : 0 < factor) (h : load S (factor * sizeofInt32) bytes ℓ = some fs) :
    S.HasDevice ℓ ∧ ∃ rows, Pieces factor 0 (units factor bytes ℓ) rows fs := by
  have hdev : S.HasDevice ℓ := by
    by_contra hdev
    rw [load_eq_none hdev] at h
    cases h
  obtain ⟨rows, hspec⟩ := load_spec hdev (units factor bytes ℓ)
  obtain ⟨fs', hload, hp⟩ := hspec factor bytes hf rfl
  rw [h] at hload
  cases hload
  exact ⟨hdev, rows, hp⟩

/-- Over all devices, the pieces hold `factor` times the rows of the file. -/
theorem everywhere_rows {n : ℕ} (hf : 0 < factor)
    (h : load S (factor * sizeofInt32) (n * (factor * sizeofInt32)) .everywhere = some fs) :
    Tiles 0 (fs.map (MmapFile.rows (factor * sizeofInt32))) (n * factor) := by
  obtain ⟨-, rows, hp⟩ := exists_pieces hf h
  have hunits : units factor (n * (factor * sizeofInt32)) .everywhere = n * factor * sizeofInt32 :=
    (mul_assoc _ _ _).symm
  have ht := hp.tiles_rows hf (hunits ▸ dvd_mul_left _ _)
  rwa [hunits, factor_eq, ← hp.rows] at ht

/-- **When the pieces partition the file.** There is a device, the file holds whole units, and a file
that is spread over all devices is empty or has elements of four bytes; its pieces hold the same
rows as those of another column that also has elements of four bytes. -/
theorem sound_iff {width width' size : ℕ} (hw : Accepted width) (hw' : Accepted width') :
    Sound S ℓ width width' size ↔ S.HasDevice ℓ ∧ width / sizeofInt32 ∣ size ∧
      (ℓ = .everywhere →
        size = 0 ∨ width = sizeofInt32 ∧ (width ∣ size → width' = sizeofInt32)) := by
  obtain ⟨factor, hf, rfl⟩ := hw.exists_factor
  obtain ⟨factor', hf', rfl⟩ := hw'.exists_factor
  rw [factor_eq]
  constructor
  · intro h
    obtain ⟨fs, hload, hpart⟩ := h.partitioned
    obtain ⟨hdev, rows, hp⟩ := exists_pieces hf hload
    obtain ⟨hdvd, hall⟩ := units_mul_eq_iff.1 (hp.size_eq hpart)
    refine ⟨hdev, hdvd, fun hℓ => (Nat.eq_zero_or_pos size).imp_right fun hpos => ?_⟩
    subst hℓ
    obtain rfl : factor = 1 := (hall rfl).resolve_left hpos.ne'
    refine ⟨Nat.one_mul _, fun hrows => ?_⟩
    obtain ⟨n, hn⟩ := hrows
    have hnpos : 0 < n := Nat.pos_of_mul_pos_left (hn ▸ hpos)
    obtain ⟨fs₁, fs₂, hfs₁, hfs₂, hsame⟩ := h.sameRows n (hn.trans (mul_comm _ _))
    have h₁ := everywhere_rows hf hfs₁
    have h₂ := everywhere_rows hf' hfs₂
    rw [hsame] at h₁
    rw [← Nat.eq_of_mul_eq_mul_left hnpos (h₁.end_unique h₂), Nat.one_mul]
  · rintro ⟨hdev, hdvd, hall⟩
    refine ⟨?_, ?_⟩
    · obtain ⟨rows, hspec⟩ := load_spec hdev (units factor size ℓ)
      obtain ⟨fs, hload, hp⟩ := hspec factor size hf rfl
      have hsize : units factor size ℓ * factor = size := by
        refine units_mul_eq_iff.2 ⟨hdvd, fun hℓ => (hall hℓ).imp_right fun h => ?_⟩
        exact eq_of_mul_eq_mul_right (by decide) (h.1.trans (one_mul sizeofInt32).symm)
      have hpart := hp.partitioned
      rw [hsize] at hpart
      exact ⟨fs, hload, hpart⟩
    · rintro n rfl
      have hunits : units factor (n * (factor * sizeofInt32)) ℓ =
          units factor' (n * (factor' * sizeofInt32)) ℓ := by
        by_cases hℓ : ℓ = .everywhere
        · subst hℓ
          rcases hall rfl with h0 | ⟨h1, h2⟩
          · rcases Nat.mul_eq_zero.1 h0 with rfl | h0
            · simp [units]
            · exact absurd h0 (Nat.mul_pos hf (by decide)).ne'
          · rw [h1, h2 (dvd_mul_left _ _)]
            rfl
        · rw [units_rows hf hℓ, units_rows hf' hℓ]
      obtain ⟨rows, hspec⟩ := load_spec hdev (units factor (n * (factor * sizeofInt32)) ℓ)
      obtain ⟨fs, hload, hp⟩ := hspec factor _ hf rfl
      obtain ⟨fs', hload', hp'⟩ := hspec factor' _ hf' hunits.symm
      exact ⟨fs, fs', hload, hload', hp.rows.trans hp'.rows.symm⟩

/-- Two sockets, two GPUs and three servers. -/
def smallSetup : Setup where
  page_size := 4096
  buff_cap := 4
  topology := ⟨2, 2, by decide⟩
  server_count := 3
  server := fun _ => ⟨2, 0, by decide⟩
  pref_gpu_weight := 1
  pref_cpu_weight := 1
  page_pos := by decide
  page_dvd := by decide
  server_pos := by decide

/-- Eight rows of eight bytes next to eight rows of four bytes, over three servers. -/
theorem sound_distributed : Accepted 8 ∧ Accepted 4 ∧ Sound smallSetup .distributed 8 4 64 := by
  have h8 : Accepted 8 := by decide
  have h4 : Accepted 4 := by decide
  exact ⟨h8, h4, (sound_iff h8 h4).2 ⟨trivial, by decide, nofun⟩⟩

/-- The only piece of a file of two elements of eight bytes has 32 bytes. -/
theorem everywhere_beyond_end : ∃ f, load smallSetup 8 16 .everywhere = some [f] ∧
    f.offset + f.bytes = 32 ∧ ¬Sound smallSetup .everywhere 8 8 16 := by
  refine ⟨⟨.cpu 0, 32, 0⟩, by decide, rfl, fun h => ?_⟩
  obtain ⟨fs, hload, hp⟩ := h.partitioned
  have hfs : load smallSetup 8 16 .everywhere = some [⟨.cpu 0, 32, 0⟩] := by decide
  cases hload
  have := hp.within _ mem_cons_self
  revert this
  decide

/-- A width below four bytes makes `factor` zero. -/
theorem load_narrow (hfactor : width / sizeofInt32 = 0) :
    load S width bytes .cpus = none ∧ load S width bytes .gpus = none ∧
      load S width bytes .distributed = none := by
  have hdev : ∀ place devices, loadToDevices S place devices width bytes 0 = none := fun _ _ => by
    simp [loadToDevices, hfactor, div?]
  refine ⟨hdev _ _, hdev _ _, ?_⟩
  obtain ⟨m, hm⟩ := Nat.exists_eq_add_one.2 S.server_pos
  simp [load, hm, range_succ_eq_map, loadDistributed, hfactor, div?]

/-- A width that is no multiple of four does not divide its `factor` times a power of two. -/
theorem not_dvd_pow_mul {k : ℕ} (hw : ¬sizeofInt32 ∣ width) (hpos : 0 < width / sizeofInt32) :
    ¬width ∣ 2 ^ k * (width / sizeofInt32) := by
  intro h
  rw [sizeofInt32] at hw hpos h
  -- the odd part of the width would divide `factor`, which is smaller
  obtain ⟨u, hodd, hu, hlt⟩ : ∃ u, Odd u ∧ u ∣ width ∧ width / 4 < u := by
    by_cases hodd : Odd width
    · exact ⟨width, hodd, dvd_rfl, by omega⟩
    · obtain ⟨u, rfl⟩ := (not_odd_iff_even.1 hodd).two_dvd
      exact ⟨u, odd_iff.2 (by omega), dvd_mul_left _ _, by omega⟩
  have hcop : Coprime u (2 ^ k) := (coprime_two_right.2 hodd).pow_right k
  have := le_of_dvd hpos (hcop.dvd_of_dvd_mul_left (hu.trans h))
  omega

/-- A file of two alignments is cut in the middle. -/
theorem load_two_pieces (hpos : 0 < width / sizeofInt32) (hcpus : 1 < S.topology.getCpuNumaNodeCount) :
    ∃ fs, load S width (2 * S.pack_alignment * (width / sizeofInt32)) .cpus = some fs ∧
      ∃ f ∈ fs, f.offset = S.pack_alignment * (width / sizeofInt32) := by
  have ha := S.align_pos
  have hpart : part_size S.pack_alignment S.topology.getCpuNumaNodeCount (2 * S.pack_alignment) =
      some S.pack_alignment := by
    have hunits : (2 * S.pack_alignment + S.pack_alignment - 1) / S.pack_alignment = 2 :=
      (Nat.div_eq_iff ha).2 (by omega)
    have hone : (2 + S.topology.getCpuNumaNodeCount - 1) / S.topology.getCpuNumaNodeCount = 1 :=
      (Nat.div_eq_iff (by omega)).2 (by omega)
    rw [part_size, hunits, div?_of_pos (by omega), hone, Option.map_some, one_mul]
  refine ⟨split .cpu S.pack_alignment S.topology.getCpuNumaNodeCount (2 * S.pack_alignment)
    (width / sizeofInt32) 0, ?_, ⟨.cpu 1, S.pack_alignment * (width / sizeofInt32), _⟩, ?_, rfl⟩
  · simp [load, loadToCpus, loadToDevices, div?_of_pos hpos, Nat.mul_div_cancel _ hpos, hpart]
  · exact mem_flatMap.2 ⟨1, mem_range.2 hcpus, by simp [two_mul, ha]⟩

/-- Some file of whole units cannot be loaded, or one of its pieces starts inside an element. -/
def Miscut (S : Setup) (width : ℕ) : Prop :=
  ∃ size, width / sizeofInt32 ∣ size ∧ (load S width size .cpus = none ∨
    ∃ fs, load S width size .cpus = some fs ∧ ∃ f ∈ fs, ¬width ∣ f.offset)

theorem miscut_of_not_accepted (hw : ¬Accepted width) {k : ℕ} (hk : S.pack_alignment = 2 ^ k)
    (hcpus : 1 < S.topology.getCpuNumaNodeCount) : Miscut S width := by
  refine ⟨2 * S.pack_alignment * (width / sizeofInt32), dvd_mul_left _ _, ?_⟩
  rcases Nat.eq_zero_or_pos (width / sizeofInt32) with h0 | hpos
  · exact .inl (load_narrow h0).1
  · obtain ⟨fs, hload, f, hf, hoff⟩ := load_two_pieces hpos hcpus
    refine .inr ⟨fs, hload, f, hf, ?_⟩
    rw [hoff, hk]
    exact not_dvd_pow_mul (fun hdvd => hw ⟨Nat.pos_of_div_pos hpos, hdvd⟩) hpos

/-- **The widths that are served** are the multiples of four bytes. Every machine with two sockets or more
whose alignment is a power of two, as page and block sizes are, miscuts files of any other width. -/
theorem accepted_iff :
    (Accepted width ↔ ∀ S size, width / sizeofInt32 ∣ size → Sound S .cpus width width size) ∧
    (¬Accepted width → ∀ (S : Setup) (k : ℕ), S.pack_alignment = 2 ^ k →
      1 < S.topology.getCpuNumaNodeCount → Miscut S width) := by
  refine ⟨⟨fun hw S size hdvd => ?_, fun h => ?_⟩, fun hw S k => miscut_of_not_accepted hw⟩
  · obtain ⟨factor, hf, rfl⟩ := hw.exists_factor
    rw [factor_eq] at hdvd
    obtain ⟨k, rfl⟩ := hdvd
    obtain ⟨rows, hspec⟩ := load_spec (show S.HasDevice .cpus from trivial) k
    obtain ⟨fs, hload, hp⟩ := hspec factor _ hf (Nat.mul_div_cancel_left k hf)
    exact ⟨⟨fs, hload, mul_comm k factor ▸ hp.partitioned⟩,
      fun n hn => ⟨fs, fs, hn ▸ hload, hn ▸ hload, rfl⟩⟩
  · by_contra hw
    obtain ⟨size, hdvd, hbad⟩ := miscut_of_not_accepted (S := smallSetup) (k := 12) hw rfl (by decide)
    obtain ⟨fs, hload, hp⟩ := (h smallSetup size hdvd).partitioned
    rcases hbad with hnone | ⟨fs', hload', f, hf, hin⟩
    · cases hnone.symm.trans hload
    · cases hload'.symm.trans hload
      exact hin (hp.aligned f hf)

end

end Proteus.Storage
