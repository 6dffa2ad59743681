import Mathlib.Data.Fintype.Card
import Proteus.Chunks
import Proteus.Machine

/-!
# `LazyColumn`

A column whose snapshots freeze what there is: from the first snapshot on, an update goes to a secondary
with its own index and its own chunks, one for each snapshot and partition, and `getElem` asks the
secondaries from the newest to the oldest before it reads the primary.

Four things keep a read from giving the last write. A primary row is read by `Column::getElem`, which
only serves columns of type `META`. An insert goes to the primary, where an older entry of a secondary
hides it. The number of the active snapshot has eight bits, so after 256 snapshots updates go to the
primary again. And the chunks a secondary grows by are measured in elements but allocated in bytes, and
not in whole elements.

* `ReadsLastWrite`, `Isolated`: the property.
* `Safe`: the operations that keep it, in a run of such operations.
* `lazy_column_reads_last_write`, with what the other operations do.
-/

namespace Proteus.LazyColumn

open Chunks Function LazyColumn List Nat Option

/-! ## Model -/

inductive DataType
  | META
  | MV
  | INTEGER
  | STRING
  | FLOAT
  | VARCHAR
  | DATE
  | DSTRING
deriving DecidableEq

def BIT_PACK_SIZE : ℕ := 8192

/-- A column. Its memory has been allocated, so its size is a `size_t`; `junk` is in memory that has not
been written. -/
structure Config where
  type : DataType
  unit_size : ℕ
  n_partitions : ℕ
  capacity : ℕ
  junk : UInt8
  unit_pos : 0 < unit_size
  partitions_pos : 0 < n_partitions
  total_lt :
    n_partitions * ((capacity / n_partitions + capacity % n_partitions) * unit_size) < 2 ^ 64

def Config.capacity_per_partition (cfg : Config) : ℕ :=
  cfg.capacity / cfg.n_partitions + cfg.capacity % cfg.n_partitions

/-- A row id of a single-version column: its master version is zero. -/
structure RowId (cfg : Config) where
  pid : Fin cfg.n_partitions
  offset : Fin cfg.capacity_per_partition
deriving DecidableEq

/-- The bytes of an element. -/
abbrev Elem (cfg : Config) := { bytes : List UInt8 // bytes.length = cfg.unit_size }

abbrev Chunk := List UInt8

/-- `packs` is the length of `dirty_upd_mask`. -/
structure LazySecondary (cfg : Config) where
  capacity : ℕ
  initial_capacity : ℕ
  secondary_vid : ℕ
  sec_idx : Fin cfg.capacity_per_partition → Option ℕ
  data : List Chunk
  packs : ℕ

/-- `written` is history: the last write of every row. -/
structure State (cfg : Config) where
  primaryData : Fin cfg.n_partitions → List Chunk
  secondary : Fin cfg.n_partitions → List (LazySecondary cfg)
  active_snapshot_idx : ℕ
  written : RowId cfg → Option (Elem cfg)

inductive Op (cfg : Config)
  | insertElem (vid : RowId cfg) (elem : Elem cfg)
  | updateElem (vid : RowId cfg) (elem : Elem cfg)
  | snapshot

variable {cfg : Config}

def num_bit_packs (sz : ℕ) : ℕ := sz / BIT_PACK_SIZE + sz % BIT_PACK_SIZE

def Config.alloc (cfg : Config) (sz : ℕ) : Chunk := List.replicate sz cfg.junk

def LazySecondary.new (cfg : Config) (capacity : ℕ) : LazySecondary cfg where
  capacity := capacity
  initial_capacity := capacity
  secondary_vid := 0
  sec_idx _ := none
  data := [cfg.alloc (capacity * cfg.unit_size)]
  packs := num_bit_packs (capacity * cfg.unit_size)

variable (sec : LazySecondary cfg)

/-- The bytes of the chunk that `increaseCapacity(2)` adds. -/
def LazySecondary.incSize : ℕ :=
  sec.capacity * 2 + sec.capacity * 2 % cfg.unit_size

def LazySecondary.increaseCapacity (sec : LazySecondary cfg) : LazySecondary cfg :=
  { sec with
    capacity := sec.capacity + sec.initial_capacity
    data := sec.data ++ [cfg.alloc sec.incSize]
    packs := sec.packs + num_bit_packs sec.incSize }

def init (cfg : Config) : State cfg where
  primaryData _ := [List.replicate (cfg.capacity_per_partition * cfg.unit_size) 0]
  secondary _ := []
  active_snapshot_idx := 0
  written _ := none

/-- `Column::getElem`; `none` is a fatal error. -/
def State.getPrimary (s : State cfg) (vid : RowId cfg) : Option Chunk :=
  if cfg.type = .META then readElem cfg.unit_size (s.primaryData vid.pid) vid.offset else none

variable (offset : Fin cfg.capacity_per_partition)

/-- What a secondary has for a row: nothing, or what `getElemByOffset` returns. -/
def LazySecondary.find : Option (Option Chunk) :=
  (sec.sec_idx offset).map fun internal_vid => readElem cfg.unit_size sec.data internal_vid

/-- The loop of `getElem`. -/
def State.getFrom (s : State cfg) (vid : RowId cfg) : ℕ → Option Chunk
  | 0 => s.getPrimary vid
  | i + 1 =>
    match (s.secondary vid.pid)[i]?.map fun sec => sec.find vid.offset with
    | none => none
    | some none => s.getFrom vid i
    | some (some elem) => elem

def State.getElem (s : State cfg) (vid : RowId cfg) : Option Chunk :=
  s.getFrom vid s.active_snapshot_idx

/-- `Column::UpdateInPlace` on chunks that do not grow; `none` is a failed assertion. -/
def UpdateInPlace (unit_size : ℕ) (data : List Chunk) (offset : ℕ) (elem : Chunk) : Option (List Chunk) :=
  match placeOf unit_size (sizes data) offset with
  | .inside c o => some (write data c o elem)
  | .outside | .full => none

/-- `Column::insertElem`, and `updateElem` as long as there are no snapshots. -/
def State.updatePrimary (s : State cfg) (vid : RowId cfg) (elem : Elem cfg) : Option (State cfg) :=
  (UpdateInPlace cfg.unit_size (s.primaryData vid.pid) vid.offset elem).map fun data =>
    { s with
      primaryData := update s.primaryData vid.pid data
      written := update s.written vid (some elem) }

/-- The end of `updateElem`: one try, and one more after the secondary has grown. -/
def LazySecondary.store (internal_vid : ℕ) (elem : Elem cfg) : Option (LazySecondary cfg) :=
  match placeOf cfg.unit_size (sizes sec.data) internal_vid with
  | .inside c o => some { sec with data := write sec.data c o elem }
  | .outside => none
  | .full =>
    (UpdateInPlace cfg.unit_size sec.increaseCapacity.data internal_vid elem).map fun data =>
      { sec.increaseCapacity with data := data }

/-- The row gets the next place. -/
def LazySecondary.addRow (sec : LazySecondary cfg) (offset : Fin cfg.capacity_per_partition) :
    LazySecondary cfg :=
  { sec with
    secondary_vid := sec.secondary_vid + 1
    sec_idx := update sec.sec_idx offset (some sec.secondary_vid) }

def LazySecondary.updateElem
    (elem : Elem cfg) : Option (LazySecondary cfg) :=
  match sec.sec_idx offset with
  | some internal_vid => sec.store internal_vid elem
  | none =>
    if sec.secondary_vid / BIT_PACK_SIZE < sec.packs then
      (sec.addRow offset).store sec.secondary_vid elem
    else none

def State.updateSecondary (s : State cfg) (vid : RowId cfg) (elem : Elem cfg) (i : ℕ) :
    Option (State cfg) :=
  (s.secondary vid.pid)[i]?.bind fun sec => (sec.updateElem vid.offset elem).map fun sec' =>
    { s with
      secondary := update s.secondary vid.pid ((s.secondary vid.pid).set i sec')
      written := update s.written vid (some elem) }

/-- The counter of the snapshots is a `uint8_t`. -/
def State.snapshot (s : State cfg) : State cfg :=
  { s with
    secondary := fun pid => s.secondary pid ++ [LazySecondary.new cfg (cfg.capacity / 10)]
    active_snapshot_idx := (s.active_snapshot_idx + 1) % 2 ^ 8 }

/-- One operation; `none` if an assertion fails, or memory outside of a chunk is written. -/
def step (s : State cfg) : Op cfg → Option (State cfg)
  | .insertElem vid elem => s.updatePrimary vid elem
  | .updateElem vid elem =>
    if s.active_snapshot_idx = 0 then s.updatePrimary vid elem
    else s.updateSecondary vid elem (s.active_snapshot_idx - 1)
  | .snapshot => some s.snapshot

/-! ## The property and its condition -/

def ReadsLastWrite (s : State cfg) : Prop :=
  ∀ vid elem, s.written vid = some elem → s.getElem vid = some elem.1

/-- An update after a snapshot leaves the primary and the older secondaries. -/
def Isolated (s s' : State cfg) : Op cfg → Prop
  | .updateElem vid _ => s.secondary vid.pid ≠ [] →
    s'.primaryData = s.primaryData ∧ ∀ pid, (s'.secondary pid).dropLast = (s.secondary pid).dropLast
  | _ => True

/-- An element has a place inside of the chunks of a secondary, or gets one when it grows. -/
def LazySecondary.HasPlace (internal_vid : ℕ) : Prop :=
  ∃ c o, placeOf cfg.unit_size (sizes sec.data) internal_vid = .inside c o ∨
    placeOf cfg.unit_size (sizes sec.data) internal_vid = .full ∧
      placeOf cfg.unit_size (sizes sec.data ++ [sec.incSize]) internal_vid = .inside c o

/-- There is room for one more row. -/
def LazySecondary.Fits : Prop :=
  sec.secondary_vid / BIT_PACK_SIZE < sec.packs ∧ sec.HasPlace sec.secondary_vid

/-- The condition on an operation. -/
def Safe (s : State cfg) : Op cfg → Prop
  | .insertElem vid _ => cfg.type = .META ∧ ∀ sec ∈ s.secondary vid.pid, sec.sec_idx vid.offset = none
  | .updateElem vid _ =>
    (s.secondary vid.pid = [] → cfg.type = .META) ∧
    ∀ sec, (s.secondary vid.pid).getLast? = some sec → sec.sec_idx vid.offset = none → sec.Fits
  | .snapshot => s.active_snapshot_idx < 255

/-! ## A secondary -/

open LazySecondary

section

variable {sec sec' : LazySecondary cfg} {offset : Fin cfg.capacity_per_partition} {k : ℕ}
  {elem : Elem cfg}

/-- The elements of a secondary and the rows in its index are in bijection. -/
structure LazySecondary.Indexed (sec : LazySecondary cfg) : Prop where
  lt : ∀ o k, sec.sec_idx o = some k → k < sec.secondary_vid
  inj : ∀ o o' k, sec.sec_idx o = some k → sec.sec_idx o' = some k → o = o'
  onto : ∀ k < sec.secondary_vid, ∃ o, sec.sec_idx o = some k

structure LazySecondary.Inv (sec : LazySecondary cfg) : Prop extends sec.Indexed where
  placed : ∀ k < sec.secondary_vid, ∃ c o, placeOf cfg.unit_size (sizes sec.data) k = .inside c o
  first : ∃ more, sizes sec.data = cfg.capacity / 10 * cfg.unit_size :: more
  packs_ge : num_bit_packs (cfg.capacity / 10 * cfg.unit_size) ≤ sec.packs

theorem capacity_mul_lt (cfg : Config) : cfg.capacity_per_partition * cfg.unit_size < 2 ^ 64 :=
  (Nat.le_mul_of_pos_left _ cfg.partitions_pos).trans_lt cfg.total_lt

/-- There are no more elements than rows. -/
theorem LazySecondary.Indexed.secondary_vid_le (h : sec.Indexed) :
    sec.secondary_vid ≤ cfg.capacity_per_partition := by
  choose f hf using h.onto
  have hinj : Function.Injective fun k : Fin sec.secondary_vid => f k k.isLt := by
    intro k k' heq
    have hk := hf k k.isLt
    rw [show f k k.isLt = f k' k'.isLt from heq, hf k' k'.isLt] at hk
    exact Fin.ext (some.inj hk).symm
  simpa using Fintype.card_le_of_injective _ hinj

theorem LazySecondary.Indexed.mul_le (h : sec.Indexed) (hk : k < sec.secondary_vid) :
    (k + 1) * cfg.unit_size ≤ 2 ^ 64 :=
  (mul_le_mul_right _ (succ_le_of_lt (hk.trans_le h.secondary_vid_le))).trans
    (capacity_mul_lt cfg).le

theorem LazySecondary.Indexed.addRow (h : sec.Indexed) (hnew : sec.sec_idx offset = none) :
    (sec.addRow offset).Indexed where
  lt o k hk := by
    rcases update_cases hk with ⟨-, heq⟩ | ⟨-, hold⟩
    · rw [← some.inj heq]
      exact lt_succ_self _
    · exact lt_succ_of_lt (h.lt o k hold)
  inj o o' k hk hk' := by
    rcases update_cases hk with ⟨rfl, heq⟩ | ⟨-, hold⟩ <;>
      rcases update_cases hk' with ⟨rfl, heq'⟩ | ⟨-, hold'⟩
    · rfl
    · exact absurd (h.lt o' k hold') (by rw [← some.inj heq]; exact lt_irrefl _)
    · exact absurd (h.lt o k hold) (by rw [← some.inj heq']; exact lt_irrefl _)
    · exact h.inj o o' k hold hold'
  onto k hk := by
    rcases Nat.lt_succ_iff_lt_or_eq.1 hk with hlt | rfl
    · obtain ⟨o, ho⟩ := h.onto k hlt
      have hne : o ≠ offset := by
        rintro rfl
        rw [hnew] at ho
        cases ho
      exact ⟨o, (update_of_ne hne _ _).trans ho⟩
    · exact ⟨offset, update_self ..⟩

/-- What storing an element does to a secondary all of whose other elements have their place. -/
structure Stored (sec sec' : LazySecondary cfg) (k : ℕ) (elem : Elem cfg) : Prop where
  sec_idx : sec'.sec_idx = sec.sec_idx
  secondary_vid : sec'.secondary_vid = sec.secondary_vid
  placed : ∀ j < sec.secondary_vid, ∃ c o, placeOf cfg.unit_size (sizes sec'.data) j = .inside c o
  read_self : readElem cfg.unit_size sec'.data k = some elem.1
  read_of_ne : ∀ j < sec.secondary_vid, j ≠ k →
    readElem cfg.unit_size sec'.data j = readElem cfg.unit_size sec.data j
  grown : ∃ more, sizes sec'.data = sizes sec.data ++ more
  packs_le : sec.packs ≤ sec'.packs

theorem sizes_increaseCapacity (sec : LazySecondary cfg) :
    sizes sec.increaseCapacity.data = sizes sec.data ++ [sec.incSize] := by
  simp [sizes, increaseCapacity, Config.alloc]

/-- An element is copied to its place. -/
theorem stored_write (sec : LazySecondary cfg) (h : sec.Indexed) (hk : k < sec.secondary_vid)
    (hplaced : ∀ j < sec.secondary_vid, ∃ c o, placeOf cfg.unit_size (sizes sec.data) j = .inside c o)
    {c o : ℕ} (hplace : placeOf cfg.unit_size (sizes sec.data) k = .inside c o) :
    Stored sec { sec with data := write sec.data c o elem.1 } k elem where
  sec_idx := rfl
  secondary_vid := rfl
  placed j hj := by
    rw [sizes_write hplace elem.2]
    exact hplaced j hj
  read_self := read_write_self hplace elem.2
  read_of_ne j hj hne := read_write_of_ne hne.symm (h.mul_le hk) (h.mul_le hj) hplace elem.2
  grown := ⟨[], by rw [sizes_write hplace elem.2, append_nil]⟩
  packs_le := le_refl _

theorem stored_of_store (h : sec.Indexed) (hk : k < sec.secondary_vid)
    (hplaced : ∀ j < sec.secondary_vid, j ≠ k →
      ∃ c o, placeOf cfg.unit_size (sizes sec.data) j = .inside c o)
    (hstore : sec.store k elem = some sec') : Stored sec sec' k elem := by
  unfold store at hstore
  split at hstore
  case h_1 c o hplace =>
    cases hstore
    refine stored_write sec h hk (fun j hj => ?_) hplace
    by_cases hjk : j = k
    · exact ⟨c, o, hjk ▸ hplace⟩
    · exact hplaced j hj hjk
  case h_2 => cases hstore
  case h_3 hfull =>
    obtain ⟨data, hdata, rfl⟩ := map_eq_some_iff.1 hstore
    unfold UpdateInPlace at hdata
    split at hdata
    case h_1 c o hplace =>
      cases hdata
      -- The other elements stay where they are, so the grown secondary is as good as the old one.
      have hgrown : ∀ j < sec.secondary_vid, j ≠ k →
          ∃ c o, placeOf cfg.unit_size (sizes sec.increaseCapacity.data) j = .inside c o := by
        intro j hj hne
        obtain ⟨c, o, hj⟩ := hplaced j hj hne
        refine ⟨c, o, ?_⟩
        rw [sizes_increaseCapacity]
        exact (place_append (fun hfull => by cases hj.symm.trans hfull) _).trans hj
      have hst : Stored sec.increaseCapacity _ k elem :=
        stored_write sec.increaseCapacity ⟨h.lt, h.inj, h.onto⟩ hk
          (fun j hj => by
            by_cases hjk : j = k
            · exact ⟨c, o, hjk ▸ hplace⟩
            · exact hgrown j hj hjk) hplace
      exact { hst with
        read_of_ne := fun j hj hne => by
          obtain ⟨c, o, hplace⟩ := hplaced j hj hne
          exact (hst.read_of_ne j hj hne).trans (read_append hplace _)
        grown := by
          obtain ⟨more, hmore⟩ := hst.grown
          exact ⟨[sec.incSize] ++ more, by rw [hmore, sizes_increaseCapacity, append_assoc]⟩
        packs_le := (le_add_right _ _).trans hst.packs_le }
    case h_2 => cases hdata
    case h_3 => cases hdata

theorem Stored.inv_find (hst : Stored sec sec' k elem) (h : sec.Indexed) (hk : sec.sec_idx offset = some k)
    (hfirst : ∃ more, sizes sec.data = cfg.capacity / 10 * cfg.unit_size :: more)
    (hpacks : num_bit_packs (cfg.capacity / 10 * cfg.unit_size) ≤ sec.packs) :
    sec'.Inv ∧ sec'.find offset = some (some elem.1) ∧ ∀ o ≠ offset, sec'.find o = sec.find o := by
  refine ⟨⟨⟨?_, ?_, ?_⟩, ?_, ?_, hpacks.trans hst.packs_le⟩, ?_, fun o hne => ?_⟩
  · rw [hst.sec_idx, hst.secondary_vid]
    exact h.lt
  · rw [hst.sec_idx]
    exact h.inj
  · rw [hst.sec_idx, hst.secondary_vid]
    exact h.onto
  · rw [hst.secondary_vid]
    exact hst.placed
  · obtain ⟨more, hmore⟩ := hfirst
    obtain ⟨more', hmore'⟩ := hst.grown
    exact ⟨more ++ more', by rw [hmore', hmore, cons_append]⟩
  · rw [find, hst.sec_idx, hk, map_some, hst.read_self]
  · rw [find, find, hst.sec_idx]
    cases ho : sec.sec_idx o with
    | none => rfl
    | some j =>
      have hjk : j ≠ k := by
        rintro rfl
        exact hne (h.inj o offset j ho hk)
      rw [map_some, map_some, hst.read_of_ne j (h.lt o j ho) hjk]

theorem find_addRow_of_ne {o : Fin cfg.capacity_per_partition} (hne : o ≠ offset) :
    (sec.addRow offset).find o = sec.find o := by
  have hidx : (sec.addRow offset).sec_idx o = sec.sec_idx o := update_of_ne hne _ _
  rw [find, hidx]
  rfl

/-- **One update of a secondary**: the row reads what was written, and the others what they did. -/
theorem LazySecondary.Inv.updateElem (h : sec.Inv) (hup : sec.updateElem offset elem = some sec') :
    sec'.Inv ∧ sec'.find offset = some (some elem.1) ∧ ∀ o ≠ offset, sec'.find o = sec.find o := by
  unfold LazySecondary.updateElem at hup
  split at hup
  case h_1 k hk =>
    have hst := stored_of_store h.toIndexed (h.lt _ _ hk) (fun j hj _ => h.placed j hj) hup
    exact hst.inv_find h.toIndexed hk h.first h.packs_ge
  case h_2 hnone =>
    split_ifs at hup
    have hidx := h.toIndexed.addRow hnone
    have hst := stored_of_store hidx (Nat.lt_succ_self _)
      (fun j hj hne => h.placed j (lt_of_le_of_ne (Nat.lt_succ_iff.1 hj) hne)) hup
    obtain ⟨hinv, hself, hother⟩ := hst.inv_find hidx (update_self ..) h.first h.packs_ge
    exact ⟨hinv, hself, fun o hne => (hother o hne).trans (find_addRow_of_ne hne)⟩

theorem exists_store_iff (sec : LazySecondary cfg) (k : ℕ) (elem : Elem cfg) :
    (∃ sec', sec.store k elem = some sec') ↔ sec.HasPlace k := by
  unfold store LazySecondary.HasPlace
  cases placeOf cfg.unit_size (sizes sec.data) k with
  | inside c o => simp
  | outside => simp
  | full =>
    unfold UpdateInPlace
    rw [sizes_increaseCapacity]
    cases placeOf cfg.unit_size (sizes sec.data ++ [sec.incSize]) k <;> simp

/-- An update succeeds exactly if the row is in the secondary or gets a place. -/
theorem exists_updateElem_iff (h : sec.Inv) (offset : Fin cfg.capacity_per_partition) (elem : Elem cfg) :
    (∃ sec', sec.updateElem offset elem = some sec') ↔ (sec.sec_idx offset = none → sec.Fits) := by
  unfold updateElem
  cases hidx : sec.sec_idx offset with
  | some k =>
    obtain ⟨c, o, hin⟩ := h.placed k (h.lt _ _ hidx)
    simpa using (exists_store_iff sec k elem).2 ⟨c, o, .inl hin⟩
  | none =>
    simp only [true_imp_iff, LazySecondary.Fits]
    by_cases hpack : sec.secondary_vid / BIT_PACK_SIZE < sec.packs
    · rw [if_pos hpack, and_iff_right hpack]
      exact exists_store_iff (sec.addRow offset) _ elem
    · simp [hpack]

theorem inv_new (cfg : Config) : (new cfg (cfg.capacity / 10)).Inv := by
  refine ⟨⟨?_, ?_, ?_⟩, ?_, ⟨[], ?_⟩, le_refl _⟩ <;> simp [new, sizes, Config.alloc]

/-- The first chunk has room for a tenth of the rows. -/
theorem LazySecondary.Inv.fits (h : sec.Inv) (hlt : sec.secondary_vid < cfg.capacity / 10) : sec.Fits := by
  obtain ⟨more, hmore⟩ := h.first
  have hsplit : cfg.capacity ≤ cfg.n_partitions * cfg.capacity_per_partition := by
    rw [Config.capacity_per_partition, mul_add]
    calc cfg.capacity = cfg.n_partitions * (cfg.capacity / cfg.n_partitions) +
          cfg.capacity % cfg.n_partitions := (Nat.div_add_mod _ _).symm
      _ ≤ _ := Nat.add_le_add_left (Nat.le_mul_of_pos_left _ cfg.partitions_pos) _
  have hsize : cfg.capacity / 10 * cfg.unit_size < 2 ^ 64 :=
    calc cfg.capacity / 10 * cfg.unit_size
        ≤ cfg.n_partitions * cfg.capacity_per_partition * cfg.unit_size :=
          mul_le_mul_right _ ((div_le_self _ _).trans hsplit)
      _ = cfg.n_partitions * (cfg.capacity_per_partition * cfg.unit_size) := mul_assoc ..
      _ < 2 ^ 64 := cfg.total_lt
  refine ⟨lt_of_lt_of_le ?_ h.packs_ge, 0, sec.secondary_vid * cfg.unit_size, .inl ?_⟩
  · have hle : cfg.capacity / 10 ≤ cfg.capacity / 10 * cfg.unit_size :=
      Nat.le_mul_of_pos_right _ cfg.unit_pos
    rw [num_bit_packs, BIT_PACK_SIZE]
    omega
  · rw [hmore]
    exact placeOf_first cfg.unit_pos hsize hlt

end

/-! ## Rows of the column -/

open State

variable {s s' : State cfg} {n : ℕ}

section

variable {vid vid' : RowId cfg} {elem : Elem cfg}

structure Inv (s : State cfg) : Prop where
  length : ∀ pid, (s.secondary pid).length = s.active_snapshot_idx
  primary : ∀ pid, sizes (s.primaryData pid) = [cfg.capacity_per_partition * cfg.unit_size]
  secondary : ∀ pid, ∀ sec ∈ s.secondary pid, sec.Inv

variable {i : ℕ}

/-- What a read finds depends on what the secondaries have for the row, and on the primary. -/
theorem getFrom_congr (hp : s'.getPrimary vid = s.getPrimary vid)
    (hs : ∀ j < i, (s'.secondary vid.pid)[j]?.map (fun sec => sec.find vid.offset) =
      (s.secondary vid.pid)[j]?.map fun sec => sec.find vid.offset) :
    s'.getFrom vid i = s.getFrom vid i := by
  induction i with
  | zero => exact hp
  | succ i ih =>
    rw [getFrom, getFrom, hs i (lt_succ_self i), ih fun j hj => hs j (lt_succ_of_lt hj)]

theorem getFrom_of_none (hi : i ≤ (s.secondary vid.pid).length)
    (h : ∀ sec ∈ s.secondary vid.pid, sec.sec_idx vid.offset = none) :
    s.getFrom vid i = s.getPrimary vid := by
  induction i with
  | zero => rfl
  | succ i ih =>
    obtain ⟨sec, hsec⟩ : ∃ sec, (s.secondary vid.pid)[i]? = some sec :=
      ⟨_, getElem?_eq_getElem hi⟩
    rw [getFrom, hsec, map_some, find, h sec (mem_of_getElem? hsec)]
    exact ih (le_of_succ_le hi)

/-- A write to the primary: the row reads what was written, and the others what they did. -/
structure PrimaryWrite (s s' : State cfg) (vid : RowId cfg) (elem : Elem cfg) : Prop where
  secondary : s'.secondary = s.secondary
  active : s'.active_snapshot_idx = s.active_snapshot_idx
  written : s'.written = update s.written vid (some elem)
  sizes : ∀ pid, sizes (s'.primaryData pid) = sizes (s.primaryData pid)
  self : readElem cfg.unit_size (s'.primaryData vid.pid) vid.offset = some elem.1
  other : ∀ vid' ≠ vid, s'.getPrimary vid' = s.getPrimary vid'

theorem exists_updatePrimary
    (hs : ∀ pid, sizes (s.primaryData pid) = [cfg.capacity_per_partition * cfg.unit_size])
    (vid : RowId cfg) (elem : Elem cfg) :
    ∃ s', s.updatePrimary vid elem = some s' ∧ PrimaryWrite s s' vid elem := by
  have hplace : placeOf cfg.unit_size (sizes (s.primaryData vid.pid)) vid.offset =
      .inside 0 (vid.offset * cfg.unit_size) := by
    rw [hs]
    exact placeOf_first cfg.unit_pos (capacity_mul_lt cfg) vid.offset.isLt
  have hmul : ∀ o : Fin cfg.capacity_per_partition, (o.1 + 1) * cfg.unit_size ≤ 2 ^ 64 := fun o =>
    (mul_le_mul_right _ o.isLt).trans (capacity_mul_lt cfg).le
  simp only [updatePrimary, UpdateInPlace, hplace, map_some]
  refine ⟨_, rfl, rfl, rfl, rfl, fun pid => ?_, ?_, fun vid' hne => ?_⟩
  · show sizes (update s.primaryData vid.pid _ pid) = _
    by_cases hpid : pid = vid.pid
    · rw [hpid, update_self, sizes_write hplace elem.2]
    · rw [update_of_ne hpid]
  · show readElem cfg.unit_size (update s.primaryData vid.pid _ vid.pid) vid.offset = _
    rw [update_self, read_write_self hplace elem.2]
  · rw [getPrimary, getPrimary]
    show (if _ then readElem cfg.unit_size (update s.primaryData vid.pid _ vid'.pid) _ else _) = _
    by_cases hpid : vid'.pid = vid.pid
    · have hoff : vid.offset.1 ≠ vid'.offset.1 := by
        intro heq
        exact hne (by cases vid; cases vid'; simp_all [Fin.ext_iff])
      rw [hpid, update_self, read_write_of_ne hoff (hmul _) (hmul _) hplace elem.2]
    · rw [update_of_ne hpid]

theorem Inv.primaryWrite (hs : Inv s) (h : PrimaryWrite s s' vid elem) : Inv s' where
  length pid := by rw [h.secondary, h.active, hs.length]
  primary pid := (h.sizes pid).trans (hs.primary pid)
  secondary pid := by
    rw [h.secondary]
    exact hs.secondary pid

/-- A write to the newest secondary. -/
theorem Inv.updateSecondary (hs : Inv s) (hn : s.active_snapshot_idx = n + 1)
    (h : s.updateSecondary vid elem n = some s') :
    Inv s' ∧ s'.primaryData = s.primaryData ∧ s'.active_snapshot_idx = s.active_snapshot_idx ∧
      s'.written = update s.written vid (some elem) ∧
      (∀ pid, (s'.secondary pid).dropLast = (s.secondary pid).dropLast) ∧
      s'.getElem vid = some elem.1 ∧ ∀ vid' ≠ vid, s'.getElem vid' = s.getElem vid' := by
  obtain ⟨sec, hsec, h⟩ := bind_eq_some_iff.1 h
  obtain ⟨sec', hup, hs'⟩ := map_eq_some_iff.1 h
  have hlen : (s.secondary vid.pid).length = n + 1 := (hs.length vid.pid).trans hn
  obtain ⟨hinv, hself, hother⟩ :=
    (hs.secondary vid.pid sec (mem_of_getElem? hsec)).updateElem hup
  have hown : s'.secondary vid.pid = (s.secondary vid.pid).set n sec' := by
    rw [← hs']
    exact update_self ..
  have hne : ∀ pid, pid ≠ vid.pid → s'.secondary pid = s.secondary pid := by
    intro pid hpid
    rw [← hs']
    exact update_of_ne hpid _ _
  have hprimary : s'.primaryData = s.primaryData := by rw [← hs']
  have hactive : s'.active_snapshot_idx = s.active_snapshot_idx := by rw [← hs']
  refine ⟨⟨fun pid => ?_, fun pid => hprimary ▸ hs.primary pid, fun pid x hx => ?_⟩, hprimary, hactive,
    by rw [← hs'], fun pid => ?_, ?_, fun vid' hvid => ?_⟩
  · by_cases hpid : pid = vid.pid
    · rw [hpid, hown, length_set, hs.length, hactive]
    · rw [hne pid hpid, hs.length, hactive]
  · by_cases hpid : pid = vid.pid
    · rw [hpid, hown] at hx
      rcases mem_or_eq_of_mem_set hx with hx | rfl
      · exact hs.secondary _ x hx
      · exact hinv
    · rw [hne pid hpid] at hx
      exact hs.secondary pid x hx
  · by_cases hpid : pid = vid.pid
    · rw [hpid, hown, dropLast_eq_take, dropLast_eq_take, length_set, hlen,
        Nat.add_sub_cancel, take_set_of_le (Nat.le_refl n)]
    · rw [hne pid hpid]
  · rw [State.getElem, hactive, hn, State.getFrom, hown, getElem?_set_self (by omega),
      map_some, hself]
  · rw [State.getElem, State.getElem, hactive]
    refine getFrom_congr (by rw [getPrimary, getPrimary, hprimary]) fun j hj => ?_
    by_cases hpid : vid'.pid = vid.pid
    · have hoff : vid'.offset ≠ vid.offset := by
        intro heq
        exact hvid (by cases vid; cases vid'; simp_all)
      rw [hpid, hown, getElem?_set]
      split_ifs with hnj hlt
      · rw [← hnj, hsec, map_some, map_some, hother _ hoff]
      · omega
      · rfl
    · rw [hne _ hpid]

/-- A write to the newest secondary succeeds if the row is there or gets a place. -/
theorem Inv.exists_updateSecondary_iff (hs : Inv s) (hn : s.active_snapshot_idx = n + 1)
    (vid : RowId cfg) (elem : Elem cfg) : (∃ s', s.updateSecondary vid elem n = some s') ↔
      ∀ sec, (s.secondary vid.pid).getLast? = some sec → sec.sec_idx vid.offset = none → sec.Fits := by
  have hlen : (s.secondary vid.pid).length = n + 1 := (hs.length vid.pid).trans hn
  obtain ⟨sec, hsec⟩ : ∃ sec, (s.secondary vid.pid)[n]? = some sec :=
    ⟨_, getElem?_eq_getElem (by omega)⟩
  have hlast : (s.secondary vid.pid).getLast? = some sec := by rwa [getLast?_eq_getElem?, hlen]
  rw [hlast, State.updateSecondary, hsec]
  simp only [bind_some, map_eq_some_iff, some.injEq, forall_eq']
  rw [← exists_updateElem_iff (hs.secondary _ sec (mem_of_getElem? hsec)) vid.offset elem]
  constructor
  · rintro ⟨_, sec', hup, _⟩
    exact ⟨sec', hup⟩
  · rintro ⟨sec', hup⟩
    exact ⟨_, sec', hup, rfl⟩

/-- A snapshot adds nothing to what is read. -/
theorem Inv.snapshot (hs : Inv s) (h : s.active_snapshot_idx < 255) :
    Inv s.snapshot ∧ ∀ vid, s.snapshot.getElem vid = s.getElem vid := by
  have hactive : s.snapshot.active_snapshot_idx = s.active_snapshot_idx + 1 :=
    mod_eq_of_lt (by omega)
  refine ⟨⟨fun pid => ?_, hs.primary, fun pid sec hsec => ?_⟩, fun vid => ?_⟩
  · rw [hactive, ← hs.length pid]
    exact length_append
  · rcases mem_append.1 hsec with hsec | hsec
    · exact hs.secondary pid sec hsec
    · rw [mem_singleton.1 hsec]
      exact inv_new cfg
  · have hnew : (s.snapshot.secondary vid.pid)[s.active_snapshot_idx]? =
        some (new cfg (cfg.capacity / 10)) := by
      rw [← hs.length vid.pid]
      exact getElem?_concat_length
    rw [State.getElem, hactive, State.getFrom, hnew]
    refine getFrom_congr (show s.snapshot.getPrimary vid = s.getPrimary vid from rfl) fun j hj => ?_
    rw [show (s.snapshot.secondary vid.pid)[j]? = (s.secondary vid.pid)[j]? from
      getElem?_append_left (by rw [hs.length]; exact hj)]

/-- What a secondary has for a row is read whatever is in the primary. -/
theorem getFrom_of_mem (hsec : s'.secondary = s.secondary)
    (h : ∃ j < i, ∃ sec, (s.secondary vid.pid)[j]? = some sec ∧ sec.sec_idx vid.offset ≠ none) :
    s'.getFrom vid i = s.getFrom vid i := by
  induction i with
  | zero =>
    obtain ⟨j, hj, -⟩ := h
    exact absurd hj (not_lt_zero j)
  | succ i ih =>
    rw [getFrom, getFrom, hsec]
    obtain ⟨j, hj, sec, hj', hidx⟩ := h
    rcases Nat.lt_succ_iff_lt_or_eq.1 hj with hlt | rfl
    · rw [ih ⟨j, hlt, sec, hj', hidx⟩]
    · obtain ⟨k, hk⟩ := ne_none_iff_exists'.1 hidx
      rw [hj', map_some, find, hk, map_some]

end

/-! ## Runs -/

section

variable {op : Op cfg}

theorem inv_init (cfg : Config) : Inv (init cfg) where
  length _ := rfl
  primary _ := by simp [init, sizes]
  secondary _ _ h := by cases h

/-- A state reached by safe operations. -/
structure Good (s : State cfg) : Prop extends Inv s where
  active_lt : s.active_snapshot_idx < 256
  reads : ReadsLastWrite s

theorem good_init (cfg : Config) : Good (init cfg) where
  toInv := inv_init cfg
  active_lt := by simp [init]
  reads _ _ h := by cases h

variable {vid : RowId cfg} {elem : Elem cfg}

/-- Reads stay right when one row is written and read back, and the others read what they did. -/
theorem readsLastWrite_of_write (h : ReadsLastWrite s)
    (hw : s'.written = update s.written vid (some elem)) (hself : s'.getElem vid = some elem.1)
    (hother : ∀ vid' ≠ vid, s'.getElem vid' = s.getElem vid') : ReadsLastWrite s' := by
  intro vid' elem' hwritten
  rw [hw] at hwritten
  rcases update_cases hwritten with ⟨rfl, heq⟩ | ⟨hne, hold⟩
  · rw [hself, some.inj heq]
  · rw [hother vid' hne]
    exact h vid' elem' hold

/-- A row that no secondary has is read from the primary. -/
theorem Inv.getElem_of_none (hs : Inv s)
    (hnone : ∀ sec ∈ s.secondary vid.pid, sec.sec_idx vid.offset = none) :
    s.getElem vid = s.getPrimary vid :=
  getFrom_of_none (by rw [hs.length]) hnone

/-- A write to the primary of a row that no secondary has. -/
theorem Good.updatePrimary (hs : Good s) (hmeta : cfg.type = .META) (vid : RowId cfg) (elem : Elem cfg)
    (hnone : ∀ sec ∈ s.secondary vid.pid, sec.sec_idx vid.offset = none) :
    ∃ s', s.updatePrimary vid elem = some s' ∧ Good s' := by
  obtain ⟨s', hup, hw⟩ := exists_updatePrimary hs.primary vid elem
  have hinv := hs.toInv.primaryWrite hw
  refine ⟨s', hup, hinv, hw.active ▸ hs.active_lt, ?_⟩
  refine readsLastWrite_of_write hs.reads hw.written ?_ fun vid' hne => ?_
  · rw [hinv.getElem_of_none (by rwa [hw.secondary]), getPrimary, if_pos hmeta, hw.self]
  · rw [State.getElem, hw.active]
    exact getFrom_congr (hw.other vid' hne) fun j _ => by rw [hw.secondary]

/-- One safe operation. -/
theorem Good.step (hs : Good s) (hok : Safe s op) :
    ∃ s', step s op = some s' ∧ Good s' ∧ Isolated s s' op := by
  cases op with
  | insertElem vid elem =>
    obtain ⟨s', hup, hgood⟩ := hs.updatePrimary hok.1 vid elem hok.2
    exact ⟨s', hup, hgood, trivial⟩
  | updateElem vid elem =>
    have hlen := hs.length vid.pid
    cases hn : s.active_snapshot_idx with
    | zero =>
      have hnil : s.secondary vid.pid = [] := eq_nil_of_length_eq_zero (hlen.trans hn)
      obtain ⟨s', hup, hgood⟩ := hs.updatePrimary (hok.1 hnil) vid elem (by simp [hnil])
      exact ⟨s', by rw [step, if_pos hn]; exact hup, hgood, fun h => absurd hnil h⟩
    | succ n =>
      obtain ⟨s', hup⟩ := (hs.toInv.exists_updateSecondary_iff hn vid elem).2 hok.2
      obtain ⟨hinv, hprimary, hactive, hwritten, hdrop, hself, hother⟩ :=
        hs.toInv.updateSecondary hn hup
      have hstep : step s (.updateElem vid elem) = some s' := by rwa [step, if_neg (by omega), hn]
      exact ⟨s', hstep,
        ⟨hinv, hactive ▸ hs.active_lt, readsLastWrite_of_write hs.reads hwritten hself hother⟩,
        fun _ => ⟨hprimary, hdrop⟩⟩
  | snapshot =>
    obtain ⟨hinv, hget⟩ := hs.toInv.snapshot hok
    exact ⟨_, rfl, ⟨hinv, mod_lt _ (by decide), fun vid elem h => (hget vid).trans (hs.reads vid elem h)⟩,
      trivial⟩

theorem good_of_reach (h : Reach step Safe (init cfg) s) : Good s :=
  h.invariant (good_init cfg) fun s op s' hs hok hstep => by
    obtain ⟨s'', hstep', hgood, -⟩ := hs.step hok
    rw [hstep] at hstep'
    exact some.inj hstep' ▸ hgood

/-! ## The other operations -/

/-- What an operation that is not safe does. An insert whose row stays hidden is not seen, unless the row
had its value before; an update stops the process or is not read back; and after the snapshot with which
the counter wraps around, updates change the primary. -/
def Breaks (s : State cfg) : Op cfg → Prop
  | .insertElem vid elem => s.getElem vid ≠ some elem.1 →
    ∀ s', step s (.insertElem vid elem) = some s' → ¬ReadsLastWrite s'
  | .updateElem vid elem => ∀ s', step s (.updateElem vid elem) = some s' → ¬ReadsLastWrite s'
  | .snapshot => ∀ vid elem s', step s.snapshot (.updateElem vid elem) = some s' →
    readElem cfg.unit_size (s.primaryData vid.pid) vid.offset ≠ some elem.1 →
      ¬Isolated s.snapshot s' (.updateElem vid elem)

/-- In a column of another type a row that no secondary has is not read back. -/
theorem Good.not_reads (hs : Good s) (hmeta : cfg.type ≠ .META)
    (hnone : ∀ sec ∈ s.secondary vid.pid, sec.sec_idx vid.offset = none)
    (hw : PrimaryWrite s s' vid elem) : ¬ReadsLastWrite s' := by
  intro hreads
  have hget := hreads vid elem (by rw [hw.written, update_self])
  rw [(hs.toInv.primaryWrite hw).getElem_of_none (by rwa [hw.secondary]), getPrimary,
    if_neg hmeta] at hget
  cases hget

theorem Good.breaks (hs : Good s) (hnot : ¬Safe s op) : Breaks s op := by
  cases op with
  | insertElem vid elem =>
    intro hne s' hstep
    obtain ⟨s'', hup, hw⟩ := exists_updatePrimary hs.primary vid elem
    obtain rfl : s'' = s' := some.inj (hup.symm.trans hstep)
    by_cases hnone : ∀ sec ∈ s.secondary vid.pid, sec.sec_idx vid.offset = none
    · exact hs.not_reads (fun h => hnot ⟨h, hnone⟩) hnone hw
    · intro hreads
      obtain ⟨sec, hmem, hidx⟩ : ∃ sec ∈ s.secondary vid.pid, sec.sec_idx vid.offset ≠ none := by
        simpa using hnone
      obtain ⟨j, hj⟩ := getElem?_of_mem hmem
      have hlt : j < s.active_snapshot_idx := by
        rw [← hs.length vid.pid]
        exact (List.getElem?_eq_some_iff.1 hj).1
      have hget := hreads vid elem (by rw [hw.written, update_self])
      rw [State.getElem, hw.active, getFrom_of_mem hw.secondary ⟨j, hlt, sec, hj, hidx⟩] at hget
      exact hne hget
  | updateElem vid elem =>
    intro s' hstep
    have hlen := hs.length vid.pid
    rw [LazyColumn.step] at hstep
    cases hn : s.active_snapshot_idx with
    | zero =>
      rw [if_pos hn] at hstep
      have hnil : s.secondary vid.pid = [] := eq_nil_of_length_eq_zero (hlen.trans hn)
      obtain ⟨s'', hup, hw⟩ := exists_updatePrimary hs.primary vid elem
      obtain rfl : s'' = s' := some.inj (hup.symm.trans hstep)
      exact hs.not_reads (fun h => hnot ⟨fun _ => h, by simp [hnil]⟩) (by simp [hnil]) hw
    | succ n =>
      rw [if_neg (by omega), hn] at hstep
      have hne : s.secondary vid.pid ≠ [] := by
        intro hnil
        rw [hnil, length_nil] at hlen
        omega
      exact absurd ⟨fun h => absurd h hne, (hs.toInv.exists_updateSecondary_iff hn vid elem).1 ⟨s', hstep⟩⟩ hnot
  | snapshot =>
    intro vid elem s' hstep hne hiso
    have hlt := hs.active_lt
    have hactive : s.active_snapshot_idx = 255 := by
      have : ¬s.active_snapshot_idx < 255 := hnot
      omega
    have hzero : s.snapshot.active_snapshot_idx = 0 := by
      show (s.active_snapshot_idx + 1) % 2 ^ 8 = 0
      omega
    rw [LazyColumn.step, if_pos hzero] at hstep
    obtain ⟨s'', hup, hw⟩ :=
      exists_updatePrimary (show ∀ pid, sizes (s.snapshot.primaryData pid) = _ from hs.primary) vid elem
    obtain rfl : s'' = s' := some.inj (hup.symm.trans hstep)
    have hsame := (hiso (append_ne_nil_of_right_ne_nil _ (cons_ne_nil _ _))).1
    have hself := hw.self
    rw [hsame] at hself
    exact hne hself

/-- **Reads give the last write.** In runs of safe operations no operation stops the process, every read
gives the last write of its row, and updates after a snapshot leave the primary and the older secondaries;
the first tenth of the rows that are updated after a snapshot is always safe. Operations that are not safe
break this. -/
theorem lazy_column_reads_last_write (cfg : Config) :
    (∀ s : State cfg, Reach step Safe (init cfg) s → ReadsLastWrite s ∧
      (∀ op, Safe s op → ∃ s', step s op = some s' ∧ Isolated s s' op) ∧
      ∀ pid, ∀ sec ∈ s.secondary pid, sec.secondary_vid < cfg.capacity / 10 → sec.Fits) ∧
    ∀ (s : State cfg) (op : Op cfg), Reach step Safe (init cfg) s → ¬Safe s op → Breaks s op := by
  refine ⟨fun s hs => ⟨(good_of_reach hs).reads, fun op hok => ?_, fun pid sec hsec hlt => ?_⟩,
    fun s op hs => (good_of_reach hs).breaks⟩
  · obtain ⟨s', hstep, -, hiso⟩ := (good_of_reach hs).step hok
    exact ⟨s', hstep, hiso⟩
  · exact ((good_of_reach hs).secondary pid sec hsec).fits hlt

end

variable (type : DataType)

/-- A column with room for ten elements of eight bytes. -/
def tenRows : Config where
  type := type
  unit_size := 8
  n_partitions := 1
  capacity := 10
  junk := 0
  unit_pos := by decide
  partitions_pos := Nat.one_pos
  total_lt := by decide

def tenRows.row (i : Fin 10) : RowId (tenRows type) :=
  ⟨⟨0, (tenRows type).partitions_pos⟩, ⟨i, i.isLt.trans_eq (by simp [tenRows, Config.capacity_per_partition])⟩⟩

def tenRows.elem (x : UInt8) : Elem (tenRows type) := ⟨List.replicate 8 x, rfl⟩

/-- A row that was inserted before a snapshot is updated after it. -/
theorem lazy_column_reads_update : ∃ s, Reach step Safe (init (tenRows .META)) s ∧
    s.written (tenRows.row _ 0) = some (tenRows.elem _ 8) ∧ ReadsLastWrite s := by
  have h₁ : Reach step Safe (init (tenRows .META)) _ :=
    .next (.insertElem (tenRows.row _ 0) (tenRows.elem _ 7)) .init ⟨rfl, nofun⟩ rfl
  have h₂ := h₁.next Op.snapshot (show 0 < 255 by decide) rfl
  have h₃ := h₂.next (Op.updateElem (tenRows.row _ 0) (tenRows.elem _ 8))
    ⟨fun _ => rfl, by rintro _ ⟨⟩ -; exact ⟨by decide, 0, 0, .inl rfl⟩⟩ rfl
  exact ⟨_, h₃, rfl, ((lazy_column_reads_last_write _).1 _ h₃).1⟩

/-- A row of an integer column cannot be read after it was inserted. In a column of type `META` an insert
is hidden by the update before it, and the second row that is updated after a snapshot finds no place. -/
theorem last_write_not_read :
    (exec step (init (tenRows .INTEGER)) [.insertElem (tenRows.row _ 0) (tenRows.elem _ 7)]).map
        (fun s => s.getElem (tenRows.row _ 0)) = some none ∧
    (exec step (init (tenRows .META)) [.snapshot, .updateElem (tenRows.row _ 0) (tenRows.elem _ 7),
        .insertElem (tenRows.row _ 0) (tenRows.elem _ 8)]).map
        (fun s => s.getElem (tenRows.row _ 0)) = some (some (List.replicate 8 7)) ∧
    (exec step (init (tenRows .META)) [.snapshot, .updateElem (tenRows.row _ 0) (tenRows.elem _ 7),
        .updateElem (tenRows.row _ 1) (tenRows.elem _ 7)]).isNone := by
  decide +kernel

end Proteus.LazyColumn
