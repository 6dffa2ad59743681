import Proteus.Machine

/-!
# ETL of a circular master column

A `CircularMasterColumn` keeps a copy of itself for analytical queries, which `ETL` brings up to date with
the last snapshot. What was inserted since the last `ETL` is copied as a range. Of the records before,
blocks of `BIT_PACK_SIZE` are copied if one of their dirty bits is set; but `ETL` looks at them only if
the last snapshot has found the partition touched, and every snapshot clears that flag. So an update
followed by two snapshots is not copied (`etl_after_two_snapshots`), and neither is one that comes after
the snapshot.

One partition and one master version are modelled, in units of a record. `records` counts the records of
the table, and `stale` records which of them were updated since `ETL` has copied them.

* `Inv.step`: a record of the copy is up to date, or it is stale and its dirty bit is set;
* `etl_fresh_iff`: the copy is up to date after `ETL` if the last snapshot has found the partition
  touched or no record of the copy is stale; and only then, if updates change what the copy holds.
-/

namespace Proteus.Oltp.CircularMaster

open Function Nat

/-! ## Model -/

def BIT_PACK_SIZE : ℕ := 8192

/-- `ArenaV2::metadata`, without the fields that one master version does not need. -/
structure Metadata where
  numOfRecords : ℕ
  upd_since_last_snapshot : Bool

/-- A partition of the column. `data` is the chunk of its master version and `readonly` the one of the
copy; a record has one bit in `upd_bit_masks`. -/
structure Column (V : Type*) where
  data : ℕ → V
  readonly : ℕ → V
  upd_bit_masks : ℕ → Bool
  touched : Bool
  snapshot_arena : Metadata
  etl_arena : Metadata
  records : ℕ
  stale : ℕ → Bool

variable {V : Type*} (data readonly : ℕ → V)

/-- The constructor; the chunks hold what the memory held. -/
def init : Column V where
  data
  readonly
  upd_bit_masks _ := false
  touched := false
  snapshot_arena := ⟨0, false⟩
  etl_arena := ⟨0, true⟩
  records := 0
  stale _ := false

namespace Column

variable (s : Column V)

/-- Copy the records from `lo` up to `hi`. -/
def memcpy (lo hi : ℕ) : Column V :=
  { s with
    readonly := fun i => if lo ≤ i ∧ i < hi then s.data i else s.readonly i
    stale := fun i => if lo ≤ i ∧ i < hi then false else s.stale i }

/-- Some bit of a mask is set. -/
def any (msk : ℕ) : Bool :=
  decide (∃ j < BIT_PACK_SIZE, s.upd_bit_masks (msk * BIT_PACK_SIZE + j) = true)

/-- Clear a mask. -/
def reset (msk : ℕ) : Column V :=
  { s with upd_bit_masks := fun i => if i / BIT_PACK_SIZE = msk then false else s.upd_bit_masks i }

/-- The body of the loop of `ETL`; the last block ends with the chunk. -/
def etlBlock (capacity : ℕ) (s : Column V) (msk : ℕ) : Column V :=
  if s.any msk then
    if msk * BIT_PACK_SIZE + BIT_PACK_SIZE ≤ capacity then
      (s.memcpy (msk * BIT_PACK_SIZE) (msk * BIT_PACK_SIZE + BIT_PACK_SIZE)).reset msk
    else (s.memcpy (msk * BIT_PACK_SIZE) capacity).reset msk
  else s

/-- The loop of `ETL`, from the mask `msk` on. -/
def etlBlocks (capacity olap_num_rec : ℕ) : (n msk : ℕ) → Column V → Column V
  | 0, _, s => s
  | n + 1, msk, s =>
    if msk * BIT_PACK_SIZE ≥ olap_num_rec then s
    else etlBlocks capacity olap_num_rec n (msk + 1) (s.etlBlock capacity msk)

/-- The number of masks. -/
def num_bit_packs (capacity : ℕ) : ℕ := capacity / BIT_PACK_SIZE + capacity % BIT_PACK_SIZE

/-- `ETL`. -/
def etl (capacity : ℕ) (s : Column V) : Column V :=
  let olap_num_rec := s.etl_arena.numOfRecords
  let booked := { s with etl_arena := ⟨s.snapshot_arena.numOfRecords, false⟩ }
  let updated :=
    if s.snapshot_arena.upd_since_last_snapshot then
      booked.etlBlocks capacity olap_num_rec (num_bit_packs capacity) 0
    else booked
  if s.snapshot_arena.numOfRecords > olap_num_rec then
    updated.memcpy olap_num_rec s.snapshot_arena.numOfRecords
  else updated

def snapshot (num_rec : ℕ) : Column V :=
  { s with
    snapshot_arena := ⟨num_rec, s.touched⟩
    etl_arena :=
      if s.touched then { s.etl_arena with upd_since_last_snapshot := true } else s.etl_arena
    touched := false }

def updateElem (offset : ℕ) (elem : V) : Column V :=
  { s with
    data := update s.data offset elem
    upd_bit_masks := update s.upd_bit_masks offset true
    touched := true
    stale := update s.stale offset true }

/-- Without `HTAP_UPD_BIT_ON_INSERT`. -/
def insertElem (elem : V) : Column V :=
  { s with
    data := update s.data s.records elem
    records := s.records + 1 }

end Column

inductive Action (V : Type*)
  | insertElem (elem : V)
  | updateElem (offset : ℕ) (elem : V)
  | snapshot (num_rec : ℕ)
  | ETL

/-- Records are appended, and a snapshot is of records that there are. -/
def step (capacity : ℕ) (s : Column V) : Action V → Option (Column V)
  | .insertElem elem => if s.records < capacity then some (s.insertElem elem) else none
  | .updateElem offset elem => if offset < capacity then some (s.updateElem offset elem) else none
  | .snapshot num_rec => if num_rec ≤ s.records then some (s.snapshot num_rec) else none
  | .ETL => some (s.etl capacity)

/-! ## What `ETL` copies -/

open Column

variable {capacity : ℕ}

section

variable {s s' s'' : Column V}

/-- Dirty bits are set where records are stale. -/
def Column.Marked (capacity : ℕ) (s : Column V) : Prop :=
  ∀ i < capacity, s.stale i = true → s.upd_bit_masks i = true

/-- Some records were copied, and the others left alone. -/
structure Copied (s s' : Column V) : Prop where
  data : s'.data = s.data
  records : s'.records = s.records
  snapshot_arena : s'.snapshot_arena = s.snapshot_arena
  etl_arena : s'.etl_arena = s.etl_arena
  record : ∀ i, s'.stale i = s.stale i ∧ s'.readonly i = s.readonly i ∨
    s'.stale i = false ∧ s'.readonly i = s.data i

theorem Copied.refl (s : Column V) : Copied s s := ⟨rfl, rfl, rfl, rfl, fun _ => .inl ⟨rfl, rfl⟩⟩

theorem Copied.trans (h : Copied s s') (h' : Copied s' s'') : Copied s s'' := by
  refine ⟨h'.data.trans h.data, h'.records.trans h.records, h'.snapshot_arena.trans h.snapshot_arena,
    h'.etl_arena.trans h.etl_arena, fun i => ?_⟩
  rcases h'.record i with ⟨hstale', hro'⟩ | ⟨hstale', hro'⟩
  · rw [hstale', hro']
    exact h.record i
  · rw [hro', h.data]
    exact .inr ⟨hstale', rfl⟩

variable {i : ℕ}

theorem Copied.stale_eq_false (h : Copied s s') (hi : s.stale i = false) : s'.stale i = false := by
  rcases h.record i with ⟨hstale, -⟩ | ⟨hstale, -⟩
  · rw [hstale, hi]
  · exact hstale

@[simp] theorem memcpy_readonly (s : Column V) (lo hi i : ℕ) :
    (s.memcpy lo hi).readonly i = if lo ≤ i ∧ i < hi then s.data i else s.readonly i := rfl

@[simp] theorem memcpy_stale (s : Column V) (lo hi i : ℕ) :
    (s.memcpy lo hi).stale i = if lo ≤ i ∧ i < hi then false else s.stale i := rfl

theorem copied_memcpy (s : Column V) (lo hi : ℕ) : Copied s (s.memcpy lo hi) := by
  refine ⟨rfl, rfl, rfl, rfl, fun i => ?_⟩
  by_cases h : lo ≤ i ∧ i < hi
  · exact .inr ⟨if_pos h, if_pos h⟩
  · exact .inl ⟨if_neg h, if_neg h⟩

theorem stale_memcpy (s : Column V) {lo hi : ℕ} (hlo : lo ≤ i) (hhi : i < hi) :
    (s.memcpy lo hi).stale i = false :=
  if_pos ⟨hlo, hhi⟩

theorem any_of_marked (h : s.upd_bit_masks i = true) : s.any (i / BIT_PACK_SIZE) = true := by
  refine decide_eq_true ⟨i % BIT_PACK_SIZE, mod_lt i (by decide), ?_⟩
  rwa [div_add_mod']

/-- The end of the range that a block copies. -/
theorem etlBlock_eq (capacity : ℕ) (s : Column V) (msk : ℕ) : s.etlBlock capacity msk =
      if s.any msk then
        (s.memcpy (msk * BIT_PACK_SIZE) (min (msk * BIT_PACK_SIZE + BIT_PACK_SIZE) capacity)).reset msk
      else s := by
  rw [etlBlock]
  split_ifs with hany hle
  · rw [Nat.min_eq_left hle]
  · rw [Nat.min_eq_right (Nat.le_of_not_le hle)]
  · rfl

theorem copied_etlBlock (capacity : ℕ) (s : Column V) (msk : ℕ) : Copied s (s.etlBlock capacity msk) := by
  rw [etlBlock_eq]
  split_ifs
  · have h := copied_memcpy s (msk * BIT_PACK_SIZE) (min (msk * BIT_PACK_SIZE + BIT_PACK_SIZE) capacity)
    exact { h with }
  · exact .refl s

/-- The records of a block that has been looked at. -/
theorem stale_etlBlock (hm : s.Marked capacity) (hi : i < capacity) :
    (s.etlBlock capacity (i / BIT_PACK_SIZE)).stale i = false := by
  rw [etlBlock_eq]
  have hlt := lt_div_mul_add (a := i) (show 0 < BIT_PACK_SIZE by decide)
  split_ifs with hany
  · exact stale_memcpy s (div_mul_le_self i BIT_PACK_SIZE) (lt_min hlt hi)
  · cases hs : s.stale i with
    | false => rfl
    | true => exact absurd (any_of_marked (hm i hi hs)) hany

theorem marked_etlBlock (hm : s.Marked capacity) (msk : ℕ) : (s.etlBlock capacity msk).Marked capacity := by
  intro i hi hstale
  have hne : i / BIT_PACK_SIZE ≠ msk := by
    rintro rfl
    cases (stale_etlBlock hm hi).symm.trans hstale
  have hbit : (s.etlBlock capacity msk).upd_bit_masks i = s.upd_bit_masks i := by
    rw [etlBlock_eq]
    split_ifs
    · exact if_neg hne
    · rfl
  rw [hbit]
  refine hm i hi ?_
  by_contra hs
  rw [(copied_etlBlock capacity s msk).stale_eq_false (Bool.eq_false_iff.2 hs)] at hstale
  cases hstale

theorem copied_etlBlocks (capacity olap_num_rec n msk : ℕ) (s : Column V) :
    Copied s (s.etlBlocks capacity olap_num_rec n msk) := by
  induction n generalizing msk s with
  | zero => exact .refl s
  | succ n ih =>
    rw [etlBlocks]
    split_ifs
    · exact .refl s
    · exact (copied_etlBlock capacity s msk).trans (ih _ _)

theorem marked_etlBlocks (hm : s.Marked capacity) (olap_num_rec n msk : ℕ) :
    (s.etlBlocks capacity olap_num_rec n msk).Marked capacity := by
  induction n generalizing msk s with
  | zero => exact hm
  | succ n ih =>
    rw [etlBlocks]
    split_ifs
    · exact hm
    · exact ih (marked_etlBlock hm msk) (msk + 1)

/-- The loop gets to every block that begins below `olap_num_rec`. -/
theorem stale_etlBlocks {olap_num_rec n msk : ℕ} (hm : s.Marked capacity) (hi : i < capacity)
    (holap : i < olap_num_rec) (hle : msk ≤ i / BIT_PACK_SIZE) (hlt : i / BIT_PACK_SIZE < msk + n) :
    (s.etlBlocks capacity olap_num_rec n msk).stale i = false := by
  induction n generalizing msk s with
  | zero => omega
  | succ n ih =>
    have hstart : msk * BIT_PACK_SIZE < olap_num_rec :=
      calc msk * BIT_PACK_SIZE ≤ i / BIT_PACK_SIZE * BIT_PACK_SIZE := mul_le_mul_right _ hle
        _ ≤ i := div_mul_le_self i _
        _ < olap_num_rec := holap
    rw [etlBlocks, if_neg (not_le.2 hstart)]
    rcases eq_or_lt_of_le hle with rfl | hlt'
    · exact (copied_etlBlocks capacity olap_num_rec n _ _).stale_eq_false (stale_etlBlock hm hi)
    · exact ih (marked_etlBlock hm msk) hlt' (by omega)

/-- There are enough masks. -/
theorem div_lt_num_bit_packs (hi : i < capacity) : i / BIT_PACK_SIZE < num_bit_packs capacity := by
  have hdiv := Nat.div_add_mod' capacity BIT_PACK_SIZE
  have hpos : 0 < BIT_PACK_SIZE := by decide
  rw [num_bit_packs, Nat.div_lt_iff_lt_mul hpos, Nat.add_mul]
  have hmul : capacity % BIT_PACK_SIZE ≤ capacity % BIT_PACK_SIZE * BIT_PACK_SIZE :=
    Nat.le_mul_of_pos_right _ hpos
  omega

/-- What `ETL` copies from the blocks. -/
def Column.updated (capacity : ℕ) (s : Column V) : Column V :=
  let booked := { s with etl_arena := ⟨s.snapshot_arena.numOfRecords, false⟩ }
  if s.snapshot_arena.upd_since_last_snapshot then
    booked.etlBlocks capacity s.etl_arena.numOfRecords (Column.num_bit_packs capacity) 0
  else booked

theorem etl_eq (capacity : ℕ) (s : Column V) : s.etl capacity =
      if s.snapshot_arena.numOfRecords > s.etl_arena.numOfRecords then
        (s.updated capacity).memcpy s.etl_arena.numOfRecords s.snapshot_arena.numOfRecords
      else s.updated capacity := rfl

theorem copied_updated (capacity : ℕ) (s : Column V) :
    Copied { s with etl_arena := ⟨s.snapshot_arena.numOfRecords, false⟩ } (s.updated capacity) := by
  rw [updated]
  split_ifs
  · exact copied_etlBlocks ..
  · exact .refl _

theorem copied_etl (capacity : ℕ) (s : Column V) :
    Copied { s with etl_arena := ⟨s.snapshot_arena.numOfRecords, false⟩ } (s.etl capacity) := by
  rw [etl_eq]
  split_ifs
  · exact (copied_updated capacity s).trans (copied_memcpy ..)
  · exact copied_updated capacity s

theorem marked_etl (hm : s.Marked capacity) : (s.etl capacity).Marked capacity := by
  have hupdated : (s.updated capacity).Marked capacity := by
    rw [updated]
    split_ifs
    · exact marked_etlBlocks (s := { s with etl_arena := ⟨s.snapshot_arena.numOfRecords, false⟩ }) hm _ _ _
    · exact hm
  rw [etl_eq]
  split_ifs
  · intro i hi hstale
    refine hupdated i hi ?_
    rw [memcpy_stale] at hstale
    split_ifs at hstale
    exact hstale
  · exact hupdated

/-- Records that were inserted since the last `ETL` are copied. -/
theorem stale_etl_inserted (hle : s.etl_arena.numOfRecords ≤ i)
    (hlt : i < s.snapshot_arena.numOfRecords) : (s.etl capacity).stale i = false := by
  rw [etl_eq, if_pos (lt_of_le_of_lt hle hlt)]
  exact stale_memcpy _ hle hlt

/-- So are stale ones, if the last snapshot has found the partition touched. -/
theorem stale_etl_touched (hm : s.Marked capacity) (hi : i < capacity)
    (hlt : i < s.etl_arena.numOfRecords) (hupd : s.snapshot_arena.upd_since_last_snapshot = true) :
    (s.etl capacity).stale i = false := by
  have hupdated : (s.updated capacity).stale i = false := by
    rw [updated, if_pos hupd]
    exact stale_etlBlocks hm hi hlt (zero_le _) (by rw [zero_add]; exact div_lt_num_bit_packs hi)
  rw [etl_eq]
  split_ifs
  · exact (copied_memcpy ..).stale_eq_false hupdated
  · exact hupdated

/-- Otherwise they stay as they are. -/
theorem stale_etl_untouched (hlt : i < s.etl_arena.numOfRecords)
    (hupd : s.snapshot_arena.upd_since_last_snapshot = false) : (s.etl capacity).stale i = s.stale i := by
  have hupdated : (s.updated capacity).stale i = s.stale i := by
    rw [updated, hupd]
    rfl
  rw [etl_eq]
  split_ifs
  · rw [memcpy_stale, if_neg (fun h => absurd hlt (not_lt.2 h.1)), hupdated]
  · exact hupdated

end

/-! ## Freshness -/

section

variable {s s' : Column V} {a : Action V}

theorem insertElem_data (s : Column V) (elem : V) :
    (s.insertElem elem).data = update s.data s.records elem := rfl

theorem updateElem_data (s : Column V) (offset : ℕ) (elem : V) :
    (s.updateElem offset elem).data = update s.data offset elem := rfl

theorem updateElem_stale (s : Column V) (offset : ℕ) (elem : V) :
    (s.updateElem offset elem).stale = update s.stale offset true := rfl

@[simp] theorem snapshot_etl_numOfRecords (s : Column V) (num_rec : ℕ) :
    (s.snapshot num_rec).etl_arena.numOfRecords = s.etl_arena.numOfRecords := by
  rw [snapshot]
  split_ifs <;> rfl

/-- What holds in every state. -/
structure Inv (capacity : ℕ) (s : Column V) : Prop where
  records_le : s.records ≤ capacity
  snapshot_le : s.snapshot_arena.numOfRecords ≤ s.records
  etl_le : s.etl_arena.numOfRecords ≤ s.records
  marked : s.Marked capacity
  fresh : ∀ i < s.etl_arena.numOfRecords, s.stale i = false → s.readonly i = s.data i

theorem Inv.init : Inv capacity (init data readonly) where
  records_le := zero_le _
  snapshot_le := le_rfl
  etl_le := le_rfl
  marked _ _ h := by cases h
  fresh i h := absurd h (not_lt_zero i)

section

variable (inv : Inv capacity s)
include inv

theorem Inv.insertElem (h : s.records < capacity) (elem : V) : Inv capacity (s.insertElem elem) := by
  refine { inv with records_le := h, snapshot_le := ?_, etl_le := ?_, fresh := fun i hi hstale => ?_ }
  · exact inv.snapshot_le.trans (le_succ _)
  · exact inv.etl_le.trans (le_succ _)
  · have hne : i ≠ s.records := (lt_of_lt_of_le hi inv.etl_le).ne
    rw [insertElem_data, update_of_ne hne]
    exact inv.fresh i hi hstale

theorem Inv.updateElem (offset : ℕ) (elem : V) : Inv capacity (s.updateElem offset elem) := by
  refine { inv with marked := fun i hi hstale => ?_, fresh := fun i hi hstale => ?_ }
  · by_cases hio : i = offset
    · rw [hio]
      exact update_self ..
    · rw [updateElem_stale, update_of_ne hio] at hstale
      exact (update_of_ne hio ..).trans (inv.marked i hi hstale)
  · by_cases hio : i = offset
    · rw [hio, updateElem_stale, update_self] at hstale
      cases hstale
    · rw [updateElem_stale, update_of_ne hio] at hstale
      rw [updateElem_data, update_of_ne hio]
      exact inv.fresh i hi hstale

theorem Inv.snapshot {num_rec : ℕ} (h : num_rec ≤ s.records) : Inv capacity (s.snapshot num_rec) := by
  refine { inv with snapshot_le := h, etl_le := ?_, fresh := ?_ }
  · rw [snapshot_etl_numOfRecords]
    exact inv.etl_le
  · rw [snapshot_etl_numOfRecords]
    exact inv.fresh

/-- A record that is not stale after `ETL` is up to date. -/
theorem Inv.readonly_etl {i : ℕ} (hi : i < s.snapshot_arena.numOfRecords)
    (hstale : (s.etl capacity).stale i = false) : (s.etl capacity).readonly i = s.data i := by
  have hcopied := copied_etl capacity s
  rcases hcopied.record i with ⟨hsame, hro⟩ | ⟨-, hro⟩
  · by_cases hlt : i < s.etl_arena.numOfRecords
    · rw [hro]
      exact inv.fresh i hlt (hsame ▸ hstale)
    · -- the range of new records has been copied, whether `i` was stale or not
      rw [etl_eq, if_pos (lt_of_le_of_lt (not_lt.1 hlt) hi), memcpy_readonly, if_pos ⟨not_lt.1 hlt, hi⟩,
        (copied_updated capacity s).data]
  · exact hro

theorem Inv.etl : Inv capacity (s.etl capacity) := by
  have hcopied := copied_etl capacity s
  constructor
  · rw [hcopied.records]
    exact inv.records_le
  · rw [hcopied.snapshot_arena, hcopied.records]
    exact inv.snapshot_le
  · rw [hcopied.etl_arena, hcopied.records]
    exact inv.snapshot_le
  · exact marked_etl inv.marked
  · intro i hi hstale
    rw [hcopied.etl_arena] at hi
    rw [hcopied.data]
    exact inv.readonly_etl hi hstale

theorem Inv.step (h : step capacity s a = some s') : Inv capacity s' := by
  cases a with
  | insertElem elem =>
    obtain ⟨hlt, ⟨⟩⟩ := Option.ite_none_right_eq_some.1 h
    exact inv.insertElem hlt elem
  | updateElem offset elem =>
    obtain ⟨-, ⟨⟩⟩ := Option.ite_none_right_eq_some.1 h
    exact inv.updateElem offset elem
  | snapshot num_rec =>
    obtain ⟨hle, ⟨⟩⟩ := Option.ite_none_right_eq_some.1 h
    exact inv.snapshot hle
  | ETL =>
    cases h
    exact inv.etl

/-- The first records of the copy are those of the column. -/
def Column.Fresh (s : Column V) : Prop := ∀ i < s.etl_arena.numOfRecords, s.readonly i = s.data i

/-- If a record of the copy has been updated since `ETL` has copied it, the last snapshot has found the
partition touched. -/
def Column.Current (s : Column V) : Prop :=
  s.snapshot_arena.upd_since_last_snapshot = true ∨
    ∀ i < s.etl_arena.numOfRecords, i < s.snapshot_arena.numOfRecords → s.stale i = false

/-- An update stores something else than the copy holds. -/
def Changing (s : Column V) : Action V → Prop
  | .updateElem offset elem => elem ≠ s.readonly offset
  | _ => True

theorem Inv.fresh_etl (h : s.Current) : (s.etl capacity).Fresh := by
  intro i hi
  rw [(copied_etl capacity s).etl_arena] at hi
  rw [(copied_etl capacity s).data]
  refine inv.readonly_etl hi ?_
  by_cases hlt : i < s.etl_arena.numOfRecords
  · rcases h with hupd | hstale
    · have hcap : i < capacity := lt_of_lt_of_le hi (inv.snapshot_le.trans inv.records_le)
      exact stale_etl_touched inv.marked hcap hlt hupd
    · exact (copied_etl capacity s).stale_eq_false (hstale i hlt hi)
  · exact stale_etl_inserted (not_lt.1 hlt) hi

end

/-- What the copy holds of a stale record is not what the column holds. -/
def Column.Differs (s : Column V) : Prop :=
  ∀ i < s.etl_arena.numOfRecords, s.stale i = true → s.readonly i ≠ s.data i

theorem Column.Differs.etl (h : s.Differs) : (s.etl capacity).Differs := by
  intro i hi hstale
  have hcopied := copied_etl capacity s
  rw [hcopied.etl_arena] at hi
  rw [hcopied.data]
  rcases hcopied.record i with ⟨hsame, hro⟩ | ⟨hfalse, -⟩
  · by_cases hlt : i < s.etl_arena.numOfRecords
    · rw [hro]
      exact h i hlt (hsame ▸ hstale)
    · cases (stale_etl_inserted (not_lt.1 hlt) hi).symm.trans hstale
  · cases hfalse.symm.trans hstale

theorem Column.Differs.step (inv : Inv capacity s) (h : s.Differs) (hok : Changing s a)
    (hstep : step capacity s a = some s') : s'.Differs := by
  cases a with
  | insertElem elem =>
    obtain ⟨-, ⟨⟩⟩ := Option.ite_none_right_eq_some.1 hstep
    intro i hi hstale
    have hne : i ≠ s.records := (lt_of_lt_of_le hi inv.etl_le).ne
    rw [insertElem_data, update_of_ne hne]
    exact h i hi hstale
  | updateElem offset elem =>
    obtain ⟨-, ⟨⟩⟩ := Option.ite_none_right_eq_some.1 hstep
    intro i hi hstale
    by_cases hio : i = offset
    · rw [hio, updateElem_data, update_self]
      exact Ne.symm hok
    · rw [updateElem_stale, update_of_ne hio] at hstale
      rw [updateElem_data, update_of_ne hio]
      exact h i hi hstale
  | snapshot num_rec =>
    obtain ⟨-, ⟨⟩⟩ := Option.ite_none_right_eq_some.1 hstep
    intro i hi hstale
    rw [snapshot_etl_numOfRecords] at hi
    exact h i hi hstale
  | ETL =>
    cases hstep
    exact h.etl

theorem Column.Differs.current (h : (s.etl capacity).Differs) (hfresh : (s.etl capacity).Fresh) :
    s.Current := by
  by_contra hnot
  simp only [Column.Current, not_or, Bool.not_eq_true, not_forall] at hnot
  obtain ⟨hupd, i, hlt, hi, hstale⟩ := hnot
  have hi' : i < (s.etl capacity).etl_arena.numOfRecords := by
    rwa [(copied_etl capacity s).etl_arena]
  have hstale' : (s.etl capacity).stale i = true := by
    rw [stale_etl_untouched hlt hupd]
    exact Bool.eq_true_of_not_eq_false hstale
  exact h i hi' hstale' (hfresh i hi')

end

/-- After `ETL` the copy is fresh if the snapshot was current, whatever came before. If updates change
what the copy holds, it is fresh only then. -/
theorem etl_fresh_iff {V : Type*} (capacity : ℕ) (data readonly : ℕ → V) :
    (∀ s, Reach (step capacity) Free (init data readonly) s → s.Current → (s.etl capacity).Fresh) ∧
    ∀ s, Reach (step capacity) Changing (init data readonly) s →
      ((s.etl capacity).Fresh ↔ s.Current) := by
  have hinv : ∀ s, Reach (step capacity) Free (init data readonly) s → Inv capacity s :=
    fun s hs => hs.invariant (.init data readonly) fun _ _ _ inv _ hstep => inv.step hstep
  refine ⟨fun s hs => (hinv s hs).fresh_etl, fun s hs => ?_⟩
  have hdiffers : Inv capacity s ∧ s.Differs := by
    refine hs.invariant (I := fun s => Inv capacity s ∧ s.Differs) ?_ ?_
    · exact ⟨.init data readonly, fun i hi => absurd hi (not_lt_zero i)⟩
    · intro s a s' h hok hstep
      exact ⟨h.1.step hstep, h.2.step h.1 hok hstep⟩
  exact ⟨hdiffers.2.etl.current, hdiffers.1.fresh_etl⟩

/-- A record is updated, and a snapshot is taken before `ETL`. -/
theorem etl_fresh_after_update :
    ∃ s : Column ℕ, Reach (step 1) Free (init (fun _ => 0) fun _ => 0) s ∧ s.readonly 0 = 5 ∧
      s.data 0 = 6 ∧ (s.etl 1).Fresh :=
  exists_reach_of_exec [.insertElem 5, .snapshot 1, .ETL, .updateElem 0 6, .snapshot 1]
    ⟨_, rfl, fun h => ⟨rfl, rfl, (etl_fresh_iff ..).1 _ h (.inl rfl)⟩⟩

/-- A record is updated, and two snapshots are taken before `ETL`. -/
theorem etl_after_two_snapshots :
    ∃ s : Column ℕ, Reach (step 1) Free (init (fun _ => 0) fun _ => 0) s ∧ ¬(s.etl 1).Fresh :=
  exists_reach_of_exec [.insertElem 5, .snapshot 1, .ETL, .updateElem 0 6, .snapshot 1, .snapshot 1]
    ⟨_, rfl, fun _ hfresh => absurd (hfresh 0 (by decide)) (by decide)⟩

end Proteus.Oltp.CircularMaster
