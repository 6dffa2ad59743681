import Mathlib.Algebra.GroupWithZero.Nat
import Mathlib.Algebra.Order.Group.Nat
import Proteus.Buffer

/-!
# The column store with full-record versions

`ColumnStore` keeps the current value of a record in one cell per column. An update first copies the
whole record into a version (`MV_RecordList_Full`), pushes it on the record's `delta_list` and then
overwrites the cells it was asked to; a delete pushes a version and sets a flag. A read takes the
cells if the record's `t_min` is readable and otherwise walks the versions from the newest to the
oldest.

The configuration is the repository's own: no consolidation, one master version, plain `Column`s.
The data area of a version is memory of its own, whatever it held before.
-/

namespace Proteus.Oltp

open Proteus.Buffer List Option

/-! ## Transaction times and visibility -/

/-- The pair a transaction runs under; both are 64-bit `xid_t`. -/
structure TxnTs where
  txn_id : ℕ
  txn_start_time : ℕ
  deriving DecidableEq, Repr

/-- `txnPairGen::get_txnID_startTime_Pair` at counter value `x`; the shift drops the high bits. -/
def get_txnID_startTime_Pair (x : ℕ) : TxnTs := ⟨x <<< 27 % 2 ^ 64, x⟩

/-- `CC_MV2PL::is_readable`. -/
def is_readable (tmin : ℕ) (xact : TxnTs) : Bool :=
  decide (tmin ≤ xact.txn_start_time) || decide (tmin = xact.txn_id)

/-- What the bit-field `ts_t::t_min` keeps of a time: 63 bits. -/
def t_min (time : ℕ) : ℕ := time % 2 ^ 63

/-! ## Tables -/

/-- `Column`: the width of its cells and where they sit in a record. -/
structure Column where
  unit_size : ℕ
  byteOffset_record : ℕ
  deriving DecidableEq, Repr

/-- The widths of a table's columns in bytes. -/
structure TableDef where
  widths : List ℕ
  widths_ne : widths ≠ []
  widths_pos : ∀ w ∈ widths, 0 < w

/-- The loop of the `ColumnStore` constructor, from `col_offset` on. -/
def columnsFrom (col_offset : ℕ) : List ℕ → List Column
  | [] => []
  | col_width :: ws => ⟨col_width, col_offset⟩ :: columnsFrom (col_offset + col_width) ws

namespace TableDef

variable (t : TableDef)

def columns : List Column := columnsFrom 0 t.widths

def record_size : ℕ := t.widths.sum

/-- `Table::column_size_offset_pairs`, a vector of pairs of `uint16_t`. -/
def column_size_offset_pairs : List (ℕ × ℕ) :=
  t.columns.map fun col => (col.unit_size % 2 ^ 16, col.byteOffset_record % 2 ^ 16)

/-- The columns an update writes: those named, or all of them if none is. -/
def updated (col_idx : List ℕ) : List ℕ :=
  if col_idx.length > 0 then col_idx else List.range t.columns.length

/-- Bytes an update of `col_idx` takes from its data. -/
def updatedSize (col_idx : List ℕ) : ℕ :=
  ((t.updated col_idx).map fun i => t.widths.getD i 0).sum

end TableDef

/-! ## Records -/

/-- `VersionSingle`; `next` is the rest of the list it stands in. -/
structure Version where
  t_min : ℕ
  data : List UInt8
  deriving DecidableEq, Repr

/-- A record: its `IndexVal` and its cell in every column. -/
structure Record where
  t_min : ℕ
  deleted : Bool
  delta_list : List Version
  cells : List (List UInt8)
  deriving DecidableEq, Repr

/-- `Column::UpdateInPlace` on one cell. Without data it stores the `uint64_t` 25. -/
def updateElem (cell : List UInt8) : Option (List UInt8) → List UInt8
  | none => [25, 0, 0, 0, 0, 0, 0, 0].take cell.length ++ cell.drop 8
  | some data => data

variable (t : TableDef) (data : List UInt8)

def insertRecord (transaction_id : ℕ) : Record where
  t_min := Oltp.t_min transaction_id
  deleted := false
  delta_list := []
  cells := t.columns.map fun col => readAt data col.byteOffset_record col.unit_size

/-- Copy every cell into a version's data area. -/
def copyRecord (columns : List Column) (cells : List (List UInt8)) (area : List UInt8) :
    List UInt8 :=
  (columns.zip cells).foldl (fun buf p => writeAt buf p.1.byteOffset_record p.2) area

variable (r : Record)

/-- `MV_RecordList_Full::create_versions`: the new version carries the record's `t_min` and is
pushed in front of the list. -/
def create_versions (data : List UInt8) : Record :=
  { r with delta_list := ⟨r.t_min, data⟩ :: r.delta_list }

/-- The update loop of `updateRecord`; `cursor` is what is left of the data. -/
def updateColumns (columns : List Column) : List ℕ → Option (List UInt8) → List (List UInt8) →
    List (List UInt8)
  | [], _, cells => cells
  | idx :: rest, cursor, cells =>
    let unit_size := (columns[idx]?.map Column.unit_size).getD 0
    updateColumns columns rest (cursor.map (List.drop unit_size))
      (cells.modify idx fun cell => updateElem cell (cursor.map (List.take unit_size)))

/-- A call of `updateRecord`: the start time of its transaction, the columns it names, its data, if
any, and the memory the delta store hands out for the version. -/
structure Update (t : TableDef) where
  txn_start_time : ℕ
  col_idx : List ℕ
  data : Option (List UInt8)
  area : List UInt8
  col_idx_lt : ∀ i ∈ col_idx, i < t.columns.length
  data_length : ∀ d ∈ data, d.length = t.updatedSize col_idx
  area_length : area.length = t.record_size

def updateRecord (u : Update t) : Record :=
  let versioned := create_versions r (copyRecord t.columns r.cells u.area)
  { versioned with
    cells := updateColumns t.columns (t.updated u.col_idx) u.data r.cells
    t_min := Oltp.t_min u.txn_start_time }

/-- A call of `deleteRecord`: the start time of its transaction and the memory of the version. -/
structure Delete (t : TableDef) where
  txn_start_time : ℕ
  area : List UInt8
  area_length : area.length = t.record_size

/-- `ColumnStore::deleteRecord`; nothing is copied into the version. -/
def deleteRecord {t : TableDef} (r : Record) (del : Delete t) : Record :=
  { create_versions r del.area with
    t_min := Oltp.t_min del.txn_start_time
    deleted := true }

/-! ## Reads -/

/-- The ways a read ends without a record. -/
inductive ReadError
  | recordDoesNotExist
  | deltaTagVerificationFailed
  | noReadableVersion
  | outOfRange
  deriving DecidableEq, Repr

/-- `VersionChain::get_readable_ver`. -/
def get_readable_ver (txTs : TxnTs) : List Version → Option Version
  | [] => none
  | v :: next => if is_readable v.t_min txTs then some v else get_readable_ver txTs next

/-- `columns.at(i)` and the like over a list of columns. -/
def pickColumns {α : Type*} (xs : List α) (col_idx : List ℕ) : Except ReadError (List α) :=
  col_idx.mapM fun i => match xs[i]? with
    | some x => .ok x
    | none => .error .outOfRange

/-- The copies out of a version's data area. -/
def copyPairs (pairs : List (ℕ × ℕ)) : List UInt8 :=
  (pairs.map fun p => readAt data p.2 p.1).flatten

/-- The end of `get_readable_version`: the columns asked for, out of a version's data area. -/
def copyVersion : Option (List ℕ) → Except ReadError (List UInt8)
  | none => .ok (copyPairs data t.column_size_offset_pairs)
  | some [] => .ok (copyPairs data t.column_size_offset_pairs)
  | some cols => copyPairs data <$> pickColumns t.column_size_offset_pairs cols

/-- `MV_RecordList_Full::get_readable_version`. -/
def get_readable_version (txTs : TxnTs) (col_idx : Option (List ℕ)) :
    Except ReadError (List UInt8) :=
  if r.delta_list.isEmpty then .error .deltaTagVerificationFailed
  else match get_readable_ver txTs r.delta_list with
    | none => .error .noReadableVersion
    | some version =>
      if r.deleted then .error .recordDoesNotExist else copyVersion t version.data col_idx

/-- The columns asked for, out of the cells. -/
def copyCells (cells : List (List UInt8)) : Option (List ℕ) → Except ReadError (List UInt8)
  | none => .ok cells.flatten
  | some cols => List.flatten <$> pickColumns cells cols

/-- `ColumnStore::getIndexedRecord`: the bytes written to the destination. `none` is a null
`col_idx`. -/
def getIndexedRecord (txnTs : TxnTs) (r : Record) (col_idx : Option (List ℕ)) :
    Except ReadError (List UInt8) :=
  if is_readable r.t_min txnTs then
    if r.deleted then .error .recordDoesNotExist else copyCells r.cells col_idx
  else get_readable_version t r txnTs col_idx

/-! ## Layout -/

open TableDef

variable {cells : List (List UInt8)} (i : ℕ)

section

@[simp] theorem length_columnsFrom (off : ℕ) (ws : List ℕ) : (columnsFrom off ws).length = ws.length := by
  induction ws generalizing off with
  | nil => rfl
  | cons w ws ih => simp [columnsFrom, ih]

theorem getElem?_columnsFrom (off : ℕ) (ws : List ℕ) (i : ℕ) :
    (columnsFrom off ws)[i]? = ws[i]?.map fun w => ⟨w, off + (ws.take i).sum⟩ := by
  induction ws generalizing off i with
  | nil => simp [columnsFrom]
  | cons w ws ih =>
    cases i with
    | zero => simp [columnsFrom]
    | succ i => simp [columnsFrom, ih, Nat.add_assoc]

variable (t : TableDef)

@[simp] theorem TableDef.length_columns : t.columns.length = t.widths.length := by
  simp [columns]

theorem TableDef.getElem?_columns :
    t.columns[i]? = t.widths[i]?.map fun w => ⟨w, (t.widths.take i).sum⟩ := by
  simp [columns, getElem?_columnsFrom]

/-- One cell of the right width in every column. -/
def Shaped (cells : List (List UInt8)) : Prop := cells.map List.length = t.widths

variable {t}

section

variable (h : Shaped t cells)
include h

theorem Shaped.length_eq : cells.length = t.widths.length := by
  rw [← h, length_map]

theorem Shaped.length_flatten : cells.flatten.length = t.record_size := by
  rw [List.length_flatten, h, record_size]

theorem Shaped.getElem? {i : ℕ}
    {c : List UInt8} (hc : cells[i]? = some c) : t.widths[i]? = some c.length := by
  rw [← h, getElem?_map, hc]
  rfl

/-- The offset of a column is the length of the cells in front of it. -/
theorem Shaped.sum_take : (t.widths.take i).sum = (cells.take i).flatten.length := by
  rw [← h, List.length_flatten, List.map_take]

end

theorem copyRecord_columnsFrom (cells : List (List UInt8)) (off : ℕ) (area : List UInt8) :
    copyRecord (columnsFrom off (cells.map List.length)) cells area = writeCells area off cells := by
  induction cells generalizing off area with
  | nil => rfl
  | cons c cells ih => exact ih (off + c.length) (writeAt area off c)

/-- A version holds the cells one behind the other. -/
theorem copyRecord_eq (h : Shaped t cells) {area : List UInt8}
    (harea : area.length = t.record_size) : copyRecord t.columns cells area = cells.flatten := by
  rw [columns, ← h, copyRecord_columnsFrom, writeCells_whole]
  rw [harea, h.length_flatten]

/-- A cell ends inside the record. -/
theorem TableDef.sum_take_add_le {i w : ℕ} (h : t.widths[i]? = some w) :
    (t.widths.take i).sum + w ≤ t.record_size := by
  obtain ⟨hi, rfl⟩ := List.getElem?_eq_some_iff.1 h
  have hsplit := sum_take_add_sum_drop t.widths (i + 1)
  rw [record_size, ← sum_take_succ]
  omega

theorem shaped_insertRecord {data : List UInt8} (hdata : data.length = t.record_size) (time : ℕ) :
    Shaped t (insertRecord t data time).cells := by
  apply ext_getElem?
  intro i
  simp only [insertRecord, getElem?_map, t.getElem?_columns, Option.map_map]
  cases hw : t.widths[i]? with
  | none => rfl
  | some w =>
    have hle := t.sum_take_add_le hw
    simp only [map_some, Function.comp, readAt, length_take, length_drop, some.injEq]
    omega

end

/-! ## Updates and reads of a shaped record -/

section

variable {t : TableDef}

theorem length_updateElem_none (cell : List UInt8) : (updateElem cell none).length = cell.length := by
  simp only [updateElem, length_append, length_take, length_drop, length_cons, length_nil]
  omega

theorem TableDef.unit_size_eq :
    (t.columns[i]?.map Column.unit_size).getD 0 = t.widths.getD i 0 := by
  rw [t.getElem?_columns, getD_eq_getElem?_getD]
  cases t.widths[i]? <;> rfl

theorem TableDef.updated_lt {col_idx : List ℕ} (h : ∀ i ∈ col_idx, i < t.columns.length) :
    ∀ i ∈ t.updated col_idx, i < t.columns.length := by
  intro i hi
  rw [updated] at hi
  split_ifs at hi
  · exact h i hi
  · exact mem_range.1 hi

theorem TableDef.updated_ne_nil (col_idx : List ℕ) : t.updated col_idx ≠ [] := by
  rw [updated]
  split_ifs with h
  · exact ne_nil_of_length_pos h
  · simpa using t.widths_ne

theorem Shaped.modify (h : Shaped t cells) (i : ℕ)
    {f : List UInt8 → List UInt8} (hf : ∀ c, cells[i]? = some c → (f c).length = c.length) :
    Shaped t (cells.modify i f) := by
  rw [Shaped, ← h]
  apply ext_getElem?
  intro j
  simp only [getElem?_map, getElem?_modify]
  cases hc : cells[j]? with
  | none => rfl
  | some c =>
    by_cases hij : i = j
    · subst hij
      simp [hf c hc]
    · simp [hij]

/-- The update loop keeps every cell at its width. -/
theorem shaped_updateColumns (idxs : List ℕ) {cursor : Option (List UInt8)} (h : Shaped t cells)
    (hcursor : ∀ d ∈ cursor, (idxs.map fun i => t.widths.getD i 0).sum ≤ d.length) :
    Shaped t (updateColumns t.columns idxs cursor cells) := by
  induction idxs generalizing cells cursor with
  | nil => exact h
  | cons i idxs ih =>
    simp only [updateColumns, unit_size_eq]
    simp only [map_cons, sum_cons] at hcursor
    refine ih (h.modify i ?_) ?_
    · intro c hc
      cases cursor with
      | none => exact length_updateElem_none c
      | some d =>
        have hd := hcursor d rfl
        have hw := h.getElem? hc
        rw [getD_eq_getElem?_getD, hw] at hd ⊢
        simp only [map_some, updateElem, length_take, getD_some] at hd ⊢
        omega
    · intro d hd
      obtain ⟨d', hd', rfl⟩ := map_eq_some_iff.1 hd
      have := hcursor d' hd'
      rw [length_drop]
      omega

theorem shaped_updateRecord {r : Record} (h : Shaped t r.cells) (u : Update t) :
    Shaped t (updateRecord t r u).cells :=
  shaped_updateColumns _ h fun d hd => (u.data_length d hd).ge

/-- The update loop fed with one cell `f i` for every column `i` it writes. -/
theorem getElem?_updateColumns (f : ℕ → List UInt8) (hf : ∀ i, (f i).length = t.widths.getD i 0)
    (idxs : List ℕ) (cells : List (List UInt8)) (j : ℕ) :
    (updateColumns t.columns idxs (some (idxs.map f).flatten) cells)[j]? =
      if j ∈ idxs then cells[j]?.map fun _ => f j else cells[j]? := by
  induction idxs generalizing cells with
  | nil => simp [updateColumns]
  | cons i idxs ih =>
    simp only [updateColumns, unit_size_eq, map_cons, flatten_cons, map_some]
    rw [← hf i, drop_left, take_left, ih, getElem?_modify]
    by_cases hij : i = j
    · subst hij
      cases cells[i]? <;> simp [updateElem]
    · simp [hij, Ne.symm hij]

theorem pickColumns_ok {α : Type*} {xs : List α} {cols : List ℕ} {f : ℕ → α}
    (h : ∀ i ∈ cols, xs[i]? = some (f i)) : pickColumns xs cols = .ok (cols.map f) := by
  induction cols with
  | nil => rfl
  | cons i cols ih =>
    have htail := ih fun j hj => h j (by simp [hj])
    rw [pickColumns] at htail ⊢
    rw [mapM_cons, h i (by simp), htail]
    rfl

theorem get_readable_ver_eq_find? (txTs : TxnTs) (vs : List Version) :
    get_readable_ver txTs vs = vs.find? fun v => is_readable v.t_min txTs := by
  induction vs with
  | nil => rfl
  | cons v vs ih =>
    rw [get_readable_ver, find?_cons, ih]
    cases is_readable v.t_min txTs <;> rfl

end

/-! ## Transaction ids and start times -/

section

variable {T : Type*}

/-- The transactions that `txnPairGen` hands out from counter value `gen` on, in the order of the
fetch-and-adds: `some t` is a transaction of the thread `t`, `none` a call of `get_commit_ts`. -/
def drawAll : ℕ → List (Option T) → List (T × TxnTs)
  | _, [] => []
  | gen, none :: ds => drawAll ((gen + 1) % 2 ^ 64) ds
  | gen, some t :: ds => (t, get_txnID_startTime_Pair gen) :: drawAll ((gen + 1) % 2 ^ 64) ds

/-- Ids and start times are all different, and a version of one transaction is readable for another
if it is not later. -/
structure Visibility (xs : List (T × TxnTs)) : Prop where
  own : ∀ a ∈ xs, a.2.txn_id ≠ a.2.txn_start_time
  apart : ∀ (i j : ℕ) (a b : T × TxnTs), i ≠ j → xs[i]? = some a → xs[j]? = some b →
    a.2.txn_id ≠ b.2.txn_id ∧ a.2.txn_start_time ≠ b.2.txn_start_time ∧ a.2.txn_id ≠ b.2.txn_start_time
  readable : ∀ (i j : ℕ) (a b : T × TxnTs), i ≠ j → xs[i]? = some a → xs[j]? = some b →
    (is_readable (t_min a.2.txn_start_time) b.2 = true ↔
      a.2.txn_start_time ≤ b.2.txn_start_time)

/-- Until the counter wraps around, start times are its values, and they grow. -/
theorem mem_drawAll {gen : ℕ} {ds : List (Option T)} (h : gen + ds.length < 2 ^ 64) :
    (∀ a ∈ drawAll gen ds, ∃ x, gen ≤ x ∧ x < gen + ds.length ∧ a.2 = get_txnID_startTime_Pair x) ∧
      (drawAll gen ds).Pairwise fun a b => a.2.txn_start_time < b.2.txn_start_time := by
  induction ds generalizing gen with
  | nil => exact ⟨fun _ ha => absurd ha not_mem_nil, .nil⟩
  | cons d ds ih =>
    rw [length_cons] at h ⊢
    have hmod : (gen + 1) % 2 ^ 64 = gen + 1 := Nat.mod_eq_of_lt (by omega)
    obtain ⟨hmem, hlt⟩ := ih (by omega : gen + 1 + ds.length < 2 ^ 64)
    have hnext : ∀ a ∈ drawAll (gen + 1) ds,
        ∃ x, gen ≤ x ∧ x < gen + (ds.length + 1) ∧ a.2 = get_txnID_startTime_Pair x := by
      intro a ha
      obtain ⟨x, hx, hx', ha⟩ := hmem a ha
      exact ⟨x, by omega, by omega, ha⟩
    cases d with
    | none =>
      rw [drawAll, hmod]
      exact ⟨hnext, hlt⟩
    | some t =>
      rw [drawAll, hmod]
      refine ⟨forall_mem_cons.2 ⟨⟨gen, le_rfl, by omega, rfl⟩, hnext⟩, pairwise_cons.2 ⟨?_, hlt⟩⟩
      intro a ha
      obtain ⟨x, hx, -, ha⟩ := hmem a ha
      rw [ha]
      exact hx

theorem drawAll_commits {gen : ℕ} (hgen : gen < 2 ^ 64) (k : ℕ) (ds : List (Option T)) :
    drawAll gen (replicate k none ++ ds) = drawAll ((gen + k) % 2 ^ 64) ds := by
  induction k generalizing gen with
  | zero => rw [add_zero, Nat.mod_eq_of_lt hgen, replicate_zero, nil_append]
  | succ k ih =>
    rw [replicate_succ, cons_append, drawAll, ih (Nat.mod_lt _ (by decide))]
    congr 1
    omega

theorem txn_id_of_lt {x : ℕ} (hx : x < 2 ^ 27) : (get_txnID_startTime_Pair x).txn_id = x * 2 ^ 27 := by
  simp only [get_txnID_startTime_Pair, Nat.shiftLeft_eq]
  omega

/-- Transactions drawn below 2^27 follow the visibility rule. -/
theorem visibility_of_lt {ds : List (Option T)} (hlen : ds.length < 2 ^ 27) : Visibility (drawAll 1 ds) := by
  obtain ⟨hmem, hlt⟩ := mem_drawAll (by omega : 1 + ds.length < 2 ^ 64)
  have hdraw : ∀ a ∈ drawAll 1 ds, 1 ≤ a.2.txn_start_time ∧ a.2.txn_start_time < 2 ^ 27 ∧
      a.2.txn_id = a.2.txn_start_time * 2 ^ 27 := by
    intro a ha
    obtain ⟨x, hx, hx', heq⟩ := hmem a ha
    rw [heq, txn_id_of_lt (by omega)]
    exact ⟨hx, by simp only [get_txnID_startTime_Pair]; omega, rfl⟩
  have hne : ∀ (i j : ℕ) (a b : T × TxnTs), i ≠ j → (drawAll 1 ds)[i]? = some a →
      (drawAll 1 ds)[j]? = some b → a.2.txn_start_time ≠ b.2.txn_start_time := by
    intro i j a b hij ha hb
    obtain ⟨hi, rfl⟩ := List.getElem?_eq_some_iff.1 ha
    obtain ⟨hj, rfl⟩ := List.getElem?_eq_some_iff.1 hb
    rcases lt_or_gt_of_ne hij with hij | hij
    · exact (pairwise_iff_getElem.1 hlt i j hi hj hij).ne
    · exact (pairwise_iff_getElem.1 hlt j i hj hi hij).ne'
  refine ⟨fun a ha => ?_, fun i j a b hij ha hb => ?_, fun i j a b hij ha hb => ?_⟩
  · have := hdraw a ha
    omega
  · have := hne i j a b hij ha hb
    have := hdraw a (mem_of_getElem? ha)
    have := hdraw b (mem_of_getElem? hb)
    omega
  · have := hdraw a (mem_of_getElem? ha)
    have := hdraw b (mem_of_getElem? hb)
    rw [is_readable, Bool.or_eq_true, decide_eq_true_iff, decide_eq_true_iff, t_min]
    omega

/-- The first id is the start time of the transaction that gets the 2^27-th value. -/
theorem not_visibility (t : T) {k : ℕ} (hk : k + 2 = 2 ^ 27) (l : ℕ) :
    ¬Visibility (drawAll 1 (some t :: (replicate k none ++ some t :: (replicate l none ++ [])))) := by
  intro h
  have hgen : ((1 + 1) % 2 ^ 64 + k) % 2 ^ 64 = 2 ^ 27 := by omega
  rw [drawAll, drawAll_commits (by decide), hgen, drawAll, drawAll_commits (by decide), drawAll] at h
  exact (h.apart 0 1 _ _ (by decide) rfl rfl).2.2 rfl

/-- The visibility rule holds for all sequences of `n` draws if and only if these are fewer than
2^27. -/
theorem visibility_iff [Inhabited T] (n : ℕ) :
    (∀ ds : List (Option T), ds.length = n → Visibility (drawAll 1 ds)) ↔ n < 2 ^ 27 := by
  refine ⟨fun h => ?_, fun hn ds hds => visibility_of_lt (hds ▸ hn)⟩
  by_contra hn
  obtain ⟨k, hk⟩ : ∃ k, k + 2 = 2 ^ 27 := ⟨2 ^ 27 - 2, by omega⟩
  obtain ⟨l, rfl⟩ := Nat.exists_eq_add_of_le (not_lt.1 hn)
  refine not_visibility default hk l (h _ ?_)
  rw [← hk]
  simp only [length_cons, length_append, length_replicate, length_nil]
  exact Nat.add_right_comm k l 2

/-- A version of transaction 2^27 is readable for transaction 1. -/
theorem later_version_readable :
    (get_txnID_startTime_Pair 1).txn_id = (get_txnID_startTime_Pair (2 ^ 27)).txn_start_time ∧
      is_readable (t_min (2 ^ 27)) (get_txnID_startTime_Pair 1) = true ∧ ¬2 ^ 27 ≤ 1 := by
  decide

end

end Proteus.Oltp
