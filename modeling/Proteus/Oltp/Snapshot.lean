import Proteus.Oltp.ColumnStore
import Proteus.Timeline

/-!
# Snapshot reads

The record and its versions are the snapshots of a timeline: the states the cells went through, each
with the time of its write. A read at `s` is meant to see the writes with a start time of at most
`s`. It does so exactly when no later write is taken for readable, which `is_readable` does for the
one start time that equals the reader's shifted id, and when what the versions are read through,
16 bits for the width and the offset of a column, holds the table's layout.

A deleted record has one flag for all times. Both paths of a read look at it, so that no reader gets
the record any more, however early its start time is (`getIndexedRecord_runDeleted`).
-/

namespace Proteus.Oltp

open List Nat Option Proteus.Buffer Proteus.Timeline

variable {t : TableDef}

/-! ## Histories -/

/-- The record after an insert at `t₀` and the updates `us`, newest first. -/
def runHistory (t : TableDef) (data : List UInt8) (t₀ : ℕ) : List (Update t) → Record
  | [] => insertRecord t data t₀
  | u :: us => updateRecord t (runHistory t data t₀ us) u

/-- The cells as they were after the last write with a start time of at most `s`. -/
def stateAt (t : TableDef) (data : List UInt8) (t₀ : ℕ) (us : List (Update t)) (s : ℕ) :
    List (List UInt8) :=
  (runHistory t data t₀ (us.filter fun u => decide (u.txn_start_time ≤ s))).cells

variable (us : List (Update t))

/-- What updates do to a plain store that keeps only the cells. -/
def writes : History ℕ (List (List UInt8)) :=
  us.map fun u => (u.txn_start_time, updateColumns t.columns (t.updated u.col_idx) u.data)

variable {data : List UInt8}

theorem shaped_runHistory (hdata : data.length = t.record_size) (t₀ : ℕ)
    (us : List (Update t)) : Shaped t (runHistory t data t₀ us).cells := by
  induction us with
  | nil => exact shaped_insertRecord hdata t₀
  | cons u us ih => exact shaped_updateRecord ih u

section

variable (data : List UInt8) (t₀ : ℕ) (us : List (Update t))

theorem runHistory_cells :
    (runHistory t data t₀ us).cells = replay (insertRecord t data t₀).cells (writes us) := by
  induction us with
  | nil => rfl
  | cons u us ih =>
    rw [writes, map_cons, replay_cons, ← writes, ← ih]
    rfl

theorem runHistory_t_min : (runHistory t data t₀ us).t_min = t_min (lastTime t₀ (writes us)) := by
  cases us <;> rfl

theorem runHistory_deleted : (runHistory t data t₀ us).deleted = false := by
  induction us with
  | nil => rfl
  | cons u us ih => exact ih

theorem stateAt_eq_replay (s : ℕ) :
    stateAt t data t₀ us s = replay (insertRecord t data t₀).cells (upTo s (writes us)) := by
  rw [stateAt, runHistory_cells, writes, writes, upTo, List.filter_map]
  rfl

end

/-- A state of the timeline as a version stores it. -/
def toVersion (p : ℕ × List (List UInt8)) : Version := ⟨t_min p.1, p.2.flatten⟩

/-- The current record and its versions are the snapshots of the timeline. -/
theorem versions_eq_snapshots (hdata : data.length = t.record_size) (t₀ : ℕ) (us : List (Update t)) :
    ⟨(runHistory t data t₀ us).t_min, (runHistory t data t₀ us).cells.flatten⟩ ::
        (runHistory t data t₀ us).delta_list =
      (snapshots t₀ (insertRecord t data t₀).cells (writes us)).map toVersion := by
  induction us with
  | nil => rfl
  | cons u us ih =>
    have hcells := runHistory_cells data t₀ (u :: us)
    have hlist : (runHistory t data t₀ (u :: us)).delta_list =
        ⟨(runHistory t data t₀ us).t_min, (runHistory t data t₀ us).cells.flatten⟩ ::
          (runHistory t data t₀ us).delta_list := by
      rw [← copyRecord_eq (shaped_runHistory hdata t₀ us) u.area_length]
      rfl
    rw [hlist, ih, hcells]
    rfl

/-- A read returns the current cells or goes to the first readable state of the timeline. -/
theorem getIndexedRecord_runHistory (hdata : data.length = t.record_size)
    {t₀ : ℕ} (us : List (Update t)) {ts : TxnTs} (h₀ : is_readable (t_min t₀) ts) (req : Option (List ℕ)) :
    getIndexedRecord t ts (runHistory t data t₀ us) req =
      if is_readable (t_min (lastTime t₀ (writes us))) ts then
        copyCells (runHistory t data t₀ us).cells req
      else copyVersion t (replay (insertRecord t data t₀).cells
        ((writes us).dropWhile fun w => !is_readable (t_min w.1) ts)).flatten req := by
  rw [getIndexedRecord, ← runHistory_t_min data t₀ us]
  by_cases hread : is_readable (runHistory t data t₀ us).t_min ts
  · rw [if_pos hread, if_pos hread, runHistory_deleted]
    rfl
  -- The current record is one of the snapshots, and not readable.
  have hfind : get_readable_ver ts (runHistory t data t₀ us).delta_list =
      some (toVersion (lastTime t₀ ((writes us).dropWhile fun w => !is_readable (t_min w.1) ts),
        replay (insertRecord t data t₀).cells
          ((writes us).dropWhile fun w => !is_readable (t_min w.1) ts))) := by
    have hsnap := find?_snapshots (fun time => is_readable (t_min time) ts) h₀
      (insertRecord t data t₀).cells (writes us)
    have hall := congrArg (find? fun v => is_readable v.t_min ts)
      (versions_eq_snapshots hdata t₀ us)
    rw [find?_map, find?_cons_of_neg (by exact hread)] at hall
    rw [get_readable_ver_eq_find?, hall]
    exact congrArg (Option.map toVersion) hsnap
  have hne : (runHistory t data t₀ us).delta_list.isEmpty = false := by
    cases hl : (runHistory t data t₀ us).delta_list with
    | nil => rw [hl] at hfind; cases hfind
    | cons v vs => rfl
  rw [get_readable_version, hne, hfind, runHistory_deleted]
  rfl

/-! ## Requests -/

/-- A request names columns of the table. -/
def Requestable (t : TableDef) (req : Option (List ℕ)) : Prop :=
  ∀ cols ∈ req, ∀ i ∈ cols, i < t.columns.length

/-- The columns asked for, in the order of the request; a null request asks for all. -/
def requested (cells : List (List UInt8)) : Option (List ℕ) → List UInt8
  | none => cells.flatten
  | some cols => (cols.map fun i => cells.getD i []).flatten

variable (req : Option (List ℕ)) (expected : List UInt8)

/-- A read delivers `expected`. To an empty list of columns, which asks for nothing, the version path
answers with the whole record. -/
def Delivers
    (res : Except ReadError (List UInt8)) : Prop :=
  ∃ bytes, res = .ok bytes ∧ expected <+: bytes ∧ (req ≠ some [] → bytes = expected)

theorem delivers_ok : Delivers req expected (.ok expected) :=
  ⟨expected, rfl, prefix_refl _, fun _ => rfl⟩

theorem delivers_none {expected : List UInt8} {res : Except ReadError (List UInt8)}
    (h : Delivers none expected res) : res = .ok expected := by
  obtain ⟨bytes, hres, -, heq⟩ := h
  rw [hres, heq (by simp)]

/-- What the versions are read through holds the width and the offset of every column. -/
def TableDef.Fits (t : TableDef) : Prop :=
  ∀ col ∈ t.columns, col.unit_size < 2 ^ 16 ∧ col.byteOffset_record < 2 ^ 16

instance (t : TableDef) : Decidable t.Fits := by
  unfold TableDef.Fits
  infer_instance

variable {cells : List (List UInt8)}

open TableDef

variable {i : ℕ}

section

variable (h : Shaped t cells) {req : Option (List ℕ)}
include h

theorem Shaped.getElem?_eq
    (hi : i < t.columns.length) : cells[i]? = some (cells.getD i []) := by
  rw [t.length_columns, ← h.length_eq] at hi
  rw [getD_eq_getElem?_getD, getElem?_eq_getElem hi]
  rfl

theorem copyCells_delivers (hreq : Requestable t req) :
    Delivers req (requested cells req) (copyCells cells req) := by
  cases req with
  | none => exact delivers_ok _ _
  | some cols =>
    rw [copyCells, pickColumns_ok fun i hi => h.getElem?_eq (hreq cols rfl i hi)]
    exact delivers_ok _ _

/-- Through a pair that was not cut, a version's data area gives the cell back. -/
theorem readAt_pair (hfits : t.Fits) (hi : i < t.columns.length) :
    ∃ p, t.column_size_offset_pairs[i]? = some p ∧
      readAt cells.flatten p.2 p.1 = cells.getD i [] := by
  have hcell := h.getElem?_eq hi
  have hcol : t.columns[i]? = some ⟨(cells.getD i []).length, (cells.take i).flatten.length⟩ := by
    rw [t.getElem?_columns, h.getElem? hcell, ← h.sum_take]
    rfl
  obtain ⟨hsize, hoff⟩ := hfits _ (mem_of_getElem? hcol)
  refine ⟨_, by rw [column_size_offset_pairs, getElem?_map, hcol]; rfl, ?_⟩
  show readAt cells.flatten (_ % 2 ^ 16) (_ % 2 ^ 16) = _
  rw [mod_eq_of_lt hsize, mod_eq_of_lt hoff]
  exact readAt_flatten hcell

theorem copyPairs_all (hfits : t.Fits) :
    copyPairs cells.flatten t.column_size_offset_pairs = cells.flatten := by
  rw [copyPairs]
  congr 1
  apply ext_getElem?
  intro i
  by_cases hi : i < t.columns.length
  · obtain ⟨p, hp, hread⟩ := readAt_pair h hfits hi
    rw [getElem?_map, hp, h.getElem?_eq hi, ← hread]
    rfl
  · have hlen := h.length_eq
    rw [getElem?_eq_none]
    · simpa [hlen] using hi
    · simpa [column_size_offset_pairs] using hi

theorem copyVersion_delivers (hfits : t.Fits) (hreq : Requestable t req) :
    Delivers req (requested cells req) (copyVersion t cells.flatten req) := by
  match req, hreq with
  | none, _ =>
    rw [copyVersion, copyPairs_all h hfits]
    exact delivers_ok _ _
  | some [], _ => exact ⟨_, rfl, nil_prefix, fun hne => absurd rfl hne⟩
  | some (i :: cols), hreq =>
    have hpick : pickColumns t.column_size_offset_pairs (i :: cols) =
        .ok ((i :: cols).map fun j => t.column_size_offset_pairs.getD j (0, 0)) := by
      apply pickColumns_ok
      intro j hj
      obtain ⟨p, hp, -⟩ := readAt_pair h hfits (hreq _ rfl j hj)
      rw [getD_eq_getElem?_getD, hp]
      rfl
    have hcopy : copyPairs cells.flatten
        ((i :: cols).map fun j => t.column_size_offset_pairs.getD j (0, 0)) =
          requested cells (some (i :: cols)) := by
      rw [copyPairs, List.map_map]
      congr 1
      apply map_congr_left
      intro j hj
      obtain ⟨p, hp, hread⟩ := readAt_pair h hfits (hreq _ rfl j hj)
      rwa [Function.comp_apply, getD_eq_getElem?_getD, hp]
    have hcopied : copyVersion t cells.flatten (some (i :: cols)) =
        .ok (requested cells (some (i :: cols))) := by
      rw [copyVersion, hpick, ← hcopy]
      · rfl
      · intro hc
        cases hc
    rw [hcopied]
    exact delivers_ok _ _

end

/-! ## Payloads that tell states apart -/

/-- Cells that hold `v i` in every byte of column `i`. -/
def constantCells (t : TableDef) (v : ℕ → UInt8) : List (List UInt8) :=
  t.widths.mapIdx fun i w => List.replicate w (v i)

theorem getElem?_constantCells (v : ℕ → UInt8) (i : ℕ) :
    (constantCells t v)[i]? = t.widths[i]?.map fun w => List.replicate w (v i) := by
  simp [constantCells]

theorem shaped_constantCells (v : ℕ → UInt8) : Shaped t (constantCells t v) := by
  apply ext_getElem?
  intro i
  rw [getElem?_map, getElem?_constantCells]
  cases t.widths[i]? <;> simp

/-- An update that writes the byte `v i` all over every column `i` it updates. -/
def Update.Writes (u : Update t) (v : ℕ → UInt8) : Prop :=
  u.data = some ((t.updated u.col_idx).map fun i =>
    List.replicate (t.widths.getD i 0) (v i)).flatten

variable {v : ℕ → UInt8}

theorem Update.Writes.getElem? {u : Update t} (h : u.Writes v)
    (cells : List (List UInt8)) (j : ℕ) : (updateColumns t.columns (t.updated u.col_idx) u.data cells)[j]? =
      if j ∈ t.updated u.col_idx then
        cells[j]?.map fun _ => List.replicate (t.widths.getD j 0) (v j)
      else cells[j]? := by
  rw [h]
  exact getElem?_updateColumns _ (fun i => length_replicate) _ cells j

/-- The start times and the columns of a list of updates. -/
def shapeOf : List (ℕ × List ℕ) :=
  us.map fun u => (u.txn_start_time, u.col_idx)

/-- Updates of any shape, writing any bytes. -/
theorem exists_payload (v : ℕ → ℕ → UInt8) (shape : List (ℕ × List ℕ))
    (hcols : ∀ w ∈ shape, ∀ i ∈ w.2, i < t.columns.length) :
    ∃ us : List (Update t), shapeOf us = shape ∧ ∀ u ∈ us, u.Writes (v u.txn_start_time) := by
  induction shape with
  | nil => exact ⟨[], rfl, by simp⟩
  | cons w shape ih =>
    obtain ⟨us, hshape, hus⟩ := ih fun w' hw' => hcols w' (by simp [hw'])
    let u : Update t :=
      { txn_start_time := w.1
        col_idx := w.2
        data := some ((t.updated w.2).map fun i =>
          replicate (t.widths.getD i 0) (v w.1 i)).flatten
        area := replicate t.record_size 0
        col_idx_lt := hcols w (by simp)
        data_length := by
          intro d hd
          cases hd
          simp [updatedSize, Function.comp_def]
        area_length := length_replicate }
    refine ⟨u :: us, by rw [shapeOf, map_cons, ← shapeOf, hshape], ?_⟩
    intro u' hu'
    rcases mem_cons.1 hu' with rfl | hu'
    · rfl
    · exact hus u' hu'

theorem insertRecord_flatten {cells : List (List UInt8)} (h : Shaped t cells) (t₀ : ℕ) :
    (insertRecord t cells.flatten t₀).cells = cells := by
  apply ext_getElem?
  intro i
  simp only [insertRecord, getElem?_map, t.getElem?_columns, Option.map_map]
  rw [← h, getElem?_map, h]
  cases hc : cells[i]? with
  | none => rfl
  | some c =>
    simp only [map_some, Function.comp, h.sum_take]
    rw [readAt_flatten hc]

/-- Updates that write what is already there change nothing. -/
theorem replay_constantCells {us : List (Update t)} (h : ∀ u ∈ us, u.Writes v) :
    replay (constantCells t v) (writes us) = constantCells t v := by
  induction us with
  | nil => rfl
  | cons u us ih =>
    rw [writes, map_cons, replay_cons, ← writes, ih fun u' hu' => h u' (by simp [hu'])]
    apply ext_getElem?
    intro j
    rw [(h u (by simp)).getElem?, getElem?_constantCells, getD_eq_getElem?_getD]
    cases t.widths[j]? <;> simp

/-- An update with a byte of its own leaves a state that no constant of another byte is. -/
theorem replay_ne_constantCells {u : Update t} {a b : UInt8} (h : u.Writes fun _ => a) (hab : a ≠ b)
    (cells : List (List UInt8)) (hcells : Shaped t cells) :
    updateColumns t.columns (t.updated u.col_idx) u.data cells ≠ constantCells t fun _ => b := by
  intro heq
  obtain ⟨j, hj⟩ := exists_mem_of_ne_nil _ (t.updated_ne_nil u.col_idx)
  have hlt := t.updated_lt u.col_idx_lt j hj
  have hcell := h.getElem? cells j
  rw [heq, if_pos hj, hcells.getElem?_eq hlt, getElem?_constantCells,
    getD_eq_getElem?_getD, getElem?_eq_getElem (by simpa using hlt)] at hcell
  have hpos := t.widths_pos _ (getElem_mem (by simpa using hlt : j < t.widths.length))
  simp only [map_some, getD_some, some.injEq, replicate_inj] at hcell
  rcases hcell.2 with hzero | hbyte
  · omega
  · exact hab hbyte.symm

theorem map_length_readAt (data : List UInt8) (hdata : data.length = t.record_size)
    (hw : ∀ w ∈ t.widths, w < 2 ^ 16) :
    (t.column_size_offset_pairs.map fun p => readAt data p.2 p.1).map List.length = t.widths := by
  apply ext_getElem?
  intro i
  simp only [column_size_offset_pairs, getElem?_map, t.getElem?_columns, Option.map_map]
  cases hi : t.widths[i]? with
  | none => rfl
  | some w =>
    have hle := t.sum_take_add_le hi
    have hlt := hw w (mem_of_getElem? hi)
    simp only [map_some, Function.comp, readAt, length_take, length_drop,
      some.injEq, mod_eq_of_lt hlt]
    omega

/-- A width of 2^16 or more loses bytes of the record. -/
theorem length_copyPairs_lt {w : ℕ} (hw : w ∈ t.widths) (hlarge : 2 ^ 16 ≤ w) (data : List UInt8) :
    (copyPairs data t.column_size_offset_pairs).length < t.record_size := by
  have hsizes : t.column_size_offset_pairs.map Prod.fst = t.widths.map (· % 2 ^ 16) := by
    apply ext_getElem?
    intro i
    simp only [column_size_offset_pairs, getElem?_map, t.getElem?_columns, Option.map_map]
    rfl
  calc (copyPairs data t.column_size_offset_pairs).length
      ≤ (t.column_size_offset_pairs.map Prod.fst).sum := by
        rw [copyPairs, length_flatten, List.map_map]
        apply sum_le_sum
        intro p _
        exact length_take_le _ _
    _ = (t.widths.map (· % 2 ^ 16)).sum := by rw [hsizes]
    _ < (t.widths.map id).sum := by
        apply sum_lt_sum
        · intro x _
          exact Nat.mod_le _ _
        · exact ⟨w, hw, lt_of_lt_of_le (Nat.mod_lt w (Nat.two_pow_pos 16)) hlarge⟩
    _ = t.record_size := by rw [List.map_id, record_size]

/-- Cells that hold ones in column `i` only have zeros in front of it. -/
theorem mem_flatten_take_constantCells {x : UInt8}
    (hx : x ∈ ((constantCells t fun j => if j = i then 1 else 0).take i).flatten) : x = 0 := by
  obtain ⟨c, hc, hxc⟩ := mem_flatten.1 hx
  obtain ⟨j, hj⟩ := getElem?_of_mem hc
  rw [getElem?_take, getElem?_constantCells] at hj
  split_ifs at hj with hlt heq
  · omega
  · obtain ⟨w, -, rfl⟩ := map_eq_some_iff.1 hj
    exact eq_of_mem_replicate hxc

/-- A column behind the first 2^16 bytes is read from in front of itself. -/
theorem copyPairs_ne_of_offset (hi : i < t.widths.length)
    (hoff : 2 ^ 16 ≤ (t.widths.take i).sum) (hw : ∀ w ∈ t.widths, w < 2 ^ 16) :
    copyPairs (constantCells t fun j => if j = i then 1 else 0).flatten
        t.column_size_offset_pairs ≠
      (constantCells t fun j => if j = i then 1 else 0).flatten := by
  intro heq
  have hshaped : Shaped t (constantCells t fun j => if j = i then 1 else 0) :=
    shaped_constantCells _
  have hsame := eq_iff_flatten_eq.2 ⟨heq,
    (map_length_readAt _ hshaped.length_flatten hw).trans hshaped.symm⟩
  have hfirst := congrArg (fun cs => (cs.getD i [])[0]?) hsame
  simp only [column_size_offset_pairs, getD_eq_getElem?_getD, getElem?_map,
    t.getElem?_columns, getElem?_eq_getElem hi, map_some, getD_some,
    getElem?_constantCells, if_true, readAt, getElem?_take, getElem?_drop,
    mod_eq_of_lt (hw _ (getElem_mem hi)), if_pos (t.widths_pos _ (getElem_mem hi)),
    getElem?_replicate, add_zero] at hfirst
  -- The byte it is read from lies in front of the column.
  have hlt : (t.widths.take i).sum % 2 ^ 16 <
      ((constantCells t fun j => if j = i then 1 else 0).take i).flatten.length := by
    rw [← hshaped.sum_take]
    exact lt_of_lt_of_le (Nat.mod_lt _ (Nat.two_pow_pos 16)) hoff
  rw [← take_append_drop i (constantCells t _), flatten_append, getElem?_append_left hlt] at hfirst
  have hzero := mem_flatten_take_constantCells (mem_of_getElem? hfirst)
  exact absurd hzero (by decide)

/-- Where the layout does not fit there is a record whose versions are read wrongly. -/
theorem exists_copyPairs_ne (hfits : ¬t.Fits) :
    ∃ v, copyPairs (constantCells t v).flatten t.column_size_offset_pairs ≠
      (constantCells t v).flatten := by
  by_cases hw : ∀ w ∈ t.widths, w < 2 ^ 16
  · obtain ⟨i, hi, hoff⟩ : ∃ i, i < t.widths.length ∧ 2 ^ 16 ≤ (t.widths.take i).sum := by
      by_contra hno
      push Not at hno
      apply hfits
      intro col hcol
      obtain ⟨i, hi⟩ := getElem?_of_mem hcol
      rw [t.getElem?_columns] at hi
      obtain ⟨w, hwi, rfl⟩ := map_eq_some_iff.1 hi
      exact ⟨hw w (List.mem_of_getElem? hwi), hno i (List.getElem?_eq_some_iff.1 hwi).1⟩
    exact ⟨_, copyPairs_ne_of_offset hi hoff hw⟩
  · push Not at hw
    obtain ⟨w, hw, hlarge⟩ := hw
    refine ⟨fun _ => 0, fun heq => ?_⟩
    have hlt := length_copyPairs_lt hw hlarge (constantCells t fun _ => 0).flatten
    rw [heq, (shaped_constantCells _).length_flatten] at hlt
    exact lt_irrefl _ hlt

/-! ## Reads at a start time -/

section

variable {t₀ s : ℕ} {shape : List (ℕ × List ℕ)} {us : List (Update t)}

theorem readable_of_le {time : ℕ} (h : time ≤ s) :
    is_readable (t_min time) (get_txnID_startTime_Pair s) := by
  have hle : t_min time ≤ s := (mod_le _ _).trans h
  simp [is_readable, get_txnID_startTime_Pair, hle]

/-- No write after `s` passes for readable at `s`. -/
def NoEarlyRead (s : ℕ) (shape : List (ℕ × List ℕ)) : Prop :=
  ∀ w ∈ shape, s < w.1 → ¬is_readable (t_min w.1) (get_txnID_startTime_Pair s)

/-- A read of every history of a shape delivers the state at `s`. -/
def SnapshotReads (t : TableDef) (t₀ s : ℕ) (shape : List (ℕ × List ℕ)) : Prop :=
  ∀ (data : List UInt8) (us : List (Update t)), data.length = t.record_size → shapeOf us = shape →
    ∀ req, Requestable t req →
      Delivers req (requested (stateAt t data t₀ us s) req)
        (getIndexedRecord t (get_txnID_startTime_Pair s) (runHistory t data t₀ us) req)

theorem sorted_writes (hsorted : shape.Pairwise fun later earlier => earlier.1 ≤ later.1)
    (hshape : shapeOf us = shape) : Sorted (writes us) := by
  subst hshape
  rw [Sorted, writes, pairwise_map]
  exact pairwise_map.1 hsorted

/-- Without early reads the first readable state is the state at `s`. -/
theorem dropWhile_writes_eq_upTo (hsorted : Sorted (writes us)) (hearly : NoEarlyRead s (shapeOf us)) :
    (writes us).dropWhile (fun w => !is_readable (t_min w.1) (get_txnID_startTime_Pair s)) =
      upTo s (writes us) := by
  apply dropWhile_invisible_eq_upTo (fun time => is_readable (t_min time) _) hsorted
  · intro w _ hle
    exact readable_of_le hle
  · intro w hw hlt
    obtain ⟨u, hu, rfl⟩ := mem_map.1 hw
    have hshape : (u.txn_start_time, u.col_idx) ∈ shapeOf us := mem_map_of_mem hu
    simpa using hearly _ hshape hlt

theorem snapshotReads_of (hs : t₀ ≤ s) (hsorted : shape.Pairwise fun later earlier => earlier.1 ≤ later.1)
    (hearly : NoEarlyRead s shape) (hlayout : (∀ w ∈ shape.head?, w.1 ≤ s) ∨ t.Fits) :
    SnapshotReads t t₀ s shape := by
  intro data us hdata hshape req hreq
  have hdrop := dropWhile_writes_eq_upTo (sorted_writes hsorted hshape) (hshape ▸ hearly)
  rw [getIndexedRecord_runHistory hdata us (readable_of_le hs), hdrop, ← stateAt_eq_replay]
  by_cases hread : is_readable (t_min (lastTime t₀ (writes us))) (get_txnID_startTime_Pair s)
  · -- The current record is the state at `s`.
    have hall := dropWhile_invisible_of_lastTime
      (fun time => is_readable (t_min time) (get_txnID_startTime_Pair s)) hread
    rw [hdrop] at hall
    rw [if_pos hread, stateAt_eq_replay, hall, ← runHistory_cells]
    exact copyCells_delivers (shaped_runHistory hdata t₀ us) hreq
  · rw [if_neg hread]
    rcases hlayout with hlast | hfits
    · subst hshape
      refine absurd (readable_of_le ?_) hread
      cases us with
      | nil => exact hs
      | cons u us => exact hlast _ rfl
    · exact copyVersion_delivers (shaped_runHistory hdata t₀ _) hfits hreq

/-- The start time of the last write. -/
def lastStart (t₀ : ℕ) : List (ℕ × List ℕ) → ℕ
  | [] => t₀
  | w :: _ => w.1

theorem lastTime_writes (t₀ : ℕ) (us : List (Update t)) :
    lastTime t₀ (writes us) = lastStart t₀ (shapeOf us) := by
  cases us <;> rfl

/-- A read of the whole record, where the current cells or a layout that fits answer it. -/
theorem getIndexedRecord_all (hs : t₀ ≤ s) (hdata : data.length = t.record_size)
    (hlayout : is_readable (t_min (lastStart t₀ (shapeOf us))) (get_txnID_startTime_Pair s) ∨
      t.Fits) {us' : List (Update t)}
    (hdrop : (writes us).dropWhile
      (fun w => !is_readable (t_min w.1) (get_txnID_startTime_Pair s)) = writes us') :
    getIndexedRecord t (get_txnID_startTime_Pair s) (runHistory t data t₀ us) none =
      .ok (runHistory t data t₀ us').cells.flatten := by
  rw [getIndexedRecord_runHistory hdata us (readable_of_le hs), hdrop, ← runHistory_cells]
  by_cases hread : is_readable (t_min (lastTime t₀ (writes us))) (get_txnID_startTime_Pair s)
  · have hall := dropWhile_invisible_of_lastTime
      (fun time => is_readable (t_min time) (get_txnID_startTime_Pair s)) hread
    rw [if_pos hread, runHistory_cells, ← hall, hdrop, ← runHistory_cells]
    rfl
  · rw [if_neg hread]
    rw [← lastTime_writes] at hlayout
    have hfits := hlayout.resolve_left hread
    show Except.ok _ = _
    rw [copyPairs_all (shaped_runHistory hdata t₀ us') hfits]

/-- The first readable state is that of a write after `s`, where one passes for readable. -/
theorem exists_early_of_not_noEarlyRead (hsorted : Sorted (writes us))
    (hearly : ¬NoEarlyRead s (shapeOf us)) : ∃ u us', s < u.txn_start_time ∧ u ∈ us ∧
      (writes us).dropWhile (fun w => !is_readable (t_min w.1) (get_txnID_startTime_Pair s)) =
        writes (u :: us') := by
  unfold NoEarlyRead at hearly
  push Not at hearly
  obtain ⟨w, hw, hlt, hvis⟩ := hearly
  obtain ⟨u, hu, rfl⟩ := mem_map.1 hw
  obtain ⟨w, ws, hw, hsuffix, hdrop⟩ := dropWhile_invisible_eq_cons
    (fun time => is_readable (t_min time) (get_txnID_startTime_Pair s))
    hsorted (mem_map_of_mem hu) hlt hvis
  obtain ⟨l, hl, heq⟩ := suffix_map_iff.1 hsuffix
  cases l with
  | nil => cases heq
  | cons u' us' =>
    refine ⟨u', us', ?_, hl.subset (by simp), hdrop.trans heq⟩
    cases heq
    exact hw

/-- A write after `s` that passes for readable is read. -/
theorem not_snapshotReads_of_early (hs : t₀ ≤ s)
    (hsorted : shape.Pairwise fun later earlier => earlier.1 ≤ later.1)
    (hcols : ∀ w ∈ shape, ∀ i ∈ w.2, i < t.columns.length) (hearly : ¬NoEarlyRead s shape)
    (hlayout : is_readable (t_min (lastStart t₀ shape)) (get_txnID_startTime_Pair s) ∨ t.Fits) :
    ¬SnapshotReads t t₀ s shape := by
  intro hreads
  -- Writes up to `s` write zeros, later ones write ones.
  obtain ⟨us, rfl, hus⟩ := exists_payload (fun time _ => if time ≤ s then 0 else 1) shape hcols
  have hzeros : Shaped t (constantCells t fun _ => 0) := shaped_constantCells _
  have hdata := hzeros.length_flatten
  have hstate : stateAt t (constantCells t fun _ => 0).flatten t₀ us s =
      constantCells t fun _ => 0 := by
    rw [stateAt, runHistory_cells, insertRecord_flatten hzeros]
    apply replay_constantCells
    intro u hu
    obtain ⟨hmem, hle⟩ := mem_filter.1 hu
    have hwrites := hus u hmem
    simpa [of_decide_eq_true hle] using hwrites
  obtain ⟨u, us', hlt, hmem, hdrop⟩ :=
    exists_early_of_not_noEarlyRead (sorted_writes hsorted rfl) hearly
  have hones : u.Writes fun _ => 1 := by
    have hwrites := hus u hmem
    simpa [not_le.2 hlt] using hwrites
  have hread := delivers_none (hreads _ us hdata rfl none (by intro cols hc; cases hc))
  rw [getIndexedRecord_all hs hdata hlayout hdrop, hstate] at hread
  have hshaped := shaped_runHistory hdata t₀ (u :: us')
  have hsame := eq_iff_flatten_eq.2 ⟨Except.ok.inj hread, hshaped.trans hzeros.symm⟩
  exact replay_ne_constantCells hones (by decide) _ (shaped_runHistory hdata t₀ us') hsame

/-- Where versions are read through a layout that does not fit, some record is read wrongly. -/
theorem not_snapshotReads_of_layout (hs : t₀ ≤ s) (hcols : ∀ w ∈ shape, ∀ i ∈ w.2, i < t.columns.length)
    (hread : ¬is_readable (t_min (lastStart t₀ shape)) (get_txnID_startTime_Pair s))
    (hfits : ¬t.Fits) : ¬SnapshotReads t t₀ s shape := by
  intro hreads
  -- All writes write the same record, so that any version of it would do.
  obtain ⟨v, hv⟩ := exists_copyPairs_ne hfits
  obtain ⟨us, rfl, hus⟩ := exists_payload (fun _ => v) shape hcols
  have hshaped : Shaped t (constantCells t v) := shaped_constantCells v
  have hsame : ∀ us' : List (Update t), us' ⊆ us →
      (runHistory t (constantCells t v).flatten t₀ us').cells = constantCells t v := by
    intro us' hsub
    rw [runHistory_cells, insertRecord_flatten hshaped]
    exact replay_constantCells fun u hu => hus u (hsub hu)
  have hok := delivers_none
    (hreads _ us hshaped.length_flatten rfl none (by intro cols hc; cases hc))
  rw [getIndexedRecord_runHistory hshaped.length_flatten us (readable_of_le hs), lastTime_writes,
    if_neg hread, stateAt, hsame _ (filter_subset_self us), writes, dropWhile_map, ← writes,
    ← runHistory_cells, hsame _ (dropWhile_suffix _).subset] at hok
  exact hv (Except.ok.inj hok)

/-- Whatever is written, a read at `s` delivers the state at `s` if and only if no write after `s`
passes for readable and the version path is not taken or its 16-bit layout holds the table's. -/
theorem getIndexedRecord_snapshot_iff (t : TableDef) {t₀ s : ℕ} {shape : List (ℕ × List ℕ)}
    (hs : t₀ ≤ s) (hsorted : shape.Pairwise fun later earlier => earlier.1 ≤ later.1)
    (hcols : ∀ w ∈ shape, ∀ i ∈ w.2, i < t.columns.length) : SnapshotReads t t₀ s shape ↔
      NoEarlyRead s shape ∧ ((∀ w ∈ shape.head?, w.1 ≤ s) ∨ t.Fits) := by
  refine ⟨fun hreads => ?_, fun ⟨hearly, hlayout⟩ => snapshotReads_of hs hsorted hearly hlayout⟩
  by_cases hlayout :
      is_readable (t_min (lastStart t₀ shape)) (get_txnID_startTime_Pair s) ∨ t.Fits
  · have hearly : NoEarlyRead s shape := by
      by_contra hno
      exact not_snapshotReads_of_early hs hsorted hcols hno hlayout hreads
    refine ⟨hearly, hlayout.imp_left fun hread => ?_⟩
    cases shape with
    | nil => intro w hw; cases hw
    | cons v shape =>
      intro w hw
      cases hw
      by_contra hlt
      exact hearly v (by simp) (not_le.1 hlt) hread
  · obtain ⟨hread, hfits⟩ := not_or.1 hlayout
    exact absurd hreads (not_snapshotReads_of_layout hs hcols hread hfits)

theorem one_ne_nil : [1] ≠ [] := cons_ne_nil 1 []

/-- A table of one column of one byte. -/
def byteTable : TableDef := ⟨[1], one_ne_nil, by decide⟩

/-- A write at time 2 is not seen at time 1. -/
theorem getIndexedRecord_snapshot_next_write :
    (∀ w ∈ [(2, [0])].head?, ¬w.1 ≤ 1) ∧ SnapshotReads byteTable 1 1 [(2, [0])] := by
  refine ⟨by decide, (getIndexedRecord_snapshot_iff byteTable (le_refl 1) ?_ ?_).2 ⟨?_, ?_⟩⟩
  · exact pairwise_singleton _ _
  · decide
  · intro w hw _
    rw [mem_singleton.1 hw]
    decide
  · exact .inr (by decide)

/-- An update that stores one byte in the only column of `byteTable`. -/
def byteUpdate (start : ℕ) (b : UInt8) : Update byteTable where
  txn_start_time := start
  col_idx := [0]
  data := some [b]
  area := [0]
  col_idx_lt := by decide
  data_length := by intro d hd; cases hd; rfl
  area_length := rfl

/-- The transaction that starts at time 1 has the id 2^27 and reads what the one that starts at time
2^27 wrote. -/
theorem getIndexedRecord_reads_later_write : stateAt byteTable [7] 1 [byteUpdate (2 ^ 27) 9] 1 = [[7]] ∧
      getIndexedRecord byteTable (get_txnID_startTime_Pair 1)
        (runHistory byteTable [7] 1 [byteUpdate (2 ^ 27) 9]) none = .ok [9] := by
  exact ⟨rfl, rfl⟩

end

/-! ## Deletes -/

section

/-- The record after an insert, the updates `us`, a delete and the updates `vs`, newest first. -/
def runDeleted (t : TableDef) (data : List UInt8) (t₀ : ℕ) (us : List (Update t)) (del : Delete t)
    (vs : List (Update t)) : Record :=
  vs.foldr (fun u r => updateRecord t r u) (deleteRecord (runHistory t data t₀ us) del)

/-- A reader older than the delete gets the state at its start time, any other an error. -/
def DeletedReads (t : TableDef) (data : List UInt8) (t₀ : ℕ) (us : List (Update t)) (del : Delete t)
    (vs : List (Update t)) (txnTs : TxnTs) : Prop :=
  ∀ req, Requestable t req →
    if txnTs.txn_start_time < del.txn_start_time then
      Delivers req (requested (stateAt t data t₀ us txnTs.txn_start_time) req)
        (getIndexedRecord t txnTs (runDeleted t data t₀ us del vs) req)
    else getIndexedRecord t txnTs (runDeleted t data t₀ us del vs) req = .error .recordDoesNotExist

variable {r : Record} {s t₀ : ℕ} {txnTs : TxnTs} {us vs : List (Update t)} {del : Delete t}

/-- A record or one of its versions is from `s` or earlier. -/
def Since (s : ℕ) (r : Record) : Prop := r.t_min ≤ s ∨ ∃ v ∈ r.delta_list, v.t_min ≤ s

theorem Since.create_versions (h : Since s r) (area : List UInt8) :
    ∃ v ∈ (create_versions r area).delta_list, v.t_min ≤ s := by
  obtain h | ⟨v, hv, hle⟩ := h
  · exact ⟨⟨r.t_min, area⟩, mem_cons_self, h⟩
  · exact ⟨v, mem_cons_of_mem _ hv, hle⟩

theorem since_runHistory (hs : t₀ ≤ s) (us : List (Update t)) : Since s (runHistory t data t₀ us) := by
  induction us with
  | nil => exact .inl ((mod_le _ _).trans hs)
  | cons u us ih => exact .inr (ih.create_versions _)

/-- After a delete the flag is set, and there is a version from `s` or earlier. -/
theorem runDeleted_spec (data : List UInt8) (us : List (Update t)) (del : Delete t)
    (vs : List (Update t)) (hs : t₀ ≤ s) : (runDeleted t data t₀ us del vs).deleted = true ∧
      ∃ v ∈ (runDeleted t data t₀ us del vs).delta_list, v.t_min ≤ s := by
  induction vs with
  | nil => exact ⟨rfl, (since_runHistory hs us).create_versions _⟩
  | cons u vs ih => exact ⟨ih.1, Since.create_versions (.inr ih.2) _⟩

/-- No read of a deleted record succeeds. -/
theorem getIndexedRecord_of_deleted (hdel : r.deleted = true)
    (hver : ∃ v ∈ r.delta_list, v.t_min ≤ txnTs.txn_start_time) (req : Option (List ℕ)) :
    getIndexedRecord t txnTs r req = .error .recordDoesNotExist := by
  obtain ⟨v, hv, hle⟩ := hver
  have hempty : r.delta_list.isEmpty = false := by
    cases h : r.delta_list with
    | nil => rw [h] at hv; cases hv
    | cons => rfl
  have hfind : (r.delta_list.find? fun v => is_readable v.t_min txnTs).isSome := by
    rw [find?_isSome]
    exact ⟨v, hv, by simp [is_readable, hle]⟩
  obtain ⟨w, hw⟩ := isSome_iff_exists.1 hfind
  rw [getIndexedRecord, get_readable_version, get_readable_ver_eq_find?, hw]
  simp [hdel, hempty]

/-- Whoever reads a record after it was deleted is told that it does not exist. -/
theorem getIndexedRecord_runDeleted (hs : t₀ ≤ txnTs.txn_start_time) (req : Option (List ℕ)) :
    getIndexedRecord t txnTs (runDeleted t data t₀ us del vs) req = .error .recordDoesNotExist := by
  obtain ⟨hdel, hver⟩ := runDeleted_spec data us del vs hs
  exact getIndexedRecord_of_deleted hdel hver req

end

/-- A delete is seen by exactly those it concerns if and only if it concerns the reader. -/
theorem getIndexedRecord_deleted_iff (t : TableDef) (data : List UInt8) {t₀ : ℕ} {txnTs : TxnTs}
    (us : List (Update t)) (del : Delete t) (vs : List (Update t)) (hs : t₀ ≤ txnTs.txn_start_time) :
    DeletedReads t data t₀ us del vs txnTs ↔ del.txn_start_time ≤ txnTs.txn_start_time := by
  constructor
  · intro h
    by_contra hlt
    have hread := h none (by intro cols hc; cases hc)
    rw [if_pos (not_le.1 hlt), getIndexedRecord_runDeleted hs] at hread
    obtain ⟨bytes, hbytes, -⟩ := hread
    cases hbytes
  · intro hle req _
    rw [if_neg (not_lt.2 hle)]
    exact getIndexedRecord_runDeleted hs req

/-- A delete of a record of `byteTable`. -/
def byteDelete (start : ℕ) : Delete byteTable := ⟨start, [0], rfl⟩

/-- A reader that starts after the delete. -/
theorem getIndexedRecord_deleted_later_reader :
    DeletedReads byteTable [7] 1 [byteUpdate 2 9] (byteDelete 3) [] (get_txnID_startTime_Pair 4) :=
  (getIndexedRecord_deleted_iff byteTable [7] _ _ _ (by decide)).2 (by decide)

/-- The delete at time 3 takes the record from the reader that started at time 2. -/
theorem getIndexedRecord_deleted_earlier_reader : stateAt byteTable [7] 1 [] 2 = [[7]] ∧
      getIndexedRecord byteTable (get_txnID_startTime_Pair 2)
        (runDeleted byteTable [7] 1 [] (byteDelete 3) []) none = .error .recordDoesNotExist := by
  exact ⟨rfl, rfl⟩

end Proteus.Oltp
