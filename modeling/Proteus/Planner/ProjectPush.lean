import Mathlib.Data.Finset.Sort
import Proteus.Planner.Rex

/-!
# Projections over an unpacked scan

`PelagoProjectPushBelowUnpack.onMatch` scans only the columns a projection refers to and
re-indexes the projection, or drops it when it has become the identity. `onMatch_rows` says that
the new plan computes the rows of the old one.
-/

namespace Proteus.Planner

open Rex List

variable {D : Type*}

/-- An unpacked scan of columns of a table, with or without a projection over it. -/
structure ScanPlan (D : Type*) where
  fields : List ℕ
  projects : Option (List (Rex D))

/-- The row a scan of `fields` makes of a row of the table. -/
def scanRow (fields : List ℕ) (row : ℕ → Value D) (i : ℕ) : Value D := fields[i]?.elim .null row

def ScanPlan.rows [LinearOrder D] (other : ℕ → List (Value D) → Value D) (p : ScanPlan D)
    (table : List (ℕ → Value D)) : List (List (Value D)) :=
  table.map fun row => match p.projects with
    | none => p.fields.map row
    | some projects => projects.map (eval other (scanRow p.fields row))

/-- What the rule matches: a projection over the columns of an unpacked scan. -/
structure ProjectUnpack (V : Visitors D) where
  projects : List (Rex D)
  scanfields : List ℕ
  bits_lt : ∀ i ∈ projects.flatMap V.bits, i < scanfields.length

namespace ProjectUnpack

/-- The loop that fills `revfields`, from the counter `i` on. -/
def revfieldsFrom (i : ℕ) (revfields : ℕ → ℤ) : List ℕ → ℕ → ℤ
  | [] => revfields
  | j :: js => revfieldsFrom (i + 1) (Function.update revfields j (i - j)) js

/-- The loop of `isId`, from project `j` on. -/
def isIdFrom (j : ℕ) : List (Rex D) → Bool
  | [] => true
  | .inputRef i :: ps => i = j && isIdFrom (j + 1) ps
  | _ => false

variable {V : Visitors D} (m : ProjectUnpack V) {j : ℕ}

/-- The `TreeSet` of the referenced columns. -/
def projects2 : List ℕ := (m.projects.flatMap V.bits).toFinset.sort

def revfields : ℕ → ℤ := revfieldsFrom 0 (fun _ => 0) m.projects2

def projs : List (Rex D) := m.projects.map (V.convert m.revfields)

/-- Every referenced column is in range of `scanfields`. -/
def fields : List ℕ := m.projects2.map (m.scanfields.getD · 0)

def onMatch : ScanPlan D := ⟨m.fields, if isIdFrom 0 m.projs then none else some m.projs⟩

theorem mem_projects2 : j ∈ m.projects2 ↔ j ∈ m.projects.flatMap V.bits := by simp [projects2]

theorem revfieldsFrom_eq (i : ℕ) (rev : ℕ → ℤ) {js : List ℕ} (hn : js.Nodup) (j : ℕ) :
    revfieldsFrom i rev js j = if j ∈ js then (i + js.idxOf j : ℤ) - j else rev j := by
  induction js generalizing i rev with
  | nil => rfl
  | cons j' js ih =>
    rw [nodup_cons] at hn
    rw [revfieldsFrom, ih _ _ hn.2]
    by_cases hj : j = j'
    · subst hj
      simp [hn.1]
    · rw [idxOf_cons_ne _ (Ne.symm hj), Function.update_of_ne hj]
      simp [hj, Int.add_assoc, Int.add_comm 1]

/-- A reference becomes the place of its column in the new scan. -/
theorem convert_eq_idxOf (h : j ∈ m.projects2) :
    (j + m.revfields j).toNat = m.projects2.idxOf j := by
  have hn : m.projects2.Nodup := Finset.sort_nodup _ _
  rw [revfields, revfieldsFrom_eq _ _ hn, if_pos h]
  omega

theorem scanRow_idxOf (row : ℕ → Value D) (h : j ∈ m.projects2) :
    scanRow m.fields row (m.projects2.idxOf j) = scanRow m.scanfields row j := by
  rw [scanRow, scanRow, fields, getElem?_map, getElem?_idxOf h]
  simp [getElem?_eq_getElem (m.bits_lt j (m.mem_projects2.1 h))]

/-- The new scan has the columns in the order an identity refers to them. -/
theorem projects2_eq {js : List ℕ} (hjs : m.projects.flatMap V.bits = js)
    (h : js.map (fun i => (i + m.revfields i).toNat) = range' 0 js.length) : m.projects2 = js := by
  have hnodup : js.Nodup := Nodup.of_map _ (h ▸ nodup_range')
  refine ext_getElem ?_ fun k _ hk => ?_
  · rw [projects2, hjs, Finset.length_sort, toFinset_card_of_nodup hnodup]
  · have hmem := m.mem_projects2.2 (by rw [hjs]; exact getElem_mem hk)
    have hidx : m.projects2.idxOf js[k] = k := by
      rw [← m.convert_eq_idxOf hmem]
      have := congrArg (·[k]?) h
      simpa [hk] using this
    have hget := getElem?_idxOf hmem
    rw [hidx, List.getElem?_eq_some_iff] at hget
    exact hget.2

variable [LinearOrder D] {other : ℕ → List (Value D) → Value D} (hV : V.Sound other)
include hV

/-- Converted expressions have their values on a row that holds the columns where they moved. -/
theorem map_eval_convert {adj : ℕ → ℤ} {row row' : ℕ → Value D} {ps : List (Rex D)}
    (h : ∀ i ∈ ps.flatMap V.bits, row' (i + adj i).toNat = row i) :
    (ps.map (V.convert adj)).map (eval other row') = ps.map (eval other row) := by
  rw [map_map]
  refine map_congr_left fun p hp => ?_
  have hp := hV.eval_congr p _ row fun i hi => h i (mem_flatMap.2 ⟨p, hp, hi⟩)
  exact (hV.eval_convert adj p row').trans hp

/-- Expressions that convert to the identity are references. -/
theorem refs_of_isIdFrom {adj : ℕ → ℤ} {ps : List (Rex D)} (h : isIdFrom j (ps.map (V.convert adj))) :
    ∃ js : List ℕ, ps = js.map .inputRef ∧
      js.map (fun i => (i + adj i).toNat) = range' j js.length := by
  induction ps generalizing j with
  | nil => exact ⟨[], rfl, rfl⟩
  | cons p ps ih =>
    cases hp : V.convert adj p with
    | inputRef k =>
      rw [map_cons, hp, isIdFrom, Bool.and_eq_true, decide_eq_true_iff] at h
      obtain ⟨i, rfl, hi⟩ := hV.convert_eq_inputRef adj p k hp
      obtain ⟨js, rfl, hjs⟩ := ih h.2
      exact ⟨i :: js, rfl, by rw [map_cons, hi, h.1, hjs, length_cons, range'_succ]⟩
    | _ =>
      rw [map_cons, hp] at h
      cases h

/-- **The rewritten plan.** It computes the rows of the projection over the full scan. -/
theorem onMatch_rows (table : List (ℕ → Value D)) :
    m.onMatch.rows other table = ScanPlan.rows other ⟨m.scanfields, some m.projects⟩ table := by
  refine map_congr_left fun row _ => ?_
  cases h : isIdFrom 0 m.projs with
  | false =>
    simp only [onMatch, h]
    refine map_eval_convert hV fun j hj => ?_
    have hmem := m.mem_projects2.2 hj
    rw [m.convert_eq_idxOf hmem, m.scanRow_idxOf row hmem]
  | true =>
    obtain ⟨js, hjs, hmap⟩ := refs_of_isIdFrom hV h
    have hbits : m.projects.flatMap V.bits = js := by
      rw [hjs, flatMap_map]
      simp [hV.bits_inputRef]
    simp only [onMatch, h, if_true]
    rw [hjs, map_map, fields, m.projects2_eq hbits hmap, map_map]
    refine map_congr_left fun j hj => ?_
    simp [scanRow, eval, getElem?_eq_getElem (m.bits_lt j (hbits ▸ hj))]

omit hV

/-- `$2, $0, $2 + $0` over the columns 4, 5 and 6. -/
def swappedSum : ProjectUnpack (D := ℕ) .standard where
  projects := [.inputRef 2, .inputRef 0, .call (.other 0) [.inputRef 2, .inputRef 0]]
  scanfields := [4, 5, 6]
  bits_lt := by decide

def plus (_ : ℕ) : List (Value ℕ) → Value ℕ
  | [.datum a, .datum b] => .datum (a + b)
  | _ => .null

theorem onMatch_rows_swappedSum : swappedSum.onMatch.rows plus [fun i => .datum (10 * i)] =
    [[.datum 60, .datum 40, .datum 100]] :=
  swappedSum.onMatch_rows (Visitors.standard_sound plus) _

end ProjectUnpack

end Proteus.Planner
