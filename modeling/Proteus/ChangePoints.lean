import Mathlib.Data.List.TakeWhile
import Proteus.OrdMap

/-!
# Functions stored by their change points

An ordered map stores a function by the points where it changes: `valueAt x` is the value of the
entry with the largest key that is at most `x`. `lowerBound?` is the entry at the first key that is
not below a key, `before?` the entry in front of it and `last?` the last entry, as iterators see them.

Three updates are related to the function they store: a new value at one point
(`valueAt_insert_point`, `valueAt_modify_point`), a change of all values (`valueAt_mapValues`), and
the removal of points where the function does not change (`valueAt_merge`).
-/

namespace Proteus.OrdMap

open List

variable {κ ν : Type*} [LinearOrder κ] (m : OrdMap κ ν)

def lowerBound? (k : κ) : Option (κ × ν) :=
  m.entries.find? fun e => decide (k ≤ e.1)

/-- The entry in front of the lower bound. -/
def before? (k : κ) : Option (κ × ν) :=
  (m.entries.takeWhile fun e => decide (e.1 < k)).getLast?

def last? : Option (κ × ν) := m.entries.getLast?

def mapValues (f : ν → ν) : OrdMap κ ν :=
  ⟨m.entries.map fun e => (e.1, f e.2), by
    rw [List.pairwise_map]
    exact m.sorted⟩

/-- The value of the stored function. -/
def valueAt (x : κ) : Option ν := (m.floor? x).map Prod.snd

/-! ## Iterators -/

section

variable {m : OrdMap κ ν} {k x : κ} {v : ν} {e : κ × ν}

theorem mem_insert : e ∈ (m.insert k v).entries ↔ e ∈ m.entries ∨ m.find? k = none ∧ e = (k, v) := by
  obtain ⟨k', w⟩ := e
  rw [mem_entries_iff, find?_insert_eq_some, mem_entries_iff, Prod.mk.injEq]

theorem mem_modify {f : ν → ν} : e ∈ (m.modify k f).entries ↔
    e ∈ m.entries ∧ e.1 ≠ k ∨ e.1 = k ∧ ∃ w, (k, w) ∈ m.entries ∧ e.2 = f w := by
  simp only [modify, mem_map]
  constructor
  · rintro ⟨a, ha, rfl⟩
    split_ifs with hk
    · exact .inr ⟨hk, a.2, hk ▸ ha, rfl⟩
    · exact .inl ⟨ha, hk⟩
  · rintro (⟨he, hk⟩ | ⟨hk, w, hw, hv⟩)
    · exact ⟨e, he, if_neg hk⟩
    · exact ⟨(k, w), hw, by rw [if_pos rfl, ← hv, ← hk]⟩

theorem lowerBound?_eq_none : m.lowerBound? k = none ↔ ∀ e ∈ m.entries, e.1 < k := by
  simp [lowerBound?]

theorem lowerBound?_mem (h : m.lowerBound? k = some e) : e ∈ m.entries ∧ k ≤ e.1 :=
  ⟨mem_of_find?_eq_some h, by simpa using find?_some h⟩

/-- The lower bound of a key of the map is its own entry. -/
theorem lowerBound?_of_mem (h : (k, v) ∈ m.entries) : m.lowerBound? k = some (k, v) := by
  obtain ⟨es, hsorted⟩ := m
  simp only [lowerBound?] at h ⊢
  induction es with
  | nil => cases h
  | cons a es ih =>
    obtain ⟨ha, hes⟩ := pairwise_cons.1 hsorted
    rcases mem_cons.1 h with rfl | h
    · simp
    · rw [find?_cons_of_neg (by simpa using ha _ h)]
      exact ih hes h

/-- In front of a key that the map does not have stands its floor. -/
theorem before?_eq_floor? (h : m.find? k = none) : m.before? k = m.floor? k := by
  have hne : ∀ e ∈ m.entries, e.1 ≠ k := fun e he hk => find?_eq_none_iff.1 h e.2 (hk ▸ he)
  rw [before?, floor?]
  congr 1
  generalize m.entries = es at hne
  induction es with
  | nil => rfl
  | cons a es ih =>
    have ha : (a.1 < k) ↔ a.1 ≤ k := lt_iff_le_and_ne.trans (and_iff_left (hne a mem_cons_self))
    rw [takeWhile_cons, takeWhile_cons, ih fun e he => hne e (mem_cons_of_mem _ he)]
    simp [ha]

theorem floor?_of_forall_le (h : ∀ e ∈ m.entries, e.1 ≤ x) : m.floor? x = m.last? := by
  rw [floor?, last?, takeWhile_eq_self_iff.2 fun e he => by simpa using h e he]

/-- The floor is an entry whose key is at most `x`, and no such key is larger. -/
theorem floor?_spec (h : m.floor? x = some e) :
    e ∈ m.entries ∧ e.1 ≤ x ∧ ∀ e' ∈ m.entries, e'.1 ≤ x → e'.1 ≤ e.1 := by
  obtain ⟨es, hsorted⟩ := m
  simp only [floor?] at h ⊢
  induction es with
  | nil => cases h
  | cons a es ih =>
    obtain ⟨ha, hes⟩ := pairwise_cons.1 hsorted
    by_cases hax : a.1 ≤ x
    · rw [takeWhile_cons_of_pos (by simpa using hax), getLast?_cons] at h
      cases htail : (es.takeWhile fun e => decide (e.1 ≤ x)).getLast? with
      | none =>
        obtain rfl : a = e := by simpa [htail] using h
        refine ⟨mem_cons_self, hax, fun e' he' hle => ?_⟩
        rcases mem_cons.1 he' with rfl | he'
        · exact le_rfl
        · -- the entries behind `a` are above `x`
          cases es with
          | nil => cases he'
          | cons b es =>
            have hb : ¬b.1 ≤ x := fun hb => by
              rw [takeWhile_cons_of_pos (by simpa using hb), getLast?_cons] at htail
              cases htail
            rcases mem_cons.1 he' with rfl | he'
            · exact absurd hle hb
            · exact absurd (((pairwise_cons.1 hes).1 e' he').le.trans hle) hb
      | some e₁ =>
        obtain rfl : e₁ = e := by simpa [htail] using h
        obtain ⟨hmem, hle, hmax⟩ := ih hes htail
        refine ⟨mem_cons_of_mem _ hmem, hle, fun e' he' hle' => ?_⟩
        rcases mem_cons.1 he' with rfl | he'
        · exact (ha _ hmem).le
        · exact hmax e' he' hle'
    · rw [takeWhile_cons_of_neg (by simpa using hax)] at h
      cases h

theorem exists_floor (h : m.valueAt x = some v) : ∃ k₀, (k₀, v) ∈ m.entries ∧ k₀ ≤ x ∧
    ∀ e ∈ m.entries, e.1 ≤ x → e.1 ≤ k₀ := by
  obtain ⟨e, he, rfl⟩ := Option.map_eq_some_iff.1 h
  obtain ⟨hmem, hle, hmax⟩ := floor?_spec he
  exact ⟨e.1, hmem, hle, hmax⟩

theorem valueAt_eq_some {k₀ : κ} (h : (k₀, v) ∈ m.entries) (hle : k₀ ≤ x)
    (hmax : ∀ e ∈ m.entries, e.1 ≤ x → e.1 ≤ k₀) : m.valueAt x = some v := by
  rw [valueAt, floor?_eq_some h hle hmax]
  rfl

theorem valueAt_of_mem (h : (x, v) ∈ m.entries) : m.valueAt x = some v :=
  valueAt_eq_some h le_rfl fun _ _ hle => hle

theorem last?_mem (h : m.last? = some e) : e ∈ m.entries ∧ ∀ e' ∈ m.entries, e'.1 ≤ e.1 := by
  have hmem : e ∈ m.entries := mem_of_getLast? h
  refine ⟨hmem, fun e' he' => le_of_not_gt fun hlt => ?_⟩
  obtain ⟨es, hes⟩ : ∃ es, m.entries = es ++ [e] := getLast?_eq_some_iff.1 h
  have hsorted := m.sorted
  rw [hes, pairwise_append] at hsorted
  rw [hes, mem_append, mem_singleton] at he'
  rcases he' with he' | rfl
  · exact lt_asymm hlt (hsorted.2.2 e' he' e (mem_singleton_self e))
  · exact lt_irrefl _ hlt

end

/-! ## Updates of the stored function -/

theorem valueAt_mapValues (f : ν → ν) (x : κ) :
    (m.mapValues f).valueAt x = (m.valueAt x).map f := by
  rw [valueAt, floor?, mapValues, takeWhile_map, getLast?_map, valueAt, floor?,
    Option.map_map, Option.map_map]
  rfl

/-- A map with a new value at `k`, and the old one kept from the next point on. -/
theorem valueAt_point {m m' : OrdMap ℕ ν} {k x : ℕ} {v w : ν} (hk : (k, v) ∈ m'.entries)
    (hnext : (k + 1, w) ∈ m'.entries) (hold : m.valueAt (k + 1) = some w)
    (hother : ∀ e : ℕ × ν, e.1 ≠ k → e.1 ≠ k + 1 → (e ∈ m'.entries ↔ e ∈ m.entries))
    (hx : m.valueAt x ≠ none) : m'.valueAt x = if x = k then some v else m.valueAt x := by
  obtain ⟨v₀, hv₀⟩ := Option.ne_none_iff_exists'.1 hx
  obtain ⟨k₀, hmem, hle, hmax⟩ := exists_floor hv₀
  -- an entry of the new map is an old one or one of the two points
  have hcases : ∀ e ∈ m'.entries, e.1 = k ∨ e.1 = k + 1 ∨ e ∈ m.entries := by
    intro e he
    by_cases h1 : e.1 = k
    · exact .inl h1
    by_cases h2 : e.1 = k + 1
    · exact .inr (.inl h2)
    · exact .inr (.inr ((hother e h1 h2).1 he))
  split_ifs with hxk
  · subst hxk
    exact valueAt_of_mem hk
  rw [hv₀]
  -- the old floor stays where the two points are not between it and `x`
  have hkept : x < k ∨ k + 1 < k₀ → m'.valueAt x = some v₀ := by
    intro hside
    refine valueAt_eq_some ((hother _ (by simp only; omega) (by simp only; omega)).2 hmem) hle
      fun e he hex => ?_
    rcases hcases e he with h1 | h1 | h1
    · omega
    · omega
    · exact hmax e h1 hex
  rcases lt_or_gt_of_ne hxk with hlt | hgt
  · exact hkept (.inl hlt)
  by_cases hk₀ : k + 1 < k₀
  · exact hkept (.inr hk₀)
  · -- the floor of `x` is also the floor of the next point
    have hw : w = v₀ := by
      have hcut : k₀ ≤ k + 1 := not_lt.1 hk₀
      have := valueAt_eq_some hmem hcut fun e he hex => hmax e he (by omega)
      rw [hold] at this
      exact Option.some.inj this
    subst hw
    refine valueAt_eq_some hnext hgt fun e he hex => ?_
    rcases hcases e he with h1 | h1 | h1
    · omega
    · omega
    · have := hmax e h1 hex
      omega

section

variable {m : OrdMap ℕ ν} {k : ℕ} {v w : ν}

/-- Where the point behind `k` gets the value at `k` unless it has one of its own, it has its old
value. -/
theorem exists_next (h : m.valueAt k = some w) :
    ∃ w', (k + 1, w') ∈ (m.insert (k + 1) w).entries ∧ m.valueAt (k + 1) = some w' := by
  cases hk : m.find? (k + 1) with
  | none =>
    refine ⟨w, mem_insert.2 (.inr ⟨hk, rfl⟩), ?_⟩
    obtain ⟨k₀, hmem, hle, hmax⟩ := exists_floor h
    refine valueAt_eq_some hmem (by omega) fun e he hex => hmax e he ?_
    have hne : e.1 ≠ k + 1 := fun heq => find?_eq_none_iff.1 hk e.2 (heq ▸ he)
    omega
  | some w' =>
    have hmem := mem_entries_iff.2 hk
    exact ⟨w', mem_insert.2 (.inl hmem), valueAt_of_mem hmem⟩

theorem valueAt_insert_point (h : m.valueAt k = some w) (hk : m.find? k = none) (v : ν) {x : ℕ}
    (hx : m.valueAt x ≠ none) : ((m.insert (k + 1) w).insert k v).valueAt x =
      if x = k then some v else m.valueAt x := by
  obtain ⟨w', hnext, hold⟩ := exists_next h
  have hfree : (m.insert (k + 1) w).find? k = none := by
    refine find?_eq_none_iff.2 fun v' hmem => ?_
    rcases mem_insert.1 hmem with hmem | ⟨-, heq⟩
    · exact find?_eq_none_iff.1 hk v' hmem
    · exact absurd (congrArg Prod.fst heq) (by simp)
  refine valueAt_point (mem_insert.2 (.inr ⟨hfree, rfl⟩)) (mem_insert.2 (.inl hnext)) hold
    (fun e h1 h2 => ?_) hx
  have hne1 : e ≠ (k, v) := fun heq => h1 (congrArg Prod.fst heq)
  have hne2 : e ≠ (k + 1, w) := fun heq => h2 (congrArg Prod.fst heq)
  simp [mem_insert, hne1, hne2]

theorem valueAt_modify_point (h : (k, w) ∈ m.entries) (v : ν) {x : ℕ} (hx : m.valueAt x ≠ none) :
    ((m.insert (k + 1) w).modify k fun _ => v).valueAt x =
      if x = k then some v else m.valueAt x := by
  obtain ⟨w', hnext, hold⟩ := exists_next (valueAt_of_mem h)
  refine valueAt_point (mem_modify.2 (.inr ⟨rfl, w, mem_insert.2 (.inl h), rfl⟩))
    (mem_modify.2 (.inl ⟨hnext, by simp⟩)) hold (fun e h1 h2 => ?_) hx
  have hne : e ≠ (k + 1, w) := fun heq => h2 (congrArg Prod.fst heq)
  simp [mem_modify, mem_insert, h1, hne]

end

section

variable [DecidableEq ν]

/-- Remove the entries that have the value of the entry in front of them. -/
def mergeFrom (a : κ × ν) : List (κ × ν) → List (κ × ν)
  | [] => [a]
  | b :: es => if a.2 = b.2 then mergeFrom a es else a :: mergeFrom b es

def mergeList : List (κ × ν) → List (κ × ν)
  | [] => []
  | a :: es => mergeFrom a es

omit [LinearOrder κ] in
theorem mergeFrom_sublist (a : κ × ν) (es : List (κ × ν)) : (mergeFrom a es).Sublist (a :: es) := by
  induction es generalizing a with
  | nil => exact List.Sublist.refl _
  | cons b es ih =>
    rw [mergeFrom]
    split_ifs
    · exact (ih a).trans ((sublist_cons_self b es).cons_cons a)
    · exact (ih b).cons_cons a

omit [LinearOrder κ] in
theorem mergeList_sublist (es : List (κ × ν)) : (mergeList es).Sublist es := by
  cases es with
  | nil => exact List.Sublist.refl _
  | cons a es => exact mergeFrom_sublist a es

def merge (m : OrdMap κ ν) : OrdMap κ ν :=
  ⟨mergeList m.entries, m.sorted.sublist (mergeList_sublist m.entries)⟩

theorem mergeFrom_floor (x : κ) {a : κ × ν} {es : List (κ × ν)}
    (h : (a :: es).Pairwise fun a b => a.1 < b.1) :
    ((mergeFrom a es).takeWhile fun e => decide (e.1 ≤ x)).getLast?.map Prod.snd =
      ((a :: es).takeWhile fun e => decide (e.1 ≤ x)).getLast?.map Prod.snd := by
  induction es generalizing a with
  | nil => rfl
  | cons b es ih =>
    obtain ⟨ha, hes⟩ := pairwise_cons.1 h
    rw [mergeFrom]
    split_ifs with hab
    · rw [ih (h.sublist ((sublist_cons_self b es).cons_cons a))]
      by_cases hax : a.1 ≤ x
      · rw [takeWhile_cons_of_pos (by simpa using hax), takeWhile_cons_of_pos (by simpa using hax)]
        by_cases hbx : b.1 ≤ x
        · rw [takeWhile_cons_of_pos (by simpa using hbx), getLast?_cons, getLast?_cons,
            getLast?_cons]
          cases (es.takeWhile fun e => decide (e.1 ≤ x)).getLast? <;> simp [hab]
        · have hstop : es.takeWhile (fun e => decide (e.1 ≤ x)) = [] := by
            cases es with
            | nil => rfl
            | cons c es =>
              refine takeWhile_cons_of_neg ?_
              have hbc := (pairwise_cons.1 hes).1 c mem_cons_self
              simpa using (not_le.1 hbx).trans hbc
          rw [takeWhile_cons_of_neg (by simpa using hbx), hstop]
      · rw [takeWhile_cons_of_neg (by simpa using hax), takeWhile_cons_of_neg (by simpa using hax)]
    · by_cases hax : a.1 ≤ x
      · have := ih hes
        rw [takeWhile_cons_of_pos (by simpa using hax),
          takeWhile_cons_of_pos (by simpa using hax), getLast?_cons, getLast?_cons]
        cases h1 : ((mergeFrom b es).takeWhile fun e => decide (e.1 ≤ x)).getLast? <;>
          cases h2 : ((b :: es).takeWhile fun e => decide (e.1 ≤ x)).getLast? <;>
          simp_all
      · rw [takeWhile_cons_of_neg (by simpa using hax), takeWhile_cons_of_neg (by simpa using hax)]

theorem valueAt_merge (x : κ) : m.merge.valueAt x = m.valueAt x := by
  obtain ⟨es, hsorted⟩ := m
  cases es with
  | nil => rfl
  | cons a es => exact mergeFrom_floor x hsorted

end

end Proteus.OrdMap
