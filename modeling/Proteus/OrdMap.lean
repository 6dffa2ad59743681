import Mathlib.Data.List.Pairwise
import Mathlib.Order.Lattice

/-!
# Ordered maps

A finite map as the list of its entries in strictly increasing order of the keys, with the order as
a field. Facts about a map are stated through its entries (`mem_entries_iff`) or its lookup, and
`floor?` is the entry an iterator stands at one step before `upper_bound`.
-/

namespace Proteus

open List

/-- A finite map with its entries in the order of their keys. -/
structure OrdMap (κ ν : Type*) [LinearOrder κ] where
  entries : List (κ × ν)
  sorted : entries.Pairwise fun a b => a.1 < b.1

namespace OrdMap

open scoped List

variable {κ ν : Type*} [LinearOrder κ]

def empty : OrdMap κ ν := ⟨[], List.Pairwise.nil⟩

variable (m : OrdMap κ ν)

def find? (k : κ) : Option ν :=
  (m.entries.find? fun e => decide (e.1 = k)).map Prod.snd

/-- Put an entry in its place; an entry with its key stays as it is. -/
def insertEntry (k : κ) (v : ν) : List (κ × ν) → List (κ × ν)
  | [] => [(k, v)]
  | e :: es => if k < e.1 then (k, v) :: e :: es
    else if k = e.1 then e :: es else e :: insertEntry k v es

/-- The entry with the largest key that is at most `k`. -/
def floor? (k : κ) : Option (κ × ν) :=
  (m.entries.takeWhile fun e => decide (e.1 ≤ k)).getLast?

variable {k : κ} {v : ν} {es : List (κ × ν)}

theorem mem_insertEntry {e : κ × ν} (h : e ∈ insertEntry k v es) : e = (k, v) ∨ e ∈ es := by
  induction es with
  | nil => simpa [insertEntry] using h
  | cons a es ih =>
    rw [insertEntry] at h
    split_ifs at h
    · simpa using h
    · exact .inr h
    · rcases mem_cons.1 h with rfl | h
      · simp
      · exact (ih h).imp_right (mem_cons_of_mem a)

theorem sorted_insertEntry (k : κ) (v : ν) (h : es.Pairwise fun a b => a.1 < b.1) :
    (insertEntry k v es).Pairwise fun a b => a.1 < b.1 := by
  induction es with
  | nil => exact pairwise_singleton _ _
  | cons a es ih =>
    obtain ⟨ha, hes⟩ := pairwise_cons.1 h
    rw [insertEntry]
    split_ifs with hlt heq
    · refine pairwise_cons.2 ⟨fun b hb => ?_, h⟩
      rcases mem_cons.1 hb with rfl | hb
      · exact hlt
      · exact hlt.trans (ha b hb)
    · exact h
    · refine pairwise_cons.2 ⟨fun b hb => ?_, ih hes⟩
      rcases mem_insertEntry hb with rfl | hb
      · exact lt_of_le_of_ne (not_lt.1 hlt) (Ne.symm heq)
      · exact ha b hb

/-- `std::map::emplace`. -/
def insert (k : κ) (v : ν) : OrdMap κ ν :=
  ⟨insertEntry k v m.entries, sorted_insertEntry k v m.sorted⟩

def erase (k : κ) : OrdMap κ ν :=
  ⟨m.entries.filter fun e => decide (e.1 ≠ k), m.sorted.filter _⟩

/-- Change the value stored under a key. -/
def modify (k : κ) (f : ν → ν) : OrdMap κ ν :=
  ⟨m.entries.map fun e => if e.1 = k then (e.1, f e.2) else e, by
    rw [List.pairwise_map]
    refine m.sorted.imp fun {a b} hab => ?_
    split_ifs <;> exact hab⟩

/-! ## Lookup -/

@[simp] theorem find?_empty (k : κ) : (empty : OrdMap κ ν).find? k = none := rfl

variable {m : OrdMap κ ν} {w : ν}

theorem eq_of_mem (hv : (k, v) ∈ m.entries) (hw : (k, w) ∈ m.entries) : v = w := by
  by_contra hne
  have hdistinct : (k, v) ≠ (k, w) := fun h => hne (congrArg Prod.snd h)
  have hlt : m.entries.Pairwise fun a b => a.1 ≠ b.1 := m.sorted.imp ne_of_lt
  have : Std.Symm fun a b : κ × ν => a.1 ≠ b.1 := ⟨fun _ _ h => Ne.symm h⟩
  exact hlt.forall hv hw hdistinct rfl

theorem mem_entries_iff : (k, v) ∈ m.entries ↔ m.find? k = some v := by
  refine ⟨fun h => ?_, fun h => ?_⟩
  · cases hf : m.entries.find? fun e => decide (e.1 = k) with
    | none =>
      have := find?_eq_none.1 hf (k, v) h
      simp at this
    | some e =>
      have hk : e.1 = k := by simpa using find?_some hf
      have he : (k, e.2) ∈ m.entries := hk ▸ mem_of_find?_eq_some hf
      rw [find?, hf, Option.map_some, eq_of_mem he h]
  · obtain ⟨e, he, rfl⟩ := Option.map_eq_some_iff.1 h
    have hk : e.1 = k := by simpa using find?_some he
    exact hk ▸ mem_of_find?_eq_some he

theorem find?_eq_none_iff : m.find? k = none ↔ ∀ v, (k, v) ∉ m.entries := by
  simp only [mem_entries_iff]
  cases m.find? k <;> simp

theorem entries_eq_nil_iff : m.entries = [] ↔ ∀ k, m.find? k = none := by
  rw [eq_nil_iff_forall_not_mem]
  simp only [find?_eq_none_iff, Prod.forall]

/-! ## Updates -/

theorem insertEntry_perm (h : ∀ e ∈ es, e.1 ≠ k) : insertEntry k v es ~ (k, v) :: es := by
  induction es with
  | nil => exact List.Perm.refl _
  | cons a es ih =>
    rw [insertEntry, if_neg (Ne.symm (h a (by simp)))]
    split_ifs
    · exact List.Perm.refl _
    · exact ((ih fun e he => h e (by simp [he])).cons a).trans (List.Perm.swap _ _ _)

theorem entries_insert_perm (h : m.find? k = none) (v : ν) :
    (m.insert k v).entries ~ (k, v) :: m.entries := by
  apply insertEntry_perm
  intro e he hk
  exact find?_eq_none_iff.1 h e.2 (hk ▸ he)

theorem find?_insert (h : m.find? k = none) (v : ν) (k' : κ) :
    (m.insert k v).find? k' = if k' = k then some v else m.find? k' := by
  apply Option.ext
  intro w
  rw [← mem_entries_iff, (entries_insert_perm h v).mem_iff, mem_cons, Prod.mk.injEq]
  split_ifs with hk
  · subst hk
    simp [find?_eq_none_iff.1 h, eq_comm]
  · simp [hk, mem_entries_iff]

theorem insertEntry_of_mem (v : ν) (hes : es.Pairwise fun a b => a.1 < b.1)
    (h : (k, w) ∈ es) : insertEntry k v es = es := by
  induction es with
  | nil => cases h
  | cons a es ih =>
    obtain ⟨ha, hes⟩ := pairwise_cons.1 hes
    rw [insertEntry]
    rcases mem_cons.1 h with rfl | h
    · rw [if_neg (lt_irrefl _), if_pos rfl]
    · have hlt : a.1 < k := ha _ h
      rw [if_neg (not_lt.2 hlt.le), if_neg hlt.ne', ih hes h]

theorem find?_insert_of_some (h : m.find? k = some w) (v : ν) (k' : κ) :
    (m.insert k v).find? k' = m.find? k' := by
  have hsame : (m.insert k v).entries = m.entries := insertEntry_of_mem v m.sorted (mem_entries_iff.2 h)
  rw [find?, hsame, find?]

variable {k' : κ}

/-- `insert` takes no entry away, and the only one that can be new is its own. -/
theorem find?_insert_eq_some :
    (m.insert k v).find? k' = some w ↔ m.find? k' = some w ∨ m.find? k = none ∧ k' = k ∧ w = v := by
  cases h : m.find? k with
  | none =>
    rw [find?_insert h]
    split_ifs with hk
    · subst hk
      simp [h, eq_comm]
    · simp [hk]
  | some u =>
    rw [find?_insert_of_some h]
    simp

theorem exists_find?_insert (v : ν) :
    (∃ w, (m.insert k v).find? k' = some w) ↔ (∃ w, m.find? k' = some w) ∨ k' = k := by
  simp only [find?_insert_eq_some]
  constructor
  · rintro ⟨w, hw | ⟨-, rfl, -⟩⟩
    · exact .inl ⟨w, hw⟩
    · exact .inr rfl
  · rintro (⟨w, hw⟩ | rfl)
    · exact ⟨w, .inl hw⟩
    · cases hold : m.find? k' with
      | none => exact ⟨v, .inr ⟨rfl, rfl, rfl⟩⟩
      | some w => exact ⟨w, .inl rfl⟩

theorem find?_erase (m : OrdMap κ ν) (k k' : κ) :
    (m.erase k).find? k' = if k' = k then none else m.find? k' := by
  apply Option.ext
  intro w
  rw [← mem_entries_iff, erase, mem_filter, mem_entries_iff]
  split_ifs with hk <;> simp [hk]

theorem find?_erase_eq_some : (m.erase k).find? k' = some w ↔ k' ≠ k ∧ m.find? k' = some w := by
  rw [find?_erase]
  split_ifs with hk <;> simp [hk]

theorem entries_perm_erase (h : m.find? k = some v) : m.entries ~ (k, v) :: (m.erase k).entries := by
  have hnodup : m.entries.Nodup := m.sorted.imp fun hab heq => absurd (heq ▸ hab) (lt_irrefl _)
  have hmem := mem_entries_iff.2 h
  have hrest : (m.erase k).entries.Nodup := hnodup.filter _
  have hout : (k, v) ∉ (m.erase k).entries := by simp [erase]
  apply (perm_ext_iff_of_nodup hnodup (nodup_cons.2 ⟨hout, hrest⟩)).2
  intro e
  simp only [erase, mem_cons, mem_filter, decide_eq_true_eq]
  by_cases hk : e.1 = k
  · refine ⟨fun he => .inl ?_, fun he => ?_⟩
    · exact Prod.ext hk (eq_of_mem (hk ▸ he : (k, e.2) ∈ m.entries) hmem)
    · rcases he with rfl | he
      · exact hmem
      · exact he.1
  · refine ⟨fun he => .inr ⟨he, hk⟩, fun he => ?_⟩
    rcases he with rfl | he
    · exact absurd rfl hk
    · exact he.1

theorem find?_modify (m : OrdMap κ ν) (k : κ) (f : ν → ν) (k' : κ) :
    (m.modify k f).find? k' = if k' = k then (m.find? k').map f else m.find? k' := by
  rw [find?, modify, find?_map, find?]
  have hpred : ((fun e : κ × ν => decide (e.1 = k')) ∘
      fun e => if e.1 = k then (e.1, f e.2) else e) = fun e => decide (e.1 = k') := by
    funext e
    simp only [Function.comp]
    split_ifs <;> rfl
  rw [hpred]
  cases hf : m.entries.find? fun e => decide (e.1 = k') with
  | none => simp
  | some e =>
    have hk : e.1 = k' := by simpa using find?_some hf
    subst hk
    simp only [Option.map_some]
    split_ifs <;> rfl

/-! ## The entry before an upper bound -/

/-- The floor of `k` is an entry, if its key is at most `k` and no key lies in between. -/
theorem floor?_eq_some {k₀ : κ} (h : (k₀, v) ∈ m.entries)
    (hle : k₀ ≤ k) (hmax : ∀ e ∈ m.entries, e.1 ≤ k → e.1 ≤ k₀) : m.floor? k = some (k₀, v) := by
  obtain ⟨es, hsorted⟩ := m
  simp only [floor?] at h hmax ⊢
  induction es with
  | nil => cases h
  | cons a es ih =>
    obtain ⟨ha, hes⟩ := pairwise_cons.1 hsorted
    rcases mem_cons.1 h with rfl | h
    · -- Everything behind the entry is above `k`.
      have hstop : es.takeWhile (fun e => decide (e.1 ≤ k)) = [] := by
        cases es with
        | nil => rfl
        | cons b es =>
          apply takeWhile_cons_of_neg
          intro hb
          exact absurd (hmax b (by simp) (of_decide_eq_true hb)) (not_le.2 (ha b (by simp)))
      rw [takeWhile_cons_of_pos (by simpa using hle), hstop]
      rfl
    · have hlt := ha _ h
      have htail := ih hes h fun e he => hmax e (by simp [he])
      rw [takeWhile_cons_of_pos (by simpa using (le_of_lt hlt).trans hle), getLast?_cons, htail]
      rfl

end OrdMap

end Proteus
