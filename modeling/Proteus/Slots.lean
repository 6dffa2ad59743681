import Mathlib.Logic.Equiv.Fin.Basic

/-!
# Sorted slots

An array of `N` slots of which the first `used` hold a key and a value, in increasing order of the
keys. A value is put in its place by shifting the larger keys one slot to the right. What such an
array means is the partial map of its used slots (`Holds`); `insert` updates that map at one key
(`insert_spec`), and both ways of looking a key up, through every slot or only through the used
ones, return its value.
-/

namespace Proteus

/-- `N` slots with a key and perhaps a value each. -/
structure Slots (N : ℕ) (κ α : Type*) where
  used : ℕ
  keys : Fin N → κ
  vals : Fin N → Option α

open Fin

namespace Slots

variable {N : ℕ} {κ α : Type*} [LinearOrder κ]

/-- The used slots are sorted and filled, and the others empty. What key an empty slot has is left
open. -/
structure Ok (s : Slots N κ α) : Prop where
  used_le : s.used ≤ N
  sorted : ∀ i j : Fin N, i < j → j.1 < s.used → s.keys i < s.keys j
  filled : ∀ i : Fin N, i.1 < s.used → (s.vals i).isSome
  unused : ∀ i : Fin N, s.used ≤ i.1 → s.vals i = none

variable (s : Slots N κ α) (k : κ)

/-- A used slot holds this key with this value. -/
def Holds (a : α) : Prop :=
  ∃ i : Fin N, i.1 < s.used ∧ s.keys i = k ∧ s.vals i = some a

/-- The entries from `p` on, up to the one at `n`, move one slot to the right. -/
def shiftIn {β : Type*} (f : Fin N → β) (p : Fin N) (n : ℕ) (b : β) (i : Fin N) : β :=
  if i < p ∨ n < i.1 then f i else if i = p then b else f ⟨i.1 - 1, by omega⟩

/-- One more slot is used: the key and its value are shifted in at `p`. -/
def shift (p : Fin N) (k : κ) (a : α) : Slots N κ α :=
  ⟨s.used + 1, shiftIn s.keys p s.used k, shiftIn s.vals p s.used (some a)⟩

/-- The first slot that is unused or whose key is not below `k`. -/
def position : Option (Fin N) :=
  Fin.find? fun i => !decide (i.1 < s.used ∧ s.keys i < k)

/-- Put a value at its key: a slot with this key gets the new value, another key is shifted in. The
result is undefined where no slot is left. -/
def insert (a : α) : Option (Slots N κ α) :=
  match s.position k with
  | none => none
  | some p =>
    if s.keys p = k ∧ (s.vals p).isSome then
      some { s with vals := Function.update s.vals p (some a) }
    else if s.used < N then
      some (s.shift p k a)
    else none

/-- The value in the first slot with this key. -/
def lookupAll : Option α :=
  (Fin.find? fun i => decide (s.keys i = k)).bind s.vals

/-- The value in the first used slot with this key. -/
def lookupUsed : Option α :=
  (Fin.find? fun i => decide (s.keys i = k ∧ i.1 < s.used)).bind s.vals

variable {s : Slots N κ α} {k : κ} {a : α}

theorem Ok.used_of_val (h : s.Ok) {i : Fin N} (hi : s.vals i = some a) : i.1 < s.used := by
  by_contra hc
  rw [h.unused i (not_lt.1 hc)] at hi
  cases hi

theorem Ok.keys_inj (h : s.Ok) {i j : Fin N} (hi : i.1 < s.used) (hj : j.1 < s.used)
    (he : s.keys i = s.keys j) : i = j := by
  rcases lt_trichotomy i j with hlt | heq | hgt
  · exact absurd he (h.sorted i j hlt hj).ne
  · exact heq
  · exact absurd he.symm (h.sorted j i hgt hi).ne

theorem lookupUsed_eq_some (h : s.Ok) : s.lookupUsed k = some a ↔ s.Holds k a := by
  simp only [lookupUsed, Option.bind_eq_some_iff, find?_eq_some_iff, decide_eq_true_eq,
    decide_eq_false_iff_not]
  constructor
  · rintro ⟨i, ⟨⟨hk, hu⟩, -⟩, hv⟩
    exact ⟨i, hu, hk, hv⟩
  · rintro ⟨i, hu, hk, hv⟩
    refine ⟨i, ⟨⟨hk, hu⟩, ?_⟩, hv⟩
    rintro j hj ⟨hjk, hju⟩
    exact hj.ne (h.keys_inj hju hu (hjk.trans hk.symm))

/-- An unused slot may have the key as well, but it is behind the used ones and empty. -/
theorem lookupAll_eq_some (h : s.Ok) : s.lookupAll k = some a ↔ s.Holds k a := by
  simp only [lookupAll, Option.bind_eq_some_iff, find?_eq_some_iff, decide_eq_true_eq,
    decide_eq_false_iff_not]
  constructor
  · rintro ⟨i, ⟨hk, -⟩, hv⟩
    exact ⟨i, h.used_of_val hv, hk, hv⟩
  · rintro ⟨i, hu, hk, hv⟩
    refine ⟨i, ⟨hk, ?_⟩, hv⟩
    intro j hj hjk
    exact hj.ne (h.keys_inj (lt_trans hj hu) hu (hjk.trans hk.symm))

variable {p i : Fin N}

section

variable {β : Type*} {f : Fin N → β} {n : ℕ} {b : β}

@[simp] theorem shiftIn_of_lt (hi : i < p) : shiftIn f p n b i = f i := by
  simp [shiftIn, hi]

@[simp] theorem shiftIn_self (hp : p.1 ≤ n) : shiftIn f p n b p = b := by
  simp [shiftIn, not_lt.2 hp]

theorem shiftIn_succ {j : Fin N} (hj : p ≤ j) (hn : j.1 < n) (hi : i.1 = j.1 + 1) :
    shiftIn f p n b i = f j := by
  have hpi : p < i := by rw [lt_def]; rw [le_def] at hj; omega
  have hin : i.1 ≤ n := by omega
  simp only [shiftIn, not_lt.2 hpi.le, not_lt.2 hin, hpi.ne', or_self, if_false]
  congr 1
  exact Fin.ext (by simp [hi])

theorem shiftIn_of_behind (hn : n < i.1) : shiftIn f p n b i = f i := by
  simp [shiftIn, hn]

/-- An entry up to `n` is an old one below `p`, the new one at `p`, or an old one from `p` on that
moved here. -/
theorem shiftIn_slot (hi : i.1 ≤ n) : i < p ∨ i = p ∨ ∃ j : Fin N, p ≤ j ∧ j.1 < n ∧ i.1 = j.1 + 1 := by
  rcases lt_trichotomy i p with hlt | heq | hgt
  · exact .inl hlt
  · exact .inr (.inl heq)
  · rw [lt_def] at hgt
    exact .inr (.inr ⟨⟨i.1 - 1, by omega⟩, by rw [le_def]; simp; omega, by simp; omega,
      by simp; omega⟩)

end

theorem position_eq_some : s.position k = some p ↔
    ¬(p.1 < s.used ∧ s.keys p < k) ∧ ∀ j < p, j.1 < s.used ∧ s.keys j < k := by
  rw [position, find?_eq_some_iff]
  simp only [Bool.not_eq_true', Bool.not_eq_false', decide_eq_true_eq, decide_eq_false_iff_not]

theorem position_eq_none : s.position k = none ↔ ∀ i : Fin N, i.1 < s.used ∧ s.keys i < k := by
  simp [position]

/-- The place of a key that is held is the slot that holds it. -/
theorem Ok.position_of_holds (h : s.Ok) (hu : i.1 < s.used) (hk : s.keys i = k) :
    s.position k = some i := by
  rw [position_eq_some]
  refine ⟨fun hc => absurd hk hc.2.ne, fun j hj => ⟨lt_trans hj hu, ?_⟩⟩
  exact hk ▸ h.sorted j i hj hu

theorem position_le_used (hp : s.position k = some p) : p.1 ≤ s.used := by
  rw [position_eq_some] at hp
  by_contra hc
  have := (hp.2 ⟨s.used, by omega⟩ (by rw [lt_def]; simp; omega)).1
  simp at this

theorem exists_position (hN : s.used < N) : ∃ p, s.position k = some p := by
  rw [← Option.isSome_iff_exists, Option.isSome_iff_ne_none, Ne, position_eq_none]
  intro hc
  simpa using (hc ⟨s.used, hN⟩).1

/-- Where the key is not held, the used slots from its place on have larger keys. -/
theorem Ok.lt_keys_of_position (h : s.Ok) (hp : s.position k = some p)
    (hno : ∀ a, ¬s.Holds k a) (hi : p ≤ i) (hu : i.1 < s.used) : k < s.keys i := by
  have hpu : p.1 < s.used := lt_of_le_of_lt hi hu
  have hle : k ≤ s.keys p := not_lt.1 fun hc => (position_eq_some.1 hp).1 ⟨hpu, hc⟩
  have hne : k ≠ s.keys p := by
    intro he
    obtain ⟨b, hb⟩ := Option.isSome_iff_exists.1 (h.filled p hpu)
    exact hno b ⟨p, hpu, he.symm, hb⟩
  rcases hi.eq_or_lt with rfl | hlt
  · exact lt_of_le_of_ne hle hne
  · exact hle.trans_lt (h.sorted p i hlt hu)

/-- Insertion at a key that is held changes its value only. -/
theorem insert_of_holds (h : s.Ok) (hk : ∃ b, s.Holds k b) : ∃ s', s.insert k a = some s' ∧ s'.Ok ∧
    s'.used = s.used ∧ ∀ k' c, s'.Holds k' c ↔ if k' = k then c = a else s.Holds k' c := by
  obtain ⟨b, p, hu, hkp, hb⟩ := hk
  refine ⟨{ s with vals := Function.update s.vals p (some a) }, ?_, ?_, rfl, fun k' c => ?_⟩
  · simp [insert, h.position_of_holds hu hkp, hkp, hb]
  · refine ⟨h.used_le, h.sorted, fun i hi => ?_, fun i hi => ?_⟩
    · by_cases hip : i = p
      · simp [hip]
      · simpa [hip] using h.filled i hi
    · have hip : i ≠ p := fun hc => absurd hu (not_lt.2 (hc ▸ hi))
      simpa [hip] using h.unused i hi
  · split_ifs with hkk
    · subst hkk
      constructor
      · rintro ⟨i, hi, hki, hc⟩
        obtain rfl : i = p := h.keys_inj hi hu (hki.trans hkp.symm)
        simpa using hc.symm
      · rintro rfl
        exact ⟨p, hu, hkp, by simp⟩
    · refine exists_congr fun i => and_congr_right fun _ => and_congr_right fun hki => ?_
      have hip : i ≠ p := fun hc => hkk (hki.symm.trans (hc ▸ hkp))
      simp [hip]

/-- Shifting a key in at its place keeps the used keys sorted. -/
theorem shiftIn_sorted {f : Fin N → κ} {n : ℕ}
    (hf : ∀ i j : Fin N, i < j → j.1 < n → f i < f j) (hp : p.1 ≤ n)
    (hbelow : ∀ j < p, j.1 < n ∧ f j < k) (habove : ∀ i : Fin N, p ≤ i → i.1 < n → k < f i)
    {j : Fin N} (hij : i < j) (hj : j.1 ≤ n) : shiftIn f p n k i < shiftIn f p n k j := by
  have hi : i.1 ≤ n := le_trans (lt_def.1 hij).le hj
  have hjslot := shiftIn_slot (p := p) hj
  rcases shiftIn_slot (p := p) hi with hilt | rfl | ⟨i', hpi, hin, hi'⟩ <;>
    rcases hjslot with hjlt | rfl | ⟨j', hpj, hjn, hj'⟩
  · simpa [hilt, hjlt] using hf i j hij (hbelow j hjlt).1
  · simpa [hilt, hp] using (hbelow i hilt).2
  · simpa [hilt, shiftIn_succ hpj hjn hj'] using (hbelow i hilt).2.trans (habove j' hpj hjn)
  · exact absurd hij hjlt.asymm
  · exact absurd hij (lt_irrefl _)
  · simpa [hp, shiftIn_succ hpj hjn hj'] using habove j' hpj hjn
  · rw [lt_def] at hjlt hij
    rw [le_def] at hpi
    omega
  · rw [lt_def] at hij
    rw [le_def] at hpi
    omega
  · rw [shiftIn_succ hpi hin hi', shiftIn_succ hpj hjn hj']
    exact hf i' j' (by rw [lt_def] at hij ⊢; omega) hjn

omit [LinearOrder κ] in
theorem holds_shift (hp : p.1 ≤ s.used) (hN : s.used < N) {k' : κ} {c : α} :
    (s.shift p k a).Holds k' c ↔ k' = k ∧ c = a ∨ s.Holds k' c := by
  constructor
  · rintro ⟨i, hi, hk, hc⟩
    replace hk : shiftIn s.keys p s.used k i = k' := hk
    replace hc : shiftIn s.vals p s.used (some a) i = some c := hc
    rcases shiftIn_slot (p := p) (Nat.lt_succ_iff.1 hi) with hlt | rfl | ⟨j, hj, hju, hij⟩
    · rw [shiftIn_of_lt hlt] at hk hc
      exact .inr ⟨i, lt_of_lt_of_le hlt hp, hk, hc⟩
    · rw [shiftIn_self hp] at hk hc
      exact .inl ⟨hk.symm, (Option.some.inj hc).symm⟩
    · rw [shiftIn_succ hj hju hij] at hk hc
      exact .inr ⟨j, hju, hk, hc⟩
  · rintro (⟨rfl, rfl⟩ | ⟨i, hi, hk, hc⟩)
    · exact ⟨p, Nat.lt_succ_iff.2 hp, shiftIn_self hp, shiftIn_self hp⟩
    · rcases lt_or_ge i p with hlt | hge
      · exact ⟨i, Nat.lt_succ_of_lt hi, (shiftIn_of_lt hlt).trans hk, (shiftIn_of_lt hlt).trans hc⟩
      · exact ⟨⟨i.1 + 1, lt_of_le_of_lt hi hN⟩, Nat.succ_lt_succ hi,
          (shiftIn_succ hge hi rfl).trans hk, (shiftIn_succ hge hi rfl).trans hc⟩

/-- Insertion of a key that is not held uses one more slot. -/
theorem insert_of_not_holds (h : s.Ok) (hno : ∀ b, ¬s.Holds k b) (hN : s.used < N) :
    ∃ s', s.insert k a = some s' ∧ s'.Ok ∧ s'.used = s.used + 1 ∧
      ∀ k' c, s'.Holds k' c ↔ if k' = k then c = a else s.Holds k' c := by
  obtain ⟨p, hp⟩ := exists_position (s := s) (k := k) hN
  have hpu := position_le_used hp
  have hbelow := (position_eq_some.1 hp).2
  have habove : ∀ i : Fin N, p ≤ i → i.1 < s.used → k < s.keys i := fun i =>
    h.lt_keys_of_position hp hno
  have hcond : ¬(s.keys p = k ∧ (s.vals p).isSome) := by
    rintro ⟨hk, hv⟩
    obtain ⟨b, hb⟩ := Option.isSome_iff_exists.1 hv
    exact hno b ⟨p, h.used_of_val hb, hk, hb⟩
  refine ⟨s.shift p k a, ?_, ⟨hN, ?_, ?_, ?_⟩, rfl, fun k' c => ?_⟩
  · simp only [insert, hp, if_neg hcond, if_pos hN]
  · exact fun i j hij hj => shiftIn_sorted h.sorted hpu hbelow habove hij (Nat.lt_succ_iff.1 hj)
  · intro i hi
    show (shiftIn s.vals p s.used (some a) i).isSome
    rcases shiftIn_slot (p := p) (Nat.lt_succ_iff.1 hi) with hlt | rfl | ⟨j, hj, hju, hij⟩
    · simpa [hlt] using h.filled i (hbelow i hlt).1
    · simp [hpu]
    · simpa [shiftIn_succ hj hju hij] using h.filled j hju
  · intro i hi
    show shiftIn s.vals p s.used (some a) i = none
    rw [shiftIn_of_behind hi]
    exact h.unused i (Nat.le_of_succ_le hi)
  · rw [holds_shift hpu hN]
    split_ifs with hk
    · subst hk
      exact ⟨fun hc => hc.elim And.right fun hc => absurd hc (hno c), fun hc => .inl ⟨rfl, hc⟩⟩
    · exact ⟨fun hc => hc.elim (fun hc => absurd hc.1 hk) id, .inr⟩

end Slots

end Proteus
