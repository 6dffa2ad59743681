import Mathlib.Data.List.Pairwise
import Mathlib.Data.Nat.ModEq

/-!
# Ranges that tile an interval

A range is given by its start and its length. `Tiles a l b` says that the ranges of `l` follow one
another from `a` to `b`. Such ranges lie in the interval, in order and apart from each other, and
every place of the interval is in one of them (`Tiles.within`, `Tiles.pairwise`, `Tiles.apart`, `Tiles.covers`);
a list of ranges has only one end (`Tiles.end_unique`).

A loop that emits, in round `d`, a tiling of the interval between two bounds `g d` and `g (d + 1)`
emits a tiling of the whole (`Tiles.flatMap_range`), and a loop over the interval is a loop over its
ranges (`Tiles.map_range'`).
-/

namespace Proteus

open List

/-- The ranges of the list follow one another from the first bound to the second. -/
inductive Tiles : ℕ → List (ℕ × ℕ) → ℕ → Prop
  | nil (a : ℕ) : Tiles a [] a
  | cons {a n b : ℕ} {l : List (ℕ × ℕ)} : Tiles (a + n) l b → Tiles a ((a, n) :: l) b

namespace Tiles

variable {a b b' c : ℕ} {l l' : List (ℕ × ℕ)} {p : ℕ × ℕ}

theorem single (a n : ℕ) : Tiles a [(a, n)] (a + n) := .cons (.nil _)

section

variable (h : Tiles a l b)
include h

theorem append (h' : Tiles b l' c) : Tiles a (l ++ l') c := by
  induction h with
  | nil => exact h'
  | cons _ ih => exact .cons (ih h')

theorem le : a ≤ b := by
  induction h with
  | nil => exact le_rfl
  | cons _ ih => omega

theorem within (hp : p ∈ l) : a ≤ p.1 ∧ p.1 + p.2 ≤ b := by
  induction h with
  | nil => cases hp
  | cons h ih =>
    have hle := h.le
    rcases mem_cons.1 hp with rfl | hp
    · exact ⟨le_rfl, hle⟩
    · have := ih hp
      omega

theorem pairwise : l.Pairwise fun p q => p.1 + p.2 ≤ q.1 := by
  induction h with
  | nil => exact .nil
  | cons h ih => exact .cons (fun q hq => (h.within hq).1) ih

end

/-- The ranges of two parties are apart. -/
theorem apart {κ : Type*} {ks : List κ} {f : κ → ℕ × ℕ} (h : Tiles a (ks.map f) b) {k k' : κ}
    (hk : k ∈ ks) (hk' : k' ∈ ks) (hne : k ≠ k') :
    (f k).1 + (f k).2 ≤ (f k').1 ∨ (f k').1 + (f k').2 ≤ (f k).1 := by
  have hsymm : Std.Symm fun k k' => (f k).1 + (f k).2 ≤ (f k').1 ∨ (f k').1 + (f k').2 ≤ (f k).1 :=
    ⟨fun _ _ h => h.symm⟩
  have hpair : ks.Pairwise fun k k' => (f k).1 + (f k).2 ≤ (f k').1 ∨ (f k').1 + (f k').2 ≤ (f k).1 :=
    (pairwise_map.1 h.pairwise).imp .inl
  exact hpair.forall hk hk' hne

section

variable (h : Tiles a l b)
include h

theorem isChain : l.IsChain fun p q => p.1 + p.2 = q.1 := by
  induction h with
  | nil => exact .nil
  | cons h ih =>
    cases h with
    | nil => exact .singleton _
    | cons h => exact .cons_cons rfl ih

theorem head (hp : p ∈ l.head?) : p.1 = a := by
  cases h with
  | nil => cases hp
  | cons h =>
    cases hp
    rfl

theorem covers {x : ℕ} (ha : a ≤ x) (hb : x < b) : ∃ p ∈ l, p.1 ≤ x ∧ x < p.1 + p.2 := by
  induction h with
  | nil => omega
  | @cons a n b l h ih =>
    by_cases hx : x < a + n
    · exact ⟨_, mem_cons_self, ha, hx⟩
    · obtain ⟨p, hp, hpx⟩ := ih (by omega) hb
      exact ⟨p, mem_cons_of_mem _ hp, hpx⟩

theorem end_unique (h' : Tiles a l b') : b = b' := by
  induction h with
  | nil => cases h' with | nil => rfl
  | cons _ ih => cases h' with | cons h' => exact ih h'

end

/-- Ranges that stay below `c` and cover everything below `c` end there. -/
theorem end_eq (h : Tiles 0 l b) (hin : ∀ p ∈ l, p.1 + p.2 ≤ c)
    (hcov : ∀ x < c, ∃ p ∈ l, p.1 ≤ x ∧ x < p.1 + p.2) : b = c := by
  refine le_antisymm (le_of_not_gt fun hlt => ?_) (le_of_not_gt fun hlt => ?_)
  · obtain ⟨p, hp, -, hx⟩ := h.covers (Nat.zero_le c) hlt
    have := hin p hp
    omega
  · obtain ⟨p, hp, -, hx⟩ := hcov b hlt
    have := (h.within hp).2
    omega

/-- Where all ranges start at multiples of `c` and the end is one, the lengths are multiples. -/
theorem dvd_length (h : Tiles a l b) (hc : ∀ p ∈ l, c ∣ p.1) (hb : c ∣ b) (hp : p ∈ l) : c ∣ p.2 := by
  induction h with
  | nil => cases hp
  | @cons a n b l h ih =>
    have ha : c ∣ a := hc (a, n) mem_cons_self
    have hrest : ∀ p ∈ l, c ∣ p.1 := fun p hp => hc p (mem_cons_of_mem _ hp)
    have hn : c ∣ a + n := by
      cases h with
      | nil => exact hb
      | cons h => exact hrest _ mem_cons_self
    rcases mem_cons.1 hp with rfl | hp
    · exact (Nat.dvd_add_right ha).1 hn
    · exact ih hrest hb hp

/-- The tiling in units of `c`. -/
theorem div (h : Tiles a l b) (ha : c ∣ a) (hc : ∀ p ∈ l, c ∣ p.1) (hb : c ∣ b) :
    Tiles (a / c) (l.map fun p => (p.1 / c, p.2 / c)) (b / c) := by
  have hlen : ∀ p ∈ l, c ∣ p.2 := fun p hp => h.dvd_length hc hb hp
  clear hb
  induction h with
  | nil => exact .nil _
  | @cons a n b l h ih =>
    have hn : c ∣ n := hlen _ mem_cons_self
    have := ih (Nat.dvd_add ha hn) (fun p hp => hc p (mem_cons_of_mem _ hp))
      fun p hp => hlen p (mem_cons_of_mem _ hp)
    rw [Nat.add_div_of_dvd_right ha] at this
    exact .cons this

/-- A loop whose round `d` tiles the interval from `g d` to `g (d + 1)`. -/
theorem flatMap_range {g : ℕ → ℕ} {f : ℕ → List (ℕ × ℕ)} (m : ℕ)
    (h : ∀ d < m, Tiles (g d) (f d) (g (d + 1))) : Tiles (g 0) ((List.range m).flatMap f) (g m) := by
  induction m with
  | zero => exact .nil _
  | succ m ih =>
    rw [range_succ, flatMap_append, flatMap_singleton]
    exact (ih fun d hd => h d (Nat.lt_succ_of_lt hd)).append (h m (Nat.lt_succ_self m))

theorem add_sum (h : Tiles a l b) : a + (l.map Prod.snd).sum = b := by
  induction h with
  | nil => rfl
  | cons _ ih =>
    rwa [map_cons, sum_cons, ← Nat.add_assoc]

/-- The interval is run through range by range. -/
theorem map_range' {β : Type*} (h : Tiles a l b) (f : ℕ → β) :
    (List.range' a (b - a)).map f = l.flatMap fun p => (List.range' p.1 p.2).map f := by
  induction h with
  | nil => simp
  | @cons a n b l h ih =>
    have hle := h.le
    have hsplit : b - a = n + (b - (a + n)) := by omega
    rw [flatMap_cons, ← ih, hsplit, ← range'_append_1, map_append]

end Tiles

end Proteus
