import Mathlib.Algebra.GroupWithZero.Nat
import Mathlib.Algebra.Order.BigOperators.Group.List
import Mathlib.Algebra.Order.Group.Nat

/-!
# Counting sort in arrays

A list is sorted by the class of its elements in three loops: `tally` counts the elements of
each class, `offsets` turns the counts into the places where the classes begin, and `scatter`
moves every element to the next free place of its class. Counters and offsets have `w` bits,
and an access outside of an array has no result.

The specification is `classes f n xs`, the elements of `xs` class by class and in their old
order within a class: `sort_eq` says that the loops compute it, and `classes_classes` that two
sorts by digits, the lower digit first, are one sort by the number.
-/

namespace Proteus.CountingSort

open Function List Nat

variable {α : Type*}

/-! ## Elements by class -/

variable {xs : List α}

section

variable (f : α → ℕ)

/-- The elements of the list by class, in their order. -/
def classes (n : ℕ) (xs : List α) : List α :=
  (List.range n).flatMap fun c => xs.filter fun x => f x = c

theorem classes_succ (n : ℕ) (xs : List α) :
    classes f (n + 1) xs = classes f n xs ++ xs.filter fun x => f x = n := by
  rw [classes, range_succ, flatMap_append, flatMap_singleton, classes]

variable {c n : ℕ}

/-- The class `c` begins where the classes before it end. -/
theorem exists_classes_eq (h : c < n) (xs : List α) :
    ∃ rest, classes f n xs = classes f c xs ++ ((xs.filter fun x => f x = c) ++ rest) := by
  induction n with
  | zero => omega
  | succ n ih =>
    rw [classes_succ]
    rcases Nat.lt_succ_iff_lt_or_eq.1 h with hlt | rfl
    · obtain ⟨rest, hrest⟩ := ih hlt
      exact ⟨rest ++ xs.filter fun x => f x = n, by rw [hrest]; simp only [append_assoc]⟩
    · exact ⟨[], by rw [append_nil]⟩

theorem classes_perm_filter (n : ℕ) (xs : List α) : (classes f n xs).Perm (xs.filter fun x => f x < n) := by
  induction n with
  | zero => simp [classes]
  | succ n ih =>
    rw [classes_succ]
    have hsplit := filter_append_perm (fun x => decide (f x < n))
      (xs.filter fun x => decide (f x < n + 1))
    rw [filter_filter, filter_filter] at hsplit
    refine List.Perm.trans (List.Perm.append ?_ (List.Perm.of_eq ?_)) hsplit
    · refine ih.trans (List.Perm.of_eq (filter_congr ?_))
      intro x _
      rw [← Bool.decide_and, decide_eq_decide]
      omega
    · apply filter_congr
      intro x _
      rw [← decide_not, ← Bool.decide_and, decide_eq_decide]
      omega

theorem classes_perm (h : ∀ x ∈ xs, f x < n) : (classes f n xs).Perm xs := by
  have hall := classes_perm_filter f n xs
  rwa [filter_eq_self.2 (by simpa using h)] at hall

theorem length_classes_succ (c : ℕ) (xs : List α) :
    (classes f (c + 1) xs).length = (classes f c xs).length + xs.countP fun x => f x = c := by
  rw [classes_succ, length_append, countP_eq_length_filter]

theorem length_classes_mono {d : ℕ} (h : c ≤ d) (xs : List α) :
    (classes f c xs).length ≤ (classes f d xs).length := by
  induction d, h using le_induction with
  | base => exact le_rfl
  | succ d _ ih =>
    rw [length_classes_succ]
    omega

/-- Every place belongs to a class. -/
theorem exists_class {i : ℕ} (h : i < (classes f n xs).length) :
    ∃ c < n, ∃ k < (xs.filter fun x => f x = c).length, i = (classes f c xs).length + k := by
  induction n with
  | zero => simp [classes] at h
  | succ n ih =>
    by_cases hi : i < (classes f n xs).length
    · obtain ⟨c, hc, k, hk, heq⟩ := ih hi
      exact ⟨c, by omega, k, hk, heq⟩
    · rw [classes_succ, length_append] at h
      exact ⟨n, by omega, i - (classes f n xs).length, by omega, by omega⟩

theorem getElem?_classes {k : ℕ} (hc : c < n) (hk : k < (xs.filter fun x => f x = c).length) :
    (classes f n xs)[(classes f c xs).length + k]? = (xs.filter fun x => f x = c)[k]? := by
  obtain ⟨rest, hrest⟩ := exists_classes_eq f hc xs
  rw [hrest, getElem?_append_right (by omega), Nat.add_sub_cancel_left, getElem?_append_left hk]

theorem filter_classes (n c : ℕ) (g : α → ℕ) (xs : List α) : (classes g n xs).filter (fun x => f x = c) =
      (List.range n).flatMap fun d => xs.filter fun x => f x = c ∧ g x = d := by
  rw [classes, filter_flatMap]
  congr 1
  funext d
  rw [filter_filter]
  apply filter_congr
  intro x _
  rw [Bool.decide_and]

/-- A sort by the lower digit and then by the upper one is a sort by the number. -/
theorem classes_classes (m n : ℕ) (g : α → ℕ) (h : ∀ x ∈ xs, g x < n) :
    classes f m (classes g n xs) = classes (fun x => f x * n + g x) (m * n) xs := by
  induction m with
  | zero => simp [classes]
  | succ m ih =>
    rw [classes_succ, ih, filter_classes]
    conv_rhs => rw [classes, succ_mul, range_add, flatMap_append]
    congr 1
    rw [flatMap_map]
    apply flatMap_congr
    intro d hd
    apply filter_congr
    intro x hx
    have hgx := h x hx
    have hdn := mem_range.1 hd
    rw [decide_eq_decide]
    constructor
    · rintro ⟨rfl, rfl⟩
      rfl
    · intro heq
      have hn : 0 < n := by omega
      obtain ⟨hf, hg⟩ := (Nat.div_mod_unique hn).2 ⟨show g x + n * f x = f x * n + g x by
        rw [Nat.mul_comm, Nat.add_comm], hgx⟩
      obtain ⟨hm, hd'⟩ := (Nat.div_mod_unique hn).2 ⟨show d + n * m = m * n + d by
        rw [mul_comm, add_comm], hdn⟩
      rw [heq] at hf hg
      exact ⟨hf.symm.trans hm, hg.symm.trans hd'⟩

end

/-! ## The loops -/

/-- Count the elements of each class. -/
def tally (w : ℕ) (f : α → ℕ) : List α → List ℕ → Option (List ℕ)
  | [], counts => some counts
  | x :: xs, counts => do
    let c ← counts[f x]?
    tally w f xs (counts.set (f x) ((c + 1) % 2 ^ w))

/-- The sums of the counts before each class. -/
def offsets (w : ℕ) : ℕ → List ℕ → List ℕ
  | _, [] => []
  | off, c :: counts => off :: offsets w ((off + c) % 2 ^ w) counts

/-- Move every element to the place of its class, and that place ahead. -/
def scatter (f : α → ℕ) : List α → List ℕ → List α → Option (List α)
  | [], _, out => some out
  | x :: xs, dst, out => dst[f x]?.bind fun p =>
    if p < out.length then scatter f xs (dst.set (f x) (p + 1)) (out.set p x) else none

def sort (w : ℕ) (f : α → ℕ) (n : ℕ) (xs out : List α) : Option (List α) :=
  (tally w f xs (List.replicate n 0)).bind fun counts => scatter f xs (offsets w 0 counts) out

section

variable {f : α → ℕ} {w n : ℕ}

theorem getElem?_map_range {β : Type*} (g : ℕ → β) {c : ℕ} (hc : c < n) :
    ((List.range n).map g)[c]? = some (g c) := by
  rw [getElem?_map, getElem?_range hc, Option.map_some]

theorem map_range_set {β : Type*} (g : ℕ → β) (c : ℕ) (b : β) :
    ((List.range n).map g).set c b = (List.range n).map (update g c b) := by
  apply ext_getElem?
  intro i
  by_cases hi : i < n
  · rw [getElem?_map_range _ hi, getElem?_set, length_map, length_range]
    by_cases hc : c = i
    · subst hc
      rw [if_pos rfl, if_pos hi, update_self]
    · rw [if_neg hc, getElem?_map_range _ hi, update_of_ne (Ne.symm hc)]
  · rw [getElem?_eq_none (by simpa using Nat.le_of_not_lt hi),
      getElem?_eq_none (by simpa using Nat.le_of_not_lt hi)]

theorem tally_eq (g : ℕ → ℕ) (h : ∀ x ∈ xs, f x < n)
    (hw : ∀ c < n, g c + (xs.countP fun x => f x = c) < 2 ^ w) : tally w f xs ((List.range n).map g) =
      some ((List.range n).map fun c => g c + xs.countP fun x => f x = c) := by
  induction xs generalizing g with
  | nil => simp [tally]
  | cons x xs ih =>
    have hx := h x mem_cons_self
    have hmod : (g (f x) + 1) % 2 ^ w = g (f x) + 1 := by
      apply mod_eq_of_lt
      have := hw (f x) hx
      rw [countP_cons_of_pos (by simp)] at this
      omega
    -- the counter of the class of `x` grows, and the elements that are left are one fewer
    have hsum : ∀ c, update g (f x) (g (f x) + 1) c + (xs.countP fun y => f y = c) =
        g c + (x :: xs).countP fun y => f y = c := by
      intro c
      by_cases hc : f x = c
      · subst hc
        rw [update_self, countP_cons_of_pos (by simp)]
        omega
      · rw [update_of_ne (Ne.symm hc), countP_cons_of_neg (by simpa using hc)]
    rw [tally, getElem?_map_range g hx, Option.bind_eq_bind, Option.bind_some, hmod, map_range_set,
      ih _ (fun y hy => h y (mem_cons_of_mem _ hy)) fun c hc => by rw [hsum]; exact hw c hc]
    simp only [hsum]

theorem getElem?_offsets {counts : List ℕ} {off c : ℕ} (hw : off + counts.sum < 2 ^ w)
    (hc : c < counts.length) : (offsets w off counts)[c]? = some (off + (counts.take c).sum) := by
  induction counts generalizing off c with
  | nil => simp at hc
  | cons d counts ih =>
    rw [sum_cons] at hw
    cases c with
    | zero => simp [offsets]
    | succ c =>
      rw [offsets, getElem?_cons_succ, mod_eq_of_lt (by omega),
        ih (by omega) (by simpa using hc), take_succ_cons, sum_cons, add_assoc]

theorem length_offsets (counts : List ℕ) (off : ℕ) : (offsets w off counts).length = counts.length := by
  induction counts generalizing off with
  | nil => rfl
  | cons d counts ih => rw [offsets, length_cons, length_cons, ih]

theorem sum_counts (f : α → ℕ) (xs : List α) (c : ℕ) :
    ((List.range c).map fun d => xs.countP fun x => f x = d).sum = (classes f c xs).length := by
  induction c with
  | zero => rfl
  | succ c ih =>
    rw [range_succ, map_append, List.sum_append, ih, length_classes_succ]
    simp

/-- Every element is moved to the range that begins at the place of its class, in order; nothing else
changes. Only the ranges of classes that have an element need to be apart. -/
theorem scatter_spec {g : ℕ → ℕ} (out : List α) (h : ∀ x ∈ xs, f x < n)
    (hin : ∀ c < n, 0 < (xs.countP fun x => f x = c) →
      g c + (xs.countP fun x => f x = c) ≤ out.length)
    (hapart : ∀ c < n, ∀ d < n, c ≠ d → 0 < (xs.countP fun x => f x = c) →
      0 < (xs.countP fun x => f x = d) →
      g c + (xs.countP fun x => f x = c) ≤ g d ∨ g d + (xs.countP fun x => f x = d) ≤ g c) :
    ∃ out', scatter f xs ((List.range n).map g) out = some out' ∧ out'.length = out.length ∧
      (∀ c < n, ∀ k < (xs.filter fun x => f x = c).length,
        out'[g c + k]? = (xs.filter fun x => f x = c)[k]?) ∧
      ∀ i, (∀ c < n, i < g c ∨ g c + (xs.countP fun x => f x = c) ≤ i) → out'[i]? = out[i]? := by
  induction xs generalizing g out with
  | nil => exact ⟨out, rfl, rfl, fun c _ k hk => absurd hk (not_lt_zero k), fun _ _ => rfl⟩
  | cons x xs ih =>
    have hx := h x mem_cons_self
    have hself : ((x :: xs).countP fun y => f y = f x) = (xs.countP fun y => f y = f x) + 1 :=
      countP_cons_of_pos (by simp)
    have hother : ∀ c, c ≠ f x → ((x :: xs).countP fun y => f y = c) = xs.countP fun y => f y = c :=
      fun c hc => countP_cons_of_neg (by simpa using hc.symm)
    have hroom := hin _ hx (by omega)
    -- the place of the class of `x` moves ahead, all other ranges stay
    have hg : ∀ c, c ≠ f x → update g (f x) (g (f x) + 1) c = g c :=
      fun c hc => update_of_ne hc _ _
    have hgx : update g (f x) (g (f x) + 1) (f x) = g (f x) + 1 := update_self ..
    obtain ⟨out', hs, hlen, hdone, hframe⟩ :=
      ih (g := update g (f x) (g (f x) + 1)) (out.set (g (f x)) x)
        (fun y hy => h y (mem_cons_of_mem _ hy))
        (by
          intro c hc hpos
          rw [length_set]
          by_cases hcx : c = f x
          · subst hcx
            omega
          · rw [hg c hcx, ← hother c hcx]
            exact hin c hc (by rwa [hother c hcx]))
        (by
          intro c hc d hd hcd hcpos hdpos
          by_cases hcx : c = f x
          · subst hcx
            have hdx := Ne.symm hcd
            have := hapart _ hc d hd hcd (by omega) (by rwa [hother d hdx])
            rw [hother d hdx] at this
            rw [hgx, hg d hdx]
            omega
          · have hcpos' := hcpos
            rw [← hother c hcx] at hcpos'
            by_cases hdx : d = f x
            · subst hdx
              have := hapart c hc _ hd hcd hcpos' (by omega)
              rw [hother c hcx] at this
              rw [hgx, hg c hcx]
              omega
            · have := hapart c hc d hd hcd hcpos' (by rwa [hother d hdx])
              rwa [hother c hcx, hother d hdx, ← hg c hcx, ← hg d hdx] at this)
    refine ⟨out', ?_, by rw [hlen, length_set], ?_, ?_⟩
    · rwa [scatter, getElem?_map_range g hx, Option.bind_some, if_pos (by omega), map_range_set]
    · intro c hc k hk
      by_cases hcx : c = f x
      · subst hcx
        rw [filter_cons_of_pos (by simp)] at hk ⊢
        cases k with
        | zero =>
          rw [add_zero, getElem?_cons_zero, hframe, getElem?_set_self (by omega)]
          intro d hd
          by_cases hdx : d = f x
          · subst hdx
            omega
          · rw [hg d hdx]
            by_cases hpos : 0 < xs.countP fun y => f y = d
            · have := hapart _ hc d hd (Ne.symm hdx) (by omega) (by rwa [hother d hdx])
              rw [hother d hdx] at this
              omega
            · omega
        | succ k =>
          rw [getElem?_cons_succ, ← hdone _ hc k (by simpa using hk), hgx, add_right_comm,
            add_assoc]
      · rw [filter_cons_of_neg (by simpa using Ne.symm hcx)] at hk ⊢
        rw [← hdone c hc k hk, hg c hcx]
    · intro i hi
      have hix := hi _ hx
      rw [hframe, getElem?_set_ne (by omega)]
      intro c hc
      by_cases hcx : c = f x
      · subst hcx
        omega
      · rw [hg c hcx, ← hother c hcx]
        exact hi c hc

/-- The three loops sort the list by class, into an array that is large enough. -/
theorem sort_eq {out : List α} (h : ∀ x ∈ xs, f x < n) (hw : xs.length < 2 ^ w)
    (hout : xs.length ≤ out.length) : sort w f n xs out = some (classes f n xs ++ out.drop xs.length) := by
  have hzero : replicate n 0 = (range n).map fun _ => 0 := by rw [map_const', length_range]
  have hcount (c : ℕ) : (xs.countP fun x => f x = c) ≤ xs.length := countP_le_length
  have ht := tally_eq (w := w) (fun _ => 0) h fun c _ => by
    have := hcount c
    omega
  simp only [zero_add] at ht
  have hsum := sum_counts f xs n
  have hlen := (classes_perm f h).length_eq
  -- the class `c` has the places from the end of the classes before it on
  have hoff : offsets w 0 ((range n).map fun c => xs.countP fun x => f x = c) =
      (range n).map fun c => (classes f c xs).length := by
    apply ext_getElem?
    intro c
    by_cases hc : c < n
    · rw [getElem?_offsets (by omega) (by simpa using hc), getElem?_map_range _ hc, ← map_take,
        take_range, Nat.min_eq_left hc.le, sum_counts, Nat.zero_add]
    · rw [getElem?_eq_none (by simpa [length_offsets] using Nat.le_of_not_lt hc),
        getElem?_eq_none (by simpa using Nat.le_of_not_lt hc)]
  have hnext (c : ℕ) := length_classes_succ f c xs
  have hmono {c d : ℕ} (hcd : c ≤ d) := length_classes_mono f hcd xs
  obtain ⟨out', hs, hlen', hdone, hframe⟩ := scatter_spec (g := fun c => (classes f c xs).length)
    out h
    (fun c hc _ => by
      have := hnext c
      have := hmono (show c + 1 ≤ n from hc)
      omega)
    (fun c _ d _ hcd _ _ => by
      have := hnext c
      have := hnext d
      rcases lt_or_gt_of_ne hcd with hlt | hgt
      · have := hmono (show c + 1 ≤ d from hlt)
        omega
      · have := hmono (show d + 1 ≤ c from hgt)
        omega)
  rw [sort, hzero, ht, Option.bind_some, hoff, hs]
  congr 1
  apply ext_getElem?
  intro i
  by_cases hi : i < xs.length
  · have hcl : i < (classes f n xs).length := by omega
    obtain ⟨c, hc, k, hk, rfl⟩ := exists_class f hcl
    rw [hdone c hc k hk, getElem?_append_left (by omega), getElem?_classes f hc hk]
  · rw [hframe i, getElem?_append_right (by omega), getElem?_drop, hlen]
    · congr 1
      omega
    · intro c hc
      have := hnext c
      have := hmono (show c + 1 ≤ n from hc)
      omega

end

end Proteus.CountingSort
