import Mathlib.Algebra.Order.Group.Nat
import Mathlib.Data.List.GetD
import Proteus.Machine

/-!
# Streams in chains of buckets

A stream is stored in buckets of `w` places each: the place `v` of the stream is the place `v % w` of
the bucket number `v / w` of its chain (`addr`).

* `Apart` says that no bucket is used twice, in one chain or in two. Then the places of all streams
  have different addresses (`Apart.addr_inj`), and a chain may grow by a bucket that no chain has
  (`Apart.snoc`).
* `read` follows the links from the first bucket and reads a bucket at a time. Along a linked chain it
  reads the first places of the stream (`read_eq`), and the links lead to its buckets (`iterate_eq`).
  The buckets of a chain one behind the other are the stream (`flatMap_eq`).
-/

namespace Proteus.BucketChain

open Function List Nat

variable {α ι : Type*} {w v v' : ℕ} {l l' : List ℕ} {next : ℕ → ℕ} {out : ℕ → α}

/-- The address of a place of the stream with this chain. -/
def addr (w : ℕ) (chain : List ℕ) (v : ℕ) : ℕ := chain.getD (v / w) 0 * w + v % w

/-- No bucket is in two chains or twice in one. -/
def Apart (chain : ι → List ℕ) : Prop :=
  ∀ (p q : ι) (m n c : ℕ), (chain p)[m]? = some c → (chain q)[n]? = some c → p = q ∧ m = n

variable {c : ℕ}

theorem addr_of_getElem? (h : l[v / w]? = some c) : addr w l v = c * w + v % w := by
  rw [addr, getD_eq_getElem?_getD, h, Option.getD_some]

/-- An address says which bucket it is in, and where. -/
theorem addr_inj (hw : 0 < w) (h : addr w l v = addr w l' v') :
    l.getD (v / w) 0 = l'.getD (v' / w) 0 ∧ v % w = v' % w := by
  have hv := (Nat.div_mod_unique hw).2
    ⟨show v % w + w * l.getD (v / w) 0 = addr w l v by rw [addr, Nat.mul_comm, Nat.add_comm],
      Nat.mod_lt v hw⟩
  have hv' := (Nat.div_mod_unique hw).2
    ⟨show v' % w + w * l'.getD (v' / w) 0 = addr w l' v' by rw [addr, Nat.mul_comm, Nat.add_comm],
      Nat.mod_lt v' hw⟩
  rw [h] at hv
  exact ⟨hv.1.symm.trans hv'.1, hv.2.symm.trans hv'.2⟩

theorem getElem?_of_isPrefix {m : ℕ} (hl : l <+: l') (h : l[m]? = some c) : l'[m]? = some c := by
  obtain ⟨t, rfl⟩ := hl
  rwa [List.getElem?_append_left (List.getElem?_eq_some_iff.1 h).1]

variable {chain : ι → List ℕ} {p q : ι}

section

variable [DecidableEq ι] {c d n : ℕ}

/-- A bucket of a chain that has grown was there before, or is the new one. -/
theorem getElem?_snoc_cases (h : (update chain p (chain p ++ [c]) q)[n]? = some d) :
    (chain q)[n]? = some d ∨ q = p ∧ n = (chain p).length ∧ d = c := by
  by_cases hq : q = p
  · subst hq
    rw [update_self] at h
    exact (getElem?_concat_cases h).imp_right fun h => ⟨rfl, h⟩
  · rw [update_of_ne hq] at h
    exact .inl h

/-- Two buckets that follow each other did so before, or the second is the new one. -/
theorem getElem?_snoc_pair {e : ℕ} (hd : (update chain p (chain p ++ [c]) q)[n]? = some d)
    (he : (update chain p (chain p ++ [c]) q)[n + 1]? = some e) :
    (chain q)[n]? = some d ∧ (chain q)[n + 1]? = some e ∨
      q = p ∧ n + 1 = (chain p).length ∧ (chain p)[n]? = some d ∧ e = c := by
  rcases getElem?_snoc_cases he with he' | ⟨rfl, hn, rfl⟩
  · rcases getElem?_snoc_cases hd with hd' | ⟨rfl, hn, -⟩
    · exact .inl ⟨hd', he'⟩
    · have := (List.getElem?_eq_some_iff.1 he').1
      omega
  · rcases getElem?_snoc_cases hd with hd' | ⟨-, hn', -⟩
    · exact .inr ⟨rfl, hn, hd', rfl⟩
    · omega

theorem isPrefix_snoc (chain : ι → List ℕ) (p q : ι) (c : ℕ) :
    chain q <+: update chain p (chain p ++ [c]) q := by
  by_cases hq : q = p
  · subst hq
    rw [update_self]
    exact prefix_append _ _
  · exact (update_of_ne hq _ _).symm ▸ prefix_rfl

end

namespace Apart

/-- The places of all streams have different addresses. -/
theorem addr_inj (h : Apart chain) (hw : 0 < w) (hv : v / w < (chain p).length)
    (hv' : v' / w < (chain q).length) (he : addr w (chain p) v = addr w (chain q) v') : p = q ∧ v = v' := by
  obtain ⟨hbucket, hmod⟩ := BucketChain.addr_inj hw he
  rw [getD_eq_getElem _ _ hv, getD_eq_getElem _ _ hv'] at hbucket
  obtain ⟨hpq, hdiv⟩ := h p q _ _ _ (getElem?_eq_getElem hv)
    (by rw [getElem?_eq_getElem hv', hbucket])
  refine ⟨hpq, ?_⟩
  rw [← div_add_mod v w, ← div_add_mod v' w, hdiv, hmod]

/-- A chain grows by a bucket that no chain has. -/
theorem snoc [DecidableEq ι] (h : Apart chain) (hc : ∀ q, c ∉ chain q) (p : ι) :
    Apart (update chain p (chain p ++ [c])) := by
  intro q q' m n d hm hn
  rcases getElem?_snoc_cases hm with hq | ⟨rfl, rfl, rfl⟩
  · rcases getElem?_snoc_cases hn with hq' | ⟨rfl, rfl, rfl⟩
    · exact h q q' m n d hq hq'
    · exact absurd (mem_of_getElem? hq) (hc q)
  · rcases getElem?_snoc_cases hn with hq' | ⟨rfl, rfl, _⟩
    · exact absurd (mem_of_getElem? hq') (hc q')
    · exact ⟨rfl, rfl⟩

end Apart

/-- Following the links from the first bucket of a linked chain. -/
theorem iterate_eq {d m : ℕ} (hlinked : (c :: l).IsChain fun a b => next a = b)
    (hd : (c :: l)[m]? = some d) : next^[m] c = d := by
  induction m generalizing c l with
  | zero => exact Option.some.inj hd
  | succ m ih =>
    cases l with
    | nil => cases hd
    | cons e l =>
      rw [isChain_cons_cons] at hlinked
      rw [Function.iterate_succ_apply, hlinked.1]
      exact ih hlinked.2 hd

/-- Read `cnt` elements from the bucket `cur` on, a bucket at a time; `fuel` bounds the buckets. -/
def read (w : ℕ) (next : ℕ → ℕ) (out : ℕ → α) : ℕ → ℕ → ℕ → List α
  | 0, _, _ => []
  | fuel + 1, cnt, cur =>
    if 0 < cnt then
      (List.range (min cnt w)).map (fun i => out (cur * w + i)) ++
        read w next out fuel (cnt - w) (next cur)
    else []

/-- The first places of a stream are in the first bucket of its chain, and those behind them in the
rest. -/
theorem map_addr_cons (hw : 0 < w) (out : ℕ → α) (c cnt : ℕ) :
    (List.range cnt).map (fun v => out (addr w (c :: l) v)) =
      (List.range (min cnt w)).map (fun i => out (c * w + i)) ++
        (List.range (cnt - w)).map fun v => out (addr w l v) := by
  have hsplit : cnt = min cnt w + (cnt - w) := by omega
  conv_lhs => rw [hsplit, range_add, map_append, map_map]
  congr 1
  · apply map_congr_left
    intro i hi
    have hi : i < w := by
      have := mem_range.1 hi
      omega
    rw [addr, div_eq_of_lt hi, mod_eq_of_lt hi, getD_cons_zero]
  · apply map_congr_left
    intro v hv
    have hmore : min cnt w = w := by
      have := mem_range.1 hv
      omega
    rw [Function.comp_apply, hmore, addr, addr, add_div_left _ hw, add_mod_left,
      getD_cons_succ]

/-- Along a linked chain the first places of the stream are read. -/
theorem read_eq {cnt fuel : ℕ} (hw : 0 < w)
    (hlinked : (c :: l).IsChain fun a b => next a = b) (hcnt : cnt ≤ (l.length + 1) * w)
    (hfuel : cnt ≤ fuel * w) :
    read w next out fuel cnt c = (List.range cnt).map fun v => out (addr w (c :: l) v) := by
  induction fuel generalizing c l cnt with
  | zero =>
    obtain rfl : cnt = 0 := by omega
    rfl
  | succ fuel ih =>
    rw [read]
    by_cases hpos : 0 < cnt
    · rw [if_pos hpos, map_addr_cons hw]
      congr 1
      by_cases hmore : w < cnt
      · cases l with
        | nil =>
          simp only [length_nil, zero_add, one_mul] at hcnt
          omega
        | cons d l =>
          rw [isChain_cons_cons] at hlinked
          rw [length_cons, succ_mul] at hcnt
          rw [succ_mul] at hfuel
          rw [hlinked.1]
          exact ih hlinked.2 (by omega) (by omega)
      · have hz : cnt - w = 0 := by omega
        rw [hz]
        cases fuel <;> rfl
    · obtain rfl : cnt = 0 := by omega
      rw [if_neg hpos, range_zero, map_nil]

/-- The buckets of a chain one behind the other: all full but for the last one. -/
theorem flatMap_eq {f : ℕ → List α} {cnt : ℕ} (hw : 0 < w) (hlen : cnt ≤ l.length * w)
    (hf : ∀ i c, l[i]? = some c → f c = (List.range (min (cnt - w * i) w)).map fun k => out (c * w + k)) :
    l.flatMap f = (List.range cnt).map fun v => out (addr w l v) := by
  induction l generalizing cnt with
  | nil =>
    obtain rfl : cnt = 0 := by simpa using hlen
    rfl
  | cons c l ih =>
    rw [length_cons, Nat.succ_mul] at hlen
    rw [flatMap_cons, map_addr_cons hw, hf 0 c rfl, Nat.mul_zero, Nat.sub_zero]
    congr 1
    refine ih (by omega) fun i d hd => ?_
    rw [hf (i + 1) d hd, mul_succ, add_comm, sub_add_eq]

end Proteus.BucketChain
