import Mathlib.Algebra.GroupWithZero.Nat
import Proteus.ChangePoints
import Proteus.Machine

/-!
# The interval map

`IntervalMap` stores a function on the keys by its change points, and next to them two cached
fields: `upper_bound`, from which on a lookup answers zero without looking at the map, and `touched`,
whether anything was changed at all.

Every operation changes the stored function as it should (`Holds.step`). The cached fields are kept
up to date by fewer of them: a lookup is right as long as the function is zero from `upper_bound` on
and the map has a key at or next to it (`Cached`), and the operations of `Safe` are exactly those
that keep this (`Cached.step`, `not_correct_of_unsafe`).

Keys are natural numbers: those of the source are below the maximal one, so that `key + 1` is a key.
The operations are run by one thread. Reading through `end()` and stepping in front of `begin()` are
a `none`.
-/

namespace Proteus.Oltp

open Function List Option OrdMap

structure IntervalMap (V : Type*) where
  map : OrdMap ℕ V
  upper_bound : ℕ
  touched : Bool

namespace IntervalMap

variable {V : Type*}

/-! ## The operations -/

/-- The map of the default constructor. -/
def default [Zero V] : IntervalMap V := ⟨OrdMap.empty.insert 0 0, 0, false⟩

def getValue [Zero V] (s : IntervalMap V) (key : ℕ) : Option V :=
  if s.touched = false ∨ s.upper_bound ≤ key then some 0
  else
    match s.map.lowerBound? key with
    | none => none
    | some (k, v) => if k = key then some v else (s.map.before? key).map Prod.snd

def reset (s : IntervalMap V) (value : V) : IntervalMap V :=
  { s with map := OrdMap.empty.insert 0 value }

section

variable [DecidableEq V]

def upsert (s : IntervalMap V) (key : ℕ) (value : V) : Option (IntervalMap V) :=
  match s.map.lowerBound? key with
  | none => do
    -- the key is greater than any in the map
    let last ← s.map.last?
    if last.2 = value then return s
    else return ⟨(s.map.insert (key + 1) last.2).insert key value, key + 1, true⟩
  | some (k, v) =>
    if k = key then
      if v = value then some s
      else some { s with
        map := (s.map.insert (key + 1) v).modify key fun _ => value
        touched := true }
    else do
      -- a greater key exists
      let prev ← s.map.before? key
      if prev.2 = value then return s
      else return { s with
        map := (s.map.insert (key + 1) prev.2).insert key value
        touched := true }

def updateByValue (s : IntervalMap V) (oldval newval : V) : IntervalMap V :=
  { s with map := s.map.mapValues fun v => if v = oldval then newval else v, touched := true }

/-- As `updateByValue`, with the number of entries that were changed. -/
def updateByValue_withCount (s : IntervalMap V) (oldval newval : V) : IntervalMap V × ℕ :=
  (s.updateByValue oldval newval, s.map.entries.countP fun e => e.2 = oldval)

def consolidate (s : IntervalMap V) : Option (IntervalMap V) :=
  if s.touched = false then some s
  else do
    let last ← s.map.merge.last?
    return { s with map := s.map.merge, upper_bound := last.1 }

def updateAndConsolidate (s : IntervalMap V) (oldval newval : V) : Option (IntervalMap V × ℕ) := do
  let (s, ctr) := s.updateByValue_withCount oldval newval
  let s ← s.consolidate
  return (s, ctr)

end

inductive Op (V : Type*)
  | upsert (key : ℕ) (value : V)
  | updateByValue (oldval newval : V)
  | updateAndConsolidate (oldval newval : V)
  | consolidate
  | reset (value : V)

def step [DecidableEq V] (s : IntervalMap V) : Op V → Option (IntervalMap V)
  | .upsert key value => s.upsert key value
  | .updateByValue oldval newval => some (s.updateByValue oldval newval)
  | .updateAndConsolidate oldval newval => (s.updateAndConsolidate oldval newval).map Prod.fst
  | .consolidate => s.consolidate
  | .reset value => some (s.reset value)

/-! ## The function that the operations mean -/

/-- What an operation does to the function. -/
def Op.change [DecidableEq V] (f : ℕ → V) : Op V → ℕ → V
  | .upsert key value => update f key value
  | .updateByValue oldval newval => fun x => if f x = oldval then newval else f x
  | .updateAndConsolidate oldval newval => fun x => if f x = oldval then newval else f x
  | .consolidate => f
  | .reset value => fun _ => value

/-- The function after a sequence of operations. -/
def meaning [DecidableEq V] [Zero V] (ops : List (Op V)) : ℕ → V := ops.foldl Op.change fun _ => 0

/-! ## The stored function -/

/-- The map stores the function `f`, and the upper bound has moved only with a change. -/
structure Holds (s : IntervalMap V) (f : ℕ → V) : Prop where
  denotes : ∀ x, s.map.valueAt x = some (f x)
  untouched : s.touched = false → s.upper_bound = 0

theorem valueAt_single (value : V) (x : ℕ) :
    (OrdMap.empty.insert 0 value : OrdMap ℕ V).valueAt x = some value := by
  have hmem : (0, value) ∈ (empty.insert 0 value : OrdMap ℕ V).entries := mem_cons_self
  refine valueAt_eq_some hmem (Nat.zero_le x) fun e he _ => ?_
  obtain rfl := mem_singleton.1 he
  exact le_rfl

theorem holds_default [Zero V] : Holds (default : IntervalMap V) fun _ => 0 :=
  ⟨valueAt_single 0, fun _ => rfl⟩

/-- What `upsert` does where it changes the map. -/
structure Upserted (s s' : IntervalMap V) (key : ℕ) (value : V) : Prop where
  touched : s'.touched = true
  valueAt : ∀ x, s'.map.valueAt x = if x = key then some value else s.map.valueAt x
  keys : ∀ e ∈ s'.map.entries, e.1 = key ∨ e.1 = key + 1 ∨ ∃ w, (e.1, w) ∈ s.map.entries
  kept : ∀ e ∈ s.map.entries, ∃ w, (e.1, w) ∈ s'.map.entries
  upper : (∀ e ∈ s.map.entries, e.1 < key) ∧ s'.upper_bound = key + 1 ∧
      (∃ w, (key + 1, w) ∈ s'.map.entries) ∨
    (∃ e ∈ s.map.entries, key ≤ e.1) ∧ s'.upper_bound = s.upper_bound

variable {s s' : IntervalMap V} {f : ℕ → V} {w : V} {x : ℕ}

section

variable {key : ℕ} {value : V}

/-- The entries that `upsert` adds. -/
theorem keys_insert_insert {m : OrdMap ℕ V} {e : ℕ × V}
    (he : e ∈ ((m.insert (key + 1) w).insert key value).entries) :
    e.1 = key ∨ e.1 = key + 1 ∨ ∃ w, (e.1, w) ∈ m.entries := by
  rcases mem_insert.1 he with he | ⟨-, rfl⟩
  · rcases mem_insert.1 he with he | ⟨-, rfl⟩
    · exact .inr (.inr ⟨e.2, he⟩)
    · exact .inr (.inl rfl)
  · exact .inl rfl

/-- Where the next key is greater there is none. -/
theorem find?_of_lowerBound? {m : OrdMap ℕ V} {e : ℕ × V} (hb : m.lowerBound? x = some e)
    (hne : e.1 ≠ x) : m.find? x = none := by
  refine find?_eq_none_iff.2 fun v hv => hne ?_
  rw [lowerBound?_of_mem hv] at hb
  cases hb
  rfl

/-- From the last key on the function is constant. -/
theorem Holds.tail {k : ℕ} (h : Holds s f) (hk : (k, w) ∈ s.map.entries)
    (hmax : ∀ e ∈ s.map.entries, e.1 ≤ k) (hx : k ≤ x) : f x = w :=
  some.inj ((h.denotes x).symm.trans (valueAt_eq_some hk hx fun e he _ => hmax e he))

variable [DecidableEq V]

/-- `upsert` returns. It leaves the map as it is if the function has the value at the key, and
changes the function there otherwise. -/
theorem Holds.upsert_spec (h : Holds s f) (key : ℕ) (value : V) : ∃ s', s.upsert key value = some s' ∧
    (f key = value ∧ s' = s ∨ f key ≠ value ∧ Upserted s s' key value) := by
  have hx : ∀ x, s.map.valueAt x ≠ none := fun x => by rw [h.denotes x]; exact some_ne_none _
  have hkey := h.denotes key
  unfold upsert
  cases hb : s.map.lowerBound? key with
  | none =>
    have hlt := lowerBound?_eq_none.1 hb
    have hfree : s.map.find? key = none := find?_eq_none_iff.2 fun v hv => lt_irrefl _ (hlt _ hv)
    rw [valueAt, floor?_of_forall_le fun e he => (hlt e he).le] at hkey
    obtain ⟨last, hlast, hv⟩ := map_eq_some_iff.1 hkey
    simp only [hlast, bind_eq_bind, bind_some, hv]
    split_ifs with hval
    · exact ⟨s, rfl, .inl ⟨hval, rfl⟩⟩
    · refine ⟨_, rfl, .inr ⟨hval, rfl, fun x => ?_, fun e he => keys_insert_insert he,
        fun e he => ⟨e.2, ?_⟩, .inl ⟨hlt, rfl, ?_⟩⟩⟩
      · exact valueAt_insert_point (h.denotes key) hfree value (hx x)
      · exact mem_insert.2 (.inl (mem_insert.2 (.inl he)))
      · obtain ⟨w, hw, -⟩ := exists_next (h.denotes key)
        exact ⟨w, mem_insert.2 (.inl hw)⟩
  | some e =>
    obtain ⟨k, v⟩ := e
    obtain ⟨hmem, hle⟩ := lowerBound?_mem hb
    by_cases hk : k = key
    · subst hk
      have hfk : f k = v := some.inj ((h.denotes k).symm.trans (valueAt_of_mem hmem))
      simp only [if_true, hfk]
      split_ifs with hval
      · exact ⟨s, rfl, .inl ⟨hval, rfl⟩⟩
      · refine ⟨_, rfl, .inr ⟨hval, rfl, fun x => ?_, fun e he => ?_, fun e he => ?_,
          .inr ⟨⟨_, hmem, le_rfl⟩, rfl⟩⟩⟩
        · exact valueAt_modify_point hmem value (hx x)
        · rcases mem_modify.1 he with ⟨he, -⟩ | ⟨heq, -⟩
          · rcases mem_insert.1 he with he | ⟨-, rfl⟩
            · exact .inr (.inr ⟨e.2, he⟩)
            · exact .inr (.inl rfl)
          · exact .inl heq
        · have he' := mem_insert.2 (.inl he : e ∈ s.map.entries ∨ _ ∧ e = (k + 1, v))
          by_cases heq : e.1 = k
          · exact ⟨value, mem_modify.2 (.inr ⟨heq, e.2, heq ▸ he', rfl⟩)⟩
          · exact ⟨e.2, mem_modify.2 (.inl ⟨he', heq⟩)⟩
    · have hfree := find?_of_lowerBound? hb hk
      rw [valueAt, ← before?_eq_floor? hfree] at hkey
      obtain ⟨prev, hprev, hv⟩ := map_eq_some_iff.1 hkey
      simp only [if_neg hk, hprev, bind_eq_bind, bind_some, hv]
      split_ifs with hval
      · exact ⟨s, rfl, .inl ⟨hval, rfl⟩⟩
      · refine ⟨_, rfl, .inr ⟨hval, rfl, fun x => ?_, fun e he => keys_insert_insert he,
          fun e he => ⟨e.2, ?_⟩, .inr ⟨⟨_, hmem, hle⟩, rfl⟩⟩⟩
        · exact valueAt_insert_point (h.denotes key) hfree value (hx x)
        · exact mem_insert.2 (.inl (mem_insert.2 (.inl he)))

theorem Holds.updateByValue (h : Holds s f) (oldval newval : V) :
    Holds (s.updateByValue oldval newval) ((Op.updateByValue oldval newval).change f) := by
  refine ⟨fun x => ?_, nofun⟩
  simp only [IntervalMap.updateByValue, valueAt_mapValues, h.denotes x]
  rfl

/-- `consolidate` returns. A map that was touched gets its last key as the upper bound. -/
theorem Holds.consolidate_spec (h : Holds s f) : ∃ s', s.consolidate = some s' ∧ Holds s' f ∧
    (s.touched = false ∧ s' = s ∨ s.touched = true ∧ s'.touched = true ∧
      (∀ e ∈ s'.map.entries, e.1 ≤ s'.upper_bound) ∧ ∃ w, (s'.upper_bound, w) ∈ s'.map.entries) := by
  unfold consolidate
  split_ifs with ht
  · exact ⟨s, rfl, h, .inl ⟨ht, rfl⟩⟩
  · have hden : ∀ x, s.map.merge.valueAt x = some (f x) := fun x => by rw [valueAt_merge, h.denotes]
    obtain ⟨k, hmem, -⟩ := exists_floor (hden 0)
    obtain ⟨last, hlast⟩ : ∃ last, s.map.merge.last? = some last :=
      ⟨_, getLast?_eq_some_getLast (ne_nil_of_mem hmem)⟩
    obtain ⟨hlastMem, hmax⟩ := last?_mem hlast
    rw [Bool.not_eq_false] at ht
    refine ⟨{ s with map := s.map.merge, upper_bound := last.1 }, by simp [hlast],
      ⟨hden, fun hf => ?_⟩, .inr ⟨ht, ht, hmax, last.2, hlastMem⟩⟩
    exact absurd (ht.symm.trans hf) (by decide)

theorem updateAndConsolidate_eq (s : IntervalMap V) (oldval newval : V) :
    (s.updateAndConsolidate oldval newval).map Prod.fst =
      (s.updateByValue oldval newval).consolidate := by
  show Option.map Prod.fst ((s.updateByValue oldval newval).consolidate.bind fun s' =>
    some (s', s.map.entries.countP fun e => e.2 = oldval)) = _
  cases (s.updateByValue oldval newval).consolidate <;> rfl

/-- **Every operation returns and changes the stored function as it means.** -/
theorem Holds.step (h : Holds s f) (op : Op V) : ∃ s', s.step op = some s' ∧ Holds s' (op.change f) := by
  cases op with
  | upsert key value =>
    obtain ⟨s', hs', ⟨hval, rfl⟩ | ⟨-, hup⟩⟩ := h.upsert_spec key value
    · refine ⟨s', hs', ?_⟩
      rwa [Op.change, ← hval, update_eq_self]
    · refine ⟨s', hs', fun x => ?_, fun ht => absurd (hup.touched.symm.trans ht) (by decide)⟩
      rw [hup.valueAt, h.denotes, Op.change, update_apply]
      split_ifs <;> rfl
  | updateByValue oldval newval => exact ⟨_, rfl, h.updateByValue oldval newval⟩
  | updateAndConsolidate oldval newval =>
    obtain ⟨s', hs', hh, -⟩ := (h.updateByValue oldval newval).consolidate_spec
    exact ⟨s', (updateAndConsolidate_eq s oldval newval).trans hs', hh⟩
  | consolidate =>
    obtain ⟨s', hs', hh, -⟩ := h.consolidate_spec
    exact ⟨s', hs', hh⟩
  | reset value => exact ⟨_, rfl, valueAt_single value, h.untouched⟩

end

/-! ## The cached fields -/

/-- The function is zero from the upper bound on, and the upper bound is the last key of the map or
the one behind it. -/
structure Cached [Zero V] (s : IntervalMap V) (f : ℕ → V) : Prop where
  zero : ∀ x, s.upper_bound ≤ x → f x = 0
  keys : ∀ e ∈ s.map.entries, e.1 ≤ s.upper_bound
  near : ∃ e ∈ s.map.entries, s.upper_bound ≤ e.1 + 1

/-- The operations after which lookups are still right: no new value is stored at an upper bound
that is a key of the map, the value zero is not replaced, and a map is reset to zero only, and not
while its upper bound is further up. -/
def Safe [Zero V] (s : IntervalMap V) : Op V → Prop
  | .upsert key value => key = s.upper_bound → s.map.find? key ≠ none → value = 0
  | .updateByValue oldval newval => oldval = 0 → newval = 0
  | .updateAndConsolidate oldval newval => oldval = 0 → newval = 0
  | .consolidate => True
  | .reset value => value = 0 ∧ (s.touched = true → s.upper_bound ≤ 1)

/-- A lookup returns the value of the function at every key. -/
def Correct [Zero V] (s : IntervalMap V) (f : ℕ → V) : Prop := ∀ x, s.getValue x = some (f x)

section

variable [Zero V] {op : Op V}

theorem cached_default : Cached (default : IntervalMap V) fun _ => 0 :=
  ⟨fun _ _ => rfl, fun e he => by obtain rfl := mem_singleton.1 he; exact le_rfl,
    (0, 0), mem_cons_self, Nat.zero_le _⟩

theorem Cached.correct (hc : Cached s f) (h : Holds s f) : Correct s f := by
  intro x
  unfold getValue
  split_ifs with hx
  · rcases hx with ht | hle
    · rw [hc.zero x (h.untouched ht ▸ Nat.zero_le x)]
    · rw [hc.zero x hle]
  · rw [not_or, not_le] at hx
    obtain ⟨e, he, hnear⟩ := hc.near
    cases hb : s.map.lowerBound? x with
    | none =>
      have := lowerBound?_eq_none.1 hb e he
      omega
    | some e =>
      obtain ⟨k, v⟩ := e
      by_cases hk : k = x
      · subst hk
        have := (valueAt_of_mem (lowerBound?_mem hb).1).symm.trans (h.denotes k)
        simpa using this
      · simp only [if_neg hk, before?_eq_floor? (find?_of_lowerBound? hb hk)]
        exact h.denotes x

/-- A lookup from the upper bound on returns zero. -/
theorem getValue_of_le (hx : s.upper_bound ≤ x) : s.getValue x = some 0 :=
  if_pos (.inr hx)

variable [DecidableEq V]

theorem Cached.updateByValue (hc : Cached s f) {oldval newval : V} (h0 : oldval = 0 → newval = 0) :
    Cached (s.updateByValue oldval newval) ((Op.updateByValue oldval newval).change f) := by
  obtain ⟨e, he, hnear⟩ := hc.near
  refine ⟨fun x hx => ?_, fun e' he' => ?_, ⟨_, mem_map_of_mem he, hnear⟩⟩
  · have hfx : f x = 0 := hc.zero x hx
    simp only [Op.change, hfx]
    split_ifs with hold
    · exact h0 hold.symm
    · rfl
  · obtain ⟨e₀, he₀, rfl⟩ := mem_map.1 he'
    exact hc.keys e₀ he₀

theorem Cached.consolidate (h : Holds s f) (hc : Cached s f) (hs : s.consolidate = some s') :
    Cached s' f := by
  obtain ⟨s'', hs'', hh, hcase⟩ := h.consolidate_spec
  rw [hs] at hs''
  cases hs''
  rcases hcase with ⟨-, rfl⟩ | ⟨-, -, hmax, w, hw⟩
  · exact hc
  · refine ⟨fun x hx => ?_, hmax, ⟨_, hw, Nat.le_succ _⟩⟩
    rw [hh.tail hw hmax hx, ← hh.tail hw hmax (le_max_left _ s.upper_bound)]
    exact hc.zero _ (le_max_right _ _)

omit [DecidableEq V] in
theorem Upserted.cached {key : ℕ} {value : V} (hup : Upserted s s' key value) (hc : Cached s f)
    (hne : f key ≠ value) (hsafe : Safe s (.upsert key value)) : Cached s' (update f key value) := by
  obtain ⟨e₀, he₀, hnear⟩ := hc.near
  rcases hup.upper with ⟨hlt, hu, w, hw⟩ | ⟨⟨e₁, he₁, hle⟩, hu⟩
  · have h₀ := hlt e₀ he₀
    refine ⟨fun x hx => ?_, fun e he => ?_, ⟨_, hw, by rw [hu]; exact Nat.le_succ _⟩⟩
    · rw [hu] at hx
      rw [update_of_ne (by omega)]
      exact hc.zero x (by omega)
    · rw [hu]
      rcases hup.keys e he with hk | hk | ⟨v, hv⟩
      · omega
      · omega
      · exact ((hlt _ hv).trans (Nat.lt_succ_self key)).le
  · -- the key is below the upper bound: it is not a key of the map where it is equal to it
    have hkey : key < s.upper_bound := by
      refine lt_of_le_of_ne (hle.trans (hc.keys e₁ he₁)) fun heq => hne ?_
      have hmem : s.map.find? key ≠ none := by
        have hk : e₁.1 = key := le_antisymm (heq ▸ hc.keys e₁ he₁) hle
        rw [mem_entries_iff.1 (show (key, e₁.2) ∈ s.map.entries from hk ▸ he₁)]
        exact some_ne_none _
      rw [hsafe heq hmem, hc.zero key heq.ge]
    obtain ⟨w, hw⟩ := hup.kept e₀ he₀
    refine ⟨fun x hx => ?_, fun e he => ?_, ⟨_, hw, by rwa [hu]⟩⟩
    · rw [hu] at hx
      rw [update_of_ne (by omega)]
      exact hc.zero x hx
    · rw [hu]
      rcases hup.keys e he with hk | hk | ⟨v, hv⟩
      · omega
      · omega
      · exact hc.keys (e.1, v) hv

/-- Safe operations keep the cached fields up to date. -/
theorem Cached.step (hc : Cached s f) (h : Holds s f) (hsafe : s.Safe op)
    (hs : s.step op = some s') : Cached s' (op.change f) := by
  cases op with
  | upsert key value =>
    obtain ⟨s'', hs'', hcase⟩ := h.upsert_spec key value
    rw [show s.upsert key value = some s' from hs] at hs''
    cases hs''
    rcases hcase with ⟨hval, rfl⟩ | ⟨hne, hup⟩
    · rwa [Op.change, ← hval, update_eq_self]
    · exact hup.cached hc hne hsafe
  | updateByValue oldval newval =>
    cases hs
    exact hc.updateByValue hsafe
  | updateAndConsolidate oldval newval =>
    rw [IntervalMap.step, updateAndConsolidate_eq] at hs
    exact (hc.updateByValue hsafe).consolidate (h.updateByValue oldval newval) hs
  | consolidate => exact hc.consolidate h hs
  | reset value =>
    cases hs
    obtain ⟨rfl, hu⟩ := hsafe
    refine ⟨fun _ _ => rfl, fun e he => ?_, ⟨(0, 0), mem_cons_self, ?_⟩⟩
    · obtain rfl := mem_singleton.1 he
      exact Nat.zero_le _
    · cases ht : s.touched with
      | true => exact hu ht
      | false => exact (h.untouched ht).trans_le (Nat.zero_le _)

/-- After any other operation a lookup is wrong. -/
theorem Cached.not_correct (hc : Cached s f) (h : Holds s f) (hbad : ¬s.Safe op)
    (hs : s.step op = some s') : ¬Correct s' (op.change f) := by
  intro hcorrect
  -- a lookup from the upper bound on returns zero
  have hzero : ∀ x, s'.upper_bound ≤ x → op.change f x = 0 := fun x hx =>
    some.inj ((hcorrect x).symm.trans (getValue_of_le hx))
  cases op <;> simp only [Safe, not_forall] at hbad
  case upsert key value =>
    obtain ⟨heq, hmem, hval⟩ := hbad
    obtain ⟨v, hv⟩ := ne_none_iff_exists'.1 hmem
    obtain ⟨s'', hs'', hcase⟩ := h.upsert_spec key value
    rw [show s.upsert key value = some s' from hs] at hs''
    cases hs''
    rcases hcase with ⟨hfk, -⟩ | ⟨-, hup⟩
    · exact hval (hfk.symm.trans (hc.zero key heq.ge))
    · rcases hup.upper with ⟨hlt, -⟩ | ⟨-, hu⟩
      · exact lt_irrefl _ (hlt _ (OrdMap.mem_entries_iff.2 hv))
      · have := hzero key (hu.trans heq.symm).le
        rw [Op.change, update_self] at this
        exact hval this
  case updateByValue oldval newval =>
    cases hs
    obtain ⟨rfl, hnew⟩ := hbad
    have := hzero s.upper_bound le_rfl
    simp only [Op.change, hc.zero _ le_rfl, if_true] at this
    exact hnew this
  case updateAndConsolidate oldval newval =>
    obtain ⟨rfl, hnew⟩ := hbad
    have := hzero (max s'.upper_bound s.upper_bound) (le_max_left _ _)
    simp only [Op.change, hc.zero _ (le_max_right _ _), if_true] at this
    exact hnew this
  case consolidate => exact hbad trivial
  case reset value =>
    cases hs
    have hval : value = 0 := hzero s.upper_bound le_rfl
    simp only [hval, true_and, not_forall, not_le] at hbad
    obtain ⟨ht, hu⟩ := hbad
    -- the second key is below the upper bound, and no entry is there
    have hend := hcorrect 1
    simp [getValue, reset, ht, not_le.2 hu, OrdMap.lowerBound?, OrdMap.insert, OrdMap.empty,
      OrdMap.insertEntry] at hend

end

/-! ## Runs -/

section

variable [DecidableEq V] [Zero V]

/-- Lookups are right after every initial part of the sequence. -/
def AlwaysCorrect (ops : List (Op V)) : Prop :=
  ∀ pre, pre <+: ops → ∃ s, exec step default pre = some s ∧ Correct s (meaning pre)

/-- Every operation of the sequence is safe in the state before it. -/
def AllSafe (ops : List (Op V)) : Prop :=
  ∀ pre op, pre ++ [op] <+: ops → ∀ s, exec step default pre = some s → s.Safe op

theorem meaning_snoc (ops : List (Op V)) (op : Op V) : meaning (ops ++ [op]) = op.change (meaning ops) := by
  simp [meaning]

/-- Every sequence of operations returns, and the map stores the function it means. -/
theorem exists_holds (ops : List (Op V)) : ∃ s, exec step default ops = some s ∧ Holds s (meaning ops) := by
  induction ops using reverseRecOn with
  | nil => exact ⟨_, rfl, holds_default⟩
  | append_singleton ops op ih =>
    obtain ⟨s, hs, h⟩ := ih
    obtain ⟨s', hs', h'⟩ := h.step op
    refine ⟨s', ?_, ?_⟩
    · rwa [exec_snoc, hs]
    · rwa [meaning_snoc]

theorem AllSafe.mono {pre ops : List (Op V)} (h : AllSafe ops) (hpre : pre <+: ops) :
    AllSafe pre := fun p op hp => h p op (hp.trans hpre)

theorem AllSafe.cached {ops : List (Op V)} (hsafe : AllSafe ops) {s : IntervalMap V}
    (hs : exec step default ops = some s) : Cached s (meaning ops) := by
  induction ops using reverseRecOn generalizing s with
  | nil =>
    cases hs
    exact cached_default
  | append_singleton ops op ih =>
    obtain ⟨s₁, hs₁, h₁⟩ := exists_holds ops
    rw [exec_snoc, hs₁] at hs
    have hc := ih (hsafe.mono (prefix_append _ _)) hs₁
    rw [meaning_snoc]
    exact hc.step h₁ (hsafe ops op prefix_rfl s₁ hs₁) hs

/-- **When lookups are right.** The lookups after every initial part of a sequence of operations
return the value of the function that the operations mean, exactly if all operations are safe. -/
theorem alwaysCorrect_iff (ops : List (Op V)) : AlwaysCorrect ops ↔ AllSafe ops := by
  constructor
  · intro hcorrect
    induction ops using reverseRecOn with
    | nil =>
      intro pre op hpre
      cases pre <;> cases prefix_nil.1 hpre
    | append_singleton ops op ih =>
      have hall := ih fun pre hpre => hcorrect pre (hpre.trans (prefix_append _ _))
      intro pre op' hpre s hs
      rcases prefix_concat_iff.1 hpre with heq | hpre
      · -- the last operation: an unsafe one gives a wrong lookup
        obtain ⟨rfl, hop⟩ := append_inj' heq rfl
        cases hop
        by_contra hbad
        obtain ⟨s', hs', hc'⟩ := hcorrect _ prefix_rfl
        obtain ⟨s₁, hs₁, h₁⟩ := exists_holds pre
        rw [hs] at hs₁
        cases hs₁
        rw [exec_snoc, hs] at hs'
        rw [meaning_snoc] at hc'
        exact (hall.cached hs).not_correct h₁ hbad hs' hc'
      · exact hall pre op' hpre s hs
  · intro hsafe pre hpre
    obtain ⟨s, hs, h⟩ := exists_holds pre
    exact ⟨s, hs, ((hsafe.mono hpre).cached hs).correct h⟩

/-- The first key gets a value, and a lookup does not find it. -/
theorem upsert_not_found : ¬AlwaysCorrect [Op.upsert 0 (5 : ℕ)] := by
  intro h
  obtain ⟨s, hs, hc⟩ := h _ prefix_rfl
  cases hs
  exact absurd (hc 0) (by decide)

end

end IntervalMap

end Proteus.Oltp
