import Proteus.Machine
import Proteus.OrdMap

/-!
# Growing vectors, pointers to their elements, and maps of such pointers

A vector keeps its elements in one block of memory. Appending to a full vector moves them to a new block,
and the pointers to the old one dangle; removing elements moves those behind them forward.

* `Vec.push` and `Vec.removeIf` are the operations, `Vec.deref` reads a pointer.
* `Indexes key m v`: every pointer of the map `m` is to an element of `v` that has the pointer's key;
  `Covers key m v`: every key of an element is in `m`.
* `Indexes.push` and `Indexes.removeLast` keep such a map: the vector has room or is empty, and only
  the last element is removed. `not_indexes_push` and `not_indexes_remove` say that nothing else does.
-/

namespace Proteus

open List

variable {α K : Type*}

/-! ## Vectors -/

/-- The capacity a full vector grows to. -/
structure Growth where
  grow : ℕ → ℕ
  lt_grow : ∀ n, n < grow n

/-- Blocks are numbered in the order in which the vector has them. -/
structure Vec (α : Type*) where
  block : ℕ
  capacity : ℕ
  elems : List α
  length_le : elems.length ≤ capacity

structure Ptr where
  block : ℕ
  index : ℕ
  deriving DecidableEq, Repr

variable {g : Growth} {v v' : Vec α}

namespace Vec

def empty : Vec α := ⟨0, 0, [], le_rfl⟩

/-- What a pointer refers to; `none` if it dangles. -/
def deref (v : Vec α) (p : Ptr) : Option α := if p.block = v.block then v.elems[p.index]? else none

/-- `emplace_back` -/
def push (g : Growth) (v : Vec α) (x : α) : Vec α :=
  if h : v.elems.length < v.capacity then
    { v with elems := v.elems ++ [x], length_le := by rw [List.length_append]; exact h }
  else
    ⟨v.block + 1, g.grow v.capacity, v.elems ++ [x], by
      rw [List.length_append]
      exact Nat.lt_of_le_of_lt v.length_le (g.lt_grow _)⟩

/-- `&back()` -/
def back (v : Vec α) : Ptr := ⟨v.block, v.elems.length - 1⟩

/-- `erase(remove_if(begin(), end(), p), end())` -/
def removeIf (v : Vec α) (p : α → Bool) : Vec α :=
  { v with
    elems := v.elems.filter fun x => !p x
    length_le := (List.length_filter_le _ _).trans v.length_le }

variable {p : Ptr} {x y : α}

theorem deref_eq_some : v.deref p = some x ↔ p.block = v.block ∧ v.elems[p.index]? = some x := by
  rw [deref, Option.ite_none_right_eq_some]

theorem mem_of_deref (h : v.deref p = some x) : x ∈ v.elems :=
  mem_of_getElem? (deref_eq_some.mp h).2

@[simp] theorem push_elems (g : Growth) (v : Vec α) (x : α) : (v.push g x).elems = v.elems ++ [x] := by
  unfold push
  split <;> rfl

theorem push_block_of_lt (h : v.elems.length < v.capacity) : (v.push g x).block = v.block := by
  rw [push, dif_pos h]

theorem push_block_of_full (h : ¬v.elems.length < v.capacity) : (v.push g x).block = v.block + 1 := by
  rw [push, dif_neg h]

theorem push_capacity (g : Growth) (v : Vec α) (x : α) :
    (v.push g x).capacity = if v.elems.length < v.capacity then v.capacity else g.grow v.capacity := by
  unfold push
  split <;> rfl

theorem deref_back_push (g : Growth) (v : Vec α) (x : α) :
    (v.push g x).deref (v.push g x).back = some x := by
  rw [deref_eq_some]
  exact ⟨rfl, by simp [back]⟩

/-- With room for one more, the pointers stay. -/
theorem deref_push (h : v.elems.length < v.capacity) (hp : v.deref p = some y) :
    (v.push g x).deref p = some y := by
  obtain ⟨hblock, hget⟩ := deref_eq_some.mp hp
  obtain ⟨hlt, -⟩ := List.getElem?_eq_some_iff.mp hget
  rw [deref_eq_some, push_block_of_lt h, push_elems, getElem?_append_left hlt]
  exact ⟨hblock, hget⟩

/-- Without, they dangle. -/
theorem deref_push_of_full (h : ¬v.elems.length < v.capacity) (hp : v.deref p = some y) :
    (v.push g x).deref p = none := by
  obtain ⟨hblock, -⟩ := deref_eq_some.mp hp
  rw [deref, push_block_of_full h, if_neg (by omega)]

end Vec

/-! ## Maps of pointers -/

variable {k : K}

section

variable [LinearOrder K] {key : α → K} {m : OrdMap K Ptr} {rest : List α} {x : α}

/-- Every entry of the map refers to an element that has the entry's key. -/
def Indexes (key : α → K) (m : OrdMap K Ptr) (v : Vec α) : Prop :=
  ∀ k p, m.find? k = some p → ∃ x, v.deref p = some x ∧ key x = k

/-- The key of every element has an entry. -/
def Covers (key : α → K) (m : OrdMap K Ptr) (v : Vec α) : Prop :=
  ∀ x ∈ v.elems, ∃ p, m.find? (key x) = some p

/-- Nothing points to an empty vector. -/
theorem Indexes.elems_ne_nil (h : Indexes key m v) {p : Ptr} (hp : m.find? k = some p) :
    v.elems ≠ [] := by
  obtain ⟨x, hx, -⟩ := h k p hp
  exact ne_nil_of_mem (Vec.mem_of_deref hx)

theorem Indexes.push (h : Indexes key m v) (hroom : v.elems = [] ∨ v.elems.length < v.capacity)
    (g : Growth) (x : α) : Indexes key (m.insert (key x) (v.push g x).back) (v.push g x) := by
  intro k p hp
  rcases OrdMap.find?_insert_eq_some.mp hp with hold | ⟨-, rfl, rfl⟩
  · obtain ⟨y, hy, hkey⟩ := h k p hold
    have hlt := hroom.resolve_left (h.elems_ne_nil hold)
    exact ⟨y, Vec.deref_push hlt hy, hkey⟩
  · exact ⟨x, Vec.deref_back_push g v x, rfl⟩

theorem Covers.push (h : Covers key m v) (p : Ptr) (g : Growth) (x : α) :
    Covers key (m.insert (key x) p) (v.push g x) := by
  intro y hy
  rw [Vec.push_elems, mem_append, mem_singleton] at hy
  rw [OrdMap.exists_find?_insert]
  rcases hy with hy | rfl
  · exact .inl (h y hy)
  · exact .inr rfl

/-- Appending to a full vector that is not empty leaves dangling pointers. -/
theorem not_indexes_push (h : Indexes key m v) (hm : Covers key m v) (hv : v.elems ≠ [])
    (hfull : ¬v.elems.length < v.capacity) (k : K) (p : Ptr) :
    ¬Indexes key (m.insert k p) (v.push g x) := by
  intro h'
  obtain ⟨y, hy⟩ := exists_mem_of_ne_nil _ hv
  obtain ⟨q, hq⟩ := hm y hy
  obtain ⟨z, hz, -⟩ := h _ _ hq
  obtain ⟨z', hz', -⟩ := h' _ q (OrdMap.find?_insert_eq_some.mpr (.inl hq))
  rw [Vec.deref_push_of_full hfull hz] at hz'
  cases hz'

/-- Pointers to other elements survive the removal of the last one. -/
theorem Vec.deref_removeLast (hv : v.elems = rest ++ [x]) (hv' : v'.elems = rest)
    (hblock : v'.block = v.block) {p : Ptr} {y : α} (hp : v.deref p = some y) (hne : y ≠ x) :
    v'.deref p = some y := by
  obtain ⟨hpb, hget⟩ := deref_eq_some.mp hp
  rw [deref_eq_some, hblock, hv']
  refine ⟨hpb, ?_⟩
  rw [hv] at hget
  exact (getElem?_concat_cases hget).resolve_right fun h => hne h.2

theorem Indexes.removeLast (h : Indexes key m v) (hv : v.elems = rest ++ [x]) (hv' : v'.elems = rest)
    (hblock : v'.block = v.block) : Indexes key (m.erase (key x)) v' := by
  intro k p hp
  obtain ⟨hk, hp⟩ := OrdMap.find?_erase_eq_some.mp hp
  obtain ⟨y, hy, rfl⟩ := h k p hp
  exact ⟨y, Vec.deref_removeLast hv hv' hblock hy (fun hyx => hk (congrArg key hyx)), rfl⟩

theorem Covers.erase (h : Covers key m v) (hv' : ∀ y ∈ v'.elems, y ∈ v.elems ∧ key y ≠ k) :
    Covers key (m.erase k) v' := by
  intro y hy
  obtain ⟨hmem, hk⟩ := hv' y hy
  obtain ⟨p, hp⟩ := h y hmem
  exact ⟨p, OrdMap.find?_erase_eq_some.mpr ⟨hk, hp⟩⟩

/-- The removal of an element before the last one leaves a pointer behind the end. -/
theorem not_indexes_remove (h : Indexes key m v) (hm : Covers key m v) (hnodup : (v.elems.map key).Nodup)
    (hv : v.elems = rest ++ [x]) (hlen : v'.elems.length ≤ rest.length) (hk : key x ≠ k) :
    ¬Indexes key (m.erase k) v' := by
  intro h'
  have hx : v.elems[rest.length]? = some x := by rw [hv, getElem?_concat_length]
  obtain ⟨p, hp⟩ := hm x (mem_of_getElem? hx)
  obtain ⟨y, hy, hkey⟩ := h _ _ hp
  obtain ⟨-, hget⟩ := Vec.deref_eq_some.mp hy
  -- keys are distinct, so the pointer is to the last element
  have hindex : p.index = rest.length := by
    have hlt : p.index < (v.elems.map key).length := by
      rw [length_map]
      exact (List.getElem?_eq_some_iff.mp hget).1
    refine (getElem?_inj hlt hnodup).mp ?_
    rw [getElem?_map, getElem?_map, hget, hx, Option.map_some, Option.map_some, hkey]
  obtain ⟨z, hz, -⟩ := h' _ p (OrdMap.find?_erase_eq_some.mpr ⟨hk, hp⟩)
  obtain ⟨-, hget'⟩ := Vec.deref_eq_some.mp hz
  rw [getElem?_eq_none (by omega)] at hget'
  cases hget'

end

end Proteus
