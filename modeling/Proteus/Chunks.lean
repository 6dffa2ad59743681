import Mathlib.Data.Nat.ModEq
import Proteus.Buffer

/-!
# Elements in a list of chunks

Elements of `unit` cells stand one behind the other in chunks of memory. The place of an element is found
by walking over the chunks with the byte offset that remains, in 64-bit arithmetic: a chunk that ends
inside of an element makes the offset negative, and then it seems to fit in a later chunk, at an address
outside of it.

* `place`: the walk. A place that is found stays when chunks are added (`place_append`).
* `place_disjoint`: elements with places inside of chunks do not overlap.
* `read_write_self`, `read_write_of_ne`: what is read after an element was written.
-/

namespace Proteus.Chunks

open Buffer List Nat

variable {β : Type*}

/-! ## Places -/

inductive Place
  | inside (chunk off : ℕ)
  | outside
  | full
deriving DecidableEq

/-- The place one chunk further. -/
def Place.next : Place → Place
  | .inside c o => .inside (c + 1) o
  | .outside => .outside
  | .full => .full

/-- Walk over chunks of the given sizes. -/
def place (unit : ℕ) : List ℕ → ℕ → Place
  | [], _ => .full
  | size :: sizes, off =>
    if (off + unit) % 2 ^ 64 ≤ size then if off + unit ≤ size then .inside 0 off else .outside
    else (place unit sizes ((off + (2 ^ 64 - size % 2 ^ 64)) % 2 ^ 64)).next

/-- The place of an element. -/
def placeOf (unit : ℕ) (sizes : List ℕ) (i : ℕ) : Place := place unit sizes (i * unit % 2 ^ 64)

theorem Place.next_eq_inside {p : Place} {c o : ℕ} (h : p.next = .inside c o) :
    ∃ c', c = c' + 1 ∧ p = .inside c' o := by
  cases p with
  | inside c' o' =>
    obtain ⟨rfl, rfl⟩ := Place.inside.inj h
    exact ⟨c', rfl, rfl⟩
  | outside => cases h
  | full => cases h

theorem Place.next_ne_full {p : Place} (h : p.next ≠ .full) : p ≠ .full := by
  rintro rfl
  exact h rfl

variable {unit off : ℕ}

section

variable {sizes : List ℕ}

theorem place_append (h : place unit sizes off ≠ .full) (more : List ℕ) :
    place unit (sizes ++ more) off = place unit sizes off := by
  induction sizes generalizing off with
  | nil => exact absurd rfl h
  | cons size sizes ih =>
    rw [cons_append, place, place]
    split_ifs with hfit
    · rfl
    · rfl
    · rw [place, if_neg hfit] at h
      rw [ih (Place.next_ne_full h)]

/-- The offset of a place counts from the beginning of its chunk, modulo `2 ^ 64`. -/
theorem place_inside {c o : ℕ} (hoff : off < 2 ^ 64) (h : place unit sizes off = .inside c o) :
    (∃ size, sizes[c]? = some size ∧ o + unit ≤ size) ∧ o < 2 ^ 64 ∧
      o + (sizes.take c).sum ≡ off [MOD 2 ^ 64] := by
  induction sizes generalizing off c with
  | nil => cases h
  | cons size sizes ih =>
    rw [place] at h
    split_ifs at h with hfit hin
    · obtain ⟨rfl, rfl⟩ := Place.inside.inj h
      exact ⟨⟨size, rfl, hin⟩, hoff, by rw [take_zero, sum_nil, add_zero]⟩
    · obtain ⟨c, rfl, hc⟩ := Place.next_eq_inside h
      obtain ⟨hsize, ho, hmod⟩ := ih (Nat.mod_lt _ (Nat.two_pow_pos 64)) hc
      refine ⟨by simpa using hsize, ho, ?_⟩
      rw [take_succ_cons, sum_cons]
      simp only [Nat.ModEq] at hmod ⊢
      omega

/-- The elements of the first chunk. -/
theorem placeOf_first {n i : ℕ} (hunit : 0 < unit) (hlt : n * unit < 2 ^ 64) (hi : i < n) :
    placeOf unit (n * unit :: sizes) i = .inside 0 (i * unit) := by
  have hle : i * unit + unit ≤ n * unit := by
    rw [← succ_mul]
    exact mul_le_mul_right _ hi
  rw [placeOf, mod_eq_of_lt (by omega), place, mod_eq_of_lt (by omega), if_pos hle, if_pos hle]

/-- Two elements do not overlap. -/
theorem place_disjoint {i j c o o' : ℕ} (hij : i ≠ j) (hi : (i + 1) * unit ≤ 2 ^ 64)
    (hj : (j + 1) * unit ≤ 2 ^ 64) (h : placeOf unit sizes i = .inside c o)
    (h' : placeOf unit sizes j = .inside c o') : o + unit ≤ o' ∨ o' + unit ≤ o := by
  wlog hlt : i < j generalizing i j o o'
  · exact (this hij.symm hj hi h' h (by omega)).symm
  obtain ⟨-, ho, hmod⟩ := place_inside (Nat.mod_lt _ (Nat.two_pow_pos 64)) h
  obtain ⟨-, ho', hmod'⟩ := place_inside (Nat.mod_lt _ (Nat.two_pow_pos 64)) h'
  obtain ⟨d, rfl⟩ : ∃ d, j = i + (d + 1) := ⟨j - i - 1, by omega⟩
  have hdist : (i + (d + 1)) * unit = i * unit + (d * unit + unit) := by
    rw [add_mul, add_mul, one_mul]
  have hbound : (i + (d + 1) + 1) * unit = i * unit + (d * unit + unit) + unit := by
    rw [add_mul, hdist, one_mul]
  rw [hdist] at hmod'
  rw [hbound] at hj
  simp only [Nat.ModEq] at hmod hmod'
  omega

end

/-! ## Reading and writing -/

variable (data : List (List β))

/-- The sizes of chunks. -/
def sizes : List ℕ := data.map List.length

/-- An element as the walk finds it. -/
def readElem (unit : ℕ) (data : List (List β)) (i : ℕ) : Option (List β) :=
  match placeOf unit (sizes data) i with
  | .inside c o => some (readAt (data.getD c []) o unit)
  | .outside | .full => none

/-- Copy an element to a place. -/
def write (c o : ℕ) (xs : List β) : List (List β) :=
  data.modify c fun chunk => writeAt chunk o xs

section

variable {data : List (List β)} {xs : List β} {i j c o : ℕ}

section

variable (h : placeOf unit (sizes data) i = .inside c o)
include h

theorem exists_chunk : ∃ chunk, data[c]? = some chunk ∧ o + unit ≤ chunk.length := by
  obtain ⟨⟨size, hsize, hle⟩, -⟩ := place_inside (Nat.mod_lt _ (Nat.two_pow_pos 64)) h
  rw [sizes, getElem?_map, Option.map_eq_some_iff] at hsize
  obtain ⟨chunk, hchunk, rfl⟩ := hsize
  exact ⟨chunk, hchunk, hle⟩

theorem sizes_write (hxs : xs.length = unit) : sizes (write data c o xs) = sizes data := by
  obtain ⟨chunk, hchunk, hle⟩ := exists_chunk h
  apply ext_getElem?
  intro k
  rw [sizes, sizes, write, getElem?_map, getElem?_map, getElem?_modify]
  by_cases hk : c = k
  · subst hk
    rw [hchunk]
    simp [length_writeAt (hxs ▸ hle)]
  · simp [hk]

theorem read_write_self (hxs : xs.length = unit) : readElem unit (write data c o xs) i = some xs := by
  obtain ⟨chunk, hchunk, hle⟩ := exists_chunk h
  have hread : (write data c o xs).getD c [] = writeAt chunk o xs := by
    rw [getD_eq_getElem?_getD, write, getElem?_modify, hchunk]
    simp
  subst hxs
  simp only [readElem, sizes_write h rfl, h, hread, readAt_writeAt_self hle]

end

theorem read_write_of_ne (hij : i ≠ j) (hi : (i + 1) * unit ≤ 2 ^ 64) (hj : (j + 1) * unit ≤ 2 ^ 64)
    (h : placeOf unit (sizes data) i = .inside c o) (hxs : xs.length = unit) :
    readElem unit (write data c o xs) j = readElem unit data j := by
  obtain ⟨chunk, hchunk, hle⟩ := exists_chunk h
  rw [readElem, readElem, sizes_write h hxs]
  cases hplace : placeOf unit (sizes data) j with
  | outside => rfl
  | full => rfl
  | inside c' o' =>
    simp only [Option.some.injEq]
    rw [getD_eq_getElem?_getD, getD_eq_getElem?_getD, write, getElem?_modify]
    by_cases hc : c = c'
    · subst hc
      have hd := place_disjoint hij hi hj h hplace
      rw [hchunk]
      simp only [if_true, Option.map_eq_map, Option.map_some, Option.getD_some]
      exact readAt_writeAt_of_disjoint (hxs ▸ hle) (hxs ▸ hd)
    · simp [hc]

/-- An element keeps its place and its value when chunks are added. -/
theorem read_append (h : placeOf unit (sizes data) i = .inside c o) (more : List (List β)) :
    readElem unit (data ++ more) i = readElem unit data i := by
  obtain ⟨chunk, hchunk, -⟩ := exists_chunk h
  have hlt : c < data.length := (List.getElem?_eq_some_iff.1 hchunk).1
  have hplace : placeOf unit (sizes (data ++ more)) i = .inside c o := by
    rw [sizes, map_append]
    exact (place_append (fun hfull => by cases h.symm.trans hfull) _).trans h
  simp only [readElem, hplace, h]
  rw [getD_eq_getElem?_getD, getD_eq_getElem?_getD, getElem?_append_left hlt]

end

end Proteus.Chunks
