import Mathlib.Algebra.Order.BigOperators.Group.List

/-!
# Buffers of consecutive cells

`readAt` and `writeAt` are `memcpy` out of and into a buffer. A record is laid out as cells one
behind the other: `writeCells` copies the cells of a record into a buffer, and `readAt_flatten`
reads one of them back. `readAt_writeAt_self` and `readAt_writeAt_of_disjoint` are for single copies.
-/

namespace Proteus.Buffer

open List

variable {β : Type*} (buf : List β)

/-- Copy `len` elements out of `buf`, starting at `off`. -/
def readAt (off len : ℕ) : List β := (buf.drop off).take len

/-- Copy `xs` into `buf`, starting at `off`. -/
def writeAt (off : ℕ) (xs : List β) : List β :=
  buf.take off ++ xs ++ buf.drop (off + xs.length)

/-- Copy cells into `buf` one behind the other, starting at `off`. -/
def writeCells (buf : List β) : ℕ → List (List β) → List β
  | _, [] => buf
  | off, c :: cs => writeCells (writeAt buf off c) (off + c.length) cs

variable {buf : List β} {off : ℕ}

theorem writeCells_eq (cs : List (List β)) (h : off + cs.flatten.length ≤ buf.length) :
    writeCells buf off cs = buf.take off ++ cs.flatten ++ buf.drop (off + cs.flatten.length) := by
  induction cs generalizing buf off with
  | nil => simp [writeCells]
  | cons c cs ih =>
    simp only [flatten_cons, length_append] at h ⊢
    have htake : (buf.take off).length = off := by simp; omega
    have hlen : (writeAt buf off c).length = buf.length := by
      simp only [writeAt, length_append, htake, length_drop]
      omega
    rw [writeCells, ih (by omega)]
    -- What is left of the buffer behind the first cell.
    have hpre : (writeAt buf off c).take (off + c.length) = buf.take off ++ c := by
      rw [writeAt, take_append_of_le_length (by simp [htake]), take_of_length_le]
      simp [htake]
    have hpost : (writeAt buf off c).drop (off + c.length + cs.flatten.length) =
        buf.drop (off + (c.length + cs.flatten.length)) := by
      have hsplit : (buf.take off ++ c).length = off + c.length := by simp [htake]
      rw [writeAt, drop_append, hsplit, drop_of_length_le (by omega), nil_append, drop_drop]
      congr 1
      omega
    simp only [hpre, hpost, append_assoc]

variable {xs : List β} {cs : List (List β)}

theorem length_writeAt (h : off + xs.length ≤ buf.length) : (writeAt buf off xs).length = buf.length := by
  simp only [writeAt, length_append, length_take, length_drop]
  omega

theorem getElem?_writeAt (h : off + xs.length ≤ buf.length) (i : ℕ) :
    (writeAt buf off xs)[i]? = if off ≤ i ∧ i < off + xs.length then xs[i - off]? else buf[i]? := by
  have htake : (buf.take off).length = off := by
    rw [length_take]
    omega
  rw [writeAt, append_assoc, getElem?_append, htake]
  by_cases hlow : i < off
  · rw [if_pos hlow, getElem?_take_of_lt hlow, if_neg (by omega)]
  · rw [if_neg hlow, getElem?_append]
    by_cases hhigh : i - off < xs.length
    · rw [if_pos hhigh, if_pos (by omega)]
    · rw [if_neg hhigh, if_neg (by omega), getElem?_drop]
      congr 1
      omega

theorem getElem?_readAt (off len i : ℕ) :
    (readAt buf off len)[i]? = if i < len then buf[off + i]? else none := by
  rw [readAt, getElem?_take]
  split_ifs with h
  · exact getElem?_drop
  · rfl

theorem readAt_writeAt_self (h : off + xs.length ≤ buf.length) :
    readAt (writeAt buf off xs) off xs.length = xs := by
  apply ext_getElem?
  intro i
  rw [getElem?_readAt]
  split_ifs with hi
  · rw [getElem?_writeAt h, if_pos (by omega), Nat.add_sub_cancel_left]
  · exact (getElem?_eq_none (Nat.le_of_not_lt hi)).symm

/-- What does not overlap what is written stays. -/
theorem readAt_writeAt_of_disjoint {off' len : ℕ} (h : off + xs.length ≤ buf.length)
    (hd : off + xs.length ≤ off' ∨ off' + len ≤ off) :
    readAt (writeAt buf off xs) off' len = readAt buf off' len := by
  apply ext_getElem?
  intro i
  rw [getElem?_readAt, getElem?_readAt]
  split_ifs with hi
  · rw [getElem?_writeAt h, if_neg (by omega)]
  · rfl

/-- Copying a whole record over a buffer of its size leaves the record. -/
theorem writeCells_whole
    (h : buf.length = cs.flatten.length) : writeCells buf 0 cs = cs.flatten := by
  rw [writeCells_eq cs (by omega)]
  simp [h]

/-- A cell read back from a record. -/
theorem readAt_flatten {i : ℕ} {c : List β} (h : cs[i]? = some c) :
    readAt cs.flatten (cs.take i).flatten.length c.length = c := by
  obtain ⟨hi, rfl⟩ := List.getElem?_eq_some_iff.1 h
  have hsplit : cs.flatten = (cs.take i).flatten ++ (cs[i] ++ (cs.drop (i + 1)).flatten) := by
    conv_lhs => rw [← take_append_drop i cs, flatten_append]
    rw [drop_eq_getElem_cons hi, flatten_cons]
  rw [readAt, hsplit, drop_left, take_left]

end Proteus.Buffer
