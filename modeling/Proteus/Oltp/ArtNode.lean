import Mathlib.Data.Fintype.Card
import Proteus.Slots

/-!
# The inner nodes of the adaptive radix tree

An inner node maps the next byte of a key to a child and is stored in one of four layouts, for up to
4, 16, 48 or 256 children. The two small ones are sorted slots (`ARTNode_4`, `ARTNode_16`); the
middle one finds the slot of a byte through a table of 256 indexes; the large one has a slot for
every byte.

Whatever the layout, a node means the partial map `getChild` from bytes to children. Inserting a
child updates that map at one byte (`insertChild_spec`), and a full node grows into the next layout
with the same map (`grow_spec`). The counter `n_children` follows the number of children in the
first three layouts. `ARTNode_256::insertChild` does not touch it, so that it stays at the 48 the
node was created with (`Tallied`).
-/

namespace Proteus.Art

open Function

/-- `key_unit_t`, a byte. -/
abbrev KeyUnit := Fin 256

/-! ## The four layouts -/

/-- `_partial_keys`, `_children` and `n_children` of a node of four slots. -/
abbrev ARTNode_4 (α : Type*) := Slots 4 KeyUnit α

abbrev ARTNode_16 (α : Type*) := Slots 16 KeyUnit α

/-- The slot of a byte is its entry in `_indexes`, where 256 stands for none. -/
structure ARTNode_48 (α : Type*) where
  n_children : ℕ
  indexes : KeyUnit → ℕ
  children : Fin 48 → Option α

structure ARTNode_256 (α : Type*) where
  n_children : ℕ
  children : KeyUnit → Option α

variable {α : Type*}

namespace ARTNode_4

/-- The new node has no child and the key `EMPTY` in every slot. -/
def create : ARTNode_4 α := ⟨0, fun _ => 0, fun _ => none⟩

/-- The scan runs over all four slots, whatever `n_children` is. -/
def getChild (n : ARTNode_4 α) (partial_key : KeyUnit) : Option α := n.lookupAll partial_key

def insertChild (n : ARTNode_4 α) (partial_key : KeyUnit) (child : α) : Option (ARTNode_4 α) :=
  n.insert partial_key child

end ARTNode_4

namespace ARTNode_16

/-- Slot `i` of a new node has the key `i`, and the first ones are copied from the full node. -/
def create (node4 : ARTNode_4 α) : ARTNode_16 α where
  used := 4
  keys i := if h : i.1 < 4 then (if i.1 < node4.used then node4.keys ⟨i, h⟩ else i.castLE (by decide))
    else i.castLE (by decide)
  vals i := if h : i.1 < 4 then (if i.1 < node4.used then node4.vals ⟨i, h⟩ else none) else none

/-- The comparison of all sixteen keys is masked to the first `n_children`. -/
def getChild (n : ARTNode_16 α) (partial_key : KeyUnit) : Option α := n.lookupUsed partial_key

def insertChild (n : ARTNode_16 α) (partial_key : KeyUnit) (child : α) : Option (ARTNode_16 α) :=
  n.insert partial_key child

end ARTNode_16

namespace ARTNode_48

/-- The loop writes the slots' numbers at their keys in order, so that of two slots with one key the
later one would count. -/
def create (node16 : ARTNode_16 α) : ARTNode_48 α where
  n_children := node16.used
  indexes k := match Fin.findRev? fun i => decide (i.1 < node16.used ∧ node16.keys i = k) with
    | some i => i
    | none => 256
  children i := if h : i.1 < 16 then (if i.1 < node16.used then node16.vals ⟨i, h⟩ else none)
    else none

/-- No child for the index 256, the only one beyond the slots that `_indexes` ever has
(`ARTNode_48.Ok`). -/
def getChild (n : ARTNode_48 α) (partial_key : KeyUnit) : Option α :=
  if h : n.indexes partial_key < 48 then n.children ⟨n.indexes partial_key, h⟩ else none

/-- A byte without a slot gets the next free one. Otherwise its slot is written; the result is
undefined for a byte without a slot in a full node. -/
def insertChild (n : ARTNode_48 α) (partial_key : KeyUnit) (child : α) : Option (ARTNode_48 α) :=
  if h : n.n_children < 48 ∧ n.indexes partial_key = 256 then
    some ⟨n.n_children + 1, update n.indexes partial_key n.n_children,
      update n.children ⟨n.n_children, h.1⟩ (some child)⟩
  else if h : n.indexes partial_key < 48 then
    some { n with children := update n.children ⟨n.indexes partial_key, h⟩ (some child) }
  else none

end ARTNode_48

namespace ARTNode_256

def create (node48 : ARTNode_48 α) : ARTNode_256 α := ⟨node48.n_children, node48.getChild⟩

def getChild (n : ARTNode_256 α) (partial_key : KeyUnit) : Option α := n.children partial_key

/-- Only the child is written; `n_children` is left as it is. -/
def insertChild (n : ARTNode_256 α) (partial_key : KeyUnit) (child : α) : ARTNode_256 α :=
  { n with children := update n.children partial_key (some child) }

end ARTNode_256

/-- An inner node, by its layout: an `ARTNode_4`, an `ARTNode_16`, an `ARTNode_48` or an
`ARTNode_256`. -/
inductive ARTInnerNode (α : Type*) where
  | node4 (n : Slots 4 KeyUnit α)
  | node16 (n : Slots 16 KeyUnit α)
  | node48 (n : ARTNode_48 α)
  | node256 (n : ARTNode_256 α)

variable (partial_key : KeyUnit) (n : ARTInnerNode α)

namespace ARTInnerNode

def n_children : ARTInnerNode α → ℕ
  | node4 n => n.used
  | node16 n => n.used
  | node48 n => n.n_children
  | node256 n => n.n_children

def capacity : ARTInnerNode α → ℕ
  | node4 _ => 4
  | node16 _ => 16
  | node48 _ => 48
  | node256 _ => 256

def getChild : ARTInnerNode α → KeyUnit → Option α
  | node4 n => ARTNode_4.getChild n
  | node16 n => ARTNode_16.getChild n
  | node48 n => n.getChild
  | node256 n => n.getChild

def insertChild (child : α) : ARTInnerNode α → Option (ARTInnerNode α)
  | node4 n => (ARTNode_4.insertChild n partial_key child).map node4
  | node16 n => (ARTNode_16.insertChild n partial_key child).map node16
  | node48 n => (n.insertChild partial_key child).map node48
  | node256 n => some (node256 (n.insertChild partial_key child))

def isFull : ARTInnerNode α → Bool
  | node4 n => n.used == 4
  | node16 n => n.used == 16
  | node48 n => n.n_children == 48
  | node256 _ => false

/-- `ARTNode_256::grow` throws. -/
def grow : ARTInnerNode α → Option (ARTInnerNode α)
  | node4 n => some (node16 (ARTNode_16.create n))
  | node16 n => some (node48 (ARTNode_48.create n))
  | node48 n => some (node256 (ARTNode_256.create n))
  | node256 _ => none

/-! ## What a node means -/

/-- The bytes that have a child. -/
def childBytes : Finset KeyUnit :=
  Finset.univ.filter fun b => (n.getChild b).isSome

/-- No two slots are for the same byte, and no slot is for two bytes. -/
def Distinct : ARTInnerNode α → Prop
  | node4 n => ∀ i j : Fin 4, i.1 < n.used → j.1 < n.used → n.keys i = n.keys j → i = j
  | node16 n => ∀ i j : Fin 16, i.1 < n.used → j.1 < n.used → n.keys i = n.keys j → i = j
  | node48 n => ∀ k k', n.indexes k ≠ 256 → n.indexes k = n.indexes k' → k = k'
  | node256 _ => True

end ARTInnerNode

/-- The bytes' slots are the first `n_children`, one for each, and they are filled. -/
structure ARTNode_48.Ok (n : ARTNode_48 α) : Prop where
  le : n.n_children ≤ 48
  index : ∀ k, n.indexes k = 256 ∨ n.indexes k < n.n_children
  inj : ∀ k k', n.indexes k ≠ 256 → n.indexes k = n.indexes k' → k = k'
  filled : ∀ i : Fin 48, i.1 < n.n_children → (n.children i).isSome

namespace ARTInnerNode

/-- The invariant of each layout. -/
def Ok : ARTInnerNode α → Prop
  | node4 n => n.Ok
  | node16 n => n.Ok
  | node48 n => n.Ok
  | node256 _ => True

/-- The counter is the number of children, except that in the largest layout it stays behind. -/
def Tallied : Prop :=
  if n.capacity ≤ 48 then n.n_children = n.childBytes.card
  else n.n_children = 48 ∧ 48 < n.childBytes.card

end ARTInnerNode

/-! ## The layouts refine the map -/

/-- Two partial maps with the same graph are equal. -/
theorem eq_of_graph {f g : KeyUnit → Option α} (h : ∀ k a, f k = some a ↔ g k = some a) : f = g :=
  funext fun k => Option.ext fun a => h k a

variable {k : KeyUnit} {a : α}

section

variable {N : ℕ} {s s' : Slots N KeyUnit α} {look : Slots N KeyUnit α → KeyUnit → Option α}

section

variable (hlook : ∀ {s : Slots N KeyUnit α}, s.Ok → ∀ {k a}, look s k = some a ↔ s.Holds k a) (h : s.Ok)
include hlook h

/-- What an insertion does to the slots, read through a lookup that returns what they hold. -/
theorem lookup_insert (h' : s'.Ok) (hh : ∀ k' c, s'.Holds k' c ↔ if k' = k then c = a else s.Holds k' c) :
    look s' = update (look s) k (some a) := by
  refine eq_of_graph fun k' c => ?_
  rw [hlook h', hh, update_apply]
  split_ifs
  · rw [Option.some_inj, eq_comm]
  · exact (hlook h).symm

/-- Insertion into sorted slots, as long as one is left or the key has one. -/
theorem insert_spec (hroom : s.used < N ∨ (look s k).isSome) : ∃ s', s.insert k a = some s' ∧ s'.Ok ∧
      look s' = update (look s) k (some a) ∧
      s'.used = if (look s k).isSome then s.used else s.used + 1 := by
  by_cases hk : (look s k).isSome
  · obtain ⟨b, hb⟩ := Option.isSome_iff_exists.1 hk
    obtain ⟨s', he, h', hu, hh⟩ := s.insert_of_holds (k := k) (a := a) h ⟨b, (hlook h).1 hb⟩
    exact ⟨s', he, h', lookup_insert hlook h h' hh, by rw [hu, if_pos hk]⟩
  · have hno : ∀ b, ¬s.Holds k b := fun b hb => hk (by rw [(hlook h).2 hb]; rfl)
    obtain ⟨s', he, h', hu, hh⟩ := s.insert_of_not_holds (a := a) h hno (hroom.resolve_right hk)
    exact ⟨s', he, h', lookup_insert hlook h h' hh, by rw [hu, if_neg hk]⟩

end

end

theorem ARTNode_4.getChild_eq_some {n : ARTNode_4 α} (h : n.Ok) {k : KeyUnit} {a : α} :
    ARTNode_4.getChild n k = some a ↔ n.Holds k a := Slots.lookupAll_eq_some h

theorem ARTNode_16.getChild_eq_some {n : ARTNode_16 α} (h : n.Ok) {k : KeyUnit} {a : α} :
    ARTNode_16.getChild n k = some a ↔ n.Holds k a := Slots.lookupUsed_eq_some h

namespace ARTNode_48

variable {n : ARTNode_48 α}

theorem getChild_eq_some : n.getChild k = some a ↔
    ∃ h : n.indexes k < 48, n.children ⟨n.indexes k, h⟩ = some a := by
  unfold getChild
  split_ifs with h <;> simp [h]

theorem Ok.isSome_getChild (h : n.Ok) : (n.getChild k).isSome ↔ n.indexes k ≠ 256 := by
  constructor
  · intro hs
    obtain ⟨a, ha⟩ := Option.isSome_iff_exists.1 hs
    obtain ⟨hlt, -⟩ := getChild_eq_some.1 ha
    omega
  · intro hk
    have hlt := (h.index k).resolve_left hk
    have h48 : n.indexes k < 48 := hlt.trans_le h.le
    simpa [getChild, h48] using h.filled ⟨_, h48⟩ hlt

theorem insertChild_spec (h : n.Ok) (hroom : n.n_children < 48 ∨ (n.getChild k).isSome) :
    ∃ n', n.insertChild k a = some n' ∧ n'.Ok ∧
      n'.getChild = update n.getChild k (some a) ∧
      n'.n_children = if (n.getChild k).isSome then n.n_children else n.n_children + 1 := by
  by_cases hk : n.indexes k = 256
  · have hno : ¬(n.getChild k).isSome := by simpa [h.isSome_getChild] using hk
    have hlt : n.n_children < 48 := hroom.resolve_right hno
    refine ⟨_, dif_pos ⟨hlt, hk⟩, ⟨hlt, fun k' => ?_, fun k₁ k₂ => ?_, fun i hi => ?_⟩,
      funext fun k' => ?_, by rw [if_neg hno]⟩
    · dsimp only
      rcases eq_or_ne k' k with rfl | hne
      · simp
      · rw [update_of_ne hne]
        exact (h.index k').imp_right Nat.lt_succ_of_lt
    · dsimp only
      rcases eq_or_ne k₁ k with rfl | h₁ <;> rcases eq_or_ne k₂ k₁ with rfl | h₂
      · simp
      · rw [update_self, update_of_ne h₂]
        have := h.index k₂
        omega
      · simp
      · rw [update_of_ne h₁]
        rcases eq_or_ne k₂ k with rfl | h₂'
        · rw [update_self]
          have := h.index k₁
          omega
        · rw [update_of_ne h₂']
          exact h.inj k₁ k₂
    · dsimp only at hi ⊢
      rcases eq_or_ne i ⟨n.n_children, hlt⟩ with rfl | hne
      · simp
      · rw [update_of_ne hne]
        exact h.filled i (lt_of_le_of_ne (Nat.lt_succ_iff.1 hi) fun hc => hne (Fin.ext hc))
    · rcases eq_or_ne k' k with rfl | hne
      · simp [getChild, hlt]
      · have hix := h.index k'
        simp only [getChild, update_of_ne hne]
        split_ifs with h48
        · rw [update_of_ne]
          exact fun hc => absurd (Fin.mk.inj hc) (by omega)
        · rfl
  · have hlt := (h.index k).resolve_left hk
    have h48 : n.indexes k < 48 := hlt.trans_le h.le
    refine ⟨{ n with children := update n.children ⟨n.indexes k, h48⟩ (some a) }, ?_,
      ⟨h.le, h.index, h.inj, fun i hi => ?_⟩, funext fun k' => ?_,
      by rw [if_pos (h.isSome_getChild.2 hk)]⟩
    · rw [insertChild, dif_neg fun hc => hk hc.2, dif_pos h48]
    · rcases eq_or_ne i ⟨n.indexes k, h48⟩ with rfl | hne
      · simp
      · simpa [hne] using h.filled i hi
    · rcases eq_or_ne k' k with rfl | hne
      · simp [getChild, h48]
      · simp only [getChild, update_of_ne hne]
        split_ifs with h48'
        · rw [update_of_ne]
          exact fun hc => hne (h.inj k' k (by omega) (Fin.mk.inj hc))
        · rfl

end ARTNode_48

/-! ### Growth -/

namespace ARTNode_16

variable {n : ARTNode_4 α}

theorem create_slot (hu : n.used = 4) (i : Fin 4) : (create n).keys (i.castLE (by decide)) = n.keys i ∧
      (create n).vals (i.castLE (by decide)) = n.vals i := by
  have hi : i.1 < n.used := i.2.trans_eq hu.symm
  simp [create, hi]

/-- A slot of the first four is one of the node it is created from. -/
theorem exists_slot {i : Fin 16} (hi : i.1 < 4) : ∃ j : Fin 4, i = j.castLE (by decide) :=
  ⟨⟨i, hi⟩, rfl⟩

theorem create_ok (h : n.Ok) (hu : n.used = 4) : (create n).Ok := by
  refine ⟨Nat.le_of_ble_eq_true rfl, fun i j hij hj => ?_, fun i hi => ?_, fun i hi => ?_⟩
  · obtain ⟨j, rfl⟩ := exists_slot hj
    obtain ⟨i, rfl⟩ := exists_slot (i := i) (lt_trans hij hj)
    rw [(create_slot hu i).1, (create_slot hu j).1]
    exact h.sorted i j hij (j.2.trans_eq hu.symm)
  · obtain ⟨i, rfl⟩ := exists_slot hi
    rw [(create_slot hu i).2]
    exact h.filled i (i.2.trans_eq hu.symm)
  · have hi' : ¬i.1 < 4 := not_lt.2 hi
    simp [create, hi']

theorem getChild_create (h : n.Ok) (hu : n.used = 4) : getChild (create n) = ARTNode_4.getChild n := by
  refine eq_of_graph fun k a => ?_
  rw [getChild_eq_some (create_ok h hu), ARTNode_4.getChild_eq_some h]
  constructor
  · rintro ⟨i, hi, hk, ha⟩
    obtain ⟨i, rfl⟩ := exists_slot hi
    rw [(create_slot hu i).1] at hk
    rw [(create_slot hu i).2] at ha
    exact ⟨i, i.2.trans_eq hu.symm, hk, ha⟩
  · rintro ⟨i, -, hk, ha⟩
    exact ⟨i.castLE (by decide), i.2, (create_slot hu i).1.trans hk, (create_slot hu i).2.trans ha⟩

end ARTNode_16

namespace ARTNode_48

variable {n : ARTNode_16 α}

/-- The index of a byte is the slot that had it as its key. -/
theorem indexes_create {k : KeyUnit} :
    ((create n).indexes k = 256 ∧ ∀ i : Fin 16, i.1 < n.used → n.keys i ≠ k) ∨
      ∃ i : Fin 16, (create n).indexes k = i.1 ∧ i.1 < n.used ∧ n.keys i = k := by
  dsimp only [create]
  cases hf : Fin.findRev? fun i => decide (i.1 < n.used ∧ n.keys i = k) with
  | none =>
    refine .inl ⟨rfl, fun i hi hk => ?_⟩
    simpa [hi, hk] using Fin.findRev?_eq_none_iff.1 hf i
  | some i =>
    exact .inr ⟨i, rfl, by simpa using (Fin.findRev?_eq_some_iff.1 hf).1⟩

theorem children_create (i : Fin 16) (hi : i.1 < n.used) :
    (create n).children (i.castLE (by decide)) = n.vals i := by
  simp [create, hi]

theorem create_ok (h : n.Ok) : (create n).Ok := by
  refine ⟨h.used_le.trans (by decide), fun k => ?_, fun k k' hk he => ?_, fun i hi => ?_⟩
  · rcases indexes_create (n := n) (k := k) with ⟨he, -⟩ | ⟨i, he, hi, -⟩
    · exact .inl he
    · exact .inr (he ▸ hi)
  · rcases indexes_create (n := n) (k := k) with ⟨hc, -⟩ | ⟨i, hki, -, rfl⟩
    · exact absurd hc hk
    · rcases indexes_create (n := n) (k := k') with ⟨hc, -⟩ | ⟨j, hkj, -, rfl⟩
      · exact absurd (he.trans hc) hk
      · rw [Fin.ext (hki.symm.trans (he.trans hkj))]
  · have h16 : i.1 < 16 := lt_of_lt_of_le hi h.used_le
    have := h.filled ⟨i, h16⟩ hi
    rwa [← children_create ⟨i, h16⟩ hi] at this

theorem getChild_create (h : n.Ok) : (create n).getChild = ARTNode_16.getChild n := by
  refine eq_of_graph fun k a => ?_
  rw [getChild_eq_some, ARTNode_16.getChild_eq_some h]
  rcases indexes_create (n := n) (k := k) with ⟨he, hno⟩ | ⟨i, he, hi, hk⟩
  · exact ⟨fun ⟨hc, _⟩ => absurd (he ▸ hc) (by decide), fun ⟨i, hi, hk, _⟩ => absurd hk (hno i hi)⟩
  · have hslot : ∀ hlt : (create n).indexes k < 48,
        (create n).children ⟨(create n).indexes k, hlt⟩ = n.vals i := fun hlt => by
      rw [← children_create i hi]
      exact congrArg _ (Fin.ext he)
    constructor
    · rintro ⟨hlt, ha⟩
      exact ⟨i, hi, hk, (hslot hlt).symm.trans ha⟩
    · rintro ⟨j, hj, hkj, ha⟩
      obtain rfl : i = j := h.keys_inj hi hj (hk.trans hkj.symm)
      exact ⟨he ▸ i.2.trans (by decide), (hslot _).trans ha⟩

end ARTNode_48

namespace ARTInnerNode

variable {n n' : ARTInnerNode α}

theorem mem_childBytes : k ∈ n.childBytes ↔ (n.getChild k).isSome := by
  simp [childBytes]

theorem Ok.distinct (h : n.Ok) : n.Distinct := by
  cases n with
  | node4 | node16 => exact fun i j hi hj => Slots.Ok.keys_inj h hi hj
  | node48 n => exact ARTNode_48.Ok.inj h
  | node256 n => trivial

theorem Ok.n_children_le (h : n.Ok) (hc : n.capacity ≤ 48) : n.n_children ≤ n.capacity := by
  cases n with
  | node4 | node16 => exact Slots.Ok.used_le h
  | node48 n => exact ARTNode_48.Ok.le h
  | node256 n => simp [capacity] at hc

theorem isFull_iff : n.isFull = true ↔ n.n_children = n.capacity ∧ n.capacity ≤ 48 := by
  cases n <;> simp [isFull, n_children, capacity]

/-- A child is inserted in a node that is not full or has a child at this byte already. -/
theorem insertChild_ok (h : n.Ok) (hroom : n.isFull = false ∨ (n.getChild k).isSome) :
    ∃ n', n.insertChild k a = some n' ∧ n'.Ok ∧ n'.getChild = update n.getChild k (some a) ∧
      n'.capacity = n.capacity ∧ n'.n_children =
        if (n.getChild k).isSome ∨ 48 < n.capacity then n.n_children else n.n_children + 1 := by
  cases n with
  | node4 n =>
    obtain ⟨n', he, h', hg, hu⟩ := insert_spec (a := a) (k := k) ARTNode_4.getChild_eq_some h
      (hroom.imp_left fun hf => lt_of_le_of_ne (Slots.Ok.used_le h) (by simpa [isFull] using hf))
    exact ⟨node4 n', by simp [insertChild, ARTNode_4.insertChild, he], h', hg, rfl,
      by simpa [n_children, capacity, getChild] using hu⟩
  | node16 n =>
    obtain ⟨n', he, h', hg, hu⟩ := insert_spec (a := a) (k := k) ARTNode_16.getChild_eq_some h
      (hroom.imp_left fun hf => lt_of_le_of_ne (Slots.Ok.used_le h) (by simpa [isFull] using hf))
    exact ⟨node16 n', by simp [insertChild, ARTNode_16.insertChild, he], h', hg, rfl,
      by simpa [n_children, capacity, getChild] using hu⟩
  | node48 n =>
    obtain ⟨n', he, h', hg, hu⟩ := ARTNode_48.insertChild_spec (a := a) (k := k) h
      (hroom.imp_left fun hf => lt_of_le_of_ne (ARTNode_48.Ok.le h) (by simpa [isFull] using hf))
    exact ⟨node48 n', by simp [insertChild, he], h', hg, rfl,
      by simpa [n_children, capacity, getChild] using hu⟩
  | node256 n =>
    exact ⟨node256 (n.insertChild k a), rfl, trivial, rfl, rfl,
      by simp [n_children, capacity, ARTNode_256.insertChild]⟩

/-- A full node grows into a larger one with the same children. -/
theorem grow_ok (h : n.Ok) (hfull : n.isFull = true) : ∃ n', n.grow = some n' ∧ n'.Ok ∧
    n'.getChild = n.getChild ∧ n'.n_children = n.n_children ∧ n.capacity < n'.capacity ∧
    (48 < n'.capacity → n.capacity = 48) := by
  cases n with
  | node4 n =>
    have hu : n.used = 4 := by simpa [isFull] using hfull
    exact ⟨_, rfl, ARTNode_16.create_ok h hu, ARTNode_16.getChild_create h hu, hu.symm,
      by simp [capacity], by simp [capacity]⟩
  | node16 n =>
    exact ⟨_, rfl, ARTNode_48.create_ok h, ARTNode_48.getChild_create h, rfl,
      by simp [capacity], by simp [capacity]⟩
  | node48 n =>
    exact ⟨_, rfl, trivial, rfl, rfl, by simp [capacity], fun _ => rfl⟩
  | node256 n => simp [isFull] at hfull

/-! ### The counter -/

theorem childBytes_of_getChild (h : n'.getChild = update n.getChild k (some a)) :
    n'.childBytes = insert k n.childBytes := by
  ext k'
  rw [Finset.mem_insert, mem_childBytes, mem_childBytes, h, update_apply]
  split_ifs with hk <;> simp [hk]

/-- The children and the counter after an insertion. -/
theorem card_childBytes_insert (h : n'.getChild = update n.getChild k (some a)) :
    n'.childBytes.card =
      if (n.getChild k).isSome then n.childBytes.card else n.childBytes.card + 1 := by
  rw [childBytes_of_getChild h, Finset.card_insert_eq_ite]
  simp only [mem_childBytes]

/-- In a node that keeps its tally the counter is right if it has at most 48 children, and only
then. -/
theorem Tallied.n_children_eq_iff (ht : n.Tallied) (h : n.Ok) :
    n.n_children = n.childBytes.card ↔ n.childBytes.card ≤ 48 := by
  unfold Tallied at ht
  split_ifs at ht with hc
  · have := h.n_children_le hc
    omega
  · omega

theorem card_childBytes_le (ht : n.Tallied) (h : n.Ok) : n.childBytes.card ≤ n.capacity := by
  unfold Tallied at ht
  split_ifs at ht with hc
  · exact ht ▸ h.n_children_le hc
  · cases n with
    | node256 n => exact (Finset.card_le_univ _).trans_eq (Fintype.card_fin 256)
    | _ => simp [capacity] at hc

/-- Inserting a child in a node of the tree, where it fits. -/
theorem insertChild_spec (h : n.Ok) (ht : n.Tallied)
    (hroom : n.isFull = false ∨ (n.getChild k).isSome) : ∃ n', n.insertChild k a = some n' ∧
      n'.Ok ∧ n'.Tallied ∧ n'.getChild = update n.getChild k (some a) ∧
      n'.capacity = n.capacity := by
  obtain ⟨n', he, h', hg, hcap, hn⟩ := insertChild_ok (a := a) h hroom
  refine ⟨n', he, h', ?_, hg, hcap⟩
  have hcard := card_childBytes_insert hg
  unfold Tallied at ht ⊢
  rw [hcap]
  split_ifs at ht ⊢ with hc
  · rw [hn, hcard, ht]
    simp [not_lt.2 hc]
  · rw [hn, if_pos (.inr (not_le.1 hc)), hcard]
    refine ⟨ht.1, ht.2.trans_le ?_⟩
    split_ifs <;> omega

/-- The branch of `insert_recursive_opt` for a byte without a child: a full node grows first. -/
def addChild (child : α) (n : ARTInnerNode α) : Option (ARTInnerNode α) :=
  if n.isFull then n.grow.bind (insertChild partial_key child) else n.insertChild partial_key child

/-- A new child always finds its place. When the 49th child comes, the counter of the new node stays
at 48. -/
theorem addChild_spec (h : n.Ok) (ht : n.Tallied) (hk : n.getChild k = none) :
    ∃ n', n.addChild k a = some n' ∧ n'.Ok ∧ n'.Tallied ∧
      n'.getChild = update n.getChild k (some a) := by
  by_cases hf : n.isFull
  · obtain ⟨hfn, hfc⟩ := isFull_iff.1 hf
    obtain ⟨g, hg, hgo, hgc, hgn, hlt, h48⟩ := grow_ok h hf
    have hroom : g.isFull = false := by
      rw [Bool.eq_false_iff, Ne, isFull_iff]
      omega
    obtain ⟨n', he, h', hc, hcap, hn⟩ := insertChild_ok (k := k) (a := a) hgo (.inl hroom)
    refine ⟨n', by simp [addChild, hf, hg, he], h', ?_, hgc ▸ hc⟩
    have hcard := card_childBytes_insert (n := n) (hgc ▸ hc)
    rw [Tallied, if_pos hfc] at ht
    simp only [hk, Option.isSome_none, Bool.false_eq_true, if_false] at hcard
    simp only [hgc, hk, Option.isSome_none, Bool.false_eq_true, false_or] at hn
    unfold Tallied
    rw [hcap, hcard]
    by_cases hlarge : 48 < g.capacity
    · rw [if_neg (not_le.2 hlarge), hn, if_pos hlarge]
      omega
    · rw [if_pos (not_lt.1 hlarge), hn, if_neg hlarge]
      omega
  · obtain ⟨n', he, h', ht', hg, -⟩ := insertChild_spec (k := k) (a := a) h ht
      (.inl (Bool.eq_false_iff.2 hf))
    exact ⟨n', by simp [addChild, hf, he], h', ht', hg⟩

end ARTInnerNode

end Proteus.Art
