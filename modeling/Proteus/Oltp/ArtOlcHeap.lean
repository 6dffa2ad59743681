import Proteus.Oltp.ArtOlc
import Proteus.Radix

/-!
# The tree in shared memory

The nodes of the tree in memory form a radix tree (`Heap.radix`, `HeapOk`). It says where a key leads:
on the way of a key that is in the tree, an inner node has a child (`HeapOk.slot_of_linked`) and a
leaf has the key (`HeapOk.leaf_of_linked`).

`Evolves` is what a step of one thread leaves to the others: nodes that the thread has not locked stay
as they are, and versions only grow.
-/

namespace Proteus.Art.Olc

open Function Heap

variable {w : ℕ} {V : Type}

/-! ## The tree of a memory -/

def Cell.slot (b : KeyUnit) : Cell w V → Option ℕ
  | .leaf _ _ => none
  | .inner _ n => n.getChild b

variable (path : List KeyUnit)

/-- The bytes in front of a node's slots; the whole key for a leaf. -/
def Cell.stop : Cell w V → List KeyUnit
  | .leaf key _ => key.data
  | .inner pfx _ => path ++ pfx

variable (h : Heap w V)

def Heap.radix : Radix ℕ KeyUnit where
  kid
    | none => h.root
    | some (a, b) => if h.live a then (h.cell a).bind (Cell.slot b) else none
  live a := h.live a = true
  path := h.path
  stop a := ((h.cell a).map (Cell.stop (h.path a))).getD (h.path a)

/-- An inner node of the tree; its prefix ends inside the keys. -/
structure NodeOk (w : ℕ) (stop : List KeyUnit) (n : ARTInnerNode ℕ) : Prop where
  ok : n.Ok
  tallied : n.Tallied
  short : stop.length < w

def Cell.Ok : Cell w V → Prop
  | .leaf _ _ => True
  | .inner pfx n => NodeOk w (path ++ pfx) n

/-- The pointers in a node. -/
def Cell.Within (m : ℕ) (cell : Cell w V) : Prop := ∀ b a, cell.slot b = some a → a < m

/-- The nodes of the tree form a radix tree, and none of them is obsolete. -/
structure HeapOk (h : Heap w V) : Prop where
  wf : h.radix.WF
  cell : ∀ a, a < h.next → ∃ cell, h.cell a = some cell ∧ cell.Within h.next ∧
    (h.live a = true → cell.Ok (h.path a))
  unused : ∀ a, h.next ≤ a → h.live a = false ∧ h.version a = 4
  version : ∀ a, h.version a % 4 ≠ 3
  current : ∀ a, h.live a → h.version a % 4 ≠ 1

/-- The tree has a leaf with this key. -/
def Linked (key : ARTKey w) : Prop :=
  ∃ a x, h.live a = true ∧ h.cell a = some (.leaf key x)

/-- The node is in the tree, and the key leads to it at this depth. -/
structure OnPath (h : Heap w V) (key : ARTKey w) (a depth : ℕ) : Prop where
  live : h.live a = true
  path : h.path a <+: key.data
  depth : (h.path a).length = depth

/-- The child of `p` on the way of the key is `a`, at this depth. -/
def Slot (key : ARTKey w) (p depth a : ℕ) : Prop :=
  h.live p = true ∧ ∃ pfx n b, h.cell p = some (.inner pfx n) ∧ h.path p ++ pfx ++ [b] <+: key.data ∧
    (h.path p ++ pfx).length + 1 = depth ∧ n.getChild b = some a

variable {h h' : Heap w V} {cell : Cell w V}

section

variable {key : ARTKey w} {a p depth : ℕ} {b : KeyUnit} {pfx : List KeyUnit} {n : ARTInnerNode ℕ}
  {x : V}

@[simp] theorem radix_path : h.radix.path = h.path := rfl

@[simp] theorem radix_live : h.radix.live a ↔ h.live a = true := Iff.rfl

@[simp] theorem radix_kid_none : h.radix.kid none = h.root := rfl

theorem radix_kid (hp : h.live p = true) (hc : h.cell p = some (.inner pfx n)) :
    h.radix.kid (some (p, b)) = n.getChild b := by
  simp [radix, hp, hc, Cell.slot]

theorem radix_stop (hc : h.cell p = some (.inner pfx n)) : h.radix.stop p = h.path p ++ pfx := by
  simp [radix, hc, Cell.stop]

theorem radix_stop_leaf (hc : h.cell a = some (.leaf key x)) : h.radix.stop a = key.data := by
  simp [radix, hc, Cell.stop]

theorem radix_kid_leaf (hc : h.cell a = some (.leaf key x)) (b : KeyUnit) :
    h.radix.kid (some (a, b)) = none := by
  simp [radix, hc, Cell.slot]

theorem radix_kid_congr (hc : h'.cell a = h.cell a) (hl : h'.live a = h.live a) :
    h'.radix.kid (some (a, b)) = h.radix.kid (some (a, b)) := by
  simp only [radix, hc, hl]

theorem radix_stop_congr (hc : h'.cell a = h.cell a) (hp : h'.path a = h.path a) :
    h'.radix.stop a = h.radix.stop a := by
  simp only [radix, hc, hp]

theorem Cell.Within.mono {m m' : ℕ} (hin : cell.Within m) (hle : m ≤ m') :
    cell.Within m' := fun b a ha => (hin b a ha).trans_le hle

theorem Cell.Within.update {m : ℕ} {pfx' : List KeyUnit} {n' : ARTInnerNode ℕ}
    (hin : (Cell.inner pfx n : Cell w V).Within m)
    (hg : n'.getChild = update n.getChild b (some a)) (ha : a < m) :
    (Cell.inner pfx' n' : Cell w V).Within m := by
  intro b' a' h'
  rw [Cell.slot, hg] at h'
  rcases update_cases h' with ⟨-, heq⟩ | ⟨-, h'⟩
  · cases heq
    exact ha
  · exact hin b' a' h'

namespace HeapOk

variable (ok : HeapOk h)
include ok

theorem lt_next (ha : h.live a = true) : a < h.next := by
  by_contra hlt
  rw [(ok.unused a (not_lt.1 hlt)).1] at ha
  cases ha

theorem node (ha : h.live a = true) (hc : h.cell a = some (.inner pfx n)) :
    NodeOk w (h.path a ++ pfx) n := by
  obtain ⟨cell, hcell, -, hok⟩ := ok.cell a (ok.lt_next ha)
  rw [hc] at hcell
  cases hcell
  exact hok ha

theorem within (ha : h.live a = true) (hc : h.cell a = some cell) : cell.Within h.next := by
  obtain ⟨cell', hcell, hin, -⟩ := ok.cell a (ok.lt_next ha)
  rw [hc] at hcell
  cases hcell
  exact hin

theorem root_onPath (key : ARTKey w) (hr : h.root = some a) : OnPath h key a 0 := by
  have hk : h.radix.kid none = some a := hr
  have hp : h.path a = [] := ok.wf.path_eq hk
  exact ⟨ok.wf.target hk, hp ▸ List.nil_prefix, by rw [hp]; rfl⟩

theorem slot_onPath (hs : Slot h key p depth a) : OnPath h key a depth := by
  obtain ⟨hp, pfx, n, b, hc, hb, hd, hg⟩ := hs
  have hk : h.radix.kid (some (p, b)) = some a := by rw [radix_kid hp hc, hg]
  have hpath : h.path a = h.path p ++ pfx ++ [b] := by
    rw [← radix_stop hc]
    exact ok.wf.path_kid hk
  exact ⟨ok.wf.target hk, hpath ▸ hb, by rw [hpath, List.length_append]; exact hd⟩

theorem leaf_path (ha : h.live a = true) (hc : h.cell a = some (.leaf key x)) : h.path a <+: key.data := by
  have := ok.wf.path_stop ha
  rwa [radix_stop_leaf hc] at this

/-- On the way of a key that is in the tree, an inner node has a child. -/
theorem slot_of_linked (hl : Linked h key) (ha : OnPath h key a depth)
    (hc : h.cell a = some (.inner pfx n)) :
    ∃ b c, n.getChild b = some c ∧ h.path a ++ pfx ++ [b] <+: key.data := by
  obtain ⟨c, x, hlive, hleaf⟩ := hl
  have hne : a ≠ c := by
    intro heq
    rw [heq, hleaf] at hc
    cases hc
  obtain ⟨b, a', hk, hb⟩ := ok.wf.next ha.live hlive (radix_kid_leaf hleaf) ha.path
    (ok.leaf_path hlive hleaf) hne
  rw [radix_kid ha.live hc] at hk
  rw [radix_stop hc] at hb
  exact ⟨b, a', hk, hb⟩

/-- On the way of a key that is in the tree, a leaf has the key. -/
theorem leaf_of_linked (hl : Linked h key) (ha : OnPath h key a depth)
    {key2 : ARTKey w} (hc : h.cell a = some (.leaf key2 x)) : key = key2 := by
  obtain ⟨c, y, hlive, hleaf⟩ := hl
  have hb := ok.wf.below ha.live hlive (radix_kid_leaf hleaf) ha.path (ok.leaf_path hlive hleaf)
  cases hb with
  | refl =>
    rw [hc] at hleaf
    cases hleaf
    rfl
  | kid hk _ =>
    rw [radix_kid_leaf hc] at hk
    cases hk

end HeapOk

end

/-! ## What a step of one thread leaves to the others -/

/-- Nothing another thread may know about the node has changed. -/
structure Calm (h h' : Heap w V) (a : ℕ) : Prop where
  cell : h'.cell a = h.cell a
  live : h.live a = true → h'.live a = true
  path : h.live a = true → h'.path a = h.path a
  root : h.root = some a → h'.root = some a

/-- A step of a thread that has locked the nodes `mine` and has created `leaf`. -/
structure Evolves (mine : ℕ → Prop) (leaf : ℕ) (h h' : Heap w V) : Prop where
  version_le : ∀ a, h.version a ≤ h'.version a
  version_eq : ∀ a, ¬mine a → h.version a % 4 ≠ 0 → h'.version a = h.version a
  next_le : h.next ≤ h'.next
  calm : ∀ a, a < h.next → ¬mine a → Calm h h' a
  kind : ∀ a, a < h.next → h'.isLeaf a = h.isLeaf a
  leaf_cell : ∀ a key x, a < h.next → h.cell a = some (.leaf key x) → h'.cell a = some (.leaf key x)
  leaf_live : ∀ a key x, h.live a = true → h.cell a = some (.leaf key x) → h'.live a = true
  leaf_version : ∀ a key x, h.cell a = some (.leaf key x) → h.version a % 4 ≠ 1 →
    h'.version a % 4 ≠ 1
  born : ∀ a, a < h.next → h.live a = false → h'.live a = true → a = leaf

section

variable {mine : ℕ → Prop} {leaf a d : ℕ}

theorem Calm.refl (h : Heap w V) (a : ℕ) : Calm h h a := ⟨rfl, id, fun _ => rfl, id⟩

theorem Evolves.refl (h : Heap w V) : Evolves mine leaf h h where
  version_le _ := le_rfl
  version_eq _ _ _ := rfl
  next_le := le_rfl
  calm a _ _ := Calm.refl h a
  kind _ _ := rfl
  leaf_cell _ _ _ _ hc := hc
  leaf_live _ _ _ hl _ := hl
  leaf_version _ _ _ _ hv := hv
  born _ _ hf ht := by rw [hf] at ht; cases ht

/-- The version of an unlocked node, or of one that the thread has locked, moves on. -/
theorem Evolves.bump (hm : mine a ∨ h.version a % 4 = 0)
    (h1 : ∀ key x, h.cell a = some (.leaf key x) → (h.version a + d) % 4 ≠ 1) :
    Evolves mine leaf h (h.bump a d) :=
  { (Evolves.refl h : Evolves mine leaf h h) with
    version_le := fun a' => by by_cases ha : a' = a <;> simp [Heap.bump, ha]
    version_eq := fun a' hm' hv => by
      have ha : a' ≠ a := fun heq => (heq ▸ hm).elim hm' hv
      simp [Heap.bump, ha]
    calm := fun _ _ _ => ⟨rfl, id, fun _ => rfl, id⟩
    leaf_version := fun a' key x hc hv => by
      by_cases heq : a' = a
      · simpa [Heap.bump, heq] using h1 key x (heq ▸ hc)
      · simpa [Heap.bump, heq] using hv }

theorem HeapOk.bump (ok : HeapOk h) (ha : a < h.next) (h3 : (h.version a + d) % 4 ≠ 3)
    (h1 : h.live a = true → (h.version a + d) % 4 ≠ 1) : HeapOk (h.bump a d) :=
  { ok with
    unused := fun a' ha' => by
      have hne : a' ≠ a := fun heq => absurd ha (not_lt.2 (heq ▸ ha'))
      simpa [Heap.bump, hne] using ok.unused a' ha'
    version := (forall_update_iff h.version fun _ v => v % 4 ≠ 3).2 ⟨h3, fun a' _ => ok.version a'⟩
    current := (forall_update_iff h.version fun a' v => h.live a' → v % 4 ≠ 1).2
      ⟨h1, fun a' _ => ok.current a'⟩ }

/-- A new leaf, which is not in the tree. -/
theorem Evolves.alloc (c : Cell w V) : Evolves mine leaf h (h.alloc c) :=
  { (Evolves.refl h : Evolves mine leaf h h) with
    next_le := Nat.le_succ _
    calm := fun a ha _ => ⟨by simp [Heap.alloc, ha.ne], id, fun _ => rfl, id⟩
    kind := fun a ha => by simp [Heap.isLeaf, Heap.alloc, ha.ne]
    leaf_cell := fun a key x ha hc => by simpa [Heap.alloc, ha.ne] using hc }

theorem HeapOk.alloc (ok : HeapOk h) (c : Cell w V) (hc : c.Within h.next) : HeapOk (h.alloc c) := by
  have hold : ∀ a, h.live a = true → (h.alloc c).cell a = h.cell a := by
    intro a ha
    simp [Heap.alloc, (ok.lt_next ha).ne]
  refine ⟨ok.wf.congr ?_ fun a => ⟨Iff.rfl, fun ha => ⟨rfl, ?_⟩⟩, fun a ha => ?_, fun a ha => ?_,
    ok.version, ok.current⟩
  · funext e
    cases e with
    | none => rfl
    | some e =>
      obtain ⟨a, b⟩ := e
      by_cases ha : h.live a = true
      · simp only [radix, hold a ha]
        rfl
      · rw [ok.wf.no_kid ha]
        exact if_neg ha
  · simp only [radix, hold a ha]
    rfl
  · by_cases hlt : a < h.next
    · obtain ⟨cell, hcell, hin, hok⟩ := ok.cell a hlt
      exact ⟨cell, by simpa [Heap.alloc, hlt.ne] using hcell, hin.mono (Nat.le_succ _), hok⟩
    · have heq : a = h.next := le_antisymm (Nat.le_of_lt_succ ha) (not_lt.1 hlt)
      refine ⟨c, by simp [Heap.alloc, heq], hc.mono (Nat.le_succ _), fun hl => ?_⟩
      exact absurd (ok.lt_next hl) hlt
  · exact ok.unused a (Nat.le_of_succ_le ha)

end

end Proteus.Art.Olc
