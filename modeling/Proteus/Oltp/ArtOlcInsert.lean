import Proteus.Oltp.ArtOlcWrite

/-!
# What an insertion knows

An insertion knows facts about nodes it has not locked under a condition: they hold as long as the
version of the node is the one that was read (`Since`). Nothing another thread does can break such a
fact (`Since.evolves`): whoever changes the node locks it first, and versions never return. What an
insertion knows at each of its steps (`InsertOk`) is kept by the steps of the others
(`InsertOk.evolves`), and its own steps lead from one to the next (`insertStep_spec`).
-/

namespace Proteus.Art.Olc

open Option Heap

variable {w : ℕ} {V : Type}

/-! ## Versions -/

theorem isLocked_iff {v : ℕ} : isLocked v = true ↔ v % 4 = 2 ∨ v % 4 = 3 := by
  rw [isLocked, Nat.testBit_eq_decide_div_mod_eq, decide_eq_true_iff]
  omega

theorem isObsolete_iff {v : ℕ} : isObsolete v = true ↔ v % 2 = 1 := by
  rw [isObsolete, Nat.testBit_eq_decide_div_mod_eq, decide_eq_true_iff]
  omega

/-- The version of the node was `v`, unlocked, and `φ` holds as long as it is. -/
structure Since (h : Heap w V) (a v : ℕ) (φ : Prop) : Prop where
  unlocked : v % 4 = 0
  le : v ≤ h.version a
  now : h.version a = v → φ

variable {mine : ℕ → Prop} {h h' : Heap w V} {key : ARTKey w} {φ ψ : Prop} {depth : ℕ}

section

variable {leaf a v : ℕ}

/-- A node whose version is as it was read has not been touched. -/
theorem Since.evolves (hs : Since h a v φ) (hev : Evolves mine leaf h h')
    (hmine : ∀ a, mine a → h.version a % 4 = 2) (ha : a < h.next) (hφ : Calm h h' a → φ → ψ) :
    Since h' a v ψ := by
  refine ⟨hs.unlocked, hs.le.trans (hev.version_le a), fun hv => ?_⟩
  have heq : h.version a = v := le_antisymm (hv ▸ hev.version_le a) hs.le
  have hno : ¬mine a := by
    intro hm
    have := hmine a hm
    have := hs.unlocked
    omega
  exact hφ (hev.calm a ha hno) (hs.now heq)

theorem Slot.calm {p : ℕ} (hs : Slot h key p depth a) (hc : Calm h h' p) : Slot h' key p depth a := by
  obtain ⟨hlive, pfx, n, b, hcell, hb, hd, hg⟩ := hs
  refine ⟨hc.live hlive, pfx, n, b, hc.cell.trans hcell, ?_, ?_, hg⟩ <;> rwa [hc.path hlive]

theorem OnPath.calm (ho : OnPath h key a depth) (hc : Calm h h' a) : OnPath h' key a depth := by
  have hpath := hc.path ho.live
  exact ⟨hc.live ho.live, hpath ▸ ho.path, hpath ▸ ho.depth⟩

theorem Linked.evolves (ok : HeapOk h) (hl : Linked h key) (hev : Evolves mine leaf h h') :
    Linked h' key := by
  obtain ⟨a, x, hlive, hcell⟩ := hl
  exact ⟨a, x, hev.leaf_live a key x hlive hcell, hev.leaf_cell a key x (ok.lt_next hlive) hcell⟩

end

/-! ## The way to a node -/

/-- The node of a call came from the root pointer, or from the slot of its parent, which holds it as
long as the version of the parent is the one that was read. -/
structure Route (h : Heap w V) (key : ARTKey w) (f : Frame) : Prop where
  lt : f.node < h.next
  depth : f.parent = none → f.depth = 0
  slot : ∀ p pv, f.parent = some (p, pv) →
    p < h.next ∧ Since h p pv (Slot h key p f.depth f.node)

/-- A node without a parent is the root. -/
def RootOf (h : Heap w V) (f : Frame) : Prop := f.parent = none → h.root = some f.node

/-- The way to a node, and what holds as long as its version is `v`. -/
structure View (h : Heap w V) (key : ARTKey w) (f : Frame) (v : ℕ) (φ : Prop) : Prop where
  route : Route h key f
  since : Since h f.node v (RootOf h f ∧ φ)
  /-- a leaf at the root stays in the tree -/
  live : f.parent = none → h.isLeaf f.node = true → h.live f.node = true

/-- The key passes the prefix of the node, to this depth. -/
def Passed (h : Heap w V) (key : ARTKey w) (f : Frame) (depth : ℕ) : Prop :=
  (h.cell f.node).map (Cell.testPrefix key f.depth) = some (.passed depth)

def HasChild (h : Heap w V) (key : ARTKey w) (f : Frame) (depth : ℕ) (child : Option ℕ) : Prop :=
  (h.cell f.node).bind (Cell.child key depth) = child

variable {d : ℕ} {n : ARTInnerNode ℕ} {pfx : List KeyUnit}

theorem testPrefix_passed :
    (Cell.inner pfx n : Cell w V).testPrefix key d = .passed depth ↔
      prefix_match pfx key d = pfx.length ∧ depth = d + pfx.length := by
  rw [Cell.testPrefix]
  split_ifs with hm
  · simp [hm]
  · simp [not_not.1 hm, eq_comm]

theorem testPrefix_mismatch {m : ℕ} :
    (Cell.inner pfx n : Cell w V).testPrefix key d = .mismatch m ↔
      prefix_match pfx key d = m ∧ m ≠ pfx.length := by
  rw [Cell.testPrefix]
  split_ifs with hm
  · simp only [PrefixRead.mismatch.injEq]
    exact ⟨fun he => ⟨he, he ▸ hm⟩, fun he => he.1⟩
  · simp only [false_iff, not_and]
    intro he
    rwa [← he]

section

variable {leaf v : ℕ} {f : Frame}

theorem Route.placed (hr : Route h key f) (hroot : RootOf h f) (hs : h.parentSame f = true) :
    Placed h key f := by
  unfold Placed
  unfold parentSame at hs
  cases hpar : f.parent with
  | none => exact hroot hpar
  | some q =>
    obtain ⟨p, pv⟩ := q
    rw [hpar] at hs
    exact (hr.slot p pv hpar).2.now (by simpa using hs)

theorem Placed.onPath (ok : HeapOk h) (hp : Placed h key f) (hd : f.parent = none → f.depth = 0) :
    OnPath h key f.node f.depth := by
  unfold Placed at hp
  cases hpar : f.parent <;> rw [hpar] at hp
  case none =>
    rw [hd hpar]
    exact ok.root_onPath _ hp
  case some q =>
    exact ok.slot_onPath hp

theorem RootOf.calm (hr : RootOf h f) (hc : Calm h h' f.node) : RootOf h' f :=
  fun hpar => hc.root (hr hpar)

theorem Route.evolves (hr : Route h key f) (hev : Evolves mine leaf h h')
    (hmine : ∀ a, mine a → h.version a % 4 = 2) : Route h' key f where
  lt := hr.lt.trans_le hev.next_le
  depth := hr.depth
  slot p pv hpar := by
    obtain ⟨hlt, hs⟩ := hr.slot p pv hpar
    exact ⟨hlt.trans_le hev.next_le, hs.evolves hev hmine hlt fun hc hslot => hslot.calm hc⟩

/-- What is seen now adds to what is known. -/
theorem View.learn (hv : View h key f v φ) (hφ : h.version f.node = v → φ → ψ) : View h key f v ψ where
  route := hv.route
  since := ⟨hv.since.unlocked, hv.since.le, fun he => ⟨(hv.since.now he).1, hφ he (hv.since.now he).2⟩⟩
  live := hv.live

theorem View.evolves (hv : View h key f v φ) (hev : Evolves mine leaf h h')
    (hmine : ∀ a, mine a → h.version a % 4 = 2) (hφ : Calm h h' f.node → φ → ψ) : View h' key f v ψ where
  route := hv.route.evolves hev hmine
  since := hv.since.evolves hev hmine hv.route.lt fun hc hs => ⟨hs.1.calm hc, hφ hc hs.2⟩
  live hpar hleaf := by
    rw [hev.kind _ hv.route.lt] at hleaf
    have hlive := hv.live hpar hleaf
    unfold isLeaf at hleaf
    cases hc : h.cell f.node with
    | none => simp [hc] at hleaf
    | some cell =>
      cases cell with
      | inner pfx n => simp [hc, Cell.isLeaf] at hleaf
      | leaf key' x => exact hev.leaf_live f.node key' x hlive hc

theorem Ready.calm {change : Change} (hr : Ready h key f change) (hc : Calm h h' f.node) :
    Ready h' key f change := by
  cases change <;> simp only [Ready, hc.cell] at hr ⊢ <;> exact hr

end

/-! ## What an insertion knows at each step -/

/-- The nodes an insertion has locked. -/
def InsertPc.holds : InsertPc → ℕ → Prop
  | .lockNode f _ change, a => change.locksParent = true ∧ ∃ pv, f.parent = some (a, pv)
  | .recheckParent f _, a | .yieldNode f, a => a = f.node
  | .write f change, a | .unlockNode f change, a => f.locks change a
  | .unlockParent f, a | .yieldParent f, a => ∃ pv, f.parent = some (a, pv)
  | _, _ => False

/-- The leaf of the insertion is in the tree. -/
def InsertPc.linked : InsertPc → Bool
  | .unlockNode _ _ | .unlockParent _ | .returned => true
  | _ => false

def InsertOk (h : Heap w V) (c : Call w V) : InsertPc → Prop
  | .loadRoot | .storeRoot | .yieldNode _ | .yieldParent _ => True
  | .readVersion f => Route h c.key f
  | .readPrefix f v => View h c.key f v True
  | .readChild f v depth => View h c.key f v (Passed h c.key f depth)
  | .check f v depth child =>
    View h c.key f v (Passed h c.key f depth ∧ HasChild h c.key f depth child) ∧
      ∀ a ∈ child, a < h.next
  | .readFull f v depth =>
    View h c.key f v (Passed h c.key f depth ∧ HasChild h c.key f depth none) ∧
      h.isLeaf f.node = false
  | .checkParent f v depth child =>
    View h c.key f v (Passed h c.key f depth ∧ HasChild h c.key f depth child) ∧
      (∀ a ∈ child, a < h.next) ∧ (child = none → h.isLeaf f.node = true)
  | .compare f v => View h c.key f v True ∧ ∃ key2 x, h.live f.node = true ∧
    h.cell f.node = some (.leaf key2 x) ∧ key2.data.take f.depth = c.key.data.take f.depth
  | .lockParent f v change => View h c.key f v (Ready h c.key f change) ∧ change.locksParent = true
  | .lockNode f v change => View h c.key f v (Ready h c.key f change) ∧
    (change.locksParent = true → ∀ p pv, f.parent = some (p, pv) → Slot h c.key p f.depth f.node)
  | .recheckParent f depth => Route h c.key f ∧ RootOf h f ∧ Ready h c.key f (.add depth)
  | .write f change => OnPath h c.key f.node f.depth ∧ Ready h c.key f change ∧
    (change.locksParent = true → Placed h c.key f)
  | .unlockNode f change => Linked h c.key ∧
    (change.locksParent = true → ∀ pv, f.parent ≠ some (f.node, pv)) ∧
    ∀ depth, change = .grow depth → h.live f.node = false ∧ h.isLeaf f.node = false
  | .unlockParent _ | .returned => Linked h c.key
  | .crashed => False

/-- The leaf that an insertion has created. -/
structure Owns (h : Heap w V) (c : Call w V) (pc : InsertPc) : Prop where
  lt : c.leaf < h.next
  cell : h.cell c.leaf = some (.leaf c.key c.value)
  current : h.version c.leaf % 4 ≠ 1
  dead : pc.linked = false → h.live c.leaf = false

/-- The nodes an insertion has locked have a locked version. -/
def Locks (h : Heap w V) (pc : InsertPc) : Prop := ∀ a, pc.holds a → a < h.next ∧ h.version a % 4 = 2

variable {c : Call w V}

section

variable {leaf : ℕ} {pc : InsertPc}

theorem Locks.evolves (hk : Locks h pc) (hev : Evolves mine leaf h h')
    (hdis : ∀ a, pc.holds a → ¬mine a) : Locks h' pc := by
  intro a ha
  obtain ⟨hlt, hv⟩ := hk a ha
  refine ⟨hlt.trans_le hev.next_le, ?_⟩
  rw [hev.version_eq a (hdis a ha) (by omega), hv]

theorem Owns.evolves (ho : Owns h c pc) (hev : Evolves mine leaf h h') (hne : c.leaf ≠ leaf) :
    Owns h' c pc where
  lt := ho.lt.trans_le hev.next_le
  cell := hev.leaf_cell _ _ _ ho.lt ho.cell
  current := hev.leaf_version _ _ _ ho.cell ho.current
  dead hl := by
    by_contra hlive
    exact hne (hev.born _ ho.lt (ho.dead hl) (by simpa using hlive))

/-- What an insertion knows is not changed by a step of another thread. -/
theorem InsertOk.evolves (hi : InsertOk h c pc) (ok : HeapOk h) (hk : Locks h pc)
    (hev : Evolves mine leaf h h') (hmine : ∀ a, mine a → h.version a % 4 = 2)
    (hleaf : leaf < h.next → h.isLeaf leaf = true) (hdis : ∀ a, pc.holds a → ¬mine a) :
    InsertOk h' c pc := by
  have hcalm : ∀ a, pc.holds a → Calm h h' a := fun a ha => hev.calm a (hk a ha).1 (hdis a ha)
  cases pc with
  | loadRoot | storeRoot | yieldNode f | yieldParent f => trivial
  | readVersion f => exact Route.evolves hi hev hmine
  | readPrefix f v => exact View.evolves hi hev hmine fun _ _ => trivial
  | readChild f v depth =>
    refine View.evolves hi hev hmine fun hc hp => ?_
    rwa [Passed, hc.cell]
  | check f v depth child =>
    refine ⟨hi.1.evolves hev hmine fun hc hp => ?_, fun a ha => (hi.2 a ha).trans_le hev.next_le⟩
    rwa [Passed, HasChild, hc.cell]
  | readFull f v depth =>
    refine ⟨hi.1.evolves hev hmine fun hc hp => ?_, ?_⟩
    · rwa [Passed, HasChild, hc.cell]
    · rw [hev.kind _ hi.1.route.lt, hi.2]
  | checkParent f v depth child =>
    refine ⟨hi.1.evolves hev hmine fun hc hp => ?_, fun a ha => (hi.2.1 a ha).trans_le hev.next_le,
      fun hn => ?_⟩
    · rwa [Passed, HasChild, hc.cell]
    · rw [hev.kind _ hi.1.route.lt, hi.2.2 hn]
  | compare f v =>
    obtain ⟨hv, key2, x, hlive, hcell, heq⟩ := hi
    exact ⟨hv.evolves hev hmine fun _ _ => trivial, key2, x, hev.leaf_live _ _ _ hlive hcell,
      hev.leaf_cell _ _ _ hv.route.lt hcell, heq⟩
  | lockParent f v change =>
    exact ⟨hi.1.evolves hev hmine fun hc hr => hr.calm hc, hi.2⟩
  | lockNode f v change =>
    exact ⟨hi.1.evolves hev hmine fun hc hr => hr.calm hc, fun hp p pv hpar =>
      (hi.2 hp p pv hpar).calm (hcalm p ⟨hp, pv, hpar⟩)⟩
  | recheckParent f depth =>
    have hc := hcalm f.node rfl
    exact ⟨hi.1.evolves hev hmine, hi.2.1.calm hc, hi.2.2.calm hc⟩
  | write f change =>
    have hc := hcalm f.node (.inl rfl)
    refine ⟨hi.1.calm hc, hi.2.1.calm hc, fun hp => ?_⟩
    have hplaced := hi.2.2 hp
    unfold Placed at hplaced ⊢
    cases hpar : f.parent <;> rw [hpar] at hplaced
    case none =>
      exact hc.root hplaced
    case some q =>
      exact hplaced.calm (hcalm q.1 (.inr ⟨hp, q.2, hpar⟩))
  | unlockNode f change =>
    obtain ⟨hl, hne, hret⟩ := hi
    refine ⟨hl.evolves ok hev, hne, fun depth hd => ?_⟩
    obtain ⟨hlive, hkind⟩ := hret depth hd
    have hlt := (hk f.node (.inl rfl)).1
    refine ⟨?_, by rw [hev.kind _ hlt, hkind]⟩
    by_contra hc
    have hborn := hev.born _ hlt hlive (by simpa using hc)
    rw [← hborn, hkind] at hleaf
    cases hleaf hlt
  | unlockParent | returned => exact Linked.evolves ok hi hev
  | crashed => exact hi

end

/-! ## The steps of an insertion -/

/-- What a step of an insertion establishes. -/
structure Stepped (h h' : Heap w V) (c : Call w V) (pc pc' : InsertPc) : Prop where
  ok : HeapOk h'
  insertOk : InsertOk h' c pc'
  evolves : Evolves pc.holds c.leaf h h'
  owns : Owns h' c pc'
  locks : Locks h' pc'
  acquired : ∀ a, pc'.holds a → pc.holds a ∨ h.version a % 4 = 0

/-- The root is stored while it is null, and the version of a node loaded from the root is read while
it is the root. -/
def InsertPc.Proper (h : Heap w V) : InsertPc → Prop
  | .storeRoot => h.root = none
  | .readVersion f => f.parent = none → h.root = some f.node
  | _ => True

theorem isLeaf_iff {h : Heap w V} {a : ℕ} : h.isLeaf a = true ↔ ∃ key x, h.cell a = some (.leaf key x) := by
  unfold isLeaf
  cases hc : h.cell a with
  | none => simp
  | some cell => cases cell <;> simp [Cell.isLeaf]

/-- Keys that agree in front of `d` and in all bytes behind it are equal. -/
theorem key_eq_of_common {key2 : ARTKey w} (ht : key2.data.take d = key.data.take d)
    (hw : w ≤ d + commonLength (key2.data.drop d) (key.data.drop d)) : key = key2 := by
  obtain ⟨cs, hlen, h2, h1, -⟩ := commonLength_spec (key2.data.drop d) (key.data.drop d)
  have e2 := h2.eq_of_length_le (by rw [List.length_drop, key2.len]; omega)
  have e1 := h1.eq_of_length_le (by rw [List.length_drop, key.len]; omega)
  have hdata : key.data = key2.data := by
    rw [← List.take_append_drop d key.data, ← List.take_append_drop d key2.data, ← ht, ← e1, e2]
  cases key
  cases hdata
  rfl

variable {key : ARTKey w}

section

variable {pc pc' : InsertPc} {f : Frame} {v depth : ℕ} {o : Torn} {change : Change} {a : ℕ}

section

variable (ok : HeapOk h)
include ok

/-- A read of an unlocked node returns what the node stores. -/
theorem read_unlocked (ha : a < h.next) (hv : h.version a % 4 = 0)
    (key : ARTKey w) (depth : ℕ) (o : Torn) : ∃ cell, h.cell a = some cell ∧
      h.readPrefix a key depth o = cell.testPrefix key depth ∧
      h.readChild a key depth o = cell.child key depth ∧ h.readFull a o = cell.isFull := by
  obtain ⟨cell, hcell, -⟩ := ok.cell a ha
  have hlock : isLocked (h.version a) = false := by
    rw [Bool.eq_false_iff, Ne, isLocked_iff]
    omega
  refine ⟨cell, hcell, ?_⟩
  cases cell <;> simp [readPrefix, readChild, readFull, isLeaf, hcell, hlock,
    Cell.isLeaf, Cell.testPrefix, Cell.child]

/-- A step that changes nothing in memory. -/
theorem Stepped.stay (ho : Owns h c pc) (hk : Locks h pc)
    (hl : pc'.linked = false → pc.linked = false) (hholds : ∀ a, pc'.holds a → pc.holds a)
    (hi : InsertOk h c pc') : Stepped h h c pc pc' where
  ok := ok
  insertOk := hi
  evolves := .refl h
  owns := ⟨ho.lt, ho.cell, ho.current, fun hd => ho.dead (hl hd)⟩
  locks a ha := hk a (hholds a ha)
  acquired a ha := .inl (hholds a ha)

theorem step_readVersion (hi : InsertOk h c (.readVersion f)) (hg : InsertPc.Proper h (.readVersion f))
    (hs : (isLocked (h.version f.node) || isObsolete (h.version f.node)) = false) :
    InsertOk h c (.readPrefix f (h.version f.node)) := by
  have hv : h.version f.node % 4 = 0 := by
    rw [Bool.or_eq_false_iff, Bool.eq_false_iff, Bool.eq_false_iff, Ne, Ne, isLocked_iff,
      isObsolete_iff] at hs
    omega
  refine ⟨hi, ⟨hv, le_rfl, fun _ => ⟨hg, trivial⟩⟩, fun hpar _ => ?_⟩
  exact (ok.root_onPath c.key (hg hpar)).live

theorem step_readPrefix (hi : InsertOk h c (.readPrefix f v)) :
    match h.readPrefix f.node c.key f.depth o with
    | .mismatch m => InsertOk h c (.lockParent f v (.splitPrefix m))
    | .passed depth => InsertOk h c (.readChild f v depth) := by
  have hview : View h c.key f v True := hi
  -- what was read is in the node if its version is still the same
  have hread : h.version f.node = v → ∃ cell, h.cell f.node = some cell ∧
      h.readPrefix f.node c.key f.depth o = cell.testPrefix c.key f.depth := by
    intro hv
    obtain ⟨cell, hcell, hp, -⟩ := read_unlocked ok hview.route.lt (hv ▸ hview.since.unlocked) c.key
      f.depth o
    exact ⟨cell, hcell, hp⟩
  split
  · next m hm =>
    refine ⟨hview.learn fun hv _ => ?_, rfl⟩
    obtain ⟨cell, hcell, hp⟩ := hread hv
    rw [hm] at hp
    cases cell with
    | leaf key2 x => cases hp
    | inner pfx n => exact ⟨pfx, n, hcell, testPrefix_mismatch.1 hp.symm⟩
  · next depth hd =>
    refine hview.learn fun hv _ => ?_
    obtain ⟨cell, hcell, hp⟩ := hread hv
    rw [Passed, hcell, map_some, ← hp, hd]

/-- A pointer that is read points to some node. -/
theorem readChild_lt (ha : a < h.next) (hall : o.child.all (· < h.next) = true)
    {child : ℕ} (hc : h.readChild a key depth o = some child) : child < h.next := by
  obtain ⟨cell, hcell, hin, -⟩ := ok.cell a ha
  unfold readChild at hc
  split_ifs at hc with hleaf hlock
  · rw [hc] at hall
    simpa using hall
  · rw [hcell, bind_some] at hc
    cases cell with
    | leaf key2 x => cases hc
    | inner pfx n =>
      obtain ⟨b, -, hb⟩ := bind_eq_some_iff.1 hc
      exact hin b child hb

theorem step_readChild (hi : InsertOk h c (.readChild f v depth)) (hall : o.child.all (· < h.next) = true) :
    InsertOk h c (.check f v depth (h.readChild f.node c.key depth o)) := by
  have hview : View h c.key f v (Passed h c.key f depth) := hi
  refine ⟨hview.learn fun hv hp => ⟨hp, ?_⟩, fun a ha => readChild_lt ok hview.route.lt hall ha⟩
  obtain ⟨cell, hcell, -, hch, -⟩ := read_unlocked ok hview.route.lt (hv ▸ hview.since.unlocked) c.key
    depth o
  rw [HasChild, hcell, hch, bind_some]

theorem step_readFull (hi : InsertOk h c (.readFull f v depth)) :
    if h.readFull f.node o then InsertOk h c (.lockParent f v (.grow depth))
    else InsertOk h c (.lockNode f v (.add depth)) := by
  obtain ⟨hview, hkind⟩ := hi
  -- the node as it is if its version is still the same
  have hread : h.version f.node = v → Passed h c.key f depth ∧ HasChild h c.key f depth none →
      ∃ pfx n, h.cell f.node = some (.inner pfx n) ∧ prefix_match pfx c.key f.depth = pfx.length ∧
        depth = f.depth + pfx.length ∧ c.key.data[depth]?.bind n.getChild = none ∧
        n.isFull = h.readFull f.node o := by
    intro hv hp
    obtain ⟨cell, hcell, -, -, hfull⟩ := read_unlocked ok hview.route.lt (hv ▸ hview.since.unlocked)
      c.key depth o
    obtain ⟨hpass, hchild⟩ := hp
    cases cell with
    | leaf key2 x => simp [isLeaf, hcell, Cell.isLeaf] at hkind
    | inner pfx n =>
      rw [Passed, hcell, map_some, some.injEq, testPrefix_passed] at hpass
      rw [HasChild, hcell] at hchild
      exact ⟨pfx, n, hcell, hpass.1, hpass.2, hchild, hfull.symm⟩
  split_ifs with hf
  · refine ⟨hview.learn fun hv hp => ?_, rfl⟩
    obtain ⟨pfx, n, hcell, hm, hd, hfree, hfull⟩ := hread hv hp
    exact ⟨pfx, n, hcell, hm, hd, hfree, hfull.trans hf⟩
  · refine ⟨hview.learn fun hv hp => ?_, fun hc => absurd hc (by simp [Change.locksParent])⟩
    obtain ⟨pfx, n, hcell, hm, hd, hfree, hfull⟩ := hread hv hp
    exact ⟨pfx, n, hcell, hm, hd, hfree, by simpa [hfull] using hf⟩

end

/-- The child of a node on the way of the key. -/
theorem Slot.of_child (ho : OnPath h key f.node f.depth) (hp : Passed h key f depth)
    (hch : HasChild h key f depth (some a)) : Slot h key f.node (depth + 1) a := by
  unfold HasChild at hch
  unfold Passed at hp
  cases hcell : h.cell f.node with
  | none => simp [hcell] at hp
  | some cell =>
    rw [hcell, bind_some] at hch
    rw [hcell, map_some, some.injEq] at hp
    cases cell with
    | leaf key2 x => cases hch
    | inner pfx n =>
      obtain ⟨b, hb, hg⟩ := bind_eq_some_iff.1 hch
      obtain ⟨hm, hd⟩ := testPrefix_passed.1 hp
      rw [← ho.depth, prefix_match_eq_iff ho.path] at hm
      have hlen : (h.path f.node ++ pfx).length = depth := by rw [List.length_append, ho.depth, hd]
      refine ⟨ho.live, pfx, n, b, hcell, ?_, by rw [hlen], hg⟩
      obtain ⟨rest, hrest⟩ := hm
      rw [← hlen, ← hrest] at hb
      cases rest with
      | nil => simp at hb
      | cons b' rest =>
        obtain rfl : b' = b := by simpa using hb
        exact ⟨rest, by simp [← hrest]⟩

theorem step_checkParent (ok : HeapOk h) {child : Option ℕ}
    (hi : InsertOk h c (.checkParent f v depth child)) (hs : h.parentSame f = true) : match child with
    | none => InsertOk h c (.compare f v)
    | some a => InsertOk h c (.readVersion ⟨a, depth + 1, some (f.node, v)⟩) := by
  obtain ⟨hview, hlt, hkind⟩ := hi
  cases child with
  | none =>
    refine ⟨hview.learn fun _ _ => trivial, ?_⟩
    obtain ⟨key2, x, hcell⟩ := isLeaf_iff.1 (hkind rfl)
    cases hpar : f.parent with
    | none => exact ⟨key2, x, hview.live hpar (hkind rfl), hcell, by simp [hview.route.depth hpar]⟩
    | some q =>
      have ho := (hview.route.placed (fun hc => absurd hc (by simp [hpar])) hs).onPath ok hview.route.depth
      have h2 := List.prefix_iff_eq_take.1 (ok.leaf_path ho.live hcell)
      have h1 := List.prefix_iff_eq_take.1 ho.path
      rw [ho.depth] at h1 h2
      exact ⟨key2, x, ho.live, hcell, h2.symm.trans h1⟩
  | some a =>
    refine ⟨hlt a rfl, fun hc => absurd hc (by simp), fun p pv hpar => ?_⟩
    obtain ⟨rfl, rfl⟩ := Prod.mk.inj (some.inj hpar)
    refine ⟨hview.route.lt, hview.since.unlocked, hview.since.le, fun hv => ?_⟩
    obtain ⟨hroot, hp, hch⟩ := hview.since.now hv
    exact Slot.of_child ((hview.route.placed hroot hs).onPath ok hview.route.depth) hp hch

theorem step_compare (hi : InsertOk h c (.compare f v)) : ∃ key2 x, h.cell f.node = some (.leaf key2 x) ∧
    if w ≤ f.depth + commonLength (key2.data.drop f.depth) (c.key.data.drop f.depth) then
      InsertOk h c .returned
    else InsertOk h c (.lockParent f v
      (.splitLeaf (commonLength (key2.data.drop f.depth) (c.key.data.drop f.depth)))) := by
  obtain ⟨hview, key2, x, hlive, hcell, ht⟩ := hi
  refine ⟨key2, x, hcell, ?_⟩
  split_ifs with hw
  · obtain rfl := key_eq_of_common ht hw
    exact ⟨f.node, x, hlive, hcell⟩
  · exact ⟨hview.learn fun _ _ => ⟨key2, x, hcell, rfl, not_le.1 hw⟩, rfl⟩

@[simp] theorem bump_self (h : Heap w V) (a d : ℕ) : (h.bump a d).version a = h.version a + d := by
  simp [bump]

theorem bump_of_ne (h : Heap w V) {a' : ℕ} (d : ℕ) (hne : a' ≠ a) :
    (h.bump a d).version a' = h.version a' := by
  simp [bump, hne]

/-- A step that locks or unlocks one node. -/
theorem Stepped.bump (ok : HeapOk h) (ho : Owns h c pc) {d : ℕ} (ha : a < h.next)
    (hm : pc.holds a ∨ h.version a % 4 = 0) (h3 : (h.version a + d) % 4 ≠ 3)
    (h1 : (h.version a + d) % 4 = 1 → h.live a = false ∧ h.isLeaf a = false)
    (hl : pc'.linked = false → pc.linked = false) (hi : InsertOk (h.bump a d) c pc')
    (hk : Locks (h.bump a d) pc') (hacq : ∀ a, pc'.holds a → pc.holds a ∨ h.version a % 4 = 0) :
    Stepped h (h.bump a d) c pc pc' := by
  have hev : Evolves pc.holds c.leaf h (h.bump a d) := by
    refine .bump hm fun key x hx hc => ?_
    have := (h1 hc).2
    rw [isLeaf_iff.2 ⟨key, x, hx⟩] at this
    cases this
  refine ⟨ok.bump ha h3 fun hlive hc => ?_, hi, hev, ⟨ho.lt, ho.cell, ?_, fun hd => ho.dead (hl hd)⟩,
    hk, hacq⟩
  · rw [(h1 hc).1] at hlive
    cases hlive
  · exact hev.leaf_version _ _ _ ho.cell ho.current

/-- Locking an unlocked node leaves everything known about other nodes as it is. -/
theorem lock_evolves (hun : h.version a % 4 = 0) : Evolves (fun _ => False) c.leaf h (h.bump a 0b10) :=
  .bump (.inr hun) fun _ _ _ => by omega

variable (ok : HeapOk h)
include ok

theorem step_lockParent (hi : InsertOk h c (.lockParent f v change))
    (ho : Owns h c (.lockParent f v change)) {p pv : ℕ} (hpar : f.parent = some (p, pv))
    (hv : h.version p = pv) :
    Stepped h (h.bump p 0b10) c (.lockParent f v change) (.lockNode f v change) := by
  obtain ⟨hview, -⟩ := hi
  obtain ⟨hlt, hs⟩ := hview.route.slot p pv hpar
  have hun : h.version p % 4 = 0 := hv ▸ hs.unlocked
  have hholds : ∀ a, (InsertPc.lockNode f v change).holds a → a = p := by
    rintro a ⟨-, pv', ha⟩
    rw [hpar] at ha
    cases ha
    rfl
  refine .bump ok ho hlt (.inr hun) (by omega) (fun _ => by omega) (fun _ => rfl) ⟨?_, ?_⟩ ?_ ?_
  · exact hview.evolves (lock_evolves (c := c) hun) (fun _ hf => hf.elim) fun hc hr => hr.calm hc
  · intro _ p' pv' hpar'
    rw [hpar] at hpar'
    cases hpar'
    exact hs.now hv
  · intro a ha
    obtain rfl := hholds a ha
    exact ⟨hlt, by rw [bump_self]; omega⟩
  · intro a ha
    exact .inr (hholds a ha ▸ hun)

theorem step_lockNode_add (hi : InsertOk h c (.lockNode f v (.add depth)))
    (ho : Owns h c (.lockNode f v (.add depth))) (hv : h.version f.node = v) :
    Stepped h (h.bump f.node 0b10) c (.lockNode f v (.add depth)) (.recheckParent f depth) := by
  obtain ⟨hview, -⟩ := hi
  have hun : h.version f.node % 4 = 0 := hv ▸ hview.since.unlocked
  obtain ⟨hroot, hready⟩ := hview.since.now hv
  refine .bump ok ho hview.route.lt (.inr hun) (by omega) (fun _ => by omega) (fun _ => rfl)
    ⟨?_, hroot, hready⟩ ?_ ?_
  · exact hview.route.evolves (lock_evolves (c := c) hun) fun _ hf => hf.elim
  · rintro a rfl
    exact ⟨hview.route.lt, by rw [bump_self]; omega⟩
  · rintro a rfl
    exact .inr hun

theorem step_lockNode (hi : InsertOk h c (.lockNode f v change))
    (ho : Owns h c (.lockNode f v change)) (hk : Locks h (.lockNode f v change))
    (hlocks : change.locksParent = true) (hv : h.version f.node = v) :
    Stepped h (h.bump f.node 0b10) c (.lockNode f v change) (.write f change) := by
  obtain ⟨hview, hslot⟩ := hi
  have hun : h.version f.node % 4 = 0 := hv ▸ hview.since.unlocked
  obtain ⟨hroot, hready⟩ := hview.since.now hv
  have hplaced : Placed h c.key f := by
    unfold Placed
    cases hpar : f.parent with
    | none => exact hroot hpar
    | some q => exact hslot hlocks q.1 q.2 hpar
  have hat := hplaced.onPath ok hview.route.depth
  refine .bump ok ho hview.route.lt (.inr hun) (by omega) (fun _ => by omega) (fun _ => rfl)
    ⟨⟨hat.live, hat.path, hat.depth⟩, hready, fun _ => hplaced⟩ ?_ ?_
  · rintro a (rfl | ha)
    · exact ⟨hview.route.lt, by rw [bump_self]; omega⟩
    · obtain ⟨hlt, hva⟩ := hk a ha
      have hne : a ≠ f.node := by
        intro heq
        rw [heq] at hva
        omega
      exact ⟨hlt, by rw [bump_of_ne h _ hne, hva]⟩
  · rintro a (rfl | ha)
    · exact .inr hun
    · exact .inl ha

theorem step_write (hi : InsertOk h c (.write f change))
    (ho : Owns h c (.write f change)) (hk : Locks h (.write f change)) :
    ∃ h', h.write c f change = some h' ∧ Stepped h h' c (.write f change) (.unlockNode f change) := by
  obtain ⟨hat, hready, hplaced⟩ := hi
  have hown : OwnLeaf h c := ⟨ho.lt, ho.cell, ho.dead rfl, ho.current⟩
  obtain ⟨h', hw, hwrote⟩ := write_spec ok hown hplaced hat hready
  have hev := hwrote.evolves
  refine ⟨h', hw, hwrote.ok, ⟨hwrote.linked, ?_, hwrote.retired⟩, hev, ?_, ?_, fun a ha => .inl ha⟩
  · exact fun hlocks pv hpar => ((hplaced hlocks).parent_ne ok hpar).2 rfl
  · exact ⟨ho.lt.trans_le hev.next_le, hev.leaf_cell _ _ _ ho.lt ho.cell,
      hev.leaf_version _ _ _ ho.cell ho.current, fun hc => absurd hc (by simp [InsertPc.linked])⟩
  · intro a ha
    obtain ⟨hlt, hv⟩ := hk a ha
    exact ⟨hlt.trans_le hev.next_le, by rw [hwrote.version, hv]⟩

theorem step_unlockNode (hi : InsertOk h c (.unlockNode f change))
    (ho : Owns h c (.unlockNode f change)) (hk : Locks h (.unlockNode f change)) {d : ℕ}
    (hd : d = 0b10 ∨ d = 0b11 ∧ ∃ depth, change = .grow depth)
    (hpc : pc' = .returned ∨ pc' = .unlockParent f ∧ change.locksParent = true) :
    Stepped h (h.bump f.node d) c (.unlockNode f change) pc' := by
  obtain ⟨hlinked, hne, hret⟩ := hi
  obtain ⟨hlt, hv⟩ := hk f.node (.inl rfl)
  have hholds : ∀ a, pc'.holds a → change.locksParent = true ∧ ∃ pv, f.parent = some (a, pv) := by
    intro a ha
    rcases hpc with rfl | ⟨rfl, hlocks⟩
    · exact ha.elim
    · exact ⟨hlocks, ha⟩
  refine .bump ok ho hlt (.inl (.inl rfl)) (by omega) (fun hone => ?_) (fun hl => ?_) ?_ ?_
    fun a ha => .inl (.inr (hholds a ha))
  · rcases hd with rfl | ⟨-, depth, hg⟩
    · omega
    · exact hret depth hg
  · rcases hpc with rfl | ⟨rfl, -⟩ <;> cases hl
  · rcases hpc with rfl | ⟨rfl, -⟩ <;> exact hlinked
  · intro a ha
    obtain ⟨hlocks, pv, hpar⟩ := hholds a ha
    have hna : a ≠ f.node := by
      rintro rfl
      exact hne hlocks pv hpar
    obtain ⟨hlta, hva⟩ := hk a (.inr ⟨hlocks, pv, hpar⟩)
    exact ⟨hlta, by rw [bump_of_ne h _ hna, hva]⟩

/-- The last lock of an insertion is given up. -/
theorem step_release (ho : Owns h c pc) (hk : Locks h pc) (ha : pc.holds a)
    (hl : pc'.linked = false → pc.linked = false) (hnone : ∀ a, ¬pc'.holds a)
    (hi : InsertOk (h.bump a 0b10) c pc') : Stepped h (h.bump a 0b10) c pc pc' := by
  obtain ⟨hlt, hv⟩ := hk a ha
  exact .bump ok ho hlt (.inl ha) (by omega) (fun _ => by omega) hl hi
    (fun a ha => absurd ha (hnone a)) fun a ha => absurd ha (hnone a)

/-- A tree without a root has no nodes. -/
theorem HeapOk.no_live (hg : h.root = none) (a : ℕ) : h.live a = false := by
  rw [Bool.eq_false_iff]
  intro hlive
  obtain ⟨r, hr, -⟩ := ok.wf.root_below hlive
  rw [radix_kid_none, hg] at hr
  cases hr

/-- The leaf becomes the root of the empty tree. -/
theorem step_storeRoot (ho : Owns h c .storeRoot) (hg : h.root = none) :
    Stepped h { h.enter c.leaf [] with root := some c.leaf } c .storeRoot .returned := by
  have hno := ok.no_live hg
  generalize hh : ({ h.enter c.leaf [] with root := some c.leaf } : Heap w V) = h'
  have hlive : ∀ a, h'.live a = true ↔ a = c.leaf := by
    intro a
    by_cases ha : a = c.leaf
    · simp [← hh, enter, ha]
    · simp [← hh, enter, ha, hno]
  have hroot : h'.root = some c.leaf := by rw [← hh]
  have hpath : h'.path c.leaf = [] := by simp [← hh, enter]
  have hcell : h'.cell = h.cell := by rw [← hh]; rfl
  have hversion : h'.version = h.version := by rw [← hh]; rfl
  have hnext : h'.next = h.next := by rw [← hh]; rfl
  have hkid : ∀ e a, h'.radix.kid e = some a ↔ e = none ∧ a = c.leaf := by
    intro e a
    cases e with
    | none => simp [hroot, eq_comm]
    | some e =>
      obtain ⟨a', b⟩ := e
      by_cases ha : a' = c.leaf
      · subst ha
        simp [radix_kid_leaf (by rw [hcell, ho.cell])]
      · have hdead : h'.live a' ≠ true := fun hc => ha ((hlive a').1 hc)
        simp [radix, hdead]
  have wf : h'.radix.WF := by
    refine ⟨fun {a b d} hk => ?_, fun {e d} hk => ?_, fun {e d} hk => ?_, fun {d} hd => ?_,
      fun {e e' d} hk hk' => ?_, fun {a} ha => ?_⟩
    · cases ((hkid _ _).1 hk).1
    · exact (hlive d).2 ((hkid _ _).1 hk).2
    · obtain ⟨rfl, rfl⟩ := (hkid _ _).1 hk
      exact hpath
    · exact ⟨none, (hkid _ _).2 ⟨rfl, (hlive d).1 hd⟩⟩
    · rw [((hkid _ _).1 hk).1, ((hkid _ _).1 hk').1]
    · obtain rfl := (hlive a).1 ha
      rw [radix_path, hpath]
      exact List.nil_prefix
  have hcell' : h'.cell c.leaf = some (.leaf c.key c.value) := by rw [hcell, ho.cell]
  refine ⟨⟨wf, fun a ha => ?_, fun a ha => ⟨?_, ?_⟩, ?_, fun a ha => ?_⟩,
    ⟨c.leaf, c.value, (hlive _).2 rfl, hcell'⟩, ⟨?_, ?_, hnext.ge, fun a ha _ => ?_, ?_, ?_,
      fun a _ _ ha => ?_, ?_, fun a _ _ hl => (hlive a).1 hl⟩, ⟨hnext ▸ ho.lt, hcell', ?_, ?_⟩,
    fun _ hf => hf.elim, fun _ hf => hf.elim⟩
  · obtain ⟨cell, hc, hin, -⟩ := ok.cell a (hnext ▸ ha)
    refine ⟨cell, by rw [hcell, hc], hnext ▸ hin, fun hl => ?_⟩
    rw [(hlive a).1 hl, ho.cell] at hc
    cases hc
    trivial
  · rw [Bool.eq_false_iff, Ne, hlive]
    exact (ho.lt.trans_le (hnext ▸ ha)).ne'
  · rw [hversion]
    exact (ok.unused a (hnext ▸ ha)).2
  · rw [hversion]
    exact ok.version
  · rw [(hlive a).1 ha, hversion]
    exact ho.current
  · rw [hversion]
    exact fun _ => le_rfl
  · rw [hversion]
    exact fun _ _ _ => rfl
  · have hdead : h.live a = true → False := fun hl => by cases (hno a).symm.trans hl
    exact ⟨by rw [hcell], fun hl => (hdead hl).elim, fun hl => (hdead hl).elim,
      fun hr => by cases hg.symm.trans hr⟩
  · intro a _
    rw [isLeaf, hcell, isLeaf]
  · intro a key x _ hc
    rw [hcell, hc]
  · cases (hno a).symm.trans ha
  · rw [hversion]
    exact fun _ _ _ _ hv => hv
  · rw [hversion]
    exact ho.current
  · exact fun hl => by cases hl

/-- **The steps of an insertion.** From what it knows, and the leaf and the locks it has, to what it
knows after the step. -/
theorem insertStep_spec (hi : InsertOk h c pc) (ho : Owns h c pc) (hk : Locks h pc)
    (hall : o.child.all (· < h.next) = true) (hg : pc.Proper h)
    (hs : insertStep h c o pc = some (h', pc')) : Stepped h h' c pc pc' := by
  -- a step that leaves the memory as it is and holds no lock
  have hstay : ∀ {q : InsertPc}, some (h, q) = some (h', pc') → pc.linked = false → (∀ a, ¬q.holds a) →
      InsertOk h c q → Stepped h h' c pc pc' := by
    intro q he hl hq hiq
    cases he
    exact .stay ok ho hk (fun _ => hl) (fun a ha => absurd ha (hq a)) hiq
  cases pc <;> simp only [insertStep] at hs
  case loadRoot =>
    cases hr : h.root <;> rw [hr] at hs
    case none =>
      exact hstay hs rfl (fun _ hf => hf) trivial
    case some r =>
      refine hstay hs rfl (fun _ hf => hf) ⟨?_, fun _ => rfl, by simp⟩
      exact ok.lt_next (ok.root_onPath c.key hr).live
  case storeRoot =>
    cases hs
    exact step_storeRoot ok ho hg
  case readVersion f =>
    split_ifs at hs with hv
    · exact hstay hs rfl (fun _ hf => hf) trivial
    · exact hstay hs rfl (fun _ hf => hf) (step_readVersion ok hi hg (by simpa using hv))
  case readPrefix f v =>
    have hstep := step_readPrefix (o := o) ok hi
    cases hr : h.readPrefix f.node c.key f.depth o <;> rw [hr] at hs hstep <;>
      exact hstay hs rfl (fun _ hf => hf) hstep
  case readChild f v depth => exact hstay hs rfl (fun _ hf => hf) (step_readChild ok hi hall)
  case check f v depth child =>
    split_ifs at hs with hv hc
    · exact hstay hs rfl (fun _ hf => hf) trivial
    · obtain ⟨rfl, hleaf⟩ := hc
      exact hstay hs rfl (fun _ hf => hf) ⟨hi.1, hleaf⟩
    · refine hstay hs rfl (fun _ hf => hf) ⟨hi.1, hi.2, fun hn => ?_⟩
      by_contra hleaf
      exact hc ⟨hn, by simpa using hleaf⟩
  case readFull f v depth =>
    have hstep := step_readFull (o := o) ok hi
    split_ifs at hs hstep with hf
    · exact hstay hs rfl (fun _ hf => hf) hstep
    · exact hstay hs rfl (fun _ hc => absurd hc.1 (by simp [Change.locksParent])) hstep
  case checkParent f v depth child =>
    split_ifs at hs with hp
    · exact hstay hs rfl (fun _ hf => hf) trivial
    · have hstep := step_checkParent ok hi (by simpa using hp)
      cases child <;> exact hstay hs rfl (fun _ hf => hf) hstep
  case compare f v =>
    obtain ⟨key2, x, hcell, hstep⟩ := step_compare hi
    simp only [hcell] at hs
    split_ifs at hs hstep <;> exact hstay hs rfl (fun _ hf => hf) hstep
  case lockParent f v change =>
    cases hpar : f.parent <;> rw [hpar] at hs
    case none =>
      refine hstay hs rfl (fun a ha => ?_) ⟨hi.1, fun _ p pv hp => ?_⟩
      · obtain ⟨-, pv, hp⟩ := ha
        rw [hpar] at hp
        cases hp
      · rw [hpar] at hp
        cases hp
    case some q =>
      simp only at hs
      split_ifs at hs with hv
      · cases hs
        exact step_lockParent ok hi ho hpar hv
      · exact hstay hs rfl (fun _ hf => hf) trivial
  case lockNode f v change =>
    split_ifs at hs with hv hl
    · cases change with
      | add depth =>
        cases hs
        exact step_lockNode_add ok hi ho hv
      | splitPrefix m | splitLeaf m | grow depth =>
        cases hs
        exact step_lockNode ok hi ho hk rfl hv
    · cases hs
      exact .stay ok ho hk (fun _ => rfl) (fun a ha => ⟨hl, ha⟩) trivial
    · exact hstay hs rfl (fun _ hf => hf) trivial
  case recheckParent f depth =>
    obtain ⟨hroute, hroot, hready⟩ := hi
    split_ifs at hs with hp <;> cases hs
    · refine .stay ok ho hk (fun _ => rfl) (fun a ha => ?_)
        ⟨(hroute.placed hroot hp).onPath ok hroute.depth, hready, fun hl => by cases hl⟩
      exact ha.resolve_right fun hc => by cases hc.1
    · exact .stay ok ho hk (fun _ => rfl) (fun _ ha => ha) trivial
  case write f change =>
    obtain ⟨h₁, hw, hstep⟩ := step_write ok hi ho hk
    rw [hw] at hs
    cases hs
    exact hstep
  case unlockNode f change =>
    cases change with
    | grow depth =>
      cases hs
      exact step_unlockNode ok hi ho hk (.inr ⟨rfl, depth, rfl⟩) (.inr ⟨rfl, rfl⟩)
    | add depth =>
      cases hs
      exact step_unlockNode ok hi ho hk (.inl rfl) (.inl rfl)
    | splitPrefix m | splitLeaf m =>
      cases hs
      exact step_unlockNode ok hi ho hk (.inl rfl) (.inr ⟨rfl, rfl⟩)
  case unlockParent f =>
    cases hpar : f.parent <;> rw [hpar] at hs
    case none =>
      cases hs
      exact .stay ok ho hk (fun hl => by cases hl) (fun _ hf => hf.elim) hi
    case some q =>
      cases hs
      exact step_release ok ho hk ⟨q.2, hpar⟩ (fun hl => by cases hl) (fun _ hf => hf) hi
  case yieldNode f =>
    cases hs
    exact step_release ok ho hk rfl (fun _ => rfl) (fun _ hf => hf) trivial
  case yieldParent f =>
    cases hpar : f.parent <;> rw [hpar] at hs
    case none =>
      exact hstay hs rfl (fun _ hf => hf) trivial
    case some q =>
      cases hs
      exact step_release ok ho hk ⟨q.2, hpar⟩ (fun _ => rfl) (fun _ hf => hf) trivial
  case returned | crashed => cases hs

end

end Proteus.Art.Olc
