import Proteus.Oltp.ArtOlcHeap

/-!
# The writes of an insertion

An insertion changes the tree by the operations of `Proteus.Radix`: a split puts a new node in front of
an old one and adds the leaf to it, a node that grows is replaced by a copy with the leaf, and
otherwise the leaf is added to the node. The writes succeed, keep the tree well formed, and touch only
the nodes the insertion has locked, its leaf, and new nodes (`write_spec`).
-/

namespace Proteus.Art.Olc

open Function Radix Heap List

attribute [local simp] Heap.enter Heap.set Heap.alloc Heap.leave copy

variable {w : ℕ} {V : Type}

/-! ## Linking a new node -/

/-- The node stands where its parent, or the root, says. -/
def Placed (h : Heap w V) (key : ARTKey w) (f : Frame) : Prop :=
  match f.parent with
  | none => h.root = some f.node
  | some (p, _) => Slot h key p f.depth f.node

/-- The nodes that are locked when a change is written. -/
def Frame.locks (f : Frame) (change : Change) (a : ℕ) : Prop :=
  a = f.node ∨ change.locksParent = true ∧ ∃ pv, f.parent = some (a, pv)

/-- The node `newNode` was written into the place `e`, which is the root or belongs to the parent. -/
structure Relinked (h h' : Heap w V) (f : Frame) (e : Option (ℕ × KeyUnit)) (newNode : ℕ) : Prop where
  kid : h'.radix.kid = update h.radix.kid e (some newNode)
  stop : h'.radix.stop = h.radix.stop
  live : h'.live = h.live
  path : h'.path = h.path
  version : h'.version = h.version
  next : h'.next = h.next
  cell : ∀ a, (∀ pv, f.parent ≠ some (a, pv)) → h'.cell a = h.cell a
  parent : ∀ a pv, f.parent = some (a, pv) → ∃ pfx n n' b, h.cell a = some (.inner pfx n) ∧
    h'.cell a = some (.inner pfx n') ∧ NodeOk w (h.path a ++ pfx) n' ∧
    n'.getChild = update n.getChild b (some newNode)
  root : f.parent ≠ none → h'.root = h.root

open ARTInnerNode

variable {f : Frame}

section

variable {h h₁ : Heap w V} {key : ARTKey w}

theorem link_spec (newNode : ℕ) (ok : HeapOk h) (hp : Placed h key f)
    (hold : ∀ p pv, f.parent = some (p, pv) →
      h₁.cell p = h.cell p ∧ h₁.live p = h.live p ∧ h₁.path p = h.path p) :
    ∃ e h₂, h.radix.kid e = some f.node ∧ h₁.link key f newNode = some h₂ ∧
      Relinked h₁ h₂ f e newNode := by
  cases hpar : f.parent with
  | none =>
    rw [Placed, hpar] at hp
    refine ⟨none, { h₁ with root := some newNode }, hp, by rw [link, hpar], ?_, rfl, rfl, rfl, rfl,
      rfl, fun _ _ => rfl, fun a pv hc => ?_, fun hc => absurd hpar hc⟩
    · funext e
      cases e <;> simp [radix]
    · rw [hpar] at hc
      cases hc
  | some q =>
    obtain ⟨p, pv⟩ := q
    rw [Placed, hpar] at hp
    obtain ⟨hlive, pfx, n, b, hc, hb, hd, hg⟩ := hp
    obtain ⟨hcell, hlive₁, hpath⟩ := hold p pv hpar
    rw [hc] at hcell
    rw [hlive] at hlive₁
    have hn := ok.node hlive hc
    obtain ⟨n', hn', ok', tallied', hg', -⟩ := insertChild_spec (a := newNode)
      hn.ok hn.tallied (.inr (by rw [hg]; rfl))
    have hbyte : key.data[f.depth - 1]? = some b := by
      obtain ⟨rest, hrest⟩ := hb
      rw [← hd, ← hrest]
      simp
    refine ⟨some (p, b), h₁.set p (.inner pfx n'), ?_, ?_, ?_, ?_, rfl, rfl, rfl, rfl,
      fun a ha => ?_, fun a pv' ha => ?_, fun _ => rfl⟩
    · rw [radix_kid hlive hc, hg]
    · simp [link, hpar, hcell, hbyte, hn']
    · funext e
      cases e with
      | none => simp [radix]
      | some e =>
        obtain ⟨a, b'⟩ := e
        by_cases ha : a = p
        · subst ha
          have hnew : (h₁.set a (.inner pfx n')).radix.kid (some (a, b')) = n'.getChild b' :=
            radix_kid hlive₁
              (show _ = some (Cell.inner pfx n') by simp)
          rw [hnew, hg', update_apply, update_apply, radix_kid hlive₁ hcell]
          simp
        · simp [radix, ha]
    · funext a
      by_cases ha : a = p
      · subst ha
        simp [radix, hcell, Cell.stop]
      · simp [radix, ha]
    · have hne : a ≠ p := by
        intro heq
        exact ha pv (heq ▸ hpar)
      simp [hne]
    · rw [hpar] at ha
      cases ha
      exact ⟨pfx, n, n', b, hcell, by simp, ⟨ok', tallied', hpath ▸ hn.short⟩, hg'⟩

end

/-- What an insertion has done to the tree. -/
structure Wrote (h h' : Heap w V) (c : Call w V) (f : Frame) (change : Change) : Prop where
  ok : HeapOk h'
  evolves : Evolves (f.locks change) c.leaf h h'
  linked : Linked h' c.key
  version : h'.version = h.version
  /-- a node that has grown is not in the tree any more -/
  retired : ∀ depth, change = .grow depth → h'.live f.node = false ∧ h'.isLeaf f.node = false

/-- The leaf of an insertion that has not written yet. -/
structure OwnLeaf (h : Heap w V) (c : Call w V) : Prop where
  lt : c.leaf < h.next
  cell : h.cell c.leaf = some (.leaf c.key c.value)
  dead : h.live c.leaf = false
  current : h.version c.leaf % 4 ≠ 1

section

variable {h : Heap w V} {c : Call w V} {change : Change} {pfx : List KeyUnit}
  {n n' : ARTInnerNode ℕ} {b b' : KeyUnit}

theorem OwnLeaf.ne (hl : OwnLeaf h c) {a : ℕ} (ha : h.live a = true) : a ≠ c.leaf := by
  intro heq
  rw [heq, hl.dead] at ha
  cases ha

/-- The changes stay with the locked nodes, the leaf and new nodes. -/
structure Patch (h h' : Heap w V) (c : Call w V) (f : Frame) (change : Change) : Prop where
  version : h'.version = h.version
  next_le : h.next ≤ h'.next
  unused : ∀ a, h'.next ≤ a → h'.live a = false
  cell : ∀ a, a < h.next → ¬f.locks change a → h'.cell a = h.cell a
  live : ∀ a, a < h.next → ¬f.locks change a → a ≠ c.leaf → h'.live a = h.live a
  path : ∀ a, a < h.next → ¬f.locks change a → a ≠ c.leaf → h'.path a = h.path a
  root : ∀ a, ¬f.locks change a → h.root = some a → h'.root = some a
  locked : ∀ a, f.locks change a → h.live a = true
  leaf : ∀ a key x, f.locks change a → h.cell a = some (.leaf key x) →
    h'.live a = true ∧ h'.cell a = some (.leaf key x)
  kind : ∀ a, f.locks change a → h'.isLeaf a = h.isLeaf a
  stored : ∀ a, a < h'.next → h.next ≤ a ∨ f.locks change a →
    ∃ cell, h'.cell a = some cell ∧ cell.Within h'.next ∧ (h'.live a = true → cell.Ok (h'.path a))
  own : h'.live c.leaf = true

variable (ok : HeapOk h) (hl : OwnLeaf h c)
include ok hl

theorem Patch.wrote {h' : Heap w V} (hp : Patch h h' c f change) (wf : h'.radix.WF)
    (hret : ∀ depth, change = .grow depth → h'.live f.node = false ∧ h'.isLeaf f.node = false) :
    Wrote h h' c f change := by
  have hlocks : ¬f.locks change c.leaf := fun hc => hl.ne (hp.locked _ hc) rfl
  have hleaf : h'.cell c.leaf = some (.leaf c.key c.value) := by
    rw [hp.cell _ hl.lt hlocks, hl.cell]
  have hcases : ∀ a, a = c.leaf ∨ (h.next ≤ a ∨ f.locks change a) ∨
      a < h.next ∧ ¬f.locks change a ∧ a ≠ c.leaf := by
    intro a
    by_cases h1 : a = c.leaf
    · exact .inl h1
    by_cases h2 : h.next ≤ a ∨ f.locks change a
    · exact .inr (.inl h2)
    · obtain ⟨hlt, hno⟩ := not_or.1 h2
      exact .inr (.inr ⟨not_le.1 hlt, hno, h1⟩)
  refine ⟨⟨wf, fun a ha => ?_, fun a ha => ⟨hp.unused a ha, ?_⟩, ?_, fun a ha => ?_⟩,
    ⟨?_, ?_, hp.next_le, fun a ha hno => ?_, fun a ha => ?_, fun a key x ha hx => ?_,
      fun a key x ha hx => ?_, fun a key x _ hv => ?_, fun a ha hd hl' => ?_⟩,
    ⟨c.leaf, c.value, hp.own, hleaf⟩, hp.version, hret⟩
  · rcases hcases a with rfl | hnew | ⟨hlt, hno, hne⟩
    · exact ⟨_, hleaf, fun b a hc => by simp [Cell.slot] at hc, fun _ => trivial⟩
    · exact hp.stored a ha hnew
    · rw [hp.cell a hlt hno, hp.path a hlt hno hne, hp.live a hlt hno hne]
      obtain ⟨cell, hcell, hin, hok⟩ := ok.cell a hlt
      exact ⟨cell, hcell, hin.mono hp.next_le, hok⟩
  · rw [hp.version]
    exact (ok.unused a (hp.next_le.trans ha)).2
  · rw [hp.version]
    exact ok.version
  · rw [hp.version]
    rcases hcases a with rfl | (hge | hlock) | ⟨hlt, hno, hne⟩
    · exact hl.current
    · rw [(ok.unused a hge).2]
      decide
    · exact ok.current a (hp.locked a hlock)
    · exact ok.current a (hp.live a hlt hno hne ▸ ha)
  · rw [hp.version]
    exact fun _ => le_rfl
  · rw [hp.version]
    exact fun _ _ _ => rfl
  · exact ⟨hp.cell a ha hno, fun hlive => (hp.live a ha hno (hl.ne hlive)).trans hlive,
      fun hlive => hp.path a ha hno (hl.ne hlive), hp.root a hno⟩
  · by_cases hlock : f.locks change a
    · exact hp.kind a hlock
    · rw [isLeaf, hp.cell a ha hlock, isLeaf]
  · by_cases hlock : f.locks change a
    · exact (hp.leaf a key x hlock hx).2
    · rw [hp.cell a ha hlock, hx]
  · by_cases hlock : f.locks change a
    · exact (hp.leaf a key x hlock hx).1
    · rw [hp.live a (ok.lt_next ha) hlock (hl.ne ha), ha]
  · rwa [hp.version]
  · by_contra hne
    by_cases hlock : f.locks change a
    · rw [hp.locked a hlock] at hd
      cases hd
    · rw [hp.live a ha hlock hne, hd] at hl'
      cases hl'

/-- The leaf becomes a child of an inner node. -/
theorem add_spec (hlive : h.live f.node = true)
    (hc : h.cell f.node = some (.inner pfx n)) (hb : h.path f.node ++ pfx ++ [b] <+: c.key.data)
    (hfree : n.getChild b = none) (ok' : n'.Ok) (tallied : n'.Tallied)
    (hg : n'.getChild = update n.getChild b (some c.leaf)) (depth : ℕ) :
    Wrote h ((h.set f.node (.inner pfx n')).enter c.leaf (h.path f.node ++ pfx ++ [b])) c f
      (.add depth) := by
  have hne : f.node ≠ c.leaf := hl.ne hlive
  generalize hh : (h.set f.node (.inner pfx n')).enter c.leaf (h.path f.node ++ pfx ++ [b]) = h'
  have hcell : ∀ a, a ≠ f.node → h'.cell a = h.cell a := by
    intro a ha
    simp [← hh, ha]
  have hnode : h'.cell f.node = some (.inner pfx n') := by simp [← hh]
  have hlive' : ∀ a, a ≠ c.leaf → h'.live a = h.live a := by
    intro a ha
    simp [← hh, ha]
  have hown : h'.live c.leaf = true := by simp [← hh]
  have hpath : ∀ a, a ≠ c.leaf → h'.path a = h.path a := by
    intro a ha
    simp [← hh, ha]
  have hpathOwn : h'.path c.leaf = h.path f.node ++ pfx ++ [b] := by simp [← hh]
  have hroot : h'.root = h.root := by rw [← hh]; rfl
  have hnext : h'.next = h.next := by rw [← hh]; rfl
  have hlocks : ∀ a, f.locks (.add depth) a ↔ a = f.node := by simp [Frame.locks, Change.locksParent]
  have hdead : ∀ a, h.next ≤ a → h'.live a = false := by
    intro a ha
    rw [hlive' a (hl.lt.trans_le ha).ne']
    exact (ok.unused a ha).1
  refine Patch.wrote ok hl ⟨by rw [← hh]; rfl, hnext.ge, fun a ha => ?_, fun a _ hno => hcell a ?_,
    fun a _ _ hal => hlive' a hal, fun a _ _ hal => hpath a hal, fun a _ hr => hroot.trans hr,
    fun a ha => ?_, fun a key x ha hx => ?_, fun a ha => ?_, fun a ha hnew => ?_, hown⟩ ?_ (by simp)
  · exact hdead a (hnext ▸ ha)
  · exact fun heq => hno ((hlocks a).2 heq)
  · rwa [(hlocks a).1 ha]
  · rw [(hlocks a).1 ha, hc] at hx
    cases hx
  · rw [(hlocks a).1 ha, isLeaf, hnode, isLeaf, hc]
    rfl
  · rcases hnew with hge | hlock
    · exact absurd (hnext ▸ ha) (not_lt.2 hge)
    · obtain rfl := (hlocks a).1 hlock
      exact ⟨_, hnode, hnext ▸ (ok.within hlive hc).update hg hl.lt,
        fun _ => ⟨ok', tallied, hpath _ hne ▸ (ok.node hlive hc).short⟩⟩
  · have hfree' : h.radix.kid (some (f.node, b)) = none := by rw [radix_kid hlive hc, hfree]
    have hleaf : h'.cell c.leaf = some (.leaf c.key c.value) := by rw [hcell _ hne.symm, hl.cell]
    refine (ok.wf.add (n := c.leaf) c.key.data hlive hfree' (by simp [hl.dead])
      (by rwa [radix_stop hc])).congr ?_ fun a => ?_
    · funext e
      cases e with
      | none => simp [hroot]
      | some e =>
        obtain ⟨a, b'⟩ := e
        by_cases ha : a = f.node
        · subst ha
          rw [radix_kid (by rw [hlive' _ hne, hlive]) hnode, hg, add_kid, update_apply,
            update_apply, radix_kid hlive hc]
          simp
        · by_cases hal : a = c.leaf
          · subst hal
            simp [radix_kid_leaf hleaf, hne.symm, radix_kid_leaf hl.cell]
          · simp [radix_kid_congr (hcell a ha) (hlive' a hal), ha]
    · by_cases hal : a = c.leaf
      · simp [hal, add, hown, hpathOwn, radix_stop_leaf hleaf, radix_stop hc]
      by_cases han : a = f.node
      · simp [han, add, hlive' _ hne, radix_stop hnode, hpath _ hne, hne, radix_stop hc]
      · simp [hal, add, hlive' a hal, hpath a hal, radix_stop_congr (hcell a han) (hpath a hal)]

omit hl in
theorem Placed.parent_ne (hp : Placed h c.key f) {p pv : ℕ}
    (hpar : f.parent = some (p, pv)) : h.live p = true ∧ p ≠ f.node := by
  rw [Placed, hpar] at hp
  obtain ⟨hlive, pfx, n, b, hc, -, -, hg⟩ := hp
  exact ⟨hlive, (ok.wf.kid_ne (a := p) (b := b) (c := f.node) (by rw [radix_kid hlive hc, hg])).symm⟩

/-- The memory before the new node is linked: the new node, the node and the leaf are written. -/
structure Prepared (h h₁ : Heap w V) (c : Call w V) (f : Frame) : Prop where
  version : h₁.version = h.version
  next : h₁.next = h.next + 1
  root : h₁.root = h.root
  cell : ∀ a, a ≠ h.next → a ≠ f.node → h₁.cell a = h.cell a
  live : ∀ a, a ≠ c.leaf → a ≠ h.next → a ≠ f.node → h₁.live a = h.live a
  path : ∀ a, a ≠ c.leaf → a ≠ h.next → a ≠ f.node → h₁.path a = h.path a
  own : h₁.live c.leaf = true
  new : ∃ cell, h₁.cell h.next = some cell ∧ cell.Within h.next ∧ cell.Ok (h₁.path h.next)
  node : ∃ cell, h₁.cell f.node = some cell ∧ cell.Within h.next ∧ cell.Ok (h₁.path f.node)
  kind : h₁.isLeaf f.node = h.isLeaf f.node
  leaf : ∀ key x, h.cell f.node = some (.leaf key x) →
    h₁.live f.node = true ∧ h₁.cell f.node = some (.leaf key x)

theorem Prepared.link {h₁ : Heap w V} (hpre : Prepared h h₁ c f)
    (hp : Placed h c.key f) (hlive : h.live f.node = true) (hchange : change.locksParent = true) :
    ∃ e h', h.radix.kid e = some f.node ∧ h₁.link c.key f h.next = some h' ∧
      Relinked h₁ h' f e h.next ∧ (h'.radix.WF →
        (∀ depth, change = .grow depth → h'.live f.node = false ∧ h'.isLeaf f.node = false) →
        Wrote h h' c f change) := by
  have hparent : ∀ p pv, f.parent = some (p, pv) → h₁.cell p = h.cell p ∧ h₁.live p = h.live p ∧
      h₁.path p = h.path p := by
    intro p pv hpar
    obtain ⟨hplive, hpn⟩ := hp.parent_ne ok hpar
    have hpm : p ≠ h.next := (ok.lt_next hplive).ne
    exact ⟨hpre.cell p hpm hpn, hpre.live p (hl.ne hplive) hpm hpn, hpre.path p (hl.ne hplive) hpm hpn⟩
  obtain ⟨e, h', he, hlink, hr⟩ := link_spec h.next ok hp hparent
  have hle : h.next ≤ h'.next := by
    rw [hr.next, hpre.next]
    exact Nat.le_succ _
  refine ⟨e, h', he, hlink, hr, fun wf hret => Patch.wrote ok hl ⟨hr.version.trans hpre.version, hle, ?_,
    fun a ha hno => ?_, fun a ha hno hal => ?_, fun a ha hno hal => ?_, fun a hno har => ?_, ?_, ?_, ?_,
    ?_, ?_⟩ wf hret⟩
  · intro a ha
    rw [hr.next, hpre.next] at ha
    have hn := ok.lt_next hlive
    have hlt := hl.lt
    rw [hr.live, hpre.live a (by omega) (by omega) (by omega)]
    exact (ok.unused a (by omega)).1
  · obtain ⟨hn, hpar⟩ := not_or.1 hno
    rw [hr.cell a fun pv hc => hpar ⟨hchange, pv, hc⟩, hpre.cell a ha.ne hn]
  · rw [hr.live, hpre.live a hal ha.ne (not_or.1 hno).1]
  · rw [hr.path, hpre.path a hal ha.ne (not_or.1 hno).1]
  · have hpar : f.parent ≠ none := by
      intro hc
      rw [Placed, hc] at hp
      have heq : some f.node = some a := hp.symm.trans har
      exact hno (.inl (Option.some.inj heq).symm)
    rw [hr.root hpar, hpre.root, har]
  · rintro a (rfl | ⟨-, pv, hpar⟩)
    · exact hlive
    · exact (hp.parent_ne ok hpar).1
  · rintro a key x (rfl | ⟨-, pv, hpar⟩) hx
    · rw [hr.live, hr.cell f.node fun pv hc => (hp.parent_ne ok hc).2 rfl]
      exact hpre.leaf key x hx
    · obtain ⟨pfx, n, n', b, hcell, -⟩ := hr.parent a pv hpar
      rw [(hparent a pv hpar).1, hx] at hcell
      cases hcell
  · rintro a (rfl | ⟨-, pv, hpar⟩)
    · rw [isLeaf, hr.cell f.node fun pv hc => (hp.parent_ne ok hc).2 rfl]
      exact hpre.kind
    · obtain ⟨pfx, n, n', b, hcell₁, hcell, -⟩ := hr.parent a pv hpar
      rw [(hparent a pv hpar).1] at hcell₁
      rw [isLeaf, hcell, isLeaf, hcell₁]
      rfl
  · intro a ha hnew
    rw [hr.path]
    by_cases hpar : ∃ pv, f.parent = some (a, pv)
    · obtain ⟨pv, hpar⟩ := hpar
      obtain ⟨pfx, n, n', b, hcell₁, hcell, hok, hg⟩ := hr.parent a pv hpar
      rw [(hparent a pv hpar).1] at hcell₁
      refine ⟨_, hcell, ?_, fun _ => hok⟩
      rw [hr.next, hpre.next]
      exact ((ok.within (hp.parent_ne ok hpar).1 hcell₁).mono (Nat.le_succ _)).update hg (Nat.lt_succ_self _)
    · rw [hr.cell a fun pv hc => hpar ⟨pv, hc⟩]
      rw [hr.next, hpre.next] at ha
      rcases hnew with hge | (rfl | ⟨-, hc⟩)
      · obtain rfl : a = h.next := le_antisymm (Nat.le_of_lt_succ ha) hge
        obtain ⟨cell, hcell, hin, hok⟩ := hpre.new
        exact ⟨cell, hcell, hin.mono hle, fun _ => hok⟩
      · obtain ⟨cell, hcell, hin, hok⟩ := hpre.node
        exact ⟨cell, hcell, hin.mono hle, fun _ => hok⟩
      · exact absurd hc hpar
  · rw [hr.live]
    exact hpre.own

omit hl in
/-- No node is at the address of the new one. -/
theorem next_dead : ¬h.radix.live h.next := by simp [(ok.unused _ le_rfl).1]

/-- A new node is put in front of the node, with the leaf as its other child. -/
theorem split_spec (pfx : List KeyUnit) (cell' : Cell w V) (change : Change)
    (hp : Placed h c.key f) (hlive : h.live f.node = true) {cell : Cell w V}
    (hc : h.cell f.node = some cell) (hslot : ∀ x, cell'.slot x = cell.slot x)
    (hstop : cell'.stop (h.path f.node ++ pfx ++ [b']) = cell.stop (h.path f.node))
    (hok : cell'.Ok (h.path f.node ++ pfx ++ [b']))
    (hkind : cell'.isLeaf = cell.isLeaf) (hleaf : ∀ key x, cell = .leaf key x → cell' = .leaf key x)
    (hb : h.path f.node ++ pfx ++ [b] <+: c.key.data)
    (hb' : h.path f.node ++ pfx ++ [b'] <+: cell.stop (h.path f.node)) (hbb : b ≠ b')
    (hn : NodeOk w (h.path f.node ++ pfx) n)
    (hg : n.getChild = update (update (fun _ => none) b' (some f.node)) b
      (some c.leaf)) (hchange : change.locksParent = true) (hgrow : ∀ depth, change ≠ .grow depth) :
    ∃ h', (((((h.alloc (.inner pfx n)).set f.node cell').enter h.next (h.path f.node)).enter f.node
      (h.path f.node ++ pfx ++ [b'])).enter c.leaf (h.path f.node ++ pfx ++ [b])).link c.key f h.next =
      some h' ∧ Wrote h h' c f change := by
  have hnl : f.node ≠ c.leaf := hl.ne hlive
  have hmn : h.next ≠ f.node := (ok.lt_next hlive).ne'
  have hml : h.next ≠ c.leaf := hl.lt.ne'
  generalize hh : ((((h.alloc (.inner pfx n)).set f.node cell').enter h.next (h.path f.node)).enter
    f.node (h.path f.node ++ pfx ++ [b'])).enter c.leaf (h.path f.node ++ pfx ++ [b]) = h₁
  have hnew : h₁.cell h.next = some (.inner pfx n) := by simp [← hh, hmn]
  have hnode : h₁.cell f.node = some cell' := by simp [← hh]
  have hnewLive : h₁.live h.next = true := by simp [← hh, hmn, hml]
  have hnodeLive : h₁.live f.node = true := by simp [← hh, hnl]
  have hpathNew : h₁.path h.next = h.path f.node := by simp [← hh, hmn, hml]
  have hpathNode : h₁.path f.node = h.path f.node ++ pfx ++ [b'] := by simp [← hh, hnl]
  have hpathOwn : h₁.path c.leaf = h.path f.node ++ pfx ++ [b] := by simp [← hh]
  have hpre : Prepared h h₁ c f := by
    refine ⟨by rw [← hh]; rfl, by rw [← hh]; rfl, by rw [← hh]; rfl, fun a h1 h2 => ?_,
      fun a h1 h2 h3 => ?_, fun a h1 h2 h3 => ?_, ?_, ⟨_, hnew, ?_, hpathNew ▸ hn⟩,
      ⟨_, hnode, fun x a ha => ok.within hlive hc x a (hslot x ▸ ha), hpathNode ▸ hok⟩, ?_,
      fun key x hx => ⟨hnodeLive, ?_⟩⟩
    · simp [← hh, h1, h2]
    · simp [← hh, h1, h2, h3]
    · simp [← hh, h1, h2, h3]
    · simp [← hh]
    · intro x a ha
      rw [Cell.slot, hg, update_apply, update_apply] at ha
      split_ifs at ha <;> cases ha
      · exact hl.lt
      · exact ok.lt_next hlive
    · rwa [isLeaf, hnode, isLeaf, hc]
    · rw [hc] at hx
      rw [hnode, hleaf key x (Option.some.inj hx)]
  obtain ⟨e, h', he, hlink, hr, hwrote⟩ := hpre.link ok hl hp hlive hchange
  refine ⟨h', hlink, hwrote ?_ fun depth hc => absurd hc (hgrow depth)⟩
  have hdead := next_dead ok
  have hem := ok.wf.ne_of_kid hdead he
  have hstopNode : h.radix.stop f.node = cell.stop (h.path f.node) := by simp [radix, hc]
  have hown : h₁.cell c.leaf = some (.leaf c.key c.value) := by
    rw [hpre.cell _ hml.symm hnl.symm, hl.cell]
  have hwf := (ok.wf.wrap pfx he hdead (by rwa [hstopNode])).add
    (b := b) (n := c.leaf) c.key.data (.inl rfl)
    (by simp [hbb, (hem b).symm, ok.wf.no_kid hdead]) (by simp [wrap, hml.symm, hl.dead])
    (by simpa using hb)
  refine hwf.congr ?_ fun a => ?_
  · rw [hr.kid]
    funext e'
    by_cases hee : e' = e
    · subst hee
      simp [hem]
    · cases e' with
      | none => simp [hee, hpre.root]
      | some e' =>
        obtain ⟨a, x⟩ := e'
        by_cases h1 : a = h.next
        · subst h1
          simp [hee, radix_kid hnewLive hnew, hg, update_apply, ok.wf.no_kid hdead]
        by_cases h2 : a = f.node
        · subst h2
          simp [hee, h1, radix, hnodeLive, hlive, hnode, hc, hslot]
        by_cases h3 : a = c.leaf
        · subst h3
          simp [hee, h1, radix_kid_leaf hown, radix_kid_leaf hl.cell]
        · simp [hee, h1, radix_kid_congr (hpre.cell a h1 h2) (hpre.live a h3 h1 h2)]
  · rw [radix_live, hr.live, radix_path, hr.path, hr.stop]
    by_cases h1 : a = c.leaf
    · simp [h1, add, hpre.own, hpathOwn, radix_stop_leaf hown]
    by_cases h2 : a = h.next
    · simp [h2, add, wrap, hmn, hml, hnewLive, hpathNew, radix_stop hnew]
    by_cases h3 : a = f.node
    · have hstop₁ : h₁.radix.stop f.node = cell.stop (h.path f.node) := by
        simp only [radix, hnode, hpathNode, Option.map_some, Option.getD_some, hstop]
      simp [h3, add, wrap, hnl, hmn.symm, hlive, hnodeLive, hpathNode, hstop₁, hstopNode]
    · simp [h1, h2, h3, add, wrap, hpre.live a h1 h2 h3, hpre.path a h1 h2 h3,
        radix_stop_congr (hpre.cell a h2 h3) (hpre.path a h1 h2 h3)]

/-- A new node with the leaf takes the place of the node. -/
theorem grow_spec (change : Change) (hp : Placed h c.key f) (hlive : h.live f.node = true)
    (hc : h.cell f.node = some (.inner pfx n))
    (hb : h.path f.node ++ pfx ++ [b] <+: c.key.data) (hfree : n.getChild b = none) (ok' : n'.Ok)
    (tallied : n'.Tallied) (hg : n'.getChild = update n.getChild b (some c.leaf))
    (hchange : change.locksParent = true) :
    ∃ h', ((((h.alloc (.inner pfx n')).leave f.node).enter h.next (h.path f.node)).enter c.leaf
      (h.path f.node ++ pfx ++ [b])).link c.key f h.next = some h' ∧ Wrote h h' c f change := by
  have hnl : f.node ≠ c.leaf := hl.ne hlive
  have hmn : h.next ≠ f.node := (ok.lt_next hlive).ne'
  have hml : h.next ≠ c.leaf := hl.lt.ne'
  have hshort := (ok.node hlive hc).short
  generalize hh : (((h.alloc (.inner pfx n')).leave f.node).enter h.next (h.path f.node)).enter c.leaf
    (h.path f.node ++ pfx ++ [b]) = h₁
  have hnew : h₁.cell h.next = some (.inner pfx n') := by simp [← hh]
  have hnode : h₁.cell f.node = some (.inner pfx n) := by simp [← hh, hmn.symm, hc]
  have hnewLive : h₁.live h.next = true := by simp [← hh, hml]
  have hnodeLive : h₁.live f.node = false := by simp [← hh, hnl, hmn.symm]
  have hpathNew : h₁.path h.next = h.path f.node := by simp [← hh, hml]
  have hpathNode : h₁.path f.node = h.path f.node := by simp [← hh, hnl, hmn.symm]
  have hpathOwn : h₁.path c.leaf = h.path f.node ++ pfx ++ [b] := by simp [← hh]
  have hpre : Prepared h h₁ c f := by
    refine ⟨by rw [← hh]; rfl, by rw [← hh]; rfl, by rw [← hh]; rfl, fun a h1 h2 => ?_,
      fun a h1 h2 h3 => ?_, fun a h1 h2 h3 => ?_, ?_, ⟨_, hnew,
      (ok.within hlive hc).update hg hl.lt, ok', tallied, hpathNew ▸ hshort⟩,
      ⟨_, hnode, ok.within hlive hc, hpathNode ▸ ok.node hlive hc⟩, ?_,
      fun key x hx => ?_⟩
    · simp [← hh, h1]
    · simp [← hh, h1, h2, h3]
    · simp [← hh, h1, h2]
    · simp [← hh]
    · rw [isLeaf, hnode, isLeaf, hc]
    · rw [hc] at hx
      cases hx
  obtain ⟨e, h', he, hlink, hr, hwrote⟩ := hpre.link ok hl hp hlive hchange
  refine ⟨h', hlink, hwrote ?_ fun _ _ => ⟨by rw [hr.live, hnodeLive], ?_⟩⟩
  swap
  · rw [isLeaf, hr.cell f.node fun pv hc => (hp.parent_ne ok hc).2 rfl, hnode]
    rfl
  have hdead := next_dead ok
  have hem := ok.wf.ne_of_kid hdead he
  have hown : h₁.cell c.leaf = some (.leaf c.key c.value) := by
    rw [hpre.cell _ hml.symm hnl.symm, hl.cell]
  have hwf := (ok.wf.copy (n := h.next) he hdead).add (a := h.next) (b := b) (n := c.leaf)
    c.key.data (.inl rfl) (by simp [(hem b).symm, radix_kid hlive hc, hfree])
    (by simp [hml.symm, hl.dead]) (by simpa [radix_stop hc] using hb)
  refine hwf.congr ?_ fun a => ?_
  · rw [hr.kid]
    funext e'
    by_cases hee : e' = e
    · subst hee
      simp [hem]
    · cases e' with
      | none => simp [hee, hpre.root]
      | some e' =>
        obtain ⟨a, x⟩ := e'
        by_cases h1 : a = h.next
        · subst h1
          simp [hee, radix_kid hnewLive hnew, hg, update_apply, radix_kid hlive hc]
        by_cases h2 : a = f.node
        · subst h2
          simp [hee, h1, radix, hnodeLive]
        by_cases h3 : a = c.leaf
        · subst h3
          simp [hee, h1, h2, radix_kid_leaf hown, radix_kid_leaf hl.cell]
        · simp [hee, h1, h2, radix_kid_congr (hpre.cell a h1 h2) (hpre.live a h3 h1 h2)]
  · rw [radix_live, hr.live, radix_path, hr.path, hr.stop]
    by_cases h1 : a = c.leaf
    · simp [h1, add, hpre.own, hpathOwn, radix_stop hc, radix_stop_leaf hown]
    by_cases h2 : a = h.next
    · simp [h2, add, hml, hnewLive, hpathNew, radix_stop hnew, radix_stop hc]
    by_cases h3 : a = f.node
    · simp [h3, add, hnl, hmn.symm, hnodeLive, hpathNode, radix_stop hnode, radix_stop hc]
    · simp [h1, h2, h3, add, hpre.live a h1 h2 h3, hpre.path a h1 h2 h3,
        radix_stop_congr (hpre.cell a h2 h3) (hpre.path a h1 h2 h3)]

omit ok hl

/-- What an insertion has seen in the node before it changes the tree there. -/
def Ready (h : Heap w V) (key : ARTKey w) (f : Frame) : Change → Prop
  | .splitPrefix m => ∃ pfx n, h.cell f.node = some (.inner pfx n) ∧
    prefix_match pfx key f.depth = m ∧ m ≠ pfx.length
  | .splitLeaf m => ∃ key2 x, h.cell f.node = some (.leaf key2 x) ∧
    commonLength (key2.data.drop f.depth) (key.data.drop f.depth) = m ∧ f.depth + m < w
  | .grow depth => ∃ pfx n, h.cell f.node = some (.inner pfx n) ∧
    prefix_match pfx key f.depth = pfx.length ∧ depth = f.depth + pfx.length ∧
    key.data[depth]?.bind n.getChild = none ∧ n.isFull = true
  | .add depth => ∃ pfx n, h.cell f.node = some (.inner pfx n) ∧
    prefix_match pfx key f.depth = pfx.length ∧ depth = f.depth + pfx.length ∧
    key.data[depth]?.bind n.getChild = none ∧ n.isFull = false

theorem getElem_of_prefix {path : List KeyUnit} {key : ARTKey w} (h : path ++ [b] <+: key.data) :
    key.data[path.length]? = some b := by
  obtain ⟨rest, hrest⟩ := h
  simp [← hrest]

/-- Two words that go on behind `path` share some bytes there and separate at the next one. -/
theorem separate {β : Type*} [DecidableEq β] {path k k' : List β} (hp : path <+: k)
    (hp' : path <+: k') (hlt : path.length + commonLength (k.drop path.length) (k'.drop path.length) <
      k.length)
    (hlt' : path.length + commonLength (k.drop path.length) (k'.drop path.length) < k'.length) :
    ∃ cs a b, cs.length = commonLength (k.drop path.length) (k'.drop path.length) ∧
      path ++ cs ++ [a] <+: k ∧ path ++ cs ++ [b] <+: k' ∧ a ≠ b := by
  obtain ⟨cs, hlen, hcs, hcs', hne⟩ := commonLength_spec (k.drop path.length) (k'.drop path.length)
  have hnext : ∀ {l : List β}, path <+: l → cs <+: l.drop path.length →
      path.length + cs.length < l.length →
      ∃ a, cs ++ [a] <+: l.drop path.length ∧ path ++ cs ++ [a] <+: l := by
    intro l hl hcs hlt
    obtain ⟨rest, hrest⟩ := hcs
    cases rest with
    | nil =>
      have := congrArg length hrest
      simp at this
      omega
    | cons a rest =>
      have hcs : cs ++ [a] <+: l.drop path.length := ⟨rest, by simpa using hrest⟩
      refine ⟨a, hcs, ?_⟩
      rwa [← prefix_iff_eq_append.1 hl, append_assoc, prefix_append_right_inj]
  rw [hlen] at hlt hlt'
  obtain ⟨a, ha, hpa⟩ := hnext hp hcs hlt
  obtain ⟨b, hb, hpb⟩ := hnext hp' hcs' hlt'
  exact ⟨cs, a, b, hlen.symm, hpa, hpb, hne a b ha hb⟩

include ok

/-- The byte of the key behind the prefix of a node, and the free slot there. -/
theorem free_slot (hat : OnPath h c.key f.node f.depth) (hc : h.cell f.node = some (.inner pfx n))
    (hm : prefix_match pfx c.key f.depth = pfx.length)
    (hfree : c.key.data[f.depth + pfx.length]?.bind n.getChild = none) :
    ∃ b, h.path f.node ++ pfx ++ [b] <+: c.key.data ∧ c.key.data[f.depth + pfx.length]? = some b ∧
      n.getChild b = none := by
  obtain ⟨hlive, hpath, hdepth⟩ := hat
  rw [← hdepth, prefix_match_eq_iff hpath] at hm
  obtain ⟨b, hb⟩ := exists_byte hm (ok.node hlive hc).short
  have hget := getElem_of_prefix hb
  rw [length_append, hdepth] at hget
  rw [hget] at hfree
  exact ⟨b, hb, hget, hfree⟩

include hl

section

variable (hp : Placed h c.key f) (hat : OnPath h c.key f.node f.depth)
include hp hat

theorem write_splitPrefix {m : ℕ} (hr : Ready h c.key f (.splitPrefix m)) :
    ∃ h', h.write c f (.splitPrefix m) = some h' ∧ Wrote h h' c f (.splitPrefix m) := by
  obtain ⟨pfx, n, hc, hm, hne⟩ := hr
  obtain ⟨hlive, hpath, hdepth⟩ := hat
  have hn := ok.node hlive hc
  have hshort := hn.short
  have hlt : m < pfx.length := by
    obtain ⟨cs, hlen, hcs, -⟩ := commonLength_spec pfx (c.key.data.drop f.depth)
    rw [prefix_match, hlen] at hm
    exact lt_of_le_of_ne (hm ▸ hcs.length_le) hne
  have hcommon : commonLength ((h.path f.node ++ pfx).drop (h.path f.node).length)
      (c.key.data.drop (h.path f.node).length) = m := by
    rwa [drop_left, hdepth]
  rw [length_append] at hshort
  obtain ⟨cs, b', b, hcs, hb', hb, hbb⟩ := separate (prefix_append _ pfx) hpath
    (by rw [hcommon, length_append]; omega) (by rw [hcommon, c.key.len]; omega)
  rw [hcommon] at hcs
  subst hcs
  obtain ⟨tail, rfl⟩ : ∃ tail, pfx = cs ++ b' :: tail := by
    rw [append_assoc, prefix_append_right_inj] at hb'
    obtain ⟨tail, htail⟩ := hb'
    exact ⟨tail, by simp [← htail]⟩
  obtain ⟨n', hn', hno, hnt, hng⟩ := pair_ok b b' c.leaf f.node
  rw [update_comm hbb.symm] at hng
  obtain ⟨h', hlink, hw⟩ := split_spec ok hl cs (.inner tail n) (.splitPrefix cs.length) hp hlive hc (fun _ => rfl)
    (by simp [Cell.stop]) (by simpa [Cell.Ok] using hn) rfl (by simp) hb hb' hbb.symm
    ⟨hno, hnt, by rw [length_append]; omega⟩ hng rfl (by simp)
  have hget := getElem_of_prefix hb
  rw [length_append, hdepth] at hget
  refine ⟨h', ?_, hw⟩
  simpa [write, hc, hget, hn'] using hlink

theorem write_splitLeaf {m : ℕ} (hr : Ready h c.key f (.splitLeaf m)) :
    ∃ h', h.write c f (.splitLeaf m) = some h' ∧ Wrote h h' c f (.splitLeaf m) := by
  obtain ⟨key2, x, hc, hm, hlt⟩ := hr
  obtain ⟨hlive, hpath, hdepth⟩ := hat
  have hpath2 := ok.leaf_path hlive hc
  rw [← hdepth] at hm hlt
  obtain ⟨cs, b', b, hcs, hb', hb, hbb⟩ := separate hpath2 hpath (by rwa [hm, key2.len])
    (by rwa [hm, c.key.len])
  rw [hm] at hcs
  subst hcs
  obtain ⟨n', hn', hno, hnt, hng⟩ := pair_ok b' b f.node c.leaf
  obtain ⟨h', hlink, hw⟩ := split_spec ok hl cs (.leaf key2 x) (.splitLeaf cs.length) hp hlive hc
    (fun _ => rfl) rfl trivial
    rfl (fun _ _ hx => hx) hb hb' hbb.symm ⟨hno, hnt, by rwa [length_append]⟩ hng rfl
    (by simp)
  have hget := getElem_of_prefix hb
  have hget' := getElem_of_prefix hb'
  rw [length_append, hdepth] at hget hget'
  have htake : (c.key.data.drop f.depth).take cs.length = cs := by
    obtain ⟨rest, hrest⟩ := hb
    rw [← hdepth, ← hrest]
    simp
  -- the node itself is not written
  have hset : (h.alloc (.inner cs n')).set f.node (.leaf key2 x) = h.alloc (.inner cs n') := by
    have : (h.alloc (.inner cs n')).cell f.node = some (.leaf key2 x) := by
      simp [(ok.lt_next hlive).ne, hc]
    rw [Heap.set, ← this, update_eq_self]
  rw [hset] at hlink
  refine ⟨h', ?_, hw⟩
  simpa [write, hc, hget, hget', hn', htake] using hlink

theorem write_grow {depth : ℕ} (hr : Ready h c.key f (.grow depth)) :
    ∃ h', h.write c f (.grow depth) = some h' ∧ Wrote h h' c f (.grow depth) := by
  obtain ⟨pfx, n, hc, hm, rfl, hfree, hfull⟩ := hr
  have hn := ok.node hat.live hc
  obtain ⟨b, hb, hget, hfree⟩ := free_slot ok hat hc hm hfree
  obtain ⟨n', hn', ok', tallied', hg'⟩ := addChild_spec hn.ok hn.tallied hfree
  obtain ⟨h', hlink, hw⟩ := grow_spec ok hl (.grow (f.depth + pfx.length)) hp hat.live hc hb
    hfree ok' tallied' hg' rfl
  rw [addChild, if_pos hfull, Option.bind_eq_some_iff] at hn'
  obtain ⟨n₁, hgrow, hn'⟩ := hn'
  refine ⟨h', ?_, hw⟩
  simpa [write, hc, hget, hgrow, hn'] using hlink

end

theorem write_add (hat : OnPath h c.key f.node f.depth) {depth : ℕ} (hr : Ready h c.key f (.add depth)) :
    ∃ h', h.write c f (.add depth) = some h' ∧ Wrote h h' c f (.add depth) := by
  obtain ⟨pfx, n, hc, hm, rfl, hfree, hfull⟩ := hr
  have hn := ok.node hat.live hc
  obtain ⟨b, hb, hget, hfree⟩ := free_slot ok hat hc hm hfree
  obtain ⟨n', hn', ok', tallied', hg'⟩ := addChild_spec hn.ok hn.tallied hfree
  have hw := add_spec ok hl hat.live hc hb hfree ok' tallied' hg' (f.depth + pfx.length)
  rw [addChild, if_neg (by simp [hfull])] at hn'
  refine ⟨_, ?_, hw⟩
  simp [write, hc, hget, hn']

/-- **The writes of an insertion.** They succeed, and the leaf is in the tree after them. -/
theorem write_spec (hp : change.locksParent = true → Placed h c.key f) (hat : OnPath h c.key f.node f.depth)
    (hr : Ready h c.key f change) : ∃ h', h.write c f change = some h' ∧ Wrote h h' c f change := by
  cases change with
  | splitPrefix m => exact write_splitPrefix ok hl (hp rfl) hat hr
  | splitLeaf m => exact write_splitLeaf ok hl (hp rfl) hat hr
  | grow depth => exact write_grow ok hl (hp rfl) hat hr
  | add depth => exact write_add ok hl hat hr

end

end Proteus.Art.Olc
