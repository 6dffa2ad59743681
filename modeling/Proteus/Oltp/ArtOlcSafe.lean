import Proteus.Oltp.ArtOlcInsert

/-!
# No insertion is lost

A lookup checks the version of a node again after it has used the node, so that a result computed from
a node that was locked or changed in between is thrown away (`FindOk`). Together with what insertions
know (`InsertOk`) this is an invariant of all threads, and under it a lookup of an inserted key returns
a value.

The code does not keep it by itself. The root pointer has no version: two insertions into the empty
tree overwrite each other's root, and a thread that has loaded the root may find it replaced, and
already unlocked, when it reads its version. In a lookup, the restart that a locked node asks for is
overwritten by the next check, and a child that is null because the node has changed is called upon.
In every run without these four races the specification holds (`safe_of_proper`).
-/

namespace Proteus.Art.Olc

open Option

variable {w : ℕ} {V : Type}

/-! ## What a lookup knows -/

/-- If a stale node was used, the check to come will see another version. -/
def Caught (h : Heap w V) (stale : Bool) (a v : ℕ) : Prop := stale = true → h.version a ≠ v

def FindOk (h : Heap w V) (key : ARTKey w) (inserted : Bool) : FindPc V → Bool → Prop
  | .loadRoot, _ => True
  | .firstVersion a, stale => stale = false ∧ a < h.next
  | .readVersion f, stale => Route h key f ∧
    (f.parent = none → stale = false) ∧ ∀ p pv, f.parent = some (p, pv) → Caught h stale p pv
  | .checkParent f v, stale => (Route h key f ∧
    (f.parent = none → stale = false) ∧ ∀ p pv, f.parent = some (p, pv) → Caught h stale p pv) ∧
    v % 4 ≠ 3 ∧ (v % 4 = 1 → f.parent ≠ none ∧ h.version f.node = v) ∧
    (v % 4 = 0 → Since h f.node v (RootOf h f))
  | .checkNode f v, stale => stale = false ∧ f.node < h.next ∧ (v % 4 = 0 ∨ v % 4 = 2) ∧
    (v % 4 = 0 → Since h f.node v (OnPath h key f.node f.depth))
  | .useNode f v, stale => stale = false ∧ f.node < h.next ∧
    Since h f.node v (OnPath h key f.node f.depth)
  | .readChild f v depth, stale => Caught h stale f.node v ∧ f.node < h.next ∧
    h.isLeaf f.node = false ∧ Since h f.node v (OnPath h key f.node f.depth ∧ Passed h key f depth)
  | .checkLeaf f v r, stale => Caught h stale f.node v ∧ f.node < h.next ∧
    Since h f.node v (inserted = true → r.isSome = true)
  | .checkMiss f v, stale => Caught h stale f.node v ∧ f.node < h.next ∧
    Since h f.node v (inserted = false)
  | .returned r, stale => stale = false ∧ (inserted = true → r.isSome = true)
  | .crashed, _ => inserted = false

variable {key : ARTKey w}

section

variable {mine : ℕ → Prop} {leaf a v : ℕ} {h h' : Heap w V} {inserted stale : Bool} {pc : FindPc V}

theorem Caught.evolves (hc : Caught h stale a v) (hle : v ≤ h.version a) (hev : Evolves mine leaf h h') :
    Caught h' stale a v := by
  intro hs heq
  have := hev.version_le a
  exact hc hs (by omega)

/-- What a lookup knows is not changed by a step of another thread. -/
theorem FindOk.evolves (hf : FindOk h key inserted pc stale) (hev : Evolves mine leaf h h')
    (hmine : ∀ a, mine a → h.version a % 4 = 2) : FindOk h' key inserted pc stale := by
  have hroute : ∀ f, (Route h key f ∧ (f.parent = none → stale = false) ∧
      ∀ p pv, f.parent = some (p, pv) → Caught h stale p pv) →
      Route h' key f ∧ (f.parent = none → stale = false) ∧
        ∀ p pv, f.parent = some (p, pv) → Caught h' stale p pv := by
    intro f hr
    exact ⟨hr.1.evolves hev hmine, hr.2.1, fun p pv hpar =>
      (hr.2.2 p pv hpar).evolves (hr.1.slot p pv hpar).2.le hev⟩
  cases pc with
  | loadRoot => trivial
  | firstVersion a => exact ⟨hf.1, hf.2.trans_le hev.next_le⟩
  | readVersion f => exact hroute f hf
  | checkParent f v =>
    obtain ⟨hr, h3, h1, h0⟩ := hf
    refine ⟨hroute f hr, h3, fun hv => ⟨(h1 hv).1, ?_⟩, fun hv => ?_⟩
    · have heq := (h1 hv).2
      rw [hev.version_eq f.node (fun hm => ?_) (by omega), heq]
      have := hmine f.node hm
      omega
    · exact (h0 hv).evolves hev hmine hr.1.lt fun hc hroot => hroot.calm hc
  | checkNode f v =>
    obtain ⟨hs, hlt, hv, h0⟩ := hf
    exact ⟨hs, hlt.trans_le hev.next_le, hv, fun he =>
      (h0 he).evolves hev hmine hlt fun hc ho => ho.calm hc⟩
  | useNode f v =>
    obtain ⟨hs, hlt, h0⟩ := hf
    exact ⟨hs, hlt.trans_le hev.next_le, h0.evolves hev hmine hlt fun hc ho => ho.calm hc⟩
  | readChild f v depth =>
    obtain ⟨hs, hlt, hkind, h0⟩ := hf
    refine ⟨hs.evolves h0.le hev, hlt.trans_le hev.next_le, by rw [hev.kind _ hlt, hkind],
      h0.evolves hev hmine hlt fun hc ho => ?_⟩
    exact ⟨ho.1.calm hc, by rw [Passed, hc.cell]; exact ho.2⟩
  | checkLeaf f v | checkMiss f v =>
    obtain ⟨hs, hlt, h0⟩ := hf
    exact ⟨hs.evolves h0.le hev, hlt.trans_le hev.next_le, h0.evolves hev hmine hlt fun _ hr => hr⟩
  | returned | crashed => exact hf

end

/-! ## The steps of a lookup -/

/-- The version of the node loaded from the root is read while it is the root; a node that was locked
has changed when it is checked; and a null child is read from a node that has not changed. -/
def FindPc.Proper (h : Heap w V) (key : ARTKey w) (o : Torn) : FindPc V → Prop
  | .readVersion f => f.parent = none → h.root = some f.node
  | .checkNode f v => isLocked v = true → h.version f.node ≠ v
  | .readChild f v depth => h.readChild f.node key depth o = none → h.version f.node = v
  | _ => True

open Heap

variable {h : Heap w V} {f : Frame}

section

variable {inserted stale stale' : Bool} {pc pc' : FindPc V} {o : Torn} {v depth : ℕ}

/-- The use of a node that is not as it was read is noticed. -/
theorem caught_stale (hc : Caught h stale f.node v) (hv : v % 4 = 0) :
    Caught h (stale || h.stale f.node v) f.node v := by
  intro hs heq
  rw [Bool.or_eq_true] at hs
  rcases hs with hs | hs
  · exact hc hs heq
  · have hlock : isLocked v = false := by
      rw [Bool.eq_false_iff, Ne, isLocked_iff]
      omega
    simp [Heap.stale, heq, hlock] at hs

section

variable (ok : HeapOk h) (hl : inserted = true → Linked h key)
include ok hl

theorem find_useNode (hf : FindOk h key inserted (.useNode f v) stale)
    (hs : findStep h key o (.useNode f v) stale = some (pc', stale')) :
    FindOk h key inserted pc' stale' := by
  obtain ⟨rfl, hlt, hsince⟩ := hf
  have hcaught : Caught h (false || h.stale f.node v) f.node v :=
    caught_stale nofun hsince.unlocked
  obtain ⟨cell, hcell, -⟩ := ok.cell f.node hlt
  cases cell with
  | leaf key2 x =>
    simp only [findStep, hcell, some.injEq, Prod.mk.injEq] at hs
    obtain ⟨rfl, rfl⟩ := hs
    refine ⟨hcaught, hlt, hsince.unlocked, hsince.le, fun hv hi => ?_⟩
    rw [if_pos (ok.leaf_of_linked (hl hi) (hsince.now hv) hcell)]
    rfl
  | inner pfx n =>
    simp only [findStep, hcell] at hs
    -- the prefix as it is if the version is still the same
    have hread : h.version f.node = v → h.readPrefix f.node key f.depth o =
        (Cell.inner pfx n : Cell w V).testPrefix key f.depth := by
      intro hv
      obtain ⟨cell, hcell', hp, -⟩ := read_unlocked ok hlt (hv ▸ hsince.unlocked) key f.depth o
      rw [hcell] at hcell'
      cases hcell'
      exact hp
    cases hr : h.readPrefix f.node key f.depth o with
    | mismatch m =>
      rw [hr] at hs hread
      obtain ⟨rfl, rfl⟩ := hs
      refine ⟨hcaught, hlt, hsince.unlocked, hsince.le, fun hv => ?_⟩
      rw [Bool.eq_false_iff]
      intro hi
      have ho := hsince.now hv
      obtain ⟨b, a, -, hb⟩ := ok.slot_of_linked (hl hi) ho hcell
      obtain ⟨hm, hne⟩ := testPrefix_mismatch.1 (hread hv).symm
      rw [← ho.depth] at hm
      exact hne (hm.symm.trans ((prefix_match_eq_iff ho.path).2 ((List.prefix_append _ _).trans hb)))
    | passed depth =>
      rw [hr] at hs hread
      obtain ⟨rfl, rfl⟩ := hs
      refine ⟨hcaught, hlt, by simp [isLeaf, hcell, Cell.isLeaf], hsince.unlocked, hsince.le,
        fun hv => ⟨hsince.now hv, ?_⟩⟩
      rw [Passed, hcell, map_some, ← hread hv]

theorem find_readChild
    (hall : o.child.all (· < h.next) = true) (hg : (FindPc.readChild f v depth : FindPc V).Proper h key o)
    (hf : FindOk h key inserted (.readChild f v depth) stale)
    (hs : findStep h key o (.readChild f v depth) stale = some (pc', stale')) :
    FindOk h key inserted pc' stale' := by
  obtain ⟨hc, hlt, hkind, hsince⟩ := hf
  have hcaught := caught_stale hc hsince.unlocked
  have hread : h.version f.node = v →
      h.readChild f.node key depth o = (h.cell f.node).bind (Cell.child key depth) := by
    intro hv
    obtain ⟨cell, hcell, -, hch, -⟩ := read_unlocked ok hlt (hv ▸ hsince.unlocked) key depth o
    rw [hcell, hch, bind_some]
  simp only [findStep] at hs
  cases hr : h.readChild f.node key depth o with
  | none =>
    rw [hr] at hs
    obtain ⟨rfl, rfl⟩ := hs
    -- the node has not changed, so that the child is really missing
    have hv := hg hr
    obtain ⟨ho, hp⟩ := hsince.now hv
    rw [hread hv] at hr
    show inserted = false
    rw [Bool.eq_false_iff]
    intro hi
    cases hcell : h.cell f.node with
    | none => simp [Passed, hcell] at hp
    | some cell =>
      cases cell with
      | leaf key2 x => simp [isLeaf, hcell, Cell.isLeaf] at hkind
      | inner pfx n =>
        obtain ⟨b, a, hg, hb⟩ := ok.slot_of_linked (hl hi) ho hcell
        rw [Passed, hcell, map_some, some.injEq, testPrefix_passed] at hp
        have hget := getElem_of_prefix hb
        rw [List.length_append, ho.depth, ← hp.2] at hget
        simp [hcell, Cell.child, hget, hg] at hr
  | some a =>
    rw [hr] at hs hread
    obtain ⟨rfl, rfl⟩ := hs
    refine ⟨⟨readChild_lt ok hlt hall hr, fun hc => absurd hc (by simp), fun p pv hpar => ?_⟩,
      fun hc => absurd hc (by simp), fun p pv hpar => ?_⟩
    · obtain ⟨rfl, rfl⟩ := Prod.mk.inj (some.inj hpar)
      refine ⟨hlt, hsince.unlocked, hsince.le, fun hv => ?_⟩
      obtain ⟨ho, hp⟩ := hsince.now hv
      exact Slot.of_child ho hp (hread hv).symm
    · obtain ⟨rfl, rfl⟩ := Prod.mk.inj (some.inj hpar)
      exact hcaught

end

theorem find_checkParent (ok : HeapOk h) (hs : h.parentSame f = true)
    (hf : FindOk h key inserted (.checkParent f v) stale) :
    FindOk h key inserted (.checkNode f v) stale := by
  obtain ⟨⟨hroute, hnone, hsome⟩, h3, h1, h0⟩ := hf
  have hstale : stale = false := by
    cases hpar : f.parent with
    | none => exact hnone hpar
    | some q =>
      rw [parentSame, hpar] at hs
      rw [Bool.eq_false_iff]
      intro hc
      exact hsome q.1 q.2 hpar hc (by simpa using hs)
  -- an obsolete node is not the child of its parent any more
  have hcur : v % 4 ≠ 1 := by
    intro hv
    obtain ⟨hpar, heq⟩ := h1 hv
    have ho := (hroute.placed (fun hc => absurd hc hpar) hs).onPath ok hroute.depth
    exact ok.current f.node ho.live (heq ▸ hv)
  refine ⟨hstale, hroute.lt, by omega, fun hv => ⟨hv, (h0 hv).le, fun heq => ?_⟩⟩
  exact (hroute.placed ((h0 hv).now heq) hs).onPath ok hroute.depth

/-- **The steps of a lookup.** -/
theorem findStep_spec (ok : HeapOk h) (hl : inserted = true → Linked h key)
    (hall : o.child.all (· < h.next) = true) (hg : pc.Proper h key o)
    (hf : FindOk h key inserted pc stale) (hs : findStep h key o pc stale = some (pc', stale')) :
    FindOk h key inserted pc' stale' := by
  cases pc <;> simp only [findStep] at hs
  case loadRoot =>
    cases hr : h.root <;> rw [hr] at hs
    case none =>
      cases hs
      refine ⟨rfl, fun hi => ?_⟩
      obtain ⟨a, x, hlive, -⟩ := hl hi
      rw [ok.no_live hr a] at hlive
      cases hlive
    case some r =>
      cases hs
      exact ⟨rfl, ok.lt_next (ok.root_onPath key hr).live⟩
  case firstVersion a =>
    split_ifs at hs with hv <;> cases hs
    · trivial
    · exact ⟨⟨hf.2, fun _ => rfl, fun _ _ hc => absurd hc (by simp)⟩, fun _ => hf.1,
        fun _ _ hc => absurd hc (by simp)⟩
  case readVersion f =>
    obtain ⟨rfl, rfl⟩ := hs
    refine ⟨hf, ok.version f.node, fun hv => ⟨fun hpar => ?_, rfl⟩, fun hv => ⟨hv, le_rfl, fun _ => hg⟩⟩
    exact ok.current f.node (ok.root_onPath key (hg hpar)).live hv
  case checkParent f v =>
    split_ifs at hs with hp <;> cases hs
    · exact find_checkParent ok hp hf
    · trivial
  case checkNode f v =>
    obtain ⟨hstale, hlt, hv, h0⟩ := hf
    split_ifs at hs with heq <;> cases hs
    · have hun : v % 4 = 0 := by
        refine hv.resolve_right fun h2 => ?_
        exact hg (isLocked_iff.2 (.inl h2)) heq
      exact ⟨hstale, hlt, h0 hun⟩
    · trivial
  case useNode f v => exact find_useNode ok hl hf hs
  case readChild f v depth => exact find_readChild ok hl hall hg hf hs
  case checkLeaf f v r =>
    obtain ⟨hc, -, hsince⟩ := hf
    split_ifs at hs with heq <;> cases hs
    · refine ⟨?_, hsince.now heq⟩
      rw [Bool.eq_false_iff]
      exact fun hst => hc hst heq
    · trivial
  case checkMiss f v =>
    obtain ⟨hc, -, hsince⟩ := hf
    split_ifs at hs with heq <;> cases hs
    · refine ⟨?_, fun hi => ?_⟩
      · rw [Bool.eq_false_iff]
        exact fun hst => hc hst heq
      · rw [hsince.now heq] at hi
        cases hi
    · trivial
  case returned r => cases hs
  case crashed => cases hs

end

/-! ## All threads -/

variable {T : Type} {h' : Heap w V} {a : ℕ}

section

variable [DecidableEq T]

def Thread.holds : Thread w V → ℕ → Prop
  | .insert _ pc, a => pc.holds a
  | _, _ => False

def Thread.ownLeaf : Thread w V → Option ℕ
  | .insert c _ => some c.leaf
  | _ => none

def ThreadOk (h : Heap w V) : Thread w V → Prop
  | .idle => True
  | .insert c pc => InsertOk h c pc ∧ Owns h c pc ∧ Locks h pc
  | .find key inserted stale pc =>
    FindOk h key inserted pc stale ∧ (inserted = true → Linked h key)

structure Inv (s : State T w V) : Prop where
  ok : HeapOk s.heap
  thread : ∀ t, ThreadOk s.heap (s.thread t)
  exclusive : ∀ t t' a, (s.thread t).holds a → (s.thread t').holds a → t = t'
  leaves : ∀ t t' a, (s.thread t).ownLeaf = some a → (s.thread t').ownLeaf = some a → t = t'
  done : ∀ key ∈ s.done, Linked s.heap key

/-- A move that meets none of the four races. -/
def Proper (s : State T w V) : T × Move w V → Prop
  | (t, .go o) =>
    match s.thread t with
    | .idle => True
    | .insert _ pc => pc.Proper s.heap
    | .find key _ _ pc => pc.Proper s.heap key o
  | _ => True

variable {x : Thread w V}

/-- What another thread knows after a step. -/
theorem ThreadOk.evolves {mine : ℕ → Prop} {leaf : ℕ}
    (hx : ThreadOk h x) (ok : HeapOk h) (hev : Evolves mine leaf h h')
    (hmine : ∀ a, mine a → h.version a % 4 = 2) (hleaf : leaf < h.next → h.isLeaf leaf = true)
    (hdis : ∀ a, x.holds a → ¬mine a) (hne : x.ownLeaf ≠ some leaf) : ThreadOk h' x := by
  cases x with
  | idle => trivial
  | insert c pc =>
    obtain ⟨hi, ho, hk⟩ := hx
    exact ⟨hi.evolves ok hk hev hmine hleaf hdis, ho.evolves hev fun hc => hne (congrArg some hc),
      hk.evolves hev hdis⟩
  | find key inserted stale pc =>
    exact ⟨hx.1.evolves hev hmine, fun hi => (hx.2 hi).evolves ok hev⟩

theorem ThreadOk.locked (hx : ThreadOk h x) (ha : x.holds a) : h.version a % 4 = 2 := by
  cases x with
  | insert c pc => exact (hx.2.2 a ha).2
  | idle | find _ _ _ _ => exact ha.elim

theorem ThreadOk.own_leaf (hx : ThreadOk h x)
    (ha : x.ownLeaf = some a) : a < h.next ∧ h.isLeaf a = true := by
  cases x with
  | insert c pc =>
    cases ha
    exact ⟨hx.2.1.lt, isLeaf_iff.2 ⟨_, _, hx.2.1.cell⟩⟩
  | idle | find _ _ _ _ => cases ha

namespace Inv

variable {s s' : State T w V}

omit [DecidableEq T] in
theorem init : Inv ({} : State T w V) := by
  have hkid : ∀ e a, ({} : Heap w V).radix.kid e ≠ some a := by
    intro e a hk
    cases e with
    | none => cases hk
    | some e => cases hk
  have wf : ({} : Heap w V).radix.WF := by
    refine ⟨fun hk => absurd hk (hkid _ _), fun hk => absurd hk (hkid _ _), fun hk => absurd hk (hkid _ _),
      fun hc => ?_, fun hk => absurd hk (hkid _ _), fun ha => ?_⟩
    · cases hc
    · cases ha
  refine ⟨⟨wf, fun a ha => absurd ha (Nat.not_lt_zero a), fun _ _ => ⟨rfl, rfl⟩, fun _ => ?_, ?_⟩,
    fun _ => trivial, fun _ _ _ ha => ha.elim, ?_, ?_⟩
  · exact (by decide : 4 % 4 ≠ 3)
  · intro a ha
    cases ha
  · intro t t' a ha
    cases ha
  · intro key hk
    cases hk

/-- One thread moves; the others keep what they know. -/
theorem moved (inv : Inv s) (leaf : ℕ) {t : T} {x : Thread w V}
    {done : List (ARTKey w)} (ok : HeapOk h') (hev : Evolves (s.thread t).holds leaf s.heap h')
    (hleaf : leaf < s.heap.next → s.heap.isLeaf leaf = true)
    (hown : ∀ t', t' ≠ t → (s.thread t').ownLeaf ≠ some leaf) (hx : ThreadOk h' x)
    (hacq : ∀ a, x.holds a → (s.thread t).holds a ∨ s.heap.version a % 4 = 0)
    (hl : ∀ a, x.ownLeaf = some a → (s.thread t).ownLeaf = some a ∨ s.heap.next ≤ a)
    (hd : ∀ key ∈ done, key ∈ s.done ∨ Linked h' key) :
    Inv (({ heap := h', thread := s.thread, done := done } : State T w V).moveTo t x) := by
  have hmine : ∀ a, (s.thread t).holds a → s.heap.version a % 4 = 2 := fun a ha =>
    (inv.thread t).locked ha
  -- a node that the moving thread holds is not held by another one
  have hfree : ∀ t' a, t' ≠ t → x.holds a → ¬(s.thread t').holds a := by
    intro t' a ht ha ha'
    rcases hacq a ha with hh | hun
    · exact ht (inv.exclusive t' t a ha' hh)
    · have := (inv.thread t').locked ha'
      omega
  have hfresh : ∀ t' a, t' ≠ t → x.ownLeaf = some a → (s.thread t').ownLeaf ≠ some a := by
    intro t' a ht ha ha'
    rcases hl a ha with hh | hge
    · exact ht (inv.leaves t' t a ha' hh)
    · exact absurd ((inv.thread t').own_leaf ha').1 (not_lt.2 hge)
  refine ⟨ok, fun t' => ?_, unique_update inv.exclusive hfree,
    unique_update (P := fun (x : Thread w V) a => x.ownLeaf = some a) inv.leaves hfresh, fun key hk => ?_⟩
  · simp only [State.moveTo]
    by_cases ht : t' = t
    · rwa [ht, Function.update_self]
    · rw [Function.update_of_ne ht]
      exact (inv.thread t').evolves inv.ok hev hmine hleaf
        (fun a ha ha' => ht (inv.exclusive t' t a ha ha')) (hown t' ht)
  · rcases hd key hk with hold | hnew
    · exact (inv.done key hold).evolves inv.ok hev
    · exact hnew

/-- A step of a lookup, which changes nothing in memory. -/
theorem looked (inv : Inv s) {t : T} {key : ARTKey w} {inserted stale : Bool} {pc : FindPc V}
    (hf : FindOk s.heap key inserted pc stale) (hl : inserted = true → Linked s.heap key) :
    Inv (s.moveTo t (.find key inserted stale pc)) := by
  refine inv.moved s.heap.next inv.ok (.refl _) (fun hc => absurd hc (lt_irrefl _))
    (fun t' _ hc => ?_) ⟨hf, hl⟩ (fun _ hf => hf.elim) (fun _ ha => ?_) fun _ hk => .inl hk
  · exact absurd ((inv.thread t').own_leaf hc).1 (lt_irrefl _)
  · cases ha

theorem step (inv : Inv s) {m : T × Move w V} (hg : Proper s m) (hs : Olc.step s m = some s') : Inv s' := by
  obtain ⟨t, m⟩ := m
  cases m <;> simp only [Olc.step] at hs
  case insert key value =>
    split_ifs at hs with hrest
    cases hs
    refine inv.moved s.heap.next (inv.ok.alloc _ fun b a ha => by cases ha) (.alloc _)
      (fun hc => absurd hc (lt_irrefl _)) (fun t' _ hc => ?_) ⟨trivial, ?_, fun _ hf => hf.elim⟩
      (fun _ hf => hf.elim) (fun a ha => ?_) fun key hk => .inl hk
    · exact absurd ((inv.thread t').own_leaf hc).1 (lt_irrefl _)
    · refine ⟨Nat.lt_succ_self _, by simp [alloc], ?_, fun _ => (inv.ok.unused _ le_rfl).1⟩
      have hv : (s.heap.alloc (.leaf key value)).version s.heap.next = 4 :=
        (inv.ok.unused _ le_rfl).2
      rw [hv]
      decide
    · cases ha
      exact .inr le_rfl
  case find key =>
    split_ifs at hs with hrest
    cases hs
    exact inv.looked trivial fun hi => inv.done key (of_decide_eq_true hi)
  case go o =>
    split_ifs at hs with hall
    have hx := inv.thread t
    cases hth : s.thread t with
    | idle =>
      rw [hth] at hs
      cases hs
    | insert c pc =>
      simp only [hth] at hs
      obtain ⟨r, hr, rfl⟩ := map_eq_some_iff.1 hs
      rw [hth] at hx
      simp only [Proper, hth] at hg
      obtain ⟨hi, ho, hk⟩ := hx
      have hst := insertStep_spec inv.ok hi ho hk hall hg hr
      refine inv.moved c.leaf hst.ok (by rw [hth]; exact hst.evolves)
        (fun _ => isLeaf_iff.2 ⟨_, _, ho.cell⟩) (fun t' ht hc => ?_) ⟨hst.insertOk, hst.owns, hst.locks⟩
        (fun a ha => by rw [hth]; exact hst.acquired a ha) (fun a ha => ?_) fun key hkey => ?_
      · exact ht (inv.leaves t' t c.leaf hc (by rw [hth]; rfl))
      · rw [hth]
        exact .inl ha
      · cases hpc : r.2 with
        | returned =>
          rw [hpc] at hkey
          rcases List.mem_cons.1 hkey with rfl | hold
          · have := hst.insertOk
            rw [hpc] at this
            exact .inr this
          · exact .inl hold
        | _ =>
          rw [hpc] at hkey
          exact .inl hkey
    | find key inserted stale pc =>
      simp only [hth] at hs
      obtain ⟨r, hr, rfl⟩ := map_eq_some_iff.1 hs
      rw [hth] at hx
      simp only [Proper, hth] at hg
      exact inv.looked (findStep_spec inv.ok hx.2 hall hg hx.1 hr) hx.2

end Inv

end

/-! ## A lookup that runs alone -/

/-- The lookup after `m` steps during which no other thread moves. -/
def findAlone (h : Heap w V) (key : ARTKey w) : ℕ → FindPc V → Bool → FindPc V
  | 0, pc, _ => pc
  | m + 1, pc, stale =>
    match findStep h key {} pc stale with
    | none => pc
    | some r => findAlone h key m r.1 r.2

section

variable {stale : Bool} {m : ℕ}

theorem findAlone_returned (r : Option V) : findAlone h key m (.returned r) stale = .returned r := by
  cases m with
  | zero => rfl
  | succ m => rfl

section

variable (ok : HeapOk h) (hl : Linked h key) (hq : ∀ a, isLocked (h.version a) = false)
include ok hl hq

/-- From a node on the way of an inserted key, five steps lead to the next one, or to the value. -/
theorem findAlone_of_onPath (ho : OnPath h key f.node f.depth)
    (hp : h.parentSame f = true) (hm : 5 * (w + 1 - f.depth) ≤ m) :
    ∃ x, findAlone h key m (.readVersion f) stale = .returned (some x) := by
  obtain ⟨d, hd⟩ : ∃ d, w - f.depth = d := ⟨_, rfl⟩
  induction d using Nat.strong_induction_on generalizing f stale m with
  | _ d ih =>
    have hle : f.depth ≤ w := by
      have := ho.path.length_le
      rwa [ho.depth, key.len] at this
    obtain ⟨m, rfl⟩ : ∃ m', m = m' + 5 := ⟨m - 5, by omega⟩
    obtain ⟨cell, hcell, -⟩ := ok.cell f.node (ok.lt_next ho.live)
    have hfresh : h.stale f.node (h.version f.node) = false := by simp [Heap.stale, hq]
    cases cell with
    | leaf key2 x =>
      obtain rfl := ok.leaf_of_linked hl ho hcell
      refine ⟨x, ?_⟩
      simp [findAlone, findStep, hp, hcell, findAlone_returned]
    | inner pfx n =>
      obtain ⟨b, a, hg, hb⟩ := ok.slot_of_linked hl ho hcell
      have hmatch : prefix_match pfx key f.depth = pfx.length := by
        rw [← ho.depth, prefix_match_eq_iff ho.path]
        exact (List.prefix_append _ _).trans hb
      have hget := getElem_of_prefix hb
      rw [List.length_append, ho.depth] at hget
      have hleaf : h.isLeaf f.node = false := by simp [isLeaf, hcell, Cell.isLeaf]
      have hpre : h.readPrefix f.node key f.depth {} = .passed (f.depth + pfx.length) := by
        simp [readPrefix, hleaf, hq, hcell, Cell.testPrefix, hmatch]
      have hch : h.readChild f.node key (f.depth + pfx.length) {} = some a := by
        simp [readChild, hleaf, hq, hcell, Cell.child, hget, hg]
      have hslot : Slot h key f.node (f.depth + pfx.length + 1) a :=
        ⟨ho.live, pfx, n, b, hcell, hb, by rw [List.length_append, ho.depth], hg⟩
      have hlt := length_lt_width hb
      rw [List.length_append, ho.depth] at hlt
      obtain ⟨x, hx⟩ := @ih (w - (f.depth + pfx.length + 1)) (by omega)
        ⟨a, f.depth + pfx.length + 1, some (f.node, h.version f.node)⟩ stale m (ok.slot_onPath hslot)
        (by simp [parentSame]) (by simp only; omega) rfl
      refine ⟨x, ?_⟩
      simpa [findAlone, findStep, hp, hcell, hpre, hch, hfresh] using hx

/-- A lookup of an inserted key that runs alone, while no node is locked, returns a value. -/
theorem findAlone_spec :
    ∃ x, findAlone h key (5 * (w + 1) + 2) .loadRoot false = .returned (some x) := by
  obtain ⟨r, hr, -⟩ := ok.wf.root_below (c := hl.choose) hl.choose_spec.choose_spec.1
  have ho : OnPath h key r 0 := ok.root_onPath key hr
  have hcur : isObsolete (h.version r) = false := by
    have h1 := ok.current r ho.live
    have h3 := ok.version r
    rw [Bool.eq_false_iff, Ne, isObsolete_iff]
    omega
  obtain ⟨x, hx⟩ : ∃ x, findAlone h key (5 * (w + 1)) (.readVersion ⟨r, 0, none⟩) false =
      .returned (some x) := findAlone_of_onPath ok hl hq ho rfl (by simp)
  refine ⟨x, ?_⟩
  have hroot : h.root = some r := hr
  simpa [findAlone, findStep, hroot, hq, hcur] using hx

end

end

/-! ## The specification -/

section

variable [DecidableEq T]

/-- What the index promises to its threads. -/
structure Safe (s : State T w V) : Prop where
  /-- a lookup of a key whose insertion had returned before returns a value -/
  found : ∀ t key stale r, s.thread t = .find key true stale (.returned r) → r.isSome = true
  /-- neither such a lookup nor an insertion calls a null pointer or overruns a node -/
  finds : ∀ t key stale, s.thread t ≠ .find key true stale .crashed
  inserts : ∀ t c, s.thread t ≠ .insert c .crashed
  /-- and such a lookup does return, if no other thread interferes -/
  visible : ∀ key ∈ s.done, (∀ a, isLocked (s.heap.version a) = false) →
    ∃ x, findAlone s.heap key (5 * (w + 1) + 2) .loadRoot false = .returned (some x)
  /-- no result comes from a node that was write-locked or changed when it was used -/
  fresh : ∀ t key inserted stale r, s.thread t = .find key inserted stale (.returned r) → stale = false

/-- **No insertion is lost.** In every run without the four races, every state reached meets the
specification. -/
theorem safe_of_proper {s : State T w V} (h : Reach step Proper {} s) : Safe s := by
  have inv : Inv s := h.invariant Inv.init fun _ _ _ inv hg hs => inv.step hg hs
  refine ⟨fun t key stale r ht => ?_, fun t key stale ht => ?_, fun t c ht => ?_, fun key hk hq => ?_,
    fun t key inserted stale r ht => ?_⟩
  · have hx := inv.thread t
    rw [ht] at hx
    exact hx.1.2 rfl
  · have hx := inv.thread t
    rw [ht] at hx
    cases hx.1
  · have hx := inv.thread t
    rw [ht] at hx
    exact hx.1
  · exact findAlone_spec inv.ok (inv.done key hk) hq
  · have hx := inv.thread t
    rw [ht] at hx
    exact hx.1.1

end

/-- Moves of one thread; what it reads in a locked node is a null child. -/
def turns (t : Fin 3) (m : ℕ) : List (Fin 3 × Move 1 ℕ) := List.replicate m (t, .go {})

/-- Two insertions, the second of which splits the leaf of the first, and then a lookup of the first key. -/
theorem safe_of_proper_two_keys : ∃ s : State (Fin 3) 1 ℕ, Reach step Proper {} s ∧
    s.thread 2 = .find (byteKey 1) true false (.returned (some 7)) ∧ Safe s := by
  have go (t : Fin 3) {s s' : State (Fin 3) 1 ℕ} (h : Reach step Proper {} s)
      (hok : Proper s (t, .go {})) (hs : step s (t, .go {}) = some s') : Reach step Proper {} s' :=
    h.next (t, .go {}) hok hs
  have h : Reach step Proper ({} : State (Fin 3) 1 ℕ) {} := .init
  have h := h.next (0, Move.insert (byteKey 1) 7) trivial rfl
  have h := go 0 (go 0 h trivial rfl) rfl rfl
  have h := h.next (1, Move.insert (byteKey 2) 8) trivial rfl
  have h := go 1 (go 1 (go 1 h trivial rfl) (fun _ => rfl) rfl) trivial rfl
  have h := go 1 (go 1 (go 1 h trivial rfl) trivial rfl) trivial rfl
  have h := go 1 (go 1 (go 1 h trivial rfl) trivial rfl) trivial rfl
  have h := go 1 (go 1 (go 1 h trivial rfl) trivial rfl) trivial rfl
  have h := h.next (2, Move.find (byteKey 1)) trivial rfl
  have h := go 2 (go 2 (go 2 h trivial rfl) trivial rfl) (fun _ => rfl) rfl
  have h := go 2 (go 2 (go 2 h trivial rfl) (fun hc => absurd hc (by decide)) rfl) trivial rfl
  have h := go 2 (go 2 h (fun _ => rfl) rfl) nofun rfl
  have h := go 2 (go 2 h trivial rfl) (fun hc => absurd hc (by decide)) rfl
  have h := go 2 (go 2 h trivial rfl) trivial rfl
  exact ⟨_, h, rfl, safe_of_proper h⟩

/-- Two insertions load the null root, and the second one stores its leaf over the first one: the key
of the first is not found. -/
theorem first_insert_lost : ∃ s : State (Fin 3) 1 ℕ, Reach step Free {} s ∧ ¬Safe s :=
  exists_reach_of_exec ([(0, .insert (byteKey 1) 7)] ++ turns 0 1 ++ [(1, .insert (byteKey 2) 8)] ++
    turns 1 1 ++ turns 0 1 ++ turns 1 1 ++ [(2, .find (byteKey 1))] ++ turns 2 7)
    ⟨_, rfl, fun _ h => absurd (h.found 2 _ _ _ rfl) (by decide)⟩

end Proteus.Art.Olc
