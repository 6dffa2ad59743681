import Proteus.Machine
import Proteus.Oltp.Art

/-!
# Optimistic lock coupling in the adaptive radix tree

`ART::insert` and `ART::find` as any number of threads run them together. The nodes are in shared
memory and point to each other by address. Every node has a version word: bit 1 says that a writer
has locked the node, bit 0 that the node is obsolete, and the rest counts. A thread loads the version
of a node, reads the node, and compares the version afterwards; a writer turns the version it has
read into a locked one by compare-and-exchange.

One move of a thread is one access to shared memory, in the order of the source: a load of the root,
of a version, of what a node stores, a compare-and-exchange, an unlock. What a writer does to the
nodes it has locked is one move, and a read of a locked node by another thread returns anything
(`Torn`), so that the order of the writes in between does not matter. Memory is sequentially
consistent, nodes are never freed, and versions are unbounded.

The fields `live` and `path` of the memory record which nodes are in the tree and on which bytes they
are reached; no step reads them.
-/

namespace Proteus.Art.Olc

open Function

/-! ## Shared memory -/

/-- A node in memory; children are addresses. -/
inductive Cell (w : ℕ) (V : Type) where
  | leaf (key : ARTKey w) (value : V)
  | inner (pfx : List KeyUnit) (n : ARTInnerNode ℕ)

structure Heap (w : ℕ) (V : Type) where
  cell : ℕ → Option (Cell w V) := fun _ => none
  /-- `typeVersionLockObsolete` -/
  version : ℕ → ℕ := fun _ => 0b100
  root : Option ℕ := none
  /-- the first address that is not in use -/
  next : ℕ := 0
  live : ℕ → Bool := fun _ => false
  path : ℕ → List KeyUnit := fun _ => []

def isLocked (version : ℕ) : Bool := version.testBit 1

def isObsolete (version : ℕ) : Bool := version.testBit 0

/-- The outcome of the test of a prefix: the first position at which the key departs from it, or the
depth behind it. -/
inductive PrefixRead where
  | mismatch (m : ℕ)
  | passed (depth : ℕ)

/-- What a thread finds in a node that another one is writing. -/
structure Torn where
  pfx : PrefixRead := .passed 0
  child : Option ℕ := none
  full : Bool := false

variable {w : ℕ} {V : Type} (key : ARTKey w)

/-- The child of a node on the way of the key. -/
def Cell.child (depth : ℕ) : Cell w V → Option ℕ
  | .leaf _ _ => none
  | .inner _ n => key.data[depth]?.bind n.getChild

/-- The test of a node's prefix; a leaf has none. -/
def Cell.testPrefix (depth : ℕ) : Cell w V → PrefixRead
  | .leaf _ _ => .passed depth
  | .inner pfx _ =>
    if prefix_match pfx key depth ≠ pfx.length then .mismatch (prefix_match pfx key depth)
    else .passed (depth + pfx.length)

def Cell.isLeaf : Cell w V → Bool
  | .leaf _ _ => true
  | .inner _ _ => false

def Cell.isFull : Cell w V → Bool
  | .leaf _ _ => true
  | .inner _ n => n.isFull

variable (h : Heap w V)

namespace Heap

variable (a : ℕ)

/-- The kind of a node never changes. -/
def isLeaf : Bool := (h.cell a).any Cell.isLeaf

def readPrefix (key : ARTKey w) (depth : ℕ) (o : Torn) : PrefixRead :=
  if h.isLeaf a then .passed depth
  else if isLocked (h.version a) then o.pfx
  else ((h.cell a).map (Cell.testPrefix key depth)).getD o.pfx

def readChild (key : ARTKey w) (depth : ℕ) (o : Torn) : Option ℕ :=
  if h.isLeaf a then none
  else if isLocked (h.version a) then o.child else (h.cell a).bind (Cell.child key depth)

def readFull (o : Torn) : Bool :=
  if isLocked (h.version a) then o.full else ((h.cell a).map Cell.isFull).getD o.full

/-- `fetch_add` on the version of a node. -/
def bump (a d : ℕ) : Heap w V :=
  { h with version := update h.version a (h.version a + d) }

def set (c : Cell w V) : Heap w V :=
  { h with cell := update h.cell a (some c) }

/-- A new node, with a version of its own. -/
def alloc (c : Cell w V) : Heap w V :=
  { h with cell := update h.cell h.next (some c), next := h.next + 1 }

/-- From here on the node is in the tree, on this path. -/
def enter (path : List KeyUnit) : Heap w V :=
  { h with live := update h.live a true, path := update h.path a path }

/-- From here on the node is not in the tree any more. -/
def leave : Heap w V :=
  { h with live := update h.live a false }

end Heap

/-! ## Insertion -/

/-- A call of `insert_recursive_opt`: the node, the depth, and the parent with the version it had. -/
structure Frame where
  node : ℕ
  depth : ℕ
  parent : Option (ℕ × ℕ)

/-- The call of `insert`, with the leaf it has created. -/
structure Call (w : ℕ) (V : Type) where
  key : ARTKey w
  value : V
  leaf : ℕ

/-- How the tree is changed at a node. -/
inductive Change where
  | splitPrefix (m : ℕ)
  | splitLeaf (m : ℕ)
  | grow (depth : ℕ)
  | add (depth : ℕ)

/-- A child is added to a node without a lock on its parent. -/
def Change.locksParent : Change → Bool
  | .add _ => false
  | _ => true

/-- Where an insertion is. -/
inductive InsertPc where
  | loadRoot
  | storeRoot
  | readVersion (f : Frame)
  | readPrefix (f : Frame) (v : ℕ)
  | readChild (f : Frame) (v depth : ℕ)
  | check (f : Frame) (v depth : ℕ) (child : Option ℕ)
  | readFull (f : Frame) (v depth : ℕ)
  | checkParent (f : Frame) (v depth : ℕ) (child : Option ℕ)
  | compare (f : Frame) (v : ℕ)
  | lockParent (f : Frame) (v : ℕ) (change : Change)
  | lockNode (f : Frame) (v : ℕ) (change : Change)
  | recheckParent (f : Frame) (depth : ℕ)
  | write (f : Frame) (change : Change)
  | unlockNode (f : Frame) (change : Change)
  | unlockParent (f : Frame)
  | yieldNode (f : Frame)
  | yieldParent (f : Frame)
  | returned
  | crashed

namespace Heap

/-- `parent->insertChild(key[parentD], newNode)`, or `*nodeRef = newNode` at the root. -/
def link (key : ARTKey w) (f : Frame) (newNode : ℕ) : Option (Heap w V) :=
  match f.parent with
  | none => some { h with root := some newNode }
  | some (p, _) =>
    match h.cell p with
    | some (.inner pfx n) => do
      let b ← key.data[f.depth - 1]?
      let n' ← n.insertChild b newNode
      return h.set p (.inner pfx n')
    | _ => none

/-- The writes of an insertion to the nodes it has locked and to its own new ones. -/
def write (c : Call w V) (f : Frame) : Change → Option (Heap w V)
  | .splitPrefix m =>
    match h.cell f.node with
    | some (.inner pfx n) => do
      let b ← c.key.data[f.depth + m]?
      let b' ← pfx[m]?
      let n' ← pair b c.leaf b' f.node
      let path := h.path f.node
      let h' := (h.alloc (.inner (pfx.take m) n')).set f.node (.inner (pfx.drop (m + 1)) n)
      (((h'.enter h.next path).enter f.node (path ++ pfx.take m ++ [b'])).enter c.leaf
        (path ++ pfx.take m ++ [b])).link c.key f h.next
    | _ => none
  | .splitLeaf m =>
    match h.cell f.node with
    | some (.leaf key2 _) => do
      let b' ← key2.data[f.depth + m]?
      let b ← c.key.data[f.depth + m]?
      let n' ← pair b' f.node b c.leaf
      let path := h.path f.node
      let pfx := (c.key.data.drop f.depth).take m
      let h' := h.alloc (.inner pfx n')
      (((h'.enter h.next path).enter f.node (path ++ pfx ++ [b'])).enter c.leaf
        (path ++ pfx ++ [b])).link c.key f h.next
    | _ => none
  | .grow depth =>
    match h.cell f.node with
    | some (.inner pfx n) => do
      let b ← c.key.data[depth]?
      let n' ← n.grow
      let n' ← n'.insertChild b c.leaf
      let path := h.path f.node
      let h' := (h.alloc (.inner pfx n')).leave f.node
      ((h'.enter h.next path).enter c.leaf (path ++ pfx ++ [b])).link c.key f h.next
    | _ => none
  | .add depth =>
    match h.cell f.node with
    | some (.inner pfx n) => do
      let b ← c.key.data[depth]?
      let n' ← n.insertChild b c.leaf
      return (h.set f.node (.inner pfx n')).enter c.leaf (h.path f.node ++ pfx ++ [b])
    | _ => none

/-- `parent->readUnlockOrRestart(parentVersion)`: the version of the parent is the one it had. -/
def parentSame (f : Frame) : Bool :=
  match f.parent with
  | none => true
  | some (p, pv) => h.version p == pv

end Heap

/-- One step of `insert`. A restart goes back to the load of the root. -/
def insertStep (c : Call w V) (o : Torn) : InsertPc → Option (Heap w V × InsertPc)
  | .loadRoot =>
    match h.root with
    | none => some (h, .storeRoot)
    | some r => some (h, .readVersion ⟨r, 0, none⟩)
  | .storeRoot => some ({ h.enter c.leaf [] with root := some c.leaf }, .returned)
  | .readVersion f =>
    if isLocked (h.version f.node) || isObsolete (h.version f.node) then some (h, .loadRoot)
    else some (h, .readPrefix f (h.version f.node))
  | .readPrefix f v =>
    match h.readPrefix f.node c.key f.depth o with
    | .mismatch m => some (h, .lockParent f v (.splitPrefix m))
    | .passed depth => some (h, .readChild f v depth)
  | .readChild f v depth => some (h, .check f v depth (h.readChild f.node c.key depth o))
  | .check f v depth child =>
    if h.version f.node ≠ v then some (h, .loadRoot)
    else if child = none ∧ h.isLeaf f.node = false then some (h, .readFull f v depth)
    else some (h, .checkParent f v depth child)
  | .readFull f v depth =>
    if h.readFull f.node o then some (h, .lockParent f v (.grow depth))
    else some (h, .lockNode f v (.add depth))
  | .checkParent f v depth child =>
    if h.parentSame f = false then some (h, .loadRoot)
    else match child with
      | none => some (h, .compare f v)
      | some a => some (h, .readVersion ⟨a, depth + 1, some (f.node, v)⟩)
  | .compare f v =>
    match h.cell f.node with
    | some (.leaf key2 _) =>
      let newPrefixLength := commonLength (key2.data.drop f.depth) (c.key.data.drop f.depth)
      -- the key is in the tree
      if w ≤ f.depth + newPrefixLength then some (h, .returned)
      else some (h, .lockParent f v (.splitLeaf newPrefixLength))
    | _ => none
  | .lockParent f v change =>
    match f.parent with
    | none => some (h, .lockNode f v change)
    | some (p, pv) =>
      if h.version p = pv then some (h.bump p 0b10, .lockNode f v change) else some (h, .loadRoot)
  | .lockNode f v change =>
    if h.version f.node = v then
      match change with
      | .add depth => some (h.bump f.node 0b10, .recheckParent f depth)
      | _ => some (h.bump f.node 0b10, .write f change)
    else if change.locksParent then some (h, .yieldParent f)
    else some (h, .loadRoot)
  | .recheckParent f depth =>
    if h.parentSame f then some (h, .write f (.add depth)) else some (h, .yieldNode f)
  | .write f change =>
    match h.write c f change with
    | some h' => some (h', .unlockNode f change)
    | none => some (h, .crashed)
  | .unlockNode f change =>
    match change with
    | .grow _ => some (h.bump f.node 0b11, .unlockParent f)
    | .add _ => some (h.bump f.node 0b10, .returned)
    | _ => some (h.bump f.node 0b10, .unlockParent f)
  | .unlockParent f =>
    match f.parent with
    | none => some (h, .returned)
    | some (p, _) => some (h.bump p 0b10, .returned)
  | .yieldNode f => some (h.bump f.node 0b10, .loadRoot)
  | .yieldParent f =>
    match f.parent with
    | none => some (h, .loadRoot)
    | some (p, _) => some (h.bump p 0b10, .loadRoot)
  | .returned | .crashed => none

/-! ## Lookup -/

/-- Where a lookup is. -/
inductive FindPc (V : Type) where
  | loadRoot
  | firstVersion (a : ℕ)
  | readVersion (f : Frame)
  | checkParent (f : Frame) (v : ℕ)
  | checkNode (f : Frame) (v : ℕ)
  | useNode (f : Frame) (v : ℕ)
  | readChild (f : Frame) (v depth : ℕ)
  | checkLeaf (f : Frame) (v : ℕ) (r : Option V)
  | checkMiss (f : Frame) (v : ℕ)
  | returned (r : Option V)
  | crashed

/-- The node is write-locked, or has changed since its version was `v`. -/
def Heap.stale (a v : ℕ) : Bool := isLocked (h.version a) || h.version a != v

/-- One step of `find`. The flag records that a stale node was used since the last restart. -/
def findStep (key : ARTKey w) (o : Torn) : FindPc V → Bool → Option (FindPc V × Bool)
  | .loadRoot, _ =>
    match h.root with
    | none => some (.returned none, false)
    | some r => some (.firstVersion r, false)
  | .firstVersion a, stale =>
    if isLocked (h.version a) || isObsolete (h.version a) then some (.loadRoot, false)
    else some (.readVersion ⟨a, 0, none⟩, stale)
  -- a locked or obsolete node sets `needRestart`, which the next two checks overwrite
  | .readVersion f, stale => some (.checkParent f (h.version f.node), stale)
  | .checkParent f v, stale =>
    if h.parentSame f then some (.checkNode f v, stale) else some (.loadRoot, false)
  | .checkNode f v, stale =>
    if h.version f.node = v then some (.useNode f v, stale) else some (.loadRoot, false)
  | .useNode f v, stale =>
    let stale := stale || h.stale f.node v
    match h.cell f.node with
    | some (.leaf key2 value) => some (.checkLeaf f v (if key = key2 then some value else none), stale)
    | _ =>
      match h.readPrefix f.node key f.depth o with
      | .mismatch _ => some (.checkMiss f v, stale)
      | .passed depth => some (.readChild f v depth, stale)
  | .readChild f v depth, stale =>
    let stale := stale || h.stale f.node v
    match h.readChild f.node key depth o with
    -- `readUnlockOrRestart` is called on the null pointer
    | none => some (.crashed, stale)
    | some a => some (.readVersion ⟨a, depth + 1, some (f.node, v)⟩, stale)
  | .checkLeaf f v r, stale =>
    if h.version f.node = v then some (.returned r, stale) else some (.loadRoot, false)
  | .checkMiss f v, stale =>
    if h.version f.node = v then some (.returned none, stale) else some (.loadRoot, false)
  | .returned _, _ | .crashed, _ => none

/-! ## Threads -/

/-- A thread: what it runs and where it is. A lookup carries whether an insertion of its key had
returned when it began. -/
inductive Thread (w : ℕ) (V : Type) where
  | idle
  | insert (c : Call w V) (pc : InsertPc)
  | find (key : ARTKey w) (inserted stale : Bool) (pc : FindPc V)

def Thread.atRest : Thread w V → Bool
  | .idle | .insert _ .returned | .find _ _ _ (.returned _) => true
  | _ => false

variable {T : Type}

structure State (T : Type) (w : ℕ) (V : Type) where
  heap : Heap w V := {}
  thread : T → Thread w V := fun _ => .idle
  /-- the keys whose insertion has returned -/
  done : List (ARTKey w) := []

inductive Move (w : ℕ) (V : Type) where
  | insert (key : ARTKey w) (value : V)
  | find (key : ARTKey w)
  | go (o : Torn)

variable [DecidableEq T]

def State.moveTo (s : State T w V) (t : T) (x : Thread w V) : State T w V :=
  { s with thread := update s.thread t x }

/-- The keys of the returned insertions after a step to `pc`. -/
def record (done : List (ARTKey w)) : InsertPc → List (ARTKey w)
  | .returned => key :: done
  | _ => done

/-- A move of one thread. A pointer that is read points to some node. -/
def step (s : State T w V) : T × Move w V → Option (State T w V)
  | (t, .insert key value) =>
    if (s.thread t).atRest then
      some ({ s with heap := s.heap.alloc (.leaf key value) }.moveTo t
        (.insert ⟨key, value, s.heap.next⟩ .loadRoot))
    else none
  | (t, .find key) =>
    if (s.thread t).atRest then some (s.moveTo t (.find key (decide (key ∈ s.done)) false .loadRoot))
    else none
  | (t, .go o) =>
    if o.child.all (· < s.heap.next) then
      match s.thread t with
      | .idle => none
      | .insert c pc => (insertStep s.heap c o pc).map fun r =>
        { s with heap := r.1, done := record c.key s.done r.2 }.moveTo t (.insert c r.2)
      | .find key inserted stale pc => (findStep s.heap key o pc stale).map fun r =>
        s.moveTo t (.find key inserted r.2 r.1)
    else none

end Proteus.Art.Olc
