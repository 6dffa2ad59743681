import Proteus.Oltp.ArtNode

/-!
# The adaptive radix tree index

`ART::insert` and `ART::find` as one thread runs them, for keys of a fixed width. An inner node
stores the bytes its subtree has in common (`prefix`) and maps the next byte to a child; a leaf
stores the whole key. Insertion splits a leaf or a stored prefix where the new key departs from it,
adds a child to a node, which grows when it is full, or descends.

A pointer to a node is the subtree behind it, so what `insert_recursive_opt` writes through
`nodeRef` or `parent->insertChild` is the subtree it returns. The version counters never make a
single thread restart, and are not part of this model.

Insertions keep the tree well formed (`WF`) and add exactly one leaf for a new key
(`insert_recursive_opt_spec`), and a lookup of a leaf's key finds it (`getByKey_opt_spec`). After any
sequence of insertions the whole specification holds if no inner node has more than 48 children,
and only then: the counter of a node with more is 48 (`inserts_correct_iff`).
-/

namespace Proteus.Art

open ARTInnerNode Finset Function List Option

/-! ## The tree -/

/-- The bytes of a key of `w = sizeof(K)` bytes. -/
structure ARTKey (w : ℕ) where
  data : List KeyUnit
  len : data.length = w
deriving DecidableEq

/-- A node of the tree: a leaf with its key and value, or an inner node with its prefix. -/
inductive ARTNode (w : ℕ) (V : Type) where
  | leaf (key : ARTKey w) (value : V)
  | inner (pfx : List KeyUnit) (n : ARTInnerNode (ARTNode w V))

/-- What can go wrong in a run. -/
inductive Fault where
  /-- a member function is called on a null pointer -/
  | nullNode
  /-- a byte at or beyond the width of the key is used -/
  | keyOverrun
  /-- a child is written beyond the slots of its node -/
  | nodeOverrun
  | outOfFuel
deriving DecidableEq

/-- The value, or the fault that stands for its absence. -/
def orFault {β : Type*} (f : Fault) : Option β → Except Fault β
  | some b => .ok b
  | none => .error f

/-- The number of leading positions at which two lists agree. -/
def commonLength {β : Type*} [DecidableEq β] : List β → List β → ℕ
  | a :: as, b :: bs => if a = b then commonLength as bs + 1 else 0
  | _, _ => 0

attribute [local simp] commonLength

variable {w : ℕ} {V : Type} {β : Type*}

def ARTKey.byte (key : ARTKey w) (i : ℕ) : Except Fault KeyUnit := orFault .keyOverrun key.data[i]?

/-- The first position at which the key departs from the prefix, or the length of the prefix. -/
def prefix_match (pfx : List KeyUnit) (key : ARTKey w) (depth : ℕ) : ℕ :=
  commonLength pfx (key.data.drop depth)

/-- A new node of four slots with two children, inserted one after the other. -/
def pair {α : Type*} (b₁ : KeyUnit) (c₁ : α) (b₂ : KeyUnit) (c₂ : α) : Option (ARTInnerNode α) :=
  ((ARTInnerNode.node4 ARTNode_4.create).insertChild b₁ c₁).bind (ARTInnerNode.insertChild b₂ c₂)

/-- The subtree that stands in the place of `node` after the insertion. -/
def insert_recursive_opt (key : ARTKey w) (value : V) :
    ℕ → Option (ARTNode w V) → ℕ → Except Fault (ARTNode w V)
  | 0, _, _ => .error .outOfFuel
  | _ + 1, none, _ => .ok (.leaf key value)
  | _ + 1, some (.leaf key2 value2), depth => do
    let newPrefixLength := commonLength (key2.data.drop depth) (key.data.drop depth)
    -- the key is in the tree: the old leaf stays
    if w ≤ depth + newPrefixLength then return .leaf key2 value2
    let n ← orFault .nodeOverrun (pair (← key2.byte (depth + newPrefixLength)) (.leaf key2 value2)
      (← key.byte (depth + newPrefixLength)) (.leaf key value))
    return .inner ((key.data.drop depth).take newPrefixLength) n
  | fuel + 1, some (.inner pfx n), depth => do
    let prefix_mismatch := prefix_match pfx key depth
    if prefix_mismatch ≠ pfx.length then
      let n' ← orFault .nodeOverrun (pair (← key.byte (depth + prefix_mismatch)) (.leaf key value)
        (← orFault .keyOverrun pfx[prefix_mismatch]?) (.inner (pfx.drop (prefix_mismatch + 1)) n))
      return .inner (pfx.take prefix_mismatch) n'
    let b ← key.byte (depth + pfx.length)
    match n.getChild b with
    | none => return .inner pfx (← orFault .nodeOverrun (n.addChild b (.leaf key value)))
    | some child =>
      -- the child changes in place, or `parent->insertChild` replaces it
      let child' ← insert_recursive_opt key value fuel (some child) (depth + pfx.length + 1)
      return .inner pfx (← orFault .nodeOverrun (n.insertChild b child'))

/-- The value of the leaf that the descent ends at, if it has the key. -/
def getByKey_opt (key : ARTKey w) : ℕ → ARTNode w V → ℕ → Except Fault (Option V)
  | 0, _, _ => .error .outOfFuel
  | _ + 1, .leaf key2 value, _ => .ok (if key = key2 then some value else none)
  | fuel + 1, .inner pfx n, depth => do
    if prefix_match pfx key depth ≠ pfx.length then return none
    -- without a child, `readUnlockOrRestart` is called on the null pointer
    let child ← orFault .nullNode (n.getChild (← key.byte (depth + pfx.length)))
    getByKey_opt key fuel child (depth + pfx.length + 1)

/-- The index: its root, and the flag that turns insertions off. -/
structure ART (w : ℕ) (V : Type) where
  read_only : Bool := false
  root : Option (ARTNode w V) := none

variable (t : ART w V)

namespace ART

/-- A descent uses a byte of the key at every inner node, so that `w + 1` calls are enough. -/
def insert (key : ARTKey w) (value : V) : Except Fault (Bool × ART w V) := do
  if t.read_only then return (false, t)
  return (true, { t with root := some (← insert_recursive_opt key value (w + 1) t.root 0) })

def find (key : ARTKey w) : Except Fault (Option V) :=
  match t.root with
  | none => .ok none
  | some node => getByKey_opt key (w + 1) node 0

/-- The inserts of a sequence, one after the other. -/
def insertAll : List (ARTKey w × V) → ART w V → Except Fault (ART w V)
  | [], t => .ok t
  | e :: es, t => do insertAll es (← t.insert e.1 e.2).2

end ART

/-! ## The specification -/

/-- The subtree has a leaf with this key and value. -/
inductive HasLeaf : ARTNode w V → ARTKey w → V → Prop
  | leaf (k : ARTKey w) (v : V) : HasLeaf (.leaf k v) k v
  | inner {pfx : List KeyUnit} {n : ARTInnerNode (ARTNode w V)} {b : KeyUnit} {c : ARTNode w V}
      {k : ARTKey w} {v : V} (hc : n.getChild b = some c) (hl : HasLeaf c k v) :
      HasLeaf (.inner pfx n) k v

/-- The node `s` is reached from `t` along these bytes. -/
inductive NodeAt : ARTNode w V → List KeyUnit → ARTNode w V → Prop
  | here (t : ARTNode w V) : NodeAt t [] t
  | child {pfx : List KeyUnit} {n : ARTInnerNode (ARTNode w V)} {b : KeyUnit} {c s : ARTNode w V}
      {path : List KeyUnit} (hc : n.getChild b = some c) (hs : NodeAt c path s) :
      NodeAt (.inner pfx n) (pfx ++ b :: path) s

/-- The invariant of an inner node that is reached along `path`. -/
structure NodeInvariant (path pfx : List KeyUnit) (n : ARTInnerNode (ARTNode w V)) : Prop where
  bytes : ∀ b c k v, n.getChild b = some c → HasLeaf c k v → path ++ pfx ++ [b] <+: k.data
  distinct : n.Distinct
  counted : n.n_children = n.childBytes.card
  capacity : n.childBytes.card ≤ n.capacity

variable (ins : List (ARTKey w × V))

/-- The value of the first insert of a key. -/
def firstValue (k : ARTKey w) : Option V :=
  (ins.find? fun e => decide (e.1 = k)).map Prod.snd

/-- What the tree is after these inserts. -/
structure Correct (ins : List (ARTKey w × V)) (t : ART w V) : Prop where
  find : ∀ k v, firstValue ins k = some v → t.find k = .ok (some v)
  leaves : ∀ k, (∃ node ∈ t.root, ∃ v, HasLeaf node k v) ↔ k ∈ ins.map Prod.fst
  nodes : ∀ node ∈ t.root, ∀ path pfx n, NodeAt node path (.inner pfx n) → NodeInvariant path pfx n

/-- The bytes that follow `path` in the inserted keys. -/
def nextBytes (path : List KeyUnit) : Finset KeyUnit :=
  univ.filter fun b => ∃ e ∈ ins, path ++ [b] <+: e.1.data

@[simp] theorem orFault_some (f : Fault) (b : β) : orFault f (some b) = .ok b := rfl

@[simp] theorem ok_bind {β γ : Type} (b : β) (f : β → Except Fault γ) : (Except.ok b >>= f) = f b := rfl

/-! ## Common bytes -/

/-- Two lists agree on their first `commonLength` entries and differ at the next one. -/
theorem commonLength_spec [DecidableEq β] (as bs : List β) : ∃ cs,
    commonLength as bs = cs.length ∧ cs <+: as ∧ cs <+: bs ∧
      ∀ a b, cs ++ [a] <+: as → cs ++ [b] <+: bs → a ≠ b := by
  induction as generalizing bs with
  | nil => exact ⟨[], rfl, nil_prefix, nil_prefix, fun a b ha => by simp at ha⟩
  | cons a as ih =>
    cases bs with
    | nil => exact ⟨[], rfl, nil_prefix, nil_prefix, fun a b _ hb => by simp at hb⟩
    | cons b bs =>
      by_cases hab : a = b
      · obtain ⟨cs, hl, has, hbs, hne⟩ := ih bs
        refine ⟨b :: cs, by simp [hab, hl], by simpa [hab] using has,
          by simpa using hbs, fun x y hx hy => ?_⟩
        rw [cons_append, cons_prefix_cons] at hx hy
        exact hne x y hx.2 hy.2
      · refine ⟨[], by simp [hab], nil_prefix, nil_prefix, fun x y hx hy => ?_⟩
        rw [nil_append, cons_prefix_cons] at hx hy
        rwa [hx.1, hy.1]

theorem commonLength_eq_iff [DecidableEq β] {as bs : List β} :
    commonLength as bs = as.length ↔ as <+: bs := by
  induction as generalizing bs with
  | nil => simp
  | cons a as ih =>
    cases bs with
    | nil => simp
    | cons b bs =>
      by_cases hab : a = b
      · simp [hab, ih]
      · simp [hab]

variable {pfx path : List KeyUnit} {b b' : KeyUnit} {fuel : ℕ}

section

variable {key key' : ARTKey w}

theorem prefix_match_eq_iff (hp : path <+: key.data) :
    prefix_match pfx key path.length = pfx.length ↔ path ++ pfx <+: key.data := by
  obtain ⟨rest, hrest⟩ := hp
  rw [prefix_match, ← hrest, drop_left, prefix_append_right_inj, commonLength_eq_iff]

theorem byte_eq_ok (h : path ++ [b] <+: key.data) : key.byte path.length = .ok b := by
  obtain ⟨rest, hrest⟩ := h
  simp [ARTKey.byte, orFault, ← hrest]

theorem length_lt_width (h : path ++ [b] <+: key.data) : path.length < w := by
  have := h.length_le
  rwa [key.len, length_append] at this

/-- There is fuel left as long as the path is a prefix of a key. -/
theorem exists_fuel (hp : path <+: key.data) (hf : w < fuel + path.length) :
    ∃ fuel', fuel = fuel' + 1 := by
  have := hp.length_le
  rw [key.len] at this
  exact ⟨fuel - 1, by omega⟩

theorem byte_unique (h : path ++ [b] <+: key.data) (h' : path ++ [b'] <+: key.data) : b = b' := by
  have := (byte_eq_ok h).symm.trans (byte_eq_ok h')
  injection this

/-- A prefix as long as the keys determines the key. -/
theorem key_unique (h : path <+: key.data) (h' : path <+: key'.data)
    (hw : w ≤ path.length) : key = key' := by
  have hk := h.eq_of_length_le (key.len.trans_le hw)
  have hk' := h'.eq_of_length_le (key'.len.trans_le hw)
  cases key
  cases hk
  cases hk'
  rfl

/-- What two keys share does not go beyond the place where they separate. -/
theorem prefix_of_separated (hne : b ≠ b') (h : pfx <+: key.data)
    (h' : pfx <+: key'.data) (hb : path ++ [b] <+: key.data) (hb' : path ++ [b'] <+: key'.data) :
    pfx <+: path := by
  have hno : ¬path ++ [b] <+: pfx := fun hc => hne (byte_unique (hc.trans h') hb')
  rcases prefix_or_prefix_of_prefix h hb with hle | hle
  · rcases prefix_concat_iff.1 hle with heq | hle
    · exact absurd (heq ▸ prefix_refl _) hno
    · exact hle
  · exact absurd hle hno

/-- The byte of a key behind a proper prefix. -/
theorem exists_byte (hp : path <+: key.data) (hlt : path.length < w) : ∃ b, path ++ [b] <+: key.data := by
  obtain ⟨rest, hrest⟩ := hp
  cases rest with
  | nil =>
    rw [← key.len, ← hrest, append_nil] at hlt
    exact absurd hlt (lt_irrefl _)
  | cons b rest => exact ⟨b, rest, by simpa using hrest⟩

/-- The test of the prefix and the next byte of a key that continues below the node. -/
theorem match_and_byte (hb : path ++ pfx ++ [b] <+: key.data) :
    prefix_match pfx key path.length = pfx.length ∧
      key.byte (path.length + pfx.length) = .ok b := by
  have hpfx : path ++ pfx <+: key.data := (prefix_append _ _).trans hb
  have hbyte := byte_eq_ok hb
  rw [length_append] at hbyte
  exact ⟨(prefix_match_eq_iff ((prefix_append _ _).trans hpfx)).2 hpfx, hbyte⟩

end

variable {n n' : ARTInnerNode (ARTNode w V)}

section

variable {c c' t : ARTNode w V} {k : ARTKey w} {v v' : V}

@[simp] theorem hasLeaf_leaf {k' : ARTKey w} : HasLeaf (.leaf k' v') k v ↔ k = k' ∧ v = v' := by
  constructor
  · rintro ⟨⟩
    exact ⟨rfl, rfl⟩
  · rintro ⟨rfl, rfl⟩
    exact .leaf k v

theorem hasLeaf_inner : HasLeaf (.inner pfx n) k v ↔ ∃ b c, n.getChild b = some c ∧ HasLeaf c k v := by
  constructor
  · rintro (_ | ⟨hc, hl⟩)
    exact ⟨_, _, hc, hl⟩
  · rintro ⟨b, c, hc, hl⟩
    exact .inner hc hl

/-- The leaves below a node do not depend on its prefix. -/
theorem hasLeaf_pfx (pfx pfx' : List KeyUnit) :
    HasLeaf (.inner pfx n) k v ↔ HasLeaf (.inner pfx' n) k v := by
  rw [hasLeaf_inner, hasLeaf_inner]

/-- The leaves below a node after one child was written. -/
theorem hasLeaf_update (h : n'.getChild = update n.getChild b (some c)) : HasLeaf (.inner pfx n') k v ↔
      HasLeaf c k v ∨ ∃ b' ≠ b, ∃ c', n.getChild b' = some c' ∧ HasLeaf c' k v := by
  rw [hasLeaf_inner, h]
  constructor
  · rintro ⟨b', c', hc', hl⟩
    rcases eq_or_ne b' b with rfl | hne
    · obtain rfl : c = c' := by simpa using hc'
      exact .inl hl
    · exact .inr ⟨b', hne, c', by simpa [hne] using hc', hl⟩
  · rintro (hl | ⟨b', hne, c', hc', hl⟩)
    · exact ⟨b, c, by simp, hl⟩
    · exact ⟨b', c', by simpa [hne] using hc', hl⟩

/-- A subtree reached along `path`: its leaves' keys begin with the bytes on the way to them, and
every inner node has a child. -/
inductive WF : List KeyUnit → ARTNode w V → Prop
  | leaf {path : List KeyUnit} {k : ARTKey w} {v : V} (hp : path <+: k.data) : WF path (.leaf k v)
  | inner {path pfx : List KeyUnit} {n : ARTInnerNode (ARTNode w V)} (ok : n.Ok)
      (tallied : n.Tallied) (child : ∃ b c, n.getChild b = some c)
      (children : ∀ b c, n.getChild b = some c → WF (path ++ pfx ++ [b]) c) : WF path (.inner pfx n)

/-- Every inner node of the subtree has at least two children. -/
inductive Branching : ARTNode w V → Prop
  | leaf (k : ARTKey w) (v : V) : Branching (.leaf k v)
  | inner {pfx : List KeyUnit} {n : ARTInnerNode (ARTNode w V)} (two : 1 < n.childBytes.card)
      (children : ∀ b c, n.getChild b = some c → Branching c) : Branching (.inner pfx n)

theorem WF.node (h : WF path (.inner pfx n)) : n.Ok ∧ n.Tallied := by
  obtain _ | ⟨ok, tallied, -, -⟩ := h
  exact ⟨ok, tallied⟩

theorem WF.children (h : WF path (.inner pfx n)) (b : KeyUnit) (c : ARTNode w V) (hc : n.getChild b = some c) :
    WF (path ++ pfx ++ [b]) c := by
  obtain _ | ⟨_, _, _, children⟩ := h
  exact children b c hc

theorem WF.path_isPrefix (h : WF path t) (hl : HasLeaf t k v) : path <+: k.data := by
  induction h with
  | leaf hp =>
    obtain ⟨rfl, -⟩ := hasLeaf_leaf.1 hl
    exact hp
  | inner _ _ _ _ ih =>
    obtain ⟨b, c, hc, hl⟩ := hasLeaf_inner.1 hl
    exact ((prefix_append _ _).trans (prefix_append _ _)).trans (ih b c hc hl)

theorem WF.node_isPrefix (h : WF path (.inner pfx n)) (hl : HasLeaf (.inner pfx n) k v) :
    path ++ pfx <+: k.data := by
  obtain ⟨b, c, hc, hl⟩ := hasLeaf_inner.1 hl
  exact (prefix_append _ _).trans ((h.children b c hc).path_isPrefix hl)

theorem WF.exists_leaf (h : WF path t) : ∃ k v, HasLeaf t k v := by
  induction h with
  | leaf _ => exact ⟨_, _, .leaf _ _⟩
  | inner _ _ child _ ih =>
    obtain ⟨b, c, hc⟩ := child
    obtain ⟨k, v, hl⟩ := ih b c hc
    exact ⟨k, v, .inner hc hl⟩

theorem WF.length_lt (h : WF path (.inner pfx n)) : (path ++ pfx).length < w := by
  obtain ⟨k, v, hl⟩ := h.exists_leaf
  obtain ⟨b, c, hc, hl⟩ := hasLeaf_inner.1 hl
  exact length_lt_width ((h.children b c hc).path_isPrefix hl)

/-- A leaf below a node lies below the child at the next byte of its key. -/
theorem WF.hasLeaf_child (h : WF path (.inner pfx n)) (hb : path ++ pfx ++ [b] <+: k.data) :
    HasLeaf (.inner pfx n) k v ↔ ∃ c, n.getChild b = some c ∧ HasLeaf c k v := by
  rw [hasLeaf_inner]
  constructor
  · rintro ⟨b', c, hc, hl⟩
    obtain rfl := byte_unique hb ((h.children b' c hc).path_isPrefix hl)
    exact ⟨c, hc, hl⟩
  · rintro ⟨c, hc, hl⟩
    exact ⟨b, c, hc, hl⟩

end

/-! ## Lookup -/

/-- The descent for the key of a leaf ends at that leaf. -/
theorem getByKey_opt_spec {path : List KeyUnit} {t : ARTNode w V} {key : ARTKey w} {v : V}
    (h : WF path t) (hl : HasLeaf t key v) (hf : w < fuel + path.length) :
    getByKey_opt key fuel t path.length = .ok (some v) := by
  have hp := h.path_isPrefix hl
  induction h generalizing fuel with
  | leaf _ =>
    obtain ⟨fuel, rfl⟩ := exists_fuel hp hf
    obtain ⟨rfl, rfl⟩ := hasLeaf_leaf.1 hl
    simp [getByKey_opt]
  | @inner path pfx n ok tallied child children ih =>
    obtain ⟨fuel, rfl⟩ := exists_fuel hp hf
    obtain ⟨b, c, hc, hlc⟩ := hasLeaf_inner.1 hl
    have hbk := (children b c hc).path_isPrefix hlc
    obtain ⟨hmatch, hbyte⟩ := match_and_byte hbk
    have hrec := @ih b c hc fuel hlc (by simp; omega) hbk
    simp only [length_append, length_singleton] at hrec
    simp [getByKey_opt, hmatch, hbyte, hc, hrec]

/-! ## Insertion -/

open ARTNode_4

section

variable {b b₁ b₂ : KeyUnit} {c c₁ c₂ t t' : ARTNode w V} {key k : ARTKey w} {value v : V}
  {fuel : ℕ}

/-- The leaves of `t'` are those of `t`, and the new one if its key was not there. -/
def Added (t t' : ARTNode w V) (key : ARTKey w) (value : V) : Prop :=
  ∀ k v, HasLeaf t' k v ↔ HasLeaf t k v ∨ k = key ∧ v = value ∧ ∀ v', ¬HasLeaf t key v'

/-- What an insertion into a subtree that is reached along `path` returns. -/
structure Inserted (path : List KeyUnit) (t t' : ARTNode w V) (key : ARTKey w) (value : V) :
    Prop where
  wf : WF path t'
  added : Added t t' key value
  branching : Branching t → Branching t'

/-- The insertion into `t` returns. -/
def Inserts (key : ARTKey w) (value : V) (fuel : ℕ) (path : List KeyUnit) (t : ARTNode w V) : Prop :=
  ∃ t', insert_recursive_opt key value fuel (some t) path.length = .ok t' ∧ Inserted path t t' key value

theorem added_of_absent (hno : ∀ v', ¬HasLeaf t key v')
    (h : ∀ k v, HasLeaf t' k v ↔ (k = key ∧ v = value) ∨ HasLeaf t k v) : Added t t' key value := by
  intro k v
  rw [h, or_comm, and_iff_left hno]

/-- What holds of all children still does when one is written that has it. -/
theorem children_update {P : KeyUnit → ARTNode w V → Prop}
    (hg : n'.getChild = update n.getChild b (some c)) (hc : P b c)
    (h : ∀ b c, n.getChild b = some c → P b c) : ∀ b c, n'.getChild b = some c → P b c := by
  intro b' c' hc'
  rw [hg] at hc'
  obtain rfl | hb := eq_or_ne b' b
  · obtain rfl : c = c' := by simpa using hc'
    exact hc
  · exact h b' c' (by simpa [hb] using hc')

theorem WF.update (h : WF path (.inner pfx n)) (ok : n'.Ok) (tallied : n'.Tallied)
    (hg : n'.getChild = update n.getChild b (some c)) (hc : WF (path ++ pfx ++ [b]) c) :
    WF path (.inner pfx n') :=
  .inner ok tallied ⟨b, c, by simp [hg]⟩ (children_update hg hc h.children)

theorem Branching.update (h : Branching (.inner pfx n))
    (hg : n'.getChild = update n.getChild b (some c)) (hc : Branching c) : Branching (.inner pfx n') := by
  obtain _ | ⟨two, children⟩ := h
  refine .inner ?_ (children_update (P := fun _ => Branching) hg hc children)
  rw [childBytes_of_getChild hg]
  exact two.trans_le (card_le_card (Finset.subset_insert _ _))

section

variable {α : Type*}

theorem create_ok : (node4 (create : ARTNode_4 α)).Ok :=
  ⟨Nat.zero_le _, fun _ _ _ h => absurd h (Nat.not_lt_zero _),
    fun _ h => absurd h (Nat.not_lt_zero _), fun _ _ => rfl⟩

theorem getChild_create : (node4 (create : ARTNode_4 α)).getChild = fun _ => none := by
  funext b
  cases h : (node4 (create : ARTNode_4 α)).getChild b with
  | none => rfl
  | some c =>
    obtain ⟨i, hi, -⟩ := (getChild_eq_some create_ok).1 h
    exact absurd hi (Nat.not_lt_zero _)

theorem create_tallied : (node4 (create : ARTNode_4 α)).Tallied := by
  rfl

/-- A new node with two children. -/
theorem pair_ok (b₁ b₂ : KeyUnit) (c₁ c₂ : α) : ∃ n, pair b₁ c₁ b₂ c₂ = some n ∧ n.Ok ∧ n.Tallied ∧
    n.getChild = update (update (fun _ => none) b₁ (some c₁)) b₂ (some c₂) := by
  obtain ⟨m, hm, hmo, hmt, hmg, hmc⟩ := insertChild_spec (k := b₁) (a := c₁) create_ok
    create_tallied (.inl rfl)
  have hcap : m.capacity = 4 := hmc
  have hcard : m.childBytes.card = 1 := by
    rw [childBytes_of_getChild hmg]
    rfl
  have hroom : m.isFull = false := by
    rw [ARTInnerNode.Tallied, hcap, hcard] at hmt
    rw [Bool.eq_false_iff, Ne, isFull_iff, hmt, hcap]
    decide
  obtain ⟨n, hn, hno, hnt, hng, -⟩ := insertChild_spec (k := b₂) (a := c₂) hmo hmt (.inl hroom)
  exact ⟨n, by simp [pair, hm, hn], hno, hnt, by rw [hng, hmg, getChild_create]⟩

end

/-- Two subtrees that lie in different directions from the end of the prefix. -/
theorem pair_spec (path pfx : List KeyUnit) (hne : b₁ ≠ b₂) (h₁ : WF (path ++ pfx ++ [b₁]) c₁)
    (h₂ : WF (path ++ pfx ++ [b₂]) c₂) : ∃ n, pair b₁ c₁ b₂ c₂ = some n ∧ WF path (.inner pfx n) ∧
      (∀ k v, HasLeaf (.inner pfx n) k v ↔ HasLeaf c₁ k v ∨ HasLeaf c₂ k v) ∧
      (Branching c₁ → Branching c₂ → Branching (.inner pfx n)) := by
  obtain ⟨n, hn, ok, tallied, hg⟩ := pair_ok b₁ b₂ c₁ c₂
  have hchild : ∀ b c, n.getChild b = some c ↔ b = b₁ ∧ c = c₁ ∨ b = b₂ ∧ c = c₂ := by
    intro b c
    rw [hg]
    rcases eq_or_ne b b₂ with rfl | h2
    · simp [hne.symm, eq_comm]
    · rcases eq_or_ne b b₁ with rfl | h1
      · simp [h2, eq_comm]
      · simp [h1, h2]
  have hall : ∀ P : KeyUnit → ARTNode w V → Prop, P b₁ c₁ → P b₂ c₂ →
      ∀ b c, n.getChild b = some c → P b c := by
    intro P hp₁ hp₂ b c hc
    rcases (hchild b c).1 hc with ⟨rfl, rfl⟩ | ⟨rfl, rfl⟩
    · exact hp₁
    · exact hp₂
  have hn₁ := (hchild b₁ c₁).2 (.inl ⟨rfl, rfl⟩)
  have hn₂ := (hchild b₂ c₂).2 (.inr ⟨rfl, rfl⟩)
  refine ⟨n, hn, .inner ok tallied ⟨b₂, c₂, hn₂⟩ (hall (fun b => WF (path ++ pfx ++ [b])) h₁ h₂),
    fun k v => ?_, fun hb₁ hb₂ => .inner ?_ (hall (fun _ => Branching) hb₁ hb₂)⟩
  · simp only [hasLeaf_inner, hchild]
    constructor
    · rintro ⟨b, c, ⟨rfl, rfl⟩ | ⟨rfl, rfl⟩, hl⟩
      · exact .inl hl
      · exact .inr hl
    · rintro (hl | hl)
      · exact ⟨_, _, .inl ⟨rfl, rfl⟩, hl⟩
      · exact ⟨_, _, .inr ⟨rfl, rfl⟩, hl⟩
  · refine one_lt_card.2 ⟨b₁, ?_, b₂, ?_, hne⟩
    · simp [mem_childBytes, hn₁]
    · simp [mem_childBytes, hn₂]

/-- At a leaf: an equal key leaves it as it is, and another one is separated from it behind their
common bytes. -/
theorem insert_at_leaf {key2 : ARTKey w} {value2 : V} (hp2 : path <+: key2.data) (hp : path <+: key.data) :
    Inserts key value (fuel + 1) path (.leaf key2 value2) := by
  obtain ⟨cs, hlen, hcs2, hcs, hne⟩ :=
    commonLength_spec (key2.data.drop path.length) (key.data.drop path.length)
  have hdata2 := prefix_iff_eq_append.1 hp2
  have hdata := prefix_iff_eq_append.1 hp
  have hpc2 : path ++ cs <+: key2.data := by rwa [← hdata2, prefix_append_right_inj]
  have hpc : path ++ cs <+: key.data := by rwa [← hdata, prefix_append_right_inj]
  by_cases hw : w ≤ path.length + cs.length
  · obtain rfl := key_unique hpc2 hpc (by rwa [length_append])
    refine ⟨.leaf key2 value2, ?_, .leaf hp2, fun k v => ?_, id⟩
    · rw [insert_recursive_opt, hlen, if_pos hw]
      rfl
    · exact (or_iff_left fun hc => hc.2.2 value2 (.leaf _ _)).symm
  · have hlt : (path ++ cs).length < w := by rwa [length_append, ← not_le]
    obtain ⟨b2, hb2⟩ := exists_byte hpc2 hlt
    obtain ⟨b, hb⟩ := exists_byte hpc hlt
    have hdiff : b2 ≠ b := by
      refine hne b2 b ?_ ?_
      · rwa [← hdata2, append_assoc, prefix_append_right_inj] at hb2
      · rwa [← hdata, append_assoc, prefix_append_right_inj] at hb
    obtain ⟨n, hn, hwf, hleaves, hbr⟩ := pair_spec path cs hdiff
      (.leaf (v := value2) hb2) (.leaf (v := value) hb)
    have hbyte2 := byte_eq_ok hb2
    have hbyte := byte_eq_ok hb
    rw [length_append] at hbyte2 hbyte
    have hpfx : (key.data.drop path.length).take cs.length = cs := (prefix_iff_eq_take.1 hcs).symm
    refine ⟨.inner cs n, ?_, hwf, fun k v => ?_, fun h => hbr h (.leaf _ _)⟩
    · rw [insert_recursive_opt, hlen, if_neg hw, hbyte2, hbyte, ok_bind, ok_bind, hn, hpfx]
      rfl
    · have hkey : key2 ≠ key := fun hc => hdiff (byte_unique hb2 (hc ▸ hb))
      simp [hleaves, hkey.symm]

section

variable (h : WF path (.inner pfx n))
include h

/-- Where the key departs from the prefix of a node, the prefix is split. -/
theorem insert_at_prefix (hp : path <+: key.data)
    (hno : ¬path ++ pfx <+: key.data) : Inserts key value (fuel + 1) path (.inner pfx n) := by
  obtain ⟨cs, hlen, hcs, hcsk, hne⟩ := commonLength_spec pfx (key.data.drop path.length)
  have hmis : prefix_match pfx key path.length ≠ pfx.length := fun hc =>
    hno ((prefix_match_eq_iff hp).1 hc)
  have hmatch : prefix_match pfx key path.length = cs.length := hlen
  obtain ⟨tail, rfl⟩ := hcs
  have hdata := prefix_iff_eq_append.1 hp
  have hpc : path ++ cs <+: key.data := by rwa [← hdata, prefix_append_right_inj]
  cases tail with
  | nil => exact absurd (by simpa using hpc) hno
  | cons b₂ tail =>
    have hlt : (path ++ cs).length < w := lt_of_le_of_lt (by simp) h.length_lt
    obtain ⟨b, hb⟩ := exists_byte hpc hlt
    have hdiff : b ≠ b₂ := by
      refine (hne b₂ b ⟨tail, by simp⟩ ?_).symm
      rwa [← hdata, append_assoc, prefix_append_right_inj] at hb
    have hsub : WF (path ++ cs ++ [b₂]) (.inner tail n) := by
      obtain _ | ⟨ok, tallied, child, children⟩ := h
      refine .inner ok tallied child fun b c hc => ?_
      simpa using children b c hc
    obtain ⟨n', hn', hwf, hleaves, hbr⟩ := pair_spec path cs hdiff (.leaf (v := value) hb) hsub
    have hbyte := byte_eq_ok hb
    rw [length_append] at hbyte
    refine ⟨.inner cs n', ?_, hwf, added_of_absent (fun v' hl => ?_) fun k v => ?_, fun h => ?_⟩
    · have htake : (cs ++ b₂ :: tail).take cs.length = cs := take_left
      have hget : (cs ++ b₂ :: tail)[cs.length]? = some b₂ := by simp
      have hdrop : (cs ++ b₂ :: tail).drop (cs.length + 1) = tail := by simp
      rw [insert_recursive_opt, if_pos hmis, hmatch, hbyte, ok_bind, hget, orFault_some, ok_bind,
        hdrop, hn', htake]
      rfl
    · exact hdiff (byte_unique hb (hsub.path_isPrefix ((hasLeaf_pfx _ _).1 hl)))
    · rw [hleaves, hasLeaf_leaf, hasLeaf_pfx tail]
    · obtain _ | ⟨two, children⟩ := h
      exact hbr (.leaf _ _) (.inner two children)

/-- A byte without a child gets the new leaf as its child. -/
theorem insert_at_node (hb : path ++ pfx ++ [b] <+: key.data)
    (hc : n.getChild b = none) : Inserts key value (fuel + 1) path (.inner pfx n) := by
  obtain ⟨ok, tallied⟩ := h.node
  obtain ⟨hmatch, hbyte⟩ := match_and_byte hb
  obtain ⟨n', hn', ok', tallied', hg⟩ :=
    addChild_spec (a := .leaf key value) ok tallied hc
  refine ⟨.inner pfx n', ?_, h.update ok' tallied' hg (.leaf hb),
    added_of_absent (fun v' hl => ?_) fun k v => ?_, fun h => h.update hg (.leaf _ _)⟩
  · simp only [insert_recursive_opt, hmatch, ne_eq, not_true_eq_false, if_false, hbyte, ok_bind, hc,
      hn', orFault_some]
    rfl
  · obtain ⟨c, hc', -⟩ := (h.hasLeaf_child hb).1 hl
    cases hc.symm.trans hc'
  · rw [hasLeaf_update hg, hasLeaf_leaf, hasLeaf_inner]
    refine or_congr_right (exists_congr fun b' => ?_)
    refine ⟨fun hl => hl.2, fun hl => ⟨fun hbb => ?_, hl⟩⟩
    obtain ⟨c, hc', -⟩ := hl
    rw [hbb, hc] at hc'
    cases hc'

/-- The descent into a child, whose subtree `c'` is put in its place. -/
theorem insert_below (hb : path ++ pfx ++ [b] <+: key.data)
    (hc : n.getChild b = some c) (hrec : Inserts key value fuel (path ++ pfx ++ [b]) c) :
    Inserts key value (fuel + 1) path (.inner pfx n) := by
  obtain ⟨c', hrec, hins⟩ := hrec
  obtain ⟨ok, tallied⟩ := h.node
  obtain ⟨hmatch, hbyte⟩ := match_and_byte hb
  obtain ⟨n', hn', ok', tallied', hg, -⟩ :=
    insertChild_spec ok tallied (.inr (by rw [hc]; rfl))
  simp only [length_append, length_singleton] at hrec
  have hold : n.getChild = update n.getChild b (some c) := by rw [← hc, update_eq_self]
  have hkey : ∀ v', HasLeaf (.inner pfx n) key v' ↔ HasLeaf c key v' := by
    intro v'
    rw [h.hasLeaf_child hb, hc]
    simp
  refine ⟨.inner pfx n', ?_, h.update ok' tallied' hg hins.wf, fun k v => ?_, fun hb => ?_⟩
  · simp only [insert_recursive_opt, hmatch, ne_eq, not_true_eq_false, if_false, hbyte, ok_bind, hc,
      hrec, hn', orFault_some]
    rfl
  · rw [hasLeaf_update hg, hasLeaf_update hold, hins.added k v]
    simp only [hkey]
    exact or_right_comm
  · refine hb.update hg (hins.branching ?_)
    obtain _ | ⟨_, children⟩ := hb
    exact children b c hc

end

/-- Insertion into a well-formed subtree returns, keeps it well formed and adds the key. -/
theorem insert_recursive_opt_spec (h : WF path t) (hp : path <+: key.data) (hf : w < fuel + path.length) :
    Inserts key value fuel path t := by
  induction h generalizing fuel with
  | leaf hp2 =>
    obtain ⟨fuel, rfl⟩ := exists_fuel hp hf
    exact insert_at_leaf hp2 hp
  | @inner path pfx n ok tallied child children ih =>
    obtain ⟨fuel, rfl⟩ := exists_fuel hp hf
    have h : WF path (.inner pfx n) := .inner ok tallied child children
    by_cases hpfx : path ++ pfx <+: key.data
    · obtain ⟨b, hb⟩ := exists_byte hpfx h.length_lt
      cases hc : n.getChild b with
      | none => exact insert_at_node h hb hc
      | some c => exact insert_below h hb hc (@ih b c hc fuel hb (by simp; omega))
    · exact insert_at_prefix h hp hpfx

end

/-! ## Sequences of insertions -/

section

variable {ins : List (ARTKey w × V)} {t : ART w V} {node s : ARTNode w V} {path σ pfx : List KeyUnit}
  {n : ARTInnerNode (ARTNode w V)} {k key : ARTKey w} {v value : V}

theorem exists_firstValue : (∃ v, firstValue ins k = some v) ↔ k ∈ ins.map Prod.fst := by
  rw [← isSome_iff_exists, firstValue, isSome_map, find?_isSome, List.mem_map]
  simp only [decide_eq_true_eq]

/-- One more insert matters for its key only, and only if it is the first of this key. -/
theorem firstValue_append : firstValue (ins ++ [(key, value)]) k = some v ↔
    firstValue ins k = some v ∨ k = key ∧ v = value ∧ ∀ v', firstValue ins key ≠ some v' := by
  have happ : firstValue (ins ++ [(key, value)]) k =
      (firstValue ins k).or (if key = k then some value else none) := by
    simp only [firstValue, find?_append, map_or]
    by_cases hk : key = k <;> simp [hk]
  rw [happ]
  cases hf : firstValue ins k with
  | some v₀ => exact (or_iff_left fun hc => hc.2.2 v₀ (hc.1 ▸ hf)).symm
  | none =>
    by_cases hk : key = k
    · subst hk
      simp [hf, eq_comm]
    · simp [hk, Ne.symm hk]

/-- The tree is well formed and its leaves are the first inserts of their keys. -/
structure Represents (t : ART w V) (ins : List (ARTKey w × V)) : Prop where
  writable : t.read_only = false
  wf : ∀ node ∈ t.root, WF [] node
  leaves : ∀ k v, (∃ node ∈ t.root, HasLeaf node k v) ↔ firstValue ins k = some v

/-- Every inner node of the tree has at least two children. -/
def ART.Branching : Prop := ∀ node ∈ t.root, Art.Branching node

theorem represents_empty : Represents ({} : ART w V) [] :=
  ⟨rfl, by simp, by simp [firstValue]⟩

section

variable (h : Represents t ins)
include h

theorem Represents.insert (key : ARTKey w) (value : V) :
    ∃ t', t.insert key value = .ok (true, t') ∧ Represents t' (ins ++ [(key, value)]) ∧
      (t.Branching → t'.Branching) := by
  obtain ⟨t', hrun, hwf, hleaves, hbr⟩ : ∃ t', insert_recursive_opt key value (w + 1) t.root 0 =
      .ok t' ∧ WF [] t' ∧ (∀ k v, HasLeaf t' k v ↔ firstValue (ins ++ [(key, value)]) k = some v) ∧
      (t.Branching → Art.Branching t') := by
    have hold := h.leaves
    cases hr : t.root with
    | none =>
      have hnone : ∀ k v, firstValue ins k ≠ some v := fun k v => by simpa [hr] using hold k v
      refine ⟨.leaf key value, rfl, .leaf nil_prefix, fun k v => ?_, fun _ => .leaf _ _⟩
      rw [firstValue_append]
      simp [hnone]
    | some node =>
      obtain ⟨t', hrun, hins⟩ : Inserts key value (w + 1) [] node :=
        insert_recursive_opt_spec (h.wf node hr) nil_prefix (by simp)
      refine ⟨t', hrun, hins.wf, fun k v => ?_, fun hb => hins.branching (hb node hr)⟩
      simp only [hr, Option.mem_def, Option.some.injEq, exists_eq_left'] at hold
      rw [hins.added, firstValue_append]
      simp only [hold, ne_eq]
  refine ⟨{ t with root := some t' }, ?_, ⟨h.writable, by simpa using hwf, by simpa using hleaves⟩,
    fun hb => by simpa [ART.Branching] using hbr hb⟩
  simp only [ART.insert, h.writable, hrun, ok_bind]
  rfl

/-- Any sequence of insertions returns, and the tree then represents it. -/
theorem Represents.insertAll (more : List (ARTKey w × V)) :
    ∃ t', ART.insertAll more t = .ok t' ∧ Represents t' (ins ++ more) ∧
      (t.Branching → t'.Branching) := by
  induction more generalizing t ins with
  | nil => exact ⟨t, rfl, by simpa using h, id⟩
  | cons e more ih =>
    obtain ⟨t₁, he, h₁, hb₁⟩ := h.insert e.1 e.2
    obtain ⟨t', hrun, h', hb'⟩ := ih h₁
    refine ⟨t', ?_, by simpa using h', hb' ∘ hb₁⟩
    rwa [ART.insertAll, he]

theorem Represents.find (hk : firstValue ins k = some v) : t.find k = .ok (some v) := by
  obtain ⟨node, hr, hl⟩ := (h.leaves k v).2 hk
  have hr' : t.root = some node := hr
  simp only [ART.find, hr']
  exact getByKey_opt_spec (h.wf node hr) hl (by simp)

theorem Represents.mem_iff : (∃ node ∈ t.root, ∃ v, HasLeaf node k v) ↔ k ∈ ins.map Prod.fst := by
  simp only [← exists_firstValue, ← h.leaves]
  constructor
  · rintro ⟨node, hr, v, hl⟩
    exact ⟨v, node, hr, hl⟩
  · rintro ⟨v, node, hr, hl⟩
    exact ⟨node, hr, v, hl⟩

end

/-! ### The nodes of the tree -/

theorem WF.nodeAt (h : WF path node) (hs : NodeAt node σ s) : WF (path ++ σ) s := by
  induction hs generalizing path with
  | here t => simpa using h
  | child hc _ ih => simpa using ih (h.children _ _ hc)

theorem NodeAt.eq_of_nil (hs : NodeAt node [] s) : node = s := by
  generalize hσ : ([] : List KeyUnit) = σ at hs
  cases hs with
  | here t => rfl
  | child _ _ => simp at hσ

theorem NodeAt.hasLeaf (hs : NodeAt node σ s) (hl : HasLeaf s k v) : HasLeaf node k v := by
  induction hs with
  | here t => exact hl
  | child hc _ ih => exact .inner hc (ih hl)

/-- Where two keys of the tree separate there is a node, and it has a child for every byte with
which a key of the tree continues there. -/
theorem WF.exists_node (h : WF path node) {π : List KeyUnit} (hπ : path <+: π)
    {k₁ k₂ : ARTKey w} {v₁ v₂ : V} (hl₁ : HasLeaf node k₁ v₁) (hl₂ : HasLeaf node k₂ v₂)
    {b₁ b₂ : KeyUnit} (hne : b₁ ≠ b₂) (h₁ : π ++ [b₁] <+: k₁.data) (h₂ : π ++ [b₂] <+: k₂.data) :
    ∃ σ pfx n, NodeAt node σ (.inner pfx n) ∧ path ++ σ ++ pfx = π ∧
      ∀ b k v, HasLeaf node k v → π ++ [b] <+: k.data → (n.getChild b).isSome := by
  induction h with
  | leaf _ =>
    obtain ⟨rfl, -⟩ := hasLeaf_leaf.1 hl₁
    obtain ⟨rfl, -⟩ := hasLeaf_leaf.1 hl₂
    exact absurd (byte_unique h₁ h₂) hne
  | @inner path pfx n ok tallied child children ih =>
    have hwf : WF path (.inner pfx n) := .inner ok tallied child children
    have hpπ : path ++ pfx <+: π :=
      prefix_of_separated hne (hwf.node_isPrefix hl₁) (hwf.node_isPrefix hl₂) h₁ h₂
    obtain ⟨ρ, rfl⟩ := hpπ
    cases ρ with
    | nil =>
      refine ⟨[], pfx, n, .here _, by simp, fun b k v hl hb => ?_⟩
      rw [append_nil] at hb
      obtain ⟨c, hc, -⟩ := (hwf.hasLeaf_child hb).1 hl
      rw [hc]
      rfl
    | cons b ρ =>
      -- every key that continues behind the node is below the child at `b`
      have hstep : path ++ pfx ++ [b] <+: path ++ pfx ++ b :: ρ := ⟨ρ, by simp⟩
      have hbelow : ∀ {b' k v}, HasLeaf (.inner pfx n) k v → path ++ pfx ++ b :: ρ ++ [b'] <+: k.data →
          ∃ c, n.getChild b = some c ∧ HasLeaf c k v := fun hl hb' =>
        (hwf.hasLeaf_child ((hstep.trans (prefix_append _ _)).trans hb')).1 hl
      obtain ⟨c, hc, hc₁⟩ := hbelow hl₁ h₁
      obtain ⟨c', hc', hc₂⟩ := hbelow hl₂ h₂
      cases hc.symm.trans hc'
      obtain ⟨σ, pfx', n', hat, hpath, hchild⟩ := ih b c hc hstep hc₁ hc₂
      refine ⟨pfx ++ b :: σ, pfx', n', .child hc hat, by simpa using hpath, fun b' k v hl hb' => ?_⟩
      obtain ⟨c', hc', hl'⟩ := hbelow hl hb'
      cases hc.symm.trans hc'
      exact hchild b' k v hl' hb'

theorem mem_nextBytes {b : KeyUnit} :
    b ∈ nextBytes ins path ↔ ∃ k ∈ ins.map Prod.fst, path ++ [b] <+: k.data := by
  simp [nextBytes]

section

variable (h : Represents t ins)
include h

/-- The children of a node are at most the bytes that follow its path in the inserted keys. -/
theorem Represents.childBytes_subset (hr : node ∈ t.root)
    (hat : NodeAt node path (.inner pfx n)) : n.childBytes ⊆ nextBytes ins (path ++ pfx) := by
  intro b hb
  obtain ⟨c, hc⟩ := isSome_iff_exists.1 (mem_childBytes.1 hb)
  have hwf := ((h.wf node hr).nodeAt hat).children b c hc
  obtain ⟨k, v, hl⟩ := hwf.exists_leaf
  exact mem_nextBytes.2
    ⟨k, h.mem_iff.1 ⟨node, hr, v, hat.hasLeaf (.inner hc hl)⟩, hwf.path_isPrefix hl⟩

/-- Where the inserted keys continue with more than one byte there is a node with these children. -/
theorem Represents.exists_node (path : List KeyUnit) (hcard : 1 < (nextBytes ins path).card) :
    ∃ node ∈ t.root, ∃ σ pfx n, NodeAt node σ (.inner pfx n) ∧ σ ++ pfx = path ∧
      n.childBytes = nextBytes ins path := by
  obtain ⟨b₁, hb₁, b₂, hb₂, hne⟩ := one_lt_card.1 hcard
  obtain ⟨k₁, hk₁, h₁⟩ := mem_nextBytes.1 hb₁
  obtain ⟨k₂, hk₂, h₂⟩ := mem_nextBytes.1 hb₂
  obtain ⟨node, hr, v₁, hl₁⟩ := h.mem_iff.2 hk₁
  have hleaf : ∀ {k}, k ∈ ins.map Prod.fst → ∃ v, HasLeaf node k v := by
    intro k hk
    obtain ⟨node', hr', v, hl⟩ := h.mem_iff.2 hk
    obtain rfl := mem_unique hr hr'
    exact ⟨v, hl⟩
  obtain ⟨v₂, hl₂⟩ := hleaf hk₂
  obtain ⟨σ, pfx, n, hat, hpath, hchild⟩ :=
    (h.wf node hr).exists_node nil_prefix hl₁ hl₂ hne h₁ h₂
  refine ⟨node, hr, σ, pfx, n, hat, hpath, Finset.Subset.antisymm ?_ fun b hb => ?_⟩
  · rw [← hpath]
    exact h.childBytes_subset hr hat
  · obtain ⟨k, hk, hbk⟩ := mem_nextBytes.1 hb
    obtain ⟨v, hl⟩ := hleaf hk
    exact mem_childBytes.2 (hchild b k v hl hbk)

/-- The counters of all nodes are right if no path has more than 48 next bytes, and only then. -/
theorem Represents.counted_iff :
    (∀ node ∈ t.root, ∀ path pfx n, NodeAt node path (.inner pfx n) →
      n.n_children = n.childBytes.card) ↔ ∀ path, (nextBytes ins path).card ≤ 48 := by
  constructor
  · intro hcount path
    by_contra hlt
    obtain ⟨node, hr, σ, pfx, n, hat, -, hbytes⟩ := h.exists_node path (by omega)
    obtain ⟨ok, tallied⟩ := ((h.wf node hr).nodeAt hat).node
    have := (tallied.n_children_eq_iff ok).1 (hcount node hr σ pfx n hat)
    rw [hbytes] at this
    exact hlt this
  · intro hle node hr path pfx n hat
    obtain ⟨ok, tallied⟩ := ((h.wf node hr).nodeAt hat).node
    exact (tallied.n_children_eq_iff ok).2
      ((card_le_card (h.childBytes_subset hr hat)).trans (hle _))

/-- All of the specification but the counters holds after any sequence of insertions. -/
theorem Represents.correct_iff :
    Correct ins t ↔ ∀ node ∈ t.root, ∀ path pfx n, NodeAt node path (.inner pfx n) →
      n.n_children = n.childBytes.card := by
  constructor
  · intro hc node hr path pfx n hat
    exact (hc.nodes node hr path pfx n hat).counted
  · intro hcount
    refine ⟨fun k v => h.find, fun k => h.mem_iff, fun node hr path pfx n hat => ?_⟩
    have hwf := (h.wf node hr).nodeAt hat
    obtain ⟨ok, tallied⟩ := hwf.node
    exact ⟨fun b c k v hc hl => (hwf.children b c hc).path_isPrefix hl, ok.distinct,
      hcount node hr path pfx n hat, card_childBytes_le tallied ok⟩

end

/-- After every sequence of insertions into an empty tree, lookups return the value of the first
insert of their key, the leaves are the inserted keys and every node keeps its invariant, if and
only if nowhere more than 48 different bytes follow the same bytes in the inserted keys. -/
theorem inserts_correct_iff (ins : List (ARTKey w × V)) :
    (∃ t, ART.insertAll ins {} = .ok t ∧ Correct ins t) ↔
      ∀ path, (nextBytes ins path).card ≤ 48 := by
  obtain ⟨t, hrun, h, -⟩ := represents_empty.insertAll ins
  rw [nil_append] at h
  rw [← h.counted_iff, ← h.correct_iff]
  constructor
  · rintro ⟨t', hrun', hc⟩
    cases hrun.symm.trans hrun'
    exact hc
  · exact fun hc => ⟨t, hrun, hc⟩

theorem Branching.nodeAt (hb : Branching node) (hs : NodeAt node σ s) : Branching s := by
  induction hs with
  | here => exact hb
  | child hc _ ih =>
    obtain _ | ⟨_, children⟩ := hb
    exact ih (children _ _ hc)

/-- **The shape of the tree is that of the set of keys**, whatever the order of the inserts: an
inner node stands exactly where the keys continue with more than one byte. -/
theorem inner_nodes_iff (ins : List (ARTKey w × V)) : ∃ t, ART.insertAll ins {} = .ok t ∧
    ∀ path, (∃ node ∈ t.root, ∃ σ pfx n, NodeAt node σ (.inner pfx n) ∧ σ ++ pfx = path) ↔
      1 < (nextBytes ins path).card := by
  obtain ⟨t, hrun, h, hbr⟩ := represents_empty.insertAll ins
  rw [nil_append] at h
  refine ⟨t, hrun, fun path => ⟨?_, fun hcard => ?_⟩⟩
  · rintro ⟨node, hr, σ, pfx, n, hat, rfl⟩
    obtain _ | ⟨two, -⟩ := (hbr (by simp [ART.Branching]) node hr).nodeAt hat
    exact two.trans_le (card_le_card (h.childBytes_subset hr hat))
  · obtain ⟨node, hr, σ, pfx, n, hat, hpath, -⟩ := h.exists_node path hcard
    exact ⟨node, hr, σ, pfx, n, hat, hpath⟩

/-- The key of one byte. -/
def byteKey (b : KeyUnit) : ARTKey 1 := ⟨[b], rfl⟩

/-- The keys of one byte below 49. -/
def bytesBelow49 : List (ARTKey 1 × Unit) :=
  (List.finRange 49).map fun i => (⟨[i.castLE (by decide)], rfl⟩, ())

theorem card_nextBytes_bytesBelow49 : (nextBytes bytesBelow49 []).card = 49 := by
  have hbytes : nextBytes bytesBelow49 [] =
      univ.map (Fin.castLEEmb (by decide : 49 ≤ 256)) := by
    ext b
    refine mem_nextBytes.trans (Iff.trans ?_ Finset.mem_map.symm)
    rw [bytesBelow49, List.map_map]
    constructor
    · rintro ⟨k, hk, hb⟩
      obtain ⟨i, -, rfl⟩ := mem_map.1 hk
      exact ⟨i, mem_univ i, (cons_prefix_cons.1 hb).1.symm⟩
    · rintro ⟨i, -, rfl⟩
      exact ⟨_, mem_map_of_mem (mem_finRange i), prefix_rfl⟩
  rw [hbytes, card_map, card_univ, Fintype.card_fin]

/-- After these 49 inserts the root has 49 children and counts 48. -/
theorem inserts_miscounted : ∃ t pfx n, ART.insertAll bytesBelow49 {} = .ok t ∧
    t.root = some (.inner pfx n) ∧ n.childBytes.card = 49 ∧ n.n_children = 48 ∧
    ¬Correct bytesBelow49 t := by
  obtain ⟨t, hrun, h, -⟩ := represents_empty.insertAll bytesBelow49
  rw [nil_append] at h
  have hcard := card_nextBytes_bytesBelow49
  obtain ⟨node, hr, σ, pfx, n, hat, hpath, hbytes⟩ := h.exists_node [] (by omega)
  obtain ⟨rfl, rfl⟩ := append_eq_nil_iff.1 hpath
  obtain rfl := hat.eq_of_nil
  obtain ⟨ok, tallied⟩ := (h.wf _ hr).node
  have hcount := tallied.n_children_eq_iff ok
  rw [hbytes] at hcount
  refine ⟨t, [], n, hrun, hr, hbytes ▸ hcard, ?_, fun hc => ?_⟩
  · unfold ARTInnerNode.Tallied at tallied
    rw [hbytes] at tallied
    split_ifs at tallied
    · omega
    · exact tallied.1
  · have := (hc.nodes _ hr [] [] n (.here _)).counted
    rw [hbytes] at this
    omega

end

end Proteus.Art
