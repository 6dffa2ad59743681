import Proteus.Oltp.Art

/-!
# Lookups of absent keys, and the bytes that insertions compare

Both questions are about how deep the nodes and leaves of the tree lie. An inner node stands exactly
where the keys of the tree separate (`Branching`), so both answers can be given in terms of the
inserted keys.

`getByKey_opt` goes on with the child of the key's next byte and calls a member function on it
whether it is there or not, so the lookup of an absent key is lost where other keys separate and
none of them continues with the key's byte (`find_absent_iff`). The loop of `insert_recursive_opt`
that compares a new key with that of a leaf reads a byte before it tests the position, so it reads
behind the keys when the leaf lies as deep as the keys are long (`inserts_in_bounds_iff`).
-/

namespace Proteus.Art

open List

variable {w : ℕ} {V : Type} {path pfx π : List KeyUnit} {n : ARTInnerNode (ARTNode w V)}
  {b b' : KeyUnit} {c t : ARTNode w V} {key k : ARTKey w} {v : V} {fuel i j : ℕ}

/-- A key of the subtree continues with `b` behind `π`. -/
def Next (t : ARTNode w V) (π : List KeyUnit) (b : KeyUnit) : Prop :=
  ∃ k v, HasLeaf t k v ∧ π ++ [b] <+: k.data

theorem not_next_leaf (hne : b ≠ b') (h : Next (.leaf k v) π b) : ¬Next (.leaf k v) π b' := by
  rintro ⟨k', v', hl', hb'⟩
  obtain ⟨k, v, hl, hb⟩ := h
  obtain ⟨rfl, -⟩ := hasLeaf_leaf.1 hl
  obtain ⟨rfl, -⟩ := hasLeaf_leaf.1 hl'
  exact hne (byte_unique hb hb')

/-- The keys that separate at `π` lead through every part of the way that they have in common. -/
theorem isPrefix_of_next (hp : ∀ k v, HasLeaf t k v → path <+: k.data) (hne : b ≠ b')
    (h : Next t π b) (h' : Next t π b') : path <+: π := by
  obtain ⟨k, v, hl, hb⟩ := h
  obtain ⟨k', v', hl', hb'⟩ := h'
  exact prefix_of_separated hne (hp k v hl) (hp k' v' hl') hb hb'

section

variable (h : WF path (.inner pfx n))
include h

theorem WF.next_of_child (hc : n.getChild b = some c) : Next (.inner pfx n) (path ++ pfx) b := by
  obtain _ | ⟨_, _, _, children⟩ := h
  obtain ⟨k, v, hl⟩ := (children b c hc).exists_leaf
  exact ⟨k, v, .inner hc hl, (children b c hc).path_isPrefix hl⟩

/-- Behind a child the keys of the node are those of the child. -/
theorem WF.next_child (hc : n.getChild b = some c)
    (hπ : path ++ pfx ++ [b] <+: π) : Next (.inner pfx n) π b' ↔ Next c π b' := by
  constructor
  · rintro ⟨k, v, hl, hk⟩
    obtain ⟨c', hc', hl'⟩ := (h.hasLeaf_child ((hπ.trans (prefix_append _ _)).trans hk)).1 hl
    obtain rfl : c = c' := by simpa [hc] using hc'
    exact ⟨k, v, hl', hk⟩
  · rintro ⟨k, v, hl, hk⟩
    exact ⟨k, v, .inner hc hl, hk⟩

/-! ## Absent keys -/

/-- Keys separate on the way of this key, and none continues with its byte. -/
def DeadEnd (t : ARTNode w V) (key : ARTKey w) : Prop :=
  ∃ π b, π ++ [b] <+: key.data ∧ ¬Next t π b ∧ ∃ b₁ b₂, b₁ ≠ b₂ ∧ Next t π b₁ ∧ Next t π b₂

theorem WF.deadEnd_child (hb : path ++ pfx ++ [b] <+: key.data)
    (hc : n.getChild b = some c) : DeadEnd (.inner pfx n) key ↔ DeadEnd c key := by
  constructor
  · rintro ⟨π, b', hk, hno, b₁, b₂, hne, h₁, h₂⟩
    obtain ⟨ρ, rfl⟩ := isPrefix_of_next (fun _ _ => h.node_isPrefix) hne h₁ h₂
    cases ρ with
    | nil =>
      rw [append_nil] at hk hno
      obtain rfl := byte_unique hk hb
      exact absurd (h.next_of_child hc) hno
    | cons x ρ =>
      have hx : path ++ pfx ++ [x] <+: path ++ pfx ++ x :: ρ := ⟨ρ, by simp⟩
      obtain rfl := byte_unique ((hx.trans (prefix_append _ _)).trans hk) hb
      rw [h.next_child hc hx] at hno h₁ h₂
      exact ⟨_, b', hk, hno, b₁, b₂, hne, h₁, h₂⟩
  · rintro ⟨π, b', hk, hno, b₁, b₂, hne, h₁, h₂⟩
    have hπ : path ++ pfx ++ [b] <+: π := by
      obtain _ | ⟨_, _, _, children⟩ := h
      exact isPrefix_of_next (fun _ _ => (children b c hc).path_isPrefix) hne h₁ h₂
    rw [← h.next_child hc hπ] at hno h₁ h₂
    exact ⟨π, b', hk, hno, b₁, b₂, hne, h₁, h₂⟩

end

open Classical in
/-- The descent for an absent key returns, or calls a member function on a null child. -/
theorem getByKey_opt_absent (h : WF path t) (hbr : Branching t) (hp : path <+: key.data)
    (hno : ∀ v, ¬HasLeaf t key v) (hf : w < fuel + path.length) : getByKey_opt key fuel t path.length =
      if DeadEnd t key then .error .nullNode else .ok none := by
  induction h generalizing fuel with
  | @leaf path k v hk =>
    obtain ⟨fuel, rfl⟩ := exists_fuel hp hf
    have hne : key ≠ k := fun hkk => hno v (hkk ▸ .leaf k v)
    have hdead : ¬DeadEnd (.leaf k v) key := by
      rintro ⟨π, b, -, -, b₁, b₂, hb, h₁, h₂⟩
      exact not_next_leaf hb h₁ h₂
    rw [if_neg hdead, getByKey_opt, if_neg hne]
  | @inner path pfx n ok tallied child children ih =>
    obtain ⟨fuel, rfl⟩ := exists_fuel hp hf
    have h : WF path (.inner pfx n) := .inner ok tallied child children
    obtain _ | ⟨two, branches⟩ := hbr
    by_cases hpfx : path ++ pfx <+: key.data
    · obtain ⟨b, hb⟩ := exists_byte hpfx h.length_lt
      obtain ⟨hmatch, hbyte⟩ := match_and_byte hb
      cases hc : n.getChild b with
      | none =>
        have hdead : DeadEnd (.inner pfx n) key := by
          obtain ⟨b₁, hb₁, b₂, hb₂, hne⟩ := Finset.one_lt_card.1 two
          obtain ⟨c₁, hc₁⟩ := Option.isSome_iff_exists.1 (ARTInnerNode.mem_childBytes.1 hb₁)
          obtain ⟨c₂, hc₂⟩ := Option.isSome_iff_exists.1 (ARTInnerNode.mem_childBytes.1 hb₂)
          refine ⟨_, b, hb, ?_, b₁, b₂, hne, h.next_of_child hc₁, h.next_of_child hc₂⟩
          rintro ⟨k, v, hl, hk⟩
          obtain ⟨c, hc', -⟩ := (h.hasLeaf_child hk).1 hl
          rw [hc] at hc'
          cases hc'
        rw [if_pos hdead]
        simp [getByKey_opt, hmatch, hbyte, hc, orFault]
        rfl
      | some c =>
        have hrec := @ih b c hc fuel (branches b c hc) hb
          (fun v hl => hno v (.inner hc hl)) (by simp; omega)
        simp only [length_append, length_singleton] at hrec
        simp only [h.deadEnd_child hb hc, ← hrec]
        simp [getByKey_opt, hmatch, hbyte, hc]
    · have hdead : ¬DeadEnd (.inner pfx n) key := by
        rintro ⟨π, b, hb, -, b₁, b₂, hne, h₁, h₂⟩
        have hπ := isPrefix_of_next (fun _ _ => h.node_isPrefix) hne h₁ h₂
        exact hpfx ((hπ.trans (prefix_append _ _)).trans hb)
      rw [if_neg hdead, getByKey_opt, if_pos fun hm => hpfx ((prefix_match_eq_iff hp).1 hm)]
      rfl

/-! ## The bytes that an insertion compares

The bytes that are used one at a time are read by `ARTKey.byte`, which fails behind the key. Here are
the positions that the two loops read. -/

/-- The loop that compares a new key with the key of a leaf from `tmp_depth` on. -/
def splitLoop (key2 key : ARTKey w) (i : ℕ) : List ℕ :=
  i :: if key2.data[i]? = key.data[i]? ∧ i < w ∧ i + 1 ≠ w then splitLoop key2 key (i + 1) else []
termination_by w - i
decreasing_by omega

/-- The loop of `prefix_match`. -/
def prefixLoop (key : ARTKey w) : List KeyUnit → ℕ → List ℕ
  | [], _ => []
  | b :: pfx, i => i :: if key.data[i]? = some b then prefixLoop key pfx (i + 1) else []

/-- The positions at which `insert_recursive_opt` compares bytes of the key on its way down. -/
def comparisons (key : ARTKey w) : ℕ → ARTNode w V → ℕ → List ℕ
  | 0, _, _ => []
  | _ + 1, .leaf key2 _, depth => splitLoop key2 key depth
  | fuel + 1, .inner pfx n, depth =>
    prefixLoop key pfx depth ++
      if prefix_match pfx key depth ≠ pfx.length then []
      else match key.byte (depth + pfx.length) with
      | .error _ => []
      | .ok b => match n.getChild b with
        | none => []
        | some child => comparisons key fuel child (depth + pfx.length + 1)

theorem lt_of_mem_splitLoop {key2 : ARTKey w} (hi : i < w) (hj : j ∈ splitLoop key2 key i) : j < w := by
  fun_induction splitLoop key2 key i with
  | case1 i ih =>
    obtain rfl | hj := mem_cons.1 hj
    · exact hi
    · split_ifs at hj with h
      · exact ih h (by omega) hj
      · cases hj

theorem lt_of_mem_prefixLoop (hj : j ∈ prefixLoop key pfx i) : j < i + pfx.length := by
  induction pfx generalizing i with
  | nil => cases hj
  | cons b pfx ih =>
    rw [length_cons]
    obtain rfl | hj := mem_cons.1 hj
    · omega
    · split_ifs at hj
      · have := ih hj
        omega
      · cases hj

/-- The key is in the tree, and another one that differs in the last byte only. -/
def Sibling (t : ARTNode w V) (key : ARTKey w) : Prop :=
  ∃ π b b', π ++ [b] = key.data ∧ b ≠ b' ∧ Next t π b ∧ Next t π b'

theorem Sibling.hasLeaf (h : Sibling t key) : ∃ v, HasLeaf t key v := by
  obtain ⟨π, b, -, hkey, -, ⟨k, v, hl, hk⟩, -⟩ := h
  rw [hkey] at hk
  obtain rfl := key_unique prefix_rfl hk key.len.ge
  exact ⟨v, hl⟩

/-- An insertion compares a byte behind the key if the key has a sibling, and only then. -/
theorem comparisons_beyond_iff (h : WF path t) (hbr : Branching t) (hp : path <+: key.data)
    (hlt : path.length < w) (hf : w < fuel + path.length) :
    (∃ j ∈ comparisons key fuel t path.length, w ≤ j) ↔ Sibling t key := by
  induction h generalizing fuel with
  | @leaf path k v hk =>
    obtain ⟨fuel, rfl⟩ := exists_fuel hp hf
    refine iff_of_false ?_ ?_
    · rintro ⟨j, hj, hw⟩
      exact absurd (lt_of_mem_splitLoop hlt hj) hw.not_gt
    · rintro ⟨π, b, b', -, hne, h₁, h₂⟩
      exact not_next_leaf hne h₁ h₂
  | @inner path pfx n ok tallied child children ih =>
    obtain ⟨fuel, rfl⟩ := exists_fuel hp hf
    have h : WF path (.inner pfx n) := .inner ok tallied child children
    have hloop : ∀ j ∈ prefixLoop key pfx path.length, j < w := by
      intro j hj
      have := h.length_lt
      rw [length_append] at this
      exact (lt_of_mem_prefixLoop hj).trans this
    by_cases hpfx : path ++ pfx <+: key.data
    · obtain ⟨b, hb⟩ := exists_byte hpfx h.length_lt
      obtain ⟨hmatch, hbyte⟩ := match_and_byte hb
      cases hc : n.getChild b with
      | none =>
        simp only [comparisons, hmatch, hbyte, hc]
        refine iff_of_false ?_ fun hs => ?_
        · rintro ⟨j, hj, hw⟩
          exact absurd (hloop j (by simpa using hj)) hw.not_gt
        · obtain ⟨v, hl⟩ := hs.hasLeaf
          obtain ⟨c, hc', -⟩ := (h.hasLeaf_child hb).1 hl
          rw [hc] at hc'
          cases hc'
      | some c =>
        obtain _ | ⟨two, branches⟩ := hbr
        have hlen : (path ++ pfx ++ [b]).length = path.length + pfx.length + 1 := by simp; omega
        have hdown : (∃ j ∈ comparisons key (fuel + 1) (.inner pfx n) path.length, w ≤ j) ↔
            ∃ j ∈ comparisons key fuel c (path ++ pfx ++ [b]).length, w ≤ j := by
          simp only [comparisons, hmatch, hbyte, hc, ne_eq, not_true_eq_false, if_false,
            mem_append, hlen]
          refine exists_congr fun j => and_congr_left fun hw => or_iff_right fun hj => ?_
          exact absurd (hloop j hj) hw.not_gt
        rw [hdown]
        by_cases hcw : (path ++ pfx ++ [b]).length < w
        · rw [@ih b c hc fuel (branches b c hc) hb hcw (by omega)]
          refine exists_congr fun π => exists_congr fun b₀ => exists_congr fun b' =>
            and_congr_right fun hkey => ?_
          have hπ : path ++ pfx ++ [b] <+: π := by
            refine prefix_of_prefix_length_le hb ⟨[b₀], hkey⟩ ?_
            have := congrArg length hkey
            rw [key.len, length_append, length_singleton] at this
            omega
          rw [h.next_child hc hπ, h.next_child hc hπ]
        · -- the child is a leaf, and the loop starts behind the keys
          refine iff_of_true ?_ ?_
          · obtain ⟨fuel, rfl⟩ := exists_fuel hb (by omega : w < fuel + (path ++ pfx ++ [b]).length)
            have hcwf := children b c hc
            cases c with
            | leaf k2 v2 =>
              refine ⟨_, ?_, not_lt.1 hcw⟩
              rw [comparisons, splitLoop]
              exact mem_cons_self
            | inner pfx' n' =>
              have := hcwf.length_lt
              rw [length_append] at this
              omega
          · obtain ⟨b', hb', hne⟩ := Finset.exists_mem_ne two b
            obtain ⟨c', hc'⟩ := Option.isSome_iff_exists.1 (ARTInnerNode.mem_childBytes.1 hb')
            refine ⟨_, b, b', hb.eq_of_length_le ?_, hne.symm, h.next_of_child hc,
              h.next_of_child hc'⟩
            rw [key.len]
            exact not_lt.1 hcw
    · have hmis : prefix_match pfx key path.length ≠ pfx.length := fun hm =>
        hpfx ((prefix_match_eq_iff hp).1 hm)
      simp only [comparisons, if_pos hmis, append_nil]
      refine iff_of_false ?_ fun hs => ?_
      · rintro ⟨j, hj, hw⟩
        exact absurd (hloop j hj) hw.not_gt
      · obtain ⟨v, hl⟩ := hs.hasLeaf
        exact hpfx (h.node_isPrefix hl)

/-! ## Sequences of insertions -/

section

variable {ins : List (ARTKey w × V)} {tree : ART w V} {node : ARTNode w V}

/-- The bytes behind `π` in the tree are those in the inserted keys. -/
theorem Represents.next_iff (h : Represents tree ins) (hr : node ∈ tree.root) :
    Next node π b ↔ b ∈ nextBytes ins π := by
  rw [mem_nextBytes]
  constructor
  · rintro ⟨k, v, hl, hk⟩
    exact ⟨k, h.mem_iff.1 ⟨node, hr, v, hl⟩, hk⟩
  · rintro ⟨k, hk, hb⟩
    obtain ⟨node', hr', v, hl⟩ := h.mem_iff.2 hk
    obtain rfl := Option.mem_unique hr hr'
    exact ⟨k, v, hl, hb⟩

theorem Represents.deadEnd_iff (h : Represents tree ins) (hr : node ∈ tree.root) :
    DeadEnd node key ↔ ∃ π b, π ++ [b] <+: key.data ∧ b ∉ nextBytes ins π ∧
      1 < (nextBytes ins π).card := by
  simp only [DeadEnd, h.next_iff hr, Finset.one_lt_card]
  refine exists_congr fun π => exists_congr fun b => and_congr_right fun _ =>
    and_congr_right fun _ => ?_
  constructor
  · rintro ⟨b₁, b₂, hne, h₁, h₂⟩
    exact ⟨b₁, h₁, b₂, h₂, hne⟩
  · rintro ⟨b₁, h₁, b₂, h₂, hne⟩
    exact ⟨b₁, b₂, hne, h₁, h₂⟩

/-- After every sequence of insertions into an empty tree, the lookup of an absent key reports that
it is not found if the key, wherever different bytes follow its first bytes in the inserted keys,
continues with one of them, and only then. Otherwise a null child is dereferenced. -/
theorem find_absent_iff (ins : List (ARTKey w × V)) (key : ARTKey w) (habsent : key ∉ ins.map Prod.fst) :
    (∃ t, ART.insertAll ins {} = .ok t ∧ t.find key = .ok none) ↔
      ∀ path b, path ++ [b] <+: key.data → 1 < (nextBytes ins path).card →
        b ∈ nextBytes ins path := by
  classical
  obtain ⟨t, hrun, h, hbr⟩ := represents_empty.insertAll ins
  rw [nil_append] at h
  have hfind : t.find key = .ok none ↔ ∀ node ∈ t.root, ¬DeadEnd node key := by
    cases hr : t.root with
    | none => simp [ART.find, hr]
    | some node =>
      have hspec := getByKey_opt_absent (h.wf node hr) (hbr (by simp [ART.Branching]) node hr)
        nil_prefix (fun v hl => habsent (h.mem_iff.1 ⟨node, hr, v, hl⟩))
        (by simp : w < w + 1 + ([] : List KeyUnit).length)
      simp only [ART.find, hr, Option.mem_def, Option.some.injEq, forall_eq']
      rw [show getByKey_opt key (w + 1) node 0 = _ from hspec]
      split_ifs with hd
      · simp [hd]
      · simp [hd]
  have hiff : t.find key = .ok none ↔ ∀ path b, path ++ [b] <+: key.data →
      1 < (nextBytes ins path).card → b ∈ nextBytes ins path := by
    rw [hfind]
    constructor
    · intro hno path b hb hcard
      by_contra hnext
      obtain ⟨node, hr, -⟩ := h.exists_node path hcard
      exact hno node hr ((h.deadEnd_iff hr).2 ⟨path, b, hb, hnext, hcard⟩)
    · intro hall node hr hd
      obtain ⟨π, b, hb, hnext, hcard⟩ := (h.deadEnd_iff hr).1 hd
      exact hnext (hall π b hb hcard)
  rw [← hiff]
  simp [hrun]

theorem find_absent_byte :
    (∃ t, ART.insertAll [(byteKey 1, 10)] {} = .ok t ∧ t.find (byteKey 3) = .ok none) ↔
      ∀ path b, path ++ [b] <+: (byteKey 3).data →
        1 < (nextBytes [(byteKey 1, 10)] path).card → b ∈ nextBytes [(byteKey 1, 10)] path :=
  find_absent_iff _ _ (by decide)

/-- The keys 1 and 2 are in the tree, and the lookup of 3 dereferences the null child. -/
theorem find_null_child :
    (ART.insertAll [(byteKey 1, 10), (byteKey 2, 20)] {} >>= fun t => t.find (byteKey 3)) =
      .error .nullNode := by
  rfl

theorem Represents.sibling_iff {ins : List (ARTKey (w + 1) × V)} {tree : ART (w + 1) V}
    {node : ARTNode (w + 1) V} {key : ARTKey (w + 1)} (h : Represents tree ins)
    (hr : node ∈ tree.root) : Sibling node key ↔
      key ∈ ins.map Prod.fst ∧ 1 < (nextBytes ins key.data.dropLast).card := by
  constructor
  · intro hs
    obtain ⟨v, hl⟩ := hs.hasLeaf
    obtain ⟨π, b, b', hkey, hne, h₁, h₂⟩ := hs
    rw [h.next_iff hr] at h₁ h₂
    refine ⟨h.mem_iff.1 ⟨node, hr, v, hl⟩, Finset.one_lt_card.2 ⟨b, ?_, b', ?_, hne⟩⟩
    · rwa [← hkey, dropLast_concat]
    · rwa [← hkey, dropLast_concat]
  · rintro ⟨hmem, hcard⟩
    have hlen : key.data ≠ [] := ne_nil_of_length_eq_add_one key.len
    have hkey := dropLast_append_getLast hlen
    obtain ⟨b', hb', hne⟩ := Finset.exists_mem_ne hcard (key.data.getLast hlen)
    refine ⟨_, _, b', hkey, hne.symm, (h.next_iff hr).2 ?_, (h.next_iff hr).2 hb'⟩
    exact mem_nextBytes.2 ⟨key, hmem, by rw [hkey]⟩

/-- What one insertion compares, in terms of the inserts before it. -/
theorem insert_in_bounds_iff (pre : List (ARTKey (w + 1) × V)) (key : ARTKey (w + 1)) :
    (∃ u, ART.insertAll pre {} = .ok u ∧
      ∀ node ∈ u.root, ∀ i ∈ comparisons key (w + 1 + 1) node 0, i < w + 1) ↔
      (key ∈ pre.map Prod.fst → (nextBytes pre key.data.dropLast).card ≤ 1) := by
  obtain ⟨u, hpre, hu, hbr⟩ := represents_empty.insertAll pre
  rw [nil_append] at hu
  have hbeyond : ∀ node ∈ u.root, (∃ i ∈ comparisons key (w + 1 + 1) node 0, w + 1 ≤ i) ↔
      key ∈ pre.map Prod.fst ∧ 1 < (nextBytes pre key.data.dropLast).card := by
    intro node hr
    rw [← hu.sibling_iff hr]
    exact comparisons_beyond_iff (hu.wf node hr)
      (hbr (by simp [ART.Branching]) node hr) nil_prefix (by simp) (by simp)
  constructor
  · rintro ⟨u', hpre', hall⟩ hmem
    obtain rfl : u = u' := by simpa [hpre] using hpre'
    obtain ⟨node, hr, -⟩ := hu.mem_iff.2 hmem
    by_contra hcard
    obtain ⟨i, hi, hw⟩ := (hbeyond node hr).2 ⟨hmem, not_le.1 hcard⟩
    exact absurd (hall node hr i hi) hw.not_gt
  · intro hcond
    refine ⟨u, hpre, fun node hr i hi => ?_⟩
    by_contra hw
    obtain ⟨hmem, hcard⟩ := (hbeyond node hr).1 ⟨i, hi, not_lt.1 hw⟩
    exact absurd (hcond hmem) hcard.not_ge

/-- Every sequence of insertions into an empty tree returns and leaves the first value of every key
in place, and no insertion of it compares a byte behind the key if and only if no key is inserted
again when the keys before it have two different last bytes behind its other bytes. -/
theorem inserts_in_bounds_iff (ins : List (ARTKey (w + 1) × V)) : (∃ t, ART.insertAll ins {} = .ok t ∧
      (∀ k v, firstValue ins k = some v → t.find k = .ok (some v)) ∧
      ∀ pre e post, ins = pre ++ e :: post → ∃ u, ART.insertAll pre {} = .ok u ∧
        ∀ node ∈ u.root, ∀ i ∈ comparisons e.1 (w + 1 + 1) node 0, i < w + 1) ↔
      ∀ pre e post, ins = pre ++ e :: post → e.1 ∈ pre.map Prod.fst →
        (nextBytes pre e.1.data.dropLast).card ≤ 1 := by
  obtain ⟨t, hrun, h, -⟩ := represents_empty.insertAll ins
  rw [nil_append] at h
  simp only [insert_in_bounds_iff]
  constructor
  · rintro ⟨-, -, -, hall⟩
    exact hall
  · intro hall
    exact ⟨t, hrun, fun k v => h.find, hall⟩

/-- Key 1 is inserted again when keys 1 and 2 are in the tree: the loop compares the bytes at
position 1 of keys of one byte. -/
theorem repeated_insert_beyond : ∃ u, ART.insertAll [(byteKey 1, 10), (byteKey 2, 20)] {} = .ok u ∧
    ∃ node ∈ u.root, 1 ∈ comparisons (byteKey 1) 2 node 0 := by
  refine ⟨_, rfl, _, rfl, ?_⟩
  have hloop : 1 ∈ splitLoop (byteKey 1) (byteKey 1) 1 := by
    rw [splitLoop]
    exact mem_cons_self
  exact hloop

end

end Proteus.Art
