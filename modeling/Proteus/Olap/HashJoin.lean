import Mathlib.Data.Fintype.Basic
import Mathlib.Data.NNRat.Floor
import Proteus.Chain
import Proteus.Machine

/-!
# The shared hash table of `HashJoinChainedMorsel`

All build workers insert into one table. For a tuple a worker computes the bucket, takes the next index
of the entry array by a fetch-and-add, exchanges the head of the bucket with it, and then stores the entry
with the old head as its next pointer. Between the last two steps the chain of the bucket is broken: the
head names an entry that is not there yet.

The proof follows the pointers as they will be. `link` records for every index the head that was
exchanged for it, and `chain` the indices of every bucket, latest first; these and `issued`, the tuples by
their indices, are history variables. The chains are linked by `link` at any time (`Inv.chain`), an entry
that is stored has that pointer, and the worker that has not stored its entry yet is about to
(`Inv.entry`). When all workers are done, every pointer is in memory.

An index is an `i32` which the generated code extends with its sign. A table has room for the build
tuples if every index they get is the address of an entry (`Fits`). The packets of an entry are stored one
after the other; this is one step here, since nobody reads them before all workers have finished.

* `Inv.step`: one step of one worker keeps the chains;
* `Inv.lists`: the chains after the build;
* `probe_chain`: a probe walks a chain and finds the tuples with its key;
* `morsel_join`: it finds all of them, as after a sequential build;
* `build_isSome_iff`: when the room that the planner asks for is enough for a sequential build.
-/

namespace Proteus.HashJoin

open Finset Function List Multiset Option

/-! ## Model -/

structure Config (K : Type*) where
  hash : K → ℕ
  hash_bits : ℕ
  maxBuildInputSize : ℕ

/-- `HashJoinChained::hash` -/
def Config.bucket {K : Type*} (cfg : Config K) (k : K) : ℕ := cfg.hash k % 2 ^ cfg.hash_bits

/-- The end of a chain, as an `i32` without sign. -/
def eoc : ℕ := 2 ^ 32 - 1

/-- The value of an `i32` with its sign. -/
def signed (index : ℕ) : ℤ := if index < 2 ^ 31 then index else index - 2 ^ 32

/-- The entry an index addresses; nothing outside of the array. -/
def Config.address {K : Type*} (cfg : Config K) (index : ℕ) : Option ℕ :=
  if 0 ≤ signed index ∧ signed index < cfg.maxBuildInputSize then some (signed index).toNat else none

/-- The table has room for `n` tuples: their indices are addresses of entries. -/
def Config.Fits {K : Type*} (cfg : Config K) (n : ℕ) : Prop :=
  ∀ k < n, (cfg.address (k % 2 ^ 32)).isSome = true

structure Entry (K V : Type*) where
  next : ℕ
  key : K
  payload : V

structure Table (K V : Type*) where
  head : ℕ → ℕ
  cnt : ℕ
  data : ℕ → Option (Entry K V)

variable {T K V : Type*}

/-- The table `open_build` makes. -/
def Table.empty : Table K V where
  head _ := eoc
  cnt := 0
  data _ := none

/-- Where a worker stands. -/
inductive Pc (K V : Type*)
  | next
  | hashed (x : K × V) (h : ℕ)
  | indexed (x : K × V) (h index : ℕ)
  /-- has exchanged the head, and will store the entry -/
  | linked (x : K × V) (index old_head : ℕ)

structure State (T K V : Type*) where
  table : Table K V
  todo : T → List (K × V)
  pc : T → Pc K V
  issued : List (K × V)
  chain : ℕ → List ℕ
  link : ℕ → Option ℕ

/-- What a pointer names. -/
def target (next : ℕ) : Option ℕ := if next = eoc then none else some next

/-- The build tuples are given to the workers. -/
def init (input : T → List (K × V)) : State T K V where
  table := .empty
  todo := input
  pc _ := .next
  issued := []
  chain _ := []
  link _ := none

/-- A step of the worker `t` in `generate_build`. -/
def step [DecidableEq T] (cfg : Config K) (s : State T K V) (t : T) : Option (State T K V) :=
  match s.pc t with
  | .next =>
    match s.todo t with
    | [] => none
    | x :: xs =>
      some { s with
        pc := update s.pc t (.hashed x (cfg.bucket x.1))
        todo := update s.todo t xs }
  | .hashed x h =>
    some { s with
      pc := update s.pc t (.indexed x h s.table.cnt)
      table := { s.table with cnt := (s.table.cnt + 1) % 2 ^ 32 }
      issued := s.issued ++ [x] }
  | .indexed x h index =>
    some { s with
      pc := update s.pc t (.linked x index (s.table.head h))
      table := { s.table with head := update s.table.head h index }
      chain := update s.chain h (index :: s.chain h)
      link := update s.link index (target (s.table.head h)) }
  | .linked x index old_head =>
    (cfg.address index).map fun a =>
      { s with
        pc := update s.pc t .next
        table := { s.table with data := update s.table.data a (some ⟨old_head, x.1, x.2⟩) } }

/-- All workers have finished. -/
def State.Done (s : State T K V) : Prop := ∀ t, s.pc t = .next ∧ s.todo t = []

/-- `generate_probe`: the tuples a probe emits for `key` from the entry `current` on; nothing if it reads
outside of the array or an entry that was not stored, or does not come to the end in `fuel` rounds. -/
def Table.probe [DecidableEq K] (cfg : Config K) (table : Table K V) (key : K) :
    (fuel current : ℕ) → Option (List (K × V))
  | 0, _ => none
  | fuel + 1, current =>
    if current = eoc then some []
    else
      match (cfg.address current).bind table.data with
      | none => none
      | some e =>
        (table.probe cfg key fuel e.next).map fun found =>
          if e.key = key then (e.key, e.payload) :: found else found

/-! ### One worker -/

/-- `generate_build` of `HashJoinChained`, where each worker has a table of its own. -/
def Table.insert (cfg : Config K) (table : Table K V) (x : K × V) : Option (Table K V) :=
  (cfg.address table.cnt).map fun a =>
    { head := update table.head (cfg.bucket x.1) table.cnt
      cnt := (table.cnt + 1) % 2 ^ 32
      data := update table.data a (some ⟨table.head (cfg.bucket x.1), x.1, x.2⟩) }

/-- The build of `HashJoinChained`. -/
def Table.build (cfg : Config K) : Table K V → List (K × V) → Option (Table K V)
  | table, [] => some table
  | table, x :: xs => (table.insert cfg x).bind fun table => table.build cfg xs

variable {cfg : Config K} {s s' : State T K V} {t : T}

/-! ## Room -/

namespace Config.Fits

variable {n k : ℕ}

section

variable (h : cfg.Fits n) (hk : k < n)
include h hk

theorem lt : k < 2 ^ 31 := by
  by_contra hge
  have hbig := h (2 ^ 31) (lt_of_le_of_lt (not_lt.1 hge) hk)
  simp [Config.address, signed] at hbig

theorem address_eq : cfg.address k = some k := by
  have hlt := h.lt hk
  have hmod : k % 2 ^ 32 = k := Nat.mod_eq_of_lt (by omega)
  have hsome := h k hk
  rw [hmod] at hsome
  have hsigned : signed k = k := if_pos hlt
  unfold Config.address at hsome ⊢
  rw [hsigned] at hsome ⊢
  split_ifs at hsome ⊢
  · rfl
  · cases hsome

theorem target_eq : target k = some k := by
  have hlt := h.lt hk
  refine if_neg ?_
  rw [eoc]
  omega

end

end Config.Fits

/-! ## The chains during the build -/

/-- The tuple a worker has taken, and that has no index yet. -/
@[simp] def Pc.held : Pc K V → Multiset (K × V)
  | .hashed x _ => {x}
  | _ => 0

/-- The index a worker has, and whose entry it has not stored yet. -/
@[simp] def Pc.index : Pc K V → Option ℕ
  | .indexed _ _ index | .linked _ index _ => some index
  | _ => none

/-- The build tuples. -/
def tuples [Fintype T] (input : T → List (K × V)) : Multiset (K × V) := ∑ t, (input t : Multiset (K × V))

structure Inv [Fintype T] (cfg : Config K) (input : T → List (K × V)) (s : State T K V) : Prop where
  tuples : (s.issued : Multiset (K × V)) + ∑ t, (s.pc t).held + HashJoin.tuples s.todo =
    HashJoin.tuples input
  cnt : s.table.cnt = s.issued.length % 2 ^ 32
  hashed : ∀ t x h, s.pc t = .hashed x h → h = cfg.bucket x.1
  indexed : ∀ t x h i, s.pc t = .indexed x h i →
    s.issued[i]? = some x ∧ h = cfg.bucket x.1 ∧ ∀ h', i ∉ s.chain h'
  linked : ∀ t x i old_head, s.pc t = .linked x i old_head →
    s.issued[i]? = some x ∧ target old_head = s.link i
  owner : ∀ t t' i, (s.pc t).index = some i → (s.pc t').index = some i → t = t'
  entry : ∀ h i, i ∈ s.chain h → ∃ x, s.issued[i]? = some x ∧ cfg.bucket x.1 = h ∧
    ((∃ t old_head, s.pc t = .linked x i old_head) ∨
      ∃ next, s.table.data i = some ⟨next, x.1, x.2⟩ ∧ target next = s.link i)
  chained : ∀ i x, s.issued[i]? = some x →
    (∃ t, s.pc t = .indexed x (cfg.bucket x.1) i) ∨ i ∈ s.chain (cfg.bucket x.1)
  chain : ∀ h, Linked s.link (target (s.table.head h)) (s.chain h)
  nodup : ∀ h, (s.chain h).Nodup

/-- A chain gets a new first entry. -/
theorem mem_update_cons {chain : ℕ → List ℕ} {h h' i j : ℕ} :
    j ∈ update chain h (i :: chain h) h' ↔ j = i ∧ h' = h ∨ j ∈ chain h' := by
  by_cases hh : h' = h
  · subst hh
    simp
  · simp [hh]

variable {input : T → List (K × V)} {xs : List (K × V)}

namespace Inv

variable [Fintype T]

theorem init (cfg : Config K) (input : T → List (K × V)) : Inv cfg input (init input) where
  tuples := by simp [HashJoin.init]
  cnt := rfl
  hashed := nofun
  indexed := nofun
  linked := nofun
  owner := nofun
  entry := nofun
  chained := nofun
  chain h := rfl
  nodup h := nodup_nil

theorem length_le (inv : Inv cfg input s) : s.issued.length ≤ (HashJoin.tuples input).card := by
  rw [← inv.tuples, card_add, card_add, coe_card]
  omega

variable {i : ℕ} {x : K × V}

theorem lt_of_issued (inv : Inv cfg input s) (h : s.issued[i]? = some x) :
    i < (HashJoin.tuples input).card :=
  lt_of_lt_of_le (List.getElem?_eq_some_iff.1 h).1 inv.length_le

variable {h : ℕ}

/-- A worker that has taken a tuple gets an index for which there is room. -/
theorem length_lt (inv : Inv cfg input s) (hp : s.pc t = .hashed x h) :
    s.issued.length < (HashJoin.tuples input).card := by
  have hmem : x ∈ ∑ t, (s.pc t).held := mem_sum.2 ⟨t, mem_univ t, by simp [hp]⟩
  have hpos := card_pos_iff_exists_mem.2 ⟨x, hmem⟩
  rw [← inv.tuples, card_add, card_add, coe_card]
  omega

theorem cnt_eq (inv : Inv cfg input s) (hfits : cfg.Fits (HashJoin.tuples input).card)
    (hlt : s.issued.length < (HashJoin.tuples input).card) : s.table.cnt = s.issued.length := by
  have := hfits.lt hlt
  rw [inv.cnt, Nat.mod_eq_of_lt (by omega)]

theorem ne_length_of_index (inv : Inv cfg input s) (hi : (s.pc t).index = some i) :
    i ≠ s.issued.length := by
  suffices ∃ x, s.issued[i]? = some x by
    obtain ⟨x, hx⟩ := this
    exact (List.getElem?_eq_some_iff.1 hx).1.ne
  cases hpc : s.pc t <;> rw [hpc] at hi <;> cases hi
  · exact ⟨_, (inv.indexed t _ _ _ hpc).1⟩
  · exact ⟨_, (inv.linked t _ _ _ hpc).1⟩

variable [DecidableEq T] {p : Pc K V} (inv : Inv cfg input s)
include inv

theorem hashed_move (hp : ∀ x h, p ≠ .hashed x h) (t' : T) (x : K × V) (h : ℕ)
    (h' : update s.pc t p t' = .hashed x h) : h = cfg.bucket x.1 := by
  rcases update_cases h' with ⟨-, h'⟩ | ⟨-, h'⟩
  · exact absurd h' (hp x h)
  · exact inv.hashed t' x h h'

/-- An entry that is not with the worker `t`. -/
theorem entry_move (hi : i ∈ s.chain h)
    (hp : ∀ x old_head, s.pc t ≠ .linked x i old_head) : ∃ x, s.issued[i]? = some x ∧ cfg.bucket x.1 = h ∧
      ((∃ t' old_head, update s.pc t p t' = .linked x i old_head) ∨
        ∃ next, s.table.data i = some ⟨next, x.1, x.2⟩ ∧ target next = s.link i) := by
  obtain ⟨x, hx, hb, hcase⟩ := inv.entry h i hi
  refine ⟨x, hx, hb, hcase.imp_left fun h' => ?_⟩
  exact exists_update (P := fun p => ∃ old_head, p = .linked x i old_head) p h' fun ⟨o, h'⟩ => hp x o h'

theorem chained_move (hx : s.issued[i]? = some x) (hp : ∀ h, s.pc t ≠ .indexed x h i) :
    (∃ t', update s.pc t p t' = .indexed x (cfg.bucket x.1) i) ∨ i ∈ s.chain (cfg.bucket x.1) :=
  (inv.chained i x hx).imp_left fun h' =>
    exists_update (P := fun p => p = .indexed x (cfg.bucket x.1) i) p h' (hp _)

theorem hash (hp : s.pc t = .next) (hx : s.todo t = x :: xs) : Inv cfg input { s with
      pc := update s.pc t (.hashed x (cfg.bucket x.1))
      todo := update s.todo t xs } where
  tuples := by
    have hheld := sum_update_add (mem_univ t) s.pc (.hashed x (cfg.bucket x.1)) fun _ p => p.held
    have htodo := sum_update_add (mem_univ t) s.todo xs fun _ l => (l : Multiset (K × V))
    rw [hp] at hheld
    rw [hx, ← cons_coe, ← singleton_add, ← add_assoc] at htodo
    replace htodo := add_right_cancel htodo
    replace hheld := (add_zero _).symm.trans hheld
    rw [← inv.tuples, hheld, HashJoin.tuples, HashJoin.tuples, ← htodo, Pc.held]
    abel
  cnt := inv.cnt
  hashed t' y h h' := by
    rcases update_cases h' with ⟨-, h'⟩ | ⟨-, h'⟩
    · cases h'
      rfl
    · exact inv.hashed t' y h h'
  indexed t' y h i h' := by
    rcases update_cases h' with ⟨-, h'⟩ | ⟨-, h'⟩
    · cases h'
    · exact inv.indexed t' y h i h'
  linked t' y i old_head h' := by
    rcases update_cases h' with ⟨-, h'⟩ | ⟨-, h'⟩
    · cases h'
    · exact inv.linked t' y i old_head h'
  owner := unique_update inv.owner (P := fun (p : Pc K V) i => p.index = some i) (fun j i _ h => by cases h)
  entry h i hi := inv.entry_move hi (by simp [hp])
  chained i y hy := inv.chained_move hy (by simp [hp])
  chain := inv.chain
  nodup := inv.nodup

theorem nextIndex (hfits : cfg.Fits (HashJoin.tuples input).card)
    (hp : s.pc t = .hashed x h) : Inv cfg input { s with
      pc := update s.pc t (.indexed x h s.table.cnt)
      table := { s.table with cnt := (s.table.cnt + 1) % 2 ^ 32 }
      issued := s.issued ++ [x] } := by
  have hold : ∀ (i : ℕ) y, s.issued[i]? = some y → (s.issued ++ [x])[i]? = some y := by
    intro i y hy
    rw [List.getElem?_append_left (List.getElem?_eq_some_iff.1 hy).1, hy]
  have hfresh : ∀ h', s.issued.length ∉ s.chain h' := by
    intro h' hmem
    obtain ⟨y, hy, -⟩ := inv.entry h' _ hmem
    exact lt_irrefl _ (List.getElem?_eq_some_iff.1 hy).1
  rw [inv.cnt_eq hfits (inv.length_lt hp)]
  constructor
  case tuples =>
    have hheld := sum_update_add (mem_univ t) s.pc (.indexed x h s.issued.length) fun _ p => p.held
    rw [hp] at hheld
    replace hheld := hheld.trans (add_zero _)
    rw [← inv.tuples, ← hheld, ← coe_add, Multiset.coe_singleton, Pc.held]
    abel
  case cnt => simp only [List.length_append, List.length_singleton]
  case hashed => exact inv.hashed_move nofun
  case indexed =>
    intro t' y h' i hpc
    rcases update_cases hpc with ⟨-, hpc⟩ | ⟨-, hpc⟩
    · cases hpc
      exact ⟨by simp, inv.hashed t x h hp, hfresh⟩
    · obtain ⟨hy, hb, hi⟩ := inv.indexed t' y h' i hpc
      exact ⟨hold i y hy, hb, hi⟩
  case linked =>
    intro t' y i old_head hpc
    rcases update_cases hpc with ⟨-, hpc⟩ | ⟨-, hpc⟩
    · cases hpc
    · obtain ⟨hy, hl⟩ := inv.linked t' y i old_head hpc
      exact ⟨hold i y hy, hl⟩
  case owner =>
    refine unique_update inv.owner (P := fun (p : Pc K V) i => p.index = some i) fun t' i _ hi hi' => ?_
    exact inv.ne_length_of_index hi' (some.inj hi).symm
  case entry =>
    intro h' i hi
    obtain ⟨y, hy, hcase⟩ := inv.entry_move (t := t) hi (by simp [hp])
    exact ⟨y, hold i y hy, hcase⟩
  case chained =>
    intro i y hy
    by_cases hi : i < s.issued.length
    · rw [List.getElem?_append_left hi] at hy
      exact inv.chained_move hy (by simp [hp])
    · -- the new tuple is with the worker
      obtain rfl : i = s.issued.length := by
        have := (List.getElem?_eq_some_iff.1 hy).1
        rw [List.length_append, List.length_singleton] at this
        omega
      obtain rfl : x = y := by simpa using hy
      refine .inl ⟨t, ?_⟩
      simp only [update_self]
      rw [inv.hashed t x h hp]
  case chain => exact inv.chain
  case nodup => exact inv.nodup

/-- A worker moves that has taken no new tuple. -/
theorem tuples_move {p : Pc K V} (hs : (s.pc t).held = 0) (hp : p.held = 0) :
    (s.issued : Multiset (K × V)) + ∑ t', (update s.pc t p t').held + HashJoin.tuples s.todo =
      HashJoin.tuples input := by
  have hheld := sum_update_add (mem_univ t) s.pc p fun _ p => p.held
  rw [hs, hp, add_zero, add_zero] at hheld
  rw [hheld]
  exact inv.tuples

theorem replaceHead (hfits : cfg.Fits (HashJoin.tuples input).card)
    (hp : s.pc t = .indexed x h i) : Inv cfg input { s with
      pc := update s.pc t (.linked x i (s.table.head h))
      table := { s.table with head := update s.table.head h i }
      chain := update s.chain h (i :: s.chain h)
      link := update s.link i (target (s.table.head h)) } := by
  obtain ⟨hx, hb, hfresh⟩ := inv.indexed t x h i hp
  have hother : ∀ t' j, t' ≠ t → (s.pc t').index = some j → j ≠ i := by
    rintro t' j ht hj rfl
    exact ht (inv.owner t' t j hj (by rw [hp]; rfl))
  have hlink : ∀ j, j ≠ i → update s.link i (target (s.table.head h)) j = s.link j :=
    fun j hj => update_of_ne hj _ _
  have hkeep : ∀ h' j, j ∈ s.chain h' → j ≠ i := by
    rintro h' j hj rfl
    exact hfresh h' hj
  constructor
  case tuples => exact inv.tuples_move (by rw [hp]; rfl) rfl
  case cnt => exact inv.cnt
  case hashed => exact inv.hashed_move nofun
  case indexed =>
    intro t' y h' j hpc
    rcases update_cases hpc with ⟨-, hpc⟩ | ⟨ht, hpc⟩
    · cases hpc
    · obtain ⟨hy, hb', hj⟩ := inv.indexed t' y h' j hpc
      have hji := hother t' j ht (by rw [hpc]; rfl)
      refine ⟨hy, hb', fun h'' hmem => ?_⟩
      rcases mem_update_cons.mp hmem with ⟨hji', -⟩ | hmem
      · exact hji hji'
      · exact hj h'' hmem
  case linked =>
    intro t' y j old_head hpc
    rcases update_cases hpc with ⟨-, hpc⟩ | ⟨ht, hpc⟩
    · cases hpc
      exact ⟨hx, by simp only [update_self]⟩
    · obtain ⟨hy, hl⟩ := inv.linked t' y j old_head hpc
      exact ⟨hy, hl.trans (hlink j (hother t' j ht (by rw [hpc]; rfl))).symm⟩
  case owner =>
    refine unique_update inv.owner (P := fun (p : Pc K V) i => p.index = some i) fun t' j ht hj hj' => ?_
    exact hother t' j ht hj' (some.inj hj).symm
  case entry =>
    intro h' j hj
    rcases mem_update_cons.mp hj with ⟨rfl, rfl⟩ | hj
    · exact ⟨x, hx, hb.symm, .inl ⟨t, s.table.head h', update_self ..⟩⟩
    · simp only [hlink j (hkeep h' j hj)]
      exact inv.entry_move hj (by simp [hp])
  case chained =>
    intro j y hy
    rcases inv.chained j y hy with ⟨t', hpc⟩ | hj
    · by_cases ht : t' = t
      · subst ht
        rw [hp] at hpc
        cases hpc
        exact .inr (by simp)
      · exact .inl ⟨t', by simpa [ht] using hpc⟩
    · exact .inr (mem_update_cons.mpr (.inr hj))
  case chain =>
    intro h'
    have hcongr := (inv.chain h').congr fun j hj => hlink j (hkeep h' j hj)
    by_cases hh : h' = h
    · subst hh
      simp only [update_self]
      refine ⟨hfits.target_eq (inv.lt_of_issued hx), ?_⟩
      rwa [update_self]
    · simp only [update_of_ne hh]
      exact hcongr
  case nodup =>
    intro h'
    by_cases hh : h' = h
    · subst hh
      simpa using ⟨hfresh h', inv.nodup h'⟩
    · simpa [hh] using inv.nodup h'

theorem store {old_head : ℕ} (hp : s.pc t = .linked x i old_head) : Inv cfg input { s with
      pc := update s.pc t .next
      table := { s.table with data := update s.table.data i (some ⟨old_head, x.1, x.2⟩) } } := by
  obtain ⟨hx, hlink⟩ := inv.linked t x i old_head hp
  constructor
  case tuples => exact inv.tuples_move (by rw [hp]; rfl) rfl
  case cnt => exact inv.cnt
  case hashed => exact inv.hashed_move nofun
  case indexed =>
    intro t' y h' j hpc
    rcases update_cases hpc with ⟨-, hpc⟩ | ⟨-, hpc⟩
    · cases hpc
    · exact inv.indexed t' y h' j hpc
  case linked =>
    intro t' y j old hpc
    rcases update_cases hpc with ⟨-, hpc⟩ | ⟨-, hpc⟩
    · cases hpc
    · exact inv.linked t' y j old hpc
  case owner =>
    exact unique_update inv.owner (P := fun (p : Pc K V) i => p.index = some i) fun _ _ _ hj => by cases hj
  case entry =>
    intro h' j hj
    by_cases hji : j = i
    · -- the entry that was pending
      subst hji
      obtain ⟨y, hy, hb, -⟩ := inv.entry h' j hj
      cases hx.symm.trans hy
      exact ⟨x, hx, hb, .inr ⟨old_head, update_self .., hlink⟩⟩
    · simp only [update_of_ne hji]
      exact inv.entry_move hj (by simp [hp, Ne.symm hji])
  case chained => exact fun j y hy => inv.chained_move hy (by simp [hp])
  case chain => exact inv.chain
  case nodup => exact inv.nodup

theorem step (hfits : cfg.Fits (HashJoin.tuples input).card)
    (hstep : HashJoin.step cfg s t = some s') : Inv cfg input s' := by
  unfold HashJoin.step at hstep
  split at hstep
  case h_1 hp =>
    split at hstep <;> cases hstep
    next x xs hx => exact inv.hash hp hx
  case h_2 hp => cases hstep; exact inv.nextIndex hfits hp
  case h_3 hp => cases hstep; exact inv.replaceHead hfits hp
  case h_4 x index old_head hp =>
    obtain ⟨a, ha, rfl⟩ := map_eq_some_iff.1 hstep
    have haddr := hfits.address_eq (inv.lt_of_issued (inv.linked t x index old_head hp).1)
    obtain rfl : index = a := some.inj (haddr.symm.trans ha)
    exact inv.store hp

end Inv

/-! ## The chains after the build -/

variable {s : State T K V} (table : Table K V)

section

variable [Fintype T]

section

variable (inv : Inv cfg input s) (hdone : s.Done)
include inv hdone

theorem Inv.issued_eq : (s.issued : Multiset (K × V)) = HashJoin.tuples input := by
  have hheld : ∑ t, (s.pc t).held = 0 := sum_eq_zero fun t _ => by rw [(hdone t).1]; rfl
  have htodo : HashJoin.tuples s.todo = 0 := sum_eq_zero fun t _ => by rw [(hdone t).2]; rfl
  rw [← inv.tuples, hheld, htodo, add_zero, add_zero]

/-- Every entry of a chain has been stored. -/
theorem Inv.stored {h i : ℕ} (hi : i ∈ s.chain h) :
    ∃ x next, s.issued[i]? = some x ∧ cfg.bucket x.1 = h ∧
      s.table.data i = some ⟨next, x.1, x.2⟩ ∧ target next = s.link i := by
  obtain ⟨x, hx, hb, ⟨t, old_head, hpc⟩ | ⟨next, hdata, hnext⟩⟩ := inv.entry h i hi
  · rw [(hdone t).1] at hpc
    cases hpc
  · exact ⟨x, next, hx, hb, hdata, hnext⟩

theorem Inv.mem_chain_iff {h i : ℕ} :
    i ∈ s.chain h ↔ ∃ x, s.issued[i]? = some x ∧ cfg.bucket x.1 = h := by
  constructor
  · intro hi
    obtain ⟨x, -, hx, hb, -⟩ := inv.stored hdone hi
    exact ⟨x, hx, hb⟩
  · rintro ⟨x, hx, rfl⟩
    rcases inv.chained i x hx with ⟨t, hpc⟩ | hi
    · rw [(hdone t).1] at hpc
      cases hpc
    · exact hi

end

theorem filterMap_range (l : List (K × V)) : (List.range l.length).filterMap (fun i => l[i]?) = l := by
  induction l with
  | nil => rfl
  | cons x l ih =>
    rw [length_cons, range_succ_eq_map, filterMap_cons_some (getElem?_cons_zero ..), List.filterMap_map]
    exact congrArg _ ih

/-- The chain of a bucket lists its build tuples. -/
theorem Inv.filterMap_chain (inv : Inv cfg input s) (hdone : s.Done) (h : ℕ) :
    ((s.chain h).filterMap (fun i => s.issued[i]?) : Multiset (K × V)) =
      (HashJoin.tuples input).filter fun x => cfg.bucket x.1 = h := by
  have hperm : (s.chain h).Perm
      ((List.range s.issued.length).filter fun i =>
        (s.issued[i]?).any fun x => decide (cfg.bucket x.1 = h)) := by
    refine (perm_ext_iff_of_nodup (inv.nodup h) (nodup_range.filter _)).2 fun i => ?_
    rw [inv.mem_chain_iff hdone, mem_filter, List.mem_range]
    constructor
    · rintro ⟨x, hx, hb⟩
      exact ⟨(List.getElem?_eq_some_iff.1 hx).1, by simp [hx, hb]⟩
    · rintro ⟨hi, hany⟩
      rw [getElem?_eq_getElem hi] at hany ⊢
      exact ⟨_, rfl, by simpa using hany⟩
  rw [← inv.issued_eq hdone, filter_coe, coe_eq_coe]
  refine (hperm.filterMap _).trans (List.Perm.of_eq ?_)
  rw [List.filterMap_filter]
  conv_rhs => rw [← filterMap_range s.issued, List.filter_filterMap]
  refine filterMap_congr fun i _ => ?_
  cases hx : s.issued[i]? with
  | none => rfl
  | some x => by_cases hb : cfg.bucket x.1 = h <;> simp [Option.filter, hb]

/-- The entry behind an entry in memory. -/
def Table.next (i : ℕ) : Option ℕ := (table.data i).bind fun e => target e.next

def Table.tuple (i : ℕ) : Option (K × V) := (table.data i).map fun e => (e.key, e.payload)

/-- The chain of a bucket: it ends, comes by no entry twice, and lists the build tuples of the bucket. -/
structure Table.Lists (cfg : Config K) (table : Table K V) (xs : Multiset (K × V)) (h : ℕ) (l : List ℕ) :
    Prop where
  linked : Linked table.next (target (table.head h)) l
  nodup : l.Nodup
  address : ∀ i ∈ l, cfg.address i = some i ∧ (table.data i).isSome = true
  tuples : (l.filterMap table.tuple : Multiset (K × V)) = xs.filter fun x => cfg.bucket x.1 = h

theorem Inv.lists (inv : Inv cfg input s) (hfits : cfg.Fits (HashJoin.tuples input).card)
    (hdone : s.Done) (h : ℕ) : s.table.Lists cfg (HashJoin.tuples input) h (s.chain h) where
  linked := by
    refine (inv.chain h).congr fun i hi => ?_
    obtain ⟨x, next, -, -, hdata, hnext⟩ := inv.stored hdone hi
    rw [Table.next, hdata, bind_some, hnext]
  nodup := inv.nodup h
  address i hi := by
    obtain ⟨x, next, hx, -, hdata, -⟩ := inv.stored hdone hi
    exact ⟨hfits.address_eq (inv.lt_of_issued hx), by rw [hdata]; rfl⟩
  tuples := by
    rw [← inv.filterMap_chain hdone h]
    refine congrArg _ (filterMap_congr fun i hi => ?_)
    obtain ⟨x, next, hx, -, hdata, -⟩ := inv.stored hdone hi
    rw [Table.tuple, hdata, hx]
    rfl

end

/-! ## Probes -/

section

variable [DecidableEq K] {table : Table K V} {xs : Multiset (K × V)}

/-- A probe walks a chain to its end. -/
theorem probe_chain (key : K) {l : List ℕ} {current fuel : ℕ} (hl : Linked table.next (target current) l)
    (haddr : ∀ i ∈ l, cfg.address i = some i ∧ (table.data i).isSome = true) (hfuel : l.length < fuel) :
    table.probe cfg key fuel current = some ((l.filterMap table.tuple).filter fun x => x.1 = key) := by
  induction l generalizing current fuel with
  | nil =>
    obtain ⟨fuel, rfl⟩ : ∃ n, fuel = n + 1 := ⟨fuel - 1, by omega⟩
    have hend : current = eoc := by
      by_contra hne
      have hnone : target current = none := hl
      rw [target, if_neg hne] at hnone
      cases hnone
    rw [Table.probe, if_pos hend]
    rfl
  | cons i l ih =>
    obtain ⟨fuel, rfl⟩ : ∃ n, fuel = n + 1 := ⟨fuel - 1, by omega⟩
    obtain ⟨hcurrent, hrest⟩ := hl
    have hne : current ≠ eoc := by
      intro heq
      rw [target, if_pos heq] at hcurrent
      cases hcurrent
    obtain rfl : current = i := by simpa [target, hne] using hcurrent
    obtain ⟨ha, hsome⟩ := haddr current mem_cons_self
    obtain ⟨e, he⟩ := isSome_iff_exists.1 hsome
    have hnext : table.next current = target e.next := by rw [Table.next, he, bind_some]
    rw [hnext] at hrest
    have hlen : l.length < fuel := by
      rw [length_cons] at hfuel
      omega
    have hprobe := ih hrest (fun j hj => haddr j (mem_cons_of_mem _ hj)) hlen
    have htuple : table.tuple current = some (e.key, e.payload) := by rw [Table.tuple, he, map_some]
    rw [Table.probe, if_neg hne, ha, bind_some, filterMap_cons_some htuple, List.filter_cons]
    simp only [he, hprobe, map_some]
    by_cases hk : e.key = key <;> simp [hk]

/-- A probe for `key` ends, and has then emitted these tuples. -/
def Table.Emits (cfg : Config K) (table : Table K V) (key : K) (found : List (K × V)) : Prop :=
  ∃ n, ∀ fuel, n ≤ fuel → table.probe cfg key fuel (table.head (cfg.bucket key)) = some found

theorem Table.Lists.emits {l : List ℕ} {key : K} (h : table.Lists cfg xs (cfg.bucket key) l) :
    ∃ found, table.Emits cfg key found ∧ (found : Multiset (K × V)) = xs.filter fun x => x.1 = key := by
  refine ⟨(l.filterMap table.tuple).filter fun x => x.1 = key,
    ⟨l.length + 1, fun fuel hfuel => probe_chain key h.linked h.address hfuel⟩, ?_⟩
  rw [← filter_coe, h.tuples, Multiset.filter_filter]
  refine filter_congr fun x _ => and_iff_left_of_imp ?_
  rintro rfl
  rfl

end

/-! ## The sequential build -/

variable {table : Table K V}

section

variable {s : State Unit K V}

/-- One worker inserts one tuple in four steps. -/
theorem exec_insert {x : K × V}
    (hpc : s.pc () = .next) (htodo : s.todo () = x :: xs) (hinsert : s.table.insert cfg x = some table) :
    ∃ s', exec (step cfg) s [(), (), (), ()] = some s' ∧ s'.table = table ∧ s'.pc () = .next ∧
      s'.todo () = xs := by
  obtain ⟨a, ha, rfl⟩ := map_eq_some_iff.1 hinsert
  refine ⟨_, by simp [step, hpc, htodo, ha]; rfl, ?_, ?_, ?_⟩ <;> simp

/-- The sequential build is the build by one worker. -/
theorem build_eq {input : Unit → List (K × V)} (hfits : cfg.Fits (tuples input).card)
    (xs : List (K × V)) (inv : Inv cfg input s) (hpc : s.pc () = .next)
    (htodo : s.todo () = xs) :
    ∃ s', Reach (step cfg) Free s s' ∧ s'.Done ∧ s.table.build cfg xs = some s'.table := by
  induction xs generalizing s with
  | nil => exact ⟨s, .init, fun _ => ⟨hpc, htodo⟩, rfl⟩
  | cons x xs ih =>
    have hlt : s.issued.length < (tuples input).card := by
      have hmem : x ∈ tuples s.todo :=
        mem_sum.2 ⟨(), mem_univ (), by rw [htodo]; exact mem_cons_self⟩
      have hpos := card_pos_iff_exists_mem.2 ⟨x, hmem⟩
      rw [← inv.tuples, card_add, card_add, coe_card]
      omega
    have haddr : cfg.address s.table.cnt = some s.table.cnt := by
      rw [inv.cnt_eq hfits hlt]
      exact hfits.address_eq hlt
    obtain ⟨table, hinsert⟩ : ∃ table, s.table.insert cfg x = some table :=
      ⟨_, by rw [Table.insert, haddr]; rfl⟩
    obtain ⟨s', hs', htable, hpc', htodo'⟩ := exec_insert hpc htodo hinsert
    have hreach := reach_of_exec .init hs'
    have inv' : Inv cfg input s' :=
      hreach.invariant inv fun _ _ _ inv _ hstep => inv.step hfits hstep
    obtain ⟨s'', hs'', hdone, hbuild⟩ := ih inv' hpc' htodo'
    refine ⟨s'', hreach.trans hs'', hdone, ?_⟩
    rw [Table.build, hinsert, bind_some, ← htable, hbuild]

end

/-! ## The join -/

section

variable [Fintype T] [DecidableEq T]

/-- A worker that has not finished has a step. -/
theorem Inv.next_step (inv : Inv cfg input s) (hfits : cfg.Fits (HashJoin.tuples input).card)
    (hdone : ¬s.Done) : ∃ t s', HashJoin.step cfg s t = some s' := by
  rw [State.Done, not_forall] at hdone
  obtain ⟨t, ht⟩ := hdone
  cases hpc : s.pc t with
  | next =>
    cases htodo : s.todo t with
    | nil => exact absurd ⟨hpc, htodo⟩ ht
    | cons x xs => exact ⟨t, _, by simp only [HashJoin.step, hpc, htodo]; rfl⟩
  | hashed | indexed => exact ⟨t, _, by simp only [HashJoin.step, hpc]; rfl⟩
  | linked x i old_head =>
    have haddr := hfits.address_eq (inv.lt_of_issued (inv.linked t x i old_head hpc).1)
    exact ⟨t, _, by simp only [HashJoin.step, hpc, haddr]; rfl⟩

end

/-- The build does not get stuck. When all workers have finished, every chain lists the build tuples of its
bucket, and a probe ends and emits the build tuples with its key, as after a sequential build. -/
theorem morsel_join {T K V : Type*} [Fintype T] [DecidableEq T] [DecidableEq K] (cfg : Config K)
    (input : T → List (K × V)) (hfits : cfg.Fits (tuples input).card) (s : State T K V)
    (hs : Reach (step cfg) Free (init input) s) : (¬s.Done → ∃ t s', step cfg s t = some s') ∧
    (s.Done → (∀ h, ∃ l, s.table.Lists cfg (tuples input) h l) ∧
      ∀ key, ∃ found, s.table.Emits cfg key found ∧
        (found : Multiset (K × V)) = (tuples input).filter (fun x => x.1 = key) ∧
        ∀ xs : List (K × V), (xs : Multiset (K × V)) = tuples input →
          ∃ table found', Table.empty.build cfg xs = some table ∧ table.Emits cfg key found' ∧
            found.Perm found') := by
  have inv : Inv cfg input s :=
    hs.invariant (.init cfg input) fun _ _ _ inv _ hstep => inv.step hfits hstep
  refine ⟨inv.next_step hfits, fun hdone => ⟨fun h => ⟨s.chain h, inv.lists hfits hdone h⟩, fun key => ?_⟩⟩
  obtain ⟨found, hemits, hfound⟩ := (inv.lists hfits hdone (cfg.bucket key)).emits
  refine ⟨found, hemits, hfound, fun xs hxs => ?_⟩
  have hone : tuples (fun _ : Unit => xs) = tuples input := by
    rw [← hxs]
    exact Fintype.sum_unique _
  rw [← hone] at hfits hfound
  obtain ⟨s', hs', hdone', hbuild⟩ := build_eq hfits xs (.init cfg fun _ => xs) rfl rfl
  have inv' : Inv cfg (fun _ => xs) s' :=
    hs'.invariant (.init cfg _) fun _ _ _ inv _ hstep => inv.step hfits hstep
  obtain ⟨found', hemits', hfound'⟩ := (inv'.lists hfits hdone' (cfg.bucket key)).emits
  exact ⟨s'.table, found', hbuild, hemits', coe_eq_coe.1 (hfound.trans hfound'.symm)⟩

/-- Two workers with three tuples. -/
def twoWorkers : Bool → List (ℕ × ℕ)
  | true => [(0, 30)]
  | false => [(0, 10), (2, 20)]

/-- Two of the tuples are linked in the order of their indices and stored in the other one. -/
theorem morsel_join_twoWorkers : ∃ s, Reach (step ⟨id, 1, 4⟩) Free (init twoWorkers) s ∧ s.Done ∧
      ∃ found, s.table.Emits ⟨id, 1, 4⟩ 0 found ∧ (found : Multiset (ℕ × ℕ)) = {(0, 10), (0, 30)} := by
  have hfits : Config.Fits (⟨id, 1, 4⟩ : Config ℕ) (tuples twoWorkers).card := by
    rw [Config.Fits]
    decide
  obtain ⟨s, hreach, hdone⟩ : ∃ s, Reach (step ⟨id, 1, 4⟩) Free (init twoWorkers) s ∧ s.Done :=
    exists_reach_of_exec
      [false, true, false, true, false, true, true, false, false, false, false, false]
      ⟨_, rfl, fun _ b => by cases b <;> exact ⟨rfl, rfl⟩⟩
  obtain ⟨-, hprobe⟩ := (morsel_join _ twoWorkers hfits s hreach).2 hdone
  obtain ⟨found, hemits, hfound, -⟩ := hprobe 0
  exact ⟨s, hreach, hdone, found, hemits, hfound.trans (by decide)⟩

/-! ## The room that the planner asks for -/

/-- `PelagoJoin.rowEst`: the rows expected from the build side, `none` if the metadata query fails. -/
def rowEst (rowCount : Option NNRat) : ℕ := ⌊min (rowCount.getD (10 ^ 20)) (64 * 1024 * 1024)⌋₊

/-- `PelagoJoin.maxEst`: the most rows it can have, if that is known. -/
def maxEst (maxRowCount : Option NNRat) : ℕ :=
  ⌊maxRowCount.elim (64 * 1024 * 1024) fun maxrow => min maxrow (64 * 1024 * 1024)⌋₊

variable (rowCount maxRowCount : Option NNRat)

def maxBuildInputSize : ℕ :=
  (min (rowEst rowCount) (maxEst maxRowCount) + maxEst maxRowCount) / 2

theorem maxBuildInputSize_le : maxBuildInputSize rowCount maxRowCount ≤ 2 ^ 26 := by
  have hmax : maxEst maxRowCount ≤ 2 ^ 26 := by
    refine Nat.floor_le_of_le ?_
    cases maxRowCount with
    | none => norm_num
    | some maxrow => exact (min_le_right _ _).trans (by norm_num)
  rw [maxBuildInputSize]
  omega

/-- Tuples are stored as long as there is room for one more. -/
theorem build_isSome {cfg : Config K} (hmax : cfg.maxBuildInputSize ≤ 2 ^ 26) (xs : List (K × V))
    (hcnt : table.cnt ≤ cfg.maxBuildInputSize) :
    (table.build cfg xs).isSome = true ↔ table.cnt + xs.length ≤ cfg.maxBuildInputSize := by
  induction xs generalizing table with
  | nil => exact iff_of_true rfl hcnt
  | cons x xs ih =>
    have hsigned : signed table.cnt = table.cnt := if_pos (by omega)
    rw [Table.build, Table.insert, Config.address, length_cons]
    by_cases hroom : table.cnt < cfg.maxBuildInputSize
    · rw [if_pos (by omega)]
      have hnext : (table.cnt + 1) % 2 ^ 32 = table.cnt + 1 := Nat.mod_eq_of_lt (by omega)
      refine (ih (by simp only [hnext]; omega)).trans ?_
      simp only [hnext, Nat.add_assoc, Nat.add_comm 1]
    · rw [if_neg (by omega)]
      exact iff_of_false Bool.false_ne_true (by omega)

/-- **A build stays in its allocation exactly if the planner has asked for room for all its tuples.** -/
theorem build_isSome_iff (hash : K → ℕ) (hash_bits : ℕ) (rowCount maxRowCount : Option NNRat)
    (xs : List (K × V)) :
    (Table.empty.build ⟨hash, hash_bits, maxBuildInputSize rowCount maxRowCount⟩ xs).isSome = true ↔
      xs.length ≤ maxBuildInputSize rowCount maxRowCount := by
  refine (build_isSome (maxBuildInputSize_le rowCount maxRowCount) xs (Nat.zero_le _)).trans ?_
  rw [Table.empty, zero_add]

/-- One row is expected and four are possible; the third tuple is stored behind the allocation. -/
theorem third_tuple_outside : maxBuildInputSize (some 1) (some 4) = 2 ∧
    Table.empty.build ⟨id, 2, maxBuildInputSize (some 1) (some 4)⟩ [(0, 10), (1, 20), (2, 30)] = none := by
  have hsize : maxBuildInputSize (some 1) (some 4) = 2 := by norm_num [maxBuildInputSize, rowEst, maxEst]
  rw [hsize]
  exact ⟨rfl, rfl⟩

end Proteus.HashJoin
