import Proteus.Machine

/-!
# Bloom filters of several build pipelines

Every `BloomFilterBuild` pipeline fills a filter of its own. When it finishes it puts the filter in the
registry under its node, in place of one that is there, which is freed, and then copies it to other nodes,
unless there is one. Each of these calls takes the lock of the registry by itself. No call joins two
filters, so the filter of a node has the keys of one pipeline, and probes on the node pass the keys of the
others by chance only.

* `Config.find_build`: a filter passes the keys that were put in;
* `Inv`: if no two of the pipelines that run have a node in common, nothing is freed and the filter of a
  node is that of the pipeline it comes from;
* `Settled`: otherwise some order of the pipelines leaves the filter of a node without the keys of another
  pipeline;
* `no_false_negatives_iff`: both together. The index into the filter is a signed 32-bit number, which
  bounds the size of the filter.
-/

namespace Proteus.BloomFilter

open Function List BitVec Option

/-! ## One filter -/

abbrev Key := BitVec 32

/-- An array of `i1`. -/
abbrev Bits := ℕ → Bool

/-- The constructor checks that the size is a power of two. -/
structure Config (P : Type*) where
  node : P → ℕ
  copyToNumaNodes : P → List ℕ
  filterSize : ℕ
  isPow : ∃ m, filterSize = 2 ^ m

variable {P : Type*} {f : Bits}

namespace Config

variable (cfg : Config P)

/-- `h & ((int32_t)filterSize - 1)`; the address computation extends its sign, so a negative one is outside
the array. -/
def index (k : Key) : Option ℕ :=
  let hash := k &&& (BitVec.ofNat 32 cfg.filterSize - 1#32)
  if hash.msb then none else some hash.toNat

/-- `BloomFilterBuild::consume` -/
def assign (f : Bits) (k : Key) : Bits :=
  match cfg.index k with
  | some i => update f i true
  | none => f

/-- The filter of a pipeline that has consumed `keys`. -/
def build (keys : List Key) : Bits := keys.foldl cfg.assign fun _ => false

/-- Whether `BloomFilterProbe::consume` passes the tuple on. -/
def find (f : Bits) (k : Key) : Bool := (cfg.index k).any f

variable {cfg}

theorem index_of_le (hle : cfg.filterSize ≤ 2 ^ 31) (k : Key) : ∃ i, cfg.index k = some i := by
  obtain ⟨m, hm⟩ := cfg.isPow
  have hmask : (BitVec.ofNat 32 cfg.filterSize - 1#32).msb = false := by
    have hpos : 0 < cfg.filterSize := hm ▸ Nat.two_pow_pos m
    rw [msb_eq_false_iff_two_mul_lt, toNat_sub, toNat_ofNat, toNat_ofNat]
    omega
  refine ⟨_, if_neg ?_⟩
  rw [msb_and, hmask, Bool.and_false]
  exact Bool.false_ne_true

/-- In a larger filter a negative key has no place. -/
theorem index_allOnes (hgt : ¬cfg.filterSize ≤ 2 ^ 31) : cfg.index (allOnes 32) = none := by
  obtain ⟨m, hm⟩ := cfg.isPow
  have hbits : 31 < m := by
    rw [hm, Nat.not_le] at hgt
    exact (Nat.pow_lt_pow_iff_right Nat.one_lt_two).mp hgt
  have hzero : BitVec.ofNat 32 cfg.filterSize = 0#32 := by
    apply eq_of_toNat_eq
    rw [hm]
    exact Nat.mod_eq_zero_of_dvd (Nat.pow_dvd_pow 2 hbits)
  rw [index, hzero]
  rfl

variable {k : Key} {i : ℕ} {keys : List Key}

theorem find_eq (h : cfg.index k = some i) (f : Bits) : cfg.find f k = f i := by
  rw [find, h, any_some]

theorem assign_of_true (h : f i = true) (k : Key) : cfg.assign f k i = true := by
  rw [assign]
  cases cfg.index k with
  | none => exact h
  | some j =>
    by_cases hij : i = j
    · rw [hij]
      exact update_self ..
    · exact (update_of_ne hij ..).trans h

theorem foldl_assign_of_true (h : f i = true) (keys : List Key) :
    keys.foldl cfg.assign f i = true := by
  induction keys generalizing f with
  | nil => exact h
  | cons k keys ih => exact ih (assign_of_true h k)

theorem foldl_assign_of_mem (hi : cfg.index k = some i) (hk : k ∈ keys)
    (f : Bits) : keys.foldl cfg.assign f i = true := by
  induction keys generalizing f with
  | nil => cases hk
  | cons k' keys ih =>
    rcases mem_cons.mp hk with rfl | hk
    · have hset : cfg.assign f k i = true := by
        rw [assign, hi]
        exact update_self ..
      exact foldl_assign_of_true hset keys
    · exact ih hk _

theorem find_build (hle : cfg.filterSize ≤ 2 ^ 31) (hk : k ∈ keys) :
    cfg.find (cfg.build keys) k = true := by
  obtain ⟨i, hi⟩ := index_of_le hle k
  rw [find_eq hi]
  exact foldl_assign_of_mem hi hk _

/-- A pipeline without keys passes nothing. -/
theorem find_build_nil (k : Key) : cfg.find (cfg.build []) k = false := by
  rw [find]
  cases cfg.index k <;> rfl

end Config

/-! ## The registry -/

/-- The filter a pipeline has built, or a copy; copies are numbered. -/
inductive Ptr (P : Type*)
  | own (p : P)
  | copy (n : ℕ)
  deriving DecidableEq

/-- A pipeline consumes its input, and then has the nodes left to copy its filter to. -/
inductive Pc
  | running
  | finishing (todo : List ℕ)

/-- `registry` has the entries of the operators' `bloomId`, by node; `probes` are the filters of the probes
that are open. -/
structure State (P : Type*) where
  pc : P → Pc
  registry : ℕ → Option (Ptr P)
  copies : List Bits
  freed : List (Ptr P)
  probes : List (Ptr P)

/-- `junk` is what a copy of freed memory gives. -/
inductive Action (P : Type*)
  | setBloomFilter (p : P)
  | copyBloomFilterToNode (p : P) (junk : Bits)
  | openProbe (node : ℕ)
  | closeProbe (i : ℕ)

def init {P : Type*} : State P where
  pc _ := .running
  registry _ := none
  copies := []
  freed := []
  probes := []

variable {s s' : State P} {a : Action P}

section

variable [DecidableEq P] (cfg : Config P) (keys : P → List Key)

/-- What was written to a filter. -/
def State.content (s : State P) : Ptr P → Option Bits
  | .own p => some (cfg.build (keys p))
  | .copy n => s.copies[n]?

/-- What a filter holds, unless it has been freed. -/
def State.read (s : State P) (filter : Ptr P) : Option Bits :=
  if filter ∈ s.freed then none else s.content cfg keys filter

def step (s : State P) : Action P → Option (State P)
  | .setBloomFilter p =>
    match s.pc p with
    | .running => some
      { s with
        pc := update s.pc p (.finishing (cfg.copyToNumaNodes p))
        freed := (s.registry (cfg.node p)).toList ++ s.freed
        registry := update s.registry (cfg.node p) (some (.own p)) }
    | .finishing _ => none
  | .copyBloomFilterToNode p junk =>
    match s.pc p with
    | .finishing (target :: rest) =>
      if (s.registry target).isSome then some { s with pc := update s.pc p (.finishing rest) }
      -- `CHECK(bloom_filter_registry.count(this_key))`
      else if (s.registry (cfg.node p)).isSome then some
        { s with
          pc := update s.pc p (.finishing rest)
          copies := s.copies ++ [(s.read cfg keys (.own p)).getD junk]
          registry := update s.registry target (some (.copy s.copies.length)) }
      else none
    | _ => none
  | .openProbe node => (s.registry node).map fun filter => { s with probes := filter :: s.probes }
  | .closeProbe i => if i < s.probes.length then some { s with probes := s.probes.eraseIdx i } else none

/-- What a step can do. -/
inductive Trans (s : State P) : Action P → State P → Prop
  | set (p : P) (hpc : s.pc p = .running) : Trans s (.setBloomFilter p)
      { s with
        pc := update s.pc p (.finishing (cfg.copyToNumaNodes p))
        freed := (s.registry (cfg.node p)).toList ++ s.freed
        registry := update s.registry (cfg.node p) (some (.own p)) }
  | skip (p : P) (junk : Bits) (target : ℕ) (rest : List ℕ) (hpc : s.pc p = .finishing (target :: rest))
      (hsome : (s.registry target).isSome) : Trans s (.copyBloomFilterToNode p junk)
      { s with pc := update s.pc p (.finishing rest) }
  | copy (p : P) (junk : Bits) (target : ℕ) (rest : List ℕ) (hpc : s.pc p = .finishing (target :: rest))
      (hnone : s.registry target = none) : Trans s (.copyBloomFilterToNode p junk)
      { s with
        pc := update s.pc p (.finishing rest)
        copies := s.copies ++ [(s.read cfg keys (.own p)).getD junk]
        registry := update s.registry target (some (.copy s.copies.length)) }
  | openProbe (node : ℕ) (filter : Ptr P) (hreg : s.registry node = some filter) :
      Trans s (.openProbe node) { s with probes := filter :: s.probes }
  | closeProbe (i : ℕ) : Trans s (.closeProbe i) { s with probes := s.probes.eraseIdx i }

variable {cfg keys}

theorem trans_of_step (hs : step cfg keys s a = some s') : Trans cfg keys s a s' := by
  cases a <;> rw [step] at hs
  case setBloomFilter p =>
    split at hs <;> cases hs
    exact .set p ‹_›
  case copyBloomFilterToNode p junk =>
    split at hs
    · split at hs
      · cases hs
        exact .skip p junk _ _ ‹_› ‹_›
      · rw [ite_none_right_eq_some] at hs
        obtain ⟨-, hs⟩ := hs
        cases hs
        exact .copy p junk _ _ ‹_› (not_isSome_iff_eq_none.mp ‹_›)
    · cases hs
  case openProbe node =>
    obtain ⟨filter, hreg, rfl⟩ := map_eq_some_iff.mp hs
    exact .openProbe node filter hreg
  case closeProbe i =>
    rw [ite_none_right_eq_some] at hs
    cases hs.2
    exact .closeProbe i

omit [DecidableEq P] in
theorem isSome_update {registry : ℕ → Option (Ptr P)} {v w : ℕ} (x : Ptr P)
    (h : v = w ∨ (registry v).isSome) : (update registry w (some x) v).isSome := by
  by_cases hw : v = w
  · rw [hw, update_self]
    rfl
  · rw [update_of_ne hw]
    exact h.resolve_left hw

/-- An entry of the registry is replaced, never removed. -/
theorem Trans.isSome (ht : Trans cfg keys s a s') {v : ℕ} (hv : (s.registry v).isSome) :
    (s'.registry v).isSome := by
  cases ht with
  | set | copy => exact isSome_update _ (.inr hv)
  | _ => exact hv

/-- Filters are not written once they are in the registry. -/
theorem Trans.content (ht : Trans cfg keys s a s') {filter : Ptr P}
    (hf : s.content cfg keys filter = some f) : s'.content cfg keys filter = some f := by
  cases ht with
  | copy =>
    cases filter with
    | own q => exact hf
    | copy n => exact (List.getElem?_append_left (List.getElem?_eq_some_iff.mp hf).1).trans hf
  | _ => exact hf

end

/-! ## What probes should find -/

/-- The nodes a pipeline runs on or copies its filter to. -/
def Config.Targets {P : Type*} (cfg : Config P) (p : P) (v : ℕ) : Prop :=
  cfg.node p = v ∨ v ∈ cfg.copyToNumaNodes p

/-- All build pipelines have finished. -/
def State.Finished {P : Type*} (s : State P) : Prop := ∀ p, s.pc p = .finishing []

/-- A probe that opens when the build pipelines have finished passes the keys of all those that ran on its
node or copied to it, and no probe has a filter that has been freed. -/
structure Sound {P : Type*} [DecidableEq P] (cfg : Config P) (keys : P → List Key) (s : State P) :
    Prop where
  passes : s.Finished → ∀ v filter, s.registry v = some filter →
    ∃ f, s.read cfg keys filter = some f ∧ ∀ p, cfg.Targets p v → ∀ k ∈ keys p, cfg.find f k = true
  held : ∀ filter ∈ s.probes, filter ∉ s.freed

/-- No node has filters from two pipelines, and the index reaches every bit of a filter. -/
structure Config.Apart {P : Type*} (cfg : Config P) : Prop where
  eq_of_targets : ∀ p q v, cfg.Targets p v → cfg.Targets q v → p = q
  size_le : Nonempty P → cfg.filterSize ≤ 2 ^ 31

/-- Builds are done by the pipelines in `A` only. -/
def Within {P : Type*} (A : P → Prop) (_ : State P) : Action P → Prop
  | .setBloomFilter p => A p
  | .copyBloomFilterToNode p _ => A p
  | .openProbe _ => True
  | .closeProbe _ => True

variable {cfg : Config P} {v : ℕ} {f : P → Pc}

section

variable [DecidableEq P] {keys : P → List Key} {A : P → Prop} {p q : P}

/-- The filter of a node is that of a pipeline that has finished or is about to. -/
structure Inv (cfg : Config P) (keys : P → List Key) (A : P → Prop) (s : State P) : Prop where
  freed : s.freed = []
  todo : ∀ p ts, s.pc p = .finishing ts → ∀ t ∈ ts, t ∈ cfg.copyToNumaNodes p
  delivered : ∀ v filter, s.registry v = some filter → ∃ p, A p ∧ cfg.Targets p v ∧ s.pc p ≠ .running ∧
    s.content cfg keys filter = some (cfg.build (keys p))

omit [DecidableEq P] in
theorem Inv.init : Inv cfg keys A init where
  freed := rfl
  todo := nofun
  delivered := nofun

variable {ts : List ℕ} {ok : State P → Action P → Prop}

theorem pc_ne_running (hq : f q ≠ .running) : update f p (.finishing ts) q ≠ .running := by
  intro h
  rcases update_cases h with ⟨-, h⟩ | ⟨-, h⟩
  · cases h
  · exact hq h

theorem todo_update (h : ∀ q us, f q = .finishing us → ∀ t ∈ us, t ∈ cfg.copyToNumaNodes q)
    (hts : ∀ t ∈ ts, t ∈ cfg.copyToNumaNodes p) (q : P) (us : List ℕ)
    (hq : update f p (.finishing ts) q = .finishing us) : ∀ t ∈ us, t ∈ cfg.copyToNumaNodes q := by
  rcases update_cases hq with ⟨rfl, heq⟩ | ⟨-, hq⟩
  · cases heq
    exact hts
  · exact h q us hq

/-- An entry that is new, or one from before. -/
theorem Inv.delivered_update (inv : Inv cfg keys A s) (ht : Trans cfg keys s a s')
    (hp : A p) (hv : cfg.Targets p v) {x : Ptr P} (hx : s'.content cfg keys x = some (cfg.build (keys p)))
    (hpc : s'.pc = update s.pc p (.finishing ts)) (w : ℕ) (filter : Ptr P)
    (hreg : update s.registry v (some x) w = some filter) :
    ∃ p, A p ∧ cfg.Targets p w ∧ s'.pc p ≠ .running ∧
      s'.content cfg keys filter = some (cfg.build (keys p)) := by
  rcases update_cases hreg with ⟨rfl, heq⟩ | ⟨-, hreg⟩
  · cases heq
    refine ⟨p, hp, hv, ?_, hx⟩
    rw [hpc, update_self]
    exact Pc.noConfusion
  · obtain ⟨q, hq, hqw, hqpc, hf⟩ := inv.delivered w filter hreg
    exact ⟨q, hq, hqw, hpc ▸ pc_ne_running hqpc, ht.content hf⟩

section

variable (hA : ∀ p q v, A p → A q → cfg.Targets p v → cfg.Targets q v → p = q)
include hA

theorem Inv.step (inv : Inv cfg keys A s) (ha : Within A s a) (hs : step cfg keys s a = some s') :
    Inv cfg keys A s' := by
  have ht := trans_of_step hs
  cases ht with
  | set p hpc =>
    -- an entry could only come from the pipeline itself, which has not finished
    have hnone : s.registry (cfg.node p) = none := by
      rw [eq_none_iff_forall_ne_some]
      intro filter hreg
      obtain ⟨q, hq, hv, hqpc, -⟩ := inv.delivered _ _ hreg
      exact hqpc (hA q p _ hq ha hv (.inl rfl) ▸ hpc)
    exact {
      freed := by
        rw [hnone, inv.freed]
        rfl
      todo := todo_update inv.todo fun t ht => ht
      delivered := inv.delivered_update (trans_of_step hs) ha (.inl rfl) rfl rfl }
  | skip p junk target rest hpc hsome =>
    exact { inv with
      todo := todo_update inv.todo fun t ht => inv.todo p _ hpc t (mem_cons_of_mem _ ht)
      delivered := fun v filter hreg => by
        obtain ⟨q, hq, hv, hqpc, hf⟩ := inv.delivered v filter hreg
        exact ⟨q, hq, hv, pc_ne_running hqpc, hf⟩ }
  | copy p junk target rest hpc hnone =>
    have hread : s.read cfg keys (.own p) = some (cfg.build (keys p)) := by
      rw [State.read, inv.freed, if_neg not_mem_nil]
      rfl
    refine { inv with
      todo := todo_update inv.todo fun t ht => inv.todo p _ hpc t (mem_cons_of_mem _ ht)
      delivered := inv.delivered_update (trans_of_step hs) ha
        (.inr (inv.todo p _ hpc target mem_cons_self)) ?_ rfl }
    rw [hread]
    exact getElem?_concat_length
  | _ => exact { inv with }

theorem Inv.of_reach
    (hs : Reach (BloomFilter.step cfg keys) (Within A) BloomFilter.init s) : Inv cfg keys A s :=
  hs.invariant Inv.init fun _ _ _ inv ha hs => inv.step hA ha hs

end

omit [DecidableEq P] in
theorem Within.mono {B : P → Prop} (hAB : ∀ p, A p → B p) (h : Within A s a) : Within B s a := by
  cases a with
  | setBloomFilter p | copyBloomFilterToNode p => exact hAB p h
  | _ => trivial

omit [DecidableEq P] in
theorem within_true (s : State P) (a : Action P) : Within (fun _ => True) s a := by
  cases a <;> trivial

theorem sound_of_apart (hcfg : cfg.Apart) (hs : Reach (step cfg keys) Free init s) : Sound cfg keys s := by
  have inv : Inv cfg keys (fun _ => True) s :=
    .of_reach (fun p q v _ _ => hcfg.eq_of_targets p q v) (hs.mono fun s a _ => within_true s a)
  constructor
  · intro _ v filter hreg
    obtain ⟨p, -, hpv, -, hf⟩ := inv.delivered v filter hreg
    refine ⟨cfg.build (keys p), ?_, ?_⟩
    · rw [State.read, inv.freed, if_neg not_mem_nil, hf]
    · intro q hqv k hk
      obtain rfl := hcfg.eq_of_targets q p v hqv hpv
      exact Config.find_build (hcfg.size_le ⟨q⟩) hk
  · intro filter _
    rw [inv.freed]
    exact not_mem_nil

/-! ## Runs to the end -/

/-- Where a pipeline that has consumed its input has left a filter. -/
def Received (cfg : Config P) (s : State P) : Prop :=
  ∀ p ts, s.pc p = .finishing ts → (s.registry (cfg.node p)).isSome ∧
    ∀ v ∈ cfg.copyToNumaNodes p, v ∈ ts ∨ (s.registry v).isSome

theorem Received.mono (hrec : Received cfg s) (ht : Trans cfg keys s a s')
    (hpc : s.pc p = .finishing ts) : (s'.registry (cfg.node p)).isSome ∧
      ∀ v ∈ cfg.copyToNumaNodes p, v ∈ ts ∨ (s'.registry v).isSome := by
  obtain ⟨hnode, hcopied⟩ := hrec p ts hpc
  exact ⟨ht.isSome hnode, fun v hv => (hcopied v hv).imp_right fun h => ht.isSome h⟩

/-- The next node has a filter, whether it had one or gets the copy. -/
theorem Received.next (hrec : Received cfg s) (ht : Trans cfg keys s a s') {target : ℕ} {rest : List ℕ}
    (hpc : s.pc p = .finishing (target :: rest)) (htarget : (s'.registry target).isSome) :
    (s'.registry (cfg.node p)).isSome ∧
      ∀ v ∈ cfg.copyToNumaNodes p, v ∈ rest ∨ (s'.registry v).isSome := by
  obtain ⟨hnode, hcopied⟩ := hrec.mono ht hpc
  refine ⟨hnode, fun v hv => ?_⟩
  rcases hcopied v hv with hmem | hv
  · exact (mem_cons.mp hmem).symm.imp_right fun h : v = target => h ▸ htarget
  · exact .inr hv

theorem Received.step (hrec : Received cfg s) (hs : step cfg keys s a = some s') : Received cfg s' := by
  have ht := trans_of_step hs
  intro q us hq
  by_cases hpc : s'.pc q = s.pc q
  · exact hrec.mono ht (hpc ▸ hq)
  · cases ht with
    | set p =>
      obtain ⟨rfl, heq⟩ := (update_cases hq).resolve_right fun h => hpc (hq.trans h.2.symm)
      cases heq
      exact ⟨isSome_update _ (.inl rfl), fun v hv => .inl hv⟩
    | skip p junk target rest hp hsome =>
      obtain ⟨rfl, heq⟩ := (update_cases hq).resolve_right fun h => hpc (hq.trans h.2.symm)
      cases heq
      exact hrec.next (trans_of_step hs) hp hsome
    | copy p junk target rest hp =>
      obtain ⟨rfl, heq⟩ := (update_cases hq).resolve_right fun h => hpc (hq.trans h.2.symm)
      cases heq
      exact hrec.next (trans_of_step hs) hp (isSome_update _ (.inl rfl))
    | _ => exact absurd rfl hpc

theorem received_of_reach (hs : Reach (step cfg keys) ok init s) : Received cfg s :=
  hs.invariant nofun fun _ _ _ hrec _ hs => hrec.step hs

/-- Pipelines outside `A` stay where they are. -/
theorem pc_of_within (h : Reach (step cfg keys) (Within A) s s') (hq : ¬A q) : s'.pc q = s.pc q := by
  refine h.invariant (I := fun s' => s'.pc q = s.pc q) rfl ?_
  intro t a t' ih ha hstep
  have hne : ∀ p ts, A p → update t.pc p (.finishing ts) q = s.pc q := by
    intro p ts hp
    have hqp : q ≠ p := fun h => hq (h ▸ hp)
    rw [update_of_ne hqp, ih]
  cases trans_of_step hstep with
  | set p | skip p | copy p => exact hne p _ ha
  | _ => exact ih

theorem exists_copied (hs : Reach (step cfg keys) Free init s) (hpc : s.pc p = .finishing ts) :
    ∃ s', Reach (step cfg keys) (Within (· = p)) s s' ∧ s'.pc p = .finishing [] := by
  induction ts generalizing s with
  | nil => exact ⟨s, .init, hpc⟩
  | cons target rest ih =>
    obtain ⟨s₁, hstep, hpc₁⟩ : ∃ s₁, step cfg keys s (.copyBloomFilterToNode p fun _ => false) = some s₁ ∧
        s₁.pc p = .finishing rest := by
      have hnode := (received_of_reach hs p _ hpc).1
      by_cases htarget : (s.registry target).isSome
      · exact ⟨_, by simp only [step, hpc, htarget]; rfl, update_self ..⟩
      · exact ⟨_, by simp only [step, hpc, htarget, hnode]; rfl, update_self ..⟩
    obtain ⟨s₂, hrun, hdone⟩ := ih (hs.next _ trivial hstep) hpc₁
    have hfirst : Reach (step cfg keys) (Within (· = p)) s s₁ :=
      .next (.copyBloomFilterToNode p fun _ => false) .init rfl hstep
    exact ⟨s₂, hfirst.trans hrun, hdone⟩

theorem step_set (cfg : Config P) (keys : P → List Key) (hpc : s.pc p = .running) :
    ∃ s', step cfg keys s (.setBloomFilter p) = some s' ∧
      s'.pc = update s.pc p (.finishing (cfg.copyToNumaNodes p)) ∧
      s'.registry (cfg.node p) = some (.own p) :=
  ⟨_, by simp only [step, hpc]; rfl, rfl, update_self ..⟩

/-- A pipeline can run to its end by itself. -/
theorem exists_finished (hs : Reach (step cfg keys) Free init s) (hpc : s.pc p = .running) :
    ∃ s', Reach (step cfg keys) (Within (· = p)) s s' ∧ s'.pc p = .finishing [] := by
  obtain ⟨s₁, hstep, hpc₁, -⟩ := step_set cfg keys hpc
  obtain ⟨s₂, hrun, hdone⟩ := exists_copied (hs.next _ trivial hstep) (by rw [hpc₁, update_self])
  have hfirst : Reach (step cfg keys) (Within (· = p)) s s₁ := .next (.setBloomFilter p) .init rfl hstep
  exact ⟨s₂, hfirst.trans hrun, hdone⟩

/-- So can several, one after the other. -/
theorem exists_all_finished {ps : List P} (hps : ps.Nodup) (hs : Reach (step cfg keys) Free init s)
    (hpc : ∀ p ∈ ps, s.pc p = .running) :
    ∃ s', Reach (step cfg keys) (Within (· ∈ ps)) s s' ∧ ∀ p ∈ ps, s'.pc p = .finishing [] := by
  induction ps generalizing s with
  | nil => exact ⟨s, .init, fun p hp => absurd hp not_mem_nil⟩
  | cons p ps ih =>
    obtain ⟨hp, hps⟩ := nodup_cons.mp hps
    obtain ⟨s₁, hrun₁, hdone₁⟩ := exists_finished hs (hpc p mem_cons_self)
    have hs₁ := hs.trans (hrun₁.mono fun _ _ _ => trivial)
    have hpc₁ : ∀ q ∈ ps, s₁.pc q = .running := by
      intro q hq
      have hqp : q ≠ p := fun h => hp (h ▸ hq)
      rw [pc_of_within hrun₁ hqp]
      exact hpc q (mem_cons_of_mem _ hq)
    obtain ⟨s₂, hrun₂, hdone₂⟩ := ih hps hs₁ hpc₁
    refine ⟨s₂, ?_, forall_mem_cons.2 ⟨(pc_of_within hrun₂ hp).trans hdone₁, hdone₂⟩⟩
    have hfirst : ∀ q, q = p → q ∈ p :: ps := fun q hq => hq ▸ mem_cons_self
    have hrest : ∀ q ∈ ps, q ∈ p :: ps := fun q hq => mem_cons_of_mem _ hq
    exact (hrun₁.mono fun _ _ => Within.mono hfirst).trans (hrun₂.mono fun _ _ => Within.mono hrest)

/-! ## A filter that stays -/

/-- The filter of `v` holds `f`, and no pipeline is left to replace it. -/
structure Settled (cfg : Config P) (keys : P → List Key) (v : ℕ) (f : Bits) (s : State P) : Prop where
  holds : ∃ filter, s.registry v = some filter ∧ s.content cfg keys filter = some f
  idle : ∀ p, s.pc p = .running → cfg.node p ≠ v

variable {f : Bits}

section

variable (h : Settled cfg keys v f s)
include h

theorem Settled.step (hs : step cfg keys s a = some s') : Settled cfg keys v f s' := by
  obtain ⟨filter, hreg, hf⟩ := h.holds
  have ht := trans_of_step hs
  have hf' : s'.content cfg keys filter = some f := ht.content hf
  have hidle : ∀ p ts q, update s.pc p (.finishing ts) q = .running → cfg.node q ≠ v := by
    intro p ts q hq
    rcases update_cases hq with ⟨-, hq⟩ | ⟨-, hq⟩
    · cases hq
    · exact h.idle q hq
  have hkept : ∀ w x, v ≠ w → update s.registry w x v = some filter := by
    intro w x hw
    rw [update_of_ne hw, hreg]
  cases ht with
  | set p hpc => exact ⟨⟨filter, hkept _ _ (h.idle p hpc).symm, hf'⟩, hidle p _⟩
  | skip p => exact ⟨⟨filter, hreg, hf⟩, hidle p _⟩
  | copy p junk target rest hpc hnone =>
    have hne : v ≠ target := by
      rintro rfl
      cases hreg.symm.trans hnone
    exact ⟨⟨filter, hkept _ _ hne, hf'⟩, hidle p _⟩
  | _ => exact ⟨⟨filter, hreg, hf⟩, h.idle⟩

theorem Settled.reach
    (hs : Reach (BloomFilter.step cfg keys) ok s s') : Settled cfg keys v f s' :=
  hs.invariant h fun _ _ _ h _ hs => h.step hs

/-- Probes on `v` miss the keys that a settled filter does not hold. -/
theorem Settled.not_sound (hfin : s.Finished) (hq : cfg.Targets q v)
    {k : Key} (hk : k ∈ keys q) (hf : cfg.find f k = false) : ¬Sound cfg keys s := by
  intro hsound
  obtain ⟨filter, hreg, hcontent⟩ := h.holds
  obtain ⟨g, hread, hg⟩ := hsound.passes hfin v filter hreg
  have hfg : g = f := by
    rw [State.read, ite_none_left_eq_some, hcontent] at hread
    exact (some.inj hread.2).symm
  rw [← hfg, hg q hq k hk] at hf
  cases hf

end

end

/-! ## Pipelines with a common node -/

section

variable [DecidableEq P] {p q r : P}

/-- One key, of the pipeline `q`. -/
def oneKey (q : P) : P → List Key := update (fun _ => []) q [0#32]

theorem build_oneKey (cfg : Config P) (hpq : p ≠ q) : cfg.build (oneKey q p) = cfg.build [] := by
  rw [oneKey, update_of_ne hpq]

theorem mem_oneKey (q : P) : 0#32 ∈ oneKey q q := by
  rw [oneKey, update_self]
  exact mem_singleton_self _

variable [Fintype P]

theorem exists_others (r : P) : ∃ ps : List P, ps.Nodup ∧ ∀ q, q ∈ ps ↔ q ≠ r :=
  ⟨(Finset.univ.erase r).toList, Finset.nodup_toList _, fun q => by simp⟩

/-- The pipeline `r` of the node is the last to finish, and puts its own filter in place of the one that
is there. -/
theorem exists_not_sound_of_node (hq : cfg.Targets q (cfg.node r)) (hrq : r ≠ q) :
    ∃ s, Reach (step cfg (oneKey q)) Free init s ∧ ¬Sound cfg (oneKey q) s := by
  have h₀ : Reach (step cfg (oneKey q)) Free init init := .init
  obtain ⟨ps, hnodup, hps⟩ := exists_others r
  obtain ⟨s₁, hrun₁, hdone₁⟩ := exists_all_finished hnodup h₀ fun _ _ => rfl
  have hpc₁ : s₁.pc r = .running := pc_of_within hrun₁ fun h => (hps r).mp h rfl
  obtain ⟨s₂, hset, hpc₂, hreg₂⟩ := step_set cfg (oneKey q) hpc₁
  have hs₂ := (h₀.trans (hrun₁.mono fun _ _ _ => trivial)).next _ trivial hset
  have hother : ∀ p, p ≠ r → s₂.pc p = .finishing [] := by
    intro p hp
    rw [hpc₂, update_of_ne hp]
    exact hdone₁ p ((hps p).mpr hp)
  have hself : s₂.pc r = .finishing (cfg.copyToNumaNodes r) := by rw [hpc₂, update_self]
  have hsettled : Settled cfg (oneKey q) (cfg.node r) (cfg.build []) s₂ := by
    refine ⟨⟨.own r, hreg₂, ?_⟩, ?_⟩
    · rw [State.content, build_oneKey cfg hrq]
    · intro p hp
      by_cases hpr : p = r
      · cases hself.symm.trans (hpr ▸ hp)
      · cases (hother p hpr).symm.trans hp
  obtain ⟨s₃, hrun₃, hdone₃⟩ := exists_copied hs₂ hself
  have hfin : s₃.Finished := by
    intro p
    by_cases hpr : p = r
    · rw [hpr, hdone₃]
    · rw [pc_of_within hrun₃ hpr, hother p hpr]
  exact ⟨s₃, hs₂.trans (hrun₃.mono fun _ _ _ => trivial),
    (hsettled.reach hrun₃).not_sound hfin hq (mem_oneKey q) (Config.find_build_nil _)⟩

/-- No pipeline runs on the node. The first to finish copies its filter there, and the others find that
there is one. -/
theorem exists_not_sound_of_copies (hv : ∀ r, cfg.node r ≠ v) (hp : cfg.Targets p v) (hq : cfg.Targets q v)
    (hpq : p ≠ q) : ∃ s, Reach (step cfg (oneKey q)) Free init s ∧ ¬Sound cfg (oneKey q) s := by
  have h₀ : Reach (step cfg (oneKey q)) Free init init := .init
  obtain ⟨s₁, hrun₁, hdone₁⟩ := exists_finished h₀ (show init.pc p = .running from rfl)
  have hs₁ := h₀.trans (hrun₁.mono fun _ _ _ => trivial)
  have hsettled : Settled cfg (oneKey q) v (cfg.build []) s₁ := by
    refine ⟨?_, fun r _ => hv r⟩
    have inv : Inv cfg (oneKey q) (· = p) s₁ := .of_reach (fun r r' _ hr hr' _ _ => hr.trans hr'.symm) hrun₁
    have hcopied := (received_of_reach hs₁ p _ hdone₁).2 v (hp.resolve_left (hv p))
    obtain ⟨filter, hreg⟩ := isSome_iff_exists.mp (hcopied.resolve_left not_mem_nil)
    obtain ⟨r, rfl, -, -, hf⟩ := inv.delivered v filter hreg
    exact ⟨filter, hreg, hf.trans (congrArg some (build_oneKey cfg hpq))⟩
  obtain ⟨ps, hnodup, hps⟩ := exists_others p
  have hpc₁ : ∀ r ∈ ps, s₁.pc r = .running := fun r hr => pc_of_within hrun₁ ((hps r).mp hr)
  obtain ⟨s₂, hrun₂, hdone₂⟩ := exists_all_finished hnodup hs₁ hpc₁
  have hfin : s₂.Finished := by
    intro r
    by_cases hrp : r = p
    · rw [hrp, pc_of_within hrun₂ fun h => (hps p).mp h rfl, hdone₁]
    · exact hdone₂ r ((hps r).mpr hrp)
  exact ⟨s₂, hs₁.trans (hrun₂.mono fun _ _ _ => trivial),
    (hsettled.reach hrun₂).not_sound hfin hq (mem_oneKey q) (Config.find_build_nil _)⟩

/-- A negative key is not in a filter of more than 2^31 bits. -/
theorem exists_not_sound_of_size (p : P) (hgt : ¬cfg.filterSize ≤ 2 ^ 31) :
    ∃ s, Reach (step cfg fun _ => [allOnes 32]) Free init s ∧
      ¬Sound cfg (fun _ => [allOnes 32]) s := by
  have h₀ : Reach (step cfg fun _ => [allOnes 32]) Free init init := .init
  obtain ⟨s, hrun, hdone⟩ := exists_all_finished (Finset.nodup_toList Finset.univ) h₀ fun _ _ => rfl
  have hfin : s.Finished := fun p => hdone p (Finset.mem_toList.mpr (Finset.mem_univ p))
  have hs := h₀.trans (hrun.mono fun _ _ _ => trivial)
  refine ⟨s, hs, fun hsound => ?_⟩
  obtain ⟨filter, hreg⟩ := isSome_iff_exists.mp (received_of_reach hs p _ (hfin p)).1
  obtain ⟨f, -, hf⟩ := hsound.passes hfin _ filter hreg
  have hfind := hf p (.inl rfl) _ (mem_singleton_self _)
  rw [Config.find, Config.index_allOnes hgt] at hfind
  cases hfind

/-- **Probes find every key, and have their filters, exactly if no node gets filters from two build
pipelines** (and the index reaches every bit), for all keys and all orders in which the pipelines finish. -/
theorem no_false_negatives_iff (cfg : Config P) :
    (∀ keys s, Reach (step cfg keys) Free init s → Sound cfg keys s) ↔ cfg.Apart := by
  constructor
  · intro h
    have hsound : ∀ keys, ¬∃ s, Reach (step cfg keys) Free init s ∧ ¬Sound cfg keys s := by
      rintro keys ⟨s, hs, hnot⟩
      exact hnot (h keys s hs)
    constructor
    · intro p q v hp hq
      by_contra hpq
      by_cases hv : ∃ r, cfg.node r = v
      · obtain ⟨r, rfl⟩ := hv
        by_cases hrp : r = p
        · subst hrp
          exact hsound _ (exists_not_sound_of_node hq hpq)
        · exact hsound _ (exists_not_sound_of_node hp hrp)
      · rw [not_exists] at hv
        exact hsound _ (exists_not_sound_of_copies hv hp hq hpq)
    · rintro ⟨p⟩
      by_contra hgt
      exact hsound _ (exists_not_sound_of_size p hgt)
  · intro hcfg keys s hs
    exact sound_of_apart hcfg hs

end

/-- Two pipelines on one node and 16 bits; one has the key 1 and the other 2. -/
def sameNode : Config Bool where
  node _ := 0
  copyToNumaNodes _ := []
  filterSize := 16
  isPow := ⟨4, rfl⟩

def keyOf (p : Bool) : List Key := [if p then 1#32 else 2#32]

/-- Two nodes, and one pipeline copies its filter to a third. -/
def twoNodes : Config Bool :=
  { sameNode with node := Bool.toNat, copyToNumaNodes := fun p => if p then [2] else [] }

/-- There are probes on the first node and on the third. -/
theorem no_false_negatives_twoNodes : ∃ s, Reach (step twoNodes keyOf) Free init s ∧
    s.probes = [.copy 0, .own false] ∧ Sound twoNodes keyOf s := by
  have happart : twoNodes.Apart := by
    refine ⟨fun p q v hp hq => ?_, fun _ => by decide⟩
    cases p <;> cases q <;> simp_all [Config.Targets, twoNodes] <;> omega
  exact exists_reach_of_exec [.setBloomFilter false, .openProbe 0, .setBloomFilter true,
    .copyBloomFilterToNode true fun _ => false, .openProbe 2]
    ⟨_, rfl, fun h => ⟨rfl, (no_false_negatives_iff _).2 happart _ _ h⟩⟩

/-- The second pipeline frees the filter of the first, which a probe has, and its own does not pass the
key of the first. -/
theorem key_lost_and_freed : ∃ s, exec (step sameNode keyOf) init
        [.setBloomFilter false, .openProbe 0, .setBloomFilter true] = some s ∧
      s.probes = [.own false] ∧ s.freed = [.own false] ∧ s.registry 0 = some (.own true) ∧
      sameNode.find (sameNode.build (keyOf true)) 2#32 = false :=
  ⟨_, rfl, rfl, rfl, rfl, rfl⟩

end Proteus.BloomFilter
