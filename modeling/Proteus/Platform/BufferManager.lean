import Mathlib.Algebra.Order.BigOperators.Group.Finset
import Proteus.Machine

/-!
# Reference counts of host buffers

`buffer_manager` keeps the free host blocks of every NUMA node in a stack, and for every block an
atomic count of the references to it. `get_buffer_numa` pops a block and then increments its count,
`share_host_buffer` increments it, and `release_buffer` decrements it and pushes the block to the
stack of its node when it has removed the last reference.

A move of the model is one atomic step: a pop or a push under the mutex of a stack, or an operation on
a count. Between the two steps of a `get` or of the last `release` the block is in no stack and has
no reference; the thread carries it. In every state a block is at exactly one of the places where it
can be: in one stack, carried by one thread, or referenced (`Inv.places`).
-/

namespace Proteus.BufferManager

open Function Finset Option

/-- Where a thread stands. -/
inductive Pc (β : Type*)
  | idle
  /-- in `get_buffer_numa`: has popped the block -/
  | counting (b : β)
  /-- in `release_buffer`: has removed the last reference to the block -/
  | pushing (b : β)

/-- What an `int` keeps of a number. -/
def wrap (n : ℤ) : ℤ := n.bmod (2 ^ 32)

theorem wrap_of_lt {n : ℤ} (hpos : 0 ≤ n) (hlt : n < 2 ^ 31) : wrap n = n :=
  Int.bmod_eq_of_le (by omega) (by omega)

/-- The stacks of free blocks, `buffer_cache`, the threads, and the references that they hold. -/
structure State (T β ι : Type*) where
  h_pool_numa : ι → List β
  buffer_cache : β → Option ℤ
  thread : T → Pc β
  refs : T → β → ℕ

variable {T β ι : Type*}

/-- The stacks that `init` fills with the blocks of each node. -/
def init (blocks : ι → List β) (known : β → Bool) : State T β ι where
  h_pool_numa := blocks
  buffer_cache := fun b => if known b then some 0 else none
  thread := fun _ => .idle
  refs := fun _ _ => 0

section

variable [DecidableEq T] [DecidableEq β] [DecidableEq ι] (s : State T β ι)

namespace State

def moveTo (t : T) (pc : Pc β) : State T β ι :=
  { s with thread := update s.thread t pc }

def setPool (i : ι) (bs : List β) : State T β ι :=
  { s with h_pool_numa := update s.h_pool_numa i bs }

def setCount (b : β) (n : ℤ) : State T β ι :=
  { s with buffer_cache := update s.buffer_cache b (some n) }

def setRefs (t : T) (b : β) (n : ℕ) : State T β ι :=
  { s with refs := update s.refs t (update (s.refs t) b n) }

end State

/-- The atomic steps of the functions, and a reference that is handed to another thread. The head of
a list is the back of the vector of a stack. -/
inductive Move (T β ι : Type*)
  /-- `get_buffer_numa`, and `get_buffer` on the node of the thread: `pop` -/
  | pop (t : T) (cpu : ι)
  /-- `get_buffer_numa`: `buffer_cache[b]++` -/
  | count (t : T)
  | share_host_buffer (t : T) (b : β)
  /-- `release_buffer`, up to the decrement -/
  | release_buffer (t : T) (b : β)
  /-- `release_buffer`: `push` -/
  | push (t : T)
  | pass (t t' : T) (b : β)

/-- `node b` is the NUMA node of the address of a block. -/
def step (node : β → ι) (s : State T β ι) : Move T β ι → Option (State T β ι)
  | .pop t cpu =>
    match s.thread t, s.h_pool_numa cpu with
    | .idle, b :: bs => some ((s.setPool cpu bs).moveTo t (.counting b))
    | _, _ => none
  | .count t =>
    match s.thread t with
    | .counting b =>
      some (((s.setCount b (wrap ((s.buffer_cache b).getD 0 + 1))).setRefs t b
        (s.refs t b + 1)).moveTo t .idle)
    | _ => none
  | .share_host_buffer t b =>
    match s.thread t, s.buffer_cache b with
    | .idle, none => some s
    | .idle, some n => some ((s.setCount b (wrap (n + 1))).setRefs t b (s.refs t b + 1))
    | _, _ => none
  | .release_buffer t b =>
    match s.thread t, s.buffer_cache b with
    | .idle, none => some s
    | .idle, some occ =>
      some (((s.setCount b (wrap (occ - 1))).setRefs t b (s.refs t b - 1)).moveTo t
        (if occ = 1 then .pushing b else .idle))
    | _, _ => none
  | .push t =>
    match s.thread t with
    | .pushing b => some ((s.setPool (node b) (b :: s.h_pool_numa (node b))).moveTo t .idle)
    | _ => none
  | .pass t t' b =>
    if 0 < s.refs t b ∧ t ≠ t' then
      some ((s.setRefs t b (s.refs t b - 1)).setRefs t' b (s.refs t' b + 1))
    else none

end

/-! ## The places of a block -/

/-- The outstanding references to a block. -/
def outstanding [Fintype T] (s : State T β ι) (b : β) : ℕ := ∑ t, s.refs t b

/-- How often a block is in a stack. -/
def inPools [Fintype ι] [DecidableEq β] (s : State T β ι) (b : β) : ℕ :=
  ∑ i, (s.h_pool_numa i).count b

def Pc.carries [DecidableEq β] (b : β) : Pc β → ℕ
  | .idle => 0
  | .counting b' => if b' = b then 1 else 0
  | .pushing b' => if b' = b then 1 else 0

/-- How many threads carry a block between a stack and its count. -/
def carried [Fintype T] [DecidableEq β] (s : State T β ι) (b : β) : ℕ :=
  ∑ t, (s.thread t).carries b

variable {b c : β}

section

variable [Fintype T] {s : State T β ι} {t : T} {i : ι}

theorem refs_le_outstanding : s.refs t b ≤ outstanding s b :=
  single_le_sum (f := fun t => s.refs t b) (fun _ _ => Nat.zero_le _) (mem_univ t)

variable [DecidableEq β]

theorem carries_le_carried : (s.thread t).carries b ≤ carried s b :=
  single_le_sum (f := fun t => (s.thread t).carries b) (fun _ _ => Nat.zero_le _) (mem_univ t)

theorem outstanding_setRefs [DecidableEq T] (n : ℕ) :
    outstanding (s.setRefs t b n) c + (if c = b then s.refs t b else 0) =
      outstanding s c + if c = b then n else 0 := by
  have h := sum_update_add (mem_univ t) s.refs (update (s.refs t) b n) fun _ r => r c
  by_cases hc : c = b
  · subst hc
    simpa [outstanding, State.setRefs] using h
  · simpa [outstanding, State.setRefs, hc] using h

theorem carried_moveTo [DecidableEq T] (pc : Pc β) :
    carried (s.moveTo t pc) c + (s.thread t).carries c = carried s c + pc.carries c :=
  sum_update_add (mem_univ t) s.thread pc fun _ pc => pc.carries c

omit [Fintype T] in
theorem inPools_setPool [Fintype ι] [DecidableEq ι] (bs : List β) :
    inPools (s.setPool i bs) c + (s.h_pool_numa i).count c = inPools s c + bs.count c :=
  sum_update_add (mem_univ i) s.h_pool_numa bs fun _ bs => bs.count c

end

/-! ## The invariant -/

section

variable [Fintype T] [Fintype ι] [DecidableEq β]

structure Inv (s : State T β ι) : Prop where
  counted : ∀ b n, s.buffer_cache b = some n → n = outstanding s b
  small : ∀ b n, s.buffer_cache b = some n → n < 2 ^ 31
  places : ∀ b, s.buffer_cache b ≠ none →
    inPools s b + carried s b + (if outstanding s b = 0 then 0 else 1) = 1
  unknown : ∀ b, s.buffer_cache b = none →
    inPools s b = 0 ∧ carried s b = 0 ∧ outstanding s b = 0

/-- What the callers see to: a block is shared while there is a reference to it and the count can hold one
more, and a thread releases the references that it has. -/
def Owned (s : State T β ι) : Move T β ι → Prop
  | .share_host_buffer _ b =>
    s.buffer_cache b = none ∨ outstanding s b ≠ 0 ∧ outstanding s b + 1 < 2 ^ 31
  | .release_buffer t b => s.buffer_cache b = none ∨ 0 < s.refs t b
  | _ => True

/-- Every known block is in one stack, once, and the others are in none. -/
def Filled (blocks : ι → List β) (known : β → Bool) : Prop :=
  ∀ b, ∑ i, (blocks i).count b = if known b then 1 else 0

theorem inv_init {blocks : ι → List β} {known : β → Bool} (h : Filled blocks known) :
    Inv (init blocks known : State T β ι) := by
  have hout : ∀ b, outstanding (init blocks known : State T β ι) b = 0 := fun b =>
    sum_const_zero
  have hcar : ∀ b, carried (init blocks known : State T β ι) b = 0 := fun b =>
    sum_const_zero
  have hpool : ∀ b, inPools (init blocks known : State T β ι) b = if known b then 1 else 0 := h
  refine ⟨fun b n hb => ?_, fun b n hb => ?_, fun b hb => ?_, fun b hb => ?_⟩
  · simp only [init, ite_none_right_eq_some, some.injEq] at hb
    rw [hout, ← hb.2]
    rfl
  · simp only [init, ite_none_right_eq_some, some.injEq] at hb
    omega
  · have hk : known b = true := by simpa [init] using hb
    rw [hpool, hcar, hout, hk]
    rfl
  · have hk : known b = false := by simpa [init] using hb
    exact ⟨by rw [hpool, hk]; rfl, hcar b, hout b⟩

variable {s s' : State T β ι} {t : T} {n : ℤ}

theorem Inv.known (inv : Inv s) (hb : s.buffer_cache b = some n) :
    n = outstanding s b ∧ inPools s b + carried s b + (if outstanding s b = 0 then 0 else 1) = 1 :=
  ⟨inv.counted b n hb, inv.places b (hb ▸ some_ne_none n)⟩

/-- A block that is carried is in no stack, and there is no reference to it. -/
theorem Inv.of_carried (inv : Inv s) (h : (s.thread t).carries b = 1) :
    s.buffer_cache b = some 0 ∧ inPools s b = 0 ∧ carried s b = 1 ∧ outstanding s b = 0 := by
  have hle : (s.thread t).carries b ≤ carried s b := carries_le_carried
  cases hb : s.buffer_cache b with
  | none =>
    have := (inv.unknown b hb).2.1
    omega
  | some n =>
    obtain ⟨hn, hp⟩ := inv.known hb
    split_ifs at hp with hout
    · rw [hout] at hn
      exact ⟨by rw [hn]; rfl, by omega, by omega, hout⟩
    · omega

/-- Blocks move between the stacks and the threads. -/
theorem Inv.moved (inv : Inv s) (hcache : s'.buffer_cache = s.buffer_cache)
    (hout : ∀ c, outstanding s' c = outstanding s c)
    (hsum : ∀ c, inPools s' c + carried s' c = inPools s c + carried s c) : Inv s' := by
  refine ⟨fun c n hn => ?_, fun c n hn => inv.small c n (hcache ▸ hn), fun c hc => ?_, fun c hc => ?_⟩
  · rw [hout]
    exact inv.counted c n (hcache ▸ hn)
  · rw [hsum, hout]
    exact inv.places c (hcache ▸ hc)
  · obtain ⟨h1, h2, h3⟩ := inv.unknown c (hcache ▸ hc)
    have h := hsum c
    exact ⟨by omega, by omega, (hout c).trans h3⟩

/-- The count of one block changes. -/
theorem Inv.recount (inv : Inv s) (hcache : s'.buffer_cache = update s.buffer_cache b (some n))
    (hother : ∀ c, c ≠ b → outstanding s' c = outstanding s c ∧ inPools s' c = inPools s c ∧
      carried s' c = carried s c) (hn : n = outstanding s' b) (hsmall : n < 2 ^ 31)
    (hplaces : inPools s' b + carried s' b + (if outstanding s' b = 0 then 0 else 1) = 1) :
    Inv s' := by
  have hval : ∀ c, c ≠ b → s'.buffer_cache c = s.buffer_cache c := fun c hc => by
    rw [hcache, update_of_ne hc]
  have hself : s'.buffer_cache b = some n := by rw [hcache, update_self]
  refine ⟨fun c m hm => ?_, fun c m hm => ?_, fun c hc => ?_, fun c hc => ?_⟩
  · by_cases hcb : c = b
    · subst hcb
      cases hself.symm.trans hm
      exact hn
    · rw [(hother c hcb).1]
      exact inv.counted c m (hval c hcb ▸ hm)
  · by_cases hcb : c = b
    · subst hcb
      cases hself.symm.trans hm
      exact hsmall
    · exact inv.small c m (hval c hcb ▸ hm)
  · by_cases hcb : c = b
    · subst hcb
      exact hplaces
    · obtain ⟨h1, h2, h3⟩ := hother c hcb
      rw [h1, h2, h3]
      exact inv.places c (hval c hcb ▸ hc)
  · by_cases hcb : c = b
    · cases hself.symm.trans (hcb ▸ hc)
    · obtain ⟨h1, h2, h3⟩ := hother c hcb
      rw [h1, h2, h3]
      exact inv.unknown c (hval c hcb ▸ hc)

variable [DecidableEq T] [DecidableEq ι]

theorem Inv.pop (inv : Inv s) {cpu : ι} {bs : List β} (ht : s.thread t = .idle)
    (hp : s.h_pool_numa cpu = b :: bs) : Inv ((s.setPool cpu bs).moveTo t (.counting b)) := by
  refine inv.moved rfl (fun _ => rfl) fun c => ?_
  have h1 := inPools_setPool (s := s) (i := cpu) (c := c) bs
  have h2 := carried_moveTo (s := s.setPool cpu bs) (t := t) (c := c) (.counting b)
  rw [show (s.setPool cpu bs).thread t = .idle from ht] at h2
  rw [hp, List.count_cons] at h1
  simp only [beq_iff_eq] at h1
  simp only [Pc.carries] at h2
  have h3 : inPools ((s.setPool cpu bs).moveTo t (.counting b)) c = inPools (s.setPool cpu bs) c := rfl
  have h4 : carried (s.setPool cpu bs) c = carried s c := rfl
  omega

theorem Inv.push (inv : Inv s) (cpu : ι) (ht : s.thread t = .pushing b) :
    Inv ((s.setPool cpu (b :: s.h_pool_numa cpu)).moveTo t .idle) := by
  refine inv.moved rfl (fun _ => rfl) fun c => ?_
  generalize hs' : s.setPool cpu (b :: s.h_pool_numa cpu) = s₁
  have h1 := inPools_setPool (s := s) (i := cpu) (c := c) (b :: s.h_pool_numa cpu)
  have h2 := carried_moveTo (s := s₁) (t := t) (c := c) .idle
  rw [show s₁.thread t = .pushing b from hs' ▸ ht] at h2
  rw [hs', List.count_cons] at h1
  simp only [beq_iff_eq] at h1
  simp only [Pc.carries] at h2
  have h3 : inPools (s₁.moveTo t .idle) c = inPools s₁ c := rfl
  have h4 : carried s₁ c = carried s c := by
    rw [← hs']
    rfl
  omega

omit [DecidableEq ι] in
/-- A thread gets a reference to a block, or drops one, and moves on. -/
theorem Inv.setRefs (inv : Inv s) {m : ℕ} {pc : Pc β}
    (hthread : ∀ c, c ≠ b → (s.thread t).carries c = pc.carries c)
    (hn : n + s.refs t b = outstanding s b + m) (hsmall : n < 2 ^ 31)
    (hplaces : ∀ out, out + s.refs t b = outstanding s b + m → ∀ car,
      car + (s.thread t).carries b = carried s b + pc.carries b →
      inPools s b + car + (if out = 0 then 0 else 1) = 1) :
    Inv (((s.setCount b n).setRefs t b m).moveTo t pc) := by
  have hout : ∀ c, outstanding (((s.setCount b n).setRefs t b m).moveTo t pc) c +
      (if c = b then s.refs t b else 0) = outstanding s c + if c = b then m else 0 := fun c =>
    outstanding_setRefs (s := s.setCount b n) m
  have hcar : ∀ c, carried (((s.setCount b n).setRefs t b m).moveTo t pc) c +
      (s.thread t).carries c = carried s c + pc.carries c := fun c =>
    carried_moveTo (s := (s.setCount b n).setRefs t b m) pc
  have hb := hout b
  simp only [if_true] at hb
  refine inv.recount rfl (fun c hc => ⟨?_, rfl, ?_⟩) ?_ hsmall (hplaces _ hb _ (hcar b))
  · simpa [hc] using hout c
  · have h := hcar c
    rw [hthread c hc] at h
    omega
  · omega

/-- **A block stays in its places.** -/
theorem Inv.step {node : β → ι} {m : Move T β ι} (inv : Inv s) (hown : Owned s m)
    (hs : BufferManager.step node s m = some s') : Inv s' := by
  cases m <;> simp only [BufferManager.step] at hs
  case pop t cpu =>
    split at hs <;> cases hs
    exact inv.pop ‹_› ‹_›
  case count t =>
    split at hs <;> cases hs
    rename_i b ht
    obtain ⟨hb, hpool, hcar, hout⟩ := inv.of_carried (t := t) (b := b) (by simp [ht, Pc.carries])
    have hrefs : s.refs t b ≤ outstanding s b := refs_le_outstanding
    rw [hb, getD_some, wrap_of_lt (by decide) (by decide)]
    refine inv.setRefs (fun c hc => ?_) (by omega) (by decide) fun out h1 car h2 => ?_
    · simp [ht, Pc.carries, Ne.symm hc]
    · simp only [ht, Pc.carries, if_true] at h2
      rw [if_neg (by omega)]
      omega
  case share_host_buffer t b =>
    split at hs
    · cases hs
      exact inv
    · rename_i n ht hb
      cases hs
      obtain ⟨hout, hlt⟩ := hown.resolve_left (hb ▸ some_ne_none n)
      obtain ⟨hn, hp⟩ := inv.known hb
      rw [wrap_of_lt (by omega) (by omega)]
      have hmove : (s.setCount b (n + 1)).setRefs t b (s.refs t b + 1) =
          ((s.setCount b (n + 1)).setRefs t b (s.refs t b + 1)).moveTo t (s.thread t) := by
        simp [State.moveTo, State.setRefs, State.setCount]
      rw [hmove]
      refine inv.setRefs (fun _ _ => rfl) (by omega) (by omega) fun out h1 car h2 => ?_
      rw [if_neg hout] at hp
      rw [if_neg (by omega)]
      omega
    · cases hs
  case release_buffer t b =>
    split at hs
    · cases hs
      exact inv
    · rename_i n ht hb
      cases hs
      have hpos : 0 < s.refs t b := hown.resolve_left (hb ▸ some_ne_none n)
      have hrefs : s.refs t b ≤ outstanding s b := refs_le_outstanding
      obtain ⟨hn, hp⟩ := inv.known hb
      have hsmall := inv.small b n hb
      rw [if_neg (by omega)] at hp
      rw [wrap_of_lt (by omega) (by omega)]
      refine inv.setRefs (fun c hc => ?_) (by omega) (by omega) fun out h1 car h2 => ?_
      · split_ifs <;> simp [ht, Pc.carries, Ne.symm hc]
      · simp only [ht, Pc.carries] at h2
        split_ifs at h2 with hlast
        · -- the last reference: the thread carries the block
          simp only [if_true] at h2
          rw [if_pos (by omega)]
          omega
        · rw [if_neg (by omega)]
          simp only at h2
          omega
    · cases hs
  case push t =>
    split at hs <;> cases hs
    exact inv.push _ ‹_›
  case pass t t' b =>
    split_ifs at hs with hpass
    cases hs
    obtain ⟨hpos, hne⟩ := hpass
    refine inv.moved rfl (fun c => ?_) fun _ => rfl
    have h1 := outstanding_setRefs (s := s) (t := t) (b := b) (c := c) (s.refs t b - 1)
    have h2 := outstanding_setRefs (s := s.setRefs t b (s.refs t b - 1)) (t := t') (b := b) (c := c)
      (s.refs t' b + 1)
    have h3 : (s.setRefs t b (s.refs t b - 1)).refs t' b = s.refs t' b := by
      simp [State.setRefs, update_of_ne (Ne.symm hne)]
    rw [h3] at h2
    split_ifs at h1 h2 with hc <;> omega

end

/-! ## The specification -/

section

variable [Fintype T] [Fintype ι] [DecidableEq β]

/-- What holds for the blocks. A block is carried between the two steps of a `get` or of the last
`release`. -/
structure Sound (s : State T β ι) : Prop where
  /-- the count of a block is the number of outstanding references -/
  counted : ∀ b n, s.buffer_cache b = some n → n = outstanding s b
  /-- a block without references that is not carried is in exactly one stack, once -/
  pooled : ∀ b, s.buffer_cache b = some 0 → carried s b = 0 →
    ∃ i, (s.h_pool_numa i).count b = 1 ∧ ∀ j, j ≠ i → b ∉ s.h_pool_numa j
  /-- any other block is in none -/
  unpooled : ∀ b, s.buffer_cache b ≠ some 0 ∨ carried s b ≠ 0 → ∀ i, b ∉ s.h_pool_numa i
  /-- at most one thread carries a block -/
  alone : ∀ b, carried s b ≤ 1
  /-- a block that is about to be handed out has no references, and its count is zero -/
  handed : ∀ t b, s.thread t = .counting b →
    s.buffer_cache b = some 0 ∧ ∀ t', s.refs t' b = 0
  /-- a block that is about to be released has a positive count -/
  released : ∀ t b, 0 < s.refs t b → ∃ n, s.buffer_cache b = some n ∧ 1 ≤ n

variable {s : State T β ι}

omit [Fintype T] in
theorem inPools_eq_zero_iff {b : β} : inPools s b = 0 ↔ ∀ i, b ∉ s.h_pool_numa i := by
  simp [inPools, sum_eq_zero_iff, List.count_eq_zero]

omit [Fintype T] in
/-- A block that is in the stacks once is in exactly one of them. -/
theorem exists_pool [DecidableEq ι] {b : β} (h : inPools s b = 1) :
    ∃ i, (s.h_pool_numa i).count b = 1 ∧ ∀ j, j ≠ i → b ∉ s.h_pool_numa j := by
  obtain ⟨i, hi⟩ : ∃ i, b ∈ s.h_pool_numa i := by
    by_contra hno
    rw [inPools_eq_zero_iff.2 fun i hi => hno ⟨i, hi⟩] at h
    cases h
  have hsplit := add_sum_erase univ (fun i => (s.h_pool_numa i).count b) (mem_univ i)
  have hpos : 0 < (s.h_pool_numa i).count b := List.count_pos_iff.2 hi
  rw [show ∑ i, (s.h_pool_numa i).count b = 1 from h] at hsplit
  have hrest : ∑ j ∈ univ.erase i, (s.h_pool_numa j).count b = 0 := by omega
  refine ⟨i, by omega, fun j hj => ?_⟩
  exact List.count_eq_zero.1 (sum_eq_zero_iff.1 hrest j (mem_erase.2 ⟨hj, mem_univ j⟩))

theorem Inv.sound [DecidableEq ι] (inv : Inv s) : Sound s := by
  have hzero : ∀ b, s.buffer_cache b = some 0 → outstanding s b = 0 := fun b hb => by
    have := inv.counted b 0 hb
    omega
  refine ⟨inv.counted, fun b hb hcar => exists_pool ?_, fun b hb => inPools_eq_zero_iff.1 ?_,
    fun b => ?_, fun t b ht => ?_, fun t b hpos => ?_⟩
  · have hp := (inv.known hb).2
    rwa [hcar, hzero b hb] at hp
  · cases hc : s.buffer_cache b with
    | none => exact (inv.unknown b hc).1
    | some n =>
      obtain ⟨hn, hp⟩ := inv.known hc
      rw [hc, Ne, some.injEq] at hb
      split_ifs at hp with hout
      · rw [hout] at hn
        omega
      · omega
  · cases hc : s.buffer_cache b with
    | none =>
      rw [(inv.unknown b hc).2.1]
      exact Nat.zero_le 1
    | some n =>
      have := (inv.known hc).2
      omega
  · obtain ⟨hb, -, -, hout⟩ := inv.of_carried (t := t) (b := b) (by simp [ht, Pc.carries])
    refine ⟨hb, fun t' => ?_⟩
    have : s.refs t' b ≤ outstanding s b := refs_le_outstanding
    omega
  · have hle : s.refs t b ≤ outstanding s b := refs_le_outstanding
    cases hc : s.buffer_cache b with
    | none =>
      have := (inv.unknown b hc).2.2
      omega
    | some n =>
      have := inv.counted b n hc
      exact ⟨n, rfl, by omega⟩

/-- **Reference counting.** In every run of any number of threads that release the references they
have, and share blocks that are referenced, by fewer than 2 ^ 31 references, every state reached is
sound. -/
theorem counts_sound [DecidableEq T] [DecidableEq ι] {node : β → ι} {blocks : ι → List β}
    {known : β → Bool} (hfill : Filled blocks known)
    (h : Reach (step node) Owned (init blocks known) s) : Sound s :=
  (h.invariant (inv_init hfill) fun _ _ _ inv hown hs => inv.step hown hs).sound

/-- One block, one stack. -/
def oneBlock : Fin 1 → List (Fin 1) := fun _ => [0]

/-- The block is handed out, shared, and released twice. -/
theorem counts_sound_one_block : ∃ s : State (Fin 2) (Fin 1) (Fin 1), Filled oneBlock (fun _ => true) ∧
    Reach (step fun _ => 0) Owned (init oneBlock fun _ => true) s ∧ s.h_pool_numa 0 = [0] ∧
    s.buffer_cache 0 = some 0 ∧ Sound s := by
  have hfill : Filled oneBlock (fun _ => true) := by
    unfold Filled
    decide
  have h : Reach (step fun _ => 0) Owned
    (init oneBlock fun _ => true : State (Fin 2) (Fin 1) (Fin 1)) _ := .init
  have h := (h.next (Move.pop 0 0) trivial rfl).next (Move.count 0) trivial rfl
  have h := h.next (Move.share_host_buffer 1 0) (.inr (by decide)) rfl
  have h := h.next (Move.release_buffer 0 0) (.inr (by decide)) rfl
  have h := (h.next (Move.release_buffer 1 0) (.inr (by decide)) rfl).next (Move.push 1) trivial rfl
  exact ⟨_, hfill, h, rfl, rfl, counts_sound hfill h⟩

/-- Between the two steps of a `get` the count of the block is zero, and it is in no stack. -/
theorem carried_not_pooled : ∃ s : State (Fin 2) (Fin 1) (Fin 1),
    Reach (step fun _ => 0) Owned (init oneBlock fun _ => true) s ∧ s.buffer_cache 0 = some 0 ∧
    ∀ i, 0 ∉ s.h_pool_numa i := by
  have h : Reach (step fun _ => 0) Owned
    (init oneBlock fun _ => true : State (Fin 2) (Fin 1) (Fin 1)) _ := .init
  have h := h.next (Move.pop 0 0) trivial rfl
  exact ⟨_, h, rfl, by decide⟩

end

end Proteus.BufferManager
