import Mathlib.Algebra.BigOperators.Intervals
import Mathlib.Algebra.Order.BigOperators.Group.Finset
import Mathlib.Tactic.Abel
import Proteus.Machine

/-!
# Device buffers of `buffer_manager`

The free buffers of a GPU are on a stack in its memory. The host keeps some of them in a batch,
`device_buffs_pool`, from which `h_get_buffer` takes and to which `release_buffer` gives. A release that
finds more than `keep_threshold` buffers in the batch flushes: it copies `device_buff_size` of them to the
array `device_buff`, erases them from the batch and has a kernel push them to the stack. The thread
`dev_buff_manager` refills an almost empty batch: a kernel pops buffers from the stack to `device_buff`,
and the thread adds them to the batch.

The batch is protected by a mutex, but both kinds of transfers leave it while their kernels run, and all
of them use the same `device_buff`. Kernels run one after the other, since they are on one stream; the
flush copies its buffers without regard to them. So a flush can overwrite what a refill has popped, or
what another flush has not pushed yet: these buffers are lost, and those of the flush end up in two
places (`handed_out_twice`).

A move is one access to the batch under its mutex, or one slot of `device_buff` that is written or pushed.

* `Safe.step`: buffers are conserved as long as no slot is overwritten that is in use;
* `Safe.not_conserved`: the first such slot loses or doubles a buffer;
* `device_buffers`: both, over all runs.
-/

namespace Proteus.DeviceBuffers

open Finset Function List Multiset Option

/-! ## Model -/

/-- The sizes given to `init`, which asserts that a flush leaves something in the batch, and the buffers
of the device. -/
structure Config (β : Type*) where
  device_buff_size : ℕ
  keep_threshold : ℕ
  size_lt : device_buff_size < keep_threshold
  buffers : List β
  nodup : buffers.Nodup

/-- Where a thread stands in `release_buffer`. -/
inductive Pc
  | idle
  /-- at the test of the loop, with the mutex -/
  | test
  /-- has copied `i` buffers to `device_buff`, with the mutex -/
  | fill (i : ℕ)
  /-- has erased them from the batch -/
  | launch
  /-- its kernel has pushed `i` buffers -/
  | sync (i : ℕ)
  /-- at `lock.lock()` -/
  | relock
  deriving DecidableEq

/-- Where `dev_buff_manager` stands. -/
inductive Manager
  | wait
  | launch
  /-- its kernel has written `i` slots -/
  | sync (i : ℕ)
  /-- at the second critical section -/
  | add
  deriving DecidableEq

/-- The head of `device_buffs_pool` and of the stack `pool` is their back. In `stream` are the kernels that
are not finished: `some t` is the kernel of the flush of `t`, and `none` that of the refill. `held` is
what users have. -/
structure State (T β : Type*) where
  mutex : Option T
  device_buffs_pool : List β
  device_buff : ℕ → Option β
  pool : List β
  stream : List (Option T)
  pc : T → Pc
  manager : Manager
  held : List β

inductive Action (T β : Type*)
  | h_get_buffer
  /-- `release_buffer` of a host thread, up to the loop -/
  | release_buffer (t : T) (b : β)
  | run (t : T)
  | manage
  /-- the first kernel of the stream goes on -/
  | kernel
  /-- `get_buffer` on the device -/
  | get_buffer
  /-- `release_buffer` on the device -/
  | push (b : β)

variable {T β : Type*}

def init (cfg : Config β) : State T β where
  mutex := none
  device_buffs_pool := []
  device_buff _ := none
  pool := cfg.buffers
  stream := []
  pc _ := .idle
  manager := .wait
  held := []

variable {cfg : Config β} {s s' : State T β} {a : Action T β}

section

variable [DecidableEq T] [DecidableEq β]

def runThread (cfg : Config β) (s : State T β) (t : T) : Option (State T β) :=
  match s.pc t with
  | .idle => none
  | .test =>
    if cfg.keep_threshold < s.device_buffs_pool.length then
      some { s with pc := update s.pc t (.fill 0) }
    else some { s with pc := update s.pc t .idle, mutex := none }
  | .fill i =>
    if i < cfg.device_buff_size then
      some { s with
        pc := update s.pc t (.fill (i + 1))
        device_buff := update s.device_buff i s.device_buffs_pool[i]? }
    else
      some { s with
        pc := update s.pc t .launch
        device_buffs_pool := s.device_buffs_pool.drop cfg.device_buff_size
        mutex := none }
  | .launch => some { s with pc := update s.pc t (.sync 0), stream := s.stream ++ [some t] }
  | .sync _ => none
  | .relock =>
    if s.mutex = none then some { s with pc := update s.pc t .test, mutex := some t } else none

/-- The slots in order, as they are added at the back of the batch. -/
def added (cfg : Config β) (s : State T β) : List β :=
  ((List.range cfg.device_buff_size).filterMap s.device_buff).reverse

def runManager (cfg : Config β) (s : State T β) : Option (State T β) :=
  match s.manager with
  | .wait =>
    if s.mutex = none ∧ s.device_buffs_pool.length < cfg.device_buff_size / 4 then
      some { s with manager := .launch }
    else none
  | .launch => some { s with manager := .sync 0, stream := s.stream ++ [none] }
  | .sync _ => none
  | .add =>
    if s.mutex = none then
      some { s with manager := .wait, device_buffs_pool := added cfg s ++ s.device_buffs_pool }
    else none

/-- `release_buffer_host`: the kernel pushes one more slot, or ends. A null pointer is not pushed. -/
def pushKernel (cfg : Config β) (s : State T β) (t : T) (stream : List (Option T)) :
    Option (State T β) :=
  match s.pc t with
  | .sync i =>
    if i < cfg.device_buff_size then
      some { s with
        pc := update s.pc t (.sync (i + 1))
        pool := (s.device_buff i).toList ++ s.pool }
    else some { s with pc := update s.pc t .relock, stream }
  | _ => none

/-- `get_buffer_host`: the kernel writes one more slot, with a null pointer if the stack is empty, or
ends. -/
def getKernel (cfg : Config β) (s : State T β) (stream : List (Option T)) : Option (State T β) :=
  match s.manager with
  | .sync i =>
    if i < cfg.device_buff_size then
      some { s with
        manager := .sync (i + 1)
        device_buff := update s.device_buff i s.pool.head?
        pool := s.pool.tail }
    else some { s with manager := .add, stream }
  | _ => none

def step (cfg : Config β) (s : State T β) : Action T β → Option (State T β)
  | .h_get_buffer =>
    match s.mutex, s.device_buffs_pool with
    | none, b :: bs => some { s with device_buffs_pool := bs, held := b :: s.held }
    | _, _ => none
  | .release_buffer t b =>
    if s.pc t = .idle ∧ s.mutex = none ∧ b ∈ s.held then
      some { s with
        pc := update s.pc t .test
        mutex := some t
        device_buffs_pool := b :: s.device_buffs_pool
        held := s.held.erase b }
    else none
  | .run t => runThread cfg s t
  | .manage => runManager cfg s
  | .kernel =>
    match s.stream with
    | some t :: stream => pushKernel cfg s t stream
    | none :: stream => getKernel cfg s stream
    | [] => none
  | .get_buffer =>
    match s.pool with
    | b :: bs => some { s with pool := bs, held := b :: s.held }
    | [] => none
  | .push b => if b ∈ s.held then some { s with pool := b :: s.pool, held := s.held.erase b } else none

/-! ## What a step does -/

inductive Trans (cfg : Config β) (s : State T β) : Action T β → State T β → Prop
  | h_get_buffer (b : β) (bs : List β) : s.mutex = none → s.device_buffs_pool = b :: bs →
      Trans cfg s .h_get_buffer { s with device_buffs_pool := bs, held := b :: s.held }
  | release_buffer (t : T) (b : β) : s.pc t = .idle → s.mutex = none → b ∈ s.held →
      Trans cfg s (.release_buffer t b)
        { s with
          pc := update s.pc t .test
          mutex := some t
          device_buffs_pool := b :: s.device_buffs_pool
          held := s.held.erase b }
  | overflow (t : T) : s.pc t = .test → cfg.keep_threshold < s.device_buffs_pool.length →
      Trans cfg s (.run t) { s with pc := update s.pc t (.fill 0) }
  | done (t : T) : s.pc t = .test →
      Trans cfg s (.run t) { s with pc := update s.pc t .idle, mutex := none }
  | copy (t : T) (i : ℕ) : s.pc t = .fill i → i < cfg.device_buff_size →
      Trans cfg s (.run t)
        { s with
          pc := update s.pc t (.fill (i + 1))
          device_buff := update s.device_buff i s.device_buffs_pool[i]? }
  | erase (t : T) (i : ℕ) : s.pc t = .fill i → cfg.device_buff_size ≤ i →
      Trans cfg s (.run t)
        { s with
          pc := update s.pc t .launch
          device_buffs_pool := s.device_buffs_pool.drop cfg.device_buff_size
          mutex := none }
  | launch (t : T) : s.pc t = .launch →
      Trans cfg s (.run t)
        { s with pc := update s.pc t (.sync 0), stream := s.stream ++ [some t] }
  | relock (t : T) : s.pc t = .relock → s.mutex = none →
      Trans cfg s (.run t) { s with pc := update s.pc t .test, mutex := some t }
  | wake : s.manager = .wait → s.mutex = none →
      Trans cfg s .manage { s with manager := .launch }
  | launchGet : s.manager = .launch →
      Trans cfg s .manage { s with manager := .sync 0, stream := s.stream ++ [none] }
  | add : s.manager = .add → s.mutex = none →
      Trans cfg s .manage
        { s with manager := .wait, device_buffs_pool := added cfg s ++ s.device_buffs_pool }
  | pushed (t : T) (i : ℕ) : s.pc t = .sync i → i < cfg.device_buff_size →
      Trans cfg s .kernel
        { s with
          pc := update s.pc t (.sync (i + 1))
          pool := (s.device_buff i).toList ++ s.pool }
  | endPush (t : T) (i : ℕ) (stream : List (Option T)) : s.pc t = .sync i →
      cfg.device_buff_size ≤ i →
      Trans cfg s .kernel { s with pc := update s.pc t .relock, stream }
  | got (i : ℕ) (stream : List (Option T)) : s.stream = none :: stream → s.manager = .sync i →
      i < cfg.device_buff_size →
      Trans cfg s .kernel
        { s with
          manager := .sync (i + 1)
          device_buff := update s.device_buff i s.pool.head?
          pool := s.pool.tail }
  | endGet (i : ℕ) (stream : List (Option T)) : s.manager = .sync i → cfg.device_buff_size ≤ i →
      Trans cfg s .kernel { s with manager := .add, stream }
  | get_buffer (b : β) (bs : List β) : s.pool = b :: bs →
      Trans cfg s .get_buffer { s with pool := bs, held := b :: s.held }
  | push (b : β) : b ∈ s.held →
      Trans cfg s (.push b) { s with pool := b :: s.pool, held := s.held.erase b }

theorem trans_of_runThread {t : T} (h : runThread cfg s t = some s') : Trans cfg s (.run t) s' := by
  unfold runThread at h
  split at h
  · cases h
  · next hp =>
    split_ifs at h with hlt <;> cases h
    · exact .overflow t hp hlt
    · exact .done t hp
  · next i hp =>
    split_ifs at h with hi <;> cases h
    · exact .copy t i hp hi
    · exact .erase t i hp (not_lt.1 hi)
  · next hp => cases h; exact .launch t hp
  · cases h
  · next hp =>
    split_ifs at h with hm
    cases h
    exact .relock t hp hm

theorem trans_of_runManager (h : runManager cfg s = some s') : Trans cfg s .manage s' := by
  unfold runManager at h
  split at h
  · next hp =>
    split_ifs at h with hw
    cases h
    exact .wake hp hw.1
  · next hp => cases h; exact .launchGet hp
  · cases h
  · next hp =>
    split_ifs at h with hm
    cases h
    exact .add hp hm

theorem trans_of_kernel (h : step cfg s .kernel = some s') : Trans cfg s .kernel s' := by
  rw [step] at h
  split at h
  · next t stream hs =>
    unfold pushKernel at h
    split at h
    · next i hp =>
      split_ifs at h with hi <;> cases h
      · exact .pushed t i hp hi
      · exact .endPush t i stream hp (not_lt.1 hi)
    · cases h
  · next stream hs =>
    unfold getKernel at h
    split at h
    · next i hp =>
      split_ifs at h with hi <;> cases h
      · exact .got i stream hs hp hi
      · exact .endGet i stream hp (not_lt.1 hi)
    · cases h
  · cases h

theorem trans_of_step (h : step cfg s a = some s') : Trans cfg s a s' := by
  cases a <;> simp only [step] at h
  case h_get_buffer | get_buffer =>
    split at h <;> cases h
    constructor <;> assumption
  case release_buffer t b =>
    split_ifs at h with hp
    cases h
    exact .release_buffer t b hp.1 hp.2.1 hp.2.2
  case run t => exact trans_of_runThread h
  case manage => exact trans_of_runManager h
  case kernel => exact trans_of_kernel h
  case push b =>
    split_ifs at h with hb
    cases h
    exact .push b hb

end

/-! ## The mutex -/

/-- The thread has the mutex. -/
@[simp] def Pc.locked : Pc → Bool
  | .test | .fill _ => true
  | _ => false

/-- What has been copied and not been erased. -/
@[simp] def Pc.copied : Pc → ℕ
  | .fill i => i
  | _ => 0

structure Inv (cfg : Config β) (s : State T β) : Prop where
  mutex : ∀ t, (s.pc t).locked = true ↔ s.mutex = some t
  fill : ∀ t i, s.pc t = .fill i →
    i ≤ cfg.device_buff_size ∧ cfg.device_buff_size ≤ s.device_buffs_pool.length
  got : ∀ i, s.manager = .sync i → i ≤ cfg.device_buff_size

variable {t : T} {i : ℕ} {stream : List (Option T)} {bs : List β} {mutex : Option T}

namespace Inv

theorem init (cfg : Config β) : Inv cfg (init cfg : State T β) where
  mutex t := by simp [DeviceBuffers.init]
  fill := nofun
  got := nofun

variable {device_buff : ℕ → Option β}

section

variable (inv : Inv cfg s)
include inv

theorem not_locked (hm : s.mutex = none) (t : T) : (s.pc t).locked = false := by
  have h := inv.mutex t
  rw [hm] at h
  simpa using h

theorem ne_fill (hm : s.mutex = none) (t : T) (i : ℕ) : s.pc t ≠ .fill i := by
  intro hp
  have h := inv.not_locked hm t
  rw [hp] at h
  cases h

theorem copied_eq_zero [Fintype T] (hm : s.mutex = none) : ∑ t, (s.pc t).copied = 0 := by
  refine Finset.sum_eq_zero fun t _ => ?_
  cases hp : s.pc t with
  | fill i => exact absurd hp (inv.ne_fill hm t i)
  | _ => rfl

theorem copied_eq [Fintype T] (hp : s.pc t = .fill i) : ∑ t, (s.pc t).copied = i := by
  rw [sum_eq_single t (fun t' _ ht' => ?_) (fun h => absurd (mem_univ t) h), hp]
  · rfl
  · cases hp' : s.pc t' with
    | fill j =>
      -- two threads would have the mutex
      have h := (inv.mutex t).1 (by rw [hp]; rfl)
      have h' := (inv.mutex t').1 (by rw [hp']; rfl)
      exact absurd (some.inj (h'.symm.trans h)) ht'
    | _ => rfl

theorem copied_update [Fintype T] [DecidableEq T] (hp : s.pc t = .fill i) (p : Pc) :
    ∑ t', (update s.pc t p t').copied = p.copied := by
  have h := sum_update_add (mem_univ t) s.pc p fun _ p => p.copied
  rw [inv.copied_eq hp, hp, add_comm] at h
  exact Nat.add_left_cancel h

/-- Something else moves, and touches the batch only if no thread has the mutex. -/
theorem frame {manager : Manager} {pool held : List β}
    (hbs : s.mutex ≠ none → bs = s.device_buffs_pool)
    (hgot : ∀ i, manager = .sync i → i ≤ cfg.device_buff_size) :
    Inv cfg { s with device_buffs_pool := bs, device_buff, pool, held, stream, manager } where
  mutex := inv.mutex
  fill t i h := by
    by_cases hm : s.mutex = none
    · exact absurd h (inv.ne_fill hm t i)
    · rw [hbs hm]
      exact inv.fill t i h
  got := hgot

end

variable [DecidableEq T]

/-- A thread moves, and the batch keeps its size while it is being copied. -/
theorem move (inv : Inv cfg s) {p₀ p : Pc} {pool held : List β} (hp₀ : s.pc t = p₀)
    (hm : LockMove t p₀.locked p.locked s.mutex mutex)
    (hp : ∀ i, p = .fill i → i ≤ cfg.device_buff_size ∧ cfg.device_buff_size ≤ bs.length)
    (hbs : ∀ t' ≠ t, s.mutex = some t' → bs = s.device_buffs_pool) : Inv cfg { s with
      pc := update s.pc t p, mutex, device_buffs_pool := bs, device_buff, pool, held,
      stream } where
  mutex t' := by
    by_cases ht : t' = t
    · subst ht
      simpa using hm.own (hp₀ ▸ inv.mutex t')
    · simpa [ht] using hm.other (hp₀ ▸ inv.mutex t) ht (inv.mutex t')
  fill t' i h := by
    by_cases ht : t' = t
    · subst ht
      exact hp i (by simpa using h)
    · simp only [update_of_ne ht] at h
      have hmutex := (inv.mutex t').1 (by rw [h]; rfl)
      rw [hbs t' ht hmutex]
      exact inv.fill t' i h
  got := inv.got

variable [DecidableEq β]

theorem step (inv : Inv cfg s) (hstep : DeviceBuffers.step cfg s a = some s') : Inv cfg s' := by
  cases trans_of_step hstep with
  | h_get_buffer b bs hm hb => exact inv.frame (fun h => absurd hm h) inv.got
  | release_buffer t b hp hm hb =>
    refine inv.move hp ?_ nofun fun t' _ h => nomatch hm.symm.trans h
    rw [hm]
    exact .acquire
  | overflow t hp hlt =>
    refine inv.move hp (.keep _ _) (fun i hi => ?_) fun _ _ _ => rfl
    cases hi
    exact ⟨Nat.zero_le _, (cfg.size_lt.trans hlt).le⟩
  | done t hp => exact inv.move hp (.release _) nofun fun _ _ _ => rfl
  | copy t i hp hi =>
    refine inv.move hp (.keep _ _) (fun j hj => ?_) fun _ _ _ => rfl
    cases hj
    exact ⟨hi, (inv.fill t i hp).2⟩
  | erase t i hp hi =>
    refine inv.move hp (.release _) nofun fun t' ht h => ?_
    rw [(inv.mutex t).1 (by rw [hp]; rfl)] at h
    exact absurd (some.inj h).symm ht
  | launch t hp | pushed t _ hp | endPush t _ _ hp => exact inv.move hp (.keep _ _) nofun fun _ _ _ => rfl
  | relock t hp hm =>
    refine inv.move hp ?_ nofun fun _ _ _ => rfl
    rw [hm]
    exact .acquire
  | wake | endGet => exact inv.frame (fun _ => rfl) nofun
  | launchGet hp => exact inv.frame (fun _ => rfl) fun i hi => by cases hi; exact Nat.zero_le _
  | add hp hm => exact inv.frame (fun h => absurd hm h) nofun
  | got i stream hs hp hi => exact inv.frame (fun _ => rfl) fun j hj => by cases hj; exact hi
  | get_buffer | push => exact inv.frame (fun _ => rfl) inv.got

end Inv

/-! ## Where the buffers are -/

/-- The slots of `device_buff` a thread has in use. -/
@[simp] def Pc.span (size : ℕ) : Pc → ℕ × ℕ
  | .fill i => (0, i)
  | .launch => (0, size)
  | .sync i => (i, size)
  | _ => (0, 0)

@[simp] def Manager.span (size : ℕ) : Manager → ℕ × ℕ
  | .sync i => (0, i)
  | .add => (0, size)
  | _ => (0, 0)

/-- The buffers in these slots. -/
def load (f : ℕ → Option β) (p : ℕ × ℕ) : Multiset β := ∑ j ∈ Finset.Ico p.1 p.2, ((f j).toList : Multiset β)

variable {b : β}

section

variable {f g : ℕ → Option β} {i n : ℕ} {p : ℕ × ℕ}

@[simp] theorem load_self (f : ℕ → Option β) (i : ℕ) : load f (i, i) = 0 := by
  simp [load]

theorem load_succ (f : ℕ → Option β) (i : ℕ) :
    load f (0, i + 1) = load f (0, i) + ((f i).toList : Multiset β) :=
  sum_Ico_succ_top (Nat.zero_le i) _

theorem load_of_le (f : ℕ → Option β) (hi : n ≤ i) : load f (i, n) = 0 := by
  simp [load, hi]

theorem load_congr (h : ∀ j, p.1 ≤ j → j < p.2 → f j = g j) : load f p = load g p := by
  refine Finset.sum_congr rfl fun j hj => ?_
  rw [Finset.mem_Ico] at hj
  rw [h j hj.1 hj.2]

/-- Writing a slot that is not in use. -/
theorem load_update (h : ¬(p.1 ≤ i ∧ i < p.2)) (x : Option β) : load (update f i x) p = load f p := by
  refine load_congr fun j hj hj' => ?_
  have hne : j ≠ i := by
    rintro rfl
    exact h ⟨hj, hj'⟩
  rw [update_of_ne hne]

/-- Writing a slot that is in use. -/
theorem load_update_add (h : p.1 ≤ i ∧ i < p.2) (x : Option β) :
    load (update f i x) p + ((f i).toList : Multiset β) = load f p + (x.toList : Multiset β) :=
  sum_update_add (Finset.mem_Ico.2 h) f x fun _ y => (y.toList : Multiset β)

theorem mem_load (hj : p.1 ≤ i) (hj' : i < p.2) (hf : f i = some b) : b ∈ load f p := by
  have hle : ((f i).toList : Multiset β) ≤ load f p :=
    single_le_sum (fun _ _ => zero_le _) (Finset.mem_Ico.2 ⟨hj, hj'⟩)
  exact mem_of_le hle (by rw [hf]; exact Multiset.mem_singleton_self b)

theorem coe_filterMap_range (f : ℕ → Option β) (n : ℕ) :
    (((List.range n).filterMap f : List β) : Multiset β) = load f (0, n) := by
  induction n with
  | zero => rfl
  | succ n ih =>
    rw [List.range_succ, filterMap_append, ← coe_add, ih, load_succ]
    cases h : f n <;> simp [h]

end

/-- All buffers, where they are: in the batch (what has been copied from it counts as moved), on the
stack, with users, or in slots of `device_buff` that a thread or the manager has in use. -/
def State.total [Fintype T] (cfg : Config β) (s : State T β) : Multiset β :=
  (s.device_buffs_pool.drop (∑ t, (s.pc t).copied) : Multiset β) + s.pool + s.held +
    ∑ t, load s.device_buff ((s.pc t).span cfg.device_buff_size) +
    load s.device_buff (s.manager.span cfg.device_buff_size)

/-- Every buffer is at one place. -/
def Conserved [Fintype T] (cfg : Config β) (s : State T β) : Prop := s.total cfg = cfg.buffers

/-- A slot is in use. -/
def Used (cfg : Config β) (s : State T β) (i : ℕ) : Prop :=
  (∃ t, ((s.pc t).span cfg.device_buff_size).1 ≤ i ∧ i < ((s.pc t).span cfg.device_buff_size).2) ∨
    (s.manager.span cfg.device_buff_size).1 ≤ i ∧ i < (s.manager.span cfg.device_buff_size).2

/-- The slot a step writes, by a flush or by the kernel of a refill, is not in use. -/
def Exclusive (cfg : Config β) (s : State T β) : Action T β → Prop
  | .run t => ∀ i < cfg.device_buff_size, s.pc t = .fill i → ¬Used cfg s i
  | .kernel => ∀ i < cfg.device_buff_size, s.stream.head? = some none → s.manager = .sync i →
      ¬Used cfg s i
  | _ => True

/-- What holds as long as no slot in use is overwritten. -/
structure Safe [Fintype T] (cfg : Config β) (s : State T β) : Prop extends Inv cfg s where
  full : ∀ t i, ((s.pc t).span cfg.device_buff_size).1 ≤ i →
    i < ((s.pc t).span cfg.device_buff_size).2 → (s.device_buff i).isSome = true
  conserved : Conserved cfg s

/-- The slots of thread `t`. -/
abbrev State.slots (cfg : Config β) (s : State T β) (t : T) : ℕ × ℕ := (s.pc t).span cfg.device_buff_size

/-! ## Conservation -/

theorem coe_cons_eq (b : β) (bs : List β) : ((b :: bs : List β) : Multiset β) = {b} + (bs : Multiset β) := by
  rw [← cons_coe, singleton_add]

theorem coe_erase_eq [DecidableEq β] (hb : b ∈ bs) :
    (bs : Multiset β) = {b} + (bs.erase b : Multiset β) := by
  rw [← Multiset.coe_erase, singleton_add, cons_erase (mem_coe.2 hb)]

theorem coe_head?_tail (bs : List β) :
    (bs : Multiset β) = (bs.head?.toList : Multiset β) + (bs.tail : Multiset β) := by
  cases bs with
  | nil => rfl
  | cons b bs => exact coe_cons_eq b bs

open State

variable {s : State T β}

section

/-- Writing a slot that is not in use. -/
theorem load_of_not_used (h : ¬Used cfg s i) (x : Option β) (t : T) :
    load (update s.device_buff i x) (s.slots cfg t) =
      load s.device_buff (s.slots cfg t) :=
  load_update (fun hi => h (.inl ⟨t, hi⟩)) x

variable [Fintype T]

/-- The kernel of a refill pops one buffer. -/
theorem total_got (hp : s.manager = .sync i) (hused : ¬Used cfg s i) : total cfg { s with
      manager := .sync (i + 1)
      device_buff := update s.device_buff i s.pool.head?
      pool := s.pool.tail } = s.total cfg := by
  have hnew : load (update s.device_buff i s.pool.head?) (0, i + 1) =
      load s.device_buff (0, i) + (s.pool.head?.toList : Multiset β) := by
    rw [load_succ, update_self, load_update (by simp)]
  simp only [total, hp, Manager.span, load_of_not_used hused]
  rw [hnew, coe_head?_tail s.pool]
  abel

variable [DecidableEq T] {p₀ p : Pc}

theorem copied_move (hp : s.pc t = p₀) (h : p.copied = p₀.copied) :
    ∑ t', (update s.pc t p t').copied = ∑ t', (s.pc t').copied :=
  sum_update_eq (by rw [hp, h])

theorem load_move (hp : s.pc t = p₀) (h : load s.device_buff (p.span cfg.device_buff_size) =
      load s.device_buff (p₀.span cfg.device_buff_size)) :
    ∑ t', load s.device_buff ((update s.pc t p t').span cfg.device_buff_size) =
      ∑ t', load s.device_buff (s.slots cfg t') :=
  sum_update_eq (g := fun _ (p : Pc) => load s.device_buff (p.span cfg.device_buff_size)) (by rw [hp, h])

/-- A thread moves with the same buffers in use. -/
theorem total_move (hp : s.pc t = p₀)
    (hcopied : p.copied = p₀.copied) (hload : load s.device_buff (p.span cfg.device_buff_size) =
      load s.device_buff (p₀.span cfg.device_buff_size)) :
    total cfg { s with pc := update s.pc t p, mutex, stream } = s.total cfg := by
  simp only [total]
  rw [copied_move hp hcopied, load_move hp hload]

/-- A flush copies one buffer. -/
theorem total_copy (inv : Inv cfg s) (hp : s.pc t = .fill i) (hi : i < cfg.device_buff_size)
    (hused : ¬Used cfg s i) : total cfg { s with
      pc := update s.pc t (.fill (i + 1))
      device_buff := update s.device_buff i s.device_buffs_pool[i]? } = s.total cfg := by
  have hlt : i < s.device_buffs_pool.length := lt_of_lt_of_le hi (inv.fill t i hp).2
  set f := update s.device_buff i s.device_buffs_pool[i]? with hf
  have hload : ∑ t', load f ((update s.pc t (.fill (i + 1)) t').span cfg.device_buff_size) =
      ∑ t', load s.device_buff (s.slots cfg t') +
        ((s.device_buffs_pool[i]?).toList : Multiset β) := by
    have h := sum_update_add (mem_univ t) s.pc (.fill (i + 1)) fun _ p =>
      load f (p.span cfg.device_buff_size)
    simp only [hf, load_of_not_used hused, slots] at h
    rw [hp] at h
    have hnew : load f (0, i + 1) =
        load s.device_buff (0, i) + ((s.device_buffs_pool[i]?).toList : Multiset β) := by
      rw [load_succ, hf, update_self, load_update (by simp)]
    replace h := h.trans (congrArg _ hnew)
    rw [← add_assoc, add_right_comm] at h
    exact add_right_cancel h
  simp only [total]
  rw [inv.copied_update hp, Pc.copied, inv.copied_eq hp, hload, load_update fun hi => hused (.inr hi),
    drop_eq_getElem_cons hlt,
    coe_cons_eq, getElem?_eq_getElem hlt, toList_some, Multiset.coe_singleton]
  abel

/-- The kernel of a flush pushes one buffer. -/
theorem total_pushed (hp : s.pc t = .sync i) (hi : i < cfg.device_buff_size) : total cfg { s with
      pc := update s.pc t (.sync (i + 1))
      pool := (s.device_buff i).toList ++ s.pool } = s.total cfg := by
  have hload : ∑ t', load s.device_buff (s.slots cfg t') =
      ∑ t', load s.device_buff ((update s.pc t (.sync (i + 1)) t').span cfg.device_buff_size) +
        ((s.device_buff i).toList : Multiset β) := by
    have h := sum_update_add (mem_univ t) s.pc (.sync (i + 1)) fun _ p =>
      load s.device_buff (p.span cfg.device_buff_size)
    rw [hp] at h
    have hold : load s.device_buff (i, cfg.device_buff_size) =
        ((s.device_buff i).toList : Multiset β) + load s.device_buff (i + 1, cfg.device_buff_size) :=
      sum_eq_sum_Ico_succ_bot hi _
    replace h := h.symm.trans (congrArg _ hold)
    rw [← add_assoc] at h
    exact add_right_cancel h
  simp only [total]
  rw [copied_move hp (by rfl), hload, ← coe_add]
  abel

end

variable {b : β}

namespace Safe

variable [Fintype T]

theorem init (cfg : Config β) : Safe cfg (init cfg : State T β) where
  toInv := Inv.init cfg
  full t i _ hi := absurd hi (Nat.not_lt_zero i)
  conserved := by simp [Conserved, total, DeviceBuffers.init]

/-- A slot that is not in use is written. -/
theorem full_write (safe : Safe cfg s) (hused : ¬Used cfg s i) (x : Option β) (t : T) (j : ℕ)
    (hj : (s.slots cfg t).1 ≤ j) (hj' : j < (s.slots cfg t).2) :
    (update s.device_buff i x j).isSome = true := by
  have hne : j ≠ i := by
    rintro rfl
    exact hused (.inl ⟨t, hj, hj'⟩)
  rw [update_of_ne hne]
  exact safe.full t j hj hj'

variable [DecidableEq T]

/-- A thread moves and has no more slots in use than before. -/
theorem full_move (safe : Safe cfg s) {p : Pc}
    (hp : ∀ i, (p.span cfg.device_buff_size).1 ≤ i → i < (p.span cfg.device_buff_size).2 →
      (s.slots cfg t).1 ≤ i ∧ i < (s.slots cfg t).2)
    (t' : T) (i : ℕ) (hi : ((update s.pc t p t').span cfg.device_buff_size).1 ≤ i)
    (hi' : i < ((update s.pc t p t').span cfg.device_buff_size).2) :
    (s.device_buff i).isSome = true := by
  by_cases ht : t' = t
  · rw [ht, update_self] at hi hi'
    obtain ⟨h, h'⟩ := hp i hi hi'
    exact safe.full t i h h'
  · rw [update_of_ne ht] at hi hi'
    exact safe.full t' i hi hi'

variable [DecidableEq β] (safe : Safe cfg s) (hok : Exclusive cfg s a)
  (hstep : DeviceBuffers.step cfg s a = some s')
include safe hok hstep

theorem full_step (t : T) (i : ℕ) (hi : ((s'.pc t).span cfg.device_buff_size).1 ≤ i)
    (hi' : i < ((s'.pc t).span cfg.device_buff_size).2) : (s'.device_buff i).isSome = true := by
  revert t i
  cases trans_of_step hstep with
  | release_buffer | overflow | done | relock | endPush => exact safe.full_move (by simp)
  | copy t i hp hi =>
    have hlt : i < s.device_buffs_pool.length := lt_of_lt_of_le hi (safe.fill t i hp).2
    intro t' j hj hj'
    by_cases hji : j = i
    · subst hji
      simp [hlt]
    · -- the slots before, and those of the other threads, were in use
      simp only [update_of_ne hji]
      by_cases ht : t' = t
      · subst ht
        simp only [update_self, Pc.span] at hj'
        exact safe.full t' j (by simp [hp]) (by simp only [hp, Pc.span]; omega)
      · simp only [update_of_ne ht] at hj hj'
        exact safe.full t' j hj hj'
  | erase t i hp hi =>
    exact safe.full_move fun j hj hj' => by simp only [slots, hp, Pc.span] at hj hj' ⊢; omega
  | launch t hp => exact safe.full_move fun j hj hj' => by simpa [slots, hp] using hj'
  | pushed t i hp hi =>
    exact safe.full_move fun j hj hj' => by simp only [slots, hp, Pc.span] at hj hj' ⊢; omega
  | got i stream hs hp hi => exact safe.full_write (hok i hi (by rw [hs]; rfl) hp) _
  | _ => exact safe.full

theorem conserved_step : Conserved cfg s' := by
  have htotal : s.total cfg = cfg.buffers := safe.conserved
  have inv := safe.toInv
  rw [Conserved, ← htotal]
  cases trans_of_step hstep with
  | h_get_buffer b bs hm hb =>
    simp only [total, inv.copied_eq_zero hm, drop_zero, hb, coe_cons_eq]
    abel
  | release_buffer t b hp hm hb =>
    simp only [total]
    rw [copied_move hp (by rfl), inv.copied_eq_zero hm, load_move hp (by rfl), drop_zero, drop_zero,
      coe_cons_eq, coe_erase_eq hb]
    abel
  | overflow t hp | done t hp | launch t hp | relock t hp => exact total_move hp rfl rfl
  | copy t i hp hi => exact total_copy inv hp hi (hok i hi hp)
  | erase t i hp hi =>
    have hsize : i = cfg.device_buff_size := le_antisymm (inv.fill t i hp).1 hi
    simp only [total]
    rw [inv.copied_update hp, inv.copied_eq hp, hsize, load_move hp (by rw [hsize]; rfl)]
    rfl
  | wake hp | launchGet hp => simp [total, hp]
  | add hp hm =>
    have hcopied := inv.copied_eq_zero hm
    simp only [total, hcopied, drop_zero, hp, Manager.span, load_self, added]
    rw [← coe_add, coe_reverse, coe_filterMap_range]
    abel
  | pushed t i hp hi => exact total_pushed hp hi
  | endPush t i stream hp hi =>
    exact total_move hp rfl ((load_self _ 0).trans (load_of_le _ hi).symm)
  | got i stream hs hp hi => exact total_got hp (hok i hi (by rw [hs]; rfl) hp)
  | endGet i stream hp hi =>
    have hsize : i = cfg.device_buff_size := le_antisymm (inv.got i hp) hi
    simp only [total, hp, hsize, Manager.span]
  | get_buffer b bs hb =>
    simp only [total, hb, coe_cons_eq]
    abel
  | push b hb =>
    simp only [total, coe_cons_eq]
    rw [coe_erase_eq hb]
    abel

theorem step : Safe cfg s' :=
  ⟨safe.toInv.step hstep, safe.full_step hok hstep, safe.conserved_step hok hstep⟩

end Safe

/-! ## Overwritten slots -/

namespace Conserved

variable [Fintype T] {t t' : T} (h : Conserved cfg s)
include h

theorem nodup : (s.total cfg).Nodup := by
  rw [h]
  exact coe_nodup.2 cfg.nodup

theorem nodup_loads : (∑ t, load s.device_buff (s.slots cfg t) +
      load s.device_buff (s.manager.span cfg.device_buff_size)).Nodup := by
  have hnodup := h.nodup
  rw [total, add_assoc] at hnodup
  exact (nodup_add.1 hnodup).2.1

/-- No buffer is handed out twice. -/
theorem nodup_held : s.held.Nodup := by
  have hnodup := h.nodup
  rw [total, add_assoc] at hnodup
  exact coe_nodup.1 (nodup_add.1 (nodup_add.1 hnodup).1).2.1

/-- A thread and the manager have different buffers. -/
theorem not_mem_manager (hb : b ∈ load s.device_buff (s.slots cfg t)) :
    b ∉ load s.device_buff (s.manager.span cfg.device_buff_size) := by
  have hdisjoint := (nodup_add.1 h.nodup_loads).2.2
  exact disjoint_left.1 hdisjoint (mem_sum.2 ⟨t, mem_univ t, hb⟩)

/-- Two threads have different buffers. -/
theorem not_mem_thread [DecidableEq T] (hne : t' ≠ t)
    (hb : b ∈ load s.device_buff (s.slots cfg t)) : b ∉ load s.device_buff (s.slots cfg t') := by
  have hnodup := (nodup_add.1 h.nodup_loads).1
  rw [← add_sum_erase _ _ (mem_univ t)] at hnodup
  have hdisjoint := (nodup_add.1 hnodup).2.2
  refine fun hb' => disjoint_left.1 hdisjoint hb (mem_sum.2 ⟨t', ?_, hb'⟩)
  exact mem_erase.2 ⟨hne, mem_univ t'⟩

end Conserved

namespace Safe

variable [Fintype T] [DecidableEq T]

/-- A flush overwrites a slot in use: the new buffer is in two places. -/
theorem not_conserved_copy (safe : Safe cfg s) (hp : s.pc t = .fill i) (hi : i < cfg.device_buff_size)
    (hused : Used cfg s i) : ¬Conserved cfg { s with
      pc := update s.pc t (.fill (i + 1))
      device_buff := update s.device_buff i s.device_buffs_pool[i]? } := by
  intro hc
  have hlt : i < s.device_buffs_pool.length := lt_of_lt_of_le hi (safe.fill t i hp).2
  have hslot : update s.device_buff i s.device_buffs_pool[i]? i = some s.device_buffs_pool[i] := by
    rw [update_self, getElem?_eq_getElem hlt]
  have hmem : s.device_buffs_pool[i] ∈ load (update s.device_buff i s.device_buffs_pool[i]?)
      ((update s.pc t (.fill (i + 1)) t).span cfg.device_buff_size) := by
    rw [update_self]
    exact mem_load (Nat.zero_le i) (Nat.lt_succ_self i) hslot
  rcases hused with ⟨t', hle, hlt'⟩ | ⟨hle, hlt'⟩
  · have hne : t' ≠ t := by
      rintro rfl
      rw [hp] at hlt'
      exact lt_irrefl i hlt'
    refine hc.not_mem_thread hne hmem ?_
    simp only [slots, update_of_ne hne]
    exact mem_load hle hlt' hslot
  · exact hc.not_mem_manager hmem (mem_load hle hlt' hslot)

/-- A slot in use is cleared: its buffer is lost. -/
theorem load_clear_le (hle : (s.slots cfg t).1 ≤ i)
    (hlt : i < (s.slots cfg t).2) (hb : s.device_buff i = some b) :
    ∑ t', load (update s.device_buff i none) (s.slots cfg t') + {b} ≤
      ∑ t', load s.device_buff (s.slots cfg t') := by
  have hclear : ∀ p : ℕ × ℕ, load (update s.device_buff i none) p ≤ load s.device_buff p := by
    intro p
    by_cases h : p.1 ≤ i ∧ i < p.2
    · have hadd := load_update_add (f := s.device_buff) h none
      rw [toList_none, coe_nil, add_zero] at hadd
      rw [← hadd]
      exact le_add_right _ _
    · exact (load_update h none).le
  have hlost := load_update_add (f := s.device_buff) ⟨hle, hlt⟩ none
  rw [hb, toList_none, coe_nil, add_zero, toList_some, Multiset.coe_singleton] at hlost
  rw [← add_sum_erase _ _ (mem_univ t), ← add_sum_erase _ _ (mem_univ t),
    add_right_comm, hlost]
  exact add_le_add_right (Finset.sum_le_sum fun t' _ => hclear _) _

/-- The kernel of a refill overwrites a slot in use: the popped buffer is in two places, or, if there is
none, a buffer is lost. -/
theorem not_conserved_got (safe : Safe cfg s) (hp : s.manager = .sync i) (hused : Used cfg s i) :
    ¬Conserved cfg { s with
      manager := .sync (i + 1)
      device_buff := update s.device_buff i s.pool.head?
      pool := s.pool.tail } := by
  intro hc
  obtain ⟨t, hle, hlt⟩ : ∃ t, (s.slots cfg t).1 ≤ i ∧
      i < (s.slots cfg t).2 := by
    rcases hused with h | ⟨-, hlt⟩
    · exact h
    · rw [hp] at hlt
      exact absurd hlt (lt_irrefl i)
  cases hpool : s.pool with
  | cons b bs =>
    have hslot : update s.device_buff i s.pool.head? i = some b := by
      rw [update_self, hpool]
      rfl
    exact hc.not_mem_manager (mem_load hle hlt hslot)
      (mem_load (Nat.zero_le i) (Nat.lt_succ_self i) hslot)
  | nil =>
    obtain ⟨b, hb⟩ := isSome_iff_exists.1 (safe.full t i hle hlt)
    have hlost := card_le_card (load_clear_le hle hlt hb)
    have hmanager : load (update s.device_buff i none) (0, i + 1) = load s.device_buff (0, i) := by
      rw [load_succ, update_self, load_update (by simp)]
      exact add_zero _
    have hsame := congrArg Multiset.card (hc.trans safe.conserved.symm)
    simp only [total, hpool, hp, Manager.span, head?_nil, tail_nil, hmanager,
      card_add] at hsame
    simp only [slots, card_add, Multiset.card_singleton] at hlost
    omega

/-- The first slot in use that is overwritten breaks conservation. -/
theorem not_conserved [DecidableEq β] (safe : Safe cfg s) (hstep : DeviceBuffers.step cfg s a = some s')
    (hok : ¬Exclusive cfg s a) : ¬Conserved cfg s' := by
  cases a with
  | run t =>
    simp only [Exclusive, not_forall, not_not] at hok
    obtain ⟨i, hi, hp, hused⟩ := hok
    simp only [DeviceBuffers.step, runThread, hp, if_pos hi] at hstep
    cases hstep
    exact safe.not_conserved_copy hp hi hused
  | kernel =>
    simp only [Exclusive, not_forall, not_not] at hok
    obtain ⟨i, hi, hs, hp, hused⟩ := hok
    obtain ⟨stream, hstream⟩ : ∃ stream, s.stream = none :: stream := head?_eq_some_iff.1 hs
    simp only [DeviceBuffers.step, hstream, getKernel, hp, if_pos hi] at hstep
    cases hstep
    exact safe.not_conserved_got hp hused
  | _ => exact absurd trivial hok

end Safe

/-- Buffers are conserved in every run that writes no slot of `device_buff` that is in use, and the first
such slot ends that: a run conserves the buffers exactly if its steps are `Exclusive`. -/
theorem device_buffers {T β : Type*} [Fintype T] [DecidableEq T] [DecidableEq β] (cfg : Config β) :
    (∀ s : State T β, Reach (step cfg) (Exclusive cfg) (init cfg) s → Conserved cfg s) ∧
    ∀ (s s' : State T β) (a : Action T β), Reach (step cfg) (Exclusive cfg) (init cfg) s →
      step cfg s a = some s' → ¬Exclusive cfg s a → ¬Conserved cfg s' := by
  have hsafe : ∀ s : State T β, Reach (step cfg) (Exclusive cfg) (init cfg) s → Safe cfg s :=
    fun s hs => hs.invariant (Safe.init cfg) fun _ _ _ safe hok hstep => safe.step hok hstep
  exact ⟨fun s hs => (hsafe s hs).conserved, fun s s' a hs => (hsafe s hs).not_conserved⟩

/-- Batches of four, of sixteen buffers. -/
def batchesOfFour : Config ℕ := ⟨4, 5, by decide, range 16, by decide⟩

/-- The manager has refilled the batch twice for eight buffers, and its kernel has popped four more. Now
six buffers are released, and the flush overwrites the four. The manager adds the buffers of the flush to
the batch; its next kernel pops them again. -/
def overlap : List (Action Unit ℕ) :=
  let refill : List (Action Unit ℕ) := [.manage, .manage, .kernel, .kernel, .kernel, .kernel, .kernel]
  let get : List (Action Unit ℕ) := replicate 4 .h_get_buffer
  let release : ℕ → List (Action Unit ℕ) := fun b => [.release_buffer () b, .run ()]
  flatten [refill, [.manage], get, refill, [.manage], get, refill, (List.range 6).flatMap release,
    replicate 6 (.run ()), replicate 5 .kernel, [.run (), .run ()],
    [.manage], replicate 6 .h_get_buffer, refill, [.manage], get]

/-- Users have the buffers 2 to 5 twice, and 8 to 11 are lost. -/
theorem handed_out_twice : ∃ s : State Unit ℕ, Reach (step batchesOfFour) Free (init batchesOfFour) s ∧
      s.held = [2, 3, 4, 5, 0, 1, 5, 4, 3, 2, 6, 7] ∧ s.pool = [12, 13, 14, 15] ∧
      ¬Conserved batchesOfFour s := by
  have hrun : (exec (step batchesOfFour) (init batchesOfFour) overlap).map (fun s => (s.held, s.pool)) =
      some ([2, 3, 4, 5, 0, 1, 5, 4, 3, 2, 6, 7], [12, 13, 14, 15]) := by decide +kernel
  obtain ⟨s, hs, heq⟩ := map_eq_some_iff.mp hrun
  obtain ⟨hheld, hpool⟩ := Prod.mk.inj heq
  refine ⟨s, reach_of_exec .init hs, hheld, hpool, fun hc => ?_⟩
  exact absurd (hheld ▸ hc.nodup_held) (by decide)

end Proteus.DeviceBuffers
