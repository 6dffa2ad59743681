import Mathlib.Data.Fintype.Basic
import Mathlib.Data.Nat.ModEq
import Proteus.Machine

/-!
# The ring of `GpuToCpu`

Producers on the GPU hand packets to one catcher thread on the CPU through a ring of `size`
slots with a flag each. A producing group (the active lanes of a warp, or one thread for `GRID`
and `BLOCK`) takes the lock, lane `id` takes slot `(last + id) % size`, waits until its flag is
down, stores its packet and raises the flag; when all lanes have done so, the leader advances
`last` and releases the lock. The catcher tests the flag of `front`; if it is up it reads the
packet, clears the flag and advances `front`, and if it is down it tests `eof`. The host sets
`eof` once all producers have finished.

The catcher's two tests are separate reads. If the last packet is stored and `eof` is set
between them, the catcher ends without the packet (`packet_lost_at_close`); and lanes of a group
that is larger than the ring share slots. In all other runs the hand-over is in order and
complete (`handover`).

History variables: `pushed` is every packet in the order of the slots handed out, `consumed`
what the catcher has consumed, and `base` the number of packets before `last`.
-/

namespace Proteus.GpuToCpu

open Function List Nat

/-! ## Model -/

/-- `gran_t`. -/
inductive Granularity
  | GRID
  | BLOCK
  | THREAD
  deriving DecidableEq, Repr

/-- How many lanes push together. -/
def Granularity.admits : Granularity → ℕ → Bool
  | .THREAD, cnt => 1 ≤ cnt && cnt ≤ 32
  | _, cnt => cnt == 1

/-- Where a lane stands once its group has the lock. -/
inductive Lane (P : Type*)
  /-- Read `last`. -/
  | readLast (p : P)
  /-- Spin on the flag of the slot. -/
  | waitSlot (p : P) (endBase : ℕ)
  /-- Store the packet, once every lane has its slot. -/
  | saveItem (p : P) (endBase : ℕ)
  /-- Raise the flag. -/
  | raiseFlag (p : P) (endBase : ℕ)
  /-- Done, at the barrier. -/
  | done (endBase : ℕ)

inductive Group (P : Type*)
  | idle
  /-- The leader spins on the lock. -/
  | acquireLock (packets : List P)
  | lanes (ls : List (Lane P))
  /-- `last` is advanced; release the lock. -/
  | release

inductive Catcher (P : Type*)
  | testFlag
  | testEof
  | readPacket
  | clearFlag (p : P)
  | ended
  deriving DecidableEq

structure Ring (G P : Type*) where
  last : ℕ
  lock : Bool
  flags : ℕ → Bool
  store : ℕ → P
  eof : Bool
  front : ℕ
  catcher : Catcher P
  group : G → Group P
  pushed : List P
  consumed : List P
  base : ℕ

inductive Action (G P : Type*)
  | push (g : G) (packets : List P)
  | acquire (g : G)
  /-- The next access of lane `id` of a group. -/
  | lane (g : G) (id : ℕ)
  | advance (g : G)
  | release (g : G)
  | catcher
  | close

variable {G P : Type*}

section

variable [DecidableEq G]

/-- `open`: all flags are down; `junk` is in the slots. -/
def init (junk : P) : Ring G P where
  last := 0
  lock := false
  flags _ := false
  store _ := junk
  eof := false
  front := 0
  catcher := .testFlag
  group _ := .idle
  pushed := []
  consumed := []
  base := 0

def Ring.setGroup (s : Ring G P) (g : G) (x : Group P) : Ring G P :=
  { s with group := update s.group g x }

def Lane.hasSlot : Lane P → Bool
  | .saveItem _ _ | .raiseFlag _ _ | .done _ => true
  | _ => false

def Lane.isDone : Lane P → Bool
  | .done _ => true
  | _ => false

def Group.isIdle : Group P → Bool
  | .idle => true
  | _ => false

/-- The next access of lane `id` among the lanes `ls` of group `g`. -/
def laneStep (size : ℕ) (s : Ring G P) (g : G) (ls : List (Lane P)) (id : ℕ) : Option (Ring G P) :=
  match ls[id]? with
  | some (.readLast p) => some (s.setGroup g (.lanes (ls.set id (.waitSlot p s.last))))
  | some (.waitSlot p e) =>
    if s.flags ((e + id) % size) then some s
    else some (s.setGroup g (.lanes (ls.set id (.saveItem p e))))
  | some (.saveItem p e) =>
    if ls.all Lane.hasSlot then
      some { s.setGroup g (.lanes (ls.set id (.raiseFlag p e))) with
        store := update s.store ((e + id) % size) p }
    else none
  | some (.raiseFlag _ e) =>
    some { s.setGroup g (.lanes (ls.set id (.done e))) with
      flags := update s.flags ((e + id) % size) true }
  | some (.done _) => none
  | none => none

/-- The leader's end: advance `last` when all lanes are done. -/
def advanceStep (size : ℕ) (s : Ring G P) (g : G) : Option (Ring G P) :=
  match s.group g with
  | .lanes ls =>
    match ls[0]? with
    | some (Lane.done e) =>
      if ls.all Lane.isDone then
        some { s.setGroup g .release with
          last := (e + ls.length) % size, base := s.base + ls.length }
      else none
    | _ => none
  | _ => none

/-- One access of the catcher. -/
def catchStep (size : ℕ) (s : Ring G P) : Option (Ring G P) :=
  match s.catcher with
  | .testFlag =>
    if s.flags s.front then some { s with catcher := .readPacket }
    else some { s with catcher := .testEof }
  | .testEof =>
    if s.eof then some { s with catcher := .ended } else some { s with catcher := .testFlag }
  | .readPacket => some { s with catcher := .clearFlag (s.store s.front) }
  | .clearFlag p =>
    some { s with
      flags := update s.flags s.front false
      front := (s.front + 1) % size
      consumed := s.consumed ++ [p]
      catcher := .testFlag }
  | .ended => none

def step [Fintype G] (gran : Granularity) (size : ℕ) (s : Ring G P) : Action G P → Option (Ring G P)
  | .push g packets =>
    match s.group g with
    | .idle =>
      if gran.admits packets.length && !s.eof then some (s.setGroup g (.acquireLock packets))
      else none
    | _ => none
  | .acquire g =>
    match s.group g with
    | .acquireLock packets =>
      if s.lock then some s
      else some { s.setGroup g (.lanes (packets.map .readLast)) with
        lock := true, pushed := s.pushed ++ packets }
    | _ => none
  | .lane g id =>
    match s.group g with
    | .lanes ls => laneStep size s g ls id
    | _ => none
  | .advance g => advanceStep size s g
  | .release g =>
    match s.group g with
    | .release => some { s.setGroup g .idle with lock := false }
    | _ => none
  | .catcher => catchStep size s
  | .close =>
    if s.eof = false ∧ ∀ g, (s.group g).isIdle then some { s with eof := true } else none

end

/-- The condition on a run: no group is larger than the ring, and `eof` is not set while the
catcher stands between its two tests and the flag it has tested is up again. -/
def Timely (size : ℕ) (s : Ring G P) : Action G P → Prop
  | .push _ packets => packets.length ≤ size
  | .close => ¬ (s.catcher = .testEof ∧ s.flags s.front = true)
  | _ => True

/-! ## One step -/

variable {size : ℕ} {s s' : Ring G P} {a : Action G P} {ls : List (Lane P)} {packets : List P}

section

variable [DecidableEq G] {gran : Granularity}

/-- What a step can do. -/
inductive Trans (size : ℕ) (s : Ring G P) : Action G P → Ring G P → Prop
  | stay (a : Action G P) : Trans size s a s
  | push (g : G) (packets : List P) (hg : s.group g = .idle) (hne : packets ≠ [])
      (heof : s.eof = false) : Trans size s (.push g packets) (s.setGroup g (.acquireLock packets))
  | acquire (g : G) (packets : List P) (hg : s.group g = .acquireLock packets)
      (hlock : s.lock = false) :
      Trans size s (.acquire g) { s.setGroup g (.lanes (packets.map .readLast)) with
        lock := true, pushed := s.pushed ++ packets }
  | readLast (g : G) (ls : List (Lane P)) (i : ℕ) (p : P) (hg : s.group g = .lanes ls)
      (hl : ls[i]? = some (.readLast p)) :
      Trans size s (.lane g i) (s.setGroup g (.lanes (ls.set i (.waitSlot p s.last))))
  | getSlot (g : G) (ls : List (Lane P)) (i : ℕ) (p : P) (e : ℕ) (hg : s.group g = .lanes ls)
      (hl : ls[i]? = some (.waitSlot p e)) (hflag : s.flags ((e + i) % size) = false) :
      Trans size s (.lane g i) (s.setGroup g (.lanes (ls.set i (.saveItem p e))))
  | saveItem (g : G) (ls : List (Lane P)) (i : ℕ) (p : P) (e : ℕ) (hg : s.group g = .lanes ls)
      (hl : ls[i]? = some (.saveItem p e)) :
      Trans size s (.lane g i) { s.setGroup g (.lanes (ls.set i (.raiseFlag p e))) with
        store := update s.store ((e + i) % size) p }
  | raiseFlag (g : G) (ls : List (Lane P)) (i : ℕ) (p : P) (e : ℕ) (hg : s.group g = .lanes ls)
      (hl : ls[i]? = some (.raiseFlag p e)) :
      Trans size s (.lane g i) { s.setGroup g (.lanes (ls.set i (.done e))) with
        flags := update s.flags ((e + i) % size) true }
  | advance (g : G) (ls : List (Lane P)) (e : ℕ) (hg : s.group g = .lanes ls)
      (hl : ls[0]? = some (.done e)) (hdone : ls.all Lane.isDone = true) :
      Trans size s (.advance g) { s.setGroup g .release with
        last := (e + ls.length) % size, base := s.base + ls.length }
  | release (g : G) (hg : s.group g = .release) :
      Trans size s (.release g) { s.setGroup g .idle with lock := false }
  | flagUp (hc : s.catcher = .testFlag) (hflag : s.flags s.front = true) :
      Trans size s .catcher { s with catcher := .readPacket }
  | flagDown (hc : s.catcher = .testFlag) (hflag : s.flags s.front = false) :
      Trans size s .catcher { s with catcher := .testEof }
  | isEof (hc : s.catcher = .testEof) (heof : s.eof = true) :
      Trans size s .catcher { s with catcher := .ended }
  | notEof (hc : s.catcher = .testEof) : Trans size s .catcher { s with catcher := .testFlag }
  | readPacket (hc : s.catcher = .readPacket) :
      Trans size s .catcher { s with catcher := .clearFlag (s.store s.front) }
  | clearFlag (p : P) (hc : s.catcher = .clearFlag p) :
      Trans size s .catcher { s with
        flags := update s.flags s.front false
        front := (s.front + 1) % size
        consumed := s.consumed ++ [p]
        catcher := .testFlag }
  | close (hidle : ∀ g, s.group g = .idle) : Trans size s .close { s with eof := true }

theorem trans_of_laneStep {g : G} {i : ℕ} (hg : s.group g = .lanes ls)
    (h : laneStep size s g ls i = some s') : Trans size s (.lane g i) s' := by
  unfold laneStep at h
  split at h
  case h_1 | h_4 =>
    cases h
    constructor <;> assumption
  case h_2 p e hl =>
    split_ifs at h with hflag <;> cases h
    · exact .stay _
    · exact .getSlot g ls i p e hg hl (by simpa using hflag)
  case h_3 p e hl =>
    split_ifs at h
    cases h
    exact .saveItem g ls i p e hg hl
  case h_5 | h_6 => cases h

theorem trans_of_catchStep (h : catchStep size s = some s') : Trans size s .catcher s' := by
  unfold catchStep at h
  split at h
  case h_1 hc =>
    split_ifs at h with hflag <;> cases h
    · exact .flagUp hc hflag
    · exact .flagDown hc (by simpa using hflag)
  case h_2 hc =>
    split_ifs at h with heof <;> cases h
    · exact .isEof hc heof
    · exact .notEof hc
  case h_3 | h_4 =>
    cases h
    constructor
    assumption
  case h_5 => cases h

theorem ne_nil_of_admits (h : gran.admits packets.length = true) : packets ≠ [] := by
  rintro rfl
  cases gran <;> simp [Granularity.admits] at h

theorem Group.eq_idle_of_isIdle {x : Group P} (h : x.isIdle = true) : x = .idle := by
  cases x <;> simp [Group.isIdle] at h ⊢

theorem trans_of_step [Fintype G] (h : step gran size s a = some s') : Trans size s a s' := by
  cases a <;> simp only [step] at h
  case push g packets =>
    split at h <;> try cases h
    case h_1 hg =>
      split_ifs at h with hadm
      cases h
      rw [Bool.and_eq_true] at hadm
      exact .push g packets hg (ne_nil_of_admits hadm.1) (by simpa using hadm.2)
  case acquire g =>
    split at h <;> try cases h
    case h_1 packets hg =>
      split_ifs at h with hlock <;> cases h
      · exact .stay _
      · exact .acquire g packets hg (by simpa using hlock)
  case lane g i =>
    split at h <;> try cases h
    case h_1 ls hg => exact trans_of_laneStep hg h
  case advance g =>
    unfold advanceStep at h
    split at h <;> try cases h
    case h_1 ls hg =>
      split at h <;> try cases h
      case h_1 e hl =>
        split_ifs at h with hdone
        cases h
        exact .advance g ls e hg hl hdone
  case release g =>
    split at h <;> cases h
    exact .release g (by assumption)
  case catcher => exact trans_of_catchStep h
  case close =>
    split_ifs at h with hclose
    cases h
    exact .close fun g => Group.eq_idle_of_isIdle (hclose.2 g)

end

/-! ## The invariant -/

/-- The group holds the lock. -/
def Group.holds : Group P → Bool
  | .lanes _ | .release => true
  | _ => false

/-- The flag of packet `k` has been raised. -/
def Ring.Raised (s : Ring G P) (k : ℕ) : Prop :=
  k < s.base ∨ ∃ g ls e, s.group g = .lanes ls ∧ s.base ≤ k ∧ ls[k - s.base]? = some (.done e)

/-- What a lane knows of its packet, number `k`, and of its slot. -/
def LaneOk (size : ℕ) (s : Ring G P) (k : ℕ) : Lane P → Prop
  | .readLast p => s.pushed[k]? = some p
  | .waitSlot p e => s.pushed[k]? = some p ∧ e = s.base % size
  | .saveItem p e => s.pushed[k]? = some p ∧ e = s.base % size ∧ s.flags (k % size) = false
  | .raiseFlag p e => s.pushed[k]? = some p ∧ e = s.base % size ∧ s.flags (k % size) = false ∧
      s.store (k % size) = p
  | .done e => e = s.base % size

/-- The producers: one group at a time has the lock and the packets from `base` on. -/
structure Producers (size : ℕ) (s : Ring G P) : Prop where
  last_eq : s.last = s.base % size
  lock_of_holds : ∀ g, (s.group g).holds = true → s.lock = true
  holder_unique : ∀ g g', (s.group g).holds = true → (s.group g').holds = true → g = g'
  acquire_length : ∀ g packets, s.group g = .acquireLock packets →
    packets ≠ [] ∧ packets.length ≤ size
  pushed_length : ∀ g ls, s.group g = .lanes ls → s.pushed.length = s.base + ls.length ∧
    0 < ls.length ∧ ls.length ≤ size
  pushed_length_idle : (∀ g ls, s.group g ≠ .lanes ls) → s.pushed.length = s.base
  laneOk : ∀ g ls i l, s.group g = .lanes ls → ls[i]? = some l → LaneOk size s (s.base + i) l
  idle_of_eof : s.eof = true → ∀ g, s.group g = .idle

/-- The slots between the catcher and the producers. -/
structure Slots (size : ℕ) (s : Ring G P) : Prop where
  front_eq : s.front = s.consumed.length % size
  flags_iff : ∀ i, s.flags i = true ↔ ∃ k, s.consumed.length ≤ k ∧ s.Raised k ∧ k % size = i
  raised_lt : ∀ k, s.Raised k → k < s.consumed.length + size
  raised_value : ∀ k, s.consumed.length ≤ k → s.Raised k →
    s.pushed[k]? = some (s.store (k % size))
  consumed_raised : ∀ k < s.consumed.length, s.Raised k
  consumed_eq : ∀ k < s.consumed.length, s.consumed[k]? = s.pushed[k]?
  reading : s.catcher = .readPacket → s.flags s.front = true
  clearing : ∀ p, s.catcher = .clearFlag p → s.flags s.front = true ∧ p = s.store s.front
  eof_tested : s.catcher = .testEof → s.eof = true → s.flags s.front = false
  ended : s.catcher = .ended → s.eof = true ∧ s.flags s.front = false

theorem producers_init (size : ℕ) (junk : P) : Producers size (init junk : Ring G P) := by
  constructor <;> simp [init, Group.holds]

theorem slots_init (size : ℕ) (junk : P) : Slots size (init junk : Ring G P) := by
  constructor <;> simp [init, Ring.Raised]

variable {l : Lane P}

section

variable {g : G} {flags : ℕ → Bool}

/-- Only one group is at work. -/
theorem Producers.alone (h : Producers size s) (hg : (s.group g).holds = true) (g' : G) (hne : g' ≠ g) :
    (s.group g').holds = false :=
  Bool.eq_false_iff.2 fun hg' => hne (h.holder_unique g' g hg' hg)

theorem Producers.not_eof (h : Producers size s) (hg : s.group g ≠ .idle) : s.eof ≠ true :=
  fun he => hg (h.idle_of_eof he g)

theorem LaneOk.mono {k : ℕ} (h : LaneOk size s k l)
    (hflags : ∀ i, s.flags i = false → flags i = false) : LaneOk size { s with flags := flags } k l := by
  cases l with
  | saveItem p e => exact ⟨h.1, h.2.1, hflags _ h.2.2⟩
  | raiseFlag p e => exact ⟨h.1, h.2.1, hflags _ h.2.2.1, h.2.2.2⟩
  | readLast | waitSlot | done => exact h

/-- A step of the catcher clears flags at most. -/
theorem Producers.catcher (h : Producers size s)
    (hflags : ∀ i, s.flags i = false → flags i = false) (front : ℕ) (consumed : List P)
    (catcher : Catcher P) : Producers size { s with
      flags := flags, front := front, consumed := consumed, catcher := catcher } :=
  { h with laneOk := fun g ls i l hg hl => (h.laneOk g ls i l hg hl).mono hflags }

/-- Numbers less than `size` apart are in different slots. -/
theorem mod_ne_of_lt {x y : ℕ} (hlt : x < y) (hw : y < x + size) : x % size ≠ y % size := by
  intro hmod
  have := le_of_dvd (by omega) ((modEq_iff_dvd' hlt.le).1 hmod)
  omega

/-- The slots of a group that fits into the ring are different. -/
theorem slot_ne {b i j : ℕ} (hi : i < size) (hj : j < size) (hne : j ≠ i) :
    (b + j) % size ≠ (b + i) % size := by
  rcases lt_or_gt_of_ne hne with hlt | hgt
  · exact mod_ne_of_lt (by omega) (by omega)
  · exact (mod_ne_of_lt (by omega) (by omega)).symm

variable [DecidableEq G]

@[simp] theorem setGroup_self (s : Ring G P) (g : G) (x : Group P) : (s.setGroup g x).group g = x := by
  simp [Ring.setGroup]

variable {g' : G}

theorem setGroup_of_ne (hne : g' ≠ g) (s : Ring G P) (x : Group P) :
    (s.setGroup g x).group g' = s.group g' := by
  simp [Ring.setGroup, hne]

variable {x : Group P}

/-- The lanes stay when a group without lanes moves. -/
theorem setGroup_lanes (hg : ∀ ls, s.group g ≠ .lanes ls) (hx : ∀ ls, x ≠ .lanes ls) (g' : G)
    (ls : List (Lane P)) : (s.setGroup g x).group g' = .lanes ls ↔ s.group g' = .lanes ls := by
  by_cases hgg : g' = g
  · rw [hgg, setGroup_self]
    exact iff_of_false (hx ls) (hg ls)
  · rw [setGroup_of_ne hgg]

theorem holds_setGroup (hx : x.holds = (s.group g).holds) (g' : G) :
    ((s.setGroup g x).group g').holds = (s.group g').holds := by
  by_cases hgg : g' = g
  · rw [hgg, setGroup_self, hx]
  · rw [setGroup_of_ne hgg]

/-- A group gets to work, or goes on, while no other is at work. -/
theorem holder_setGroup (hother : ∀ g' ≠ g, (s.group g').holds = false)
    (hg' : ((s.setGroup g x).group g').holds = true) : g' = g := by
  by_contra hne
  rw [setGroup_of_ne hne, hother g' hne] at hg'
  cases hg'

variable {ls : List (Lane P)}

theorem lanes_setGroup (hother : ∀ g' ≠ g, (s.group g').holds = false)
    (hg' : (s.setGroup g x).group g' = .lanes ls) : x = .lanes ls := by
  rcases update_cases hg' with ⟨-, heq⟩ | ⟨hne, hold⟩
  · exact heq
  · exact absurd (holder_setGroup hother (by rw [hg']; rfl)) hne

variable (h : Producers size s) {packets : List P}
include h

/-- A group that moves on does not wait for the lock with other packets. -/
theorem Producers.acquire_length_setGroup
    (hx : ∀ packets, x ≠ .acquireLock packets) (g' : G) (packets : List P)
    (hg' : (s.setGroup g x).group g' = .acquireLock packets) : packets ≠ [] ∧ packets.length ≤ size := by
  by_cases hgg : g' = g
  · rw [hgg, setGroup_self] at hg'
    exact absurd hg' (hx packets)
  · exact h.acquire_length g' packets (setGroup_of_ne hgg s x ▸ hg')

theorem Producers.push (hg : s.group g = .idle)
    (hne : packets ≠ []) (heof : s.eof = false) (hlen : packets.length ≤ size) :
    Producers size (s.setGroup g (.acquireLock packets)) := by
  have hlanes := setGroup_lanes (x := .acquireLock packets) (s := s) (g := g) (by simp [hg]) nofun
  have hholds : ∀ g', ((s.setGroup g (.acquireLock packets)).group g').holds =
      (s.group g').holds := holds_setGroup (by rw [hg]; rfl)
  exact {
    last_eq := h.last_eq
    lock_of_holds := fun g' hg' => h.lock_of_holds g' (hholds g' ▸ hg')
    holder_unique := fun g₁ g₂ h₁ h₂ => h.holder_unique g₁ g₂ (hholds g₁ ▸ h₁) (hholds g₂ ▸ h₂)
    acquire_length := by
      intro g' packets' hg'
      by_cases hgg : g' = g
      · rw [hgg, setGroup_self] at hg'
        cases hg'
        exact ⟨hne, hlen⟩
      · exact h.acquire_length g' packets' (setGroup_of_ne hgg s _ ▸ hg')
    pushed_length := fun g' ls hg' => h.pushed_length g' ls ((hlanes g' ls).1 hg')
    pushed_length_idle := fun hno => h.pushed_length_idle fun g' ls hg' =>
      hno g' ls ((hlanes g' ls).2 hg')
    laneOk := fun g' ls i l hg' => h.laneOk g' ls i l ((hlanes g' ls).1 hg')
    idle_of_eof := fun he => absurd (heof.symm.trans he) Bool.false_ne_true }

theorem Producers.acquire (hg : s.group g = .acquireLock packets) (hlock : s.lock = false) :
    Producers size { s.setGroup g (.lanes (packets.map .readLast)) with
      lock := true, pushed := s.pushed ++ packets } := by
  -- The lock is free, so no other group is at work and `base` is the end of `pushed`.
  have hfree : ∀ g', (s.group g').holds = false := by
    intro g'
    by_contra hholds
    rw [h.lock_of_holds g' (by simpa using hholds)] at hlock
    cases hlock
  have hbase : s.pushed.length = s.base := h.pushed_length_idle fun g' ls hg' => by
    have := hfree g'
    simp [hg', Group.holds] at this
  have hother : ∀ g' ≠ g, (s.group g').holds = false := fun g' _ => hfree g'
  obtain ⟨hne, hlen⟩ := h.acquire_length g packets hg
  exact {
    last_eq := h.last_eq
    lock_of_holds := fun _ _ => rfl
    holder_unique := fun _ _ h₁ h₂ =>
      (holder_setGroup hother h₁).trans (holder_setGroup hother h₂).symm
    acquire_length := h.acquire_length_setGroup nofun
    pushed_length := by
      intro g' ls hg'
      cases lanes_setGroup hother hg'
      have := length_pos_of_ne_nil hne
      rw [length_append, length_map, hbase]
      exact ⟨rfl, this, hlen⟩
    pushed_length_idle := fun hno => absurd (setGroup_self s g _) (hno g _)
    laneOk := by
      intro g' ls i l hg' hl
      cases lanes_setGroup hother hg'
      rw [getElem?_map, Option.map_eq_some_iff] at hl
      obtain ⟨p, hp, rfl⟩ := hl
      show (s.pushed ++ packets)[s.base + i]? = some p
      rw [← hbase, getElem?_append_right (by omega), Nat.add_sub_cancel_left, hp]
    idle_of_eof := fun he => absurd he (h.not_eof (by rw [hg]; nofun)) }

/-- A lane moves, and may write its slot. -/
theorem Producers.setLane {i : ℕ} {l' : Lane P}
    (hg : s.group g = .lanes ls) (hl : ls[i]? = some l) (flags : ℕ → Bool) (store : ℕ → P)
    (hself : LaneOk size { s with flags := flags, store := store } (s.base + i) l')
    (hother : ∀ j l, j ≠ i → ls[j]? = some l → LaneOk size s (s.base + j) l →
      LaneOk size { s with flags := flags, store := store } (s.base + j) l) :
    Producers size { s.setGroup g (.lanes (ls.set i l')) with flags := flags, store := store } := by
  have hholds : (s.group g).holds = true := by rw [hg]; rfl
  have halone := h.alone hholds
  exact {
    last_eq := h.last_eq
    lock_of_holds := fun _ _ => h.lock_of_holds g hholds
    holder_unique := fun _ _ h₁ h₂ =>
      (holder_setGroup halone h₁).trans (holder_setGroup halone h₂).symm
    acquire_length := h.acquire_length_setGroup nofun
    pushed_length := by
      intro g' ls' hg'
      cases lanes_setGroup halone hg'
      rw [length_set]
      exact h.pushed_length g ls hg
    pushed_length_idle := fun hno => absurd (setGroup_self s g _) (hno g _)
    laneOk := by
      intro g' ls' j l'' hg' hl''
      cases lanes_setGroup halone hg'
      by_cases hj : j = i
      · have hi : i < ls.length := (List.getElem?_eq_some_iff.1 hl).1
        rw [hj, getElem?_set_self hi] at hl''
        cases hl''
        exact hj ▸ hself
      · rw [getElem?_set_ne (Ne.symm hj)] at hl''
        exact hother j l'' hj hl'' (h.laneOk g ls j l'' hg hl'')
    idle_of_eof := fun he => absurd he (h.not_eof (by rw [hg]; nofun)) }

theorem Producers.advance {e : ℕ} (hg : s.group g = .lanes ls) (hl : ls[0]? = some (.done e)) :
    Producers size { s.setGroup g .release with
      last := (e + ls.length) % size, base := s.base + ls.length } := by
  have hholds : (s.group g).holds = true := by rw [hg]; rfl
  have hother := h.alone hholds
  have he : e = s.base % size := h.laneOk g ls 0 _ hg hl
  exact {
    last_eq := by
      rw [he, mod_add_mod]
    lock_of_holds := fun _ _ => h.lock_of_holds g hholds
    holder_unique := fun _ _ h₁ h₂ =>
      (holder_setGroup hother h₁).trans (holder_setGroup hother h₂).symm
    acquire_length := h.acquire_length_setGroup nofun
    pushed_length := fun _ _ hg' => nomatch lanes_setGroup hother hg'
    pushed_length_idle := fun _ => (h.pushed_length g ls hg).1
    laneOk := fun _ _ _ _ hg' => nomatch lanes_setGroup hother hg'
    idle_of_eof := fun he => absurd he (h.not_eof (by rw [hg]; nofun)) }

theorem Producers.release (hg : s.group g = .release) :
    Producers size { s.setGroup g .idle with lock := false } := by
  have hother := h.alone (by rw [hg]; rfl)
  have hnone : ∀ g', ¬((s.setGroup g .idle).group g').holds = true := fun g' hg' => by
    rw [holder_setGroup hother hg', setGroup_self] at hg'
    cases hg'
  exact {
    last_eq := h.last_eq
    lock_of_holds := fun g' hg' => absurd hg' (hnone g')
    holder_unique := fun g' _ hg' => absurd hg' (hnone g')
    acquire_length := h.acquire_length_setGroup nofun
    pushed_length := fun _ _ hg' => nomatch lanes_setGroup hother hg'
    pushed_length_idle := fun _ => h.pushed_length_idle fun g' ls hg' => by
      by_cases hgg : g' = g
      · cases hg.symm.trans (hgg ▸ hg')
      · cases hg' ▸ hother g' hgg
    laneOk := fun _ _ _ _ hg' => nomatch lanes_setGroup hother hg'
    idle_of_eof := fun he => absurd he (h.not_eof (by rw [hg]; nofun)) }

omit [DecidableEq G] in
/-- Two lanes of a group have different slots. -/
theorem Producers.lane_ne {i j : ℕ} {l' : Lane P} (hg : s.group g = .lanes ls)
    (hl : ls[i]? = some l) (hl' : ls[j]? = some l') (hne : j ≠ i) :
    (s.base + j) % size ≠ (s.base + i) % size := by
  have hlen := (h.pushed_length g ls hg).2.2
  exact slot_ne ((List.getElem?_eq_some_iff.1 hl).1.trans_le hlen)
    ((List.getElem?_eq_some_iff.1 hl').1.trans_le hlen) hne

theorem Producers.step (hok : Timely size s a) (hs : Trans size s a s') : Producers size s' := by
  cases hs with
  | stay => exact h
  | push g packets hg hne heof => exact h.push hg hne heof hok
  | acquire g packets hg hlock => exact h.acquire hg hlock
  | readLast g ls i p hg hl =>
    exact h.setLane hg hl s.flags s.store ⟨h.laneOk g ls i _ hg hl, h.last_eq⟩
      fun _ _ _ _ hok => hok
  | getSlot g ls i p e hg hl hflag =>
    obtain ⟨hp, he⟩ := h.laneOk g ls i _ hg hl
    rw [he, mod_add_mod] at hflag
    exact h.setLane hg hl s.flags s.store ⟨hp, he, hflag⟩ fun _ _ _ _ hok => hok
  | saveItem g ls i p e hg hl =>
    obtain ⟨hp, he, hflag⟩ := h.laneOk g ls i _ hg hl
    rw [he]
    refine h.setLane hg hl s.flags _ ⟨hp, rfl, hflag, by simp⟩ ?_
    intro j l hj hlj hlane
    cases l with
    | raiseFlag q e' =>
      refine ⟨hlane.1, hlane.2.1, hlane.2.2.1, ?_⟩
      simpa [update_apply, h.lane_ne hg hl hlj hj] using hlane.2.2.2
    | _ => exact hlane
  | raiseFlag g ls i p e hg hl =>
    obtain ⟨hp, he, hflag, hstore⟩ := h.laneOk g ls i _ hg hl
    rw [he]
    refine h.setLane hg hl _ s.store rfl ?_
    intro j l hj hlj hlane
    have hslot := h.lane_ne hg hl hlj hj
    cases l with
    | saveItem q e' =>
      exact ⟨hlane.1, hlane.2.1, by simpa [update_apply, hslot] using hlane.2.2⟩
    | raiseFlag q e' =>
      exact ⟨hlane.1, hlane.2.1, by simpa [update_apply, hslot] using hlane.2.2.1,
        hlane.2.2.2⟩
    | _ => exact hlane
  | advance g ls e hg hl hdone => exact h.advance hg hl
  | release g hg => exact h.release hg
  | flagUp | flagDown | isEof | notEof | readPacket =>
    exact h.catcher (fun _ hi => hi) s.front s.consumed _
  | clearFlag p hc =>
    refine h.catcher (fun i hi => ?_) _ _ _
    by_cases hf : i = s.front
    · simp [hf]
    · simpa [update_apply, hf] using hi
  | close hidle => exact { h with idle_of_eof := fun _ => hidle }

end

section

variable {g : G} {k : ℕ}

/-! ### Which flags a step raises -/

theorem raised_congr (hbase : s'.base = s.base)
    (hlanes : ∀ g ls, s'.group g = .lanes ls ↔ s.group g = .lanes ls) : s'.Raised k ↔ s.Raised k := by
  simp only [Ring.Raised, hbase, hlanes]

variable {ls : List (Lane P)}

theorem Producers.raised_iff (h : Producers size s) (hg : s.group g = .lanes ls) :
    s.Raised k ↔ k < s.base ∨ ∃ e, s.base ≤ k ∧ ls[k - s.base]? = some (.done e) := by
  refine or_congr_right ⟨?_, fun ⟨e, he⟩ => ⟨g, ls, e, hg, he⟩⟩
  rintro ⟨g', ls', e, hg', he⟩
  have hgg : g' = g := h.holder_unique g' g (by rw [hg']; rfl) (by rw [hg]; rfl)
  rw [hgg, hg] at hg'
  cases hg'
  exact ⟨e, he⟩

theorem raised_iff_of_no_lanes (hno : ∀ g ls, s.group g ≠ .lanes ls) : s.Raised k ↔ k < s.base := by
  refine or_iff_left ?_
  rintro ⟨g, ls, e, hg, -⟩
  exact hno g ls hg

variable {i : ℕ}

section

variable (h : Producers size s) (hg : s.group g = .lanes ls) (hl : ls[i]? = some l)
include h hg hl

/-- A lane that moves without raising its flag. -/
theorem raised_setLane {l' : Lane P} (hnot : l.isDone = false)
    (hnot' : l'.isDone = false) (h' : Producers size s') (hbase : s'.base = s.base)
    (hg' : s'.group g = .lanes (ls.set i l')) : s'.Raised k ↔ s.Raised k := by
  rw [h.raised_iff hg, h'.raised_iff hg', hbase]
  refine or_congr_right (exists_congr fun e => and_congr_right fun _ => ?_)
  by_cases hk : i = k - s.base
  · have hi := (List.getElem?_eq_some_iff.1 hl).1
    rw [← hk, getElem?_set_self hi, hl]
    cases l <;> cases l' <;> simp [Lane.isDone] at hnot hnot' ⊢
  · rw [getElem?_set_ne hk]

theorem raised_raiseFlag {e : ℕ} (h' : Producers size s') (hbase : s'.base = s.base)
    (hg' : s'.group g = .lanes (ls.set i (.done e))) : s'.Raised k ↔ s.Raised k ∨ k = s.base + i := by
  have hi := (List.getElem?_eq_some_iff.1 hl).1
  rw [h.raised_iff hg, h'.raised_iff hg', hbase, or_assoc]
  refine or_congr_right ?_
  by_cases hk : k = s.base + i
  · have hsub : k - s.base = i := by omega
    simp [hk, List.getElem?_set_self hi]
  · refine ⟨fun ⟨e', hle, he'⟩ => .inl ⟨e', hle, ?_⟩, fun hor => ?_⟩
    · rwa [List.getElem?_set_ne (by omega)] at he'
    · obtain ⟨e', hle, he'⟩ := hor.resolve_right hk
      exact ⟨e', hle, by rwa [List.getElem?_set_ne (by omega)]⟩

end

section

variable [DecidableEq G]

theorem raised_acquire (h : Producers size s)
    (hg : s.group g = .acquireLock packets) (hlock : s.lock = false) :
    ({ s.setGroup g (.lanes (packets.map .readLast)) with
      lock := true, pushed := s.pushed ++ packets } : Ring G P).Raised k ↔ s.Raised k := by
  have hno : ∀ g' ls, s.group g' ≠ .lanes ls := by
    intro g' ls hg'
    rw [h.lock_of_holds g' (by rw [hg']; rfl)] at hlock
    cases hlock
  rw [raised_iff_of_no_lanes hno, (h.acquire hg hlock).raised_iff (setGroup_self s g _)]
  refine or_iff_left ?_
  rintro ⟨e, -, he⟩
  simp at he

theorem raised_advance (h : Producers size s) {e : ℕ}
    (hg : s.group g = .lanes ls) (hdone : ls.all Lane.isDone = true) : ({ s.setGroup g .release with
      last := (e + ls.length) % size, base := s.base + ls.length } : Ring G P).Raised k ↔
      s.Raised k := by
  rw [raised_iff_of_no_lanes, h.raised_iff hg]
  swap
  · exact fun g' ls' hg' => nomatch lanes_setGroup (h.alone (g := g) (by rw [hg]; rfl)) hg'
  show k < s.base + ls.length ↔ _
  refine ⟨fun hk => ?_, ?_⟩
  · by_cases hlt : k < s.base
    · exact .inl hlt
    · have hk' : k - s.base < ls.length := by omega
      have hlane := all_eq_true.1 hdone _ (getElem_mem hk')
      rw [getElem?_eq_getElem hk']
      cases hl' : ls[k - s.base] <;> simp [hl', Lane.isDone] at hlane
      exact .inr ⟨_, by omega, rfl⟩
  · rintro (hlt | ⟨e', hle, he'⟩)
    · omega
    · have := (List.getElem?_eq_some_iff.1 he').1
      omega

end

/-! ### What a step does to the slots -/

section

variable (h : Slots size s)
include h

/-- A raised flag at or after the catcher is up. -/
theorem Slots.flag_of_raised (hk : s.consumed.length ≤ k) (hr : s.Raised k) : s.flags (k % size) = true :=
  (h.flags_iff _).2 ⟨k, hk, hr, rfl⟩

/-- The flag of `front` is up exactly when the next packet is there. -/
theorem Slots.flag_front_iff : s.flags s.front = true ↔ s.Raised s.consumed.length := by
  refine ⟨fun hflag => ?_, fun hr => ?_⟩
  · obtain ⟨k, hk, hr, hmod⟩ := (h.flags_iff _).1 hflag
    have hlt := h.raised_lt k hr
    rcases hk.eq_or_lt with heq | hgt
    · rwa [heq]
    · rw [h.front_eq] at hmod
      exact absurd hmod.symm (mod_ne_of_lt hgt hlt)
  · rw [h.front_eq]
    exact h.flag_of_raised le_rfl hr

/-- A step that touches no slot and raises no flag. -/
theorem Slots.frame {last base : ℕ} {lock : Bool} {group : G → Group P} {pushed : List P}
    (hraised : ∀ k, ({ s with
      last := last, base := base, lock := lock, group := group, pushed := pushed } : Ring G P).Raised k ↔
        s.Raised k)
    (hpushed : ∀ (k : ℕ) p, s.pushed[k]? = some p → pushed[k]? = some p) :
    Slots size { s with
      last := last, base := base, lock := lock, group := group, pushed := pushed } :=
  { h with
    flags_iff := by simpa only [hraised] using h.flags_iff
    raised_lt := by simpa only [hraised] using h.raised_lt
    raised_value := fun k hk hr => hpushed k _ (h.raised_value k hk ((hraised k).1 hr))
    consumed_raised := by simpa only [hraised] using h.consumed_raised
    consumed_eq := fun k hk => by
      have heq := h.consumed_eq k hk
      rw [getElem?_eq_getElem hk] at heq ⊢
      exact (hpushed k _ heq.symm).symm }

/-- Storing into a slot whose flag is down. -/
theorem Slots.saveItem {j : ℕ} (hflag : s.flags j = false) (p : P) :
    Slots size { s with store := update s.store j p } := by
  have hkeep : ∀ i, s.flags i = true → update s.store j p i = s.store i := by
    intro i hi
    have hne : i ≠ j := fun heq => by simp [heq, hflag] at hi
    simp [hne]
  exact { h with
    raised_value := by
      intro k hk hr
      show s.pushed[k]? = some (update s.store j p (k % size))
      rw [hkeep _ (h.flag_of_raised hk hr)]
      exact h.raised_value k hk hr
    clearing := by
      intro q hq
      obtain ⟨hup, hval⟩ := h.clearing q hq
      exact ⟨hup, hval.trans (hkeep _ hup).symm⟩ }

/-- The catcher takes the packet of `front`. -/
theorem Slots.clearFlag {p : P} (hc : s.catcher = .clearFlag p) : Slots size { s with
      flags := update s.flags s.front false
      front := (s.front + 1) % size
      consumed := s.consumed ++ [p]
      catcher := .testFlag } := by
  obtain ⟨hup, hval⟩ := h.clearing p hc
  have hr := h.flag_front_iff.1 hup
  have hlen : (s.consumed ++ [p]).length = s.consumed.length + 1 := by simp
  have hmore : s.consumed.length ≤ (s.consumed ++ [p]).length := by omega
  have hcases : ∀ k < (s.consumed ++ [p]).length, k < s.consumed.length ∨ k = s.consumed.length := by omega
  exact {
    front_eq := by
      rw [hlen, h.front_eq, mod_add_mod]
    flags_iff := by
      intro j
      show update s.flags s.front false j = true ↔ ∃ k,
        (s.consumed ++ [p]).length ≤ k ∧ s.Raised k ∧ k % size = j
      rw [hlen]
      by_cases hj : j = s.front
      · -- No later packet is in the slot that was cleared.
        rw [hj, update_self]
        refine ⟨fun hf => (Bool.false_ne_true hf).elim, ?_⟩
        rintro ⟨k, hk, hrk, hmod⟩
        rw [h.front_eq] at hmod
        exact absurd hmod.symm (mod_ne_of_lt hk (h.raised_lt k hrk))
      · rw [update_of_ne hj, h.flags_iff]
        refine exists_congr fun k => ⟨fun ⟨hk, hrk, hmod⟩ => ⟨?_, hrk, hmod⟩,
          fun ⟨hk, hrk, hmod⟩ => ⟨by omega, hrk, hmod⟩⟩
        rcases hk.eq_or_lt with heq | hlt
        · rw [← heq, ← h.front_eq] at hmod
          exact absurd hmod.symm hj
        · exact hlt
    raised_lt := fun k hk => (h.raised_lt k hk).trans (by simp)
    raised_value := fun k hk => h.raised_value k (hmore.trans hk)
    consumed_raised := by
      intro k hk
      rcases hcases k hk with hlt | rfl
      · exact h.consumed_raised k hlt
      · exact hr
    consumed_eq := by
      intro k hk
      rcases hcases k hk with hlt | rfl
      · rw [getElem?_append_left hlt]
        exact h.consumed_eq k hlt
      · rw [h.raised_value _ le_rfl hr, ← h.front_eq, ← hval]
        simp
    reading := nofun, clearing := nofun, eof_tested := nofun, ended := nofun }

end

variable [DecidableEq G]

theorem Slots.raiseFlag (h : Slots size s) (hp : Producers size s) {e : ℕ}
    {p : P} (hg : s.group g = .lanes ls) (hl : ls[i]? = some (.raiseFlag p e))
    (hp' : Producers size { s.setGroup g (.lanes (ls.set i (.done e))) with
      flags := update s.flags ((s.base + i) % size) true }) :
    Slots size { s.setGroup g (.lanes (ls.set i (.done e))) with
      flags := update s.flags ((s.base + i) % size) true } := by
  obtain ⟨hpushed, -, hflag, hstore⟩ := hp.laneOk g ls i _ hg hl
  have hraised := fun k => raised_raiseFlag (k := k) hp hg hl hp' rfl (setGroup_self s g _)
  have hi := (List.getElem?_eq_some_iff.1 hl).1
  have hnew : ¬ s.Raised (s.base + i) := by
    rw [hp.raised_iff hg]
    simp [hl]
  have hle : s.consumed.length ≤ s.base + i := by
    by_contra hlt
    exact hnew (h.consumed_raised _ (by omega))
  -- The packet one round earlier is consumed, or its flag would be up.
  have hwindow : s.base + i < s.consumed.length + size := by
    by_contra hge
    have hlen := (hp.pushed_length g ls hg).2.2
    have hprev : s.Raised (s.base + i - size) := .inl (by omega)
    have hup := h.flag_of_raised (by omega) hprev
    rw [← mod_eq_sub_mod (by omega), hflag] at hup
    cases hup
  have hnoeof := hp.not_eof (by rw [hg]; nofun)
  exact {
    front_eq := h.front_eq
    flags_iff := by
      intro j
      simp only [hraised, update_apply]
      split_ifs with hj
      · exact ⟨fun _ => ⟨_, hle, .inr rfl, hj.symm⟩, fun _ => rfl⟩
      · refine (h.flags_iff j).trans (exists_congr fun k => and_congr_right fun _ => ?_)
        refine and_congr_left fun hkj => (or_iff_left ?_).symm
        rintro rfl
        exact hj hkj.symm
    raised_lt := by
      intro k hk
      rcases (hraised k).1 hk with hk | rfl
      · exact h.raised_lt k hk
      · exact hwindow
    raised_value := by
      intro k hk hr
      rcases (hraised k).1 hr with hr | rfl
      · exact h.raised_value k hk hr
      · exact hpushed.trans (congrArg some hstore.symm)
    consumed_raised := fun k hk => (hraised k).2 (.inl (h.consumed_raised k hk))
    consumed_eq := h.consumed_eq
    reading := fun hc => by
      have := h.reading hc
      simp only [Ring.setGroup, update_apply, this, ite_self]
    clearing := fun q hc => by
      obtain ⟨hup, hval⟩ := h.clearing q hc
      refine ⟨?_, hval⟩
      simp only [Ring.setGroup, update_apply, hup, ite_self]
    eof_tested := fun _ heof => absurd heof hnoeof
    ended := fun hc => absurd (h.ended hc).1 hnoeof }

theorem Slots.step (h : Slots size s) (hp : Producers size s) (hok : Timely size s a)
    (hs : Trans size s a s') : Slots size s' := by
  have hp' := hp.step hok hs
  cases hs with
  | stay => exact h
  | push g _ hg | release g hg =>
    exact h.frame (fun _ => raised_congr rfl (setGroup_lanes (by simp [hg]) nofun)) fun _ _ hk => hk
  | acquire g packets hg hlock =>
    refine h.frame (fun _ => raised_acquire hp hg hlock) fun k q hk => ?_
    have hlt := (List.getElem?_eq_some_iff.1 hk).1
    exact (getElem?_append_left hlt).trans hk
  | readLast g ls i _ hg hl | getSlot g ls i _ _ hg hl =>
    exact h.frame (fun _ => raised_setLane hp hg hl rfl rfl hp' rfl (setGroup_self s g _))
      fun _ _ hk => hk
  | saveItem g ls i p e hg hl =>
    obtain ⟨-, he, hflag⟩ := hp.laneOk g ls i _ hg hl
    have hraised := fun k => raised_setLane (k := k) hp hg hl rfl rfl hp' rfl (setGroup_self s g _)
    rw [he, mod_add_mod] at hraised ⊢
    exact (h.saveItem hflag p).frame hraised fun _ _ hk => hk
  | raiseFlag g ls i p e hg hl =>
    obtain ⟨-, he, -⟩ := hp.laneOk g ls i _ hg hl
    have hslot : (e + i) % size = (s.base + i) % size := by rw [he, mod_add_mod]
    rw [hslot] at hp' ⊢
    exact h.raiseFlag hp hg hl hp'
  | advance g ls e hg hl hdone =>
    exact h.frame (fun _ => raised_advance hp hg hdone) fun _ _ hk => hk
  | flagUp hc hflag =>
    exact { h with reading := fun _ => hflag, clearing := nofun, eof_tested := nofun, ended := nofun }
  | flagDown hc hflag =>
    exact { h with
      reading := nofun, clearing := nofun, eof_tested := fun _ _ => hflag, ended := nofun }
  | isEof hc heof =>
    exact { h with
      reading := nofun, clearing := nofun, eof_tested := nofun
      ended := fun _ => ⟨heof, h.eof_tested hc heof⟩ }
  | notEof hc =>
    exact { h with reading := nofun, clearing := nofun, eof_tested := nofun, ended := nofun }
  | readPacket hc =>
    exact { h with
      reading := nofun, eof_tested := nofun, ended := nofun
      clearing := fun _ hc' => by
        cases hc'
        exact ⟨h.reading hc, rfl⟩ }
  | clearFlag p hc => exact h.clearFlag hc
  | close hidle =>
    exact { h with
      eof_tested := fun hc _ => by
        by_contra hup
        exact hok ⟨hc, by simpa using hup⟩
      ended := fun hc => ⟨rfl, (h.ended hc).2⟩ }

end

/-! ## Hand-over -/

section

/-- The whole invariant. -/
structure Inv (size : ℕ) (s : Ring G P) : Prop where
  producers : Producers size s
  slots : Slots size s

/-- The catcher takes `n` steps and nothing else moves. -/
def catchAlone (size n : ℕ) (s : Ring G P) : Option (Ring G P) :=
  exec (fun s (_ : Unit) => catchStep size s) s (List.replicate n ())

variable {n : ℕ} {s₁ s₂ : Ring G P}

theorem catchAlone_succ (h : catchStep size s = some s₁)
    (h' : catchAlone size n s₁ = some s₂) : catchAlone size (n + 1) s = some s₂ := by
  rwa [catchAlone, replicate_succ, exec_cons, h]

/-- A packet that is there is consumed by the catcher's next steps. -/
theorem Inv.consumes (h : Inv size s) (hup : s.flags s.front = true) :
    ∃ n ≤ 4, ∃ s', catchAlone size n s = some s' ∧
      s'.consumed.length = s.consumed.length + 1 ∧ s'.eof = s.eof ∧ s'.pushed = s.pushed := by
  have hread : ∀ c, c = Catcher.readPacket → ∃ s', catchAlone size 2 { s with catcher := c } =
      some s' ∧ s'.consumed.length = s.consumed.length + 1 ∧ s'.eof = s.eof ∧
        s'.pushed = s.pushed := by
    rintro c rfl
    exact ⟨_, catchAlone_succ rfl (catchAlone_succ rfl rfl), by simp, rfl, rfl⟩
  have htest : ∃ s', catchAlone size 3 { s with catcher := .testFlag } =
      some s' ∧ s'.consumed.length = s.consumed.length + 1 ∧ s'.eof = s.eof ∧
        s'.pushed = s.pushed := by
    obtain ⟨s', hs', hrest⟩ := hread _ rfl
    exact ⟨s', catchAlone_succ (by simp [catchStep, hup]) hs', hrest⟩
  have hself : ∀ c, s.catcher = c → { s with catcher := c } = s := by
    rintro _ rfl
    rfl
  cases hc : s.catcher with
  | testFlag => exact ⟨3, by omega, hself _ hc ▸ htest⟩
  | testEof =>
    obtain ⟨s', hs', hrest⟩ := htest
    have hno : s.eof = false := by
      by_contra heof
      rw [h.slots.eof_tested hc (by simpa using heof)] at hup
      cases hup
    exact ⟨4, le_rfl, s', catchAlone_succ (by simp [catchStep, hc, hno]) hs', hrest⟩
  | readPacket => exact ⟨2, by omega, hself _ hc ▸ hread _ rfl⟩
  | clearFlag p =>
    have h₁ : catchStep size s = some { s with
        flags := update s.flags s.front false
        front := (s.front + 1) % size
        consumed := s.consumed ++ [p]
        catcher := .testFlag } := by simp [catchStep, hc]
    exact ⟨1, by omega, _, catchAlone_succ h₁ rfl, by simp, rfl, rfl⟩
  | ended =>
    rw [(h.slots.ended hc).2] at hup
    cases hup

theorem Slots.consumed_length_le (h : Slots size s) : s.consumed.length ≤ s.pushed.length := by
  by_contra hlt
  have heq := h.consumed_eq s.pushed.length (by omega)
  rw [getElem?_eq_getElem (by omega), getElem?_eq_none le_rfl] at heq
  cases heq

theorem Slots.consumed_prefix (h : Slots size s) : s.consumed <+: s.pushed := by
  rw [prefix_iff_getElem?]
  intro k hk
  rw [← h.consumed_eq k hk, getElem?_eq_getElem hk]

/-- After `close`, a flag that is down at `front` means that nothing is left. -/
theorem Inv.consumed_eq_pushed (h : Inv size s) (heof : s.eof = true)
    (hdown : s.flags s.front = false) : s.consumed = s.pushed := by
  have hno : ∀ g ls, s.group g ≠ .lanes ls := by
    intro g ls hg
    rw [h.producers.idle_of_eof heof g] at hg
    cases hg
  have hlen := h.producers.pushed_length_idle hno
  have hall : ¬ s.Raised s.consumed.length := by
    rw [← h.slots.flag_front_iff, hdown]
    exact Bool.false_ne_true
  rw [raised_iff_of_no_lanes hno] at hall
  exact h.slots.consumed_prefix.eq_of_length_le (by omega)

variable [DecidableEq G]

theorem inv_of_reach [Fintype G] {gran : Granularity} {junk : P}
    (h : Reach (step gran size) (Timely size) (init junk : Ring G P) s) : Inv size s := by
  refine h.invariant ⟨producers_init size junk, slots_init size junk⟩ ?_
  intro s a s' hinv hok hs
  have htrans := trans_of_step hs
  exact ⟨hinv.producers.step hok htrans, hinv.slots.step hinv.producers hok htrans⟩

theorem Inv.of_catchStep (h : Inv size s) (hs : catchStep size s = some s') : Inv size s' := by
  have htrans := trans_of_catchStep hs
  have hok : Timely size s .catcher := trivial
  exact ⟨h.producers.step hok htrans, h.slots.step h.producers hok htrans⟩

theorem Inv.of_catchAlone (h : Inv size s) (hs : catchAlone size n s = some s') : Inv size s' := by
  induction n generalizing s with
  | zero => cases hs; exact h
  | succ n ih =>
    rw [catchAlone, replicate_succ, exec_cons, Option.bind_eq_some_iff] at hs
    obtain ⟨s₁, hs₁, hs⟩ := hs
    exact ih (h.of_catchStep hs₁) hs

/-- After `close` the catcher ends, by its own steps. -/
theorem Inv.terminates (h : Inv size s) (heof : s.eof = true) :
    ∃ n s', catchAlone size n s = some s' ∧ s'.catcher = .ended := by
  -- Induction on the number of packets left; each costs at most four steps.
  generalize hleft : s.pushed.length - s.consumed.length = left
  induction left generalizing s with
  | zero =>
    have hdown : s.flags s.front = false := by
      by_contra hup
      obtain ⟨n, -, s', hs', hlen, -, hpushed⟩ := h.consumes (by simpa using hup)
      have := (h.of_catchAlone hs').slots.consumed_length_le
      rw [hpushed] at this
      omega
    have hend : ∃ s', catchAlone size 1 { s with catcher := .testEof } = some s' ∧
        s'.catcher = .ended :=
      ⟨_, catchAlone_succ (by simp [catchStep, heof]; rfl) rfl, rfl⟩
    cases hc : s.catcher with
    | testFlag =>
      obtain ⟨s', hs', hend⟩ := hend
      exact ⟨2, s', catchAlone_succ (by simp [catchStep, hc, hdown]) hs', hend⟩
    | testEof =>
      have hself : { s with catcher := .testEof } = s := by rw [← hc]
      exact ⟨1, hself ▸ hend⟩
    | readPacket =>
      rw [h.slots.reading hc] at hdown
      cases hdown
    | clearFlag p =>
      rw [(h.slots.clearing p hc).1] at hdown
      cases hdown
    | ended => exact ⟨0, s, rfl, hc⟩
  | succ left ih =>
    have hup : s.flags s.front = true := by
      by_contra hdown
      have := h.consumed_eq_pushed heof (by simpa using hdown)
      rw [this] at hleft
      omega
    obtain ⟨n, -, s₁, hs₁, hlen, heof₁, hpushed⟩ := h.consumes hup
    obtain ⟨m, s₂, hs₂, hend⟩ := ih (h.of_catchAlone hs₁) (heof₁.trans heof) (by
      rw [hpushed]
      omega)
    refine ⟨n + m, s₂, ?_, hend⟩
    rwa [catchAlone, replicate_add, exec_append, ← catchAlone, hs₁]

/-- The hand-over, in one state of a run. -/
structure Handover (size : ℕ) (s : Ring G P) : Prop where
  /-- Packets are consumed once each, in the order of their slots. -/
  consumed_prefix : s.consumed <+: s.pushed
  /-- A packet that is there is consumed by the catcher's next steps. -/
  consumes : s.flags s.front = true → ∃ n ≤ 4, ∃ s', catchAlone size n s = some s' ∧
    s'.consumed.length = s.consumed.length + 1
  /-- Nothing is left when the catcher has ended. -/
  complete : s.catcher = .ended → s.consumed = s.pushed
  /-- Once `eof` is set the catcher ends. -/
  terminates : s.eof = true → ∃ n s', catchAlone size n s = some s' ∧ s'.catcher = .ended

/-- **The hand-over.** For every ring size, granularity and number of groups, in every state a
timely run reaches. -/
theorem handover [Fintype G] {gran : Granularity} {junk : P}
    (h : Reach (step gran size) (Timely size) (init junk : Ring G P) s) : Handover size s := by
  have hinv := inv_of_reach h
  exact {
    consumed_prefix := hinv.slots.consumed_prefix
    consumes := by
      intro hup
      obtain ⟨n, hn, s', hs', hlen, -⟩ := hinv.consumes hup
      exact ⟨n, hn, s', hs', hlen⟩
    complete := fun hc => hinv.consumed_eq_pushed (hinv.slots.ended hc).1 (hinv.slots.ended hc).2
    terminates := hinv.terminates }

end

/-! ## Two short runs -/

/-- One group pushes a packet into a ring of one slot. -/
def pushOne (p : ℕ) : List (Action Unit ℕ) :=
  [.push () [p], .acquire (), .lane () 0, .lane () 0, .lane () 0, .lane () 0, .advance (),
    .release ()]

/-- Two packets go through the slot when the catcher takes them before `eof` is set. -/
theorem handover_two_packets : ∃ s, Reach (step .THREAD 1) (Timely 1) (init 0 : Ring Unit ℕ) s ∧
    s.catcher = .ended ∧ s.consumed = [7, 8] ∧ Handover 1 s := by
  have hok : ∀ a ∈ pushOne 7 ++ List.replicate 3 .catcher ++ (pushOne 8 ++ List.replicate 3 .catcher),
      ∀ s, Timely 1 s a := by
    simp [pushOne, Timely]
  have h₁ := reach_of_exec_of_forall hok (.init : Reach (step .THREAD 1) _ (init 0) _) rfl
  have h₂ := h₁.next Action.close (fun h => nomatch h.1) rfl
  have h₃ := (h₂.next Action.catcher trivial rfl).next Action.catcher trivial rfl
  exact ⟨_, h₃, rfl, rfl, handover h₃⟩

/-- **A packet is lost.** The catcher finds the flag down; the packet and `eof` arrive; the
catcher finds `eof` and ends. -/
theorem packet_lost_at_close : ∃ s, Reach (step .THREAD 1) Free (init 0 : Ring Unit ℕ) s ∧
    s.catcher = .ended ∧ s.pushed = [7] ∧ s.consumed = [] :=
  exists_reach_of_exec (.catcher :: pushOne 7 ++ [.close, .catcher])
    ⟨_, rfl, fun _ => ⟨rfl, rfl, rfl⟩⟩

end Proteus.GpuToCpu
