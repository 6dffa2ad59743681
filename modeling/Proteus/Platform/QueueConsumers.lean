import Proteus.Platform.AsyncQueue

/-!
# Consumers of a closed queue

`AsyncQueueMPMC` and `AsyncQueueMPMCWithSleep` differ in how a `pop` waits for its stamp. The former
tests it once before it looks whether the queue is closed; the latter tests it 110 times, then takes the
mutex and waits on the condition variable, for at most 20 ms at a time. Here is one machine for both: the
queue of `AsyncQueue`, the phase of each waiting `pop`, the mutex, and where each thread is in
`foreachItemDo`. A thread that waits on the condition variable may wake up at any time, so notifications
make no difference.

After `close` nothing has to wait: a consumer whose ticket was drawn by an `emplace` finds its stamp, and
the others give up. So every step lowers a potential (`potential_lt`), whatever the schedule, and as long
as a consumer is in its loop some step can be taken (`exists_step`).
-/

namespace Proteus.QueueConsumers

open AsyncQueue Finset Function List Option Queue
open AsyncQueue (Queue Pc runThread Tickets Slots Orderly)

/-! ## Model -/

/-- `AsyncQueueMPMC` and `AsyncQueueMPMCWithSleep` -/
inductive Variant
  | spinning
  | sleeping
deriving DecidableEq

/-- Where a `pop` of the sleeping variant is while it waits for its stamp; `ready` is everything else. -/
inductive Phase
  | ready
  /-- The tests made so far. -/
  | spin (i : ℕ)
  | lock
  /-- The predicate of `wait_for`, before its first or second load; whether the time is over. -/
  | predStamp (timeout : Bool)
  | predTerm (timeout : Bool)
  | sleep
  | relock (timeout : Bool)
  /-- The test after `wait_for`. -/
  | test
  | reading
  | unlock
deriving DecidableEq

/-- Where a thread is in `foreachItemDo`. -/
inductive Loop
  | outside
  | looping
  | finished
deriving DecidableEq

structure State (Tid T : Type*) where
  q : Queue Tid T
  phase : Tid → Phase
  m : Option Tid
  loop : Tid → Loop

inductive Action (Tid T : Type*)
  | emplace (t : Tid) (v : T)
  | foreachItemDo (t : Tid)
  /-- On its own, or by the next `withPoppedItemDo` of a loop. -/
  | pop (t : Tid)
  /-- The next access; if the thread sleeps, it wakes up, perhaps because the time is over. -/
  | run (t : Tid) (timeout : Bool)
  | close

variable {Tid T : Type*}

section

variable [DecidableEq Tid]

def init (junk : T) : State Tid T where
  q := AsyncQueue.init junk
  phase _ := .ready
  m := none
  loop _ := .outside

/-- How a `pop` waits. -/
def Variant.wait : Variant → Phase
  | .spinning => .ready
  | .sleeping => .spin 0

/-- The phase of a thread that gets to `p`. -/
def Variant.entry (v : Variant) : Pc T → Phase
  | .popTest _ => v.wait
  | _ => .ready

/-- `ref.second == reserve` -/
def State.stamped (N : ℕ) (s : State Tid T) (t : Tid) : Bool :=
  match s.q.pc t with
  | .popTest r => decide ((s.q.data (r % N)).2 = some r)
  | _ => false

def State.goto (s : State Tid T) (t : Tid) (ph : Phase) : State Tid T :=
  { s with phase := update s.phase t ph }

/-- A `pop` returns nothing. -/
def lastPop : Pc T → Pc T → Bool
  | .popOcc _, .idle => true
  | _, _ => false

/-- The next access of a thread to the queue. -/
def State.access (N : ℕ) (s : State Tid T) (t : Tid) (next : Pc T → Phase) : Option (State Tid T) :=
  (runThread N s.q t).map fun q =>
    { s with
      q := q
      phase := update s.phase t (next (q.pc t))
      loop :=
        if s.loop t = .looping ∧ lastPop (s.q.pc t) (q.pc t) = true then
          update s.loop t .finished
        else s.loop }

/-- The phase after the last test. The lock is released at the end of the loop's body, or after the value
has been read. -/
def afterTest : Pc T → Phase
  | .popRead _ => .reading
  | _ => .unlock

def run (v : Variant) (N : ℕ) (s : State Tid T) (t : Tid) (timeout : Bool) : Option (State Tid T) :=
  match s.phase t with
  | .ready => s.access N t v.entry
  | .spin i =>
    if s.stamped N t then s.access N t fun _ => .ready
    else some (s.goto t (if i + 1 < 110 then .spin (i + 1) else .lock))
  | .lock => if s.m = none then some { s.goto t (.predStamp false) with m := some t } else none
  | .predStamp b => some (s.goto t (if s.stamped N t then .test else .predTerm b))
  | .predTerm b =>
    if s.q.terminating || b then some (s.goto t .test) else some { s.goto t .sleep with m := none }
  | .sleep => some (s.goto t (.relock timeout))
  | .relock b => if s.m = none then some { s.goto t (.predStamp b) with m := some t } else none
  | .test => s.access N t afterTest
  | .reading => s.access N t fun _ => .unlock
  | .unlock => some { s.goto t .ready with m := none }

/-- One step. The sleeping variant closes under the mutex. -/
def step (v : Variant) (N : ℕ) (s : State Tid T) : Action Tid T → Option (State Tid T)
  | .emplace t x =>
    if s.phase t = .ready ∧ s.loop t ≠ .looping then
      (AsyncQueue.step N s.q (.emplace t x)).map fun q => { s with q := q }
    else none
  | .foreachItemDo t =>
    match s.q.pc t with
    | .idle =>
      if s.phase t = .ready ∧ s.loop t = .outside then
        some { s with loop := update s.loop t .looping }
      else none
    | _ => none
  | .pop t =>
    if s.phase t = .ready ∧ s.loop t ≠ .finished then
      (AsyncQueue.step N s.q (.pop t)).map fun q =>
        { s with q := q, phase := update s.phase t v.wait }
    else none
  | .run t timeout => run v N s t timeout
  | .close =>
    if v = .sleeping ∧ s.m ≠ none then none
    else (AsyncQueue.step N s.q .close).map fun q => { s with q := q }

end

/-- Inside of `emplace`. -/
def inEmplace : Pc T → Bool
  | .emplaceWait _ _ | .emplaceStore _ _ | .emplaceStamp _ _ | .emplaceCount => true
  | _ => false

/-- A `pop` in one of these phases has not seen its stamp. -/
def Phase.waiting : Phase → Bool
  | .spin _ | .lock | .predStamp _ | .predTerm _ | .sleep | .relock _ | .test => true
  | .ready | .reading | .unlock => false

def Phase.holds : Phase → Bool
  | .predStamp _ | .predTerm _ | .test | .reading | .unlock => true
  | .ready | .spin _ | .lock | .sleep | .relock _ => false

/-- The condition on a run: `Orderly` for the queue, and `close` is called when all `emplace`s have
returned. -/
def Calm (N : ℕ) (s : State Tid T) : Action Tid T → Prop
  | .emplace t x => Orderly N s.q (.emplace t x)
  | .run t _ => Orderly N s.q (.run t)
  | .close => ∀ t, inEmplace (s.q.pc t) = false
  | .foreachItemDo _ | .pop _ => True

/-- What happens after `close`. -/
def Consuming (s : State Tid T) : Action Tid T → Prop
  | .foreachItemDo _ | .run _ _ => True
  | .pop t => s.loop t = .looping
  | .emplace _ _ | .close => False

/-! ## One step of a thread in the queue -/

variable {N : ℕ}

section

variable [DecidableEq Tid] {q q' : Queue Tid T} {t t' : Tid} {r : ℕ}

section

variable (h : runThread N q t = some q')
include h

theorem runThread_pc_of_ne (hne : t' ≠ t) : q'.pc t' = q.pc t' := by
  have hgoto : ∀ p : Pc T, (q.goto t p).pc t' = q.pc t' := fun p => by simp [goto, hne]
  cases trans_of_runThread h with
  | spin => rfl
  | pass | store | stamp | count | hit | miss | read | terminating | again | giveUp => exact hgoto _

theorem runThread_counters : q'.occ = q.occ ∧ q'.occrev = q.occrev ∧ q'.terminating = q.terminating := by
  cases trans_of_runThread h <;> exact ⟨rfl, rfl, rfl⟩

theorem runThread_inEmplace (hpc : inEmplace (q.pc t) = false) : inEmplace (q'.pc t) = false := by
  have hgoto : ∀ p : Pc T, (q.goto t p).pc t = p := fun p => by simp [goto]
  cases trans_of_runThread h with
  | spin => exact hpc
  | pass t v k hk | store t v k hk | stamp t v k hk => simp [hk, inEmplace] at hpc
  | count | hit | miss | read | terminating | again | giveUp =>
    rw [show _ = _ from hgoto _]
    rfl

theorem runThread_popTest (hpc : q.pc t = .popTest r) : (q.data (r % N)).2 = some r ∧ q'.pc t = .popRead r ∨
    (q.data (r % N)).2 ≠ some r ∧ q'.pc t = .popTerm r := by
  simp only [runThread, hpc] at h
  split_ifs at h with hstamp <;> cases h
  · exact .inl ⟨hstamp, update_self ..⟩
  · exact .inr ⟨hstamp, update_self ..⟩

theorem runThread_popRead (hpc : q.pc t = .popRead r) : q'.pc t = .idle := by
  simp only [runThread, hpc] at h
  cases h
  exact update_self ..

theorem runThread_popTerm (hpc : q.pc t = .popTerm r)
    (hterm : q.terminating = true) : q'.pc t = .popOcc r := by
  simp only [runThread, hpc, hterm, if_true] at h
  cases h
  exact update_self ..

theorem runThread_popOcc (hpc : q.pc t = .popOcc r) :
    r < q.occ ∧ q'.pc t = .popTest r ∨ q.occ ≤ r ∧ q'.pc t = .idle := by
  simp only [runThread, hpc] at h
  split_ifs at h with hocc <;> cases h
  · exact .inl ⟨hocc, update_self ..⟩
  · exact .inr ⟨Nat.le_of_not_lt hocc, update_self ..⟩

end

theorem exists_runThread (N : ℕ) (hpc : q.pc t ≠ .idle) : ∃ q', runThread N q t = some q' := by
  unfold runThread
  split
  case h_1 h => exact absurd h hpc
  all_goals first
    | exact ⟨_, rfl⟩
    | split_ifs <;> exact ⟨_, rfl⟩

end

/-! ## One step of the machine -/

variable {v : Variant} {s s' : State Tid T} {a : Action Tid T} {ph : Phase}

section

variable [DecidableEq Tid]

/-- The states of the queue a phase stands for. -/
def Phase.Fits (v : Variant) (ph : Phase) (p : Pc T) : Prop :=
  match ph with
  | .ready => ∀ r, p = .popTest r → v = .spinning
  | .reading => ∃ r, p = .popRead r
  | .unlock => p = .idle ∨ ∃ r, p = .popTerm r
  | _ => ∃ r, p = .popTest r

theorem Phase.Fits.popTest {p : Pc T} (h : ph.Fits v p) (hw : ph.waiting = true) :
    ∃ r, p = .popTest r := by
  cases ph <;> first | exact h | cases hw

/-- How far a `pop` is from its last test, once the queue is closed. -/
def Phase.rank : Phase → ℕ
  | .spin i => 20 + (110 - i)
  | .lock => 15
  | .sleep => 14
  | .relock _ => 13
  | .predStamp _ => 12
  | .predTerm _ => 11
  | .ready | .test | .reading | .unlock => 10

attribute [local simp] Phase.rank

/-- A step of a waiting `pop` that leaves the queue as it is. -/
structure Waits (s : State Tid T) (t : Tid) (ph : Phase) (m : Option Tid) : Prop where
  before : (s.phase t).waiting = true
  after : ph.waiting = true
  lock : LockMove t (s.phase t).holds ph.holds s.m m
  rank_lt : s.q.terminating = true → ph.rank < (s.phase t).rank

/-- The phases in which a thread accesses the queue, with what comes after. -/
inductive Accesses (v : Variant) (N : ℕ) (s : State Tid T) (t : Tid) : (Pc T → Phase) → Prop
  | ready (h : s.phase t = .ready) : Accesses v N s t v.entry
  | spin (i : ℕ) (h : s.phase t = .spin i) (hst : s.stamped N t = true) : Accesses v N s t fun _ => .ready
  | test (h : s.phase t = .test) : Accesses v N s t afterTest
  | reading (h : s.phase t = .reading) : Accesses v N s t fun _ => .unlock

/-- What a step can do. -/
inductive Trans (v : Variant) (N : ℕ) (s : State Tid T) : Action Tid T → State Tid T → Prop
  | emplace (t : Tid) (x : T) (q : Queue Tid T) (hq : AsyncQueue.step N s.q (.emplace t x) = some q)
      (hloop : s.loop t ≠ .looping) (hphase : s.phase t = .ready) :
      Trans v N s (.emplace t x) { s with q := q }
  | start (t : Tid) (hpc : s.q.pc t = .idle) (hloop : s.loop t = .outside) :
      Trans v N s (.foreachItemDo t) { s with loop := update s.loop t .looping }
  | pop (t : Tid) (hpc : s.q.pc t = .idle) (hphase : s.phase t = .ready) (hloop : s.loop t ≠ .finished) :
      Trans v N s (.pop t)
        { s with
          q := { s.q.goto t (.popTest s.q.occrev) with occrev := s.q.occrev + 1 }
          phase := update s.phase t v.wait }
  | close : Trans v N s .close { s with q := { s.q with terminating := true } }
  | access (t : Tid) (b : Bool) (q : Queue Tid T) (next : Pc T → Phase) (hq : runThread N s.q t = some q)
      (hnext : Accesses v N s t next) : Trans v N s (.run t b)
        { s with
          q := q
          phase := update s.phase t (next (q.pc t))
          loop :=
            if s.loop t = .looping ∧ lastPop (s.q.pc t) (q.pc t) = true then
              update s.loop t .finished
            else s.loop }
  | wait (t : Tid) (b : Bool) (ph : Phase) (m : Option Tid) (h : Waits s t ph m) :
      Trans v N s (.run t b) { s.goto t ph with m := m }
  | unlock (t : Tid) (b : Bool) (h : s.phase t = .unlock) :
      Trans v N s (.run t b) { s.goto t .ready with m := none }

theorem trans_of_run {t : Tid} {b : Bool} (h : run v N s t b = some s') : Trans v N s (.run t b) s' := by
  have haccess : ∀ next, Accesses v N s t next → s.access N t next = some s' → Trans v N s (.run t b) s' := by
    intro next hnext h
    obtain ⟨q, hq, rfl⟩ := map_eq_some_iff.1 h
    exact .access t b q next hq hnext
  have hwait : ∀ {ph ph' : Phase} {m : Option Tid}, s.phase t = ph → ph.waiting = true →
      ph'.waiting = true → LockMove t ph.holds ph'.holds s.m m →
      (s.q.terminating = true → ph'.rank < ph.rank) →
      Trans v N s (.run t b) { s.goto t ph' with m := m } := by
    intro ph ph' m hph hbefore hafter hlock hrank
    subst hph
    exact .wait t b ph' m ⟨hbefore, hafter, hlock, hrank⟩
  unfold run at h
  split at h
  case h_1 hph => exact haccess _ (.ready hph) h
  case h_2 i hph =>
    split_ifs at h with hst hi
    · exact haccess _ (.spin i hph hst) h
    all_goals
      cases h
      exact hwait hph rfl rfl (.keep _ _) fun _ => by simp only [Phase.rank]; omega
  case h_3 hph | h_7 c hph =>
    split_ifs at h with hm
    cases h
    refine hwait hph rfl rfl ?_ fun _ => by simp
    rw [hm]
    exact .acquire
  case h_4 c hph =>
    split_ifs at h <;> cases h <;>
      exact hwait hph rfl rfl (.keep _ _) fun _ => by simp
  case h_5 c hph =>
    split_ifs at h with hc <;> cases h
    · exact hwait hph rfl rfl (.keep _ _) fun _ => by simp
    · refine hwait hph rfl rfl (.release _) fun hterm => ?_
      simp [hterm] at hc
  case h_6 hph =>
    cases h
    exact hwait hph rfl rfl (.keep _ _) fun _ => by simp
  case h_8 hph => exact haccess _ (.test hph) h
  case h_9 hph => exact haccess _ (.reading hph) h
  case h_10 hph =>
    cases h
    exact .unlock t b hph

theorem trans_of_step (h : step v N s a = some s') : Trans v N s a s' := by
  cases a <;> simp only [step] at h
  case emplace t x =>
    split_ifs at h with hguard
    obtain ⟨q, hq, rfl⟩ := map_eq_some_iff.1 h
    exact .emplace t x q hq hguard.2 hguard.1
  case foreachItemDo t =>
    split at h
    · split_ifs at h with hguard
      cases h
      exact .start t (by assumption) hguard.2
    · cases h
  case pop t =>
    split_ifs at h with hguard
    obtain ⟨q, hq, rfl⟩ := map_eq_some_iff.1 h
    cases trans_of_step hq with
    | beginPop t hpc => exact .pop t hpc hguard.1 hguard.2
  case run t b => exact trans_of_run h
  case close =>
    split_ifs at h
    cases h
    exact .close

end

/-! ## The invariant -/

variable {t : Tid} {q : Queue Tid T} {junk : T}

section

structure Inv (v : Variant) (N : ℕ) (s : State Tid T) : Prop where
  tickets : Tickets s.q
  slots : Slots N s.q
  closed : s.q.terminating = true → ∀ t, inEmplace (s.q.pc t) = false
  fits : ∀ t, (s.phase t).Fits v (s.q.pc t)
  lock : ∀ t, (s.phase t).holds = true ↔ s.m = some t
  finished : ∀ t, s.loop t = .finished →
    s.q.pc t = .idle ∧ s.q.occ < s.q.occrev ∧ s.q.terminating = true

theorem inv_init (v : Variant) (N : ℕ) (junk : T) : Inv v N (init junk : State Tid T) where
  tickets := tickets_init junk
  slots := slots_init N junk
  closed h := by cases h
  fits t r h := by cases h
  lock t := by simp [init, Phase.holds]
  finished t h := by cases h

theorem fits_entry (v : Variant) (p : Pc T) : (v.entry p).Fits v p := by
  cases p with
  | popTest r => cases v with
    | spinning => exact fun _ _ => rfl
    | sleeping => exact ⟨r, rfl⟩
  | _ => exact nofun

variable {next : Pc T → Phase}

theorem Accesses.eq_entry (h : Accesses v N s t next)
    (hph : s.phase t = .ready) : next = v.entry := by
  cases h with
  | ready => rfl
  | spin _ h | test h | reading h => cases hph.symm.trans h

variable [DecidableEq Tid]

/-- The phase after an access fits, and the mutex is held as before. -/
theorem Accesses.fits (h : Accesses v N s t next)
    (hfits : (s.phase t).Fits v (s.q.pc t)) (hq : runThread N s.q t = some q) :
    (next (q.pc t)).Fits v (q.pc t) ∧ (next (q.pc t)).holds = (s.phase t).holds := by
  cases h with
  | ready hph =>
    refine ⟨fits_entry v _, ?_⟩
    rw [hph]
    cases q.pc t <;> first | rfl | (cases v <;> rfl)
  | spin i hph hst =>
    rw [hph] at hfits ⊢
    obtain ⟨r, hr⟩ := hfits
    have hstamp : (s.q.data (r % N)).2 = some r := by simpa [State.stamped, hr] using hst
    rcases runThread_popTest hq hr with ⟨-, hpc⟩ | ⟨hno, -⟩
    · exact ⟨fun r' h' => (nomatch hpc.symm.trans h'), rfl⟩
    · exact absurd hstamp hno
  | test hph =>
    rw [hph] at hfits ⊢
    obtain ⟨r, hr⟩ := hfits
    rcases runThread_popTest hq hr with ⟨-, hpc⟩ | ⟨-, hpc⟩ <;> rw [hpc]
    · exact ⟨⟨r, rfl⟩, rfl⟩
    · exact ⟨.inr ⟨r, rfl⟩, rfl⟩
  | reading hph =>
    rw [hph] at hfits ⊢
    obtain ⟨r, hr⟩ := hfits
    exact ⟨.inl (runThread_popRead hq hr), rfl⟩

/-- The phases fit after one thread has moved. -/
theorem fits_update {pc : Tid → Pc T} (hs : ∀ t, (s.phase t).Fits v (s.q.pc t))
    (hself : ph.Fits v (pc t)) (hother : ∀ t' ≠ t, pc t' = s.q.pc t') (t' : Tid) :
    (update s.phase t ph t').Fits v (pc t') := by
  by_cases ht : t' = t
  · rwa [ht, update_self]
  · rw [update_of_ne ht, hother t' ht]
    exact hs t'

/-- The mutex is held by the thread in a phase that holds it. -/
theorem lock_update {m : Option Tid} (hs : ∀ t, (s.phase t).holds = true ↔ s.m = some t)
    (hm : LockMove t (s.phase t).holds ph.holds s.m m) (t' : Tid) :
    (update s.phase t ph t').holds = true ↔ m = some t' := by
  by_cases ht : t' = t
  · rw [ht, update_self]
    exact hm.own (hs t)
  · rw [update_of_ne ht]
    exact hm.other (hs t) ht (hs t')

theorem Inv.trans (hN : 0 < N) (hs : Inv v N s) (hok : Calm N s a) (h : Trans v N s a s') : Inv v N s' := by
  have hqueue : ∀ qa q, Orderly N s.q qa → AsyncQueue.step N s.q qa = some q → Tickets q ∧ Slots N q := by
    intro qa q hord hq
    have htrans := AsyncQueue.trans_of_step hq
    exact ⟨hs.tickets.step hord htrans, hs.slots.step hs.tickets hN hord htrans⟩
  cases h with
  | emplace t x q hq hloop hphase =>
    obtain ⟨htickets, hslots⟩ := hqueue (.emplace t x) q hok hq
    have hopen : s.q.terminating = false := hok
    cases AsyncQueue.trans_of_step hq with
    | beginEmplace t x hpc =>
      refine ⟨htickets, hslots, fun h => ?_, fun t' => ?_, hs.lock, fun t' h => ?_⟩
      · exact absurd (hopen.symm.trans h) Bool.false_ne_true
      · by_cases ht : t' = t
        · rw [ht, hphase]
          intro r hr
          simp [goto] at hr
        · simpa [goto, ht] using hs.fits t'
      · exact absurd (hopen.symm.trans (hs.finished t' h).2.2) Bool.false_ne_true
  | start t hpc hloop =>
    refine { hs with finished := fun t' h => ?_ }
    rcases update_cases h with ⟨-, h⟩ | ⟨-, h⟩
    · cases h
    · exact hs.finished t' h
  | pop t hpc hphase hloop =>
    have hq : AsyncQueue.step N s.q (.pop t) =
        some { s.q.goto t (.popTest s.q.occrev) with occrev := s.q.occrev + 1 } := by
      simp only [AsyncQueue.step, hpc]
    obtain ⟨htickets, hslots⟩ := hqueue (.pop t) _ trivial hq
    refine ⟨htickets, hslots, fun h t' => ?_, ?_, ?_, fun t' h => ?_⟩
    · by_cases ht : t' = t
      · simp [goto, ht, inEmplace]
      · simpa [goto, ht] using hs.closed h t'
    · refine fits_update hs.fits ?_ fun t' ht => by simp [goto, ht]
      show v.wait.Fits v (update s.q.pc t (.popTest s.q.occrev) t)
      rw [update_self]
      exact fits_entry v (.popTest s.q.occrev)
    · refine lock_update hs.lock ?_
      rw [hphase]
      cases v <;> exact .keep _ _
    · obtain ⟨hidle, hlt, hterm⟩ := hs.finished t' h
      have ht : t' ≠ t := fun heq => hloop (heq ▸ h)
      exact ⟨by simpa [goto, ht] using hidle, hlt.trans (Nat.lt_succ_self _), hterm⟩
  | close =>
    obtain ⟨htickets, hslots⟩ := hqueue .close _ trivial rfl
    exact ⟨htickets, hslots, fun _ => hok, hs.fits, hs.lock,
      fun t h => ⟨(hs.finished t h).1, (hs.finished t h).2.1, rfl⟩⟩
  | access t b q next hq hnext =>
    obtain ⟨htickets, hslots⟩ := hqueue (.run t) q hok hq
    obtain ⟨hocc, hoccrev, hterm⟩ := runThread_counters hq
    obtain ⟨hfits, hholds⟩ := hnext.fits (hs.fits t) hq
    refine ⟨htickets, hslots, fun h t' => ?_, ?_, ?_, fun t' h => ?_⟩
    · rw [hterm] at h
      by_cases ht : t' = t
      · rw [ht]
        exact runThread_inEmplace hq (hs.closed h t)
      · rw [runThread_pc_of_ne hq ht]
        exact hs.closed h t'
    · exact fits_update hs.fits hfits fun t' ht => runThread_pc_of_ne hq ht
    · refine lock_update hs.lock ?_
      rw [hholds]
      exact .keep _ _
    · rw [hocc, hoccrev, hterm]
      have hold : ∀ h : s.loop t' = .finished, q.pc t' = .idle ∧ s.q.occ < s.q.occrev ∧
          s.q.terminating = true := by
        intro h
        obtain ⟨hidle, hrest⟩ := hs.finished t' h
        by_cases ht : t' = t
        · rw [← ht, runThread, hidle] at hq
          cases hq
        · exact ⟨(runThread_pc_of_ne hq ht).trans hidle, hrest⟩
      split_ifs at h with hlast
      · rcases update_cases h with ⟨rfl, -⟩ | ⟨-, h⟩
        · -- The thread has given up with a ticket that no `emplace` has drawn.
          obtain ⟨r, hr⟩ : ∃ r, s.q.pc t' = .popOcc r := by
            have hl := hlast.2
            revert hl
            cases s.q.pc t' <;> simp [lastPop]
          rcases runThread_popOcc hq hr with ⟨-, hpc⟩ | ⟨hle, hpc⟩
          · rw [hr, hpc] at hlast
            cases hlast.2
          · have hlt := hs.tickets.popping_lt t' r (by rw [hr]; rfl)
            exact ⟨hpc, hle.trans_lt hlt, hs.tickets.popOcc_terminating t' r hr⟩
        · exact hold h
      · exact hold h
  | wait t b ph m hw =>
    obtain ⟨r, hr⟩ := (hs.fits t).popTest hw.before
    refine { hs with fits := fits_update hs.fits ?_ fun _ _ => rfl, lock := lock_update hs.lock hw.lock }
    show ph.Fits v (s.q.pc t)
    rw [hr]
    have hafter := hw.after
    cases ph <;> first | exact ⟨r, rfl⟩ | cases hafter
  | unlock t b hph =>
    refine { hs with fits := fits_update hs.fits ?_ fun _ _ => rfl, lock := lock_update hs.lock ?_ }
    · have hfits := hs.fits t
      rw [hph] at hfits
      intro r' h'
      rcases hfits with h | ⟨r, h⟩ <;> cases h.symm.trans h'
    · rw [hph]
      exact .release _

theorem inv_of_reach (hN : 0 < N) (h : Reach (step v N) (Calm N) (init junk) s) : Inv v N s :=
  h.invariant (inv_init v N junk) fun _ _ _ hs hok hstep => hs.trans hN hok (trans_of_step hstep)

end

/-! ## After `close` -/

variable (occ : ℕ)

section

/-- The steps left for the `pop` of a thread, at most. A ticket that an `emplace` has drawn is found by the
next test. -/
def rank (p : Pc T) (ph : Phase) : ℕ :=
  match p with
  | .popTest _ => ph.rank
  | .popRead _ => 3
  | .popTerm r => (if r < occ then 300 else 5) + if ph = .unlock then 1 else 0
  | .popOcc r => if r < occ then 299 else 4
  | _ => if ph = .unlock then 1 else 0

/-- What a thread in a loop needs for its last `pop`, until this has begun. -/
def credit (ticket : Option ℕ) : Loop → ℕ
  | .finished => 0
  | .outside => 501
  | .looping =>
    match ticket with
    | some r => if r < occ then 500 else 0
    | none => 500

def load (p : Pc T) (ph : Phase) (l : Loop) : ℕ := credit occ p.popping l + rank occ p ph

/-- All steps left, with what the items nobody has reserved need. -/
def potential [Fintype Tid] (s : State Tid T) : ℕ :=
  ∑ t, load s.q.occ (s.q.pc t) (s.phase t) (s.loop t) + 500 * (s.q.occ - s.q.occrev)

theorem wait_rank_le (v : Variant) : v.wait.rank ≤ 130 := by cases v <;> decide

theorem Inv.stamped (hs : Inv v N s) (hterm : s.q.terminating = true) {r : ℕ}
    (hpop : (s.q.pc t).popping = some r) (hlt : r < s.q.occ) : (s.q.data (r % N)).2 = some r := by
  have hpub : s.q.Published r := by
    refine ⟨hlt, fun t' x hx => ?_⟩
    have hclosed := hs.closed hterm t'
    revert hx hclosed
    cases s.q.pc t' <;> simp [Pc.emplacing, inEmplace]
  obtain ⟨x, hx⟩ : ∃ x, s.q.emplaced[r]? = some x :=
    ⟨_, getElem?_eq_getElem (hs.tickets.length_emplaced ▸ hlt)⟩
  rw [hs.slots.published_slot r x hpub (hs.tickets.popping_not_returned t r hpop) hx]

theorem Inv.lt_of_stamped (hs : Inv v N s) {r : ℕ} (h : (s.q.data (r % N)).2 = some r) : r < s.q.occ :=
  (hs.slots.stamped_published _ r h).1

theorem load_lt {occ : ℕ} {p p' : Pc T} {ph' : Phase} {l : Loop} (hpop : p'.popping = p.popping)
    (h : rank occ p' ph' < rank occ p ph) : load occ p' ph' l < load occ p ph l := by
  rw [load, load, hpop]
  exact Nat.add_lt_add_left h _

variable [DecidableEq Tid]

/-- Every access brings a `pop` nearer to its end. -/
theorem Inv.load_access (hs : Inv v N s) (hterm : s.q.terminating = true) {next : Pc T → Phase}
    (hnext : Accesses v N s t next) (hq : runThread N s.q t = some q) :
    load s.q.occ (q.pc t) (next (q.pc t))
        (if s.loop t = .looping ∧ lastPop (s.q.pc t) (q.pc t) = true then .finished else s.loop t) <
      load s.q.occ (s.q.pc t) (s.phase t) (s.loop t) := by
  have hfits := hs.fits t
  cases hpc : s.q.pc t with
  | idle =>
    rw [runThread, hpc] at hq
    cases hq
  | emplaceWait | emplaceStore | emplaceStamp | emplaceCount =>
    have hclosed := hs.closed hterm t
    rw [hpc] at hclosed
    cases hclosed
  | popTest r =>
    have hfound : r < s.q.occ ↔ (s.q.data (r % N)).2 = some r :=
      ⟨hs.stamped hterm (t := t) (by rw [hpc]; rfl), hs.lt_of_stamped⟩
    have hlow : 10 ≤ (s.phase t).rank := by
      cases s.phase t <;> simp only [Phase.rank] <;> omega
    rcases runThread_popTest hq hpc with ⟨hstamp, hpc'⟩ | ⟨hno, hpc'⟩ <;>
      rw [hpc', if_neg (by simp [lastPop])] <;> refine load_lt rfl ?_ <;> simp only [rank]
    · omega
    · rw [if_neg fun h => hno (hfound.1 h)]
      split_ifs <;> omega
  | popRead r =>
    have hlt : r < s.q.occ := (hs.slots.reading_published t r hpc).1
    rw [runThread_popRead hq hpc]
    have hcredit : credit s.q.occ (some r) (s.loop t) = credit s.q.occ none (s.loop t) := by
      cases s.loop t <;> simp [credit, hlt]
    rw [if_neg (by simp [lastPop])]
    show credit s.q.occ none (s.loop t) + (if next Pc.idle = Phase.unlock then 1 else 0) <
      credit s.q.occ (some r) (s.loop t) + 3
    rw [hcredit]
    split_ifs <;> omega
  | popTerm r =>
    rw [runThread_popTerm hq hpc hterm, if_neg (by simp [lastPop])]
    refine load_lt rfl ?_
    simp only [rank]
    split_ifs <;> omega
  | popOcc r =>
    have hready : s.phase t = .ready := by
      cases hph : s.phase t <;> rw [hpc, hph] at hfits <;> simp [Phase.Fits] at hfits ⊢
    have hwait := wait_rank_le v
    rcases runThread_popOcc hq hpc with ⟨hlt, hpc'⟩ | ⟨hle, hpc'⟩ <;> rw [hpc', hnext.eq_entry hready]
    · rw [if_neg (by simp [lastPop])]
      refine load_lt rfl ?_
      simp only [rank, Variant.entry, if_pos hlt]
      omega
    · have hge : ¬r < s.q.occ := Nat.not_lt.2 hle
      cases s.loop t <;> simp [load, credit, rank, lastPop, Variant.entry, hge]

/-- One thread moves: its load, and the items nobody has reserved. -/
theorem potential_lt_of [Fintype Tid] (hocc : s'.q.occ = s.q.occ)
    (hother : ∀ t' ≠ t, load s.q.occ (s'.q.pc t') (s'.phase t') (s'.loop t') =
      load s.q.occ (s.q.pc t') (s.phase t') (s.loop t'))
    (hself : load s.q.occ (s'.q.pc t) (s'.phase t) (s'.loop t) + 500 * (s.q.occ - s'.q.occrev) <
      load s.q.occ (s.q.pc t) (s.phase t) (s.loop t) + 500 * (s.q.occ - s.q.occrev)) :
    potential s' < potential s := by
  rw [potential, potential, hocc, ← add_sum_erase _ _ (mem_univ t),
    ← add_sum_erase univ (fun t => load s.q.occ (s.q.pc t) (s.phase t) (s.loop t))
      (mem_univ t),
    sum_congr rfl fun t' ht' => hother t' (ne_of_mem_erase ht')]
  omega

/-- **Every step after `close` lowers the potential.** -/
theorem Inv.potential_lt [Fintype Tid] (hs : Inv v N s) (hterm : s.q.terminating = true)
    (hok : Consuming s a) (h : Trans v N s a s') : potential s' < potential s := by
  cases h with
  | emplace | close => exact hok.elim
  | start t hpc hloop =>
    refine potential_lt_of (t := t) rfl (fun t' ht => ?_) ?_
    · simp [ht]
    · simp [load, credit, hloop, hpc, Pc.popping]
  | pop t hpc hphase hloop =>
    have hwait := wait_rank_le v
    refine potential_lt_of (t := t) rfl (fun t' ht => ?_) ?_
    · simp [ht, goto]
    · have hlooping : s.loop t = .looping := hok
      simp only [goto, update_self, load, credit, rank, hlooping, hpc, hphase, Pc.popping]
      split_ifs <;> simp at * <;> omega
  | access t b q next hq hnext =>
    obtain ⟨hocc, hoccrev, -⟩ := runThread_counters hq
    refine potential_lt_of (t := t) hocc (fun t' ht => ?_) ?_
    · rw [runThread_pc_of_ne hq ht]
      split_ifs <;> simp [ht]
    · have hlt := hs.load_access hterm hnext hq
      simp only [hoccrev, update_self]
      refine Nat.add_lt_add_right ?_ _
      split_ifs at hlt ⊢ with hlast
      · simpa using hlt
      · exact hlt
  | wait t b ph m hw =>
    obtain ⟨r, hr⟩ := (hs.fits t).popTest hw.before
    refine potential_lt_of (t := t) rfl (fun t' ht => ?_) ?_
    · simp [State.goto, ht]
    · have hlt := hw.rank_lt hterm
      simp only [State.goto, update_self, load, rank, hr]
      omega
  | unlock t b hph =>
    have hfits := hs.fits t
    rw [hph] at hfits
    refine potential_lt_of (t := t) rfl (fun t' ht => ?_) ?_
    · simp [State.goto, ht]
    · rcases hfits with h | ⟨r, h⟩ <;> simp [State.goto, load, rank, h, hph]

omit [DecidableEq Tid] in
theorem Inv.calm (hs : Inv v N s) (hterm : s.q.terminating = true) (hok : Consuming s a) : Calm N s a := by
  cases a with
  | emplace | close => exact hok.elim
  | foreachItemDo | pop => trivial
  | run t b =>
    intro x k hpc
    have hclosed := hs.closed hterm t
    rw [hpc] at hclosed
    cases hclosed

theorem terminating_of_trans (hterm : s.q.terminating = true) (h : Trans v N s a s') :
    s'.q.terminating = true := by
  cases h with
  | emplace t x q hq =>
    cases AsyncQueue.trans_of_step hq
    exact hterm
  | access t b q next hq => exact (runThread_counters hq).2.2.trans hterm
  | close => rfl
  | start | pop | wait | unlock => exact hterm

/-- A thread that is inside of `pop` and does not wait for the mutex can go on. -/
theorem Inv.exists_run (hs : Inv v N s) (hbusy : s.phase t = .ready → s.q.pc t ≠ .idle)
    (hfree : (s.phase t = .lock ∨ ∃ b, s.phase t = .relock b) → s.m = none) :
    ∃ s', run v N s t false = some s' := by
  have haccess : ∀ next, s.q.pc t ≠ .idle → ∃ s', s.access N t next = some s' := by
    intro next hpc
    obtain ⟨q, hq⟩ := exists_runThread N hpc
    exact ⟨_, map_eq_some_iff.2 ⟨q, hq, rfl⟩⟩
  have hfits := hs.fits t
  unfold run
  cases hph : s.phase t <;> rw [hph] at hfits
  case ready => exact haccess _ (hbusy hph)
  case spin i =>
    obtain ⟨r, hr⟩ := hfits
    dsimp only
    split_ifs
    · exact haccess _ (by simp [hr])
    all_goals exact ⟨_, rfl⟩
  case lock => exact ⟨_, if_pos (hfree (.inl hph))⟩
  case predStamp | sleep | unlock => exact ⟨_, rfl⟩
  case predTerm b =>
    dsimp only
    split_ifs <;> exact ⟨_, rfl⟩
  case relock b => exact ⟨_, if_pos (hfree (.inr ⟨b, hph⟩))⟩
  case test | reading =>
    obtain ⟨r, hr⟩ := hfits
    exact haccess _ (by simp [hr])

theorem step_pop (hpc : s.q.pc t = .idle) (hphase : s.phase t = .ready) (hloop : s.loop t ≠ .finished) :
    step v N s (.pop t) = some
      { s with
        q := { s.q.goto t (.popTest s.q.occrev) with occrev := s.q.occrev + 1 }
        phase := update s.phase t v.wait } := by
  simp [step, AsyncQueue.step, hpc, hphase, hloop]

/-- As long as a thread is in its loop, or inside of `pop`, some thread can go on. -/
theorem Inv.exists_step (hs : Inv v N s)
    (ht : s.loop t = .looping ∨ s.q.pc t ≠ .idle ∨ s.phase t ≠ .ready) :
    ∃ t' s', step v N s (.run t' false) = some s' ∨ s.loop t' = .looping ∧ step v N s (.pop t') = some s' := by
  by_cases hblocked : (s.phase t = .lock ∨ ∃ b, s.phase t = .relock b) ∧ s.m ≠ none
  · -- The holder of the mutex does not wait for it.
    obtain ⟨h, hm⟩ := ne_none_iff_exists'.1 hblocked.2
    have hholds := (hs.lock h).2 hm
    obtain ⟨s', hs'⟩ : ∃ s', run v N s h false = some s' := by
      refine hs.exists_run (fun hph => ?_) ?_
      · rw [hph] at hholds
        cases hholds
      · rintro (hph | ⟨b, hph⟩) <;> rw [hph] at hholds <;> cases hholds
    exact ⟨h, s', .inl hs'⟩
  · by_cases hready : s.phase t = .ready ∧ s.q.pc t = .idle
    · have hloop : s.loop t = .looping := by
        rcases ht with h | h | h
        · exact h
        · exact absurd hready.2 h
        · exact absurd hready.1 h
      exact ⟨t, _, .inr ⟨hloop, step_pop hready.2 hready.1 (by simp [hloop])⟩⟩
    · obtain ⟨s', hs'⟩ : ∃ s', run v N s t false = some s' := by
        refine hs.exists_run (fun hph hidle => hready ⟨hph, hidle⟩) fun hw => ?_
        by_contra hm
        exact hblocked ⟨hw, hm⟩
      exact ⟨t, s', .inl hs'⟩

omit [DecidableEq Tid] in
/-- **Exactly the emplaced items** have been received once a consumer has finished and nobody is inside of
a call. -/
theorem Inv.received (hs : Inv v N s) (hidle : ∀ t, s.q.pc t = .idle) (hfin : ∃ t, s.loop t = .finished) :
    (s.q.popped.map Prod.snd).Perm s.q.emplaced := by
  obtain ⟨t, ht⟩ := hfin
  have hlt := (hs.finished t ht).2.1
  have hall : ∀ k, k ∈ s.q.returned ↔ k ∈ List.range s.q.occ := by
    intro k
    rw [List.mem_range]
    refine ⟨fun h => (hs.slots.returned_published k h).1, fun h => ?_⟩
    rcases hs.tickets.accounted k (h.trans hlt) with hret | hmiss | ⟨t', hpop⟩
    · exact hret
    · exact absurd (hs.tickets.missed_terminating k hmiss).1 (Nat.not_le.2 h)
    · rw [hidle t'] at hpop
      cases hpop
  have hperm : s.q.returned.Perm (range s.q.occ) :=
    (perm_ext_iff_of_nodup hs.tickets.returned_nodup nodup_range).2 hall
  have hvalues : s.q.popped.map (some ∘ Prod.snd) = s.q.returned.map fun k => s.q.emplaced[k]? := by
    rw [returned, List.map_map]
    refine map_congr_left fun x hx => ?_
    exact (hs.slots.popped_value x.1 x.2 hx).symm
  have hback : (List.range s.q.occ).map (fun k => s.q.emplaced[k]?) = s.q.emplaced.map some := by
    rw [← hs.tickets.length_emplaced]
    refine ext_getElem (by simp) fun i h₁ h₂ => ?_
    have hi : i < s.q.emplaced.length := by simpa using h₂
    simp [hi]
  refine (map_perm_map_iff (some_injective T)).1 ?_
  rw [List.map_map, hvalues, ← hback]
  exact hperm.map _

/-- **Termination.** From the state after `close`, every run of the consumers is at most `potential` long,
it can go on as long as a consumer is in its loop, and in the end exactly the emplaced items have been
received, if there is a consumer. -/
theorem consumers_terminate [Fintype Tid] (hN : 0 < N)
    (h : Reach (step v N) (Calm N) (init junk) s) (hterm : s.q.terminating = true) {as : List (Action Tid T)}
    (hrun : Run (step v N) Consuming s as s') : as.length ≤ potential s ∧
    (∀ t, s'.loop t = .looping ∨ s'.q.pc t ≠ .idle ∨ s'.phase t ≠ .ready → ∃ t' s'',
      step v N s' (.run t' false) = some s'' ∨ s'.loop t' = .looping ∧ step v N s' (.pop t') = some s'') ∧
    ((∀ t, s'.q.pc t = .idle) → (∃ t, s'.loop t = .finished) →
      (s'.q.popped.map Prod.snd).Perm s'.q.emplaced) := by
  obtain ⟨⟨hs', -⟩, hlen⟩ := hrun.length_add_le (I := fun s => Inv v N s ∧ s.q.terminating = true)
    ⟨inv_of_reach hN h, hterm⟩ fun s a s' hs hok hstep =>
      have htrans := trans_of_step hstep
      ⟨⟨hs.1.trans hN (hs.1.calm hs.2 hok) htrans, terminating_of_trans hs.2 htrans⟩,
        hs.1.potential_lt hs.2 hok htrans⟩
  exact ⟨(Nat.le_add_right _ _).trans hlen, fun t => hs'.exists_step, hs'.received⟩

end

/-! ## A consumer that never finishes -/

/-- At most `N` items are between the beginning of their `emplace` and the end of their `pop`, and the
queue is closed when all `emplace`s have returned. -/
def Bounded (N : ℕ) (s : State Tid T) : Action Tid T → Prop
  | .emplace _ _ => s.q.emplaced.length < s.q.popped.length + N
  | .close => ∀ t, inEmplace (s.q.pc t) = false
  | _ => True

/-- No more items come. -/
def NoEmplace (_ : State Tid T) : Action Tid T → Prop
  | .emplace _ _ => False
  | _ => True

/-- The consumer, thread `true`, waits for ticket 0, and its slot has a later stamp. -/
structure Missed (s : State Bool T) : Prop where
  loop : s.loop true = .looping
  pc : s.q.pc true = .popTest 0 ∨ s.q.pc true = .popTerm 0 ∨ s.q.pc true = .popOcc 0
  stamp : (s.q.data 0).2 ≠ some 0
  occ : 0 < s.q.occ
  other : inEmplace (s.q.pc false) = false
  phase : ∀ t, s.phase t = .ready

theorem update_ready {f : Bool → Phase} (hf : ∀ t, f t = .ready) (t : Bool) (hph : ph = .ready)
    (t' : Bool) : update f t ph t' = .ready := by
  by_cases ht : t' = t
  · rw [ht, update_self, hph]
  · rw [update_of_ne ht, hf]

theorem runThread_data {q q' : Queue Bool T} {t : Bool} (h : runThread N q t = some q')
    (hpc : inEmplace (q.pc t) = false) : q'.data = q.data := by
  cases trans_of_runThread h with
  | store t v k hk | stamp t v k hk => simp [hk, inEmplace] at hpc
  | _ => rfl

theorem Missed.trans {s s' : State Bool T} {a : Action Bool T} (hs : Missed s)
    (hok : NoEmplace s a) (h : Trans .spinning N s a s') : Missed s' := by
  cases h with
  | emplace => exact hok.elim
  | start t hpc hloop =>
    refine { hs with loop := ?_ }
    show update s.loop t .looping true = .looping
    by_cases ht : true = t
    · rw [← ht, update_self]
    · rw [update_of_ne ht, hs.loop]
  | pop t hpc hphase hloop =>
    -- Only the other thread can begin a `pop`.
    have ht : t = false := by
      cases t with
      | false => rfl
      | true => rcases hs.pc with h | h | h <;> cases hpc.symm.trans h
    subst ht
    exact {
      loop := hs.loop
      pc := by simpa [goto] using hs.pc
      stamp := hs.stamp
      occ := hs.occ
      other := by simp [goto, inEmplace]
      phase := update_ready hs.phase false rfl }
  | close => exact { hs with }
  | access t b q next hq hnext =>
    obtain ⟨hocc, -, -⟩ := runThread_counters hq
    have hclosed : inEmplace (s.q.pc t) = false := by
      cases t with
      | false => exact hs.other
      | true => rcases hs.pc with h | h | h <;> rw [h] <;> rfl
    have hdata := runThread_data hq hclosed
    have hpc : (q.pc true = .popTest 0 ∨ q.pc true = .popTerm 0 ∨ q.pc true = .popOcc 0) := by
      cases t with
      | false => rw [runThread_pc_of_ne hq (by decide)]; exact hs.pc
      | true =>
        rcases hs.pc with h | h | h
        · rcases runThread_popTest hq h with ⟨hst, -⟩ | ⟨-, hpc⟩
          · exact absurd hst hs.stamp
          · exact .inr (.inl hpc)
        · cases hterm : s.q.terminating with
          | true => exact .inr (.inr (runThread_popTerm hq h hterm))
          | false =>
            simp only [runThread, h, hterm] at hq
            cases hq
            exact .inl (by simp [goto])
        · rcases runThread_popOcc hq h with ⟨-, hpc⟩ | ⟨hle, -⟩
          · exact .inl hpc
          · exact absurd hs.occ (by omega)
    have hother : inEmplace (q.pc false) = false := by
      cases t with
      | false => exact runThread_inEmplace hq hclosed
      | true => rw [runThread_pc_of_ne hq (by decide)]; exact hs.other
    have hlast : ¬(s.loop t = .looping ∧ lastPop (s.q.pc t) (q.pc t) = true ∧ t = true) := by
      rintro ⟨-, hl, rfl⟩
      rcases hpc with h | h | h <;> rw [h] at hl <;> cases hs' : s.q.pc true <;> rw [hs'] at hl <;> cases hl
    refine ⟨?_, hpc, by rw [hdata]; exact hs.stamp, by rw [hocc]; exact hs.occ, hother,
      update_ready hs.phase t ?_⟩
    · show (if _ then update s.loop t .finished else s.loop) true = .looping
      split_ifs with hl
      · rw [update_of_ne fun ht => hlast ⟨hl.1, hl.2, ht.symm⟩, hs.loop]
      · exact hs.loop
    · rw [hnext.eq_entry (hs.phase t)]
      cases q.pc t <;> rfl
  | wait t b ph m hw =>
    have hbefore := hw.before
    rw [hs.phase t] at hbefore
    cases hbefore
  | unlock t b hph => cases hph.symm.trans (hs.phase t)

/-- The queue with nobody asleep, while thread `true` is in its loop. -/
def inLoop (q : Queue Bool Bool) : State Bool Bool where
  q := q
  phase _ := .ready
  m := none
  loop t := if t then .looping else .outside

/-- What the threads do to the queue, in terms of the machine here. -/
def ofQueue : AsyncQueue.Action Bool Bool → Action Bool Bool
  | .emplace t v => .emplace t v
  | .pop t => .pop t
  | .close => .close
  | .run t => .run t false

variable {q q' : Queue Bool Bool}

theorem step_inLoop {a : AsyncQueue.Action Bool Bool}
    (ha : a = .pop true ∨ a = .pop false ∨ a = .run false ∨ a = .close ∨ ∃ v, a = .emplace false v)
    (h : AsyncQueue.step N q a = some q') : step .spinning N (inLoop q) (ofQueue a) = some (inLoop q') := by
  have hentry : ∀ p : Pc Bool, Variant.spinning.entry p = .ready := fun p => by cases p <;> rfl
  rcases ha with rfl | rfl | rfl | rfl | ⟨v, rfl⟩
  iterate 2 simp [step, ofQueue, inLoop, h, Variant.wait]
  · have hq : runThread N q false = some q' := h
    simp [step, ofQueue, inLoop, QueueConsumers.run, State.access, hq, hentry]
  · cases h
    simp [step, ofQueue, inLoop, AsyncQueue.step]
  · simp [step, ofQueue, inLoop, h]

/-- A run with at most `N` outstanding items leads to the queue. -/
abbrev Attained (N : ℕ) (q : Queue Bool Bool) : Prop :=
  Reach (step .spinning N) (Bounded N) (init false) (inLoop q)

theorem reach_inLoop {as : List (AsyncQueue.Action Bool Bool)}
    (has : ∀ a ∈ as, a = .pop true ∨ a = .pop false ∨ a = .run false)
    (hq : Attained N q) (h : exec (AsyncQueue.step N) q as = some q') : Attained N q' := by
  induction as generalizing q with
  | nil => cases h; exact hq
  | cons a as ih =>
    rw [exec_cons, bind_eq_some_iff] at h
    obtain ⟨q₁, hq₁, h⟩ := h
    have ha := has a mem_cons_self
    refine ih (fun b hb => has b (mem_cons_of_mem a hb)) (hq.next (ofQueue a) ?_ ?_) h
    · rcases ha with rfl | rfl | rfl <;> trivial
    · exact step_inLoop (ha.imp_right (.imp_right .inl)) hq₁

/-- One item more is emplaced. -/
theorem reach_emplace {v : Bool} (hq : Attained N q)
    (hlt : q.emplaced.length < q.popped.length + N)
    (h : exec (AsyncQueue.step N) q (AsyncQueue.emplaceCall v) = some q') : Attained N q' := by
  rw [emplaceCall, exec_cons, bind_eq_some_iff] at h
  obtain ⟨q₁, hq₁, h⟩ := h
  refine reach_inLoop (by simp) (hq.next (.emplace false v) hlt ?_) h
  exact step_inLoop (.inr (.inr (.inr (.inr ⟨v, rfl⟩)))) hq₁

theorem reach_filled {k : ℕ} (hk : k ≤ N) : Attained N (filled k) := by
  induction k with
  | zero =>
    refine Reach.init.next (.foreachItemDo true) trivial ?_
    have hloop : update (fun _ : Bool => Loop.outside) true .looping =
        fun t => if t then .looping else .outside := by
      funext t
      cases t <;> rfl
    show some _ = some _
    congr 1
    exact congrArg (State.mk (filled 0) (fun _ => .ready) none) hloop
  | succ k ih =>
    refine reach_emplace (ih (by omega)) ?_ (AsyncQueue.exec_emplaceCall (by omega))
    simp only [AsyncQueue.filled, length_replicate, length_nil]
    omega

/-- The consumer has drawn ticket 0, and the other thread has popped the item behind it. -/
def overtaken (N : ℕ) : Queue Bool Bool :=
  { AsyncQueue.filled N with
    occrev := 2
    pc := update (fun _ => .idle) true (.popTest 0)
    popped := [(1, false)] }

theorem exec_overtake (hN : 2 ≤ N) :
    exec (AsyncQueue.step N) (AsyncQueue.filled N) [.pop true, .pop false, .run false, .run false] =
      some (overtaken N) := by
  have hmod : 1 % N = 1 := Nat.mod_eq_of_lt hN
  have hlt : 1 < N := hN
  have hpc : ∀ p : Pc Bool,
      update (update (fun _ : Bool => Pc.idle) true p) false Pc.idle =
        update (fun _ : Bool => Pc.idle) true p := by
    intro p
    funext t
    cases t <;> rfl
  simp [AsyncQueue.step, runThread, AsyncQueue.filled, goto, overtaken, hmod, hlt, hpc]

/-- The slot of ticket 0 gets the stamp of ticket `N`. -/
theorem exec_overrun (N : ℕ) :
    ∃ q, exec (AsyncQueue.step N) (overtaken N) (AsyncQueue.emplaceCall true) = some q ∧
      q.pc true = .popTest 0 ∧ q.pc false = .idle ∧ (q.data 0).2 = some N ∧ q.occ = N + 1 := by
  have hwait : ¬2 + N ≤ N := by omega
  simp [AsyncQueue.emplaceCall, AsyncQueue.step, runThread, overtaken, AsyncQueue.filled, goto, hwait]

theorem exists_stuck (hN : 2 ≤ N) :
    ∃ s : State Bool Bool, Reach (step .spinning N) (Bounded N) (init false) s ∧ s.q.terminating = true ∧
      ∀ s', Reach (step .spinning N) NoEmplace s s' → s'.loop true = .looping := by
  obtain ⟨q, hq, hpc, hpc', hstamp, hocc⟩ := exec_overrun N
  have hover : Attained N (overtaken N) :=
    reach_inLoop (by simp) (reach_filled le_rfl) (exec_overtake hN)
  have hfull : Attained N q := by
    refine reach_emplace hover ?_ hq
    simp only [overtaken, AsyncQueue.filled, length_replicate, length_singleton]
    omega
  have hclosed : Attained N { q with terminating := true } := by
    refine hfull.next .close (fun t => ?_) (step_inLoop (a := .close) (by simp) rfl)
    cases t with
    | false => exact congrArg inEmplace hpc'
    | true => exact congrArg inEmplace hpc
  have hmissed : Missed (inLoop { q with terminating := true }) :=
    { loop := rfl
      pc := .inl hpc
      stamp := by
        show (q.data 0).2 ≠ some 0
        rw [hstamp]
        intro h
        have := some.inj h
        omega
      occ := by
        show 0 < q.occ
        omega
      other := congrArg inEmplace hpc'
      phase := fun _ => rfl }
  refine ⟨_, hclosed, rfl, fun s' hs' => ?_⟩
  exact (hs'.invariant hmissed fun _ _ _ hs hok hstep => hs.trans hok (trans_of_step hstep)).loop

/-- **A consumer that never finishes.** With 2048 slots and never more than 2048 outstanding items, all
`emplace`s have returned, the queue is closed, and the consumer with ticket 0 waits forever. -/
theorem consumer_never_finishes :
    ∃ s : State Bool Bool, Reach (step .spinning 2048) (Bounded 2048) (init false) s ∧
      s.q.terminating = true ∧
      ∀ s', Reach (step .spinning 2048) NoEmplace s s' → s'.loop true = .looping :=
  exists_stuck (by decide)

end Proteus.QueueConsumers
