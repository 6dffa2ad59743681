import Mathlib.Data.Fintype.Basic
import Proteus.Machine

/-!
# The elastic thread pool

The workers of a `ThreadPool` take tasks from one queue. A worker locks the queue, counts itself as
idle, waits until there is a task, and takes it; `enqueue` locks the queue, appends a task, starts
another worker if fewer are idle than tasks are queued, and notifies all workers after it has
unlocked the queue. A worker that was notified is counted as idle until it has the lock again.

The model has one state per point of the code between two accesses to what the threads share. The
workers that can take a task are never fewer than the tasks (`Inv.enough`): an idle worker leaves
the count only when it takes a task, and a caller that finds too few idle workers adds one before it
unlocks the queue. A parked worker does not sleep beside a queued task, since the caller that
appended the task has yet to notify (`Inv.notified`). No invariant needs a running task to finish.
-/

namespace Proteus.ThreadPool

open Function List

/-! ## The pool -/

/-- Where a worker stands. -/
inductive Worker (τ : Type*)
  /-- started, before it locks the queue for the first time -/
  | start
  /-- after a task, before it locks the queue again -/
  | again
  /-- has the lock, before `++idle_workers` -/
  | counting
  /-- has the lock, before the condition of `wait` is evaluated -/
  | testing
  /-- waits to be notified -/
  | parked
  /-- notified, waits for the lock -/
  | woken
  /-- has the lock, `wait` has returned -/
  | leaving
  /-- has the lock, after `--idle_workers` -/
  | taking
  /-- has the lock and a task -/
  | holding (task : τ)
  /-- has unlocked the queue, before the call of the task -/
  | ready (task : τ)
  | running (task : τ)
  /-- has the lock, after `break` -/
  | broke
  | exited

def Worker.notify {τ : Type*} : Worker τ → Worker τ
  | .parked => .woken
  | w => w

/-- Where a call of `enqueue` stands. -/
inductive Caller (τ : Type*)
  | outside
  | lock (task : τ)
  | push (task : τ)
  /-- before `idle_workers < tasks.size()` -/
  | check
  | addThread
  | unlock
  | notify

inductive Holder (C : Type*)
  | worker (i : ℕ)
  | caller (c : C)

/-- What the threads share, and where they stand. -/
structure State (C τ : Type*) where
  workers : List (Worker τ)
  caller : C → Caller τ
  queue_mutex : Option (Holder C)
  tasks : List τ
  idle_workers : ℕ
  terminate : Bool

variable {C τ : Type*}

/-- The pool that the constructor leaves. -/
def init (initialNumberOfThreads : ℕ) : State C τ where
  workers := List.replicate initialNumberOfThreads .start
  caller := fun _ => .outside
  queue_mutex := none
  tasks := []
  idle_workers := 0
  terminate := false

variable (s : State C τ)

namespace State

def setWorker (i : ℕ) (w : Worker τ) : State C τ :=
  { s with workers := s.workers.set i w }

/-- Lock the queue, if it is not locked. -/
def acquire (h : Holder C) : Option (State C τ) :=
  match s.queue_mutex with
  | none => some { s with queue_mutex := some h }
  | some _ => none

def release : State C τ := { s with queue_mutex := none }

/-- `notify_all`. -/
def notifyAll : State C τ :=
  { s with workers := s.workers.map Worker.notify }

/-- The loop of a worker, up to the call of a task. -/
def workerStep (i : ℕ) : Option (State C τ) :=
  match s.workers[i]? with
  | some .start => (s.acquire (.worker i)).map fun s => s.setWorker i .counting
  | some .again => (s.acquire (.worker i)).map fun s => s.setWorker i .counting
  | some .counting => some ({ s with idle_workers := s.idle_workers + 1 }.setWorker i .testing)
  | some .testing =>
    if s.terminate = false ∧ s.tasks = [] then some (s.release.setWorker i .parked)
    else some (s.setWorker i .leaving)
  | some .woken => (s.acquire (.worker i)).map fun s => s.setWorker i .testing
  | some .leaving => some ({ s with idle_workers := s.idle_workers - 1 }.setWorker i .taking)
  | some .taking =>
    match s.tasks with
    | [] => if s.terminate then some (s.setWorker i .broke) else none
    | task :: tasks =>
      some ({ s with tasks := tasks }.setWorker i (.holding task))
  | some (.holding task) => some (s.release.setWorker i (.ready task))
  | some (.ready task) => some (s.setWorker i (.running task))
  | some .broke => some (s.release.setWorker i .exited)
  | some .parked => none
  | some (.running _) => none
  | some .exited => none
  | none => none

section

variable [DecidableEq C]

def setCaller (s : State C τ) (c : C) (x : Caller τ) : State C τ :=
  { s with caller := update s.caller c x }

/-- The body of `enqueue`. -/
def callerStep (elastic : Bool) (s : State C τ) (c : C) : Option (State C τ) :=
  match s.caller c with
  | .outside => none
  | .lock task => (s.acquire (.caller c)).map fun s => s.setCaller c (.push task)
  | .push task =>
    some ({ s with tasks := s.tasks ++ [task] }.setCaller c .check)
  | .check =>
    if elastic = true ∧ s.idle_workers < s.tasks.length then some (s.setCaller c .addThread)
    else some (s.setCaller c .unlock)
  | .addThread => some ({ s with workers := s.workers ++ [Worker.start] }.setCaller c .unlock)
  | .unlock => some (s.release.setCaller c .notify)
  | .notify => some (s.notifyAll.setCaller c .outside)

end

end State

/-- The threads take turns. A task may return or never do so, `wait` may return without a
notification, and the pool may be told to terminate. -/
inductive Move (C τ : Type*)
  | worker (i : ℕ)
  | finish (i : ℕ)
  | spurious (i : ℕ)
  | enqueue (c : C) (task : τ)
  | caller (c : C)
  | terminate
  | terminateNotify

def step [DecidableEq C] (elastic : Bool) (s : State C τ) : Move C τ → Option (State C τ)
  | .worker i => s.workerStep i
  | .finish i =>
    match s.workers[i]? with
    | some (.running _) => some (s.setWorker i .again)
    | _ => none
  | .spurious i =>
    match s.workers[i]? with
    | some .parked => some (s.setWorker i .woken)
    | _ => none
  | .enqueue c task =>
    match s.caller c with
    | .outside => some (s.setCaller c (.lock task))
    | _ => none
  | .caller c => s.callerStep elastic c
  | .terminate => some { s with terminate := true }
  | .terminateNotify => if s.terminate then some s.notifyAll else none

/-! ## Invariants -/

namespace Worker

def critical : Worker τ → Bool
  | .counting | .testing | .leaving | .taking | .holding _ | .broke => true
  | _ => false

/-- Counted in `idle_workers`. -/
def isIdle : Worker τ → Bool
  | .testing | .parked | .woken | .leaving => true
  | _ => false

def isStart : Worker τ → Bool
  | .start => true
  | _ => false

/-- Will take a task, if there is one. -/
def available : Worker τ → Bool
  | .start | .counting | .testing | .parked | .woken | .leaving | .taking => true
  | _ => false

/-- Has found the condition of `wait` to hold. -/
def passed : Worker τ → Bool
  | .leaving | .taking => true
  | _ => false

end Worker

namespace Caller

def critical : Caller τ → Bool
  | .push _ | .check | .addThread | .unlock => true
  | _ => false

/-- Has appended a task and not yet notified the workers. -/
def owesNotify : Caller τ → Bool
  | .check | .addThread | .unlock | .notify => true
  | _ => false

/-- May have to start a worker for its task. -/
def owesThread : Caller τ → Bool
  | .check | .addThread => true
  | _ => false

end Caller

/-- One, while a call may have to start a worker. -/
def State.owed : ℕ :=
  match s.queue_mutex with
  | some (.caller c) => (s.caller c).owesThread.toNat
  | _ => 0

structure Inv (s : State C τ) : Prop where
  worker_lock : ∀ (i : ℕ) (w : Worker τ), s.workers[i]? = some w →
    (w.critical = true ↔ s.queue_mutex = some (.worker i))
  holder : ∀ i, s.queue_mutex = some (.worker i) → ∃ w, s.workers[i]? = some w
  caller_lock : ∀ c, (s.caller c).critical = true ↔ s.queue_mutex = some (.caller c)
  idle : s.idle_workers = s.workers.countP Worker.isIdle
  enough : s.tasks.length ≤ s.workers.countP Worker.available + s.owed
  passed : ∀ (i : ℕ) (w : Worker τ), s.workers[i]? = some w → w.passed = true → s.terminate = true ∨ s.tasks ≠ []
  notified : Worker.parked ∈ s.workers → s.tasks ≠ [] → ∃ c, (s.caller c).owesNotify = true

open State Worker

theorem inv_init (n : ℕ) : Inv (init n : State C τ) := by
  have hstart : ∀ (i : ℕ) (w : Worker τ), (init n : State C τ).workers[i]? = some w → w = start := by
    intro i w hw
    exact eq_of_mem_replicate (mem_of_getElem? hw)
  refine ⟨fun i w hw => ?_, fun i hl => ?_, fun c => ?_, ?_, Nat.zero_le _, fun i w hw hp => ?_,
    fun hp => ?_⟩
  · rw [hstart i w hw]
    simp [init, critical]
  · cases hl
  · simp [init, Caller.critical]
  · simp [init, countP_replicate, isIdle]
  · rw [hstart i w hw] at hp
    cases hp
  · cases eq_of_mem_replicate hp

variable {s s' : State C τ} {w w' : Worker τ}

section

variable {i : ℕ}

/-- A worker in its critical section keeps the other workers out of theirs. -/
theorem Inv.not_critical (inv : Inv s) (hi : s.workers[i]? = some w) (hc : w.critical = true) {j : ℕ}
    {x : Worker τ} (hj : j ≠ i) (hx : s.workers[j]? = some x) : x.critical = false := by
  rw [Bool.eq_false_iff]
  intro hxc
  have h1 := (inv.worker_lock i w hi).1 hc
  rw [(inv.worker_lock j x hx).1 hxc] at h1
  cases h1
  exact hj rfl

theorem critical_of_passed (h : w.passed = true) : w.critical = true := by
  cases w <;> first | rfl | cases h

/-- One worker moves. -/
theorem Inv.moved (inv : Inv s) (hi : s.workers[i]? = some w) (hw : s'.workers = s.workers.set i w')
    (hcaller : s'.caller = s.caller) (hterm : s'.terminate = s.terminate)
    (hlock : LockMove (.worker i) w.critical w'.critical s.queue_mutex s'.queue_mutex)
    (hidle : s'.idle_workers + w.isIdle.toNat = s.idle_workers + w'.isIdle.toNat) (havail : s'.tasks = [] ∨
      s'.tasks.length + w.available.toNat ≤ s.tasks.length + w'.available.toNat)
    (htasks : s'.tasks = s.tasks ∨ w.critical = true ∧ s.tasks ≠ [])
    (hpassed : w'.passed = true → s'.terminate = true ∨ s'.tasks ≠ [])
    (hparked : w' = .parked → s'.tasks = []) : Inv s' := by
  have hown := inv.worker_lock i w hi
  refine ⟨fun j x hx => ?_, fun j hl => ?_, fun c => ?_, ?_, ?_, fun j x hx hp => ?_,
    fun hp ht => ?_⟩
  · rw [hw] at hx
    rcases getElem?_set_cases hx with ⟨rfl, rfl⟩ | ⟨hj, hx⟩
    · exact hlock.own hown
    · exact hlock.other hown (by simpa using hj) (inv.worker_lock j x hx)
  · rw [hw]
    by_cases hj : j = i
    · subst hj
      exact ⟨w', by simp [(List.getElem?_eq_some_iff.1 hi).1]⟩
    · rw [getElem?_set_ne (Ne.symm hj)]
      exact inv.holder j (hlock.of_other (by simpa using hj) hl)
  · rw [hcaller]
    exact hlock.other hown (by simp) (inv.caller_lock c)
  · have hcount := countP_set_add (y := w') hi isIdle
    have hold := inv.idle
    rw [hw]
    omega
  · have hcount := countP_set_add (y := w') hi available
    have henough := inv.enough
    have howed : s'.owed = s.owed := by
      unfold owed
      rw [hcaller]
      generalize s.queue_mutex = l at hlock hown
      generalize s'.queue_mutex = l' at hlock
      generalize w.critical = b at hlock hown
      generalize w'.critical = b' at hlock
      cases hlock with
      | keep => rfl
      | acquire => rfl
      | release => rw [hown.1 rfl]
    rw [hw, howed]
    rcases havail with hnil | havail
    · rw [hnil]
      exact Nat.zero_le _
    · omega
  · rw [hw] at hx
    rcases getElem?_set_cases hx with ⟨rfl, rfl⟩ | ⟨hj, hx⟩
    · exact hpassed hp
    · rcases htasks with htasks | ⟨hc, -⟩
      · rw [htasks, hterm]
        exact inv.passed j x hx hp
      · exact absurd (critical_of_passed hp) (by simp [inv.not_critical hi hc hj hx])
  · rw [hcaller]
    refine inv.notified ?_ (htasks.elim (fun htasks => htasks ▸ ht) And.right)
    rw [hw] at hp
    rcases mem_or_eq_of_mem_set hp with hp | heq
    · exact hp
    · exact absurd (hparked heq.symm) ht

theorem acquire_eq_some {h : Holder C} {g : State C τ → State C τ} (hs : (s.acquire h).map g = some s') :
    s.queue_mutex = none ∧ s' = g { s with queue_mutex := some h } := by
  obtain ⟨s₁, hs₁, rfl⟩ := Option.map_eq_some_iff.1 hs
  unfold acquire at hs₁
  cases hl : s.queue_mutex <;> rw [hl] at hs₁ <;> cases hs₁
  exact ⟨rfl, rfl⟩

theorem exists_worker (hs : s.workerStep i = some s') : ∃ w, s.workers[i]? = some w := by
  unfold workerStep at hs
  cases hi : s.workers[i]? with
  | none =>
    rw [hi] at hs
    cases hs
  | some w => exact ⟨w, rfl⟩

theorem Inv.workerStep (inv : Inv s) (hs : s.workerStep i = some s') : Inv s' := by
  obtain ⟨w, hi⟩ := exists_worker hs
  simp only [State.workerStep, hi] at hs
  cases w with
  | start | again | woken =>
    obtain ⟨hl, rfl⟩ := acquire_eq_some hs
    refine inv.moved hi rfl rfl rfl ?_ rfl (.inr (Nat.add_le_add_left ?_ _)) (.inl rfl)
      nofun nofun
    · rw [hl]
      exact .acquire
    · simp [available]
  | counting =>
    cases hs
    exact inv.moved hi rfl rfl rfl (.keep _ _) rfl (.inr le_rfl) (.inl rfl) nofun nofun
  | testing =>
    simp only at hs
    split_ifs at hs with hcond <;> cases hs
    · exact inv.moved hi rfl rfl rfl (.release _) rfl (.inr le_rfl) (.inl rfl) nofun
        (fun _ => hcond.2)
    · refine inv.moved hi rfl rfl rfl (.keep _ _) rfl (.inr le_rfl) (.inl rfl) (fun _ => ?_)
        nofun
      rwa [not_and_or, Bool.not_eq_false] at hcond
  | leaving =>
    cases hs
    have hpos : 0 < s.idle_workers := by
      rw [inv.idle, countP_pos_iff]
      exact ⟨_, mem_of_getElem? hi, rfl⟩
    exact inv.moved hi rfl rfl rfl (.keep _ _) (Nat.sub_add_cancel hpos) (.inr le_rfl) (.inl rfl)
      (fun _ => inv.passed i _ hi rfl) nofun
  | taking =>
    cases ht : s.tasks <;> rw [ht] at hs
    case nil =>
      simp only at hs
      split_ifs at hs with hterm
      cases hs
      -- a worker leaves the pool only when no task is queued
      exact inv.moved hi rfl rfl rfl (.keep _ _) rfl (.inl ht) (.inl rfl) nofun nofun
    case cons task tasks =>
      cases hs
      refine inv.moved hi rfl rfl rfl (.keep _ _) rfl (.inr ?_) (.inr ⟨rfl, by simp [ht]⟩)
        nofun nofun
      rw [ht]
      rfl
  | holding | broke =>
    cases hs
    exact inv.moved hi rfl rfl rfl (.release _) rfl (.inr le_rfl) (.inl rfl) nofun nofun
  | ready task =>
    cases hs
    exact inv.moved hi rfl rfl rfl (.keep _ _) rfl (.inr le_rfl) (.inl rfl) nofun nofun
  | parked | running | exited => cases hs

@[simp] theorem critical_notify : w.notify.critical = w.critical := by cases w <;> rfl

@[simp] theorem isIdle_notify : w.notify.isIdle = w.isIdle := by cases w <;> rfl

@[simp] theorem available_notify : w.notify.available = w.available := by cases w <;> rfl

@[simp] theorem passed_notify : w.notify.passed = w.passed := by cases w <;> rfl

theorem not_parked_mem_notifyAll : parked ∉ s.notifyAll.workers := by
  intro h
  obtain ⟨w, -, hw⟩ := mem_map.1 h
  cases w <;> cases hw

theorem Inv.notifyAll (inv : Inv s) : Inv s.notifyAll := by
  have hold : ∀ (j : ℕ) (x : Worker τ), s.notifyAll.workers[j]? = some x →
      ∃ w, s.workers[j]? = some w ∧ w.notify = x := by
    intro j x hx
    rw [State.notifyAll, getElem?_map] at hx
    exact Option.map_eq_some_iff.1 hx
  refine ⟨fun j x hx => ?_, fun j hl => ?_, inv.caller_lock, ?_, ?_, fun j x hx hp => ?_,
    fun hp => absurd hp not_parked_mem_notifyAll⟩
  · obtain ⟨w, hw, rfl⟩ := hold j x hx
    rw [critical_notify]
    exact inv.worker_lock j w hw
  · obtain ⟨w, hw⟩ := inv.holder j hl
    exact ⟨w.notify, by simp [State.notifyAll, hw]⟩
  · have hcount : (isIdle ∘ notify : Worker τ → Bool) = isIdle :=
      funext fun _ => isIdle_notify
    rw [State.notifyAll, countP_map, hcount]
    exact inv.idle
  · have hcount : (available ∘ notify : Worker τ → Bool) = available :=
      funext fun _ => available_notify
    rw [State.notifyAll, countP_map, hcount]
    exact inv.enough
  · obtain ⟨w, hw, rfl⟩ := hold j x hx
    rw [passed_notify] at hp
    exact inv.passed j w hw hp

end

/-! ## Calls -/

variable {m : Move C τ}

section

variable {c : C} {x x' : Caller τ}

theorem Inv.owed_eq (inv : Inv s) (hx : s.caller c = x) (hc : x.critical = true) :
    s.owed = x.owesThread.toNat := by
  have hl := (inv.caller_lock c).1 (hx ▸ hc)
  rw [owed, hl]
  simp only [hx]

theorem owed_eq_zero (hl : s.queue_mutex = none) : s.owed = 0 := by rw [owed, hl]

/-- Another worker is started. -/
theorem Inv.spawn (inv : Inv s) : Inv { s with workers := s.workers ++ [start] } := by
  refine ⟨fun j w hw => ?_, fun j hl => ?_, inv.caller_lock, ?_, ?_, fun j w hw hp => ?_,
    fun hp => inv.notified ?_⟩
  · rcases getElem?_concat_cases hw with hw | ⟨rfl, rfl⟩
    · exact inv.worker_lock j w hw
    · have hne : s.queue_mutex ≠ some (.worker s.workers.length) := by
        intro hl
        obtain ⟨w, hw⟩ := inv.holder _ hl
        simp at hw
      simp [critical, hne]
  · obtain ⟨w, hw⟩ := inv.holder j hl
    exact ⟨w, by rw [List.getElem?_append_left (List.getElem?_eq_some_iff.1 hw).1, hw]⟩
  · have hidle := inv.idle
    simpa [isIdle] using hidle
  · refine inv.enough.trans (Nat.add_le_add_right ?_ _)
    rw [countP_append]
    exact Nat.le_add_right _ _
  · rcases getElem?_concat_cases hw with hw | ⟨rfl, rfl⟩
    · exact inv.passed j w hw hp
    · cases hp
  · simpa using hp

variable [DecidableEq C]

/-- One caller moves. -/
theorem Inv.called (inv : Inv s) (hx : s.caller c = x)
    (hcaller : s'.caller = update s.caller c x') (hworkers : s'.workers = s.workers)
    (hterm : s'.terminate = s.terminate) (hidle : s'.idle_workers = s.idle_workers)
    (hlock : LockMove (.caller c) x.critical x'.critical s.queue_mutex s'.queue_mutex)
    (henough : s'.tasks.length ≤ s.workers.countP available + s'.owed)
    (htasks : s.tasks ≠ [] → s'.tasks ≠ []) (hnotify : parked ∈ s.workers → s'.tasks ≠ [] →
      x'.owesNotify = true ∨ x.owesNotify = false ∧ s.tasks ≠ []) : Inv s' := by
  have hown : x.critical = true ↔ s.queue_mutex = some (.caller c) := hx ▸ inv.caller_lock c
  refine ⟨fun j w hw => ?_, fun j hl => ?_, fun c' => ?_, ?_, ?_, fun j w hw hp => ?_,
    fun hp ht => ?_⟩
  · rw [hworkers] at hw
    exact hlock.other hown (by simp) (inv.worker_lock j w hw)
  · rw [hworkers]
    exact inv.holder j (hlock.of_other (by simp) hl)
  · rw [hcaller]
    by_cases hc' : c' = c
    · subst hc'
      rw [update_self]
      exact hlock.own hown
    · rw [update_of_ne hc']
      exact hlock.other hown (by simpa using hc') (inv.caller_lock c')
  · rw [hidle, hworkers]
    exact inv.idle
  · rwa [hworkers]
  · rw [hworkers] at hw
    rw [hterm]
    exact (inv.passed j w hw hp).imp_right htasks
  · rw [hworkers] at hp
    rw [hcaller]
    rcases hnotify hp ht with h | ⟨h, hne⟩
    · exact ⟨c, by rw [update_self]; exact h⟩
    · exact exists_update (P := fun x => x.owesNotify = true) x' (inv.notified hp hne) (by rw [hx, h]; nofun)

/-- A move of a caller outside its critical section, which owes the workers nothing. -/
theorem Inv.setCaller (inv : Inv s) (hx : s.caller c = x) (hc : x.critical = false)
    (hc' : x'.critical = false)
    (hnotify : parked ∈ s.workers → x.owesNotify = false) : Inv (s.setCaller c x') := by
  have hl : s.queue_mutex ≠ some (.caller c) := fun h => by
    rw [← inv.caller_lock c, hx, hc] at h
    cases h
  have howed : (s.setCaller c x').owed = s.owed := by
    unfold State.owed State.setCaller
    generalize hq : s.queue_mutex = l at hl
    cases l with
    | none => rfl
    | some h =>
      cases h with
      | worker i => rfl
      | caller c' =>
        have hne : c' ≠ c := fun heq => hl (heq ▸ rfl)
        simp only [update_of_ne hne]
  refine inv.called hx rfl rfl rfl rfl ?_ ?_ (fun h => h)
    (fun hp ht => .inr ⟨hnotify hp, ht⟩)
  · rw [hc, hc']
    exact .keep _ _
  · rw [howed]
    exact inv.enough

theorem Inv.callerStep (inv : Inv s) (hs : s.callerStep true c = some s') : Inv s' := by
  unfold State.callerStep at hs
  have henough := inv.enough
  have hlock := inv.caller_lock c
  cases hx : s.caller c <;> simp only [hx] at hs hlock
  case outside => cases hs
  case lock task =>
    obtain ⟨hl, rfl⟩ := acquire_eq_some hs
    refine inv.called hx rfl rfl rfl rfl ?_ ?_ (fun h => h) (fun _ ht => .inr ⟨rfl, ht⟩)
    · rw [hl]
      exact .acquire
    · rw [owed_eq_zero hl] at henough
      exact henough.trans (Nat.le_add_right _ _)
  case notify =>
    cases hs
    exact inv.notifyAll.setCaller hx rfl rfl fun hp => absurd hp not_parked_mem_notifyAll
  all_goals
    have hl := hlock.1 rfl
    rw [inv.owed_eq hx rfl] at henough
  case push task =>
    cases hs
    refine inv.called hx rfl rfl rfl rfl (.keep _ _) ?_ (fun _ => by simp [State.setCaller])
      (fun _ _ => .inl rfl)
    simpa [State.setCaller, State.owed, hl, Caller.owesThread] using henough
  case check =>
    split_ifs at hs with hfew <;> cases hs <;>
      refine inv.called hx rfl rfl rfl rfl (.keep _ _) ?_ (fun h => h) (fun _ _ => .inl rfl)
    · simpa [State.setCaller, State.owed, hl, Caller.owesThread] using henough
    · -- every idle worker is available
      have hidle : s.workers.countP isIdle ≤ s.workers.countP available :=
        countP_mono_left fun w _ hw => by cases w <;> first | rfl | cases hw
      have hmany : s.tasks.length ≤ s.idle_workers := by simpa using hfew
      rw [inv.idle] at hmany
      exact (hmany.trans hidle).trans (Nat.le_add_right _ _)
  case addThread =>
    cases hs
    refine inv.spawn.called hx rfl rfl rfl rfl (.keep _ _) ?_ (fun h => h) (fun _ _ => .inl rfl)
    simpa [State.setCaller, State.owed, hl, Caller.owesThread, available] using henough
  case unlock =>
    cases hs
    exact inv.called hx rfl rfl rfl rfl (.release _) henough (fun h => h) (fun _ _ => .inl rfl)

theorem Inv.step (inv : Inv s) (hs : ThreadPool.step true s m = some s') : Inv s' := by
  cases m <;> simp only [ThreadPool.step] at hs
  case worker i => exact inv.workerStep hs
  case caller c => exact inv.callerStep hs
  case finish i | spurious i =>
    split at hs <;> cases hs
    rename_i hi
    exact inv.moved hi rfl rfl rfl (.keep _ _) rfl (.inr le_rfl) (.inl rfl) nofun nofun
  case enqueue c task =>
    split at hs <;> cases hs
    rename_i hx
    exact inv.setCaller hx rfl rfl fun _ => rfl
  case terminate =>
    cases hs
    exact { inv with passed := fun _ _ _ _ => .inl rfl }
  case terminateNotify =>
    split_ifs at hs
    cases hs
    exact inv.notifyAll

end

/-! ## What a run shows

Tasks are followed on the threads: `enqueue` is called with a task, a worker gets one from the queue, a
worker begins to run one. -/

def Move.enqueued : Move C τ → List τ
  | .enqueue _ task => [task]
  | _ => []

namespace Worker

/-- The task that a worker got from the queue, by where it stood and where it stands. -/
def took : Worker τ → Worker τ → List τ
  | .taking, .holding task => [task]
  | _, _ => []

/-- The task that a worker began to run. -/
def called : Worker τ → Worker τ → List τ
  | .running _, _ => []
  | _, .running task => [task]
  | _, _ => []

/-- The task that was taken and not yet called. -/
def held : Worker τ → Multiset τ
  | .holding task | .ready task => {task}
  | _ => 0

end Worker

/-- The task that is not yet appended. -/
def Caller.pending : Caller τ → Multiset τ
  | .lock task | .push task => {task}
  | _ => 0

section

variable {f : Worker τ → Worker τ → List τ} {i : ℕ} {l : List (Worker τ)}

/-- What is seen on the workers between two states. -/
def seen (f : Worker τ → Worker τ → List τ) (s s' : State C τ) : List τ :=
  (zipWith f s.workers s'.workers).flatten

/-- Workers that `g` moves neither take nor call a task. -/
def Still (g : Worker τ → Worker τ) : Prop :=
  ∀ w, took w (g w) = [] ∧ called w (g w) = [] ∧ (g w).held = w.held

theorem still_id : Still (id : Worker τ → Worker τ) := fun w => by
  cases w <;> exact ⟨rfl, rfl, rfl⟩

theorem still_notify : Still (notify : Worker τ → Worker τ) := fun w => by
  cases w <;> exact ⟨rfl, rfl, rfl⟩

theorem flatten_zipWith_map {g : Worker τ → Worker τ} (hg : ∀ w, f w (g w) = []) (r : List (Worker τ)) :
    (zipWith f l (l.map g ++ r)).flatten = [] := by
  induction l with
  | nil => rfl
  | cons w l ih =>
    rw [map_cons, cons_append, zipWith_cons_cons, flatten_cons, hg, nil_append]
    exact ih

theorem flatten_zipWith_set (hf : ∀ w, f w w = []) (hi : l[i]? = some w) :
    (zipWith f l (l.set i w')).flatten = f w w' := by
  induction l generalizing i with
  | nil => cases hi
  | cons x l ih =>
    cases i with
    | zero =>
      cases hi
      have hrest := flatten_zipWith_map (g := id) (l := l) hf []
      rw [map_id, append_nil] at hrest
      rw [set_cons_zero, zipWith_cons_cons, flatten_cons, hrest, append_nil]
    | succ i =>
      rw [set_cons_succ, zipWith_cons_cons, flatten_cons, hf, nil_append]
      exact ih hi

theorem seen_set (w' : Worker τ) (hf : ∀ w, f w w = []) (hi : s.workers[i]? = some w)
    (hw : s'.workers = s.workers.set i w') : seen f s s' = f w w' := by
  rw [seen, hw, flatten_zipWith_set hf hi]

/-- What is seen on the workers over a run. -/
def observed [DecidableEq C] (f : Worker τ → Worker τ → List τ) : State C τ → List (Move C τ) → List τ
  | _, [] => []
  | s, m :: ms =>
    match step true s m with
    | none => []
    | some s' => seen f s s' ++ observed f s' ms

theorem observed_cons [DecidableEq C] {ms : List (Move C τ)} (hs : step true s m = some s') :
    observed f s (m :: ms) = seen f s s' ++ observed f s' ms := by
  rw [observed, hs]

variable [Fintype C]

/-- The tasks that are not yet called: of the calls that have not appended theirs, in the queue, and
with the workers. -/
def State.kept (s : State C τ) : Multiset τ :=
  ∑ c, (s.caller c).pending + s.tasks + (s.workers.map held).sum

/-- What a move does with the tasks. -/
structure Accounts (s : State C τ) (m : Move C τ) (s' : State C τ) : Prop where
  /-- tasks are taken in the order of the queue -/
  order : s.tasks <+: seen took s s' ++ s'.tasks
  kept : (m.enqueued : Multiset τ) + s.kept = seen called s s' + s'.kept

theorem add_eq_of_moved {a b x x' t t' : Multiset τ} (h : x + a = b + x') (ht : t' + x = t + x') :
    a + t = b + t' := by
  refine add_right_cancel (b := x) ?_
  calc a + t + x = t + (x + a) := by ac_rfl
    _ = b + (t + x') := by rw [h]; ac_rfl
    _ = b + t' + x := by rw [← ht]; ac_rfl

namespace Accounts

/-- One worker moves. -/
theorem moved (hi : s.workers[i]? = some w) (hw : s'.workers = s.workers.set i w')
    (hcaller : s'.caller = s.caller) (hm : m.enqueued = []) (htasks : s.tasks = took w w' ++ s'.tasks)
    (hheld : w.held + took w w' = called w w' + w'.held) : Accounts s m s' := by
  have hsum := add_eq_of_moved hheld (sum_map_set (y := w') hi held)
  refine ⟨?_, ?_⟩
  · rw [seen_set w' (fun w => (still_id w).1) hi hw, ← htasks]
  · rw [seen_set w' (fun w => (still_id w).2.1) hi hw, hm, State.kept, State.kept, hcaller, hw, htasks,
      ← Multiset.coe_add,
      Multiset.coe_nil, zero_add]
    calc ∑ c, (s.caller c).pending + (took w w' + s'.tasks) + (s.workers.map held).sum
        = ∑ c, (s.caller c).pending + s'.tasks + (took w w' + (s.workers.map held).sum) := by ac_rfl
      _ = called w w' + (∑ c, (s.caller c).pending + s'.tasks +
          ((s.workers.set i w').map held).sum) := by rw [hsum]; ac_rfl

variable {g : Worker τ → Worker τ} {r : List (Worker τ)} {new : List τ}

/-- No worker takes or calls a task. -/
theorem still (hg : Still g) (hw : s'.workers = s.workers.map g ++ r)
    (hr : (r.map held).sum = 0) (htasks : s'.tasks = s.tasks ++ new)
    (hpending : (m.enqueued : Multiset τ) + ∑ c, (s.caller c).pending =
      new + ∑ c, (s'.caller c).pending) : Accounts s m s' := by
  have hheld : (held ∘ g) = held := funext fun w => (hg w).2.2
  refine ⟨?_, ?_⟩
  · rw [seen, hw, flatten_zipWith_map fun w => (hg w).1, htasks]
    exact prefix_append _ _
  · rw [seen, hw, flatten_zipWith_map fun w => (hg w).2.1, State.kept, State.kept, hw, htasks, map_append,
      sum_append, hr, map_map, hheld, ← Multiset.coe_add, Multiset.coe_nil, zero_add, add_zero]
    calc m.enqueued + (∑ c, (s.caller c).pending + s.tasks + (s.workers.map held).sum)
        = m.enqueued + ∑ c, (s.caller c).pending + s.tasks + (s.workers.map held).sum := by ac_rfl
      _ = ∑ c, (s'.caller c).pending + (s.tasks + new) + (s.workers.map held).sum := by
        rw [hpending]; ac_rfl

end Accounts

theorem accounts_workerStep (hs : s.workerStep i = some s') : Accounts s (.worker i) s' := by
  obtain ⟨w, hi⟩ := exists_worker hs
  simp only [workerStep, hi] at hs
  cases w with
  | start | again | woken =>
    obtain ⟨-, rfl⟩ := acquire_eq_some hs
    exact .moved hi rfl rfl rfl rfl rfl
  | counting | leaving | holding | ready | broke =>
    cases hs
    exact .moved hi rfl rfl rfl rfl rfl
  | testing =>
    split_ifs at hs <;> cases hs <;> exact .moved hi rfl rfl rfl rfl rfl
  | taking =>
    cases ht : s.tasks <;> simp only [ht] at hs
    case nil =>
      split_ifs at hs
      cases hs
      exact .moved hi rfl rfl rfl rfl rfl
    case cons task tasks =>
      cases hs
      exact .moved hi rfl rfl rfl ht rfl
  | parked | running | exited => cases hs

variable [DecidableEq C] {ms : List (Move C τ)}

/-- One caller moves. -/
theorem Accounts.caller {c : C} {x x' : Caller τ} (hx : s.caller c = x)
    (hcaller : s'.caller = update s.caller c x')
    {g : Worker τ → Worker τ} {r : List (Worker τ)} {new : List τ} (hg : Still g)
    (hw : s'.workers = s.workers.map g ++ r) (hr : (r.map held).sum = 0)
    (htasks : s'.tasks = s.tasks ++ new) (hpending : x.pending + m.enqueued = new + x'.pending) :
    Accounts s m s' := by
  refine .still hg hw hr htasks ?_
  rw [hcaller]
  subst hx
  exact add_eq_of_moved hpending (sum_update_add (Finset.mem_univ c) s.caller x' fun _ x => x.pending)

theorem accounts_callerStep {c : C} (hs : s.callerStep true c = some s') : Accounts s (.caller c) s' := by
  have hid : s.workers = s.workers.map id ++ [] := by simp
  have hnil : s.tasks = s.tasks ++ [] := (append_nil _).symm
  unfold callerStep at hs
  cases hx : s.caller c <;> simp only [hx] at hs
  case outside => cases hs
  case lock =>
    obtain ⟨-, rfl⟩ := acquire_eq_some hs
    exact .caller hx rfl still_id hid rfl hnil rfl
  case push =>
    cases hs
    exact .caller hx rfl still_id hid rfl rfl rfl
  case check => split_ifs at hs <;> cases hs <;> exact .caller hx rfl still_id hid rfl hnil rfl
  case addThread =>
    cases hs
    exact .caller hx rfl still_id (r := [start]) (by simp [State.setCaller]) rfl hnil rfl
  case unlock =>
    cases hs
    exact .caller hx rfl still_id hid rfl hnil rfl
  case notify =>
    cases hs
    exact .caller hx rfl still_notify (append_nil _).symm rfl hnil rfl

theorem accounts_step (hs : step true s m = some s') : Accounts s m s' := by
  have hid : s.workers = s.workers.map id ++ [] := by simp
  have hnil : s.tasks = s.tasks ++ [] := (append_nil _).symm
  cases m <;> simp only [step] at hs
  case worker i => exact accounts_workerStep hs
  case caller c => exact accounts_callerStep hs
  case finish i | spurious i =>
    split at hs <;> cases hs
    rename_i hi
    exact .moved hi rfl rfl rfl rfl rfl
  case enqueue c task =>
    split at hs <;> cases hs
    rename_i hx
    exact .caller hx rfl still_id hid rfl hnil rfl
  case terminate =>
    cases hs
    exact .still still_id hid rfl hnil rfl
  case terminateNotify =>
    split_ifs at hs
    cases hs
    exact .still still_notify (append_nil _).symm rfl hnil rfl

/-- Over a run, tasks are taken in the order of the queue, and none is lost or called twice. -/
theorem accounts_exec (hs : exec (step true) s ms = some s') :
    s.tasks <+: observed took s ms ++ s'.tasks ∧
      (ms.flatMap Move.enqueued : Multiset τ) + s.kept = observed called s ms + s'.kept := by
  induction ms generalizing s with
  | nil =>
    cases hs
    exact ⟨prefix_rfl, rfl⟩
  | cons m ms ih =>
    rw [exec_cons, Option.bind_eq_some_iff] at hs
    obtain ⟨s₁, hs₁, hs⟩ := hs
    obtain ⟨horder, hkept⟩ := accounts_step hs₁
    obtain ⟨horder', hkept'⟩ := ih hs
    rw [observed_cons hs₁, observed_cons hs₁, flatMap_cons]
    refine ⟨?_, ?_⟩
    · rw [append_assoc]
      exact horder.trans ((prefix_append_right_inj _).2 horder')
    · calc ((m.enqueued ++ ms.flatMap Move.enqueued : List τ) : Multiset τ) + s.kept
          = ms.flatMap Move.enqueued + (m.enqueued + s.kept) := by
            rw [← Multiset.coe_add]; ac_rfl
        _ = seen called s s₁ + (ms.flatMap Move.enqueued + s₁.kept) := by rw [hkept]; ac_rfl
        _ = (seen called s s₁ ++ observed called s₁ ms : List τ) + s'.kept := by
            rw [hkept', ← Multiset.coe_add, add_assoc]

end

/-! ## Progress -/

/-- Has the lock, or has yet to notify the workers. -/
def Caller.busy (x : Caller τ) : Bool := x.critical || x.owesNotify

/-- Waits, or was notified and waits for the lock. -/
def Worker.isWaiting : Worker τ → Bool
  | .parked | .woken => true
  | _ => false

variable {l : List (Worker τ)}

section

/-- Outside the critical sections, the available workers are those that were started and those that
wait. -/
theorem countP_available (h : ∀ w ∈ l, w.critical = false) :
    l.countP available = l.countP isWaiting + l.countP isStart ∧
      l.countP isIdle = l.countP isWaiting := by
  induction l with
  | nil => exact ⟨rfl, rfl⟩
  | cons w l ih =>
    cases w <;>
      simp_all [countP_cons, available, isWaiting, isStart, isIdle, critical] <;> omega

theorem Inv.not_critical_of_free (inv : Inv s) (hl : s.queue_mutex = none) :
    ∀ w ∈ s.workers, w.critical = false := by
  intro w hw
  obtain ⟨i, hi⟩ := mem_iff_getElem?.1 hw
  rw [Bool.eq_false_iff]
  intro hc
  rw [inv.worker_lock i w hi, hl] at hc
  cases hc

variable [DecidableEq C]

/-- While a task is queued, a worker can move, or a call can that has the lock or has yet to notify. -/
theorem Inv.moves (inv : Inv s) (ht : s.tasks ≠ []) : (∃ i, (s.workerStep i).isSome = true) ∨
    ∃ c, (s.caller c).busy = true ∧ (s.callerStep true c).isSome = true := by
  have hcaller : ∀ c, (s.caller c).critical = true → ∃ c, (s.caller c).busy = true ∧
      (s.callerStep true c).isSome = true := by
    intro c hc
    refine ⟨c, by rw [Caller.busy, hc]; rfl, ?_⟩
    unfold State.callerStep
    cases hx : s.caller c with
    | outside | lock task | notify =>
      rw [hx] at hc
      cases hc
    | push task | addThread | unlock => rfl
    | check =>
      split_ifs <;> rfl
  cases hl : s.queue_mutex with
  | some h =>
    cases h with
    | caller c => exact .inr (hcaller c ((inv.caller_lock c).2 hl))
    | worker i =>
      obtain ⟨w, hi⟩ := inv.holder i hl
      have hc := (inv.worker_lock i w hi).2 hl
      refine .inl ⟨i, ?_⟩
      obtain ⟨task, tasks, htasks⟩ := exists_cons_of_ne_nil ht
      cases w with
      | counting | testing | leaving | taking | holding task' | broke =>
        simp [State.workerStep, hi, htasks]
      | start | again | parked | woken | ready task' | running task' | exited => cases hc
  | none =>
    have hpos : 0 < s.workers.countP available := by
      have henough := inv.enough
      rw [owed_eq_zero hl] at henough
      exact lt_of_lt_of_le (length_pos_of_ne_nil ht) henough
    obtain ⟨w, hw, hav⟩ := countP_pos_iff.1 hpos
    obtain ⟨i, hi⟩ := mem_iff_getElem?.1 hw
    have hc := inv.not_critical_of_free hl w hw
    have hacq : ∀ h, (s.acquire h).isSome = true := fun h => by simp [acquire, hl]
    cases w with
    | start | woken => exact .inl ⟨i, by simp [State.workerStep, hi, hacq]⟩
    | parked =>
      obtain ⟨c, hnotify⟩ := inv.notified hw ht
      by_cases hcrit : (s.caller c).critical = true
      · exact .inr (hcaller c hcrit)
      · refine .inr ⟨c, by rw [Caller.busy, hnotify, Bool.or_true], ?_⟩
        unfold State.callerStep
        cases hx : s.caller c with
        | notify => rfl
        | outside | lock task =>
          rw [hx] at hnotify
          cases hnotify
        | push task | check | addThread | unlock =>
          rw [hx] at hcrit
          exact absurd rfl hcrit
    | again | running task | ready task | exited => cases hav
    | counting | testing | leaving | taking | holding task | broke => cases hc

end

/-! ## How soon a task is taken -/

def Worker.isReady : Worker τ → Bool
  | .ready _ => true
  | _ => false

attribute [local simp] Worker.isReady

/-- How far the worker that has the lock is from releasing it. -/
def Worker.rank : Worker τ → ℕ
  | .counting => 6
  | .testing => 5
  | .leaving => 4
  | .taking => 3
  | .holding _ | .broke => 9
  | _ => 7

attribute [local simp] Worker.rank

def State.rank : ℕ :=
  match s.queue_mutex with
  | some (.worker i) => (s.workers[i]?.map Worker.rank).getD 7
  | _ => 7

/-- Bounds the moves of workers before the next `k` tasks are taken. -/
def State.potential (k : ℕ) : ℕ := 20 * k + s.rank + s.workers.countP Worker.isReady

variable {ms : List (Move C τ)}

section

variable {i k : ℕ}

theorem rank_of_lock (hl : s.queue_mutex = some (.worker i)) (hi : s.workers[i]? = some w) :
    s.rank = w.rank := by
  simp [State.rank, hl, hi]

theorem rank_of_free (hl : s.queue_mutex = none) : s.rank = 7 := by simp [State.rank, hl]

theorem rank_le : s.rank ≤ 9 := by
  unfold State.rank
  split
  · rename_i i _
    cases s.workers[i]? with
    | none => simp
    | some w => cases w <;> simp
  · exact Nat.le_add_right 7 2

/-- The lock and the worker that has it stay as they are. -/
theorem Inv.rank_setWorker (inv : Inv s) (hi : s.workers[i]? = some w) (hc : w.critical = false) :
    (s.setWorker i w').rank = s.rank := by
  unfold State.rank State.setWorker
  cases hl : s.queue_mutex with
  | none => rfl
  | some h =>
    cases h with
    | caller c => rfl
    | worker j =>
      have hne : i ≠ j := by
        rintro rfl
        rw [(inv.worker_lock i w hi).2 hl] at hc
        cases hc
      simp only [getElem?_set_ne hne]

theorem getElem?_set_self (hi : l[i]? = some w) (w' : Worker τ) : (l.set i w')[i]? = some w' := by
  simp [(List.getElem?_eq_some_iff.1 hi).1]

/-- A worker moves on and takes no task. -/
theorem potential_lt (hi : s.workers[i]? = some w) (hw : s'.workers = s.workers.set i w')
    (hlt : s'.rank + w'.isReady.toNat < s.rank + w.isReady.toNat) : s'.potential k + 1 ≤ s.potential k := by
  have hcount := countP_set_add (y := w') hi isReady
  simp only [potential, hw]
  omega

/-- A worker moves on and keeps the lock. -/
theorem Inv.potential_keep (inv : Inv s) (hi : s.workers[i]? = some w) (hc : w.critical = true)
    (hw : s'.workers = s.workers.set i w') (hl : s'.queue_mutex = s.queue_mutex)
    (hlt : w'.rank + w'.isReady.toNat < w.rank + w.isReady.toNat) :
    s'.potential k + 1 ≤ s.potential k := by
  have hlock := (inv.worker_lock i w hi).1 hc
  refine potential_lt hi hw ?_
  rwa [rank_of_lock (hl.trans hlock) (hw ▸ getElem?_set_self hi w'), rank_of_lock hlock hi]

theorem potential_mono {k' : ℕ} (h : k' ≤ k) : s.potential k' ≤ s.potential k := by
  simp only [potential]
  omega

/-- While there is a task to take, every move of a worker lowers the potential. -/
theorem Inv.potential_workerStep (inv : Inv s) (hk : 0 < k) (hle : k ≤ s.tasks.length)
    (hs : s.workerStep i = some s') :
    s'.potential (k - (seen Worker.took s s').length) + 1 ≤ s.potential k := by
  have hkeep : ∀ {s' : State C τ}, s'.potential k + 1 ≤ s.potential k →
      s'.potential (k - (seen Worker.took s s').length) + 1 ≤ s.potential k :=
    fun h => (Nat.succ_le_succ (potential_mono (Nat.sub_le k _))).trans h
  obtain ⟨w, hi⟩ := exists_worker hs
  simp only [State.workerStep, hi] at hs
  obtain ⟨task, tasks, ht⟩ := exists_cons_of_length_pos (hk.trans_le hle)
  cases w with
  | start | again | woken =>
    obtain ⟨hl, rfl⟩ := acquire_eq_some hs
    refine hkeep (potential_lt hi rfl ?_)
    rw [rank_of_lock rfl (getElem?_set_self hi _), rank_of_free hl]
    simp
  | counting | leaving =>
    cases hs
    exact hkeep (inv.potential_keep hi rfl rfl rfl (by simp))
  | testing =>
    simp only [ht, reduceCtorEq, and_false, if_false] at hs
    cases hs
    exact hkeep (inv.potential_keep hi rfl rfl rfl (by simp))
  | taking =>
    simp only [ht] at hs
    cases hs
    have hlock := (inv.worker_lock i _ hi).1 rfl
    have hnew := rank_of_lock (s := setWorker { s with tasks := tasks } i (.holding task)) hlock
      (getElem?_set_self hi (.holding task))
    have hcount := countP_set_add (y := .holding task) hi isReady
    have htook : seen Worker.took s (setWorker { s with tasks := tasks } i (.holding task)) = [task] :=
      seen_set (.holding task) (fun w => (still_id w).1) hi rfl
    simp only [isReady, Bool.toNat_false] at hcount
    simp only [potential, hnew, htook, rank_of_lock hlock hi]
    simp only [State.setWorker, length_singleton, Worker.rank]
    omega
  | holding | broke =>
    cases hs
    refine hkeep (potential_lt hi rfl ?_)
    rw [rank_of_free rfl, rank_of_lock ((inv.worker_lock i _ hi).1 rfl) hi]
    simp
  | ready task =>
    cases hs
    refine hkeep (potential_lt hi rfl ?_)
    rw [inv.rank_setWorker hi rfl]
    exact Nat.lt_succ_self _
  | parked | running | exited => cases hs

/-- A worker that moves on its own does not change the potential. -/
theorem Inv.potential_setWorker (inv : Inv s) (w' : Worker τ) (hi : s.workers[i]? = some w)
    (hc : w.critical = false) (hr : w'.isReady = w.isReady) : (s.setWorker i w').potential k = s.potential k := by
  have hcount := countP_set_add (y := w') hi isReady
  rw [hr] at hcount
  simp only [potential, inv.rank_setWorker hi hc]
  simp only [setWorker]
  omega

theorem potential_notifyAll : s.notifyAll.potential k = s.potential k := by
  have hready : (isReady ∘ notify : Worker τ → Bool) = isReady :=
    funext fun w => by cases w <;> rfl
  have hrank : (Worker.rank ∘ notify : Worker τ → ℕ) = Worker.rank :=
    funext fun w => by cases w <;> rfl
  simp [potential, State.rank, notifyAll, countP_map, hready, hrank]

variable [DecidableEq C]

/-- Nor does a caller. -/
theorem potential_callerStep {elastic : Bool} {c : C} (inv : Inv s)
    (hs : s.callerStep elastic c = some s') : s'.potential k = s.potential k := by
  have hlock := inv.caller_lock c
  unfold callerStep at hs
  cases hx : s.caller c <;> simp only [hx] at hs hlock
  case outside => cases hs
  case lock task =>
    obtain ⟨hl, rfl⟩ := acquire_eq_some hs
    simp [State.potential, State.rank, State.setCaller, hl]
  case push task =>
    cases hs
    rfl
  case check => split_ifs at hs <;> cases hs <;> rfl
  case addThread =>
    cases hs
    simp [State.potential, State.rank, State.setCaller, hlock.1 rfl]
  case unlock =>
    cases hs
    simp [State.potential, State.rank, State.setCaller, State.release, hlock.1 rfl]
  case notify =>
    cases hs
    show s.notifyAll.potential k = s.potential k
    exact potential_notifyAll

def Move.isWorker : Move C τ → Bool
  | .worker _ => true
  | _ => false

theorem Inv.potential_step (inv : Inv s) (hk : 0 < k) (hle : k ≤ s.tasks.length)
    (hs : ThreadPool.step true s m = some s') :
    s'.potential (k - (seen Worker.took s s').length) + m.isWorker.toNat ≤ s.potential k := by
  have hkeep : s'.potential k = s.potential k →
      s'.potential (k - (seen Worker.took s s').length) ≤ s.potential k :=
    fun h => (potential_mono (Nat.sub_le k _)).trans h.le
  cases m <;> simp only [ThreadPool.step] at hs
  case worker i => exact inv.potential_workerStep hk hle hs
  case caller c => exact hkeep (potential_callerStep inv hs)
  case finish i =>
    split at hs <;> cases hs
    rename_i hi
    exact hkeep (inv.potential_setWorker .again hi rfl rfl)
  case spurious i =>
    split at hs <;> cases hs
    rename_i hi
    exact hkeep (inv.potential_setWorker .woken hi rfl rfl)
  case enqueue c task =>
    split at hs <;> cases hs
    exact hkeep rfl
  case terminate =>
    cases hs
    exact hkeep rfl
  case terminateNotify =>
    split_ifs at hs
    cases hs
    exact hkeep potential_notifyAll

/-- Over a run, the moves of workers are paid for, until the next `k` tasks are taken. -/
theorem Inv.potential_exec [Fintype C] (inv : Inv s) (hle : k ≤ s.tasks.length)
    (hs : exec (ThreadPool.step true) s ms = some s') :
    k ≤ (observed Worker.took s ms).length ∨
      s'.potential (k - (observed Worker.took s ms).length) + ms.countP Move.isWorker ≤
        s.potential k := by
  induction ms generalizing s k with
  | nil =>
    cases hs
    exact .inr le_rfl
  | cons m ms ih =>
    rw [exec_cons, Option.bind_eq_some_iff] at hs
    obtain ⟨s₁, hs₁, hs⟩ := hs
    rw [observed_cons hs₁, length_append, ← Nat.sub_sub, countP_cons]
    rcases Nat.eq_zero_or_pos k with rfl | hk
    · exact .inl (Nat.zero_le _)
    have hfirst := inv.potential_step hk hle hs₁
    have horder := (accounts_step hs₁).order.length_le
    rw [length_append] at horder
    refine (ih (k := k - (seen Worker.took s s₁).length) (inv.step hs₁) (by omega) hs).imp
      (fun h => by omega) fun h => ?_
    cases hm : m.isWorker <;> simp only [hm, Bool.toNat_false, Bool.toNat_true] at hfirst <;>
      simp <;> omega

end

/-! ## The specification -/

section

variable [DecidableEq C] [Fintype C]

/-- What the pool promises after the moves `ms`. -/
structure Sound (n : ℕ) (ms : List (Move C τ)) (s : State C τ) : Prop where
  /-- while the queue is not locked, there are as many workers that wait or were just started as there
  are tasks -/
  enough : s.queue_mutex = none →
    s.tasks.length ≤ s.workers.countP Worker.isWaiting + s.workers.countP Worker.isStart
  /-- and `idle_workers` counts those that wait -/
  idle : s.queue_mutex = none → s.idle_workers = s.workers.countP Worker.isWaiting
  /-- a task that `enqueue` was called with has yet to be called, or a worker has called it, once -/
  once : (ms.flatMap Move.enqueued : Multiset τ) = observed Worker.called (init n) ms + s.kept
  /-- while a task is queued, a worker can move, or a call can that has the lock or has yet to notify -/
  moves : s.tasks ≠ [] → (∃ i, (s.workerStep i).isSome = true) ∨
    ∃ c, (s.caller c).busy = true ∧ (s.callerStep true c).isSome = true
  /-- a worker that has a task unlocks the queue and then calls it -/
  unlocks : ∀ (i : ℕ) (task : τ), s.workers[i]? = some (.holding task) →
    ∃ s', s.workerStep i = some s' ∧ s'.queue_mutex = none ∧ s'.workers[i]? = some (.ready task)
  calls : ∀ (i : ℕ) (task : τ), s.workers[i]? = some (.ready task) →
    ∃ s', s.workerStep i = some s' ∧ seen Worker.called s s' = [task]
  /-- in every run that goes on with enough moves of workers, whatever the others do and whether or not
  a task returns, workers take all tasks that are queued, in their order -/
  taken : ∀ ms' s', exec (step true) s ms' = some s' →
    20 * s.tasks.length + s.workers.length + 10 ≤ ms'.countP Move.isWorker →
      s.tasks <+: observed Worker.took s ms'

theorem Inv.taken_of_exec {s s' : State C τ} (inv : Inv s)
    (hs : exec (ThreadPool.step true) s ms = some s')
    (hcount : 20 * s.tasks.length + s.workers.length + 10 ≤ ms.countP Move.isWorker) :
    s.tasks <+: observed Worker.took s ms := by
  have hrank : s.rank ≤ 9 := rank_le
  have hready : s.workers.countP isReady ≤ s.workers.length := countP_le_length
  have hlen : s.tasks.length ≤ (observed Worker.took s ms).length := by
    refine (inv.potential_exec le_rfl hs).resolve_right fun h => ?_
    simp only [potential] at h
    omega
  exact prefix_of_prefix_length_le (accounts_exec hs).1 (prefix_append _ _) hlen

/-- **Every task is taken, and called once.** Every run of an elastic pool with any initial number of
threads meets the specification. -/
theorem tasks_taken_once {n : ℕ} {ms : List (Move C τ)} {s : State C τ}
    (h : exec (step true) (init n) ms = some s) : Sound n ms s := by
  have inv : Inv s := (reach_of_exec .init h).invariant (inv_init n) fun _ _ _ inv _ hs => inv.step hs
  refine ⟨fun hl => ?_, fun hl => ?_, ?_, inv.moves, fun i task hi => ?_, fun i task hi => ?_,
    fun ms' s' hs hcount => inv.taken_of_exec hs hcount⟩
  · have henough := inv.enough
    rwa [owed_eq_zero hl, (countP_available (inv.not_critical_of_free hl)).1] at henough
  · rw [inv.idle]
    exact (countP_available (inv.not_critical_of_free hl)).2
  · have hnone : (init n : State C τ).kept = 0 := by simp [State.kept, init, Caller.pending, held]
    rw [← (accounts_exec h).2, hnone, add_zero]
  · exact ⟨s.release.setWorker i (.ready task), by simp only [workerStep, hi], rfl,
      getElem?_set_self hi _⟩
  · exact ⟨s.setWorker i (.running task), by simp only [workerStep, hi],
      seen_set (.running task) (fun w => (still_id w).2.1) hi rfl⟩

/-- The one worker waits; a second call finds it still counted as idle, starts another worker for its
task, and the task is called beside the first one, which does not return. -/
theorem tasks_taken_once_two_tasks : ∃ (ms : List (Move (Fin 2) ℕ)) (s : State (Fin 2) ℕ),
    exec (step true) (init 1) ms = some s ∧ ms.flatMap Move.enqueued = [7, 8] ∧
      observed Worker.called (init 1) ms = [7, 8] ∧ s.workers.length = 2 ∧ Sound 1 ms s := by
  obtain ⟨s, hs, hc, hl⟩ : ∃ s : State (Fin 2) ℕ, exec (step true) (init 1)
      (replicate 3 (.worker 0) ++ [.enqueue 0 7, .enqueue 1 8] ++ replicate 4 (.caller 0) ++
        replicate 6 (.caller 1) ++ replicate 6 (.worker 0) ++ replicate 7 (.worker 1)) = some s ∧ _ ∧
      s.workers.length = 2 := ⟨_, rfl, rfl, rfl⟩
  exact ⟨_, s, hs, rfl, rfl, hl, tasks_taken_once hs⟩

end

end Proteus.ThreadPool
