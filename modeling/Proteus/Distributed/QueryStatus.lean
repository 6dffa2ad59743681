import Mathlib.Data.String.Basic
import Proteus.Machine
import Proteus.OrdMap

/-!
# Query status notifications

An executor answers `prepareStatement` and `executeStatement` by a task of its thread pool, which calls
the command provider and then reports to the primary. The tasks interleave between their calls to the
provider.

The handler of a preparation catches every `std::exception`, the handler of an execution only
`unprepared_plan_execution`, and what its handler calls is outside of the `try`. A provider that does not
know the id throws `std::out_of_range`, so preparing on demand is never tried, and the task ends without a
notification.

* `Reported`: what the primary should have got, and that no task let an exception escape.
* `Caught`: the calls to the provider whose outcome the handlers are ready for.
* `query_status_reporting`: in runs of such calls everything is reported, and any other call breaks it.
-/

namespace Proteus.QueryStatus

open List Option

/-! ## Model -/

/-- Exceptions, as far as the handlers tell them apart; the last are not derived from
`std::exception`. -/
inductive Exn
  | unprepared_plan_execution (what : String)
  | std (what : String)
  | other
deriving DecidableEq

/-- `catch (std::exception& e)`, with `e.what()`. -/
def Exn.what? : Exn → Option String
  | .unprepared_plan_execution what | .std what => some what
  | .other => none

inductive Status
  | PREPARED
  | EXECUTED
  | ERROR
deriving DecidableEq

structure QueryNotification where
  query_uuid : String
  status : Status := .PREPARED
  error_message : String := ""
  result_location : String := ""
  result_server_address : String := ""
  sender_executor_id : ℕ := 0
deriving DecidableEq

structure Query where
  query_uuid : String
  jsonplan : String

structure Config where
  FLAGS_repeat : ℕ
  primary_node_address : String
  self_executor_id : ℕ

/-- The two requests. -/
inductive Kind
  | prepareStatement
  | executeStatement
deriving DecidableEq

/-- Where a task is; a constructor is named after the call that comes next. -/
inductive Pc
  | start
  /-- in the handler of `unprepared_plan_execution` -/
  | prepare
  | rerun
  | notify
  | done
  | threw (e : Exn)
deriving DecidableEq

/-- `succeeded` is history: the call that does the requested work has returned. -/
structure Task where
  kind : Kind
  tmp : Query
  queryStatus : QueryNotification
  pc : Pc
  succeeded : Bool

/-- `sent` has the notifications, with the tasks that sent them. -/
structure State (P : Type*) where
  preparedStatements : OrdMap String P
  tasks : List Task
  sent : List (ℕ × QueryNotification)

/-- What a call to the provider meets: the outcome of `PreparedStatement::from`, and those of the
executions of a statement. -/
structure Outcome (P : Type*) where
  «from» : Except Exn P
  execute : P → ℕ → Except Exn Unit

inductive Action (P : Type*)
  | request (kind : Kind) (tmp : Query)
  | run (i : ℕ) (o : Outcome P)

variable {P : Type*}

def init : State P where
  preparedStatements := .empty
  tasks := []
  sent := []

/-- `LocalCommandProvider::prepareStatement`. The statement is built before the map is asked whether it
has one. -/
def prepareStatement (preparedStatements : OrdMap String P) (label : String) (o : Outcome P) :
    Except Exn (OrdMap String P) :=
  o.from.map fun prepared => preparedStatements.insert label prepared

variable (FLAGS_repeat : ℕ)

/-- The executions of one call. -/
def executeAll (execute : ℕ → Except Exn Unit) : Except Exn Unit := do
  (List.range (FLAGS_repeat - 1)).forM execute
  execute (FLAGS_repeat - 1)

/-- `fs::path{"/dev/shm"} / label` -/
def resultPath (label : String) : String :=
  if label.startsWith "/" then label else "/dev/shm/" ++ label

/-- `LocalCommandProvider::runPreparedStatement` -/
def runPreparedStatement (preparedStatements : OrdMap String P) (label : String)
    (o : Outcome P) : Except Exn String :=
  match preparedStatements.find? label with
  | none => .error (.std "map::at")
  | some prepared => (executeAll FLAGS_repeat (o.execute prepared)).map fun _ => resultPath label

variable (cfg : Config)

/-- `ClusterControl::notifyQueryStatus` -/
def notifyQueryStatus (notification : QueryNotification) : QueryNotification :=
  { notification with
    result_server_address :=
      if notification.status = .EXECUTED then cfg.primary_node_address
      else notification.result_server_address
    sender_executor_id := cfg.self_executor_id }

variable (t : Task)

def Task.throw (e : Exn) : Task := { t with pc := .threw e }

def Task.prepared : Task :=
  { t with
    pc := .notify
    succeeded := true
    queryStatus := { t.queryStatus with status := .PREPARED } }

def Task.executed (resultPath : String) : Task :=
  { t with
    pc := .notify
    succeeded := true
    queryStatus := { t.queryStatus with status := .EXECUTED, result_location := resultPath } }

/-- The handler of the preparation. -/
def Task.catchStd (e : Exn) : Task :=
  match e.what? with
  | some what =>
    { t with
      pc := .notify
      queryStatus := { t.queryStatus with status := .ERROR, error_message := what } }
  | none => t.throw e

/-- The handler of the execution. It goes on after it has found that there is no plan. -/
def Task.catchUnprepared : Exn → Task
  | .unprepared_plan_execution what =>
    { t with
      pc := .prepare
      queryStatus :=
        if t.tmp.jsonplan.isEmpty then
          { t.queryStatus with
            status := .ERROR
            error_message := "Execute called without preparation/query-plan :" ++ what }
        else t.queryStatus }
  | e => t.throw e

/-- A task after a run of its statement. -/
def Task.afterRun (handler : Exn → Task) : Except Exn String → Task
  | .ok resultPath => t.executed resultPath
  | .error e => handler e

/-- The map and a task after a call to prepare its statement. -/
def afterPrepare (t' : Task) (handler : Exn → Task) (m : OrdMap String P) :
    Except Exn (OrdMap String P) → OrdMap String P × Task
  | .ok m' => (m', t')
  | .error e => (m, handler e)

/-- The next call of a task, with what the map and the task are after it. -/
def runTask (m : OrdMap String P) (o : Outcome P) (t : Task) : Option (OrdMap String P × Task) :=
  match t.pc, t.kind with
  | .start, .prepareStatement =>
    some (afterPrepare t.prepared t.catchStd m (prepareStatement m t.tmp.query_uuid o))
  | .start, .executeStatement =>
    some (m, t.afterRun t.catchUnprepared (runPreparedStatement cfg.FLAGS_repeat m t.tmp.query_uuid o))
  | .prepare, _ =>
    some (afterPrepare { t with pc := .rerun } t.throw m (prepareStatement m t.tmp.query_uuid o))
  | .rerun, _ =>
    some (m, t.afterRun t.throw (runPreparedStatement cfg.FLAGS_repeat m t.tmp.query_uuid o))
  | .notify, _ => some (m, { t with pc := .done })
  | .done, _ | .threw _, _ => none

def step (s : State P) : Action P → Option (State P)
  | .request kind tmp =>
    some { s with tasks := s.tasks ++
      [{ kind, tmp, queryStatus := { query_uuid := tmp.query_uuid }, pc := .start, succeeded := false }] }
  | .run i o =>
    s.tasks[i]?.bind fun t => (runTask cfg s.preparedStatements o t).map fun after =>
      { preparedStatements := after.1
        tasks := s.tasks.set i after.2
        sent :=
          if t.pc = .notify then s.sent ++ [(i, notifyQueryStatus cfg t.queryStatus)] else s.sent }

/-! ## What the primary should get -/

/-- The status of finished work. -/
def Kind.status : Kind → Status
  | .prepareStatement => .PREPARED
  | .executeStatement => .EXECUTED

/-- The status a task is to report. -/
def Task.outcome : Status := if t.succeeded then t.kind.status else .ERROR

variable (s : State P)

def State.sentBy (i : ℕ) : List QueryNotification :=
  (s.sent.filter fun x => decide (x.1 = i)).map Prod.snd

variable (ns : List QueryNotification)

/-- Exactly one notification, of the right query and with the right status. -/
def Task.Notified : Prop :=
  ∃ n, ns = [n] ∧ n.query_uuid = t.tmp.query_uuid ∧ n.status = t.outcome

/-- What is sent by a task that is where `t` is. -/
def Task.Reported : Prop :=
  match t.pc with
  | .done => t.Notified ns
  | .threw _ => False
  | _ => ns = []

/-- No exception has escaped, and every task has sent what it should. -/
def Reported : Prop := ∀ (i : ℕ) (t : Task), s.tasks[i]? = some t → t.Reported (s.sentBy i)

/-- The calls that remain for a task, at most. -/
def Pc.rank : Pc → ℕ
  | .start => 4
  | .prepare => 3
  | .rerun => 2
  | .notify => 1
  | .done | .threw _ => 0

attribute [local simp] Pc.rank Task.throw Task.afterRun Task.executed

/-- The outcomes of a task's next call that its handlers are ready for. -/
def Task.Caught (m : OrdMap String P) (o : Outcome P) (t : Task) : Prop :=
  match t.pc, t.kind with
  | .start, .prepareStatement => o.from ≠ .error .other
  | .start, .executeStatement =>
    ∃ prepared, m.find? t.tmp.query_uuid = some prepared ∧
      ∀ e, executeAll cfg.FLAGS_repeat (o.execute prepared) = .error e →
        ∃ what, e = .unprepared_plan_execution what
  | .prepare, _ => ∃ prepared, o.from = .ok prepared
  | .rerun, _ =>
    ∃ prepared, m.find? t.tmp.query_uuid = some prepared ∧
      executeAll cfg.FLAGS_repeat (o.execute prepared) = .ok ()
  | _, _ => True

/-- The condition on a step. -/
def Caught (s : State P) : Action P → Prop
  | .request _ _ => True
  | .run i o => ∀ t, s.tasks[i]? = some t → t.Caught cfg s.preparedStatements o

/-! ## One call -/

variable {cfg : Config}

section

variable {m m' : OrdMap String P} {o : Outcome P} {t t' : Task}

/-- What the next call of a task can do. -/
inductive Task.Trans (t : Task) : Task → Prop
  | prepared (hpc : t.pc = .start) (hkind : t.kind = .prepareStatement) : Trans t t.prepared
  | failed (what : String) (hpc : t.pc = .start) (hkind : t.kind = .prepareStatement) : Trans t
      { t with
        pc := .notify
        queryStatus := { t.queryStatus with status := .ERROR, error_message := what } }
  | executed (location : String) (hpc : t.pc = .start ∨ t.pc = .rerun)
      (hkind : t.kind = .executeStatement) : Trans t (t.executed location)
  | unprepared (what : String) (hpc : t.pc = .start) (hkind : t.kind = .executeStatement) :
      Trans t (t.catchUnprepared (.unprepared_plan_execution what))
  | reprepared (hpc : t.pc = .prepare) : Trans t { t with pc := .rerun }
  | notified (hpc : t.pc = .notify) : Trans t { t with pc := .done }
  | threw (e : Exn) (hpc : 1 < t.pc.rank) : Trans t (t.throw e)

/-- A task as the handlers leave it. -/
structure Task.Consistent (t : Task) : Prop where
  uuid : t.queryStatus.query_uuid = t.tmp.query_uuid
  working : 1 < t.pc.rank → t.succeeded = false
  executing : t.pc = .prepare ∨ t.pc = .rerun → t.kind = .executeStatement
  status : t.pc = .notify → t.queryStatus.status = t.outcome

theorem trans_of_runTask (ht : t.Consistent) (h : runTask cfg m o t = some (m', t')) : t.Trans t' := by
  unfold runTask at h
  split at h
  case h_1 hpc hkind =>
    cases hfrom : prepareStatement m t.tmp.query_uuid o <;> rw [hfrom] at h <;> cases h
    case ok => exact .prepared hpc hkind
    case error e =>
      cases e with
      | unprepared_plan_execution what | std what => exact .failed what hpc hkind
      | other => exact .threw _ (by simp [hpc])
  case h_2 hpc hkind =>
    cases hrun : runPreparedStatement cfg.FLAGS_repeat m t.tmp.query_uuid o <;> rw [hrun] at h <;> cases h
    case ok location => exact .executed location (.inl hpc) hkind
    case error e =>
      cases e with
      | unprepared_plan_execution what => exact .unprepared what hpc hkind
      | std | other => exact .threw _ (by simp [hpc])
  case h_3 hpc =>
    cases hfrom : prepareStatement m t.tmp.query_uuid o <;> rw [hfrom] at h <;> cases h
    case ok => exact .reprepared hpc
    case error e => exact .threw e (by simp [hpc])
  case h_4 hpc =>
    cases hrun : runPreparedStatement cfg.FLAGS_repeat m t.tmp.query_uuid o <;> rw [hrun] at h <;> cases h
    case ok location => exact .executed location (.inr hpc) (ht.executing (.inr hpc))
    case error e => exact .threw e (by simp [hpc])
  case h_5 hpc =>
    cases h
    exact .notified hpc
  case h_6 => cases h
  case h_7 => cases h

theorem Task.Consistent.trans (ht : t.Consistent) (h : t.Trans t') : t'.Consistent := by
  cases h with
  | prepared hpc hkind =>
    refine ⟨ht.uuid, ?_, ?_, fun _ => ?_⟩ <;>
      simp [Task.prepared, Task.outcome, Kind.status, hkind]
  | failed what hpc hkind =>
    have hfail : t.succeeded = false := ht.working (by simp [hpc])
    exact ⟨ht.uuid, fun _ => hfail, nofun, fun _ => by simp [Task.outcome, hfail]⟩
  | executed location hpc hkind =>
    refine ⟨ht.uuid, ?_, ?_, fun _ => ?_⟩ <;>
      simp [Task.outcome, Kind.status, hkind]
  | unprepared what hpc hkind =>
    refine ⟨?_, fun _ => ht.working (by simp [hpc]), fun _ => hkind, nofun⟩
    simp only [Task.catchUnprepared]
    split_ifs <;> exact ht.uuid
  | reprepared hpc =>
    exact ⟨ht.uuid, fun _ => ht.working (by simp [hpc]), fun _ => ht.executing (.inl hpc), nofun⟩
  | notified | threw => refine ⟨ht.uuid, ?_, ?_, ?_⟩ <;> simp

theorem Task.Trans.rank_lt (h : t.Trans t') : t'.pc.rank < t.pc.rank := by
  cases h with
  | prepared hpc | failed _ hpc | reprepared hpc | notified hpc => simp [Task.prepared, hpc]
  | executed location hpc => rcases hpc with hpc | hpc <;> simp [hpc]
  | unprepared what hpc => simp [Task.catchUnprepared, hpc]
  | threw e hpc => exact Nat.zero_lt_of_lt hpc

/-- How a run of a statement ends, by what its executions do. -/
theorem runPreparedStatement_cases (m : OrdMap String P) (label : String) (o : Outcome P) :
    m.find? label = none ∧ runPreparedStatement FLAGS_repeat m label o = .error (.std "map::at") ∨
    ∃ prepared, m.find? label = some prepared ∧
      runPreparedStatement FLAGS_repeat m label o =
        (executeAll FLAGS_repeat (o.execute prepared)).map fun _ => resultPath label := by
  unfold runPreparedStatement
  cases m.find? label with
  | none => exact .inl ⟨rfl, rfl⟩
  | some prepared => exact .inr ⟨prepared, rfl, rfl⟩

/-- An exception escapes exactly if the handlers are not ready for what the call does. -/
theorem caught_iff (h : runTask cfg m o t = some (m', t')) : t.Caught cfg m o ↔ ∀ e, t'.pc ≠ .threw e := by
  unfold runTask at h
  unfold Task.Caught
  split at h
  case h_1 hpc hkind =>
    cases hfrom : o.from <;> rw [prepareStatement, hfrom] at h <;> cases h
    case ok => simp [hpc, hkind, Task.prepared]
    case error e => cases e <;> simp [hpc, hkind, Task.catchStd, Exn.what?]
  case h_2 hpc hkind =>
    cases h
    rcases runPreparedStatement_cases cfg.FLAGS_repeat m t.tmp.query_uuid o with
      ⟨hfind, hrun⟩ | ⟨prepared, hfind, hrun⟩
    · simp [hpc, hkind, hfind, hrun, Task.catchUnprepared]
    · cases hex : executeAll cfg.FLAGS_repeat (o.execute prepared) with
      | ok _ => simp [hpc, hkind, hfind, hrun, hex, Except.map]
      | error e =>
        cases e <;>
          simp [hpc, hkind, hfind, hrun, hex, Except.map, Task.catchUnprepared]
  case h_3 hpc =>
    cases hfrom : o.from <;> rw [prepareStatement, hfrom] at h <;> cases h <;> simp [hpc]
  case h_4 hpc =>
    cases h
    rcases runPreparedStatement_cases cfg.FLAGS_repeat m t.tmp.query_uuid o with
      ⟨hfind, hrun⟩ | ⟨prepared, hfind, hrun⟩
    · simp [hpc, hfind, hrun]
    · cases hex : executeAll cfg.FLAGS_repeat (o.execute prepared) <;>
        simp [hpc, hfind, hrun, hex, Except.map]
  case h_5 hpc =>
    cases h
    simp [hpc]
  case h_6 => cases h
  case h_7 => cases h

theorem exists_runTask (cfg : Config) (m : OrdMap String P) (o : Outcome P) (h : 0 < t.pc.rank) :
    ∃ m' t', runTask cfg m o t = some (m', t') := by
  unfold runTask
  split
  case h_6 hpc => simp [hpc] at h
  case h_7 hpc => simp [hpc] at h
  all_goals exact ⟨_, _, rfl⟩

end

/-! ## Runs -/

section

variable {s s' : State P} {a : Action P}

/-- What is kept by every step, whatever the provider throws. -/
structure Inv (s : State P) : Prop where
  sent_lt : ∀ x ∈ s.sent, x.1 < s.tasks.length
  consistent : ∀ t ∈ s.tasks, t.Consistent
  notified : ∀ (i : ℕ) (t : Task), s.tasks[i]? = some t → t.pc = .done → t.Notified (s.sentBy i)
  silent : ∀ (i : ℕ) (t : Task), s.tasks[i]? = some t → t.pc ≠ .done → s.sentBy i = []

/-- What a step can do. -/
inductive Trans (s : State P) : Action P → State P → Prop
  | request (kind : Kind) (tmp : Query) : Trans s (.request kind tmp)
      { s with tasks := s.tasks ++
        [{ kind, tmp, queryStatus := { query_uuid := tmp.query_uuid }, pc := .start, succeeded := false }] }
  | work (i : ℕ) (o : Outcome P) (t t' : Task) (m : OrdMap String P) (hi : s.tasks[i]? = some t)
      (ht : t.Trans t') (hpc : t.pc ≠ .notify) : Trans s (.run i o)
      { s with preparedStatements := m, tasks := s.tasks.set i t' }
  | notify (i : ℕ) (o : Outcome P) (t : Task) (n : QueryNotification) (hi : s.tasks[i]? = some t)
      (hpc : t.pc = .notify) (huuid : n.query_uuid = t.queryStatus.query_uuid)
      (hstatus : n.status = t.queryStatus.status) : Trans s (.run i o)
      { s with tasks := s.tasks.set i { t with pc := .done }, sent := s.sent ++ [(i, n)] }

theorem trans_of_step (hs : Inv s) (h : step cfg s a = some s') : Trans s a s' := by
  cases a with
  | request kind tmp =>
    cases h
    exact .request kind tmp
  | run i o =>
    obtain ⟨t, hi, h⟩ := bind_eq_some_iff.1 h
    obtain ⟨⟨m, t'⟩, ht, rfl⟩ := map_eq_some_iff.1 h
    by_cases hpc : t.pc = .notify
    · have hdone : s.preparedStatements = m ∧ { t with pc := .done } = t' := by
        simpa [runTask, hpc] using ht
      rw [if_pos hpc, ← hdone.1, ← hdone.2]
      exact .notify i o t _ hi hpc rfl rfl
    · rw [if_neg hpc]
      exact .work i o t t' m hi (trans_of_runTask (hs.consistent t (mem_of_getElem? hi)) ht) hpc

theorem inv_init : Inv (init : State P) := by
  constructor <;> simp [init]

/-- A task sends its notification. -/
theorem sentBy_append (tasks : List Task) (i j : ℕ) (n : QueryNotification) :
    ({ s with tasks := tasks, sent := s.sent ++ [(i, n)] } : State P).sentBy j =
      s.sentBy j ++ if j = i then [n] else [] := by
  by_cases hj : j = i
  · simp [State.sentBy, hj]
  · simp [State.sentBy, hj, Ne.symm hj]

theorem Inv.request (hs : Inv s) (t : Task) (ht : t.Consistent) (hpc : t.pc ≠ .done) :
    Inv { s with tasks := s.tasks ++ [t] } := by
  exact {
    sent_lt := fun x hx => by
      have := hs.sent_lt x hx
      rw [length_append, length_singleton]
      omega
    consistent := forall_mem_append.2 ⟨hs.consistent, forall_mem_singleton.2 ht⟩
    notified := fun i x hx hdone => by
      rcases getElem?_concat_cases hx with hx | ⟨-, rfl⟩
      · exact hs.notified i x hx hdone
      · exact absurd hdone hpc
    silent := fun i x hx hdone => by
      rcases getElem?_concat_cases hx with hx | ⟨rfl, -⟩
      · exact hs.silent i x hx hdone
      · have hnone : s.sent.filter (fun x => decide (x.1 = s.tasks.length)) = [] := by
          rw [filter_eq_nil_iff]
          intro x hx
          have := hs.sent_lt x hx
          simp only [decide_eq_true_eq]
          omega
        show (s.sent.filter fun x => decide (x.1 = s.tasks.length)).map Prod.snd = []
        rw [hnone, map_nil] }

theorem Inv.trans (hs : Inv s) (h : Trans s a s') : Inv s' := by
  cases h with
  | request kind tmp =>
    refine hs.request _ ⟨rfl, fun _ => rfl, ?_, ?_⟩ ?_ <;> simp
  | work i o t t' m hi ht hpc =>
    have hrank := ht.rank_lt
    have hnot : t'.pc ≠ .done := by
      cases ht with
      | notified h => exact absurd h hpc
      | _ => nofun
    have htdone : t.pc ≠ .done := by
      intro hdone
      simp [hdone] at hrank
    exact {
      sent_lt := by
        rw [length_set]
        exact hs.sent_lt
      consistent := fun x hx => by
        rcases mem_or_eq_of_mem_set hx with hx | rfl
        · exact hs.consistent x hx
        · exact (hs.consistent t (mem_of_getElem? hi)).trans ht
      notified := fun j x hx hdone => by
        rcases getElem?_set_cases hx with ⟨rfl, rfl⟩ | ⟨-, hx⟩
        · exact absurd hdone hnot
        · exact hs.notified j x hx hdone
      silent := fun j x hx hdone => by
        rcases getElem?_set_cases hx with ⟨rfl, rfl⟩ | ⟨-, hx⟩
        · exact hs.silent j t hi htdone
        · exact hs.silent j x hx hdone }
  | notify i o t n hi hpc huuid hstatus =>
    have ht := hs.consistent t (mem_of_getElem? hi)
    have hlt : i < s.tasks.length := (List.getElem?_eq_some_iff.1 hi).1
    exact {
      sent_lt := by
        rw [length_set]
        exact forall_mem_append.2 ⟨hs.sent_lt, forall_mem_singleton.2 hlt⟩
      consistent := fun x hx => by
        rcases mem_or_eq_of_mem_set hx with hx | rfl
        · exact hs.consistent x hx
        · exact ht.trans (.notified hpc)
      notified := fun j x hx hdone => by
        rw [sentBy_append]
        rcases getElem?_set_cases hx with ⟨rfl, rfl⟩ | ⟨hne, hx⟩
        · rw [hs.silent j t hi (by simp [hpc]), if_pos rfl]
          exact ⟨n, rfl, huuid.trans ht.uuid, hstatus.trans (ht.status hpc)⟩
        · rw [if_neg hne, append_nil]
          exact hs.notified j x hx hdone
      silent := fun j x hx hdone => by
        rw [sentBy_append]
        rcases getElem?_set_cases hx with ⟨rfl, rfl⟩ | ⟨hne, hx⟩
        · exact absurd rfl hdone
        · rw [if_neg hne, append_nil]
          exact hs.silent j x hx hdone }

theorem inv_of_reach (h : Reach (step cfg) Free init s) : Inv s :=
  h.invariant inv_init fun _ _ _ hs _ hstep => hs.trans (trans_of_step hs hstep)

/-- Everything is reported exactly if no exception has escaped. -/
theorem reported_iff (hs : Inv s) : Reported s ↔ ∀ t ∈ s.tasks, ∀ e, t.pc ≠ .threw e := by
  constructor
  · intro h t ht e hpc
    obtain ⟨i, hi⟩ := getElem?_of_mem ht
    have hrep := h i t hi
    rwa [Task.Reported, hpc] at hrep
  · intro h i t hi
    unfold Task.Reported
    split
    case h_1 hpc => exact hs.notified i t hi hpc
    case h_2 e hpc => exact h t (mem_of_getElem? hi) e hpc
    case h_3 hpc _ => exact hs.silent i t hi hpc

end

/-! ## The property -/

/-- Where a step leads after a run in which everything was reported. -/
theorem reported_step_iff {cfg : Config} {s s' : State P} {a : Action P} (hs : Inv s) (hrep : Reported s)
    (h : step cfg s a = some s') : Reported s' ↔ Caught cfg s a := by
  rw [reported_iff (hs.trans (trans_of_step hs h))]
  rw [reported_iff hs] at hrep
  cases a with
  | request kind tmp =>
    cases h
    exact iff_of_true (forall_mem_append.2 ⟨hrep, forall_mem_singleton.2 nofun⟩) trivial
  | run i o =>
    obtain ⟨t, hi, h⟩ := bind_eq_some_iff.1 h
    obtain ⟨⟨m, t'⟩, ht, rfl⟩ := map_eq_some_iff.1 h
    have hlt : i < s.tasks.length := (List.getElem?_eq_some_iff.1 hi).1
    constructor
    · intro hno u hu
      obtain rfl : t = u := some.inj (hi.symm.trans hu)
      exact (caught_iff ht).2 (hno t' (mem_set hlt t'))
    · intro hcaught u hu e
      rcases mem_or_eq_of_mem_set hu with hu | rfl
      · exact hrep u hu e
      · exact (caught_iff ht).1 (hcaught t hi) e

theorem reported_of_reach {cfg : Config} {s : State P} (h : Reach (step cfg) (Caught cfg) init s) :
    Reported s := by
  refine (h.invariant (I := fun s => Inv s ∧ Reported s) ⟨inv_init, nofun⟩ ?_).2
  intro s a s' hs hok hstep
  exact ⟨hs.1.trans (trans_of_step hs.1 hstep), (reported_step_iff hs.1 hs.2 hstep).2 hok⟩

/-- **Reporting.** As long as the handlers are ready for what the provider does, every ended task has
sent exactly one notification with the right status. Every other call lets an exception escape, and its
task never sends any. A task ends after at most four calls. -/
theorem query_status_reporting (cfg : Config) :
    (∀ s : State P, Reach (step cfg) (Caught cfg) init s → Reported s) ∧
    (∀ (s s' : State P) (a : Action P), Reach (step cfg) (Caught cfg) init s → step cfg s a = some s' →
      (Reported s' ↔ Caught cfg s a)) ∧
    (∀ (s : State P) (i : ℕ) (t : Task), Reach (step cfg) Free init s → s.tasks[i]? = some t →
      (∀ e, t.pc = .threw e → s.sentBy i = []) ∧
      (t.pc ≠ .done → (∀ e, t.pc ≠ .threw e) → ∀ o, ∃ s' t', step cfg s (.run i o) = some s' ∧
        s'.tasks[i]? = some t' ∧ t'.pc.rank < t.pc.rank ∧ t.pc.rank ≤ 4)) := by
  refine ⟨fun s => reported_of_reach, fun s s' a hs hstep => ?_, fun s i t hs hi => ⟨?_, ?_⟩⟩
  · have hinv : Inv s := inv_of_reach (hs.mono fun _ _ _ => trivial)
    exact reported_step_iff hinv (reported_of_reach hs) hstep
  · intro e hpc
    exact (inv_of_reach hs).silent i t hi (by simp [hpc])
  · intro hdone hthrew o
    have hrank : 0 < t.pc.rank := by
      cases hpc : t.pc with
      | done => exact absurd hpc hdone
      | threw e => exact absurd hpc (hthrew e)
      | start | prepare | rerun | notify => simp
    have hle : t.pc.rank ≤ 4 := by cases t.pc <;> simp
    obtain ⟨m', t', ht⟩ := exists_runTask cfg s.preparedStatements o hrank
    have htrans := trans_of_runTask ((inv_of_reach hs).consistent t (mem_of_getElem? hi)) ht
    have hlt : i < s.tasks.length := (List.getElem?_eq_some_iff.1 hi).1
    obtain ⟨s', hstep, htasks⟩ : ∃ s', step cfg s (.run i o) = some s' ∧ s'.tasks = s.tasks.set i t' := by
      simp only [step, hi, ht, bind_some, map_some]
      exact ⟨_, rfl, rfl⟩
    exact ⟨s', t', hstep, htasks ▸ getElem?_set_self hlt, htrans.rank_lt, hle⟩

/-- The next call of a task, when statements can be built and run. -/
def go (i : ℕ) : Action Unit := .run i ⟨.ok (), fun _ _ => .ok ()⟩

/-- A query is prepared and then executed. -/
theorem query_status_prepared_query : ∃ s : State Unit, Reach (step ⟨1, "", 1⟩) (Caught ⟨1, "", 1⟩) init s ∧
    s.sent.map (fun n => n.2.status) = [.PREPARED, .EXECUTED] ∧ Reported s := by
  have h₁ : Reach (step ⟨1, "", 1⟩) (Caught ⟨1, "", 1⟩) (init : State Unit) _ :=
    .next (.request .prepareStatement ⟨"q1", "plan"⟩) .init trivial rfl
  have h₂ := (h₁.next (go 0) (by rintro _ ⟨⟩; exact nofun) rfl).next (go 0) (by rintro _ ⟨⟩; trivial) rfl
  have h₃ := h₂.next (Action.request .executeStatement ⟨"q1", ""⟩) trivial rfl
  have h₄ := (h₃.next (go 1) (by rintro _ ⟨⟩; exact ⟨(), rfl, nofun⟩) rfl).next (go 1)
    (by rintro _ ⟨⟩; trivial) rfl
  exact ⟨_, h₄, rfl, (query_status_reporting _).1 _ h₄⟩

/-- A query that was not prepared: the request has a plan, but the exception escapes and the primary is
told nothing. -/
theorem unknown_query_not_reported : ∃ s : State Unit,
      exec (step ⟨1, "primary:50051", 1⟩) init
        [.request .executeStatement ⟨"q1", "plan"⟩, .run 0 ⟨.ok (), fun _ _ => .ok ()⟩] = some s ∧
      s.tasks.map Task.pc = [.threw (.std "map::at")] ∧ s.sent = [] ∧ ¬Reported s := by
  refine ⟨_, rfl, rfl, rfl, fun h => ?_⟩
  exact h 0 _ rfl

end Proteus.QueryStatus
