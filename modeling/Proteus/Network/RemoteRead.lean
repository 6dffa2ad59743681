import Mathlib.Algebra.GroupWithZero.Nat
import Mathlib.Algebra.Order.BigOperators.Group.Finset
import Proteus.Machine

/-!
# Remote reads of `IBHandler`

A read takes the next position of `read_promises` and posts a work request. Only some requests are
reported when they are done: each 64th read since the last reported one, and the empty read of
`flush_read`. The `wr_id` of such a request is the number of promises it stands for, and the poller goes
through the promises in order: it publishes as many as the `wr_id` says, from where it was.

The count and the position are taken under a lock, and the request is posted after it was released. So
requests need not be posted in the order in which their promises were made, and a promise can be
published before its own read has been posted (`published_before_posted`).

The queue pair executes the requests in the order in which they were posted, and reports them in that
order. A thread of the pool publishes the promises of a completion one by one. Requests of other kinds
matter only because each 256th request makes its thread flush.

* `Inv.step`: promises are published at most once, whatever the order of the requests is;
* `settles`: every run can be completed, and then all promises have been published;
* `read_completion`: data has arrived before it is published as long as a reported request is posted
  after the reads it will stand for; and every other request leads to a promise published too early.
-/

namespace Proteus.RemoteRead

open Function List Multiset

/-! ## Model -/

/-- A work request. `promise` is the position of the read's promise; `flush_read` has none. -/
structure Wr where
  promise : Option ℕ
  wr_id : ℕ
  signaled : Bool
  deriving DecidableEq

/-- The number of promises the completion of a request stands for. -/
def Wr.claim (wr : Wr) : ℕ := if wr.signaled then wr.wr_id else 0

/-- Where a thread stands. -/
inductive Pc
  | idle
  /-- at the test of `flush_read` -/
  | flushTest
  /-- at the lock of `flush_read` -/
  | flushLock
  /-- at `ibv_post_send` -/
  | post (wr : Wr)
  deriving DecidableEq

/-- The task of a completion: it has published `i` of `cnt` promises. -/
structure Task where
  start : ℕ
  cnt : ℕ
  i : ℕ

/-- The handler, the queue pair and the poller. `read_promises` is given by its length, and `published`
records the positions that were published. -/
structure State (Tid : Type*) where
  reads : ℕ
  promises : ℕ
  send_cnt : ℕ
  saidGoodBye : Bool
  pc : Tid → Pc
  posted : List Wr
  executed : ℕ
  cq : List ℕ
  IBV_WC_RDMA_READ_cnt : ℕ
  tasks : List Task
  published : List ℕ

inductive Action (Tid : Type*)
  | read (t : Tid)
  | flush_read (t : Tid)
  /-- The next access of a thread inside `read` or `flush_read`. -/
  | run (t : Tid)
  /-- Some other request is sent. -/
  | send
  | sendGoodBye
  /-- The queue pair executes a request. -/
  | execute
  /-- The poller takes a completion. -/
  | poll
  /-- The task `k` publishes a promise. -/
  | publish (k : ℕ)

variable {Tid : Type*}

section

variable [DecidableEq Tid]

def init : State Tid where
  reads := 0
  promises := 0
  send_cnt := 0
  saidGoodBye := false
  pc _ := .idle
  posted := []
  executed := 0
  cq := []
  IBV_WC_RDMA_READ_cnt := 0
  tasks := []
  published := []

def State.goto (s : State Tid) (t : Tid) (p : Pc) : State Tid :=
  { s with pc := update s.pc t p }

/-- The critical section of `read`. -/
def State.create_promise (s : State Tid) (t : Tid) : State Tid :=
  let rid := s.reads + 1
  let signaled := rid % 64 = 0
  { s.goto t (.post ⟨some s.promises, rid, signaled⟩) with
    reads := if signaled then 0 else rid
    promises := s.promises + 1 }

/-- `send`, once the request has been posted. -/
def State.send (s : State Tid) (t : Tid) (wr : Wr) : State Tid :=
  let flushes := (s.send_cnt + 1) % 256 = 0 ∧ wr.signaled = false ∧ s.saidGoodBye = false
  { s.goto t (if flushes then .flushTest else .idle) with
    posted := s.posted ++ [wr]
    send_cnt := s.send_cnt + 1 }

def runThread (s : State Tid) (t : Tid) : Option (State Tid) :=
  match s.pc t with
  | .idle => none
  | .flushTest => some (s.goto t (if s.reads = 0 then .idle else .flushLock))
  | .flushLock => some { s.goto t (.post ⟨none, s.reads, true⟩) with reads := 0 }
  | .post wr => some (s.send t wr)

def step (s : State Tid) : Action Tid → Option (State Tid)
  | .read t => if s.pc t = .idle then some (s.create_promise t) else none
  | .flush_read t => if s.pc t = .idle then some (s.goto t .flushTest) else none
  | .run t => runThread s t
  | .send => some { s with send_cnt := s.send_cnt + 1 }
  | .sendGoodBye => some { s with saidGoodBye := true }
  | .execute =>
    (s.posted[s.executed]?).map fun wr =>
      { s with
        executed := s.executed + 1
        cq := if wr.signaled then s.cq ++ [wr.wr_id] else s.cq }
  | .poll =>
    match s.cq with
    | [] => none
    | cnt :: cq =>
      some { s with
        cq
        IBV_WC_RDMA_READ_cnt := s.IBV_WC_RDMA_READ_cnt + cnt
        tasks := s.tasks ++ [⟨s.IBV_WC_RDMA_READ_cnt, cnt, 0⟩] }
  | .publish k =>
    match s.tasks[k]? with
    | none => none
    | some τ =>
      if τ.i < τ.cnt then
        some { s with
          tasks := s.tasks.set k { τ with i := τ.i + 1 }
          published := s.published ++ [τ.start + τ.i] }
      else none

end

/-! ## What a step does -/

/-- Where a thread goes, and what that does to the counters and to the requests posted. -/
inductive Move {Tid : Type*} (s : State Tid) : Pc → Pc → ℕ → ℕ → List Wr → Prop
  | read : Move s .idle (.post ⟨some s.promises, s.reads + 1, (s.reads + 1) % 64 = 0⟩)
      (if (s.reads + 1) % 64 = 0 then 0 else s.reads + 1) (s.promises + 1) s.posted
  | flush : Move s .idle .flushTest s.reads s.promises s.posted
  | skip : s.reads = 0 → Move s .flushTest .idle s.reads s.promises s.posted
  | test : s.reads ≠ 0 → Move s .flushTest .flushLock s.reads s.promises s.posted
  | exchange : Move s .flushLock (.post ⟨none, s.reads, true⟩) 0 s.promises s.posted
  | post (wr : Wr) (p : Pc) : p = .idle ∨ wr.signaled = false ∧ p = .flushTest →
      Move s (.post wr) p s.reads s.promises (s.posted ++ [wr])

variable {s s' : State Tid} {a : Action Tid}

section

variable [DecidableEq Tid]

/-- A step moves one thread, or it counts something, or it is one of the queue pair, the poller or the
pool. -/
inductive Trans (s : State Tid) : Action Tid → State Tid → Prop
  | thread (a : Action Tid) (t : Tid) (p : Pc) (reads promises send_cnt : ℕ) (posted : List Wr) :
      a = .read t ∨ a = .flush_read t ∨ a = .run t → Move s (s.pc t) p reads promises posted →
      Trans s a { s with reads, promises, send_cnt, pc := update s.pc t p, posted }
  | count (a : Action Tid) (send_cnt : ℕ) (saidGoodBye : Bool) : a = .send ∨ a = .sendGoodBye →
      Trans s a { s with send_cnt, saidGoodBye }
  | execute (wr : Wr) : s.posted[s.executed]? = some wr →
      Trans s .execute
        { s with executed := s.executed + 1, cq := if wr.signaled then s.cq ++ [wr.wr_id] else s.cq }
  | poll (cnt : ℕ) (cq : List ℕ) : s.cq = cnt :: cq →
      Trans s .poll
        { s with
          cq
          IBV_WC_RDMA_READ_cnt := s.IBV_WC_RDMA_READ_cnt + cnt
          tasks := s.tasks ++ [⟨s.IBV_WC_RDMA_READ_cnt, cnt, 0⟩] }
  | publish (k : ℕ) (τ : Task) : s.tasks[k]? = some τ → τ.i < τ.cnt →
      Trans s (.publish k)
        { s with
          tasks := s.tasks.set k { τ with i := τ.i + 1 }
          published := s.published ++ [τ.start + τ.i] }

theorem trans_of_step (h : step s a = some s') : Trans s a s' := by
  cases a <;> rw [step] at h
  case read t =>
    split_ifs at h with hidle
    cases h
    exact .thread _ t _ _ _ s.send_cnt s.posted (.inl rfl) (hidle ▸ .read)
  case flush_read t =>
    split_ifs at h with hidle
    cases h
    exact .thread _ t _ s.reads s.promises s.send_cnt s.posted (.inr (.inl rfl)) (hidle ▸ .flush)
  case run t =>
    rw [runThread] at h
    split at h <;> cases h
    · next hpc =>
      refine .thread _ t _ s.reads s.promises s.send_cnt s.posted (.inr (.inr rfl)) (hpc ▸ ?_)
      split_ifs with hreads
      · exact .skip hreads
      · exact .test hreads
    · next hpc => exact .thread _ t _ 0 s.promises s.send_cnt s.posted (.inr (.inr rfl)) (hpc ▸ .exchange)
    · next hpc =>
      refine .thread _ t _ s.reads s.promises (s.send_cnt + 1) _ (.inr (.inr rfl)) (hpc ▸ .post _ _ ?_)
      split_ifs with hflush
      · exact .inr ⟨hflush.2.1, rfl⟩
      · exact .inl rfl
  case send => cases h; exact .count _ _ s.saidGoodBye (.inl rfl)
  case sendGoodBye => cases h; exact .count _ s.send_cnt _ (.inr rfl)
  case execute =>
    rw [Option.map_eq_some_iff] at h
    obtain ⟨wr, hwr, rfl⟩ := h
    exact .execute wr hwr
  case poll =>
    split at h <;> cases h
    exact .poll _ _ ‹_›
  case publish k =>
    split at h
    · cases h
    · split_ifs at h with hi
      cases h
      exact .publish k _ ‹_› hi

end

/-! ## Every promise at most once -/

/-- The number of promises that completions of these requests stand for. -/
def claimed (wrs : List Wr) : ℕ := (wrs.map Wr.claim).sum

/-- The promises of a request that was not posted yet. -/
def Pc.claim : Pc → ℕ
  | .post wr => wr.claim
  | _ => 0

/-- The positions a task still has to publish. -/
def Task.rest (τ : Task) : Multiset ℕ := List.range' (τ.start + τ.i) (τ.cnt - τ.i)

@[simp] theorem claimed_append (l l' : List Wr) : claimed (l ++ l') = claimed l + claimed l' := by
  simp [claimed]

@[simp] theorem claimed_singleton (wr : Wr) : claimed [wr] = wr.claim := by
  simp [claimed]

theorem Task.rest_of_lt {τ : Task} (h : τ.i < τ.cnt) :
    τ.rest = {τ.start + τ.i} + Task.rest { τ with i := τ.i + 1 } := by
  obtain ⟨d, hd⟩ : ∃ d, τ.cnt - τ.i = d + 1 := ⟨τ.cnt - τ.i - 1, by omega⟩
  have hd' : τ.cnt - (τ.i + 1) = d := by omega
  simp only [Task.rest, hd, hd', range'_succ, singleton_add, cons_coe, add_assoc]

theorem range_add_rest (start cnt : ℕ) :
    Multiset.range (start + cnt) = Multiset.range start + Task.rest ⟨start, cnt, 0⟩ := by
  rw [Multiset.range_add, Task.rest, range'_eq_map_range]
  rfl

section

variable {s : State Tid} {p q : Pc} {reads promises : ℕ} {posted : List Wr}

theorem Move.reserved (hm : Move s p q reads promises posted) {rest : ℕ}
    (h : claimed s.posted + (rest + p.claim) + s.reads = s.promises) :
    claimed posted + (rest + q.claim) + reads = promises := by
  cases hm with
  | read =>
    simp only [Pc.claim, Wr.claim, decide_eq_true_eq] at h ⊢
    split_ifs <;> omega
  | flush | skip | test => exact h
  | exchange =>
    simp only [Pc.claim, Wr.claim, if_true] at h ⊢
    omega
  | post wr q hq =>
    have hq0 : q.claim = 0 := by rcases hq with rfl | ⟨_, rfl⟩ <;> rfl
    rw [claimed_append, claimed_singleton]
    have hp : (Pc.post wr).claim = wr.claim := rfl
    omega

theorem Move.posted_eq (hm : Move s p q reads promises posted) : ∃ new, posted = s.posted ++ new := by
  cases hm with
  | post wr => exact ⟨[wr], rfl⟩
  | _ => exact ⟨[], by simp⟩

end

section

variable [Fintype Tid]

/-- Nothing is left to the queue pair, the poller and the pool. -/
structure State.Drained (s : State Tid) : Prop where
  executed : s.executed = s.posted.length
  cq : s.cq = []
  tasks : ∀ τ ∈ s.tasks, τ.cnt ≤ τ.i

/-- Nothing is left to do. -/
structure State.Quiet (s : State Tid) : Prop extends s.Drained where
  idle : ∀ t, s.pc t = .idle
  reads : s.reads = 0

/-- What holds in every state, whatever the order of the requests is. -/
structure Inv (s : State Tid) : Prop where
  executed_le : s.executed ≤ s.posted.length
  /-- The poller counts what was reported. -/
  reported : s.IBV_WC_RDMA_READ_cnt + s.cq.sum = claimed (s.posted.take s.executed)
  /-- The promises it has counted are published, or their tasks will do so. -/
  counted : (s.published : Multiset ℕ) + (s.tasks.map Task.rest).sum =
    Multiset.range s.IBV_WC_RDMA_READ_cnt
  /-- Every promise is counted by one request, or by the next one. -/
  reserved : claimed s.posted + ∑ t, (s.pc t).claim + s.reads = s.promises

theorem Inv.init : Inv (init : State Tid) := by
  constructor <;> simp [RemoteRead.init, claimed, Pc.claim]

theorem Inv.cnt_le (inv : Inv s) : s.IBV_WC_RDMA_READ_cnt ≤ claimed s.posted := by
  have hsplit := claimed_append (s.posted.take s.executed) (s.posted.drop s.executed)
  rw [take_append_drop] at hsplit
  have hreported := inv.reported
  omega

theorem Inv.length_published_le (inv : Inv s) : s.published.length ≤ claimed s.posted := by
  have hcard := congrArg card inv.counted
  have hcnt := inv.cnt_le
  simp only [card_add, coe_card, card_range] at hcard
  omega

theorem Inv.mem_published (inv : Inv s) {p : ℕ} (hp : p ∈ s.published) :
    p < claimed (s.posted.take s.executed) := by
  have hmem : p ∈ Multiset.range s.IBV_WC_RDMA_READ_cnt := by
    rw [← inv.counted]
    exact mem_add.2 (.inl (mem_coe.2 hp))
  have hlt := Multiset.mem_range.1 hmem
  have hreported := inv.reported
  omega

/-- When the work is done, what was reported has been published. -/
theorem Inv.published_of_drained (inv : Inv s) (h : s.Drained) :
    (s.published : Multiset ℕ) = Multiset.range (claimed s.posted) := by
  have hrest : (s.tasks.map Task.rest).sum = 0 := by
    refine sum_eq_zero fun r hr => ?_
    obtain ⟨τ, hτ, rfl⟩ := mem_map.1 hr
    have hi : τ.cnt - τ.i = 0 := Nat.sub_eq_zero_of_le (h.tasks τ hτ)
    simp [Task.rest, hi]
  have hreported := inv.reported
  have hcounted := inv.counted
  rw [h.cq, sum_nil, add_zero, h.executed, take_length] at hreported
  rwa [hrest, add_zero, hreported] at hcounted

variable [DecidableEq Tid]

theorem Inv.step (inv : Inv s) (h : RemoteRead.step s a = some s') : Inv s' := by
  cases trans_of_step h with
  | thread a t p reads promises send_cnt posted _ hm =>
    obtain ⟨new, hnew⟩ := hm.posted_eq
    have hsum := sum_update_add (Finset.mem_univ t) s.pc p fun _ p => p.claim
    refine { inv with executed_le := ?_, reported := ?_, reserved := ?_ }
    · rw [hnew, length_append]
      exact inv.executed_le.trans (Nat.le_add_right _ _)
    · rw [hnew, take_append_of_le_length inv.executed_le]
      exact inv.reported
    · obtain ⟨rest, hrest⟩ : ∃ rest, ∑ j, (s.pc j).claim = rest + (s.pc t).claim :=
        ⟨_, (Finset.sum_erase_add _ _ (Finset.mem_univ t)).symm⟩
      have hmoved : ∑ j, (update s.pc t p j).claim = rest + p.claim := by omega
      have hres := inv.reserved
      rw [hrest] at hres
      simp only [hmoved]
      exact hm.reserved hres
  | count a send_cnt saidGoodBye _ => exact { inv with }
  | execute wr hwr =>
    obtain ⟨hlt, hget⟩ := List.getElem?_eq_some_iff.1 hwr
    refine { inv with executed_le := hlt, reported := ?_ }
    rw [take_succ_eq_append_getElem hlt, hget, claimed_append, ← inv.reported]
    cases hs : wr.signaled <;> simp [Wr.claim, hs, add_assoc]
  | poll cnt cq hcq =>
    refine { inv with reported := ?_, counted := ?_ }
    · rw [← inv.reported, hcq, List.sum_cons, add_assoc]
    · rw [range_add_rest, ← inv.counted, map_append, sum_append, List.map_singleton,
        List.sum_singleton, add_assoc]
  | publish k τ hτ hi =>
    refine { inv with counted := ?_ }
    have hset := sum_map_set (y := ({ τ with i := τ.i + 1 } : Task)) hτ Task.rest
    rw [Task.rest_of_lt hi, ← add_assoc] at hset
    have hset' := add_right_cancel hset
    rw [← inv.counted, ← hset', ← coe_add, coe_singleton]
    simp only [add_assoc, add_comm]

end

/-! ## Every run can be completed -/

section

/-- The threads have not moved. -/
structure SameThreads (s s' : State Tid) : Prop where
  pc : s'.pc = s.pc
  posted : s'.posted = s.posted
  reads : s'.reads = s.reads
  promises : s'.promises = s.promises

theorem SameThreads.trans {s₁ s₂ s₃ : State Tid} (h : SameThreads s₁ s₂) (h' : SameThreads s₂ s₃) :
    SameThreads s₁ s₃ :=
  ⟨h'.pc.trans h.pc, h'.posted.trans h.posted, h'.reads.trans h.reads, h'.promises.trans h.promises⟩

/-- The steps a thread has left. -/
def Pc.rank : Pc → ℕ
  | .idle => 0
  | .post wr => if wr.signaled then 1 else 4
  | .flushLock => 2
  | .flushTest => 3

variable [DecidableEq Tid] {t : Tid}

theorem run_flushTest (h : s.pc t = .flushTest) :
    step s (.run t) = some (s.goto t (if s.reads = 0 then .idle else .flushLock)) := by
  rw [step, runThread, h]

theorem run_flushLock (h : s.pc t = .flushLock) :
    step s (.run t) = some { s.goto t (.post ⟨none, s.reads, true⟩) with reads := 0 } := by
  rw [step, runThread, h]

theorem run_post {wr : Wr} (h : s.pc t = .post wr) : step s (.run t) = some (s.send t wr) := by
  rw [step, runThread, h]

theorem run_rank (h : s.pc t ≠ .idle) :
    ∃ p s', step s (.run t) = some s' ∧ s'.pc = update s.pc t p ∧ p.rank < (s.pc t).rank ∧
      s'.promises = s.promises ∧ s'.reads ≤ s.reads := by
  cases hpc : s.pc t with
  | idle => exact absurd hpc h
  | flushTest =>
    refine ⟨_, _, run_flushTest hpc, rfl, ?_, rfl, le_rfl⟩
    split_ifs <;> decide
  | flushLock => exact ⟨_, _, run_flushLock hpc, rfl, Nat.lt_succ_self 1, rfl, Nat.zero_le _⟩
  | post wr =>
    refine ⟨_, _, run_post hpc, rfl, ?_, rfl, le_rfl⟩
    cases hs : wr.signaled with
    | true => simp [Pc.rank, hs]
    | false => split_ifs <;> simp [Pc.rank, hs]

/-- All threads can return. -/
theorem threads_return [Fintype Tid] (s : State Tid) :
    ∃ t, Reach step Free s t ∧ (∀ i, t.pc i = .idle) ∧ t.promises = s.promises ∧ t.reads ≤ s.reads := by
  induction hn : ∑ i, (s.pc i).rank using Nat.strong_induction_on generalizing s with
  | _ n ih =>
    by_cases hidle : ∀ i, s.pc i = .idle
    · exact ⟨s, .init, hidle, rfl, le_rfl⟩
    · push Not at hidle
      obtain ⟨i, hi⟩ := hidle
      obtain ⟨p, s', hstep, hpc, hrank, hpromises, hreads⟩ := run_rank hi
      have hsum := sum_update_add (Finset.mem_univ i) s.pc p fun _ p => p.rank
      rw [← hpc] at hsum
      obtain ⟨t, ht, hidle', hpromises', hreads'⟩ := ih (∑ j, (s'.pc j).rank) (by omega) s' rfl
      have hs' : Reach step Free s s' := Reach.init.next (.run i) trivial hstep
      exact ⟨t, hs'.trans ht, hidle', hpromises'.trans hpromises, hreads'.trans hreads⟩

/-- Without threads there are no reads. -/
theorem reads_eq_zero [IsEmpty Tid] (h : Reach step Free (init : State Tid) s) : s.reads = 0 := by
  refine h.invariant (I := fun s => s.reads = 0) rfl fun s a s' hs _ hstep => ?_
  cases trans_of_step hstep with
  | thread a t => exact isEmptyElim t
  | _ => exact hs

/-- What is not reported yet can be flushed. -/
theorem flush_reads (h : s.pc t = .idle) :
    ∃ s', Reach step Free s s' ∧ s'.promises = s.promises ∧ s'.reads = 0 := by
  by_cases hreads : s.reads = 0
  · exact ⟨s, .init, rfl, hreads⟩
  · have h₁ : step s (.flush_read t) = some (s.goto t .flushTest) := by rw [step, if_pos h]
    have h₂ : step (s.goto t .flushTest) (.run t) = some ((s.goto t .flushTest).goto t .flushLock) := by
      rw [run_flushTest (update_self t Pc.flushTest s.pc)]
      exact congrArg (fun p => some ((s.goto t .flushTest).goto t p)) (if_neg hreads)
    have h₃ := run_flushLock (s := (s.goto t .flushTest).goto t .flushLock) (t := t) (by simp [State.goto])
    exact ⟨_, ((Reach.init.next _ trivial h₁).next _ trivial h₂).next _ trivial h₃, rfl, rfl⟩

variable [Fintype Tid]

theorem Inv.reach (inv : Inv s) (h : Reach RemoteRead.step Free s s') : Inv s' :=
  h.invariant inv fun _ _ _ inv _ hstep => inv.step hstep

/-- The work of the queue pair, the poller and the pool. -/
def State.work (s : State Tid) : ℕ :=
  2 * (s.posted.length - s.executed) + s.cq.length + (claimed s.posted - s.published.length)

/-- While there is work left, a step does some of it. -/
theorem Inv.works (inv : Inv s) (h : ¬s.Drained) :
    ∃ a s', RemoteRead.step s a = some s' ∧ SameThreads s s' ∧ s'.work < s.work := by
  by_cases hexec : s.executed < s.posted.length
  · refine ⟨.execute, _, by rw [RemoteRead.step, getElem?_eq_getElem hexec]; rfl, ?_⟩
    refine ⟨⟨rfl, rfl, rfl, rfl⟩, ?_⟩
    simp only [State.work]
    split_ifs
    · rw [length_append, length_singleton]
      omega
    · omega
  · cases hcq : s.cq with
    | cons cnt cq =>
      refine ⟨.poll, _, by rw [RemoteRead.step, hcq], ?_⟩
      refine ⟨⟨rfl, rfl, rfl, rfl⟩, ?_⟩
      simp only [State.work, hcq, length_cons]
      omega
    | nil =>
      have htask : ∃ τ ∈ s.tasks, τ.i < τ.cnt := by
        by_contra hno
        push Not at hno
        exact h ⟨le_antisymm inv.executed_le (not_lt.1 hexec), hcq, hno⟩
      obtain ⟨τ, hτ, hi⟩ := htask
      obtain ⟨k, hk⟩ := mem_iff_getElem?.1 hτ
      have hpublish := (show RemoteRead.step s (.publish k) = _ by rw [RemoteRead.step, hk]).trans (if_pos hi)
      refine ⟨.publish k, _, hpublish, ⟨rfl, rfl, rfl, rfl⟩, ?_⟩
      have hlen := (inv.step hpublish).length_published_le
      simp only [State.work, length_append, length_singleton] at hlen ⊢
      omega

/-- The work that is left can be done while the threads wait. -/
theorem Inv.drain (inv : Inv s) : ∃ t, Reach RemoteRead.step Free s t ∧ SameThreads s t ∧ t.Drained := by
  induction hn : s.work using Nat.strong_induction_on generalizing s with
  | _ n ih =>
    by_cases hd : s.Drained
    · exact ⟨s, .init, ⟨rfl, rfl, rfl, rfl⟩, hd⟩
    · obtain ⟨a, s', hstep, hsame, hlt⟩ := inv.works hd
      obtain ⟨t, ht, hst, hdrained⟩ := ih _ (hn ▸ hlt) (inv.step hstep) rfl
      have hs' : Reach RemoteRead.step Free s s' := Reach.init.next a trivial hstep
      exact ⟨t, hs'.trans ht, hsame.trans hst, hdrained⟩

/-- Every run can be completed. -/
theorem settles (h : Reach step Free init s) :
    ∃ t, Reach step Free s t ∧ t.Quiet ∧ t.promises = s.promises := by
  obtain ⟨s₁, h₁, hidle₁, hp₁, -⟩ := threads_return s
  have hflushed : ∃ s₂, Reach step Free s₁ s₂ ∧ s₂.promises = s₁.promises ∧ s₂.reads = 0 := by
    rcases isEmpty_or_nonempty Tid with hempty | ⟨⟨t⟩⟩
    · exact ⟨s₁, .init, rfl, reads_eq_zero (h.trans h₁)⟩
    · exact flush_reads (hidle₁ t)
  obtain ⟨s₂, h₂, hp₂, hreads₂⟩ := hflushed
  obtain ⟨s₃, h₃, hidle₃, hp₃, hreads₃⟩ := threads_return s₂
  have inv : Inv s₃ := Inv.init.reach (((h.trans h₁).trans h₂).trans h₃)
  obtain ⟨t, ht, hsame, hdrained⟩ := inv.drain
  refine ⟨t, ((h₁.trans h₂).trans h₃).trans ht, { hdrained with idle := ?_, reads := ?_ }, ?_⟩
  · rwa [hsame.pc]
  · rw [hsame.reads]
    omega
  · rw [hsame.promises, hp₃, hp₂, hp₁]

end

/-! ## Data arrives before it is published -/

section

/-- The read of the promise `p` has been executed. -/
def State.Arrived (s : State Tid) (p : ℕ) : Prop :=
  ∃ wr ∈ s.posted.take s.executed, wr.promise = some p

/-- The contract of `read`. -/
structure Exact (s : State Tid) : Prop where
  arrived : ∀ p ∈ s.published, s.Arrived p
  nodup : s.published.Nodup
  promised : ∀ p ∈ s.published, p < s.promises
  all : s.Quiet → ∀ p < s.promises, p ∈ s.published

/-- A request that will be reported is posted after the reads whose promises it will stand for: as many
as its `wr_id` says, behind those of the requests posted before it. -/
def Ordered (s : State Tid) : Action Tid → Prop
  | .run t => ∀ wr, s.pc t = .post wr → wr.signaled = true →
      ∀ p, claimed s.posted ≤ p → p < claimed s.posted + wr.wr_id →
        wr.promise = some p ∨ ∃ wr' ∈ s.posted, wr'.promise = some p
  | _ => True

/-- Whatever the queue pair has executed, it has executed the reads the completions stand for. -/
def Covered (posted : List Wr) : Prop :=
  ∀ n p, p < claimed (posted.take n) → ∃ wr ∈ posted.take n, wr.promise = some p

theorem Covered.snoc {posted : List Wr} {wr : Wr} (h : Covered posted)
    (hwr : ∀ p, claimed posted ≤ p → p < claimed posted + wr.claim →
      wr.promise = some p ∨ ∃ wr' ∈ posted, wr'.promise = some p) : Covered (posted ++ [wr]) := by
  intro n p hp
  by_cases hn : n ≤ posted.length
  · rw [take_append_of_le_length hn] at hp ⊢
    exact h n p hp
  · have htake : (posted ++ [wr]).take n = posted ++ [wr] :=
      take_of_length_le (by simp only [length_append, length_singleton]; omega)
    rw [htake] at hp ⊢
    rw [claimed_append, claimed_singleton] at hp
    by_cases hold : p < claimed posted
    · obtain ⟨wr', hmem, hpromise⟩ := h posted.length p (by rwa [take_length])
      rw [take_length] at hmem
      exact ⟨wr', mem_append_left _ hmem, hpromise⟩
    · rcases hwr p (not_lt.1 hold) hp with hself | ⟨wr', hmem, hpromise⟩
      · exact ⟨wr, by simp, hself⟩
      · exact ⟨wr', mem_append_left _ hmem, hpromise⟩

theorem Inv.exact [Fintype Tid] (inv : Inv s) (hc : Covered s.posted) : Exact s := by
  constructor
  · intro p hp
    exact hc _ p (inv.mem_published hp)
  · have hnodup : ((s.published : Multiset ℕ) + (s.tasks.map Task.rest).sum).Nodup := by
      rw [inv.counted]
      exact nodup_range _
    exact coe_nodup.1 (nodup_add.1 hnodup).1
  · intro p hp
    have hlt := inv.mem_published hp
    have hsplit := claimed_append (s.posted.take s.executed) (s.posted.drop s.executed)
    rw [take_append_drop] at hsplit
    have hreserved := inv.reserved
    omega
  · intro hq p hp
    have hpending : ∑ t, (s.pc t).claim = 0 := Finset.sum_eq_zero fun t _ => by rw [hq.idle t]; rfl
    have hreserved := inv.reserved
    rw [hpending, hq.reads] at hreserved
    rw [← mem_coe, inv.published_of_drained hq.toDrained, Multiset.mem_range]
    omega

variable [DecidableEq Tid]

theorem Covered.step (h : Covered s.posted) (hok : Ordered s a) (hstep : step s a = some s') :
    Covered s'.posted := by
  cases trans_of_step hstep with
  | thread a t p reads promises send_cnt posted ha hm =>
    generalize hpc : s.pc t = q at hm
    cases hm with
    | post wr p hp =>
      refine h.snoc fun i hi hlt => ?_
      rw [Wr.claim] at hlt
      split_ifs at hlt with hs
      · rcases ha with rfl | rfl | rfl
        iterate 2 simp [RemoteRead.step, hpc] at hstep
        exact hok wr hpc hs i hi hlt
      · omega
    | _ => exact h
  | _ => exact h

variable [Fintype Tid]

/-- A request that is posted too early makes some promise be published too early. -/
theorem Inv.not_exact (inv : Inv s) (hstep : RemoteRead.step s a = some s') (hok : ¬Ordered s a) :
    ∃ t, Reach RemoteRead.step Free s' t ∧ ¬Exact t := by
  cases a with
  | run t =>
    simp only [Ordered, not_forall, not_or] at hok
    obtain ⟨wr, hpc, hs, p, hle, hlt, hself, hposted⟩ := hok
    have hp' : s'.posted = s.posted ++ [wr] := by
      cases (run_post hpc).symm.trans hstep
      rfl
    obtain ⟨u, hu, hsame, hdrained⟩ := (inv.step hstep).drain
    refine ⟨u, hu, fun hexact => ?_⟩
    have hpub : p ∈ u.published := by
      rw [← mem_coe, ((inv.step hstep).reach hu).published_of_drained hdrained,
        Multiset.mem_range, hsame.posted, hp', claimed_append, claimed_singleton, Wr.claim, if_pos hs]
      exact hlt
    -- the threads have not moved, so the read of `p` is still not posted
    obtain ⟨wr', hmem, hpromise⟩ := hexact.arrived p hpub
    have hmem' := mem_of_mem_take hmem
    rw [hsame.posted, hp', mem_append, List.mem_singleton] at hmem'
    rcases hmem' with hold | rfl
    · exact hposted ⟨wr', hold, hpromise⟩
    · exact hself hpromise
  | _ => exact absurd trivial hok

end

/-- Reads are published exactly once and after their data has arrived, in every run that posts the
requests that are reported behind the reads they will stand for. Every run can be completed. A request
that is posted too early leads to a promise that is published too early. -/
theorem read_completion {Tid : Type*} [DecidableEq Tid] [Fintype Tid] :
    (∀ s : State Tid, Reach step Ordered init s → Exact s) ∧ (∀ s : State Tid, Reach step Free init s →
      ∃ t, Reach step Free s t ∧ t.Quiet ∧ t.promises = s.promises) ∧
    ∀ (s s' : State Tid) (a : Action Tid), Reach step Free init s → step s a = some s' →
      ¬Ordered s a → ∃ t, Reach step Free s' t ∧ ¬Exact t := by
  refine ⟨fun s hs => ?_, fun s hs => settles hs, fun s s' a hs hstep hok => ?_⟩
  · have inv : Inv s := Inv.init.reach (hs.mono fun _ _ _ => trivial)
    have hcovered : Covered s.posted := by
      refine hs.invariant (I := fun s => Covered s.posted) ?_ fun s a s' hc hok hstep => hc.step hok hstep
      intro n p hp
      simp [init, claimed] at hp
    exact inv.exact hcovered
  · exact (Inv.init.reach hs).not_exact hstep hok

/-- One thread makes a promise; before it posts the read, another one flushes. -/
theorem published_before_posted :
    ∃ s : State Bool, Reach step Free init s ∧ s.published = [0] ∧ ¬Exact s := by
  refine exists_reach_of_exec [.read false, .flush_read true, .run true, .run true, .run true, .execute,
    .poll, .publish 0] ⟨_, rfl, fun _ => ⟨rfl, fun hexact => ?_⟩⟩
  obtain ⟨wr, hmem, hpromise⟩ := hexact.arrived 0 (List.mem_singleton_self 0)
  rw [List.mem_singleton.1 (mem_of_mem_take hmem)] at hpromise
  cases hpromise

end Proteus.RemoteRead
