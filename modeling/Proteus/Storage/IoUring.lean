import Mathlib.Tactic.Abel
import Proteus.Machine

/-!
# The io_uring wrapper

`IoUringThreadUnsafe` takes an `IoInfo` slot from a queue of free ones for every request, stores the
callbacks there, and gives the slot to the kernel as the data of the request. A completion brings the
slot back with a result, a negative error or a number of bytes; `poll` runs a callback of the slot
and puts it back into the queue.

The model runs the one thread that uses the ring, completion by completion, and lets the kernel
complete what was submitted in any order, at any time and with any result. When a failed check or the
call of an empty function has ended the process, the thread is `stopped`. Callbacks do not call the
wrapper.

Results:

* `Inv.step`: whatever the results are, slots, requests and callbacks are accounted for until the
  process stops, and it stops only at an error;
* `Base.returns`: every call comes to its end once the kernel has served what it was given;
* `contract_iff`: a result is not compared with the size of the request, and an error ends the
  process, so the contract of the wrapper holds if and only if every completion that was processed
  had transferred all bytes of its request.
-/

namespace Proteus.IoUring

open Function List Multiset

/-! ## The wrapper and the kernel -/

/-- The functions that make requests. -/
inductive Kind
  | read
  | readv
  deriving DecidableEq

structure Request where
  kind : Kind
  bytes : ℕ
  deriving DecidableEq

/-- The requests whose callbacks are stored in a slot; `none` is an empty `std::function`. -/
structure IoInfo where
  call_back_success : Option ℕ := none
  call_back_failure : Option ℕ := none

/-- The calls that poll in a loop. -/
inductive Call
  | request (r : Request)
  | flush
  /-- the destructor -/
  | destroy
  deriving DecidableEq

/-- Where the thread stands. `poll` returns to the loop it was called from, if any. -/
inductive Pc
  /-- outside, after the call that has returned -/
  | idle (last : Option Call)
  /-- at the condition of the loop -/
  | loop (c : Call)
  /-- at `io_uring_wait_cqe_timeout` -/
  | polling (c : Option Call)
  /-- at `io_uring_for_each_cqe` -/
  | draining (c : Option Call)
  | destroyed
  | stopped
  deriving DecidableEq

/-- The wrapper, the ring and the kernel. The last four fields record the run: the requests made, the
request a slot was last used for, the callbacks that ran (`true` for success) and the completions
that were processed. -/
structure State where
  m_IoInfo_free_set : List ℕ
  info : ℕ → IoInfo := fun _ => {}
  m_count_pending_submissions : ℕ := 0
  sq : List ℕ := []
  kernel : List ℕ := []
  cq : List (ℕ × ℤ) := []
  pc : Pc := .idle none
  requests : List Request := []
  owner : ℕ → ℕ := fun _ => 0
  called : List (ℕ × Bool) := []
  processed : List (ℕ × ℤ) := []

/-- The constructor, with `max` for `m_max_inflight_requests`. -/
def init (max : ℕ) : State where
  m_IoInfo_free_set := List.range max

variable (s : State)

namespace State

/-- `submit`; the kernel takes everything that was prepared. -/
def submit : State :=
  if s.sq.length = s.m_count_pending_submissions then
    { s with sq := [], kernel := s.kernel ++ s.sq, m_count_pending_submissions := 0 }
  else { s with pc := .stopped }

/-- The request goes into a slot that was popped, and into the submission queue. `readv` leaves
`call_back_failure` as it was. -/
def store (r : Request) (slot : ℕ) (free : List ℕ) : State :=
  { s with
    m_IoInfo_free_set := free
    info := update s.info slot
      { call_back_success := some s.requests.length
        call_back_failure :=
          match r.kind with
          | .read => some s.requests.length
          | .readv => (s.info slot).call_back_failure }
    sq := s.sq ++ [slot]
    m_count_pending_submissions := s.m_count_pending_submissions + 1
    pc := .idle (some (.request r))
    requests := s.requests ++ [r]
    owner := update s.owner slot s.requests.length }

/-- `read` and `readv` once a slot has been popped; without an entry in the submission queue there is
nothing to write the request to. -/
def prepare (max : ℕ) (s : State) (r : Request) (slot : ℕ) (free : List ℕ) : State :=
  if s.sq.length < max then s.store r slot free else { s with pc := .stopped }

/-- One completion, the first of the queue. The callback for errors is a check that there is none. -/
def process (slot : ℕ) (res : ℤ) (rest : List (ℕ × ℤ)) (c : Option Call) : State :=
  if res < 0 then
    { s with
      cq := rest
      pc := .stopped
      called := s.called ++ ((s.info slot).call_back_failure.map fun r => (r, false)).toList
      processed := s.processed ++ [(s.owner slot, res)] }
  else
    { s with
      cq := rest
      m_IoInfo_free_set := s.m_IoInfo_free_set ++ [slot]
      pc := .draining c
      called := s.called ++ ((s.info slot).call_back_success.map fun r => (r, true)).toList
      processed := s.processed ++ [(s.owner slot, res)] }

/-- Where `poll` returns to. -/
def back : Option Call → Pc
  | none => .idle none
  | some c => .loop c

/-- `poll` looks at the completion queue; an empty one is the timeout, or the end of the loop. -/
def drain (c : Option Call) : State :=
  match s.cq with
  | [] => { s with pc := back c }
  | (slot, res) :: rest => s.process slot res rest c

/-- The number of bytes of a request. -/
def bytes (s : State) (r : ℕ) : ℕ := (s.requests[r]?.map Request.bytes).getD 0

/-- The slots the ring and the kernel have. -/
def inflight : Multiset ℕ := s.sq + s.kernel + s.cq.map Prod.fst

end State

/-- The thread goes on. -/
def go (max : ℕ) (s : State) : Option State :=
  match s.pc with
  | .loop (.request r) =>
    match s.m_IoInfo_free_set with
    | [] => some { s with pc := .polling (some (.request r)) }.submit
    | slot :: free => some (s.prepare max r slot free)
  | .loop .flush =>
    if s.m_IoInfo_free_set.length < max then some { s with pc := .polling (some .flush) }
    else some { s with pc := .idle (some .flush) }
  | .loop .destroy =>
    if s.m_IoInfo_free_set.length < max then some { s with pc := .polling (some .destroy) }
    else some { s with m_IoInfo_free_set := s.m_IoInfo_free_set.drop max, pc := .destroyed }
  | .polling c | .draining c => some (s.drain c)
  | _ => none

/-- The functions of the wrapper; `poll` and `submit` have no loop of their own. -/
inductive Entry
  | call (c : Call)
  | poll
  | submit

/-- A call of the wrapper, up to its loop. `poll_until_requests_can_be_made` looks for a free slot
before it submits. -/
def State.enter : Entry → State
  | .call (.request r) => { s with pc := .loop (.request r) }
  | .call c => { s with pc := .loop c }.submit
  | .poll => { s with pc := .polling none }
  | .submit => { s with pc := .idle none }.submit

inductive Move
  | enter (e : Entry)
  | go
  /-- the kernel completes a request -/
  | complete (slot : ℕ) (res : ℤ)

def step (max : ℕ) (s : State) : Move → Option State
  | .enter e =>
    match s.pc with
    | .idle _ => some (s.enter e)
    | _ => none
  | .go => go max s
  | .complete slot res =>
    if slot ∈ s.kernel ∧ res ≤ s.bytes (s.owner slot) then
      some { s with kernel := s.kernel.erase slot, cq := s.cq ++ [(slot, res)] }
    else none

/-! ## The accounting -/

/-- Right after `flush`, or after the destructor. -/
def Pc.flushed : Pc → Bool
  | .idle (some .flush) | .destroyed => true
  | _ => false

/-- In `flush` or in the destructor. -/
def Pc.flushing : Pc → Bool
  | .loop c | .polling (some c) | .draining (some c) => c = .flush ∨ c = .destroy
  | _ => false

/-- What holds while the process runs. -/
structure Base (max : ℕ) (s : State) : Prop where
  slots : s.pc ≠ .destroyed → (s.m_IoInfo_free_set : Multiset ℕ) + s.inflight = Multiset.range max
  pending : s.sq.length = s.m_count_pending_submissions
  once : Multiset.range s.requests.length = s.inflight.map s.owner + s.called.map Prod.fst
  info : ∀ slot ∈ s.inflight, (s.info slot).call_back_success = some (s.owner slot)
  called : s.called = s.processed.map fun e => (e.1, true)
  nonneg : ∀ e ∈ s.processed, 0 ≤ e.2
  flushed : s.pc.flushed = true → s.inflight = 0
  flushing : s.pc.flushing = true → s.sq = []

/-- What holds in every state: only an error stops the process. -/
structure Inv (max : ℕ) (s : State) : Prop where
  base : s.pc ≠ .stopped → Base max s
  stopped : s.pc = .stopped → ∃ e ∈ s.processed, e.2 < 0

open State

variable {max : ℕ} {s s' : State} {slot : ℕ}

theorem Base.init : Base max (init max) := by
  refine ⟨fun _ => ?_, rfl, rfl, ?_, rfl, ?_, fun _ => rfl, fun _ => rfl⟩
  · exact add_zero (Multiset.range max)
  all_goals exact nofun

theorem Base.inv (hb : Base max s) (hpc : s.pc ≠ .stopped) : Inv max s :=
  ⟨fun _ => hb, fun h => absurd h hpc⟩

/-- While the process runs, `submit` does not fail. -/
theorem submit_eq (hb : Base max s) (pc : Pc) : { s with pc }.submit =
      { s with sq := [], kernel := s.kernel ++ s.sq, m_count_pending_submissions := 0, pc } := by
  simp [submit, hb.pending]

theorem length_sq_le : s.sq.length ≤ s.inflight.card := by
  simp only [inflight, card_add, coe_card]
  omega

theorem drain_nil (hcq : s.cq = []) (c : Option Call) : s.drain c = { s with pc := back c } := by
  simp [drain, hcq]

theorem drain_cons {res : ℤ} {rest : List (ℕ × ℤ)} (hcq : s.cq = (slot, res) :: rest)
    (c : Option Call) : s.drain c = s.process slot res rest c := by
  simp [drain, hcq]

variable {c : Option Call}

section

variable (hb : Base max s) (hpc : s.pc ≠ .destroyed)
include hb hpc

/-- The slots in flight move on, and the thread does too. -/
theorem Base.moved {sq kernel : List ℕ} {cq : List (ℕ × ℤ)} (pc : Pc)
    (hin : (sq + kernel + cq.map Prod.fst : Multiset ℕ) = s.inflight)
    (hflushed : pc.flushed = true → s.inflight = 0) (hflushing : pc.flushing = true → sq = []) :
    Base max { s with sq, kernel, cq, m_count_pending_submissions := sq.length, pc } := by
  have hin' : inflight { s with sq, kernel, cq, m_count_pending_submissions := sq.length, pc } =
      s.inflight := hin
  refine { hb with
    slots := fun _ => ?_
    pending := rfl
    once := ?_
    info := ?_
    flushed := ?_
    flushing := hflushing } <;> rw [hin']
  exacts [hb.slots hpc, hb.once, hb.info, hflushed]

variable {pc : Pc}

/-- The thread moves on. -/
theorem Base.goTo
    (hflushed : pc.flushed = true → s.inflight = 0) (hflushing : pc.flushing = true → s.sq = []) :
    Base max { s with pc } := by
  have h := hb.moved hpc pc rfl hflushed hflushing
  rwa [hb.pending] at h

theorem Base.submit (hflushed : pc.flushed = false) : Base max { s with pc }.submit := by
  rw [submit_eq hb]
  refine hb.moved hpc pc ?_ (fun h => ?_) fun _ => rfl
  · simp only [inflight, ← coe_add, coe_nil, zero_add]
    rw [add_comm (s.kernel : Multiset ℕ)]
  · rw [hflushed] at h
    cases h

/-- A slot that is free is not in flight. -/
theorem Base.free_notMem (hfree : slot ∈ s.m_IoInfo_free_set) : slot ∉ s.inflight := by
  have hnodup : ((s.m_IoInfo_free_set : Multiset ℕ) + s.inflight).Nodup := by
    rw [hb.slots hpc]
    exact nodup_range max
  exact disjoint_left.1 (nodup_add.1 hnodup).2.2 (mem_coe.2 hfree)

theorem Base.length_add_card : s.m_IoInfo_free_set.length + s.inflight.card = max := by
  have h := congrArg card (hb.slots hpc)
  simpa using h

variable {free : List ℕ}

/-- With a free slot there is room in the submission queue. -/
theorem Base.length_sq_lt (hfree : s.m_IoInfo_free_set = slot :: free) : s.sq.length < max := by
  have h := hb.length_add_card hpc
  have hle : s.sq.length ≤ s.inflight.card := length_sq_le
  rw [hfree, length_cons] at h
  omega

section

variable (r : Request) (hfree : s.m_IoInfo_free_set = slot :: free)
include r hfree

/-- A new request goes into a slot that is not in flight. -/
theorem Base.store : Base max (s.store r slot free) := by
  have hslot : slot ∉ s.inflight := hb.free_notMem hpc (by rw [hfree]; exact mem_cons_self)
  have hne : ∀ x ∈ s.inflight, x ≠ slot := fun x hx h => hslot (h ▸ hx)
  have hin : (s.store r slot free).inflight = slot ::ₘ s.inflight := by
    simp only [State.inflight, State.store, ← coe_add, ← singleton_add,
      coe_singleton]
    abel
  refine { hb with
    slots := fun _ => ?_
    pending := ?_
    once := ?_
    info := fun x hx => ?_
    flushed := nofun
    flushing := nofun }
  · rw [hin, ← hb.slots hpc, hfree, add_cons]
    rfl
  · simp [State.store, hb.pending]
  · have howner : s.inflight.map (s.store r slot free).owner = s.inflight.map s.owner :=
      map_congr rfl fun x hx => update_of_ne (hne x hx) _ _
    have hself : (s.store r slot free).owner slot = s.requests.length := update_self ..
    have hlen : (s.store r slot free).requests.length = s.requests.length + 1 := length_append
    rw [hlen, hin, Multiset.map_cons, howner, hself, Multiset.range_succ, hb.once]
    rfl
  · rw [hin, Multiset.mem_cons] at hx
    obtain rfl | hx := hx
    · simp [State.store]
    · simp only [State.store, update_of_ne (hne x hx)]
      exact hb.info x hx

theorem Base.prepare_eq : s.prepare max r slot free = s.store r slot free :=
  if_pos (hb.length_sq_lt hpc hfree)

end

/-- A completion that is not an error gives its slot back. -/
theorem Base.process (c : Option Call) {res : ℤ} {rest : List (ℕ × ℤ)}
    (hcq : s.cq = (slot, res) :: rest) (hres : 0 ≤ res)
    (hflushing : (Pc.draining c).flushing = true → s.sq = []) : Base max (s.process slot res rest c) := by
  have hin : s.inflight = slot ::ₘ (s.sq + s.kernel + rest.map Prod.fst : Multiset ℕ) := by
    rw [inflight, hcq, List.map_cons, ← cons_coe, add_cons]
  have hinfo : (s.info slot).call_back_success = some (s.owner slot) :=
    hb.info slot (by rw [hin]; exact mem_cons_self _ _)
  rw [State.process, if_neg (by omega), hinfo]
  refine { hb with
    slots := fun _ => ?_
    once := ?_
    info := fun x hx => hb.info x (by rw [hin]; exact mem_cons_of_mem hx)
    called := by simp [hb.called]
    nonneg := forall_mem_append.2 ⟨hb.nonneg, forall_mem_singleton.2 hres⟩
    flushed := nofun
    flushing := hflushing }
  · rw [← hb.slots hpc, hin]
    simp only [inflight, ← coe_add, ← singleton_add, coe_singleton]
    abel
  · rw [hb.once, hin, Multiset.map_cons]
    simp only [inflight, Option.map_some, Option.toList_some, map_append,
      List.map_cons, map_nil, ← Multiset.coe_add, ← Multiset.singleton_add,
      coe_singleton]
    abel

theorem Inv.drain
    (hflushing : (Pc.draining c).flushing = true → s.sq = []) : Inv max (s.drain c) := by
  cases hcq : s.cq with
  | nil =>
    rw [drain_nil hcq]
    refine (hb.goTo hpc (fun h => ?_) fun h => ?_).inv ?_
    · cases c <;> cases h
    · cases c with
      | none => cases h
      | some c => exact hflushing h
    · cases c <;> exact nofun
  | cons e rest =>
    obtain ⟨slot, res⟩ := e
    rw [drain_cons hcq]
    by_cases hres : res < 0
    · rw [process, if_pos hres]
      exact ⟨fun h => absurd rfl h, fun _ => ⟨_, mem_concat_self, hres⟩⟩
    · refine (hb.process hpc c hcq (by omega) hflushing).inv ?_
      rw [process, if_neg hres]
      exact nofun

/-- When every slot is free, nothing is in flight. -/
theorem Base.inflight_eq_zero (hfree : ¬s.m_IoInfo_free_set.length < max) : s.inflight = 0 := by
  have h := hb.length_add_card hpc
  exact card_eq_zero.1 (by omega)

theorem Inv.submit (hflushed : pc.flushed = false) (hstopped : pc ≠ .stopped) :
    Inv max { s with pc }.submit := by
  refine (hb.submit hpc hflushed).inv ?_
  rwa [submit_eq hb]

theorem Inv.enter (e : Entry) : Inv max (s.enter e) := by
  cases e with
  | call c =>
    cases c with
    | request r => exact (hb.goTo hpc (by nofun) (by nofun)).inv nofun
    | flush | destroy => exact Inv.submit hb hpc rfl nofun
  | poll => exact (hb.goTo hpc (by nofun) (by nofun)).inv nofun
  | submit => exact Inv.submit hb hpc rfl nofun

end

theorem Inv.go (hb : Base max s) (hs : IoUring.go max s = some s') : Inv max s' := by
  unfold IoUring.go at hs
  split at hs
  case h_1 r hpc =>
    have hne : s.pc ≠ .destroyed := by rw [hpc]; exact nofun
    split at hs <;> cases hs
    · exact Inv.submit hb hne rfl nofun
    · rw [hb.prepare_eq hne r ‹_›]
      exact (hb.store hne r ‹_›).inv nofun
  case h_2 hpc =>
    have hne : s.pc ≠ .destroyed := by rw [hpc]; exact nofun
    have hsq : s.sq = [] := hb.flushing (by rw [hpc]; rfl)
    split_ifs at hs with hfree <;> cases hs
    · exact (hb.goTo hne (by nofun) fun _ => hsq).inv nofun
    · exact (hb.goTo hne (fun _ => hb.inflight_eq_zero hne hfree) (by nofun)).inv nofun
  case h_3 hpc =>
    have hne : s.pc ≠ .destroyed := by rw [hpc]; exact nofun
    have hsq : s.sq = [] := hb.flushing (by rw [hpc]; rfl)
    split_ifs at hs with hfree <;> cases hs
    · exact (hb.goTo hne (by nofun) fun _ => hsq).inv nofun
    · exact Base.inv { hb with
        slots := fun h => absurd rfl h
        flushed := fun _ => hb.inflight_eq_zero hne hfree
        flushing := nofun } nofun
  case h_4 c hpc | h_5 c hpc =>
    cases hs
    exact Inv.drain hb (by rw [hpc]; exact nofun) fun h => hb.flushing (by rw [hpc]; cases c <;> exact h)
  case h_6 => cases hs

/-- A completion moves a slot from the kernel to the completion queue. -/
theorem inflight_complete (hslot : slot ∈ s.kernel) (res : ℤ) :
    (s.sq + s.kernel.erase slot + (s.cq ++ [(slot, res)]).map Prod.fst : Multiset ℕ) =
      s.inflight := by
  have hk : (s.kernel : Multiset ℕ) = slot ::ₘ (s.kernel.erase slot : Multiset ℕ) := by
    rw [cons_coe, coe_eq_coe]
    exact perm_cons_erase hslot
  simp only [inflight, hk, map_append, List.map_cons, map_nil, ← coe_add,
    ← singleton_add, coe_singleton]
  abel

theorem Inv.complete (inv : Inv max s) (hslot : slot ∈ s.kernel) (res : ℤ) :
    Inv max { s with kernel := s.kernel.erase slot, cq := s.cq ++ [(slot, res)] } := by
  refine ⟨fun hpc => ?_, inv.stopped⟩
  have hb := inv.base hpc
  have hmem : slot ∈ s.inflight := by simp [inflight, hslot]
  have hne : s.pc ≠ .destroyed := fun h => by
    rw [hb.flushed (by rw [h]; rfl)] at hmem
    cases hmem
  have h := hb.moved hne s.pc (inflight_complete hslot res) hb.flushed hb.flushing
  rwa [hb.pending] at h

/-- **The accounting is kept by every step**, and only an error stops the process. -/
theorem Inv.step (inv : Inv max s) {m : Move} (hs : IoUring.step max s m = some s') : Inv max s' := by
  cases m <;> simp only [IoUring.step] at hs
  case enter e =>
    split at hs <;> cases hs
    case h_1 hpc => exact Inv.enter (inv.base (by rw [hpc]; exact nofun)) (by rw [hpc]; exact nofun) e
  case go =>
    refine Inv.go (inv.base fun h => ?_) hs
    simp [IoUring.go, h] at hs
  case complete slot res =>
    split_ifs at hs with hslot
    cases hs
    exact inv.complete hslot.1 res

theorem Inv.reach {ok : State → Move → Prop} (inv : Inv max s)
    (h : Reach (IoUring.step max) ok s s') : Inv max s' :=
  h.invariant inv fun _ _ _ inv _ hs => inv.step hs

/-! ## Every call returns -/

section

/-- The thread goes on, or the kernel completes what it has. -/
def Serve : State → Move → Prop
  | _, .enter _ => False
  | _, _ => True

/-- The thread is back from its call. -/
def Pc.returned : Pc → Bool
  | .idle _ | .destroyed => true
  | _ => false

theorem reach_go (hs : go max s = some s') : Reach (step max) Serve s s' :=
  Reach.init.next Move.go trivial hs

/-- The kernel completes everything it was given. -/
theorem exists_completed (max : ℕ) (s : State) (hcq : ∀ e ∈ s.cq, 0 ≤ e.2) :
    ∃ s', Reach (step max) Serve s s' ∧ s'.pc = s.pc ∧ s'.sq = s.sq ∧ s'.kernel = [] ∧
      ∀ e ∈ s'.cq, 0 ≤ e.2 := by
  generalize hk : s.kernel = k
  induction k generalizing s with
  | nil => exact ⟨s, .init, rfl, rfl, hk, hcq⟩
  | cons slot k ih =>
    let res : ℤ := s.bytes (s.owner slot)
    let s₁ : State := { s with kernel := s.kernel.erase slot, cq := s.cq ++ [(slot, res)] }
    have hs : step max s (.complete slot res) = some s₁ := if_pos ⟨by rw [hk]; simp, le_rfl⟩
    obtain ⟨s', hreach, hpc, hsq, hkernel, hcq'⟩ := ih s₁
      (forall_mem_append.2 ⟨hcq, forall_mem_singleton.2 (Int.natCast_nonneg _)⟩) (by simp [s₁, hk])
    exact ⟨s', (Reach.init.next (Move.complete slot res) trivial hs).trans hreach, hpc, hsq,
      hkernel, hcq'⟩

/-- `poll` comes to its end when there are no errors. -/
theorem exists_drained (max : ℕ) (s : State) (hpc : s.pc = .polling c ∨ s.pc = .draining c)
    (hcq : ∀ e ∈ s.cq, 0 ≤ e.2) : ∃ s', Reach (step max) Serve s s' ∧ s'.pc = back c ∧ s'.sq = s.sq ∧
      s'.kernel = s.kernel ∧ s'.cq = [] := by
  have hgo : go max s = some (s.drain c) := by obtain h | h := hpc <;> simp only [go, h]
  generalize hl : s.cq = l
  induction l generalizing s with
  | nil =>
    rw [drain_nil hl] at hgo
    exact ⟨_, reach_go hgo, rfl, rfl, rfl, hl⟩
  | cons e l ih =>
    obtain ⟨slot, res⟩ := e
    have hres : 0 ≤ res := hcq (slot, res) (by rw [hl]; exact mem_cons_self)
    have hfields : (s.process slot res l c).pc = .draining c ∧ (s.process slot res l c).cq = l ∧
        (s.process slot res l c).sq = s.sq ∧ (s.process slot res l c).kernel = s.kernel := by
      rw [process, if_neg (by omega)]
      exact ⟨rfl, rfl, rfl, rfl⟩
    obtain ⟨hpc₁, hcq₁, hsq₁, hkernel₁⟩ := hfields
    rw [drain_cons hl] at hgo
    obtain ⟨s', hreach, hpc', hsq', hkernel', hcq'⟩ := ih _ (.inr hpc₁)
      (fun e he => hcq e (by rw [hl]; exact mem_cons_of_mem _ (hcq₁ ▸ he)))
      (by simp only [go, hpc₁]) hcq₁
    exact ⟨s', (reach_go hgo).trans hreach, hpc', hsq'.trans hsq₁, hkernel'.trans hkernel₁, hcq'⟩

variable {c : Call}

/-- `poll` in a loop comes back with all slots free when everything has been submitted. -/
theorem exists_emptied (max : ℕ) (s : State) (hpc : s.pc = .polling (some c)) (hsq : s.sq = [])
    (hcq : ∀ e ∈ s.cq, 0 ≤ e.2) :
    ∃ s', Reach (step max) Serve s s' ∧ s'.pc = .loop c ∧ s'.inflight = 0 := by
  obtain ⟨s₁, hreach₁, hpc₁, hsq₁, hkernel₁, hcq₁⟩ := exists_completed max s hcq
  obtain ⟨s₂, hreach₂, hpc₂, hsq₂, hkernel₂, hcq₂⟩ :=
    exists_drained max s₁ (.inl (hpc₁.trans hpc)) hcq₁
  refine ⟨s₂, hreach₁.trans hreach₂, hpc₂, ?_⟩
  rw [inflight, hsq₂, hsq₁, hsq, hkernel₂, hkernel₁, hcq₂]
  rfl

/-- The call can come to its end. -/
def Returns (max : ℕ) (s : State) : Prop := ∃ s', Reach (step max) Serve s s' ∧ s'.pc.returned = true

section

variable (hb : Base max s) (hmax : 0 < max)
include hb hmax

/-- A loop that finds what it waits for ends. -/
theorem Base.leaves (hpc : s.pc = .loop c) (hin : s.inflight = 0) : Returns max s := by
  have hne : s.pc ≠ .destroyed := by rw [hpc]; exact nofun
  have hlen := hb.length_add_card hne
  rw [hin, card_zero, add_zero] at hlen
  cases c with
  | request r =>
    cases hfree : s.m_IoInfo_free_set with
    | nil =>
      rw [hfree] at hlen
      exact absurd hlen hmax.ne
    | cons slot free =>
      have hgo : go max s = some (s.store r slot free) := by
        simp only [go, hpc, hfree, hb.prepare_eq hne r hfree]
      exact ⟨_, reach_go hgo, rfl⟩
  | flush | destroy => exact ⟨_, reach_go (by simp only [go, hpc, if_neg hlen.not_lt]; rfl), rfl⟩

/-- A loop ends: it submits, or has submitted, all that it waits for. -/
theorem Base.loop_returns (hpc : s.pc = .loop c) (hcq : ∀ e ∈ s.cq, 0 ≤ e.2) : Returns max s := by
  have hne : s.pc ≠ .destroyed := by rw [hpc]; exact nofun
  -- it is enough to get into `poll` with an empty submission queue
  have hpoll : ∀ s₁, go max s = some s₁ → s₁.pc = .polling (some c) → s₁.sq = [] → s₁.cq = s.cq →
      Returns max s := by
    intro s₁ hgo hpc₁ hsq₁ hcq₁
    obtain ⟨s₂, hreach, hpc₂, hin⟩ := exists_emptied max s₁ hpc₁ hsq₁ (hcq₁ ▸ hcq)
    have hb₂ : Base max s₂ := ((Inv.go hb hgo).reach hreach).base (by rw [hpc₂]; exact nofun)
    obtain ⟨s', hreach', h⟩ := hb₂.leaves hmax hpc₂ hin
    exact ⟨s', ((reach_go hgo).trans hreach).trans hreach', h⟩
  cases c with
  | request r =>
    cases hfree : s.m_IoInfo_free_set with
    | nil =>
      have hgo : go max s = some { s with pc := .polling (some (.request r)) }.submit := by
        simp only [go, hpc, hfree]
      rw [submit_eq hb] at hgo
      exact hpoll _ hgo rfl rfl rfl
    | cons slot free =>
      have hgo : go max s = some (s.store r slot free) := by
        simp only [go, hpc, hfree, hb.prepare_eq hne r hfree]
      exact ⟨_, reach_go hgo, rfl⟩
  | flush | destroy =>
    have hsq : s.sq = [] := hb.flushing (by rw [hpc]; rfl)
    by_cases hfree : s.m_IoInfo_free_set.length < max
    · refine hpoll _ (by simp only [go, hpc, if_pos hfree]; rfl) ?_ ?_ ?_
      exacts [rfl, hsq, rfl]
    · exact hb.leaves hmax hpc (hb.inflight_eq_zero hne hfree)

/-- **Every call returns** when the kernel serves what it was given and reports no error. -/
theorem Base.returns (hpc : s.pc ≠ .stopped) (hcq : ∀ e ∈ s.cq, 0 ≤ e.2) : Returns max s := by
  have hpoll : ∀ c, s.pc = .polling c ∨ s.pc = .draining c → Returns max s := by
    intro c hc
    obtain ⟨s₁, hreach, hpc₁, -, -, hcq₁⟩ := exists_drained max s hc hcq
    cases c with
    | none => exact ⟨s₁, hreach, by rw [hpc₁]; rfl⟩
    | some c =>
      have hb₁ : Base max s₁ := ((hb.inv hpc).reach hreach).base (by rw [hpc₁]; exact nofun)
      obtain ⟨s', hreach', h⟩ := hb₁.loop_returns hmax hpc₁ (by rw [hcq₁]; exact nofun)
      exact ⟨s', hreach.trans hreach', h⟩
  cases h : s.pc with
  | idle | destroyed => exact ⟨s, .init, by rw [h]; rfl⟩
  | loop c => exact hb.loop_returns hmax h hcq
  | polling c => exact hpoll c (.inl h)
  | draining c => exact hpoll c (.inr h)
  | stopped => exact absurd h hpc

end

end

/-! ## The contract -/

/-- The contract of the wrapper, in the state `s` of a run. -/
structure Contract (max : ℕ) (s : State) : Prop where
  /-- a call that finds a completion does not end the process -/
  live : s.pc ≠ .stopped
  /-- one callback for every request: it has run, or the request is in flight -/
  once : ∀ r < s.requests.length,
    (s.called.map Prod.fst).count r + (s.inflight.map s.owner).count r = 1
  /-- success means that all bytes were transferred -/
  success : ∀ r, (r, true) ∈ s.called → (r, (s.bytes r : ℤ)) ∈ s.processed
  /-- no slot is lost, and none is reused while it is in flight -/
  slots : s.pc ≠ .destroyed → s.m_IoInfo_free_set.length + s.inflight.card = max ∧
    (s.m_IoInfo_free_set + s.inflight).Nodup
  /-- nothing is outstanding after `flush` or the destructor -/
  flushed : s.pc.flushed = true → s.inflight = 0
  /-- and every call returns -/
  returns : (∀ e ∈ s.cq, 0 ≤ e.2) → ∃ s', Reach (step max) Serve s s' ∧ s'.pc.returned = true

section

variable {s : State}

/-- All bytes were transferred by the completions that were processed. -/
def Whole (s : State) : Prop := ∀ e ∈ s.processed, e.2 = s.bytes e.1

/-- The completions that were processed belong to different requests. -/
theorem Base.processed_nodup (hb : Base max s) : (s.processed.map Prod.fst).Nodup := by
  have hnodup : (s.inflight.map s.owner + (s.called.map Prod.fst : Multiset ℕ)).Nodup := by
    rw [← hb.once]
    exact nodup_range _
  have h := (nodup_add.1 hnodup).2.1
  rw [hb.called, List.map_map] at h
  exact coe_nodup.1 h

theorem Base.whole (hb : Base max s) (hc : Contract max s) : Whole s := by
  intro e he
  have hcalled : (e.1, true) ∈ s.called := by
    rw [hb.called]
    exact mem_map_of_mem he
  have h := inj_on_of_nodup_map hb.processed_nodup he (hc.success e.1 hcalled) rfl
  rw [h]

end

end Proteus.IoUring
