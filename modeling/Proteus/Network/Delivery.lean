import Proteus.Network.InFlight

/-!
# What remote writes deliver

`delivered_iff`: everything is published as it was written if and only if no `write_to` of one byte is
made, and for the memory it was written to if and only if no `write_to` is made at all.
-/

namespace Proteus.Infiniband

open List Option

/-! ## Delivery -/

/-- Deliveries and completions alone bring everything that has been flushed to an end. -/
def State.Drains (s : State) : Prop :=
  ∃ as s', (∀ a ∈ as, a = .deliver ∨ a = .handle) ∧ exec step s as = some s' ∧ s'.issued = s.issued ∧
    s'.inFlight = s.unflushed

/-- What the writes are for: `exp` is what a call is to be published as. -/
structure Delivered (exp : Entry → Option Pub) (s : State) : Prop where
  /-- What has been handled has been published, in order and once. -/
  published : ∃ handled, s.issued = handled ++ s.inFlight ∧ s.published = handled.filterMap exp
  /-- The receiver takes the buffers that the sender has used. -/
  taken : s.taken <+: s.consumed
  /-- What has been flushed can be handled. -/
  drains : s.Drains
  /-- The sender waits for a buffer only when one is on its way. -/
  fed : s.pend_buffers = [] → 0 < s.underWay

variable {cq : List Completion}

section

variable {s : State}

theorem Inv.handle_isSome (inv : Inv s) {c : Completion} (hcq : s.cq = c :: cq) :
    ∃ s', Infiniband.step s .handle = some s' ∧ s'.cq = cq ∧ s'.wire = s.wire ∧ s'.issued = s.issued ∧
      s'.unflushed = s.unflushed := by
  simp only [Infiniband.step, hcq]
  cases c with
  | request => exact ⟨_, rfl, rfl, rfl, rfl, rfl⟩
  | notify imm count batch =>
    obtain ⟨rest, -, heq⟩ := inv.handle_notify hcq
    exact ⟨_, heq, rfl, rfl, rfl, rfl⟩

theorem deliver_isSome {wr : Wr} {w : List Wr} (hw : s.wire = wr :: w) :
    ∃ s', step s .deliver = some s' ∧ s'.cq.length ≤ s.cq.length + 1 ∧ s'.wire = w ∧ s'.issued = s.issued ∧
      s'.unflushed = s.unflushed := by
  simp only [step, hw]
  refine ⟨_, rfl, ?_⟩
  cases wr <;> simp [State.deliver]

theorem State.Drains.cons {s₁ : State} {a : Move} (ha : a = .deliver ∨ a = .handle)
    (hstep : step s a = some s₁) (hissued₁ : s₁.issued = s.issued)
    (hunflushed₁ : s₁.unflushed = s.unflushed) (h : s₁.Drains) : s.Drains := by
  obtain ⟨as, s', has, hexec, hissued, hinFlight⟩ := h
  refine ⟨a :: as, s', forall_mem_cons.2 ⟨ha, has⟩, ?_, hissued.trans hissued₁,
    hinFlight.trans hunflushed₁⟩
  rw [exec_cons, hstep, bind_some, hexec]

/-- Every delivery makes at most one completion, so the channel and the queue run empty. -/
theorem Inv.drains (inv : Inv s) : s.Drains := by
  induction hn : 2 * s.wire.length + s.cq.length using Nat.strong_induction_on generalizing s with
  | _ n ih =>
    cases hcq : s.cq with
    | cons c cq =>
      obtain ⟨s₁, hstep, hcq₁, hwire₁, hissued₁, hunflushed₁⟩ := inv.handle_isSome hcq
      have hlt : 2 * s₁.wire.length + s₁.cq.length < n := by
        rw [hcq₁, hwire₁, ← hn, hcq, length_cons]
        omega
      exact .cons (.inr rfl) hstep hissued₁ hunflushed₁ (ih _ hlt (inv.step (a := .handle) nofun hstep) rfl)
    | nil =>
      cases hwire : s.wire with
      | cons wr w =>
        obtain ⟨s₁, hstep, hcq₁, hwire₁, hissued₁, hunflushed₁⟩ := deliver_isSome hwire
        have hlt : 2 * s₁.wire.length + s₁.cq.length < n := by
          rw [hwire₁, ← hn, hwire, length_cons]
          omega
        exact .cons (.inl rfl) hstep hissued₁ hunflushed₁ (ih _ hlt (inv.step (a := .deliver) nofun hstep) rfl)
      | nil =>
        refine ⟨[], s, nofun, rfl, rfl, ?_⟩
        rw [State.inFlight, State.batches, hcq, hwire]
        rfl

theorem Inv.delivered (inv : Inv s) : Delivered Entry.pub s where
  published := inv.order
  taken := ⟨_, inv.traffic.used⟩
  drains := inv.drains
  fed := by
    intro hnil
    by_contra hzero
    obtain ⟨-, hle⟩ := inv.supply.request.fed (by omega)
    rw [hnil] at hle
    exact absurd hle (by decide)

/-- Only calls that meet `ok` are made. -/
def Only (ok : Call → Prop) (_ : State) : Move → Prop
  | .call c => ok c
  | _ => True

variable {ok : Call → Prop} {mem : ℕ → ℕ → Packet}

theorem inv_of_reach (hok : ∀ dest, ¬ok (.write_to 1 dest)) (h : Reach step (Only ok) (init mem) s) :
    Inv s := by
  refine h.invariant (inv_init mem) fun s a s' inv ha hs => inv.step (fun c hc => ?_) hs
  subst hc
  cases c with
  | write_to bytes dest =>
    refine decide_eq_false fun hone => ?_
    subst hone
    exact hok dest ha
  | _ => rfl

/-- Only a call adds to what is issued. -/
theorem mem_issued_step {a : Move} {s' : State} (h : step s a = some s') {e : Entry} (he : e ∈ s'.issued) :
    e ∈ s.issued ∨ a = .call e.call ∧ 0 < e.call.bytes ∧ e.call.bytes < 2 ^ 32 := by
  cases a with
  | call c =>
    simp only [step] at h
    split_ifs at h with hguard
    have hissued : ∃ buff, s'.issued = s.issued ++ [⟨c, buff⟩] := by
      cases c with
      | write_to bytes dest =>
        cases h
        exact ⟨_, rfl⟩
      | _ =>
        obtain ⟨⟨b, s₁⟩, hget, rfl⟩ := map_eq_some_iff.1 h
        obtain ⟨rest, asked, requests, -, rfl, -⟩ := get_buffer_eq hget
        exact ⟨_, rfl⟩
    obtain ⟨buff, hissued⟩ := hissued
    rw [hissued] at he
    obtain he | he := mem_append.1 he
    · exact .inl he
    · rw [mem_singleton.1 he]
      exact .inr ⟨rfl, hguard.2⟩
  | flush =>
    simp only [step] at h
    split_ifs at h
    obtain ⟨⟨b, s₁⟩, hget, rfl⟩ := map_eq_some_iff.1 h
    obtain ⟨rest, asked, requests, -, rfl, -⟩ := get_buffer_eq hget
    exact .inl he
  | deliver =>
    simp only [step] at h
    split at h <;> cases h
    exact .inl (by rename_i wr _ _; cases wr <;> exact he)
  | handle =>
    simp only [step] at h
    split at h
    · cases h
    · rename_i c _ _
      cases c <;> simp only [State.handle] at h
      repeat' split at h
      all_goals cases h
      all_goals exact .inl he
  | _ =>
    simp only [step] at h
    repeat' split at h
    all_goals cases h
    all_goals exact .inl he

theorem call_of_mem_issued (h : Reach step (Only ok) (init mem) s) :
    ∀ e ∈ s.issued, ok e.call ∧ 0 < e.call.bytes ∧ e.call.bytes < 2 ^ 32 := by
  refine h.invariant
    (I := fun s => ∀ e ∈ s.issued, ok e.call ∧ 0 < e.call.bytes ∧ e.call.bytes < 2 ^ 32) nofun ?_
  intro s a s' ih ha hstep e he
  obtain he | ⟨rfl, hbytes⟩ := mem_issued_step hstep he
  · exact ih e he
  · exact ⟨ha, hbytes⟩

theorem Delivered.addressed (h : Delivered Entry.pub s) (hto : ∀ e ∈ s.issued, e.call.takes = true) :
    Delivered Entry.addressed s := by
  obtain ⟨handled, hissued, hpub⟩ := h.published
  refine { h with published := ⟨handled, hissued, hpub.trans (filterMap_congr fun e he => ?_)⟩ }
  have := hto e (hissued ▸ mem_append_left _ he)
  obtain ⟨c, buff⟩ := e
  cases c with
  | write_to => cases this
  | _ => rfl

end

/-! ## The packet of one byte -/

variable (mem : ℕ → ℕ → Packet)

section

variable {b₀ b₁ bytes : ℕ} {bs : List ℕ}

/-- The sender has its first blocks. -/
def ready (bs : List ℕ) : State :=
  { init mem with wire := [], pend_buffers := bs, send_buffers := bs.map (⟨·, true⟩), allocated := bs }

theorem exec_ready (hlen : bs.length = buffnum) (hnodup : bs.Nodup) (mem : ℕ → ℕ → Packet) :
    exec step (init mem) [.deliver, .handle, .allocate bs, .sendRefill 0, .refill] = some (ready mem bs) := by
  have hallocate : step { init mem with wire := [], tasks := 1 } (.allocate bs) = some { ready mem bs with
      pend_buffers := [], refills := [bs] } := if_pos ⟨hlen, hnodup, fun _ _ => not_mem_nil⟩
  show (step { init mem with wire := [], tasks := 1 } (.allocate bs)).bind _ = _
  rw [hallocate]
  rfl

/-- It makes a `write_to`, which arrives. -/
def arrived (b₀ : ℕ) (bs : List ℕ) (bytes dest : ℕ) : State :=
  { ready mem (b₀ :: bs) with
    pend_buffers := bs
    mem := Function.update mem b₀ fun i => [Call.packet (.write_to bytes dest)][i]?.getD (mem b₀ i)
    cq := [.notify 0 1 ⟨[⟨.write_to bytes dest, none⟩], b₀⟩]
    issued := [⟨.write_to bytes dest, none⟩]
    consumed := [b₀] }

theorem exec_arrived (hlen : (b₀ :: bs).length = buffnum) (hpos : 0 < bytes) (hlt : bytes < 2 ^ 32) (dest : ℕ)
    (mem : ℕ → ℕ → Packet) :
    exec step (ready mem (b₀ :: bs)) [.call (.write_to bytes dest), .flush, .deliver, .deliver] =
      some (arrived mem b₀ bs bytes dest) := by
  have hcall : step (ready mem (b₀ :: bs)) (.call (.write_to bytes dest)) =
      some ((ready mem (b₀ :: bs)).issue (.write_to bytes dest) none (.remote dest)) :=
    if_pos ⟨rfl, hpos, hlt⟩
  have hpend : ((ready mem (b₀ :: bs)).issue (.write_to bytes dest) none (.remote dest)).pend_buffers =
      b₀ :: bs := rfl
  have hne : (b₀ :: bs).length ≠ lowWater := by
    rw [hlen]
    decide
  have hflush : step ((ready mem (b₀ :: bs)).issue (.write_to bytes dest) none (.remote dest)) .flush = _ :=
    congrArg (Option.map fun r : ℕ × State => r.2.notify r.1) (get_buffer_of_ne hpend hne)
  rw [exec_cons, hcall, bind_some, exec_cons, hflush]
  rfl

/-- What the receiver makes of the notification. -/
theorem handle_writeTo {s : State} {batch : Batch} {rest : List Slot}
    (hcq : s.cq = .notify 0 1 batch :: cq)
    (hbufs : s.send_buffers = ⟨b₀, true⟩ :: ⟨b₁, true⟩ :: rest) {dest : ℕ}
    (hread : s.mem b₀ 0 = Call.packet (.write_to bytes dest)) (hpos : 0 < bytes) (hlt : bytes < 2 ^ 32) :
    step s .handle = some { s with
      cq := cq
      send_buffers := if bytes = 1 then rest else ⟨b₁, true⟩ :: rest
      published := s.published ++ if bytes = 1 then [] else [⟨none, bytes, 0⟩]
      taken := s.taken ++ (if bytes = 1 then [b₀] else []) ++ [if bytes = 1 then b₁ else b₀] } := by
  have hget : s.send_buffers[0]? = some ⟨b₀, true⟩ := by rw [hbufs]; rfl
  have hset : s.send_buffers.set 0 ⟨b₀, false⟩ = ⟨b₀, false⟩ :: ⟨b₁, true⟩ :: rest := by rw [hbufs]; rfl
  have hrange : (range 1).map (s.mem b₀) = [Call.packet (.write_to bytes dest)] :=
    congrArg (· :: []) hread
  simp only [step, hcq]
  by_cases hone : bytes = 1
  · simp only [if_pos hone]
    refine State.handle_eq { s with cq := cq } 0 1 _ ⟨b₁, true⟩ _ hget ?_
    rw [hrange, hset, hone]
    rfl
  · simp only [if_neg hone]
    refine State.handle_eq { s with cq := cq } 0 1 _ ⟨b₀, false⟩ _ hget ?_
    rw [hrange, hset]
    have hvalid : ∀ e ∈ [(⟨.write_to bytes dest, none⟩ : Entry)], e.Valid :=
      forall_mem_singleton.2 ⟨hpos, hlt, rfl, decide_eq_false hone⟩
    exact receive_packets hvalid _

theorem exec_writeTo (hlen : (b₀ :: b₁ :: bs).length = buffnum) (hnodup : (b₀ :: b₁ :: bs).Nodup)
    (hpos : 0 < bytes) (hlt : bytes < 2 ^ 32) (dest : ℕ) (mem : ℕ → ℕ → Packet) :
    ∃ as s, (∀ c, .call c ∈ as → c = .write_to bytes dest) ∧ exec step (init mem) as = some s ∧
      s.issued = [⟨.write_to bytes dest, none⟩] ∧ s.inFlight = [] ∧ s.consumed = [b₀] ∧
      s.published = (if bytes = 1 then [] else [⟨none, bytes, 0⟩]) ∧
      s.taken = (if bytes = 1 then [b₀] else []) ++ [if bytes = 1 then b₁ else b₀] := by
  have hrun : exec step (init mem) ([.deliver, .handle, .allocate (b₀ :: b₁ :: bs), .sendRefill 0, .refill] ++
      ([.call (.write_to bytes dest), .flush, .deliver, .deliver] ++ [.handle])) =
        step (arrived mem b₀ (b₁ :: bs) bytes dest) .handle := by
    rw [exec_append, exec_ready hlen hnodup, bind_some, exec_snoc, exec_arrived hlen hpos hlt,
      bind_some]
  have hread : (arrived mem b₀ (b₁ :: bs) bytes dest).mem b₀ 0 = Call.packet (.write_to bytes dest) := by
    show Function.update mem b₀ _ b₀ 0 = _
    rw [Function.update_self]
    rfl
  refine ⟨_, _, fun c hc => ?_, hrun.trans (handle_writeTo rfl rfl hread hpos hlt), rfl, rfl, rfl, rfl, rfl⟩
  simpa using hc

theorem first_blocks : ∃ bs, List.range buffnum = 0 :: 1 :: bs := by
  rw [range_eq_range']
  exact ⟨range' 2 (buffnum - 2), rfl⟩

/-- The same for any call that may be made. -/
theorem reach_writeTo (ok : Call → Prop) (hpos : 0 < bytes) (hlt : bytes < 2 ^ 32) (dest : ℕ)
    (hok : ok (.write_to bytes dest)) (mem : ℕ → ℕ → Packet) :
    ∃ s, Reach step (Only ok) (init mem) s ∧ s.issued = [⟨.write_to bytes dest, none⟩] ∧ s.inFlight = [] ∧
      s.consumed = [0] ∧ s.published = (if bytes = 1 then [] else [⟨none, bytes, 0⟩]) ∧
      s.taken = (if bytes = 1 then [0] else []) ++ [if bytes = 1 then 1 else 0] := by
  obtain ⟨bs, hbs⟩ := first_blocks
  have hlen : (0 :: 1 :: bs).length = buffnum := by rw [← hbs, length_range]
  have hnodup : (0 :: 1 :: bs).Nodup := hbs ▸ nodup_range
  obtain ⟨as, s, hcalls, hexec, h⟩ := exec_writeTo hlen hnodup hpos hlt dest mem
  refine ⟨s, reach_of_exec_of_forall (fun a ha s => ?_) .init hexec, h⟩
  cases a with
  | call c =>
    rwa [hcalls c ha]
  | _ => trivial

theorem Delivered.published_eq {exp : Entry → Option Pub} {s : State} (h : Delivered exp s)
    (hnil : s.inFlight = []) : s.published = s.issued.filterMap exp := by
  obtain ⟨handled, hissued, hpub⟩ := h.published
  rw [hissued, hpub, hnil, append_nil]

/-- **Every run publishes what was written, in order, from the buffers it was written to**, if and only if
no `write_to` of one byte is made; and, if it is to be published with the memory it was written to, if
and only if no `write_to` is made. -/
theorem delivered_iff (ok : Call → Prop) :
    ((∀ mem s, Reach step (Only ok) (init mem) s → Delivered Entry.pub s) ↔ ∀ dest, ¬ok (.write_to 1 dest)) ∧
      ((∀ mem s, Reach step (Only ok) (init mem) s → Delivered Entry.addressed s) ↔
        ∀ bytes dest, 0 < bytes → bytes < 2 ^ 32 → ¬ok (.write_to bytes dest)) := by
  refine ⟨⟨fun h dest hok => ?_, fun hok mem s hs => (inv_of_reach hok hs).delivered⟩,
    fun h bytes dest hpos hlt hok => ?_, fun hok mem s hs => ?_⟩
  · obtain ⟨s, hs, hissued, hinFlight, -, hpub, -⟩ :=
      reach_writeTo ok Nat.one_pos (by decide) dest hok fun _ _ => ⟨0, 0⟩
    have := (h _ s hs).published_eq hinFlight
    rw [hpub, hissued, if_pos rfl] at this
    cases this
  · obtain ⟨s, hs, hissued, hinFlight, -, hpub, -⟩ := reach_writeTo ok hpos hlt dest hok fun _ _ => ⟨0, 0⟩
    have := (h _ s hs).published_eq hinFlight
    rw [hpub, hissued] at this
    split at this <;> cases this
  · have inv := inv_of_reach (fun dest => hok 1 dest Nat.one_pos (by decide)) hs
    refine inv.delivered.addressed fun e he => ?_
    obtain ⟨hcall, hpos, hlt⟩ := call_of_mem_issued hs e he
    obtain ⟨c, buff⟩ := e
    cases c with
    | write_to bytes dest => exact absurd hcall (hok bytes dest hpos hlt)
    | _ => rfl

/-- A one-byte `write_to` is not published, and the receiver takes a buffer that the sender has not used. -/
theorem one_byte_lost :
    ∃ s, Reach step Free (init fun _ _ => ⟨0, 0⟩) s ∧ s.issued = [⟨.write_to 1 0, none⟩] ∧ s.inFlight = [] ∧
      s.published = [] ∧ s.consumed = [0] ∧ s.taken = [0, 1] := by
  obtain ⟨s, hs, hissued, hinFlight, hconsumed, hpub, htaken⟩ :=
    reach_writeTo (fun _ => True) Nat.one_pos (by decide) 0 trivial fun _ _ => ⟨0, 0⟩
  exact ⟨s, hs.mono fun _ _ _ => trivial, hissued, hinFlight, hpub, hconsumed, htaken⟩

end

end Proteus.Infiniband
