import Proteus.Network.Infiniband

/-!
# What is under way between two servers

Sender and receiver each have a list of the same buffers, and only their order relates the two. They
agree because

* both are parts of one sequence of blocks, of which at most one request is under way (`Supply`);
* what the receiver has taken, followed by the buffers of the batches under way, is what the sender has
  used (`Traffic.used`);
* the memory of the receiver holds the notification of every completion, since a later write goes to
  another buffer (`Inv.note_ne`).

`Inv.step` keeps this along every move whose call can be told from its packet.
-/

namespace Proteus.Infiniband

open Function List State Completion

/-! ## Both lists of buffers -/

def Wr.isRequest : Wr → Bool
  | .request => true
  | _ => false

def Completion.isRequest : Completion → Bool
  | .request => true
  | _ => false

/-- The number of requests under way, from the task that sends one to the blocks it is answered with. -/
def State.underWay (s : State) : ℕ :=
  s.requests + s.wire.countP Wr.isRequest + s.cq.countP Completion.isRequest + s.tasks +
    s.refills.length + s.back.length

/-- Buffers are requested once, before they run out. -/
structure Asked (underWay : ℕ) (flag : Bool) (pend : List ℕ) : Prop where
  one : underWay ≤ 1
  asked : underWay = 1 → flag = true ∨ pend = []
  fed : underWay = 0 → flag = false ∧ lowWater ≤ pend.length

variable {n : ℕ}

theorem Asked.congr {n' : ℕ} {flag : Bool} {pend : List ℕ} (h : Asked n flag pend) (hn : n' = n) :
    Asked n' flag pend := hn ▸ h

/-- The lists of the two servers are parts of one sequence. -/
structure Supply (s : State) : Prop where
  request : Asked s.underWay s.has_requested_buffers s.pend_buffers
  full : ∀ bs ∈ s.back ++ s.refills, bs.length = buffnum
  receiver : s.taken ++ s.send_buffers.map Slot.addr = s.allocated
  sender : s.consumed ++ (s.pend_buffers ++ (s.back ++ s.refills).flatten) = s.allocated
  owned : ∀ b ∈ s.send_buffers, b.owned = true
  nodup : (s.send_buffers.map Slot.addr).Nodup

variable {s s' : State} {b : ℕ} {wr : Wr}

section

/-- What `get_buffer` changes. -/
theorem get_buffer_eq (h : s.get_buffer = some (b, s')) :
    ∃ rest asked requests, s.pend_buffers = b :: rest ∧
      s' = { s with
        pend_buffers := rest
        has_requested_buffers := asked
        requests := requests
        consumed := s.consumed ++ [b] } ∧
      (requests = s.requests ∧ asked = s.has_requested_buffers ∧
          ¬(s.pend_buffers.length = lowWater ∧ s.has_requested_buffers = false) ∨
        requests = s.requests + 1 ∧ s.has_requested_buffers = false ∧ asked = true) := by
  unfold get_buffer at h
  split at h <;> cases h
  refine ⟨_, _, _, ‹_›, rfl, ?_⟩
  by_cases hask : s.pend_buffers.length = lowWater ∧ s.has_requested_buffers = false
  · exact .inr ⟨if_pos hask, hask.2, by rw [decide_eq_true hask, Bool.or_true]⟩
  · exact .inl ⟨if_neg hask, by rw [decide_eq_false hask, Bool.or_false], hask⟩

theorem get_buffer_of_ne {rest : List ℕ} (hpend : s.pend_buffers = b :: rest)
    (hne : s.pend_buffers.length ≠ lowWater) :
    s.get_buffer = some (b, { s with pend_buffers := rest, consumed := s.consumed ++ [b] }) := by
  have hask : ¬(s.pend_buffers.length = lowWater ∧ s.has_requested_buffers = false) := fun h => hne h.1
  unfold get_buffer
  dsimp only
  rw [if_neg hask, decide_eq_false hask, Bool.or_false, hpend]

section

variable (inv : Supply s)
include inv

/-- A buffer that is taken is the next one of the sequence. -/
theorem Supply.get_buffer (h : s.get_buffer = some (b, s')) : Supply s' := by
  obtain ⟨rest, asked, requests, hpend, rfl, hreq⟩ := get_buffer_eq h
  refine { inv with request := ?_, sender := ?_ }
  · obtain ⟨hone, hasked, hfed⟩ := inv.request
    have hflag : s.underWay = 1 → s.has_requested_buffers = true := fun h =>
      (hasked h).resolve_right (by simp [hpend])
    obtain ⟨rfl, rfl, hnot⟩ | ⟨rfl, hfalse, rfl⟩ := hreq
    · refine ⟨hone, fun h => .inl (hflag h), fun h => ?_⟩
      obtain ⟨hfalse, hle⟩ := hfed h
      have hne : s.pend_buffers.length ≠ lowWater := fun heq => hnot ⟨heq, hfalse⟩
      rw [hpend, length_cons] at hle hne
      exact ⟨hfalse, by dsimp only; omega⟩
    · -- The flag was not set, so nothing was under way.
      have hzero : s.underWay ≠ 1 := fun h => by cases hfalse.symm.trans (hflag h)
      refine Asked.congr (n := s.underWay + 1) ⟨by omega, fun _ => .inl rfl, nofun⟩ ?_
      simp only [underWay]
      omega
  · simp [← inv.sender, hpend]

theorem Supply.issue (c : Call) (buff : Option ℕ) (hwr : wr.isRequest = false) :
    Supply (s.issue c buff wr) := by
  refine { inv with request := inv.request.congr ?_ }
  simp [State.underWay, State.issue, hwr]

theorem Supply.notify : Supply (s.notify b) := by
  refine { inv with request := inv.request.congr ?_ }
  simp [State.underWay, State.notify, Wr.isRequest]

theorem Supply.sendRequest (hn : s.requests = n + 1) :
    Supply { s with requests := n, wire := s.wire ++ [.request] } := by
  refine { inv with request := inv.request.congr ?_ }
  simp only [underWay, hn, countP_append, countP_cons, Wr.isRequest, countP_nil, if_true]
  omega

theorem Supply.deliver {w : List Wr} (hw : s.wire = wr :: w) :
    Supply ({ s with wire := w }.deliver wr) := by
  have hway : ({ s with wire := w }.deliver wr).underWay = s.underWay := by
    cases wr <;>
      simp [State.underWay, State.deliver, hw, countP_append, countP_cons, Wr.isRequest, isRequest]
    omega
  cases wr <;> exact { inv with request := hway ▸ inv.request }

theorem Supply.handleRequest {cq : List Completion} (hcq : s.cq = .request :: cq) :
    Supply { s with cq := cq, tasks := s.tasks + 1 } := by
  refine { inv with request := inv.request.congr ?_ }
  simp only [underWay, hcq, countP_cons, isRequest, if_true]
  omega

end

variable {bs : List ℕ}

theorem Supply.allocate (inv : Supply s) (hn : s.tasks = n + 1)
    (hlen : bs.length = buffnum) (hbs : bs.Nodup) (hfresh : ∀ b ∈ bs, b ∉ s.send_buffers.map Slot.addr) :
    Supply { s with
      tasks := n
      send_buffers := s.send_buffers ++ bs.map fun b => ⟨b, true⟩
      refills := s.refills ++ [bs]
      allocated := s.allocated ++ bs } := by
  have haddr : (bs.map fun b => (⟨b, true⟩ : Slot)).map Slot.addr = bs := by
    rw [map_map]
    exact map_id bs
  refine ⟨inv.request.congr ?_, ?_, ?_, ?_, ?_, ?_⟩
  · simp only [underWay, hn, length_append, length_singleton]
    omega
  · rw [← append_assoc]
    exact forall_mem_append.2 ⟨inv.full, forall_mem_singleton.2 hlen⟩
  · rw [map_append, haddr, ← append_assoc, inv.receiver]
  · rw [← inv.sender]
    simp
  · exact forall_mem_append.2 ⟨inv.owned, forall_mem_map.2 fun _ _ => rfl⟩
  · rw [map_append, haddr]
    exact nodup_append.2 ⟨inv.nodup, hbs, fun a ha b hb hab => hfresh b hb (hab ▸ ha)⟩

/-- Only one answer is under way, so answers cannot overtake each other. -/
theorem Supply.sendRefill (inv : Supply s) {k : ℕ} (hk : s.refills[k]? = some bs) :
    Supply { s with refills := s.refills.eraseIdx k, back := s.back ++ [bs] } := by
  have hone := inv.request.one
  obtain ⟨hlt, -⟩ := List.getElem?_eq_some_iff.1 hk
  have hlen : s.refills.length = 1 ∧ s.back.length = 0 := by
    simp only [underWay] at hone
    omega
  obtain ⟨bs', hbs'⟩ := length_eq_one_iff.1 hlen.1
  have hback := length_eq_zero_iff.1 hlen.2
  obtain rfl : k = 0 := by omega
  obtain rfl : bs' = bs := by simpa [hbs'] using hk
  have hmem : bs' ∈ s.back ++ s.refills := by rw [hbs', hback]; exact mem_singleton_self bs'
  refine { inv with
    request := inv.request.congr (by simp [underWay, hbs', hback])
    full := ?_
    sender := ?_ }
  · rw [hbs', hback]
    exact forall_mem_singleton.2 (inv.full bs' hmem)
  · rw [← inv.sender, hbs', hback]
    rfl

theorem Supply.refill (inv : Supply s) {back : List (List ℕ)} (hb : s.back = bs :: back) :
    Supply { s with back := back, pend_buffers := s.pend_buffers ++ bs, has_requested_buffers := false } := by
  have hone := inv.request.one
  have hfull := inv.full bs (mem_append_left _ (hb ▸ mem_cons_self))
  refine { inv with
    request := ?_
    full := fun bs' hbs' => ?_
    sender := ?_ }
  · refine Asked.congr (n := 0) ⟨Nat.zero_le _, nofun, fun _ => ⟨rfl, ?_⟩⟩ ?_
    · rw [length_append, hfull]
      have : lowWater ≤ buffnum := Nat.div_le_self _ _
      omega
    · simp only [underWay, hb, length_cons] at hone ⊢
      omega
  · refine inv.full bs' ?_
    rw [hb]
    exact mem_cons_of_mem _ hbs'
  · rw [← inv.sender, hb]
    simp

end

/-! ## What is under way -/

/-- The buffers of the calls. -/
def buffers (es : List Entry) : List ℕ := es.filterMap Entry.buff

def packets (es : List Entry) : List Packet := es.map fun e => e.call.packet

theorem buffers_append (es es' : List Entry) : buffers (es ++ es') = buffers es ++ buffers es' :=
  filterMap_append

def Batch.buffers (b : Batch) : List ℕ := Infiniband.buffers b.entries ++ [b.note]

def Wr.batch? : Wr → Option Batch
  | .notify _ _ _ batch => some batch
  | _ => none

def Completion.batch? : Completion → Option Batch
  | .notify _ _ batch => some batch
  | _ => none

/-- The batches on the wire. -/
def onWire (w : List Wr) : List Batch := w.filterMap Wr.batch?

theorem onWire_append (w w' : List Wr) : onWire (w ++ w') = onWire w ++ onWire w' := filterMap_append

/-- The batches that the receiver has not handled. -/
def State.batches (s : State) : List Batch := s.cq.filterMap Completion.batch? ++ onWire s.wire

def State.inFlight (s : State) : List Entry := s.batches.flatMap Batch.entries ++ s.unflushed

/-- A notification says what its batch is. -/
def Wr.Right : Wr → Prop
  | .notify b ps imm batch =>
    b = batch.note ∧ ps = packets batch.entries ∧ imm = (buffers batch.entries).length ∧
      ∀ e ∈ batch.entries, e.Valid
  | _ => True

variable (mem : ℕ → ℕ → Packet)

/-- And so does its completion, with what is in the memory of the receiver. -/
def Completion.Right : Completion → Prop
  | .notify imm count batch =>
    imm = (buffers batch.entries).length ∧ (List.range count).map (mem batch.note) = packets batch.entries ∧
      ∀ e ∈ batch.entries, e.Valid
  | .request => True

/-- A write goes to a buffer of a batch that comes after it, or of `bs`. -/
def Placed (bs : List ℕ) : List Wr → Prop
  | [] => True
  | wr :: w => (∀ b content, wr = .data b content → b ∈ (onWire w).flatMap Batch.buffers ++ bs) ∧ Placed bs w

structure Traffic (s : State) : Prop where
  used : s.taken ++ (s.batches.flatMap Batch.buffers ++ buffers s.unflushed) = s.consumed
  cnts : s.cnts = packets s.unflushed
  actual_writes : s.actual_writes = (buffers s.unflushed).length
  valid : ∀ e ∈ s.unflushed, e.Valid
  wire : ∀ wr ∈ s.wire, wr.Right
  placed : Placed (buffers s.unflushed) s.wire
  cq : ∀ c ∈ s.cq, c.Right s.mem

structure Inv (s : State) : Prop where
  supply : Supply s
  traffic : Traffic s
  order : ∃ handled, s.issued = handled ++ s.inFlight ∧ s.published = handled.filterMap Entry.pub

section

variable {bs bs' : List ℕ} {w : List Wr} {wr : Wr} {pend : List ℕ}

/-- One more work request. -/
theorem Placed.snoc (h : Placed bs w) (hsub : bs ⊆ (onWire [wr]).flatMap Batch.buffers ++ bs')
    (hwr : ∀ b content, wr = .data b content → b ∈ bs') : Placed bs' (w ++ [wr]) := by
  induction w with
  | nil => exact ⟨fun b content heq => mem_append_right _ (hwr b content heq), trivial⟩
  | cons x w ih =>
    refine ⟨fun b content heq => ?_, ih h.2⟩
    have hb := h.1 b content heq
    show b ∈ (onWire (w ++ [wr])).flatMap Batch.buffers ++ bs'
    rw [onWire_append, flatMap_append, append_assoc]
    obtain hb | hb := mem_append.1 hb
    · exact mem_append_left _ hb
    · exact mem_append_right _ (hsub hb)

/-- The buffers that are under way come next in the list of the receiver. -/
theorem Inv.in_order (inv : Inv s) : ∃ rest, s.send_buffers.map Slot.addr =
      s.batches.flatMap Batch.buffers ++ buffers s.unflushed ++ rest := by
  have hreceiver := inv.supply.receiver
  rw [← inv.supply.sender, ← inv.traffic.used, append_assoc s.taken] at hreceiver
  exact ⟨_, append_cancel_left hreceiver⟩

theorem Inv.nodup (inv : Inv s) : (s.batches.flatMap Batch.buffers ++ buffers s.unflushed).Nodup := by
  obtain ⟨rest, hrest⟩ := inv.in_order
  have h := inv.supply.nodup
  rw [hrest] at h
  exact h.of_append_left

/-- **A call**: its packet, its buffer and its work request, with `buff` taken from the pending ones. -/
theorem Inv.issue (inv : Inv s) {c : Call} {buff : Option ℕ} (hvalid : Entry.Valid ⟨c, buff⟩)
    (hwr : wr.batch? = none) (hdata : ∀ b content, wr = .data b content → buff = some b)
    {asked : Bool} {req : ℕ} (hs : s' = { s with
      pend_buffers := pend
      has_requested_buffers := asked
      requests := req
      consumed := s.consumed ++ buff.toList }) (hsupply : Supply (s'.issue c buff wr)) :
    Inv (s'.issue c buff wr) := by
  subst hs
  have t := inv.traffic
  have honWire : onWire (s.wire ++ [wr]) = onWire s.wire := by
    rw [onWire_append, onWire, onWire, filterMap_cons_none hwr, filterMap_nil, append_nil]
  have hbuffers : buffers (s.unflushed ++ [⟨c, buff⟩]) = buffers s.unflushed ++ buff.toList := by
    rw [buffers_append]
    cases buff <;> rfl
  have hright : wr.Right := by
    cases wr with
    | notify => cases hwr
    | _ => trivial
  refine ⟨hsupply, ?_, ?_⟩
  · constructor
    case used =>
      show s.taken ++ ((s.cq.filterMap batch? ++ onWire (s.wire ++ [wr])).flatMap Batch.buffers ++
        buffers (s.unflushed ++ [⟨c, buff⟩])) = s.consumed ++ buff.toList
      rw [honWire, hbuffers, ← t.used, batches]
      simp only [append_assoc]
    case cnts =>
      show s.cnts ++ [c.packet] = packets (s.unflushed ++ [⟨c, buff⟩])
      rw [t.cnts, packets, packets, map_append]
      rfl
    case actual_writes =>
      show s.actual_writes + buff.toList.length = (buffers (s.unflushed ++ [⟨c, buff⟩])).length
      rw [hbuffers, length_append, t.actual_writes]
    case valid => exact forall_mem_append.2 ⟨t.valid, forall_mem_singleton.2 hvalid⟩
    case wire => exact forall_mem_append.2 ⟨t.wire, forall_mem_singleton.2 hright⟩
    case placed =>
      refine t.placed.snoc ?_ fun b content heq => ?_
      · show buffers s.unflushed ⊆ _ ++ buffers (s.unflushed ++ [⟨c, buff⟩])
        rw [hbuffers]
        exact fun b hb => mem_append_right _ (mem_append_left _ hb)
      · show b ∈ buffers (s.unflushed ++ [⟨c, buff⟩])
        rw [hbuffers, hdata b content heq]
        exact mem_append_right _ (mem_singleton_self b)
    case cq => exact t.cq
  · obtain ⟨handled, hissued, hpub⟩ := inv.order
    refine ⟨handled, ?_, hpub⟩
    show s.issued ++ [_] = handled ++ ((s.cq.filterMap batch? ++ onWire (s.wire ++ [wr])).flatMap
      Batch.entries ++ (s.unflushed ++ [_]))
    rw [honWire, hissued, inFlight, batches]
    simp only [append_assoc]

/-- **A flush** turns the packets into a notification. -/
theorem Inv.notify (inv : Inv s) {asked : Bool} {req : ℕ} (hs : s' = { s with
      pend_buffers := pend
      has_requested_buffers := asked
      requests := req
      consumed := s.consumed ++ [b] }) (hsupply : Supply (s'.notify b)) : Inv (s'.notify b) := by
  subst hs
  have t := inv.traffic
  have hbatches : (s.notify b).batches = s.batches ++ [⟨s.unflushed, b⟩] := by
    show s.cq.filterMap batch? ++ onWire (s.wire ++ [_]) = _
    rw [onWire_append, ← append_assoc]
    rfl
  refine ⟨hsupply, ?_, ?_⟩
  · constructor
    case used =>
      show s.taken ++ ((s.notify b).batches.flatMap Batch.buffers ++ []) = s.consumed ++ [b]
      rw [hbatches, ← t.used, flatMap_append, flatMap_singleton, Batch.buffers, append_nil]
      simp only [append_assoc]
    case cnts => rfl
    case actual_writes => rfl
    case valid => nofun
    case wire =>
      exact forall_mem_append.2
        ⟨t.wire, forall_mem_singleton.2 ⟨rfl, t.cnts, t.actual_writes, t.valid⟩⟩
    case placed =>
      refine t.placed.snoc (fun b' hb' => mem_append_left _ ?_) nofun
      show b' ∈ Batch.buffers ⟨s.unflushed, b⟩ ++ []
      rw [append_nil]
      exact mem_append_left _ hb'
    case cq => exact t.cq
  · obtain ⟨handled, hissued, hpub⟩ := inv.order
    refine ⟨handled, ?_, hpub⟩
    show s.issued = handled ++ ((s.notify b).batches.flatMap Batch.entries ++ [])
    rw [hbatches, hissued, inFlight, flatMap_append, flatMap_singleton, append_nil]

variable {c : Completion} {batch : Batch}

/-- What arrives is not written over a notification that has not been handled. -/
theorem Inv.note_ne (inv : Inv s) (hc : c ∈ s.cq) (hbatch : c.batch? = some batch)
    (hb : b ∈ (onWire s.wire).flatMap Batch.buffers ++ buffers s.unflushed) : batch.note ≠ b := by
  have hnodup := inv.nodup
  rw [batches, flatMap_append, append_assoc] at hnodup
  have hnote : batch.note ∈ (s.cq.filterMap batch?).flatMap Batch.buffers :=
    mem_flatMap.2 ⟨batch, mem_filterMap.2 ⟨c, hc, hbatch⟩, mem_append_right _ mem_cons_self⟩
  exact (nodup_append.1 hnodup).2.2 _ hnote _ hb

theorem Completion.Right.update {mem : ℕ → ℕ → Packet} (h : c.Right mem)
    (hne : ∀ batch, c.batch? = some batch → batch.note ≠ b) (content : ℕ → Packet) :
    c.Right (update mem b content) := by
  cases c with
  | request => trivial
  | notify imm count batch =>
    obtain ⟨himm, hread, hvalid⟩ := h
    refine ⟨himm, ?_, hvalid⟩
    rwa [update_of_ne (hne batch rfl)]

/-- What has been written is what is read. -/
theorem map_range_getD (ps : List Packet) (old : ℕ → Packet) :
    (List.range ps.length).map (fun i => ps[i]?.getD (old i)) = ps := by
  refine ext_getElem (by simp) fun i h₁ h₂ => ?_
  rw [getElem_map, getElem_range, getElem?_eq_getElem h₂, Option.getD_some]

theorem Inv.deliver (inv : Inv s) (hw : s.wire = wr :: w) : Inv ({ s with wire := w }.deliver wr) := by
  have t := inv.traffic
  have hwire := t.wire
  have hplaced := t.placed
  rw [hw] at hwire hplaced
  have hrest : ∀ x ∈ w, x.Right := fun x hx => hwire x (mem_cons_of_mem _ hx)
  have hbatches : ({ s with wire := w }.deliver wr).batches = s.batches := by
    rw [batches, batches, hw]
    cases wr with
    | notify | request =>
      show (s.cq ++ [_]).filterMap batch? ++ onWire w = _
      rw [filterMap_append, append_assoc]
      rfl
    | _ => rfl
  have hkeep : ∀ {b content}, b ∈ (onWire s.wire).flatMap Batch.buffers ++ buffers s.unflushed →
      ∀ c ∈ s.cq, c.Right (update s.mem b content) :=
    fun hb c hc => (t.cq c hc).update (fun batch hbatch => inv.note_ne hc hbatch hb) _
  have hused := t.used
  have horder := inv.order
  rw [inFlight, ← hbatches] at horder
  rw [← hbatches] at hused
  refine ⟨inv.supply.deliver hw, ?_, ?_⟩
  · cases wr with
    | data b content =>
      refine { t with used := hused, wire := hrest, placed := hplaced.2, cq := hkeep ?_ }
      rw [hw]
      exact hplaced.1 b content rfl
    | remote dest => exact { t with used := hused, wire := hrest, placed := hplaced.2 }
    | request =>
      exact { t with
        used := hused
        wire := hrest
        placed := hplaced.2
        cq := forall_mem_append.2 ⟨t.cq, forall_mem_singleton.2 trivial⟩ }
    | notify b ps imm batch =>
      obtain ⟨rfl, hps, himm, hvalid⟩ := hwire _ mem_cons_self
      refine { t with
        used := hused
        wire := hrest
        placed := hplaced.2
        cq := forall_mem_append.2 ⟨hkeep ?_, forall_mem_singleton.2 ⟨himm, ?_, hvalid⟩⟩ }
      · rw [hw]
        exact mem_append_left _ (mem_append_left _ (mem_append_right _ mem_cons_self))
      · show (range ps.length).map (update s.mem batch.note _ batch.note) = _
        rw [update_self, map_range_getD, hps]
  · cases wr <;> exact horder

variable {imm count : ℕ} {cq : List Completion} {rest : List Slot}

/-- The receiver has the buffers of the first batch first, and then that of the notification. -/
theorem Inv.head_batch (inv : Inv s) (hcq : s.cq = .notify imm count batch :: cq) :
    ∃ rest, s.send_buffers = (buffers batch.entries).map (⟨·, true⟩) ++ ⟨batch.note, true⟩ :: rest := by
  obtain ⟨rest, hrest⟩ := inv.in_order
  have howned : s.send_buffers = (s.send_buffers.map Slot.addr).map (⟨·, true⟩) := by
    rw [map_map]
    refine (map_congr_left fun b hb => ?_).trans (map_id _) |>.symm
    show (⟨b.addr, true⟩ : Slot) = b
    rw [← inv.supply.owned b hb]
  rw [howned, hrest, batches, hcq]
  let later := (cq.filterMap batch? ++ onWire s.wire).flatMap Batch.buffers
  refine ⟨(later ++ buffers s.unflushed ++ rest).map (⟨·, true⟩), ?_⟩
  show ((buffers batch.entries ++ [batch.note]) ++ later ++ buffers s.unflushed ++ rest).map _ = _
  simp only [append_assoc, map_append, map_cons, cons_append, nil_append]

theorem State.handle_eq (s : State) (imm count : ℕ) (slot head : Slot) {pubs : List Pub} {taken : List ℕ}
    (batch : Batch) (hget : s.send_buffers[imm]? = some slot)
    (hreceive : receive ((List.range count).map (s.mem slot.addr))
      (s.send_buffers.set imm { slot with owned := false }) = some ⟨pubs, taken, head :: rest⟩) :
    s.handle (.notify imm count batch) = some { s with
      send_buffers := rest
      published := s.published ++ pubs
      taken := s.taken ++ taken ++ [head.addr] } := by
  simp only [handle, hget, hreceive]

/-- **A notification is handled**: its batch is published and its buffers are taken. -/
theorem Inv.handle_notify (inv : Inv s) (hcq : s.cq = .notify imm count batch :: cq) :
    ∃ rest, s.send_buffers = (buffers batch.entries).map (⟨·, true⟩) ++ ⟨batch.note, true⟩ :: rest ∧
      { s with cq := cq }.handle (.notify imm count batch) = some { s with
        cq := cq
        send_buffers := rest
        published := s.published ++ batch.entries.filterMap Entry.pub
        taken := s.taken ++ buffers batch.entries ++ [batch.note] } := by
  obtain ⟨rest, hrest⟩ := inv.head_batch hcq
  obtain ⟨himm, hread, hvalid⟩ := inv.traffic.cq _ (hcq ▸ mem_cons_self)
  have hlen : ((buffers batch.entries).map fun b => (⟨b, true⟩ : Slot)).length = imm := by
    rw [length_map, himm]
  have hget : s.send_buffers[imm]? = some ⟨batch.note, true⟩ := by
    rw [hrest, getElem?_append_right hlen.le, hlen, Nat.sub_self]
    rfl
  have hset : s.send_buffers.set imm ⟨batch.note, false⟩ =
      (buffers batch.entries).map (⟨·, true⟩) ++ ⟨batch.note, false⟩ :: rest := by
    rw [hrest, set_append_right _ _ hlen.le, hlen, Nat.sub_self]
    rfl
  refine ⟨rest, hrest, handle_eq { s with cq := cq } imm count _ ⟨_, false⟩ batch hget ?_⟩
  rw [hread, hset]
  exact receive_packets hvalid _

theorem Supply.handle (inv : Supply s) (hcq : s.cq = .notify imm count batch :: cq)
    (hrest : s.send_buffers = (buffers batch.entries).map (⟨·, true⟩) ++ ⟨batch.note, true⟩ :: rest)
    (pubs : List Pub) : Supply { s with
      cq := cq
      send_buffers := rest
      published := pubs
      taken := s.taken ++ buffers batch.entries ++ [batch.note] } := by
  have haddr : s.send_buffers.map Slot.addr = buffers batch.entries ++ batch.note :: rest.map Slot.addr := by
    rw [hrest, map_append, map_map, map_cons]
    exact congrArg (· ++ _) (map_id _)
  have hnodup := inv.nodup
  rw [haddr] at hnodup
  refine { inv with
    request := inv.request.congr (by simp [underWay, hcq, isRequest])
    receiver := ?_
    owned := fun b hb => inv.owned b ?_
    nodup := (nodup_cons.1 hnodup.of_append_right).2 }
  · rw [← inv.receiver, haddr]
    simp only [append_assoc, cons_append, nil_append]
  · rw [hrest]
    exact mem_append_right _ (mem_cons_of_mem _ hb)

theorem Inv.handle (inv : Inv s) (hcq : s.cq = c :: cq)
    (h : { s with cq := cq }.handle c = some s') : Inv s' := by
  have t := inv.traffic
  have hright : ∀ c ∈ cq, c.Right s.mem := fun c hc => t.cq c (hcq ▸ mem_cons_of_mem _ hc)
  have hused := t.used
  have horder := inv.order
  rw [inFlight, batches, hcq] at horder
  rw [batches, hcq] at hused
  cases c with
  | request =>
    cases h
    exact ⟨inv.supply.handleRequest hcq, { t with used := hused, cq := hright }, horder⟩
  | notify imm count batch =>
    obtain ⟨rest, hrest, heq⟩ := inv.handle_notify hcq
    cases heq.symm.trans h
    refine ⟨inv.supply.handle hcq hrest _, { t with used := ?_, cq := hright }, ?_⟩
    · rw [← hused]
      show (s.taken ++ buffers batch.entries ++ [batch.note]) ++ (_ ++ buffers s.unflushed) =
        s.taken ++ ((buffers batch.entries ++ [batch.note]) ++ _ ++ buffers s.unflushed)
      simp only [append_assoc]
      rfl
    · obtain ⟨handled, hissued, hpub⟩ := horder
      refine ⟨handled ++ batch.entries, ?_, ?_⟩
      · rw [hissued, append_assoc]
        show handled ++ ((batch.entries ++ _) ++ s.unflushed) = _
        rw [append_assoc]
        rfl
      · rw [filterMap_append, ← hpub]

theorem Inv.call (inv : Inv s) {c : Call} (hpos : 0 < c.bytes) (hlt : c.bytes < 2 ^ 32)
    (hclear : c.misread = false) (h : s.call c = some s') : Inv s' := by
  cases c with
  | write_to bytes dest =>
    cases h
    exact inv.issue ⟨hpos, hlt, rfl, hclear⟩ rfl nofun
      (show s = { s with consumed := s.consumed ++ [] } by rw [append_nil]) (inv.supply.issue _ _ rfl)
  | _ =>
    simp only [State.call, Option.map_eq_some_iff] at h
    obtain ⟨⟨b, s₁⟩, hget, rfl⟩ := h
    have hsupply := inv.supply.get_buffer hget
    obtain ⟨rest, asked, requests, -, rfl, -⟩ := get_buffer_eq hget
    refine inv.issue ⟨hpos, hlt, rfl, hclear⟩ rfl ?_ rfl (hsupply.issue _ _ rfl)
    rintro _ _ ⟨⟩
    rfl

theorem Inv.sendRequest (inv : Inv s) (hn : s.requests = n + 1) :
    Inv { s with requests := n, wire := s.wire ++ [.request] } := by
  have t := inv.traffic
  have hbatches : batches { s with requests := n, wire := s.wire ++ [.request] } = s.batches := by
    rw [batches, batches, onWire_append]
    exact congrArg _ (append_nil _)
  have hused := t.used
  have horder := inv.order
  rw [inFlight, ← hbatches] at horder
  rw [← hbatches] at hused
  exact ⟨inv.supply.sendRequest hn, { t with
    used := hused
    wire := forall_mem_append.2 ⟨t.wire, forall_mem_singleton.2 trivial⟩
    placed := t.placed.snoc (fun b hb => hb) nofun }, horder⟩

theorem inv_init : Inv (init mem) where
  supply := by
    refine ⟨⟨le_rfl, fun _ => .inr rfl, fun h => ?_⟩, nofun, rfl, rfl, nofun, nodup_nil⟩
    cases h
  traffic := ⟨rfl, rfl, rfl, nofun, forall_mem_singleton.2 trivial, ⟨nofun, trivial⟩, nofun⟩
  order := ⟨[], rfl, rfl⟩

/-- **Both sides agree on what is under way**, as long as every call can be told from its packet. -/
theorem Inv.step (inv : Inv s) {a : Move} (hclear : ∀ c, a = .call c → c.misread = false)
    (h : Infiniband.step s a = some s') : Inv s' := by
  cases a <;> simp only [Infiniband.step] at h
  case call c =>
    split_ifs at h with hguard
    exact inv.call hguard.2.1 hguard.2.2 (hclear c rfl) h
  case flush =>
    split_ifs at h
    obtain ⟨⟨b, s₁⟩, hget, rfl⟩ := Option.map_eq_some_iff.1 h
    have hsupply := (inv.supply.get_buffer hget).notify (b := b)
    obtain ⟨rest, asked, requests, -, hs, -⟩ := get_buffer_eq hget
    exact inv.notify hs hsupply
  case sendRequest =>
    split at h <;> cases h
    exact inv.sendRequest ‹_›
  case deliver =>
    split at h <;> cases h
    exact inv.deliver ‹_›
  case handle =>
    split at h
    · cases h
    · exact inv.handle ‹_› h
  case allocate bs =>
    split at h
    · cases h
    · split_ifs at h with hbs
      cases h
      exact ⟨inv.supply.allocate ‹_› hbs.1 hbs.2.1 hbs.2.2, { inv.traffic with }, inv.order⟩
  case sendRefill =>
    split at h <;> cases h
    exact ⟨inv.supply.sendRefill ‹_›, { inv.traffic with }, inv.order⟩
  case refill =>
    split at h <;> cases h
    exact ⟨inv.supply.refill ‹_›, { inv.traffic with }, inv.order⟩

end

end Proteus.Infiniband
