import Proteus.Platform.QueueConsumers

/-!
# Reuse of a queue after `reset`

Consumers that give up leave `occrev` ahead of `occ`. `reset` pops until nothing is left and then sets
`occrev` back to `occ`, so the next tickets are those from `occ` on, in slots whose old stamps are all
smaller. Such a queue is a new one with all tickets shifted (`ShiftedQueue`), whatever is done with it
(`exec_shifted`).
-/

namespace Proteus.QueueConsumers

open Function QueueConsumers AsyncQueue
open AsyncQueue (Queue Pc runThread Orderly)

variable {Tid T α β γ δ : Type*} {R : α → β → Prop} {S : γ → δ → Prop}

/-! ## Shifted queues -/

/-- The same place with a later ticket. -/
def shiftPc (k : ℕ) : Pc T → Pc T
  | .idle => .idle
  | .emplaceWait v j => .emplaceWait v (j + k)
  | .emplaceStore v j => .emplaceStore v (j + k)
  | .emplaceStamp v j => .emplaceStamp v (j + k)
  | .emplaceCount => .emplaceCount
  | .popTest r => .popTest (r + k)
  | .popRead r => .popRead (r + k)
  | .popTerm r => .popTerm (r + k)
  | .popOcc r => .popOcc (r + k)

/-- A stamp of the new queue, or an old one where the new queue has none. -/
def ShiftedStamp (k : ℕ) (stamp stamp₀ : Option ℕ) : Prop :=
  match stamp₀ with
  | some j => stamp = some (j + k)
  | none => ∀ j, stamp = some j → j < k

/-- The queue `q` is the queue `q₀` with all tickets shifted by `k`. In a slot that has not been written
yet there may be anything. -/
structure ShiftedQueue (N k : ℕ) (q q₀ : Queue Tid T) : Prop where
  occ : q.occ = q₀.occ + k
  occrev : q.occrev = q₀.occrev + k
  cnt : q.cnt = q₀.cnt + k
  terminating : q.terminating = q₀.terminating
  pc : ∀ t, q.pc t = shiftPc k (q₀.pc t)
  stamp : ∀ i, ShiftedStamp k (q.data ((i + k) % N)).2 (q₀.data (i % N)).2
  first : ∀ i, ((q₀.data (i % N)).2 ≠ none ∨ ∃ t v j, q₀.pc t = .emplaceStamp v j ∧ j % N = i % N) →
    (q.data ((i + k) % N)).1 = (q₀.data (i % N)).1
  reading : ∀ t r, q₀.pc t = .popRead r → (q₀.data (r % N)).2 ≠ none
  emplaced : q.emplaced = q₀.emplaced
  popped : q.popped = q₀.popped.map fun x => (x.1 + k, x.2)
  missed : q.missed = q₀.missed.map (· + k)

variable {N k : ℕ}

namespace ShiftedQueue

variable {q q₀ : Queue Tid T}

theorem stamp_iff (h : ShiftedQueue N k q q₀) (r : ℕ) :
    (q.data ((r + k) % N)).2 = some (r + k) ↔ (q₀.data (r % N)).2 = some r := by
  have hst := h.stamp r
  cases h₀ : (q₀.data (r % N)).2 <;> rw [h₀] at hst
  case none =>
    refine ⟨fun heq => ?_, nofun⟩
    exact absurd (hst _ heq) (by omega)
  case some j =>
    rw [show (q.data ((r + k) % N)).2 = some (j + k) from hst]
    simp

theorem slot_iff (N k i j : ℕ) : (i + k) % N = (j + k) % N ↔ i % N = j % N :=
  ⟨fun h => Nat.ModEq.add_right_cancel' k h, fun h => Nat.ModEq.add_right k h⟩

variable [DecidableEq Tid] (h : ShiftedQueue N k q q₀)
include h

theorem pc_goto (t : Tid) (p : Pc T) (t' : Tid) :
    (q.goto t (shiftPc k p)).pc t' = shiftPc k ((q₀.goto t p).pc t') := by
  by_cases ht : t' = t
  · simp [Queue.goto, ht]
  · simp [Queue.goto, ht, h.pc t']

/-- A thread moves, and no slot changes. -/
theorem move (t : Tid) (p : Pc T) (hstamp : ∀ v j, p ≠ .emplaceStamp v j)
    (hread : ∀ r, p = .popRead r → (q₀.data (r % N)).2 ≠ none) :
    ShiftedQueue N k (q.goto t (shiftPc k p)) (q₀.goto t p) :=
  { h with
    pc := h.pc_goto t p
    first := fun i hi => by
      refine h.first i (hi.imp_right ?_)
      rintro ⟨t', v, j, hpc, hj⟩
      exact ⟨t', v, j, (pc_of_pc_goto hpc (hstamp v j)).2, hj⟩
    reading := fun t' r hr => by
      by_cases hp : p = .popRead r
      · exact hread r hp
      · exact h.reading t' r (pc_of_pc_goto hr hp).2 }

/-- A thread moves, and writes into the slot of the ticket `j`. -/
theorem write (t : Tid) {p : Pc T} {j : ℕ} {x x₀ : T × Option ℕ}
    (hfirst : x.1 = x₀.1) (hx : ShiftedStamp k x.2 x₀.2) (hkeep : (q₀.data (j % N)).2 ≠ none → x₀.2 ≠ none)
    (hstamp : ∀ v j', p = .emplaceStamp v j' → j' % N = j % N) (hread : ∀ r, p ≠ .popRead r) :
    ShiftedQueue N k { q.goto t (shiftPc k p) with data := update q.data ((j + k) % N) x }
      { q₀.goto t p with data := update q₀.data (j % N) x₀ } :=
  { h with
    pc := h.pc_goto t p
    stamp := fun i => by
      by_cases hi : i % N = j % N
      · simpa [hi, (slot_iff N k i j).2 hi] using hx
      · simpa [hi, mt (slot_iff N k i j).1 hi] using h.stamp i
    first := fun i hi => by
      by_cases hij : i % N = j % N
      · simpa [hij, (slot_iff N k i j).2 hij] using hfirst
      · have hold : (q.data ((i + k) % N)).1 = (q₀.data (i % N)).1 := by
          refine h.first i (hi.imp (fun hst => by simpa [hij] using hst) ?_)
          rintro ⟨t', v', j', hpc, hj'⟩
          refine ⟨t', v', j', (pc_of_pc_goto hpc fun heq => ?_).2, hj'⟩
          exact hij (hj'.symm.trans (hstamp v' j' heq))
        simpa [hij, mt (slot_iff N k i j).1 hij] using hold
    reading := fun t' r hr => by
      have hold := h.reading t' r (pc_of_pc_goto hr (hread r)).2
      by_cases hr' : r % N = j % N
      · simpa [hr'] using hkeep (hr' ▸ hold)
      · simpa [hr'] using hold }

/-- The next access of a thread. -/
theorem runThread (t : Tid) :
    Option.Rel (ShiftedQueue N k) (runThread N q t) (AsyncQueue.runThread N q₀ t) := by
  have hpc := h.pc t
  cases hpc₀ : q₀.pc t <;> rw [hpc₀] at hpc <;> simp only [AsyncQueue.runThread, hpc, hpc₀, shiftPc]
  case idle => exact .none
  case emplaceWait v j =>
    have hcond : q.occrev + N ≤ j + k ↔ q₀.occrev + N ≤ j := by
      rw [h.occrev]
      omega
    by_cases hwait : q₀.occrev + N ≤ j
    · rw [if_pos hwait, if_pos (hcond.2 hwait)]
      exact .some h
    · rw [if_neg hwait, if_neg (mt hcond.1 hwait)]
      exact .some (h.move t (.emplaceStore v j) (by simp) (by simp))
  case emplaceStore v j =>
    exact .some (h.write t (p := .emplaceStamp v j) rfl (h.stamp j) id (by rintro _ _ ⟨⟩; rfl) (by simp))
  case emplaceStamp v j =>
    exact .some (h.write t (p := .emplaceCount) (h.first j (.inr ⟨t, v, j, hpc₀, rfl⟩)) rfl (by simp) (by simp)
      (by simp))
  case emplaceCount =>
    refine .some { h.move t .idle (by simp) (by simp) with cnt := ?_ }
    show q.cnt + 1 = q₀.cnt + 1 + k
    rw [h.cnt]
    omega
  case popTest r =>
    by_cases hstamp : (q₀.data (r % N)).2 = some r
    · rw [if_pos hstamp, if_pos ((h.stamp_iff r).2 hstamp)]
      refine .some (h.move t (.popRead r) (by simp) fun r' hr' => ?_)
      cases hr'
      simp [hstamp]
    · rw [if_neg hstamp, if_neg (mt (h.stamp_iff r).1 hstamp)]
      exact .some (h.move t (.popTerm r) (by simp) (by simp))
  case popRead r =>
    refine .some { h.move t .idle (by simp) (by simp) with popped := ?_ }
    rw [List.map_append, h.popped, h.first r (.inl (h.reading t r hpc₀))]
    rfl
  case popTerm r =>
    rw [h.terminating]
    split_ifs
    · exact .some (h.move t (.popOcc r) (by simp) (by simp))
    · exact .some (h.move t (.popTest r) (by simp) (by simp))
  case popOcc r =>
    have hcond : q.occ > r + k ↔ q₀.occ > r := by
      rw [h.occ]
      omega
    by_cases hocc : q₀.occ > r
    · rw [if_pos hocc, if_pos (hcond.2 hocc)]
      exact .some (h.move t (.popTest r) (by simp) (by simp))
    · rw [if_neg hocc, if_neg (mt hcond.1 hocc)]
      refine .some { h.move t .idle (by simp) (by simp) with missed := ?_ }
      rw [List.map_append, h.missed]
      rfl

theorem step (a : AsyncQueue.Action Tid T) :
    Option.Rel (ShiftedQueue N k) (AsyncQueue.step N q a) (AsyncQueue.step N q₀ a) := by
  cases a with
  | emplace t v =>
    have hpc := h.pc t
    cases hpc₀ : q₀.pc t <;> rw [hpc₀] at hpc <;>
      simp only [AsyncQueue.step, hpc, hpc₀, shiftPc, h.occ, Option.rel_none_none]
    case idle =>
      refine .some { h.move t (.emplaceWait v q₀.occ) (by simp) (by simp) with occ := ?_, emplaced := ?_ }
      · show q₀.occ + k + 1 = q₀.occ + 1 + k
        omega
      · rw [h.emplaced]
  | pop t =>
    have hpc := h.pc t
    cases hpc₀ : q₀.pc t <;> rw [hpc₀] at hpc <;>
      simp only [AsyncQueue.step, hpc, hpc₀, shiftPc, h.occrev, Option.rel_none_none]
    case idle =>
      refine .some { h.move t (.popTest q₀.occrev) (by simp) (by simp) with occrev := ?_ }
      show q₀.occrev + k + 1 = q₀.occrev + 1 + k
      omega
  | close => exact .some { h with terminating := rfl }
  | run t => exact h.runThread t

end ShiftedQueue

/-! ## Shifted states -/

variable {x : Option α} {y : Option β}

theorem rel_map {f : α → γ} {g : β → δ}
    (h : Option.Rel R x y) (hfg : ∀ a b, R a b → S (f a) (g b)) :
    Option.Rel S (x.map f) (y.map g) := by
  cases h with
  | none => exact .none
  | some h => exact .some (hfg _ _ h)

theorem rel_bind {f : α → Option γ} {g : β → Option δ} (h : Option.Rel R x y)
    (hfg : ∀ a b, R a b → Option.Rel S (f a) (g b)) : Option.Rel S (x.bind f) (y.bind g) := by
  cases h with
  | none => exact .none
  | some h => exact hfg _ _ h

/-- The same state with a shifted queue. -/
structure Shifted (N k : ℕ) (s s₀ : State Tid T) : Prop where
  q : ShiftedQueue N k s.q s₀.q
  phase : s.phase = s₀.phase
  m : s.m = s₀.m
  loop : s.loop = s₀.loop

variable {v : Variant}

namespace Shifted

variable {s s₀ : State Tid T}

theorem stamped_eq (h : Shifted N k s s₀) (t : Tid) : s.stamped N t = s₀.stamped N t := by
  unfold State.stamped
  rw [h.q.pc t]
  cases s₀.q.pc t with
  | popTest r => exact decide_eq_decide.2 (h.q.stamp_iff r)
  | _ => rfl

theorem lastPop_shift (k : ℕ) (p p' : Pc T) : lastPop (shiftPc k p) (shiftPc k p') = lastPop p p' := by
  cases p <;> cases p' <;> rfl

theorem entry_shift (v : Variant) (k : ℕ) (p : Pc T) : v.entry (shiftPc k p) = v.entry p := by
  cases p <;> rfl

theorem afterTest_shift (k : ℕ) (p : Pc T) : afterTest (shiftPc k p) = afterTest p := by
  cases p <;> rfl

variable [DecidableEq Tid] (h : Shifted N k s s₀)
include h

theorem access (t : Tid) {next : Pc T → Phase} (hnext : ∀ p, next (shiftPc k p) = next p) :
    Option.Rel (Shifted N k) (s.access N t next) (s₀.access N t next) := by
  refine rel_map (h.q.runThread t) fun q q₀ hq => ⟨hq, ?_, h.m, ?_⟩
  · simp only [h.phase, hq.pc t, hnext]
  · simp only [h.loop, h.q.pc t, hq.pc t, lastPop_shift]

theorem goto (t : Tid) (ph : Phase) : Shifted N k (s.goto t ph) (s₀.goto t ph) :=
  { h with phase := by simp only [State.goto, h.phase] }

theorem run (t : Tid) (timeout : Bool) :
    Option.Rel (Shifted N k) (run v N s t timeout) (run v N s₀ t timeout) := by
  unfold QueueConsumers.run
  rw [h.phase]
  cases s₀.phase t with
  | ready => exact h.access t (entry_shift v k)
  | spin i =>
    simp only [h.stamped_eq t]
    split_ifs
    · exact h.access t fun _ => rfl
    all_goals exact .some (h.goto t _)
  | lock =>
    simp only [h.m]
    split_ifs
    · exact .some { h.goto t (.predStamp false) with m := rfl }
    · exact .none
  | predStamp b =>
    simp only [h.stamped_eq t]
    exact .some (h.goto t _)
  | predTerm b =>
    simp only [h.q.terminating]
    split_ifs
    · exact .some (h.goto t _)
    · exact .some { h.goto t .sleep with m := rfl }
  | sleep => exact .some (h.goto t _)
  | relock b =>
    simp only [h.m]
    split_ifs
    · exact .some { h.goto t (.predStamp b) with m := rfl }
    · exact .none
  | test => exact h.access t (afterTest_shift k)
  | reading => exact h.access t fun _ => rfl
  | unlock => exact .some { h.goto t .ready with m := rfl }

/-- **Shifted states do the same.** -/
theorem step (a : Action Tid T) :
    Option.Rel (Shifted N k) (step v N s a) (QueueConsumers.step v N s₀ a) := by
  cases a with
  | emplace t x =>
    simp only [QueueConsumers.step, h.phase, h.loop]
    split_ifs
    · exact rel_map (h.q.step (.emplace t x)) fun _ _ hq => ⟨hq, rfl, h.m, rfl⟩
    · exact .none
  | foreachItemDo t =>
    have hpc := h.q.pc t
    simp only [QueueConsumers.step, h.phase, h.loop]
    cases hpc₀ : s₀.q.pc t <;> rw [hpc₀] at hpc <;> simp only [hpc, shiftPc, Option.rel_none_none]
    split_ifs
    · exact .some ⟨h.q, rfl, h.m, rfl⟩
    · exact .none
  | pop t =>
    simp only [QueueConsumers.step, h.phase, h.loop]
    split_ifs
    · exact rel_map (h.q.step (.pop t)) fun _ _ hq => ⟨hq, rfl, h.m, rfl⟩
    · exact .none
  | run t timeout => exact h.run t timeout
  | close =>
    simp only [QueueConsumers.step, h.m]
    split_ifs
    · exact .none
    · exact .some ⟨{ h.q with terminating := rfl }, h.phase, rfl, h.loop⟩

theorem exec (as : List (Action Tid T)) : Option.Rel (Shifted N k) (exec (QueueConsumers.step v N) s as)
      (Proteus.exec (QueueConsumers.step v N) s₀ as) := by
  induction as generalizing s s₀ with
  | nil => exact .some h
  | cons a as ih => exact rel_bind (h.step a) fun _ _ hs => ih hs

end Shifted

/-! ## `reset` -/

section

variable [DecidableEq Tid]

def isIdle : Pc T → Bool
  | .idle => true
  | _ => false

/-- The rest of a `pop` by a thread that runs alone. -/
def untilIdle (v : Variant) (N : ℕ) (t : Tid) : ℕ → State Tid T → Option (State Tid T)
  | 0, _ => none
  | n + 1, s =>
    if isIdle (s.q.pc t) = true ∧ s.phase t = .ready then some s
    else (run v N s t false).bind (untilIdle v N t n)

/-- `while (pop(x));` -/
def drain (v : Variant) (N : ℕ) (t : Tid) : ℕ → State Tid T → Option (State Tid T)
  | 0, _ => none
  | n + 1, s =>
    (step v N s (.pop t)).bind fun s₁ => (untilIdle v N t n s₁).bind fun s₂ =>
      if s.q.popped.length < s₂.q.popped.length then drain v N t n s₂ else some s₂

/-- The assignments at the end of `reset`; the history begins anew. -/
def State.reopen (s : State Tid T) : State Tid T :=
  { s with
    q := { s.q with
      terminating := false
      occrev := s.q.occ
      cnt := s.q.occ
      emplaced := []
      popped := []
      missed := [] } }

/-- `reset` by a thread, when the loops of the consumers are over. -/
def reset (v : Variant) (N : ℕ) (t : Tid) (fuel : ℕ) (s : State Tid T) : Option (State Tid T) :=
  if s.q.terminating = true then
    (drain v N t fuel { s with loop := fun _ => .outside }).map State.reopen
  else none

end

section

variable [DecidableEq Tid] {N : ℕ} {t : Tid} {s s' : State Tid T}

/-- The queue is closed, and no thread but `t` is inside of a call. -/
structure Alone (v : Variant) (N : ℕ) (t : Tid) (s : State Tid T) : Prop where
  inv : Inv v N s
  terminating : s.q.terminating = true
  others : ∀ t' ≠ t, s.q.pc t' = .idle ∧ s.phase t' = .ready
  loop : ∀ t', s.loop t' = .outside

/-- The `pop` of thread `t` with ticket `r` is under way or has ended, after `l` values. -/
def Popping (t : Tid) (r l : ℕ) (s : State Tid T) : Prop :=
  (s.q.pc t).popping = some r ∧ s.q.popped.length = l ∨
  (s.q.pc t).popping = none ∧ s.q.popped.length = l + if r < s.q.occ then 1 else 0

/-- One access of the thread. -/
theorem Alone.access {r l : ℕ} {q : Queue Tid T} (hs : Alone v N t s) (hp : Popping t r l s)
    (hq : runThread N s.q t = some q) : (q.pc t).popping = some r ∧ q.popped.length = l ∨
    (q.pc t).popping = none ∧ q.popped.length = l + if r < s.q.occ then 1 else 0 := by
  have hclosed := hs.inv.closed hs.terminating t
  have hpc : ∀ p : Pc T, (s.q.goto t p).pc t = p := fun p => by simp [Queue.goto]
  cases hp with
  | inr hp =>
    have hidle : s.q.pc t = .idle := by
      revert hclosed hp
      cases s.q.pc t <;> simp [Pc.popping, inEmplace]
    rw [runThread, hidle] at hq
    cases hq
  | inl hp =>
    obtain ⟨hpop, hlen⟩ := hp
    cases trans_of_runThread hq with
    | spin => exact .inl ⟨hpop, hlen⟩
    | pass _ _ _ hk | store _ _ _ hk | stamp _ _ _ hk | count _ hk => simp [hk, inEmplace] at hclosed
    | hit t r' hk | miss t r' hk | terminating t r' hk =>
      rw [hk] at hpop
      cases hpop
      exact .inl ⟨by rw [hpc]; rfl, hlen⟩
    | again t r' hk =>
      rcases hk with hk | hk <;> rw [hk] at hpop <;> cases hpop <;> exact .inl ⟨by rw [hpc]; rfl, hlen⟩
    | read t r' hk =>
      rw [hk] at hpop
      cases hpop
      have hlt : r < s.q.occ := (hs.inv.slots.reading_published t r hk).1
      refine .inr ⟨by rw [show _ = _ from hpc .idle]; rfl, ?_⟩
      rw [if_pos hlt, ← hlen]
      exact List.length_append
    | giveUp t r' hk hle =>
      rw [hk] at hpop
      cases hpop
      refine .inr ⟨by rw [show _ = _ from hpc .idle]; rfl, ?_⟩
      rw [if_neg (Nat.not_lt.2 hle), ← hlen]
      rfl

/-- One step of a `pop` of the thread that is alone. -/
theorem Alone.run {r l : ℕ} (hN : 0 < N) (hs : Alone v N t s) (hp : Popping t r l s)
    (hbusy : ¬(isIdle (s.q.pc t) = true ∧ s.phase t = .ready)) :
    ∃ s', run v N s t false = some s' ∧ Alone v N t s' ∧ Popping t r l s' ∧
      s'.q.occ = s.q.occ ∧ s'.q.occrev = s.q.occrev ∧
      rank s.q.occ (s'.q.pc t) (s'.phase t) < rank s.q.occ (s.q.pc t) (s.phase t) := by
  have hfree : s.m = none ∨ s.m = some t := by
    cases hm : s.m with
    | none => exact .inl rfl
    | some t' =>
      by_cases ht : t' = t
      · exact .inr (by rw [ht])
      · have hholds := (hs.inv.lock t').2 hm
        rw [(hs.others t' ht).2] at hholds
        cases hholds
  obtain ⟨s', hrun⟩ : ∃ s', QueueConsumers.run v N s t false = some s' := by
    refine hs.inv.exists_run (fun hph hidle => hbusy ⟨by rw [hidle]; rfl, hph⟩) fun hw => ?_
    rcases hfree with hm | hm
    · exact hm
    · have hholds := (hs.inv.lock t).2 hm
      rcases hw with hph | ⟨b, hph⟩ <;> rw [hph] at hholds <;> cases hholds
  have htrans := trans_of_run hrun
  have hinv := hs.inv.trans hN (hs.inv.calm (a := .run t false) hs.terminating trivial) htrans
  have hterm := terminating_of_trans hs.terminating htrans
  refine ⟨s', hrun, ?_⟩
  cases htrans with
  | access t b q next hq hnext =>
    obtain ⟨hocc, hoccrev, -⟩ := runThread_counters hq
    have hloop : ¬(s.loop t = .looping ∧ lastPop (s.q.pc t) (q.pc t) = true) := by
      rw [hs.loop t]
      simp
    have hlt := hs.inv.load_access hs.terminating hnext hq
    rw [if_neg hloop, hs.loop t] at hlt
    refine ⟨⟨hinv, hterm, fun t' ht => ?_, fun t' => ?_⟩, ?_, hocc, hoccrev, ?_⟩
    · exact ⟨(runThread_pc_of_ne hq ht).trans (hs.others t' ht).1,
        (update_of_ne ht _ _).trans (hs.others t' ht).2⟩
    · rw [if_neg hloop]
      exact hs.loop t'
    · show _ ∨ _
      rw [hocc]
      exact hs.access hp hq
    · simpa [load, credit] using hlt
  | wait t b ph m hw =>
    obtain ⟨r', hr'⟩ := (hs.inv.fits t).popTest hw.before
    refine ⟨⟨hinv, hterm, fun t' ht => ?_, hs.loop⟩, hp, rfl, rfl, ?_⟩
    · exact ⟨(hs.others t' ht).1, (update_of_ne ht _ _).trans (hs.others t' ht).2⟩
    · simpa [State.goto, rank, hr'] using hw.rank_lt hs.terminating
  | unlock t b hph =>
    have hfits := hs.inv.fits t
    rw [hph] at hfits
    refine ⟨⟨hinv, hterm, fun t' ht => ?_, hs.loop⟩, hp, rfl, rfl, ?_⟩
    · exact ⟨(hs.others t' ht).1, (update_of_ne ht _ _).trans (hs.others t' ht).2⟩
    · rcases hfits with h | ⟨r, h⟩ <;> simp [State.goto, rank, h, hph]

/-- A `pop` of the thread ends, with a value exactly if an `emplace` has drawn its ticket. -/
theorem Alone.untilIdle {r l n : ℕ} (hN : 0 < N) (hs : Alone v N t s) (hp : Popping t r l s)
    (hn : rank s.q.occ (s.q.pc t) (s.phase t) < n) :
    ∃ s', untilIdle v N t n s = some s' ∧ Alone v N t s' ∧ s'.q.pc t = .idle ∧ s'.phase t = .ready ∧
      s'.q.occ = s.q.occ ∧ s'.q.occrev = s.q.occrev ∧
      s'.q.popped.length = l + if r < s.q.occ then 1 else 0 := by
  induction n generalizing s with
  | zero => exact absurd hn (Nat.not_lt_zero _)
  | succ n ih =>
    by_cases hidle : isIdle (s.q.pc t) = true ∧ s.phase t = .ready
    · have hpc : s.q.pc t = .idle := by
        have hi := hidle.1
        revert hi
        cases s.q.pc t <;> simp [isIdle]
      refine ⟨s, by rw [untilIdle, if_pos hidle], hs, hpc, hidle.2, rfl, rfl, ?_⟩
      rcases hp with ⟨hpop, -⟩ | ⟨-, hlen⟩
      · rw [hpc] at hpop
        cases hpop
      · exact hlen
    · obtain ⟨s₁, hrun, hs₁, hp₁, hocc, hoccrev, hrank⟩ := hs.run hN hp hidle
      obtain ⟨s', hs', hrest⟩ := ih hs₁ hp₁ (by rw [hocc]; omega)
      rw [hocc, hoccrev] at hrest
      refine ⟨s', ?_, hrest⟩
      rwa [untilIdle, if_neg hidle, hrun]

/-- All threads are outside of calls. -/
structure Quiet (v : Variant) (N : ℕ) (s : State Tid T) : Prop where
  inv : Inv v N s
  terminating : s.q.terminating = true
  idle : ∀ t, s.q.pc t = .idle ∧ s.phase t = .ready
  loop : ∀ t, s.loop t = .outside

theorem Quiet.pop (hN : 0 < N) (hs : Quiet v N s) (t : Tid) {n : ℕ} (hn : 130 < n) :
    ∃ s₁ s₂, step v N s (.pop t) = some s₁ ∧ untilIdle v N t n s₁ = some s₂ ∧ Quiet v N s₂ ∧
      s₂.q.occ = s.q.occ ∧ s₂.q.occrev = s.q.occrev + 1 ∧
      s₂.q.popped.length = s.q.popped.length + if s.q.occrev < s.q.occ then 1 else 0 := by
  have hstep := step_pop (v := v) (N := N) (hs.idle t).1 (hs.idle t).2 (by simp [hs.loop t])
  have halone : Alone v N t
      { s with
        q := { s.q.goto t (.popTest s.q.occrev) with occrev := s.q.occrev + 1 }
        phase := update s.phase t v.wait } :=
    { inv := hs.inv.trans hN (a := .pop t) trivial (trans_of_step hstep)
      terminating := hs.terminating
      others := fun t' ht => by simpa [Queue.goto, ht] using hs.idle t'
      loop := hs.loop }
  obtain ⟨s₂, hrun, hs₂, hpc, hph, hocc, hoccrev, hlen⟩ :=
    halone.untilIdle (r := s.q.occrev) (l := s.q.popped.length) (n := n) hN
      (.inl ⟨by simp [Queue.goto, Pc.popping], rfl⟩) (by
        have := wait_rank_le v
        simp [Queue.goto, rank]
        omega)
  refine ⟨_, s₂, hstep, hrun, ⟨hs₂.inv, hs₂.terminating, fun t' => ?_, hs₂.loop⟩, hocc, hoccrev, hlen⟩
  by_cases ht : t' = t
  · exact ht ▸ ⟨hpc, hph⟩
  · exact hs₂.others t' ht

/-- **The loop of `reset` ends** after the items that nobody has reserved. -/
theorem Quiet.drain (hN : 0 < N) (hs : Quiet v N s) (t : Tid) {n : ℕ}
    (hn : s.q.occ - s.q.occrev + 131 < n) :
    ∃ s', drain v N t n s = some s' ∧ Quiet v N s' ∧ s'.q.occ = s.q.occ := by
  induction n generalizing s with
  | zero => exact absurd hn (Nat.not_lt_zero _)
  | succ n ih =>
    obtain ⟨s₁, s₂, hpop, hrun, hs₂, hocc, hoccrev, hlen⟩ := hs.pop hN t (n := n) (by omega)
    rw [drain, hpop, Option.bind_some, hrun, Option.bind_some]
    by_cases hlt : s.q.occrev < s.q.occ
    · rw [if_pos hlt] at hlen
      rw [if_pos (by omega)]
      obtain ⟨s', hs', hq, hocc'⟩ := ih hs₂ (by omega)
      exact ⟨s', hs', hq, hocc'.trans hocc⟩
    · rw [if_neg hlt] at hlen
      rw [if_neg (by omega)]
      exact ⟨s₂, rfl, hs₂, hocc⟩

omit [DecidableEq Tid] in
/-- A queue that `reset` leaves is a new one, shifted by the tickets drawn before. -/
theorem Quiet.shifted (hs : Quiet v N s) (junk : T) : Shifted N s.q.occ s.reopen (init junk) where
  q := {
    occ := (Nat.zero_add _).symm
    occrev := (Nat.zero_add _).symm
    cnt := (Nat.zero_add _).symm
    terminating := rfl
    pc := fun t => (hs.idle t).1
    stamp := fun _ j hj => (hs.inv.slots.stamped_published _ j hj).1
    first := by
      rintro i (h | ⟨t, v, j, h, -⟩)
      · exact absurd rfl h
      · cases h
    reading := fun t r h => by cases h
    emplaced := rfl
    popped := rfl
    missed := rfl }
  phase := funext fun t => (hs.idle t).2
  m := by
    cases hm : s.m with
    | none => exact hm
    | some t =>
      have hholds := (hs.inv.lock t).2 hm
      rw [(hs.idle t).2] at hholds
      cases hholds
  loop := funext hs.loop

theorem reset_like_new (hN : 0 < N) (hs : Inv v N s) (hterm : s.q.terminating = true)
    (hidle : ∀ t, s.q.pc t = .idle ∧ s.phase t = .ready) (t : Tid) {fuel : ℕ}
    (hfuel : s.q.occ - s.q.occrev + 131 < fuel) (junk : T) :
    ∃ s', reset v N t fuel s = some s' ∧ Shifted N s.q.occ s' (init junk) := by
  have hquiet : Quiet v N { s with loop := fun _ => .outside } :=
    ⟨{ hs with finished := fun t h => by cases h }, hterm, hidle, fun _ => rfl⟩
  obtain ⟨s', hs', hq, hocc⟩ := hquiet.drain hN t hfuel
  refine ⟨s'.reopen, ?_, ?_⟩
  · rw [reset, if_pos hterm, hs']
    rfl
  · rw [← show s'.q.occ = s.q.occ from hocc]
    exact hq.shifted junk

end

/-- **Termination and reuse.** If every `emplace` leaves its wait loop only when the `pop` of the slot's
previous ticket has returned, and the queue is closed after all `emplace`s: whatever the schedule, the
consumers have only finitely many steps left, can go on until all of them have finished, and then have
received exactly the emplaced items. When nobody is inside of a call, `reset` returns, and after it every
sequence of calls does what it does with a new queue. -/
theorem queue_termination_and_reuse [DecidableEq Tid] [Fintype Tid] (v : Variant) (n : ℕ) (junk : T) :
    (∀ s s' : State Tid T, ∀ as, Reach (step v (n + 1)) (Calm (n + 1)) (init junk) s →
      s.q.terminating = true → Run (step v (n + 1)) Consuming s as s' →
        as.length ≤ potential s ∧
        (∀ t, s'.loop t = .looping ∨ s'.q.pc t ≠ .idle ∨ s'.phase t ≠ .ready →
          ∃ t' s'', step v (n + 1) s' (.run t' false) = some s'' ∨
            s'.loop t' = .looping ∧ step v (n + 1) s' (.pop t') = some s'') ∧
        ((∀ t, s'.q.pc t = .idle) → (∃ t, s'.loop t = .finished) →
          (s'.q.popped.map Prod.snd).Perm s'.q.emplaced)) ∧
    ∀ (s : State Tid T) (t : Tid) (fuel : ℕ), Reach (step v (n + 1)) (Calm (n + 1)) (init junk) s →
      s.q.terminating = true → (∀ t, s.q.pc t = .idle ∧ s.phase t = .ready) →
      s.q.occ - s.q.occrev + 131 < fuel →
        ∃ s', reset v (n + 1) t fuel s = some s' ∧
          ∀ as, Option.Rel (Shifted (n + 1) s.q.occ) (exec (step v (n + 1)) s' as)
            (exec (step v (n + 1)) (init junk) as) := by
  refine ⟨fun s s' as hs hterm hrun => consumers_terminate n.succ_pos hs hterm hrun,
    fun s t fuel hs hterm hidle hfuel => ?_⟩
  obtain ⟨s', hs', hshift⟩ := reset_like_new n.succ_pos (inv_of_reach n.succ_pos hs) hterm hidle t hfuel junk
  exact ⟨s', hs', fun as => hshift.exec as⟩

/-- A queue of one slot is closed with an item in it, which a consumer or `reset` takes. -/
theorem queue_termination_and_reuse_one_item : ∃ s s' : State Bool ℕ,
    Reach (step .spinning 1) (Calm 1) (init 0) s ∧ s'.q.popped = [(0, 7)] ∧ 4 ≤ potential s ∧
      (∃ t s'', step .spinning 1 s' (.run t false) = some s'' ∨
        s'.loop t = .looping ∧ step .spinning 1 s' (.pop t) = some s'') ∧
      ∃ s'', reset .spinning 1 false 133 s = some s'' ∧ ∀ as, Option.Rel (Shifted 1 1)
        (exec (step .spinning 1) s'' as) (exec (step .spinning 1) (init 0) as) := by
  have h₁ : Reach (step .spinning 1) (Calm 1) (init 0 : State Bool ℕ) _ :=
    .next (.emplace false 7) .init rfl rfl
  have h₂ := h₁.next (Action.run false false) (by rintro _ _ ⟨⟩; decide) rfl
  have h₃ := h₂.next (Action.run false false) nofun rfl
  have h₄ := h₃.next (Action.run false false) nofun rfl
  have h₅ := h₄.next (Action.run false false) nofun rfl
  have h₆ := h₅.next Action.close (Bool.forall_bool.2 ⟨rfl, rfl⟩) rfl
  obtain ⟨hlen, hstep, -⟩ := (queue_termination_and_reuse .spinning 0 0).1 _ _
    [.foreachItemDo true, .pop true, .run true false, .run true false] h₆ rfl
    (.cons _ trivial rfl (.cons _ rfl rfl (.cons _ trivial rfl (.cons _ trivial rfl (.nil _)))))
  exact ⟨_, _, h₆, rfl, hlen, hstep true (.inl rfl), (queue_termination_and_reuse .spinning 0 0).2 _ false
    133 h₆ rfl (Bool.forall_bool.2 ⟨⟨rfl, rfl⟩, rfl, rfl⟩) (by decide)⟩

end Proteus.QueueConsumers
