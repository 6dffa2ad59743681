import Mathlib.Data.Nat.ModEq
import Proteus.Machine

/-!
# `AsyncQueueMPMC`

A bounded queue of `N` slots without locks. An `emplace` draws the ticket `locc` from `occ`,
waits until `occrev + N > locc`, writes the value into slot `locc % N` and then the stamp
`locc`; a `pop` draws its ticket from `occrev` and spins until the slot shows its stamp.
Every access to a shared variable is one step of the machine, so the threads interleave between
any two of them.

A producer waits for the *reservation* of the ticket `locc - N`, not for the end of the `pop`
that holds it: `pop` may still have to read the slot that is then overwritten
(`overwritten_before_read`). In runs where an `emplace` leaves its wait loop only after the
`pop` of the slot's previous ticket has returned, delivery is exactly once (`delivery`).

`emplaced`, `popped` and `missed` are history variables: the value of every ticket, what the
finished `pop`s returned, and the tickets of those that returned nothing.
-/

namespace Proteus.AsyncQueue

open Function List Nat

attribute [local simp] update_apply

/-! ## Model -/

/-- Where a thread stands. A constructor is named after the access that comes next. -/
inductive Pc (T : Type*)
  | idle
  /-- Load `occrev` and compare. -/
  | emplaceWait (v : T) (locc : ℕ)
  /-- Write `first`. -/
  | emplaceStore (v : T) (locc : ℕ)
  /-- Write `second`. -/
  | emplaceStamp (v : T) (locc : ℕ)
  /-- Increment `cnt`. -/
  | emplaceCount
  /-- Compare `second` with the ticket. -/
  | popTest (reserve : ℕ)
  /-- Move `first` out. -/
  | popRead (reserve : ℕ)
  /-- Load `terminating`. -/
  | popTerm (reserve : ℕ)
  /-- Load `occ` and compare. -/
  | popOcc (reserve : ℕ)

/-- The queue, the threads and the history. A slot is the pair `first`, `second`; the stamp `-1`
of a fresh slot is `none`. -/
structure Queue (Tid T : Type*) where
  occ : ℕ
  occrev : ℕ
  cnt : ℕ
  data : ℕ → T × Option ℕ
  terminating : Bool
  pc : Tid → Pc T
  emplaced : List T
  popped : List (ℕ × T)
  missed : List ℕ

inductive Action (Tid T : Type*)
  | emplace (t : Tid) (v : T)
  | pop (t : Tid)
  | close
  /-- The next access of a thread inside `emplace` or `pop`. -/
  | run (t : Tid)

variable {Tid T : Type*}

section

variable [DecidableEq Tid]

/-- An empty queue; `junk` is in the slots. -/
def init (junk : T) : Queue Tid T where
  occ := 0
  occrev := 0
  cnt := 0
  data _ := (junk, none)
  terminating := false
  pc _ := .idle
  emplaced := []
  popped := []
  missed := []

def Queue.goto (s : Queue Tid T) (t : Tid) (p : Pc T) : Queue Tid T :=
  { s with pc := update s.pc t p }

/-- The next access of thread `t`. -/
def runThread (N : ℕ) (s : Queue Tid T) (t : Tid) : Option (Queue Tid T) :=
  match s.pc t with
  | .idle => none
  | .emplaceWait v locc =>
    if s.occrev + N ≤ locc then some s else some (s.goto t (.emplaceStore v locc))
  | .emplaceStore v locc =>
    some { s.goto t (.emplaceStamp v locc) with
      data := update s.data (locc % N) (v, (s.data (locc % N)).2) }
  | .emplaceStamp _ locc =>
    some { s.goto t .emplaceCount with
      data := update s.data (locc % N) ((s.data (locc % N)).1, some locc) }
  | .emplaceCount => some { s.goto t .idle with cnt := s.cnt + 1 }
  | .popTest reserve =>
    if (s.data (reserve % N)).2 = some reserve then some (s.goto t (.popRead reserve))
    else some (s.goto t (.popTerm reserve))
  | .popRead reserve =>
    some { s.goto t .idle with popped := s.popped ++ [(reserve, (s.data (reserve % N)).1)] }
  | .popTerm reserve =>
    if s.terminating then some (s.goto t (.popOcc reserve))
    else some (s.goto t (.popTest reserve))
  | .popOcc reserve =>
    if s.occ > reserve then some (s.goto t (.popTest reserve))
    else some { s.goto t .idle with missed := s.missed ++ [reserve] }

/-- One step: a call begins by drawing its ticket. -/
def step (N : ℕ) (s : Queue Tid T) : Action Tid T → Option (Queue Tid T)
  | .emplace t v =>
    match s.pc t with
    | .idle =>
      some { s.goto t (.emplaceWait v s.occ) with
        occ := s.occ + 1, emplaced := s.emplaced ++ [v] }
    | _ => none
  | .pop t =>
    match s.pc t with
    | .idle => some { s.goto t (.popTest s.occrev) with occrev := s.occrev + 1 }
    | _ => none
  | .close => some { s with terminating := true }
  | .run t => runThread N s t

end

/-- The value and ticket of an `emplace` whose stamp is not written yet. -/
def Pc.emplacing : Pc T → Option (T × ℕ)
  | .emplaceWait v k | .emplaceStore v k | .emplaceStamp v k => some (v, k)
  | _ => none

/-- The ticket of a `pop`. -/
def Pc.popping : Pc T → Option ℕ
  | .popTest r | .popRead r | .popTerm r | .popOcc r => some r
  | _ => none

/-- The tickets of the `pop`s that returned a value. -/
def Queue.returned (s : Queue Tid T) : List ℕ := s.popped.map Prod.fst

attribute [local simp] Queue.returned

/-- The `emplace` with ticket `k` has written its stamp. -/
def Queue.Published (s : Queue Tid T) (k : ℕ) : Prop :=
  k < s.occ ∧ ∀ t v, (s.pc t).emplacing ≠ some (v, k)

/-- The condition on a run: an `emplace` leaves its wait loop only when the `pop` with the ticket
one round earlier has returned, and none begins after `close`. -/
def Orderly (N : ℕ) (s : Queue Tid T) : Action Tid T → Prop
  | .emplace _ _ => s.terminating = false
  | .run t => ∀ v k, s.pc t = .emplaceWait v k → N ≤ k → k < s.occrev + N → k - N ∈ s.returned
  | _ => True

/-! ## One step -/

variable {s s' : Queue Tid T} {a : Action Tid T} {t : Tid}

section

variable [DecidableEq Tid] {N : ℕ}

/-- What a step can do. -/
inductive Trans (N : ℕ) (s : Queue Tid T) : Action Tid T → Queue Tid T → Prop
  | beginEmplace (t : Tid) (v : T) (hpc : s.pc t = .idle) :
      Trans N s (.emplace t v) { s.goto t (.emplaceWait v s.occ) with
        occ := s.occ + 1, emplaced := s.emplaced ++ [v] }
  | beginPop (t : Tid) (hpc : s.pc t = .idle) :
      Trans N s (.pop t) { s.goto t (.popTest s.occrev) with occrev := s.occrev + 1 }
  | close : Trans N s .close { s with terminating := true }
  | spin (t : Tid) : Trans N s (.run t) s
  | pass (t : Tid) (v : T) (k : ℕ) (hpc : s.pc t = .emplaceWait v k) (h : k < s.occrev + N) :
      Trans N s (.run t) (s.goto t (.emplaceStore v k))
  | store (t : Tid) (v : T) (k : ℕ) (hpc : s.pc t = .emplaceStore v k) :
      Trans N s (.run t) { s.goto t (.emplaceStamp v k) with
        data := update s.data (k % N) (v, (s.data (k % N)).2) }
  | stamp (t : Tid) (v : T) (k : ℕ) (hpc : s.pc t = .emplaceStamp v k) :
      Trans N s (.run t) { s.goto t .emplaceCount with
        data := update s.data (k % N) ((s.data (k % N)).1, some k) }
  | count (t : Tid) (hpc : s.pc t = .emplaceCount) :
      Trans N s (.run t) { s.goto t .idle with cnt := s.cnt + 1 }
  | hit (t : Tid) (r : ℕ) (hpc : s.pc t = .popTest r) (h : (s.data (r % N)).2 = some r) :
      Trans N s (.run t) (s.goto t (.popRead r))
  | miss (t : Tid) (r : ℕ) (hpc : s.pc t = .popTest r) :
      Trans N s (.run t) (s.goto t (.popTerm r))
  | read (t : Tid) (r : ℕ) (hpc : s.pc t = .popRead r) :
      Trans N s (.run t)
        { s.goto t .idle with popped := s.popped ++ [(r, (s.data (r % N)).1)] }
  | terminating (t : Tid) (r : ℕ) (hpc : s.pc t = .popTerm r) (h : s.terminating = true) :
      Trans N s (.run t) (s.goto t (.popOcc r))
  | again (t : Tid) (r : ℕ) (hpc : s.pc t = .popTerm r ∨ s.pc t = .popOcc r) :
      Trans N s (.run t) (s.goto t (.popTest r))
  | giveUp (t : Tid) (r : ℕ) (hpc : s.pc t = .popOcc r) (h : s.occ ≤ r) :
      Trans N s (.run t) { s.goto t .idle with missed := s.missed ++ [r] }

theorem trans_of_runThread (h : runThread N s t = some s') : Trans N s (.run t) s' := by
  unfold runThread at h
  split at h
  case h_1 => cases h
  case h_2 v k hpc =>
    split_ifs at h <;> cases h
    · exact .spin t
    · exact .pass t v k hpc (by omega)
  case h_3 | h_4 | h_5 | h_7 =>
    cases h
    constructor
    assumption
  case h_6 r hpc =>
    split_ifs at h with hstamp <;> cases h
    · exact .hit t r hpc hstamp
    · exact .miss t r hpc
  case h_8 r hpc =>
    split_ifs at h with hterm <;> cases h
    · exact .terminating t r hpc hterm
    · exact .again t r (.inl hpc)
  case h_9 r hpc =>
    split_ifs at h with hocc <;> cases h
    · exact .again t r (.inr hpc)
    · exact .giveUp t r hpc (by omega)

theorem trans_of_step (h : step N s a = some s') : Trans N s a s' := by
  cases a with
  | emplace | pop =>
    simp only [step] at h
    split at h <;> cases h
    constructor
    assumption
  | close => cases h; exact .close
  | run t => exact trans_of_runThread h

end

/-! ## The invariant -/

/-- Tickets are handed out once, and every `pop` ticket is accounted for. -/
structure Tickets (s : Queue Tid T) : Prop where
  length_emplaced : s.emplaced.length = s.occ
  emplacing_value : ∀ t v k, (s.pc t).emplacing = some (v, k) → s.emplaced[k]? = some v
  emplacing_inj : ∀ t t' v v' k, (s.pc t).emplacing = some (v, k) →
    (s.pc t').emplacing = some (v', k) → t = t'
  popping_lt : ∀ t r, (s.pc t).popping = some r → r < s.occrev
  popping_inj : ∀ t t' r, (s.pc t).popping = some r → (s.pc t').popping = some r → t = t'
  popping_not_returned : ∀ t r, (s.pc t).popping = some r → r ∉ s.returned
  returned_lt : ∀ r ∈ s.returned, r < s.occrev
  returned_nodup : s.returned.Nodup
  popOcc_terminating : ∀ t r, s.pc t = .popOcc r → s.terminating = true
  missed_terminating : ∀ r ∈ s.missed, s.occ ≤ r ∧ s.terminating = true
  accounted : ∀ r < s.occrev, r ∈ s.returned ∨ r ∈ s.missed ∨ ∃ t, (s.pc t).popping = some r

/-- What the slots hold. -/
structure Slots (N : ℕ) (s : Queue Tid T) : Prop where
  returned_published : ∀ r ∈ s.returned, s.Published r
  popped_value : ∀ r v, (r, v) ∈ s.popped → s.emplaced[r]? = some v
  passed_returned : ∀ k < s.occ, N ≤ k → (∀ t v, s.pc t ≠ .emplaceWait v k) → k - N ∈ s.returned
  stamping_first : ∀ t v k, s.pc t = .emplaceStamp v k → (s.data (k % N)).1 = v
  published_slot : ∀ k v, s.Published k → k ∉ s.returned → s.emplaced[k]? = some v →
    s.data (k % N) = (v, some k)
  stamped_published : ∀ i k, (s.data i).2 = some k → s.Published k
  reading_published : ∀ t r, s.pc t = .popRead r → s.Published r

theorem tickets_init (junk : T) : Tickets (init junk : Queue Tid T) := by
  constructor <;> simp [init, Pc.emplacing, Pc.popping]

theorem slots_init (N : ℕ) (junk : T) : Slots N (init junk : Queue Tid T) := by
  constructor <;> simp [init, Queue.Published]

open Queue

variable {t t' : Tid} {missed : List ℕ} {x : Pc T} {junk : T} {j : ℕ}

section

variable {N k : ℕ}

theorem Queue.Published.ne_wait (h : s.Published k) (t : Tid) (v : T) : s.pc t ≠ .emplaceWait v k := by
  intro hpc
  exact h.2 t v (by rw [hpc]; rfl)

/-- Once an `emplace` has left its wait loop, all earlier tickets of its slot are popped. -/
theorem Slots.returned_of_passed (h : Slots N s) (hN : 0 < N) (hk : k < s.occ)
    (hpass : ∀ t v, s.pc t ≠ .emplaceWait v k) (hj : j < k) (hmod : j % N = k % N) : j ∈ s.returned := by
  induction k using Nat.strong_induction_on with
  | _ k ih =>
    have hround : N ≤ k ∧ j ≤ k - N := by
      have hdvd : N ∣ k - j := (modEq_iff_dvd' hj.le).1 hmod
      have := le_of_dvd (by omega) hdvd
      omega
    have hprev := h.passed_returned k hk hround.1 hpass
    rcases hround.2.eq_or_lt with heq | hlt
    · rwa [heq]
    · have hpub := h.returned_published _ hprev
      refine ih (k - N) (by omega) hpub.1 hpub.ne_wait hlt ?_
      rw [hmod, mod_eq_sub_mod hround.1]

/-- The slot of an `emplace` between its wait loop and its stamp belongs to it alone: a ticket in
the same slot is popped or still waits. -/
theorem Slots.slot_free (h : Slots N s) (hN : 0 < N) (hk : k < s.occ)
    (hkpass : ∀ t v, s.pc t ≠ .emplaceWait v k) (hkpub : ¬ s.Published k) (hj : j < s.occ)
    (hjpass : ∀ t v, s.pc t ≠ .emplaceWait v j) (hjret : j ∉ s.returned) (hne : j ≠ k) : j % N ≠ k % N := by
  intro hmod
  rcases lt_or_gt_of_ne hne with hlt | hgt
  · exact hjret (h.returned_of_passed hN hk hkpass hlt hmod)
  · exact hkpub (h.returned_published k (h.returned_of_passed hN hj hjpass hgt hmod.symm))

variable {v : T}

section

variable (ht : Tickets s) (hk : (s.pc t).emplacing = some (v, k))
include ht hk

theorem Tickets.lt_occ : k < s.occ := by
  rw [← ht.length_emplaced]
  exact (List.getElem?_eq_some_iff.1 (ht.emplacing_value t v k hk)).1

/-- No second thread waits with the ticket of an `emplace` past its wait loop. -/
theorem Tickets.ne_wait (hpc : ∀ v, s.pc t ≠ .emplaceWait v k) (t' : Tid)
    (v' : T) : s.pc t' ≠ .emplaceWait v' k := by
  intro hpc'
  have heq := ht.emplacing_inj t t' v v' k hk (by rw [hpc']; rfl)
  exact hpc v' (heq ▸ hpc')

end

theorem not_published (hk : (s.pc t).emplacing = some (v, k)) : ¬ s.Published k :=
  fun h => h.2 t v hk

variable {r : ℕ}

/-- The `pop` with ticket `r` finds the value of the `emplace` with ticket `r`. -/
theorem Slots.read_value (h : Slots N s) (ht : Tickets s)
    (hpc : s.pc t = .popRead r) : s.emplaced[r]? = some (s.data (r % N)).1 := by
  have hpub := h.reading_published t r hpc
  have hlt : r < s.emplaced.length := by
    rw [ht.length_emplaced]
    exact hpub.1
  have hslot := h.published_slot r s.emplaced[r] hpub
    (ht.popping_not_returned t r (by rw [hpc]; rfl)) (getElem?_eq_getElem hlt)
  rw [hslot, getElem?_eq_getElem hlt]

variable [DecidableEq Tid] {p : Pc T}

/-- A thread that is elsewhere than the moving one stays where it is. -/
theorem pc_goto_of_pc (hx : s.pc t' = x) (hne : s.pc t ≠ x) : (s.goto t p).pc t' = x := by
  have ht : t' ≠ t := fun heq => hne (heq ▸ hx)
  exact (update_of_ne ht p s.pc).trans hx

theorem pc_of_pc_goto (hx : (s.goto t p).pc t' = x) (hne : p ≠ x) : t' ≠ t ∧ s.pc t' = x :=
  (update_cases hx).resolve_left fun h => hne h.2

/-- The thread `t` moves on to `p`: it keeps its ticket or has a new one, and a ticket that it drops is in
the history. -/
theorem Tickets.goto (h : Tickets s) (hpc : s'.pc = update s.pc t p)
    (hopen : s'.terminating = s.terminating) {l : List T} (hl : s'.emplaced = s.emplaced ++ l)
    (hocc : s'.occ = s.occ + l.length) (hemp : ∀ v k, p.emplacing = some (v, k) →
      (s.pc t).emplacing = some (v, k) ∨ s.occ ≤ k ∧ s'.emplaced[k]? = some v)
    (hrev : s.occrev ≤ s'.occrev) (hpop : ∀ r, p.popping = some r → r < s'.occrev ∧ r ∉ s'.returned ∧
      ((s.pc t).popping = some r ∨ s.occrev ≤ r))
    (hret : ∀ r ∈ s'.returned, r ∈ s.returned ∨ (s.pc t).popping = some r) (hnodup : s'.returned.Nodup)
    (hterm : ∀ r, p = .popOcc r → s.terminating = true)
    (hmissed : ∀ r ∈ s'.missed, s'.occ ≤ r ∧ s.terminating = true)
    (hsub : s.returned ⊆ s'.returned) (hsub' : s.missed ⊆ s'.missed)
    (hacc : ∀ r < s'.occrev, (r < s.occrev → (s.pc t).popping = some r) →
      r ∈ s'.returned ∨ r ∈ s'.missed ∨ p.popping = some r) : Tickets s' := by
  have hcase : ∀ t', t' = t ∧ p = s'.pc t' ∨ t' ≠ t ∧ s.pc t' = s'.pc t' := fun t' =>
    update_cases (congrFun hpc t').symm
  have hval : ∀ {t' v k}, (s.pc t').emplacing = some (v, k) → s'.emplaced[k]? = some v := by
    intro t' v k hk
    have hk := h.emplacing_value t' v k hk
    rwa [hl, List.getElem?_append_left (List.getElem?_eq_some_iff.1 hk).1]
  have hnew : ∀ {r}, p.popping = some r → ∃ t', (s'.pc t').popping = some r := fun hr =>
    ⟨t, by rw [hpc, update_self, hr]⟩
  exact {
    length_emplaced := by rw [hl, hocc, length_append, h.length_emplaced]
    emplacing_value := by
      intro t' v k hk
      obtain ⟨-, hp⟩ | ⟨-, hp⟩ := hcase t' <;> rw [← hp] at hk
      · exact (hemp v k hk).elim hval And.right
      · exact hval hk
    emplacing_inj := by
      intro t₁ t₂ v₁ v₂ k h₁ h₂
      rw [hpc] at h₁ h₂
      refine unique_update (P := fun p k => ∃ v, Pc.emplacing p = some (v, k))
        (fun i j k ⟨v, hi⟩ ⟨v', hj⟩ => h.emplacing_inj i j v v' k hi hj) ?_ t₁ t₂ k ⟨v₁, h₁⟩ ⟨v₂, h₂⟩
      rintro t' k hne ⟨v, hk⟩ ⟨v', hk'⟩
      obtain hk | ⟨hle, -⟩ := hemp v k hk
      · exact hne (h.emplacing_inj t' t v' v k hk' hk)
      · exact hle.not_gt (h.lt_occ hk')
    popping_lt := by
      intro t' r hr
      obtain ⟨-, hp⟩ | ⟨-, hp⟩ := hcase t' <;> rw [← hp] at hr
      · exact (hpop r hr).1
      · exact (h.popping_lt t' r hr).trans_le hrev
    popping_inj := by
      intro t₁ t₂ r h₁ h₂
      rw [hpc] at h₁ h₂
      refine unique_update (P := fun p r => Pc.popping p = some r) h.popping_inj ?_ t₁ t₂ r h₁ h₂
      intro t' r hne hr hr'
      obtain hr | hle := (hpop r hr).2.2
      · exact hne (h.popping_inj t' t r hr' hr)
      · exact hle.not_gt (h.popping_lt t' r hr')
    popping_not_returned := by
      intro t' r hr hmem
      obtain ⟨-, hp⟩ | ⟨hne, hp⟩ := hcase t' <;> rw [← hp] at hr
      · exact (hpop r hr).2.1 hmem
      · obtain hmem | hr' := hret r hmem
        · exact h.popping_not_returned t' r hr hmem
        · exact hne (h.popping_inj t' t r hr hr')
    returned_lt := fun r hr =>
      ((hret r hr).elim (h.returned_lt r) (h.popping_lt t r)).trans_le hrev
    returned_nodup := hnodup
    popOcc_terminating := by
      intro t' r hr
      rw [hopen]
      obtain ⟨-, hp⟩ | ⟨-, hp⟩ := hcase t' <;> rw [← hp] at hr
      · exact hterm r hr
      · exact h.popOcc_terminating t' r hr
    missed_terminating := by rwa [hopen]
    accounted := by
      intro r hr
      by_cases hr' : r < s.occrev
      · obtain hret | hmiss | ⟨t', ht'⟩ := h.accounted r hr'
        · exact .inl (hsub hret)
        · exact .inr (.inl (hsub' hmiss))
        · obtain ⟨rfl, -⟩ | ⟨-, hp⟩ := hcase t'
          · exact (hacc r hr fun _ => ht').imp_right (.imp_right hnew)
          · exact .inr (.inr ⟨t', hp ▸ ht'⟩)
      · exact (hacc r hr fun h => absurd h hr').imp_right (.imp_right hnew) }

variable {p₀ : Pc T}

/-- A step inside a call keeps its ticket, or drops it once the stamp is written. -/
theorem Tickets.move (h : Tickets s) {data : ℕ → T × Option ℕ} {cnt : ℕ} (hpc : s.pc t = p₀)
    (hemp : p.emplacing = p₀.emplacing ∨ p.emplacing = none) (hpop : p.popping = p₀.popping)
    (hterm : ∀ r, p = .popOcc r → s.terminating = true) :
    Tickets { s with pc := update s.pc t p, data := data, cnt := cnt } := by
  subst hpc
  refine h.goto rfl rfl (append_nil _).symm rfl (fun v k hk => .inl ?_) le_rfl (fun r hr => ?_)
    (fun _ => .inl) h.returned_nodup hterm h.missed_terminating (List.Subset.refl _)
    (List.Subset.refl _) fun r hr hold => .inr (.inr (hpop.trans (hold hr)))
  · obtain hemp | hemp := hemp
    · exact hemp.symm.trans hk
    · rw [hemp] at hk
      cases hk
  · rw [hpop] at hr
    exact ⟨h.popping_lt t r hr, h.popping_not_returned t r hr, .inl hr⟩

/-- A `pop` ends, and its ticket with a value in `popped` or without one in `missed`. -/
theorem Tickets.endPop (h : Tickets s) (hpop : (s.pc t).popping = some r) {popped : List (ℕ × T)}
    (hret : ∀ r' ∈ popped.map Prod.fst, r' ∈ s.returned ∨ r' = r) (hnodup : (popped.map Prod.fst).Nodup)
    (hmissed : ∀ r' ∈ missed, s.occ ≤ r' ∧ s.terminating = true)
    (hsub : s.returned ⊆ popped.map Prod.fst) (hsub' : s.missed ⊆ missed)
    (hend : r ∈ popped.map Prod.fst ∨ r ∈ missed) :
    Tickets { s.goto t .idle with popped := popped, missed := missed } := by
  refine h.goto rfl rfl (append_nil _).symm rfl nofun le_rfl nofun (fun r' hr' => ?_) hnodup nofun
    hmissed hsub hsub' fun r' hr' hold => ?_
  · refine (hret r' hr').imp_right ?_
    rintro rfl
    exact hpop
  · obtain rfl := Option.some.inj (hpop.symm.trans (hold hr'))
    exact hend.imp_right .inl

theorem Tickets.step (h : Tickets s) (hok : Orderly N s a) (hs : Trans N s a s') : Tickets s' := by
  cases hs with
  | beginEmplace t v hpc =>
    refine h.goto rfl rfl rfl rfl ?_ le_rfl nofun (fun _ => .inl) h.returned_nodup nofun (fun r hr => ?_)
      (List.Subset.refl _) (List.Subset.refl _) fun r hr hold => ?_
    · rintro _ _ ⟨⟩
      refine .inr ⟨le_rfl, ?_⟩
      rw [← h.length_emplaced, getElem?_concat_length]
    · exact absurd ((h.missed_terminating r hr).2.symm.trans hok) nofun
    · have hold := hold hr
      rw [hpc] at hold
      cases hold
  | beginPop t hpc =>
    refine h.goto rfl rfl (append_nil _).symm rfl nofun (le_succ _) ?_ (fun _ => .inl)
      h.returned_nodup nofun h.missed_terminating (List.Subset.refl _) (List.Subset.refl _)
      fun r hr hold => .inr (.inr ?_)
    · rintro _ ⟨⟩
      exact ⟨Nat.lt_succ_self _, fun hret => lt_irrefl _ (h.returned_lt _ hret), .inr le_rfl⟩
    · obtain hr | rfl := Nat.lt_succ_iff_lt_or_eq.1 hr
      · have hold := hold hr
        rw [hpc] at hold
        cases hold
      · rfl
  | close =>
    exact { h with
      popOcc_terminating := fun _ _ _ => rfl
      missed_terminating := fun r hr => ⟨(h.missed_terminating r hr).1, rfl⟩ }
  | spin t => exact h
  | pass t v k hpc | store t v k hpc => exact h.move hpc (.inl rfl) rfl nofun
  | stamp t v k hpc | count t hpc | hit t r hpc | miss t r hpc => exact h.move hpc (.inr rfl) rfl nofun
  | read t r hpc =>
    have hpop : (s.pc t).popping = some r := by rw [hpc]; rfl
    have hmap : (s.popped ++ [(r, (s.data (r % N)).1)]).map Prod.fst = s.returned ++ [r] := map_append
    refine h.endPop hpop ?_ ?_ h.missed_terminating ?_ (List.Subset.refl _) (.inl ?_) <;> rw [hmap]
    · exact fun r' hr' => (mem_append.1 hr').imp_right mem_singleton.1
    · exact nodup_append.2 ⟨h.returned_nodup, nodup_singleton r, fun a ha b hb hab =>
        h.popping_not_returned t r hpop (mem_singleton.1 hb ▸ hab ▸ ha)⟩
    · exact subset_append_left _ _
    · exact mem_append_right _ (mem_singleton_self r)
  | terminating t r hpc hterm => exact h.move hpc (.inr rfl) rfl fun _ _ => hterm
  | again t r hpc => exact hpc.elim (h.move · (.inr rfl) rfl nofun) (h.move · (.inr rfl) rfl nofun)
  | giveUp t r hpc hle =>
    refine h.endPop (by rw [hpc]; rfl) (fun _ => .inl) h.returned_nodup (fun r' hr' => ?_)
      (List.Subset.refl _) (subset_append_left _ _)
      (.inr (mem_append_right _ (mem_singleton_self r)))
    obtain hr' | hr' := mem_append.1 hr'
    · exact h.missed_terminating r' hr'
    · rw [mem_singleton.1 hr']
      exact ⟨hle, h.popOcc_terminating t r hpc⟩

theorem published_goto_iff (hp : p.emplacing = (s.pc t).emplacing) (k : ℕ) :
    (s.goto t p).Published k ↔ s.Published k := by
  have hpc : ∀ t', ((s.goto t p).pc t').emplacing = (s.pc t').emplacing := by
    intro t'
    by_cases ht : t' = t
    · simp [goto, ht, hp]
    · simp [goto, ht]
  simp only [Queue.Published, hpc]
  rfl

section

variable (h : Slots N s)
include h

theorem Slots.passed_goto (hpc : s.pc t = p₀)
    (hp₀ : ∀ v, p₀ ≠ .emplaceWait v k) (hk : k < s.occ) (hNk : N ≤ k)
    (hwait : ∀ t' v, (s.goto t p).pc t' ≠ .emplaceWait v k) : k - N ∈ s.returned :=
  h.passed_returned k hk hNk fun t' v hv => hwait t' v (pc_goto_of_pc hv (hpc ▸ hp₀ v))

/-- A step that writes no slot and pops nothing. -/
theorem Slots.move {occrev cnt : ℕ}
    (hpc : s.pc t = p₀) (hemp : p.emplacing = p₀.emplacing) (hstamp : ∀ v k, p ≠ .emplaceStamp v k)
    (hread : ∀ r, p = .popRead r → s.Published r)
    (hpass : ∀ v k, p₀ = .emplaceWait v k → N ≤ k → k - N ∈ s.returned) :
    Slots N { s with pc := update s.pc t p, occrev := occrev, cnt := cnt, missed := missed } := by
  subst hpc
  have hpub : ∀ k, (s.goto t p).Published k ↔ s.Published k := published_goto_iff hemp
  exact {
    returned_published := fun r hr => (hpub r).2 (h.returned_published r hr)
    popped_value := h.popped_value
    passed_returned := by
      intro k hk hNk hwait
      by_cases hold : ∃ v, s.pc t = .emplaceWait v k
      · obtain ⟨v, hv⟩ := hold
        exact hpass v k hv hNk
      · exact h.passed_goto rfl (not_exists.1 hold) hk hNk hwait
    stamping_first := fun t' v k hv => h.stamping_first t' v k (pc_of_pc_goto hv (hstamp v k)).2
    published_slot := fun k v hk => h.published_slot k v ((hpub k).1 hk)
    stamped_published := fun i k hk => (hpub k).2 (h.stamped_published i k hk)
    reading_published := by
      intro t' r hr
      refine (hpub r).2 ?_
      by_cases hp : p = .popRead r
      · exact hread r hp
      · exact h.reading_published t' r (pc_of_pc_goto hr hp).2 }

theorem Slots.beginEmplace (hpc : s.pc t = .idle) (hlen : s.emplaced.length = s.occ) :
    Slots N { s.goto t (.emplaceWait v s.occ) with
      occ := s.occ + 1, emplaced := s.emplaced ++ [v] } := by
  set s' : Queue Tid T := { s.goto t (.emplaceWait v s.occ) with
    occ := s.occ + 1, emplaced := s.emplaced ++ [v] } with hs'
  have hself : s'.pc t = .emplaceWait v s.occ := by simp [hs', goto]
  have hother : ∀ t', t' ≠ t → s'.pc t' = s.pc t' := fun t' ht => by simp [hs', goto, ht]
  have hpub : ∀ k, s'.Published k ↔ s.Published k := by
    intro k
    refine ⟨fun hk => ⟨?_, fun t' v' hv' => ?_⟩, fun hk => ⟨hk.1.trans (lt_succ_self _), ?_⟩⟩
    · have hne : k ≠ s.occ := fun heq => hk.2 t v (by rw [hself, heq]; rfl)
      have hlt : k < s.occ + 1 := hk.1
      omega
    · by_cases ht : t' = t
      · rw [ht, hpc] at hv'
        cases hv'
      · exact hk.2 t' v' (by rwa [hother t' ht])
    · intro t' v' hv'
      by_cases ht : t' = t
      · rw [ht, hself] at hv'
        cases hv'
        exact lt_irrefl _ hk.1
      · exact hk.2 t' v' (by rwa [← hother t' ht])
  have hval : ∀ k < s.occ, s'.emplaced[k]? = s.emplaced[k]? := fun k hk =>
    getElem?_append_left (by omega)
  exact {
    returned_published := fun r hr => (hpub r).2 (h.returned_published r hr)
    popped_value := by
      intro r x hr
      rw [hval r (h.returned_published r (mem_map_of_mem hr)).1]
      exact h.popped_value r x hr
    passed_returned := by
      intro k hk hNk hwait
      have hne : k ≠ s.occ := fun heq => hwait t v (by rw [hself, heq])
      have hlt : k < s.occ + 1 := hk
      exact h.passed_goto hpc nofun (by omega) hNk hwait
    stamping_first := fun t' v' k hv' => h.stamping_first t' v' k (pc_of_pc_goto hv' nofun).2
    published_slot := by
      intro k x hk hret hx
      rw [hpub] at hk
      rw [hval k hk.1] at hx
      exact h.published_slot k x hk hret hx
    stamped_published := fun i k hk => (hpub k).2 (h.stamped_published i k hk)
    reading_published := fun t' r hr => (hpub r).2 (h.reading_published t' r (pc_of_pc_goto hr nofun).2) }

section

variable (ht : Tickets s)
include ht

theorem Slots.store (hN : 0 < N) (hpc : s.pc t = .emplaceStore v k) :
    Slots N { s.goto t (.emplaceStamp v k) with
      data := update s.data (k % N) (v, (s.data (k % N)).2) } := by
  have hk : (s.pc t).emplacing = some (v, k) := by rw [hpc]; rfl
  have hpass := ht.ne_wait hk (by simp [hpc])
  have hpub : ∀ j, (s.goto t (.emplaceStamp v k)).Published j ↔ s.Published j :=
    published_goto_iff (by rw [hpc]; rfl)
  exact {
    returned_published := fun r hr => (hpub r).2 (h.returned_published r hr)
    popped_value := h.popped_value
    passed_returned := fun j => h.passed_goto hpc nofun
    stamping_first := by
      intro t' v' j hv'
      by_cases hsame : Pc.emplaceStamp v k = .emplaceStamp v' j
      · cases hsame
        simp
      -- Another thread about to stamp owns another slot.
      · obtain ⟨htt, hv'⟩ := pc_of_pc_goto hv' hsame
        have hj : (s.pc t').emplacing = some (v', j) := by rw [hv']; rfl
        have hne : j ≠ k := fun heq => htt (ht.emplacing_inj t' t v' v j hj (heq ▸ hk))
        have hslot := h.slot_free hN (ht.lt_occ hk) hpass (not_published hk) (ht.lt_occ hj)
          (ht.ne_wait hj (by simp [hv'])) (fun hret => not_published hj (h.returned_published j hret))
          hne
        simpa [hslot] using h.stamping_first t' v' j hv'
    published_slot := by
      intro j x hj hret hx
      have hj : s.Published j := (hpub j).1 hj
      have hne : j ≠ k := fun heq => not_published hk (heq ▸ hj)
      have hslot := h.slot_free hN (ht.lt_occ hk) hpass (not_published hk) hj.1 hj.ne_wait hret hne
      simpa [hslot] using h.published_slot j x hj hret hx
    stamped_published := by
      intro i j hj
      refine (hpub j).2 (h.stamped_published i j ?_)
      by_cases hi : i = k % N
      · simpa [hi] using hj
      · simpa [hi] using hj
    reading_published := fun t' r hr => (hpub r).2 (h.reading_published t' r (pc_of_pc_goto hr nofun).2) }

theorem Slots.stamp (hN : 0 < N) (hpc : s.pc t = .emplaceStamp v k) :
    Slots N { s.goto t .emplaceCount with
      data := update s.data (k % N) ((s.data (k % N)).1, some k) } := by
  have hk : (s.pc t).emplacing = some (v, k) := by rw [hpc]; rfl
  have hpass := ht.ne_wait hk (by simp [hpc])
  have hother : ∀ t', t' ≠ t → (s.goto t .emplaceCount).pc t' = s.pc t' := fun t' ht' => by
    simp [goto, ht']
  -- The stamp publishes ticket `k` and no other.
  have hpub : ∀ j, (s.goto t .emplaceCount).Published j ↔ s.Published j ∨ j = k := by
    intro j
    refine ⟨fun hj => or_iff_not_imp_right.2 fun hne => ⟨hj.1, fun t' v' hv' => ?_⟩, ?_⟩
    · by_cases htt : t' = t
      · rw [htt, hk] at hv'
        cases hv'
        exact hne rfl
      · exact hj.2 t' v' (by rwa [hother t' htt])
    · intro hj
      refine ⟨hj.elim (fun hj => hj.1) (fun heq => heq ▸ ht.lt_occ hk), fun t' v' hv' => ?_⟩
      by_cases htt : t' = t
      · simp [goto, htt, Pc.emplacing] at hv'
      · rw [hother t' htt] at hv'
        rcases hj with hj | rfl
        · exact hj.2 t' v' hv'
        · exact htt (ht.emplacing_inj t' t v' v j hv' hk)
  exact {
    returned_published := fun r hr => (hpub r).2 (.inl (h.returned_published r hr))
    popped_value := h.popped_value
    passed_returned := fun j => h.passed_goto hpc nofun
    stamping_first := by
      intro t' v' j hv'
      have hfirst := h.stamping_first t' v' j (pc_of_pc_goto hv' nofun).2
      by_cases hslot : j % N = k % N
      · simpa [hslot] using hfirst
      · simpa [hslot] using hfirst
    published_slot := by
      intro j x hj hret hx
      by_cases heq : j = k
      · have hv : s.emplaced[k]? = some x := heq ▸ hx
        rw [ht.emplacing_value t v k hk] at hv
        cases hv
        simp [heq, h.stamping_first t v k hpc]
      · have hj : s.Published j := ((hpub j).1 hj).resolve_right heq
        have hslot := h.slot_free hN (ht.lt_occ hk) hpass (not_published hk) hj.1 hj.ne_wait hret
          heq
        simpa [hslot] using h.published_slot j x hj hret hx
    stamped_published := by
      intro i j hj
      refine (hpub j).2 ?_
      by_cases hi : i = k % N
      · have : k = j := by simpa [hi] using hj
        exact .inr this.symm
      · exact .inl (h.stamped_published i j (by simpa [hi] using hj))
    reading_published := fun t' r hr =>
      (hpub r).2 (.inl (h.reading_published t' r (pc_of_pc_goto hr nofun).2)) }

theorem Slots.read (hpc : s.pc t = .popRead r) :
    Slots N { s.goto t .idle with popped := s.popped ++ [(r, (s.data (r % N)).1)] } := by
  -- Apart from what is popped, the step is a move.
  have hmove : Slots N (s.goto t .idle) := h.move hpc rfl nofun nofun nofun
  have hret : ∀ j, j ∈ (s.popped ++ [(r, (s.data (r % N)).1)]).map Prod.fst ↔
      j ∈ s.returned ∨ j = r := by simp
  exact { hmove with
    returned_published := by
      intro j hj
      rcases (hret j).1 hj with hj | rfl
      · exact hmove.returned_published j hj
      · exact (published_goto_iff (by rw [hpc]; rfl) j).2 (h.reading_published t j hpc)
    popped_value := by
      intro j x hj
      rcases mem_append.1 hj with hj | hj
      · exact h.popped_value j x hj
      · cases mem_singleton.1 hj
        exact h.read_value ht hpc
    passed_returned := fun j hj hNj hwait =>
      (hret _).2 (.inl (hmove.passed_returned j hj hNj hwait))
    published_slot := fun j x hj hnot =>
      hmove.published_slot j x hj fun hj => hnot ((hret j).2 (.inl hj)) }

theorem Slots.step (hN : 0 < N) (hok : Orderly N s a)
    (hs : Trans N s a s') : Slots N s' := by
  cases hs with
  | beginEmplace t v hpc => exact h.beginEmplace hpc ht.length_emplaced
  | close => exact { h with }
  | spin t => exact h
  | pass t v k hpc hlt =>
    refine h.move hpc rfl nofun nofun ?_
    rintro _ _ ⟨⟩ hNk
    exact hok v k hpc hNk hlt
  | store t v k hpc => exact h.store ht hN hpc
  | stamp t v k hpc => exact h.stamp ht hN hpc
  | hit t r hpc hstamp =>
    refine h.move hpc rfl nofun ?_ nofun
    rintro _ ⟨⟩
    exact h.stamped_published _ _ hstamp
  | read t r hpc => exact h.read ht hpc
  | beginPop t hpc | count t hpc | miss t r hpc | terminating t r hpc | giveUp t r hpc =>
    exact h.move hpc rfl nofun nofun nofun
  | again t r hpc => exact hpc.elim (h.move · rfl nofun nofun nofun) (h.move · rfl nofun nofun nofun)

end

end

/-- Both invariants hold in every state an orderly run reaches. -/
theorem inv_of_reach (hN : 0 < N)
    (h : Reach (step N) (Orderly N) (init junk : Queue Tid T) s) : Tickets s ∧ Slots N s := by
  refine h.invariant (I := fun s => Tickets s ∧ Slots N s) ⟨tickets_init junk, slots_init N junk⟩ ?_
  intro s a s' hinv hok hs
  have htrans := trans_of_step hs
  exact ⟨hinv.1.step hok htrans, hinv.2.step hinv.1 hN hok htrans⟩

end

/-! ## Delivery -/

variable {k : ℕ}

section

variable [DecidableEq Tid] {N : ℕ} {s : Queue Tid T}

/-- Thread `t` takes `n` steps and no other thread moves. -/
def runAlone (N n : ℕ) (s : Queue Tid T) (t : Tid) : Option (Queue Tid T) :=
  exec (step N) s (List.replicate n (.run t))

/-- Exactly-once delivery, in one state of a run. -/
structure Delivery (N : ℕ) (s : Queue Tid T) : Prop where
  /-- No ticket is popped twice. -/
  once : s.returned.Nodup
  /-- A `pop` returns the value emplaced under its own ticket. -/
  value : ∀ r v, (r, v) ∈ s.popped → s.emplaced[r]? = some v
  /-- A slot is written only after the `pop` of its previous value has returned. -/
  no_overwrite : ∀ t v k, s.pc t = .emplaceStore v k → N ≤ k → k - N ∈ s.returned
  /-- What is written stays in its slot until it is popped. -/
  intact : ∀ k v, s.Published k → k ∉ s.returned → s.emplaced[k]? = some v →
    s.data (k % N) = (v, some k)
  /-- A `pop` whose value is written returns it, whatever the others do. -/
  pop_returns : ∀ t r, (s.pc t).popping = some r → s.Published r →
    ∃ n ≤ 4, ∃ s', runAlone N n s t = some s' ∧ r ∈ s'.returned
  /-- An `emplace` whose slot is reserved by a `pop` finishes, whatever the others do. -/
  emplace_finishes : ∀ t v k, (s.pc t).emplacing = some (v, k) → k < s.occrev + N →
    ∃ n ≤ 3, ∃ s', runAlone N n s t = some s' ∧ s'.Published k
  /-- Once all calls have returned and there were as many `pop`s as `emplace`s, every value was
  returned. -/
  all : (∀ t, s.pc t = .idle) → s.occ ≤ s.occrev → ∀ k < s.occ, k ∈ s.returned

theorem runAlone_succ {n : ℕ} {s₁ s₂ : Queue Tid T} (h : runThread N s t = some s₁)
    (h' : runAlone N n s₁ t = some s₂) : runAlone N (n + 1) s t = some s₂ := by
  rwa [runAlone, replicate_succ, exec_cons, step, h]

/-- A `pop` that sees its stamp takes two more steps. -/
theorem runAlone_popTest {r : ℕ} (hpc : s.pc t = .popTest r) (hstamp : (s.data (r % N)).2 = some r) :
    ∃ s', runAlone N 2 s t = some s' ∧ r ∈ s'.returned := by
  have h₁ : runThread N s t = some (s.goto t (.popRead r)) := by simp [runThread, hpc, hstamp]
  have h₂ : runThread N (s.goto t (.popRead r)) t =
      some { (s.goto t (.popRead r)).goto t .idle with
        popped := s.popped ++ [(r, (s.data (r % N)).1)] } := by
    simp [runThread, goto]
  exact ⟨_, runAlone_succ h₁ (runAlone_succ h₂ rfl), by simp⟩

theorem pop_returns (ht : Tickets s) (h : Slots N s) {r : ℕ}
    (hpop : (s.pc t).popping = some r) (hpub : s.Published r) :
    ∃ n ≤ 4, ∃ s', runAlone N n s t = some s' ∧ r ∈ s'.returned := by
  have hlt : r < s.emplaced.length := by
    rw [ht.length_emplaced]
    exact hpub.1
  have hslot := h.published_slot r s.emplaced[r] hpub (ht.popping_not_returned t r hpop)
    (getElem?_eq_getElem hlt)
  have hstamp : (s.data (r % N)).2 = some r := by rw [hslot]
  -- From anywhere in the loop the thread comes back to the test.
  have htest : ∃ s', runAlone N 2 (s.goto t (.popTest r)) t = some s' ∧ r ∈ s'.returned :=
    runAlone_popTest (by simp [goto]) hstamp
  cases hpc : s.pc t <;> rw [hpc] at hpop <;> cases hpop
  case popTest r => exact ⟨2, by omega, runAlone_popTest hpc hstamp⟩
  case popRead r =>
    have h₁ : runThread N s t = some { s.goto t .idle with
        popped := s.popped ++ [(r, (s.data (r % N)).1)] } := by simp [runThread, hpc]
    exact ⟨1, by omega, _, runAlone_succ h₁ rfl, by simp⟩
  case popTerm r =>
    obtain ⟨s', hs', hret⟩ := htest
    by_cases hterm : s.terminating = true
    · have h₁ : runThread N s t = some (s.goto t (.popOcc r)) := by simp [runThread, hpc, hterm]
      have h₂ : runThread N (s.goto t (.popOcc r)) t = some (s.goto t (.popTest r)) := by
        simp [runThread, goto, hpub.1]
      exact ⟨4, by omega, s', runAlone_succ h₁ (runAlone_succ h₂ hs'), hret⟩
    · have h₁ : runThread N s t = some (s.goto t (.popTest r)) := by simp [runThread, hpc, hterm]
      exact ⟨3, by omega, s', runAlone_succ h₁ hs', hret⟩
  case popOcc r =>
    obtain ⟨s', hs', hret⟩ := htest
    have h₁ : runThread N s t = some (s.goto t (.popTest r)) := by simp [runThread, hpc, hpub.1]
    exact ⟨3, by omega, s', runAlone_succ h₁ hs', hret⟩

/-- Two steps of an `emplace` past its wait loop publish its ticket. -/
theorem emplace_finishes (ht : Tickets s) {v : T}
    (hemp : (s.pc t).emplacing = some (v, k)) (hlt : k < s.occrev + N) :
    ∃ n ≤ 3, ∃ s', runAlone N n s t = some s' ∧ s'.Published k := by
  -- The state in which the ticket is published, from the state before the stamp.
  have hdone : ∀ (p : Pc T) (data : ℕ → T × Option ℕ), p.emplacing = none →
      ({ s.goto t p with data := data } : Queue Tid T).Published k := by
    intro p data hp
    refine ⟨ht.lt_occ hemp, fun t' v' hv' => ?_⟩
    by_cases htt : t' = t
    · simp [goto, htt, hp] at hv'
    · have hv' : (s.pc t').emplacing = some (v', k) := by simpa [goto, htt] using hv'
      exact htt (ht.emplacing_inj t' t v' v k hv' hemp)
  have hstamp : ∀ data : ℕ → T × Option ℕ, ∃ s',
      runAlone N 1 { s.goto t (.emplaceStamp v k) with data := data } t = some s' ∧
        s'.Published k := by
    intro data
    have h₁ : runThread N { s.goto t (.emplaceStamp v k) with data := data } t =
        some { s.goto t .emplaceCount with
          data := update data (k % N) ((data (k % N)).1, some k) } := by
      simp [runThread, goto]
    exact ⟨_, runAlone_succ h₁ rfl, hdone _ _ rfl⟩
  have hstore : ∃ s', runAlone N 2 (s.goto t (.emplaceStore v k)) t = some s' ∧
      s'.Published k := by
    obtain ⟨s', hs', hpub⟩ := hstamp (update s.data (k % N) (v, (s.data (k % N)).2))
    have h₁ : runThread N (s.goto t (.emplaceStore v k)) t =
        some { s.goto t (.emplaceStamp v k) with
          data := update s.data (k % N) (v, (s.data (k % N)).2) } := by
      simp [runThread, goto]
    exact ⟨s', runAlone_succ h₁ hs', hpub⟩
  have hself : s.goto t (s.pc t) = s := by simp [goto]
  cases hpc : s.pc t <;> rw [hpc] at hemp hself <;> cases hemp
  case emplaceWait =>
    obtain ⟨s', hs', hpub⟩ := hstore
    have h₁ : runThread N s t = some (s.goto t (.emplaceStore v k)) := by
      simp [runThread, hpc, not_le.2 hlt]
    exact ⟨3, le_rfl, s', runAlone_succ h₁ hs', hpub⟩
  case emplaceStore => exact ⟨2, by omega, hself ▸ hstore⟩
  case emplaceStamp => exact ⟨1, by omega, hself ▸ hstamp s.data⟩

/-- **Exactly-once delivery.** In every state an orderly run reaches, for any number of threads
and any capacity. -/
theorem delivery (hN : 0 < N) {junk : T}
    (h : Reach (step N) (Orderly N) (init junk : Queue Tid T) s) : Delivery N s := by
  obtain ⟨ht, hslots⟩ := inv_of_reach hN h
  exact {
    once := ht.returned_nodup
    value := hslots.popped_value
    no_overwrite := by
      intro t v k hpc hNk
      have hk : (s.pc t).emplacing = some (v, k) := by rw [hpc]; rfl
      exact hslots.passed_returned k (ht.lt_occ hk) hNk (ht.ne_wait hk (by simp [hpc]))
    intact := hslots.published_slot
    pop_returns := fun t r => pop_returns ht hslots
    emplace_finishes := fun t v k => emplace_finishes ht
    all := by
      intro hidle hle k hk
      rcases ht.accounted k (by omega) with hret | hmiss | ⟨t, htpop⟩
      · exact hret
      · exact absurd (ht.missed_terminating k hmiss).1 (by omega)
      · rw [hidle t] at htpop
        cases htpop }

end

variable {N : ℕ}

/-- Two values go through a queue of one slot: the `pop` of the first has returned when the second
`emplace` leaves its wait loop. -/
theorem delivery_slot_reused : ∃ s, Reach (step 1) (Orderly 1) (init 0 : Queue Bool ℕ) s ∧
    s.popped = [(0, 7), (1, 8)] ∧ Delivery 1 s := by
  have run {s s' : Queue Bool ℕ} (t : Bool) (h : Reach (step 1) (Orderly 1) (init 0) s)
      (hok : Orderly 1 s (.run t)) (hs : runThread 1 s t = some s') :
      Reach (step 1) (Orderly 1) (init 0) s' := h.next (.run t) hok hs
  have h₁ : Reach (step 1) (Orderly 1) (init 0 : Queue Bool ℕ) _ :=
    .next (.emplace false 7) .init rfl rfl
  have h₂ := run false h₁ (by rintro _ _ ⟨⟩; decide) rfl
  have h₃ := run false (run false h₂ nofun rfl) nofun rfl
  have h₄ := run false h₃ nofun rfl
  have h₅ := run true (h₄.next (.pop true) trivial rfl) nofun rfl
  have h₆ := run true h₅ nofun rfl
  have h₇ := h₆.next (Action.emplace false 8) rfl rfl
  have h₈ := run false h₇ (by rintro _ _ ⟨⟩; decide) rfl
  have h₉ := run false (run false h₈ nofun rfl) nofun rfl
  have h₁₀ := run true (h₉.next (.pop true) trivial rfl) nofun rfl
  have h₁₁ := run true h₁₀ nofun rfl
  exact ⟨_, h₁₁, rfl, delivery (by decide) h₁₁⟩

/-! ## A slot overwritten under its reader -/

/-- All accesses of one `emplace` by the producer, thread `false`. -/
def emplaceCall (v : Bool) : List (Action Bool Bool) :=
  [.emplace false v, .run false, .run false, .run false, .run false]

/-- The queue after `k` finished `emplace`s. -/
def filled (k : ℕ) : Queue Bool Bool where
  occ := k
  occrev := 0
  cnt := k
  data i := (false, if i < k then some i else none)
  terminating := false
  pc _ := .idle
  emplaced := List.replicate k false
  popped := []
  missed := []

theorem exec_emplaceCall (hk : k < N) :
    exec (step N) (filled k) (emplaceCall false) = some (filled (k + 1)) := by
  have hwait : ¬ N ≤ k := by omega
  simp only [emplaceCall, exec_cons, exec_nil, step, runThread, filled, goto,
    Option.bind_some, update_self, zero_add, hwait, if_false, update_idem,
    mod_eq_of_lt hk, replicate_succ']
  congr 2
  · funext i
    by_cases hi : i = k
    · simp [hi]
    · have : i < k ↔ i < k + 1 := by omega
      simp [hi, this]
  · simp

theorem exec_fill (hk : k ≤ N) :
    exec (step N) (filled 0) (List.replicate k (emplaceCall false)).flatten = some (filled k) := by
  induction k with
  | zero => rfl
  | succ k ih =>
    rw [replicate_succ', flatten_concat, exec_append, ih (by omega), Option.bind_some,
      exec_emplaceCall hk]

/-- The consumer, thread `true`, has seen its stamp when the producer goes round the queue. -/
def overwrite : List (Action Bool Bool) :=
  [.pop true, .run true, .emplace false true, .run false, .run false, .run true]

theorem exists_overwrite (hN : 0 < N) : ∃ s, Reach (step N) Free (init false : Queue Bool Bool) s ∧
      s.popped = [(0, true)] ∧ s.emplaced[0]? = some false := by
  have hwait : ¬ 1 + N ≤ N := by omega
  obtain ⟨s, hs, hpopped, hemplaced⟩ : ∃ s, exec (step N) (filled N) overwrite = some s ∧
      s.popped = [(0, true)] ∧ s.emplaced = List.replicate N false ++ [true] := by
    simp [overwrite, step, runThread, filled, goto, hN, hwait]
  refine ⟨s, reach_of_exec (reach_of_exec .init (exec_fill le_rfl)) hs, hpopped, ?_⟩
  rw [hemplaced, getElem?_append_left (by simpa using hN)]
  simp [hN]

/-- **A value popped under another ticket.** With 2048 slots, the `pop` with ticket 0 returns the
value of ticket 2048. -/
theorem overwritten_before_read : ∃ s, Reach (step 2048) Free (init false : Queue Bool Bool) s ∧
    s.popped = [(0, true)] ∧ s.emplaced[0]? = some false :=
  exists_overwrite (by decide)

end Proteus.AsyncQueue
