import Mathlib.Algebra.Order.BigOperators.Group.Finset
import Proteus.Oltp.DeltaStore

/-!
# Safety of the one-shot garbage collection

A store may be reset when no transaction can be directed into it any more. The argument of the
collector is that every version in the store was written at or before the largest epoch of the
store, and that every transaction still to come or still running started after it.

**Registration** (`Registered`). The counter of a store is the number of its registrations. While a
collector holds it there are none, so that no epoch of the store changes.

**Times** (`Timed`). A worker's published time is the start time of its transaction, and a running
writer has raised the epoch of its store to that time.

**Versions** (`Stored`). Behind a record written at `w`, the first version was stored by the writer
of `w`, the next one by the writer of the first version's state, and so on. A reader follows the
chain only as long as these times are after its own (`Stored.not_mem_path`).

**Reads** (`Scan`). What a collector has read accounts for every started transaction it has passed.

The last point has one hole. A transaction that has drawn its start time and has not published it is
not seen, and may start before an epoch of the store (`reset_before_publish`). In runs without such
a read the collection is safe (`unreached_of_timely`).
-/

namespace Proteus.Oltp.DeltaGc

open Function Worker

variable {N : ℕ} {R : Type*} {c : Option DeltaId}

/-! ## Where a worker stands -/

def After.txn : After → Option DeltaTxn
  | register x | run x => some x
  | idle | collect _ => none

/-- The transaction of a worker that has drawn its start time and has not ended. -/
def Pc.txn : Pc N → Option DeltaTxn
  | idle | remove _ => none
  | drawn x | published x | register x | spin x | raiseEpoch x | updateEpoch x | running x => some x
  | leave _ k | gcTry _ k | gcMin _ k _ _ | gcEpoch _ k _ _ _ | gcReset _ k | gcRelease _ k => k.txn

/-- The store on which `execute` has registered the worker. -/
def Pc.held : Pc N → Option DeltaId
  | raiseEpoch x | running x =>
    if x.full = false ∧ x.read_only = false then some x.delta_version else none
  | remove d => some d
  | _ => none

/-- The store whose counter the worker holds as its collector. -/
def Pc.collects : Pc N → Option DeltaId
  | gcMin d _ _ _ | gcEpoch d _ _ _ _ | gcReset d _ | gcRelease d _ => some d
  | _ => none

/-- What the registration must be when the worker goes on. -/
def After.Placed (current : Option DeltaId) : After → Prop
  | register x => x.full = true ∧ current = none
  | run x => x.full = true ∧ x.read_only = true
  | idle | collect _ => True

/-- `current` fits the place of the worker in `executeFullQueue`, and `execute` registers no
read-only transaction. -/
def Worker.Placed (w : Worker N) : Prop :=
  match w.pc with
  | .register x | .spin x =>
    (x.full = true → w.current = none) ∧ (x.full = false → x.read_only = false)
  | .raiseEpoch x =>
    (x.full = true → w.current = some x.delta_version) ∧ (x.full = false → x.read_only = false)
  | .updateEpoch x => x.full = true ∧ w.current = some x.delta_version
  | .running x => x.full = true → x.read_only = false → w.current = some x.delta_version
  | .leave d k => w.current = some d ∧ k.Placed none
  | .gcTry _ k | .gcMin _ k _ _ | .gcEpoch _ k _ _ _ | .gcReset _ k | .gcRelease _ k =>
    k.Placed w.current
  | .idle | .drawn _ | .published _ | .remove _ => True

/-- How often the worker counts among the readers of a store. -/
def Worker.leases (w : Worker N) (d : DeltaId) : ℕ :=
  (if w.current = some d then 1 else 0) + if w.pc.held = some d then 1 else 0

attribute [local simp] leases

def State.leases (s : State N R) (d : DeltaId) : ℕ := ∑ t, (s.worker t).leases d

@[simp] theorem txn_resume (k : After) : (k.resume : Pc N).txn = k.txn := by
  rcases k with x | x | _ | _ | ⟨d, ds⟩ <;> rfl

/-- The branch `dispatch` takes. -/
inductive Dispatched (x : DeltaTxn) : Option DeltaId → Pc N → Prop
  | first (hf : x.full = true) : Dispatched x none (.register x)
  | detach (d : DeltaId) (hf : x.full = true) (hr : x.read_only = true) :
      Dispatched x (some d) (.leave d (.run x))
  | switch (d : DeltaId) (hf : x.full = true) : Dispatched x (some d) (.leave d (.register x))
  | same (hf : x.full = true) : Dispatched x (some x.delta_version) (.updateEpoch x)
  | readOnly (c : Option DeltaId) (hf : x.full = false) (hr : x.read_only = true) :
      Dispatched x c (.running x)
  | once (c : Option DeltaId) (hf : x.full = false) (hr : x.read_only = false) :
      Dispatched x c (.register x)

variable (x : DeltaTxn)

theorem dispatched (c : Option DeltaId) : Dispatched x c (dispatch x c : Pc N) := by
  unfold dispatch
  by_cases hf : x.full = true
  · rw [if_pos hf]
    cases c with
    | none => exact .first hf
    | some d =>
      dsimp only
      split_ifs with hr hd
      · exact .detach d hf hr
      · exact .switch d hf
      · rw [not_not.1 hd]
        exact .same hf
  · split_ifs with hr
    · exact .readOnly c (by simpa using hf) hr
    · exact .once c (by simpa using hf) (by simpa using hr)

@[simp] theorem txn_dispatch (c : Option DeltaId) : (dispatch x c : Pc N).txn = some x := by
  have h := dispatched (N := N) x c
  generalize (dispatch x c : Pc N) = pc at h ⊢
  cases h <;> rfl

@[simp] theorem txn_afterEnd : (afterEnd x : Pc N).txn = none := by
  unfold afterEnd
  split_ifs <;> rfl

@[simp] theorem collects_resume (k : After) : (k.resume : Pc N).collects = none := by
  rcases k with x | x | _ | _ | ⟨d, ds⟩ <;> rfl

@[simp] theorem collects_dispatch (c : Option DeltaId) : (dispatch x c : Pc N).collects = none := by
  have h := dispatched (N := N) x c
  generalize (dispatch x c : Pc N) = pc at h ⊢
  cases h <;> rfl

@[simp] theorem collects_afterEnd : (afterEnd x : Pc N).collects = none := by
  unfold afterEnd
  split_ifs <;> rfl

open Pc

variable {k : After}

theorem held_resume (h : k.Placed c) : (k.resume : Pc N).held = none := by
  rcases k with x | x | _ | _ | ⟨d, ds⟩ <;> try rfl
  simp [After.resume, held, h.1]

@[simp] theorem held_dispatch (c : Option DeltaId) : (dispatch x c : Pc N).held = none := by
  have h := dispatched (N := N) x c
  generalize (dispatch x c : Pc N) = pc at h ⊢
  cases h with
  | readOnly _ hf hr => simp [held, hr]
  | _ => rfl

theorem held_afterEnd : (afterEnd x : Pc N).held = (running x : Pc N).held := by
  unfold afterEnd
  split_ifs <;> simp_all [held, After.resume]

theorem placed_resume (h : k.Placed c) : (⟨k.resume, c⟩ : Worker N).Placed := by
  rcases k with x | x | _ | _ | ⟨d, ds⟩
  · exact ⟨fun _ => h.2, fun hf => absurd (h.1.symm.trans hf) (by decide)⟩
  · exact fun _ hr => absurd (h.2.symm.trans hr) (by decide)
  · trivial
  · trivial
  · trivial

theorem placed_dispatch (c : Option DeltaId) : (⟨dispatch x c, c⟩ : Worker N).Placed := by
  have h := dispatched (N := N) x c
  generalize (dispatch x c : Pc N) = pc at h ⊢
  cases h <;> simp_all [Worker.Placed, After.Placed]

theorem placed_afterEnd (c : Option DeltaId) : (⟨afterEnd x, c⟩ : Worker N).Placed := by
  unfold afterEnd
  split_ifs <;> trivial

/-! ## What a step can change -/

variable {s s' : State N R}

section

variable [DecidableEq R] {t t' : Fin N}

theorem worker_of_ne (hs : Trans s t s') (ht : t' ≠ t) : s'.worker t' = s.worker t' := by
  cases hs <;> first | rfl | exact update_of_ne ht _ _

/-- A step starts no transaction but the one it draws. -/
theorem txn_of_step (hs : Trans s t s') {x : DeltaTxn} (hx : (s'.worker t).pc.txn = some x) :
    (s.worker t).pc.txn = some x ∨ (s.worker t).pc = .idle ∧ x.start = s.gen := by
  cases hs
  case stay | insert | update => exact .inl hx
  all_goals simp only [State.setPc, State.setWorker, update_self] at hx
  case draw ro full hpc =>
    cases hx
    exact .inr ⟨hpc, rfl⟩
  case finish x hpc =>
    rw [txn_afterEnd] at hx
    cases hx
  case remove d hpc => split_ifs at hx <;> cases hx
  case epoch y e hpc => rcases hpc with ⟨hpc, -⟩ | ⟨hpc, -⟩ <;> exact .inl (hpc ▸ hx)
  case dispatch y hpc =>
    rw [txn_dispatch] at hx
    exact .inl (hpc ▸ hx)
  case leave d k hpc =>
    split_ifs at hx
    · exact .inl (hpc ▸ hx)
    · rw [txn_resume] at hx
      exact .inl (hpc ▸ hx)
  case decide d k m mx hpc => split_ifs at hx <;> exact .inl (hpc ▸ hx)
  case skip d k hpc | release d k hpc =>
    rw [txn_resume] at hx
    exact .inl (hpc ▸ hx)
  case publish hpc | wait hpc | retry hpc | readMin hpc | endMin hpc | readEpoch hpc | reset hpc =>
    exact .inl (hpc ▸ hx)
  case register hpc _ | lock hpc _ => exact .inl (hpc ▸ hx)

end

/-! ## Registration -/

/-- The counters of the stores are the numbers of their registrations, and a store that is being
collected has one collector and no registration. -/
structure Registered (s : State N R) : Prop where
  placed : ∀ t, (s.worker t).Placed
  count : ∀ d n, s.readers d = some n → n = s.leases d
  free : ∀ d, s.readers d = none → s.leases d = 0
  locked : ∀ t d, (s.worker t).pc.collects = some d → s.readers d = none
  single : ∀ t t' d, (s.worker t).pc.collects = some d → (s.worker t').pc.collects = some d → t = t'

variable {t : Fin N} {w : Worker N} {d : DeltaId}

section

theorem leases_update (hw : s'.worker = update s.worker t w) (d : DeltaId) :
    s'.leases d + (s.worker t).leases d = s.leases d + w.leases d := by
  unfold State.leases
  rw [hw]
  exact sum_update_add (Finset.mem_univ t) s.worker w fun _ w => w.leases d

theorem leases_eq (hw : s'.worker = update s.worker t w)
    (hl : w.leases d = (s.worker t).leases d) : s'.leases d = s.leases d := by
  have := leases_update hw d
  omega

section

variable (h : Registered s)
include h

theorem placed_update (hw : s'.worker = update s.worker t w)
    (hp : w.Placed) (t' : Fin N) : (s'.worker t').Placed := by
  rw [hw]
  by_cases ht : t' = t
  · subst ht
    simpa using hp
  · simpa [ht] using h.placed t'

/-- A worker moves without touching a counter. -/
theorem Registered.move (hw : s'.worker = update s.worker t w)
    (hr : s'.readers = s.readers) (hp : w.Placed) (hl : ∀ d, w.leases d = (s.worker t).leases d)
    (hc : ∀ d, w.pc.collects = some d → (s.worker t).pc.collects = some d) : Registered s' := by
  have hleases : ∀ d, s'.leases d = s.leases d := fun d => leases_eq hw (hl d)
  have hcollects : ∀ t' d, (s'.worker t').pc.collects = some d →
      (s.worker t').pc.collects = some d := by
    intro t' d hd
    rw [hw] at hd
    by_cases ht : t' = t
    · subst ht
      exact hc d (by simpa using hd)
    · simpa [ht] using hd
  refine ⟨placed_update h hw hp, fun d n => ?_, fun d => ?_, fun t' d hd => ?_, fun t₁ t₂ d h₁ h₂ => ?_⟩
  · rw [hr, hleases]
    exact h.count d n
  · rw [hr, hleases]
    exact h.free d
  · rw [hr]
    exact h.locked t' d (hcollects t' d hd)
  · exact h.single t₁ t₂ d (hcollects t₁ d h₁) (hcollects t₂ d h₂)

theorem Registered.setPc {pc : Pc N} (hw : s'.worker = (s.setPc t pc).worker)
    (hr : s'.readers = s.readers) (hp : (⟨pc, (s.worker t).current⟩ : Worker N).Placed)
    (hh : pc.held = (s.worker t).pc.held)
    (hc : ∀ d, pc.collects = some d → (s.worker t).pc.collects = some d) : Registered s' :=
  h.move hw hr hp (fun d => by simp only [leases, hh]) hc

/-- A worker moves and changes the counter of a store that no other worker collects. -/
theorem Registered.change {c : Option ℕ}
    (hw : s'.worker = update s.worker t w) (hr : s'.readers = update s.readers d c) (hp : w.Placed)
    (hl : c.getD 0 + (s.worker t).leases d = s.leases d + w.leases d)
    (hne : ∀ d' ≠ d, w.leases d' = (s.worker t).leases d')
    (hc : ∀ d', w.pc.collects = some d' → d' = d ∧ c = none)
    (hother : ∀ t' ≠ t, (s.worker t').pc.collects ≠ some d) : Registered s' := by
  have hleases : s'.leases d = c.getD 0 := by
    have := leases_update hw d
    omega
  have hcollects : ∀ t' d', (s'.worker t').pc.collects = some d' →
      t' = t ∧ d' = d ∧ c = none ∨ d' ≠ d ∧ (s.worker t').pc.collects = some d' := by
    intro t' d' hd
    rw [hw] at hd
    by_cases ht : t' = t
    · subst ht
      rw [update_self] at hd
      exact .inl ⟨rfl, hc d' hd⟩
    · rw [update_of_ne ht] at hd
      exact .inr ⟨fun hdd => hother t' ht (hdd ▸ hd), hd⟩
  refine ⟨placed_update h hw hp, fun d' n hn => ?_, fun d' hn => ?_, fun t' d' hd => ?_,
    fun t₁ t₂ d' h₁ h₂ => ?_⟩
  · obtain ⟨rfl, rfl⟩ | ⟨hd, hn⟩ := update_cases (hr ▸ hn)
    · exact hleases.symm
    · rw [leases_eq hw (hne d' hd)]
      exact h.count d' n hn
  · obtain ⟨rfl, rfl⟩ | ⟨hd, hn⟩ := update_cases (hr ▸ hn)
    · exact hleases
    · rw [leases_eq hw (hne d' hd)]
      exact h.free d' hn
  · rw [hr]
    obtain ⟨-, rfl, rfl⟩ | ⟨hd', hold⟩ := hcollects t' d' hd
    · exact update_self ..
    · rw [update_of_ne hd']
      exact h.locked t' d' hold
  · obtain ⟨rfl, rfl, -⟩ | ⟨hd, hold₁⟩ := hcollects t₁ d' h₁ <;>
      obtain ⟨rfl, hd', -⟩ | ⟨hd', hold₂⟩ := hcollects t₂ d' h₂
    · rfl
    · exact absurd rfl hd'
    · exact absurd hd' hd
    · exact h.single t₁ t₂ d' hold₁ hold₂

theorem Registered.not_collects {n : ℕ} (hn : s.readers d = some n)
    (t' : Fin N) : (s.worker t').pc.collects ≠ some d :=
  fun hd => nomatch hn.symm.trans (h.locked t' d hd)

/-- A worker registers or unregisters. -/
theorem Registered.recount {n n' : ℕ} (hw : s'.worker = update s.worker t w) (hn : s.readers d = some n)
    (hr : s'.readers = update s.readers d (some n')) (hp : w.Placed)
    (hl : n' + (s.worker t).leases d = n + w.leases d)
    (hne : ∀ d' ≠ d, w.leases d' = (s.worker t).leases d') (hc : w.pc.collects = none) : Registered s' :=
  h.change hw hr hp (h.count d n hn ▸ hl) hne (fun _ hd => nomatch hc.symm.trans hd)
    fun t' _ => h.not_collects hn t'

/-- A worker that is registered on a store is counted there. -/
theorem Registered.exists_count (hl : 0 < (s.worker t).leases d) : ∃ n, s.readers d = some (n + 1) := by
  have hle : (s.worker t).leases d ≤ s.leases d :=
    Finset.single_le_sum (f := fun t => (s.worker t).leases d) (fun _ _ => Nat.zero_le _)
      (Finset.mem_univ t)
  cases hr : s.readers d with
  | none =>
    have := h.free d hr
    omega
  | some n =>
    have := h.count d n hr
    exact ⟨n - 1, by rw [Nat.sub_add_cancel (by omega)]⟩

end

theorem fetch_sub_succ (n : ℕ) : fetch_sub (some (n + 1)) = (some n, decide (n = 0)) := by
  cases n <;> rfl

variable [DecidableEq R]

theorem Registered.step (h : Registered s) (hs : Trans s t s') : Registered s' := by
  have hplaced := h.placed t
  unfold Worker.Placed at hplaced
  cases hs with
  | stay => exact h
  | draw _ _ hpc | publish _ hpc =>
    exact h.setPc rfl rfl trivial (by rw [hpc]; rfl) nofun
  | dispatch x hpc =>
    exact h.setPc rfl rfl (placed_dispatch x _) (by rw [hpc, held_dispatch]; rfl) (by simp)
  | register x n hpc hr =>
    rw [hpc] at hplaced
    cases hf : x.full with
    | true =>
      have hnone := hplaced.1 hf
      refine h.recount rfl hr rfl
        ⟨fun _ => rfl, hplaced.2⟩ ?_ ?_ rfl
      · simp [hpc, hnone, held, hf]
      · intro d' hd
        simp [hpc, hnone, held, hf, hd.symm]
    | false =>
      have hro := hplaced.2 hf
      refine h.recount rfl hr rfl
        ⟨fun hc => absurd (hf.symm.trans hc) (by decide), hplaced.2⟩ ?_ ?_ rfl
      · simp [hpc, held, hf, hro]
        omega
      · intro d' hd
        simp [hpc, held, hf, hro, hd.symm]
  | wait x hpc | retry x hpc =>
    rw [hpc] at hplaced
    exact h.setPc rfl rfl hplaced (by rw [hpc]; rfl) nofun
  | epoch x e hpc =>
    rcases hpc with ⟨hpc, -⟩ | ⟨hpc, -⟩ <;> rw [hpc] at hplaced
    · exact h.setPc rfl rfl (fun hf _ => hplaced.1 hf) (by rw [hpc]; rfl) nofun
    · refine h.setPc rfl rfl (fun _ _ => hplaced.2) ?_ nofun
      rw [hpc]
      simp [held, hplaced.1]
  | insert | update => exact { h with }
  | finish x hpc =>
    exact h.setPc rfl rfl (placed_afterEnd x _) (by rw [hpc, held_afterEnd]) (by simp)
  | leave d k hpc =>
    rw [hpc] at hplaced
    obtain ⟨n, hn⟩ := h.exists_count (t := t) (d := d) (by simp [hplaced.1])
    rw [hn, fetch_sub_succ]
    split_ifs
    · refine h.recount rfl hn rfl hplaced.2 ?_ ?_ rfl
      · simp [hpc, hplaced.1, held]
      · intro d' hd
        simp [hpc, hplaced.1, held, hd.symm]
    · have hheld : (k.resume : Pc N).held = none := held_resume hplaced.2
      refine h.recount rfl hn rfl (placed_resume hplaced.2) ?_ ?_
        (collects_resume k)
      · simp [hpc, hplaced.1, hheld]
        simp [held]
      · intro d' hd
        simp [hpc, hplaced.1, hheld, hd.symm]
        simp [held]
  | remove d hpc =>
    obtain ⟨n, hn⟩ := h.exists_count (t := t) (d := d) (by simp [hpc, held])
    rw [hn, fetch_sub_succ]
    split_ifs
    all_goals
      refine h.recount rfl hn rfl trivial ?_ ?_ rfl
      · simp [hpc, held]
        omega
      · intro d' hd
        simp [hpc, held, hd.symm]
  | lock d k hpc hr =>
    rw [hpc] at hplaced
    refine h.change rfl rfl hplaced ?_
      (fun d' _ => by simp [hpc, held])
      (fun d' hd => ⟨(Option.some.inj hd).symm, rfl⟩) fun t' _ => h.not_collects hr t'
    rw [← h.count d 0 hr]
    simp [hpc, held]
  | skip d k hpc =>
    rw [hpc] at hplaced
    exact h.setPc rfl rfl (placed_resume hplaced) (by rw [hpc, held_resume hplaced]; rfl) (by simp)
  | readMin d k u todo m hpc | endMin d k m hpc | readEpoch d k u todo m mx hpc | reset d k hpc =>
    rw [hpc] at hplaced
    exact h.setPc rfl rfl hplaced (by rw [hpc]; rfl) (fun d hd => by rw [hpc]; exact hd)
  | decide d k m mx hpc =>
    rw [hpc] at hplaced
    split_ifs <;> exact h.setPc rfl rfl hplaced (by rw [hpc]; rfl) (fun d hd => by rw [hpc]; exact hd)
  | release d k hpc =>
    rw [hpc] at hplaced
    have hheld : (k.resume : Pc N).held = none := held_resume hplaced
    have hcollects : (s.worker t).pc.collects = some d := by rw [hpc]; rfl
    have hleases : ∀ d', (⟨k.resume, (s.worker t).current⟩ : Worker N).leases d' = (s.worker t).leases d' := by
      intro d'
      simp only [leases, hpc, hheld]
      rfl
    refine h.change rfl rfl (placed_resume hplaced) ?_ (fun d' _ => hleases d') (by simp)
      fun t' ht hd => ht (h.single t' t d hd hcollects)
    rw [hleases, h.free d (h.locked t d hcollects)]
    rfl

end

/-! ## Start times and epochs -/

/-- The times of one worker: its published time and its epochs belong to its transaction, and a
running writer has raised the epoch of its store. -/
structure OnTime (gen : ℕ) (w : Worker N) (min_active : Option ℕ) (epoch : DeltaId → ℕ) : Prop where
  epoch_lt : ∀ d, epoch d < gen
  start_lt : ∀ x, w.pc.txn = some x → x.start < gen
  own : ∀ x, w.pc.txn = some x → ∀ d, epoch d ≤ x.start
  published : ∀ x, w.pc.txn = some x → w.pc = .drawn x ∨ min_active = some x.start
  raised : ∀ x, w.pc = .running x → x.read_only = false → x.start ≤ epoch x.delta_version

def Timed (s : State N R) : Prop :=
  ∀ t, OnTime s.gen (s.worker t) (s.min_active t) fun d => s.max_active_epoch d t

variable {m : Option ℕ}

section

variable {e : DeltaId → ℕ}

theorem OnTime.mono {gen gen' : ℕ} (h : OnTime gen w m e)
    (hg : gen ≤ gen') : OnTime gen' w m e :=
  ⟨fun d => (h.epoch_lt d).trans_le hg, fun x hx => (h.start_lt x hx).trans_le hg, h.own,
    h.published, h.raised⟩

variable {x : DeltaTxn}

theorem OnTime.of_txn {gen : ℕ} (hx : w.pc.txn = some x)
    (he : ∀ d, e d ≤ x.start) (hlt : x.start < gen) (hpub : w.pc = .drawn x ∨ m = some x.start)
    (hrun : w.pc = .running x → x.start ≤ e x.delta_version) : OnTime gen w m e := by
  have heq : ∀ y, w.pc.txn = some y → x = y := fun y hy => Option.some.inj (hx.symm.trans hy)
  refine ⟨fun d => (he d).trans_lt hlt, fun y hy => ?_, fun y hy => ?_, fun y hy => ?_, fun y hy _ => ?_⟩
  · exact heq y hy ▸ hlt
  · exact heq y hy ▸ he
  · exact heq y hy ▸ hpub
  · obtain rfl := heq y (by rw [hy]; rfl)
    exact hrun hy

section

variable (h : Timed s) (hw : s'.worker = update s.worker t w)
include h hw

/-- Only worker `t` and its own entries change. -/
theorem Timed.move (hg : s.gen ≤ s'.gen) (hm : ∀ t' ≠ t, s'.min_active t' = s.min_active t')
    (he : ∀ t' ≠ t, ∀ d, s'.max_active_epoch d t' = s.max_active_epoch d t')
    (ht : OnTime s'.gen w (s'.min_active t) fun d => s'.max_active_epoch d t) : Timed s' := by
  intro t'
  by_cases htt : t' = t
  · subst htt
    rwa [hw, update_self]
  · rw [hw, update_of_ne htt, hm t' htt, funext (he t' htt)]
    exact (h t').mono hg

/-- A worker goes on without touching the times. -/
theorem Timed.setPc (hg : s'.gen = s.gen) (hm : s'.min_active = s.min_active)
    (he : s'.max_active_epoch = s.max_active_epoch)
    (htxn : ∀ x, w.pc.txn = some x → (s.worker t).pc.txn = some x)
    (hdrawn : ∀ x, (s.worker t).pc ≠ .drawn x) (hrun : ∀ x, w.pc = .running x → x.read_only = true) :
    Timed s' := by
  refine h.move hw hg.ge (fun _ _ => by rw [hm]) (fun _ _ _ => by rw [he]) ?_
  rw [hg, hm, he]
  refine ⟨(h t).epoch_lt, fun x hx => (h t).start_lt x (htxn x hx),
    fun x hx => (h t).own x (htxn x hx), fun x hx => ?_, fun x hx hro => ?_⟩
  · exact .inr (((h t).published x (htxn x hx)).resolve_left (hdrawn x))
  · exact absurd (hro.symm.trans (hrun x hx)) (by decide)

end

theorem resume_running (h : k.Placed c)
    (hk : (k.resume : Pc N) = .running x) : x.read_only = true := by
  rcases k with y | y | _ | _ | ⟨d, ds⟩ <;> cases hk
  exact h.2

theorem dispatch_running {y : DeltaTxn}
    (h : (dispatch x c : Pc N) = .running y) : y.read_only = true := by
  have hd := dispatched (N := N) x c
  rw [h] at hd
  cases hd
  assumption

variable [DecidableEq R]

theorem Timed.step (h : Timed s) (hreg : Registered s) (hs : Trans s t s') : Timed s' := by
  have hplaced := hreg.placed t
  unfold Worker.Placed at hplaced
  cases hs with
  | stay => exact h
  | draw ro full hpc =>
    exact h.move rfl (Nat.le_succ _) (fun _ _ => rfl) (fun _ _ _ => rfl)
      (.of_txn rfl (fun d => ((h t).epoch_lt d).le) (Nat.lt_succ_self _) (.inl rfl) nofun)
  | publish x hpc =>
    have htxn : (s.worker t).pc.txn = some x := by rw [hpc]; rfl
    exact h.move rfl le_rfl (fun t' ht => update_of_ne ht _ _) (fun _ _ _ => rfl)
      (.of_txn rfl ((h t).own x htxn) ((h t).start_lt x htxn) (.inr (update_self _ _ _)) nofun)
  | dispatch x hpc =>
    refine h.setPc rfl rfl rfl rfl (fun y hy => ?_) (by simp [hpc]) fun y hy => dispatch_running hy
    rw [hpc]
    exact (txn_dispatch x _).symm.trans hy
  | register x n hpc hr | wait x hpc | retry x hpc | lock d k hpc hr | readMin d k u todo m hpc
  | endMin d k m hpc | readEpoch d k u todo m mx hpc | reset d k hpc =>
    exact h.setPc rfl rfl rfl rfl (by simp [hpc, txn]) (by simp [hpc]) (by simp)
  | epoch x e hpc =>
    have htxn : (s.worker t).pc.txn = some x := by
      rcases hpc with ⟨hpc, -⟩ | ⟨hpc, -⟩ <;> rw [hpc] <;> rfl
    have hpub : s.min_active t = some x.start := by
      refine ((h t).published x htxn).resolve_left ?_
      rcases hpc with ⟨hpc, -⟩ | ⟨hpc, -⟩ <;> simp [hpc]
    -- the worker's epochs are not above its start time, so that either way sets it to that time
    have he : e = x.start := by
      rcases hpc with ⟨-, he⟩ | ⟨-, he⟩
      · exact he.trans (max_eq_right ((h t).own x htxn _))
      · exact he
    have hval : ∀ d, update s.max_active_epoch x.delta_version
        (update (s.max_active_epoch x.delta_version) t e) d t ≤ x.start := by
      intro d
      by_cases hd : d = x.delta_version
      · subst hd
        simp [he]
      · simpa [hd] using (h t).own x htxn d
    refine h.move rfl le_rfl (fun _ _ => rfl) (fun t' ht d => ?_)
      (.of_txn rfl hval ((h t).start_lt x htxn) (.inr hpub) fun _ => by simp [he])
    by_cases hd : d = x.delta_version
    · subst hd
      simp [ht]
    · simp [hd]
  | insert | update => exact h
  | finish x hpc =>
    refine h.move rfl le_rfl (fun t' ht => update_of_ne ht _ _) (fun _ _ _ => rfl) ?_
    have hnone : ∀ y, (afterEnd x : Pc N).txn ≠ some y := by simp
    refine ⟨(h t).epoch_lt, fun y hy => absurd hy (hnone y), fun y hy => absurd hy (hnone y),
      fun y hy => absurd hy (hnone y), fun y hy => ?_⟩
    have hy' : (afterEnd x : Pc N) = .running y := hy
    exact absurd (by rw [hy']; rfl) (hnone y)
  | leave d k hpc =>
    rw [hpc] at hplaced
    refine h.setPc rfl rfl rfl rfl (fun y hy => ?_) (by simp [hpc]) fun y hy => ?_
    · rw [hpc]
      split_ifs at hy
      · exact hy
      · exact (txn_resume k).symm.trans hy
    · dsimp only at hy
      split_ifs at hy
      exact resume_running hplaced.2 hy
  | remove d hpc =>
    refine h.setPc rfl rfl rfl rfl (fun y hy => ?_) (by simp [hpc]) fun y hy => ?_
    · dsimp only at hy
      split_ifs at hy <;> cases hy
    · dsimp only at hy
      split_ifs at hy
  | skip d k hpc | release d k hpc =>
    rw [hpc] at hplaced
    refine h.setPc rfl rfl rfl rfl (fun y hy => ?_) (by simp [hpc])
      fun y hy => resume_running hplaced hy
    rw [hpc]
    exact (txn_resume k).symm.trans hy
  | decide d k m mx hpc =>
    split_ifs <;> exact h.setPc rfl rfl rfl rfl (by simp [hpc, txn]) (by simp [hpc]) (by simp)

end

/-! ## Versions -/

/-- The versions behind a record last written at `w`: the writer of each version has raised an epoch
of its store to its time, unless the store has been reset since. -/
def Chain (tag : DeltaId → ℕ) (epoch : DeltaId → Fin N → ℕ) : ℕ → List DeltaVersion → Prop
  | _, [] => True
  | w, v :: vs => (v.tag ≤ tag v.delta ∧ (v.tag = tag v.delta → ∃ u, w ≤ epoch v.delta u)) ∧
      Chain tag epoch v.t_min vs

/-- The tags fit in a pointer, and the versions of every record are accounted for. -/
structure Stored (tag : DeltaId → ℕ) (epoch : DeltaId → Fin N → ℕ)
    (record : R → Option VersionedRecord) : Prop where
  tag_pos : ∀ d, 1 ≤ tag d
  tag_lt : ∀ d, tag d < 2 ^ 20
  chain : ∀ r rec, record r = some rec → Chain tag epoch rec.t_min rec.delta_list

variable {rec : VersionedRecord} {start : ℕ}

section

variable {tag tag' : DeltaId → ℕ} {epoch epoch' : DeltaId → Fin N → ℕ}
  {record : R → Option VersionedRecord} {vs : List DeltaVersion} {w : ℕ}

theorem Chain.mono (htag : ∀ d, tag d ≤ tag' d) (hepoch : ∀ d u, epoch d u ≤ epoch' d u)
    (h : Chain tag epoch w vs) : Chain tag' epoch' w vs := by
  induction vs generalizing w with
  | nil => trivial
  | cons v vs ih =>
    obtain ⟨⟨hle, hw⟩, hrest⟩ := h
    refine ⟨⟨hle.trans (htag v.delta), fun he => ?_⟩, ih hrest⟩
    obtain ⟨u, hu⟩ := hw (le_antisymm hle (he ▸ htag v.delta))
    exact ⟨u, hu.trans (hepoch v.delta u)⟩

section

variable (h : Stored tag epoch record)
include h

theorem Stored.tagBits_eq (d : DeltaId) : tagBits (tag d) = tag d :=
  Nat.mod_eq_of_lt (h.tag_lt d)

theorem Stored.mono (htag : ∀ d, tag d ≤ tag' d)
    (hlt : ∀ d, tag' d < 2 ^ 20) (hepoch : ∀ d u, epoch d u ≤ epoch' d u) : Stored tag' epoch' record :=
  ⟨fun d => (h.tag_pos d).trans (htag d), hlt, fun r rec hr => (h.chain r rec hr).mono htag hepoch⟩

theorem Stored.write [DecidableEq R] {r : R}
    (hrec : Chain tag epoch rec.t_min rec.delta_list) : Stored tag epoch (update record r (some rec)) := by
  refine ⟨h.tag_pos, h.tag_lt, fun r' rec' hr => ?_⟩
  by_cases hrr : r' = r
  · subst hrr
    obtain rfl : rec = rec' := by simpa using hr
    exact hrec
  · exact h.chain r' rec' (by simpa [hrr] using hr)

end

theorem t_min_le (time : ℕ) : t_min time ≤ time := Nat.mod_le _ _

theorem Stored.chain_push (h : Stored tag epoch record)
    (hrec : Chain tag epoch rec.t_min rec.delta_list) {u : Fin N} (hu : start ≤ epoch d u) :
    Chain tag epoch (rec.push tag d start).t_min (rec.push tag d start).delta_list := by
  refine ⟨⟨(h.tagBits_eq d).le, fun _ => ⟨u, (t_min_le start).trans hu⟩⟩, ?_⟩
  split_ifs
  · exact hrec
  · trivial

theorem lt_of_not_readable {tmin : ℕ} {ts : TxnTs} (h : is_readable tmin ts = false) :
    ts.txn_start_time < tmin := by
  simp only [is_readable, Bool.or_eq_false_iff, decide_eq_false_iff_not, not_le] at h
  exact h.1

/-- A reader that started after every epoch of a store is not directed to it. -/
theorem Stored.not_mem_path (h : Stored tag epoch record) {ts : TxnTs}
    (hts : ∀ u, epoch d u < ts.txn_start_time) (hw : ts.txn_start_time < w)
    (hc : Chain tag epoch w vs) : d ∉ get_readable_ver_path tag ts vs := by
  induction vs generalizing w with
  | nil =>
    have hpos := h.tag_pos 0
    have hnull : isValid tag [] = false := by
      simp only [isValid, h.tagBits_eq, beq_eq_false_iff_ne]
      omega
    simp [get_readable_ver_path, hnull]
  | cons v vs ih =>
    obtain ⟨⟨-, hv⟩, hrest⟩ := hc
    rw [get_readable_ver_path]
    by_cases hvalid : isValid tag (v :: vs) = true
    · rw [if_pos hvalid]
      -- the writer of a version in the store is not after the reader
      have hd : d ≠ v.delta := fun hd => by
        simp only [isValid, h.tagBits_eq, beq_iff_eq] at hvalid
        obtain ⟨u, hu⟩ := hv hvalid.symm
        have := hts u
        rw [hd] at this
        omega
      cases hread : is_readable v.t_min ts with
      | true => simpa using hd
      | false => simpa [hd] using ih (lt_of_not_readable hread) hrest
    · rw [if_neg hvalid]
      simp

end

/-! ## The collector's reads -/

/-- Every epoch of the store is before `start`. -/
def Below (s : State N R) (d : DeltaId) (start : ℕ) : Prop := ∀ u, s.max_active_epoch d u < start

/-- The minimum accounts for this start time, or the time cannot reach into the store. -/
def Cleared (s : State N R) (d : DeltaId) (m : Option ℕ) (start : ℕ) : Prop :=
  (∃ m₀, m = some m₀ ∧ m₀ ≤ start) ∨ Below s d start

/-- What a collector knows of the transactions that have started and not ended. -/
def Scan (s : State N R) : Pc N → Prop
  | .gcMin d _ todo m => ∀ t x, (s.worker t).pc.txn = some x → t ∈ todo ∨ Cleared s d m x.start
  | .gcEpoch d _ todo m mx => (∀ t x, (s.worker t).pc.txn = some x → Cleared s d m x.start) ∧
      ∀ u, u ∈ todo ∨ s.max_active_epoch d u ≤ mx
  | .gcReset d _ => ∀ t x, (s.worker t).pc.txn = some x → Below s d x.start
  | _ => True

section

variable {pc : Pc N}

/-- Transactions that start or end meanwhile do not disturb a collector, as long as the epochs of
its store stay. -/
theorem Scan.mono (h : Scan s pc)
    (he : ∀ d, pc.collects = some d → s'.max_active_epoch d = s.max_active_epoch d)
    (htxn : ∀ t x, (s'.worker t).pc.txn = some x →
      (s.worker t).pc.txn = some x ∨ ∀ d, Below s d x.start) : Scan s' pc := by
  have hbelow : ∀ d, pc.collects = some d → ∀ start, Below s d start → Below s' d start := by
    intro d hd start hb u
    rw [he d hd]
    exact hb u
  cases pc with
  | gcMin d k todo m =>
    intro t x hx
    rcases htxn t x hx with hold | hnew
    · exact (h t x hold).imp_right (Or.imp_right (hbelow d rfl x.start))
    · exact .inr (.inr (hbelow d rfl x.start (hnew d)))
  | gcEpoch d k todo m mx =>
    refine ⟨fun t x hx => ?_, fun u => ?_⟩
    · rcases htxn t x hx with hold | hnew
      · exact (h.1 t x hold).imp_right (hbelow d rfl x.start)
      · exact .inr (hbelow d rfl x.start (hnew d))
    · rw [he d rfl]
      exact h.2 u
  | gcReset d k =>
    intro t x hx
    rcases htxn t x hx with hold | hnew
    · exact hbelow d rfl x.start (h t x hold)
    · exact hbelow d rfl x.start (hnew d)
  | _ => trivial

theorem scan_of_collects (h : pc.collects = none) : Scan s pc := by
  cases pc <;> trivial

/-- A collector has read worker `u`, which was not between the draw and the publication of a time
that reaches into the store. -/
theorem cleared_minActive (x : Option ℕ)
    (h : Cleared s d m start) : Cleared s d (minActive m x) start := by
  refine h.imp_left fun ⟨m₀, hm, hle⟩ => ?_
  subst hm
  cases x with
  | none => exact ⟨m₀, rfl, hle⟩
  | some x =>
    simp only [minActive]
    split_ifs with hx
    · exact ⟨x, rfl, by omega⟩
    · exact ⟨m₀, rfl, hle⟩

theorem cleared_of_read (m : Option ℕ) (start : ℕ) : Cleared s d (minActive m (some start)) start := by
  refine .inl ?_
  cases m with
  | none => exact ⟨start, rfl, le_rfl⟩
  | some m₀ =>
    simp only [minActive]
    split_ifs with hx
    · exact ⟨start, rfl, le_rfl⟩
    · exact ⟨m₀, rfl, by omega⟩

theorem below_of_cleared {mx : ℕ} (h : Cleared s d m start)
    (habove : above m mx = true) (hmx : ∀ u, s.max_active_epoch d u ≤ mx) : Below s d start := by
  rcases h with ⟨m₀, rfl, hle⟩ | hb
  · intro u
    have := hmx u
    have hlt : mx < m₀ := by simpa [above] using habove
    omega
  · exact hb

end

/-! ## Guarded runs -/

/-- The condition on a run: when a collector reads the published time of a worker that has drawn a
start time and not published it yet, that time is after every epoch of the store; and no store is
reset so often that its tag outgrows the 20 bits of a pointer. -/
def Timely (s : State N R) (a : Fin N × Move R) : Prop :=
  match (s.worker a.1).pc with
  | .gcMin d _ (u :: _) _ => ∀ x, (s.worker u).pc = .drawn x → Below s d x.start
  | .gcReset d _ => s.tag d + 1 < 2 ^ 20
  | _ => True

/-- The invariant of guarded runs. -/
structure Inv (s : State N R) : Prop where
  registered : Registered s
  timed : Timed s
  stored : Stored s.tag s.max_active_epoch s.record
  scanned : ∀ t, Scan s (s.worker t).pc

section

theorem inv_init : Inv (init : State N R) where
  registered := by
    refine ⟨fun _ => trivial, fun d n hn => ?_, nofun, nofun, nofun⟩
    obtain rfl : 0 = n := Option.some.inj hn
    exact (Finset.sum_eq_zero fun t _ => by simp [init, held]).symm
  timed _ := ⟨fun _ => Nat.one_pos, nofun, nofun, nofun, nofun⟩
  stored := ⟨fun _ => le_rfl, fun _ => (by simp [init]), nofun⟩
  scanned _ := trivial

variable [DecidableEq R]

section

variable (h : Inv s)
include h

theorem Inv.stored_step (m : Move R) (hok : Timely s (t, m)) (hs : Trans s t s') :
    Stored s'.tag s'.max_active_epoch s'.record := by
  have hst := h.stored
  cases hs with
  | epoch x e hpc =>
    refine hst.mono (fun _ => le_rfl) hst.tag_lt fun d u => ?_
    have htxn : (s.worker t).pc.txn = some x := by
      rcases hpc with ⟨hpc, -⟩ | ⟨hpc, -⟩ <;> rw [hpc] <;> rfl
    have hle : s.max_active_epoch x.delta_version t ≤ e := by
      rcases hpc with ⟨-, rfl⟩ | ⟨-, rfl⟩
      · exact le_max_left _ _
      · exact (h.timed t).own x htxn _
    by_cases hd : d = x.delta_version
    · subst hd
      by_cases hu : u = t
      · subst hu
        simpa using hle
      · simp [hu]
    · simp [hd]
  | insert x r hpc hro => exact hst.write trivial
  | update x r rec hpc hro hrec =>
    exact hst.write (hst.chain_push (hst.chain r rec hrec) ((h.timed t).raised x hpc hro))
  | reset d k hpc =>
    simp only [Timely, hpc] at hok
    refine hst.mono (fun d' => ?_) (fun d' => ?_) fun _ _ => le_rfl
    · by_cases hd : d' = d
      · subst hd
        simp
      · simp [hd]
    · by_cases hd : d' = d
      · subst hd
        simpa using hok
      · simpa [hd] using hst.tag_lt d'
  | _ => exact hst

/-- A transaction that a step starts is after all epochs. -/
theorem Inv.txn_step (hs : Trans s t s') (t' : Fin N) (x : DeltaTxn)
    (hx : (s'.worker t').pc.txn = some x) : (s.worker t').pc.txn = some x ∨ ∀ d, Below s d x.start := by
  by_cases ht : t' = t
  · subst ht
    refine (txn_of_step hs hx).imp_right fun hnew d u => ?_
    rw [hnew.2]
    exact (h.timed u).epoch_lt d
  · rw [worker_of_ne hs ht] at hx
    exact .inl hx

/-- The epochs of a store that is being collected stay: the worker that would change one is
registered on the store. -/
theorem Inv.epoch_step (hs : Trans s t s') {t' : Fin N} {d : DeltaId}
    (hd : (s.worker t').pc.collects = some d) : s'.max_active_epoch d = s.max_active_epoch d := by
  cases hs with
  | epoch x e hpc =>
    have hlease : 0 < (s.worker t).leases x.delta_version := by
      have hplaced := h.registered.placed t
      unfold Worker.Placed at hplaced
      rcases hpc with ⟨hpc, -⟩ | ⟨hpc, -⟩ <;> rw [hpc] at hplaced
      · cases hf : x.full with
        | true => simp [hplaced.1 hf]
        | false => simp [hpc, held, hf, hplaced.2 hf]
      · simp [hplaced.2]
    obtain ⟨n, hn⟩ := h.registered.exists_count hlease
    have hne : d ≠ x.delta_version := fun hc => by
      have hlock := h.registered.locked t' d hd
      rw [hc, hn] at hlock
      cases hlock
    exact update_of_ne hne _ _
  | _ => rfl

/-- What the collector's own step adds to what it knows. -/
theorem Inv.scan_own (m : Move R) (hok : Timely s (t, m)) (hs : Trans s t s') :
    Scan s' (s'.worker t).pc := by
  have htimed := h.timed.step h.registered hs
  have hself : ∀ d, (s.worker t).pc.collects = some d →
      s'.max_active_epoch d = s.max_active_epoch d := fun d hd => h.epoch_step hs hd
  have hscan : Scan s' (s.worker t).pc := (h.scanned t).mono hself (h.txn_step hs)
  have hne := fun u (hu : u ≠ t) => worker_of_ne hs hu
  cases hs
  case stay | insert | update => exact hscan
  all_goals simp only [State.setPc, State.setWorker, update_self]
  case readMin d k u todo m hpc =>
    simp only [Timely, hpc] at hok
    rw [hpc] at hscan
    intro t' x hx
    rcases hscan t' x hx with hmem | hclear
    · rcases List.mem_cons.1 hmem with rfl | hmem
      · refine .inr ?_
        rcases (htimed t').published x hx with hdrawn | hpub
        · by_cases ht : t' = t
          · subst ht
            simp [State.setPc, State.setWorker] at hdrawn
          · rw [hne t' ht] at hdrawn
            exact .inr (hok x hdrawn)
        · have hpub' : s.min_active t' = some x.start := hpub
          rw [hpub']
          exact cleared_of_read m x.start
      · exact .inl hmem
    · exact .inr (cleared_minActive _ hclear)
  case endMin d k m hpc =>
    rw [hpc] at hscan
    refine ⟨fun t' x hx => (hscan t' x hx).resolve_left List.not_mem_nil, fun u => ?_⟩
    exact .inl (List.mem_finRange u)
  case readEpoch d k u todo m mx hpc =>
    rw [hpc] at hscan
    refine ⟨hscan.1, fun u' => ?_⟩
    rcases hscan.2 u' with hmem | hle
    · rcases List.mem_cons.1 hmem with rfl | hmem
      · exact .inr (le_max_right _ _)
      · exact .inl hmem
    · exact .inr (hle.trans (le_max_left _ _))
  case decide d k m mx hpc =>
    rw [hpc] at hscan
    split_ifs at hscan ⊢ with habove
    · intro t' x hx
      exact below_of_cleared (hscan.1 t' x hx) habove fun u =>
        (hscan.2 u).resolve_left List.not_mem_nil
    · trivial
  case lock d k hpc hr => exact fun t' x _ => .inl (List.mem_finRange t')
  case leave d k hpc =>
    split_ifs
    · trivial
    · exact scan_of_collects (collects_resume k)
  case remove d hpc => split_ifs <;> trivial
  case dispatch x hpc => exact scan_of_collects (collects_dispatch x _)
  case finish x hpc => exact scan_of_collects (collects_afterEnd x)
  case skip d k hpc | release d k hpc => exact scan_of_collects (collects_resume k)
  case draw | publish | register | wait | retry | epoch | reset => trivial

theorem Inv.scan_step (m : Move R) (hok : Timely s (t, m)) (hs : Trans s t s')
    (t' : Fin N) : Scan s' (s'.worker t').pc := by
  by_cases ht : t' = t
  · subst ht
    exact h.scan_own m hok hs
  · rw [worker_of_ne hs ht]
    exact (h.scanned t').mono (fun d hd => h.epoch_step hs hd) (h.txn_step hs)

theorem Inv.step {m : Move R} (hok : Timely s (t, m)) (hs : step s (t, m) = some s') : Inv s' := by
  have htrans := trans_of_step hs
  exact ⟨h.registered.step htrans, h.timed.step h.registered htrans, h.stored_step m hok htrans,
    h.scan_step m hok htrans⟩

end

/-- No transaction that has drawn its start time and has not ended is directed to the store. -/
def Unreached (s : State N R) (d : DeltaId) : Prop :=
  ∀ t x, (s.worker t).pc.txn = some x → ∀ r rec, s.record r = some rec →
    d ∉ rec.directed s.tag x.ts

/-- In every run whose steps are all timely, a store that is about to be reset is out of reach of
every transaction that has drawn its start time and has not ended. -/
theorem unreached_of_timely (h : Reach step Timely (init : State N R) s) {d : DeltaId} {k : After}
    (hpc : (s.worker t).pc = .gcReset d k) : Unreached s d := by
  have hinv : Inv s := h.invariant inv_init fun s a s' hs hok hstep => Inv.step hs hok hstep
  intro t' x hx r rec hr
  have hscan := hinv.scanned t
  rw [hpc] at hscan
  unfold VersionedRecord.directed
  split_ifs with hread
  · simp
  · exact hinv.stored.not_mem_path (hscan t' x hx) (lt_of_not_readable (by simpa using hread))
      (hinv.stored.chain r rec hr)

/-- A move of worker 1. -/
def go (m : Move Unit) : Fin 2 × Move Unit := (1, m)

/-- Worker 1 inserts a record at time 1, updates it at time 2 and leaves store 0 with a reader of time 4;
it finds no published time of worker 0, which has drawn the time 3, and resets the store with the version
of time 1 in it. -/
theorem unreached_of_timely_open_reader : ∃ s : State 2 Unit, Reach step Timely init s ∧
    (s.worker 1).pc = .gcReset 0 (.run ⟨4, true, true⟩) ∧ (s.worker 0).pc = .drawn ⟨3, true, true⟩ ∧
      s.record () = some ⟨2, [⟨1, 0, 1⟩]⟩ ∧ Unreached s 0 := by
  have h₁ : Reach step Timely (init : State 2 Unit) _ :=
    .next (go (.draw false true)) .init trivial rfl
  have h₂ := ((h₁.next (go .next) trivial rfl).next (go .next) trivial rfl).next (go .next) trivial rfl
  have h₃ := ((h₂.next (go .next) trivial rfl).next (go (.insert ())) trivial rfl).next (go .finish) trivial rfl
  have h₄ := ((h₃.next (go (.draw false true)) trivial rfl).next (go .next) trivial rfl).next (go .next) trivial rfl
  have h₅ := ((h₄.next (go .next) trivial rfl).next (go (.update ())) trivial rfl).next (go .finish) trivial rfl
  have h₆ := (h₅.next (0, Move.draw true true) trivial rfl).next (go (.draw true true)) trivial rfl
  have h₇ := ((h₆.next (go .next) trivial rfl).next (go .next) trivial rfl).next (go .next) trivial rfl
  have h₈ := (h₇.next (go .next) trivial rfl).next (go .next)
    (fun x hx => by cases hx; exact fun u => by decide +revert) rfl
  have h₉ := (h₈.next (go .next) (fun x hx => nomatch hx) rfl).next (go .next) trivial rfl
  have h₁₀ := ((h₉.next (go .next) trivial rfl).next (go .next) trivial rfl).next (go .next) trivial rfl
  exact ⟨_, h₁₀, rfl, rfl, rfl, unreached_of_timely (t := 1) h₁₀ rfl⟩

/-- A transaction of `executeFullQueue` up to its body, if its worker is registered on its store. -/
def beginTxn (read_only : Bool) : List (Fin 2 × Move Unit) :=
  go (.draw read_only true) :: List.replicate 3 (go .next)

/-- **A version is lost.** Worker 0 draws start time 2. Before it publishes it, worker 1 updates the
record at time 3 and goes on with a reader, for which it leaves store 0: it sees no published time before
its own, 4, and is about to reset the store, to which worker 0 will be directed. -/
theorem reset_before_publish : ∃ s : State 2 Unit, Reach step Free init s ∧
    (s.worker 1).pc = .gcReset 0 (.run ⟨4, true, true⟩) ∧ (s.worker 0).pc = .drawn ⟨2, true, true⟩ ∧
      ¬Unreached s 0 := by
  refine exists_reach_of_exec (beginTxn false ++ [go .next, go (.insert ()), go .finish,
    (0, .draw true true)] ++ beginTxn false ++ [go (.update ()), go .finish] ++ beginTxn true ++
    List.replicate 7 (go .next)) ⟨_, rfl, fun _ => ⟨rfl, rfl, fun hun => ?_⟩⟩
  exact hun 0 ⟨2, true, true⟩ rfl () _ rfl (by decide)

end

end Proteus.Oltp.DeltaGc
