import Mathlib.Algebra.BigOperators.Group.Finset.Piecewise

/-!
# Machines: executable steps, guarded runs, invariants

A machine is a partial step function `step : σ → α → Option σ`. An action `α` names the party
that moves and everything nondeterministic about its move, so a list of actions is one
interleaving; `none` means that the action is not enabled.

* `exec` runs a list of actions.
* `Reach step ok s₀ s`: some run from `s₀` reaches `s`, and every step of it met `ok` in the
  state before the step. The unrestricted runs are `Reach step Free`.
* `Reach.invariant` is the rule every safety theorem below goes through, and `Reach.map` takes a run to a
  machine that can do the same.
* `exec_append` and `exec_snoc` put runs together, and `reach_of_exec_of_forall` and
  `exists_reach_of_exec` turn a run into reachability.
* `Run.length_add_le` and `length_add_le_of_exec` bound runs whose steps lower a potential.
* `update_cases` and `exists_update` say where the parties are when one of them moves.
* `unique_update` keeps exclusive ownership when one party moves, and
  `sum_update_add` and `sum_update_eq` say how a count over all parties changes when one of them moves;
  `sum_map_set` and `countP_set_add` say it for parties in a list.
* `LockMove` is what a move of one party can do to a lock that all of them use.
-/

namespace Proteus

open Function List

variable {σ α : Type*}

/-- Run a list of actions; the run stops at the first action that is not enabled. -/
def exec (step : σ → α → Option σ) : σ → List α → Option σ
  | s, [] => some s
  | s, a :: as => (step s a).bind fun s' => exec step s' as

section

variable (step : σ → α → Option σ) (s : σ)
include step s

@[simp] theorem exec_nil : exec step s [] = some s := rfl

@[simp] theorem exec_cons (a : α) (as : List α) :
    exec step s (a :: as) = (step s a).bind fun s' => exec step s' as := rfl

theorem exec_append (as bs : List α) :
    exec step s (as ++ bs) = (exec step s as).bind fun s' => exec step s' bs := by
  induction as generalizing s with
  | nil => rfl
  | cons a as ih =>
    simp only [cons_append, exec_cons]
    cases step s a with
    | none => rfl
    | some s' => exact ih s'

theorem exec_snoc (as : List α) (a : α) :
    exec step s (as ++ [a]) = (exec step s as).bind fun s' => step s' a := by
  rw [exec_append]
  cases exec step s as with
  | none => rfl
  | some s' => simp

end

/-- The guard every step meets. -/
def Free : σ → α → Prop := fun _ _ => True

/-- The states some run reaches when every step of the run meets `ok` in the state before it. -/
inductive Reach (step : σ → α → Option σ) (ok : σ → α → Prop) (s₀ : σ) : σ → Prop
  | init : Reach step ok s₀ s₀
  | next {s s' : σ} (a : α) :
      Reach step ok s₀ s → ok s a → step s a = some s' → Reach step ok s₀ s'

variable {step : σ → α → Option σ} {ok : σ → α → Prop}

namespace Reach

variable {s₀ s t : σ}

/-- **The invariant rule.** What holds initially and is kept by every guarded step holds in
every state reached. -/
theorem invariant {I : σ → Prop} (h : Reach step ok s₀ s) (h₀ : I s₀)
    (hstep : ∀ s a s', I s → ok s a → step s a = some s' → I s') : I s := by
  induction h with
  | init => exact h₀
  | next a _ hok hs ih => exact hstep _ a _ ih hok hs

theorem trans (h : Reach step ok s₀ s) (h' : Reach step ok s t) : Reach step ok s₀ t := by
  induction h' with
  | init => exact h
  | next a _ hok hs ih => exact ih.next a hok hs

/-- A weaker guard reaches at least as much. -/
theorem mono {ok' : σ → α → Prop} (hle : ∀ s a, ok s a → ok' s a) (h : Reach step ok s₀ s) :
    Reach step ok' s₀ s := by
  induction h with
  | init => exact .init
  | next a _ hok hs ih => exact ih.next a (hle _ _ hok) hs

/-- A machine that can do what another one does reaches what that one reaches. -/
theorem map {τ β : Type*} {step' : τ → β → Option τ} (f : σ → τ) (g : α → β)
    (hstep : ∀ s a s', step s a = some s' → step' (f s) (g a) = some (f s'))
    (h : Reach step Free s₀ s) : Reach step' Free (f s₀) (f s) := by
  induction h with
  | init => exact .init
  | next a _ _ hs ih => exact ih.next (g a) trivial (hstep _ a _ hs)

end Reach

variable {s t s₀ : σ} {as : List α} {I : σ → Prop} {μ : σ → ℕ}

/-- A run whose actions meet the guard in every state reaches its end. -/
theorem reach_of_exec_of_forall
    (hok : ∀ a ∈ as, ∀ s, ok s a) (hs : Reach step ok s₀ s) (h : exec step s as = some t) :
    Reach step ok s₀ t := by
  induction as generalizing s with
  | nil => cases h; exact hs
  | cons a as ih =>
    rw [exec_cons, Option.bind_eq_some_iff] at h
    obtain ⟨s', hs', ht⟩ := h
    exact ih (fun a ha => hok a (mem_cons_of_mem _ ha)) (hs.next a (hok a mem_cons_self s) hs') ht

theorem reach_of_exec
    (hs : Reach step Free s₀ s) (h : exec step s as = some t) : Reach step Free s₀ t :=
  reach_of_exec_of_forall (fun _ _ _ => trivial) hs h

/-- A run from the start, and what holds at its end. -/
theorem exists_reach_of_exec_of_forall {P : σ → Prop} (as : List α) (hok : ∀ a ∈ as, ∀ s, ok s a)
    (h : ∃ t, exec step s as = some t ∧ (Reach step ok s t → P t)) : ∃ t, Reach step ok s t ∧ P t := by
  obtain ⟨t, ht, hP⟩ := h
  have hreach := reach_of_exec_of_forall hok .init ht
  exact ⟨t, hreach, hP hreach⟩

theorem exists_reach_of_exec {P : σ → Prop} (as : List α)
    (h : ∃ t, exec step s as = some t ∧ (Reach step Free s t → P t)) : ∃ t, Reach step Free s t ∧ P t :=
  exists_reach_of_exec_of_forall as (fun _ _ _ => trivial) h

/-- A guarded run with its actions. -/
inductive Run (step : σ → α → Option σ) (ok : σ → α → Prop) : σ → List α → σ → Prop
  | nil (s : σ) : Run step ok s [] s
  | cons {s s' t : σ} {as : List α} (a : α) :
      ok s a → step s a = some s' → Run step ok s' as t → Run step ok s (a :: as) t

/-- **The potential rule.** Steps that lower a potential are at most as many as it allows. -/
theorem Run.length_add_le (h : Run step ok s as t) (hs : I s)
    (hstep : ∀ s a s', I s → ok s a → step s a = some s' → I s' ∧ μ s' < μ s) :
    I t ∧ as.length + μ t ≤ μ s := by
  induction h with
  | nil s => exact ⟨hs, by simp⟩
  | cons a hok hs' _ ih =>
    obtain ⟨hI, hlt⟩ := hstep _ a _ hs hok hs'
    obtain ⟨ht, hle⟩ := ih hI
    exact ⟨ht, by rw [length_cons]; omega⟩

theorem length_add_le_of_exec (h : exec step s as = some t) (hs : I s)
    (hstep : ∀ s a s', I s → step s a = some s' → I s' ∧ μ s' < μ s) : I t ∧ as.length + μ t ≤ μ s := by
  have hrun : Run step Free s as t := by
    clear hs
    induction as generalizing s with
    | nil => cases h; exact .nil _
    | cons a as ih =>
      obtain ⟨s', hs', ht⟩ := Option.bind_eq_some_iff.1 h
      exact .cons a trivial hs' (ih ht)
  exact hrun.length_add_le hs fun s a s' hI _ => hstep s a s' hI

variable {ι : Type*} {f : ι → σ} {i : ι}

/-- Where a party is after one of them has moved. -/
theorem update_cases [DecidableEq ι] {j : ι} {p q : σ}
    (h : update f i p j = q) : j = i ∧ p = q ∨ j ≠ i ∧ f j = q := by
  by_cases hj : j = i
  · subst hj
    exact .inl ⟨rfl, by rwa [update_self] at h⟩
  · exact .inr ⟨hj, by rwa [update_of_ne hj] at h⟩

/-- Where some party is stays so if another one moves. -/
theorem exists_update [DecidableEq ι] {P : σ → Prop} (p : σ)
    (h : ∃ j, P (f j)) (hi : ¬P (f i)) : ∃ j, P (update f i p j) := by
  obtain ⟨j, hj⟩ := h
  have hne : j ≠ i := by
    rintro rfl
    exact hi hj
  exact ⟨j, by rwa [update_of_ne hne]⟩

/-- What at most one party has stays so when one of them moves to something that no other has. -/
theorem unique_update {κ : Type*} [DecidableEq ι] {P : σ → κ → Prop}
    (h : ∀ i j a, P (f i) a → P (f j) a → i = j) {x : σ}
    (hx : ∀ j a, j ≠ i → P x a → ¬P (f j) a) (j k : ι) (a : κ)
    (hj : P (update f i x j) a) (hk : P (update f i x k) a) : j = k := by
  by_cases hji : j = i
  · by_cases hki : k = i
    · rw [hji, hki]
    · rw [hji, update_self] at hj
      rw [update_of_ne hki] at hk
      exact absurd hk (hx k a hki hj)
  · rw [update_of_ne hji] at hj
    by_cases hki : k = i
    · rw [hki, update_self] at hk
      exact absurd hj (hx j a hji hk)
    · rw [update_of_ne hki] at hk
      exact h j k a hj hk

variable {s : Finset ι}

/-- One party moves from `f i` to `x`: what a sum over the parties gains and loses. -/
theorem sum_update_add {M : Type*} [AddCommMonoid M] [DecidableEq ι]
    (hi : i ∈ s) (f : ι → σ) (x : σ) (g : ι → σ → M) :
    ∑ j ∈ s, g j (update f i x j) + g i (f i) = ∑ j ∈ s, g j (f j) + g i x := by
  have hmoved : (fun j => g j (update f i x j)) =
      update (fun j => g j (f j)) i (g i x) := by
    funext j
    exact Function.apply_update g f i x j
  rw [hmoved, Finset.sum_update_of_mem hi, ← Finset.add_sum_erase s (fun j => g j (f j)) hi,
    ← Finset.sdiff_singleton_eq_erase, add_comm, ← add_assoc, add_right_comm]

/-- The move makes no difference for the sum. -/
theorem sum_update_eq {M : Type*} [AddCommMonoid M] [DecidableEq ι]
    {x : σ} {g : ι → σ → M} (h : g i x = g i (f i)) :
    ∑ j ∈ s, g j (update f i x j) = ∑ j ∈ s, g j (f j) := by
  refine Finset.sum_congr rfl fun j _ => ?_
  by_cases hj : j = i
  · rw [hj, update_self, h]
  · rw [update_of_ne hj]

/-! ## A lock -/

/-- A move of the party `h`, which is in its critical section before it (`b`) and after it (`b'`), and
what it does to the lock. -/
inductive LockMove {η : Type*} (h : η) : Bool → Bool → Option η → Option η → Prop
  | keep (b : Bool) (l : Option η) : LockMove h b b l l
  | acquire : LockMove h false true none (some h)
  | release (l : Option η) : LockMove h true false l none

namespace LockMove

variable {η : Type*} {h h' : η} {b b' x : Bool} {l l' : Option η}

section

variable (hm : LockMove h b b' l l') (hb : b = true ↔ l = some h)
include hm hb

/-- The party that moves has the lock in its critical section. -/
theorem own : b' = true ↔ l' = some h := by
  cases hm with
  | keep => exact hb
  | acquire => simp
  | release => simp

/-- Another party keeps the lock, or keeps out. -/
theorem other (hne : h' ≠ h)
    (hx : x = true ↔ l = some h') : x = true ↔ l' = some h' := by
  cases hm with
  | keep => exact hx
  | acquire => simpa [hne.symm] using hx
  | release =>
    rw [hx, hb.1 rfl]
    simp [hne.symm]

end

theorem of_other (hm : LockMove h b b' l l') (hne : h' ≠ h) (hl : l' = some h') : l = some h' := by
  cases hm with
  | keep => exact hl
  | acquire => exact absurd (Option.some.inj hl).symm hne
  | release => cases hl

end LockMove

/-! ## Parties in a list -/

section

variable {l : List σ} {i : ℕ} {x y : σ}

theorem sum_map_set {M : Type*} [AddCommMonoid M] (h : l[i]? = some x) (f : σ → M) :
    ((l.set i y).map f).sum + f x = (l.map f).sum + f y := by
  induction l generalizing i with
  | nil => cases h
  | cons a l ih =>
    cases i with
    | zero =>
      obtain rfl : a = x := by simpa using h
      simp only [set_cons_zero, map_cons, sum_cons]
      rw [add_right_comm, add_comm (f y), add_right_comm]
    | succ i =>
      have := ih (i := i) (by simpa using h)
      simp only [set_cons_succ, map_cons, sum_cons]
      rw [add_assoc, this, add_assoc]

theorem countP_set_add (h : l[i]? = some x) (p : σ → Bool) :
    (l.set i y).countP p + (p x).toNat = l.countP p + (p y).toNat := by
  have hsum : ∀ l : List σ, l.countP p = (l.map fun z => (p z).toNat).sum := by
    intro l
    induction l with
    | nil => rfl
    | cons a l ih =>
      rw [countP_cons, ih, map_cons, sum_cons, add_comm]
      cases p a <;> rfl
  rw [hsum, hsum]
  exact sum_map_set h fun z => (p z).toNat

/-- What every party of a list has, one of which has moved. -/
theorem getElem?_set_cases {j : ℕ} {z : σ} (h : (l.set i y)[j]? = some z) :
    j = i ∧ z = y ∨ j ≠ i ∧ l[j]? = some z := by
  rw [getElem?_set] at h
  split_ifs at h with hij hlt
  · exact .inl ⟨hij.symm, (Option.some.inj h).symm⟩
  · exact .inr ⟨fun hji => hij hji.symm, h⟩

/-- What every party has when there is one more. -/
theorem getElem?_concat_cases {j : ℕ} {z : σ} (h : (l ++ [y])[j]? = some z) :
    l[j]? = some z ∨ j = l.length ∧ z = y := by
  obtain hlt | hge := Nat.lt_or_ge j l.length
  · rw [getElem?_append_left hlt] at h
    exact .inl h
  · rw [getElem?_append_right hge, getElem?_singleton] at h
    split_ifs at h with hj
    exact .inr ⟨by omega, (Option.some.inj h).symm⟩

end

end Proteus
