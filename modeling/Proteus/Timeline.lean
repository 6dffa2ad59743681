import Mathlib.Order.Lattice

/-!
# Timelines of a versioned state

A history is a list of timed writes on a state, newest first. `snapshots` are the states it went
through, each with the time of the write that made it, `replay` is the last of them and `upTo s`
keeps the writes a reader at time `s` is meant to see.

A reader that walks the snapshots from the newest and stops at the first one it takes to be visible
ends at the state of `replay` over `dropWhile` of the invisible writes (`find?_snapshots`). If
visibility agrees with the times, that is the state of the writes up to `s`
(`dropWhile_invisible_eq_upTo`).
-/

namespace Proteus.Timeline

open List

variable {τ σ : Type*}

/-- A history, newest write first: the time of each write and what it does to the state. -/
abbrev History (τ σ : Type*) := List (τ × (σ → σ))

def replay (x : σ) (ws : History τ σ) : σ := ws.foldr (fun w y => w.2 y) x

@[simp] theorem replay_nil (x : σ) : replay x ([] : History τ σ) = x := rfl

@[simp] theorem replay_cons (x : σ) (w : τ × (σ → σ)) (ws : History τ σ) :
    replay x (w :: ws) = w.2 (replay x ws) := rfl

/-- The time of the newest write, or `t` where there is none. -/
def lastTime (t : τ) : History τ σ → τ
  | [] => t
  | w :: _ => w.1

/-- Every state of the history with its time, newest first. -/
def snapshots (t : τ) (x : σ) : History τ σ → List (τ × σ)
  | [] => [(t, x)]
  | w :: ws => (w.1, replay x (w :: ws)) :: snapshots t x ws

variable (vis : τ → Bool)

/-- The first visible snapshot, where the initial state is visible. -/
theorem find?_snapshots {t : τ} (ht : vis t) (x : σ) (ws : History τ σ) :
    (snapshots t x ws).find? (fun p => vis p.1) =
      some (lastTime t (ws.dropWhile fun w => !vis w.1),
        replay x (ws.dropWhile fun w => !vis w.1)) := by
  induction ws with
  | nil => simp [snapshots, ht, lastTime]
  | cons w ws ih =>
    rw [snapshots, find?_cons, dropWhile_cons]
    cases hw : vis w.1 with
    | true => simp [lastTime]
    | false => simpa using ih

/-- Where the newest snapshot is visible, nothing is passed over. -/
theorem dropWhile_invisible_of_lastTime {t : τ} {ws : History τ σ}
    (h : vis (lastTime t ws)) : ws.dropWhile (fun w => !vis w.1) = ws := by
  cases ws with
  | nil => rfl
  | cons w ws => exact dropWhile_cons_of_neg (by simpa [lastTime] using h)

section

variable [LinearOrder τ]

/-- The writes with a time of at most `s`. -/
def upTo (s : τ) (ws : History τ σ) : History τ σ := ws.filter fun w => decide (w.1 ≤ s)

/-- The times of a history, newest first, do not increase. -/
def Sorted (ws : History τ σ) : Prop := ws.Pairwise fun later earlier => earlier.1 ≤ later.1

variable {s : τ} {ws : History τ σ}

theorem upTo_eq_self (h : ∀ w ∈ ws, w.1 ≤ s) : upTo s ws = ws := by
  rw [upTo, filter_eq_self]
  intro w hw
  simpa using h w hw

theorem dropWhile_invisible_eq_upTo
    (hsorted : Sorted ws) (hle : ∀ w ∈ ws, w.1 ≤ s → vis w.1) (hlt : ∀ w ∈ ws, s < w.1 → vis w.1 = false) :
    ws.dropWhile (fun w => !vis w.1) = upTo s ws := by
  induction ws with
  | nil => rfl
  | cons w ws ih =>
    obtain ⟨hhead, htail⟩ := pairwise_cons.1 hsorted
    by_cases hw : w.1 ≤ s
    · rw [dropWhile_cons_of_neg (by simp [hle w (by simp) hw]), upTo_eq_self]
      intro v hv
      rcases mem_cons.1 hv with rfl | hv
      · exact hw
      · exact (hhead v hv).trans hw
    · have hout : upTo s (w :: ws) = upTo s ws := by simp [upTo, hw]
      rw [dropWhile_cons_of_pos (by simp [hlt w (by simp) (not_le.1 hw)]), hout]
      exact ih htail (fun v hv => hle v (by simp [hv])) (fun v hv => hlt v (by simp [hv]))

/-- Where a write after `s` is visible, the first visible snapshot is of a write after `s`. -/
theorem dropWhile_invisible_eq_cons
    (hsorted : Sorted ws) {v : τ × (σ → σ)} (hv : v ∈ ws) (hs : s < v.1) (hvis : vis v.1) :
    ∃ w ws', s < w.1 ∧ w :: ws' <:+ ws ∧ ws.dropWhile (fun w => !vis w.1) = w :: ws' := by
  induction ws with
  | nil => cases hv
  | cons w ws ih =>
    obtain ⟨hhead, htail⟩ := pairwise_cons.1 hsorted
    by_cases hw : vis w.1
    · refine ⟨w, ws, ?_, suffix_refl _, dropWhile_cons_of_neg (by simp [hw])⟩
      rcases mem_cons.1 hv with rfl | hv
      · exact hs
      · exact hs.trans_le (hhead v hv)
    · have hv' : v ∈ ws := by
        rcases mem_cons.1 hv with rfl | hv
        · exact absurd hvis hw
        · exact hv
      obtain ⟨u, ws', hu, hsuffix, hdrop⟩ := ih htail hv'
      refine ⟨u, ws', hu, hsuffix.trans (suffix_cons w ws), ?_⟩
      rw [dropWhile_cons_of_pos (by simp [hw]), hdrop]

end

end Proteus.Timeline
