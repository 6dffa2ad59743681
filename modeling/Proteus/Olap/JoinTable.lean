import Proteus.Machine

/-!
# Lifetime of the table of `HashJoinChainedMorsel`

The operator counts in `workerCnt`: every build pipeline that opens adds one, and the first one makes the
table; every probe pipeline that closes takes one off, and the one that comes to zero frees the table. The
count stands for the number of probe pipelines only if there are as many of them as build pipelines. With
fewer the table is never freed, and the next execution goes on with the old one
(`freed_while_open_or_kept`); with more it is freed while probes go on, and the count wraps around.

Pipelines of one kind are alike, so the state has the number of those that are still to be opened, and for
those that are open the table they have. An execution opens and closes every pipeline once; the probes
open when all builds have closed. `restart` begins the next execution.

* `Inv.step`: with equal numbers every execution has a table of its own, which is
  freed once, by the last probe;
* `lifetime_iff`: and only then.
-/

namespace Proteus.JoinTable

/-! ## Model -/

/-- The number of pipelines on both sides of the join. -/
structure Config where
  builds : ℕ
  probes : ℕ
  builds_pos : 0 < builds
  probes_pos : 0 < probes

/-- Tables are numbered as they are made. `newBuilds` and `newProbes` are the pipelines of the execution
that have not been opened; `round` is the number of executions that have finished. -/
structure State where
  workerCnt : ℕ
  /-- `confs[0]` -/
  conf : Option ℕ
  made : ℕ
  freed : List (Option ℕ)
  newBuilds : ℕ
  newProbes : ℕ
  /-- the tables of the open build pipelines -/
  builds : List (Option ℕ)
  probes : List (Option ℕ)
  round : ℕ

variable (s : State)

/-- All pipelines of the execution have been opened and closed. -/
def State.Finished : Prop := s.newBuilds = 0 ∧ s.builds = [] ∧ s.newProbes = 0 ∧ s.probes = []

attribute [local simp] State.Finished

instance (s : State) : Decidable s.Finished := inferInstanceAs (Decidable (_ ∧ _ ∧ _ ∧ _))

inductive Action
  | open_build
  /-- the `i`th open build pipeline closes -/
  | close_build (i : ℕ)
  | open_probe
  | close_probe (i : ℕ)
  | restart

def init (cfg : Config) : State where
  workerCnt := 0
  conf := none
  made := 0
  freed := []
  newBuilds := cfg.builds
  newProbes := cfg.probes
  builds := []
  probes := []
  round := 0

attribute [local simp] JoinTable.init

/-- The first part of `open_build`: `if (workerCnt++ == 0)` make a table. -/
def State.addWorker : State :=
  { s with
    workerCnt := (s.workerCnt + 1) % 2 ^ 64
    conf := if s.workerCnt = 0 then some s.made else s.conf
    made := if s.workerCnt = 0 then s.made + 1 else s.made }

/-- `workerCnt` after `--workerCnt`; an unsigned number wraps around. -/
def State.workersLeft : ℕ := (s.workerCnt + (2 ^ 64 - 1)) % 2 ^ 64

def step (cfg : Config) (s : State) : Action → Option State
  | .open_build =>
    if 0 < s.newBuilds then
      some { s.addWorker with
        newBuilds := s.newBuilds - 1
        builds := s.addWorker.conf :: s.builds }
    else none
  | .close_build i => if i < s.builds.length then some { s with builds := s.builds.eraseIdx i } else none
  | .open_probe =>
    if s.newBuilds = 0 ∧ s.builds = [] ∧ 0 < s.newProbes then
      some { s with newProbes := s.newProbes - 1, probes := s.conf :: s.probes }
    else none
  | .close_probe i =>
    if i < s.probes.length then
      -- `if (--workerCnt == 0)` free the table
      some { s with
        workerCnt := s.workersLeft
        freed := if s.workersLeft = 0 then s.conf :: s.freed else s.freed
        probes := s.probes.eraseIdx i }
    else none
  | .restart =>
    if s.Finished then
      some { s with newBuilds := cfg.builds, newProbes := cfg.probes, round := s.round + 1 }
    else none

/-! ## One table for every execution -/

/-- Every open pipeline has the table of its own execution. An execution makes one table, when its first
build pipeline opens, and frees that table and no other when it has finished. -/
structure Lifetime (cfg : Config) (s : State) : Prop where
  own : ∀ t ∈ s.builds ++ s.probes, t = some s.round
  made : s.made = s.round + if s.newBuilds = cfg.builds then 0 else 1
  freed : s.freed = ((List.range (s.round + if s.Finished then 1 else 0)).map some).reverse

/-- The probe pipelines of the execution that have not been closed. -/
def State.unclosed : ℕ := s.newProbes + s.probes.length

attribute [local simp] State.unclosed

/-- With as many probes as builds, `workerCnt` is the number of probes to be closed less the builds to be
opened. -/
structure Inv (cfg : Config) (s : State) : Prop extends Lifetime cfg s where
  conf : s.newBuilds < cfg.builds → s.conf = some s.round
  order : s.newBuilds = 0 ∧ s.builds = [] ∨ s.newProbes = cfg.probes ∧ s.probes = []
  newBuilds_le : s.newBuilds ≤ cfg.builds
  unclosed_le : s.unclosed ≤ cfg.probes
  workerCnt : s.workerCnt = (s.unclosed - s.newBuilds) % 2 ^ 64

variable {cfg : Config} {s s' : State}

theorem Inv.init (cfg : Config) (hcfg : cfg.builds = cfg.probes) : Inv cfg (init cfg) where
  own := by simp
  made := by simp
  freed := by simp [cfg.builds_pos.ne']
  conf := by simp
  order := .inr ⟨rfl, rfl⟩
  newBuilds_le := le_rfl
  unclosed_le := le_rfl
  workerCnt := by simp [hcfg]

open State

theorem Inv.open_build (hcfg : cfg.builds = cfg.probes) (hle : cfg.builds ≤ 2 ^ 64) (inv : Inv cfg s)
    (hs : step cfg s .open_build = some s') : Inv cfg s' := by
  obtain ⟨hnew, hs⟩ := Option.ite_none_right_eq_some.1 hs
  cases hs
  have hbuilds := inv.newBuilds_le
  obtain ⟨hnone, hprobes⟩ := inv.order.resolve_left (by omega)
  have hunclosed : s.unclosed = cfg.builds := by simp [hnone, hprobes, hcfg]
  have hcnt : s.workerCnt = cfg.builds - s.newBuilds := by
    rw [inv.workerCnt, hunclosed]
    omega
  -- the count is zero for the first build of the execution only
  have hzero : s.workerCnt = 0 ↔ s.newBuilds = cfg.builds := by omega
  have hconf : s.addWorker.conf = some s.round := by
    simp only [addWorker, hzero]
    split
    · rw [inv.made, if_pos ‹_›, Nat.add_zero]
    · exact inv.conf (by omega)
  have hmade : s.addWorker.made = s.round + 1 := by
    simp only [addWorker, hzero, inv.made]
    split <;> rfl
  have hnever : s.newProbes ≠ 0 := by have := cfg.probes_pos; omega
  exact {
    own := fun t ht => by
      rcases List.mem_cons.mp ht with rfl | ht
      · exact hconf
      · exact inv.own t ht
    made := by
      change s.addWorker.made = s.round + if s.newBuilds - 1 = cfg.builds then 0 else 1
      rw [hmade, if_neg (by omega)]
    freed := by simpa [addWorker, hnever] using inv.freed
    conf := fun _ => hconf
    order := .inr ⟨hnone, hprobes⟩
    newBuilds_le := by change s.newBuilds - 1 ≤ _; omega
    unclosed_le := inv.unclosed_le
    workerCnt := by
      change (s.workerCnt + 1) % 2 ^ 64 = (s.unclosed - (s.newBuilds - 1)) % 2 ^ 64
      rw [hunclosed, hcnt]
      congr 1
      omega }

theorem Inv.close_build {i : ℕ} (inv : Inv cfg s) (hs : step cfg s (.close_build i) = some s') :
    Inv cfg s' := by
  obtain ⟨hi, hs⟩ := Option.ite_none_right_eq_some.1 hs
  cases hs
  have hopen : s.builds ≠ [] := List.ne_nil_of_length_pos (by omega)
  obtain ⟨hnone, hprobes⟩ := inv.order.resolve_left (fun h => hopen h.2)
  have hnever : s.newProbes ≠ 0 := by have := cfg.probes_pos; omega
  exact { inv with
    own := fun t ht => inv.own t <| by
      rw [List.mem_append] at ht ⊢
      exact ht.imp_left List.mem_of_mem_eraseIdx
    freed := by simpa [hnever] using inv.freed
    order := .inr ⟨hnone, hprobes⟩ }

theorem Inv.open_probe (inv : Inv cfg s) (hs : step cfg s .open_probe = some s') : Inv cfg s' := by
  obtain ⟨⟨hnew, hbuilds, hprobe⟩, hs⟩ := Option.ite_none_right_eq_some.1 hs
  cases hs
  have hconf : s.conf = some s.round := inv.conf (hnew ▸ cfg.builds_pos)
  have hunclosed : s.newProbes - 1 + (s.probes.length + 1) = s.unclosed := by
    rw [unclosed]
    omega
  exact { inv with
    own := fun t ht => by
      simp only [hbuilds, List.nil_append, List.mem_cons] at ht
      rcases ht with rfl | ht
      · exact hconf
      · exact inv.own t (List.mem_append_right _ ht)
    freed := by simpa [hprobe.ne'] using inv.freed
    order := .inl ⟨hnew, hbuilds⟩
    unclosed_le := hunclosed.trans_le inv.unclosed_le
    workerCnt := by
      change _ = (s.newProbes - 1 + (s.probes.length + 1) - _) % _
      rw [hunclosed]
      exact inv.workerCnt }

section

variable (hcfg : cfg.builds = cfg.probes)
include hcfg

theorem Inv.close_probe {i : ℕ} (hle : cfg.builds ≤ 2 ^ 64)
    (inv : Inv cfg s) (hs : step cfg s (.close_probe i) = some s') : Inv cfg s' := by
  obtain ⟨hi, hs⟩ := Option.ite_none_right_eq_some.1 hs
  obtain rfl := Option.some.inj hs
  have hopen : s.probes ≠ [] := List.ne_nil_of_length_pos (by omega)
  obtain ⟨hnew, hbuilds⟩ := inv.order.resolve_right (fun h => hopen h.2)
  have hunclosed := inv.unclosed_le
  have herase : (s.probes.eraseIdx i).length + 1 = s.probes.length := by
    rw [List.length_eraseIdx_of_lt hi]
    omega
  have hrest : s.newProbes + (s.probes.eraseIdx i).length = s.unclosed - 1 := by
    rw [unclosed]
    omega
  have hleft : s.workersLeft = (s.unclosed - 1) % 2 ^ 64 := by
    have hpos : 0 < s.unclosed := by
      rw [unclosed]
      omega
    rw [workersLeft, inv.workerCnt, hnew]
    omega
  -- the count comes to zero with the last probe only
  have hzero : s.workersLeft = 0 ↔ s.newProbes = 0 ∧ s.probes.eraseIdx i = [] := by
    have hnil : s.probes.eraseIdx i = [] ↔ (s.probes.eraseIdx i).length = 0 := List.length_eq_zero_iff.symm
    rw [hleft, hnil]
    omega
  exact {
    own := fun t ht => by
      simp only [hbuilds, List.nil_append] at ht
      exact inv.own t (List.mem_append_right _ (List.mem_of_mem_eraseIdx ht))
    made := inv.made
    freed := by
      have hconf : s.conf = some s.round := inv.conf (hnew ▸ cfg.builds_pos)
      have hfreed := inv.freed
      rw [if_neg (fun h => hopen h.2.2.2)] at hfreed
      by_cases hlast : s.workersLeft = 0
      · rw [if_pos hlast, if_pos ⟨hnew, hbuilds, hzero.mp hlast⟩, List.range_succ, hfreed, hconf]
        simp
      · rw [if_neg hlast, if_neg fun h => hlast (hzero.mpr h.2.2), hfreed]
    conf := inv.conf
    order := .inl ⟨hnew, hbuilds⟩
    newBuilds_le := inv.newBuilds_le
    unclosed_le := by
      change s.newProbes + (s.probes.eraseIdx i).length ≤ _
      omega
    workerCnt := by
      change s.workersLeft = (s.newProbes + (s.probes.eraseIdx i).length - s.newBuilds) % 2 ^ 64
      rw [hleft, hrest, hnew, Nat.sub_zero] }

theorem Inv.restart (inv : Inv cfg s)
    (hs : step cfg s .restart = some s') : Inv cfg s' := by
  obtain ⟨hfin, hs⟩ := Option.ite_none_right_eq_some.1 hs
  cases hs
  have hfin' := hfin
  obtain ⟨hnew, hbuilds, hnone, hprobes⟩ := hfin'
  exact {
    own := by simp [hbuilds, hprobes]
    made := by
      have hne : s.newBuilds ≠ cfg.builds := hnew ▸ cfg.builds_pos.ne
      simp [inv.made, hne]
    freed := by
      have hfreed := inv.freed
      rw [if_pos hfin] at hfreed
      simpa [cfg.builds_pos.ne'] using hfreed
    conf := fun h => absurd h (lt_irrefl _)
    order := .inr ⟨rfl, hprobes⟩
    newBuilds_le := le_rfl
    unclosed_le := by simp [hprobes]
    workerCnt := by simp [hprobes, hcfg, inv.workerCnt, hnew, hnone] }

theorem Inv.step (hle : cfg.builds ≤ 2 ^ 64) {a : Action}
    (inv : Inv cfg s) (hs : step cfg s a = some s') : Inv cfg s' := by
  cases a with
  | open_build => exact inv.open_build hcfg hle hs
  | close_build i => exact inv.close_build hs
  | open_probe => exact inv.open_probe hs
  | close_probe i => exact inv.close_probe hcfg hle hs
  | restart => exact inv.restart hcfg hs

end

/-! ## Other numbers of pipelines -/

/-- `n` builds have been opened, each of them closed at once. -/
def built (cfg : Config) (n : ℕ) : State :=
  { init cfg with
    workerCnt := n % 2 ^ 64
    conf := if n = 0 then none else some 0
    made := if n = 0 then 0 else 1
    newBuilds := cfg.builds - n }

theorem reach_built (cfg : Config) {n : ℕ} (hn : n ≤ cfg.builds) (hle : n ≤ 2 ^ 64) :
    Reach (step cfg) Free (init cfg) (built cfg n) := by
  induction n with
  | zero => exact .init
  | succ n ih =>
    have hnew : 0 < cfg.builds - n := by omega
    have hcnt : (n % 2 ^ 64 + 1) % 2 ^ 64 = (n + 1) % 2 ^ 64 := by omega
    have hzero : n % 2 ^ 64 = 0 ↔ n = 0 := by omega
    have hopen : step cfg (built cfg n) .open_build =
        some { built cfg (n + 1) with builds := [some 0] } := by
      simp only [step, built, addWorker, if_pos hnew, hcnt, hzero, init]
      cases n with
      | zero => rfl
      | succ n => rfl
    have hrun : exec (step cfg) (built cfg n) [.open_build, .close_build 0] = some (built cfg (n + 1)) := by
      rw [exec_cons, hopen]
      rfl
    exact reach_of_exec (ih (by omega) (by omega)) hrun

/-- All builds and `n` probes have been opened and closed. -/
def probed (cfg : Config) (n : ℕ) : State :=
  { init cfg with
    workerCnt := (cfg.builds - n) % 2 ^ 64
    conf := some 0
    made := 1
    freed := if n = cfg.builds then [some 0] else []
    newBuilds := 0
    newProbes := cfg.probes - n }

theorem built_eq_probed (cfg : Config) : built cfg cfg.builds = probed cfg 0 := by
  simp [built, probed, init, cfg.builds_pos.ne, cfg.builds_pos.ne']

theorem reach_probed (cfg : Config) (hle : cfg.builds ≤ 2 ^ 64) {n : ℕ} (hn : n ≤ cfg.probes)
    (hn' : n ≤ cfg.builds) : Reach (step cfg) Free (init cfg) (probed cfg n) := by
  induction n with
  | zero => exact built_eq_probed cfg ▸ reach_built cfg le_rfl hle
  | succ n ih =>
    have hnew : 0 < cfg.probes - n := by omega
    have hleft : (probed cfg n).workersLeft = (cfg.builds - (n + 1)) % 2 ^ 64 := by
      simp only [workersLeft, probed]
      omega
    have hzero : (cfg.builds - (n + 1)) % 2 ^ 64 = 0 ↔ n + 1 = cfg.builds := by omega
    have hopen : step cfg (probed cfg n) .open_probe =
        some { probed cfg n with newProbes := cfg.probes - (n + 1), probes := [some 0] } :=
      if_pos ⟨rfl, rfl, hnew⟩
    have hclose : step cfg { probed cfg n with newProbes := cfg.probes - (n + 1), probes := [some 0] }
        (.close_probe 0) = some (probed cfg (n + 1)) := by
      simp only [step, workersLeft] at hleft ⊢
      simp only [hleft, hzero]
      simp [probed, init, show n ≠ cfg.builds by omega]
    have hrun : exec (step cfg) (probed cfg n) [.open_probe, .close_probe 0] =
        some (probed cfg (n + 1)) := by
      rw [exec_cons, hopen, Option.bind_some, exec_cons, hclose]
      rfl
    exact reach_of_exec (ih (by omega) (by omega)) hrun

section

variable (h : ∀ s, Reach (step cfg) Free (init cfg) s → Lifetime cfg s)
include h

/-- After 2^64 builds the count is zero again, and the next one makes another table. -/
theorem builds_le : cfg.builds ≤ 2 ^ 64 := by
  by_contra hgt
  have hopen : step cfg (built cfg (2 ^ 64)) .open_build = some
      { built cfg (2 ^ 64) with
        workerCnt := 1, conf := some 1, made := 2
        newBuilds := cfg.builds - 2 ^ 64 - 1, builds := [some 1] } := by
    have hnew : 0 < cfg.builds - 2 ^ 64 := by omega
    simp only [step, built, addWorker, if_pos hnew, Nat.mod_self, init]
    rfl
  have hmade := (h _ ((reach_built cfg (by omega) le_rfl).next _ trivial hopen)).made
  change 2 = 0 + (if cfg.builds - 2 ^ 64 - 1 = cfg.builds then 0 else 1) at hmade
  split at hmade <;> omega

theorem builds_eq_probes : cfg.builds = cfg.probes := by
  have hle := builds_le h
  rcases Nat.lt_trichotomy cfg.builds cfg.probes with hlt | heq | hgt
  · -- the table is freed with the probe `cfg.builds`, and others are to come
    have hfreed := (h _ (reach_probed cfg hle hlt.le le_rfl)).freed
    have hnew : cfg.probes - cfg.builds ≠ 0 := by omega
    simp [probed, init, hnew] at hfreed
  · exact heq
  · -- the count is not zero after the last probe
    have hfreed := (h _ (reach_probed cfg hle le_rfl hgt.le)).freed
    simp [probed, init, hgt.ne] at hfreed

end

/-- **The table has the lifetime of its execution exactly if every build pipeline comes with one probe
pipeline** (and the count of the builds does not wrap around). -/
theorem lifetime_iff (cfg : Config) : (∀ s, Reach (step cfg) Free (init cfg) s → Lifetime cfg s) ↔
      cfg.builds = cfg.probes ∧ cfg.builds ≤ 2 ^ 64 := by
  constructor
  · intro h
    exact ⟨builds_eq_probes h, builds_le h⟩
  · rintro ⟨hcfg, hle⟩ s hs
    have inv := hs.invariant (I := Inv cfg) (Inv.init cfg hcfg) fun _ _ _ inv _ hs => inv.step hcfg hle hs
    exact inv.toLifetime

/-- Two builds and two probes. -/
def twoPairs : Config := ⟨2, 2, Nat.two_pos, Nat.two_pos⟩

/-- The second execution has a table of its own. -/
theorem lifetime_two_pairs : ∃ s, Reach (step twoPairs) Free (init twoPairs) s ∧ s.builds = [some 1] ∧
    s.freed = [some 0] ∧ Lifetime twoPairs s := by
  obtain ⟨s, hs, hbuilds, hfreed⟩ : ∃ s, exec (step twoPairs) (init twoPairs)
      [.open_build, .open_build, .close_build 0, .close_build 0, .open_probe, .open_probe, .close_probe 0,
        .close_probe 0, .restart, .open_build] = some s ∧ s.builds = [some 1] ∧ s.freed = [some 0] := by
    simp [step, twoPairs, addWorker, workersLeft]
  have hreach := reach_of_exec .init hs
  exact ⟨s, hreach, hbuilds, hfreed, (lifetime_iff twoPairs).2 ⟨rfl, by decide⟩ s hreach⟩

/-- One build and two probes: the table is freed when the first probe closes, and the other is open. Two
builds and one probe: it is not freed, and the next execution has the same table. -/
theorem freed_while_open_or_kept :
    (∃ s, exec (step ⟨1, 2, by decide, by decide⟩) (init ⟨1, 2, by decide, by decide⟩)
        [.open_build, .close_build 0, .open_probe, .open_probe, .close_probe 0] = some s ∧
      s.probes = [some 0] ∧ s.freed = [some 0]) ∧
    ∃ s, exec (step ⟨2, 1, by decide, by decide⟩) (init ⟨2, 1, by decide, by decide⟩)
        [.open_build, .open_build, .close_build 0, .close_build 0, .open_probe, .close_probe 0,
          .restart, .open_build] = some s ∧
      s.round = 1 ∧ s.freed = [] ∧ s.builds = [some 0] := by
  constructor <;> simp [step, init, addWorker, workersLeft]

end Proteus.JoinTable
