import Proteus.Gpu.BucketHeads

/-!
# Reservations in bucket chains

Every move of the protocol of `BucketHeads` keeps its invariant (`step_inv`), as long as bucket
numbers stay below the one that stands for no bucket. From the invariant follow:

* `slot_eq_addr`: the slots of a job are consecutive places of the stream of its partition;
* `slot_inj`: no two jobs have a slot in common;
* `exists_move`: as long as a job waits, some job can come closer to its places;
* `Complete`: when all jobs have their places, the chains are linked, exactly as long as the streams
  are, and as many buckets are handed out as the partitions need.
-/

namespace Proteus.BucketHeads

open Function BucketChain Ledger Job List

/-! ## Every move keeps the invariant -/

open Demand

variable {κ : Type*} {D : Demand κ} {chains₀ : ℕ → ℕ} {s s' : State κ}

section

variable {L L' : Ledger κ} {k : κ} {x : Job} {p word : ℕ}

theorem HeadOk.of_none (h : HeadOk L p word) (hh : L.holder p = none) :
    word / 2 ^ 32 < 4096 ∧ L.granted p + 4095 = 4096 * (L.chain p).length + word / 2 ^ 32 ∧
      lastBucket (L.chain p) (L.chain p).length = some (word % 2 ^ 32) := by
  rwa [HeadOk, hh] at h

theorem HeadOk.of_some (h : HeadOk L p word) (hh : L.holder p = some k) : 4096 ≤ word / 2 ^ 32 := by
  rwa [HeadOk, hh] at h

/-- The clamp does not change a word that is not locked, and keeps a locked one locked. -/
theorem HeadOk.clamp (h : HeadOk L p word) : HeadOk L p (min word (2 * 4096 * 2 ^ 32)) := by
  cases hh : L.holder p with
  | none =>
    have hmin : min word (2 * 4096 * 2 ^ 32) = word := by
      have := (h.of_none hh).1
      omega
    rwa [hmin]
  | some k =>
    have := h.of_some hh
    rw [HeadOk, hh]
    omega

theorem Inv.fits_of (inv : Inv D chains₀ s L) (hk : k ∈ D.jobs) (hx : s.job k = x) : Fits D L k x :=
  hx ▸ inv.fits k hk

/-- A locked word stays so when its chain grows. -/
theorem HeadOk.extend {c : ℕ} (h : HeadOk L p word) (hh : L.holder p = some k) :
    HeadOk (L.extend p c) p word := by
  have hholder : (L.extend p c).holder p = some k := hh
  rw [HeadOk, hholder]
  exact h.of_some hh

theorem Inv.others_extend (inv : Inv D chains₀ s L) (p c d : ℕ) (hd : s.chains d ≠ chains₀ d) :
    ∃ q m e, ((L.extend p c).chain q)[m]? = some d ∧ ((L.extend p c).chain q)[m + 1]? = some e := by
  obtain ⟨q, m, e, hm, he⟩ := inv.others d hd
  exact ⟨q, m, e, getElem?_of_isPrefix (isPrefix_snoc _ _ _ _) hm,
    getElem?_of_isPrefix (isPrefix_snoc _ _ _ _) he⟩

variable [DecidableEq κ]

/-- The parts of the invariant that a move of the job `k` to `x` has to establish. The word of its
partition is clamped, or grows by no more than what is pending. -/
theorem Inv.move (inv : Inv D chains₀ s L) (hk : k ∈ D.jobs)
    (hjob : s'.job = update s.job k x) (hheads : s'.heads = update s.heads (D.part k) word)
    (hledger : L'.Ok D s'.bucketsUsed) (hroom : s'.bucketsUsed ≤ 2 ^ 18)
    (hself : Fits D L' k x) (hother : ∀ k' ∈ D.jobs, k' ≠ k → Fits D L' k' (s.job k'))
    (hholder : ∀ p k', L'.holder p = some k' → k' ∈ D.of p)
    (hsame : ∀ q, q ≠ D.part k → L'.holder q = L.holder q ∧ L'.granted q = L.granted q ∧
      L'.chain q = L.chain q)
    (hhead : HeadOk L' (D.part k) word)
    (hbound : word / 2 ^ 32 ≤ 8192 ∨ word / 2 ^ 32 + (s.job k).pending (D.cnt k) ≤
      s.heads (D.part k) / 2 ^ 32 + x.pending (D.cnt k))
    (hlinks : ∀ p m c d, (L'.chain p)[m]? = some c → (L'.chain p)[m + 1]? = some d →
      s'.chains c = d ∨ ∃ k' ∈ D.jobs, ∃ pcnt, s'.job k' = .link ⟨pcnt, c, d⟩)
    (hothers : ∀ c, s'.chains c ≠ chains₀ c →
      ∃ p m d, (L'.chain p)[m]? = some c ∧ (L'.chain p)[m + 1]? = some d) :
    Inv D chains₀ s' L' := by
  refine ⟨hledger, hroom, ?_, hholder, ?_, ?_, hlinks, hothers⟩
  · intro k' hk'
    rw [hjob]
    by_cases hne : k' = k
    · subst hne
      rwa [update_self]
    · rw [update_of_ne hne]
      exact hother k' hk' hne
  · intro p hp
    rw [hheads]
    by_cases hq : p = D.part k
    · rwa [hq, update_self]
    · obtain ⟨hh, hg, hc⟩ := hsame p hq
      rw [update_of_ne hq, HeadOk, hh, hg, hc]
      exact inv.heads p hp
  · intro p hp
    have hb := inv.bound p hp
    rw [hjob, hheads]
    by_cases hq : p = D.part k
    · subst hq
      have hsum := sum_update_add (mem_of.2 ⟨hk, rfl⟩) s.job x
        fun k' (y : Job) => y.pending (D.cnt k')
      rw [update_self]
      omega
    · rw [update_of_ne hq]
      refine hb.trans (le_of_eq (congrArg _ (Finset.sum_congr rfl fun k' hk' => ?_)))
      have hne : k' ≠ k := by
        rintro rfl
        exact hq (mem_of.1 hk').2.symm
      rw [update_of_ne hne]

/-- Links that are still to be written stay so when a job moves that has none to write. -/
theorem Inv.links_keep (inv : Inv D chains₀ s L) (hx : ∀ g, s.job k ≠ .link g) (x : Job) (p m c d : ℕ)
    (hc : (L.chain p)[m]? = some c) (hd : (L.chain p)[m + 1]? = some d) :
    s.chains c = d ∨ ∃ k' ∈ D.jobs, ∃ pcnt, update s.job k x k' = .link ⟨pcnt, c, d⟩ := by
  rcases inv.links p m c d hc hd with h | ⟨k', hk', pcnt, h⟩
  · exact .inl h
  · have hne : k' ≠ k := by
      rintro rfl
      exact hx _ h
    exact .inr ⟨k', hk', pcnt, by rw [update_of_ne hne]; exact h⟩

theorem inv_add (hsmall : ∀ p, D.total p ≤ 2 ^ 31) (inv : Inv D chains₀ s L) (hk : k ∈ D.jobs)
    (hx : s.job k = .add) : ∃ L', Inv D chains₀ { s with
      heads := update s.heads (D.part k) ((s.heads (D.part k) + D.cnt k * 2 ^ 32) % 2 ^ 64)
      job := update s.job k (.min (s.heads (D.part k))) } L' := by
  have hfit := inv.fits_of hk hx
  have hnew : k ∉ L.log (D.part k) := fun h => by simpa [taken] using hfit.taken.2 h
  have hp := D.part_lt k hk
  have hcnt := D.cnt_le k hk
  have hhead := inv.heads _ hp
  -- the additions of the waiting jobs do not run over
  have hpend : ∑ k' ∈ D.of (D.part k), (s.job k').pending (D.cnt k') ≤ D.total (D.part k) := by
    refine Finset.sum_le_sum fun k' _ => ?_
    cases s.job k' <;> simp [pending]
  have hword : (s.heads (D.part k) + D.cnt k * 2 ^ 32) % 2 ^ 64 =
      s.heads (D.part k) + D.cnt k * 2 ^ 32 := by
    have hb := inv.bound _ hp
    have := hsmall (D.part k)
    omega
  have hbound : (s.heads (D.part k) + D.cnt k * 2 ^ 32) / 2 ^ 32 + (s.job k).pending (D.cnt k) ≤
      s.heads (D.part k) / 2 ^ 32 + (Job.min (s.heads (D.part k))).pending (D.cnt k) := by
    rw [hx]
    simp only [pending]
    omega
  have hlinks := inv.links_keep (k := k) (by simp [hx]) (.min (s.heads (D.part k)))
  rw [hword]
  by_cases hlocked : 4096 ≤ s.heads (D.part k) / 2 ^ 32
  · refine ⟨L, inv.move hk rfl rfl inv.ledger inv.room ?_ (fun k' hk' _ => inv.fits k' hk') inv.holder
      (fun _ _ => ⟨rfl, rfl, rfl⟩) ?_ (.inr hbound) hlinks inv.others⟩
    · refine ⟨?_, ?_, fun hlt => absurd hlt (by omega)⟩
      · rw [taken_min, ← hfit.taken]
        exact iff_of_false (by omega) Bool.false_ne_true
      · rw [holds_min, ← hfit.holds]
        exact iff_of_false (by omega) Bool.false_ne_true
    · cases hh : L.holder (D.part k) with
      | none =>
        have := (hhead.of_none hh).1
        omega
      | some k' =>
        rw [HeadOk, hh]
        omega
  · have hfree : L.holder (D.part k) = none := by
      cases hh : L.holder (D.part k) with
      | none => rfl
      | some k' => exact absurd (hhead.of_some hh) hlocked
    obtain ⟨hlt, hgranted, hlast⟩ := hhead.of_none hfree
    -- the job has its places, and the lock if they do not fit in the bucket
    obtain ⟨y, hy⟩ : ∃ y, y = if 4096 ≤ s.heads (D.part k) / 2 ^ 32 + D.cnt k then some k else none :=
      ⟨_, rfl⟩
    have hyk : ∀ k', y = some k' → k' = k := by
      intro k' hk'
      rw [hy] at hk'
      split_ifs at hk'
      exact (Option.some.inj hk').symm
    refine ⟨L.grant D k y, inv.move hk rfl rfl (inv.ledger.grant hk hnew y) inv.room ?_ ?_ ?_ ?_ ?_
      (.inr hbound) hlinks inv.others⟩
    · refine ⟨?_, ?_, ?_⟩
      · rw [taken_min, grant_log]
        exact iff_of_true hlt (by simp)
      · rw [holds_min, grant_holder, hy]
        by_cases hc : 4096 ≤ s.heads (D.part k) / 2 ^ 32 + D.cnt k
        · rw [if_pos hc]
          exact iff_of_true ⟨hlt, hc⟩ rfl
        · rw [if_neg hc]
          exact iff_of_false (fun h => hc h.2) (by simp)
      · intro _
        refine ⟨(L.chain (D.part k)).length, ⟨?_, hlt, hlast⟩, fun hc => ⟨⟨hc, ?_⟩, rfl⟩⟩
        · rwa [grant_lo]
        · rw [grant_lo, grant_granted]
    · intro k' hk' hne
      exact (inv.fits k' hk').grant hne hfree fun h => hne (hyk k' h)
    · intro q k' hq
      by_cases hqp : q = D.part k
      · subst hqp
        rw [grant_holder] at hq
        rw [hyk k' hq]
        exact mem_of.2 ⟨hk, rfl⟩
      · rw [(grant_of_ne D L k y hqp).1] at hq
        exact inv.holder q k' hq
    · intro q hq
      obtain ⟨hh, hg, -⟩ := grant_of_ne D L k y hq
      exact ⟨hh, hg, rfl⟩
    · rw [HeadOk, grant_holder, hy]
      by_cases hc : 4096 ≤ s.heads (D.part k) / 2 ^ 32 + D.cnt k
      · rw [if_pos hc]
        omega
      · rw [if_neg hc]
        refine ⟨by omega, ?_, ?_⟩
        · rw [grant_granted]
          show _ = 4096 * (L.chain (D.part k)).length + _
          omega
        · rw [show (s.heads (D.part k) + D.cnt k * 2 ^ 32) % 2 ^ 32 = s.heads (D.part k) % 2 ^ 32 by
            omega]
          exact hlast

variable {old : ℕ}

theorem inv_min (inv : Inv D chains₀ s L) (hk : k ∈ D.jobs) (hx : s.job k = .min old) :
    ∃ L', Inv D chains₀ { s with
      heads := update s.heads (D.part k) (min (s.heads (D.part k)) (2 * 4096 * 2 ^ 32))
      job := update s.job k (afterMin (D.part k) (D.cnt k) old) } L' := by
  have hfit := inv.fits_of hk hx
  have hp := D.part_lt k hk
  have hhead := (inv.heads _ hp).clamp
  have hbound : min (s.heads (D.part k)) (2 * 4096 * 2 ^ 32) / 2 ^ 32 ≤ 8192 := by omega
  have hlinks := inv.links_keep (k := k) (by simp [hx])
  -- three of the four outcomes leave the ledger as it is
  have hstay : ∀ x : Job, Fits D L k x → ∃ L', Inv D chains₀ { s with
      heads := update s.heads (D.part k) (min (s.heads (D.part k)) (2 * 4096 * 2 ^ 32))
      job := update s.job k x } L' := by
    intro x hself
    exact ⟨L, inv.move hk rfl rfl inv.ledger inv.room hself (fun k' hk' _ => inv.fits k' hk') inv.holder
      (fun _ _ => ⟨rfl, rfl, rfl⟩) hhead (.inl hbound) (hlinks x) inv.others⟩
  rw [afterMin]
  by_cases hlt : old / 2 ^ 32 < 4096
  · obtain ⟨m, hm, hedge⟩ := hfit.knows hlt
    rw [if_pos hlt]
    by_cases hc : 4096 ≤ old / 2 ^ 32 + D.cnt k
    · obtain ⟨hbeyond, hlen⟩ := hedge hc
      have hheld := hfit.holds.1 (holds_min.2 ⟨hlt, hc⟩)
      have htaken := hfit.taken.1 (taken_min.2 hlt)
      rw [if_pos hc]
      by_cases hb : old % 2 ^ 32 < 2 ^ 18
      · rw [if_pos hb]
        apply hstay
        refine ⟨iff_of_true rfl htaken, iff_of_true rfl hheld, ?_⟩
        cases m with
        | zero =>
          have := Option.some.inj hm.bucket
          omega
        | succ m => exact ⟨m, hm, hbeyond, hlen⟩
      · -- the word names no bucket: every bucket of a chain has a smaller number
        have hnil : L.chain (D.part k) = [] := by
          cases m with
          | zero => exact length_eq_zero_iff.1 hlen
          | succ m =>
            have := inv.ledger.lt_used hm.bucket
            have := inv.room
            omega
        rw [hnil, length_nil] at hlen
        subst hlen
        rw [if_neg hb]
        refine ⟨L.extend (D.part k) (D.part k), inv.move hk rfl rfl
          (inv.ledger.extend_first hp hnil ?_) inv.room ?_ ?_ inv.holder ?_ ?_ (.inl hbound) ?_ ?_⟩
        · have := hbeyond.last
          omega
        · have hchain : (L.extend (D.part k) (D.part k)).chain (D.part k) = [D.part k] := by
            show update L.chain _ _ _ = _
            rw [update_self, hnil]
            rfl
          refine ⟨iff_of_true rfl htaken, iff_of_true rfl hheld, 0, ⟨hm.lo, hm.lt, hm.bucket⟩,
            ⟨hbeyond.cross, hbeyond.last⟩, ?_, ?_⟩
          all_goals rw [hchain]; rfl
        · intro k' hk' hne
          exact (inv.fits k' hk').extend hne hheld _
        · intro q hq
          exact ⟨rfl, rfl, update_of_ne hq _ _⟩
        · exact hhead.extend hheld
        · intro q n c d hc hd
          rcases getElem?_snoc_pair hc hd with ⟨hc, hd⟩ | ⟨-, hn, -, -⟩
          · exact hlinks _ q n c d hc hd
          · rw [hnil] at hn
            cases hn
        · exact inv.others_extend _ _
    · rw [if_neg hc]
      apply hstay
      refine ⟨iff_of_true rfl (hfit.taken.1 (taken_min.2 hlt)), ?_, m, hm, fun h => absurd h hc⟩
      rw [← hfit.holds, holds_min]
      exact iff_of_false nofun fun h => hc h.2
  · rw [if_neg hlt]
    apply hstay
    refine ⟨?_, ?_, trivial⟩
    · rw [← hfit.taken, taken_min]
      exact iff_of_false nofun hlt
    · rw [← hfit.holds, holds_min]
      exact iff_of_false nofun fun h => hlt h.1

section

variable (inv : Inv D chains₀ s L) (hk : k ∈ D.jobs)
include inv hk

omit [DecidableEq κ] in
/-- A job only asks for a bucket that its partition needs. -/
theorem Inv.extend_alloc (hx : s.job k = .alloc old) :
    (L.extend (D.part k) s.bucketsUsed).Ok D (s.bucketsUsed + 1) := by
  obtain ⟨m, hm, hbeyond, hlen⟩ := (inv.fits_of hk hx).knows
  apply inv.ledger.extend_next (D.part_lt k hk)
  · rw [← length_pos_iff]
    omega
  · have := hm.lo
    have := hbeyond.cross
    have := hbeyond.last
    omega

theorem inv_alloc (hx : s.job k = .alloc old)
    (hroom : s.bucketsUsed < 2 ^ 18) : ∃ L', Inv D chains₀ { s with
      bucketsUsed := (s.bucketsUsed + 1) % 2 ^ 32
      job := update s.job k (.link ⟨old / 2 ^ 32, old % 2 ^ 32, s.bucketsUsed⟩) } L' := by
  have hfit := inv.fits_of hk hx
  obtain ⟨m, hm, hbeyond, hlen⟩ := hfit.knows
  have hheld := hfit.holds.1 rfl
  have hnext : (s.bucketsUsed + 1) % 2 ^ 32 = s.bucketsUsed + 1 := by omega
  refine ⟨L.extend (D.part k) s.bucketsUsed, inv.move hk rfl (update_eq_self ..).symm ?_ ?_ ?_ ?_
    inv.holder (fun q hq => ⟨rfl, rfl, update_of_ne hq _ _⟩) ((inv.heads _ (D.part_lt k hk)).extend hheld)
    (.inr (by rw [hx]; rfl)) ?_ (inv.others_extend _ _)⟩
  · rw [hnext]
    exact inv.extend_alloc hk hx
  · show (s.bucketsUsed + 1) % 2 ^ 32 ≤ 2 ^ 18
    omega
  · have hchain : (L.extend (D.part k) s.bucketsUsed).chain (D.part k) =
        L.chain (D.part k) ++ [s.bucketsUsed] := update_self ..
    refine ⟨hfit.taken, hfit.holds, m, hm.mono rfl (isPrefix_snoc _ _ _ _),
      ⟨hbeyond.cross, hbeyond.last⟩, ?_, ?_⟩
    · rw [hchain, length_append, hlen]
      rfl
    · rw [hchain, getElem?_append_right (by omega), hlen, Nat.sub_self]
      rfl
  · intro k' hk' hne
    exact (inv.fits k' hk').extend hne hheld _
  · intro q n c d hc hd
    rcases getElem?_snoc_pair hc hd with ⟨hc, hd⟩ | ⟨rfl, hn, hc, rfl⟩
    · exact inv.links_keep (by simp [hx]) _ q n c d hc hd
    · -- the link to the new bucket is the one that the job has to write
      obtain rfl : n = m := by omega
      have hbucket : c = old % 2 ^ 32 := Option.some.inj (hc.symm.trans hm.bucket)
      exact .inr ⟨k, hk, old / 2 ^ 32, by rw [hbucket]; exact update_self ..⟩

theorem inv_link {g : Grant} (hx : s.job k = .link g) : Inv D chains₀ { s with
      chains := update s.chains g.bucket g.next
      job := update s.job k (.swap g) } L := by
  have hfit := inv.fits_of hk hx
  obtain ⟨m, hm, hbeyond, hlen, hnext⟩ := hfit.knows
  refine inv.move hk rfl (update_eq_self ..).symm inv.ledger inv.room
    ⟨hfit.taken, hfit.holds, m + 1, hm, hbeyond, hlen, hnext⟩ (fun k' hk' _ => inv.fits k' hk') inv.holder
    (fun _ _ => ⟨rfl, rfl, rfl⟩) (inv.heads _ (D.part_lt k hk)) (.inr (by rw [hx]; rfl)) ?_ ?_
  · intro q n c d hc hd
    show update s.chains g.bucket g.next c = d ∨ _
    by_cases hcg : c = g.bucket
    · subst hcg
      obtain ⟨rfl, rfl⟩ := inv.ledger.apart _ _ _ _ _ hc hm.bucket
      rw [update_self]
      exact .inl (Option.some.inj (hnext.symm.trans hd))
    · rw [update_of_ne hcg]
      rcases inv.links q n c d hc hd with h | ⟨k', hk', pcnt, h⟩
      · exact .inl h
      · have hne : k' ≠ k := by
          rintro rfl
          rw [hx] at h
          cases h
          exact hcg rfl
        exact .inr ⟨k', hk', pcnt, by rw [← h]; exact update_of_ne hne _ _⟩
  · intro c hc
    by_cases hcg : c = g.bucket
    · subst hcg
      exact ⟨D.part k, m, g.next, hm.bucket, hnext⟩
    · apply inv.others c
      intro heq
      exact hc ((update_of_ne hcg _ _).trans heq)

theorem inv_swap {g : Grant} (hx : s.job k = .swap g) : Inv D chains₀ { s with
      heads := update s.heads (D.part k) (g.next + (g.pcnt + D.cnt k - 4096) * 2 ^ 32)
      job := update s.job k (.granted g) } (L.unlock (D.part k)) := by
  have hfit := inv.fits_of hk hx
  obtain ⟨m, hm, hbeyond, hlen, hnext⟩ := hfit.knows
  have hheld := hfit.holds.1 rfl
  have hcnt := D.cnt_le k hk
  have hpcnt := hm.lt
  have hcross := hbeyond.cross
  have hsmall : g.next < 2 ^ 18 := lt_of_lt_of_le (inv.ledger.lt_used hnext) inv.room
  have hholder : (L.unlock (D.part k)).holder (D.part k) = none := update_self ..
  refine inv.move hk rfl rfl (inv.ledger.unlock _) inv.room ?_ ?_ ?_
    (fun q hq => ⟨update_of_ne hq _ _, rfl, rfl⟩) ?_ (.inl (by omega))
    (inv.links_keep (by simp [hx]) _) inv.others
  · refine ⟨hfit.taken, ?_, m, ⟨hm.lo, hm.lt, hm.bucket⟩, fun _ => hnext⟩
    rw [hholder]
    exact iff_of_false nofun nofun
  · intro k' hk' hne
    apply (inv.fits k' hk').unlock
    rw [hheld]
    exact fun h => hne (Option.some.inj h).symm
  · intro q k' hq
    by_cases hqp : q = D.part k
    · subst hqp
      rw [hholder] at hq
      cases hq
    · exact inv.holder q k' (by rwa [show (L.unlock (D.part k)).holder q = L.holder q from
        update_of_ne hqp _ _] at hq)
  · rw [HeadOk, hholder]
    refine ⟨by omega, ?_, ?_⟩
    · show L.granted (D.part k) + 4095 = 4096 * (L.chain (D.part k)).length + _
      have := hm.lo
      have := hbeyond.last
      omega
    · show lastBucket (L.chain (D.part k)) (L.chain (D.part k)).length = _
      rwa [hlen, show (g.next + (g.pcnt + D.cnt k - 4096) * 2 ^ 32) % 2 ^ 32 = g.next by omega]

end

/-- **Every move keeps the invariant**, as long as bucket numbers stay below the one that stands for
no bucket. -/
theorem step_inv (hsmall : ∀ p, D.total p ≤ 2 ^ 31) (inv : Inv D chains₀ s L) (hk : k ∈ D.jobs)
    (h : step D.cnt D.part s k = some s') (hroom : s'.bucketsUsed ≤ 2 ^ 18) :
    ∃ L', Inv D chains₀ s' L' := by
  have hused := inv.room
  rw [step] at h
  cases hx : s.job k <;> rw [hx] at h <;> cases h
  case add => exact inv_add hsmall inv hk hx
  case min old => exact inv_min inv hk hx
  case alloc old =>
    have hnext : (s.bucketsUsed + 1) % 2 ^ 32 ≤ 2 ^ 18 := hroom
    exact inv_alloc inv hk hx (by omega)
  case link g => exact ⟨L, inv_link inv hk hx⟩
  case swap g => exact ⟨_, inv_swap inv hk hx⟩

/-- A move changes its own job only. -/
theorem step_job {cnt part : κ → ℕ} (h : step cnt part s k = some s') : ∃ x, s'.job = update s.job k x := by
  rw [step] at h
  cases hx : s.job k <;> rw [hx] at h <;> cases h <;> exact ⟨_, rfl⟩

/-- The counter moves by one bucket at most, and only for a bucket that is needed. -/
theorem step_used (inv : Inv D chains₀ s L) (hk : k ∈ D.jobs) (h : step D.cnt D.part s k = some s') :
    s'.bucketsUsed ≤ D.needed ∧ s'.bucketsUsed ≤ s.bucketsUsed + 1 := by
  have hle := inv.ledger.used_le_needed
  rw [step] at h
  cases hx : s.job k <;> rw [hx] at h <;> cases h
  case alloc old =>
    have hlt := (inv.extend_alloc hk hx).used_le_needed
    have hmod := Nat.mod_le (s.bucketsUsed + 1) (2 ^ 32)
    exact ⟨hmod.trans hlt, hmod⟩
  all_goals exact ⟨hle, Nat.le_succ _⟩

end

/-! ## The beginning -/

section

variable {L : Ledger κ} {k k' : κ} {g g' : Grant} {p r r' : ℕ}

/-- What `init_metadata` leaves: every head names the full bucket that stands for none, and the
counter is behind the first buckets of the partitions. -/
structure Fresh (D : Demand κ) (s : State κ) : Prop where
  heads : ∀ p < D.parts, s.heads p = 2 ^ 18 + 4095 * 2 ^ 32
  used : s.bucketsUsed = D.parts
  job : ∀ k, s.job k = .add

/-- Nothing is reserved. -/
def Ledger.empty (κ : Type*) : Ledger κ := ⟨fun _ => [], fun _ => 0, fun _ => [], fun _ => 0, fun _ => none⟩

theorem Fresh.inv (h : Fresh D s) (hparts : D.parts ≤ 2 ^ 18) : Inv D s.chains s (empty κ) := by
  refine ⟨⟨fun _ => .nil _, fun _ => .nil, ?_, ?_, ?_, ?_, fun _ => by simp [empty], ?_⟩, ?_, ?_,
    ?_, ?_, ?_, ?_, ?_⟩
  iterate 4 exact nofun
  · rw [h.used]
    simp [empty]
  · rwa [h.used]
  · intro k _
    rw [h.job k]
    exact ⟨iff_of_false nofun not_mem_nil, iff_of_false nofun nofun, trivial⟩
  · exact nofun
  · intro p hp
    rw [h.heads p hp]
    exact ⟨by omega, by rfl, rfl⟩
  · intro p hp
    rw [h.heads p hp]
    omega
  · exact nofun
  · intro c hc
    exact absurd rfl hc

/-! ## Slots -/

section

variable (inv : Inv D chains₀ s L)
include inv

theorem Inv.bucket_le {m b : ℕ} (h : lastBucket (L.chain p) m = some b) : b ≤ 2 ^ 18 := by
  cases m with
  | zero => exact (Option.some.inj h).symm.le
  | succ m => exact ((inv.ledger.lt_used h).trans_le inv.room).le

/-- The slots of a job are consecutive places of the stream of its partition. -/
theorem Inv.slot_eq_addr (hk : k ∈ D.jobs) (hg : s.job k = .granted g)
    (hr : r < D.cnt k) : g.slot (r + 1) = addr 4096 (L.chain (D.part k)) (L.lo k + r) ∧
      (L.lo k + r) / 4096 < (L.chain (D.part k)).length := by
  obtain ⟨m, hm, hnext⟩ := (inv.fits_of hk hg).knows
  have hlo := hm.lo
  have hlt := hm.lt
  have hcnt := D.cnt_le k hk
  have hslot := Grant.slot_eq (r := r + 1) (inv.bucket_le hm.bucket) hlt
    (fun h => (inv.ledger.lt_used (hnext (by omega))).le.trans inv.room) (by omega)
  -- the place of the job in the bucket `b`, which is the `n`-th of the chain
  have haddr : ∀ n b o, (L.chain (D.part k))[n]? = some b → L.lo k + r = 4096 * n + o → o < 4096 →
      b * 4096 + o = addr 4096 (L.chain (D.part k)) (L.lo k + r) ∧
        (L.lo k + r) / 4096 < (L.chain (D.part k)).length := by
    intro n b o hb ho hlt
    obtain rfl : (L.lo k + r) / 4096 = n := by omega
    rw [addr_of_getElem? hb, show (L.lo k + r) % 4096 = o by omega]
    exact ⟨rfl, (List.getElem?_eq_some_iff.1 hb).1⟩
  rw [hslot]
  by_cases hin : g.pcnt + (r + 1) < 4096
  · rw [if_pos hin]
    cases m with
    | zero => omega
    | succ m => exact haddr m _ _ hm.bucket (by omega) hin
  · rw [if_neg hin]
    exact haddr m _ _ (hnext (by omega)) (by omega) (by omega)

/-- **No two jobs have a slot in common**, and no job has a slot twice. -/
theorem Inv.slot_inj (hk : k ∈ D.jobs) (hk' : k' ∈ D.jobs)
    (hg : s.job k = .granted g) (hg' : s.job k' = .granted g') (hr : r < D.cnt k) (hr' : r' < D.cnt k')
    (h : g.slot (r + 1) = g'.slot (r' + 1)) : k = k' ∧ r = r' := by
  obtain ⟨haddr, hin⟩ := inv.slot_eq_addr hk hg hr
  obtain ⟨haddr', hin'⟩ := inv.slot_eq_addr hk' hg' hr'
  obtain ⟨hp, hv⟩ := inv.ledger.apart.addr_inj (by omega) hin hin'
    (haddr.symm.trans (h.trans haddr'))
  have hlog : k ∈ L.log (D.part k) := (inv.fits k hk).taken.1 (by rw [hg]; rfl)
  have hlog' : k' ∈ L.log (D.part k) := by
    rw [hp]
    exact (inv.fits k' hk').taken.1 (by rw [hg']; rfl)
  obtain rfl | hne := eq_or_ne k k'
  · exact ⟨rfl, by omega⟩
  · have := (inv.ledger.tiles _).apart hlog hlog' hne
    omega

end

/-! ## Progress -/

/-- How far a job is from its places. A failed attempt is farther than none. -/
def Job.rank : Job → ℕ
  | .add => 5
  | .min old => if old / 2 ^ 32 < 4096 then 4 else 6
  | .alloc _ => 3
  | .link _ => 2
  | .swap _ => 1
  | .granted _ => 0

theorem rank_afterMin (p cnt old : ℕ) : (afterMin p cnt old).rank < (Job.min old).rank := by
  rw [afterMin, Job.rank]
  split_ifs <;> simp [rank]

section

variable (inv : Inv D chains₀ s L)
include inv

/-- A partition is locked by a job that is replacing the bucket. -/
theorem Inv.free (h : ∀ k ∈ D.jobs, ¬(s.job k).holds (D.cnt k) = true) (p : ℕ) :
    L.holder p = none := by
  cases hh : L.holder p with
  | none => rfl
  | some k =>
    obtain ⟨hk, rfl⟩ := mem_of.1 (inv.holder p k hh)
    exact absurd ((inv.fits k hk).holds.2 hh) (h k hk)

/-- As long as one of the active jobs waits, one of them can come closer to its places: a job that is
at a lock is held up by the holder only, and the holder never waits. -/
theorem Inv.exists_move [DecidableEq κ] {A : κ → Prop}
    (hA : ∀ k ∈ D.jobs, (s.job k).holds (D.cnt k) = true → A k) (hk : k ∈ D.jobs) (hAk : A k)
    (hwait : 0 < (s.job k).rank) : ∃ k' ∈ D.jobs, A k' ∧ ∃ s' x, step D.cnt D.part s k' = some s' ∧
      s'.job = update s.job k' x ∧ x.rank < (s.job k').rank := by
  by_cases hbusy : ∃ k' ∈ D.jobs, A k' ∧ s.job k' ≠ .add ∧ 0 < (s.job k').rank
  · obtain ⟨k', hk', hAk', hadd, hrank⟩ := hbusy
    refine ⟨k', hk', hAk', ?_⟩
    rw [step]
    cases hx : s.job k' with
    | add => exact absurd hx hadd
    | min old => exact ⟨_, _, rfl, rfl, rank_afterMin _ _ _⟩
    | alloc _ | link _ | swap _ => exact ⟨_, _, rfl, rfl, by simp [rank]⟩
    | granted g =>
      rw [hx] at hrank
      exact absurd hrank (lt_irrefl _)
  · have hidle : ∀ k' ∈ D.jobs, A k' → s.job k' = .add ∨ (s.job k').rank = 0 := by
      intro k' hk' hAk'
      by_contra hcon
      rw [not_or] at hcon
      exact hbusy ⟨k', hk', hAk', hcon.1, Nat.pos_of_ne_zero hcon.2⟩
    -- all active jobs are before their addition or through, so no partition is locked
    have hfree : ∀ p, L.holder p = none := by
      refine inv.free fun k' hk' hholds => ?_
      rcases hidle k' hk' (hA k' hk' hholds) with hx | hx
      · rw [hx] at hholds
        cases hholds
      · cases hx' : s.job k' <;> rw [hx'] at hx hholds
        · cases hholds
        · rw [rank] at hx
          split_ifs at hx
        all_goals cases hx
        cases hholds
    have hadd : s.job k = .add := (hidle k hk hAk).resolve_right (by omega)
    refine ⟨k, hk, hAk, ?_⟩
    rw [step, hadd]
    refine ⟨_, _, rfl, rfl, ?_⟩
    have hlt := ((inv.heads _ (D.part_lt k hk)).of_none (hfree _)).1
    show (if s.heads (D.part k) / 2 ^ 32 < 4096 then 4 else 6) < 5
    rw [if_pos hlt]
    decide

/-! ## The end -/

/-- What holds when all jobs have their places. -/
structure Complete (D : Demand κ) (chains₀ : ℕ → ℕ) (s : State κ) (L : Ledger κ) : Prop where
  log : ∀ p k, k ∈ L.log p ↔ k ∈ D.of p
  granted : ∀ p, L.granted p = D.total p
  length : ∀ p < D.parts, (L.chain p).length = (D.total p + 4095) / 4096
  linked : ∀ p, (L.chain p).IsChain fun a b => s.chains a = b
  last : ∀ p c, (L.chain p)[(L.chain p).length - 1]? = some c → s.chains c = chains₀ c
  used : s.bucketsUsed = D.needed

theorem Inv.complete (hall : ∀ k ∈ D.jobs, ∃ g, s.job k = .granted g) : Complete D chains₀ s L := by
  have hfree : ∀ p, L.holder p = none := by
    refine inv.free fun k hk hholds => ?_
    obtain ⟨g, hg⟩ := hall k hk
    rw [hg] at hholds
    cases hholds
  have hlog : ∀ p k, k ∈ L.log p ↔ k ∈ D.of p := by
    intro p k
    refine ⟨inv.ledger.log_sub p k, fun h => ?_⟩
    obtain ⟨hk, rfl⟩ := mem_of.1 h
    obtain ⟨g, hg⟩ := hall k hk
    exact (inv.fits k hk).taken.1 (by rw [hg]; rfl)
  have hgranted : ∀ p, L.granted p = D.total p := by
    classical
    intro p
    rw [inv.ledger.granted_eq]
    refine Finset.sum_congr (Finset.ext fun k => ?_) fun _ _ => rfl
    rw [mem_toFinset, hlog]
  have hlength : ∀ p < D.parts, (L.chain p).length = (D.total p + 4095) / 4096 := by
    intro p hp
    obtain ⟨hlt, hlen, -⟩ := (inv.heads p hp).of_none (hfree p)
    rw [hgranted] at hlen
    omega
  refine ⟨hlog, hgranted, hlength, ?_, ?_, ?_⟩
  · intro p
    rw [isChain_iff_getElem]
    intro m hm
    rcases inv.links p m _ _ (getElem?_eq_getElem (by omega)) (getElem?_eq_getElem hm) with
      h | ⟨k, hk, pcnt, h⟩
    · exact h
    · obtain ⟨g, hg⟩ := hall k hk
      rw [hg] at h
      cases h
  · intro p c hc
    by_contra hne
    obtain ⟨q, m, d, hm, hd⟩ := inv.others c hne
    obtain ⟨rfl, rfl⟩ := inv.ledger.apart _ _ _ _ _ hc hm
    have := (List.getElem?_eq_some_iff.1 hd).1
    omega
  · rw [inv.ledger.used_eq]
    refine Finset.sum_congr rfl fun p hp => ?_
    rw [hlength p (Finset.mem_range.1 hp)]
    omega

end

end

end Proteus.BucketHeads
