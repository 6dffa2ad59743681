import Mathlib.Algebra.GroupWithZero.Nat
import Mathlib.Algebra.Order.Group.Nat
import Proteus.Machine
import Proteus.OrdMap

/-!
# The memory manager of one device

`SingleDeviceMemoryManager` takes units of `unit_cap` bytes from its device and hands out blocks from
the unit on top of its stack. A block is never returned to its unit; the unit counts its live blocks
and is given up when it is empty and everything above it on the stack is. A request of a unit's size
or more gets a device allocation of its own.

The invariant is in two parts. `Core` ties the stack, the map of units, the big units, the counters
and the live blocks together and holds also while units are being pushed and popped. `Inv` adds what
holds between calls: the unit on top has a live block.
-/

namespace Proteus.MemoryManager

open List MemoryManager Nat OrdMap UInt64

open scoped List

/-! ## Regions -/

/-- Two regions, each a start and a length, have no byte in common. -/
def Apart (a b : ℕ × ℕ) : Prop := a.1 + a.2 ≤ b.1 ∨ b.1 + b.2 ≤ a.1

instance : Std.Symm Apart := ⟨fun _ _ h => Or.symm h⟩

instance (a b : ℕ × ℕ) : Decidable (Apart a b) := inferInstanceAs (Decidable (_ ∨ _))

/-- `a` lies inside `b`. -/
def Within (a b : ℕ × ℕ) : Prop := b.1 ≤ a.1 ∧ a.1 + a.2 ≤ b.1 + b.2

variable {r : ℕ × ℕ}

theorem Apart.within {a b q : ℕ × ℕ} (h : Apart r q) (ha : Within a r) (hb : Within b q) : Apart a b := by
  obtain ⟨ha₁, ha₂⟩ := ha
  obtain ⟨hb₁, hb₂⟩ := hb
  rcases h with h | h
  · exact .inl (by omega)
  · exact .inr (by omega)

theorem Within.refl (a : ℕ × ℕ) : Within a a := ⟨le_refl _, le_refl _⟩

/-- Regions apart from each other and not empty have different starts. -/
theorem Apart.fst_ne {a b : ℕ × ℕ} (h : Apart a b) (ha : 0 < a.2) (hb : 0 < b.2) : a.1 ≠ b.1 := by
  rcases h with h | h <;> omega

/-! ## The manager -/

/-- `fixSize`: at least one byte, rounded up to a multiple of 16, in 64 bits. -/
def fixSize (bytes : ℕ) : ℕ := (max bytes 1 + 15) % 2 ^ 64 / 16 * 16

/-- `alloc_unit_info`; its `base` is the key it is stored under. -/
structure AllocUnitInfo where
  fill : ℕ
  sub_units : ℕ
  deriving DecidableEq, Repr

/-- The tops of `allocations` and `free_cache` are the heads. -/
structure Manager where
  big_units : OrdMap ℕ ℕ
  units : OrdMap ℕ AllocUnitInfo
  allocations : List ℕ
  free_cache : List ℕ
  active_bytes : UInt64

/-- A block that was handed out: what the caller gets is `ptr`. `unit` is the base of the unit it
was carved from, `none` for a device allocation of its own. -/
structure Block where
  ptr : ℕ
  size : ℕ
  unit : Option ℕ
  deriving DecidableEq, Repr

def Block.region (b : Block) : ℕ × ℕ := (b.ptr, b.size)

def freed_cache_cap : ℕ := 16

section

variable (unit_cap : ℕ)

/-- `create_allocation`; `fresh` is the address the device gives out if it is asked. -/
def create_allocation (fresh : ℕ) (m : Manager) : ℕ × Manager :=
  let ptr := m.free_cache.headD fresh
  (ptr, { m with
    active_bytes := m.active_bytes + UInt64.ofNat unit_cap
    free_cache := m.free_cache.tail
    allocations := ptr :: m.allocations
    units := m.units.insert ptr ⟨0, 0⟩ })

/-- `destroy_allocation`; `allocator::free` leaves no trace in the manager. -/
def destroy_allocation (m : Manager) : Manager :=
  match m.allocations with
  | [] => m
  | base :: rest => { m with
      allocations := rest
      active_bytes := m.active_bytes - UInt64.ofNat unit_cap
      free_cache :=
        if m.free_cache.length < freed_cache_cap then base :: m.free_cache else m.free_cache
      units := m.units.erase base }

/-- The unit a small block is carved from; `none` is the failed assertion that the unit on top of
the stack is known. -/
def selectUnit (bytes fresh : ℕ) (m : Manager) : Option (ℕ × Manager) :=
  match m.allocations with
  | [] => some (create_allocation unit_cap fresh m)
  | latest :: _ =>
    (m.units.find? latest).map fun info =>
      if info.fill + bytes > unit_cap then create_allocation unit_cap fresh m else (latest, m)

/-- Carve a block of `bytes` bytes from the unit at `base`. -/
def carve (bytes base : ℕ) (m : Manager) : Option (Block × Manager) :=
  (m.units.find? base).map fun info =>
    (⟨base + info.fill, bytes, some base⟩, { m with
      units := m.units.modify base fun i => ⟨i.fill + bytes, i.sub_units + 1⟩ })

def malloc (bytes fresh : ℕ) (m : Manager) : Option (Block × Manager) :=
  let bytes := fixSize bytes
  if bytes ≥ unit_cap then
    some (⟨fresh, bytes, none⟩, { m with
      big_units := m.big_units.insert fresh bytes
      active_bytes := m.active_bytes + UInt64.ofNat bytes })
  else (selectUnit unit_cap bytes fresh m).bind fun p => carve bytes p.1 p.2

/-- The loop at the end of `free`: give up units from the top of the stack while they are empty. -/
def destroyEmpty : List ℕ → Manager → Option Manager
  | [], m => some m
  | tmp_base :: rest, m =>
    (m.units.find? tmp_base).bind fun info =>
      if info.sub_units = 0 then destroyEmpty rest (destroy_allocation unit_cap m) else some m

/-- `free`; `none` is a failed assertion. -/
def free (ptr : ℕ) (m : Manager) : Option Manager :=
  if ptr = 0 then some m
  else match m.big_units.find? ptr with
    | some bytes => some { m with
        active_bytes := m.active_bytes - UInt64.ofNat bytes
        big_units := m.big_units.erase ptr }
    | none =>
      match m.units.floor? ptr with
      | none => none
      | some (base, info) =>
        if ptr ≤ base + unit_cap ∧ 0 < info.sub_units then
          let m' := { m with
            units := m.units.modify base fun i => { i with sub_units := i.sub_units - 1 } }
          if info.sub_units - 1 = 0 then destroyEmpty unit_cap m'.allocations m' else some m'
        else none

end

/-! ## The invariant -/

variable (unit_cap : ℕ)

/-- What the manager holds of its device. -/
def Manager.regions (m : Manager) : List (ℕ × ℕ) :=
  m.allocations.map (·, unit_cap) ++ m.free_cache.map (·, unit_cap) ++ m.big_units.entries

/-- How many live blocks were carved from the unit at `base`. -/
def liveIn (base : ℕ) (live : List Block) : ℕ := live.countP fun b => decide (b.unit = some base)

structure Core (unit_cap : ℕ) (m : Manager) (live : List Block) : Prop where
  regions_apart : (m.regions unit_cap).Pairwise Apart
  regions_pos : ∀ r ∈ m.regions unit_cap, 0 < r.1
  stack_nodup : m.allocations.Nodup
  stacked : ∀ base, base ∈ m.allocations ↔ (m.units.find? base).isSome
  fill_le : ∀ base info, m.units.find? base = some info → info.fill ≤ unit_cap ∧ 16 ∣ info.fill
  counted : ∀ base info, m.units.find? base = some info → info.sub_units = liveIn base live
  carved : ∀ b ∈ live, ∀ base, b.unit = some base → ∃ info, m.units.find? base = some info ∧
    Within b.region (base, info.fill) ∧ 16 ∣ b.ptr - base
  big : ∀ p n, m.big_units.find? p = some n ↔ ⟨p, n, none⟩ ∈ live
  size_pos : ∀ b ∈ live, 0 < b.size
  live_apart : live.Pairwise fun b c => Apart b.region c.region
  active : m.active_bytes = UInt64.ofNat
    (unit_cap * m.allocations.length + (m.big_units.entries.map Prod.snd).sum)

/-- The unit on top of the stack has a live block. -/
def TopLive (m : Manager) : Prop :=
  ∀ base rest, m.allocations = base :: rest →
    ∃ info, m.units.find? base = some info ∧ 0 < info.sub_units

structure Inv (unit_cap : ℕ) (m : Manager) (live : List Block) : Prop extends
    Core unit_cap m live where
  top_live : TopLive m

/-- The device's part: a fresh allocation is not null and apart from all the manager holds. -/
def Fresh (m : Manager) (p n : ℕ) : Prop :=
  0 < p ∧ ∀ r ∈ m.regions unit_cap, Apart (p, n) r

open Manager

variable {base fresh p : ℕ} {b : Block}

section

variable {unit_cap p n : ℕ} {m : Manager} {b : Block} {live : List Block}

theorem mem_regions : r ∈ m.regions unit_cap ↔ (∃ base ∈ m.allocations, (base, unit_cap) = r) ∨
      (∃ base ∈ m.free_cache, (base, unit_cap) = r) ∨ r ∈ m.big_units.entries := by
  simp [regions]

theorem ofNat_add_sub_left (a n : ℕ) : ofNat (n + a) - ofNat n = ofNat a := by
  rw [add_comm, UInt64.ofNat_add, UInt64.add_sub_cancel]

theorem liveIn_cons (base : ℕ) (b : Block) (live : List Block) :
    liveIn base (b :: live) = liveIn base live + if b.unit = some base then 1 else 0 := by
  rw [liveIn, countP_cons, ← liveIn]
  simp

theorem liveIn_pos : 0 < liveIn base live ↔ ∃ b ∈ live, b.unit = some base := by
  simp [liveIn, countP_pos_iff]

/-- What every unit has after the entry of one has changed. -/
theorem forall_units {units units' : OrdMap ℕ AllocUnitInfo} {x : ℕ → Option AllocUnitInfo}
    {P : ℕ → AllocUnitInfo → Prop} (hfind : ∀ b, units'.find? b = if b = base then x b else units.find? b)
    (hnew : ∀ i, x base = some i → P base i) (hold : ∀ b i, b ≠ base → units.find? b = some i → P b i) (b : ℕ)
    (i : AllocUnitInfo) (hi : units'.find? b = some i) : P b i := by
  rw [hfind] at hi
  split_ifs at hi with hb
  · subst hb
    exact hnew i hi
  · exact hold b i hb hi

namespace Core

variable (h : Core unit_cap m live)
include h

theorem perm {live' : List Block} (hp : live ~ live') : Core unit_cap m live' :=
  { h with
    counted := fun base info hu => (h.counted base info hu).trans (hp.countP_eq _)
    carved := fun b hb => h.carved b (hp.mem_iff.2 hb)
    big := fun p n => (h.big p n).trans hp.mem_iff
    size_pos := fun b hb => h.size_pos b (hp.mem_iff.2 hb)
    live_apart := (hp.pairwise_iff fun h => Or.symm h).1 h.live_apart }

theorem mem_allocations {info : AllocUnitInfo} (hinfo : m.units.find? base = some info) :
    base ∈ m.allocations := (h.stacked base).2 (by simp [hinfo])

/-- A live block lies inside a region of the manager. -/
theorem within_region (hb : b ∈ live) : ∃ r ∈ m.regions unit_cap, Within b.region r ∧
      r = b.unit.elim b.region fun base => (base, unit_cap) := by
  cases hu : b.unit with
  | none =>
    refine ⟨b.region, mem_regions.2 (.inr (.inr ?_)), Within.refl _, rfl⟩
    apply mem_entries_iff.2
    rwa [h.big, ← hu]
  | some base =>
    obtain ⟨info, hinfo, ⟨hlo, hhi⟩, -⟩ := h.carved b hb base hu
    have hfill := (h.fill_le base info hinfo).1
    have hstack := h.mem_allocations hinfo
    refine ⟨(base, unit_cap), mem_regions.2 (.inl ⟨base, hstack, rfl⟩), ⟨hlo, ?_⟩, rfl⟩
    omega

/-- A region apart from all the manager holds is apart from every live block. -/
theorem apart_of_fresh {n : ℕ} (hfresh : Fresh unit_cap m p n)
    (hb : b ∈ live) : Apart (p, n) b.region := by
  obtain ⟨r, hr, hwithin, -⟩ := h.within_region hb
  exact (hfresh.2 r hr).within (Within.refl _) hwithin

/-- Live blocks have different addresses. -/
theorem eq_of_ptr_eq {c : Block} (hb : b ∈ live) (hc : c ∈ live) (hptr : b.ptr = c.ptr) : b = c := by
  by_contra hne
  have hapart := h.live_apart.forall hb hc hne
  exact hapart.fst_ne (h.size_pos b hb) (h.size_pos c hc) hptr

/-- A block carved from a unit is not taken for a big unit. -/
theorem big_find?_eq_none (hb : b ∈ live) (hu : b.unit = some base) : m.big_units.find? b.ptr = none := by
  cases hf : m.big_units.find? b.ptr with
  | none => rfl
  | some n =>
    have heq := h.eq_of_ptr_eq ((h.big _ n).1 hf) hb rfl
    rw [← heq] at hu
    cases hu

theorem ptr_pos (hb : b ∈ live) : 0 < b.ptr := by
  obtain ⟨r, hr, ⟨hlo, -⟩, -⟩ := h.within_region hb
  exact lt_of_lt_of_le (h.regions_pos r hr) hlo

section

variable (hb : base ∈ m.allocations)
include hb

theorem unit_apart_unit {base' : ℕ}
    (hb' : base' ∈ m.allocations) (hne : base ≠ base') : Apart (base, unit_cap) (base', unit_cap) := by
  have hmem : ∀ {c}, c ∈ m.allocations → (c, unit_cap) ∈ m.regions unit_cap :=
    fun hc => mem_regions.2 (.inl ⟨_, hc, rfl⟩)
  exact h.regions_apart.forall (hmem hb) (hmem hb') fun heq => hne (congrArg Prod.fst heq)

theorem unit_apart_big
    (hr : r ∈ m.big_units.entries) : Apart (base, unit_cap) r :=
  (pairwise_append.1 h.regions_apart).2.2 _ (mem_append_left _ (mem_map_of_mem hb)) r hr

/-- A unit is apart from every live block that was not carved from it. -/
theorem unit_apart_block
    {c : Block} (hc : c ∈ live) (hne : c.unit ≠ some base) : Apart (base, unit_cap) c.region := by
  obtain ⟨r, hr, hwithin, hreg⟩ := h.within_region hc
  cases hu : c.unit with
  | none =>
    have hbig : c.region ∈ m.big_units.entries := by
      apply mem_entries_iff.2
      rwa [h.big, ← hu]
    exact h.unit_apart_big hb hbig
  | some base' =>
    obtain ⟨info, hinfo, -⟩ := h.carved c hc base' hu
    have hb' : base' ∈ m.allocations := (h.stacked base').2 (by simp [hinfo])
    rw [hreg, hu] at hwithin
    have hne' : base ≠ base' := fun heq => hne (heq ▸ hu)
    exact (h.unit_apart_unit hb hb' hne').within (Within.refl _) hwithin

end

theorem find?_eq_none (hb : base ∉ m.allocations) : m.units.find? base = none := by
  rwa [h.stacked, Option.not_isSome_iff_eq_none] at hb

end Core

/-! ## Taking units -/

theorem regions_create_perm (unit_cap fresh : ℕ) {rest : List ℕ} (hc : m.free_cache = p :: rest) :
    (create_allocation unit_cap fresh m).2.regions unit_cap ~ m.regions unit_cap := by
  simp only [create_allocation, regions, hc, headD_cons, tail_cons, map_cons,
    cons_append, append_assoc]
  exact perm_middle.symm

namespace Core

variable (h : Core unit_cap m live) {fresh : ℕ} (hfresh : Fresh unit_cap m fresh unit_cap)
include h hfresh

/-- What the manager holds stays apart when a unit is taken. -/
theorem regions_create : ((create_allocation unit_cap fresh m).2.regions unit_cap).Pairwise Apart ∧
      ∀ r ∈ (create_allocation unit_cap fresh m).2.regions unit_cap, 0 < r.1 := by
  cases hc : m.free_cache with
  | nil =>
    have hcons : (create_allocation unit_cap fresh m).2.regions unit_cap =
        (fresh, unit_cap) :: m.regions unit_cap := by simp [create_allocation, regions, hc]
    rw [hcons]
    refine ⟨pairwise_cons.2 ⟨hfresh.2, h.regions_apart⟩, fun r hr => ?_⟩
    rcases mem_cons.1 hr with rfl | hr
    · exact hfresh.1
    · exact h.regions_pos r hr
  | cons p rest =>
    have hp := regions_create_perm unit_cap fresh hc
    exact ⟨(hp.pairwise_iff fun h => Or.symm h).2 h.regions_apart,
      fun r hr => h.regions_pos r (hp.mem_iff.1 hr)⟩

variable (hcap : 0 < unit_cap)
include hcap

/-- A unit that is taken was not in use. -/
theorem create_notMem : (create_allocation unit_cap fresh m).1 ∉ m.allocations := by
  intro hmem
  have hhead := (pairwise_cons.1 (h.regions_create hfresh).1).1
    ((create_allocation unit_cap fresh m).1, unit_cap)
    (mem_append_left _ (mem_append_left _ (mem_map_of_mem hmem)))
  exact hhead.fst_ne hcap hcap rfl

theorem find?_create (base : ℕ) : (create_allocation unit_cap fresh m).2.units.find? base =
      if base = (create_allocation unit_cap fresh m).1 then some ⟨0, 0⟩
      else m.units.find? base :=
  find?_insert (h.find?_eq_none (h.create_notMem hfresh hcap)) _ base

theorem create : Core unit_cap (create_allocation unit_cap fresh m).2 live := by
  have hout := h.create_notMem hfresh hcap
  have hnone := h.find?_eq_none hout
  have hfind := h.find?_create hfresh hcap
  set ptr := (create_allocation unit_cap fresh m).1 with hptr
  exact { h with
    regions_apart := (h.regions_create hfresh).1
    regions_pos := (h.regions_create hfresh).2
    stack_nodup := nodup_cons.2 ⟨hout, h.stack_nodup⟩
    stacked := by
      intro base
      rw [hfind]
      split_ifs with hb
      · simp [create_allocation, hb, hptr]
      · rw [← h.stacked]
        exact mem_cons.trans (or_iff_right hb)
    fill_le := by
      refine forall_units hfind ?_ fun base info _ => h.fill_le base info
      rintro _ ⟨⟩
      simp
    counted := by
      refine forall_units hfind ?_ fun base info _ => h.counted base info
      -- No live block can come from a unit that was not in use.
      rintro _ ⟨⟩
      by_contra hne
      obtain ⟨b, hb', hu⟩ := liveIn_pos.1 (pos_of_ne_zero (Ne.symm hne))
      obtain ⟨info, hinfo, -⟩ := h.carved b hb' ptr hu
      rw [hnone] at hinfo
      cases hinfo
    carved := by
      intro b hb base hu
      obtain ⟨info, hinfo, hrest⟩ := h.carved b hb base hu
      refine ⟨info, ?_, hrest⟩
      rw [hfind, if_neg, hinfo]
      rintro rfl
      rw [hnone] at hinfo
      cases hinfo
    active := by
      show m.active_bytes + _ = _
      rw [h.active, ← ofNat_add]
      congr 1
      simp only [create_allocation, length_cons, mul_succ]
      omega }

end Core

/-! ## Handing out blocks -/

namespace Core

variable {info : AllocUnitInfo} {rest : List ℕ}

/-- A block carved from the free end of a unit. -/
theorem carve (h : Core unit_cap m live) {bytes : ℕ}
    (hinfo : m.units.find? base = some info) (hpos : 0 < bytes) (hdvd : 16 ∣ bytes)
    (hfit : info.fill + bytes ≤ unit_cap) {m' : Manager}
    (hcarve : carve bytes base m = some (b, m')) :
    Core unit_cap m' (b :: live) ∧ b.unit = some base ∧ m'.allocations = m.allocations := by
  rw [MemoryManager.carve, hinfo, Option.map_some, Option.some.injEq, Prod.mk.injEq] at hcarve
  obtain ⟨rfl, rfl⟩ := hcarve
  have hstack := h.mem_allocations hinfo
  have hfind : ∀ base', (m.units.modify base fun i => ⟨i.fill + bytes, i.sub_units + 1⟩).find?
      base' = if base' = base then some ⟨info.fill + bytes, info.sub_units + 1⟩
        else m.units.find? base' := by
    intro base'
    rw [find?_modify]
    split_ifs with hb
    · rw [hb, hinfo]
      rfl
    · rfl
  refine ⟨?_, rfl, rfl⟩
  exact { h with
    stacked := by
      intro base'
      rw [hfind]
      split_ifs with hb
      · simp [hb, hstack]
      · exact h.stacked base'
    fill_le := by
      refine forall_units hfind ?_ fun base info _ => h.fill_le base info
      rintro _ ⟨⟩
      exact ⟨hfit, Nat.dvd_add (h.fill_le base info hinfo).2 hdvd⟩
    counted := by
      refine forall_units hfind ?_ fun base' info' hb hinfo' => ?_
      · rintro _ ⟨⟩
        rw [liveIn_cons, if_pos rfl, h.counted base info hinfo]
      · rw [liveIn_cons, if_neg fun hc => hb (Option.some.inj hc).symm]
        exact h.counted base' info' hinfo'
    carved := by
      intro b hb base' hu
      rw [hfind]
      rcases mem_cons.1 hb with rfl | hb
      · cases hu
        rw [if_pos rfl]
        refine ⟨_, rfl, ⟨le_add_right _ _, ?_⟩, ?_⟩
        · simp only [Block.region]
          omega
        · simpa using (h.fill_le base info hinfo).2
      · obtain ⟨info', hinfo', ⟨hlo, hhi⟩, hoff⟩ := h.carved b hb base' hu
        split_ifs with hb'
        · subst hb'
          rw [hinfo] at hinfo'
          cases hinfo'
          refine ⟨_, rfl, ⟨hlo, ?_⟩, hoff⟩
          simp only at hhi ⊢
          omega
        · exact ⟨info', hinfo', ⟨hlo, hhi⟩, hoff⟩
    big := by
      intro p n
      rw [h.big]
      simp
    size_pos := forall_mem_cons.2 ⟨hpos, h.size_pos⟩
    live_apart := by
      refine pairwise_cons.2 ⟨fun c hc => ?_, h.live_apart⟩
      have hnew : Within (Block.region ⟨base + info.fill, bytes, some base⟩) (base, unit_cap) := by
        refine ⟨le_add_right _ _, ?_⟩
        simp only [Block.region]
        omega
      by_cases hsame : c.unit = some base
      · -- In the same unit the older block ends where the new one starts.
        obtain ⟨info', hinfo', ⟨-, hhi⟩, -⟩ := h.carved c hc base hsame
        rw [hinfo] at hinfo'
        cases hinfo'
        exact .inr hhi
      · exact (h.unit_apart_block hstack hc hsame).within hnew (Within.refl _) }

/-- A device allocation handed out as a block of its own. -/
theorem big_malloc (h : Core unit_cap m live) {n : ℕ} (hfresh : Fresh unit_cap m p n) (hpos : 0 < n) :
    Core unit_cap { m with
      big_units := m.big_units.insert p n
      active_bytes := m.active_bytes + ofNat n } (⟨p, n, none⟩ :: live) := by
  have hnone : m.big_units.find? p = none := by
    rw [find?_eq_none_iff]
    intro n' hmem
    have hlive : (⟨p, n', none⟩ : Block) ∈ live := (h.big p n').1 (mem_entries_iff.1 hmem)
    exact (h.apart_of_fresh hfresh hlive).fst_ne hpos (h.size_pos _ hlive) rfl
  have hperm := entries_insert_perm hnone n
  have hregions : ({ m with
      big_units := m.big_units.insert p n
      active_bytes := m.active_bytes + ofNat n } : Manager).regions unit_cap ~
        (p, n) :: m.regions unit_cap := by
    exact (hperm.append_left _).trans perm_middle
  exact { h with
    regions_apart := (hregions.pairwise_iff fun h => Or.symm h).2
      (pairwise_cons.2 ⟨hfresh.2, h.regions_apart⟩)
    regions_pos := by
      intro r hr
      rcases mem_cons.1 (hregions.mem_iff.1 hr) with rfl | hr
      · exact hfresh.1
      · exact h.regions_pos r hr
    counted := by
      intro base info hinfo
      rw [liveIn_cons, if_neg (by simp)]
      exact h.counted base info hinfo
    carved := forall_mem_cons.2 ⟨nofun, h.carved⟩
    big := by
      intro p' n'
      rw [find?_insert hnone, mem_cons, Block.mk.injEq]
      split_ifs with hp
      · subst hp
        have hold : (⟨p', n', none⟩ : Block) ∉ live := by
          rw [← h.big, hnone]
          simp
        simp [hold, eq_comm]
      · simp [hp, h.big]
    size_pos := forall_mem_cons.2 ⟨hpos, h.size_pos⟩
    live_apart :=
      pairwise_cons.2 ⟨fun c hc => h.apart_of_fresh hfresh hc, h.live_apart⟩
    active := by
      rw [h.active, ← ofNat_add, (hperm.map Prod.snd).sum_eq, map_cons, sum_cons]
      dsimp only
      congr 1
      omega }

/-! ## Taking blocks back -/

theorem big_free (h : Core unit_cap m (⟨p, n, none⟩ :: live)) : Core unit_cap { m with
      active_bytes := m.active_bytes - ofNat n
      big_units := m.big_units.erase p } live := by
  have hfind : m.big_units.find? p = some n := (h.big p n).2 (by simp)
  have hperm := entries_perm_erase hfind
  obtain ⟨hapart, hlive⟩ := pairwise_cons.1 h.live_apart
  have hregions : m.regions unit_cap ~ (p, n) :: ({ m with
      active_bytes := m.active_bytes - ofNat n
      big_units := m.big_units.erase p } : Manager).regions unit_cap := by
    exact (hperm.append_left _).trans perm_middle
  exact { h with
    regions_apart :=
      (pairwise_cons.1 ((hregions.pairwise_iff fun h => Or.symm h).1 h.regions_apart)).2
    regions_pos := fun r hr => h.regions_pos r (hregions.mem_iff.2 (mem_cons_of_mem _ hr))
    counted := by
      intro base info hinfo
      have hcount := h.counted base info hinfo
      rwa [liveIn_cons, if_neg (by simp)] at hcount
    carved := fun b hb => h.carved b (mem_cons_of_mem _ hb)
    big := by
      intro p' n'
      rw [find?_erase]
      split_ifs with hp
      · subst hp
        refine ⟨nofun, fun hmem => ?_⟩
        have hsize := h.size_pos ⟨p', n, none⟩ (by simp)
        have hsize' := h.size_pos _ (mem_cons_of_mem _ hmem)
        exact absurd rfl ((hapart _ hmem).fst_ne hsize hsize')
      · rw [h.big]
        simp [hp]
    size_pos := fun b hb => h.size_pos b (mem_cons_of_mem _ hb)
    live_apart := hlive
    active := by
      rw [h.active, (hperm.map Prod.snd).sum_eq, map_cons, sum_cons, add_left_comm,
        ofNat_add_sub_left] }

/-- The unit that `upper_bound` finds for a live block is the one it was carved from. -/
theorem floor?_block (h : Core unit_cap m live) (hb : b ∈ live) (hu : b.unit = some base) :
    ∃ info, m.units.floor? b.ptr = some (base, info) ∧ m.units.find? base = some info ∧
      b.ptr ≤ base + unit_cap ∧ 0 < info.sub_units := by
  obtain ⟨info, hinfo, ⟨hlo, hhi⟩, -⟩ := h.carved b hb base hu
  have hstack := h.mem_allocations hinfo
  have hfill := (h.fill_le base info hinfo).1
  have hsize := h.size_pos b hb
  simp only [Block.region] at hlo hhi
  refine ⟨info, ?_, hinfo, by omega, ?_⟩
  · refine floor?_eq_some (mem_entries_iff.2 hinfo) hlo fun e he hle => ?_
    -- A unit with a larger base starts behind the end of this one.
    by_contra hlt
    have he' : e.1 ∈ m.allocations := by
      rw [h.stacked, mem_entries_iff.1 (show (e.1, e.2) ∈ m.units.entries from he)]
      rfl
    rcases h.unit_apart_unit hstack he' (by omega) with hap | hap
    all_goals
      omega
  · rw [h.counted base info hinfo, liveIn_pos]
    exact ⟨b, hb, hu⟩

/-- A block of a unit is taken back: the unit counts one less. -/
theorem release (h : Core unit_cap m (b :: live)) (hu : b.unit = some base) : Core unit_cap { m with
      units := m.units.modify base fun i => { i with sub_units := i.sub_units - 1 } } live := by
  obtain ⟨hapart, hlive⟩ := pairwise_cons.1 h.live_apart
  have hfind := find?_modify m.units base fun i => { i with sub_units := i.sub_units - 1 }
  exact { h with
    stacked := by
      intro base'
      rw [h.stacked, hfind]
      split_ifs <;> simp
    fill_le := by
      refine forall_units hfind (fun info hinfo => ?_) fun base info _ => h.fill_le base info
      obtain ⟨i, hi, rfl⟩ := Option.map_eq_some_iff.1 hinfo
      exact h.fill_le base i hi
    counted := by
      refine forall_units hfind (fun info hinfo => ?_) fun base' info hb hinfo => ?_
      · obtain ⟨i, hi, rfl⟩ := Option.map_eq_some_iff.1 hinfo
        have hcount := h.counted base i hi
        rw [liveIn_cons, if_pos hu] at hcount
        simp [hcount]
      · have hcount := h.counted base' info hinfo
        rwa [liveIn_cons, hu, if_neg fun hc => hb (Option.some.inj hc).symm] at hcount
    carved := by
      intro c hc base' hu'
      obtain ⟨info, hinfo, hrest⟩ := h.carved c (mem_cons_of_mem _ hc) base' hu'
      rw [hfind]
      split_ifs
      · exact ⟨⟨info.fill, info.sub_units - 1⟩, by rw [hinfo]; rfl, hrest⟩
      · exact ⟨info, hinfo, hrest⟩
    big := by
      intro p n
      rw [h.big, mem_cons]
      refine or_iff_right fun heq => ?_
      rw [← heq] at hu
      cases hu
    size_pos := fun c hc => h.size_pos c (mem_cons_of_mem _ hc)
    live_apart := hlive }

/-- The unit given up goes to the cache or back to the device. -/
theorem regions_destroy (unit_cap : ℕ) (hstack : m.allocations = base :: rest) :
    (destroy_allocation unit_cap m).regions unit_cap <+~ m.regions unit_cap := by
  rw [destroy_allocation, hstack]
  simp only [regions, hstack, map_cons, cons_append, append_assoc]
  split_ifs
  · exact perm_middle.subperm
  · exact (sublist_cons_self _ _).subperm

/-- An empty unit on top of the stack is given up. -/
theorem destroy (h : Core unit_cap m live) (hstack : m.allocations = base :: rest)
    (hinfo : m.units.find? base = some info) (hzero : info.sub_units = 0) :
    Core unit_cap (destroy_allocation unit_cap m) live ∧
      (destroy_allocation unit_cap m).allocations = rest := by
  have hcount := h.counted base info hinfo
  have hnodup := nodup_cons.1 (hstack ▸ h.stack_nodup)
  rw [destroy_allocation, hstack]
  refine ⟨?_, rfl⟩
  have hfind := find?_erase m.units base
  have hempty : ∀ b ∈ live, b.unit ≠ some base := by
    intro b hb hu
    have hpos := liveIn_pos.2 ⟨b, hb, hu⟩
    omega
  obtain ⟨l, hperm, hsub⟩ := regions_destroy unit_cap hstack
  rw [destroy_allocation, hstack] at hperm
  exact { h with
    regions_apart := (hperm.pairwise_iff fun h => Or.symm h).1 (h.regions_apart.sublist hsub)
    regions_pos := fun r hr => h.regions_pos r (hsub.subset (hperm.mem_iff.2 hr))
    stack_nodup := hnodup.2
    stacked := by
      intro base'
      rw [hfind]
      by_cases hb : base' = base
      · simp [hb, hnodup.1]
      · rw [if_neg hb, ← h.stacked, hstack, mem_cons, or_iff_right hb]
    fill_le := forall_units hfind nofun fun base info _ => h.fill_le base info
    counted := forall_units hfind nofun fun base info _ => h.counted base info
    carved := by
      intro b hb base' hu
      obtain ⟨info', hinfo', hrest⟩ := h.carved b hb base' hu
      refine ⟨info', ?_, hrest⟩
      rw [hfind, if_neg, hinfo']
      intro heq
      exact hempty b hb (heq ▸ hu)
    active := by
      rw [h.active, hstack, length_cons, mul_succ, add_right_comm, add_comm,
        ofNat_add_sub_left] }

/-- The loop of `free` ends with a stack that is empty or has a live block in its top unit. -/
theorem destroyEmpty (h : Core unit_cap m live) :
    ∃ m', destroyEmpty unit_cap m.allocations m = some m' ∧ Core unit_cap m' live ∧
      TopLive m' := by
  induction hs : m.allocations generalizing m with
  | nil =>
    refine ⟨m, rfl, h, fun base rest hstack => ?_⟩
    rw [hs] at hstack
    cases hstack
  | cons base rest ih =>
    obtain ⟨info, hinfo⟩ := Option.isSome_iff_exists.1 ((h.stacked base).1 (by simp [hs]))
    rw [destroyEmpty, hinfo, Option.bind_some]
    by_cases hzero : info.sub_units = 0
    · obtain ⟨hcore, hrest⟩ := h.destroy hs hinfo hzero
      rw [if_pos hzero]
      exact ih hcore hrest
    · rw [if_neg hzero]
      refine ⟨m, rfl, h, fun base' rest' hstack => ?_⟩
      rw [hs] at hstack
      cases hstack
      exact ⟨info, hinfo, pos_of_ne_zero hzero⟩

end Core

/-! ## Calls -/

theorem fixSize_dvd (bytes : ℕ) : 16 ∣ fixSize bytes := dvd_mul_left _ _

variable {bytes : ℕ}

theorem le_fixSize (h : max bytes 1 + 15 < 2 ^ 64) : bytes ≤ fixSize bytes ∧ 0 < fixSize bytes := by
  rw [fixSize]
  omega

/-- The unit selected for a small block has room for it and is on top of the stack. -/
theorem Core.selectUnit (h : Core unit_cap m live) (hlt : bytes < unit_cap)
    (hfresh : Fresh unit_cap m fresh unit_cap) :
    ∃ base m' info rest, selectUnit unit_cap bytes fresh m = some (base, m') ∧
      Core unit_cap m' live ∧ m'.units.find? base = some info ∧
      info.fill + bytes ≤ unit_cap ∧ m'.allocations = base :: rest := by
  have hcap : 0 < unit_cap := by omega
  have hcreate : ∃ info rest, Core unit_cap (create_allocation unit_cap fresh m).2 live ∧
      (create_allocation unit_cap fresh m).2.units.find? (create_allocation unit_cap fresh m).1 =
        some info ∧
      info.fill + bytes ≤ unit_cap ∧
      (create_allocation unit_cap fresh m).2.allocations =
        (create_allocation unit_cap fresh m).1 :: rest := by
    refine ⟨⟨0, 0⟩, m.allocations, h.create hfresh hcap, ?_, ?_, rfl⟩
    · rw [h.find?_create hfresh hcap, if_pos rfl]
    · simp only
      omega
  cases hs : m.allocations with
  | nil =>
    obtain ⟨info, rest, hrest⟩ := hcreate
    exact ⟨_, _, info, rest, by rw [MemoryManager.selectUnit, hs], hrest⟩
  | cons latest rest =>
    obtain ⟨info, hinfo⟩ := Option.isSome_iff_exists.1 ((h.stacked latest).1 (by simp [hs]))
    by_cases hfull : info.fill + bytes > unit_cap
    · obtain ⟨info', rest', hrest⟩ := hcreate
      refine ⟨_, _, info', rest', ?_, hrest⟩
      rw [MemoryManager.selectUnit, hs]
      simp only [hinfo, Option.map_some, if_pos hfull]
    · refine ⟨latest, m, info, rest, ?_, h, hinfo, by omega, hs⟩
      rw [MemoryManager.selectUnit, hs]
      simp only [hinfo, Option.map_some, if_neg hfull]

theorem Inv.malloc (h : Inv unit_cap m live) (hbytes : max bytes 1 + 15 < 2 ^ 64)
    (hfresh : Fresh unit_cap m fresh (max (fixSize bytes) unit_cap)) :
    ∃ b m', malloc unit_cap bytes fresh m = some (b, m') ∧
      Inv unit_cap m' (b :: live) ∧ bytes ≤ b.size := by
  obtain ⟨hle, hpos⟩ := le_fixSize hbytes
  rw [MemoryManager.malloc]
  by_cases hbig : fixSize bytes ≥ unit_cap
  · rw [if_pos hbig]
    rw [max_eq_left hbig] at hfresh
    exact ⟨_, _, rfl, ⟨h.toCore.big_malloc hfresh hpos, h.top_live⟩, hle⟩
  · rw [if_neg hbig]
    rw [max_eq_right (by omega)] at hfresh
    obtain ⟨base, m', info, rest, hsel, hcore, hinfo, hfit, hstack⟩ :=
      h.toCore.selectUnit (not_le.1 hbig) hfresh
    rw [hsel, Option.bind_some]
    obtain ⟨b, m'', hcarve, hsize⟩ : ∃ b m'',
        carve (fixSize bytes) base m' = some (b, m'') ∧ bytes ≤ b.size := by
      rw [carve, hinfo]
      exact ⟨_, _, rfl, hle⟩
    obtain ⟨hcore', hu, hsame⟩ := hcore.carve hinfo hpos (fixSize_dvd bytes) hfit hcarve
    refine ⟨b, m'', hcarve, ⟨hcore', fun base' rest' hstack' => ?_⟩, hsize⟩
    -- The block just carved is live in the unit on top.
    rw [hsame, hstack] at hstack'
    cases hstack'
    obtain ⟨info', hinfo', -⟩ := hcore'.carved b (by simp) base hu
    refine ⟨info', hinfo', ?_⟩
    rw [hcore'.counted base info' hinfo']
    exact liveIn_pos.2 ⟨b, by simp, hu⟩

theorem Inv.free (h : Inv unit_cap m (b :: live)) :
    ∃ m', free unit_cap b.ptr m = some m' ∧ Inv unit_cap m' live := by
  have hne : b.ptr ≠ 0 := (h.toCore.ptr_pos (b := b) (by simp)).ne'
  rw [MemoryManager.free, if_neg hne]
  cases hu : b.unit with
  | none =>
    obtain ⟨p, n, unit⟩ := b
    cases hu
    rw [(h.big p n).2 (by simp)]
    exact ⟨_, rfl, h.toCore.big_free, h.top_live⟩
  | some base =>
    have hmem : b ∈ b :: live := by simp
    obtain ⟨info, hfloor, hinfo, hle, hsub⟩ := h.toCore.floor?_block hmem hu
    rw [h.toCore.big_find?_eq_none hmem hu, hfloor]
    simp only [hle, hsub, and_self, if_true]
    have hcore := h.toCore.release hu
    by_cases hlast : info.sub_units - 1 = 0
    · rw [if_pos hlast]
      obtain ⟨m', hm', hcore', htop⟩ := hcore.destroyEmpty
      exact ⟨m', hm', hcore', htop⟩
    · rw [if_neg hlast]
      refine ⟨_, rfl, hcore, fun base' rest hstack => ?_⟩
      obtain ⟨info', hinfo', hpos⟩ := h.top_live base' rest hstack
      rw [find?_modify]
      by_cases hb : base' = base
      · subst hb
        rw [if_pos rfl, hinfo]
        exact ⟨_, rfl, pos_of_ne_zero hlast⟩
      · rw [if_neg hb]
        exact ⟨info', hinfo', hpos⟩

end

/-! ## Sequences of calls -/

/-- The manager and the blocks its callers hold; `asked p` is how many bytes the last caller that
was given `p` had asked for. -/
structure Sys where
  mgr : Manager
  live : List Block
  asked : ℕ → ℕ

def Sys.init : Sys := ⟨⟨.empty, .empty, [], [], 0⟩, [], fun _ => 0⟩

/-- A call. `fresh` is the address the device would give out. -/
inductive Call
  | malloc (bytes fresh : ℕ)
  | free (ptr : ℕ)
  deriving DecidableEq, Repr

def step (s : Sys) : Call → Option Sys
  | .malloc bytes fresh =>
    (malloc unit_cap bytes fresh s.mgr).map fun p =>
      ⟨p.2, p.1 :: s.live, Function.update s.asked p.1.ptr bytes⟩
  | .free ptr =>
    (free unit_cap ptr s.mgr).map fun m =>
      ⟨m, s.live.eraseP fun b => decide (b.ptr = ptr), s.asked⟩

/-- What callers and the device promise: sizes can be rounded up, the device's allocations are fresh
and only live pointers, or null, are freed. -/
def Proper (s : Sys) : Call → Prop
  | .malloc bytes fresh => max bytes 1 + 15 < 2 ^ 64 ∧
      Fresh unit_cap s.mgr fresh (max (fixSize bytes) unit_cap)
  | .free ptr => ptr = 0 ∨ ∃ b ∈ s.live, b.ptr = ptr

section

variable {unit_cap : ℕ} {s s' : Sys}

/-- The invariant of the manager, and every caller has the bytes it asked for. -/
structure SysInv (unit_cap : ℕ) (s : Sys) : Prop extends Inv unit_cap s.mgr s.live where
  granted : ∀ b ∈ s.live, s.asked b.ptr ≤ b.size

theorem inv_init (unit_cap : ℕ) : SysInv unit_cap Sys.init where
  regions_apart := List.Pairwise.nil
  regions_pos := nofun
  stack_nodup := nodup_nil
  stacked base := by simp [Sys.init, OrdMap.empty, OrdMap.find?]
  fill_le := nofun
  counted := nofun
  carved := nofun
  big p n := by simp [Sys.init, OrdMap.empty, OrdMap.find?]
  size_pos := nofun
  live_apart := List.Pairwise.nil
  active := by simp [Sys.init, empty]
  top_live := nofun
  granted := nofun

/-- A proper call returns and keeps the invariant. -/
theorem SysInv.step (h : SysInv unit_cap s) {a : Call} (hok : Proper unit_cap s a) :
    ∃ s', step unit_cap s a = some s' ∧ SysInv unit_cap s' := by
  cases a with
  | malloc bytes fresh =>
    obtain ⟨b, m', hm, hinv, hsize⟩ := h.toInv.malloc hok.1 hok.2
    refine ⟨⟨m', b :: s.live, Function.update s.asked b.ptr bytes⟩, ?_, hinv, fun c hc => ?_⟩
    · simp [MemoryManager.step, hm]
    by_cases hptr : c.ptr = b.ptr
    · -- The address was not in use, so this is the block just handed out.
      obtain rfl := hinv.toCore.eq_of_ptr_eq hc mem_cons_self hptr
      simpa only [Function.update_self] using hsize
    · have hold : c ∈ s.live := (mem_cons.1 hc).resolve_left fun heq => hptr (heq ▸ rfl)
      simpa only [Function.update_of_ne hptr] using h.granted c hold
  | free ptr =>
    by_cases hlive : ∃ b ∈ s.live, b.ptr = ptr
    · obtain ⟨b₀, hb₀, hptr₀⟩ := hlive
      obtain ⟨b, l₁, l₂, -, hptr, hsplit, herase⟩ :=
        exists_of_eraseP hb₀ (p := fun b => decide (b.ptr = ptr)) (by simpa using hptr₀)
      have hb : b.ptr = ptr := of_decide_eq_true hptr
      have hperm : s.live ~ b :: (l₁ ++ l₂) := hsplit ▸ perm_middle
      have hcore := h.toCore.perm hperm
      obtain ⟨m', hm, hinv⟩ := Inv.free ⟨hcore, h.top_live⟩
      have hold : ∀ c ∈ l₁ ++ l₂, c ∈ s.live := fun c hc => hperm.mem_iff.2 (mem_cons_of_mem b hc)
      refine ⟨⟨m', l₁ ++ l₂, s.asked⟩, ?_, hinv, fun c hc => h.granted c (hold c hc)⟩
      rw [MemoryManager.step, herase, ← hb, hm]
      rfl
    · have hnull : ptr = 0 := hok.resolve_right hlive
      refine ⟨s, ?_, h⟩
      have herase : s.live.eraseP (fun b => decide (b.ptr = ptr)) = s.live := by
        apply eraseP_of_forall_not
        intro b hb hptr
        exact hlive ⟨b, hb, of_decide_eq_true hptr⟩
      rw [MemoryManager.step, herase, MemoryManager.free, if_pos hnull]
      rfl

theorem inv_of_reach (h : Reach (step unit_cap) (Proper unit_cap) Sys.init s) :
    SysInv unit_cap s := by
  refine h.invariant (inv_init unit_cap) ?_
  intro s a s' hinv hok hstep
  obtain ⟨s'', hstep', hinv'⟩ := hinv.step hok
  rw [hstep] at hstep'
  cases hstep'
  exact hinv'

/-- What a caller can rely on. -/
structure Sound (unit_cap : ℕ) (s : Sys) : Prop where
  /-- A live block has at least the bytes its caller asked for. -/
  granted : ∀ b ∈ s.live, s.asked b.ptr ≤ b.size
  /-- Live blocks have no byte in common. -/
  live_apart : s.live.Pairwise fun b c => Apart b.region c.region
  /-- A block carved from a unit lies inside it, at a multiple of 16. -/
  in_unit : ∀ b ∈ s.live, ∀ base, b.unit = some base →
    Within b.region (base, unit_cap) ∧ 16 ∣ b.ptr - base
  /-- A block of its own is the whole of its big unit. -/
  in_big_unit : ∀ b ∈ s.live, b.unit = none → s.mgr.big_units.find? b.ptr = some b.size
  /-- `free` of a block carved from a unit finds that unit and decrements its count. -/
  free_finds : ∀ b ∈ s.live, ∀ base, b.unit = some base →
    s.mgr.big_units.find? b.ptr = none ∧
      ∃ info, s.mgr.units.floor? b.ptr = some (base, info) ∧ info.sub_units = liveIn base s.live
  /-- A unit with a live block is in use, once, and not up for reuse. -/
  unit_kept : ∀ b ∈ s.live, ∀ base, b.unit = some base →
    (s.mgr.units.find? base).isSome ∧ s.mgr.allocations.count base = 1 ∧ base ∉ s.mgr.free_cache
  top_live : ∀ base ∈ s.mgr.allocations.head?, ∃ b ∈ s.live, b.unit = some base
  /-- No proper call fails an assertion. -/
  returns : ∀ a, Proper unit_cap s a → (step unit_cap s a).isSome
  empty : s.live = [] → s.mgr.allocations = [] ∧ s.mgr.units.entries = [] ∧
    s.mgr.big_units.entries = [] ∧ s.mgr.active_bytes = 0

theorem Core.notMem_free_cache {m : Manager} {live : List Block} (h : Core unit_cap m live)
    (hb : b ∈ live) (hu : b.unit = some base) : base ∉ m.free_cache := by
  intro hmem
  obtain ⟨info, hinfo, ⟨hlo, hhi⟩, -⟩ := h.carved b hb base hu
  have hfill := (h.fill_le base info hinfo).1
  have hsize := h.size_pos b hb
  have hstack := h.mem_allocations hinfo
  have hcap : 0 < unit_cap := by
    simp only [Block.region] at hlo hhi
    omega
  have hapart := (pairwise_append.1 (pairwise_append.1 h.regions_apart).1).2.2
    (base, unit_cap) (mem_map_of_mem hstack) (base, unit_cap) (mem_map_of_mem hmem)
  exact hapart.fst_ne hcap hcap rfl

/-- With no live block the manager holds nothing but its cache. -/
theorem Inv.empty {m : Manager} (h : Inv unit_cap m []) :
    m.allocations = [] ∧ m.units.entries = [] ∧ m.big_units.entries = [] ∧ m.active_bytes = 0 := by
  have hstack : m.allocations = [] := by
    cases hs : m.allocations with
    | nil => rfl
    | cons base rest =>
      obtain ⟨info, hinfo, hpos⟩ := h.top_live base rest hs
      rw [h.counted base info hinfo] at hpos
      cases hpos
  have hunits : m.units.entries = [] := by
    rw [entries_eq_nil_iff]
    intro base
    apply h.toCore.find?_eq_none
    simp [hstack]
  have hbig : m.big_units.entries = [] := by
    rw [entries_eq_nil_iff]
    intro p
    cases hf : m.big_units.find? p with
    | none => rfl
    | some n => cases (h.big p n).1 hf
  refine ⟨hstack, hunits, hbig, ?_⟩
  rw [h.active, hstack, hbig]
  rfl

theorem SysInv.sound (h : SysInv unit_cap s) : Sound unit_cap s where
  granted := h.granted
  live_apart := h.live_apart
  in_unit b hb base hu := by
    obtain ⟨r, -, hwithin, hreg⟩ := h.toCore.within_region hb
    obtain ⟨info, -, -, hoff⟩ := h.carved b hb base hu
    rw [hreg, hu] at hwithin
    exact ⟨hwithin, hoff⟩
  in_big_unit b hb hu := by rwa [h.big, ← hu]
  free_finds b hb base hu := by
    obtain ⟨info, hfloor, hinfo, -⟩ := h.toCore.floor?_block hb hu
    exact ⟨h.toCore.big_find?_eq_none hb hu, info, hfloor, h.counted base info hinfo⟩
  unit_kept b hb base hu := by
    obtain ⟨info, hinfo, -⟩ := h.carved b hb base hu
    have hstack : base ∈ s.mgr.allocations := (h.stacked base).2 (by simp [hinfo])
    exact ⟨by simp [hinfo], nodup_iff_count_eq_one.1 h.stack_nodup base hstack,
      h.toCore.notMem_free_cache hb hu⟩
  top_live base hbase := by
    cases hs : s.mgr.allocations with
    | nil => rw [hs] at hbase; cases hbase
    | cons top rest =>
      rw [hs] at hbase
      cases hbase
      obtain ⟨info, hinfo, hpos⟩ := h.top_live base rest hs
      rw [h.counted base info hinfo] at hpos
      exact liveIn_pos.1 hpos
  returns a hok := by
    obtain ⟨s', hs', -⟩ := h.step hok
    simp [hs']
  empty hlive := (hlive ▸ h.toInv : Inv unit_cap s.mgr []).empty

/-- **The allocator invariant.** After every sequence of proper calls. -/
theorem sound_of_reach (unit_cap : ℕ) {s : Sys}
    (h : Reach (step unit_cap) (Proper unit_cap) Sys.init s) : Sound unit_cap s :=
  (inv_of_reach h).sound

/-- With units of 64 bytes: requests for 1 and for 20 bytes share a unit, one for 100 bytes gets a big
unit and one for 40 does not fit the first unit any more; then the first block is freed. -/
theorem sound_of_reach_two_units :
    ∃ s, Reach (step 64) (Proper 64) Sys.init s ∧
      s.live = [⟨4096, 48, some 4096⟩, ⟨2048, 112, none⟩, ⟨1040, 32, some 1024⟩] ∧
      s.live.map (fun b => s.asked b.ptr) = [40, 100, 20] ∧
      s.mgr.allocations = [4096, 1024] ∧ Sound 64 s := by
  have hreach : Reach (step 64) (Proper 64) Sys.init _ := .next (.free 1024)
    (.next (.malloc 40 4096) (.next (.malloc 100 2048) (.next (.malloc 20 512) (.next (.malloc 1 1024)
      .init ⟨by decide, by decide, by decide⟩ rfl) ⟨by decide, by decide, by decide⟩ rfl)
      ⟨by decide, by decide, by decide⟩ rfl) ⟨by decide, by decide, by decide⟩ rfl)
    (.inr ⟨⟨1024, 16, some 1024⟩, by decide, rfl⟩) rfl
  exact ⟨_, hreach, rfl, by decide, rfl, sound_of_reach 64 hreach⟩

end

end Proteus.MemoryManager
