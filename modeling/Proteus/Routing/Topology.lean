import Mathlib.Data.Finset.Card

/-!
# Topology, affinitizers and the consumers of a generalized router

The routing code asks three things of the machine: how many CPU NUMA nodes and GPUs it has,
which of them a consumer may run on, and which of those is local to a data pointer. The last
two are the job of an `Affinitizer`. Its two index functions, `getCUIndexDomain` for the
policies and `getAvailableCU` for the workers, are written independently in the source; the
fields of the structure say what its documentation says about them.

Queues and free pools are numbered per consumer as `[CPU nodes, GPUs]`: a compute unit of a
device type sits `DeviceType.base` places behind its own index.
-/

namespace Proteus.Routing

open List

/-- `DeviceType`. -/
inductive DeviceType
  | CPU
  | GPU
  deriving DecidableEq, Repr

/-- The counts of `topology::getInstance()`. -/
structure Topology where
  getCpuNumaNodeCount : ℕ
  getGpuCount : ℕ
  deriving DecidableEq, Repr

namespace Topology

variable (topo : Topology)

/-- `count_cus`, `system_count_cus`: the queues of one consumer. -/
def countCus : ℕ := topo.getCpuNumaNodeCount + topo.getGpuCount

/-- The compute units of one device type: what `countAllCUs` of its affinitizers returns. -/
def countOf : DeviceType → ℕ
  | .CPU => topo.getCpuNumaNodeCount
  | .GPU => topo.getGpuCount

/-- Where the compute units of a device type start in a consumer's queues. -/
def base : DeviceType → ℕ
  | .CPU => 0
  | .GPU => topo.getCpuNumaNodeCount

theorem base_add_lt_countCus {topo : Topology} {d : DeviceType} {x : ℕ} (h : x < topo.countOf d) :
    topo.base d + x < topo.countCus := by
  cases d <;> simp only [base, countOf, countCus] at * <;> omega

theorem countOf_le_countCus (d : DeviceType) : topo.countOf d ≤ topo.countCus := by
  cases d <;> simp only [countOf, countCus] <;> omega

end Topology

/-- An `Affinitizer` over `countAllCUs` compute units. `getAvailableCUIndex i` is
`getAvailableCU(i).index_in_topo`; `getLocalCUIndex p r` is the local index of the data pointer
`p` when the call to `rand()` it may make returns `r`. -/
structure Affinitizer (Ptr : Type*) (countAllCUs : ℕ) where
  getAvailableCUIndex : ℕ → ℕ
  countAffCUs : ℕ
  getCUIndexDomain : List ℕ
  getLocalCUIndex : Ptr → ℕ → ℕ
  countAffCUs_eq : countAffCUs = getCUIndexDomain.length
  countAffCUs_pos : 0 < countAffCUs
  domain_nodup : getCUIndexDomain.Nodup
  domain_lt : ∀ x ∈ getCUIndexDomain, x < countAllCUs
  /-- The domain lists the compute units the affinitizer may return. -/
  mem_domain_iff : ∀ x, x ∈ getCUIndexDomain ↔ ∃ i < countAffCUs, getAvailableCUIndex i = x
  local_mem_domain : ∀ p r, getLocalCUIndex p r ∈ getCUIndexDomain

variable {Ptr : Type*}

namespace Affinitizer

variable {n : ℕ}

/-- The `j`-th compute unit of the domain, for any `j` reduced by the domain's size. -/
def domainAt (aff : Affinitizer Ptr n) (r : ℕ) : ℕ :=
  aff.getCUIndexDomain.getD (r % aff.countAffCUs) 0

section

variable (aff : Affinitizer Ptr n)
include aff

theorem mod_lt_length (r : ℕ) : r % aff.countAffCUs < aff.getCUIndexDomain.length := by
  rw [← aff.countAffCUs_eq]
  exact Nat.mod_lt _ aff.countAffCUs_pos

theorem getElem?_mod (r : ℕ) : aff.getCUIndexDomain[r % aff.countAffCUs]? = some (aff.domainAt r) := by
  have h := aff.mod_lt_length r
  rw [domainAt, getD_eq_getElem?_getD, getElem?_eq_getElem h]
  rfl

theorem domainAt_mem (r : ℕ) : aff.domainAt r ∈ aff.getCUIndexDomain :=
  mem_of_getElem? (aff.getElem?_mod r)

theorem countAffCUs_le : aff.countAffCUs ≤ n := by
  have hsub : aff.getCUIndexDomain.toFinset ⊆ Finset.range n := fun x hx =>
    Finset.mem_range.2 (aff.domain_lt x (mem_toFinset.1 hx))
  have h := Finset.card_le_card hsub
  rwa [Finset.card_range, toFinset_card_of_nodup aff.domain_nodup, ← aff.countAffCUs_eq] at h

end

/-- An affinitizer over all `n` compute units whose locality is the given function:
`CpuNumaNodeAffinitizer` with `locate` the NUMA node of the pointer. -/
def allCUs (locate : Ptr → ℕ → Fin n) (hn : 0 < n) : Affinitizer Ptr n where
  getAvailableCUIndex i := i % n
  countAffCUs := n
  getCUIndexDomain := range n
  getLocalCUIndex p r := locate p r
  countAffCUs_eq := by simp
  countAffCUs_pos := hn
  domain_nodup := nodup_range
  domain_lt x hx := mem_range.1 hx
  mem_domain_iff x := by
    rw [mem_range]
    constructor
    · intro hx
      exact ⟨x, hx, Nat.mod_eq_of_lt hx⟩
    · rintro ⟨i, -, rfl⟩
      exact Nat.mod_lt _ hn
  local_mem_domain p r := mem_range.2 (locate p r).2

end Affinitizer

/-- A `GeneralizedRouterConsumer`: its target device, affinitizer and fan-out. -/
structure Consumer (Ptr : Type*) (topo : Topology) where
  target_device : DeviceType
  aff : Affinitizer Ptr (topo.countOf target_device)
  fanout : ℕ

namespace Consumer

variable {topo : Topology} {c : Consumer Ptr topo}

/-- Where the consumer's compute units start among its queues. -/
def base (c : Consumer Ptr topo) : ℕ := topo.base c.target_device

theorem base_of_gpu (h : c.target_device = .GPU) : c.base = topo.getCpuNumaNodeCount := by
  rw [base, h]
  rfl

theorem base_of_not_gpu (h : c.target_device ≠ .GPU) : c.base = 0 := by
  rw [base]
  cases hd : c.target_device with
  | CPU => rfl
  | GPU => exact absurd hd h

theorem base_add_lt (c : Consumer Ptr topo) {x : ℕ} (hx : x ∈ c.aff.getCUIndexDomain) :
    c.base + x < topo.countCus :=
  Topology.base_add_lt_countCus (c.aff.domain_lt x hx)

theorem countAffCUs_le (c : Consumer Ptr topo) : c.aff.countAffCUs ≤ topo.countCus :=
  c.aff.countAffCUs_le.trans (topo.countOf_le_countCus _)

end Consumer

end Proteus.Routing
