import Mathlib.Data.String.Basic
import Proteus.Machine
import Proteus.Vec

/-!
# Membership tables of `ClusterControl`

The primary keeps the registered executors in a vector, and two maps from ids and control addresses to
pointers to its elements. Registering an executor when the vector is full moves all the others away from
under their pointers; removing one moves those behind it. So the tables are right exactly as long as the
vector has room (or is empty) whenever an executor registers, and only its last element goes.

* `Consistent` and `Undisturbed`: what every call should leave.
* `Safe`: the calls that do, in a state of a run of such calls; `capacity_le_one` says what this is for
  a vector whose first capacity is one.
* `membership_tables`: a call leaves the tables consistent exactly if it is safe.
-/

namespace Proteus.ClusterControl

open List Option

/-! ## Model -/

/-- Ids are 32-bit. -/
structure NodeInfo where
  control_address : String
  executor_id : ℕ

/-- `issued` has all ids that registrations have returned, `registered` those of them that have not been
shut down. `client_conn` maps an id to the address of its stub. -/
structure State where
  executors : Vec NodeInfo
  exec_id_map : OrdMap ℕ Ptr
  exec_address_map : OrdMap String Ptr
  client_conn : OrdMap ℕ String
  executor_id_ctr : ℕ
  issued : List ℕ
  registered : List ℕ

def init : State where
  executors := .empty
  exec_id_map := .empty
  exec_address_map := .empty
  client_conn := .empty
  executor_id_ctr := 0
  issued := []
  registered := []

inductive Call
  | registerExecutor (node : NodeInfo)
  /-- the status is a shutdown -/
  | updateNodeStatus (exec_id : ℕ)

variable (s : State)

def State.nextId : ℕ := (s.executor_id_ctr + 1) % 2 ^ 32

def registerExecutor (g : Growth) (s : State) (node : NodeInfo) : State :=
  let executors := s.executors.push g { node with executor_id := s.nextId }
  { executors
    exec_id_map := s.exec_id_map.insert s.nextId executors.back
    exec_address_map := s.exec_address_map.insert node.control_address executors.back
    client_conn := s.client_conn.insert s.nextId node.control_address
    executor_id_ctr := s.nextId
    issued := s.issued ++ [s.nextId]
    registered := s.registered ++ [s.nextId] }

variable (exec_id : ℕ)

/-- The executor with the given id, as the map finds it. -/
def State.lookupId : Option NodeInfo :=
  (s.exec_id_map.find? exec_id).bind s.executors.deref

def State.lookupAddress (address : String) : Option NodeInfo :=
  (s.exec_address_map.find? address).bind s.executors.deref

def getResultServerId (primary_node_address : String) : Option ℕ :=
  (s.lookupAddress primary_node_address).map NodeInfo.executor_id

/-- The tables without an executor. -/
def State.remove (address : String) : State :=
  { s with
    client_conn := s.client_conn.erase exec_id
    exec_address_map := s.exec_address_map.erase address
    executors := s.executors.removeIf fun x => x.executor_id = exec_id
    exec_id_map := s.exec_id_map.erase exec_id
    registered := s.registered.filter (· ≠ exec_id) }

/-- `none`: the pointer of the id is null or dangles, and the code reads the address through it. -/
def updateNodeStatus : Option State :=
  (s.lookupId exec_id).map fun node => s.remove exec_id node.control_address

def step (g : Growth) (s : State) : Call → Option State
  | .registerExecutor node => some (registerExecutor g s node)
  | .updateNodeStatus exec_id => updateNodeStatus s exec_id

/-! ## The tables -/

structure Consistent (s : State) : Prop where
  ids : Indexes NodeInfo.executor_id s.exec_id_map s.executors
  addresses : Indexes NodeInfo.control_address s.exec_address_map s.executors
  conns : ∀ exec_id, (∃ address, s.client_conn.find? exec_id = some address) ↔ exec_id ∈ s.registered
  issued : s.issued.Nodup

/-- A shutdown leaves the lookups of the other executors as they are. -/
def Undisturbed (c : Call) (s' : State) : Prop :=
  ∀ exec_id, c = .updateNodeStatus exec_id → ∀ node ∈ s.executors.elems, node.executor_id ≠ exec_id →
    s'.lookupId node.executor_id = s.lookupId node.executor_id ∧
      s'.lookupAddress node.control_address = s.lookupAddress node.control_address

/-- Only registered executors are shut down. -/
def Permitted : Call → Prop
  | .registerExecutor _ => True
  | .updateNodeStatus exec_id => exec_id ∈ s.registered

/-- An executor registers when the vector has room for it or nothing points to the vector, and an id is
left. The last executor of the vector is shut down, and no other one has its address. -/
def Safe : Call → Prop
  | .registerExecutor _ =>
    (s.executors.elems = [] ∨ s.executors.elems.length < s.executors.capacity) ∧ s.issued.length < 2 ^ 32
  | .updateNodeStatus exec_id => ∃ rest node, s.executors.elems = rest ++ [node] ∧
      node.executor_id = exec_id ∧ ∀ other ∈ rest, other.control_address ≠ node.control_address

/-- The `n`th registration returns `n` modulo 2^32. -/
def firstIds (n : ℕ) : List ℕ := (List.range n).map fun k => (k + 1) % 2 ^ 32

structure Inv (s : State) : Prop extends Consistent s where
  coversIds : Covers NodeInfo.executor_id s.exec_id_map s.executors
  coversAddresses : Covers NodeInfo.control_address s.exec_address_map s.executors
  registered : s.registered = s.executors.elems.map NodeInfo.executor_id
  registered_nodup : s.registered.Nodup
  registered_issued : ∀ exec_id ∈ s.registered, exec_id ∈ s.issued
  issued_eq : s.issued = firstIds s.issued.length
  ctr : s.executor_id_ctr = s.issued.length % 2 ^ 32

theorem firstIds_succ (n : ℕ) : firstIds (n + 1) = firstIds n ++ [(n + 1) % 2 ^ 32] := by
  rw [firstIds, range_succ, map_append]
  rfl

theorem nodup_firstIds_iff (n : ℕ) : (firstIds n).Nodup ↔ n ≤ 2 ^ 32 := by
  constructor
  · intro h
    by_contra hgt
    -- the first id comes back after 2^32 registrations
    have hget : ∀ k, k < n → (firstIds n)[k]? = some ((k + 1) % 2 ^ 32) := by
      intro k hk
      rw [firstIds, getElem?_map, getElem?_range hk, map_some]
    have hlt : 0 < (firstIds n).length := by
      rw [firstIds, length_map, length_range]
      omega
    have h0 := hget 0 (by omega)
    have hlast := hget (2 ^ 32) (by omega)
    have := (getElem?_inj hlt h).mp (h0.trans hlast.symm)
    omega
  · intro hle
    refine List.Nodup.map_on ?_ nodup_range
    intro i hi j hj hij
    rw [mem_range] at hi hj
    omega

variable {g : Growth} {s s' : State} {node : NodeInfo}

theorem Inv.init : Inv init where
  ids := by intro k p hp; cases hp
  addresses := by intro k p hp; cases hp
  conns := by simp [ClusterControl.init]
  issued := nodup_nil
  coversIds := by intro x hx; cases hx
  coversAddresses := by intro x hx; cases hx
  registered := rfl
  registered_nodup := nodup_nil
  registered_issued := by intro x hx; cases hx
  issued_eq := rfl
  ctr := rfl

section

variable (inv : Inv s)
include inv

theorem Inv.nextId_eq : s.nextId = (s.issued.length + 1) % 2 ^ 32 := by
  rw [State.nextId, inv.ctr]
  omega

theorem Inv.issued_snoc : s.issued ++ [s.nextId] = firstIds (s.issued.length + 1) := by
  rw [firstIds_succ, ← inv.issued_eq, inv.nextId_eq]

theorem Inv.register (hsafe : Safe s (.registerExecutor node)) : Inv (registerExecutor g s node) := by
  obtain ⟨hroom, hlt⟩ := hsafe
  have hissued : (s.issued ++ [s.nextId]).Nodup := by
    rw [inv.issued_snoc, nodup_firstIds_iff]
    omega
  have hnew : s.nextId ∉ s.registered := by
    intro hmem
    have hmem := inv.registered_issued _ hmem
    exact (nodup_append.mp hissued).2.2 _ hmem _ (mem_singleton_self _) rfl
  exact {
    ids := inv.ids.push hroom g { node with executor_id := s.nextId }
    addresses := inv.addresses.push hroom g { node with executor_id := s.nextId }
    conns := by
      intro exec_id
      change _ ↔ exec_id ∈ s.registered ++ [s.nextId]
      rw [mem_append, mem_singleton, ← inv.conns]
      exact OrdMap.exists_find?_insert _
    issued := hissued
    coversIds := inv.coversIds.push _ g { node with executor_id := s.nextId }
    coversAddresses := inv.coversAddresses.push _ g { node with executor_id := s.nextId }
    registered := by
      change s.registered ++ [s.nextId] = map _ (Vec.push ..).elems
      rw [Vec.push_elems, map_append, inv.registered]
      rfl
    registered_nodup := by
      change (s.registered ++ [s.nextId]).Nodup
      rw [← concat_eq_append, nodup_concat]
      exact ⟨hnew, inv.registered_nodup⟩
    registered_issued := by
      intro exec_id hmem
      rcases mem_append.mp hmem with hmem | hmem
      · exact mem_append_left _ (inv.registered_issued _ hmem)
      · exact mem_append_right _ hmem
    issued_eq := by
      change s.issued ++ [s.nextId] = firstIds (s.issued ++ [s.nextId]).length
      rw [length_append]
      exact inv.issued_snoc
    ctr := by
      change s.nextId = (s.issued ++ [s.nextId]).length % 2 ^ 32
      rw [length_append]
      exact inv.nextId_eq }

theorem Inv.safe_of_registerExecutor (h : Consistent (registerExecutor g s node)) :
    Safe s (.registerExecutor node) := by
  constructor
  · by_contra hfull
    rw [not_or] at hfull
    exact not_indexes_push inv.ids inv.coversIds hfull.1 hfull.2 _ _ h.ids
  · have hissued : (s.issued ++ [s.nextId]).Nodup := h.issued
    rw [inv.issued_snoc, nodup_firstIds_iff] at hissued
    omega

theorem Inv.nodup : (s.executors.elems.map NodeInfo.executor_id).Nodup :=
  inv.registered ▸ inv.registered_nodup

variable (hnode : node ∈ s.executors.elems)
include hnode

theorem Inv.eq_of_id {other : NodeInfo} (hother : other ∈ s.executors.elems)
    (hid : node.executor_id = other.executor_id) : node = other :=
  inj_on_of_nodup_map inv.nodup hnode hother hid

/-- A registered executor is found under its id. -/
theorem Inv.lookupId_eq : s.lookupId node.executor_id = some node := by
  obtain ⟨p, hp⟩ := inv.coversIds node hnode
  obtain ⟨node', hnode', hid⟩ := inv.ids _ _ hp
  rw [State.lookupId, hp, bind_some, hnode', inv.eq_of_id (Vec.mem_of_deref hnode') hnode hid]

/-- An executor is found under every registered address, though another one may have the same. -/
theorem Inv.lookupAddress_eq :
    ∃ node' ∈ s.executors.elems, node'.control_address = node.control_address ∧
      s.lookupAddress node.control_address = some node' := by
  obtain ⟨p, hp⟩ := inv.coversAddresses node hnode
  obtain ⟨node', hnode', haddress⟩ := inv.addresses _ _ hp
  refine ⟨node', Vec.mem_of_deref hnode', haddress, ?_⟩
  rw [State.lookupAddress, hp, bind_some, hnode']

theorem Inv.updateNodeStatus_eq :
    updateNodeStatus s node.executor_id = some (s.remove node.executor_id node.control_address) := by
  rw [updateNodeStatus, inv.lookupId_eq hnode]
  rfl

end

section

variable {rest : List NodeInfo}

section

variable (inv : Inv s) (hs : s.executors.elems = rest ++ [node])
include inv hs

theorem Inv.ne_of_mem {other : NodeInfo}
    (hother : other ∈ rest) : other.executor_id ≠ node.executor_id := by
  have hnodup := inv.nodup
  rw [hs, map_append, map_singleton, ← concat_eq_append, nodup_concat] at hnodup
  exact fun h => hnodup.1 (h ▸ mem_map_of_mem hother)

/-- The others keep their order. -/
theorem Inv.remove_elems (address : String) :
    (s.remove node.executor_id address).executors.elems = rest := by
  change s.executors.elems.filter _ = rest
  rw [hs, filter_append, filter_eq_self.mpr, filter_eq_nil_iff.mpr, append_nil]
  · simp
  · intro other hother
    simpa using inv.ne_of_mem hs hother

section

variable (haddress : ∀ other ∈ rest, other.control_address ≠ node.control_address)
include haddress

theorem Inv.remove_last : Inv (s.remove node.executor_id node.control_address) := by
  have helems := inv.remove_elems hs node.control_address
  have hmem : ∀ other ∈ (s.remove node.executor_id node.control_address).executors.elems,
      other ∈ s.executors.elems ∧ other ∈ rest := by
    intro other hother
    rw [helems] at hother
    exact ⟨hs ▸ mem_append_left _ hother, hother⟩
  exact {
    ids := inv.ids.removeLast hs helems rfl
    addresses := inv.addresses.removeLast hs helems rfl
    conns := by
      intro exec_id
      change (∃ address, (s.client_conn.erase _).find? exec_id = some address) ↔
        exec_id ∈ s.registered.filter _
      simp [OrdMap.find?_erase_eq_some, ← inv.conns, and_comm]
    issued := inv.issued
    coversIds := inv.coversIds.erase fun other hother =>
      (hmem other hother).imp_right fun hrest => inv.ne_of_mem hs hrest
    coversAddresses := inv.coversAddresses.erase fun other hother =>
      (hmem other hother).imp_right (haddress other)
    registered := by
      change s.registered.filter _ = (s.executors.elems.filter _).map _
      rw [inv.registered, List.filter_map]
      congr 2
      funext x
      simp
    registered_nodup := inv.registered_nodup.filter _
    registered_issued := by
      intro exec_id hmem
      exact inv.registered_issued exec_id (mem_of_mem_filter hmem)
    issued_eq := inv.issued_eq
    ctr := inv.ctr }

theorem Inv.undisturbed :
    Undisturbed s (.updateNodeStatus node.executor_id)
      (s.remove node.executor_id node.control_address) := by
  intro exec_id hcall other hother hne
  cases hcall
  have inv' := inv.remove_last hs haddress
  have helems := inv.remove_elems hs node.control_address
  have hrest : other ∈ rest := by
    rw [hs, mem_append, mem_singleton] at hother
    exact hother.resolve_right fun h => hne (congrArg _ h)
  constructor
  · rw [inv.lookupId_eq hother, inv'.lookupId_eq (helems ▸ hrest)]
  · -- the pointer is the same, and it is not to the element that goes
    have hne := haddress other hrest
    obtain ⟨p, hp⟩ := inv.coversAddresses other hother
    obtain ⟨found, hfound, hkey⟩ := inv.addresses _ _ hp
    have hp' := OrdMap.find?_erase_eq_some.mpr ⟨hne, hp⟩
    have hfound' : (s.remove node.executor_id node.control_address).executors.deref p = some found := by
      refine Vec.deref_removeLast hs helems rfl hfound ?_
      rintro rfl
      exact hne hkey.symm
    rw [State.lookupAddress, State.lookupAddress, hp, bind_some, hfound]
    exact bind_eq_some_iff.mpr ⟨p, hp', hfound'⟩

end

end

theorem Inv.safe_of_remove (inv : Inv s) (hnode : node ∈ s.executors.elems)
    (h : Consistent (s.remove node.executor_id node.control_address))
    (hothers : Undisturbed s (.updateNodeStatus node.executor_id)
      (s.remove node.executor_id node.control_address)) :
    Safe s (.updateNodeStatus node.executor_id) := by
  have hne : s.executors.elems ≠ [] := ne_nil_of_mem hnode
  obtain ⟨rest, last, hs⟩ := (eq_nil_or_concat' _).resolve_left hne
  have hmem : last ∈ s.executors.elems := by simp [hs]
  by_cases hlast : last.executor_id = node.executor_id
  · refine ⟨rest, last, hs, hlast, ?_⟩
    intro other hother haddress
    -- the address has no entry any more
    have hother' : other ∈ s.executors.elems := hs ▸ mem_append_left _ hother
    obtain ⟨found, -, -, hfound⟩ := inv.lookupAddress_eq hother'
    have hkept := (hothers _ rfl other hother' (hlast ▸ inv.ne_of_mem hs hother)).2
    rw [hfound, haddress, inv.eq_of_id hmem hnode hlast, State.lookupAddress, State.remove,
      OrdMap.find?_erase, if_pos rfl] at hkept
    cases hkept
  · -- the pointer to the last element is behind the end
    have hlen : (s.remove node.executor_id node.control_address).executors.elems.length ≤ rest.length := by
      have hlt : (s.remove node.executor_id node.control_address).executors.elems.length <
          s.executors.elems.length :=
        length_filter_lt_length_iff_exists.mpr ⟨node, hnode, by simp⟩
      have hone : s.executors.elems.length = rest.length + 1 := by simp [hs]
      omega
    exact absurd h.ids (not_indexes_remove inv.ids inv.coversIds inv.nodup hs hlen hlast)

end

/-! ## Runs -/

theorem inv_of_reach (hs : Reach (step g) Safe init s) : Inv s := by
  refine hs.invariant Inv.init ?_
  intro s c s' inv hsafe hstep
  cases c with
  | registerExecutor node =>
    cases hstep
    exact inv.register hsafe
  | updateNodeStatus exec_id =>
    obtain ⟨rest, node, hs, rfl, haddress⟩ := hsafe
    have hnode : node ∈ s.executors.elems := by simp [hs]
    rw [step, inv.updateNodeStatus_eq hnode, some.injEq] at hstep
    exact hstep ▸ inv.remove_last hs haddress

/-- **The membership tables are consistent exactly as long as the calls are safe**: after a run of safe
calls they are, and of the calls that may come next the safe ones and no others leave them so and the other
executors as they are. -/
theorem membership_tables (g : Growth) : (∀ s, Reach (step g) Safe init s → Consistent s) ∧
      ∀ s, Reach (step g) Safe init s → ∀ c, Permitted s c →
        ∃ s', step g s c = some s' ∧ (Consistent s' ∧ Undisturbed s c s' ↔ Safe s c) := by
  refine ⟨fun s hs => (inv_of_reach hs).toConsistent, ?_⟩
  intro s hs c hc
  have inv := inv_of_reach hs
  cases c with
  | registerExecutor node =>
    refine ⟨_, rfl, fun h => inv.safe_of_registerExecutor h.1, fun h => ⟨(inv.register h).toConsistent, ?_⟩⟩
    intro exec_id hcall
    cases hcall
  | updateNodeStatus exec_id =>
    rw [Permitted, inv.registered, List.mem_map] at hc
    obtain ⟨node, hnode, rfl⟩ := hc
    refine ⟨_, inv.updateNodeStatus_eq hnode, fun h => inv.safe_of_remove hnode h.1 h.2, ?_⟩
    rintro ⟨rest, last, hs, hlast, haddress⟩
    obtain rfl := inv.eq_of_id (by simp [hs]) hnode hlast
    exact ⟨(inv.remove_last hs haddress).toConsistent, inv.undisturbed hs haddress⟩

/-- The result server is an executor at the primary's address, if one is registered there. -/
theorem getResultServerId_eq (hs : Reach (step g) Safe init s) (hnode : node ∈ s.executors.elems) :
    ∃ server ∈ s.executors.elems, server.control_address = node.control_address ∧
      getResultServerId s node.control_address = some server.executor_id := by
  obtain ⟨server, hmem, haddress, hfound⟩ := (inv_of_reach hs).lookupAddress_eq hnode
  refine ⟨server, hmem, haddress, ?_⟩
  rw [getResultServerId, hfound]
  rfl

/-- A vector that starts with room for one element never gets more: an executor registers only when there
is no other. -/
theorem capacity_le_one (hg : g.grow 0 = 1) (hs : Reach (step g) Safe init s) :
    s.executors.capacity ≤ 1 := by
  refine hs.invariant (I := fun s => s.executors.capacity ≤ 1) (Nat.zero_le _) ?_
  intro s c s' hle hsafe hstep
  cases c with
  | registerExecutor node =>
    cases hstep
    change (s.executors.push g _).capacity ≤ 1
    rw [Vec.push_capacity]
    split_ifs with hroom
    · exact hle
    · have hempty := hsafe.1.resolve_right hroom
      rw [hempty, length_nil, Nat.not_lt, Nat.le_zero] at hroom
      rw [hroom, hg]
  | updateNodeStatus exec_id =>
    obtain ⟨node, -, rfl⟩ := map_eq_some_iff.mp hstep
    exact hle

/-- The vector of the standard library. -/
def doubling : Growth where
  grow n := n + max n 1
  lt_grow n := by omega

def nodeAt (address : String) : NodeInfo := ⟨address, 0⟩

/-- A vector that starts with room for four elements. -/
def byFours : Growth := ⟨(· + 4), fun n => by omega⟩

/-- Two executors register, the second one is shut down, and another one registers. -/
theorem membership_tables_byFours : ∃ s, Reach (step byFours) Safe init s ∧ s.registered = [1, 3] ∧
    Consistent s := by
  have h₁ : Reach (step byFours) Safe init _ :=
    .next (.registerExecutor (nodeAt "a")) .init ⟨.inl rfl, by decide⟩ rfl
  have h₂ := h₁.next (Call.registerExecutor (nodeAt "b")) ⟨.inr (by decide), by decide⟩ rfl
  have h₃ := h₂.next (Call.updateNodeStatus 2) ⟨[⟨"a", 1⟩], ⟨"b", 2⟩, rfl, rfl, by simp⟩ rfl
  have h₄ := h₃.next (Call.registerExecutor (nodeAt "c")) ⟨.inr (by decide), by decide⟩ rfl
  exact ⟨_, h₄, rfl, (membership_tables _).1 _ h₄⟩

/-- The second registration leaves the pointer of the first executor dangling. After four of them (there is
room for the fourth) the third executor is shut down, and the fourth one is not found any more. -/
theorem lookup_lost : (∃ s, exec (step doubling) init
        [.registerExecutor (nodeAt "a"), .registerExecutor (nodeAt "b")] = some s ∧
      s.registered = [1, 2] ∧ s.exec_id_map.find? 1 = some ⟨1, 0⟩ ∧ s.lookupId 1 = none) ∧
    ∃ s s', exec (step doubling) init
        [.registerExecutor (nodeAt "a"), .registerExecutor (nodeAt "b"), .registerExecutor (nodeAt "c"),
          .registerExecutor (nodeAt "d")] = some s ∧
      step doubling s (.updateNodeStatus 3) = some s' ∧
      s.lookupId 4 = some ⟨"d", 4⟩ ∧ s'.registered = [1, 2, 4] ∧ s'.lookupId 4 = none :=
  ⟨⟨_, rfl, rfl, rfl, rfl⟩, _, _, rfl, rfl, rfl, rfl, rfl⟩

end Proteus.ClusterControl
