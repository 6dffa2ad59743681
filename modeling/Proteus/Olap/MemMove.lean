import Mathlib.Data.List.GetD
import Mathlib.Order.Lattice

/-!
# Where `MemMoveDevice` puts pages

A column of a work unit comes as a pointer, or as the id of a page on an NVMe drive. A page is read into a
buffer on the target device if `do_transfer` says so for its column, and else into memory of the CPU node
next to the drive ("staging"). For a GPU, if the first column is a page, all columns are pushed in one
batch; otherwise they are pushed one by one. `open` creates the `io_uring` instance that reads pages into
CPU memory.

The three places do not agree on the column. `force_push_from_nvme` looks at `do_transfer[index_in_wu]`,
which the loop of `make_mem_move_device` counts in eight bits and the batch leaves at 0; the batch counts
its own columns in eight bits as well, and does not come to an end if there are more than 255 of them;
and `open` creates no `io_uring` for a GPU if a single column is transferred. So staging one of two columns
reads through a null pointer (`stage_second_column`).

* `placed_iff`: pages come to the right place exactly if, for a GPU and a first column that is a page,
  there are at most 255 columns and either all or none are transferred, and otherwise `do_transfer` is the
  same for columns 256 apart that are pages (or it does not matter), and no column to be moved is in the
  memory of another GPU.
-/

namespace Proteus.MemMove

open List Except

/-! ## Model -/

/-- A page and what `getPageIoInfo` says about it. -/
structure Page where
  cpuNumaAffinity : ℕ
  is_compressed : Bool
  size : ℕ
  offset : ℕ
  deriving DecidableEq

/-- The source pointer of a column. -/
inductive Src
  | page (p : Page)
  | cpu (node addr : ℕ)
  | gpu (id addr : ℕ)
  deriving DecidableEq

inductive Place
  | gpu (id : ℕ)
  | cpu (node : ℕ)
  deriving DecidableEq

inductive Io
  | io_uring
  | cuFile
  deriving DecidableEq

/-- A block, or the source itself. -/
inductive Buff
  | source (s : Src)
  /-- a block that a page is read into -/
  | loaded (place : Place) (p : Page) (io : Io)
  /-- a block that another one is copied into -/
  | copied (place : Place) (s : Src)
  deriving DecidableEq

/-- `buff_pair`; a null `old_buff` is `none`. -/
structure Slot where
  new_buff : Buff
  old_buff : Option Src
  deriving DecidableEq

/-- What ends the process. -/
inductive Fault
  /-- a check fails -/
  | check
  /-- a null pointer is read through -/
  | null
  deriving DecidableEq

/-- The thread that pushes and the machine it runs on: its NUMA node, the package of each node and the
size of a block. -/
structure Host where
  node : ℕ
  package : ℕ → ℕ
  block_size : ℕ

/-- `MemMoveDevice`: where to move to, from which kind of relation, and which columns. -/
structure Op where
  to_cpu : Bool
  activeGpu : ℕ
  nvme : Bool
  do_transfer : List Bool

/-- What `open` puts into the `MemMoveConf`. -/
structure Conf where
  io_uring : Bool
  nvme_plugin : Bool
  do_transfer : List Bool

/-- `getTargetDevice`; `none` is -1. -/
def Op.getTargetDevice (op : Op) : Option ℕ := if op.to_cpu then none else some op.activeGpu

def Op.open (op : Op) : Conf where
  io_uring := op.nvme && (op.to_cpu || op.do_transfer.all fun v => !v)
  nvme_plugin := op.nvme
  do_transfer := op.do_transfer

/-- `h_get_buffer`; for the CPU it takes a buffer of the node the thread runs on. -/
def h_get_buffer (h : Host) : Option ℕ → Place
  | some id => .gpu id
  | none => .cpu h.node

/-- The buffer that `force_push_from_nvme` takes. -/
def nvmeBuffer (h : Host) (c : Conf) (index_in_wu : ℕ) (target : Option ℕ) (p : Page) :
    Except Fault Place :=
  if c.nvme_plugin = false then .error .check
  else if c.do_transfer.getD index_in_wu false then .ok (h_get_buffer h target)
  else if target = none then .ok (.cpu p.cpuNumaAffinity)
  else .error .check

/-- A read into CPU memory. -/
def nvmeRead (c : Conf) : Except Fault Io := if c.io_uring then .ok .io_uring else .error .null

variable (h : Host)

/-- How `force_push_from_nvme` reads the page. -/
def nvmeIo (c : Conf) (target : Option ℕ) (p : Page) : Except Fault Io :=
  if p.is_compressed ∧ target = none then
    if p.offset % 512 = 0 then nvmeRead c else .error .check
  else if p.size ≤ h.block_size ∧ p.size % 4096 = 0 then
    if target = none then nvmeRead c else .ok .cuFile
  else .error .check

def force_push_from_nvme (c : Conf) (index_in_wu : ℕ) (target : Option ℕ) (p : Page) :
    Except Fault Buff :=
  (nvmeBuffer h c index_in_wu target p).bind fun place =>
    (nvmeIo h c target p).map fun io => .loaded place p io

/-- The pair of a page, which has no buffer to release. -/
def pushPage (h : Host) (c : Conf) (index_in_wu : ℕ) (target : Option ℕ) (p : Page) :
    Except Fault Slot :=
  (force_push_from_nvme h c index_in_wu target p).map fun buff => ⟨buff, none⟩

/-- `push`. Memory of a GPU has no CPU node. -/
def push (c : Conf) (index_in_wu : ℕ) (target : Option ℕ) : Src → Except Fault Slot
  | .page p => pushPage h c index_in_wu target p
  | .gpu id addr => if target = some id then .ok ⟨.source (.gpu id addr), none⟩ else .error .null
  | .cpu node addr =>
    if h.package node = h.package h.node then .ok ⟨.source (.cpu node addr), none⟩
    else .ok ⟨.copied (h_get_buffer h target) (.cpu node addr), some (.cpu node addr)⟩

/-- The body of the loop of `make_mem_move_device`. -/
def pushColumn (h : Host) (c : Conf) (target : Option ℕ) (i index_in_wu : ℕ) (s : Src) :
    Except Fault Slot :=
  match s with
  | .page p => push h c index_in_wu target (.page p)
  | s => if c.do_transfer.getD i false then push h c index_in_wu target s else .ok ⟨.source s, none⟩

/-- The loop of `make_mem_move_device`; `index_in_wu` has eight bits. -/
def pushColumns (h : Host) (c : Conf) (target : Option ℕ) : (i index_in_wu : ℕ) → List Src →
    Except Fault (List Slot)
  | _, _, [] => .ok []
  | i, index_in_wu, s :: src =>
    (pushColumn h c target i index_in_wu s).bind fun slot =>
      (pushColumns h c target (i + 1) ((index_in_wu + 1) % 256) src).map (slot :: ·)

/-- The body of the loop of `batch_push_nvme_to_gpu`, where `index_in_wu` is 0. -/
def batchColumn (h : Host) (c : Conf) (id i : ℕ) : Src → Except Fault Slot
  | .page p =>
    if c.do_transfer.getD i false = false then pushPage h c 0 none p
    else if p.is_compressed = false then pushPage h c 0 (some id) p
    else .ok ⟨.loaded (.gpu id) p .cuFile, none⟩
  | _ => .error .check

/-- The loop of `batch_push_nvme_to_gpu`, whose counter `i` has eight bits; `none` when it has taken more
than `fuel` rounds. -/
def batch_push_nvme_to_gpu (h : Host) (c : Conf) (id : ℕ) (src : List Src) : (fuel i : ℕ) →
    List Slot → Option (Except Fault (List Slot))
  | 0, _, _ => none
  | fuel + 1, i, buff_pairs =>
    match src[i]? with
    | none => some (.ok buff_pairs)
    | some s =>
      match batchColumn h c id i s with
      | .error e => some (.error e)
      | .ok slot => batch_push_nvme_to_gpu h c id src fuel ((i + 1) % 256) (buff_pairs ++ [slot])

/-- `make_mem_move_device`: the slots of the work unit. -/
def make_mem_move_device (h : Host) (c : Conf) (target : Option ℕ) (src : List Src) (fuel : ℕ) :
    Option (Except Fault (List Slot)) :=
  match src, target with
  | .page _ :: _, some id => batch_push_nvme_to_gpu h c id src fuel 0 []
  | src, target => some (pushColumns h c target 0 0 src)

/-! ## Results of a sequence of calls -/

section

variable {ε α β : Type*} {x : Except ε α} {f : α → Except ε β} {g : α → β} {b : β} {e : ε}

theorem bind_eq_ok (h : x.bind f = .ok b) : ∃ a, x = .ok a ∧ f a = .ok b := by
  cases x with
  | error e => cases h
  | ok a => exact ⟨a, rfl, h⟩

theorem bind_eq_error (h : x.bind f = .error e) : x = .error e ∨ ∃ a, x = .ok a ∧ f a = .error e := by
  cases x with
  | error e' => exact .inl (congrArg error (error.inj h))
  | ok a => exact .inr ⟨a, rfl, h⟩

theorem map_eq_ok (h : x.map g = .ok b) : ∃ a, x = .ok a ∧ g a = b := by
  cases x with
  | error e => cases h
  | ok a => exact ⟨a, rfl, ok.inj h⟩

theorem map_eq_error (h : x.map g = .error e) : x = .error e := by
  cases x with
  | error e' => exact congrArg error (error.inj h)
  | ok a => cases h

end

/-! ## One page -/

variable {h : Host} {c : Conf} {target : Option ℕ}

section

variable {index_in_wu : ℕ} {p : Page}

/-- Where a page of a column with this flag belongs. -/
def wanted (h : Host) (target : Option ℕ) (p : Page) (transfer : Bool) : Place :=
  if transfer then h_get_buffer h target else .cpu p.cpuNumaAffinity

theorem nvmeBuffer_ok {place : Place} (hok : nvmeBuffer h c index_in_wu target p = .ok place) :
    c.nvme_plugin = true ∧ place = wanted h target p (c.do_transfer.getD index_in_wu false) := by
  unfold nvmeBuffer at hok
  unfold wanted
  split_ifs at hok with hplugin hdo htarget <;> cases hok
  · exact ⟨by simpa using hplugin, by rw [if_pos hdo]⟩
  · exact ⟨by simpa using hplugin, by rw [if_neg hdo]⟩

theorem nvmeBuffer_ne_null : nvmeBuffer h c index_in_wu target p ≠ .error .null := by
  unfold nvmeBuffer
  split_ifs <;> simp

theorem nvmeIo_ok {io : Io} (hok : nvmeIo h c target p = .ok io) :
    io = .io_uring ∨ target = none → c.io_uring = true := by
  have hread : nvmeRead c = .ok io → c.io_uring = true := by
    intro hok
    unfold nvmeRead at hok
    split_ifs at hok with hio
    exact hio
  unfold nvmeIo at hok
  split_ifs at hok with hcomp hoff hsize htarget
  · exact fun _ => hread hok
  · exact fun _ => hread hok
  · cases hok
    simp [htarget]

theorem nvmeIo_null (hnull : nvmeIo h c target p = .error .null) : target = none ∧ c.io_uring = false := by
  have hread : nvmeRead c = .error .null → c.io_uring = false := by
    intro hnull
    unfold nvmeRead at hnull
    split_ifs at hnull with hio
    simpa using hio
  unfold nvmeIo at hnull
  split_ifs at hnull with hcomp hoff hsize htarget
  · exact ⟨hcomp.2, hread hnull⟩
  · cases hnull
  · exact ⟨htarget, hread hnull⟩
  · cases hnull

/-- A page is loaded to the place that `do_transfer[index_in_wu]` says. -/
theorem pushPage_ok {slot : Slot} (hok : pushPage h c index_in_wu target p = .ok slot) :
    ∃ io, slot = ⟨.loaded (wanted h target p (c.do_transfer.getD index_in_wu false)) p io, none⟩ ∧
      (io = .io_uring ∨ target = none → c.io_uring = true) := by
  obtain ⟨buff, hbuff, rfl⟩ := map_eq_ok hok
  obtain ⟨place, hplace, hload⟩ := bind_eq_ok hbuff
  obtain ⟨io, hio, rfl⟩ := map_eq_ok hload
  exact ⟨io, by rw [(nvmeBuffer_ok hplace).2], nvmeIo_ok hio⟩

theorem pushPage_null (hnull : pushPage h c index_in_wu target p = .error .null) :
    target = none ∧ c.io_uring = false ∧ c.nvme_plugin = true := by
  rcases bind_eq_error (map_eq_error hnull) with hplace | ⟨place, hplace, hload⟩
  · exact absurd hplace nvmeBuffer_ne_null
  · obtain ⟨htarget, hoff⟩ := nvmeIo_null (map_eq_error hload)
    exact ⟨htarget, hoff, (nvmeBuffer_ok hplace).1⟩

end

/-! ## The loops -/

/-- The columns from the `i`-th one on, up to the first that fails. -/
def forColumns (f : ℕ → Src → Except Fault Slot) : ℕ → List Src → Except Fault (List Slot)
  | _, [] => .ok []
  | i, s :: src => (f i s).bind fun slot => (forColumns f (i + 1) src).map (slot :: ·)

variable {src : List Src} {s : Src} {fuel : ℕ}

section

variable {f : ℕ → Src → Except Fault Slot} {i : ℕ} {slots : List Slot} {e : Fault}

theorem forColumns_ok (h : forColumns f i src = .ok slots) {k : ℕ} (hs : src[k]? = some s) :
    ∃ slot, f (i + k) s = .ok slot ∧ slots[k]? = some slot := by
  induction src generalizing i k slots with
  | nil => cases hs
  | cons s₀ src ih =>
    obtain ⟨slot, hf, hmap⟩ := bind_eq_ok h
    obtain ⟨rest, hrest, rfl⟩ := map_eq_ok hmap
    cases k with
    | zero =>
      obtain rfl : s₀ = s := Option.some.inj hs
      exact ⟨slot, hf, rfl⟩
    | succ k =>
      have hk := ih hrest hs
      rwa [Nat.add_right_comm] at hk

theorem forColumns_error (h : forColumns f i src = .error e) :
    ∃ k s, src[k]? = some s ∧ f (i + k) s = .error e := by
  induction src generalizing i with
  | nil => cases h
  | cons s₀ src ih =>
    rcases bind_eq_error h with hf | ⟨slot, -, hmap⟩
    · exact ⟨0, s₀, rfl, hf⟩
    · obtain ⟨k, s, hs, hk⟩ := ih (map_eq_error hmap)
      rw [Nat.add_right_comm] at hk
      exact ⟨k + 1, s, hs, hk⟩

variable {id : ℕ}

theorem pushColumns_eq (i : ℕ) (src : List Src) : pushColumns h c target i (i % 256) src =
      forColumns (fun i s => pushColumn h c target i (i % 256) s) i src := by
  induction src generalizing i with
  | nil => rfl
  | cons s src ih =>
    have hmod : (i % 256 + 1) % 256 = (i + 1) % 256 := by omega
    rw [pushColumns, forColumns, hmod, ih]

/-- With at most 255 columns the counter does not overflow. -/
theorem batch_eq (hlen : src.length < 256) (hi : i ≤ src.length)
    (hfuel : src.length < i + fuel) (acc : List Slot) : batch_push_nvme_to_gpu h c id src fuel i acc =
      some ((forColumns (batchColumn h c id) i (src.drop i)).map (acc ++ ·)) := by
  induction fuel generalizing i acc with
  | zero => omega
  | succ fuel ih =>
    rw [batch_push_nvme_to_gpu]
    rcases Nat.lt_or_ge i src.length with hlt | hge
    · rw [drop_eq_getElem_cons hlt, forColumns]
      cases hcol : batchColumn h c id i src[i] with
      | error e =>
        simp only [getElem?_eq_getElem hlt, hcol]
        rfl
      | ok slot =>
        have hmod : (i + 1) % 256 = i + 1 := Nat.mod_eq_of_lt (by omega)
        simp only [getElem?_eq_getElem hlt, hcol, hmod]
        rw [ih (by omega) (by omega)]
        cases hrest : forColumns (batchColumn h c id) (i + 1) (src.drop (i + 1)) with
        | error | ok => simp [Except.bind, Except.map]
    · rw [getElem?_eq_none hge, drop_eq_nil_of_le hge, forColumns]
      simp [Except.map]

/-- With more of them the loop does not end. -/
theorem batch_ne_ok (hlen : 256 ≤ src.length) (fuel : ℕ) (hi : i < 256) (acc : List Slot) :
    batch_push_nvme_to_gpu h c id src fuel i acc ≠ some (.ok slots) := by
  induction fuel generalizing i acc with
  | zero => simp [batch_push_nvme_to_gpu]
  | succ fuel ih =>
    have hlt : i < src.length := by omega
    rw [batch_push_nvme_to_gpu]
    cases hcol : batchColumn h c id i src[i] with
    | error e => simp [getElem?_eq_getElem hlt, hcol]
    | ok slot =>
      simp only [getElem?_eq_getElem hlt, hcol]
      exact ih (Nat.mod_lt _ (by decide)) _

/-- More fuel does not change a result. -/
theorem batch_fuel {r : Except Fault (List Slot)} {acc : List Slot}
    (hr : batch_push_nvme_to_gpu h c id src fuel i acc = some r) (more : ℕ) :
    batch_push_nvme_to_gpu h c id src (fuel + more) i acc = some r := by
  induction fuel generalizing i acc with
  | zero => cases hr
  | succ fuel ih =>
    rw [Nat.add_right_comm]
    rw [batch_push_nvme_to_gpu] at hr ⊢
    split at hr
    · exact hr
    · split at hr
      · exact hr
      · exact ih hr

end

/-! ## Placement -/

section

variable {op : Op}

/-- No check fails. -/
def Op.Accepts (h : Host) (op : Op) (src : List Src) : Prop :=
  ∀ fuel, make_mem_move_device h op.open op.getTargetDevice src fuel ≠ some (.error .check)

/-- All columns are pushed, and the page of a column is loaded to where it belongs, into the slot of the
column, and by an `io_uring` only if there is one. -/
def Op.Places (h : Host) (op : Op) (src : List Src) : Prop :=
  ∃ fuel slots, make_mem_move_device h op.open op.getTargetDevice src fuel = some (.ok slots) ∧
    ∀ (i : ℕ) (p : Page), src[i]? = some (.page p) → ∃ io : Io,
      slots[i]? =
        some ⟨.loaded (wanted h op.getTargetDevice p (op.do_transfer.getD i false)) p io, none⟩ ∧
      (io = .io_uring → op.open.io_uring = true)

/-- The columns are pushed in one batch. -/
def Op.Batched (op : Op) (src : List Src) : Prop :=
  op.to_cpu = false ∧ ∃ p, src.head? = some (.page p)

/-- What the three places need to agree. -/
def Op.Agrees (h : Host) (op : Op) (src : List Src) : Prop :=
  (op.Batched src →
    src.length < 256 ∧ ((∀ v ∈ op.do_transfer, v = true) ∨ ∀ v ∈ op.do_transfer, v = false)) ∧
  (¬op.Batched src →
    (∀ (i : ℕ) (p : Page), src[i]? = some (.page p) →
      op.do_transfer.getD (i % 256) false = op.do_transfer.getD i false ∨
        op.to_cpu = true ∧ h.node = p.cpuNumaAffinity) ∧
    ∀ i id addr : ℕ, src[i]? = some (.gpu id addr) → op.do_transfer.getD i false = true →
      op.to_cpu = false ∧ op.activeGpu = id)

@[simp] theorem open_do_transfer : op.open.do_transfer = op.do_transfer := rfl

theorem getTargetDevice_eq_none : op.getTargetDevice = none ↔ op.to_cpu = true := by
  simp [Op.getTargetDevice]

theorem getTargetDevice_eq_some {id : ℕ} :
    op.getTargetDevice = some id ↔ op.to_cpu = false ∧ op.activeGpu = id := by
  cases hcpu : op.to_cpu <;> simp [Op.getTargetDevice, hcpu]

theorem wanted_eq_iff {p : Page} {b b' : Bool} :
    wanted h op.getTargetDevice p b = wanted h op.getTargetDevice p b' ↔
      b = b' ∨ op.to_cpu = true ∧ h.node = p.cpuNumaAffinity := by
  cases hcpu : op.to_cpu <;> cases b <;> cases b' <;>
    simp [wanted, h_get_buffer, Op.getTargetDevice, hcpu, eq_comm]

/-- A column that has no page is pushed, unless it is in the memory of another GPU. -/
theorem pushColumn_ne_null {i index_in_wu : ℕ} (hs : ∀ p, s ≠ .page p)
    (hgpu : ∀ id addr : ℕ, s = .gpu id addr → op.do_transfer.getD i false = true →
      op.getTargetDevice = some id) :
    pushColumn h op.open op.getTargetDevice i index_in_wu s ≠ .error .null := by
  cases s with
  | page p => exact absurd rfl (hs p)
  | cpu node addr =>
    simp only [pushColumn, push]
    split_ifs <;> simp
  | gpu id addr =>
    have hgpu := hgpu id addr rfl
    by_cases hdo : op.do_transfer.getD i false = true
    · simp [pushColumn, push, hgpu hdo]
    · simp only [pushColumn]
      rw [open_do_transfer, if_neg hdo]
      simp

theorem make_of_not_batched (hb : ¬op.Batched src) (fuel : ℕ) :
    make_mem_move_device h op.open op.getTargetDevice src fuel =
      some (forColumns (fun i s => pushColumn h op.open op.getTargetDevice i (i % 256) s) 0 src) := by
  rw [← pushColumns_eq]
  unfold make_mem_move_device
  split
  · next p rest id htarget =>
    exact absurd ⟨(getTargetDevice_eq_some.1 htarget).1, p, rfl⟩ hb
  · rfl

theorem make_of_batched (hb : op.Batched src) (fuel : ℕ) :
    make_mem_move_device h op.open op.getTargetDevice src fuel =
      batch_push_nvme_to_gpu h op.open op.activeGpu src fuel 0 [] := by
  obtain ⟨hcpu, p, hp⟩ := hb
  cases src with
  | nil => cases hp
  | cons s rest =>
    obtain rfl : s = .page p := Option.some.inj hp
    rw [getTargetDevice_eq_some.2 ⟨hcpu, rfl⟩]
    rfl

theorem agrees_of_places (hb : ¬op.Batched src) (hplaces : op.Places h src) : op.Agrees h src := by
  obtain ⟨fuel, slots, hok, hplaced⟩ := hplaces
  rw [make_of_not_batched hb] at hok
  have hok := Option.some.inj hok
  refine ⟨fun hb' => absurd hb' hb, fun _ => ⟨fun i p hp => ?_, fun i id addr hp hdo => ?_⟩⟩
  · obtain ⟨slot, hslot, hget⟩ := forColumns_ok hok hp
    rw [Nat.zero_add] at hslot
    obtain ⟨io, rfl, -⟩ := pushPage_ok hslot
    obtain ⟨io', hio', -⟩ := hplaced i p hp
    have hslots := Option.some.inj (hget.symm.trans hio')
    rw [← wanted_eq_iff (h := h) (p := p)]
    exact (Buff.loaded.inj (Slot.mk.inj hslots).1).1
  · obtain ⟨slot, hslot, -⟩ := forColumns_ok hok hp
    simp only [Nat.zero_add, pushColumn, push, Op.open, hdo, if_true] at hslot
    split_ifs at hslot with htarget
    exact getTargetDevice_eq_some.1 htarget

theorem places_of_agrees (hb : ¬op.Batched src) (hacc : op.Accepts h src) (hagrees : op.Agrees h src) :
    op.Places h src := by
  obtain ⟨hpages, hgpu⟩ := hagrees.2 hb
  have hmake := make_of_not_batched (h := h) hb
  cases hres : forColumns (fun i s => pushColumn h op.open op.getTargetDevice i (i % 256) s) 0 src with
  | error e =>
    exfalso
    obtain ⟨k, s, hs, hk⟩ := forColumns_error hres
    rw [Nat.zero_add] at hk
    cases e with
    | check => exact hacc 0 (by rw [hmake, hres])
    | null =>
      by_cases hpage : ∃ p, s = .page p
      · obtain ⟨p, rfl⟩ := hpage
        obtain ⟨htarget, hio, hplugin⟩ := pushPage_null hk
        rw [getTargetDevice_eq_none] at htarget
        simp only [Op.open] at hio hplugin
        simp [htarget, hplugin] at hio
      · push Not at hpage
        refine pushColumn_ne_null hpage (fun id addr hid hdo => ?_) hk
        rw [hid] at hs
        exact getTargetDevice_eq_some.2 (hgpu k id addr hs hdo)
  | ok slots =>
    refine ⟨0, slots, by rw [hmake, hres], fun i p hp => ?_⟩
    obtain ⟨slot, hslot, hget⟩ := forColumns_ok hres hp
    rw [Nat.zero_add] at hslot
    obtain ⟨io, rfl, hio⟩ := pushPage_ok hslot
    refine ⟨io, ?_, fun heq => hio (.inl heq)⟩
    rw [hget, ← wanted_eq_iff.2 (hpages i p hp)]
    rfl

variable (hlen : op.do_transfer.length = src.length)
include hlen

/-- The flag of a column. -/
theorem getD_mem {i : ℕ} (hs : src[i]? = some s) :
    op.do_transfer.getD i false ∈ op.do_transfer := by
  have hi : i < op.do_transfer.length := hlen ▸ (List.getElem?_eq_some_iff.1 hs).1
  rw [getD_eq_getElem _ _ hi]
  exact getElem_mem hi

theorem agrees_of_places_batch (hb : op.Batched src) (hplaces : op.Places h src) : op.Agrees h src := by
  obtain ⟨fuel, slots, hok, -⟩ := hplaces
  rw [make_of_batched hb] at hok
  refine ⟨fun _ => ?_, fun hb' => absurd hb hb'⟩
  rcases Nat.lt_or_ge src.length 256 with hlt | hge
  · refine ⟨hlt, ?_⟩
    have hbatch := batch_fuel hok (src.length + 1)
    rw [batch_eq hlt (Nat.zero_le _) (by omega), drop_zero] at hbatch
    cases hres : forColumns (batchColumn h op.open op.activeGpu) 0 src with
    | error e =>
      rw [hres] at hbatch
      cases hbatch
    | ok rest =>
      by_contra hmixed
      rw [not_or] at hmixed
      -- a column that is not transferred is read by an `io_uring`, which there is none of
      have hfalse : false ∈ op.do_transfer := by
        by_contra hno
        exact hmixed.1 fun v hv => Bool.eq_true_of_not_eq_false fun h => hno (h ▸ hv)
      obtain ⟨k, hk, hget⟩ := mem_iff_getElem.1 hfalse
      have hk' : k < src.length := hlen ▸ hk
      obtain ⟨slot, hslot, -⟩ := forColumns_ok hres (getElem?_eq_getElem hk')
      rw [Nat.zero_add] at hslot
      have hflag : op.open.do_transfer.getD k false = false := by
        rw [Op.open, getD_eq_getElem _ _ hk, hget]
      cases hsrc : src[k] with
      | page p =>
        rw [hsrc, batchColumn, if_pos hflag] at hslot
        obtain ⟨io, -, hio⟩ := pushPage_ok hslot
        have hon := hio (.inr rfl)
        simp only [Op.open, hb.1, Bool.false_or, Bool.and_eq_true, all_eq_true, Bool.not_eq_true'] at hon
        exact hmixed.2 hon.2
      | cpu | gpu =>
        rw [hsrc] at hslot
        cases hslot
  · exact absurd hok (batch_ne_ok hge fuel (by decide) [])

theorem places_of_agrees_batch (hb : op.Batched src)
    (hacc : op.Accepts h src) (hagrees : op.Agrees h src) : op.Places h src := by
  obtain ⟨hlt, hall⟩ := hagrees.1 hb
  have hmake := make_of_batched (h := h) hb (src.length + 1)
  rw [batch_eq hlt (Nat.zero_le _) (by omega), drop_zero] at hmake
  have htarget : op.getTargetDevice = some op.activeGpu := getTargetDevice_eq_some.2 ⟨hb.1, rfl⟩
  obtain ⟨p₀, hp₀⟩ := hb.2
  have hflag₀ := getD_mem hlen (i := 0) (by rwa [← head?_eq_getElem?])
  cases hres : forColumns (batchColumn h op.open op.activeGpu) 0 src with
  | error e =>
    exfalso
    obtain ⟨k, s, hs, hk⟩ := forColumns_error hres
    rw [Nat.zero_add] at hk
    have hflag := getD_mem hlen hs
    cases e with
    | check => exact hacc (src.length + 1) (by rw [hmake, hres]; rfl)
    | null =>
      cases s with
      | page p =>
        rw [batchColumn] at hk
        split_ifs at hk with hdo hcomp
        · obtain ⟨-, hio, hplugin⟩ := pushPage_null hk
          rcases hall with htrue | hfalse
          · rw [open_do_transfer, htrue _ hflag] at hdo
            cases hdo
          · simp only [Op.open] at hio hplugin
            simp only [hplugin, Bool.true_and, Bool.or_eq_false_iff, all_eq_false] at hio
            obtain ⟨-, v, hv, hv'⟩ := hio
            simp [hfalse v hv] at hv'
        · exact absurd (pushPage_null hk).1 (by simp)
      | cpu | gpu => cases hk
  | ok slots =>
    refine ⟨src.length + 1, slots, by rw [hmake, hres]; rfl, fun i p hp => ?_⟩
    obtain ⟨slot, hslot, hget⟩ := forColumns_ok hres hp
    rw [Nat.zero_add, batchColumn] at hslot
    have hflag := getD_mem hlen hp
    rw [hget, htarget]
    rcases hall with htrue | hfalse
    · have hi : op.do_transfer.getD i false = true := htrue _ hflag
      have h₀ : op.do_transfer.getD 0 false = true := htrue _ hflag₀
      simp only [Op.open, hi, Bool.true_eq_false, if_false] at hslot
      split_ifs at hslot with hcomp
      · obtain ⟨io, rfl, hio⟩ := pushPage_ok hslot
        exact ⟨io, by rw [h₀, hi], fun heq => hio (.inl heq)⟩
      · cases hslot
        exact ⟨.cuFile, by rw [hi]; rfl, by simp⟩
    · have hi : op.do_transfer.getD i false = false := hfalse _ hflag
      have h₀ : op.do_transfer.getD 0 false = false := hfalse _ hflag₀
      simp only [Op.open, hi, if_true] at hslot
      obtain ⟨io, rfl, hio⟩ := pushPage_ok hslot
      exact ⟨io, by rw [h₀, hi]; rfl, fun heq => hio (.inl heq)⟩

end

/-- Pages come to where they belong exactly if the three places agree. -/
theorem placed_iff (h : Host) (op : Op) (src : List Src) (hlen : op.do_transfer.length = src.length)
    (hacc : op.Accepts h src) : op.Places h src ↔ op.Agrees h src := by
  by_cases hb : op.Batched src
  · exact ⟨agrees_of_places_batch hlen hb, places_of_agrees_batch hlen hb hacc⟩
  · exact ⟨agrees_of_places hb, places_of_agrees hb hacc⟩

/-- Two pages for a GPU, both of which are to go there. -/
theorem placed_two_pages : Op.Places ⟨0, id, 4096⟩ ⟨false, 0, true, [true, true]⟩
    [.page ⟨0, false, 4096, 0⟩, .page ⟨1, false, 4096, 0⟩] := by
  refine (placed_iff _ _ _ rfl ?_).2 ⟨fun _ => ⟨by decide, .inl (by decide)⟩, fun hb => ?_⟩
  · intro fuel h
    match fuel with
    | 0 | 1 | 2 | _ + 3 => cases h
  · exact absurd ⟨rfl, _, rfl⟩ hb

/-- Two pages for a GPU, of which the second one is to be staged. -/
theorem stage_second_column : Op.Accepts ⟨0, id, 4096⟩ ⟨false, 0, true, [true, false]⟩
        [.page ⟨0, false, 4096, 0⟩, .page ⟨0, false, 4096, 0⟩] ∧
      ¬Op.Places ⟨0, id, 4096⟩ ⟨false, 0, true, [true, false]⟩
        [.page ⟨0, false, 4096, 0⟩, .page ⟨0, false, 4096, 0⟩] := by
  have hmake : ∀ fuel, make_mem_move_device ⟨0, id, 4096⟩ (Op.open ⟨false, 0, true, [true, false]⟩)
      (Op.getTargetDevice ⟨false, 0, true, [true, false]⟩)
      [.page ⟨0, false, 4096, 0⟩, .page ⟨0, false, 4096, 0⟩] fuel =
      if fuel < 2 then none else some (.error .null)
    | 0 => rfl
    | 1 => rfl
    | _ + 2 => rfl
  constructor
  · intro fuel h
    rw [hmake] at h
    split_ifs at h
    cases h
  · rintro ⟨fuel, slots, hok, -⟩
    rw [hmake] at hok
    split_ifs at hok
    cases hok

end Proteus.MemMove
