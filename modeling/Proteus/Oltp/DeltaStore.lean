import Mathlib.Algebra.BigOperators.Fin
import Proteus.Machine
import Proteus.Oltp.ColumnStore

/-!
# Delta stores and one-shot garbage collection

Old versions of records are kept in four delta stores. A transaction writes its versions to the
store of its start time (`get_delta_ver`), on which its worker is registered as a reader; a store is
reset as a whole when it has no reader and the smallest published start time is above every epoch
the store has seen.

The machine runs any number of workers, each through `executeFullQueue` or `execute`, one shared
access at a time:

* `beginTxn` draws a start time and then publishes it in `min_active`;
* registration is the increment of `readers`, which spins while a collector holds the counter below
  zero, and then the store of the worker's `max_active_epoch`; `executeFullQueue` keeps the
  registration for the next transaction;
* `endTxn` takes the published time back, and the last reader to leave a store, and every
  read-only transaction of `executeFullQueue` at its end, tries to collect;
* `GC` takes the counter of an idle store with a compare-and-swap, reads the published times of all
  workers one by one, then their epochs, and resets the store if it may.

Creating a version runs under the latch of its record and is one step. A pointer to a version
carries the tag of its store at creation, cut to 20 bits, and is valid as long as the tag is the
same.
-/

namespace Proteus.Oltp

open Function

/-! ## Stores, versions and transactions -/

/-- `num_delta_storages` is 4. -/
abbrev DeltaId := Fin 4

/-- `TransactionManager::get_delta_ver`. -/
def get_delta_ver (xid : ℕ) : DeltaId := Fin.ofNat 4 (xid >>> 5)

/-- What a `DeltaDataPtr` keeps of a tag. -/
def tagBits (tag : ℕ) : ℕ := tag % 2 ^ 20

/-- A version in a store, and the tag in the pointer to it. The list it stands in is its `next`. -/
structure DeltaVersion where
  t_min : ℕ
  delta : DeltaId
  tag : ℕ

/-- The part of an `IndexVal` that finds versions. -/
structure VersionedRecord where
  t_min : ℕ
  delta_list : List DeltaVersion

variable (tag : DeltaId → ℕ)

/-- `isValid` of the pointer to the head of a list; the null pointer has store 0 and tag 0. -/
def isValid : List DeltaVersion → Bool
  | [] => tagBits (tag 0) == 0
  | v :: _ => tagBits (tag v.delta) == v.tag

/-- The stores of the versions that `get_readable_ver` follows a valid pointer to. -/
def get_readable_ver_path (tag : DeltaId → ℕ) (txTs : TxnTs) : List DeltaVersion → List DeltaId
  | [] => if isValid tag [] then [0] else []
  | v :: vs =>
    if isValid tag (v :: vs) then
      v.delta :: (if is_readable v.t_min txTs then [] else get_readable_ver_path tag txTs vs)
    else []

/-- The stores a reader of the record is directed to. -/
def VersionedRecord.directed (txTs : TxnTs) (r : VersionedRecord) : List DeltaId :=
  if is_readable r.t_min txTs then [] else get_readable_ver_path tag txTs r.delta_list

/-- The record after an update: a new version in store `d` in front of the old list, or alone if
the list is not valid any more. -/
def VersionedRecord.push (d : DeltaId) (start : ℕ) (r : VersionedRecord) : VersionedRecord where
  t_min := Oltp.t_min start
  delta_list := ⟨r.t_min, d, tagBits (tag d)⟩ :: if isValid tag r.delta_list then r.delta_list else []

/-- A transaction, and which of the two functions runs it. -/
structure DeltaTxn where
  start : ℕ
  read_only : Bool
  /-- `executeFullQueue` rather than `execute`. -/
  full : Bool

namespace DeltaTxn

def ts (x : DeltaTxn) : TxnTs := get_txnID_startTime_Pair x.start

def delta_version (x : DeltaTxn) : DeltaId := get_delta_ver x.start

end DeltaTxn

namespace DeltaGc

/-! ## The machine -/

/-- What a worker does after `GC` or `decrement_reader` returns. -/
inductive After
  | register (x : DeltaTxn)
  | run (x : DeltaTxn)
  | idle
  /-- The rest of the loop of `try_GC_all_partitions`. -/
  | collect (ds : List DeltaId)

/-- The next access of a worker. -/
inductive Pc (N : ℕ)
  | idle
  /-- The start time is drawn; publish it. -/
  | drawn (x : DeltaTxn)
  /-- Choose the store to register on. -/
  | published (x : DeltaTxn)
  /-- Increment `readers` of the transaction's store. -/
  | register (x : DeltaTxn)
  /-- Spin while `readers` is negative. -/
  | spin (x : DeltaTxn)
  /-- Raise `max_active_epoch` after the increment. -/
  | raiseEpoch (x : DeltaTxn)
  /-- `update_active_epoch`, on the store the worker has been registered on. -/
  | updateEpoch (x : DeltaTxn)
  | running (x : DeltaTxn)
  /-- `executeFullQueue` decrements `readers` of the store it has been registered on. -/
  | leave (d : DeltaId) (k : After)
  /-- `execute` decrements `readers` of the transaction's store after its end. -/
  | remove (d : DeltaId)
  /-- The compare-and-swap of `GC`. -/
  | gcTry (d : DeltaId) (k : After)
  /-- `get_min_activeTxn`: the workers still to be read, and the minimum so far. -/
  | gcMin (d : DeltaId) (k : After) (todo : List (Fin N)) (min : Option ℕ)
  /-- `getMaxActiveEpoch`: the workers still to be read, and the maximum so far. -/
  | gcEpoch (d : DeltaId) (k : After) (todo : List (Fin N)) (min : Option ℕ) (max : ℕ)
  | gcReset (d : DeltaId) (k : After)
  /-- Store 0 in `readers`. -/
  | gcRelease (d : DeltaId) (k : After)

/-- `current` is `current_delta_id`, which is -1 at first. -/
structure Worker (N : ℕ) where
  pc : Pc N
  current : Option DeltaId

/-- The shared state. In `min_active`, `none` is `UINT64_MAX`. In `readers`, `none` is a negative
value: `INT64_MIN` and the increments of workers that then spin, which the collector's store of 0
drops. -/
structure State (N : ℕ) (R : Type*) where
  gen : ℕ
  worker : Fin N → Worker N
  min_active : Fin N → Option ℕ
  tag : DeltaId → ℕ
  readers : DeltaId → Option ℕ
  max_active_epoch : DeltaId → Fin N → ℕ
  record : R → Option VersionedRecord

/-- A worker's move. -/
inductive Move (R : Type*)
  | draw (read_only full : Bool)
  | insert (r : R)
  | update (r : R)
  /-- `endTxn`. -/
  | finish
  /-- `compare_exchange_weak` fails, as it may at any time. -/
  | failCas
  /-- The access that comes next. -/
  | next

def After.resume {N : ℕ} : After → Pc N
  | register x => .register x
  | run x => .running x
  | idle => .idle
  | collect [] => .idle
  | collect (d :: ds) => .gcTry d (.collect ds)

/-- The registration branches of `executeFullQueue` and `execute`. -/
def dispatch {N : ℕ} (x : DeltaTxn) (current : Option DeltaId) : Pc N :=
  if x.full then
    match current with
    | none => .register x
    | some d =>
      if x.read_only then .leave d (.run x)
      else if d ≠ x.delta_version then .leave d (.register x)
      else .updateEpoch x
  else if x.read_only then .running x
  else .register x

/-- What follows `endTxn`. -/
def afterEnd {N : ℕ} (x : DeltaTxn) : Pc N :=
  if x.full then (if x.read_only then (After.collect [0, 1, 2, 3]).resume else .idle)
  else if x.read_only then .idle
  else .remove x.delta_version

/-- `readers.fetch_sub(1)`, and whether it returned 1. -/
def fetch_sub : Option ℕ → Option ℕ × Bool
  | some 1 => (some 0, true)
  | some (n + 2) => (some (n + 1), false)
  | some 0 | none => (none, false)

/-- `if (x < min) min = x`. -/
def minActive (min x : Option ℕ) : Option ℕ :=
  match min, x with
  | none, x => x
  | some m, none => some m
  | some m, some x => if x < m then some x else some m

/-- `min > max_active_epoch`. -/
def above (min : Option ℕ) (max : ℕ) : Bool :=
  match min with
  | none => true
  | some m => decide (max < m)

variable {N : ℕ} {R : Type*}

/-- No transaction, no record, no version; the first start time is 1. -/
def init : State N R where
  gen := 1
  worker _ := ⟨.idle, none⟩
  min_active _ := none
  tag _ := 1
  readers _ := some 0
  max_active_epoch _ _ := 0
  record _ := none

variable (s : State N R) (t : Fin N)

def State.setWorker (w : Worker N) : State N R :=
  { s with worker := update s.worker t w }

def State.setPc (pc : Pc N) : State N R :=
  s.setWorker t ⟨pc, (s.worker t).current⟩

/-- The next access of worker `t`. -/
def next : Option (State N R) :=
  match (s.worker t).pc with
  | .idle | .running _ => none
  | .drawn x => some { s.setPc t (.published x) with
      min_active := update s.min_active t (some x.start) }
  | .published x => some (s.setPc t (dispatch x (s.worker t).current))
  | .register x =>
    match s.readers x.delta_version with
    | some n => some { s.setWorker t ⟨.raiseEpoch x,
        if x.full then some x.delta_version else (s.worker t).current⟩ with
        readers := update s.readers x.delta_version (some (n + 1)) }
    | none => some (s.setPc t (.spin x))
  | .spin x => some (if (s.readers x.delta_version).isSome then s.setPc t (.register x) else s)
  | .raiseEpoch x => some { s.setPc t (.running x) with
      max_active_epoch := update s.max_active_epoch x.delta_version
        (update (s.max_active_epoch x.delta_version) t
          (max (s.max_active_epoch x.delta_version t) x.start)) }
  | .updateEpoch x => some { s.setPc t (.running x) with
      max_active_epoch := update s.max_active_epoch x.delta_version
        (update (s.max_active_epoch x.delta_version) t x.start) }
  | .leave d k => some { s.setWorker t ⟨if (fetch_sub (s.readers d)).2 then .gcTry d k else k.resume,
      none⟩ with readers := update s.readers d (fetch_sub (s.readers d)).1 }
  | .remove d => some { s.setPc t (if (fetch_sub (s.readers d)).2 then .gcTry d .idle else .idle) with
      readers := update s.readers d (fetch_sub (s.readers d)).1 }
  | .gcTry d k =>
    if s.readers d = some 0 then some { s.setPc t (.gcMin d k (List.finRange N) none) with
      readers := update s.readers d none }
    else some (s.setPc t k.resume)
  | .gcMin d k (u :: todo) m => some (s.setPc t (.gcMin d k todo (minActive m (s.min_active u))))
  | .gcMin d k [] m => some (s.setPc t (.gcEpoch d k (List.finRange N) m 0))
  | .gcEpoch d k (u :: todo) m mx =>
    some (s.setPc t (.gcEpoch d k todo m (max mx (s.max_active_epoch d u))))
  | .gcEpoch d k [] m mx => some (s.setPc t (if above m mx then .gcReset d k else .gcRelease d k))
  | .gcReset d k => some { s.setPc t (.gcRelease d k) with
      tag := update s.tag d (s.tag d + 1) }
  | .gcRelease d k => some { s.setPc t k.resume with
      readers := update s.readers d (some 0) }

def step [DecidableEq R] (s : State N R) : Fin N × Move R → Option (State N R)
  | (t, .draw read_only full) =>
    match (s.worker t).pc with
    | .idle => some { s.setPc t (.drawn ⟨s.gen, read_only, full⟩) with gen := s.gen + 1 }
    | _ => none
  | (t, .insert r) =>
    match (s.worker t).pc, s.record r with
    | .running x, none =>
      if x.read_only then none
      else some { s with record := update s.record r (some ⟨t_min x.start, []⟩) }
    | _, _ => none
  | (t, .update r) =>
    match (s.worker t).pc, s.record r with
    | .running x, some rec =>
      if x.read_only then none
      else some { s with
        record := update s.record r (some (rec.push s.tag x.delta_version x.start)) }
    | _, _ => none
  | (t, .finish) =>
    match (s.worker t).pc with
    | .running x => some { s.setPc t (afterEnd x) with
        min_active := update s.min_active t none }
    | _ => none
  | (t, .failCas) =>
    match (s.worker t).pc with
    | .gcTry _ k => some (s.setPc t k.resume)
    | _ => none
  | (t, .next) => next s t

/-! ## One step -/

section

variable [DecidableEq R] {s s' : State N R} {t : Fin N}

/-- What a step of worker `t` can do. -/
inductive Trans (s : State N R) (t : Fin N) : State N R → Prop
  | stay : Trans s t s
  | draw (ro full : Bool) (hpc : (s.worker t).pc = .idle) :
      Trans s t { s.setPc t (.drawn ⟨s.gen, ro, full⟩) with gen := s.gen + 1 }
  | publish (x : DeltaTxn) (hpc : (s.worker t).pc = .drawn x) :
      Trans s t { s.setPc t (.published x) with
        min_active := update s.min_active t (some x.start) }
  | dispatch (x : DeltaTxn) (hpc : (s.worker t).pc = .published x) :
      Trans s t (s.setPc t (dispatch x (s.worker t).current))
  | register (x : DeltaTxn) (n : ℕ) (hpc : (s.worker t).pc = .register x)
      (hr : s.readers x.delta_version = some n) :
      Trans s t { s.setWorker t ⟨.raiseEpoch x,
        if x.full then some x.delta_version else (s.worker t).current⟩ with
        readers := update s.readers x.delta_version (some (n + 1)) }
  | wait (x : DeltaTxn) (hpc : (s.worker t).pc = .register x) : Trans s t (s.setPc t (.spin x))
  | retry (x : DeltaTxn) (hpc : (s.worker t).pc = .spin x) : Trans s t (s.setPc t (.register x))
  /-- Both ways of setting the epoch. -/
  | epoch (x : DeltaTxn) (e : ℕ)
      (hpc : (s.worker t).pc = .raiseEpoch x ∧ e = max (s.max_active_epoch x.delta_version t) x.start ∨
        (s.worker t).pc = .updateEpoch x ∧ e = x.start) :
      Trans s t { s.setPc t (.running x) with
        max_active_epoch := update s.max_active_epoch x.delta_version
          (update (s.max_active_epoch x.delta_version) t e) }
  | insert (x : DeltaTxn) (r : R) (hpc : (s.worker t).pc = .running x) (hro : x.read_only = false) :
      Trans s t { s with record := update s.record r (some ⟨t_min x.start, []⟩) }
  | update (x : DeltaTxn) (r : R) (rec : VersionedRecord) (hpc : (s.worker t).pc = .running x)
      (hro : x.read_only = false) (hrec : s.record r = some rec) :
      Trans s t { s with
        record := update s.record r (some (rec.push s.tag x.delta_version x.start)) }
  | finish (x : DeltaTxn) (hpc : (s.worker t).pc = .running x) :
      Trans s t { s.setPc t (afterEnd x) with
        min_active := update s.min_active t none }
  | leave (d : DeltaId) (k : After) (hpc : (s.worker t).pc = .leave d k) :
      Trans s t { s.setWorker t
        ⟨if (fetch_sub (s.readers d)).2 then .gcTry d k else k.resume, none⟩ with
        readers := update s.readers d (fetch_sub (s.readers d)).1 }
  | remove (d : DeltaId) (hpc : (s.worker t).pc = .remove d) :
      Trans s t { s.setPc t (if (fetch_sub (s.readers d)).2 then .gcTry d .idle else .idle) with
        readers := update s.readers d (fetch_sub (s.readers d)).1 }
  | lock (d : DeltaId) (k : After) (hpc : (s.worker t).pc = .gcTry d k)
      (hr : s.readers d = some 0) :
      Trans s t { s.setPc t (.gcMin d k (List.finRange N) none) with
        readers := update s.readers d none }
  | skip (d : DeltaId) (k : After) (hpc : (s.worker t).pc = .gcTry d k) :
      Trans s t (s.setPc t k.resume)
  | readMin (d : DeltaId) (k : After) (u : Fin N) (todo : List (Fin N)) (m : Option ℕ)
      (hpc : (s.worker t).pc = .gcMin d k (u :: todo) m) :
      Trans s t (s.setPc t (.gcMin d k todo (minActive m (s.min_active u))))
  | endMin (d : DeltaId) (k : After) (m : Option ℕ) (hpc : (s.worker t).pc = .gcMin d k [] m) :
      Trans s t (s.setPc t (.gcEpoch d k (List.finRange N) m 0))
  | readEpoch (d : DeltaId) (k : After) (u : Fin N) (todo : List (Fin N)) (m : Option ℕ) (mx : ℕ)
      (hpc : (s.worker t).pc = .gcEpoch d k (u :: todo) m mx) :
      Trans s t (s.setPc t (.gcEpoch d k todo m (max mx (s.max_active_epoch d u))))
  | decide (d : DeltaId) (k : After) (m : Option ℕ) (mx : ℕ)
      (hpc : (s.worker t).pc = .gcEpoch d k [] m mx) :
      Trans s t (s.setPc t (if above m mx then .gcReset d k else .gcRelease d k))
  | reset (d : DeltaId) (k : After) (hpc : (s.worker t).pc = .gcReset d k) :
      Trans s t { s.setPc t (.gcRelease d k) with tag := update s.tag d (s.tag d + 1) }
  | release (d : DeltaId) (k : After) (hpc : (s.worker t).pc = .gcRelease d k) :
      Trans s t { s.setPc t k.resume with readers := update s.readers d (some 0) }

theorem trans_of_next (h : next s t = some s') : Trans s t s' := by
  unfold next at h
  split at h
  case h_1 | h_2 => cases h
  case h_5 x hpc =>
    split at h
    case h_1 n hr => cases h; exact .register x n hpc hr
    case h_2 => cases h; exact .wait x hpc
  case h_6 x hpc =>
    cases h
    split_ifs
    · exact .retry x hpc
    · exact .stay
  case h_7 x hpc => cases h; exact .epoch x _ (.inl ⟨hpc, rfl⟩)
  case h_8 x hpc => cases h; exact .epoch x _ (.inr ⟨hpc, rfl⟩)
  case h_11 d k hpc =>
    split_ifs at h with hr <;> cases h
    · exact .lock d k hpc hr
    · exact .skip d k hpc
  all_goals
    cases h
    constructor
    assumption

theorem trans_of_step {m : Move R} (h : step s (t, m) = some s') : Trans s t s' := by
  cases m <;> simp only [step] at h
  case draw | finish | failCas =>
    split at h <;> cases h
    constructor
    assumption
  case insert r =>
    split at h <;> try cases h
    case h_1 x hpc hr =>
      split_ifs at h with hro
      cases h
      exact .insert x r hpc (by simpa using hro)
  case update r =>
    split at h <;> try cases h
    case h_1 x rec hpc hr =>
      split_ifs at h with hro
      cases h
      exact .update x r rec hpc (by simpa using hro) hr
  case next => exact trans_of_next h

end

end DeltaGc

end Proteus.Oltp
