import Mathlib.Algebra.Group.WithOne.Defs
import Mathlib.Algebra.Order.BigOperators.Group.Finset
import Proteus.Chain
import Proteus.Machine

/-!
# Building a hash table of groups on the GPU

`GpuHashGroupByChained` runs one thread for every tuple. A thread follows the chain of the bucket of
its key. When it meets an entry with its key, it adds its values to it; at the end of the chain it
allocates an entry, unless it has one, and tries to link it there by a compare-and-swap, following the
chain further when another thread was first. An entry that was allocated and never linked is made to
point to itself, and the scan skips such entries.

Every access to the table is one step, except that the key and the values of an entry are stored at
once, since nobody else can look at it yet. The table holds arbitrary data in the beginning, apart from
the heads and the counter. The counter and the links are 32-bit words in the source and numbers here, so
this is about fewer than 2 ^ 31 tuples. `chain` is a history variable, the entries linked to each bucket.

Values are added by any operation that is commutative and associative; `WithZero` supplies the
sum of no values.

Results:

* `Inv.step`: each chain is a linked list of entries with different keys, which only grows at its end,
  and the values of an entry are the sums over the threads that have contributed;
* `Inv.rank_lt`: every step brings its thread closer to the end;
* `grouped`: the table is right when all threads are done;
* `allocated_lt_iff`: how much room it needs.
-/

namespace Proteus.GroupBy

open Finset Function List

/-! ## Model -/

/-- The input of a build: the tuples `ι` with their keys and the values of `aggs` aggregates. -/
structure Build (ι K : Type*) (S : ℕ → Type*) where
  key : ι → K
  val : ι → (j : ℕ) → S j
  hash : K → ℕ
  aggs : ℕ

/-- Where a thread stands. `current` is the entry of the chain it looks at, `written` the one it has
allocated. -/
inductive Pc
  | readHead
  /-- `atomicAdd` on the counter; without an entry the chain was empty. -/
  | allocate (current : Option ℕ)
  | clearNext (current : Option ℕ) (idx : ℕ)
  | store (current : Option ℕ) (idx : ℕ)
  | casHead (idx : ℕ)
  | readKey (current : ℕ) (written : Option ℕ)
  | readNext (current : ℕ) (found : Bool) (written : Option ℕ)
  | casNext (current idx : ℕ)
  /-- The atomic update of aggregate `j`. -/
  | update (current j : ℕ) (written : Option ℕ)
  | mark (current idx : ℕ)
  /-- Done: its entry is in the chain. -/
  | linked (idx : ℕ)
  /-- Done: its values are in the entry `current`. -/
  | merged (current : ℕ) (written : Option ℕ)

/-- The table and the threads; `none` is the end of a chain. -/
structure State (ι K : Type*) (S : ℕ → Type*) where
  cnt : ℕ
  head : ℕ → Option ℕ
  next : ℕ → Option ℕ
  keys : ℕ → K
  sums : ℕ → (j : ℕ) → S j
  thread : ι → Pc
  chain : ℕ → List ℕ

/-- An empty table over memory with arbitrary contents. -/
def init (ι : Type*) {K : Type*} {S : ℕ → Type*} (next : ℕ → Option ℕ) (keys : ℕ → K)
    (sums : ℕ → (j : ℕ) → S j) : State ι K S where
  cnt := 0
  head _ := none
  next := next
  keys := keys
  sums := sums
  thread _ := .readHead
  chain _ := []

variable {ι K : Type*} {S : ℕ → Type*} (s : State ι K S)

section

variable [DecidableEq ι] [DecidableEq K] [∀ j, AddCommSemigroup (S j)]

def State.goTo (s : State ι K S) (t : ι) (pc : Pc) : State ι K S :=
  { s with thread := update s.thread t pc }

/-- The entry becomes the last one of the chain of bucket `b`. -/
def State.link (b idx : ℕ) : State ι K S :=
  { s with chain := update s.chain b (s.chain b ++ [idx]) }

/-- The next step of thread `t`; none if it is done. -/
def step (B : Build ι K S) (s : State ι K S) (t : ι) : Option (State ι K S) :=
  let b := B.hash (B.key t)
  match s.thread t with
  | .readHead =>
    match s.head b with
    | none => some (s.goTo t (.allocate none))
    | some current => some (s.goTo t (.readKey current none))
  | .allocate current => some ({ s with cnt := s.cnt + 1 }.goTo t (.clearNext current s.cnt))
  | .clearNext current idx =>
    some ({ s with next := update s.next idx none }.goTo t (.store current idx))
  | .store current idx =>
    some ({ s with
      keys := update s.keys idx (B.key t)
      sums := update s.sums idx (B.val t) }.goTo t
        (match current with
        | none => .casHead idx
        | some current => .casNext current idx))
  | .casHead idx =>
    match s.head b with
    | none =>
      some (({ s with head := update s.head b (some idx) }.link b idx).goTo t (.linked idx))
    | some current => some (s.goTo t (.readKey current (some idx)))
  | .readKey current written =>
    some (s.goTo t (.readNext current (s.keys current = B.key t) written))
  | .readNext current found written =>
    if found then some (s.goTo t (.update current 0 written))
    else match s.next current with
      | some next => some (s.goTo t (.readKey next written))
      | none =>
        match written with
        | none => some (s.goTo t (.allocate (some current)))
        | some idx => some (s.goTo t (.casNext current idx))
  | .casNext current idx =>
    match s.next current with
    | none =>
      some (({ s with next := update s.next current (some idx) }.link b idx).goTo t (.linked idx))
    | some next => some (s.goTo t (.readKey next (some idx)))
  | .update current j written =>
    if j < B.aggs then
      some ({ s with
        sums := update s.sums current
          (update (s.sums current) j (s.sums current j + B.val t j)) }.goTo t
            (.update current (j + 1) written))
    else match written with
      | none => some (s.goTo t (.merged current none))
      | some idx => some (s.goTo t (.mark current idx))
  | .mark current idx =>
    some ({ s with next := update s.next idx (some idx) }.goTo t (.merged current (some idx)))
  | .linked _ => none
  | .merged _ _ => none

/-- The test of the scan. -/
def isGroup (i : ℕ) : Bool := s.next i ≠ some i

end

/-! ## The invariant -/

/-- The entry a thread has allocated. -/
def Pc.allocated? : Pc → Option ℕ
  | .readHead | .allocate _ => none
  | .clearNext _ idx | .store _ idx | .casHead idx | .casNext _ idx | .mark _ idx | .linked idx => some idx
  | .readKey _ written | .readNext _ _ written | .update _ _ written | .merged _ written => written

/-- Has the thread contributed its value for aggregate `j` to the entry `e`? -/
def Pc.contributes (e j : ℕ) : Pc → Bool
  | .update current j' _ => current = e ∧ j < j'
  | .mark current _ | .merged current _ => current = e
  | .linked idx => idx = e
  | _ => false

attribute [local simp] Pc.contributes

section

variable (B : Build ι K S) (s : State ι K S) (t : ι)

/-- The chain of the bucket of the thread's key. -/
def State.own (B : Build ι K S) (t : ι) : List ℕ := s.chain (B.hash (B.key t))

/-- The thread has come to the entry `c` of its chain, and its key is not that of an entry before. -/
def Visits (c : ℕ) : Prop :=
  ∃ l₁ l₂, s.own B t = l₁ ++ c :: l₂ ∧ ∀ e ∈ l₁, s.keys e ≠ B.key t

/-- The entry has been allocated, and is in no chain. -/
def Private (idx : ℕ) : Prop := idx < s.cnt ∧ ∀ b, idx ∉ s.chain b

/-- The entry is private and holds the tuple of the thread. -/
structure Ready (idx : ℕ) : Prop where
  priv : Private s idx
  next : s.next idx = none
  keys : s.keys idx = B.key t
  sums : s.sums idx = B.val t

/-- The entry is in the thread's chain, with its key. -/
def Matches (c : ℕ) : Prop := c ∈ s.own B t ∧ s.keys c = B.key t

/-- What a thread relies on. -/
def Local : Pc → Prop
  | .readHead => True
  | .allocate current => ∀ c ∈ current, Visits B s t c ∧ s.keys c ≠ B.key t
  | .clearNext current idx =>
    (∀ c ∈ current, Visits B s t c ∧ s.keys c ≠ B.key t) ∧ Private s idx
  | .store current idx =>
    (∀ c ∈ current, Visits B s t c ∧ s.keys c ≠ B.key t) ∧ Private s idx ∧ s.next idx = none
  | .casHead idx => Ready B s t idx
  | .readKey current written => Visits B s t current ∧ ∀ idx ∈ written, Ready B s t idx
  | .readNext current found written =>
    Visits B s t current ∧ (found = true ↔ s.keys current = B.key t) ∧
      ∀ idx ∈ written, Ready B s t idx
  | .casNext current idx => (Visits B s t current ∧ s.keys current ≠ B.key t) ∧ Ready B s t idx
  | .update current _ written => Matches B s t current ∧ ∀ idx ∈ written, Ready B s t idx
  | .mark current idx => Matches B s t current ∧ Ready B s t idx
  | .linked idx => Matches B s t idx
  | .merged current written =>
    Matches B s t current ∧ ∀ idx ∈ written, Private s idx ∧ s.next idx = some idx

/-- What the thread has contributed to aggregate `j` of the entry `e`. -/
def given (e j : ℕ) (pc : Pc) : WithZero (S j) := if pc.contributes e j then (B.val t j : WithZero (S j)) else 0

/-- The chains are linked lists of entries with different keys. -/
structure Chains : Prop where
  linked : ∀ b, Linked s.next (s.head b) (s.chain b)
  mem : ∀ b, ∀ e ∈ s.chain b, e < s.cnt ∧ B.hash (s.keys e) = b
  keys : ∀ b, ((s.chain b).map s.keys).Nodup

structure Inv [Fintype ι] [∀ j, AddCommSemigroup (S j)] : Prop where
  chains : Chains B s
  locals : ∀ t, Local B s t (s.thread t)
  unique : ∀ t t' idx, (s.thread t).allocated? = some idx → (s.thread t').allocated? = some idx → t = t'
  owned : ∀ e < s.cnt, ∃ t, (s.thread t).allocated? = some e
  sums : ∀ b, ∀ e ∈ s.chain b, ∀ j < B.aggs,
    (s.sums e j : WithZero (S j)) = ∑ t, given B t e j (s.thread t)

end

/-! ## What one thread does to the others -/

open State

variable {B : Build ι K S} {s s' : State ι K S} {pc : Pc}

section

variable {t : ι} {c idx : ℕ}

/-- What a step changes, `own` being the entry of the thread that makes it. -/
structure Frame (own : Option ℕ) (s s' : State ι K S) : Prop where
  cnt : s.cnt ≤ s'.cnt
  chain : ∀ b, s.chain b <+: s'.chain b
  link : ∀ b, ∀ e ∈ s'.chain b, e ∈ s.chain b ∨ own = some e
  keys_linked : ∀ b, ∀ e ∈ s.chain b, s'.keys e = s.keys e
  keys : ∀ e, own ≠ some e → s'.keys e = s.keys e
  next : ∀ e, own ≠ some e → (∀ b, e ∉ s.chain b) → s'.next e = s.next e
  sums : ∀ e, own ≠ some e → (∀ b, e ∉ s.chain b) → s'.sums e = s.sums e

variable {own : Option ℕ} (hf : Frame own s s')
include hf

theorem Visits.frame (h : Visits B s t c) : Visits B s' t c := by
  obtain ⟨l₁, l₂, hl, hkeys⟩ := h
  obtain ⟨l₃, hl₃⟩ := hf.chain (B.hash (B.key t))
  refine ⟨l₁, l₂ ++ l₃, ?_, fun e he => ?_⟩
  · rw [State.own, ← hl₃, ← State.own, hl, append_assoc, cons_append]
  · rw [hf.keys_linked (B.hash (B.key t)) e (by rw [← State.own, hl]; simp [he])]
    exact hkeys e he

theorem Visits.keys_eq (h : Visits B s t c) : s'.keys c = s.keys c := by
  obtain ⟨l₁, l₂, hl, -⟩ := h
  exact hf.keys_linked (B.hash (B.key t)) c (by rw [← State.own, hl]; simp)

theorem Private.frame (h : Private s idx) (hne : own ≠ some idx) : Private s' idx :=
  ⟨h.1.trans_le hf.cnt, fun b hmem => (hf.link b idx hmem).elim (h.2 b) hne⟩

theorem Ready.frame (h : Ready B s t idx) (hne : own ≠ some idx) : Ready B s' t idx where
  priv := h.priv.frame hf hne
  next := (hf.next idx hne h.priv.2).trans h.next
  keys := (hf.keys idx hne).trans h.keys
  sums := (hf.sums idx hne h.priv.2).trans h.sums

theorem Matches.frame (h : Matches B s t c) : Matches B s' t c :=
  ⟨(hf.chain _).subset h.1, (hf.keys_linked _ c h.1).trans h.2⟩

/-- **A thread keeps what it relies on when another one moves.** -/
theorem Local.frame (h : Local B s t pc) (hne : ∀ idx, pc.allocated? = some idx → own ≠ some idx) :
    Local B s' t pc := by
  have hpassed : ∀ {current : Option ℕ}, (∀ c ∈ current, Visits B s t c ∧ s.keys c ≠ B.key t) →
      ∀ c ∈ current, Visits B s' t c ∧ s'.keys c ≠ B.key t := by
    intro current h c hc
    obtain ⟨hv, hkey⟩ := h c hc
    exact ⟨hv.frame hf, by rwa [hv.keys_eq hf]⟩
  have hready : ∀ {written : Option ℕ}, (∀ idx ∈ written, Ready B s t idx) →
      (∀ idx, written = some idx → own ≠ some idx) → ∀ idx ∈ written, Ready B s' t idx :=
    fun h hne idx hidx => (h idx hidx).frame hf (hne idx hidx)
  cases pc with
  | readHead => trivial
  | allocate current => exact hpassed h
  | clearNext current idx => exact ⟨hpassed h.1, h.2.frame hf (hne idx rfl)⟩
  | store current idx =>
    obtain ⟨hp, hpriv, hnext⟩ := h
    exact ⟨hpassed hp, hpriv.frame hf (hne idx rfl), (hf.next idx (hne idx rfl) hpriv.2).trans hnext⟩
  | casHead idx => exact Ready.frame hf h (hne idx rfl)
  | readKey | update => exact ⟨h.1.frame hf, hready h.2 hne⟩
  | readNext current found written =>
    obtain ⟨hv, hfound, hw⟩ := h
    exact ⟨hv.frame hf, by rw [hfound, hv.keys_eq hf], hready hw hne⟩
  | casNext current idx =>
    obtain ⟨⟨hv, hkey⟩, hr⟩ := h
    exact ⟨⟨hv.frame hf, by rwa [hv.keys_eq hf]⟩, hr.frame hf (hne idx rfl)⟩
  | mark current idx => exact ⟨h.1.frame hf, h.2.frame hf (hne idx rfl)⟩
  | linked idx => exact Matches.frame hf h
  | merged current written =>
    refine ⟨h.1.frame hf, fun idx hidx => ?_⟩
    obtain ⟨hpriv, hnext⟩ := h.2 idx hidx
    exact ⟨hpriv.frame hf (hne idx hidx), (hf.next idx (hne idx hidx) hpriv.2).trans hnext⟩

end

/-! ## Every step keeps the invariant -/

open Pc

section

variable {s s₁ s' : State ι K S} {t : ι}

theorem Frame.refl (own : Option ℕ) : Frame own s s :=
  ⟨le_rfl, fun _ => prefix_rfl, fun _ _ he => .inl he, fun _ _ _ => rfl, fun _ _ => rfl,
    fun _ _ _ => rfl, fun _ _ _ => rfl⟩

/-- Where the threads stand does not matter. -/
theorem Local.goTo [DecidableEq ι] {t' : ι} {pc' : Pc} (h : Local B s t' pc') :
    Local B (s.goTo t pc) t' pc' := by
  have hf : Frame none s (s.goTo t pc) := { Frame.refl none with }
  exact h.frame hf fun _ _ => nofun

variable {idx : ℕ}

/-- A thread that relies on its entry has allocated it. -/
theorem Local.entry_lt (h : Local B s t pc) (hchains : Chains B s)
    (hidx : pc.allocated? = some idx) : idx < s.cnt := by
  cases pc with
  | readHead | allocate => cases hidx
  | clearNext current i => cases hidx; exact h.2.1
  | store current i => cases hidx; exact h.2.1.1
  | casHead i => cases hidx; exact Ready.priv h |>.1
  | readKey | update => exact (h.2 idx hidx).priv.1
  | readNext => exact (h.2.2 idx hidx).priv.1
  | casNext | mark => cases hidx; exact h.2.priv.1
  | linked i => cases hidx; exact (hchains.mem _ _ (And.left h)).1
  | merged current written => exact (h.2 idx hidx).1.1

variable {j : ℕ}

/-- A thread contributes to the entry of its chain with its key. -/
theorem Local.of_contributes (h : Local B s t pc) {e : ℕ} (hc : pc.contributes e j = true) :
    Matches B s t e := by
  cases pc with
  | update current j' written =>
    obtain ⟨rfl, -⟩ := of_decide_eq_true hc
    exact h.1
  | mark | merged =>
    obtain rfl := of_decide_eq_true hc
    exact h.1
  | linked idx =>
    obtain rfl := of_decide_eq_true hc
    exact h
  | _ => cases hc

variable {c : ℕ}

/-- The head of a chain is visited first. -/
theorem Chains.visits_head (h : Chains B s) (hc : s.head (B.hash (B.key t)) = some c) : Visits B s t c := by
  have hhead := (h.linked (B.hash (B.key t))).head_eq
  rw [hc] at hhead
  obtain ⟨l, hl⟩ := head?_eq_some_iff.1 hhead.symm
  exact ⟨[], l, hl, nofun⟩

/-- Behind the entry that a thread visits lies the rest of its chain. -/
theorem Chains.visited (h : Chains B s) (hv : Visits B s t c) : ∃ l₁ l₂,
    s.own B t = l₁ ++ c :: l₂ ∧ (∀ e ∈ l₁, s.keys e ≠ B.key t) ∧ s.next c = l₂.head? := by
  obtain ⟨l₁, l₂, hl, hkeys⟩ := hv
  have hlinked := h.linked (B.hash (B.key t))
  rw [← own, hl] at hlinked
  exact ⟨l₁, l₂, hl, hkeys, hlinked.next_eq⟩

theorem keys_ne_of_snoc {l : List ℕ} (hl : ∀ e ∈ l, s.keys e ≠ B.key t)
    (hc : s.keys c ≠ B.key t) : ∀ e ∈ l ++ [c], s.keys e ≠ B.key t :=
  forall_mem_append.2 ⟨hl, forall_mem_singleton.2 hc⟩

section

variable (h : Chains B s) (hv : Visits B s t c) (hkey : s.keys c ≠ B.key t)
include h hv hkey

/-- Behind an entry with another key the thread visits the next one. -/
theorem Chains.visits_next {d : ℕ} (hd : s.next c = some d) : Visits B s t d := by
  obtain ⟨l₁, l₂, hl, hkeys, hnext⟩ := h.visited hv
  obtain ⟨l₃, rfl⟩ := head?_eq_some_iff.1 (hnext.symm.trans hd)
  exact ⟨l₁ ++ [c], l₃, by rw [hl, append_assoc]; rfl, keys_ne_of_snoc hkeys hkey⟩

/-- At the end of its chain the thread has seen all of it. -/
theorem Chains.own_of_end (hend : s.next c = none) :
    ∃ l, s.own B t = l ++ [c] ∧ ∀ e ∈ s.own B t, s.keys e ≠ B.key t := by
  obtain ⟨l₁, l₂, hl, hkeys, hnext⟩ := h.visited hv
  obtain rfl := head?_eq_none_iff.1 (hnext.symm.trans hend)
  exact ⟨l₁, hl, hl ▸ keys_ne_of_snoc hkeys hkey⟩

end

variable [Fintype ι] [∀ j, AddCommSemigroup (S j)]

theorem Inv.local (inv : Inv B s) (hpc : s.thread t = pc) : Local B s t pc := hpc ▸ inv.locals t

variable [DecidableEq ι] {pc₀ : Pc}

/-- The thread `t` changes the memory to that of `s₁` and moves on. -/
theorem Inv.moved (inv : Inv B s) (s₁ : State ι K S) (t : ι) (pc : Pc)
    (hthread : s₁.thread = s.thread) (hf : Frame pc.allocated? s s₁) (hchains : Chains B s₁)
    (hlocal : Local B s₁ t pc) (hentry : pc.allocated? = (s.thread t).allocated? ∨
      pc.allocated? = some s.cnt ∧ (s.thread t).allocated? = none)
    (howned : ∀ e < s₁.cnt, e < s.cnt ∨ pc.allocated? = some e)
    (hsums : ∀ b, ∀ e ∈ s₁.chain b, ∀ j < B.aggs, (s₁.sums e j : WithZero (S j)) =
      ∑ t', given B t' e j (update s.thread t pc t')) : Inv B (s₁.goTo t pc) := by
  have hself : (s₁.goTo t pc).thread t = pc := update_self ..
  have hother : ∀ t', t' ≠ t → (s₁.goTo t pc).thread t' = s.thread t' := fun t' ht' =>
    (update_of_ne ht' _ _).trans (congrFun hthread t')
  -- the entry of the thread is not that of another one
  have hdiff : ∀ t', t' ≠ t → ∀ idx, (s.thread t').allocated? = some idx → pc.allocated? ≠ some idx := by
    intro t' ht' idx hidx hpc
    obtain h | ⟨h, -⟩ := hentry
    · exact ht' (inv.unique t' t idx hidx (h ▸ hpc))
    · have hlt := (inv.locals t').entry_lt inv.chains hidx
      rw [h] at hpc
      cases hpc
      exact lt_irrefl _ hlt
  refine ⟨⟨hchains.linked, hchains.mem, hchains.keys⟩, fun t' => ?_, fun t₁ t₂ idx h₁ h₂ => ?_,
    fun e he => ?_, ?_⟩
  · apply Local.goTo
    by_cases ht' : t' = t
    · rwa [ht', hself]
    · rw [hother t' ht']
      exact (inv.locals t').frame hf (hdiff t' ht')
  · simp only [goTo, hthread] at h₁ h₂
    exact unique_update (P := fun pc idx => allocated? pc = some idx) inv.unique
      (fun t' idx ht' hpc hidx => hdiff t' ht' idx hidx hpc) t₁ t₂ idx h₁ h₂
  · by_cases hpc : pc.allocated? = some e
    · exact ⟨t, by rw [hself]; exact hpc⟩
    · simp only [goTo, hthread]
      refine exists_update (P := fun pc => allocated? pc = some e) pc
        (inv.owned e ((howned e he).resolve_right hpc)) fun ht => ?_
      obtain h | ⟨-, h⟩ := hentry
      · exact hpc (h.trans ht)
      · cases h.symm.trans ht
  · simp only [goTo, hthread]
    exact hsums

/-- A step that contributes nothing. -/
theorem sum_given_congr {e : ℕ} (hpc : s.thread t = pc₀) (h : pc.contributes e j = pc₀.contributes e j) :
    ∑ t', given B t' e j (update s.thread t pc t') = ∑ t', given B t' e j (s.thread t') :=
  sum_update_eq (by rw [given, given, hpc, h])

section

variable (inv : Inv B s)
include inv

/-- The thread only moves on. -/
theorem Inv.goTo (hpc : s.thread t = pc₀) (hlocal : Local B s t pc)
    (hentry : pc.allocated? = pc₀.allocated?)
    (hgiven : ∀ e, ∀ j < B.aggs, pc.contributes e j = pc₀.contributes e j) : Inv B (s.goTo t pc) := by
  refine inv.moved s t pc rfl (Frame.refl _) inv.chains hlocal (.inl (hpc ▸ hentry))
    (fun e he => .inl he) fun b e he j hj => ?_
  rw [sum_given_congr hpc (hgiven e j hj)]
  exact inv.sums b e he j hj

/-- The thread writes to its own entry. -/
theorem Inv.write (hpc : s.thread t = pc₀) (hpriv : Private s idx)
    {next : ℕ → Option ℕ} {keys : ℕ → K} {sums : ℕ → (j : ℕ) → S j}
    (hlocal : Frame (some idx) s { s with next, keys, sums } →
      Local B { s with next, keys, sums } t pc)
    (hkeys : ∀ e ≠ idx, keys e = s.keys e) (hnext : ∀ e ≠ idx, next e = s.next e)
    (hsums : ∀ e ≠ idx, sums e = s.sums e) (hidx : pc.allocated? = some idx)
    (hentry : pc₀.allocated? = some idx)
    (hgiven : ∀ e, ∀ j < B.aggs, pc.contributes e j = pc₀.contributes e j) :
    Inv B ({ s with next, keys, sums }.goTo t pc) := by
  have hne : ∀ b, ∀ e ∈ s.chain b, e ≠ idx := fun b e he h => hpriv.2 b (h ▸ he)
  have hown : ∀ e, some idx ≠ some e → e ≠ idx := fun e he h => he (congrArg some h.symm)
  have hf : Frame (some idx) s { s with next, keys, sums } :=
    { Frame.refl (some idx) with
      keys_linked := fun b e he => hkeys e (hne b e he)
      keys := fun e he => hkeys e (hown e he)
      next := fun e he _ => hnext e (hown e he)
      sums := fun e he _ => hsums e (hown e he) }
  refine inv.moved { s with next, keys, sums } t pc rfl (hidx ▸ hf)
    ⟨fun b => ?_, fun b e he => ?_, fun b => ?_⟩ (hlocal hf)
    (.inl (hidx.trans (hpc ▸ hentry).symm)) (fun e he => .inl he) fun b e he j hj => ?_
  · exact (inv.chains.linked b).congr fun e he => hnext e (hne b e he)
  · show e < s.cnt ∧ B.hash (keys e) = b
    rw [hkeys e (hne b e he)]
    exact inv.chains.mem b e he
  · rw [map_congr_left fun e he => hkeys e (hne b e he)]
    exact inv.chains.keys b
  · show (sums e j : WithZero (S j)) = _
    rw [hsums e (hne b e he), sum_given_congr hpc (hgiven e j hj)]
    exact inv.sums b e he j hj

/-- The next entry is allocated. -/
theorem Inv.allocate {current : Option ℕ} (hpc : s.thread t = .allocate current) :
    Inv B ({ s with cnt := s.cnt + 1 }.goTo t (.clearNext current s.cnt)) := by
  have hfresh : ∀ b, s.cnt ∉ s.chain b := fun b hmem => lt_irrefl _ (inv.chains.mem b _ hmem).1
  have hf : Frame (some s.cnt) s { s with cnt := s.cnt + 1 } :=
    { Frame.refl (some s.cnt) with cnt := Nat.le_succ _ }
  refine inv.moved { s with cnt := s.cnt + 1 } t (.clearNext current s.cnt) rfl hf
    { inv.chains with mem := fun b e he => ?_ } ⟨inv.local hpc, Nat.lt_succ_self _, hfresh⟩
    (.inr ⟨rfl, by rw [hpc]; rfl⟩) (fun e he => ?_) fun b e he j hj => ?_
  · obtain ⟨hlt, hhash⟩ := inv.chains.mem b e he
    exact ⟨Nat.lt_succ_of_lt hlt, hhash⟩
  · obtain hlt | rfl := Nat.lt_succ_iff_lt_or_eq.1 he
    · exact .inl hlt
    · exact .inr rfl
  · rw [sum_given_congr hpc (by rfl)]
    exact inv.sums b e he j hj

/-- The entry of the thread is linked at the end of its chain, where no entry has its key. -/
theorem Inv.link (hpc : s.thread t = pc₀) (hready : Ready B s t idx)
    (hentry : pc₀.allocated? = some idx) (hkeys : ∀ e ∈ s.own B t, s.keys e ≠ B.key t)
    (hgiven : ∀ e j, pc₀.contributes e j = false) {head next : ℕ → Option ℕ}
    (hlinked : Linked next (head (B.hash (B.key t))) (s.own B t ++ [idx]))
    (hhead : ∀ b ≠ B.hash (B.key t), head b = s.head b) (hnext : ∀ e ∉ s.own B t, next e = s.next e) :
    Inv B (({ s with head, next }.link (B.hash (B.key t)) idx).goTo t (.linked idx)) := by
  have hchain : ∀ b, ({ s with head, next }.link (B.hash (B.key t)) idx).chain b =
      if b = B.hash (B.key t) then s.own B t ++ [idx] else s.chain b := fun b =>
    update_apply ..
  have hmem : ∀ {b e}, e ∈ ({ s with head, next }.link (B.hash (B.key t)) idx).chain b →
      e ∈ s.chain b ∨ b = B.hash (B.key t) ∧ e = idx := by
    intro b e he
    rw [hchain] at he
    split_ifs at he with hb
    · rw [hb]
      exact (mem_append.1 he).imp_right fun he => ⟨rfl, List.mem_singleton.1 he⟩
    · exact .inl he
  refine inv.moved ({ s with head, next }.link (B.hash (B.key t)) idx) t (.linked idx) rfl ?_ ?_ ?_
    (.inl (hpc ▸ hentry.symm)) (fun e he => .inl he) fun b e he j hj => ?_
  · refine ⟨le_rfl, fun b => ?_, fun b e he => ?_, fun _ _ _ => rfl, fun _ _ => rfl,
      fun e _ he => hnext e (he _), fun _ _ _ => rfl⟩
    · rw [hchain]
      split_ifs with hb
      · rw [hb]
        exact prefix_append _ _
      · exact prefix_rfl
    · obtain he | ⟨-, rfl⟩ := hmem he
      · exact .inl he
      · exact .inr rfl
  · refine ⟨fun b => ?_, fun b e he => ?_, fun b => ?_⟩
    · rw [hchain]
      show Linked next (head b) _
      split_ifs with hb
      · rwa [hb]
      · rw [hhead b hb]
        refine (inv.chains.linked b).congr fun e he => hnext e fun he' => hb ?_
        exact (inv.chains.mem b e he).2.symm.trans (inv.chains.mem _ e he').2
    · show e < s.cnt ∧ B.hash (s.keys e) = b
      obtain he | ⟨rfl, rfl⟩ := hmem he
      · exact inv.chains.mem b e he
      · rw [hready.keys]
        exact ⟨hready.priv.1, rfl⟩
    · rw [hchain]
      show (map s.keys _).Nodup
      split_ifs with hb
      · rw [map_append, List.map_singleton, nodup_append, hready.keys]
        refine ⟨inv.chains.keys _, nodup_singleton _, fun k hk k' hk' => ?_⟩
        obtain ⟨e, he, rfl⟩ := mem_map.1 hk
        rw [List.mem_singleton.1 hk']
        exact hkeys e he
      · exact inv.chains.keys b
  · refine ⟨?_, hready.keys⟩
    rw [own, hchain, if_pos rfl]
    exact mem_append_right _ mem_cons_self
  · show (s.sums e j : WithZero (S j)) = _
    by_cases heq : e = idx
    · -- nobody else can have contributed to an entry that was private
      rw [heq, hready.sums, sum_eq_single t]
      · rw [given, if_pos (by simp)]
      · intro t' _ ht'
        rw [update_of_ne ht', given, if_neg]
        intro hc
        exact hready.priv.2 _ ((inv.locals t').of_contributes hc).1
      · intro h
        exact absurd (mem_univ t) h
    · rw [sum_given_congr hpc (by rw [hgiven]; exact decide_eq_false (Ne.symm heq))]
      exact inv.sums b e ((hmem he).resolve_right fun h => heq h.2) j hj

/-- An atomic update of the entry with the thread's key. -/
theorem Inv.aggregate {current : ℕ} {written : Option ℕ}
    (hpc : s.thread t = .update current j written) : Inv B ({ s with
      sums := update s.sums current
        (update (s.sums current) j (s.sums current j + B.val t j)) }.goTo t
          (.update current (j + 1) written)) := by
  obtain ⟨hmatch, hready⟩ := inv.local hpc
  refine inv.moved _ t (.update current (j + 1) written) rfl
    { Frame.refl (s := s) written with
      sums := fun e _ he => update_of_ne (fun hec => he _ (hec ▸ hmatch.1)) _ _ }
    { inv.chains with } ⟨hmatch, fun idx hidx => ?_⟩ (.inl (by rw [hpc]; rfl))
    (fun e he => .inl he) fun b e he j' hj' => ?_
  · have hr := hready idx hidx
    refine ⟨hr.priv, hr.next, hr.keys, ?_⟩
    rw [← hr.sums]
    exact update_of_ne (fun hic => hr.priv.2 _ (hic ▸ hmatch.1)) _ _
  · have hold := inv.sums b e he j' hj'
    by_cases hec : e = current ∧ j' = j
    · obtain ⟨rfl, rfl⟩ := hec
      have hsum := sum_update_add (mem_univ t) s.thread (.update e (j' + 1) written)
        fun t' => given B t' e j'
      have hbefore : given B t e j' (s.thread t) = 0 := by rw [hpc, given, if_neg (by simp)]
      have hafter : given B t e j' (.update e (j' + 1) written) = B.val t j' := by
        rw [given, if_pos (by simp)]
      rw [hbefore, add_zero, hafter, ← hold] at hsum
      rw [hsum]
      simp only [update_self, WithZero.coe_add]
    · rw [sum_given_congr hpc]
      · rw [← hold]
        by_cases hec' : e = current
        · subst hec'
          simp only [update_self]
          rw [update_of_ne fun h => hec ⟨rfl, h⟩]
        · simp only [update_of_ne hec']
      · simp only [contributes, decide_eq_decide]
        refine and_congr_right fun h1 => ?_
        omega

end

variable [DecidableEq K]

/-- **Every step keeps the invariant.** -/
theorem Inv.step (inv : Inv B s) (hs : GroupBy.step B s t = some s') : Inv B s' := by
  unfold GroupBy.step at hs
  cases hpc : s.thread t <;> have hlocal := inv.local hpc <;> simp only [hpc] at hs
  case readHead =>
    split at hs
    · cases hs
      exact inv.goTo hpc nofun rfl fun _ _ _ => rfl
    · rename_i c hc
      cases hs
      exact inv.goTo hpc ⟨inv.chains.visits_head hc, nofun⟩ rfl fun _ _ _ => rfl
  case allocate current =>
    cases hs
    exact inv.allocate hpc
  case clearNext current idx =>
    cases hs
    obtain ⟨hpassed, hpriv⟩ := hlocal
    exact inv.write hpc hpriv (fun _ => ⟨hpassed, hpriv, update_self ..⟩) (fun _ _ => rfl)
      (fun e he => update_of_ne he _ _) (fun _ _ => rfl) rfl rfl fun _ _ _ => rfl
  case store current idx =>
    cases hs
    obtain ⟨hpassed, hpriv, hnext⟩ := hlocal
    cases current with
    | none =>
      exact inv.write hpc hpriv (fun _ => ⟨hpriv, hnext, update_self .., update_self ..⟩)
        (fun e he => update_of_ne he _ _) (fun _ _ => rfl) (fun e he => update_of_ne he _ _) rfl rfl
        fun _ _ _ => rfl
    | some c =>
      obtain ⟨hv, hkey⟩ := hpassed c rfl
      exact inv.write hpc hpriv (fun hf => ⟨⟨hv.frame hf, by rwa [hv.keys_eq hf]⟩,
        hpriv, hnext, update_self .., update_self ..⟩) (fun e he => update_of_ne he _ _)
        (fun _ _ => rfl) (fun e he => update_of_ne he _ _) rfl rfl fun _ _ _ => rfl
  case casHead idx =>
    split at hs
    · rename_i hhead
      cases hs
      have hnil : s.own B t = [] := by
        have h := (inv.chains.linked (B.hash (B.key t))).head_eq
        rw [hhead] at h
        exact head?_eq_none_iff.1 h.symm
      refine inv.link hpc hlocal rfl (by rw [hnil]; exact nofun) (fun _ _ => rfl) ?_
        (fun b hb => update_of_ne hb _ _) fun _ _ => rfl
      rw [hnil, update_self]
      exact linked_singleton (Ready.next hlocal)
    · rename_i c hc
      cases hs
      refine inv.goTo hpc ⟨inv.chains.visits_head hc, fun i hi => ?_⟩ rfl fun _ _ _ => rfl
      cases hi
      exact hlocal
  case readKey current written =>
    cases hs
    exact inv.goTo hpc ⟨hlocal.1, decide_eq_true_iff, hlocal.2⟩ rfl fun _ _ _ => rfl
  case readNext current found written =>
    obtain ⟨hv, hfound, hready⟩ := hlocal
    split_ifs at hs with hf
    · cases hs
      refine inv.goTo hpc ⟨⟨?_, hfound.1 hf⟩, hready⟩ rfl fun _ _ _ => by simp
      obtain ⟨l₁, l₂, hl, -⟩ := hv
      rw [hl]
      simp
    · have hkey : s.keys current ≠ B.key t := fun h => hf (hfound.2 h)
      split at hs
      · rename_i d hd
        cases hs
        exact inv.goTo hpc ⟨inv.chains.visits_next hv hkey hd, hready⟩ rfl fun _ _ _ => rfl
      · split at hs <;> cases hs
        · refine inv.goTo hpc (fun c hc => ?_) rfl fun _ _ _ => rfl
          cases hc
          exact ⟨hv, hkey⟩
        · exact inv.goTo hpc ⟨⟨hv, hkey⟩, hready _ rfl⟩ rfl fun _ _ _ => rfl
  case casNext current idx =>
    obtain ⟨⟨hv, hkey⟩, hready⟩ := hlocal
    split at hs
    · rename_i hend
      cases hs
      obtain ⟨l, hl, hkeys⟩ := inv.chains.own_of_end hv hkey hend
      refine inv.link hpc hready rfl hkeys (fun _ _ => rfl) ?_ (fun _ _ => rfl)
        fun e he => update_of_ne (fun hec => he ?_) _ _
      · have hlinked := inv.chains.linked (B.hash (B.key t))
        have hnodup := (inv.chains.keys (B.hash (B.key t))).of_map
        have hidx := hready.priv.2 (B.hash (B.key t))
        rw [← own, hl] at hlinked hnodup hidx
        rw [hl]
        exact hlinked.snoc hnodup hidx hready.next
      · rw [hl, hec]
        exact mem_append_right _ mem_cons_self
    · rename_i d hd
      cases hs
      refine inv.goTo hpc ⟨inv.chains.visits_next hv hkey hd, fun i hi => ?_⟩ rfl fun _ _ _ => rfl
      cases hi
      exact hready
  case update current j written =>
    split_ifs at hs with hj
    · cases hs
      exact inv.aggregate hpc
    · have hall : ∀ e, ∀ j' < B.aggs,
          decide (current = e) = contributes e j' (.update current j written) := by
        intro e j' hj'
        simp only [contributes, decide_eq_decide, iff_self_and]
        omega
      split at hs <;> cases hs
      · exact inv.goTo hpc ⟨hlocal.1, nofun⟩ rfl hall
      · exact inv.goTo hpc ⟨hlocal.1, hlocal.2 _ rfl⟩ rfl hall
  case mark current idx =>
    cases hs
    obtain ⟨hmatch, hready⟩ := hlocal
    refine inv.write hpc hready.priv (fun _ => ⟨hmatch, fun i hi => ?_⟩) (fun _ _ => rfl)
      (fun e he => update_of_ne he _ _) (fun _ _ => rfl) rfl rfl fun _ _ _ => rfl
    cases hi
    exact ⟨hready.priv, update_self ..⟩
  case linked | merged => cases hs

end

/-! ## Progress -/

/-- How far a thread is from its end, for `n` threads and the chain `l` of its key. Each round takes it
one entry further. -/
def Pc.rank (n aggs : ℕ) (l : List ℕ) : Pc → ℕ
  | .readHead => 10 * (n + 2) + aggs + 3
  | .allocate none => 10 * (n + 1) + 9 + aggs + 3
  | .clearNext none _ => 10 * (n + 1) + 8 + aggs + 3
  | .store none _ => 10 * (n + 1) + 7 + aggs + 3
  | .casHead _ => 10 * (n + 1) + 6 + aggs + 3
  | .readKey c _ => 10 * (n - l.idxOf c) + 9 + aggs + 3
  | .readNext c _ _ => 10 * (n - l.idxOf c) + 8 + aggs + 3
  | .allocate (some c) => 10 * (n - l.idxOf c) + 7 + aggs + 3
  | .clearNext (some c) _ => 10 * (n - l.idxOf c) + 6 + aggs + 3
  | .store (some c) _ => 10 * (n - l.idxOf c) + 5 + aggs + 3
  | .casNext c _ => 10 * (n - l.idxOf c) + 4 + aggs + 3
  | .update _ j _ => aggs - j + 2
  | .mark _ _ => 1
  | .linked _ | .merged _ _ => 0

/-- The thread is done. -/
def Pc.isDone : Pc → Bool
  | .linked _ | .merged _ _ => true
  | _ => false

open Fintype

section

variable {t : ι} [Fintype ι]

/-- The number of steps that are left, at most. -/
def remaining (B : Build ι K S) (s : State ι K S) : ℕ :=
  ∑ t, (s.thread t).rank (Fintype.card ι) B.aggs (s.own B t)

omit [Fintype ι] in
/-- A thread's place in its chain does not change when the chain grows. -/
theorem Local.rank_eq {pc : Pc} (h : Local B s t pc) (hchain : ∀ b, s.chain b <+: s'.chain b) (n : ℕ) :
    pc.rank n B.aggs (s'.own B t) = pc.rank n B.aggs (s.own B t) := by
  have hidx : ∀ c, Visits B s t c → (s'.own B t).idxOf c = (s.own B t).idxOf c := by
    intro c hv
    obtain ⟨l₁, l₂, hl, -⟩ := hv
    obtain ⟨l₃, hl₃⟩ := hchain (B.hash (B.key t))
    rw [own, ← hl₃, ← own]
    exact idxOf_append_of_mem (by rw [hl]; simp)
  cases pc with
  | allocate current =>
    cases current with
    | none => rfl
    | some c => simp only [rank, hidx c (h c rfl).1]
  | clearNext current | store current =>
    cases current with
    | none => rfl
    | some c => simp only [rank, hidx c (h.1 c rfl).1]
  | readKey c | readNext c => simp only [rank, hidx c h.1]
  | casNext c i => simp only [rank, hidx c h.1.1]
  | _ => rfl

variable [∀ j, AddCommSemigroup (S j)]

/-- There are at most as many entries as threads. -/
theorem Inv.cnt_le (inv : Inv B s) : s.cnt ≤ card ι := by
  choose owner howner using fun e : Fin s.cnt => inv.owned e e.isLt
  have hinj : Function.Injective owner := by
    intro e e' h
    have he := howner e
    rw [h, howner e'] at he
    exact Fin.ext (Option.some.inj he).symm
  simpa using card_le_of_injective owner hinj

theorem Inv.length_own_le (inv : Inv B s) : (s.own B t).length ≤ card ι := by
  refine le_trans ?_ inv.cnt_le
  have hnodup : (s.own B t).Nodup := (inv.chains.keys _).of_map
  have hsub : s.own B t ⊆ range s.cnt := fun e he =>
    List.mem_range.2 (inv.chains.mem _ e he).1
  simpa using (subperm_of_subset hnodup hsub).length_le

/-- The next entry is one place further. -/
theorem Inv.idxOf_next (inv : Inv B s) {c d : ℕ} (hv : Visits B s t c) (hd : s.next c = some d) :
    (s.own B t).idxOf d = (s.own B t).idxOf c + 1 ∧ (s.own B t).idxOf d < card ι := by
  obtain ⟨l₁, l₂, hl, -, hnext⟩ := inv.chains.visited hv
  have hnodup : (s.own B t).Nodup := (inv.chains.keys (B.hash (B.key t))).of_map
  have hlen := inv.length_own_le (t := t)
  obtain ⟨l₃, rfl⟩ := head?_eq_some_iff.1 (hnext.symm.trans hd)
  have hplace : ∀ l l' e, s.own B t = l ++ e :: l' → (s.own B t).idxOf e = l.length := by
    intro l l' e he
    rw [he, nodup_middle, nodup_cons] at hnodup
    rw [he, idxOf_append_of_notMem fun h => hnodup.1 (mem_append_left _ h),
      idxOf_cons_self, add_zero]
  have hc := hplace l₁ (d :: l₃) c hl
  have hd' := hplace (l₁ ++ [c]) l₃ d (by rw [hl, append_assoc]; rfl)
  rw [length_append, length_singleton] at hd'
  rw [hl, length_append, length_cons, length_cons] at hlen
  omega

variable [DecidableEq ι]

omit [∀ j, AddCommSemigroup (S j)] in
/-- The thread comes closer to its end, and the chains grow at their ends. -/
def Closer (B : Build ι K S) (s s' : State ι K S) (t : ι) : Prop :=
  ∃ pc, s'.thread = update s.thread t pc ∧ (∀ b, s.chain b <+: s'.chain b) ∧
    pc.rank (Fintype.card ι) B.aggs (s'.own B t) <
      (s.thread t).rank (Fintype.card ι) B.aggs (s.own B t)

variable [DecidableEq K]

/-- **Every step brings its thread closer to the end.** -/
theorem Inv.rank_lt (inv : Inv B s) (hs : GroupBy.step B s t = some s') : Closer B s s' t := by
  -- the steps that link nothing, and those that do
  have hplain : ∀ {s₁ : State ι K S} {pc pc₀}, some (s₁.goTo t pc) = some s' → s.thread t = pc₀ →
      s₁.thread = s.thread → s₁.chain = s.chain →
      pc.rank (card ι) B.aggs (s.own B t) < pc₀.rank (card ι) B.aggs (s.own B t) →
      Closer B s s' t := by
    rintro s₁ pc _ ⟨⟩ rfl hthread hchain hlt
    have hown : (s₁.goTo t pc).own B t = s.own B t := by
      show s₁.chain _ = s.chain _
      rw [hchain]
    refine ⟨pc, ?_, fun b => ?_, hown ▸ hlt⟩
    · show update s₁.thread t pc = _
      rw [hthread]
    · show s.chain b <+: s₁.chain b
      rw [hchain]
  have hlink : ∀ {s₁ : State ι K S} {b idx pc₀}, some ((s₁.link b idx).goTo t (.linked idx)) = some s' →
      s.thread t = pc₀ → s₁.thread = s.thread → s₁.chain = s.chain →
      0 < pc₀.rank (card ι) B.aggs (s.own B t) → Closer B s s' t := by
    rintro s₁ b idx _ ⟨⟩ rfl hthread hchain hlt
    refine ⟨.linked idx, ?_, fun b' => ?_, hlt⟩
    · show update s₁.thread t _ = _
      rw [hthread]
    · show s.chain b' <+: update s₁.chain b (s₁.chain b ++ [idx]) b'
      rw [hchain, update_apply]
      split_ifs with hb
      · rw [hb]
        exact prefix_append _ _
      · exact prefix_rfl
  unfold GroupBy.step at hs
  cases hpc : s.thread t <;> simp only [hpc] at hs
  case readHead =>
    split at hs <;> exact hplain hs hpc rfl rfl (by simp only [rank]; omega)
  case allocate current | clearNext current _ | store current _ =>
    refine hplain hs hpc rfl rfl ?_
    cases current <;> simp only [rank] <;> omega
  case casHead =>
    split at hs
    · exact hlink hs hpc rfl rfl (by simp only [rank]; omega)
    · exact hplain hs hpc rfl rfl (by simp only [rank]; omega)
  case readKey | mark => exact hplain hs hpc rfl rfl (by simp only [rank]; omega)
  case readNext =>
    split_ifs at hs
    · exact hplain hs hpc rfl rfl (by simp only [rank]; omega)
    · split at hs
      · rename_i d hd
        obtain ⟨hsucc, hlt⟩ := inv.idxOf_next (inv.local hpc).1 hd
        exact hplain hs hpc rfl rfl (by simp only [rank]; omega)
      · split at hs <;> exact hplain hs hpc rfl rfl (by simp only [rank]; omega)
  case casNext =>
    split at hs
    · exact hlink hs hpc rfl rfl (by simp only [rank]; omega)
    · rename_i d hd
      obtain ⟨hsucc, hlt⟩ := inv.idxOf_next (inv.local hpc).1.1 hd
      exact hplain hs hpc rfl rfl (by simp only [rank]; omega)
  case update =>
    split_ifs at hs with hj
    · exact hplain hs hpc rfl rfl (by simp only [rank]; omega)
    · split at hs <;> exact hplain hs hpc rfl rfl (by simp only [rank]; omega)
  case linked | merged => cases hs

theorem Inv.remaining_lt (inv : Inv B s) (hs : GroupBy.step B s t = some s') :
    remaining B s' < remaining B s := by
  obtain ⟨pc, hthread, hchain, hlt⟩ := inv.rank_lt hs
  refine sum_lt_sum (fun t' _ => ?_) ⟨t, mem_univ t, ?_⟩
  · by_cases ht' : t' = t
    · rw [ht', hthread, update_self]
      exact hlt.le
    · rw [hthread, update_of_ne ht', (inv.locals t').rank_eq hchain]
  · rwa [hthread, update_self]

/-- No run is longer than what remains. -/
theorem Inv.length_le (inv : Inv B s) {run : List ι} (hs : exec (GroupBy.step B) s run = some s') :
    run.length ≤ remaining B s := by
  refine Nat.le_of_add_right_le (length_add_le_of_exec (I := fun s => Inv B s) hs inv ?_).2
  exact fun _ _ _ inv hs => ⟨inv.step hs, inv.remaining_lt hs⟩

omit [Fintype ι] in
/-- A thread that is not done can go on. -/
theorem step_isSome (ht : (s.thread t).isDone = false) : (step B s t).isSome := by
  unfold step
  cases hpc : s.thread t with
  | linked | merged => rw [hpc] at ht; cases ht
  | readHead | casHead => cases h : s.head (B.hash (B.key t)) <;> simp [h]
  | casNext current idx => cases h : s.next current <;> simp [h]
  | readNext current found written =>
    cases found <;> cases h : s.next current <;> cases written <;> simp [h]
  | update current j written =>
    by_cases h : j < B.aggs <;> cases written <;> simp [h]
  | _ => rfl

end

/-! ## The finished table -/

section

variable {t : ι} {e : ℕ}

theorem Chains.eq_of_keys (h : Chains B s) {b b' e' : ℕ} (he : e ∈ s.chain b) (he' : e' ∈ s.chain b')
    (hkeys : s.keys e = s.keys e') : e = e' := by
  have hb : b = b' := by rw [← (h.mem b e he).2, ← (h.mem b' e' he').2, hkeys]
  subst hb
  exact inj_on_of_nodup_map (h.keys b) he he' hkeys

theorem Chains.isGroup (h : Chains B s) {b : ℕ} (he : e ∈ s.chain b) : isGroup s e = true := by
  obtain ⟨l₁, l₂, hl⟩ := append_of_mem he
  have hnodup : (s.chain b).Nodup := (h.keys b).of_map
  have hlinked := h.linked b
  rw [hl] at hlinked hnodup
  rw [GroupBy.isGroup, decide_eq_true_iff, hlinked.next_eq]
  intro hhead
  rw [nodup_middle, nodup_cons, mem_append] at hnodup
  exact hnodup.1 (.inr (mem_of_mem_head? hhead))

/-- A thread that is done has contributed to one entry, which has its key. -/
theorem Local.of_isDone {pc : Pc} (h : Local B s t pc) (hdone : pc.isDone = true) :
    ∃ c, Matches B s t c ∧ ∀ e j, pc.contributes e j = true ↔ c = e := by
  cases pc with
  | linked idx => exact ⟨idx, h, fun e j => decide_eq_true_iff⟩
  | merged current written => exact ⟨current, h.1, fun e j => decide_eq_true_iff⟩
  | _ => cases hdone

variable [Fintype ι] [∀ j, AddCommSemigroup (S j)]

/-- An allocated entry was linked in the end, or abandoned. -/
theorem Inv.linked_or_merged (inv : Inv B s) (hdone : ∀ t, (s.thread t).isDone = true) (he : e < s.cnt) :
    (∃ t, s.thread t = .linked e) ∨ ∃ t c, s.thread t = .merged c (some e) := by
  obtain ⟨t, ht⟩ := inv.owned e he
  have hd := hdone t
  cases hpc : s.thread t with
  | linked idx =>
    rw [hpc] at ht
    cases ht
    exact .inl ⟨t, hpc⟩
  | merged current written =>
    rw [hpc] at ht
    exact .inr ⟨t, current, by rw [hpc]; exact congrArg _ ht⟩
  | _ => rw [hpc] at hd; cases hd

theorem Inv.isGroup_of_merged (inv : Inv B s) {c : ℕ} (ht : s.thread t = .merged c (some e)) :
    isGroup s e = false := by
  rw [isGroup, decide_eq_false_iff_not, not_not]
  exact ((inv.local ht).2 e rfl).2

/-- The table after the build: one entry for every key, with the sums of the values of the key. -/
structure Grouped [DecidableEq K] (B : Build ι K S) (s : State ι K S) : Prop where
  key : ∀ t, ∃! e, e < s.cnt ∧ isGroup s e = true ∧ s.keys e = B.key t
  input : ∀ e < s.cnt, isGroup s e = true → ∃ t, B.key t = s.keys e
  sums : ∀ e < s.cnt, isGroup s e = true → ∀ j < B.aggs,
    (s.sums e j : WithZero (S j)) = ∑ t with B.key t = s.keys e, (B.val t j : WithZero (S j))
  /-- The scan skips exactly the entries that were given up for another one. -/
  abandoned : ∀ e < s.cnt, isGroup s e = false ↔ ∃ t c, s.thread t = .merged c (some e)

theorem Inv.grouped_of_isDone [DecidableEq K] (inv : Inv B s) (hdone : ∀ t, (s.thread t).isDone = true) :
    Grouped B s := by
  have hlinked : ∀ e < s.cnt, isGroup s e = true → ∃ t, Matches B s t e := by
    intro e he hgroup
    obtain ⟨t, ht⟩ | ⟨t, c, ht⟩ := inv.linked_or_merged hdone he
    · exact ⟨t, inv.local ht⟩
    · rw [inv.isGroup_of_merged ht] at hgroup
      cases hgroup
  refine ⟨fun t => ?_, fun e he hgroup => ?_, fun e he hgroup j hj => ?_, fun e he => ⟨fun hgroup => ?_, ?_⟩⟩
  · obtain ⟨c, ⟨hmem, hkey⟩, -⟩ := (inv.locals t).of_isDone (hdone t)
    refine ⟨c, ⟨(inv.chains.mem _ c hmem).1, inv.chains.isGroup hmem, hkey⟩, ?_⟩
    rintro e ⟨he, hgroup, hkey'⟩
    obtain ⟨t', hmem', -⟩ := hlinked e he hgroup
    exact inv.chains.eq_of_keys hmem' hmem (hkey'.trans hkey.symm)
  · obtain ⟨t, -, hkey⟩ := hlinked e he hgroup
    exact ⟨t, hkey.symm⟩
  · obtain ⟨t', hmem, -⟩ := hlinked e he hgroup
    rw [inv.sums _ e hmem j hj, sum_filter]
    refine sum_congr rfl fun t _ => if_congr ?_ rfl rfl
    obtain ⟨c, ⟨hmem', hkey⟩, hcontributes⟩ := (inv.locals t).of_isDone (hdone t)
    rw [hcontributes, ← hkey]
    exact ⟨fun h => h ▸ rfl, inv.chains.eq_of_keys hmem' hmem⟩
  · obtain ⟨t, ht⟩ | h := inv.linked_or_merged hdone he
    · rw [inv.chains.isGroup (And.left (inv.local ht))] at hgroup
      cases hgroup
    · exact h
  · rintro ⟨t, c, ht⟩
    exact inv.isGroup_of_merged ht

theorem inv_init (next : ℕ → Option ℕ) (keys : ℕ → K) (sums : ℕ → (j : ℕ) → S j) :
    Inv B (init ι next keys sums) where
  chains := ⟨fun _ => rfl, fun _ _ he => (not_mem_nil he).elim, fun _ => nodup_nil⟩
  locals _ := trivial
  unique _ _ _ h := by cases h
  owned _ he := (Nat.not_lt_zero _ he).elim
  sums _ _ he := (not_mem_nil he).elim

variable [DecidableEq ι] [DecidableEq K] {sums : ℕ → (j : ℕ) → S j} {next : ℕ → Option ℕ} {keys : ℕ → K}

theorem inv_of_reach
    (h : Reach (step B) Free (init ι next keys sums) s) : Inv B s := by
  refine h.invariant (I := fun s => Inv B s) (inv_init next keys sums) ?_
  exact fun _ _ _ inv _ hs => inv.step hs

/-- **The concurrent build groups its tuples**, whatever the order of the steps: a thread can go on until
it is done, after boundedly many steps, and when all threads are done, the table is right. -/
theorem grouped {next : ℕ → Option ℕ} {keys : ℕ → K} {sums : ℕ → (j : ℕ) → S j}
    (h : Reach (step B) Free (init ι next keys sums) s) :
    (∀ t, (s.thread t).isDone = false → (step B s t).isSome) ∧
      (∀ run s', exec (step B) s run = some s' → run.length ≤ remaining B s) ∧
      ((∀ t, (s.thread t).isDone = true) → Grouped B s) := by
  have inv := inv_of_reach h
  exact ⟨fun t => step_isSome, fun run s' => inv.length_le, inv.grouped_of_isDone⟩

/-- Both threads find the bucket empty and allocate; the second one loses the race. -/
theorem grouped_lost_race : ∃ s, Reach (step ⟨fun _ => 0, fun t _ => t.toNat + 5, fun _ => 3, 1⟩) Free
        (init Bool (K := ℕ) (S := fun _ => ℕ) (fun _ => some 7) (fun _ => 7) fun _ _ => 7) s ∧
      Grouped ⟨fun _ => 0, fun t _ => t.toNat + 5, fun _ => 3, 1⟩ s ∧
      s.cnt = 2 ∧ isGroup s 0 = true ∧ isGroup s 1 = false ∧ s.sums 0 0 = 11 := by
  refine exists_reach_of_exec [false, true, false, true, false, false, false, true, true, true, true,
    true, true, true, true] ⟨_, rfl, fun h => ⟨(grouped h).2.2 fun t => ?_, rfl, rfl, rfl, rfl⟩⟩
  cases t <;> rfl

/-! ### Capacity -/

omit [Fintype ι] in
/-- The threads of `A` have allocated an entry, and nothing is linked yet. -/
theorem exists_allocated (next : ℕ → Option ℕ) (keys : ℕ → K) (sums : ℕ → (j : ℕ) → S j) (A : Finset ι) :
    ∃ s, Reach (step B) Free (init ι next keys sums) s ∧ (∀ b, s.head b = none) ∧ s.cnt = A.card ∧
      ∀ t ∉ A, s.thread t = .readHead := by
  induction A using Finset.induction_on with
  | empty => exact ⟨_, .init, fun _ => rfl, rfl, fun _ _ => rfl⟩
  | insert t A ht ih =>
    obtain ⟨s, hs, hhead, hcnt, hrest⟩ := ih
    have hread : step B s t = some (s.goTo t (.allocate none)) := by simp [step, hrest t ht, hhead]
    have hallocate : step B (s.goTo t (.allocate none)) t =
        some ({ s.goTo t (.allocate none) with cnt := s.cnt + 1 }.goTo t (.clearNext none s.cnt)) := by
      simp [step, goTo]
    refine ⟨_, .next t (.next t hs trivial hread) trivial hallocate, hhead, ?_, fun t' ht' => ?_⟩
    · rw [card_insert_of_notMem ht, ← hcnt]
      rfl
    · obtain ⟨hne, hnot⟩ := not_or.1 (mt mem_insert.2 ht')
      simp [goTo, hne, hrest t' hnot]

/-- The entries of the table: the constructor gives it at least `128 * 1024`. -/
def maxInputSize (maxInputSize_pre : ℕ) : ℕ := max maxInputSize_pre (128 * 1024)

/-- Some schedule allocates every entry that there are tuples for. -/
theorem exists_allocated_last (next : ℕ → Option ℕ) (keys : ℕ → K) (sums : ℕ → (j : ℕ) → S j) {k : ℕ}
    (h : k < Fintype.card ι) : ∃ s, Reach (step B) Free (init ι next keys sums) s ∧
      ∃ t, (s.thread t).allocated? = some k := by
  obtain ⟨s, hs, -, hcnt, -⟩ := exists_allocated (B := B) next keys sums univ
  exact ⟨s, hs, (inv_of_reach hs).owned k (by rwa [hcnt])⟩

/-- **No schedule goes beyond the capacity exactly if every tuple can have an entry.** The number of
different keys does not matter: all threads may allocate before the first one links its entry. -/
theorem allocated_lt_iff {maxInputSize_pre : ℕ} :
    (∀ s, Reach (step B) Free (init ι next keys sums) s → ∀ t idx,
      (s.thread t).allocated? = some idx → idx < maxInputSize maxInputSize_pre) ↔
        Fintype.card ι ≤ maxInputSize maxInputSize_pre := by
  constructor
  · intro h
    by_contra hlt
    obtain ⟨s, hs, t, ht⟩ := exists_allocated_last (B := B) next keys sums (not_le.1 hlt)
    exact lt_irrefl _ (h s hs t _ ht)
  · intro hle s hs t idx hidx
    have inv := inv_of_reach hs
    exact ((inv.locals t).entry_lt inv.chains hidx).trans_le (inv.cnt_le.trans hle)

/-- One group is expected and one comes, in one tuple more than there are entries. -/
theorem allocated_beyond_one_group : (univ.image fun _ : Fin 131073 => 0).card ≤ 1 ∧ ∃ s,
    Reach (step ⟨fun _ => 0, fun _ _ => 5, fun _ => 3, 1⟩) Free
      (init (Fin 131073) (K := ℕ) (S := fun _ => ℕ) (fun _ => none) (fun _ => 7) fun _ _ => 7) s ∧
    ∃ t, (s.thread t).allocated? = some (maxInputSize 1) := by
  refine ⟨card_le_one.2 (by simp), exists_allocated_last _ _ _ ?_⟩
  rw [Fintype.card_fin]
  decide

end

end Proteus.GroupBy
