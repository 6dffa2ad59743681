import Mathlib.Data.List.Nodup

/-!
# Chains of entries

A chain is a list of entries in memory: a first entry and for every entry the next one, up to one that
has none. `Linked next first l` says that the entries met from `first` on are those of `l`.

* `Linked.next_eq` reads the pointer of an entry off the list around it;
* `Linked.congr` is the frame rule: only the pointers of the chain matter;
* `Linked.snoc` appends an entry behind the last one, and `linked_singleton` starts a chain.
-/

namespace Proteus

open Function

variable {α : Type*} {next next' : α → Option α} {first : Option α} {l : List α} {c e : α}

/-- The entries met when `next` is followed from `first` are those of the list. -/
def Linked (next : α → Option α) : Option α → List α → Prop
  | first, [] => first = none
  | first, e :: l => first = some e ∧ Linked next (next e) l

namespace Linked

theorem head_eq (h : Linked next first l) : first = l.head? := by
  cases l with
  | nil => exact h
  | cons e l => exact h.1

/-- An entry points to the one behind it in the list. -/
theorem next_eq {l₁ l₂ : List α} (h : Linked next first (l₁ ++ c :: l₂)) : next c = l₂.head? := by
  induction l₁ generalizing first with
  | nil => exact h.2.head_eq
  | cons e l₁ ih => exact ih h.2

/-- Only the pointers of the chain matter. -/
theorem congr (h : Linked next first l) (hnext : ∀ e ∈ l, next' e = next e) : Linked next' first l := by
  induction l generalizing first with
  | nil => exact h
  | cons e l ih =>
    refine ⟨h.1, ?_⟩
    rw [hnext e List.mem_cons_self]
    exact ih h.2 fun e' he' => hnext e' (List.mem_cons_of_mem _ he')

/-- A new entry is linked behind the last one. -/
theorem snoc [DecidableEq α] (h : Linked next first (l ++ [c])) (hnodup : (l ++ [c]).Nodup)
    (he : e ∉ l ++ [c]) (hnext : next e = none) :
    Linked (update next c (some e)) first (l ++ [c] ++ [e]) := by
  induction l generalizing first with
  | nil =>
    refine ⟨h.1, ?_, ?_⟩
    · rw [update_self]
    · have hec : e ≠ c := fun hec => he (by simp [hec])
      rwa [update_of_ne hec]
  | cons d l ih =>
    have hdc : d ≠ c := by
      intro hdc
      rw [List.cons_append, List.nodup_cons] at hnodup
      exact hnodup.1 (by simp [hdc])
    refine ⟨h.1, ?_⟩
    rw [update_of_ne hdc]
    exact ih h.2 (List.nodup_cons.1 hnodup).2 fun hmem => he (List.mem_cons_of_mem _ hmem)

end Linked

theorem linked_singleton (hnext : next e = none) : Linked next (some e) [e] := ⟨rfl, hnext⟩

end Proteus
