import Mathlib.Data.Multiset.Bind

/-!
# Relational algebra on bags

Selection and inner join of multisets of rows, with the laws a join rewrite uses: a selection
below a join or above it moves into the join condition, the inputs of a join commute up to the
order of columns, and two join conditions give the same bags on all inputs exactly when they
agree on every pair of rows.
-/

namespace Proteus.RelAlg

open Multiset

variable {α β : Type*} {p q : α → β → Prop}

/-- The rows that satisfy `p`. -/
def select (p : α → Prop) [DecidablePred p] (s : Multiset α) : Multiset α := s.filter p

/-- The pairs of rows that satisfy `p`. -/
def join (p : α → β → Prop) [∀ a, DecidablePred (p a)] (s : Multiset α) (t : Multiset β) :
    Multiset (α × β) :=
  (s ×ˢ t).filter fun x => p x.1 x.2

section

variable (p : α → β → Prop) [∀ a, DecidablePred (p a)] (s : Multiset α) (t : Multiset β)

@[simp] theorem join_zero : join p 0 t = 0 := by
  simp [join]

theorem join_cons (a : α) : join p (a ::ₘ s) t = (t.filter (p a)).map (Prod.mk a) + join p s t := by
  rw [join, cons_product, filter_add, filter_map]
  rfl

theorem join_singleton (a : α) (b : β) : join p {a} {b} = if p a b then {(a, b)} else 0 := by
  rw [join, product_singleton, filter_singleton]
  rfl

theorem join_select_left (q : α → Prop) [DecidablePred q] :
    join p (select q s) t = join (fun a b => q a ∧ p a b) s t := by
  induction s using Multiset.induction with
  | empty => simp [select]
  | cons a s ih =>
    rw [select] at ih ⊢
    by_cases ha : q a
    · rw [filter_cons_of_pos _ ha, join_cons, join_cons, ih]
      simp [ha]
    · rw [filter_cons_of_neg _ ha, join_cons, ih]
      simp [ha]

theorem join_select_right (q : β → Prop) [DecidablePred q] :
    join p s (select q t) = join (fun a b => q b ∧ p a b) s t := by
  induction s using Multiset.induction with
  | empty => simp
  | cons a s ih =>
    rw [join_cons, join_cons, ih, select, filter_filter]
    simp only [and_comm]

theorem select_join (q : α × β → Prop) [DecidablePred q] :
    select q (join p s t) = join (fun a b => p a b ∧ q (a, b)) s t := by
  rw [select, join, join, filter_filter]
  refine filter_congr fun x _ => ?_
  exact and_comm

/-- A join with its inputs exchanged, and the columns put back. -/
theorem join_swap : (join (fun b a => p a b) t s).map Prod.swap = join p s t := by
  rw [join, join, ← map_swap_product t s, filter_map]
  rfl

end

theorem join_congr [∀ a, DecidablePred (p a)] [∀ a, DecidablePred (q a)]
    (h : ∀ a b, p a b ↔ q a b) (s : Multiset α) (t : Multiset β) : join p s t = join q s t :=
  filter_congr fun x _ => h x.1 x.2

/-- Join conditions are told apart by inputs of one row each. -/
theorem join_eq_iff [∀ a, DecidablePred (p a)] [∀ a, DecidablePred (q a)] :
    (∀ s t, join p s t = join q s t) ↔ ∀ a b, p a b ↔ q a b := by
  refine ⟨fun h a b => ?_, join_congr⟩
  have hab := h {a} {b}
  rw [join_singleton, join_singleton] at hab
  by_cases hp : p a b <;> by_cases hq : q a b <;> simp_all

end Proteus.RelAlg
