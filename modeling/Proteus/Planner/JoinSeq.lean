import Proteus.Planner.Rex
import Proteus.RelAlg

/-!
# The join rule `PelagoJoinSeq`

The rule turns a logical inner join into a hash join. Unless the whole condition is an
equi-join, `convert` takes the operands of the (factored) condition apart: an equality between
the two inputs stays in the join, an equality over one input becomes a filter below it, and an
equality over no input a filter above it. Operands that are not equalities are in none of the
four lists, and a condition that is one equality is taken apart into its two sides.

The results say which rows the plan keeps (`rows_convert`) and for which conditions these are
the rows of the original join (`convert_preserves_iff`).
-/

namespace Proteus.Planner

open RelAlg List Rex

/-! ## Model -/

/-- The functions of Calcite the rule calls. `isEqui thr` is `join.analyzeCondition.isEqui` for a
join whose left input has `thr` fields, and `composeConjunction` has `nullOnEmpty` false. -/
structure Calcite (D : Type*) extends Visitors D where
  isAlwaysTrue : Rex D → Bool
  isEqui : ℕ → Rex D → Bool
  toCnf : Rex D → Rex D
  conjunctions : Rex D → List (Rex D)
  pullFactors : Rex D → Rex D
  composeConjunction : List (Rex D) → Rex D

variable {D : Type*} (thr : ℕ)

section

variable (cal : Calcite D)

/-- `PelagoJoinSeq.matches`, on a join with `thr` left fields. -/
def joinMatches (thr : ℕ) (condition : Rex D) : Bool :=
  if cal.isAlwaysTrue condition then false
  else if cal.isEqui thr condition then true
  else (cal.conjunctions (cal.toCnf condition)).any (·.isA (.comparison .EQUALS))

/-- The lists `convert` sorts the operands into. -/
structure Split (D : Type*) where
  equalities : List (Rex D) := []
  rest : List (Rex D) := []
  rest0 : List (Rex D) := []
  rest1 : List (Rex D) := []

/-- `rel0`: the predicate refers to the left input. -/
def rel0 (predicate : Rex D) : Bool := (cal.bits predicate).any (· < thr)

/-- `rel1`: the predicate refers to the right input. -/
def rel1 (predicate : Rex D) : Bool := (cal.bits predicate).any (thr ≤ ·)

/-- One round of the loop over the operands. -/
def classify (s : Split D) (predicate : Rex D) : Split D :=
  if predicate.isA (.comparison .EQUALS) then
    if rel0 thr cal predicate && rel1 thr cal predicate then
      { s with equalities := s.equalities ++ [predicate] }
    else if rel0 thr cal predicate && !rel1 thr cal predicate then
      { s with rest0 := s.rest0 ++ [predicate] }
    else if !rel0 thr cal predicate && rel1 thr cal predicate then
      { s with rest1 := s.rest1 ++ [predicate] }
    else { s with rest := s.rest ++ [predicate] }
  else s

/-- The first half of `convert`; `none` is a failed assertion. -/
def splitCondition (thr : ℕ) (cond : Rex D) : Option (Split D) :=
  if cal.isEqui thr cond then some { equalities := [cond] }
  else
    let condition := cal.pullFactors cond
    if condition.isA .AND || condition.isA (.comparison .EQUALS) then
      some (condition.getOperands.foldl (classify thr cal) {})
    else none

/-- The plan `convert` builds: filters on the inputs, the join, and a filter above it. With
`swap` the inputs of the join are exchanged and a projection puts the columns back. -/
structure JoinPlan (D : Type*) where
  leftFilter : Option (Rex D)
  rightFilter : Option (Rex D)
  joinCond : Rex D
  swap : Bool
  aboveFilter : Option (Rex D)

/-- `PelagoJoinSeq.convert`. -/
def convert (swap : Bool) (thr : ℕ) (cond : Rex D) : Option (JoinPlan D) :=
  (splitCondition cal thr cond).map fun s =>
    let joinCond := cal.composeConjunction s.equalities
    let leftCond := cal.composeConjunction s.rest0
    let rightCond := cal.shift thr (cal.composeConjunction s.rest1)
    let aboveCond := cal.composeConjunction s.rest
    { leftFilter := if s.rest0.isEmpty then none else some leftCond
      rightFilter := if s.rest1.isEmpty then none else some rightCond
      joinCond := joinCond
      swap := swap
      aboveFilter := if s.rest.isEmpty then none else some aboveCond }

end

/-! ## Meaning of joins and plans -/

/-- A row of `n` columns. -/
abbrev Row (D : Type*) (n : ℕ) := Fin n → Value D

variable {n m : ℕ}

section

/-- The columns of a row, by index. -/
def columns (l : Row D n) (i : ℕ) : Value D := if h : i < n then l ⟨i, h⟩ else .null

/-- The columns of a joined row. -/
def joinColumns (l : Row D n) (r : Row D m) (i : ℕ) : Value D :=
  if i < n then columns l i else columns r (i - n)

variable [LinearOrder D] (other : ℕ → List (Value D) → Value D)

/-- The logical inner join. -/
def logicalJoin (cond : Rex D) (L : Multiset (Row D n)) (R : Multiset (Row D m)) :
    Multiset (Row D n × Row D m) :=
  join (fun l r => cond.Holds other (joinColumns l r)) L R

/-- A filter that need not be there. -/
def FilterHolds (filter : Option (Rex D)) (row : ℕ → Value D) : Prop :=
  ∀ e ∈ filter, e.Holds other row

instance (filter : Option (Rex D)) (row : ℕ → Value D) :
    Decidable (FilterHolds other filter row) :=
  match filter with
  | none => isTrue fun _ h => by simp at h
  | some e => decidable_of_iff (e.Holds other row) (by simp [FilterHolds])

/-- The rows a plan returns. -/
def JoinPlan.rows (plan : JoinPlan D) (L : Multiset (Row D n)) (R : Multiset (Row D m)) :
    Multiset (Row D n × Row D m) :=
  let left := select (fun l => FilterHolds other plan.leftFilter (columns l)) L
  let right := select (fun r => FilterHolds other plan.rightFilter (columns r)) R
  let joined :=
    if plan.swap then
      (join (fun r l => plan.joinCond.Holds other (joinColumns l r)) right left).map Prod.swap
    else join (fun l r => plan.joinCond.Holds other (joinColumns l r)) left right
  select (fun x => FilterHolds other plan.aboveFilter (joinColumns x.1 x.2)) joined

/-- A plan is a join whose condition is the conjunction of all its conditions. -/
theorem JoinPlan.rows_eq_join (plan : JoinPlan D) (L : Multiset (Row D n)) (R : Multiset (Row D m)) :
    plan.rows other L R =
      join (fun l r => (FilterHolds other plan.leftFilter (columns l) ∧
          FilterHolds other plan.rightFilter (columns r) ∧
          plan.joinCond.Holds other (joinColumns l r)) ∧
        FilterHolds other plan.aboveFilter (joinColumns l r)) L R := by
  -- Both orders of the inputs give the same join; the three filters move into its condition.
  have hjoined : ∀ (left : Multiset (Row D n)) (right : Multiset (Row D m)),
      (if plan.swap then
        (join (fun r l => plan.joinCond.Holds other (joinColumns l r)) right left).map Prod.swap
      else join (fun l r => plan.joinCond.Holds other (joinColumns l r)) left right) =
      join (fun l r => plan.joinCond.Holds other (joinColumns l r)) left right := by
    intro left right
    split_ifs
    · exact join_swap _ left right
    · rfl
  rw [JoinPlan.rows]
  simp only [hjoined]
  rw [join_select_left, join_select_right, select_join]
  exact join_congr (fun l r => by simp only [and_left_comm]) L R

end

/-! ## What the lists hold -/

section

variable (cal : Calcite D)

/-- The operands that are equalities: the only ones that reach a list. -/
def equalityOperands (operands : List (Rex D)) : List (Rex D) :=
  operands.filter (·.isA (.comparison .EQUALS))

/-- Which list an equality goes to, by the inputs it refers to. -/
def ofInputs (left right : Bool) (operands : List (Rex D)) : List (Rex D) :=
  (equalityOperands operands).filter fun p => rel0 thr cal p == left && rel1 thr cal p == right

theorem ofInputs_cons (left right : Bool) (p : Rex D) (ps : List (Rex D)) :
    ofInputs thr cal left right (p :: ps) =
      (if p.isA (.comparison .EQUALS) && (rel0 thr cal p == left && rel1 thr cal p == right) then [p]
        else []) ++ ofInputs thr cal left right ps := by
  unfold ofInputs equalityOperands
  cases hp : p.isA (.comparison .EQUALS) with
  | false => simp [hp]
  | true =>
    cases hrel : rel0 thr cal p == left && rel1 thr cal p == right <;> simp_all

theorem foldl_classify (ps : List (Rex D)) (s : Split D) : ps.foldl (classify thr cal) s =
      { equalities := s.equalities ++ ofInputs thr cal true true ps
        rest := s.rest ++ ofInputs thr cal false false ps
        rest0 := s.rest0 ++ ofInputs thr cal true false ps
        rest1 := s.rest1 ++ ofInputs thr cal false true ps } := by
  induction ps generalizing s with
  | nil => simp [ofInputs, equalityOperands]
  | cons p ps ih =>
    rw [foldl_cons, ih]
    simp only [ofInputs_cons, classify]
    cases p.isA (.comparison .EQUALS) <;> cases rel0 thr cal p <;> cases rel1 thr cal p <;> simp

/-- Every equality is in one of the four lists. -/
theorem forall_equalityOperands_iff (P : Rex D → Prop) (ps : List (Rex D)) :
    (∀ p ∈ equalityOperands ps, P p) ↔
      (∀ p ∈ ofInputs thr cal true false ps, P p) ∧ (∀ p ∈ ofInputs thr cal false true ps, P p) ∧
        (∀ p ∈ ofInputs thr cal true true ps, P p) ∧ ∀ p ∈ ofInputs thr cal false false ps, P p := by
  unfold ofInputs
  refine ⟨fun h => ⟨?_, ?_, ?_, ?_⟩, fun h p hp => ?_⟩
  iterate 4 exact fun p hp => h p (mem_of_mem_filter hp)
  obtain ⟨h10, h01, h11, h00⟩ := h
  cases hl : rel0 thr cal p <;> cases hr : rel1 thr cal p
  · exact h00 p (by simp [hp, hl, hr])
  · exact h01 p (by simp [hp, hl, hr])
  · exact h10 p (by simp [hp, hl, hr])
  · exact h11 p (by simp [hp, hl, hr])

end

/-! ## Conjunctions of comparisons -/

/-- A column, a literal or a function of scalars: anything but a predicate. -/
def Rex.IsScalar : Rex D → Prop
  | .call (.other _) _ => True
  | .call _ _ => False
  | _ => True

/-- A comparison of scalars. -/
def Rex.IsComparison (p : Rex D) : Prop :=
  ∃ c a b, p = .cmp c a b ∧ a.IsScalar ∧ b.IsScalar

/-- A conjunction of comparisons, of any arity and nesting. -/
structure Rex.IsConjunction (e : Rex D) : Prop where
  conjunctions_ne_nil : e.conjunctions ≠ []
  isComparison : ∀ p ∈ e.conjunctions, p.IsComparison

theorem Rex.IsScalar.isA_comparison {a : Rex D} (h : a.IsScalar) (c : Comparison) :
    a.isA (.comparison c) = false := by
  match a with
  | .inputRef _ => rfl
  | .literal _ => rfl
  | .call (.other _) _ => rfl

/-- Neither side of a comparison is an equality. -/
theorem Rex.IsComparison.equalityOperands_getOperands {p : Rex D} (h : p.IsComparison) :
    equalityOperands p.getOperands = [] := by
  obtain ⟨c, a, b, rfl, ha, hb⟩ := h
  simp [equalityOperands, cmp, getOperands, ha.isA_comparison, hb.isA_comparison]

section

variable [LinearOrder D] (other : ℕ → List (Value D) → Value D)

/-- The comparisons `ps` are what `pullFactors` makes of a condition: together they have its meaning,
they are under an `AND` unless there is only one, and an equality that `matches` has seen is among
them. -/
structure Calcite.Factors (cal : Calcite D) (cond : Rex D) (ps : List (Rex D)) : Prop where
  isComparison : ∀ p ∈ ps, p.IsComparison
  holds_iff : ∀ row, cond.Holds other row ↔ ∀ p ∈ ps, p.Holds other row
  shape : cal.pullFactors cond = .call .AND ps ∨ ps = [cal.pullFactors cond]
  equality : (cal.conjunctions (cal.toCnf cond)).any (·.isA (.comparison .EQUALS)) →
    ∃ p ∈ ps, p.isA (.comparison .EQUALS)

/-- What the rule expects of Calcite. -/
structure Calcite.Sound (cal : Calcite D) : Prop extends cal.toVisitors.Sound other where
  holds_composeConjunction : ∀ es row,
    (cal.composeConjunction es).Holds other row ↔ ∀ e ∈ es, e.Holds other row
  pullFactors : ∀ cond : Rex D, cond.IsConjunction → ∃ ps, cal.Factors other cond ps

end

/-! ## Which rows the plan keeps -/

variable {p cond : Rex D}

section

variable [LinearOrder D] {other : ℕ → List (Value D) → Value D} (l : Row D n) (r : Row D m)

/-- A filter is left out only when it has nothing to check. -/
theorem filterHolds_iff {es : List (Rex D)} {e : Rex D} {row : ℕ → Value D} {P : Rex D → Prop}
    (h : e.Holds other row ↔ ∀ p ∈ es, P p) :
    FilterHolds other (if es.isEmpty then none else some e) row ↔ ∀ p ∈ es, P p := by
  rw [← h]
  cases es with
  | nil =>
    have he : e.Holds other row := h.2 fun _ hp => absurd hp not_mem_nil
    simp [FilterHolds, he]
  | cons e' es => simp [FilterHolds]

variable {cal : Calcite D}

omit [LinearOrder D] in
theorem mem_ofInputs {left right : Bool} {ps : List (Rex D)}
    (h : p ∈ ofInputs n cal left right ps) : rel0 n cal p = left ∧ rel1 n cal p = right := by
  simpa using (mem_filter.1 h).2

variable (hcal : cal.Sound other)
include hcal

theorem holds_columns_left_iff (h : rel1 n cal p = false) :
    p.Holds other (columns l) ↔ p.Holds other (joinColumns l r) := by
  rw [Rex.Holds, Rex.Holds, hcal.eval_congr p]
  intro i hi
  have hlt : i < n := by
    simp only [rel1, any_eq_false, decide_eq_true_eq, Nat.not_le] at h
    exact h i hi
  simp [joinColumns, hlt]

theorem holds_columns_right_iff (h : rel0 n cal p = false) :
    p.Holds other (fun i => columns r (i - n)) ↔ p.Holds other (joinColumns l r) := by
  rw [Rex.Holds, Rex.Holds, hcal.eval_congr p]
  intro i hi
  have hge : ¬ i < n := by
    simp only [rel0, any_eq_false, decide_eq_true_eq] at h
    exact h i hi
  simp [joinColumns, hge]

/-- The filter pushed on the left input. -/
theorem leftFilter_iff (ps : List (Rex D)) :
    (cal.composeConjunction (ofInputs n cal true false ps)).Holds other (columns l) ↔
      ∀ p ∈ ofInputs n cal true false ps, p.Holds other (joinColumns l r) := by
  rw [hcal.holds_composeConjunction]
  exact forall₂_congr fun p hp => holds_columns_left_iff l r hcal (mem_ofInputs hp).2

/-- The filter pushed on the right input, rebased on its columns. -/
theorem rightFilter_iff (ps : List (Rex D)) :
    (cal.shift n (cal.composeConjunction (ofInputs n cal false true ps))).Holds other (columns r) ↔
      ∀ p ∈ ofInputs n cal false true ps, p.Holds other (joinColumns l r) := by
  rw [Rex.Holds, hcal.eval_shift, ← Rex.Holds, hcal.holds_composeConjunction]
  exact forall₂_congr fun p hp => holds_columns_right_iff l r hcal (mem_ofInputs hp).1

/-- **The rows of a plan.** When the operands are taken apart, the plan keeps a pair of rows
exactly when all operands that are equalities hold. -/
theorem rows_convert (swap : Bool) {plan : JoinPlan D}
    (hequi : cal.isEqui n cond = false) (hplan : convert cal swap n cond = some plan)
    (L : Multiset (Row D n)) (R : Multiset (Row D m)) : plan.rows other L R =
      join (fun l r => ∀ p ∈ equalityOperands (cal.pullFactors cond).getOperands,
        p.Holds other (joinColumns l r)) L R := by
  rw [JoinPlan.rows_eq_join]
  simp only [convert, splitCondition, hequi, Bool.false_eq_true, if_false, Option.map_eq_some_iff,
    Option.ite_none_right_eq_some, Option.some.injEq, foldl_classify, nil_append] at hplan
  obtain ⟨_, ⟨-, rfl⟩, rfl⟩ := hplan
  apply join_congr
  intro l r
  rw [filterHolds_iff (leftFilter_iff l r hcal _), filterHolds_iff (rightFilter_iff l r hcal _),
    filterHolds_iff (hcal.holds_composeConjunction _ _), hcal.holds_composeConjunction,
    forall_equalityOperands_iff n cal]
  simp only [and_assoc]

/-- An equi-join is kept as it is. -/
theorem rows_convert_equi (swap : Bool) (hequi : cal.isEqui n cond = true) :
    ∃ plan, convert cal swap n cond = some plan ∧
      ∀ (L : Multiset (Row D n)) (R : Multiset (Row D m)),
        plan.rows other L R = logicalJoin other cond L R := by
  refine ⟨_, by simp only [convert, splitCondition, hequi, if_true, Option.map_some]; rfl, ?_⟩
  intro L R
  rw [JoinPlan.rows_eq_join]
  apply join_congr
  intro l r
  simp [FilterHolds, hcal.holds_composeConjunction]

/-! ## Preservation -/

omit hcal

variable {ps : List (Rex D)} (hps : cal.Factors other cond ps)
include hps

/-- An accepted conjunction passes the assertion of `convert`. -/
theorem Calcite.Factors.exists_convert (swap : Bool) {n : ℕ} (hequi : ¬cal.isEqui n cond = true)
    (hmatch : joinMatches cal n cond = true) : ∃ plan, convert cal swap n cond = some plan := by
  have hkind : ((cal.pullFactors cond).isA .AND ||
      (cal.pullFactors cond).isA (.comparison .EQUALS)) = true := by
    rcases hps.shape with hand | hone
    · rw [hand]
      rfl
    · -- not an equi-join, so one conjunct is an equality
      rw [joinMatches] at hmatch
      split_ifs at hmatch
      obtain ⟨q, hq, hqeq⟩ := hps.equality hmatch
      rw [hone, mem_singleton] at hq
      rw [← hq, hqeq, Bool.or_true]
  exact ⟨_, by simp only [convert, splitCondition, hequi, hkind, if_true]; rfl⟩

/-- What is kept are comparisons of the condition. -/
theorem Calcite.Factors.holds_kept {row : ℕ → Value D} (h : cond.Holds other row) :
    ∀ p ∈ equalityOperands (cal.pullFactors cond).getOperands, p.Holds other row := by
  intro p hp
  rcases hps.shape with hand | hone
  · rw [hand] at hp
    exact (hps.holds_iff row).1 h p (mem_of_mem_filter hp)
  · rw [(hps.isComparison _ (hone ▸ mem_singleton_self _)).equalityOperands_getOperands] at hp
    cases hp

end

/-- **When the rule preserves a join.** On an accepted conjunction of comparisons, the plan
returns the rows of the logical join for all inputs exactly when the condition is an equi-join
or the operands that are kept imply the condition. -/
theorem convert_preserves_iff [LinearOrder D] {other : ℕ → List (Value D) → Value D} {cal : Calcite D}
    (hcal : cal.Sound other) (swap : Bool) {n m : ℕ} {cond : Rex D}
    (hcond : cond.IsConjunction) (hmatch : joinMatches cal n cond = true) :
    (∃ plan, convert cal swap n cond = some plan ∧
        ∀ (L : Multiset (Row D n)) (R : Multiset (Row D m)),
          plan.rows other L R = logicalJoin other cond L R) ↔
      cal.isEqui n cond = true ∨ ∀ (l : Row D n) (r : Row D m),
        (∀ p ∈ equalityOperands (cal.pullFactors cond).getOperands, p.Holds other (joinColumns l r)) →
          cond.Holds other (joinColumns l r) := by
  by_cases hequi : cal.isEqui n cond = true
  · exact ⟨fun _ => .inl hequi, fun _ => rows_convert_equi hcal swap hequi⟩
  obtain ⟨ps, hps⟩ := hcal.pullFactors cond hcond
  obtain ⟨plan, hplan⟩ := hps.exists_convert swap hequi hmatch
  have hrows := fun L R => rows_convert (m := m) hcal swap (Bool.eq_false_iff.2 hequi) hplan L R
  simp only [hplan, Option.some.injEq, exists_eq_left', hrows, logicalJoin]
  rw [join_eq_iff, or_iff_right hequi]
  exact forall₂_congr fun l r => ⟨fun h => h.1, fun h => ⟨h, hps.holds_kept⟩⟩

/-! ## Two conditions over inputs of one column -/

/-- An equality between a column of the left input and one of the right input. -/
def isColumnEquality : Rex ℕ → Bool
  | .call (.comparison .EQUALS) [.inputRef i, .inputRef j] => decide (i < thr) != decide (j < thr)
  | _ => false

/-- Calcite on conjunctions of comparisons. -/
def conjunctiveCalcite : Calcite ℕ where
  __ := Visitors.standard
  isAlwaysTrue _ := false
  isEqui thr e := e.conjunctions.all (isColumnEquality thr)
  toCnf e := e
  conjunctions := Rex.conjunctions
  pullFactors e :=
    match e.conjunctions with
    | [p] => p
    | ps => .call .AND ps
  composeConjunction := .call .AND

theorem conjunctiveCalcite_sound (other : ℕ → List (Value ℕ) → Value ℕ) :
    conjunctiveCalcite.Sound other where
  __ := Visitors.standard_sound other
  holds_composeConjunction es row := holds_and_iff other row es
  pullFactors cond hcond := by
    refine ⟨cond.conjunctions, hcond.isComparison, fun row => ?_, ?_, any_eq_true.1⟩
    · exact (forall_conjunctions_iff other row cond).symm
    · simp only [conjunctiveCalcite]
      split
      · next p hp => exact .inr hp
      · exact .inl rfl

/-- `$0 = $1 AND $0 = 5` -/
def equalityCondition : Rex ℕ :=
  .call .AND [.cmp .EQUALS (.inputRef 0) (.inputRef 1),
    .cmp .EQUALS (.inputRef 0) (.literal (.datum 5))]

/-- `$0 = $1 AND $0 > 5` -/
def rangeCondition : Rex ℕ :=
  .call .AND [.cmp .EQUALS (.inputRef 0) (.inputRef 1),
    .cmp .GREATER_THAN (.inputRef 0) (.literal (.datum 5))]

theorem isConjunction_and_cmp (c c' : Comparison) {a b a' b' : Rex ℕ} (ha : a.IsScalar)
    (hb : b.IsScalar) (ha' : a'.IsScalar) (hb' : b'.IsScalar) :
    (call .AND [.cmp c a b, .cmp c' a' b']).IsConjunction where
  conjunctions_ne_nil := by simp [Rex.conjunctions, Rex.conjunctionsAll, Rex.cmp]
  isComparison p hp := by
    have hp' : p = .cmp c a b ∨ p = .cmp c' a' b' := by
      simpa [Rex.conjunctions, Rex.conjunctionsAll, Rex.cmp] using hp
    rcases hp' with rfl | rfl
    · exact ⟨c, a, b, rfl, ha, hb⟩
    · exact ⟨c', a', b', rfl, ha', hb'⟩

theorem convert_preserves_equalityCondition :
    ∃ plan, convert conjunctiveCalcite false 1 equalityCondition = some plan ∧
      ∀ (L R : Multiset (Row ℕ 1)), plan.rows (fun _ _ => .null) L R =
        logicalJoin (fun _ _ => .null) equalityCondition L R := by
  have hcond : equalityCondition.IsConjunction :=
    isConjunction_and_cmp _ _ trivial trivial trivial trivial
  refine (convert_preserves_iff (conjunctiveCalcite_sound _) false hcond (by decide)).2 (.inr ?_)
  intro l r h
  exact (holds_and_iff _ _ _).2 h

/-- The rows `0` of both inputs are joined although `0 > 5` is false. -/
theorem convert_rangeCondition_not_preserved :
    rangeCondition.IsConjunction ∧ joinMatches conjunctiveCalcite 1 rangeCondition = true ∧
      ¬ ∃ plan, convert conjunctiveCalcite false 1 rangeCondition = some plan ∧
        ∀ (L R : Multiset (Row ℕ 1)), plan.rows (fun _ _ => .null) L R =
          logicalJoin (fun _ _ => .null) rangeCondition L R := by
  refine ⟨isConjunction_and_cmp _ _ trivial trivial trivial trivial, by decide, ?_⟩
  intro h
  rcases h with ⟨plan, hplan, hrows⟩
  have hkept := rows_convert (m := 1) (conjunctiveCalcite_sound fun _ _ => .null) false rfl hplan
    {fun _ => .datum 0} {fun _ => .datum 0}
  rw [hrows, logicalJoin, join_singleton, join_singleton, if_neg (by decide),
    if_pos (by decide)] at hkept
  exact absurd hkept (Multiset.singleton_ne_zero _).symm

end Proteus.Planner
