import Mathlib.Data.Char
import Mathlib.Data.List.GetD
import Proteus.Planner.Rex
import Proteus.RelAlg

/-!
# `LikeToJoinRule`

The rule takes the `LIKE`s of a filter condition from left to right. For each of them it joins the input
with a scan of the dictionary of the column, which has the strings that match the pattern, and puts the
equality of the column with the new last column in its place. The result is filtered with the new
condition and projected to the columns it had.

An equality with one of several strings is not the `LIKE`: it is true for at most one of them. So the
plan is right if the condition needs every `LIKE`, as a conjunction does, and not if some row satisfies it
without one of them: that row comes once for every string in the dictionary
(`not_like_loses_row` for a `LIKE` below `NOT`). `likeToJoin_iff` is the exact condition.

* `visit_spec`: the new condition is the old one with equalities in place of its `LIKE`s;
* `rows_onMatch`: how often the plan returns a row.

Calcite's `RelBuilder` and `RexShuttle` are taken at their word: `filter`, `join` and `project` build
these nodes, and a call is rebuilt from its visited operands.
-/

namespace Proteus.Planner.LikeToJoin

open List Multiset

variable {D : Type*}

/-! ## Conditions with `LIKE` -/

/-- The kind of a `LIKE`: the function with the number 0. -/
def LIKE : SqlKind := .other 0

/-- `v LIKE pattern`, for a test `like pattern s` of strings. -/
def likeValue (like : D → D → Bool) : (v pattern : Value D) → Value D
  | .datum s, .datum p => .bool (like p s)
  | _, _ => .null

/-- The functions that are neither connectives nor comparisons. -/
def functions (like : D → D → Bool) (rest : ℕ → List (Value D) → Value D) :
    ℕ → List (Value D) → Value D
  | 0, [v, p] => likeValue like v p
  | 0, _ => .null
  | f + 1, vs => rest f vs

/-- The operands of a `LIKE`: a column and a pattern. -/
def likeOf : List (Rex D) → List (ℕ × D)
  | [.inputRef i, .literal (.datum p)] => [(i, p)]
  | _ => []

mutual

/-- The `LIKE`s of a condition, from left to right. -/
def likes : Rex D → List (ℕ × D)
  | .inputRef _ => []
  | .literal _ => []
  | .call kind operands => if kind = LIKE then likeOf operands else likesAll operands

def likesAll : List (Rex D) → List (ℕ × D)
  | [] => []
  | e :: es => likes e ++ likesAll es

end

mutual

/-- A condition over a table of `n` columns, whose `LIKE`s are about columns and have constant
patterns. -/
def WellFormed (n : ℕ) : Rex D → Prop
  | .inputRef i => i < n
  | .literal _ => True
  | .call kind operands =>
    if kind = LIKE then ∃ i p, i < n ∧ operands = [.inputRef i, .literal (.datum p)]
    else WellFormedAll n operands

def WellFormedAll (n : ℕ) : List (Rex D) → Prop
  | [] => True
  | e :: es => WellFormed n e ∧ WellFormedAll n es

end

mutual

/-- The value of a condition if its `LIKE`s have the values `xs`. -/
def evalWith [LinearOrder D] (other : ℕ → List (Value D) → Value D) (row : ℕ → Value D) :
    List (Value D) → Rex D → Value D
  | _, .inputRef i => row i
  | _, .literal v => v
  | xs, .call kind operands =>
    if kind = LIKE then xs.headD .null else kind.apply other (evalAllWith other row xs operands)

def evalAllWith [LinearOrder D] (other : ℕ → List (Value D) → Value D) (row : ℕ → Value D) :
    List (Value D) → List (Rex D) → List (Value D)
  | _, [] => []
  | xs, e :: es =>
    evalWith other row (xs.take (likes e).length) e ::
      evalAllWith other row (xs.drop (likes e).length) es

end

/-! ## Plans -/

/-- The plans the rule builds, over one table. -/
inductive RelNode (D : Type*)
  | scan
  /-- `LogicalPelagoDictTableScan` -/
  | dictScan (regex : D) (attrIndex : ℕ)
  /-- an inner join -/
  | join (left right : RelNode D) (condition : Rex D)
  | filter (input : RelNode D) (condition : Rex D)
  | project (input : RelNode D) (projs : List (Rex D))

/-- The columns of a row. -/
def column (r : List (Value D)) (i : ℕ) : Value D := r.getD i .null

/-- The contents of a table of `n` columns. -/
structure Table (D : Type*) (n : ℕ) where
  rows : Multiset (List (Value D))
  width : ∀ r ∈ rows, r.length = n

namespace RelNode

def getFieldCount (n : ℕ) : RelNode D → ℕ
  | scan => n
  | dictScan _ _ => 1
  | join left right _ => left.getFieldCount n + right.getFieldCount n
  | filter input _ => input.getFieldCount n
  | project _ projs => projs.length

/-- The rows a plan returns. The scan of a dictionary returns each string of the column that matches
once. -/
def rows [LinearOrder D] (like : D → D → Bool) (rest : ℕ → List (Value D) → Value D)
    (table : Multiset (List (Value D))) : RelNode D → Multiset (List (Value D))
  | scan => table
  | dictScan regex attrIndex =>
    (((table.map (column · attrIndex)).dedup).filter fun v =>
      likeValue like v (.datum regex) = .bool true).map ([·])
  | join left right condition =>
    (RelAlg.join (fun a b => condition.Holds (functions like rest) (column (a ++ b)))
      (left.rows like rest table) (right.rows like rest table)).map fun x => x.1 ++ x.2
  | filter input condition =>
    RelAlg.select (fun r => condition.Holds (functions like rest) (column r)) (input.rows like rest table)
  | project input projs =>
    (input.rows like rest table).map fun r => projs.map (Rex.eval (functions like rest) (column r))

end RelNode

/-! ## The rule -/

/-- `RelMetadataQuery`: the column of the table a column of a plan comes from, as far as the rule
needs it. -/
structure RelMetadataQuery (D : Type*) (n : ℕ) where
  getExpressionLineage : RelNode D → ℕ → Option ℕ
  scan : ∀ i < n, getExpressionLineage .scan i = some i
  join : ∀ left right condition, ∀ i < left.getFieldCount n,
    getExpressionLineage (.join left right condition) i = getExpressionLineage left i

variable {n : ℕ} (mq : RelMetadataQuery D n)

structure FindLikes (D : Type*) where
  input : RelNode D
  cnt : ℕ

/-- `visitCall` for a `LIKE` of the column `i`: the state after it. -/
def FindLikes.addLike (fl : FindLikes D) (regex : D) (attrIndex : ℕ) : FindLikes D where
  input := .join fl.input (.dictScan regex attrIndex) (.literal (.bool true))
  cnt := fl.cnt + 1

def FindLikes.visitLike (fl : FindLikes D) : List (Rex D) → Option (Rex D × FindLikes D)
  | [.inputRef i, .literal (.datum regex)] =>
    (mq.getExpressionLineage fl.input i).map fun attrIndex =>
      (.cmp .EQUALS (.inputRef i) (.inputRef fl.cnt), fl.addLike regex attrIndex)
  | _ => none

mutual

/-- The visitor; nothing if an assertion or a cast fails. -/
def FindLikes.visit (fl : FindLikes D) : Rex D → Option (Rex D × FindLikes D)
  | .inputRef i => some (.inputRef i, fl)
  | .literal v => some (.literal v, fl)
  | .call kind operands =>
    if kind = LIKE then fl.visitLike mq operands
    else (FindLikes.visitAll fl operands).map fun r => (.call kind r.1, r.2)

def FindLikes.visitAll (fl : FindLikes D) : List (Rex D) → Option (List (Rex D) × FindLikes D)
  | [] => some ([], fl)
  | e :: es =>
    (FindLikes.visit fl e).bind fun r =>
      (FindLikes.visitAll r.2 es).map fun r' => (r.1 :: r'.1, r'.2)

end

/-- The plan after the rule. -/
def onMatch (cond : Rex D) : Option (RelNode D) :=
  (FindLikes.visit mq ⟨.scan, n⟩ cond).map fun r =>
    match r.2.input with
    | .scan => .filter .scan cond
    | newInput => .project (.filter newInput r.1) ((List.range n).map .inputRef)

/-! ## The new condition -/

open FindLikes RelNode

variable {mq} {like : D → D → Bool} {rest : ℕ → List (Value D) → Value D}

section

variable {fl : FindLikes D}

/-- The state after the `LIKE`s `ls`. -/
def FindLikes.add (fl : FindLikes D) (ls : List (ℕ × D)) : FindLikes D :=
  ls.foldl (fun fl x => fl.addLike x.2 x.1) fl

theorem FindLikes.add_append (fl : FindLikes D) (ls ls' : List (ℕ × D)) :
    fl.add (ls ++ ls') = (fl.add ls).add ls' := foldl_append

theorem FindLikes.cnt_add (fl : FindLikes D) (ls : List (ℕ × D)) : (fl.add ls).cnt = fl.cnt + ls.length := by
  induction ls generalizing fl with
  | nil => rfl
  | cons x ls ih =>
    rw [length_cons, ← Nat.add_assoc, Nat.add_right_comm]
    exact ih (fl.addLike x.2 x.1)

/-- The first columns of the input are those of the table. -/
structure FindLikes.Traces (mq : RelMetadataQuery D n) (fl : FindLikes D) : Prop where
  le : n ≤ fl.input.getFieldCount n
  lineage : ∀ i < n, mq.getExpressionLineage fl.input i = some i

theorem FindLikes.Traces.addLike (h : fl.Traces mq) (regex : D) (attrIndex : ℕ) :
    (fl.addLike regex attrIndex).Traces mq where
  le := le_trans h.le (Nat.le_add_right _ _)
  lineage i hi := by
    rw [FindLikes.addLike, mq.join _ _ _ i (lt_of_lt_of_le hi h.le), h.lineage i hi]

theorem FindLikes.Traces.add (h : fl.Traces mq) (ls : List (ℕ × D)) : (fl.add ls).Traces mq := by
  induction ls generalizing fl with
  | nil => exact h
  | cons x ls ih => exact ih (h.addLike x.2 x.1)

theorem exists_join_of_add (fl : FindLikes D) {ls : List (ℕ × D)} (hls : ls ≠ []) :
    ∃ left right condition, (fl.add ls).input = .join left right condition := by
  obtain ⟨ls, x, rfl⟩ := (eq_nil_or_concat' ls).resolve_left hls
  rw [add_append]
  exact ⟨_, _, _, rfl⟩

theorem column_append_of_lt {r vs : List (Value D)} {i : ℕ} (hi : i < r.length) :
    column (r ++ vs) i = column r i := getD_append r vs .null i hi

mutual

theorem lt_of_mem_likes (e : Rex D) (hwf : WellFormed n e) : ∀ x ∈ likes e, x.1 < n := by
  match e with
  | .inputRef _ => exact fun x hx => by cases hx
  | .literal _ => exact fun x hx => by cases hx
  | .call kind operands =>
    rw [WellFormed] at hwf
    rw [likes]
    by_cases hkind : kind = LIKE
    · rw [if_pos hkind] at hwf
      obtain ⟨i, p, hi, rfl⟩ := hwf
      rw [if_pos hkind]
      intro x hx
      rwa [List.mem_singleton.1 hx]
    · rw [if_neg hkind] at hwf
      rw [if_neg hkind]
      exact lt_of_mem_likesAll operands hwf

theorem lt_of_mem_likesAll (es : List (Rex D)) (hwf : WellFormedAll n es) : ∀ x ∈ likesAll es, x.1 < n := by
  match es with
  | [] => exact fun x hx => by cases hx
  | e :: es =>
    intro x hx
    rcases mem_append.1 hx with hx | hx
    · exact lt_of_mem_likes e hwf.1 x hx
    · exact lt_of_mem_likesAll es hwf.2 x hx

end

variable [LinearOrder D] {row row' : ℕ → Value D}

/-- The equalities the rule makes of the `LIKE`s, with the columns from `k` on. -/
def equalities (row : ℕ → Value D) : ℕ → List (ℕ × D) → List (Value D)
  | _, [] => []
  | k, x :: ls => (row x.1).compare .EQUALS (row k) :: equalities row (k + 1) ls

@[simp] theorem length_equalities (row : ℕ → Value D) (k : ℕ) (ls : List (ℕ × D)) :
    (equalities row k ls).length = ls.length := by
  induction ls generalizing k with
  | nil => rfl
  | cons x ls ih => rw [equalities, length_cons, ih, length_cons]

theorem equalities_append (row : ℕ → Value D) (k : ℕ) (ls ls' : List (ℕ × D)) :
    equalities row k (ls ++ ls') = equalities row k ls ++ equalities row (k + ls.length) ls' := by
  induction ls generalizing k with
  | nil => rfl
  | cons x ls ih =>
    rw [cons_append, equalities, ih, equalities, cons_append, length_cons, Nat.add_assoc,
      Nat.add_comm 1]

mutual

/-- The visitor puts equalities with the new columns in the place of the `LIKE`s. -/
theorem visit_spec (e : Rex D) (hwf : WellFormed n e) (fl : FindLikes D) (htr : fl.Traces mq) :
    ∃ e', fl.visit mq e = some (e', fl.add (likes e)) ∧
      ∀ row, e'.eval (functions like rest) row =
        evalWith (functions like rest) row (equalities row fl.cnt (likes e)) e := by
  match e with
  | .inputRef i => exact ⟨_, rfl, fun _ => rfl⟩
  | .literal v => exact ⟨_, rfl, fun _ => rfl⟩
  | .call kind operands =>
    rw [WellFormed] at hwf
    by_cases hkind : kind = LIKE
    · rw [if_pos hkind] at hwf
      obtain ⟨i, p, hi, rfl⟩ := hwf
      refine ⟨.cmp .EQUALS (.inputRef i) (.inputRef fl.cnt), ?_, fun row => ?_⟩
      · rw [visit, if_pos hkind, likes, if_pos hkind, visitLike, htr.lineage i hi]
        rfl
      · rw [evalWith, if_pos hkind, likes, if_pos hkind]
        rfl
    · rw [if_neg hkind] at hwf
      obtain ⟨es, hes, heval⟩ := visitAll_spec operands hwf fl htr
      refine ⟨.call kind es, ?_, fun row => ?_⟩
      · rw [visit, if_neg hkind, likes, if_neg hkind, hes]
        rfl
      · rw [Rex.eval, evalWith, if_neg hkind, likes, if_neg hkind, heval row]

theorem visitAll_spec (es : List (Rex D)) (hwf : WellFormedAll n es) (fl : FindLikes D)
    (htr : fl.Traces mq) : ∃ es', fl.visitAll mq es = some (es', fl.add (likesAll es)) ∧
      ∀ row, Rex.evalAll (functions like rest) row es' =
        evalAllWith (functions like rest) row (equalities row fl.cnt (likesAll es)) es := by
  match es with
  | [] => exact ⟨[], rfl, fun _ => rfl⟩
  | e :: es =>
    obtain ⟨e', he, heval⟩ := visit_spec e hwf.1 fl htr
    obtain ⟨es', hes, hevalAll⟩ := visitAll_spec es hwf.2 (fl.add (likes e)) (htr.add _)
    refine ⟨e' :: es', ?_, fun row => ?_⟩
    · rw [visitAll, he, Option.bind_some, hes, likesAll, add_append]
      rfl
    · have hlen := length_equalities row fl.cnt (likes e)
      rw [Rex.evalAll, evalAllWith, likesAll, equalities_append, take_left' hlen,
        drop_left' hlen, heval row, hevalAll row, cnt_add]

end

mutual

/-- A condition has its value if its `LIKE`s have theirs. -/
theorem eval_eq_evalWith (row : ℕ → Value D) (e : Rex D) (hwf : WellFormed n e) :
    e.eval (functions like rest) row =
      evalWith (functions like rest) row
        ((likes e).map fun x => likeValue like (row x.1) (.datum x.2)) e := by
  match e with
  | .inputRef _ => rfl
  | .literal _ => rfl
  | .call kind operands =>
    rw [WellFormed] at hwf
    by_cases hkind : kind = LIKE
    · rw [if_pos hkind] at hwf
      obtain ⟨i, p, hi, rfl⟩ := hwf
      rw [evalWith, if_pos hkind, likes, if_pos hkind, hkind]
      rfl
    · rw [if_neg hkind] at hwf
      rw [Rex.eval, evalWith, if_neg hkind, likes, if_neg hkind, evalAll_eq_evalAllWith row operands hwf]

theorem evalAll_eq_evalAllWith (row : ℕ → Value D) (es : List (Rex D)) (hwf : WellFormedAll n es) :
    Rex.evalAll (functions like rest) row es =
      evalAllWith (functions like rest) row
        ((likesAll es).map fun x => likeValue like (row x.1) (.datum x.2)) es := by
  match es with
  | [] => rfl
  | e :: es =>
    rw [Rex.evalAll, evalAllWith, likesAll, map_append, take_left' (length_map _),
      drop_left' (length_map _), eval_eq_evalWith row e hwf.1,
      evalAll_eq_evalAllWith row es hwf.2]

end

mutual

/-- A condition sees the columns of the table. -/
theorem evalWith_congr (hrow : ∀ i < n, row i = row' i) (xs : List (Value D))
    (e : Rex D) (hwf : WellFormed n e) :
    evalWith (functions like rest) row xs e = evalWith (functions like rest) row' xs e := by
  match e with
  | .inputRef i => exact hrow i hwf
  | .literal _ => rfl
  | .call kind operands =>
    rw [WellFormed] at hwf
    rw [evalWith, evalWith]
    by_cases hkind : kind = LIKE
    · rw [if_pos hkind, if_pos hkind]
    · rw [if_neg hkind] at hwf
      rw [if_neg hkind, if_neg hkind, evalAllWith_congr hrow xs operands hwf]

theorem evalAllWith_congr (hrow : ∀ i < n, row i = row' i)
    (xs : List (Value D)) (es : List (Rex D)) (hwf : WellFormedAll n es) :
    evalAllWith (functions like rest) row xs es = evalAllWith (functions like rest) row' xs es := by
  match es with
  | [] => rfl
  | e :: es =>
    rw [evalAllWith, evalAllWith, evalWith_congr hrow _ e hwf.1, evalAllWith_congr hrow _ es hwf.2]

end

end

/-! ## The rows of the plan -/

section

variable [LinearOrder D] {table : Multiset (List (Value D))}

/-- The strings of a column that match the pattern. -/
def dictionary (like : D → D → Bool) (table : Multiset (List (Value D))) (x : ℕ × D) :
    Multiset (Value D) :=
  (table.map (column · x.1)).dedup.filter fun v => likeValue like v (.datum x.2) = .bool true

theorem mem_dictionary {x : ℕ × D} {v : Value D} : v ∈ dictionary like table x ↔
      (∃ r ∈ table, column r x.1 = v) ∧ likeValue like v (.datum x.2) = .bool true := by
  simp [dictionary]

/-- One string of each dictionary. -/
def tuples (like : D → D → Bool) (table : Multiset (List (Value D))) :
    List (ℕ × D) → Multiset (List (Value D))
  | [] => {[]}
  | x :: ls => (dictionary like table x).bind fun v => (tuples like table ls).map (v :: ·)

variable {ls : List (ℕ × D)} {vs : List (Value D)}

theorem mem_tuples :
    vs ∈ tuples like table ls ↔ List.Forall₂ (fun x v => v ∈ dictionary like table x) ls vs := by
  induction ls generalizing vs with
  | nil => simp [tuples]
  | cons x ls ih =>
    simp only [tuples, mem_bind, Multiset.mem_map, forall₂_cons_left_iff, ih]
    constructor
    · rintro ⟨v, hv, vs, hvs, rfl⟩
      exact ⟨v, vs, hv, hvs, rfl⟩
    · rintro ⟨v, vs, hv, hvs, rfl⟩
      exact ⟨v, hv, vs, hvs, rfl⟩

theorem nodup_tuples (ls : List (ℕ × D)) : (tuples like table ls).Nodup := by
  induction ls with
  | nil => exact Multiset.nodup_singleton _
  | cons x ls ih =>
    refine nodup_bind.2 ⟨fun v _ => ih.map fun vs vs' h => (cons.inj h).2, ?_⟩
    have hdict : (dictionary like table x).Nodup := (Multiset.nodup_dedup _).filter _
    refine hdict.pairwise fun v _ w _ hvw => ?_
    refine disjoint_left.2 fun {u} hu hu' => hvw ?_
    obtain ⟨vs, -, rfl⟩ := mem_map.1 hu
    obtain ⟨ws, -, hws⟩ := mem_map.1 hu'
    exact (cons.inj hws).1.symm

theorem rows_addLike (fl : FindLikes D) (x : ℕ × D) : (fl.addLike x.2 x.1).input.rows like rest table =
      (fl.input.rows like rest table).bind fun r =>
        (dictionary like table x).map fun v => r ++ [v] := by
  have htrue : ∀ row, (Rex.literal (.bool true) : Rex D).Holds (functions like rest) row := fun _ => rfl
  have hprod : ∀ s t : Multiset (List (Value D)), s ×ˢ t = s.bind fun a => t.map (Prod.mk a) :=
    fun _ _ => rfl
  simp only [addLike, rows, RelAlg.join, htrue, Multiset.filter_true]
  rw [hprod, Multiset.map_bind]
  refine bind_congr fun r _ => ?_
  rw [Multiset.map_map, Multiset.map_map]
  rfl

theorem rows_add (fl : FindLikes D) (ls : List (ℕ × D)) : (fl.add ls).input.rows like rest table =
      (fl.input.rows like rest table).bind fun r => (tuples like table ls).map (r ++ ·) := by
  induction ls generalizing fl with
  | nil =>
    simp only [tuples, Multiset.map_singleton, append_nil]
    exact (Multiset.bind_singleton _ id).symm ▸ (Multiset.map_id _).symm
  | cons x ls ih =>
    have hadd : fl.add (x :: ls) = (fl.addLike x.2 x.1).add ls := rfl
    rw [hadd, ih, rows_addLike, Multiset.bind_assoc]
    refine bind_congr fun r _ => ?_
    rw [bind_map, tuples, map_bind]
    refine bind_congr fun v _ => ?_
    rw [Multiset.map_map]
    refine map_congr rfl fun vs _ => ?_
    simp

/-- The values of the columns the `LIKE`s are about. -/
def own (r : List (Value D)) (ls : List (ℕ × D)) : List (Value D) := ls.map fun x => column r x.1

/-- The condition is true on `r` if each `LIKE` is replaced by the equality of its column with the
value. -/
def Passes (other : ℕ → List (Value D) → Value D) (e : Rex D) (r vs : List (Value D)) : Prop :=
  evalWith other (column r)
    (List.zipWith (fun x v => (column r x.1).compare .EQUALS v) (likes e) vs) e = .bool true

instance (other : ℕ → List (Value D) → Value D) (e : Rex D) (r vs : List (Value D)) :
    Decidable (Passes other e r vs) := inferInstanceAs (Decidable (_ = _))

theorem equalities_append_row (r vs : List (Value D)) (ls : List (ℕ × D)) (hlen : ls.length = vs.length) :
    equalities (column (r ++ vs)) r.length ls =
      List.zipWith (fun x v => (column (r ++ vs) x.1).compare .EQUALS v) ls vs := by
  induction ls generalizing r vs with
  | nil => rfl
  | cons x ls ih =>
    cases vs with
    | nil => cases hlen
    | cons v vs =>
      have hcolumn : column (r ++ v :: vs) r.length = v := by simp [column]
      have hrest := ih (r ++ [v]) vs (by simpa using hlen)
      rw [append_assoc, singleton_append, length_append, length_singleton] at hrest
      rw [equalities, hrest, hcolumn, zipWith_cons_cons]

theorem zipWith_congr_row {row row' : ℕ → Value D} (vs : List (Value D))
    (h : ∀ x ∈ ls, row x.1 = row' x.1) : List.zipWith (fun x v => (row x.1).compare .EQUALS v) ls vs =
      List.zipWith (fun x v => (row' x.1).compare .EQUALS v) ls vs := by
  induction ls generalizing vs with
  | nil => rfl
  | cons x ls ih =>
    cases vs with
    | nil => rfl
    | cons v vs =>
      rw [zipWith_cons_cons, zipWith_cons_cons, h x mem_cons_self,
        ih vs fun y hy => h y (mem_cons_of_mem _ hy)]

variable {e : Rex D} {r : List (Value D)}

/-- The new condition on a row and strings from the dictionaries. -/
theorem holds_new_iff {e' : Rex D} (hwf : WellFormed n e)
    (heval : ∀ row, e'.eval (functions like rest) row =
      evalWith (functions like rest) row (equalities row n (likes e)) e)
    (hr : r.length = n) (hvs : (likes e).length = vs.length) :
    e'.Holds (functions like rest) (column (r ++ vs)) ↔ Passes (functions like rest) e r vs := by
  have hrow : ∀ i < n, column (r ++ vs) i = column r i :=
    fun i hi => column_append_of_lt (by rw [hr]; exact hi)
  rw [Rex.Holds, heval, ← hr, equalities_append_row r vs _ hvs,
    zipWith_congr_row vs fun x hx => hrow x.1 (lt_of_mem_likes e hwf x hx),
    evalWith_congr hrow _ e hwf, Passes]

theorem map_inputRef_range (hr : r.length = n) :
    ((List.range n).map Rex.inputRef).map (Rex.eval (functions like rest) (column (r ++ vs))) = r := by
  rw [List.map_map]
  refine ext_getElem (by simp [hr]) fun i hi hi' => ?_
  simp only [getElem_map, getElem_range, Function.comp_apply, Rex.eval]
  rw [column_append_of_lt hi', column, getD_eq_getElem _ _ hi']

/-- The plan returns a row as often as the condition passes it with strings of the dictionaries. -/
theorem rows_onMatch (hwf : WellFormed n e) :
    ∃ plan, onMatch mq e = some plan ∧ ∀ t : Table D n, plan.rows like rest t.rows =
      t.rows.bind fun r => replicate
        ((tuples like t.rows (likes e)).countP (Passes (functions like rest) e r)) r := by
  have htr : FindLikes.Traces mq (⟨.scan, n⟩ : FindLikes D) := ⟨le_rfl, mq.scan⟩
  obtain ⟨e', hvisit, heval⟩ : ∃ e', visit mq ⟨.scan, n⟩ e = some (e', add _ (likes e)) ∧
      ∀ row, e'.eval (functions like rest) row =
        evalWith (functions like rest) row (equalities row n (likes e)) e := visit_spec e hwf _ htr
  rw [onMatch, hvisit, Option.map_some]
  refine ⟨_, rfl, fun t => ?_⟩
  by_cases hls : likes e = []
  · -- nothing is visited, and the filter stays
    have hpasses : ∀ r, Passes (functions like rest) e r [] ↔ e.Holds (functions like rest) (column r) := by
      intro r
      rw [Rex.Holds, eval_eq_evalWith (column r) e hwf, Passes, hls]
      rfl
    simp only [hls, add, foldl_nil, rows, RelAlg.select, tuples]
    rw [filter_eq_bind]
    refine bind_congr fun r _ => ?_
    rw [countP_eq_card_filter, Multiset.filter_singleton]
    by_cases hholds : e.Holds (functions like rest) (column r)
    · rw [if_pos hholds, if_pos ((hpasses r).2 hholds)]
      rfl
    · rw [if_neg hholds, if_neg fun h => hholds ((hpasses r).1 h)]
      rfl
  · obtain ⟨left, right, condition, hjoin⟩ := exists_join_of_add (⟨.scan, n⟩ : FindLikes D) hls
    have hrows : (add ⟨.scan, n⟩ (likes e)).input.rows like rest t.rows =
        t.rows.bind fun r => (tuples like t.rows (likes e)).map (r ++ ·) := rows_add _ _
    rw [hjoin] at hrows
    simp only [hjoin]
    rw [rows, rows, hrows, RelAlg.select, filter_bind, Multiset.map_bind]
    refine bind_congr fun r hr => ?_
    have hfilter : (tuples like t.rows (likes e)).filter
          ((fun r => e'.Holds (functions like rest) (column r)) ∘ (r ++ ·)) =
        (tuples like t.rows (likes e)).filter (Passes (functions like rest) e r) :=
      filter_congr fun vs hvs =>
        holds_new_iff hwf heval (t.width r hr) (mem_tuples.1 hvs).length_eq
    rw [Multiset.filter_map, Multiset.map_map, hfilter, countP_eq_card_filter,
      ← Multiset.map_const']
    exact map_congr rfl fun vs _ => map_inputRef_range (t.width r hr)

/-! ## When the plan is right -/

/-- The values match the patterns of the `LIKE`s. -/
def Matching (like : D → D → Bool) (ls : List (ℕ × D)) (vs : List (Value D)) : Prop :=
  List.Forall₂ (fun x v => likeValue like v (.datum x.2) = .bool true) ls vs

/-- The condition is true only where all its `LIKE`s are, and equalities with strings that match make it
true only if the strings are those of the row. -/
structure Selective (like : D → D → Bool) (rest : ℕ → List (Value D) → Value D) (n : ℕ) (e : Rex D) :
    Prop where
  needs : ∀ r, r.length = n → e.Holds (functions like rest) (column r) →
    Matching like (likes e) (own r (likes e))
  only : ∀ r vs, r.length = n → Matching like (likes e) vs → Passes (functions like rest) e r vs →
    vs = own r (likes e)

/-- The operands of a conjunction that has no `LIKE` below its top. -/
def LikesOnTop (es : List (Rex D)) : Prop :=
  ∀ e ∈ es, likes e = [] ∨ ∃ i p, e = .call LIKE [.inputRef i, .literal (.datum p)]

omit [LinearOrder D] in
theorem mem_likesAll {es : List (Rex D)} {x : ℕ × D} (h : x ∈ likesAll es) : ∃ e ∈ es, x ∈ likes e := by
  induction es with
  | nil => cases h
  | cons e es ih =>
    rcases mem_append.1 h with h | h
    · exact ⟨e, mem_cons_self, h⟩
    · obtain ⟨e', he, hx⟩ := ih h
      exact ⟨e', mem_cons_of_mem _ he, hx⟩

theorem eq_of_equals {v w : Value D} {p : D} (hw : likeValue like w (.datum p) = .bool true)
    (h : v.compare .EQUALS w = .bool true) : w = v := by
  cases w with
  | datum d =>
    cases v with
    | datum d' => simpa [Value.compare, Value.compare.test, eq_comm] using h
    | _ => cases h
  | _ => cases hw

/-- The strings that make all operands true are those of the row. -/
theorem eq_own_of_evalAllWith {es : List (Rex D)} (hes : LikesOnTop es)
    (hm : Matching like (likesAll es) vs)
    (h : ∀ w ∈ evalAllWith (functions like rest) (column r)
      (List.zipWith (fun x v => (column r x.1).compare .EQUALS v) (likesAll es) vs) es, w = .bool true) :
    vs = own r (likesAll es) := by
  induction es generalizing vs with
  | nil => exact forall₂_nil_left_iff.1 hm
  | cons e es ih =>
    have hrest : LikesOnTop es := fun e' he => hes e' (mem_cons_of_mem _ he)
    rw [likesAll] at hm h ⊢
    rcases hes e mem_cons_self with hnone | ⟨i, p, rfl⟩
    · rw [hnone, nil_append] at hm h ⊢
      rw [evalAllWith, hnone] at h
      exact ih hrest hm fun w hw => h w (mem_cons_of_mem _ hw)
    · obtain ⟨v, vs, hv, htail, rfl⟩ := forall₂_cons_left_iff.1 hm
      have hv := eq_of_equals hv (h _ mem_cons_self)
      exact congrArg₂ _ hv (ih hrest htail fun w hw => h w (mem_cons_of_mem _ hw))

/-- A conjunction of `LIKE`s and of conditions without one needs all its `LIKE`s. -/
theorem selective_and {es : List (Rex D)} (hes : LikesOnTop es) : Selective like rest n (.call .AND es) where
  needs r _ h := by
    rw [Matching, own, forall₂_map_right_iff, forall₂_same]
    intro x hx
    obtain ⟨e, he, hx⟩ := mem_likesAll hx
    have hholds := (Rex.holds_and_iff _ _ es).1 h e he
    rcases hes e he with hnone | ⟨i, p, rfl⟩
    · rw [hnone] at hx
      cases hx
    · obtain rfl := List.mem_singleton.1 hx
      exact hholds
  only r vs _ hm hp := eq_own_of_evalAllWith hes hm (Value.and_eq_true.1 hp)

theorem zipWith_own (h : Matching like ls (own r ls)) :
    List.zipWith (fun x v => (column r x.1).compare .EQUALS v) ls (own r ls) =
      ls.map fun x => likeValue like (column r x.1) (.datum x.2) := by
  induction ls with
  | nil => rfl
  | cons x ls ih =>
    obtain ⟨hx, hls⟩ := forall₂_cons.1 h
    have hx : likeValue like (column r x.1) (.datum x.2) = .bool true := hx
    have heq : (column r x.1).compare .EQUALS (column r x.1) = .bool true := by
      cases hv : column r x.1 with
      | datum d => simp [Value.compare, Value.compare.test]
      | _ => rw [hv] at hx; cases hx
    rw [own, List.map_cons, zipWith_cons_cons, List.map_cons, heq, hx]
    exact congrArg _ (ih hls)

/-- With the strings of the row itself the new condition is the old one. -/
theorem passes_own (hwf : WellFormed n e) (h : Matching like (likes e) (own r (likes e))) :
    Passes (functions like rest) e r (own r (likes e)) ↔ e.Holds (functions like rest) (column r) := by
  rw [Passes, zipWith_own h, Rex.Holds, eval_eq_evalWith (column r) e hwf]

theorem matching_of_mem_tuples (h : vs ∈ tuples like table ls) : Matching like ls vs :=
  (mem_tuples.1 h).imp fun _ _ hv => (mem_dictionary.1 hv).2

theorem own_mem_tuples (hr : r ∈ table)
    (h : Matching like ls (own r ls)) : own r ls ∈ tuples like table ls := by
  rw [mem_tuples, own, forall₂_map_right_iff, forall₂_same]
  rw [Matching, own, forall₂_map_right_iff, forall₂_same] at h
  exact fun x hx => mem_dictionary.2 ⟨⟨r, hr, rfl⟩, h x hx⟩

theorem Selective.countP_eq (h : Selective like rest n e) (hwf : WellFormed n e)
    (hr : r.length = n) (hmem : r ∈ table) :
    (tuples like table (likes e)).countP (Passes (functions like rest) e r) =
      if e.Holds (functions like rest) (column r) then 1 else 0 := by
  split_ifs with hholds
  · have hown := h.needs r hr hholds
    have hiff : ∀ vs ∈ tuples like table (likes e),
        Passes (functions like rest) e r vs ↔ own r (likes e) = vs := by
      intro vs hvs
      constructor
      · exact fun hp => (h.only r vs hr (matching_of_mem_tuples hvs) hp).symm
      · rintro rfl
        exact (passes_own hwf hown).2 hholds
    rw [countP_congr rfl fun vs hvs => propext (hiff vs hvs)]
    exact count_eq_one_of_mem (nodup_tuples _) (own_mem_tuples hmem hown)
  · refine countP_eq_zero.2 fun vs hvs hp => hholds ?_
    have hm := matching_of_mem_tuples hvs
    obtain rfl := h.only r vs hr hm hp
    exact (passes_own hwf hm).1 hp

theorem count_bind_replicate (m : Multiset (List (Value D))) (k : List (Value D) → ℕ)
    (r : List (Value D)) : (m.bind fun r => Multiset.replicate (k r) r).count r = m.count r * k r := by
  induction m using Multiset.induction with
  | empty => simp
  | cons a m ih =>
    rw [cons_bind, count_add, ih, Multiset.count_replicate]
    by_cases har : a = r
    · subst har
      simp [Nat.add_mul, Nat.add_comm]
    · simp [har, Ne.symm har]

/-- The plan returns the rows of the filter. -/
def Preserved (like : D → D → Bool) (rest : ℕ → List (Value D) → Value D)
    (mq : RelMetadataQuery D n) (e : Rex D) : Prop :=
  ∃ plan, onMatch mq e = some plan ∧ ∀ t : Table D n,
    plan.rows like rest t.rows = (RelNode.filter .scan e).rows like rest t.rows

/-- How often the plan returns a row, if it returns those of the filter. -/
theorem Preserved.countP_eq (h : Preserved like rest mq e) (hwf : WellFormed n e)
    (t : Table D n) (hr : r ∈ t.rows) :
    (tuples like t.rows (likes e)).countP (Passes (functions like rest) e r) =
      if e.Holds (functions like rest) (column r) then 1 else 0 := by
  obtain ⟨plan, hplan, hrows⟩ := h
  obtain ⟨plan', hplan', hrows'⟩ := rows_onMatch hwf
  obtain rfl : plan = plan' := Option.some.inj (hplan ▸ hplan')
  have hcount := congrArg (Multiset.count r) ((hrows' t).symm.trans (hrows t))
  rw [count_bind_replicate, rows, rows, RelAlg.select, Multiset.count_filter] at hcount
  have hpos := count_pos.2 hr
  split_ifs at hcount ⊢ with hholds
  · exact Nat.eq_of_mul_eq_mul_left hpos (by rw [hcount, Nat.mul_one])
  · exact (Nat.mul_eq_zero.1 hcount).resolve_left (Nat.pos_iff_ne_zero.1 hpos)

/-- A table with the row `r` in whose dictionaries the strings `vs` are. -/
def spread (r : List (Value D)) (ls : List (ℕ × D)) (vs : List (Value D)) : Table D r.length where
  rows := r ::ₘ ((ls.zip vs).map fun y => r.set y.1.1 y.2 : List (List (Value D)))
  width r' hr' := by
    rcases Multiset.mem_cons.1 hr' with rfl | hr'
    · rfl
    · obtain ⟨y, -, rfl⟩ := List.mem_map.1 (Multiset.mem_coe.1 hr')
      exact List.length_set

theorem mem_tuples_spread (hls : ∀ x ∈ ls, x.1 < r.length)
    (h : Matching like ls vs) : vs ∈ tuples like (spread r ls vs).rows ls := by
  rw [Matching, forall₂_iff_zip] at h
  rw [mem_tuples, forall₂_iff_zip]
  refine ⟨h.1, fun {x v} hxv => mem_dictionary.2 ⟨⟨r.set x.1 v, ?_, ?_⟩, h.2 hxv⟩⟩
  · exact mem_cons_of_mem (mem_coe.2 (mem_map.2 ⟨(x, v), hxv, rfl⟩))
  · have hlt := hls x (of_mem_zip hxv).1
    simp [column, hlt]

section

variable (h : Preserved like rest mq e) (hwf : WellFormed n e) (hr : r.length = n)
include h hwf hr

theorem Preserved.needs (hholds : e.Holds (functions like rest) (column r)) :
    Matching like (likes e) (own r (likes e)) := by
  -- the row alone: its own strings are all there is in the dictionaries
  have hcount := h.countP_eq hwf ⟨{r}, by simpa using hr⟩ (Multiset.mem_singleton_self r)
  rw [if_pos hholds] at hcount
  obtain ⟨vs, hvs, -⟩ := countP_pos.1 (by rw [hcount]; exact Nat.one_pos)
  have hown : own r (likes e) = vs := by
    have hforall := (mem_tuples.1 hvs).imp fun x v hv => (mem_dictionary.1 hv).1
    simp only [Multiset.mem_singleton, exists_eq_left] at hforall
    have heq : List.Forall₂ Eq (own r (likes e)) vs := forall₂_map_left_iff.2 hforall
    rwa [forall₂_eq_eq_eq] at heq
  rw [hown]
  exact matching_of_mem_tuples hvs

theorem Preserved.only (hm : Matching like (likes e) vs)
    (hp : Passes (functions like rest) e r vs) : vs = own r (likes e) := by
  subst hr
  have hvs := mem_tuples_spread (lt_of_mem_likes e hwf) hm
  have hr : r ∈ (spread r (likes e) vs).rows := by simp [spread]
  have hcount := h.countP_eq hwf _ hr
  have hpos := countP_pos.2 ⟨vs, hvs, hp⟩
  split_ifs at hcount with hholds
  · have hown := h.needs hwf rfl hholds
    rw [countP_eq_card_filter, card_eq_one] at hcount
    obtain ⟨us, hus⟩ := hcount
    have hmem : ∀ ws ∈ tuples like (spread r (likes e) vs).rows (likes e),
        Passes (functions like rest) e r ws → ws = us := by
      intro ws hws hpass
      rw [← Multiset.mem_singleton, ← hus]
      exact mem_filter.2 ⟨hws, hpass⟩
    rw [hmem vs hvs hp, hmem _ (own_mem_tuples hr hown) ((passes_own hwf hown).2 hholds)]
  · omega

end

end

/-- The plan of the rule returns the rows of the filter exactly if the condition needs all its `LIKE`s and
no equality with another string will do. -/
theorem likeToJoin_iff [LinearOrder D] (like : D → D → Bool) (rest : ℕ → List (Value D) → Value D)
    (mq : RelMetadataQuery D n) (e : Rex D) (hwf : WellFormed n e) :
    Preserved like rest mq e ↔ Selective like rest n e := by
  constructor
  · exact fun h => ⟨fun r hr => h.needs hwf hr, fun r vs hr => h.only hwf hr⟩
  · intro h
    obtain ⟨plan, hplan, hrows⟩ := rows_onMatch hwf
    refine ⟨plan, hplan, fun t => ?_⟩
    rw [hrows t, rows, RelAlg.select, filter_eq_bind]
    refine bind_congr fun r hr => ?_
    rw [h.countP_eq hwf (t.width r hr) hr]
    split_ifs <;> rfl

/-- `LIKE` on strings of one character. -/
def likeChar (pattern c : Char) : Bool := pattern == '%' || pattern == '_' || pattern == c

/-- `$0 LIKE 'a'` -/
def likeA : Rex Char := .call LIKE [.inputRef 0, .literal (.datum 'a')]

/-- `$0 LIKE 'a' AND $1 LIKE '%'` -/
def bothLike : Rex Char := .call .AND [likeA, .call LIKE [.inputRef 1, .literal (.datum '%')]]

/-- Every column comes from the column of its number. -/
def sameColumn (n : ℕ) : RelMetadataQuery Char n where
  getExpressionLineage _ i := some i
  scan _ _ := rfl
  join _ _ _ _ _ := rfl

/-- Two `LIKE`s, of which the second one has every string in its dictionary. -/
theorem likeToJoin_bothLike : WellFormed 2 bothLike ∧
    Preserved likeChar (fun _ _ => .null) (sameColumn 2) bothLike := by
  have hwf : WellFormed 2 bothLike :=
    ⟨⟨0, 'a', Nat.two_pos, rfl⟩, ⟨1, '%', Nat.one_lt_two, rfl⟩, trivial⟩
  refine ⟨hwf, (likeToJoin_iff likeChar _ _ bothLike hwf).2 (selective_and fun e he => ?_)⟩
  rcases mem_pair.1 he with rfl | rfl
  · exact .inr ⟨_, _, rfl⟩
  · exact .inr ⟨_, _, rfl⟩

/-- `NOT ($0 LIKE 'a')` on a table with the row `b`: the dictionary is empty, and the row is lost. -/
theorem not_like_loses_row : (∃ plan, onMatch (sameColumn 1) (.call .NOT [likeA]) = some plan ∧
      plan.rows likeChar (fun _ _ => .null) {[.datum 'b']} = 0) ∧
    (RelNode.filter .scan (.call .NOT [likeA])).rows likeChar (fun _ _ => .null) {[.datum 'b']} =
      {[.datum 'b']} ∧
    ¬Preserved likeChar (fun _ _ => .null) (sameColumn 1) (.call .NOT [likeA]) := by
  have hlost : ∃ plan, onMatch (sameColumn 1) (.call .NOT [likeA]) = some plan ∧
      plan.rows likeChar (fun _ _ => .null) {[.datum 'b']} = 0 := ⟨_, rfl, by decide⟩
  have hkept : (filter .scan (.call .NOT [likeA])).rows likeChar (fun _ _ => .null)
      {[.datum 'b']} = {[.datum 'b']} := by decide
  refine ⟨hlost, hkept, fun ⟨plan, hplan, hrows⟩ => ?_⟩
  obtain ⟨plan', hplan', hzero⟩ := hlost
  obtain rfl : plan = plan' := Option.some.inj (hplan ▸ hplan')
  have h := hrows ⟨{[.datum 'b']}, by simp⟩
  rw [hzero] at h
  exact singleton_ne_zero _ h.symm

end Proteus.Planner.LikeToJoin
