import Mathlib.Data.List.Dedup
import Mathlib.Order.Lattice

/-!
# Row expressions

The part of the planner's row expressions that its join rules take apart: input references,
literals and calls. A call is a connective, a comparison, or any other function of its
operands. Values follow SQL: a comparison with `null` is `null`, the connectives are
three-valued, and a filter or a join keeps a row when its condition is true (`Holds`).

The functions of Calcite that the rules send through an expression are not part of the repository:
`Visitors` takes them as they come, and `Visitors.Sound` says what is expected of them.
-/

namespace Proteus.Planner

/-! ## Syntax -/

/-- The comparison kinds of `SqlKind`. -/
inductive Comparison
  | EQUALS
  | NOT_EQUALS
  | LESS_THAN
  | LESS_THAN_OR_EQUAL
  | GREATER_THAN
  | GREATER_THAN_OR_EQUAL
  deriving DecidableEq, Repr

/-- The kind of a call; `other f` is the function with the number `f`. -/
inductive SqlKind
  | AND
  | OR
  | NOT
  | comparison (c : Comparison)
  | other (f : ℕ)
  deriving DecidableEq, Repr

/-- A value of a column or an expression, over the data `D`. -/
inductive Value (D : Type*)
  | null
  | bool (b : Bool)
  | datum (d : D)
  deriving DecidableEq, Repr

/-- `RexNode`. -/
inductive Rex (D : Type*)
  | inputRef (i : ℕ)
  | literal (v : Value D)
  | call (kind : SqlKind) (operands : List (Rex D))

variable {D : Type*}

namespace Rex

/-- `isA`. -/
def isA (kind : SqlKind) : Rex D → Bool
  | call k _ => k = kind
  | _ => false

/-- `RexCall.getOperands`. -/
def getOperands : Rex D → List (Rex D)
  | call _ operands => operands
  | _ => []

/-- A call to one comparison. -/
def cmp (c : Comparison) (a b : Rex D) : Rex D := call (.comparison c) [a, b]

end Rex

/-! ## Evaluation -/

namespace Value

/-- A comparison of two values that are of one type and not `null`. -/
def compare [LinearOrder D] (c : Comparison) : Value D → Value D → Value D
  | datum x, datum y => bool (test c (decide (x = y)) (decide (x < y)))
  | bool x, bool y => bool (test c (x == y) (!x && y))
  | _, _ => null
where
  test : Comparison → Bool → Bool → Bool
    | .EQUALS, eq, _ => eq
    | .NOT_EQUALS, eq, _ => !eq
    | .LESS_THAN, _, lt => lt
    | .LESS_THAN_OR_EQUAL, eq, lt => lt || eq
    | .GREATER_THAN, eq, lt => !lt && !eq
    | .GREATER_THAN_OR_EQUAL, _, lt => !lt

/-- Three-valued conjunction. -/
def and [DecidableEq D] (vs : List (Value D)) : Value D :=
  if bool false ∈ vs then bool false
  else if ∀ v ∈ vs, v = bool true then bool true
  else null

/-- Three-valued disjunction. -/
def or [DecidableEq D] (vs : List (Value D)) : Value D :=
  if bool true ∈ vs then bool true
  else if ∀ v ∈ vs, v = bool false then bool false
  else null

def not : Value D → Value D
  | bool b => bool !b
  | _ => null

end Value

/-- What a call computes from its operands; `other` gives the remaining functions. -/
def SqlKind.apply [LinearOrder D] (other : ℕ → List (Value D) → Value D) :
    SqlKind → List (Value D) → Value D
  | .AND, vs => Value.and vs
  | .OR, vs => Value.or vs
  | .NOT, [v] => v.not
  | .comparison c, [v, w] => v.compare c w
  | .other f, vs => other f vs
  | _, _ => .null

namespace Rex

mutual

/-- The value of an expression on a row, given as its columns. -/
def eval [LinearOrder D] (other : ℕ → List (Value D) → Value D) (row : ℕ → Value D) :
    Rex D → Value D
  | .inputRef i => row i
  | .literal v => v
  | .call kind operands => kind.apply other (evalAll other row operands)

def evalAll [LinearOrder D] (other : ℕ → List (Value D) → Value D) (row : ℕ → Value D) :
    List (Rex D) → List (Value D)
  | [] => []
  | e :: es => eval other row e :: evalAll other row es

end

mutual

/-- The columns an expression refers to. -/
def bits : Rex D → List ℕ
  | .inputRef i => [i]
  | .literal _ => []
  | .call _ operands => bitsAll operands

def bitsAll : List (Rex D) → List ℕ
  | [] => []
  | e :: es => bits e ++ bitsAll es

end

mutual

/-- The expression with every reference moved. -/
def mapRefs (f : ℕ → ℕ) : Rex D → Rex D
  | .inputRef i => .inputRef (f i)
  | .literal v => .literal v
  | .call kind operands => .call kind (mapRefsAll f operands)

def mapRefsAll (f : ℕ → ℕ) : List (Rex D) → List (Rex D)
  | [] => []
  | e :: es => mapRefs f e :: mapRefsAll f es

end

mutual

/-- The operands of an expression seen as a nested conjunction. -/
def conjunctions : Rex D → List (Rex D)
  | .call .AND operands => conjunctionsAll operands
  | e => [e]

def conjunctionsAll : List (Rex D) → List (Rex D)
  | [] => []
  | e :: es => conjunctions e ++ conjunctionsAll es

end

end Rex

/-! ## Rows on which an expression holds -/

open Rex

section

variable [LinearOrder D] (other : ℕ → List (Value D) → Value D) (row : ℕ → Value D)

/-- The condition is true; a filter keeps exactly these rows. -/
def Rex.Holds (e : Rex D) : Prop := e.eval other row = .bool true

instance (e : Rex D) : Decidable (e.Holds other row) := inferInstanceAs (Decidable (_ = _))

theorem Value.and_eq_true {vs : List (Value D)} : Value.and vs = .bool true ↔ ∀ v ∈ vs, v = .bool true := by
  unfold Value.and
  split_ifs with hfalse htrue
  · refine ⟨fun h => by simp at h, fun h => ?_⟩
    have := h _ hfalse
    simp at this
  · exact ⟨fun _ => htrue, fun _ => rfl⟩
  · exact ⟨fun h => by simp at h, fun h => absurd h htrue⟩

theorem Rex.evalAll_eq_map (es : List (Rex D)) :
    evalAll other row es = es.map (eval other row) := by
  induction es with
  | nil => rfl
  | cons e es ih => rw [evalAll, ih, List.map_cons]

theorem Rex.holds_and_iff (es : List (Rex D)) :
    (call .AND es).Holds other row ↔ ∀ e ∈ es, e.Holds other row := by
  rw [Rex.Holds, eval, SqlKind.apply, Value.and_eq_true, evalAll_eq_map]
  simp only [List.forall_mem_map, Rex.Holds]

mutual

/-- Flattening a conjunction does not change when it holds. -/
theorem Rex.forall_conjunctions_iff (e : Rex D) :
    (∀ p ∈ e.conjunctions, p.Holds other row) ↔ e.Holds other row := by
  match e with
  | .inputRef _ => simp [conjunctions]
  | .literal _ => simp [conjunctions]
  | .call .AND es =>
    rw [conjunctions, forall_conjunctionsAll_iff es, holds_and_iff]
  | .call .OR _ => simp [conjunctions]
  | .call .NOT _ => simp [conjunctions]
  | .call (.comparison _) _ => simp [conjunctions]
  | .call (.other _) _ => simp [conjunctions]

theorem Rex.forall_conjunctionsAll_iff (es : List (Rex D)) :
    (∀ p ∈ conjunctionsAll es, p.Holds other row) ↔ ∀ e ∈ es, e.Holds other row := by
  match es with
  | [] => simp [conjunctionsAll]
  | e :: es =>
    simp only [conjunctionsAll, List.forall_mem_append, List.forall_mem_cons,
      forall_conjunctions_iff e, forall_conjunctionsAll_iff es]

end

end

/-! ## Expressions see only the columns they refer to -/

section

variable [LinearOrder D] (other : ℕ → List (Value D) → Value D) {row row' : ℕ → Value D}

mutual

theorem Rex.eval_congr (e : Rex D) (h : ∀ i ∈ e.bits, row i = row' i) :
    e.eval other row = e.eval other row' := by
  match e with
  | .inputRef i => exact h i (by simp [bits])
  | .literal _ => rfl
  | .call kind es => rw [eval, eval, evalAll_congr es h]

theorem Rex.evalAll_congr (es : List (Rex D)) (h : ∀ i ∈ bitsAll es, row i = row' i) :
    evalAll other row es = evalAll other row' es := by
  match es with
  | [] => rfl
  | e :: es =>
    simp only [bitsAll, List.forall_mem_append] at h
    rw [evalAll, evalAll, eval_congr e h.1, evalAll_congr es h.2]

end

mutual

/-- An expression whose references have moved reads the columns where they went. -/
theorem Rex.eval_mapRefs (f : ℕ → ℕ) (e : Rex D) :
    (e.mapRefs f).eval other row = e.eval other fun i => row (f i) := by
  match e with
  | .inputRef _ => rfl
  | .literal _ => rfl
  | .call kind es => rw [mapRefs, eval, eval, evalAll_mapRefsAll f es]

theorem Rex.evalAll_mapRefsAll (f : ℕ → ℕ) (es : List (Rex D)) :
    evalAll other row (mapRefsAll f es) = evalAll other (fun i => row (f i)) es := by
  match es with
  | [] => rfl
  | e :: es => rw [mapRefsAll, evalAll, evalAll, eval_mapRefs f e, evalAll_mapRefsAll f es]

end

end

/-! ## The visitors of Calcite -/

/-- `InputFinder.bits`, `RexUtil.shift(e, -offset)` and `RexInputConverter`. -/
structure Visitors (D : Type*) where
  bits : Rex D → List ℕ
  shift : ℕ → Rex D → Rex D
  convert : (ℕ → ℤ) → Rex D → Rex D

/-- An expression sees only its `bits`, and the others move its references. -/
structure Visitors.Sound [LinearOrder D] (V : Visitors D) (other : ℕ → List (Value D) → Value D) :
    Prop where
  eval_congr : ∀ e row row', (∀ i ∈ V.bits e, row i = row' i) → e.eval other row = e.eval other row'
  eval_shift : ∀ offset e row,
    (V.shift offset e).eval other row = e.eval other fun i => row (i - offset)
  eval_convert : ∀ adj e row,
    (V.convert adj e).eval other row = e.eval other fun i => row (i + adj i).toNat
  bits_inputRef : ∀ i, V.bits (.inputRef i) = [i]
  /-- Only a reference is turned into a reference. -/
  convert_eq_inputRef : ∀ adj e j, V.convert adj e = .inputRef j →
    ∃ i, e = .inputRef i ∧ (i + adj i).toNat = j

/-- Visitors that do this. -/
def Visitors.standard : Visitors D where
  bits := Rex.bits
  shift offset := Rex.mapRefs (· - offset)
  convert adj := Rex.mapRefs fun i => (i + adj i).toNat

theorem Visitors.standard_sound [LinearOrder D] (other : ℕ → List (Value D) → Value D) :
    standard.Sound other where
  eval_congr e _ _ := Rex.eval_congr other e
  eval_shift _ e _ := Rex.eval_mapRefs other _ e
  eval_convert _ e _ := Rex.eval_mapRefs other _ e
  bits_inputRef _ := rfl
  convert_eq_inputRef adj e j h := by
    match e with
    | .inputRef i => exact ⟨i, rfl, Rex.inputRef.inj h⟩
    | .literal _ => cases h
    | .call _ _ => cases h

end Proteus.Planner
