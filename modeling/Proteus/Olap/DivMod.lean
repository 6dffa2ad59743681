import Mathlib.Algebra.Order.Group.Unbundled.Int
import Mathlib.Data.BitVec

/-!
# Division and modulo

`ExpressionGeneratorVisitor` generates a signed division for `DivExpression` but an unsigned remainder
for `ModExpression`. The two fit together only where the remainder of the unsigned words is that of the
signed ones (`umod_eq_srem_iff`).
-/

namespace Proteus.DivMod

open BitVec Int

inductive TypeID
  | bool | dstring | string | float | int | date | record | list | bag | set | int64 | composite
  | block | indexedseq

/-- The instructions of the builder. -/
inductive Instruction
  | sDiv | fDiv | uRem | fRem

/-- The instruction for operands of a type, and whether the result is null. -/
def visit (ints floats : Instruction) (isPrimitive : Bool) (id : TypeID) :
    Except String (Instruction × Bool) :=
  if isPrimitive then
    match id with
    | .int64 | .int | .bool => .ok (ints, false)
    | .float => .ok (floats, false)
    | .string => .error "[ExpressionGeneratorVisitor]: string operations not supported yet"
    | .bag | .list | .set | .record =>
      .error "[ExpressionGeneratorVisitor]: invalid expression type"
    | _ => .error "[ExpressionGeneratorVisitor]: Unknown Input"
  else .error "[ExpressionGeneratorVisitor]: input of binary expression can only be primitive"

def visitDivExpression : Bool → TypeID → Except String (Instruction × Bool) := visit .sDiv .fDiv

def visitModExpression : Bool → TypeID → Except String (Instruction × Bool) := visit .uRem .fRem

variable {w : ℕ} {a b : BitVec w}

/-- The value of an instruction on integers, where LLVM defines it. -/
def Instruction.eval (a b : BitVec w) : Instruction → Option (BitVec w)
  | .sDiv => if b = 0#w ∨ a = intMin w ∧ b = -1#w then none else some (a.sdiv b)
  | .uRem => if b = 0#w then none else some (a % b)
  | .fDiv | .fRem => none

/-- The code for division and for modulo keeps the laws of SQL. -/
def Fits (id : TypeID) (a b : BitVec w) : Prop :=
  ∃ div mod q r, visitDivExpression true id = .ok (div, false) ∧
    visitModExpression true id = .ok (mod, false) ∧ div.eval a b = some q ∧ mod.eval a b = some r ∧
    q * b + r = a ∧ |r.toInt| < |b.toInt| ∧ (r.toInt = 0 ∨ r.toInt.sign = a.toInt.sign)

theorem not_fits_neg_seven : ¬Fits .int (-7#32) 2#32 := by
  simp [Fits, visitDivExpression, visitModExpression, visit, Instruction.eval]

theorem sdiv_mul_add_srem (h : a = intMin w → b ≠ -1#w) : a.sdiv b * b + a.srem b = a := by
  apply eq_of_toInt_eq
  rw [toInt_add, toInt_mul, toInt_srem, toInt_sdiv_of_ne_or_ne a b (Decidable.not_or_of_imp h),
    bmod_add_bmod, mul_comm, mul_tdiv_add_tmod, toInt_bmod_cancel]

/-- A word as an unsigned number. -/
theorem toNat_cases (a : BitVec w) :
    0 ≤ a.toInt ∧ (a.toNat : ℤ) = a.toInt ∧ 2 * a.toInt < 2 ^ w ∨
      a.toInt < 0 ∧ (a.toNat : ℤ) = a.toInt + 2 ^ w ∧ -2 ^ w ≤ 2 * a.toInt := by
  have hlt := a.isLt
  have hpow : ((2 ^ w : ℕ) : ℤ) = 2 ^ w := Nat.cast_pow 2 w
  rw [toInt_eq_toNat_cond]
  split_ifs <;> omega

section

variable (hb : b ≠ 0#w)
include hb

theorem toInt_ne_zero : b.toInt ≠ 0 :=
  fun h => hb (eq_of_toInt_eq (by simpa using h))

theorem umod_eq_srem_iff :
    a % b = a.srem b ↔ a = b ∨ 0 ≤ a.toInt ∧ (0 < b.toInt ∨ a.toInt < -b.toInt) ∨
      a.toInt < 0 ∧ 0 < b.toInt ∧ b.toInt ∣ a.toInt ∧ b.toInt ∣ 2 ^ w := by
  have hb0 := toInt_ne_zero hb
  have hmod : ((a % b).toNat : ℤ) = a.toNat % b.toNat := by simp
  have hr := toNat_cases (a % b)
  rw [hmod] at hr
  rw [← toInt_inj, ← toInt_inj (y := b), toInt_srem]
  rcases toNat_cases a with ⟨ha, hA, ha2⟩ | ⟨ha, hA, ha2⟩ <;>
    rcases toNat_cases b with ⟨hb', hB, hb2⟩ | ⟨hb', hB, hb2⟩ <;> rw [hA, hB] at hr
  · have hlt := emod_lt_of_pos a.toInt (b := b.toInt) (by omega)
    rw [tmod_eq_emod_of_nonneg ha]
    omega
  · -- the unsigned divisor is the greater one
    rw [emod_eq_of_lt ha (by omega)] at hr
    have hlt := emod_lt_of_pos a.toInt (b := -b.toInt) (by omega)
    have hself : a.toInt < -b.toInt → a.toInt % -b.toInt = a.toInt := emod_eq_of_lt ha
    rw [← tmod_neg, tmod_eq_emod_of_nonneg ha]
    omega
  · -- the remainders have different signs, so that both are zero
    have h0 := emod_nonneg (a.toInt + 2 ^ w) hb0
    have hlt := emod_lt_of_pos (a.toInt + 2 ^ w) (b := b.toInt) (by omega)
    have h0' := emod_nonneg (-a.toInt) hb0
    have hneg : a.toInt.tmod b.toInt = -(-a.toInt % b.toInt) := by
      rw [← Int.tmod_eq_emod_of_nonneg (by omega), Int.neg_tmod, Int.neg_neg]
    have hiff : (a.toInt + 2 ^ w) % b.toInt = 0 ∧ -a.toInt % b.toInt = 0 ↔
        b.toInt ∣ a.toInt ∧ b.toInt ∣ 2 ^ w := by
      rw [← Int.dvd_iff_emod_eq_zero, ← Int.dvd_iff_emod_eq_zero, Int.dvd_neg, And.comm]
      exact and_congr_right Int.dvd_add_right
    rw [hneg, ← hiff]
    omega
  · have hneg : a.toInt.tmod b.toInt = -(-a.toInt % -b.toInt) := by
      rw [← tmod_eq_emod_of_nonneg (by omega), neg_tmod, tmod_neg, Int.neg_neg]
    have hself : -a.toInt < -b.toInt → -a.toInt % -b.toInt = -a.toInt := emod_eq_of_lt (by omega)
    have hlt := emod_lt_of_pos (-a.toInt) (b := -b.toInt) (by omega)
    have hzero : a.toInt = b.toInt → -a.toInt % -b.toInt = 0 := fun h => by rw [h, emod_self]
    rw [hneg]
    rcases lt_or_ge a.toInt b.toInt with hab | hab
    · rw [emod_eq_of_lt (by omega) (by omega)] at hr
      omega
    · rw [← sub_emod_right, emod_eq_of_lt (by omega) (by omega)] at hr
      omega

/-- **Division and modulo fit together** for equal operands, for a dividend that is not negative and a
divisor that is positive or greater in absolute value, and for a negative dividend that is divided by a
power of two without remainder. -/
theorem fits_iff {id : TypeID} (hid : id = .int ∨ id = .int64) (hover : a = intMin w → b ≠ -1#w) :
    Fits id a b ↔ a = b ∨ 0 ≤ a.toInt ∧ (0 < b.toInt ∨ a.toInt < -b.toInt) ∨
      a.toInt < 0 ∧ 0 < b.toInt ∧ b.toInt ∣ a.toInt ∧ b.toInt ∣ 2 ^ w := by
  have hfits : Fits id a b ↔ a.sdiv b * b + a % b = a ∧ |(a % b).toInt| < |b.toInt| ∧
      ((a % b).toInt = 0 ∨ (a % b).toInt.sign = a.toInt.sign) := by
    have hno : ¬(b = 0#w ∨ a = intMin w ∧ b = -1#w) := by tauto
    rcases hid with rfl | rfl <;>
      simp [Fits, visitDivExpression, visitModExpression, visit, Instruction.eval, if_neg hno, if_neg hb]
  rw [hfits, ← umod_eq_srem_iff hb]
  have hsum := sdiv_mul_add_srem hover
  constructor
  · rintro ⟨heq, -⟩
    exact add_left_cancel (heq.trans hsum.symm)
  · intro heq
    rw [heq, toInt_srem, abs_eq_natAbs, abs_eq_natAbs, natAbs_tmod, sign_tmod,
      ofNat_lt]
    refine ⟨hsum, Nat.mod_lt _ (natAbs_pos.2 (toInt_ne_zero hb)), ?_⟩
    split_ifs with hdvd
    · exact .inl (tmod_eq_zero_of_dvd hdvd)
    · exact .inr rfl

end

theorem fits_seven : Fits .int 7#32 2#32 :=
  (fits_iff (by decide) (.inl rfl) (by decide)).2 (by decide)

end Proteus.DivMod
