import Mathlib.Data.BitVec
import Mathlib.Logic.Function.Basic

/-!
# The hash of an integer key

The generated code hashes an integer by three xor-shifts with two multiplications between them, in
wrapping 64-bit arithmetic. Each stage can be undone, so different keys have different hashes
(`hashInt_injective`).
-/

namespace Proteus.Olap

open BitVec Function

/-- The stages that the two hashes share. -/
def murmur (s₁ s₂ s₃ : ℕ) (c₁ c₂ key : BitVec 64) : BitVec 64 :=
  let hash := key ^^^ key >>> s₁
  let hash := hash * c₁
  let hash := hash ^^^ hash >>> s₂
  let hash := hash * c₂
  hash ^^^ hash >>> s₃

def hashInt32 (v : BitVec 32) : BitVec 64 :=
  murmur 16 13 16 0x85ebca6b 0xc2b2ae35 (v.signExtend 64)

def hashInt64 (v : BitVec 64) : BitVec 64 :=
  murmur 33 33 33 0xff51afd7ed558ccd 0xc4ceb9fe1a85ec53 (v.signExtend 64)

theorem xorShift_injective {w s : ℕ} (hs : 0 < s) :
    Injective fun x : BitVec w => x ^^^ x >>> s := by
  intro x y h
  -- the high bits pass unchanged and determine the ones below
  have hbit : ∀ n i, w - i = n → x.getLsbD i = y.getLsbD i := by
    intro n
    induction n using Nat.strongRecOn with
    | ind n ih =>
      intro i hi
      obtain hw | hw := Nat.lt_or_ge i w
      · have habove := ih (w - (s + i)) (by omega) (s + i) rfl
        have hxor := congrArg (getLsbD · i) h
        simp only [getLsbD_xor, getLsbD_ushiftRight, habove] at hxor
        exact Bool.xor_left_inj.1 hxor
      · rw [getLsbD_of_ge x i hw, getLsbD_of_ge y i hw]
  exact eq_of_getLsbD_eq fun i _ => hbit _ i rfl

/-- The multipliers are units: each is given with its inverse. -/
theorem murmur_injective {s₁ s₂ s₃ : ℕ} {c₁ c₂ : BitVec 64} (d₁ d₂ : BitVec 64) (h₁ : 0 < s₁)
    (h₂ : 0 < s₂) (h₃ : 0 < s₃) (hc₁ : c₁ * d₁ = 1) (hc₂ : c₂ * d₂ = 1) :
    Injective (murmur s₁ s₂ s₃ c₁ c₂) := by
  have hmul : ∀ c d : BitVec 64, c * d = 1 → Injective (· * c) := by
    intro c d hcd
    apply LeftInverse.injective (g := (· * d))
    intro x
    simp only [mul_assoc, hcd, mul_one]
  exact (xorShift_injective h₃).comp ((hmul c₂ d₂ hc₂).comp ((xorShift_injective h₂).comp
    ((hmul c₁ d₁ hc₁).comp (xorShift_injective h₁))))

theorem hashInt_injective : Injective hashInt32 ∧ Injective hashInt64 := by
  have hext : ∀ w ≤ 64, Injective fun v : BitVec w => v.signExtend 64 := by
    intro w hw x y h
    apply BitVec.eq_of_toInt_eq
    rw [← BitVec.toInt_signExtend_of_le hw, congrArg BitVec.toInt h, BitVec.toInt_signExtend_of_le hw]
  constructor
  · exact (murmur_injective 0xa7324a5cb9243 0xd16e308e7ed1b41d (by decide) (by decide) (by decide)
      (by decide) (by decide)).comp (hext 32 (by decide))
  · exact (murmur_injective 0x4f74430c22a54005 0x9cb4b2f8129337db (by decide) (by decide) (by decide)
      (by decide) (by decide)).comp (hext 64 le_rfl)

end Proteus.Olap
