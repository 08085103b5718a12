import Mathlib.Analysis.Real.Sqrt
import Sightline.Proofs.ExactScalar

/-! Square roots without rounding. Where every number that is not negative has its root, a vector that is
divided by its length has length one. -/

namespace Sightline

/-- Numbers that are not rounded and have square roots. What the root of a negative number is does not
matter. -/
class RootedScalar (R : Type) extends ExactScalar R where
  sqrt_nonneg : ∀ a : R, 0 ≤ a → 0 ≤ sqrt a
  sqrt_mul_self : ∀ a : R, 0 ≤ a → sqrt a * sqrt a = a

noncomputable instance : RootedScalar ℝ where
  __ := (inferInstance : Field ℝ)
  __ := (inferInstance : LinearOrder ℝ)
  __ := (inferInstance : IsStrictOrderedRing ℝ)
  sqrt := Real.sqrt
  decidableLT := inferInstance
  decidableLE := inferInstance
  sqrt_nonneg a _ := Real.sqrt_nonneg a
  sqrt_mul_self _ h := Real.mul_self_sqrt h

namespace Vec

variable {R : Type} [RootedScalar R] {v : Vec R}

theorem normSq_unit (h : 0 < v.normSq) : (v / Scalar.sqrt v.normSq).normSq = 1 := by
  have hroot : Scalar.sqrt v.normSq * Scalar.sqrt v.normSq = v.normSq :=
    RootedScalar.sqrt_mul_self _ h.le
  have hne : Scalar.sqrt v.normSq ≠ 0 := by
    intro hzero
    rw [hzero, mul_zero] at hroot
    exact h.ne hroot
  have hdiv : (v / Scalar.sqrt v.normSq).normSq =
      v.normSq / (Scalar.sqrt v.normSq * Scalar.sqrt v.normSq) := by
    simp only [normSq, dot, div_def]
    ring
  rw [hdiv, hroot, div_self h.ne']

end Vec

end Sightline
