import Mathlib.Algebra.Module.Defs
import Mathlib.Algebra.Order.Field.Basic
import Mathlib.Algebra.Order.Field.Rat
import Mathlib.Data.Rat.Sqrt
import Mathlib.Tactic.FieldSimp
import Mathlib.Tactic.Linarith
import Mathlib.Tactic.Ring
import Sightline.Geometry.Plane

/-! Arithmetic without rounding. Over an ordered field the geometry means what it says: a distance changes
evenly along a line, and a unit normal along an axis has no other component. -/

namespace Sightline

/-- Numbers that are not rounded: they make up an ordered field. -/
class ExactScalar (R : Type) extends Scalar R, Field R, LinearOrder R, IsStrictOrderedRing R

instance : ExactScalar ℚ where
  __ := (inferInstance : Field ℚ)
  __ := (inferInstance : LinearOrder ℚ)
  __ := (inferInstance : IsStrictOrderedRing ℚ)
  sqrt := Rat.sqrt
  decidableLT := inferInstance
  decidableLE := inferInstance

instance {R : Type} [DecidableEq R] : DecidableEq (Vec R) := fun _ _ => decidable_of_iff _ Vec.ext_iff.symm

namespace Scalar

variable {R : Type} [ExactScalar R]

theorem same_iff {a b : R} : same a b = true ↔ a = b := by
  rw [same, Bool.and_eq_true, decide_eq_true_iff, decide_eq_true_iff, le_antisymm_iff]

theorem thickness_pos : (0 : R) < thickness := by
  unfold thickness
  positivity

theorem minLength_pos : (0 : R) < minLength := by
  unfold minLength
  positivity

end Scalar

variable {R : Type} [ExactScalar R] {plane : Plane R} {a b p : Vec R} {t u d : R}

instance : AddCommGroup (Vec R) where
  add_assoc a b c := by ext <;> exact add_assoc _ _ _
  zero_add a := by ext <;> exact zero_add _
  add_zero a := by ext <;> exact add_zero _
  nsmul := nsmulRec
  zsmul := zsmulRec
  neg_add_cancel a := by ext <;> exact neg_add_cancel _
  sub_eq_add_neg a b := by ext <;> exact sub_eq_add_neg _ _
  add_comm a b := by ext <;> exact add_comm _ _

instance : Module R (Vec R) where
  smul s a := ⟨s * a.x, s * a.y, s * a.z⟩
  one_smul a := by ext <;> exact one_mul _
  mul_smul s t a := by ext <;> exact mul_assoc _ _ _
  smul_zero s := by ext <;> exact mul_zero _
  smul_add s a b := by ext <;> exact mul_add _ _ _
  add_smul s t a := by ext <;> exact add_mul _ _ _
  zero_smul a := by ext <;> exact zero_mul _

namespace Vec

theorem smul_def (s : R) (a : Vec R) : s • a = ⟨s * a.x, s * a.y, s * a.z⟩ := rfl

def toward (a b : Vec R) (t : R) : Vec R :=
  ⟨a.x + t * (b.x - a.x), a.y + t * (b.y - a.y), a.z + t * (b.z - a.z)⟩

def OnSegment (a b p : Vec R) : Prop := ∃ t, 0 ≤ t ∧ t ≤ 1 ∧ p = a.toward b t

def Between (a b p : Vec R) : Prop := ∃ t, 0 < t ∧ t < 1 ∧ p = a.toward b t

theorem toward_toward (a b : Vec R) (t u : R) : a.toward (a.toward b t) u = a.toward b (t * u) := by
  ext <;> simp only [toward] <;> ring

theorem toward_rest (a b : Vec R) (t u : R) :
    (a.toward b t).toward b u = a.toward b (t + u * (1 - t)) := by
  ext <;> simp only [toward] <;> ring

theorem onSegment_left (ht : 0 ≤ t) (htu : t ≤ u) (hu : 0 < u) :
    a.OnSegment (a.toward b u) (a.toward b t) := by
  refine ⟨t / u, div_nonneg ht hu.le, (div_le_one hu).mpr htu, ?_⟩
  rw [toward_toward, mul_div_cancel₀ t hu.ne']

theorem onSegment_right (htu : u ≤ t) (ht : t ≤ 1) (hu : u < 1) :
    (a.toward b u).OnSegment b (a.toward b t) := by
  have hpos : 0 < 1 - u := sub_pos.mpr hu
  refine ⟨(t - u) / (1 - u), div_nonneg (sub_nonneg.mpr htu) hpos.le,
    (div_le_one hpos).mpr (by linarith), ?_⟩
  rw [toward_rest, div_mul_cancel₀ _ hpos.ne', add_sub_cancel]

end Vec

namespace Plane

theorem side_eq_front : plane.side p = .front ↔ Scalar.thickness < plane.distance p :=
  Side.ofDistance_eq_front

theorem side_eq_back : plane.side p = .back ↔ plane.distance p < -Scalar.thickness := by
  rw [side, Side.ofDistance_eq_back, and_iff_right_iff_imp]
  intro h
  have := Scalar.thickness_pos (R := R)
  linarith

theorem distance_pos_of_front (h : plane.side p = .front) : 0 < plane.distance p :=
  Scalar.thickness_pos.trans (side_eq_front.mp h)

theorem distance_neg_of_back (h : plane.side p = .back) : plane.distance p < 0 :=
  (side_eq_back.mp h).trans (neg_neg_of_pos Scalar.thickness_pos)

theorem normSq_flipped (plane : Plane R) : plane.flipped.normal.normSq = plane.normal.normSq := by
  simp only [flipped, Vec.normSq, Vec.dot, Vec.neg_def]
  ring

@[simp] theorem distance_flipped (plane : Plane R) (p : Vec R) :
    plane.flipped.distance p = -plane.distance p := by
  simp only [distance, flipped, Vec.dot, Vec.neg_def]
  ring

theorem side_flipped_eq_front : plane.flipped.side p = .front ↔ plane.side p = .back := by
  rw [side_eq_front, side_eq_back, distance_flipped, lt_neg]

theorem side_flipped_eq_back : plane.flipped.side p = .back ↔ plane.side p = .front := by
  rw [side_eq_front, side_eq_back, distance_flipped, neg_lt_neg_iff]

theorem distance_toward (plane : Plane R) (a b : Vec R) (t : R) :
    plane.distance (a.toward b t) = plane.distance a + t * (plane.distance b - plane.distance a) := by
  simp only [distance, Vec.dot, Vec.toward]
  ring

theorem distance_le_of_onSegment (hp : a.OnSegment b p) (ha : plane.distance a ≤ d)
    (hb : plane.distance b ≤ d) : plane.distance p ≤ d := by
  obtain ⟨t, ht0, ht1, rfl⟩ := hp
  have hleft := mul_le_mul_of_nonneg_left ha (sub_nonneg.mpr ht1)
  have hright := mul_le_mul_of_nonneg_left hb ht0
  rw [distance_toward]
  linarith

/-- Where the distance grows along the way, a point that is farther in front comes later. -/
theorem lt_of_distance_lt (h : plane.distance a < plane.distance b)
    (hut : plane.distance (a.toward b u) < plane.distance (a.toward b t)) : u < t := by
  rw [distance_toward, distance_toward] at hut
  by_contra! hle
  have hgrow := mul_le_mul_of_nonneg_right hle (sub_pos.mpr h).le
  linarith

theorem gt_of_distance_lt (h : plane.distance b < plane.distance a)
    (hut : plane.distance (a.toward b u) < plane.distance (a.toward b t)) : t < u := by
  rw [distance_toward, distance_toward] at hut
  by_contra! hle
  have hfall := mul_le_mul_of_nonneg_right hle (sub_pos.mpr h).le
  linarith

end Plane

end Sightline
