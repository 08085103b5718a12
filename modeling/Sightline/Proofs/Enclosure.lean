import Mathlib.Algebra.Order.BigOperators.Group.List
import Sightline.Proofs.Halves
import Sightline.Proofs.RootedScalar
import Sightline.Proofs.SightLine

/-! Spheres around points, without rounding. No point that a sphere holds is farther from the center than the
radius, and the distance from a plane with a unit normal changes by no more than the way one goes. So the side
on which a sphere lies is the side on which all its points lie, and also those between them. The centroid is
before a plane only if one of the points is. -/

namespace Sightline

variable {R : Type} [RootedScalar R] {plane : Plane R} {points : List (Vec R)} {n p q v : Vec R} {r : R}

namespace Vec

theorem normSq_nonneg (v : Vec R) : 0 ≤ v.normSq :=
  add_nonneg (add_nonneg (mul_self_nonneg _) (mul_self_nonneg _)) (mul_self_nonneg _)

theorem norm_nonneg (v : Vec R) : 0 ≤ v.norm := RootedScalar.sqrt_nonneg _ v.normSq_nonneg

theorem norm_mul_self (v : Vec R) : v.norm * v.norm = v.normSq :=
  RootedScalar.sqrt_mul_self _ v.normSq_nonneg

theorem norm_le_iff (hr : 0 ≤ r) : v.norm ≤ r ↔ v.normSq ≤ r * r := by
  rw [← norm_mul_self, mul_self_le_mul_self_iff v.norm_nonneg hr]

theorem eq_zero_of_normSq (h : v.normSq ≤ 0) : v = 0 := by
  have hx := mul_self_nonneg v.x
  have hy := mul_self_nonneg v.y
  have hz := mul_self_nonneg v.z
  rw [normSq, dot] at h
  ext
  · exact mul_self_eq_zero.mp (by linarith)
  · exact mul_self_eq_zero.mp (by linarith)
  · exact mul_self_eq_zero.mp (by linarith)

theorem cross_self (v : Vec R) : v.cross v = 0 := by
  ext <;> simp only [cross, zero_def] <;> ring

theorem dot_sq_add_cross_sq (n v : Vec R) :
    n.dot v * n.dot v + (n.cross v).normSq = n.normSq * v.normSq := by
  simp only [normSq, dot, cross]
  ring

theorem dot_le_norm (hunit : n.normSq = 1) (v : Vec R) : n.dot v ≤ v.norm := by
  have hcross := (n.cross v).normSq_nonneg
  have hsum := dot_sq_add_cross_sq n v
  rw [hunit, one_mul, ← norm_mul_self v] at hsum
  by_contra! hlt
  have hsq := mul_self_lt_mul_self v.norm_nonneg hlt
  linarith

/-- What comes of squared lengths on the way from one vector to another. -/
theorem normSq_combo {s t : R} (h : s + t = 1) (a b c : Vec R) : (s • a + t • b - c).normSq =
    s * (a - c).normSq + t * (b - c).normSq - s * t * (a - b).normSq := by
  obtain rfl : s = 1 - t := eq_sub_of_add_eq h
  simp only [normSq, dot, smul_def, add_def, sub_def]
  ring

end Vec

namespace Plane

theorem distance_sub (plane : Plane R) (p q : Vec R) :
    plane.distance p - plane.distance q = plane.normal.dot (p - q) := by
  simp only [distance, Vec.dot, Vec.sub_def]
  ring

theorem distance_le_add_norm (hunit : plane.normal.normSq = 1) (p q : Vec R) :
    plane.distance p ≤ plane.distance q + (p - q).norm := by
  have hdot := Vec.dot_le_norm hunit (p - q)
  rw [← distance_sub] at hdot
  linarith

theorem sum_distance (hne : points ≠ []) (plane : Plane R) :
    (points.map plane.distance).sum = points.length * plane.distance (Vec.centroid points) := by
  have hlen : (points.length : R) ≠ 0 :=
    Nat.cast_ne_zero.mpr fun hzero => hne (List.length_eq_zero_iff.mp hzero)
  have hsum (l : List (Vec R)) :
      (l.map plane.distance).sum = plane.normal.dot l.sum - l.length * plane.dist := by
    induction l with
    | nil => simp [Vec.dot, Vec.zero_def]
    | cons v l ih =>
      rw [List.map_cons, List.sum_cons, ih, List.sum_cons, List.length_cons, Nat.cast_succ]
      simp only [distance, Vec.dot, Vec.add_def]
      ring
  rw [hsum, Vec.centroid, Vec.sum_eq]
  simp only [distance, Vec.dot, Vec.div_def]
  field_simp

theorem exists_pos_of_centroid (hne : points ≠ []) (h : 0 < plane.distance (Vec.centroid points)) :
    ∃ v ∈ points, 0 < plane.distance v := by
  have hlen : 0 < (points.length : R) := Nat.cast_pos.mpr (List.length_pos_of_ne_nil hne)
  apply List.exists_lt_of_sum_lt
  rw [sum_distance hne, List.map_const', List.sum_replicate, nsmul_zero]
  exact mul_pos hlen h

end Plane

namespace Scalar

theorem larger_eq_max (a b : R) : larger a b = max a b := by
  unfold larger
  split_ifs with h
  · exact (max_eq_right h.le).symm
  · exact (max_eq_left (not_lt.mp h)).symm

theorem le_foldl_larger (l : List R) (a : R) :
    a ≤ l.foldl larger a ∧ ∀ x ∈ l, x ≤ l.foldl larger a := by
  induction l generalizing a with
  | nil => exact ⟨le_rfl, by simp⟩
  | cons b l ih =>
    obtain ⟨hmax, hrest⟩ := ih (max a b)
    rw [List.foldl_cons, larger_eq_max, List.forall_mem_cons]
    exact ⟨(le_max_left a b).trans hmax, (le_max_right a b).trans hmax, hrest⟩

end Scalar

namespace Sphere

variable {s : Sphere R}

def Holds (s : Sphere R) (p : Vec R) : Prop := (p - s.center).norm ≤ s.radius

theorem Holds.radius_nonneg (h : s.Holds p) : 0 ≤ s.radius := (Vec.norm_nonneg _).trans h

theorem Holds.distance_le (h : s.Holds p) (hunit : plane.normal.normSq = 1) :
    plane.distance p ≤ plane.distance s.center + s.radius :=
  (plane.distance_le_add_norm hunit p s.center).trans (add_le_add_right h _)

theorem Holds.le_distance (h : s.Holds p) (hunit : plane.normal.normSq = 1) :
    plane.distance s.center - s.radius ≤ plane.distance p := by
  have hflip : plane.flipped.distance p ≤ plane.flipped.distance s.center + s.radius :=
    h.distance_le ((Plane.normSq_flipped plane).trans hunit)
  rw [Plane.distance_flipped, Plane.distance_flipped] at hflip
  linarith

theorem Holds.hull (h : ∀ v ∈ points, s.Holds v) (hp : p ∈ hull points) : s.Holds p := by
  have hconvex : Convex R {q | s.Holds q} := by
    intro a ha b hb u t hu ht hut
    have hr := Holds.radius_nonneg ha
    have hleft := mul_le_mul_of_nonneg_left ((Vec.norm_le_iff hr).mp ha) hu
    have hright := mul_le_mul_of_nonneg_left ((Vec.norm_le_iff hr).mp hb) ht
    have hbend := mul_nonneg (mul_nonneg hu ht) (a - b).normSq_nonneg
    have hsum : u * (s.radius * s.radius) + t * (s.radius * s.radius) = s.radius * s.radius := by
      rw [← add_mul, hut, one_mul]
    change (u • a + t • b - s.center).norm ≤ s.radius
    rw [Vec.norm_le_iff hr, Vec.normSq_combo hut]
    linarith
  exact convexHull_min h hconvex hp

theorem side_eq_front : s.side plane = .front ↔ s.radius ≤ plane.distance s.center := by
  unfold side
  dsimp only
  split_ifs <;> simp [*]

theorem side_eq_back :
    s.side plane = .back ↔ plane.distance s.center < s.radius ∧ plane.distance s.center ≤ -s.radius := by
  unfold side
  dsimp only
  split_ifs with hfront hback
  · simp [hfront]
  · simp [hback, not_le.mp hfront]
  · simp [hback]

theorem Holds.distance_nonneg (h : s.Holds p) (hunit : plane.normal.normSq = 1)
    (hside : s.side plane = .front) : 0 ≤ plane.distance p :=
  (sub_nonneg.mpr (side_eq_front.mp hside)).trans (h.le_distance hunit)

theorem Holds.distance_nonpos (h : s.Holds p) (hunit : plane.normal.normSq = 1)
    (hside : s.side plane = .back) : plane.distance p ≤ 0 := by
  have hle := h.distance_le hunit
  have hback := (side_eq_back.mp hside).2
  linarith

/-- A sphere that is no mere point is on one side of a plane only. -/
theorem side_flipped_eq_front (hr : 0 < s.radius) : s.side plane.flipped = .front ↔ s.side plane = .back := by
  rw [side_eq_front, side_eq_back, Plane.distance_flipped, le_neg]
  refine ⟨fun h => ⟨?_, h⟩, fun h => h.2⟩
  linarith

theorem side_flipped_eq_back (hr : 0 < s.radius) : s.side plane.flipped = .back ↔ s.side plane = .front := by
  rw [side_eq_front, side_eq_back, Plane.distance_flipped, neg_le_neg_iff]
  refine ⟨fun h => h.2, fun h => ⟨?_, h⟩⟩
  linarith

theorem side_flipped_eq_on (hr : 0 < s.radius) : s.side plane.flipped = .on ↔ s.side plane = .on := by
  have hfront : s.side plane.flipped = .front ↔ s.side plane = .back := side_flipped_eq_front hr
  have hback : s.side plane.flipped = .back ↔ s.side plane = .front := side_flipped_eq_back hr
  cases hflip : s.side plane.flipped <;> cases hside : s.side plane <;> simp_all

structure Around (s : Sphere R) (points : List (Vec R)) : Prop where
  nonempty : points ≠ []
  center : s.center = Vec.centroid points
  radius_pos : 0 < s.radius
  holds : ∀ v ∈ points, s.Holds v

theorem ofPoints_eq (hne : points ≠ []) : ofPoints points = ⟨Vec.centroid points,
    (points.map fun p => (p - Vec.centroid points).norm).foldl Scalar.larger 0⟩ := by
  unfold ofPoints
  split
  · exact absurd rfl hne
  · rfl

/-- The sphere that is worked out for points that span an area holds all of them. -/
theorem around_ofPoints (h : Plane.newell points ≠ 0) : (ofPoints points).Around points := by
  have hne : points ≠ [] := by
    rintro rfl
    exact h rfl
  obtain ⟨hzero, hmax⟩ :=
    Scalar.le_foldl_larger (points.map fun p => (p - Vec.centroid points).norm) 0
  have hholds : ∀ v ∈ points, (ofPoints points).Holds v := by
    intro v hv
    rw [ofPoints_eq hne]
    exact hmax _ (List.mem_map_of_mem hv)
  refine ⟨hne, by rw [ofPoints_eq hne], ?_, hholds⟩
  by_contra! hr
  -- a sphere of no size holds one point only, so the area would be zero
  have hsame : ∀ v ∈ points, v = (ofPoints points).center := by
    intro v hv
    have hzero : (v - (ofPoints points).center).norm = 0 :=
      ((hholds v hv).trans hr).antisymm (Vec.norm_nonneg _)
    apply sub_eq_zero.mp
    apply Vec.eq_zero_of_normSq
    rw [← Vec.norm_mul_self, hzero, mul_zero]
  apply h
  rw [Plane.newell_eq]
  apply List.sum_eq_zero
  intro area harea
  obtain ⟨e, he, rfl⟩ := List.mem_map.mp harea
  obtain ⟨h1, h2⟩ := mem_of_mem_cyclicPairs he
  rw [hsame _ h1, hsame _ h2, Vec.cross_self]

theorem Around.reverse (h : s.Around points) : s.Around points.reverse :=
  ⟨by simpa using h.nonempty, by rw [h.center, Vec.centroid_perm (List.reverse_perm points)], h.radius_pos,
    fun v hv => h.holds v (List.mem_reverse.mp hv)⟩

end Sphere

end Sightline
