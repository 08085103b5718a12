import Sightline.Proofs.ExactScalar
import Sightline.Proofs.Outline

/-! Cuts without rounding. A crossing lies exactly on the plane and between the ends of its edge, so what is
left lies nowhere behind the plane, still covers all of the outline that was clearly before it, and is not
cut any further by the same plane. -/

namespace Sightline

variable {R : Type} [ExactScalar R] {split : Plane R} {a b p : Vec R}

namespace Winding

/-- A unit normal that reaches the unit along one axis has no other component. -/
theorem eq_zero_of_axis {x y z : R} (hunit : x * x + y * y + z * z = 1) (hx : x = 1 ∨ x = -1) :
    y = 0 ∧ z = 0 := by
  have hsq : x * x = 1 := by rcases hx with rfl | rfl <;> ring
  have hy := mul_self_nonneg y
  have hz := mul_self_nonneg z
  exact ⟨mul_self_eq_zero.mp (by linarith), mul_self_eq_zero.mp (by linarith)⟩

theorem crossingCoord_eq {normal dist a b da db : R} (hne : da ≠ db)
    (haxis : normal = 1 ∨ normal = -1 → da = normal * a - dist ∧ db = normal * b - dist) :
    crossingCoord normal dist (da / (da - db)) a b = a + da / (da - db) * (b - a) := by
  have hsub : da - db ≠ 0 := sub_ne_zero.mpr hne
  unfold crossingCoord
  split_ifs with hpos hneg
  · have hone := Scalar.same_iff.mp hpos
    obtain ⟨ha, hb⟩ := haxis (.inl hone)
    field_simp
    rw [ha, hb, hone]
    ring
  · have hone := Scalar.same_iff.mp hneg
    obtain ⟨ha, hb⟩ := haxis (.inr hone)
    field_simp
    rw [ha, hb, hone]
    ring
  · rfl

/-- The crossing divides the edge in the ratio of the distances, also where it is not computed so. -/
theorem crossing_eq (hunit : split.normal.normSq = 1) (hne : split.distance a ≠ split.distance b) :
    crossing split (.of split a) (.of split b) =
      a.toward b (split.distance a / (split.distance a - split.distance b)) := by
  obtain ⟨⟨x, y, z⟩, dist⟩ := split
  have hx : x * x + y * y + z * z = 1 := hunit
  have hy : y * y + x * x + z * z = 1 := by rw [← hx, add_comm (x * x)]
  have hz : z * z + x * x + y * y = 1 := by rw [← hx, add_assoc, add_comm]
  have hdist (p : Vec R) : (Corner.of ⟨⟨x, y, z⟩, dist⟩ p).distance =
    x * (Corner.of ⟨⟨x, y, z⟩, dist⟩ p).point.x + y * (Corner.of ⟨⟨x, y, z⟩, dist⟩ p).point.y +
      z * (Corner.of ⟨⟨x, y, z⟩, dist⟩ p).point.z - dist := rfl
  ext
  · refine crossingCoord_eq hne fun haxis => ?_
    obtain ⟨rfl, rfl⟩ := eq_zero_of_axis hx haxis
    constructor <;> rw [hdist] <;> ring
  · refine crossingCoord_eq hne fun haxis => ?_
    obtain ⟨rfl, rfl⟩ := eq_zero_of_axis hy haxis
    constructor <;> rw [hdist] <;> ring
  · refine crossingCoord_eq hne fun haxis => ?_
    obtain ⟨rfl, rfl⟩ := eq_zero_of_axis hz haxis
    constructor <;> rw [hdist] <;> ring

/-- The share of the way to a point on the other side after which the plane is reached. -/
theorem share_between {da db : R} (h : 0 < da ∧ db < 0 ∨ da < 0 ∧ 0 < db) :
    0 < da / (da - db) ∧ da / (da - db) < 1 := by
  rcases h with ⟨ha, hb⟩ | ⟨ha, hb⟩
  · have hpos : 0 < da - db := by linarith
    exact ⟨div_pos ha hpos, (div_lt_one hpos).mpr (by linarith)⟩
  · have hneg : da - db < 0 := by linarith
    exact ⟨div_pos_of_neg_of_neg ha hneg, (div_lt_one_of_neg hneg).mpr (by linarith)⟩

theorem distances_of_opposite (h : (split.side a).Opposite (split.side b)) :
    0 < split.distance a ∧ split.distance b < 0 ∨ split.distance a < 0 ∧ 0 < split.distance b := by
  rcases h with ⟨ha, hb⟩ | ⟨ha, hb⟩
  · exact .inl ⟨Plane.distance_pos_of_front ha, Plane.distance_neg_of_back hb⟩
  · exact .inr ⟨Plane.distance_neg_of_back ha, Plane.distance_pos_of_front hb⟩

theorem distance_ne_of_opposite (h : (split.side a).Opposite (split.side b)) :
    split.distance a ≠ split.distance b := by
  intro heq
  have hd := distances_of_opposite h
  rw [heq] at hd
  rcases hd with hd | hd <;> exact absurd hd.1 hd.2.le.not_gt

/-- A crossing lies on the plane and between the ends of its edge. -/
theorem exists_crossing (hunit : split.normal.normSq = 1)
    (h : (split.side a).Opposite (split.side b)) : ∃ t, 0 < t ∧ t < 1 ∧
      crossing split (.of split a) (.of split b) = a.toward b t ∧ split.distance (a.toward b t) = 0 := by
  have hne := distance_ne_of_opposite h
  obtain ⟨hpos, hlt⟩ := share_between (distances_of_opposite h)
  refine ⟨_, hpos, hlt, crossing_eq hunit hne, ?_⟩
  have hsub : split.distance a - split.distance b ≠ 0 := sub_ne_zero.mpr hne
  rw [Plane.distance_toward]
  field_simp
  ring

/-- On an edge that comes to the front, what lies before the plane is left from the crossing on. -/
theorem onSegment_crossing_right (hunit : split.normal.normSq = 1) (ha : split.side a = .back)
    (hb : split.side b = .front) (hp : a.OnSegment b p) (hpos : 0 < split.distance p) :
    (crossing split (.of split a) (.of split b)).OnSegment b p := by
  obtain ⟨u, -, hu1, hcross, hzero⟩ := exists_crossing hunit (.inr ⟨ha, hb⟩)
  obtain ⟨t, -, ht1, rfl⟩ := hp
  have hgrow := (Plane.distance_neg_of_back ha).trans (Plane.distance_pos_of_front hb)
  rw [hcross]
  exact Vec.onSegment_right (Plane.lt_of_distance_lt hgrow (by rwa [hzero])).le ht1 hu1

/-- On an edge that goes to the back, what lies before the plane is left up to the crossing. -/
theorem onSegment_crossing_left (hunit : split.normal.normSq = 1) (ha : split.side a = .front)
    (hb : split.side b = .back) (hp : a.OnSegment b p) (hpos : 0 < split.distance p) :
    a.OnSegment (crossing split (.of split a) (.of split b)) p := by
  obtain ⟨u, hu0, -, hcross, hzero⟩ := exists_crossing hunit (.inl ⟨ha, hb⟩)
  obtain ⟨t, ht0, -, rfl⟩ := hp
  have hfall := (Plane.distance_neg_of_back hb).trans (Plane.distance_pos_of_front ha)
  rw [hcross]
  exact Vec.onSegment_left ht0 (Plane.gt_of_distance_lt hfall (by rwa [hzero])).le hu0

/-- What lies clearly before the plane on an edge is on an edge of what is left. -/
theorem exists_edge_of_onSegment {w : Winding R} (hunit : split.normal.normSq = 1)
    (hedge : (a, b) ∈ cyclicPairs w.points) (hp : a.OnSegment b p)
    (hfar : Scalar.thickness < split.distance p) :
    ∃ e ∈ cyclicPairs (w.frontOutline split), e.1.OnSegment e.2 p := by
  obtain ⟨c, hnext⟩ := exists_next_pair hedge
  have hpos : 0 < split.distance p := Scalar.thickness_pos.trans hfar
  have hend : split.side a = .front ∨ split.side b = .front := by
    rw [Plane.side_eq_front, Plane.side_eq_front]
    by_contra! hnear
    exact hfar.not_ge (Plane.distance_le_of_onSegment hp hnear.1 hnear.2)
  rw [frontOutline_eq]
  by_cases ha : split.side a = .back
  · -- the edge comes to the front, so it is left from the crossing on
    have hb : split.side b = .front := hend.resolve_left (by rw [ha]; simp)
    refine ⟨_, mem_cyclicPairs_flatMap_next hnext ?_ (head?_kept (by rw [hb]; simp) c),
      onSegment_crossing_right hunit ha hb hp hpos⟩
    rw [kept_of_back_of_front ha hb]
    rfl
  · by_cases hb : split.side b = .back
    · -- the edge goes to the back, so it is left up to the crossing
      have ha : split.side a = .front := hend.resolve_right (by rw [hb]; simp)
      exact ⟨_, mem_cyclicPairs_flatMap hedge (kept_of_front_of_back ha hb),
        onSegment_crossing_left hunit ha hb hp hpos⟩
    · -- no part of the edge is behind the plane, so all of it is left
      refine ⟨_, mem_cyclicPairs_flatMap_next hnext ?_ (head?_kept hb c), hp⟩
      rw [kept_of_not_back ha hb]
      rfl

theorem neg_thickness_le {w : Winding R} (hunit : split.normal.normSq = 1) {v : Vec R}
    (hv : v ∈ w.frontOutline split) : -Scalar.thickness ≤ split.distance v := by
  obtain ⟨i, hi | hi⟩ := mem_frontOutline.mp hv
  · rw [inFront?_corner, Ne, Plane.side_eq_back, not_lt] at hi
    exact hi.2
  · obtain ⟨a, b, -, -, hopposite, rfl⟩ := inFront?_edge.mp hi
    obtain ⟨t, -, -, heq, hzero⟩ := exists_crossing hunit hopposite
    rw [heq, hzero]
    exact neg_nonpos.mpr Scalar.thickness_pos.le

theorem cut_frontOutline {w : Winding R} (hunit : split.normal.normSq = 1)
    (hfront : 0 < w.countOn split .front) (keepOn : Bool) :
    cut ⟨w.frontOutline split, false⟩ split keepOn = .whole ⟨w.frontOutline split, false⟩ := by
  have hnone : countOn ⟨w.frontOutline split, false⟩ split .back = 0 := by
    rw [countOn, List.countP_eq_zero]
    intro v hv
    rw [decide_eq_true_iff, Plane.side_eq_back, not_lt]
    exact neg_thickness_le hunit hv
  have hsome : 0 < countOn ⟨w.frontOutline split, false⟩ split .front := by
    obtain ⟨v, hv, hside⟩ := List.countP_pos_iff.mp hfront
    obtain ⟨i, hi⟩ := List.mem_iff_getElem?.mp hv
    have hside := of_decide_eq_true hside
    refine List.countP_pos_iff.mpr ⟨v, mem_frontOutline.mpr ⟨i, .inl ?_⟩, decide_eq_true hside⟩
    exact inFront?_corner.mpr ⟨hi, by rw [hside]; simp⟩
  rw [cut_eq, if_pos ⟨hnone, .inl hsome⟩]

/-- Cut by a plane with a unit normal, a winding gets a new point just for each edge that leads across, on the
plane and inside that edge. No point of what is left lies behind the plane, its edges cover what lay clearly
before the plane on the edges of the winding, and the same plane cuts no more of it. -/
theorem cut_without_rounding {w left : Winding R} {keepOn : Bool} (hunit : split.normal.normSq = 1)
    (hcut : w.cut split keepOn = .trimmed left) :
    left.points = (outline w.points.length).filterMap (w.inFront? split) ∧
    (∀ i v, w.inFront? split (.edge i) = some v → split.distance v = 0 ∧
      ∃ a b, w.points[i]? = some a ∧ w.points[(i + 1) % w.points.length]? = some b ∧ a.Between b v) ∧
    (∀ v ∈ left.points, -Scalar.thickness ≤ split.distance v) ∧
    (∀ e ∈ cyclicPairs w.points, ∀ p, e.1.OnSegment e.2 p → Scalar.thickness < split.distance p →
      ∃ e' ∈ cyclicPairs left.points, e'.1.OnSegment e'.2 p) ∧
    ∀ again, left.cut split again = .whole left := by
  obtain ⟨rfl, hfront, -⟩ := cut_eq_trimmed.mp hcut
  refine ⟨rfl, fun i v hv => ?_, fun v => neg_thickness_le hunit, fun e he p => ?_,
    cut_frontOutline hunit hfront⟩
  · obtain ⟨a, b, ha, hb, hopposite, rfl⟩ := inFront?_edge.mp hv
    obtain ⟨t, ht0, ht1, heq, hzero⟩ := exists_crossing hunit hopposite
    exact ⟨by rw [heq, hzero], a, b, ha, hb, t, ht0, ht1, heq⟩
  · exact exists_edge_of_onSegment hunit he

/-- A square with a corner behind the plane `tilted`, and a fifth corner close before it. -/
def bevelled : Winding ℚ := ⟨[⟨0, 0, 0⟩, ⟨17 / 10, 0, 0⟩, ⟨4, 0, 0⟩, ⟨4, 4, 0⟩, ⟨0, 4, 0⟩], true⟩

def tilted : Plane ℚ := ⟨⟨3 / 5, 4 / 5, 0⟩, 1⟩

/-- The edge back to the first corner is crossed at a height of `5 / 4`; on the other side the fifth corner
stands for the crossing. -/
theorem bevelled_cut : tilted.normal.normSq = 1 ∧ ∃ left, bevelled.cut tilted false = .trimmed left ∧
    left.points = [⟨17 / 10, 0, 0⟩, ⟨4, 0, 0⟩, ⟨4, 4, 0⟩, ⟨0, 4, 0⟩, ⟨0, 5 / 4, 0⟩] ∧
    tilted.distance ⟨0, 5 / 4, 0⟩ = 0 ∧ left.cut tilted true = .whole left := by
  have hunit : tilted.normal.normSq = 1 := by decide +kernel
  have hboth : 0 < bevelled.countOn tilted .front ∧ 0 < bevelled.countOn tilted .back := by
    decide +kernel
  have hcut : bevelled.cut tilted false = .trimmed ⟨bevelled.frontOutline tilted, false⟩ :=
    cut_eq_trimmed.mpr ⟨rfl, hboth⟩
  obtain ⟨hpoints, hnew, -, -, hagain⟩ := cut_without_rounding hunit hcut
  refine ⟨hunit, _, hcut, ?_, ?_, hagain true⟩
  · rw [hpoints]
    decide +kernel
  · exact (hnew 4 _ (by decide +kernel)).1

end Winding

end Sightline
