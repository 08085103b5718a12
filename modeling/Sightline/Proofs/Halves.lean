import Mathlib.Tactic.Abel
import Sightline.Proofs.Crossing

/-! The two halves of a winding. Cut by a plane and by the same plane turned around, a winding whose outline
crosses the plane twice gives two windings that share the chord between the crossings. Around one half the
chord is run through one way and around the other half the other way, so the vector areas of the halves add
up to that of the whole. -/

namespace Sightline

variable {R : Type} [ExactScalar R] {a b p v : Vec R} {t : R}

namespace Vec

theorem sum_eq (l : List (Vec R)) : sum l = l.sum := List.sum_eq_foldl.symm

theorem centroid_perm {points points' : List (Vec R)} (h : points.Perm points') :
    centroid points = centroid points' := by
  rw [centroid, centroid, sum_eq, sum_eq, h.sum_eq, h.length_eq]

theorem cross_swap (a b : Vec R) : a.cross b + b.cross a = 0 := by
  ext <;> simp only [cross, add_def, zero_def] <;> ring

/-- A point on the way from `a` to `b` divides the area that the way sweeps over. -/
theorem cross_toward (a b : Vec R) (t : R) :
    a.cross (a.toward b t) + (a.toward b t).cross b = a.cross b := by
  ext <;> simp only [cross, toward, add_def] <;> ring

end Vec

namespace Plane

theorem newell_eq (points : List (Vec R)) :
    newell points = ((cyclicPairs points).map fun e => e.1.cross e.2).sum := Vec.sum_eq _

theorem newell_isRotated {points points' : List (Vec R)} (h : points ~r points') :
    newell points = newell points' := by
  rw [newell_eq, newell_eq]
  exact ((cyclicPairs_perm h).map _).sum_eq

/-- What a path sweeps over as seen from the origin. -/
def sweep (path : List (Vec R)) : Vec R := ((steps path).map fun e => e.1.cross e.2).sum

theorem newell_append {x x' y y' : Vec R} {t t' s s' : List (Vec R)} (hfirst : x :: t = t' ++ [x'])
    (hsecond : y :: s = s' ++ [y']) : newell (x :: t ++ y :: s) =
      sweep (x :: t) + (x'.cross y + (sweep (y :: s) + y'.cross x)) := by
  rw [newell_eq, cyclicPairs_append hfirst hsecond]
  simp [sweep]

/-- The chord from `c` to `d` divides a cycle of two paths into two cycles. -/
theorem newell_chord {x x' y y' c d : Vec R} {t t' s s' : List (Vec R)} (hfirst : x :: t = t' ++ [x'])
    (hsecond : y :: s = s' ++ [y']) (hc : x'.cross c + c.cross y = x'.cross y)
    (hd : y'.cross d + d.cross x = y'.cross x) :
    newell (x :: t ++ [c, d]) + newell (y :: s ++ [d, c]) = newell (x :: t ++ y :: s) := by
  have hcd : sweep [c, d] = c.cross d := by simp [sweep, steps]
  have hdc : sweep [d, c] = d.cross c := by simp [sweep, steps]
  have hchord := Vec.cross_swap c d
  rw [newell_append hfirst (show [c, d] = [c] ++ [d] from rfl),
    newell_append hsecond (show [d, c] = [d] ++ [c] from rfl), newell_append hfirst hsecond, hcd, hdc,
    ← hc, ← hd]
  calc sweep (x :: t) + (x'.cross c + (c.cross d + d.cross x)) +
        (sweep (y :: s) + (y'.cross d + (d.cross c + c.cross y)))
    _ = sweep (x :: t) + (x'.cross c + c.cross y + (sweep (y :: s) + (y'.cross d + d.cross x))) +
        (c.cross d + d.cross c) := by abel
    _ = sweep (x :: t) + (x'.cross c + c.cross y + (sweep (y :: s) + (y'.cross d + d.cross x))) := by
      rw [hchord, add_zero]

end Plane

namespace Winding

variable {w : Winding R} {split : Plane R}

/-- Where an edge crosses the plane does not depend on the way the plane faces. -/
theorem crossing_flipped (hunit : split.normal.normSq = 1) (h : (split.side a).Opposite (split.side b)) :
    crossing split.flipped (.of split.flipped a) (.of split.flipped b) =
      crossing split (.of split a) (.of split b) := by
  have hne := distance_ne_of_opposite h
  have hunit' : split.flipped.normal.normSq = 1 := by rw [Plane.normSq_flipped, hunit]
  rw [crossing_eq hunit hne, crossing_eq hunit' (by simpa using hne), Plane.distance_flipped,
    Plane.distance_flipped, neg_sub_neg, ← neg_sub (split.distance a), neg_div_neg_eq]

theorem flatMap_kept_front {path : List (Vec R)} (h : ∀ v ∈ path, split.side v = .front) :
    ((steps path).flatMap fun e => kept split (.of split e.1) (.of split e.2)) = path.dropLast := by
  induction path with
  | nil => rfl
  | cons a path ih =>
    cases path with
    | nil => rfl
    | cons b path =>
      rw [steps_cons_cons, List.flatMap_cons, ih fun v hv => h v (.tail _ hv),
        kept_of_not_back (by simp [h a]) (by simp [h b])]
      rfl

theorem flatMap_kept_back {path : List (Vec R)} (h : ∀ v ∈ path, split.side v = .back) :
    ((steps path).flatMap fun e => kept split (.of split e.1) (.of split e.2)) = [] := by
  induction path with
  | nil => rfl
  | cons a path ih =>
    cases path with
    | nil => rfl
    | cons b path =>
      rw [steps_cons_cons, List.flatMap_cons, ih fun v hv => h v (.tail _ hv),
        kept_of_back_of_back (by simp [h a]) (by simp [h b])]
      rfl

/-- What is kept of a path before the plane that goes on to a path behind it and then comes back. -/
theorem flatMap_kept_append {x x' y y' : Vec R} {t t' s s' : List (Vec R)} (hfirst : x :: t = t' ++ [x'])
    (hsecond : y :: s = s' ++ [y']) (hfront : ∀ v ∈ x :: t, split.side v = .front)
    (hback : ∀ v ∈ y :: s, split.side v = .back) :
    ((cyclicPairs (x :: t ++ y :: s)).flatMap fun e => kept split (.of split e.1) (.of split e.2)) =
      x :: t ++ [crossing split (.of split x') (.of split y), crossing split (.of split y') (.of split x)] := by
  have hx' : x' ∈ x :: t := by simp [hfirst]
  have hy' : y' ∈ y :: s := by simp [hsecond]
  rw [cyclicPairs_append hfirst hsecond, List.flatMap_append, List.flatMap_cons, List.flatMap_append,
    flatMap_kept_front hfront, flatMap_kept_back hback, List.flatMap_singleton,
    kept_of_front_of_back (hfront _ hx') (hback _ (.head _)),
    kept_of_back_of_front (hback _ hy') (hfront _ (.head _)), hfirst, List.dropLast_concat]
  simp

/-- The outline of the part in front, if the winding is a path before the plane and a path behind it. -/
theorem frontOutline_isRotated {x x' y y' : Vec R} {t t' s s' : List (Vec R)}
    (hrot : w.points ~r x :: t ++ y :: s) (hfirst : x :: t = t' ++ [x']) (hsecond : y :: s = s' ++ [y'])
    (hfront : ∀ v ∈ x :: t, split.side v = .front) (hback : ∀ v ∈ y :: s, split.side v = .back) :
    w.frontOutline split ~r
      x :: t ++ [crossing split (.of split x') (.of split y), crossing split (.of split y') (.of split x)] := by
  have hpairs : cyclicPairs w.points ~r cyclicPairs (x :: t ++ y :: s) := by
    obtain ⟨n, hn⟩ := hrot
    exact ⟨n, by rw [← hn, cyclicPairs_rotate]⟩
  rw [frontOutline_eq, ← flatMap_kept_append hfirst hsecond hfront hback]
  exact isRotated_flatMap hpairs _

theorem countOn_flipped_front (w : Winding R) (split : Plane R) :
    w.countOn split.flipped .front = w.countOn split .back := by
  simp only [countOn, Plane.side_flipped_eq_front]

theorem countOn_flipped_back (w : Winding R) (split : Plane R) :
    w.countOn split.flipped .back = w.countOn split .front := by
  simp only [countOn, Plane.side_flipped_eq_back]

theorem cross_crossing (hunit : split.normal.normSq = 1) (h : (split.side a).Opposite (split.side b)) :
    a.cross (crossing split (.of split a) (.of split b)) +
      (crossing split (.of split a) (.of split b)).cross b = a.cross b := by
  obtain ⟨t, -, -, heq, -⟩ := exists_crossing hunit h
  rw [heq, Vec.cross_toward]

theorem side_ne_on (hon : w.countOn split .on = 0) (hv : v ∈ w.points) : split.side v ≠ .on := by
  rw [countOn, List.countP_eq_zero] at hon
  simpa using hon v hv

theorem changes_eq_countAcross (hon : w.countOn split .on = 0) :
    changes (fun v => decide (split.side v = .front)) (cyclicPairs w.points) = w.countAcross split := by
  apply List.countP_congr
  intro e he
  obtain ⟨h1, h2⟩ := mem_of_mem_cyclicPairs he
  have hside1 := side_ne_on hon h1
  have hside2 := side_ne_on hon h2
  cases hs1 : split.side e.1 <;> cases hs2 : split.side e.2 <;> simp_all [Side.Opposite]

/-- Where no corner lies on the plane and two edges lead across it, both the plane and the plane turned around
leave a winding, and the vector areas of these add up to that of the whole. -/
theorem halves_newell (hunit : split.normal.normSq = 1) (hon : w.countOn split .on = 0)
    (hacross : w.countAcross split = 2) (keepOn : Bool) :
    ∃ front back, w.front? split keepOn = some front ∧ w.front? split.flipped keepOn = some back ∧
      Plane.newell front.points + Plane.newell back.points = Plane.newell w.points := by
  obtain ⟨x, t, y, s, hrot, hbefore, hafter⟩ :=
    exists_halves ((changes_eq_countAcross hon).trans hacross)
  have hmem (v : Vec R) (hv : v ∈ x :: t ++ y :: s) : v ∈ w.points := hrot.mem_iff.mpr hv
  have hfront (v : Vec R) (hv : v ∈ x :: t) : split.side v = .front := of_decide_eq_true (hbefore v hv)
  have hback (v : Vec R) (hv : v ∈ y :: s) : split.side v = .back := by
    have hnot := of_decide_eq_false (hafter v hv)
    have hne := side_ne_on hon (hmem v (List.mem_append_right _ hv))
    cases hv : split.side v <;> simp_all
  obtain ⟨t', x', hfirst⟩ : ∃ t' x', x :: t = t' ++ [x'] :=
    ⟨_, _, (List.dropLast_concat_getLast (List.cons_ne_nil x t)).symm⟩
  obtain ⟨s', y', hsecond⟩ : ∃ s' y', y :: s = s' ++ [y'] :=
    ⟨_, _, (List.dropLast_concat_getLast (List.cons_ne_nil y s)).symm⟩
  have hfall : (split.side x').Opposite (split.side y) :=
    .inl ⟨hfront x' (by simp [hfirst]), hback y (.head _)⟩
  have hrise : (split.side y').Opposite (split.side x) :=
    .inr ⟨hback y' (by simp [hsecond]), hfront x (.head _)⟩
  have hleft := frontOutline_isRotated hrot hfirst hsecond hfront hback
  -- turned around, the plane keeps the second path, with the same crossings
  have hfront' : ∀ v ∈ y :: s, split.flipped.side v = .front :=
    fun v hv => Plane.side_flipped_eq_front.mpr (hback v hv)
  have hback' : ∀ v ∈ x :: t, split.flipped.side v = .back :=
    fun v hv => Plane.side_flipped_eq_back.mpr (hfront v hv)
  have hright := frontOutline_isRotated (hrot.trans List.isRotated_append) hsecond hfirst hfront' hback'
  rw [crossing_flipped hunit hfall, crossing_flipped hunit hrise] at hright
  have hfronts : 0 < w.countOn split .front :=
    List.countP_pos_iff.mpr ⟨x, hmem x (by simp), decide_eq_true (hfront x (.head _))⟩
  have hbacks : 0 < w.countOn split .back :=
    List.countP_pos_iff.mpr ⟨y, hmem y (by simp), decide_eq_true (hback y (.head _))⟩
  refine ⟨_, _, front?_of_both hfronts hbacks, front?_of_both (by rwa [countOn_flipped_front])
    (by rwa [countOn_flipped_back]), ?_⟩
  rw [Plane.newell_isRotated hleft, Plane.newell_isRotated hright, Plane.newell_isRotated hrot]
  exact Plane.newell_chord hfirst hsecond (cross_crossing hunit hfall) (cross_crossing hunit hrise)

/-- Six corners that are not in one plane. The first and the last two lie before the plane `westward`. -/
def warped : Winding ℚ :=
  ⟨[⟨0, 0, 0⟩, ⟨4, 0, 1⟩, ⟨5, 3, 0⟩, ⟨3, 5, 2⟩, ⟨1, 6, 0⟩, ⟨-1, 3, 1⟩], true⟩

def westward : Plane ℚ := ⟨⟨-1, 0, 0⟩, -2⟩

theorem warped_halves : westward.normal.normSq = 1 ∧ warped.countOn westward .on = 0 ∧
    warped.countAcross westward = 2 ∧ ∃ front back, warped.front? westward false = some front ∧
      warped.front? westward.flipped false = some back ∧
      Plane.newell front.points + Plane.newell back.points = Plane.newell warped.points := by
  have hunit : westward.normal.normSq = 1 := by decide +kernel
  have hon : warped.countOn westward .on = 0 := by decide +kernel
  have hacross : warped.countAcross westward = 2 := by decide +kernel
  exact ⟨hunit, hon, hacross, halves_newell hunit hon hacross false⟩

end Winding

end Sightline
