import Mathlib.Analysis.Real.Sqrt
import Sightline.Proofs.Enclosure

/-! The shortcut of a cut by many planes. A sphere that holds a winding holds what the cuts leave of it, so
what the sphere settles stays settled however much was cut off in between. A cut by a plane with the sphere
before it would change nothing, and a cut by a plane with the sphere behind it would leave nothing. A winding
so close before a plane that it counts as on the plane is lost to the cut, but not to the sphere. -/

namespace Sightline

section Within

variable {R : Type} [ExactScalar R] {points points' : List (Vec R)} {split : Plane R} {w left : Winding R}
  {keepOn : Bool} {a b v : Vec R} {t : R}

theorem hull_subset (h : ∀ v ∈ points', v ∈ hull points) : hull points' ⊆ hull points :=
  convexHull_min h (convex_convexHull R _)

theorem toward_mem_hull (ha : a ∈ hull points) (hb : b ∈ hull points) (h0 : 0 ≤ t) (h1 : t ≤ 1) :
    a.toward b t ∈ hull points := by
  have hcombo : a.toward b t = (1 - t) • a + t • b := by
    ext <;> simp only [Vec.toward, Vec.smul_def, Vec.add_def] <;> ring
  rw [hcombo]
  exact convex_convexHull R _ ha hb (sub_nonneg.mpr h1) h0 (sub_add_cancel 1 t)

namespace Winding

theorem mem_hull_of_front? (hunit : split.normal.normSq = 1) (h : w.front? split keepOn = some left)
    (hv : v ∈ left.points) : v ∈ hull w.points := by
  obtain ⟨rfl, -⟩ | ⟨rfl, -⟩ := front?_cases h
  · exact mem_hull hv
  · obtain ⟨i, hcorner | hedge⟩ := mem_frontOutline.mp hv
    · exact mem_hull (List.mem_of_getElem? (inFront?_corner.mp hcorner).1)
    · obtain ⟨a, b, ha, hb, hopposite, rfl⟩ := inFront?_edge.mp hedge
      obtain ⟨t, h0, h1, heq, -⟩ := exists_crossing hunit hopposite
      rw [heq]
      apply toward_mem_hull _ _ h0.le h1.le
      · exact mem_hull (List.mem_of_getElem? ha)
      · exact mem_hull (List.mem_of_getElem? hb)

theorem neg_thickness_le_of_front? (hunit : split.normal.normSq = 1) (h : w.front? split keepOn = some left)
    (hv : v ∈ left.points) : -Scalar.thickness ≤ split.distance v := by
  obtain ⟨rfl, hback⟩ | ⟨rfl, -⟩ := front?_cases h
  · rw [countOn, List.countP_eq_zero] at hback
    have hside := hback v hv
    rwa [decide_eq_true_iff, Plane.side_eq_back, not_lt] at hside
  · exact neg_thickness_le hunit hv

theorem eq_of_front? (hw : ∀ v ∈ w.points, 0 ≤ split.distance v) (h : w.front? split keepOn = some left) :
    left = w := by
  obtain ⟨rfl, -⟩ | ⟨-, -, hback⟩ := front?_cases h
  · rfl
  · obtain ⟨v, hv, hside⟩ := List.countP_pos_iff.mp hback
    exact absurd (hw v hv) (Plane.distance_neg_of_back (of_decide_eq_true hside)).not_ge

theorem front?_none_of_nonpos (hw : ∀ v ∈ w.points, split.distance v ≤ 0) : w.front? split false = none := by
  have hfront : w.countOn split .front = 0 := by
    rw [countOn, List.countP_eq_zero]
    intro v hv hside
    exact (hw v hv).not_gt (Plane.distance_pos_of_front (of_decide_eq_true hside))
  rw [front?, cut_eq_gone.mpr ⟨hfront, .inr rfl⟩]
  rfl

end Winding

end Within

namespace Winding

section Plain

variable {R : Type} [Scalar R] {planes : List (Plane R)} {plane : Plane R} {w : Winding R}

/-- Cuts by one plane after another, whatever a sphere would say. -/
def cutAll (planes : List (Plane R)) (w : Winding R) : Option (Winding R) :=
  planes.foldlM (fun w plane => w.front? plane false) w

theorem cutAll_cons : w.cutAll (plane :: planes) = (w.front? plane false).bind (cutAll planes) := rfl

end Plain

variable {R : Type} [RootedScalar R] {planes : List (Plane R)} {plane : Plane R} {sphere : Sphere R}
  {w left : Winding R} {v : Vec R}

theorem holds_of_front? (hunit : plane.normal.normSq = 1) (hw : ∀ v ∈ w.points, sphere.Holds v)
    (h : w.front? plane false = some left) : ∀ v ∈ left.points, sphere.Holds v :=
  fun _ hv => .hull hw (mem_hull_of_front? hunit h hv)

theorem mem_hull_of_clipAll (hunit : ∀ plane ∈ planes, plane.normal.normSq = 1)
    (h : w.clipAll sphere planes = some left) (hv : v ∈ left.points) : v ∈ hull w.points := by
  induction planes generalizing w with
  | nil =>
    cases h
    exact mem_hull hv
  | cons plane planes ih =>
    obtain ⟨hplane, hplanes⟩ := List.forall_mem_cons.mp hunit
    rcases clipAll_cons_eq_some.mp h with ⟨-, hrest⟩ | ⟨-, next, hnext, hrest⟩
    · exact ih hplanes hrest
    · exact hull_subset (fun u hu => mem_hull_of_front? hplane hnext hu) (ih hplanes hrest)

/-- What is before a plane, settled or cut there, is not behind it after more cuts. -/
theorem neg_thickness_le_of_clipAll (hunit : ∀ plane ∈ planes, plane.normal.normSq = 1)
    (hw : ∀ v ∈ w.points, sphere.Holds v) (h : w.clipAll sphere planes = some left)
    (hplane : plane ∈ planes) (hv : v ∈ left.points) : -Scalar.thickness ≤ plane.distance v := by
  induction planes generalizing w with
  | nil => cases hplane
  | cons first planes ih =>
    obtain ⟨hfirst, hplanes⟩ := List.forall_mem_cons.mp hunit
    rcases clipAll_cons_eq_some.mp h with ⟨hside, hrest⟩ | ⟨-, next, hnext, hrest⟩
    · rcases List.mem_cons.mp hplane with rfl | hlater
      · have hpos : ∀ u ∈ w.points, 0 ≤ plane.distance u := fun u hu => (hw u hu).distance_nonneg hfirst hside
        have hthick := Scalar.thickness_pos (R := R)
        exact (neg_nonpos.mpr hthick.le).trans
          (Plane.le_distance_of_hull hpos (mem_hull_of_clipAll hplanes hrest hv))
      · exact ih hplanes hw hrest hlater
    · rcases List.mem_cons.mp hplane with rfl | hlater
      · exact Plane.le_distance_of_hull (fun u hu => neg_thickness_le_of_front? hfirst hnext hu)
          (mem_hull_of_clipAll hplanes hrest hv)
      · exact ih hplanes (holds_of_front? hfirst hw hnext) hrest hlater

/-- Only the planes with the sphere before them are left out. -/
theorem clipAll_eq_cutAll (hunit : ∀ plane ∈ planes, plane.normal.normSq = 1)
    (hw : ∀ v ∈ w.points, sphere.Holds v) :
    w.clipAll sphere planes = w.cutAll (planes.filter (sphere.side · ≠ .front)) := by
  induction planes generalizing w with
  | nil => rfl
  | cons plane planes ih =>
    obtain ⟨hplane, hplanes⟩ := List.forall_mem_cons.mp hunit
    rw [clipAll, List.filter_cons]
    cases hside : sphere.side plane with
    | front => exact ih hplanes hw
    | back =>
      have hnone := front?_none_of_nonpos fun v hv => (hw v hv).distance_nonpos hplane hside
      simp only [ne_eq, reduceCtorEq, not_false_eq_true, decide_true, if_true, cutAll_cons, hnone,
        Option.bind_none]
    | on =>
      simp only [ne_eq, reduceCtorEq, not_false_eq_true, decide_true, if_true, cutAll_cons]
      apply Option.bind_congr
      intro next hnext
      exact ih hplanes (holds_of_front? hplane hw hnext)

theorem clipAll_of_cutAll (hunit : ∀ plane ∈ planes, plane.normal.normSq = 1)
    (hw : ∀ v ∈ w.points, sphere.Holds v) (h : w.cutAll planes = some left) :
    w.clipAll sphere planes = some left := by
  induction planes generalizing w with
  | nil => exact h
  | cons plane planes ih =>
    obtain ⟨hplane, hplanes⟩ := List.forall_mem_cons.mp hunit
    rw [cutAll_cons] at h
    obtain ⟨next, hnext, hrest⟩ := Option.bind_eq_some_iff.mp h
    have hleft := ih hplanes (holds_of_front? hplane hw hnext) hrest
    apply clipAll_cons_eq_some.mpr
    cases hside : sphere.side plane with
    | front =>
      obtain rfl := eq_of_front? (fun v hv => (hw v hv).distance_nonneg hplane hside) hnext
      exact .inl ⟨rfl, hleft⟩
    | back =>
      rw [front?_none_of_nonpos fun v hv => (hw v hv).distance_nonpos hplane hside] at hnext
      cases hnext
    | on => exact .inr ⟨rfl, next, hnext, hleft⟩

/-- Whatever a cut by all planes leaves, the cut with the sphere leaves the same. No point that this leaves is
behind one of the planes. It is a cut by those planes that do not have the sphere before them. -/
theorem shortcut_loses_nothing (hunit : ∀ plane ∈ planes, plane.normal.normSq = 1)
    (hw : ∀ v ∈ w.points, sphere.Holds v) (role : Role) :
    (∀ left, w.cutAll planes = some left → (cutByAll role sphere planes w).1 = some left) ∧
    (∀ left, (cutByAll role sphere planes w).1 = some left →
      ∀ plane ∈ planes, ∀ v ∈ left.points, plane.side v ≠ .back) ∧
    (cutByAll role sphere planes w).1 = w.cutAll (planes.filter (sphere.side · ≠ .front)) := by
  rw [fst_cutByAll]
  refine ⟨fun left => clipAll_of_cutAll hunit hw, fun left h plane hplane v hv => ?_,
    clipAll_eq_cutAll hunit hw⟩
  rw [Ne, Plane.side_eq_back, not_lt]
  exact neg_thickness_le_of_clipAll hunit hw h hplane hv

def square : Winding ℝ := ⟨[⟨-2, -2, 0⟩, ⟨2, -2, 0⟩, ⟨2, 2, 0⟩, ⟨-2, 2, 0⟩], true⟩

def ball : Sphere ℝ := ⟨⟨0, 0, 0⟩, 9⟩

def beneath : Plane ℝ := ⟨⟨0, 0, 1⟩, -9⟩

/-- A triangle close above the ground, and a sphere around it that is closer yet. -/
noncomputable def flake : Winding ℝ := ⟨[⟨0, 0, 1 / 20⟩, ⟨1 / 50, 0, 1 / 20⟩, ⟨0, 1 / 50, 1 / 20⟩], false⟩

noncomputable def bead : Sphere ℝ := ⟨⟨0, 0, 1 / 20⟩, 1 / 50⟩

def ground : Plane ℝ := ⟨⟨0, 0, 1⟩, 0⟩

theorem square_held : ∀ v ∈ square.points, ball.Holds v := by
  simp only [square, List.forall_mem_cons, Sphere.Holds, ball,
    Vec.norm_le_iff (show (0 : ℝ) ≤ 9 by norm_num), Vec.normSq, Vec.dot, Vec.sub_def]
  norm_num

theorem flake_held : ∀ v ∈ flake.points, bead.Holds v := by
  simp only [flake, List.forall_mem_cons, Sphere.Holds, bead,
    Vec.norm_le_iff (show (0 : ℝ) ≤ 1 / 50 by norm_num), Vec.normSq, Vec.dot, Vec.sub_def]
  norm_num

theorem square_cutAll : ∃ left, square.cutAll [beneath, slanted] = some left := by
  have hthick : (Scalar.thickness : ℝ) = 1 / 10 := by norm_num [Scalar.thickness]
  have hwhole : square.front? beneath false = some square := by
    apply front?_eq_some.mpr
    refine .inl (cut_eq_whole.mpr ⟨rfl, ?_, .inl ?_⟩)
    · norm_num [square, countOn, Plane.side_eq_back, beneath, Plane.distance, Vec.dot, hthick]
    · norm_num [square, countOn, Plane.side_eq_front, beneath, Plane.distance, Vec.dot, hthick]
  have hfront : 0 < square.countOn slanted .front := by
    norm_num [square, countOn, Plane.side_eq_front, slanted_distance, hthick]
  have hback : 0 < square.countOn slanted .back := by
    norm_num [square, countOn, Plane.side_eq_back, slanted_distance, hthick]
  rw [cutAll_cons, hwhole, Option.bind_some, cutAll_cons, front?_of_both hfront hback]
  exact ⟨_, rfl⟩

/-- The sphere around the square settles one of two planes. The flake is all on the plane it is cut by, and yet
it is left where its sphere is before the plane. -/
theorem square_shortcut : (∃ left, square.cutAll [beneath, slanted] = some left ∧
      (cutByAll .target ball [beneath, slanted] square).1 = some left ∧
      ∀ v ∈ left.points, slanted.side v ≠ .back) ∧
    flake.cutAll [ground] = none ∧ (cutByAll .source bead [ground] flake).1 = some flake := by
  have hunits : ∀ plane ∈ [beneath, slanted], plane.normal.normSq = 1 := by
    norm_num [beneath, slanted, Vec.normSq, Vec.dot]
  have hunit : ∀ plane ∈ [ground], plane.normal.normSq = 1 := by
    norm_num [ground, Vec.normSq, Vec.dot]
  obtain ⟨left, hleft⟩ := square_cutAll
  obtain ⟨hsame, hbefore, -⟩ := shortcut_loses_nothing hunits square_held .target
  obtain ⟨-, -, hmet⟩ := shortcut_loses_nothing hunit flake_held .source
  refine ⟨⟨left, hleft, hsame left hleft, hbefore left (hsame left hleft) slanted (by simp)⟩, ?_, ?_⟩
  · have hfront : flake.countOn ground .front = 0 := by
      norm_num [flake, countOn, Plane.side_eq_front, ground, Plane.distance, Vec.dot, Scalar.thickness]
    rw [cutAll_cons, front?, cut_eq_gone.mpr ⟨hfront, .inr rfl⟩]
    rfl
  · have hside : bead.side ground = .front := by
      norm_num [Sphere.side_eq_front, bead, ground, Plane.distance, Vec.dot]
    rw [hmet]
    simp [hside, cutAll]

end Winding

end Sightline
