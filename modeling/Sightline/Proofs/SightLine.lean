import Mathlib.Analysis.Convex.Hull
import Mathlib.Analysis.Real.Sqrt
import Sightline.Proofs.Narrowing
import Sightline.Proofs.Outline
import Sightline.Proofs.Separation

/-! Sight lines and the planes between two polygons. If the first polygon is nowhere before a plane and the
second nowhere behind it, sight that goes from the one through the other stays before the plane. A corner may
be on the wrong side by less than the thickness of the plane. Sight carries this on in proportion to the way,
so a point that is far enough away is hidden though it can be seen. -/

namespace Sightline

section Straight

variable {R : Type} [ExactScalar R] {plane : Plane R} {near far points : List (Vec R)} {a b c p : Vec R}
  {s t d l u : R}

def hull (points : List (Vec R)) : Set (Vec R) := convexHull R {v | v ∈ points}

theorem mem_hull (h : p ∈ points) : p ∈ hull points := subset_convexHull R _ h

/-- What sight from the one polygon reaches through the other, there or beyond. -/
def beyond (near far : List (Vec R)) : Set (Vec R) :=
  {c | ∃ a ∈ hull near, ∃ b ∈ hull far, ∃ s, 1 ≤ s ∧ c = a.toward b s}

namespace Plane

structure Splits (plane : Plane R) (near far : List (Vec R)) : Prop where
  near_le : ∀ v ∈ near, plane.distance v ≤ 0
  le_far : ∀ v ∈ far, 0 ≤ plane.distance v

theorem distance_combo (plane : Plane R) (a b : Vec R) (h : s + t = 1) :
    plane.distance (s • a + t • b) = s * plane.distance a + t * plane.distance b := by
  simp only [distance, Vec.dot, Vec.smul_def, Vec.add_def]
  linear_combination plane.dist * h

theorem distance_le_of_hull (h : ∀ v ∈ points, plane.distance v ≤ d) (hp : p ∈ hull points) :
    plane.distance p ≤ d := by
  have hconvex : Convex R {q | plane.distance q ≤ d} := by
    intro x hx y hy s t hs ht hst
    have hleft := mul_le_mul_of_nonneg_left hx hs
    have hright := mul_le_mul_of_nonneg_left hy ht
    have hsum : s * d + t * d = d := by rw [← add_mul, hst, one_mul]
    change plane.distance (s • x + t • y) ≤ d
    rw [distance_combo plane x y hst]
    linarith
  exact convexHull_min h hconvex hp

theorem le_distance_of_hull (h : ∀ v ∈ points, d ≤ plane.distance v) (hp : p ∈ hull points) :
    d ≤ plane.distance p := by
  have hflip : ∀ v ∈ points, plane.flipped.distance v ≤ -d := by
    intro v hv
    rw [distance_flipped]
    exact neg_le_neg (h v hv)
  have hle := distance_le_of_hull hflip hp
  rw [distance_flipped] at hle
  exact neg_le_neg_iff.mp hle

/-- What is amiss at the two polygons counts as often as the way goes on. -/
theorem le_distance_toward (ha : plane.distance a ≤ u) (hb : l ≤ plane.distance b) (hs : 1 ≤ s) :
    s * l - (s - 1) * u ≤ plane.distance (a.toward b s) := by
  have hnear := mul_le_mul_of_nonneg_left ha (sub_nonneg.mpr hs)
  have hfar := mul_le_mul_of_nonneg_left hb (zero_le_one.trans hs)
  rw [distance_toward]
  linarith

theorem exists_back (ha : 0 ≤ plane.distance a) (h : plane.distance b < plane.distance a) :
    ∃ s, 1 ≤ s ∧ plane.side (a.toward b s) = .back := by
  have hdrop : 0 < plane.distance a - plane.distance b := sub_pos.mpr h
  have hthick := Scalar.thickness_pos (R := R)
  have hover : 0 ≤ (plane.distance a + Scalar.thickness) / (plane.distance a - plane.distance b) :=
    div_nonneg (add_nonneg ha hthick.le) hdrop.le
  refine ⟨1 + (plane.distance a + Scalar.thickness) / (plane.distance a - plane.distance b),
    le_add_of_nonneg_right hover, ?_⟩
  have hway := div_mul_cancel₀ (plane.distance a + Scalar.thickness) hdrop.ne'
  rw [side_eq_back, distance_toward]
  linarith

theorem Splits.nonneg_of_beyond (h : plane.Splits near far) (hc : c ∈ beyond near far) :
    0 ≤ plane.distance c := by
  obtain ⟨a, ha, b, hb, s, hs, rfl⟩ := hc
  have hle := le_distance_toward (distance_le_of_hull h.near_le ha) (le_distance_of_hull h.le_far hb) hs
  rwa [mul_zero, mul_zero, sub_zero] at hle

/-- A plane that touches both polygons hides nothing just if it is nowhere on the wrong side of them. -/
theorem splits_iff (hnear : ∃ a ∈ near, plane.distance a = 0) (hfar : ∃ b ∈ far, plane.distance b = 0) :
    (∀ c ∈ beyond near far, plane.side c ≠ .back) ↔ plane.Splits near far := by
  constructor
  · intro hseen
    have hlevel : ∀ a ∈ near, ∀ b ∈ far, 0 ≤ plane.distance a → plane.distance a ≤ plane.distance b := by
      intro a ha b hb hpos
      by_contra! hlt
      obtain ⟨s, hs, hback⟩ := exists_back hpos hlt
      exact hseen _ ⟨a, mem_hull ha, b, mem_hull hb, s, hs, rfl⟩ hback
    obtain ⟨a, ha, hza⟩ := hnear
    obtain ⟨b, hb, hzb⟩ := hfar
    refine ⟨fun v hv => ?_, fun v hv => ?_⟩
    · by_contra! hpos
      exact hpos.not_ge (hzb ▸ hlevel v hv b hb hpos.le)
    · have hle := hlevel a ha v hv hza.ge
      rwa [hza] at hle
  · intro h c hc
    have hthick := Scalar.thickness_pos (R := R)
    rw [Ne, side_eq_back, not_lt]
    exact (neg_neg_of_pos hthick).le.trans (h.nonneg_of_beyond hc)

end Plane

theorem mem_cutByAll {role : Role} {sphere : Sphere R} {planes : List (Plane R)} {w left : Winding R}
    (h : (cutByAll role sphere planes w).1 = some left) (hc : c ∈ w.points)
    (hside : ∀ plane ∈ planes, plane.side c ≠ .back) : c ∈ left.points := by
  rw [fst_cutByAll] at h
  induction planes generalizing w with
  | nil =>
    cases h
    exact hc
  | cons plane planes ih =>
    obtain ⟨hfirst, hrest⟩ := List.forall_mem_cons.mp hside
    rcases Winding.clipAll_cons_eq_some.mp h with ⟨-, hleft⟩ | ⟨-, cut, hcut, hleft⟩
    · exact ih hleft hc hrest
    · refine ih hleft ?_ hrest
      obtain ⟨rfl, -⟩ | ⟨rfl, -⟩ := Winding.front?_cases hcut
      · exact hc
      · exact (Winding.filter_sublist_frontOutline w plane).subset
          (List.mem_filter.mpr ⟨hc, decide_eq_true hfirst⟩)

end Straight

variable {R : Type} [RootedScalar R] {plane : Plane R} {n m : Vec R} {source pass : List (Vec R)}

/-- A plane that is found touches both polygons, and only one of them may be on the wrong side. -/
theorem Direction.distance_of_mem_separators {d : Direction} (hsource : ConvexAbout n source)
    (hpass : ConvexAbout m pass) (h : plane ∈ d.separators source pass) :
    (∃ a ∈ source, plane.distance a = 0) ∧ (∃ b ∈ pass, plane.distance b = 0) ∧
      ∃ u l, (∀ v ∈ source, plane.distance v ≤ u) ∧ (∀ v ∈ pass, l ≤ plane.distance v) ∧
        (u = 0 ∧ l = -Scalar.thickness ∨ u = Scalar.thickness ∧ l = 0) := by
  cases d with
  | forward =>
    obtain ⟨found, rfl, -, hparted⟩ := Separator.exists_parted hsource h
    obtain ⟨e, he, hstart, -⟩ := hparted.edge
    obtain ⟨hend, -⟩ := mem_of_mem_cyclicPairs he
    exact ⟨⟨e.1, hend, hstart⟩, hparted.corner, 0, -Scalar.thickness, hparted.behind_le, hparted.le_before,
      .inl ⟨rfl, rfl⟩⟩
  | backward =>
    obtain ⟨found, rfl, -, hparted⟩ := Separator.exists_parted hpass h
    obtain ⟨e, he, hstart, -⟩ := hparted.edge
    obtain ⟨hend, -⟩ := mem_of_mem_cyclicPairs he
    simp only [if_true, Plane.distance_flipped, neg_eq_zero]
    exact ⟨hparted.corner, ⟨e.1, hend, hstart⟩, Scalar.thickness, 0,
      fun v hv => neg_le.mp (hparted.le_before v hv), fun v hv => neg_nonneg.mpr (hparted.behind_le v hv),
      .inr ⟨rfl, rfl⟩⟩

/-- Of what sight reaches through two convex polygons, a plane that is found hides nothing just if it splits
the two. What it hides otherwise lies behind it by at most the thickness times how often the way from the one
polygon to the other is gone. If all planes split the two, a cut by all of them takes away no corner that sight
reaches, unless nothing is left. -/
theorem hides_nothing_iff (hsource : ConvexAbout n source) (hpass : ConvexAbout m pass) (d : Direction) :
    (∀ plane ∈ d.separators source pass,
      ((∀ c ∈ beyond source pass, plane.side c ≠ .back) ↔ plane.Splits source pass) ∧
      ∀ a ∈ hull source, ∀ b ∈ hull pass, ∀ s, 1 ≤ s →
        -(s * Scalar.thickness) ≤ plane.distance (a.toward b s)) ∧
    ((∀ plane ∈ d.separators source pass, plane.Splits source pass) → ∀ role sphere w left,
      (cutByAll role sphere (d.separators source pass) w).1 = some left →
        ∀ c ∈ w.points, c ∈ beyond source pass → c ∈ left.points) := by
  have hsplits : ∀ plane ∈ d.separators source pass,
      ((∀ c ∈ beyond source pass, plane.side c ≠ .back) ↔ plane.Splits source pass) := by
    intro plane hplane
    obtain ⟨hnear, hfar, -⟩ := Direction.distance_of_mem_separators hsource hpass hplane
    exact Plane.splits_iff hnear hfar
  refine ⟨fun plane hplane => ⟨hsplits plane hplane, fun a ha b hb s hs => ?_⟩,
    fun hall role sphere w left hleft c hc hseen => ?_⟩
  · obtain ⟨-, -, u, l, hle, hge, hul⟩ := Direction.distance_of_mem_separators hsource hpass hplane
    have hthick := Scalar.thickness_pos (R := R)
    have hway := Plane.le_distance_toward (Plane.distance_le_of_hull hle ha) (Plane.le_distance_of_hull hge hb) hs
    rcases hul with ⟨rfl, rfl⟩ | ⟨rfl, rfl⟩ <;> linarith
  · exact mem_cutByAll hleft hc fun plane hplane => (hsplits plane hplane).mpr (hall plane hplane) c hseen

theorem leaning_convex {y : ℝ} (hy : y < 7) : ConvexAbout ⟨1, 0, 0⟩ (leaning y) := by
  refine .of_triplewise ?_ ?_
  · simp [leaning, Vec.dot]
  · simp [leaning, List.triplewise_cons, Vec.turn, Vec.area, Vec.dot, Vec.cross, Vec.sub_def]
    exact ⟨by norm_num, hy⟩

/-- If the last corner does not lean over, the plane hides nothing. -/
theorem upright_unhidden : ConvexAbout ⟨1, 0, 0⟩ gate ∧ ConvexAbout ⟨1, 0, 0⟩ (leaning 3) ∧
    slanted ∈ Direction.forward.separators gate (leaning 3) ∧
    ∀ c ∈ beyond gate (leaning 3), slanted.side c ≠ .back := by
  have hleaning : ConvexAbout ⟨1, 0, 0⟩ (leaning 3) := leaning_convex (by norm_num)
  have hmem : slanted ∈ Direction.forward.separators gate (leaning 3) := slanted_mem (by norm_num) false
  have hsplits : slanted.Splits gate (leaning 3) := by
    constructor
    · norm_num [gate, slanted_distance]
    · norm_num [leaning, slanted_distance]
  exact ⟨gate_convex, hleaning, hmem,
    ((hides_nothing_iff gate_convex hleaning .forward).1 slanted hmem).1.mpr hsplits⟩

def faraway : Winding ℝ := ⟨[⟨64, 47, 16⟩, ⟨64, 47, 1⟩, ⟨128, 94, 32⟩], false⟩

/-- Sight from an edge of `gate` through the last corner of `leaning` reaches all its corners. -/
theorem faraway_seen : ∀ c ∈ faraway.points, c ∈ beyond gate (leaning (47 / 16)) := by
  have hlast : (⟨4, 47 / 16, 1⟩ : Vec ℝ) ∈ leaning (47 / 16) := by simp [leaning]
  have hseen {a c : Vec ℝ} {s : ℝ} (ha : a ∈ gate) (hs : 1 ≤ s) (hc : c = a.toward ⟨4, 47 / 16, 1⟩ s) :
      c ∈ beyond gate (leaning (47 / 16)) := ⟨a, mem_hull ha, _, mem_hull hlast, s, hs, hc⟩
  have hlow : (⟨0, 0, 0⟩ : Vec ℝ) ∈ gate := by simp [gate]
  have hhigh : (⟨0, 0, 1⟩ : Vec ℝ) ∈ gate := by simp [gate]
  simp only [faraway, List.forall_mem_cons]
  refine ⟨hseen hlow (s := 16) ?_ ?_, hseen hhigh (s := 16) ?_ ?_, hseen hlow (s := 32) ?_ ?_, by simp⟩
  all_goals norm_num [Vec.toward]

theorem faraway_behind : ∀ c ∈ faraway.points, slanted.side c = .back := by
  have hthick : (Scalar.thickness : ℝ) = 1 / 10 := by norm_num [Scalar.thickness]
  simp only [faraway, List.forall_mem_cons, Plane.side_eq_back, slanted_distance, hthick]
  norm_num

/-- If the last corner leans over a little, sight through it ends up behind the plane, and what is seen there
is cut off. -/
theorem slanted_hides : ConvexAbout ⟨1, 0, 0⟩ gate ∧ ConvexAbout ⟨1, 0, 0⟩ (leaning (47 / 16)) ∧
    slanted ∈ Direction.forward.separators gate (leaning (47 / 16)) ∧
    (∀ c ∈ faraway.points, c ∈ beyond gate (leaning (47 / 16)) ∧ slanted.side c = .back) ∧
    ∀ keepOn, faraway.front? slanted keepOn = none := by
  refine ⟨gate_convex, leaning_convex (by norm_num), slanted_mem (by norm_num) false,
    fun c hc => ⟨faraway_seen c hc, faraway_behind c hc⟩, fun keepOn => ?_⟩
  exact Winding.front?_eq_none (by simp [faraway]) faraway_behind

end Sightline
