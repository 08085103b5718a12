import Mathlib
import Sightline.MightSee
import Sightline.Proofs.Enclosure
import Sightline.Proofs.Openings

/-! Which portals might be reached from which. Whether something of a portal is before a plane is told by its
sphere, and by its corners where the sphere leaves it open. The answer is right up to the thickness of the
plane. Asked about one portal ahead of another, and about the two from the other side, it is the same. -/

namespace Sightline

variable {R : Type}

namespace Graph

variable [Scalar R] {g : Graph R}

theorem add_opening {g' : Graph R} {points : List (Vec R)} {back front : ClusterId} {opening : Opening}
    (h : g.add points back front = .ok (opening, g')) :
    opening.forward = g.portals.size ∧ opening.backward = g.portals.size + 1 := by
  obtain ⟨_, -, h⟩ := bind_eq_ok.mp h
  obtain ⟨_, -, h⟩ := bind_eq_ok.mp h
  obtain ⟨portal, -, h⟩ := bind_eq_ok.mp h
  cases h
  exact ⟨rfl, rfl⟩

end Graph

def otherSide (id : PortalId) : PortalId := if id % 2 = 0 then id + 1 else id - 1

theorem otherSide_two_mul (k : Nat) : otherSide (2 * k) = 2 * k + 1 := if_pos (Nat.mul_mod_right 2 k)

theorem otherSide_two_mul_add_one (k : Nat) : otherSide (2 * k + 1) = 2 * k := by
  have hodd : (2 * k + 1) % 2 ≠ 0 := by omega
  exact if_neg hodd

variable [RootedScalar R] {points : List (Vec R)} {plane : Plane R} {p q : Portal R} {n v : Vec R}
  {back front : ClusterId}

/-- A plane is found only for a vector with a length, and its normal is a unit. -/
theorem Plane.directed?_eq_some (h : directed? n v = some plane) : n ≠ 0 ∧ plane.normal.normSq = 1 := by
  unfold directed? at h
  split at h
  · cases h
  · next hlong =>
    cases h
    have hnorm : 0 < n.norm := Scalar.minLength_pos.trans_le (not_lt.mp hlong)
    have hsq : 0 < n.normSq := by
      rw [← Vec.norm_mul_self]
      exact mul_pos hnorm hnorm
    refine ⟨?_, Vec.normSq_unit hsq⟩
    rintro rfl
    simp [Vec.normSq, Vec.dot, Vec.zero_def] at hsq

theorem Plane.newell_quad (a b c d : Vec R) :
    newell [a, b, c, d] = a.cross b + (b.cross c + (c.cross d + d.cross a)) := by
  rw [newell_eq]
  simp [cyclicPairs]

theorem Vec.centroid_quad (a b c d : Vec R) : centroid [a, b, c, d] = (a + (b + (c + d))) / (4 : R) := by
  rw [centroid, sum_eq]
  simp

namespace Portal

/-- What an opening makes sure of when it is accepted. -/
structure Formed (p : Portal R) : Prop where
  unit : p.plane.normal.normSq = 1
  around : p.sphere.Around p.winding.points

theorem Formed.ofPoints (h : Graph.portalOf points back front = .ok p) : p.Formed := by
  obtain ⟨w, hw, h⟩ := bind_eq_ok.mp h
  split at h
  · next plane hplane =>
    cases h
    unfold Winding.plane? Plane.ofPolygon? at hplane
    split at hplane
    · cases hplane
    · obtain ⟨hnewell, hunit⟩ := Plane.directed?_eq_some hplane
      exact ⟨hunit, Sphere.around_ofPoints hnewell⟩
  · cases h

theorem Formed.reversed (h : p.Formed) : p.reversed.Formed :=
  ⟨(Plane.normSq_flipped _).trans h.unit, h.around.reverse⟩

/-- Something of the portal is before the plane, as far as its sphere and its corners tell. -/
def Appears (p : Portal R) (plane : Plane R) : Prop :=
  p.sphere.side plane = .front ∨
    p.sphere.side plane = .on ∧ ∃ v ∈ p.winding.points, plane.side v = .front

theorem appears_reversed : p.reversed.Appears plane ↔ p.Appears plane := by
  simp only [Appears, reversed, Winding.reversed, List.mem_reverse]

theorem Formed.appears (h : p.Formed) (hunit : plane.normal.normSq = 1) (hv : v ∈ p.winding.points)
    (hfront : plane.side v = .front) : p.Appears plane := by
  cases hside : p.sphere.side plane with
  | front => exact .inl hside
  | back =>
    have hle := (h.around.holds v hv).distance_nonpos hunit hside
    exact absurd (Plane.distance_pos_of_front hfront) hle.not_gt
  | on => exact .inr ⟨hside, v, hv, hfront⟩

theorem Formed.exists_pos (h : p.Formed) (happears : p.Appears plane) :
    ∃ v ∈ p.winding.points, 0 < plane.distance v := by
  rcases happears with hside | ⟨-, v, hv, hfront⟩
  · have hcenter := h.around.radius_pos.trans_le (Sphere.side_eq_front.mp hside)
    rw [h.around.center] at hcenter
    exact Plane.exists_pos_of_centroid h.around.nonempty hcenter
  · exact ⟨v, hv, Plane.distance_pos_of_front hfront⟩

/-- The test asks the same of both portals: the one ahead has to appear before the plane of the other, and the
other before the plane ahead, turned around. -/
theorem mightReach_iff (hr : 0 < p.sphere.radius) :
    p.mightReach q = true ↔ q.Appears p.plane ∧ p.Appears q.plane.flipped := by
  have hahead : (q.winding.points.any fun v => Scalar.thickness < p.plane.distance v) = true ↔
      ∃ v ∈ q.winding.points, p.plane.side v = .front := by
    simp only [List.any_eq_true, decide_eq_true_eq, Plane.side_eq_front]
  have hbehind : (p.winding.points.any fun v => q.plane.distance v < -Scalar.thickness) = true ↔
      ∃ v ∈ p.winding.points, q.plane.side v = .back := by
    simp only [List.any_eq_true, decide_eq_true_eq, Plane.side_eq_back]
  simp only [mightReach, Bool.and_eq_true, Bool.or_eq_true, hahead, hbehind, decide_eq_true_eq, Appears,
    Sphere.side_flipped_eq_front hr, Sphere.side_flipped_eq_on hr, Plane.side_flipped_eq_front]
  cases q.sphere.side p.plane <;> cases p.sphere.side q.plane <;> simp

theorem mightReach_reversed (hp : p.Formed) (hq : q.Formed) :
    q.reversed.mightReach p.reversed = p.mightReach q := by
  have hneg : NegCancels R := neg_neg
  have hflip : p.reversed.plane.flipped = p.plane := Plane.flipped_flipped hneg p.plane
  rw [Bool.eq_iff_iff, mightReach_iff hp.around.radius_pos, mightReach_iff hq.reversed.around.radius_pos,
    appears_reversed, appears_reversed, hflip, and_comm]
  rfl

end Portal

namespace Graph

variable {g : Graph R} {i j : PortalId}

theorem Built.formed (hg : g.Built) (hp : g.portals[i]? = some p) : p.Formed := by
  apply hg.forall_portals (P := Portal.Formed) _ p (Array.mem_of_getElem? hp)
  intro points back front portal hportal
  have hformed := Portal.Formed.ofPoints hportal
  exact ⟨hformed, hformed.reversed⟩

/-- Of any two portals of a graph, a pair of corners clearly on the right sides is never missed, and if the one
might be reached from the other, it has a corner before the plane of that one, which has a corner behind the
plane of the first. -/
theorem Built.mightReach_sound (hg : g.Built) (hp : g.portals[i]? = some p) (hq : g.portals[j]? = some q) :
    ((∃ v ∈ q.winding.points, Scalar.thickness < p.plane.distance v) →
      (∃ v ∈ p.winding.points, q.plane.distance v < -Scalar.thickness) → p.mightReach q = true) ∧
    (p.mightReach q = true → (∃ v ∈ q.winding.points, 0 < p.plane.distance v) ∧
      ∃ v ∈ p.winding.points, q.plane.distance v < 0) := by
  have hpf := hg.formed hp
  have hqf := hg.formed hq
  rw [Portal.mightReach_iff hpf.around.radius_pos]
  constructor
  · rintro ⟨v, hv, hahead⟩ ⟨u, hu, hbehind⟩
    refine ⟨hqf.appears hpf.unit hv (Plane.side_eq_front.mpr hahead), ?_⟩
    apply hpf.appears ((Plane.normSq_flipped _).trans hqf.unit) hu
    rw [Plane.side_flipped_eq_front]
    exact Plane.side_eq_back.mpr hbehind
  · rintro ⟨hahead, hbehind⟩
    obtain ⟨u, hu, hpos⟩ := hpf.exists_pos hbehind
    rw [Plane.distance_flipped, neg_pos] at hpos
    exact ⟨hqf.exists_pos hahead, u, hu, hpos⟩

theorem exists_portalOf {n : Vec R} {len : R} (hthree : 3 ≤ points.length)
    (hlimit : points.length ≤ cornerLimit) (hunit : n.normSq = 1) (hnewell : Plane.newell points = len • n)
    (hlong : Scalar.minLength ≤ len) (back front : ClusterId) : ∃ p, portalOf points back front = .ok p ∧
      p.plane = ⟨n, n.dot (Vec.centroid points)⟩ ∧ p.winding.points = points := by
  have hlen : 0 < len := Scalar.minLength_pos.trans_le hlong
  have hnorm : (len • n).norm = len := by
    apply (mul_self_inj (Vec.norm_nonneg _) hlen.le).mp
    rw [Vec.norm_mul_self]
    simp only [Vec.normSq, Vec.dot, Vec.smul_def] at hunit ⊢
    linear_combination len * len * hunit
  have hdiv : (len • n) / len = n := by
    ext <;> simp only [Vec.div_def, Vec.smul_def] <;> exact mul_div_cancel_left₀ _ hlen.ne'
  have hplane : (⟨points, false⟩ : Winding R).plane? = some ⟨n, n.dot (Vec.centroid points)⟩ := by
    rw [Winding.plane?, Plane.ofPolygon?, if_neg (Nat.not_lt.mpr hthree), Plane.directed?, hnewell, hnorm,
      if_neg (not_lt.mpr hlong), hdiv]
  have hw : Winding.ofPoints points = .ok ⟨points, false⟩ := by
    rw [Winding.ofPoints, if_neg (Nat.not_lt.mpr hlimit), if_neg (Nat.not_lt.mpr hthree)]
  refine ⟨⟨_, back, front, Winding.sphere ⟨points, false⟩, ⟨points, false⟩⟩, ?_, rfl, rfl⟩
  unfold portalOf
  simp only [hw, bind, Except.bind, hplane]

theorem add_of_portalOf {portal : Portal R} (hportal : portalOf points back front = .ok portal)
    (hback : g.checkRoom back = .ok ()) (hfront : g.checkRoom front = .ok ()) :
    g.add points back front = .ok (⟨g.portals.size, g.portals.size + 1⟩,
      ({ g with portals := (g.portals.push portal).push portal.reversed }.own back g.portals.size).own front
        (g.portals.size + 1)) := by
  simp only [add, hback, hfront, hportal, bind, Except.bind]

/-- A doorway that leads along the first axis, and one around the corner that leads along the second. -/
def doorway : List (Vec ℝ) := [⟨0, 0, 0⟩, ⟨0, 6, 0⟩, ⟨0, 6, 8⟩, ⟨0, 0, 8⟩]

def sideway : List (Vec ℝ) := [⟨6, 10, 0⟩, ⟨0, 10, 0⟩, ⟨0, 10, 8⟩, ⟨6, 10, 8⟩]

theorem exists_doorway : ∃ p, portalOf doorway 0 1 = .ok p ∧ p.plane = ⟨⟨1, 0, 0⟩, 0⟩ ∧
    p.winding.points = doorway := by
  have hnewell : Plane.newell doorway = (96 : ℝ) • (⟨1, 0, 0⟩ : Vec ℝ) := by
    rw [doorway, Plane.newell_quad]
    ext <;> norm_num [Vec.cross, Vec.add_def, Vec.smul_def]
  obtain ⟨p, hp, hplane, hpoints⟩ := exists_portalOf (by decide) (by decide)
    (by norm_num [Vec.normSq, Vec.dot]) hnewell (by norm_num [Scalar.minLength]) 0 1
  refine ⟨p, hp, ?_, hpoints⟩
  rw [hplane, doorway, Vec.centroid_quad]
  ext <;> norm_num [Vec.dot, Vec.div_def, Vec.add_def]

/-- Three rooms, the first two with the doorway between them and the last two with the side door. -/
theorem exists_hall : ∃ (g : Graph ℝ) (p q : Portal ℝ), g.Built ∧ g.portals[0]? = some p ∧
    g.portals[2]? = some q ∧ p.plane = ⟨⟨1, 0, 0⟩, 0⟩ ∧ p.winding.points = doorway ∧
    q.plane = ⟨⟨0, 1, 0⟩, 10⟩ ∧ q.winding.points = sideway := by
  have hside : Plane.newell sideway = (96 : ℝ) • (⟨0, 1, 0⟩ : Vec ℝ) := by
    rw [sideway, Plane.newell_quad]
    ext <;> norm_num [Vec.cross, Vec.add_def, Vec.smul_def]
  obtain ⟨p, hp, hpplane, hppoints⟩ := exists_doorway
  obtain ⟨q, hq, hqplane, hqpoints⟩ := exists_portalOf (by decide) (by decide)
    (by norm_num [Vec.normSq, Vec.dot]) hside (by norm_num [Scalar.minLength]) 1 2
  have hfirst := add_of_portalOf (g := ofClusters 3) hp rfl rfl
  have hsecond := add_of_portalOf hq (g := ((({ ofClusters 3 with
    portals := (#[].push p).push p.reversed } : Graph ℝ).own 0 0).own 1 1)) rfl rfl
  refine ⟨_, p, q, ((Built.ofClusters 3).add hfirst).add hsecond, rfl, rfl, hpplane, hppoints, ?_, hqpoints⟩
  rw [hqplane, sideway, Vec.centroid_quad]
  ext <;> norm_num [Vec.dot, Vec.div_def, Vec.add_def]

/-- Of the side door something lies beyond the doorway, and the doorway is behind the side door. The other way
round there is nothing to be reached. -/
theorem hall_reach : ∃ (g : Graph ℝ) (p q : Portal ℝ), g.Built ∧ g.portals[0]? = some p ∧
    g.portals[2]? = some q ∧ p.mightReach q = true ∧ q.mightReach p = false := by
  obtain ⟨g, p, q, hg, hp, hq, hpplane, hppoints, hqplane, hqpoints⟩ := exists_hall
  obtain ⟨hclear, -⟩ := hg.mightReach_sound hp hq
  obtain ⟨-, hreached⟩ := hg.mightReach_sound hq hp
  rw [hpplane, hqplane, hppoints, hqpoints] at hclear hreached
  refine ⟨g, p, q, hg, hp, hq, hclear ⟨⟨6, 10, 0⟩, by simp [sideway], ?_⟩ ⟨⟨0, 0, 0⟩, by simp [doorway], ?_⟩, ?_⟩
  · norm_num [Plane.distance, Vec.dot, Scalar.thickness]
  · norm_num [Plane.distance, Vec.dot, Scalar.thickness]
  · by_contra h
    obtain ⟨⟨v, hv, hpos⟩, -⟩ := hreached (Bool.eq_true_of_not_eq_false h)
    have hbehind : ∀ v ∈ doorway, (⟨⟨0, 1, 0⟩, 10⟩ : Plane ℝ).distance v ≤ 0 := by
      simp only [doorway, List.forall_mem_cons, Plane.distance, Vec.dot]
      norm_num
    exact (hbehind v hv).not_gt hpos

theorem Regular.getElem?_otherSide (h : g.Regular) (hp : g.portals[i]? = some p) :
    g.portals[otherSide i]? = some p.reversed := by
  obtain ⟨k, rfl | rfl⟩ := Nat.even_or_odd' i
  · rw [otherSide_two_mul]
    exact h.paired k p hp
  · have hlt : 2 * k < g.portals.size := Nat.lt_of_succ_lt (Array.getElem?_eq_some_iff.mp hp).1
    have hfirst : g.portals[2 * k]? = some g.portals[2 * k] := Array.getElem?_eq_getElem hlt
    have hneg : NegCancels R := neg_neg
    obtain rfl : p = g.portals[2 * k].reversed := by
      rw [h.paired k _ hfirst, Option.some_inj] at hp
      exact hp.symm
    rw [otherSide_two_mul_add_one, reversed_reversed hneg (h.copied _ (Array.getElem_mem hlt)), hfirst]

/-- The two portals of an opening are each the other side of the other, and the test whether one portal might
be reached from another gives the same for the two other sides, taken the other way round. -/
theorem Built.mightReach_otherSide (hg : g.Built) :
    (∀ points back front opening g', g.add points back front = .ok (opening, g') →
      otherSide opening.forward = opening.backward ∧ otherSide opening.backward = opening.forward) ∧
    ∀ i j p q, g.portals[i]? = some p → g.portals[j]? = some q → ∃ p' q',
      g.portals[otherSide i]? = some p' ∧ g.portals[otherSide j]? = some q' ∧
      p' = p.reversed ∧ q' = q.reversed ∧ q'.mightReach p' = p.mightReach q := by
  refine ⟨fun points back front opening g' hadd => ?_, fun i j p q hp hq => ?_⟩
  · obtain ⟨k, hk⟩ := hg.regular.even
    obtain ⟨hforward, hbackward⟩ := add_opening hadd
    rw [hforward, hbackward, hk, ← two_mul]
    exact ⟨otherSide_two_mul k, otherSide_two_mul_add_one k⟩
  · refine ⟨_, _, hg.regular.getElem?_otherSide hp, hg.regular.getElem?_otherSide hq, rfl, rfl, ?_⟩
    exact Portal.mightReach_reversed (hg.formed hp) (hg.formed hq)

/-- The doorway is portals 0 and 1 of the hall, and the side door portals 2 and 3. -/
theorem hall_otherSide : ∃ (g : Graph ℝ) (p q p' q' : Portal ℝ), g.Built ∧ g.portals[0]? = some p ∧
    g.portals[2]? = some q ∧ g.portals[1]? = some p' ∧ g.portals[3]? = some q' ∧
    q'.mightReach p' = p.mightReach q ∧ p'.mightReach q = q'.mightReach p := by
  obtain ⟨g, p, q, hg, hp, hq, -⟩ := exists_hall
  obtain ⟨-, hsame⟩ := hg.mightReach_otherSide
  obtain ⟨p', q', hp', hq', -, -, hforth⟩ := hsame 0 2 p q hp hq
  obtain ⟨p'', q'', hp'', hq'', -, -, hback⟩ := hsame 1 2 p' q hp' hq
  obtain rfl : p'' = p := Option.some.inj (hp''.symm.trans hp)
  obtain rfl : q'' = q' := Option.some.inj (hq''.symm.trans hq')
  exact ⟨g, p'', q, p', q'', hg, hp, hq, hp', hq', hforth, hback.symm⟩

end Graph

end Sightline
