import Mathlib.Analysis.Real.Sqrt
import Sightline.Geometry.Separator
import Sightline.Proofs.Convex
import Sightline.Proofs.RootedScalar

/-! What separating planes separate. Only the first corner off a candidate decides how it is turned. That is
enough for a convex polygon, because on a plane through one of its edges or a plane across it through that
edge all its other corners are on one side. -/

namespace Sightline

/-- How the corners of two polygons lie by their distances from a plane: the plane contains an edge of the one
and a corner of the other. The first has no corner before it and some clearly behind it, the second has none
clearly behind it and some clearly before it. -/
structure Parted {R : Type} [Scalar R] (distance : Vec R → R) (behind before : List (Vec R)) : Prop where
  edge : ∃ e ∈ cyclicPairs behind, distance e.1 = 0 ∧ distance e.2 = 0
  corner : ∃ v ∈ before, distance v = 0
  behind_le : ∀ v ∈ behind, distance v ≤ 0
  behind_lt : ∃ v ∈ behind, distance v < -Scalar.thickness
  le_before : ∀ v ∈ before, -Scalar.thickness ≤ distance v
  lt_before : ∃ v ∈ before, Scalar.thickness < distance v

namespace Separator

section Found

variable {R : Type} [Scalar R] {plane c : Plane R} {points : List (Vec R)}

theorem mem_without {α : Type} {l : List α} {x : α} {i j : Nat} :
    x ∈ without l i j ↔ ∃ k, l[k]? = some x ∧ k ≠ i ∧ k ≠ j := by
  simp [without, List.mem_zipIdx_iff_getElem?]

theorem fronted_iff : fronted plane points = true ↔
    (∀ v ∈ points, plane.side v ≠ .back) ∧ ∃ v ∈ points, plane.side v = .front := by
  simp [fronted]

/-- What decides how a candidate is turned is a corner off it. -/
theorem turned?_eq_some (h : turned? c points = some plane) : ∃ v ∈ points,
    plane = c ∧ c.side v = .back ∨ plane = c.flipped ∧ c.side v = .front := by
  unfold turned? at h
  split at h
  · next hfind =>
    obtain ⟨v, hv, hside⟩ := List.mem_map.mp (List.mem_of_find?_eq_some hfind)
    exact ⟨v, hv, .inl ⟨(Option.some.inj h).symm, hside⟩⟩
  · next side hback hfind =>
    obtain ⟨v, hv, hside⟩ := List.mem_map.mp (List.mem_of_find?_eq_some hfind)
    have hon : side ≠ .on := by simpa using List.find?_some hfind
    refine ⟨v, hv, .inr ⟨(Option.some.inj h).symm, ?_⟩⟩
    cases side with
    | front => exact hside
    | back => exact absurd rfl hback
    | on => exact absurd rfl hon
  · cases h

theorem through?_eq_some {a b p : Vec R} {rest others : List (Vec R)} :
    through? a b rest p others = some plane ↔ ∃ c, candidate? a b p = some c ∧
      turned? c rest = some plane ∧ fronted plane others = true := by
  simp only [through?, Option.bind_eq_bind, Option.bind_eq_some_iff, Option.ite_none_right_eq_some,
    Option.some.injEq]
  constructor
  · rintro ⟨c, hc, _, hturned, hfronted, rfl⟩
    exact ⟨c, hc, hturned, hfronted⟩
  · rintro ⟨c, hc, hturned, hfronted⟩
    exact ⟨c, hc, plane, hturned, hfronted, rfl⟩

theorem mem_separators {source pass : List (Vec R)} {flip : Bool} :
    plane ∈ separators source pass flip ↔ ∃ i j a b p q, source[i]? = some a ∧
      source[(i + 1) % source.length]? = some b ∧ pass[j]? = some p ∧
      through? a b (without source i ((i + 1) % source.length)) p (pass.eraseIdx j) = some q ∧
      plane = if flip then q.flipped else q := by
  simp only [separators, List.mem_flatMap, List.mem_filterMap, Option.map_eq_some_iff]
  constructor
  · rintro ⟨⟨⟨a, b⟩, i⟩, hedge, ⟨p, j⟩, hcorner, q, hq, rfl⟩
    obtain ⟨ha, hb⟩ := getElem?_cyclicPairs.mp (List.mem_zipIdx_iff_getElem?.mp hedge)
    exact ⟨i, j, a, b, p, q, ha, hb, List.mem_zipIdx_iff_getElem?.mp hcorner, hq, rfl⟩
  · rintro ⟨i, j, a, b, p, q, ha, hb, hp, hq, rfl⟩
    exact ⟨((a, b), i), List.mem_zipIdx_iff_getElem?.mpr (getElem?_cyclicPairs.mpr ⟨ha, hb⟩), (p, j),
      List.mem_zipIdx_iff_getElem?.mpr hp, q, hq, rfl⟩

end Found

variable {R : Type} [RootedScalar R] {plane c : Plane R} {n a b p : Vec R} {source pass : List (Vec R)}

theorem candidate?_spec (h : candidate? a b p = some c) : c.normal.normSq = 1 ∧ c.distance a = 0 ∧
    c.distance b = 0 ∧ c.distance p = 0 := by
  unfold candidate? at h
  dsimp only at h
  split at h
  · cases h
  · next hlong =>
    obtain rfl := Option.some.inj h
    refine ⟨Vec.normSq_unit (Scalar.thickness_pos.trans_le (not_lt.mp hlong)), ?_, ?_, ?_⟩
    all_goals
      simp only [Plane.distance, Vec.dot, Vec.div_def, Vec.cross, Vec.sub_def]
      ring

/-- On a plane through an edge, all corners but the ends of the edge are behind it if one of them is. -/
theorem distance_neg_of_edge {i : Nat} {u v : Vec R} (hconvex : ConvexAbout n source)
    (ha : source[i]? = some a) (hb : source[(i + 1) % source.length]? = some b) (hza : plane.distance a = 0)
    (hzb : plane.distance b = 0) (hu : u ∈ without source i ((i + 1) % source.length))
    (hv : v ∈ without source i ((i + 1) % source.length)) (hneg : plane.distance v < 0) :
    plane.distance u < 0 := by
  obtain ⟨k, hk, hki, hkn⟩ := mem_without.mp hu
  obtain ⟨m, hm, hmi, hmn⟩ := mem_without.mp hv
  have hturnu := hconvex.left i k a b u ha hb hk hki hkn
  have hturnv := hconvex.left i m a b v ha hb hm hmi hmn
  have hflat {q : Vec R} (hq : q ∈ source) : n.dot q = n.dot a :=
    hconvex.flat q hq a (List.mem_of_getElem? ha)
  have hshare := Vec.turn_diagonals plane (hflat (List.mem_of_getElem? hb)) (hflat (List.mem_of_getElem? hm))
    (hflat (List.mem_of_getElem? hk))
  rw [hza, hzb, mul_zero, mul_zero, zero_add, zero_add] at hshare
  by_contra! hnonneg
  have hleft := mul_neg_of_pos_of_neg hturnu hneg
  have hright := mul_nonneg hturnv.le hnonneg
  rw [hshare] at hleft
  exact hright.not_gt hleft

/-- What is known of a plane that is found: it contains the points it is made of, and some other corner of
the polygon that gives the edge lies behind it. -/
theorem through?_spec {rest others : List (Vec R)} (h : through? a b rest p others = some plane) :
    plane.normal.normSq = 1 ∧ plane.distance a = 0 ∧ plane.distance b = 0 ∧ plane.distance p = 0 ∧
      (∃ v ∈ rest, plane.side v = .back) ∧ (∀ v ∈ others, plane.side v ≠ .back) ∧
      ∃ v ∈ others, plane.side v = .front := by
  obtain ⟨c, hc, hturned, hfronted⟩ := through?_eq_some.mp h
  obtain ⟨hunit, hza, hzb, hzp⟩ := candidate?_spec hc
  obtain ⟨v, hv, ⟨rfl, hside⟩ | ⟨rfl, hside⟩⟩ := turned?_eq_some hturned
  · exact ⟨hunit, hza, hzb, hzp, ⟨v, hv, hside⟩, fronted_iff.mp hfronted⟩
  · refine ⟨by rw [Plane.normSq_flipped, hunit], ?_, ?_, ?_,
      ⟨v, hv, Plane.side_flipped_eq_back.mpr hside⟩, fronted_iff.mp hfronted⟩
    · rw [Plane.distance_flipped, hza, neg_zero]
    · rw [Plane.distance_flipped, hzb, neg_zero]
    · rw [Plane.distance_flipped, hzp, neg_zero]

theorem parted_of_through? {i j : Nat} (hconvex : ConvexAbout n source) (ha : source[i]? = some a)
    (hb : source[(i + 1) % source.length]? = some b) (hp : pass[j]? = some p)
    (h : through? a b (without source i ((i + 1) % source.length)) p (pass.eraseIdx j) = some plane) :
    Parted plane.distance source pass := by
  obtain ⟨-, hza, hzb, hzp, ⟨v, hv, hback⟩, hnone, u, hu, hfront⟩ := through?_spec h
  have hthick := Scalar.thickness_pos (R := R)
  obtain ⟨m, hm, -, -⟩ := mem_without.mp hv
  refine ⟨⟨(a, b), List.mem_of_getElem? (getElem?_cyclicPairs.mpr ⟨ha, hb⟩), hza, hzb⟩,
    ⟨p, List.mem_of_getElem? hp, hzp⟩, fun q hq => ?_, ⟨v, List.mem_of_getElem? hm, Plane.side_eq_back.mp hback⟩,
    fun q hq => ?_, u, List.mem_of_mem_eraseIdx hu, Plane.side_eq_front.mp hfront⟩
  · obtain ⟨k, hk⟩ := List.mem_iff_getElem?.mp hq
    by_cases hki : k = i
    · obtain rfl : q = a := by rw [hki, ha] at hk; exact (Option.some.inj hk).symm
      exact hza.le
    by_cases hkn : k = (i + 1) % source.length
    · obtain rfl : q = b := by rw [hkn, hb] at hk; exact (Option.some.inj hk).symm
      exact hzb.le
    · exact (distance_neg_of_edge hconvex ha hb hza hzb (mem_without.mpr ⟨k, hk, hki, hkn⟩) hv
        (Plane.distance_neg_of_back hback)).le
  · obtain ⟨k, hk⟩ := List.mem_iff_getElem?.mp hq
    by_cases hkj : k = j
    · obtain rfl : q = p := by rw [hkj, hp] at hk; exact (Option.some.inj hk).symm
      rw [hzp]
      exact (neg_neg_of_pos hthick).le
    · have hside := hnone q (List.mem_eraseIdx_iff_getElem?.mpr ⟨k, hkj, hk⟩)
      rwa [Ne, Plane.side_eq_back, not_lt] at hside

theorem exists_parted {flip : Bool} (hconvex : ConvexAbout n source) (h : plane ∈ separators source pass flip) :
    ∃ found : Plane R, plane = (if flip then found.flipped else found) ∧ found.normal.normSq = 1 ∧
      Parted found.distance source pass := by
  obtain ⟨i, j, a, b, p, found, ha, hb, hp, hthrough, rfl⟩ := mem_separators.mp h
  exact ⟨found, rfl, (through?_spec hthrough).1, parted_of_through? hconvex ha hb hp hthrough⟩

end Separator

open Separator

variable {R : Type} [RootedScalar R] {n : Vec R} {source : List (Vec R)}

/-- Every plane that is found for a convex polygon and another one parts the two; if planes are turned around,
it does so the other way. -/
theorem separators_part (hconvex : ConvexAbout n source) (pass : List (Vec R)) :
    (∀ plane ∈ separators source pass false,
      plane.normal.normSq = 1 ∧ Parted plane.distance source pass) ∧
    ∀ plane ∈ separators source pass true,
      plane.normal.normSq = 1 ∧ Parted (fun v => -plane.distance v) source pass := by
  constructor
  · intro plane hplane
    obtain ⟨found, rfl, hunit, hparted⟩ := exists_parted hconvex hplane
    exact ⟨hunit, hparted⟩
  · intro plane hplane
    obtain ⟨found, rfl, hunit, hparted⟩ := exists_parted hconvex hplane
    simp only [if_true, Plane.normSq_flipped, Plane.distance_flipped, neg_neg]
    exact ⟨hunit, hparted⟩

def gate : List (Vec ℝ) := [⟨0, 0, 0⟩, ⟨0, 0, 1⟩, ⟨0, -4, 1⟩, ⟨0, -4, 0⟩]

/-- An opening further on. Its last corner is free to lean over to one side. -/
def leaning (y : ℝ) : List (Vec ℝ) := [⟨4, 3, 0⟩, ⟨4, 7, 0⟩, ⟨4, 7, 1⟩, ⟨4, y, 1⟩]

noncomputable def slanted : Plane ℝ := ⟨⟨-3 / 5, 4 / 5, 0⟩, 0⟩

theorem gate_convex : ConvexAbout ⟨1, 0, 0⟩ gate := by
  refine .of_triplewise ?_ ?_
  · simp [gate, Vec.dot]
  · simp [gate, List.triplewise_cons, Vec.turn, Vec.area, Vec.dot, Vec.cross, Vec.sub_def]

theorem slanted_distance (v : Vec ℝ) : slanted.distance v = (4 * v.y - 3 * v.x) / 5 := by
  simp only [slanted, Plane.distance, Vec.dot]
  ring

theorem slanted_candidate : candidate? ⟨0, 0, 0⟩ ⟨0, 0, 1⟩ ⟨4, 3, 0⟩ = some slanted := by
  have hcross : ((⟨0, 0, 1⟩ : Vec ℝ) - ⟨0, 0, 0⟩).cross (⟨4, 3, 0⟩ - ⟨0, 0, 0⟩) = ⟨-3, 4, 0⟩ := by
    ext <;> norm_num [Vec.cross, Vec.sub_def]
  have hnorm : (⟨-3, 4, 0⟩ : Vec ℝ).normSq = 5 * 5 := by norm_num [Vec.normSq, Vec.dot]
  have hroot : Scalar.sqrt (5 * 5 : ℝ) = 5 := Real.sqrt_mul_self (by norm_num)
  have hlong : ¬(5 * 5 : ℝ) < Scalar.thickness := by norm_num [Scalar.thickness]
  simp only [candidate?]
  rw [hcross, hnorm, hroot, if_neg hlong]
  simp only [slanted, Vec.div_def, Vec.dot]
  norm_num

/-- The last corner may lie a tenth behind the plane. -/
theorem slanted_mem {y : ℝ} (hy : 23 / 8 ≤ y) (flip : Bool) :
    (if flip then slanted.flipped else slanted) ∈ separators gate (leaning y) flip := by
  have hthick : (Scalar.thickness : ℝ) = 1 / 10 := by norm_num [Scalar.thickness]
  have hback : slanted.side ⟨0, -4, 1⟩ = .back := by
    rw [Plane.side_eq_back, slanted_distance, hthick]
    norm_num
  have hrest : without gate 0 1 = [⟨0, -4, 1⟩, ⟨0, -4, 0⟩] := rfl
  have hturned : turned? slanted (without gate 0 1) = some slanted := by
    rw [hrest]
    simp [turned?, hback]
  have hfront (z : ℝ) : slanted.side ⟨4, 7, z⟩ = .front := by
    rw [Plane.side_eq_front, slanted_distance, hthick]
    norm_num
  have hlast : slanted.side ⟨4, y, 1⟩ ≠ .back := by
    rw [Ne, Plane.side_eq_back, slanted_distance, hthick]
    linarith
  have hfronted : fronted slanted ((leaning y).eraseIdx 0) = true := by
    simp [fronted_iff, leaning, hfront, hlast]
  exact mem_separators.mpr ⟨0, 0, _, _, _, slanted, rfl, rfl, rfl,
    through?_eq_some.mpr ⟨slanted, slanted_candidate, hturned, hfronted⟩, rfl⟩

theorem slanted_parts : ConvexAbout ⟨1, 0, 0⟩ gate ∧
    (slanted ∈ separators gate (leaning (47 / 16)) false ∧ slanted.normal.normSq = 1 ∧
      Parted slanted.distance gate (leaning (47 / 16))) ∧
    slanted.flipped ∈ separators gate (leaning (47 / 16)) true ∧ slanted.flipped.normal.normSq = 1 ∧
      Parted (fun v => -slanted.flipped.distance v) gate (leaning (47 / 16)) := by
  have hmem : slanted ∈ separators gate (leaning (47 / 16)) false := slanted_mem (by norm_num) false
  have hturned : slanted.flipped ∈ separators gate (leaning (47 / 16)) true := slanted_mem (by norm_num) true
  obtain ⟨hparts, hparts'⟩ := separators_part gate_convex (leaning (47 / 16))
  exact ⟨gate_convex, ⟨hmem, hparts slanted hmem⟩, hturned, hparts' slanted.flipped hturned⟩

end Sightline
