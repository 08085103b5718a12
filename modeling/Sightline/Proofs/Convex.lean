import Mathlib.Data.List.Triplewise
import Mathlib.Tactic.LinearCombination
import Sightline.Proofs.Cycle
import Sightline.Proofs.ExactScalar

/-! Flat polygons that are strictly convex. Convexity says where the corners lie as seen from one edge; it
follows that any three corners turn left in the order in which one comes by, and that is all of it. A linear
function rises and falls just once on the way around. -/

namespace Sightline

variable {R : Type} [ExactScalar R] {plane : Plane R} {n a b c d e p : Vec R} {points : List (Vec R)} {t : R}

instance decidableTriplewise {α : Type} (r : α → α → α → Prop) [∀ a b c, Decidable (r a b c)] :
    (l : List α) → Decidable (l.Triplewise r)
  | [] => isTrue .nil
  | a :: l =>
    have := decidableTriplewise r l
    decidable_of_iff (l.Pairwise (r a) ∧ l.Triplewise r) List.triplewise_cons.symm

namespace Vec

def area (n u v : Vec R) : R := n.dot (u.cross v)

/-- Twice the area of the triangle from `a` by `b` to `c`. It is positive if the normal `n` points to those
who see `c` on the left of the way from `a` to `b`. -/
def turn (n a b c : Vec R) : R := area n (b - a) (c - a)

theorem dot_sub (n a b : Vec R) : n.dot (a - b) = n.dot a - n.dot b := by
  simp only [dot, sub_def]
  ring

theorem turn_rotate (n a b c : Vec R) : turn n b c a = turn n a b c := by
  simp only [turn, area, dot, cross, sub_def]
  ring

@[simp] theorem turn_self_left (n a b : Vec R) : turn n a a b = 0 := by
  simp only [turn, area, dot, cross, sub_def]
  ring

@[simp] theorem turn_self_right (n a b : Vec R) : turn n a b b = 0 := by
  rw [turn_rotate n b a b, turn_rotate n b b a, turn_self_left]

@[simp] theorem turn_self_ends (n a b : Vec R) : turn n a b a = 0 := by
  rw [turn_rotate n a a b, turn_self_left]

theorem turn_toward (n a b c d : Vec R) (t : R) :
    turn n a b (c.toward d t) = (1 - t) * turn n a b c + t * turn n a b d := by
  simp only [turn, area, dot, cross, sub_def, toward]
  ring

/-- Of four directions in a plane, one area is settled by the other five. -/
theorem area_fan (n e u v w : Vec R) :
    area n e v * area n u w = area n e u * area n v w + area n e w * area n u v := by
  simp only [area, dot, cross]
  ring

/-- Turning left from one point to the next twice is turning left, within half a turn from `e` on. -/
theorem turn_trans (ha : 0 < turn n p e a) (hb : 0 < turn n p e b) (hc : 0 < turn n p e c)
    (hab : 0 < turn n p a b) (hbc : 0 < turn n p b c) : 0 < turn n p a c := by
  have hfan : turn n p e b * turn n p a c = turn n p e a * turn n p b c + turn n p e c * turn n p a b :=
    area_fan n (e - p) (a - p) (b - p) (c - p)
  have hsum : 0 < turn n p e b * turn n p a c := by
    rw [hfan]
    exact add_pos (mul_pos ha hbc) (mul_pos hc hab)
  exact (pos_iff_pos_of_mul_pos hsum).mp hb

theorem turn_eq_areas (n a b c d : Vec R) : turn n b c d =
    area n (b - a) (c - a) + area n (c - a) (d - a) - area n (b - a) (d - a) := by
  simp only [turn, area, dot, cross, sub_def]
  ring

/-- Three directions in one plane balance each other by the areas that they span. -/
theorem area_balance {u v w : Vec R} (m : Vec R) (hu : n.dot u = 0) (hv : n.dot v = 0) (hw : n.dot w = 0) :
    area n v w * m.dot u + area n u v * m.dot w = area n u w * m.dot v := by
  simp only [area, dot, cross] at *
  linear_combination (m.x * (v.y * w.z - v.z * w.y) + m.y * (v.z * w.x - v.x * w.z) +
    m.z * (v.x * w.y - v.y * w.x)) * hu - (m.x * (u.y * w.z - u.z * w.y) + m.y * (u.z * w.x - u.x * w.z) +
    m.z * (u.x * w.y - u.y * w.x)) * hv + (m.x * (u.y * v.z - u.z * v.y) + m.y * (u.z * v.x - u.x * v.z) +
    m.z * (u.x * v.y - u.y * v.x)) * hw

/-- The diagonals of four points in one plane meet where they divide each other by the areas. -/
theorem turn_diagonals (plane : Plane R) (hb : n.dot b = n.dot a) (hc : n.dot c = n.dot a)
    (hd : n.dot d = n.dot a) :
    turn n b c d * plane.distance a + turn n a b d * plane.distance c =
      turn n a c d * plane.distance b + turn n a b c * plane.distance d := by
  have hbalance := area_balance (n := n) (u := b - a) (v := c - a) (w := d - a) plane.normal
    (by rw [dot_sub, hb, sub_self]) (by rw [dot_sub, hc, sub_self]) (by rw [dot_sub, hd, sub_self])
  rw [dot_sub, dot_sub, dot_sub] at hbalance
  rw [turn_eq_areas n a b c d]
  simp only [turn, Plane.distance]
  linear_combination -hbalance

end Vec

open Vec

/-- A flat polygon, strictly convex about its normal `n`: every corner lies to the left of every edge that
does not lead to it or from it. -/
structure ConvexAbout (n : Vec R) (points : List (Vec R)) : Prop where
  flat : ∀ p ∈ points, ∀ q ∈ points, n.dot p = n.dot q
  left : ∀ i k a b p, points[i]? = some a → points[(i + 1) % points.length]? = some b →
    points[k]? = some p → k ≠ i → k ≠ (i + 1) % points.length → 0 < turn n a b p

def cornerAt (points : List (Vec R)) (i : Nat) : Vec R := points.getD (i % points.length) 0

theorem getElem?_cornerAt (h : 0 < points.length) (i : Nat) :
    points[i % points.length]? = some (cornerAt points i) := by
  rw [cornerAt, List.getD_eq_getElem?_getD, List.getElem?_eq_getElem (Nat.mod_lt i h), Option.getD_some]

theorem cornerAt_mem (h : 0 < points.length) (i : Nat) : cornerAt points i ∈ points :=
  List.mem_of_getElem? (getElem?_cornerAt h i)

theorem cornerAt_mod (points : List (Vec R)) (i : Nat) :
    cornerAt points (i % points.length) = cornerAt points i := by
  rw [cornerAt, cornerAt, Nat.mod_mod]

theorem cornerAt_add_length (points : List (Vec R)) (i : Nat) :
    cornerAt points (i + points.length) = cornerAt points i := by
  rw [cornerAt, cornerAt, Nat.add_mod_right]

theorem cornerAt_eq {i : Nat} (h : points[i]? = some p) : cornerAt points i = p := by
  rw [cornerAt, Nat.mod_eq_of_lt (List.getElem?_eq_some_iff.mp h).1, List.getD_eq_getElem?_getD, h,
    Option.getD_some]

theorem getElem_cyclicPairs {i : Nat} (h : i < (cyclicPairs points).length) :
    (cyclicPairs points)[i] = (cornerAt points i, cornerAt points (i + 1)) := by
  have hlt : i < points.length := length_cyclicPairs points ▸ h
  have hfirst := getElem?_cornerAt (Nat.zero_lt_of_lt hlt) i
  rw [Nat.mod_eq_of_lt hlt] at hfirst
  exact (List.getElem?_eq_some_iff.mp (getElem?_cyclicPairs.mpr
    ⟨hfirst, getElem?_cornerAt (Nat.zero_lt_of_lt hlt) (i + 1)⟩)).2

theorem mod_ne_of_lt {i k m : Nat} (hik : i < k) (hk : k < i + m) : k % m ≠ i % m := by
  intro hmod
  have hdvd : m ∣ k - i := Nat.dvd_of_mod_eq_zero (Nat.sub_mod_eq_zero_of_mod_eq hmod)
  have hle : m ≤ k - i := Nat.le_of_dvd (by omega) hdvd
  omega

namespace ConvexAbout

variable {i j k m : Nat}

theorem turn_edge_pos (h : ConvexAbout n points) (hk : i + 1 < k) (hki : k < i + points.length) :
    0 < turn n (cornerAt points i) (cornerAt points (i + 1)) (cornerAt points k) := by
  have hpos : 0 < points.length := by omega
  have hnext : (i % points.length + 1) % points.length = (i + 1) % points.length := Nat.mod_add_mod _ _ _
  refine h.left (i % points.length) (k % points.length) _ _ _ (getElem?_cornerAt hpos i) ?_
    (getElem?_cornerAt hpos k) (mod_ne_of_lt (by omega) hki) ?_
  · rw [hnext]
    exact getElem?_cornerAt hpos (i + 1)
  · rw [hnext]
    exact mod_ne_of_lt hk (by omega)

theorem turn_pos (h : ConvexAbout n points) (hij : i < j) (hjk : j < k) (hki : k < i + points.length) :
    0 < turn n (cornerAt points i) (cornerAt points j) (cornerAt points k) := by
  -- seen from the corner `i`, the others follow one another to the left
  induction k, hjk using Nat.le_induction with
  | base =>
    have hedge := h.turn_edge_pos (i := j) (k := i + points.length) hki (by omega)
    rwa [cornerAt_add_length, turn_rotate] at hedge
  | succ k hjk ih =>
    have hstep := h.turn_edge_pos (i := k) (k := i + points.length) hki (by omega)
    rw [cornerAt_add_length, turn_rotate] at hstep
    obtain rfl | hfar := Nat.eq_or_lt_of_le (Nat.succ_le_of_lt hij)
    · exact h.turn_edge_pos (by omega) hki
    · exact turn_trans (h.turn_edge_pos hfar (by omega)) (h.turn_edge_pos (by omega) (by omega))
        (h.turn_edge_pos (by omega) hki) (ih (by omega)) hstep

theorem not_alternating (h : ConvexAbout n points) (plane : Plane R) (hij : i < j) (hjk : j < k)
    (hkm : k < m) (hmi : m < i + points.length) (hi : 0 < plane.distance (cornerAt points i))
    (hj : plane.distance (cornerAt points j) < 0) (hk : 0 < plane.distance (cornerAt points k)) :
    0 ≤ plane.distance (cornerAt points m) := by
  by_contra! hm
  have hflat (q : Nat) : n.dot (cornerAt points q) = n.dot (cornerAt points i) :=
    h.flat _ (cornerAt_mem (by omega) q) _ (cornerAt_mem (by omega) i)
  have hmeet := turn_diagonals plane (hflat j) (hflat k) (hflat m)
  have hfront := mul_pos (h.turn_pos hjk hkm (by omega)) hi
  have hfront' := mul_pos (h.turn_pos hij (hjk.trans hkm) hmi) hk
  have hback := mul_neg_of_pos_of_neg (h.turn_pos (hij.trans hjk) hkm hmi) hj
  have hback' := mul_neg_of_pos_of_neg (h.turn_pos hij hjk (by omega)) hm
  linarith

/-- Three corners after one another in the list turn left. -/
theorem of_triplewise (hflat : ∀ p ∈ points, ∀ q ∈ points, n.dot p = n.dot q)
    (h : points.Triplewise fun a b c => 0 < turn n a b c) : ConvexAbout n points := by
  refine ⟨hflat, fun i k a b p hi hnext hk hki hkn => ?_⟩
  rw [List.triplewise_iff_getElem] at h
  obtain ⟨hilt, rfl⟩ := List.getElem?_eq_some_iff.mp hi
  obtain ⟨hklt, rfl⟩ := List.getElem?_eq_some_iff.mp hk
  obtain ⟨hnlt, rfl⟩ := List.getElem?_eq_some_iff.mp hnext
  by_cases hlast : i + 1 = points.length
  · -- the edge back to the first corner
    have hzero : (i + 1) % points.length = 0 := by rw [hlast, Nat.mod_self]
    simp only [hzero] at hkn ⊢
    rw [← turn_rotate]
    exact h 0 k i (by omega) (by omega) hilt
  · have hsucc : (i + 1) % points.length = i + 1 := Nat.mod_eq_of_lt (by omega)
    simp only [hsucc] at hkn hnlt ⊢
    rcases Nat.lt_or_gt_of_ne hki with hlt | hgt
    · rw [turn_rotate]
      exact h k i (i + 1) hlt (by omega) hnlt
    · exact h i (i + 1) k (by omega) (by omega) hklt

theorem triplewise (h : ConvexAbout n points) : points.Triplewise fun a b c => 0 < turn n a b c := by
  rw [List.triplewise_iff_getElem]
  intro i j k hij hjk hk
  have hpos := h.turn_pos hij hjk (by omega)
  rwa [cornerAt_eq (List.getElem?_eq_getElem (by omega)), cornerAt_eq (List.getElem?_eq_getElem (by omega)),
    cornerAt_eq (List.getElem?_eq_getElem hk)] at hpos

end ConvexAbout

theorem convexAbout_iff : ConvexAbout n points ↔ (∀ p ∈ points, ∀ q ∈ points, n.dot p = n.dot q) ∧
    points.Triplewise fun a b c => 0 < turn n a b c :=
  ⟨fun h => ⟨h.flat, h.triplewise⟩, fun h => .of_triplewise h.1 h.2⟩

instance (n : Vec R) (points : List (Vec R)) : Decidable (ConvexAbout n points) :=
  decidable_of_iff _ convexAbout_iff.symm

end Sightline
