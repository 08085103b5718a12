import Sightline.Proofs.Convex
import Sightline.Proofs.Crossing

/-! What a cut leaves of a convex polygon. The points that are left lie on the outline of the polygon, in the
order in which one comes by, and never three of them on one edge, because an edge that is crossed loses an
end. So any three of them turn left again. Since a convex outline crosses a plane at most twice, there is at
most one point more than before. -/

namespace Sightline

variable {R : Type} [ExactScalar R] {n a b c d v x y z : Vec R} {points : List (Vec R)}

theorem triplewise_filterMap {α β : Type} {f : α → Option β} {r : β → β → β → Prop} {l : List α}
    (h : l.Triplewise fun a b c => ∀ x, f a = some x → ∀ y, f b = some y → ∀ z, f c = some z → r x y z) :
    (l.filterMap f).Triplewise r := by
  induction l with
  | nil => exact .nil
  | cons a l ih =>
    rw [List.triplewise_cons] at h
    cases ha : f a with
    | none =>
      rw [List.filterMap_cons_none ha]
      exact ih h.2
    | some x =>
      rw [List.filterMap_cons_some ha, List.triplewise_cons, List.pairwise_filterMap]
      exact ⟨h.1.imp fun hr y hy z hz => hr x ha y hy z hz, ih h.2⟩

theorem countP_le_one {α : Type} {p : α → Bool} {l : List α}
    (h : l.Pairwise fun a b => p a = true → p b = true → False) : l.countP p ≤ 1 := by
  induction l with
  | nil => simp
  | cons a l ih =>
    rw [List.pairwise_cons] at h
    by_cases ha : p a = true
    · have hnone : l.countP p = 0 := by
        rw [List.countP_eq_zero]
        exact fun b hb => h.1 b hb ha
      rw [List.countP_cons_of_pos ha, hnone]
    · rw [List.countP_cons_of_neg ha]
      exact ih h.2

namespace Vec

theorem between_self (a : Vec R) : a.Between a a := by
  refine ⟨1 / 2, by norm_num, by norm_num, ?_⟩
  simp only [toward, sub_self, mul_zero, add_zero]

theorem Between.dot_eq (h : a.Between b v) (hab : n.dot a = n.dot b) : n.dot v = n.dot b := by
  obtain ⟨t, -, -, rfl⟩ := h
  have hdot : n.dot (a.toward b t) = n.dot a + t * (n.dot b - n.dot a) := by
    simp only [dot, toward]
    ring
  rw [hdot, hab, sub_self, mul_zero, add_zero]

/-- Seen from a segment, a point between two others is weighed by both. -/
theorem Between.turn_eq (h : c.Between d z) (n : Vec R) : ∃ s t : R, 0 < s ∧ 0 < t ∧
    ∀ a b, turn n a b z = s * turn n a b c + t * turn n a b d := by
  obtain ⟨t, ht0, ht1, rfl⟩ := h
  exact ⟨1 - t, t, sub_pos.mpr ht1, ht0, fun a b => turn_toward n a b c d t⟩

theorem Between.turn_nonneg (h : c.Between d z) (hc : 0 ≤ turn n a b c) (hd : 0 ≤ turn n a b d) :
    0 ≤ turn n a b z := by
  obtain ⟨s, t, hs, ht, hz⟩ := h.turn_eq n
  rw [hz]
  exact add_nonneg (mul_nonneg hs.le hc) (mul_nonneg ht.le hd)

theorem Between.turn_pos (h : c.Between d z) (hc : 0 ≤ turn n a b c) (hd : 0 ≤ turn n a b d)
    (hpos : 0 < turn n a b c ∨ 0 < turn n a b d) : 0 < turn n a b z := by
  obtain ⟨s, t, hs, ht, hz⟩ := h.turn_eq n
  rw [hz]
  rcases hpos with hpos | hpos
  · exact add_pos_of_pos_of_nonneg (mul_pos hs hpos) (mul_nonneg ht.le hd)
  · exact add_pos_of_nonneg_of_pos (mul_nonneg hs.le hc) (mul_pos ht hpos)

end Vec

open Vec

namespace ConvexAbout

theorem turn_nonneg (h : ConvexAbout n points) {i j k : Nat} (hij : i ≤ j) (hjk : j ≤ k)
    (hki : k ≤ i + points.length) :
    0 ≤ turn n (cornerAt points i) (cornerAt points j) (cornerAt points k) := by
  obtain rfl | hij := Nat.eq_or_lt_of_le hij
  · rw [turn_self_left]
  obtain rfl | hjk := Nat.eq_or_lt_of_le hjk
  · rw [turn_self_right]
  obtain rfl | hki := Nat.eq_or_lt_of_le hki
  · rw [cornerAt_add_length, turn_self_ends]
  · exact (h.turn_pos hij hjk hki).le

/-- Three points on the way around, each between two corners that are one or the same, turn left if three
different ones of these corners are there to span an area. -/
theorem turn_pos_of_between (h : ConvexAbout n points) {i i' j j' k k' i₀ j₀ k₀ : Nat} (hi : i ≤ i')
    (hij : i' ≤ j) (hj : j ≤ j') (hjk : j' ≤ k) (hk : k ≤ k') (hki : k' ≤ i + points.length)
    (hx : (cornerAt points i).Between (cornerAt points i') x)
    (hy : (cornerAt points j).Between (cornerAt points j') y)
    (hz : (cornerAt points k).Between (cornerAt points k') z) (hi₀ : i₀ = i ∨ i₀ = i')
    (hj₀ : j₀ = j ∨ j₀ = j') (hk₀ : k₀ = k ∨ k₀ = k') (hij₀ : i₀ < j₀) (hjk₀ : j₀ < k₀)
    (hki₀ : k₀ < i₀ + points.length) : 0 < turn n x y z := by
  have hpos := h.turn_pos hij₀ hjk₀ hki₀
  -- the three points take the places of the corners one after the other
  have hz' (i₁ j₁ : Nat) (hi₁ : i₁ = i ∨ i₁ = i') (hj₁ : j₁ = j ∨ j₁ = j') :
      0 ≤ turn n z (cornerAt points i₁) (cornerAt points j₁) := by
    rw [← turn_rotate]
    exact hz.turn_nonneg (h.turn_nonneg (by omega) (by omega) (by omega))
      (h.turn_nonneg (by omega) (by omega) (by omega))
  have hzpos : 0 < turn n z (cornerAt points i₀) (cornerAt points j₀) := by
    rw [← turn_rotate]
    exact hz.turn_pos (h.turn_nonneg (by omega) (by omega) (by omega))
      (h.turn_nonneg (by omega) (by omega) (by omega)) (by rcases hk₀ with rfl | rfl <;> simp [hpos])
  have hy' (i₁ : Nat) (hi₁ : i₁ = i ∨ i₁ = i') : 0 ≤ turn n y z (cornerAt points i₁) := by
    rw [← turn_rotate]
    exact hy.turn_nonneg (hz' i₁ j hi₁ (.inl rfl)) (hz' i₁ j' hi₁ (.inr rfl))
  have hypos : 0 < turn n y z (cornerAt points i₀) := by
    rw [← turn_rotate]
    exact hy.turn_pos (hz' i₀ j hi₀ (.inl rfl)) (hz' i₀ j' hi₀ (.inr rfl))
      (by rcases hj₀ with rfl | rfl <;> simp [hzpos])
  rw [← turn_rotate]
  exact hx.turn_pos (hy' i (.inl rfl)) (hy' i' (.inr rfl)) (by rcases hi₀ with rfl | rfl <;> simp [hypos])

end ConvexAbout

namespace Winding

variable {w left : Winding R} {split : Plane R}

def Place.nth (k : Nat) : Place := if k % 2 = 0 then .corner (k / 2) else .edge (k / 2)

theorem Place.nth_even (k : Nat) : nth (2 * k) = .corner k := by simp [nth]

theorem Place.nth_odd (k : Nat) : nth (2 * k + 1) = .edge k := by
  have hodd : (2 * k + 1) % 2 ≠ 0 := by omega
  have hhalf : (2 * k + 1) / 2 = k := by omega
  rw [nth, if_neg hodd, hhalf]

theorem outline_eq_map (size : Nat) : outline size = (List.range (2 * size)).map Place.nth := by
  induction size with
  | zero => rfl
  | succ size ih =>
    rw [outline, List.range_succ, List.flatMap_append, ← outline, ih, Nat.mul_succ, List.range_succ,
      List.range_succ]
    simp [Place.nth_even, Place.nth_odd]

/-- What is in front at a place lies between the corners before and after it. -/
theorem between_of_inFront? (hunit : split.normal.normSq = 1) {k : Nat}
    (hv : w.inFront? split (Place.nth k) = some v) :
    (cornerAt w.points (k / 2)).Between (cornerAt w.points ((k + 1) / 2)) v := by
  unfold Place.nth at hv
  split at hv
  · next heven =>
    obtain ⟨hp, -⟩ := inFront?_corner.mp hv
    have hnext : (k + 1) / 2 = k / 2 := by omega
    rw [hnext, cornerAt_eq hp]
    exact between_self v
  · next hodd =>
    obtain ⟨a, b, ha, hb, hopposite, rfl⟩ := inFront?_edge.mp hv
    obtain ⟨t, ht0, ht1, heq, -⟩ := exists_crossing hunit hopposite
    have hnext : (k + 1) / 2 = k / 2 + 1 := by omega
    rw [hnext, ← cornerAt_mod w.points (k / 2 + 1), cornerAt_eq ha, cornerAt_eq hb, heq]
    exact ⟨t, ht0, ht1, rfl⟩

theorem side_of_inFront?_edge {k : Nat} (hedge : w.inFront? split (.edge k) = some v)
    (hk : split.side (cornerAt w.points k) ≠ .back) : split.side (cornerAt w.points (k + 1)) = .back := by
  obtain ⟨a, b, ha, hb, hopposite, -⟩ := inFront?_edge.mp hedge
  rw [cornerAt_eq ha] at hk
  rw [← cornerAt_mod, cornerAt_eq hb]
  exact (hopposite.resolve_right fun h => hk h.1).2

theorem side_of_inFront?_corner {k : Nat} (hv : w.inFront? split (.corner k) = some v) :
    split.side (cornerAt w.points k) ≠ .back := by
  obtain ⟨hp, hside⟩ := inFront?_corner.mp hv
  rwa [cornerAt_eq hp]

theorem turn_inFront?_pos (hunit : split.normal.normSq = 1) (hthree : 3 ≤ w.points.length)
    (hconvex : ConvexAbout n w.points) {i j k : Nat} (hij : i < j) (hjk : j < k)
    (hk : k < 2 * w.points.length) (hx : w.inFront? split (Place.nth i) = some x)
    (hy : w.inFront? split (Place.nth j) = some y) (hz : w.inFront? split (Place.nth k) = some z) :
    0 < turn n x y z := by
  -- the places are not a corner, the edge after it and the next corner
  have hrun : ¬(i % 2 = 0 ∧ j = i + 1 ∧ k = i + 2) := by
    rintro ⟨heven, rfl, rfl⟩
    obtain ⟨m, rfl⟩ := Nat.dvd_of_mod_eq_zero heven
    rw [Place.nth_even] at hx
    rw [Place.nth_odd] at hy
    have hnext : Place.nth (2 * m + 2) = .corner (m + 1) := Place.nth_even (m + 1)
    rw [hnext] at hz
    exact side_of_inFront?_corner hz (side_of_inFront?_edge hy (side_of_inFront?_corner hx))
  -- nor the first corner, the last one and the edge between them
  have hwrap : ¬(i = 0 ∧ j + 2 = 2 * w.points.length ∧ k + 1 = 2 * w.points.length) := by
    rintro ⟨rfl, hjlast, hklast⟩
    obtain ⟨m, hm⟩ : ∃ m, w.points.length = m + 1 := ⟨w.points.length - 1, by omega⟩
    obtain rfl : j = 2 * m := by omega
    obtain rfl : k = 2 * m + 1 := by omega
    rw [Place.nth_even] at hy
    rw [Place.nth_odd] at hz
    have hback := side_of_inFront?_edge hz (side_of_inFront?_corner hy)
    rw [← hm, ← Nat.zero_add w.points.length, cornerAt_add_length] at hback
    exact side_of_inFront?_corner (k := 0) hx hback
  obtain ⟨i₀, j₀, k₀, hi₀, hj₀, hk₀, hij₀, hjk₀, hki₀⟩ : ∃ i₀ j₀ k₀, (i₀ = i / 2 ∨ i₀ = (i + 1) / 2) ∧
      (j₀ = j / 2 ∨ j₀ = (j + 1) / 2) ∧ (k₀ = k / 2 ∨ k₀ = (k + 1) / 2) ∧ i₀ < j₀ ∧ j₀ < k₀ ∧
      k₀ < i₀ + w.points.length := by
    have hsome : (i / 2 < j / 2 ∧ j / 2 < k / 2) ∨
        (i / 2 < j / 2 ∧ j / 2 < (k + 1) / 2 ∧ (k + 1) / 2 < i / 2 + w.points.length) ∨
        (i / 2 < (j + 1) / 2 ∧ (j + 1) / 2 < k / 2) ∨
        ((i + 1) / 2 < (j + 1) / 2 ∧ (j + 1) / 2 < (k + 1) / 2 ∧
          (k + 1) / 2 < (i + 1) / 2 + w.points.length) := by omega
    rcases hsome with h | h | h | h
    · exact ⟨i / 2, j / 2, k / 2, by omega⟩
    · exact ⟨i / 2, j / 2, (k + 1) / 2, by omega⟩
    · exact ⟨i / 2, (j + 1) / 2, k / 2, by omega⟩
    · exact ⟨(i + 1) / 2, (j + 1) / 2, (k + 1) / 2, by omega⟩
  exact hconvex.turn_pos_of_between (by omega) (by omega) (by omega) (by omega) (by omega) (by omega)
    (between_of_inFront? hunit hx) (between_of_inFront? hunit hy) (between_of_inFront? hunit hz)
    hi₀ hj₀ hk₀ hij₀ hjk₀ hki₀

theorem triplewise_frontOutline (hunit : split.normal.normSq = 1) (hthree : 3 ≤ w.points.length)
    (hconvex : ConvexAbout n w.points) :
    (w.frontOutline split).Triplewise fun a b c => 0 < turn n a b c := by
  rw [frontOutline, outline_eq_map, List.filterMap_map]
  apply triplewise_filterMap
  rw [List.triplewise_iff_getElem]
  intro i j k hij hjk hk x hx y hy z hz
  rw [List.length_range] at hk
  rw [List.getElem_range] at hx hy hz
  exact turn_inFront?_pos hunit hthree hconvex hij hjk hk hx hy hz

theorem flat_frontOutline (hunit : split.normal.normSq = 1)
    (hflat : ∀ p ∈ w.points, ∀ q ∈ w.points, n.dot p = n.dot q) (hv : v ∈ w.frontOutline split) :
    ∀ q ∈ w.points, n.dot v = n.dot q := by
  intro q hq
  obtain ⟨i, hi | hi⟩ := mem_frontOutline.mp hv
  · exact hflat v (List.mem_of_getElem? (inFront?_corner.mp hi).1) q hq
  · obtain ⟨a, b, ha, hb, hopposite, rfl⟩ := inFront?_edge.mp hi
    obtain ⟨t, ht0, ht1, heq, -⟩ := exists_crossing hunit hopposite
    have hb := List.mem_of_getElem? hb
    have hbetween : a.Between b (a.toward b t) := ⟨t, ht0, ht1, rfl⟩
    rw [heq, hbetween.dot_eq (hflat a (List.mem_of_getElem? ha) b hb)]
    exact hflat b hb q hq

theorem convexAbout_frontOutline (hunit : split.normal.normSq = 1) (hthree : 3 ≤ w.points.length)
    (hconvex : ConvexAbout n w.points) : ConvexAbout n (w.frontOutline split) := by
  refine .of_triplewise (fun u hu v hv => ?_) (triplewise_frontOutline hunit hthree hconvex)
  have hfirst : cornerAt w.points 0 ∈ w.points := cornerAt_mem (by omega) 0
  rw [flat_frontOutline hunit hconvex.flat hu _ hfirst, flat_frontOutline hunit hconvex.flat hv _ hfirst]

def countFalls (w : Winding R) (split : Plane R) : Nat :=
  (cyclicPairs w.points).countP fun e => split.side e.1 = .front ∧ split.side e.2 = .back

theorem countAcross_eq (w : Winding R) (split : Plane R) :
    w.countAcross split = w.countFalls split + w.countFalls split.flipped := by
  have hpairs (l : List (Vec R × Vec R)) :
      l.countP (fun e => (split.side e.1).Opposite (split.side e.2)) =
        l.countP (fun e => split.side e.1 = .front ∧ split.side e.2 = .back) +
          l.countP (fun e => split.flipped.side e.1 = .front ∧ split.flipped.side e.2 = .back) := by
    simp only [Plane.side_flipped_eq_front, Plane.side_flipped_eq_back]
    induction l with
    | nil => rfl
    | cons e l ih =>
      rw [List.countP_cons, List.countP_cons, List.countP_cons, ih]
      cases split.side e.1 <;> cases split.side e.2 <;> simp [Side.Opposite] <;> omega
  exact hpairs _

/-- A convex outline falls to the back of a plane once at most. -/
theorem countFalls_le_one (hconvex : ConvexAbout n w.points) (split : Plane R) :
    w.countFalls split ≤ 1 := by
  apply countP_le_one
  rw [List.pairwise_iff_getElem]
  intro i j hi hj hij hfall hfall'
  rw [getElem_cyclicPairs, decide_eq_true_iff] at hfall hfall'
  rw [length_cyclicPairs] at hi hj
  obtain ⟨hfront, hback⟩ := hfall
  obtain ⟨hfront', hback'⟩ := hfall'
  -- the two falls have no end in common
  have hnext : i + 1 ≠ j := by
    rintro rfl
    rw [hback] at hfront'
    cases hfront'
  have hlast : j + 1 ≠ i + w.points.length := by
    intro heq
    rw [heq, cornerAt_add_length, hfront] at hback'
    cases hback'
  have hneg := Plane.distance_neg_of_back hback'
  exact hneg.not_ge (hconvex.not_alternating split (Nat.lt_succ_self i) (by omega) (Nat.lt_succ_self j)
    (by omega) (Plane.distance_pos_of_front hfront) (Plane.distance_neg_of_back hback)
    (Plane.distance_pos_of_front hfront'))

theorem countOn_add (w : Winding R) (split : Plane R) :
    w.countOn split .front + w.countOn split .on + w.countOn split .back = w.points.length := by
  unfold countOn
  induction w.points with
  | nil => rfl
  | cons p points ih =>
    rw [List.countP_cons, List.countP_cons, List.countP_cons, List.length_cons, ← ih]
    cases split.side p <;> simp <;> omega

theorem length_frontOutline_le (hconvex : ConvexAbout n w.points) (hback : 0 < w.countOn split .back) :
    (w.frontOutline split).length ≤ w.points.length + 1 := by
  have hfalls := countFalls_le_one hconvex split
  have hfalls' := countFalls_le_one hconvex split.flipped
  have hcorners := countOn_add w split
  rw [length_frontOutline, countAcross_eq]
  omega

/-- Cutting a flat, strictly convex winding leaves one of the same kind, in the same plane and convex about
the same normal, with one point more at most. -/
theorem front?_convex {keepOn : Bool} (hunit : split.normal.normSq = 1) (hthree : 3 ≤ w.points.length)
    (hconvex : ConvexAbout n w.points) (hleft : w.front? split keepOn = some left) :
    ConvexAbout n left.points ∧ (∀ p ∈ left.points, ∀ q ∈ w.points, n.dot p = n.dot q) ∧
      3 ≤ left.points.length ∧ left.points.length ≤ w.points.length + 1 := by
  rcases front?_eq_some.mp hleft with hcut | hcut
  · obtain ⟨rfl, -⟩ := cut_eq_whole.mp hcut
    exact ⟨hconvex, hconvex.flat, hthree, Nat.le_succ _⟩
  · obtain ⟨rfl, hfront, hback⟩ := cut_eq_trimmed.mp hcut
    exact ⟨convexAbout_frontOutline hunit hthree hconvex, fun p => flat_frontOutline hunit hconvex.flat,
      three_le_frontOutline hfront hback, length_frontOutline_le hconvex hback⟩

/-- A square on its tip, with a corner behind the plane `tilted`. -/
def diamond : Winding ℚ := ⟨[⟨0, 0, 2⟩, ⟨4, -1, 2⟩, ⟨5, 3, 2⟩, ⟨1, 4, 2⟩], true⟩

/-- The corner is cut off, so there are five corners then. -/
theorem diamond_convex : tilted.normal.normSq = 1 ∧ 3 ≤ diamond.points.length ∧
    ConvexAbout ⟨0, 0, 1⟩ diamond.points ∧ ∃ left, diamond.front? tilted false = some left ∧
      ConvexAbout ⟨0, 0, 1⟩ left.points ∧ left.points.length = diamond.points.length + 1 := by
  have hunit : tilted.normal.normSq = 1 := by decide +kernel
  have hthree : 3 ≤ diamond.points.length := by decide
  have hconvex : ConvexAbout ⟨0, 0, 1⟩ diamond.points := by decide +kernel
  have hcut : diamond.front? tilted false = some ⟨diamond.frontOutline tilted, false⟩ :=
    front?_of_both (by decide +kernel) (by decide +kernel)
  obtain ⟨hleft, -, -, -⟩ := front?_convex hunit hthree hconvex hcut
  exact ⟨hunit, hthree, hconvex, _, hcut, hleft, by decide +kernel⟩

end Winding

end Sightline
