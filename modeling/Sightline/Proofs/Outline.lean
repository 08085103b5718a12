import Sightline.Proofs.Cut

/-! The outcome of a cut, and the outline of what it leaves. Which of the three outcomes it is depends on how
many corners lie before and behind the plane. What is left is told along the outline of the winding: place by
place there is one point or none. Nothing is asked of the numbers, so this holds for doubles as they are. -/

namespace Sightline

def Side.Opposite (a b : Side) : Prop := a = .front ∧ b = .back ∨ a = .back ∧ b = .front

instance : DecidableRel Side.Opposite := fun _ _ => inferInstanceAs (Decidable (_ ∨ _))

namespace Winding

/-- A place on the outline of a winding: a corner, or the edge from this corner to its successor. -/
inductive Place where
  | corner (i : Nat)
  | edge (i : Nat)

/-- The outline of a winding with so many corners: all its places, in the order in which one comes by. -/
def outline (size : Nat) : List Place := (List.range size).flatMap fun i => [.corner i, .edge i]

variable {R : Type} [Scalar R]

def Corner.of (split : Plane R) (p : Vec R) : Corner R := ⟨p, split.distance p⟩

@[simp] theorem Corner.side_of (split : Plane R) (p : Vec R) : (of split p).side = split.side p := rfl

@[simp] theorem Corner.point_of (split : Plane R) (p : Vec R) : (of split p).point = p := rfl

/-- What is in front at a place. A corner that is not behind the plane stays as it is; an edge that leads
from one side to the other gives the crossing. -/
def inFront? (w : Winding R) (split : Plane R) : Place → Option (Vec R)
  | .corner i => w.points[i]?.filter fun p => split.side p ≠ .back
  | .edge i =>
    match w.points[i]?, w.points[(i + 1) % w.points.length]? with
    | some a, some b =>
      if (split.side a).Opposite (split.side b) then some (crossing split (.of split a) (.of split b))
      else none
    | _, _ => none

def frontOutline (w : Winding R) (split : Plane R) : List (Vec R) :=
  (outline w.points.length).filterMap (w.inFront? split)

def countOn (w : Winding R) (split : Plane R) (side : Side) : Nat := w.points.countP (split.side · = side)

variable {w : Winding R} {split : Plane R} {i : Nat} {a b v : Vec R}

theorem inFront?_corner : w.inFront? split (.corner i) = some v ↔
    w.points[i]? = some v ∧ split.side v ≠ .back := by
  rw [inFront?, Option.filter_eq_some_iff, decide_eq_true_iff]

theorem inFront?_edge : w.inFront? split (.edge i) = some v ↔ ∃ a b, w.points[i]? = some a ∧
    w.points[(i + 1) % w.points.length]? = some b ∧ (split.side a).Opposite (split.side b) ∧
    v = crossing split (.of split a) (.of split b) := by
  rw [inFront?]
  split
  · next a b ha hb => simp [ha, hb, eq_comm]
  · next hnone =>
    refine iff_of_false nofun ?_
    rintro ⟨a, b, ha, hb, -⟩
    exact hnone a b ha hb

theorem head?_kept (h : split.side a ≠ .back) (b : Vec R) :
    (kept split (.of split a) (.of split b)).head? = some a := by
  rw [kept, Corner.side_of, Corner.side_of]
  cases ha : split.side a with
  | back => exact absurd ha h
  | on => rfl
  | front => cases split.side b <;> rfl

theorem kept_of_not_back (ha : split.side a ≠ .back) (hb : split.side b ≠ .back) :
    kept split (.of split a) (.of split b) = [a] := by
  rw [kept, Corner.side_of, Corner.side_of]
  cases hsa : split.side a with
  | back => exact absurd hsa ha
  | on => rfl
  | front =>
    cases hsb : split.side b with
    | back => exact absurd hsb hb
    | on => rfl
    | front => rfl

theorem kept_of_front_of_back (ha : split.side a = .front) (hb : split.side b = .back) :
    kept split (.of split a) (.of split b) = [a, crossing split (.of split a) (.of split b)] := by
  rw [kept, Corner.side_of, Corner.side_of, ha, hb]
  rfl

theorem kept_of_back_of_front (ha : split.side a = .back) (hb : split.side b = .front) :
    kept split (.of split a) (.of split b) = [crossing split (.of split a) (.of split b)] := by
  rw [kept, Corner.side_of, Corner.side_of, ha, hb]

theorem kept_of_back_of_back (ha : split.side a = .back) (hb : split.side b = .back) :
    kept split (.of split a) (.of split b) = [] := by
  rw [kept, Corner.side_of, Corner.side_of, ha, hb]

/-- What is kept of a corner and the edge that leaves it is what is in front at these two places. -/
theorem filterMap_inFront? (ha : w.points[i]? = some a)
    (hb : w.points[(i + 1) % w.points.length]? = some b) :
    [Place.corner i, Place.edge i].filterMap (w.inFront? split) =
      kept split (.of split a) (.of split b) := by
  have hcorner : w.inFront? split (.corner i) = if split.side a = .back then none else some a := by
    simp [inFront?, ha, Option.filter]
  have hedge : w.inFront? split (.edge i) = if (split.side a).Opposite (split.side b) then
      some (crossing split (.of split a) (.of split b)) else none := by
    rw [inFront?, ha, hb]
  simp only [List.filterMap_cons, List.filterMap_nil, hcorner, hedge]
  rw [kept, Corner.side_of, Corner.side_of]
  cases split.side a <;> cases split.side b <;> simp [Side.Opposite]

/-- The outline of the part in front is what the edges leave, one after the other. -/
theorem frontOutline_eq (w : Winding R) (split : Plane R) : w.frontOutline split =
    (cyclicPairs w.points).flatMap fun e => kept split (.of split e.1) (.of split e.2) := by
  rw [frontOutline, outline, List.filterMap_flatMap, List.flatMap_def, List.flatMap_def]
  congr 1
  apply List.ext_getElem?
  intro i
  rw [List.getElem?_map, List.getElem?_map]
  cases he : (cyclicPairs w.points)[i]? with
  | none =>
    rw [List.getElem?_eq_none_iff, length_cyclicPairs] at he
    rw [List.getElem?_eq_none_iff.mpr (by rwa [List.length_range])]
    rfl
  | some e =>
    obtain ⟨ha, hb⟩ := getElem?_cyclicPairs.mp he
    rw [List.getElem?_range (List.getElem?_eq_some_iff.mp ha).1, Option.map_some, Option.map_some,
      filterMap_inFront? ha hb]

theorem flatMap_kept (w : Winding R) (split : Plane R) :
    ((cyclicPairs (w.corners split)).flatMap fun e => kept split e.1 e.2) = w.frontOutline split := by
  have hcorners : w.corners split = w.points.map (Corner.of split) := rfl
  rw [hcorners, cyclicPairs_map, List.flatMap_map, frontOutline_eq]
  rfl

theorem countP_corners (w : Winding R) (split : Plane R) (side : Side) :
    (w.corners split).countP (·.side = side) = w.countOn split side := by
  rw [corners, List.countP_map]
  rfl

theorem three_le_frontOutline (hfront : 0 < w.countOn split .front) (hback : 0 < w.countOn split .back) :
    3 ≤ (w.frontOutline split).length := by
  rw [← countP_corners, List.countP_pos_iff] at hfront hback
  obtain ⟨f, hf, hfside⟩ := hfront
  obtain ⟨b, hb, hbside⟩ := hback
  rw [← flatMap_kept]
  exact three_le_kept split hf (of_decide_eq_true hfside) hb (of_decide_eq_true hbside)

def countAcross (w : Winding R) (split : Plane R) : Nat :=
  (cyclicPairs w.points).countP fun e => (split.side e.1).Opposite (split.side e.2)

theorem length_kept (split : Plane R) (a b : Vec R) : (kept split (.of split a) (.of split b)).length =
    (if split.side a = .back then 0 else 1) + if (split.side a).Opposite (split.side b) then 1 else 0 := by
  rw [kept, Corner.side_of, Corner.side_of]
  cases split.side a <;> cases split.side b <;> rfl

/-- Every corner that is not behind the plane gives one point, and every edge that leads across another. -/
theorem length_frontOutline (w : Winding R) (split : Plane R) : (w.frontOutline split).length =
    w.countOn split .front + w.countOn split .on + w.countAcross split := by
  have hpairs (l : List (Vec R × Vec R)) :
      (l.flatMap fun e => kept split (.of split e.1) (.of split e.2)).length =
        (l.map Prod.fst).countP (split.side · = .front) + (l.map Prod.fst).countP (split.side · = .on) +
          l.countP fun e => (split.side e.1).Opposite (split.side e.2) := by
    induction l with
    | nil => rfl
    | cons e l ih =>
      rw [List.flatMap_cons, List.length_append, length_kept, ih, List.map_cons, List.countP_cons,
        List.countP_cons, List.countP_cons]
      cases split.side e.1 <;> simp <;> omega
  rw [frontOutline_eq, hpairs, map_fst_cyclicPairs]
  rfl

theorem filter_sublist_frontOutline (w : Winding R) (split : Plane R) :
    (w.points.filter fun p => split.side p ≠ .back).Sublist (w.frontOutline split) := by
  have hcorner (a b : Vec R) : ([a].filter fun p => split.side p ≠ .back).Sublist
      (kept split (.of split a) (.of split b)) := by
    rw [kept, Corner.side_of, Corner.side_of, List.filter_singleton]
    cases split.side a <;> cases split.side b <;> simp
  have hpairs (l : List (Vec R × Vec R)) : ((l.map Prod.fst).filter fun p => split.side p ≠ .back).Sublist
      (l.flatMap fun e => kept split (.of split e.1) (.of split e.2)) := by
    induction l with
    | nil => exact .slnil
    | cons e l ih =>
      rw [List.map_cons, ← List.singleton_append, List.filter_append, List.flatMap_cons]
      exact (hcorner e.1 e.2).append ih
  have hall := hpairs (cyclicPairs w.points)
  rwa [map_fst_cyclicPairs, ← frontOutline_eq] at hall

theorem mem_frontOutline : v ∈ w.frontOutline split ↔
    ∃ i, w.inFront? split (.corner i) = some v ∨ w.inFront? split (.edge i) = some v := by
  have hlt {i : Nat} {p : Vec R} (h : w.points[i]? = some p) : i < w.points.length :=
    (List.getElem?_eq_some_iff.mp h).1
  rw [frontOutline, List.mem_filterMap]
  constructor
  · rintro ⟨place, -, hv⟩
    cases place with
    | corner i => exact ⟨i, .inl hv⟩
    | edge i => exact ⟨i, .inr hv⟩
  · rintro ⟨i, hv | hv⟩
    · obtain ⟨hp, -⟩ := inFront?_corner.mp hv
      exact ⟨_, List.mem_flatMap.mpr ⟨i, List.mem_range.mpr (hlt hp), .head _⟩, hv⟩
    · obtain ⟨a, b, ha, -⟩ := inFront?_edge.mp hv
      exact ⟨_, List.mem_flatMap.mpr ⟨i, List.mem_range.mpr (hlt ha), .tail _ (.head _)⟩, hv⟩

/-- The outcome in terms of the corners on each side. -/
theorem cut_eq (w : Winding R) (split : Plane R) (keepOn : Bool) : w.cut split keepOn =
    if w.countOn split .back = 0 ∧ (0 < w.countOn split .front ∨ keepOn = true) then .whole w
    else if 0 < w.countOn split .front ∧ 0 < w.countOn split .back then
      .trimmed ⟨w.frontOutline split, false⟩
    else .gone := by
  unfold cut
  dsimp only
  rw [countP_corners, countP_corners, flatMap_kept]
  rcases Nat.eq_zero_or_pos (w.countOn split .front) with hfront | hfront
  · rcases Nat.eq_zero_or_pos (w.countOn split .back) with hback | hback
    · cases keepOn <;> simp [hfront, hback]
    · simp [hfront, hback, Nat.ne_of_gt]
  · rcases Nat.eq_zero_or_pos (w.countOn split .back) with hback | hback
    · simp [hfront, hback, Nat.ne_of_gt]
    · have hthree := three_le_frontOutline hfront hback
      simp [hfront, hback, Nat.ne_of_gt, Nat.not_lt.mpr hthree]

theorem cut_eq_whole {keepOn : Bool} {left : Winding R} : w.cut split keepOn = .whole left ↔
    left = w ∧ w.countOn split .back = 0 ∧ (0 < w.countOn split .front ∨ keepOn = true) := by
  rw [cut_eq]
  split_ifs with hwhole hboth
  · simp [hwhole, eq_comm]
  · simp [hwhole]
  · simp [hwhole]

theorem cut_eq_trimmed {keepOn : Bool} {left : Winding R} : w.cut split keepOn = .trimmed left ↔
    left = ⟨w.frontOutline split, false⟩ ∧ 0 < w.countOn split .front ∧ 0 < w.countOn split .back := by
  rw [cut_eq]
  split_ifs with hwhole hboth
  · simp [hwhole.1]
  · simp [hboth, eq_comm]
  · simp [hboth]

theorem cut_eq_gone {keepOn : Bool} : w.cut split keepOn = .gone ↔
    w.countOn split .front = 0 ∧ (0 < w.countOn split .back ∨ keepOn = false) := by
  rw [cut_eq]
  split_ifs with hwhole hboth
  · refine iff_of_false nofun ?_
    grind
  · refine iff_of_false nofun ?_
    omega
  · refine iff_of_true rfl ?_
    grind

theorem front?_eq_some {keepOn : Bool} {left : Winding R} : w.front? split keepOn = some left ↔
    w.cut split keepOn = .whole left ∨ w.cut split keepOn = .trimmed left := by
  rw [front?]
  cases w.cut split keepOn <;> simp [Remnant.winding?]

/-- What is left is all of the winding, with nothing behind the plane, or the outline of the part in front. -/
theorem front?_cases {keepOn : Bool} {left : Winding R} (h : w.front? split keepOn = some left) :
    left = w ∧ w.countOn split .back = 0 ∨ left = ⟨w.frontOutline split, false⟩ ∧
      0 < w.countOn split .front ∧ 0 < w.countOn split .back := by
  rcases front?_eq_some.mp h with hwhole | htrimmed
  · obtain ⟨hleft, hback, -⟩ := cut_eq_whole.mp hwhole
    exact .inl ⟨hleft, hback⟩
  · exact .inr (cut_eq_trimmed.mp htrimmed)

theorem front?_of_both {keepOn : Bool} (hfront : 0 < w.countOn split .front)
    (hback : 0 < w.countOn split .back) :
    w.front? split keepOn = some ⟨w.frontOutline split, false⟩ :=
  front?_eq_some.mpr (.inr (cut_eq_trimmed.mpr ⟨rfl, hfront, hback⟩))

theorem front?_eq_none {keepOn : Bool} (hw : w.points ≠ []) (h : ∀ v ∈ w.points, split.side v = .back) :
    w.front? split keepOn = none := by
  obtain ⟨v, hv⟩ := List.exists_mem_of_ne_nil _ hw
  have hfront : w.countOn split .front = 0 := by
    rw [countOn, List.countP_eq_zero]
    intro u hu
    simp [h u hu]
  have hback : 0 < w.countOn split .back := List.countP_pos_iff.mpr ⟨v, hv, decide_eq_true (h v hv)⟩
  rw [front?, cut_eq_gone.mpr ⟨hfront, .inl hback⟩]
  rfl

/-- A cut leaves the winding as it is if nothing lies behind the plane and something before it, or if all of
it lies on the plane and may be kept. It trims the winding if there are corners on both sides; the result is
new then, and is the outline of the part in front. Nothing is left otherwise. The outline has the corners that
are not behind the plane in their order, one point more for each edge that leads across, and so three points
at least if there are corners on both sides. -/
theorem cut_outcome (w : Winding R) (split : Plane R) (keepOn : Bool) :
    (∀ left, w.cut split keepOn = .whole left ↔ left = w ∧ w.countOn split .back = 0 ∧
      (0 < w.countOn split .front ∨ keepOn = true)) ∧
    (∀ left, w.cut split keepOn = .trimmed left ↔ left = ⟨w.frontOutline split, false⟩ ∧
      0 < w.countOn split .front ∧ 0 < w.countOn split .back) ∧
    (w.cut split keepOn = .gone ↔ w.countOn split .front = 0 ∧
      (0 < w.countOn split .back ∨ keepOn = false)) ∧
    (w.points.filter fun p => split.side p ≠ .back).Sublist (w.frontOutline split) ∧
    (w.frontOutline split).length =
      w.countOn split .front + w.countOn split .on + w.countAcross split ∧
    (0 < w.countOn split .front ∧ 0 < w.countOn split .back → 3 ≤ (w.frontOutline split).length) :=
  ⟨fun _ => cut_eq_whole, fun _ => cut_eq_trimmed, cut_eq_gone, filter_sublist_frontOutline w split,
    length_frontOutline w split, fun h => three_le_frontOutline h.1 h.2⟩

/-- Five corners, one of them nowhere: it compares with nothing. -/
def frayed : Winding Float :=
  ⟨[⟨0, 0, 0⟩, ⟨4, 0, 0⟩, ⟨4, 4, 0⟩, ⟨0 / 0, 2, 0⟩, ⟨0, 4, 0⟩], true⟩

/-- Two corners lie before the plane, the corner that is nowhere is kept, and one edge leads across. -/
theorem frayed_outcome : frayed.cut ⟨⟨1, 0, 0⟩, 2⟩ false =
      .trimmed ⟨frayed.frontOutline ⟨⟨1, 0, 0⟩, 2⟩, false⟩ ∧
    (frayed.frontOutline ⟨⟨1, 0, 0⟩, 2⟩).length = 2 + 1 + 1 ∧
    3 ≤ (frayed.frontOutline ⟨⟨1, 0, 0⟩, 2⟩).length := by
  obtain ⟨-, htrimmed, -, -, hlen, hthree⟩ := cut_outcome frayed ⟨⟨1, 0, 0⟩, 2⟩ false
  have hfront : frayed.countOn ⟨⟨1, 0, 0⟩, 2⟩ .front = 2 := by decide +kernel
  have hon : frayed.countOn ⟨⟨1, 0, 0⟩, 2⟩ .on = 1 := by decide +kernel
  have hback : frayed.countOn ⟨⟨1, 0, 0⟩, 2⟩ .back = 2 := by decide +kernel
  have hacross : frayed.countAcross ⟨⟨1, 0, 0⟩, 2⟩ = 1 := by decide +kernel
  rw [hfront, hon, hacross] at hlen
  rw [hfront, hback] at htrimmed hthree
  exact ⟨(htrimmed _).mpr ⟨rfl, by decide, by decide⟩, hlen, hthree ⟨by decide, by decide⟩⟩

end Winding

end Sightline
