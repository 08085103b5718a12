import Sightline.Geometry.Cut
import Sightline.Proofs.Cycle

/-! What a cut keeps. Going around a winding that has corners on both sides, one has to cross over to the
back and over to the front again, so with the corner in between at least three points are kept. -/

namespace Sightline

namespace Winding

variable {R : Type} [Scalar R] {split : Plane R}

/-- The points kept along a path from one corner to another; what is kept of the last one is not counted. -/
def keptAlong (split : Plane R) (a : Corner R) (path : List (Corner R)) (z : Corner R) : Nat :=
  (((a :: path).zip (path ++ [z])).flatMap fun e => kept split e.1 e.2).length

def descent : Side → Nat
  | .front => 2
  | .on => 1
  | .back => 0

def ascent : Side → Nat
  | .front => 0
  | .on => 1
  | .back => 1

theorem descent_le (a b : Corner R) : descent a.side ≤ (kept split a b).length + descent b.side := by
  unfold kept
  cases a.side <;> cases b.side <;> simp [descent]

theorem ascent_le (a b : Corner R) : ascent a.side ≤ (kept split a b).length + ascent b.side := by
  unfold kept
  cases a.side <;> cases b.side <;> simp [ascent]

theorem le_keptAlong {left : Side → Nat}
    (h : ∀ a b : Corner R, left a.side ≤ (kept split a b).length + left b.side) (a : Corner R)
    (path : List (Corner R)) (z : Corner R) :
    left a.side ≤ keptAlong split a path z + left z.side := by
  induction path generalizing a with
  | nil => simpa [keptAlong] using h a z
  | cons b path ih =>
    have hstep : keptAlong split a (b :: path) z =
        (kept split a b).length + keptAlong split b path z := by
      simp [keptAlong]
    have hb := h a b
    have hpath := ih b
    omega

theorem keptAlong_append (a f z : Corner R) (path path' : List (Corner R)) :
    keptAlong split a (path ++ f :: path') z =
      keptAlong split a path f + keptAlong split f path' z := by
  have hsplit : (a :: (path ++ f :: path')).zip (path ++ f :: path' ++ [z]) =
      (a :: path).zip (path ++ [f]) ++ (f :: path').zip (path' ++ [z]) := by
    rw [← List.zip_append (by simp)]
    simp
  rw [keptAlong, hsplit, List.flatMap_append, List.length_append]
  rfl

theorem three_le_kept (split : Plane R) {corners : List (Corner R)} {f b : Corner R} (hf : f ∈ corners)
    (hfront : f.side = .front) (hb : b ∈ corners) (hback : b.side = .back) :
    3 ≤ ((cyclicPairs corners).flatMap fun e => kept split e.1 e.2).length := by
  obtain ⟨n, hn, rfl⟩ := List.getElem_of_mem hb
  -- the cycle is read from the corner behind the plane on
  have hrot : corners.rotate n = corners[n] :: (corners.drop (n + 1) ++ corners.take n) := by
    rw [List.rotate_eq_drop_append_take (Nat.le_of_lt hn), List.drop_eq_getElem_cons hn,
      List.cons_append]
  have hne : f ≠ corners[n] := by
    rintro rfl
    rw [hback] at hfront
    cases hfront
  have hf' : f ∈ corners.drop (n + 1) ++ corners.take n := by
    have hmem : f ∈ corners.rotate n := List.mem_rotate.mpr hf
    rw [hrot] at hmem
    exact (List.mem_cons.mp hmem).resolve_left hne
  obtain ⟨path, path', hpath⟩ := List.append_of_mem hf'
  have hlen : ((cyclicPairs corners).flatMap fun e => kept split e.1 e.2).length =
      keptAlong split corners[n] path f + keptAlong split f path' corners[n] := by
    rw [← keptAlong_append, ← hpath, keptAlong]
    have hperm : (cyclicPairs corners).Perm (cyclicPairs (corners.rotate n)) := cyclicPairs_perm ⟨n, rfl⟩
    rw [(hperm.flatMap_right _).length_eq, hrot]
    simp [cyclicPairs]
  have hup : ascent corners[n].side ≤ keptAlong split corners[n] path f + ascent f.side :=
    le_keptAlong ascent_le _ path f
  have hdown : descent f.side ≤ keptAlong split f path' corners[n] + descent corners[n].side :=
    le_keptAlong descent_le f path' _
  rw [hback, hfront] at hup hdown
  simp only [ascent, descent] at hup hdown
  omega

/-- A corner in front of the plane survives the cut, so something is left. -/
theorem front?_of_front {w : Winding R} {v : Vec R} (hv : v ∈ w.points)
    (hfront : split.side v = .front) (keepOn : Bool) :
    ∃ left, w.front? split keepOn = some left ∧ v ∈ left.points := by
  have hcorner : (⟨v, split.distance v⟩ : Corner R) ∈ w.corners split :=
    List.mem_map_of_mem (f := fun p => (⟨p, split.distance p⟩ : Corner R)) hv
  have hside : (⟨v, split.distance v⟩ : Corner R).side = .front := hfront
  have hcount : (w.corners split).countP (·.side = .front) ≠ 0 := by
    rw [Ne, List.countP_eq_zero]
    intro hnone
    exact hnone _ hcorner (decide_eq_true hside)
  unfold front? cut
  dsimp only
  rw [if_neg (by simp [hcount]), if_neg hcount]
  split
  · exact ⟨w, rfl, hv⟩
  · next hback =>
    obtain ⟨b, hb, hbside⟩ : ∃ b ∈ w.corners split, b.side = .back := by
      simpa [List.countP_eq_zero] using hback
    have hlen := three_le_kept split hcorner hside hb hbside
    rw [if_neg (Nat.not_lt.mpr hlen)]
    refine ⟨_, rfl, ?_⟩
    obtain ⟨next, hnext⟩ := exists_mem_cyclicPairs hcorner
    refine List.mem_flatMap.mpr ⟨_, hnext, ?_⟩
    unfold kept
    rw [hside]
    cases next.side <;> simp

end Winding

end Sightline
