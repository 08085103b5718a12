import Sightline.Proofs.Reach

/-! The plane of a polygon, without rounding. It depends on the cycle of the corners and not on where the list
of them begins, and read backwards the cycle gives the same plane turned around. So the two portals of an
opening, of which one has the corners and the plane of the other turned around, both have the plane of their own
corners. -/

namespace Sightline

variable {R : Type} [ExactScalar R] {points points' : List (Vec R)}

namespace Vec

theorem norm_neg (v : Vec R) : (-v).norm = v.norm := by
  have hsq : (-v).normSq = v.normSq := by
    simp only [normSq, dot, neg_def]
    ring
  rw [norm, norm, hsq]

theorem neg_divide (v : Vec R) (s : R) : -v / s = -(v / s) := by
  ext <;> exact neg_div _ _

theorem neg_dot (v p : Vec R) : (-v).dot p = -v.dot p := by
  simp only [dot, neg_def]
  ring

end Vec

namespace Plane

/-- Every edge is run through the other way, so every cross product turns around. -/
theorem newell_reverse (points : List (Vec R)) : newell points.reverse = -newell points := by
  have hback : newell points.reverse = ((cyclicPairs points).map fun e => e.2.cross e.1).sum := by
    rw [newell_eq, cyclicPairs_reverse, ((List.rotate_perm _ 1).map _).sum_eq, List.map_reverse,
      List.sum_reverse, List.map_map]
    rfl
  rw [hback, newell_eq, eq_neg_iff_add_eq_zero, ← List.sum_map_add]
  simp [Vec.cross_swap]

theorem directed?_neg (v p : Vec R) : directed? (-v) p = (directed? v p).map flipped := by
  unfold directed?
  rw [Vec.norm_neg]
  split
  · rfl
  · simp only [Option.map_some, flipped, Vec.neg_divide, Vec.neg_dot]

theorem ofPolygon?_isRotated (h : points ~r points') : ofPolygon? points = ofPolygon? points' := by
  rw [ofPolygon?, ofPolygon?, h.perm.length_eq, newell_isRotated h, Vec.centroid_perm h.perm]

theorem ofPolygon?_reverse (points : List (Vec R)) :
    ofPolygon? points.reverse = (ofPolygon? points).map flipped := by
  rw [ofPolygon?, ofPolygon?, List.length_reverse, newell_reverse, Vec.centroid_perm (List.reverse_perm points),
    directed?_neg]
  split <;> rfl

end Plane

namespace Graph

variable {g g' : Graph R} {back front : ClusterId} {opening : Opening}

omit [ExactScalar R] in
theorem portalOf_plane? [Scalar R] {portal : Portal R} (h : portalOf points back front = .ok portal) :
    portal.winding.plane? = some portal.plane := by
  obtain ⟨w, -, h⟩ := bind_eq_ok.mp h
  split at h
  · next plane hplane =>
    cases h
    exact hplane
  · cases h

omit [ExactScalar R] in
theorem exists_portals_of_add [Scalar R] (h : g.add points back front = .ok (opening, g')) : ∃ portal,
    portalOf points back front = .ok portal ∧ g'.portals[opening.forward]? = some portal ∧
    g'.portals[opening.backward]? = some portal.reversed := by
  obtain ⟨-, -, portal, hportal, rfl⟩ := add_eq_ok h
  obtain ⟨hforward, hbackward⟩ := add_opening h
  refine ⟨portal, hportal, ?_, ?_⟩
  · rw [hforward]
    exact getElem?_push_push.mpr (.inr (.inl ⟨rfl, rfl⟩))
  · rw [hbackward]
    exact getElem?_push_push.mpr (.inr (.inr ⟨rfl, rfl⟩))

end Graph

/-- Wherever one starts to read the corners, the plane is the same, and there is none or there is one all the
same. Read backwards they give the plane turned around. What an opening stores for the portal back is therefore
the plane of that portal's own winding, as it is for the portal ahead. -/
theorem ofPolygon?_follows_cycle (R : Type) [ExactScalar R] :
    (∀ (points : List (Vec R)) (n : Nat), Plane.ofPolygon? (points.rotate n) = Plane.ofPolygon? points) ∧
    (∀ points : List (Vec R), Plane.ofPolygon? points.reverse = (Plane.ofPolygon? points).map Plane.flipped) ∧
    ∀ (g g' : Graph R) (points : List (Vec R)) (back front : ClusterId) (opening : Opening),
      g.add points back front = .ok (opening, g') → ∃ ahead behind,
        g'.portals[opening.forward]? = some ahead ∧ g'.portals[opening.backward]? = some behind ∧
        behind.plane = ahead.plane.flipped ∧ behind.winding = ahead.winding.reversed ∧
        ahead.winding.plane? = some ahead.plane ∧ behind.winding.plane? = some behind.plane := by
  refine ⟨fun points n => Plane.ofPolygon?_isRotated (.symm ⟨n, rfl⟩), Plane.ofPolygon?_reverse, ?_⟩
  intro g g' points back front opening hadd
  obtain ⟨portal, hportal, hforward, hbackward⟩ := Graph.exists_portals_of_add hadd
  have hplane := Graph.portalOf_plane? hportal
  refine ⟨portal, portal.reversed, hforward, hbackward, rfl, rfl, hplane, ?_⟩
  calc portal.reversed.winding.plane?
    _ = portal.winding.plane?.map Plane.flipped := Plane.ofPolygon?_reverse _
    _ = some portal.reversed.plane := by
      rw [hplane]
      rfl

/-- Between two rooms, the doorway leads along the first axis one way and against it the other way. -/
theorem doorway_planes : ∃ (g : Graph ℝ) (ahead behind : Portal ℝ),
    (Graph.ofClusters 2).add Graph.doorway 0 1 = .ok (⟨0, 1⟩, g) ∧ g.portals[0]? = some ahead ∧
    g.portals[1]? = some behind ∧ ahead.winding.plane? = some ⟨⟨1, 0, 0⟩, 0⟩ ∧
    behind.winding.points = Graph.doorway.reverse ∧ behind.winding.plane? = some ⟨⟨-1, 0, 0⟩, 0⟩ := by
  obtain ⟨p, hp, hplane, hpoints⟩ := Graph.exists_doorway
  have hadd := Graph.add_of_portalOf (g := Graph.ofClusters 2) hp rfl rfl
  obtain ⟨-, -, hopening⟩ := ofPolygon?_follows_cycle ℝ
  obtain ⟨ahead, behind, hahead, hbehind, hflip, hback, hown, hown'⟩ := hopening _ _ _ _ _ _ hadd
  obtain rfl : p = ahead := Option.some.inj hahead
  rw [hplane] at hown
  rw [hflip, hplane] at hown'
  refine ⟨_, p, behind, hadd, hahead, hbehind, hown, by rw [hback, ← hpoints]; rfl, ?_⟩
  simpa [Plane.flipped, Vec.neg_def] using hown'

end Sightline
