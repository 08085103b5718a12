import Sightline.Proofs.Rows

/-! Graphs that differ in their passages and row offsets alone. Neither has a say in what portals might
see, nor in what results add up to. -/

namespace Sightline

variable {R : Type}

namespace Graph

variable {g g' g'' : Graph R} {through marked : BitSet} {visible : List BitSet} {c : ClusterId}

theorem Alike.neighbours? (h : g.Alike g') (through : BitSet) (c : ClusterId) :
    g'.neighbours? through c = g.neighbours? through c := by
  have hn (g : Graph R) : g.neighbours? through c = ((g.clusters[c]?).map (·.portals)).bind fun ids =>
      if ids.all (· < through.size) then
        (ids.filter (· ∈ through)).mapM fun id => (g.portals[id]?).map (·.target)
      else none := by
    rw [Graph.neighbours?, Option.bind_map]
    rfl
  rw [hn, hn, h.clusters, h.portals]

theorem Alike.flood? (h : g.Alike g') (through marked : BitSet) (pending : List ClusterId) :
    g'.flood? through marked pending = g.flood? through marked pending := by
  fun_induction g.flood? through marked pending with
  | case1 marked => rw [Graph.flood?]
  | case2 marked c rest hc hm ih => rw [Graph.flood?, dif_pos hc, dif_pos hm, ih]
  | case3 marked c rest hc hm ih =>
    rw [Graph.flood?, dif_pos hc, dif_neg hm, h.neighbours?]
    simp only [ih]
  | case4 marked c rest hc => rw [Graph.flood?, dif_neg hc]

theorem Alike.row (h : g.Alike g') (visible : List BitSet) (c : ClusterId) :
    g'.row visible c = g.row visible c := by
  have hr (g : Graph R) : g.row visible c = (do
      let ids ← .ofOption ((g.clusters[c]?).map (·.portals))
      let sets ← .ofOption (ids.mapM fun id => visible[id]?)
      let seen := sets.foldl (· ∪ ·) (.empty g.rowSize)
      .tellIf (c ∈ seen) (.seesItself c)
      pure (seen.insert c)) := by
    rw [Graph.row]
    cases g.clusters[c]? <;> rfl
  rw [hr, hr, h.clusters, rowSize, rowSize, h.size]

theorem Alike.encode (h : g.Alike g') (visible : List BitSet) :
    (g'.encode visible).result.map (·.1) = (g.encode visible).result.map (·.1) := by
  have hrow : g'.row visible = g.row visible := funext (h.row visible)
  rw [Graph.encode, Graph.encode, hrow, h.size, Report.result_bind, Report.result_bind]
  cases ((List.range g.clusters.size).mapM (g.row visible)).result <;> rfl

variable [Scalar R]

theorem Alike.mightSee? (h : g.Alike g') (id : PortalId) : g'.mightSee? id = g.mightSee? id := by
  have hreach (portal : Portal R) : g'.reach id portal = g.reach id portal := by
    rw [reach, reach, h.portals]
  rw [Graph.mightSee?, Graph.mightSee?, h.portals, h.size]
  simp only [hreach, h.flood?]

theorem Alike.mightSets? (h : g.Alike g') : g'.mightSets? = g.mightSets? := by
  rw [Graph.mightSets?, Graph.mightSets?, h.portals]
  simp only [h.mightSee?]

end Graph

end Sightline
