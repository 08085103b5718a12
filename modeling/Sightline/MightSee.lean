import Sightline.BitSet
import Sightline.Graph.Basic

/-! What a portal might see: all it could see if only pairs of portals mattered. This bounds what it does
see from above, and is quickly found. -/

namespace Sightline

variable {R : Type}

/-- Whether a line of sight through `p` might later pass through `q`. It would cross both planes to the
front, so there must be something of `q` before `p`, and something of `p` behind `q`. Corners are looked at
only where the spheres leave the question open. -/
def Portal.mightReach [Scalar R] (p q : Portal R) : Bool :=
  let ahead := q.sphere.side p.plane
  let behind := p.sphere.side q.plane
  ahead ≠ .back && behind ≠ .front &&
    (ahead ≠ .on || q.winding.points.any fun v => Scalar.thickness < p.plane.distance v) &&
    (behind ≠ .on || p.winding.points.any fun v => q.plane.distance v < -Scalar.thickness)

structure Flood where
  marked : BitSet
  count : Nat

namespace Graph

def neighbours? (g : Graph R) (through : BitSet) (c : ClusterId) : Option (List ClusterId) := do
  let cluster ← g.clusters[c]?
  if cluster.portals.all (· < through.size) then
    (cluster.portals.filter (· ∈ through)).mapM fun id => (g.portals[id]?).map (·.target)
  else none

/-- Marks the pending clusters and all that can be reached from them along portals in `through` without
entering a cluster that was marked before. What was found last is looked at first. There is no answer if a
cluster beyond `marked` or a portal beyond `through` comes up. -/
def flood? (g : Graph R) (through : BitSet) (marked : BitSet) (pending : List ClusterId) :
    Option Flood :=
  match pending with
  | [] => some ⟨marked, 0⟩
  | c :: rest =>
    if _ : c < marked.size then
      if _ : c ∈ marked then g.flood? through marked rest
      else do
        let next ← g.neighbours? through c
        let flood ← g.flood? through (marked.insert c) (next.reverse ++ rest)
        some { flood with count := flood.count + 1 }
    else none
termination_by (marked.size - marked.count, pending.length)
decreasing_by
  · exact Prod.Lex.right _ (by simp)
  · apply Prod.Lex.left
    have := BitSet.count_le_size (marked.insert c)
    simp only [BitSet.size_insert, BitSet.count_insert ‹c < _› ‹c ∉ _›] at this ⊢
    omega

end Graph

structure MightSee where
  /-- The portals that the portal might reach. -/
  portals : BitSet
  /-- The clusters that can be reached through them from the portal's target. -/
  clusters : BitSet
  count : Nat

def Graph.reach [Scalar R] (g : Graph R) (id : PortalId) (portal : Portal R) : BitSet :=
  .ofBools (g.portals.toList.zipIdx.map fun (q, j) => j ≠ id && portal.mightReach q)

/-- The clusters are flooded from the target of the portal, through those portals that it might reach. -/
def Graph.mightSee? [Scalar R] (g : Graph R) (id : PortalId) : Option MightSee := do
  let portal ← g.portals[id]?
  let portals := g.reach id portal
  let flood ← g.flood? portals (.empty g.clusters.size) [portal.target]
  some ⟨portals, flood.marked, flood.count⟩

end Sightline
