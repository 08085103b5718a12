import Sightline.Geometry.Separator
import Sightline.Graph.Basic
import Sightline.Report
import Sightline.Workers

/-! Passages: the planes that separate the two ends of every way through a single cluster, worked out
before they are asked for. -/

namespace Sightline

variable {R : Type}

namespace Passage

def planes (p : Passage R) : Direction → List (Plane R)
  | .forward => p.forward
  | .backward => p.backward

def planeCount (p : Passage R) : Nat := p.forward.length + p.backward.length

def between? [Scalar R] (g : Graph R) (entry exit : PortalId) : Option (Passage R) := do
  let source ← g.portals[entry]?
  let pass ← g.portals[exit]?
  some {
    start := source.owner, target := pass.target, entry, exit
    forward := Direction.forward.separators source.winding.points pass.winding.points
    backward := Direction.backward.separators source.winding.points pass.winding.points }

end Passage

def Cluster.findPassage? (c : Cluster R) (entry exit : PortalId) : Option (Passage R) :=
  c.passages.find? fun p => p.entry = entry && p.exit = exit

namespace Graph

def passage? (g : Graph R) (c : ClusterId) (entry exit : PortalId) : Option (Passage R) :=
  (g.clusters[c]?).bind (·.findPassage? entry exit)

variable [Scalar R]

/-- The portals by which a way that starts at `c` can go on after `entry`. Ways straight back are left
out. There is no answer if an id leads nowhere. -/
def exits? (g : Graph R) (c : ClusterId) (entry : PortalId) : Option (List PortalId) := do
  let portal ← g.portals[entry]?
  let neighbour ← g.clusters[portal.target]?
  if neighbour.portals.all (· < g.portals.size) then
    some (neighbour.portals.filter fun exit => (g.portals[exit]?).all (·.target ≠ c))
  else none

def passagesFrom? (g : Graph R) (c : ClusterId) : Option (List (Passage R)) := do
  let cluster ← g.clusters[c]?
  let passages ← cluster.portals.mapM fun entry => do
    (← g.exits? c entry).mapM (Passage.between? g entry)
  some passages.flatten

/-- Builds the passages of every cluster in place of any there were, and counts them. -/
def buildPassages (g : Graph R) (workers : Workers) : Report (Graph R × Nat) := do
  let all ← .ofOption ((workers.map g.clusters.size g.passagesFrom?).mapM id)
  let count := all.foldl (fun n passages => n + passages.length) 0
  .tell (.passagesBuilt count)
  pure (⟨(g.clusters.toList.zipWith (fun c passages => { c with passages }) all).toArray, g.portals⟩,
    count)

end Graph

end Sightline
