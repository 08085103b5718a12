import Sightline.Geometry.Winding

/-! The graph that sight travels in. Clusters are convex regions of space that meet in polygonal openings.
Sight has a direction, so an opening makes two portals, and a cluster owns the portals that lead out of
it. -/

namespace Sightline

/-- One direction of an opening. -/
@[ext] structure Portal (R : Type) where
  /-- Its front faces the target. -/
  plane : Plane R
  /-- The cluster the portal leads out of. -/
  owner : ClusterId
  /-- The cluster the portal leads into. -/
  target : ClusterId
  sphere : Sphere R
  winding : Winding R

/-- The way from one portal to another through the cluster between them, with the planes that separate
the two while neither has been cut. The entry is behind all of them. -/
@[ext] structure Passage (R : Type) where
  /-- The cluster that owns the entry. -/
  start : ClusterId
  /-- The cluster the exit leads into. -/
  target : ClusterId
  entry : PortalId
  exit : PortalId
  /-- Planes through an edge of the entry and a corner of the exit. -/
  forward : List (Plane R)
  /-- Planes through an edge of the exit and a corner of the entry. -/
  backward : List (Plane R)

structure Cluster (R : Type) where
  /-- The portals the cluster owns. -/
  portals : List PortalId := []
  /-- The passages that start here. -/
  passages : List (Passage R) := []
  /-- Where the cluster's row starts in the table last encoded. -/
  rowOffset : Option Nat := none

structure Graph (R : Type) where
  clusters : Array (Cluster R)
  portals : Array (Portal R)

structure Opening where
  forward : PortalId
  backward : PortalId
deriving DecidableEq, Repr

variable {R : Type}

def Portal.whole (p : Portal R) : Winding R := .ofPortal p.winding.points

def Portal.reversed [Scalar R] (p : Portal R) : Portal R :=
  { plane := p.plane.flipped, owner := p.target, target := p.owner, sphere := p.sphere,
    winding := p.winding.reversed }

namespace Graph

def ofClusters (count : Nat) : Graph R := ⟨.replicate count {}, #[]⟩

def portalsOf (g : Graph R) (c : ClusterId) : List PortalId :=
  match g.clusters[c]? with
  | some cluster => cluster.portals
  | none => []

/-- Refuses a cluster that does not exist or has all the portals it can have. -/
def checkRoom (g : Graph R) (c : ClusterId) : Except Fault Unit :=
  if g.clusters.size ≤ c then .error (.clusterOutOfRange c g.clusters.size)
  else if portalLimit ≤ (g.portalsOf c).length then .error (.tooManyPortalsOnCluster c)
  else .ok ()

def own (g : Graph R) (c : ClusterId) (p : PortalId) : Graph R :=
  { g with clusters := g.clusters.modify c fun cluster =>
      { cluster with portals := cluster.portals ++ [p] } }

def noteRow? (g : Graph R) (c : ClusterId) (offset : Nat) : Option (Graph R) :=
  if c < g.clusters.size then
    some { g with clusters := g.clusters.modify c fun cluster =>
      { cluster with rowOffset := some offset } }
  else none

variable [Scalar R]

def portalOf (points : List (Vec R)) (back front : ClusterId) : Except Fault (Portal R) := do
  let winding ← Winding.ofPoints points
  match winding.plane? with
  | some plane => .ok ⟨plane, back, front, winding.sphere, winding⟩
  | none => .error (.degenerateWinding winding.points.length)

/-- Adds the opening between `back` and `front` that a polygon bounds. Seen from `front`, into which the
polygon's plane faces, its corners run counterclockwise. -/
def add (g : Graph R) (points : List (Vec R)) (back front : ClusterId) :
    Except Fault (Opening × Graph R) := do
  g.checkRoom back
  g.checkRoom front
  let portal ← portalOf points back front
  let forward := g.portals.size
  let backward := g.portals.size + 1
  let extended := { g with portals := (g.portals.push portal).push portal.reversed }
  .ok (⟨forward, backward⟩, (extended.own back forward).own front backward)

end Graph

end Sightline
