import Sightline.Limits

/-! What can go wrong. A fault is a mistake in the data or in the order of the steps, and is reported; a
failure is a fault, an index that points nowhere, or a demand for more room than there is. -/

namespace Sightline

inductive Fault where
  /-- A polygon has more than `max` corners. -/
  | tooManyPoints (count max : Nat)
  /-- A polygon has too few corners, or corners that span no plane. -/
  | degenerateWinding (count : Nat)
  /-- An opening names a cluster beyond the `count` that exist. -/
  | clusterOutOfRange (cluster : ClusterId) (count : Nat)
  /-- A cluster has all the portals it can have. -/
  | tooManyPortalsOnCluster (cluster : ClusterId)
  /-- Results were asked for before this portal had one. -/
  | portalNotDone (portal : PortalId)
  /-- A flow was begun for a portal that was not waiting for one. -/
  | reflowed (portal : PortalId)
  /-- The workers could not be started. -/
  | threadPool (reason : String)
deriving DecidableEq, Repr

def Fault.message : Fault → String
  | .tooManyPoints count max => s!"(TooManyPoints) winding has {count} points, the limit is {max}"
  | .degenerateWinding count => s!"(DegenerateWinding) winding has only {count} points"
  | .clusterOutOfRange cluster count =>
    s!"(ClusterOutOfRange) cluster {cluster} does not exist ({count} clusters)"
  | .tooManyPortalsOnCluster cluster =>
    s!"(TooManyPortalsOnCluster) cluster {label cluster} exceeds {portalLimit} portals"
  | .portalNotDone portal => s!"(PortalNotDone) portal {label portal} has not finished flowing"
  | .reflowed portal => s!"(Reflowed) portal {label portal} was already flowed"
  | .threadPool reason => s!"(ThreadPool) {reason}"

inductive Failure where
  | fault (f : Fault)
  /-- A portal, cluster or bit was named that does not exist, or two sets differ in size. -/
  | outOfBounds
  /-- More room was asked for than there can be. -/
  | tooLarge
deriving DecidableEq, Repr

end Sightline
