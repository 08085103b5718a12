import Sightline.BitSet
import Sightline.Graph.Passage
import Sightline.Options
import Sightline.Progress

/-! A chain of portals that sight might follow is a stack of frames. Each frame holds what is left of the
first portal and of the last, after all cuts so far. -/

namespace Sightline

variable {R : Type}

inductive Planes (R : Type) where
  /-- Those of a passage. -/
  | shared (planes : List (Plane R))
  /-- Those worked out for the frame, in a buffer of the worker. -/
  | built (planes : List (Plane R))

def Planes.list : Planes R → List (Plane R)
  | shared planes => planes
  | built planes => planes

def Planes.buffer? : Planes R → Option (List (Plane R))
  | shared _ => none
  | built planes => some planes

/-- The separating planes of a frame that were needed so far. -/
structure Known (R : Type) where
  forward : Option (Planes R) := none
  backward : Option (Planes R) := none

namespace Known

def get? (k : Known R) : Direction → Option (Planes R)
  | .forward => k.forward
  | .backward => k.backward

def set (k : Known R) (d : Direction) (planes : Planes R) : Known R :=
  match d with
  | .forward => { k with forward := some planes }
  | .backward => { k with backward := some planes }

def buffers (k : Known R) : List (List (Plane R)) :=
  (Direction.all.filterMap k.get?).filterMap (·.buffer?)

end Known

structure Frame (R : Type) where
  /-- The cluster the chain has reached. -/
  cluster : ClusterId
  /-- What of the first portal can look down the chain. -/
  source : Winding R
  /-- The portal passed last, and what of it can be seen. Missing at the start of a chain. -/
  pass : Option (PortalId × Winding R)
  /-- The plane of the portal passed last. -/
  passPlane : Plane R
  /-- The clusters that may still be seen. -/
  mask : BitSet
  known : Known R := {}
  /-- The portals of the cluster that were not tried yet. -/
  todo : List PortalId

/-- What stays the same while one portal is flowed. -/
structure Setting (R : Type) where
  graph : Graph R
  progress : Progress
  level : Nat
  /-- Use the planes of passages where they apply. -/
  passages : Bool
  base : PortalId
  /-- The portal that `base` names. -/
  portal : Portal R

/-- The passage whose planes hold for the frame: while no winding of a chain has been cut, the planes
between its ends are those worked out in advance, at whatever depth. -/
def Setting.passage? (s : Setting R) (source : Winding R) (exit : PortalId) (pass : Winding R) :
    Option (Passage R) :=
  if s.passages && source.pristine && pass.pristine then
    s.graph.passage? s.portal.owner s.base exit
  else none

end Sightline
