import Sightline.Flow.Frame
import Sightline.Flow.Pool
import Sightline.Geometry.Cut

/-! Narrowing: what a further portal leaves of a chain. The portal ahead is cut to what the chain can
reach, and the first portal to what can look as far. -/

namespace Sightline

variable {R : Type} [Scalar R]

inductive Role where
  | target
  | source
deriving DecidableEq

namespace Role

def tested : Role → Counters
  | target => { targetTests := 1 }
  | source => { sourceTests := 1 }

def trimmed : Role → Counters
  | target => { targetTrims := 1 }
  | source => { sourceTrims := 1 }

def clipped : Role → Counters
  | target => { targetClips := 1 }
  | source => { sourceClips := 1 }

end Role

/-- Cuts a winding by one plane after another. The sphere, which holds the winding before all cuts, settles
the planes that do not meet it. Also tells what there is to count. -/
def cutByAll (role : Role) (sphere : Sphere R) :
    List (Plane R) → Winding R → Option (Winding R) × Counters
  | [], w => (some w, 0)
  | plane :: planes, w =>
    let met : Counters := { planeTests := 1 }
    let goOn := fun counted w =>
      let rest := cutByAll role sphere planes w
      (rest.1, counted + rest.2)
    match sphere.side plane with
    | .front => goOn met w
    | .back => (none, met + role.clipped)
    | .on =>
      match w.cut plane false with
      | .whole w => goOn (met + role.tested) w
      | .trimmed w => goOn (met + role.tested + role.trimmed) w
      | .gone => (none, met + role.tested + role.clipped)

/-- What an attempt to lengthen a chain changes even if it fails. -/
structure Desk (R : Type) where
  known : Known R
  tally : Counters
  pool : Pool R

abbrev Attempt (R : Type) := OptionT (StateM (Desk R))

namespace Attempt

def count (c : Counters) : Attempt R Unit := modify fun d => { d with tally := d.tally + c }

def ofOption {α : Type} (a : Option α) : Attempt R α := OptionT.mk (pure a)

def borrowPlanes : Attempt R (List (Plane R)) :=
  modifyGet fun d => let (planes, pool) := d.pool.borrowPlanes; (planes, { d with pool })

def returnPlanes (planes : List (Plane R)) : Attempt R Unit :=
  modify fun d => { d with pool := d.pool.returnPlanes planes }

def learn (d : Direction) (planes : Planes R) : Attempt R Unit :=
  modify fun desk => { desk with known := desk.known.set d planes }

/-- The planes that separate the source from the pass, looked for on first need. -/
def planesFor (s : Setting R) (source : Winding R) (exit : PortalId) (pass : Winding R)
    (d : Direction) : Attempt R (List (Plane R)) := do
  match (← get).known.get? d with
  | some planes => pure planes.list
  | none =>
    match s.passage? source exit pass with
    | some passage =>
      learn d (.shared (passage.planes d))
      pure (passage.planes d)
    | none =>
      let planes := (← borrowPlanes) ++ d.separators source.points pass.points
      learn d (.built planes)
      pure planes

def clip (role : Role) (sphere : Sphere R) (planes : List (Plane R)) (w : Winding R) :
    Attempt R (Winding R) := do
  let (left, counted) := cutByAll role sphere planes w
  count counted
  ofOption left

/-- Cuts the source to what can see both the target and the pass. The planes are needed only once. -/
def narrowSource (s : Setting R) (pass target : Winding R) (source : Winding R) (d : Direction) :
    Attempt R (Winding R) := do
  let planes := (← borrowPlanes) ++ d.separators target.points pass.points
  let (left, counted) := cutByAll .source s.portal.sphere planes source
  count counted
  returnPlanes planes
  ofOption left

end Attempt

open Attempt

/-- What is left of the source and of the portal ahead when a chain that ends in `frame` goes on through
that portal. -/
def narrow (s : Setting R) (frame : Frame R) (ahead : Portal R) :
    Attempt R (Winding R × Winding R) := do
  let target ← ofOption (ahead.whole.front? s.portal.plane false)
  match frame.pass with
  | none => pure (frame.source, target)
  | some (exit, pass) =>
    let target ← ofOption (target.front? frame.passPlane false)
    let source ← ofOption (frame.source.front? ahead.plane.flipped false)
    let target ← (Direction.all.take s.level).foldlM (fun target d => do
      clip .target ahead.sphere (← planesFor s frame.source exit pass d) target) target
    let source ← (Direction.all.take (s.level - 2)).foldlM (narrowSource s pass target) source
    count { passes := 1 }
    pure (source, target)

end Sightline
