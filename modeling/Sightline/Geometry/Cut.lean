import Sightline.Geometry.Winding

/-! Cutting a winding at a plane. Corners on the plane belong to both halves, so a winding is only cut
where an edge runs from one side across to the other. -/

namespace Sightline

inductive Remnant (R : Type) where
  /-- Nothing lay behind the plane. -/
  | whole (w : Winding R)
  /-- A part was cut off. -/
  | trimmed (w : Winding R)
  /-- Nothing usable lay in front. -/
  | gone

def Remnant.winding? {R : Type} : Remnant R → Option (Winding R)
  | whole w => some w
  | trimmed w => some w
  | gone => none

namespace Winding

variable {R : Type} [Scalar R]

/-- A corner with its distance from the plane that cuts. -/
structure Corner (R : Type) where
  point : Vec R
  distance : R

def Corner.side (c : Corner R) : Side := .ofDistance c.distance

def corners (w : Winding R) (split : Plane R) : List (Corner R) :=
  w.points.map fun p => ⟨p, split.distance p⟩

/-- One coordinate of a crossing. A plane square to the axis settles it without rounding. -/
def crossingCoord (normal dist t a b : R) : R :=
  if Scalar.same normal 1 then dist
  else if Scalar.same normal (-1) then -dist
  else a + t * (b - a)

def crossing (split : Plane R) (a b : Corner R) : Vec R :=
  let t := a.distance / (a.distance - b.distance)
  let coord := fun normal => crossingCoord normal split.dist t
  ⟨coord split.normal.x a.point.x b.point.x, coord split.normal.y a.point.y b.point.y,
    coord split.normal.z a.point.z b.point.z⟩

/-- What the front half keeps of a corner and the edge to its successor. -/
def kept (split : Plane R) (a b : Corner R) : List (Vec R) :=
  match a.side, b.side with
  | .on, _ => [a.point]
  | .front, .back => [a.point, crossing split a b]
  | .front, _ => [a.point]
  | .back, .front => [crossing split a b]
  | .back, _ => []

/-- The part of the winding in front of `split`. A winding that lies on the plane altogether is kept only
if `keepOn` says so. -/
def cut (w : Winding R) (split : Plane R) (keepOn : Bool) : Remnant R :=
  let corners := w.corners split
  let front := corners.countP (·.side = .front)
  let back := corners.countP (·.side = .back)
  if keepOn && front = 0 && back = 0 then .whole w
  else if front = 0 then .gone
  else if back = 0 then .whole w
  else
    let points := (cyclicPairs corners).flatMap fun e => kept split e.1 e.2
    if points.length < 3 then .gone else .trimmed ⟨points, false⟩

def front? (w : Winding R) (split : Plane R) (keepOn : Bool) : Option (Winding R) :=
  (w.cut split keepOn).winding?

end Winding

end Sightline
