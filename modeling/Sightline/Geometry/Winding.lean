import Sightline.Fault
import Sightline.Geometry.Plane
import Sightline.Geometry.Sphere

/-! Windings: convex polygons given by their corners in order. A winding remembers whether its points are
still those of the portal it came from, because what is known about a portal holds for exactly those
points. -/

namespace Sightline

/-- The corners of a polygon, counterclockwise as seen from the front. -/
@[ext] structure Winding (R : Type) where
  points : List (Vec R)
  /-- The points are a portal's own, neither cut nor copied. -/
  pristine : Bool := false

namespace Winding

variable {R : Type} [Scalar R]

def empty : Winding R := ⟨[], false⟩

def ofPortal (points : List (Vec R)) : Winding R := ⟨points, true⟩

/-- A polygon read from outside has between three and `cornerLimit` corners. -/
def ofPoints (points : List (Vec R)) : Except Fault (Winding R) :=
  if cornerLimit < points.length then .error (.tooManyPoints points.length cornerLimit)
  else if points.length < 3 then .error (.degenerateWinding points.length)
  else .ok ⟨points, false⟩

def push (w : Winding R) (p : Vec R) : Winding R := ⟨w.points ++ [p], false⟩

def reversed (w : Winding R) : Winding R := ⟨w.points.reverse, false⟩

/-- A copy that no longer counts as the portal's. -/
def detached (w : Winding R) : Winding R := ⟨w.points, false⟩

def plane? (w : Winding R) : Option (Plane R) := Plane.ofPolygon? w.points

def sphere (w : Winding R) : Sphere R := .ofPoints w.points

end Winding

end Sightline
