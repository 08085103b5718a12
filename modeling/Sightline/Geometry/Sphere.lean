import Sightline.Geometry.Plane

/-! Spheres around polygons. Where a sphere lies settles most questions about where its polygon lies. -/

namespace Sightline

structure Sphere (R : Type) where
  center : Vec R
  radius : R

namespace Sphere

variable {R : Type} [Scalar R]

def ofPoints (points : List (Vec R)) : Sphere R :=
  match points with
  | [] => ⟨0, 0⟩
  | _ =>
    let center := Vec.centroid points
    ⟨center, (points.map fun p => (p - center).norm).foldl Scalar.larger 0⟩

/-- The side on which all of the sphere lies; `on` if the plane passes through it. -/
def side (s : Sphere R) (p : Plane R) : Side :=
  let d := p.distance s.center
  if s.radius ≤ d then .front
  else if d ≤ -s.radius then .back
  else .on

end Sphere

end Sightline
