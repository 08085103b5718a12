import Sightline.Geometry.Vec

/-! Planes with a front and a back, and the side of a plane on which a point lies. -/

namespace Sightline

/-- Before a plane, behind it, or so near that it counts as on the plane. -/
inductive Side where
  | front
  | back
  | on
deriving DecidableEq, Repr

/-- The side of a point that lies `d` in front. If `d` compares with nothing, the point is on the plane. -/
def Side.ofDistance {R : Type} [Scalar R] (d : R) : Side :=
  if Scalar.thickness < d then .front
  else if d < -Scalar.thickness then .back
  else .on

theorem Side.ofDistance_eq_front {R : Type} [Scalar R] {d : R} :
    ofDistance d = .front ↔ Scalar.thickness < d := by
  unfold ofDistance
  split
  · simp [*]
  · split <;> simp [*]

theorem Side.ofDistance_eq_back {R : Type} [Scalar R] {d : R} :
    ofDistance d = .back ↔ ¬Scalar.thickness < d ∧ d < -Scalar.thickness := by
  unfold ofDistance
  split
  · simp [*]
  · split <;> simp [*]

/-- The points whose dot product with the normal is `dist`. The normal points to the front. -/
@[ext] structure Plane (R : Type) where
  normal : Vec R
  dist : R

namespace Plane

variable {R : Type} [Scalar R]

/-- The plane with the direction of `normal`; the distance is taken as given. -/
def ofNormal (normal : Vec R) (dist : R) : Plane R := ⟨normal.normalize, dist⟩

def directed? (v p : Vec R) : Option (Plane R) :=
  if v.norm < Scalar.minLength then none
  else
    let normal := v / v.norm
    some ⟨normal, normal.dot p⟩

/-- The plane through three points that run counterclockwise as seen from the front. -/
def through? (a b c : Vec R) : Option (Plane R) := directed? ((b - a).cross (c - a)) a

/-- Twice the vector area of a polygon: the sum of the cross products of consecutive points. -/
def newell (points : List (Vec R)) : Vec R := Vec.sum ((cyclicPairs points).map fun e => e.1.cross e.2)

/-- The plane through the centroid of a polygon whose corners run counterclockwise as seen from the
front. The normal is taken from all edges at once, so no single corner decides it. -/
def ofPolygon? (points : List (Vec R)) : Option (Plane R) :=
  if points.length < 3 then none else directed? (newell points) (Vec.centroid points)

def flipped (p : Plane R) : Plane R := ⟨-p.normal, -p.dist⟩

def distance (p : Plane R) (v : Vec R) : R := p.normal.dot v - p.dist

def side (p : Plane R) (v : Vec R) : Side := .ofDistance (p.distance v)

def opposes (p q : Plane R) : Bool :=
  let n := p.normal + q.normal
  let small := Scalar.within Scalar.directionSlack
  small n.x && small n.y && small n.z

end Plane

end Sightline
