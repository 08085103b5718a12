import Sightline.Geometry.Plane

/-! Separating planes. If one polygon lies behind a plane and another in front, whoever looks through both
sees nothing behind that plane. Planes that separate two polygons in this way are looked for among those
that contain an edge of one and a corner of the other. -/

namespace Sightline

def without {α : Type} (l : List α) (i j : Nat) : List α :=
  (l.zipIdx.filter fun e => e.2 ≠ i && e.2 ≠ j).map (·.1)

namespace Separator

variable {R : Type} [Scalar R]

/-- The plane through the edge from `a` to `b` and the point `p`, unless the three are nearly in line. -/
def candidate? (a b p : Vec R) : Option (Plane R) :=
  let normal := (b - a).cross (p - a)
  if normal.normSq < Scalar.thickness then none
  else
    let unit := normal / Scalar.sqrt normal.normSq
    some ⟨unit, p.dot unit⟩

/-- The candidate turned so that the first of the points off it lies behind. -/
def turned? (plane : Plane R) (points : List (Vec R)) : Option (Plane R) :=
  match (points.map plane.side).find? (· ≠ .on) with
  | some .back => some plane
  | some _ => some plane.flipped
  | none => none

def fronted (plane : Plane R) (points : List (Vec R)) : Bool :=
  let sides := points.map plane.side
  sides.all (· ≠ .back) && sides.any (· = .front)

/-- The plane through an edge of one polygon, whose other corners are `rest`, and the corner `p` of
another, whose other corners are `others`, if it separates the two. -/
def through? (a b : Vec R) (rest : List (Vec R)) (p : Vec R) (others : List (Vec R)) :
    Option (Plane R) := do
  let plane ← turned? (← candidate? a b p) rest
  if fronted plane others then some plane else none

end Separator

variable {R : Type} [Scalar R]

/-- The planes found for each edge of `source` and each corner of `pass`, in that order. With `flip` they
are turned around: then the roles of the two polygons are swapped, and the far side is still in front. -/
def separators (source pass : List (Vec R)) (flip : Bool) : List (Plane R) :=
  (cyclicPairs source).zipIdx.flatMap fun (edge, i) =>
    let rest := without source i ((i + 1) % source.length)
    pass.zipIdx.filterMap fun (p, j) =>
      (Separator.through? edge.1 edge.2 rest p (pass.eraseIdx j)).map fun plane =>
        if flip then plane.flipped else plane

/-- Which of two polygons on a line of sight gives the edges: the one that sight meets first, or the other. -/
inductive Direction where
  | forward
  | backward
deriving DecidableEq, Repr

def Direction.all : List Direction := [.forward, .backward]

def Direction.separators (d : Direction) (near far : List (Vec R)) : List (Plane R) :=
  match d with
  | forward => Sightline.separators near far false
  | backward => Sightline.separators far near true

end Sightline
