/-! The numbers the geometry is computed in. Everything geometric is generic in `Scalar`, so the same
definitions run on IEEE doubles and can be read over an exact ordered field. -/

namespace Sightline

/-- Arithmetic with a decidable order and a square root. No law is assumed: doubles have none of them. -/
class Scalar (R : Type) extends Zero R, One R, Add R, Sub R, Mul R, Div R, Neg R, NatCast R,
    LT R, LE R where
  sqrt : R → R
  decidableLT : DecidableLT R
  decidableLE : DecidableLE R

instance instDecidableLTScalar {R : Type} [Scalar R] : DecidableLT R := Scalar.decidableLT

instance instDecidableLEScalar {R : Type} [Scalar R] : DecidableLE R := Scalar.decidableLE

instance : Scalar Float where
  zero := 0
  one := 1
  natCast := Float.ofNat
  sqrt := Float.sqrt
  decidableLT := inferInstance
  decidableLE := inferInstance

namespace Scalar

variable {R : Type} [Scalar R]

/-- A plane counts as a slab that reaches this far to either side; what lies within is on the plane. One
thickness serves all tests, so that no two of them disagree about a point. -/
def thickness : R := 1 / ((10 : Nat) : R)

/-- How far two unit normals may differ in a component and still have one direction. -/
def directionSlack : R := 1 / ((100000 : Nat) : R)

/-- A vector shorter than this, `2 ^ -52`, has no direction. -/
def minLength : R := 1 / ((4503599627370496 : Nat) : R)

/-- Equality through the order. A number that is not comparable with itself equals nothing. -/
def same (a b : R) : Bool := a ≤ b && b ≤ a

/-- The larger of a running maximum and a new value; a new value that is not comparable is ignored. -/
def larger (a b : R) : R := if a < b then b else a

def within (eps a : R) : Bool := -eps < a && a < eps

end Scalar

end Sightline
