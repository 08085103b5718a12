import Sightline.Scalar

/-! Vectors of three scalars, used for points and for directions. The order of the operations is fixed
here and nowhere else, since rounding makes it visible. -/

namespace Sightline

@[ext] structure Vec (R : Type) where
  x : R
  y : R
  z : R

namespace Vec

variable {R : Type} [Scalar R]

instance : Zero (Vec R) := ⟨⟨0, 0, 0⟩⟩

instance : Add (Vec R) := ⟨fun a b => ⟨a.x + b.x, a.y + b.y, a.z + b.z⟩⟩

instance : Sub (Vec R) := ⟨fun a b => ⟨a.x - b.x, a.y - b.y, a.z - b.z⟩⟩

instance : Neg (Vec R) := ⟨fun a => ⟨-a.x, -a.y, -a.z⟩⟩

instance : HDiv (Vec R) R (Vec R) := ⟨fun a s => ⟨a.x / s, a.y / s, a.z / s⟩⟩

def dot (a b : Vec R) : R := a.x * b.x + a.y * b.y + a.z * b.z

def cross (a b : Vec R) : Vec R :=
  ⟨a.y * b.z - a.z * b.y, a.z * b.x - a.x * b.z, a.x * b.y - a.y * b.x⟩

def normSq (a : Vec R) : R := a.dot a

def norm (a : Vec R) : R := Scalar.sqrt a.normSq

def normalize (a : Vec R) : Vec R := a / a.norm

theorem zero_def : (0 : Vec R) = ⟨0, 0, 0⟩ := rfl

theorem add_def (a b : Vec R) : a + b = ⟨a.x + b.x, a.y + b.y, a.z + b.z⟩ := rfl

theorem sub_def (a b : Vec R) : a - b = ⟨a.x - b.x, a.y - b.y, a.z - b.z⟩ := rfl

theorem neg_def (a : Vec R) : -a = ⟨-a.x, -a.y, -a.z⟩ := rfl

theorem div_def (a : Vec R) (s : R) : a / s = ⟨a.x / s, a.y / s, a.z / s⟩ := rfl

/-- The sum of a list, added up from the left starting at zero. -/
def sum (l : List (Vec R)) : Vec R := l.foldl (· + ·) 0

def centroid (l : List (Vec R)) : Vec R := sum l / (l.length : R)

end Vec

def cyclicPairs {α : Type} (l : List α) : List (α × α) := l.zip (l.tail ++ l.take 1)

theorem length_cyclicPairs {α : Type} (l : List α) : (cyclicPairs l).length = l.length := by
  cases l <;> simp [cyclicPairs]

end Sightline
