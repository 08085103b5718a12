import Sightline.BitSet
import Sightline.Counters
import Sightline.Geometry.Plane

/-! Buffers that a worker uses again. A buffer comes out of the pool empty, whatever it held before. -/

namespace Sightline

/-- The buffers given back, the latest first. -/
structure Pool (R : Type) where
  planes : List (List (Plane R)) := []
  sets : List BitSet := []

namespace Pool

variable {R : Type}

/-- The most buffers of a kind that a pool keeps from one flow to the next. -/
def limit : Nat := 64

def borrowPlanes (p : Pool R) : List (Plane R) × Pool R := ([], { p with planes := p.planes.tail })

def returnPlanes (p : Pool R) (planes : List (Plane R)) : Pool R :=
  { p with planes := planes :: p.planes }

/-- A set without members. The latest set in the pool is used if it has the size, and dropped if not. -/
def borrowSet (p : Pool R) (size : Nat) : BitSet × Pool R :=
  match p.sets with
  | [] => (.empty size, p)
  | set :: sets => (if set.size = size then .empty set.size else .empty size, { p with sets })

def returnSet (p : Pool R) (set : BitSet) : Pool R := { p with sets := set :: p.sets }

def oldest {α : Type} (l : List α) : List α := l.drop (l.length - limit)

def trim (p : Pool R) : Pool R := ⟨oldest p.planes, oldest p.sets⟩

theorem borrowSet_fst (p : Pool R) (size : Nat) : (p.borrowSet size).1 = .empty size := by
  unfold borrowSet
  split
  · rfl
  · dsimp only
    split <;> simp_all

/-- A set copied into a buffer from the pool is that set. -/
theorem borrowSet_union {set : BitSet} {size : Nat} (h : set.size = size) (p : Pool R) :
    (p.borrowSet size).1 ∪ set = set := by
  rw [borrowSet_fst]
  refine BitSet.ext h.symm fun c => ?_
  have hlt : c ∈ set → c < set.size := BitSet.lt_size_of_mem
  simp only [BitSet.mem_union, BitSet.not_mem_empty, BitSet.size_empty, ← h, false_or]
  exact ⟨And.right, fun hc => ⟨hlt hc, hc⟩⟩

end Pool

structure Worker (R : Type) where
  counters : Counters := 0
  pool : Pool R := {}

end Sightline
