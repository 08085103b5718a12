import Sightline.BitSet
import Sightline.Graph.Basic
import Sightline.Progress
import Sightline.Report
import Sightline.Table.Packing

/-! The visibility table: for each cluster the clusters that can be seen through any of its portals, as a
row of bits padded to whole bytes, and all rows packed one after the other. -/

namespace Sightline

variable {R : Type}

structure Table where
  /-- The rows with their padding. -/
  rows : List BitSet
  /-- The packed rows without anything between them. -/
  data : List UInt8
  /-- Where each row starts in `data`. -/
  offsets : List Nat
  /-- The length of a row that is not packed. -/
  rowLength : Nat
deriving DecidableEq

namespace Table

/-- Whether anything in one cluster can see into the other. -/
def sees (t : Table) (c d : ClusterId) : Bool := (t.rows[c]?).any (d ∈ ·)

def packedFrom (t : Table) (c : ClusterId) : List UInt8 := t.data.drop (t.offsets.getD c 0)

def unpacked (t : Table) (c : ClusterId) : List UInt8 := Packing.unpack (t.packedFrom c) t.rowLength

/-- How many pairs of clusters see each other, counting each direction. -/
def pairs (t : Table) : Nat :=
  t.rows.foldl (fun n row => n + (row.resize t.rows.length).count) 0

def meanVisible [Scalar R] (t : Table) : R :=
  if t.rows.isEmpty then 0 else (t.pairs : R) / (t.rows.length : R)

def startsFrom (start : Nat) : List (List UInt8) → List Nat
  | [] => []
  | piece :: pieces => start :: startsFrom (start + piece.length) pieces

end Table

namespace Graph

def rowSize (g : Graph R) : Nat := 8 * BitSet.bytesFor g.clusters.size

/-- The row of a cluster: what any of its portals sees, and the cluster itself. The sets are joined byte by
byte, so a set of another size than the clusters reaches into the padding. -/
def row (g : Graph R) (visible : List BitSet) (c : ClusterId) : Report BitSet := do
  let cluster ← .ofOption g.clusters[c]?
  let sets ← .ofOption (cluster.portals.mapM fun id => visible[id]?)
  let seen := sets.foldl (· ∪ ·) (.empty g.rowSize)
  .tellIf (c ∈ seen) (.seesItself c)
  pure (seen.insert c)

def encode (g : Graph R) (visible : List BitSet) : Report (Table × Graph R) := do
  let rows ← (List.range g.clusters.size).mapM (g.row visible)
  let packed := rows.map fun row => Packing.pack row.bytes
  let offsets := Table.startsFrom 0 packed
  let noted := (g.clusters.toList.zipWith (fun c offset => { c with rowOffset := some offset })
    offsets).toArray
  pure (⟨rows, packed.flatten, offsets, BitSet.bytesFor g.clusters.size⟩, { g with clusters := noted })

def encodeProgress (g : Graph R) (p : Progress) : Report (List BitSet × Table × Graph R) := do
  let visible ← .lift (p.results.mapError .fault)
  let encoded ← g.encode visible
  pure (visible, encoded)

end Graph

end Sightline
