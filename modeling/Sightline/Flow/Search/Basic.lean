import Sightline.Flow.Narrow

/-! The search for what a portal can see. It follows the chains of portals that start at the base portal,
one move at a time, with the current chain on a stack. -/

namespace Sightline

variable {R : Type}

structure Search (R : Type) where
  /-- The current chain, its end first. -/
  stack : List (Frame R)
  /-- The clusters on the stack. -/
  onChain : BitSet
  /-- The clusters reached so far. -/
  visible : BitSet
  tally : Counters
  pool : Pool R

def Evidence.counted : Evidence → Counters
  | .final _ => { finalTests := 1 }
  | .might _ => { mightTests := 1 }

namespace Search

def descend (x : Search R) (f : Frame R) : Search R :=
  { x with
    stack := f :: x.stack
    onChain := x.onChain.insert f.cluster
    visible := x.visible.insert f.cluster
    tally := x.tally + { chains := 1 } }

/-- Goes back from `f`, the end of the chain, and returns its buffers. -/
def retreat (x : Search R) (f : Frame R) (rest : List (Frame R)) : Search R :=
  { x with
    stack := rest
    onChain := x.onChain.erase f.cluster
    pool := f.known.buffers.foldl Pool.returnPlanes (x.pool.returnSet f.mask) }

def idle (s : Setting R) (pool : Pool R) : Search R :=
  ⟨[], .empty s.graph.clusters.size, .empty s.graph.clusters.size, 0, pool⟩

/-- The search from the base portal, for which `mightSee` is a bound from above. -/
def start (s : Setting R) (mightSee : BitSet) (pool : Pool R) : Search R :=
  let taken := pool.borrowSet s.graph.clusters.size
  (idle s taken.2).descend
    { cluster := s.portal.target, source := s.portal.whole, pass := none
      passPlane := s.portal.plane, mask := taken.1 ∪ mightSee
      todo := s.graph.portalsOf s.portal.target }

variable [Scalar R]

def extend (s : Setting R) (x : Search R) (top : Frame R) (rest : List (Frame R)) (id : PortalId)
    (ahead : Portal R) (evidence : BitSet) : Search R :=
  let tried := (narrow s top ahead).run ⟨top.known, x.tally + { checks := 1 }, x.pool⟩
  let desk := tried.2
  let stack := { top with known := desk.known } :: rest
  match tried.1 with
  | none => { x with stack, tally := desk.tally, pool := desk.pool }
  | some left =>
    let taken := desk.pool.borrowSet s.graph.clusters.size
    descend { x with stack, tally := desk.tally, pool := taken.2 }
      { cluster := ahead.target, source := left.1, pass := some (id, left.2)
        passPlane := ahead.plane, mask := taken.1 ∪ (top.mask ∩ evidence)
        todo := s.graph.portalsOf ahead.target }

/-- Tries to go on from the end of the chain through the portal `id`. Cheap tests come first: whether its
target may be seen at all, and whether anything new could be seen behind it. -/
def attempt (s : Setting R) (x : Search R) (top : Frame R) (rest : List (Frame R)) (id : PortalId) :
    Except Failure (Search R) :=
  let x := { x with stack := top :: rest }
  match s.graph.portals[id]? with
  | none => .error .outOfBounds
  | some ahead =>
    if ahead.target ∉ top.mask ∨ ahead.target ∈ x.onChain then .ok x
    else match s.progress.evidence? id with
      | none => .error .outOfBounds
      | some evidence =>
        let x := { x with tally := x.tally + evidence.counted }
        if top.mask ∩ evidence.set ⊆ x.visible then
          .ok { x with tally := x.tally + { nothingNew := 1 } }
        else if ahead.plane.opposes top.passPlane then .ok x
        else .ok (extend s x top rest id ahead evidence.set)

/-- One move at the end of the chain: the next portal is tried, or the chain gets shorter. -/
def move (s : Setting R) (x : Search R) (top : Frame R) (rest : List (Frame R)) :
    Except Failure (Search R) :=
  match top.todo with
  | [] => .ok (x.retreat top rest)
  | id :: todo => attempt s x { top with todo } rest id

end Search

end Sightline
