import Sightline.Proofs.Exact
import Sightline.Proofs.Memory

/-! The search in the buffers of a worker. Counters are counted up where they stand, and sets are taken from
what earlier flows left behind, cleared number by number but combined byte by byte. The spare bits of what
is left behind are never set, so nothing of an earlier flow is seen. -/

namespace Sightline.InPlace

variable {R : Type}

structure Worker (R : Type) where
  counters : Counters := 0
  planes : List (List (Plane R)) := []
  sets : List Stored := []

namespace Worker

/-- The latest set is used again if it has the size, and dropped if not. -/
def takeSet (w : Worker R) (size : Nat) : Stored × Worker R :=
  match w.sets with
  | [] => (.blank size, w)
  | set :: sets => (if set.size = size then set.wipe else .blank size, { w with sets })

def count (w : Worker R) (c : Counters) : Worker R := { w with counters := w.counters + c }

def trim (w : Worker R) : Worker R :=
  { w with planes := Pool.oldest w.planes, sets := Pool.oldest w.sets }

def desk (w : Worker R) (known : Known R) : Desk R := ⟨known, w.counters, { planes := w.planes }⟩

def leaveDesk (w : Worker R) (d : Desk R) : Worker R :=
  { w with counters := d.tally, planes := d.pool.planes }

/-- No spare bit is set in the sets that were given back. -/
def Clean (w : Worker R) : Prop := ∀ b ∈ w.sets, b.Clean

variable {w : Worker R} {n : Nat}

@[simp] theorem counters_takeSet (w : Worker R) (n : Nat) : (w.takeSet n).2.counters = w.counters := by
  unfold takeSet
  split <;> rfl

theorem takeSet_spec (w : Worker R) (n : Nat) :
    (w.takeSet n).1.size = n ∧ (w.takeSet n).1.contents = .empty n := by
  unfold takeSet
  split
  · exact ⟨rfl, Stored.contents_blank n⟩
  · next set sets hw =>
    dsimp only
    split
    · next hsize => exact ⟨hsize, hsize ▸ set.contents_wipe⟩
    · exact ⟨rfl, Stored.contents_blank n⟩

theorem contents_copy_takeSet (w : Worker R) {set : Stored} (h : set.size = n) :
    ((w.takeSet n).1.copy set).contents = set.contents :=
  Stored.contents_copy (h.trans (w.takeSet_spec n).1.symm)

theorem contents_meet_takeSet (w : Worker R) {first second : Stored} (hf : first.size = n)
    (hs : second.size = n) :
    ((w.takeSet n).1.meet first second).contents = first.contents ∩ second.contents :=
  Stored.contents_meet (hf.trans (w.takeSet_spec n).1.symm) (hs.trans (w.takeSet_spec n).1.symm)

theorem Clean.takeSet (h : w.Clean) (n : Nat) : (w.takeSet n).1.Clean ∧ (w.takeSet n).2.Clean := by
  unfold Worker.takeSet
  split
  · exact ⟨Stored.clean_blank n, h⟩
  · next set sets hw =>
    unfold Clean at h
    rw [hw, List.forall_mem_cons] at h
    refine ⟨?_, h.2⟩
    dsimp only
    split
    · exact h.1.write _
    · exact Stored.clean_blank n

theorem Clean.of_sets {w' : Worker R} (h : w.Clean) (hs : w'.sets = w.sets) : w'.Clean := by
  unfold Clean
  rwa [hs]

theorem Clean.count (h : w.Clean) (c : Counters) : (w.count c).Clean := by
  intro b hb
  exact h b hb

theorem Clean.trim (h : w.Clean) : w.trim.Clean := fun b hb => h b (List.mem_of_mem_drop hb)

end Worker

/-- A frame whose mask lies in a buffer. -/
structure Frame (R : Type) where
  cluster : ClusterId
  source : Winding R
  pass : Option (PortalId × Winding R)
  passPlane : Plane R
  mask : Stored
  known : Known R := {}
  todo : List PortalId

def Frame.plain (f : Frame R) : Sightline.Frame R :=
  ⟨f.cluster, f.source, f.pass, f.passPlane, f.mask.contents, f.known, f.todo⟩

def Frame.Masked (s : Setting R) (f : Frame R) : Prop :=
  f.mask.Clean ∧ f.mask.size = s.graph.clusters.size

structure Search (R : Type) where
  stack : List (Frame R)
  onChain : Stored
  visible : Stored
  worker : Worker R

namespace Search

def descend (x : Search R) (f : Frame R) : Search R where
  stack := f :: x.stack
  onChain := x.onChain.insert f.cluster
  visible := x.visible.insert f.cluster
  worker := x.worker.count { chains := 1 }

def retreat (x : Search R) (f : Frame R) (rest : List (Frame R)) : Search R :=
  { x with
    stack := rest
    onChain := x.onChain.erase f.cluster
    worker := { x.worker with
      planes := f.known.buffers.foldl (fun planes buffer => buffer :: planes) x.worker.planes
      sets := f.mask :: x.worker.sets } }

@[simp] theorem visible_descend (x : Search R) (f : Frame R) :
    (x.descend f).visible = x.visible.insert f.cluster := rfl

def start (s : Setting R) (mightSee : Stored) (w : Worker R) : Search R :=
  let taken := w.takeSet s.graph.clusters.size
  descend ⟨[], .blank s.graph.clusters.size, .blank s.graph.clusters.size, taken.2⟩
    { cluster := s.portal.target, source := s.portal.whole, pass := none
      passPlane := s.portal.plane, mask := taken.1.copy mightSee
      todo := s.graph.portalsOf s.portal.target }

variable [Scalar R]

def extend (s : Setting R) (x : Search R) (top : Frame R) (rest : List (Frame R)) (id : PortalId)
    (ahead : Portal R) (evidence : Stored) : Search R :=
  let tried := (narrow s top.plain ahead).run ((x.worker.count { checks := 1 }).desk top.known)
  let worker := x.worker.leaveDesk tried.2
  let stack := { top with known := tried.2.known } :: rest
  match tried.1 with
  | none => { x with stack, worker }
  | some left =>
    let taken := worker.takeSet s.graph.clusters.size
    descend { x with stack, worker := taken.2 }
      { cluster := ahead.target, source := left.1, pass := some (id, left.2)
        passPlane := ahead.plane, mask := taken.1.meet top.mask evidence
        todo := s.graph.portalsOf ahead.target }

/-- Tries a candidate. The evidence lies in memory with any spare bits. -/
def attempt (s : Setting R) (spare : PortalId → Nat) (x : Search R) (top : Frame R)
    (rest : List (Frame R)) (id : PortalId) : Except Failure (Search R) :=
  let x := { x with stack := top :: rest }
  match s.graph.portals[id]? with
  | none => .error .outOfBounds
  | some ahead =>
    if ahead.target ∉ top.mask.contents ∨ ahead.target ∈ x.onChain.contents then .ok x
    else match s.progress.evidence? id with
      | none => .error .outOfBounds
      | some evidence =>
        let test := Stored.lay evidence.set (spare id)
        let x := { x with worker := x.worker.count evidence.counted }
        if Stored.shows top.mask test x.visible then
          if ahead.plane.opposes top.passPlane then .ok x
          else .ok (extend s x top rest id ahead test)
        else .ok { x with worker := x.worker.count { nothingNew := 1 } }

def move (s : Setting R) (spare : PortalId → Nat) (x : Search R) (top : Frame R)
    (rest : List (Frame R)) : Except Failure (Search R) :=
  match top.todo with
  | [] => .ok (x.retreat top rest)
  | id :: todo => attempt s spare x { top with todo } rest id

inductive Ends (s : Setting R) (spare : PortalId → Nat) : Search R → Search R → Prop
  | stop {x : Search R} : x.stack = [] → Ends s spare x x
  | move {x y z : Search R} {top : Frame R} {rest : List (Frame R)} : x.stack = top :: rest →
      move s spare x top rest = .ok y → Ends s spare y z → Ends s spare x z

end Search

variable [Scalar R]

namespace Search

variable {s : Setting R} {spare : PortalId → Nat} {x y : Search R} {top : Frame R}
  {rest : List (Frame R)} {id : PortalId}

/-- No spare bit is set in any buffer, and those in use have the right size. -/
structure Tidy (s : Setting R) (x : Search R) : Prop where
  worker : x.worker.Clean
  masked : ∀ f ∈ x.stack, f.Masked s
  visible : x.visible.Clean ∧ x.visible.size = s.graph.clusters.size

omit [Scalar R] in
theorem Tidy.descend (h : Tidy s x) {f : Frame R} (hf : f.Masked s) : Tidy s (x.descend f) := by
  refine ⟨h.worker.count _, List.forall_mem_cons.mpr ⟨hf, h.masked⟩, ?_⟩
  rw [visible_descend]
  exact ⟨h.visible.1.write _, h.visible.2⟩

omit [Scalar R] in
theorem Tidy.of_cons (h : Tidy s x) (hx : x.stack = top :: rest) :
    top.Masked s ∧ ∀ f ∈ rest, f.Masked s := by
  have hmasked := h.masked
  rwa [hx, List.forall_mem_cons] at hmasked

omit [Scalar R] in
theorem Tidy.retreat (h : Tidy s x) (hx : x.stack = top :: rest) : Tidy s (x.retreat top rest) := by
  obtain ⟨htop, hrest⟩ := h.of_cons hx
  exact ⟨List.forall_mem_cons.mpr ⟨htop.1, h.worker⟩, hrest, h.visible⟩

omit [Scalar R] in
theorem Tidy.start {w : Worker R} (h : w.Clean) (s : Setting R) (mightSee : Stored) :
    Tidy s (start s mightSee w) := by
  obtain ⟨hset, hleft⟩ := h.takeSet s.graph.clusters.size
  have hsize := (w.takeSet_spec s.graph.clusters.size).1
  have hidle : Tidy s (⟨[], .blank s.graph.clusters.size, .blank s.graph.clusters.size,
      (w.takeSet s.graph.clusters.size).2⟩ : Search R) :=
    ⟨hleft, List.forall_mem_nil _, Stored.clean_blank _, rfl⟩
  unfold Search.start
  apply hidle.descend
  unfold Frame.Masked
  dsimp only
  rw [Stored.size_copy]
  exact ⟨hset.write _, hsize⟩

theorem extend_cases (s : Setting R) (x : Search R) (top : Frame R) (rest : List (Frame R))
    (id : PortalId) (ahead : Portal R) (evidence : Stored) : ∃ known w, w.sets = x.worker.sets ∧
      (extend s x top rest id ahead evidence =
          { x with stack := { top with known } :: rest, worker := w } ∨
        ∃ child : Frame R,
          child.mask = (w.takeSet s.graph.clusters.size).1.meet top.mask evidence ∧
          extend s x top rest id ahead evidence = descend
            { x with
              stack := { top with known } :: rest
              worker := (w.takeSet s.graph.clusters.size).2 } child) := by
  unfold extend
  dsimp only
  generalize (narrow s top.plain ahead).run ((x.worker.count { checks := 1 }).desk top.known) = tried
  obtain ⟨left, desk⟩ := tried
  refine ⟨desk.known, x.worker.leaveDesk desk, rfl, ?_⟩
  cases left with
  | none => exact .inl rfl
  | some left => exact .inr ⟨_, rfl, rfl⟩

theorem Tidy.extend (h : Tidy s x) (htop : top.Masked s) (hrest : ∀ f ∈ rest, f.Masked s)
    (ahead : Portal R) (evidence : Stored) : Tidy s (extend s x top rest id ahead evidence) := by
  obtain ⟨known, w, hw, hcase⟩ := extend_cases s x top rest id ahead evidence
  have hworker : w.Clean := h.worker.of_sets hw
  have hmasked : ∀ f ∈ { top with known } :: rest, f.Masked s := List.forall_mem_cons.mpr ⟨htop, hrest⟩
  rcases hcase with hy | ⟨child, hchild, hy⟩
  · rw [hy]
    exact ⟨hworker, hmasked, h.visible⟩
  · rw [hy]
    obtain ⟨hset, hleft⟩ := hworker.takeSet s.graph.clusters.size
    have hsize := (w.takeSet_spec s.graph.clusters.size).1
    apply Tidy.descend
    · exact ⟨hleft, hmasked, h.visible⟩
    · rw [Frame.Masked, hchild]
      exact ⟨hset.meet htop.1 (htop.2.trans hsize.symm) evidence, (Stored.size_meet _ _ _).trans hsize⟩

theorem Tidy.attempt (h : Tidy s x) (htop : top.Masked s) (hrest : ∀ f ∈ rest, f.Masked s)
    (hy : attempt s spare x top rest id = .ok y) : Tidy s y := by
  have hmasked : ∀ f ∈ top :: rest, f.Masked s := List.forall_mem_cons.mpr ⟨htop, hrest⟩
  unfold Search.attempt at hy
  dsimp only at hy
  split at hy
  · cases hy
  · next ahead _ =>
    split at hy
    · cases hy
      exact ⟨h.worker, hmasked, h.visible⟩
    · split at hy
      · cases hy
      · split at hy
        · split at hy
          · cases hy
            exact ⟨h.worker, hmasked, h.visible⟩
          · cases hy
            refine Tidy.extend ?_ htop hrest ahead _
            exact ⟨h.worker, hmasked, h.visible⟩
        · cases hy
          exact ⟨h.worker, hmasked, h.visible⟩

theorem Tidy.move (h : Tidy s x) (hx : x.stack = top :: rest) (hy : move s spare x top rest = .ok y) :
    Tidy s y := by
  obtain ⟨htop, hrest⟩ := h.of_cons hx
  unfold Search.move at hy
  split at hy
  · cases hy
    exact h.retreat hx
  · next id todo _ =>
    have htop' : Frame.Masked s { top with todo } := htop
    exact h.attempt htop' hrest hy

theorem Ends.tidy (h : Ends s spare x y) (hx : Tidy s x) : Tidy s y := by
  induction h with
  | stop => exact hx
  | move hstack hmove _ ih => exact ih (hx.move hstack hmove)

theorem Ends.unique {z : Search R} (h : Ends s spare x y) (h' : Ends s spare x z) : y = z := by
  induction h with
  | stop hx =>
    cases h' with
    | stop => rfl
    | move hx' => cases hx.symm.trans hx'
  | move hx hy _ ih =>
    cases h' with
    | stop hx' => cases hx.symm.trans hx'
    | move hx' hy' h' =>
      cases hx.symm.trans hx'
      cases hy.symm.trans hy'
      exact ih h'

end Search

/-- The flow of a claimed portal, from a worker to what it finds and how it leaves the worker. -/
def Flows (g : Graph R) (spare : PortalId → Nat) (o : Options) (p : Progress) (base : PortalId)
    (w : Worker R) (visible : Stored) (left : Worker R) : Prop :=
  ∃ portal mightSee x, p.status? base = some .claimed ∧ g.portals[base]? = some portal ∧
    p.mightSee? base = some mightSee ∧ portal.target < g.clusters.size ∧
    mightSee.size = g.clusters.size ∧
    Search.Ends (g.setting o p base portal) spare
      (.start (g.setting o p base portal) (.lay mightSee (spare base)) w) x ∧
    visible = x.visible ∧ left = x.worker.trim

/-- The workers that there are: new ones, and those that made flows, over any graphs and with any counters
to begin with. -/
inductive Worker.Seasoned : Worker R → Prop
  | new : Seasoned {}
  | recounted {w : Worker R} (counters : Counters) : w.Seasoned → Seasoned { w with counters }
  | flown {g : Graph R} {spare : PortalId → Nat} {o : Options} {p : Progress} {base : PortalId}
      {w left : Worker R} {visible : Stored} : w.Seasoned → Flows g spare o p base w visible left →
      left.Seasoned

/-- Whatever a worker did, no spare bit is set in what it kept. -/
theorem Worker.Seasoned.clean {w : Worker R} (h : w.Seasoned) : w.Clean := by
  induction h with
  | new => exact List.forall_mem_nil _
  | recounted counters _ ih => exact ih
  | flown _ hflow ih =>
    obtain ⟨portal, mightSee, x, -, -, -, -, -, hends, -, rfl⟩ := hflow
    exact (hends.tidy (.start ih _ _)).worker.trim

end Sightline.InPlace
