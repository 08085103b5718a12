import Sightline.Flow.Turn
import Sightline.Graph.Passage
import Sightline.MightSee
import Sightline.Table

/-! A whole run: what each portal might see, what it sees, and the table of all clusters. -/

namespace Sightline

variable {R : Type}

structure Survey where
  /-- What each portal sees. -/
  visible : List BitSet
  /-- What each portal might see. -/
  mightSee : List BitSet
  table : Table
  total : Counters

namespace Progress

def mightTotal (p : Progress) : Nat := p.entries.foldl (fun n e => n + e.mightCount) 0

/-- Claims a portal and publishes what it might see as its result. -/
def settle? (p : Progress) : Report (Option Progress) :=
  match p.claim? with
  | none => pure none
  | some (id, claimed) => do
    let started ← .lift (claimed.start id)
    let entry ← .ofOption started.entries[id]?
    let finished ← started.publish id entry.mightSee 0
    pure (some finished.1)

theorem waiting_settle {p q : Progress} (h : p.settle?.result = .ok (some q)) :
    q.waiting < p.waiting := by
  unfold settle? at h
  split at h
  · cases h
  · next id claimed hc =>
    obtain ⟨started, hs, h⟩ := Report.result_bind_eq_ok.mp h
    obtain ⟨entry, _, h⟩ := Report.result_bind_eq_ok.mp h
    obtain ⟨finished, hf, h⟩ := Report.result_bind_eq_ok.mp h
    cases h
    have := waiting_claim hc
    have := waiting_start hs
    have := waiting_publish hf
    omega

def settleAll (p : Progress) : Report Progress :=
  p.settle?.bindWith fun settled _ =>
    match settled with
    | none => pure p
    | some next => next.settleAll
termination_by p.waiting
decreasing_by exact waiting_settle ‹_›

end Progress

def announceTurn (worker : Nat) (t : Turn R) (p : Progress) : Report Unit := do
  let entry ← .ofOption p.entries[t.portal]?
  .tell (.portalDone worker t.portal t.done p.entries.size entry.seenCount entry.mightCount)

namespace Graph

variable [Scalar R]

/-- Finds what every portal sees, with the first worker taking all portals. Of all ways to share them out
this is the one that leaves nothing to chance. -/
def flowAll (g : Graph R) (o : Options) (p : Progress) : Report Progress := do
  if o.fast then p.settleAll
  else
    let drained ← g.drain o (announceTurn 0) p {}
    pure drained.progress

def prepared (g : Graph R) (o : Options) (workers : Workers) : Report (Graph R) := do
  if o.passages && !o.fast then
    let built ← g.buildPassages workers
    pure built.1
  else pure g

def survey (g : Graph R) (o : Options) : Report (Survey × Graph R) := do
  .tell (.started g.clusters.size g.portals.size o.level o.fast)
  let workers := Workers.ofThreads o.threads
  .tell (.workersReady workers.count)
  let g ← g.prepared o workers
  let mightSee ← .ofOption ((workers.map g.portals.size g.mightSee?).mapM id)
  let sets := mightSee.map (·.clusters)
  let p := Progress.ofMightSee sets (1 < workers.count)
  .tellIf (!p.entries.isEmpty) (.meanMightSee p.mightTotal p.entries.size)
  let p ← g.flowAll o p
  let (visible, table, g) ← g.encodeProgress p
  .tellIf (!o.fast) (.statistics p.total)
  .tell (.meanVisible table.pairs table.rows.length)
  .tell (.packed table.data.length (table.rowLength * g.clusters.size))
  pure (⟨visible, sets, table, p.total⟩, g)

end Graph

end Sightline
