import Sightline.Flow.Search.Run

/-! The flow of a portal: the exact search for the clusters it sees, within the bound that its might-see
set gives. -/

namespace Sightline

variable {R : Type}

structure Flow (R : Type) where
  visible : BitSet
  progress : Progress
  worker : Worker R

/-- Finds what a claimed portal sees. Its might-see set must have a bit for every cluster. -/
def Graph.flow [Scalar R] (g : Graph R) (o : Options) (p : Progress) (worker : Worker R)
    (id : PortalId) : Report (Flow R) := do
  let progress ← .lift (p.start id)
  let portal ← .ofOption g.portals[id]?
  let entry ← .ofOption progress.entries[id]?
  let setting : Setting R :=
    { graph := g, progress, level := o.level, passages := o.passages, base := id, portal }
  if h : portal.target < g.clusters.size ∧ entry.mightSee.size = g.clusters.size then
    let found ← .lift ((Search.start setting entry.mightSee worker.pool).run setting
      (.start h.1 entry.mightSee worker.pool))
    .tell (.flowed id found.visible.count entry.mightCount)
    pure ⟨found.visible, progress, ⟨worker.counters + found.tally, found.pool.trim⟩⟩
  else .fail .outOfBounds

theorem Graph.waiting_flow [Scalar R] {g : Graph R} {o : Options} {p : Progress} {worker : Worker R}
    {id : PortalId} {f : Flow R} (h : (g.flow o p worker id).result = .ok f) :
    f.progress.waiting ≤ p.waiting := by
  obtain ⟨q, hq, h⟩ := Report.result_bind_eq_ok.mp h
  obtain ⟨portal, _, h⟩ := Report.result_bind_eq_ok.mp h
  obtain ⟨entry, _, h⟩ := Report.result_bind_eq_ok.mp h
  dsimp only at h
  split at h
  · obtain ⟨found, _, h⟩ := Report.result_bind_eq_ok.mp h
    cases h
    exact Progress.waiting_start hq
  · cases h

end Sightline
