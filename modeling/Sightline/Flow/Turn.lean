import Sightline.Flow

/-! Taking turns: a worker claims a portal, flows it and publishes the result, until no portal waits. -/

namespace Sightline

variable {R : Type}

structure Turn (R : Type) where
  portal : PortalId
  visible : BitSet
  /-- The worker as the flow left it. Publishing takes its counters. -/
  worker : Worker R
  /-- How many portals are done. -/
  done : Nat

def Turn.rested (t : Turn R) : Worker R := { t.worker with counters := 0 }

structure Drained (R : Type) where
  turns : List (Turn R)
  progress : Progress
  worker : Worker R

namespace Graph

variable [Scalar R]

def turn? (g : Graph R) (o : Options) (p : Progress) (worker : Worker R) :
    Report (Option (Turn R × Progress)) :=
  match p.claim? with
  | none => pure none
  | some (id, claimed) => do
    let flow ← g.flow o claimed worker id
    let finished ← flow.progress.publish id flow.visible flow.worker.counters
    pure (some (⟨id, flow.visible, flow.worker, finished.2⟩, finished.1))

theorem waiting_turn {g : Graph R} {o : Options} {p q : Progress} {worker : Worker R} {t : Turn R}
    (h : (g.turn? o p worker).result = .ok (some (t, q))) : q.waiting < p.waiting := by
  unfold turn? at h
  split at h
  · cases h
  · next id claimed hc =>
    obtain ⟨flow, hf, h⟩ := Report.result_bind_eq_ok.mp h
    obtain ⟨finished, hd, h⟩ := Report.result_bind_eq_ok.mp h
    cases h
    have := Progress.waiting_claim hc
    have := waiting_flow hf
    have := Progress.waiting_publish hd
    omega

/-- Takes turns until no portal waits, and reports on each as `announce` says. -/
def drain (g : Graph R) (o : Options) (announce : Turn R → Progress → Report Unit) (p : Progress)
    (worker : Worker R) : Report (Drained R) :=
  (g.turn? o p worker).bindWith fun turn _ =>
    match turn with
    | none => pure ⟨[], p, worker⟩
    | some (t, next) => do
      announce t next
      let rest ← g.drain o announce next t.rested
      pure { rest with turns := t :: rest.turns }
termination_by p.waiting
decreasing_by exact waiting_turn ‹_›

end Graph

end Sightline
