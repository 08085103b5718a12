import Sightline.Fault

/-! Workers, and how jobs are handed to them. Results come back in the order of the jobs, whichever worker
did which, so they are computed here as one worker would. -/

namespace Sightline

structure Workers where
  count : Nat
deriving DecidableEq, Repr

namespace Workers

def ofThreads (threads : Nat) : Workers := ⟨max threads 1⟩

def map {α : Type} (_ : Workers) (jobs : Nat) (job : Nat → α) : List α := (List.range jobs).map job

/-- Every worker does the job once. Of several faults the one of the lowest worker is reported. -/
def everyWorker (w : Workers) (job : Nat → Except Fault Unit) : Except Fault Unit :=
  (List.range w.count).forM job

end Workers

end Sightline
