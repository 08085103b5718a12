/-! What a search counts while it works. No counter steers anything; all of them are reported. -/

namespace Sightline

/-- The counters are words of 64 bits and wrap. -/
@[ext] structure Counters where
  /-- Windings held against a separating plane. -/
  planeTests : UInt64 := 0
  /-- Candidates that survived every cut. -/
  passes : UInt64 := 0
  /-- Candidates whose geometry was looked at. -/
  checks : UInt64 := 0
  targetTests : UInt64 := 0
  targetTrims : UInt64 := 0
  targetClips : UInt64 := 0
  sourceTests : UInt64 := 0
  sourceTrims : UInt64 := 0
  sourceClips : UInt64 := 0
  /-- Clusters entered. -/
  chains : UInt64 := 0
  /-- Candidates judged by what they might see. -/
  mightTests : UInt64 := 0
  /-- Candidates judged by what they were found to see. -/
  finalTests : UInt64 := 0
  /-- Candidates left out because they could show nothing new. -/
  nothingNew : UInt64 := 0
deriving DecidableEq, Repr, Inhabited

namespace Counters

instance : Zero Counters := ⟨{}⟩

instance : Add Counters where
  add a b := {
    planeTests := a.planeTests + b.planeTests
    passes := a.passes + b.passes
    checks := a.checks + b.checks
    targetTests := a.targetTests + b.targetTests
    targetTrims := a.targetTrims + b.targetTrims
    targetClips := a.targetClips + b.targetClips
    sourceTests := a.sourceTests + b.sourceTests
    sourceTrims := a.sourceTrims + b.sourceTrims
    sourceClips := a.sourceClips + b.sourceClips
    chains := a.chains + b.chains
    mightTests := a.mightTests + b.mightTests
    finalTests := a.finalTests + b.finalTests
    nothingNew := a.nothingNew + b.nothingNew }

theorem add_assoc (a b c : Counters) : a + b + c = a + (b + c) := by
  apply Counters.ext <;> exact UInt64.add_assoc ..

theorem add_zero (a : Counters) : a + 0 = a := by
  apply Counters.ext <;> exact UInt64.add_zero ..

theorem zero_add (a : Counters) : 0 + a = a := by
  apply Counters.ext <;> exact UInt64.zero_add ..

def text (c : Counters) : String :=
  s!"portalcheck: {c.checks} portaltest: {c.planeTests} portalpass: {c.passes}\n" ++
  s!"target trimmed: {c.targetTrims} clipped: {c.targetClips} tested: {c.targetTests}\n" ++
  s!"source trimmed: {c.sourceTrims} clipped: {c.sourceClips} tested: {c.sourceTests}\n" ++
  s!"chains: {c.chains}\n" ++
  s!"mighttest: {c.mightTests} vistest: {c.finalTests} mightseeupdate: {c.nothingNew}"

end Counters

end Sightline
