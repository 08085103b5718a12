import Sightline.Counters
import Sightline.Decimal
import Sightline.Limits

/-! What a run reports while it works. -/

namespace Sightline

inductive Level where
  | error
  | warn
  | info
  | debug
  | trace
deriving DecidableEq, Repr

inductive Message where
  | started (clusters portals level : Nat) (fast : Bool)
  | workersReady (count : Nat)
  | passagesBuilt (count : Nat)
  /-- The sizes of all might-see sets add up to `total`. -/
  | meanMightSee (total portals : Nat)
  | flowed (portal : PortalId) (visible mightSee : Nat)
  | portalDone (worker : Nat) (portal : PortalId) (done portals visible mightSee : Nat)
  | publishedTwice (portal : PortalId)
  | seesItself (cluster : ClusterId)
  | statistics (total : Counters)
  /-- The sizes of all rows add up to `total`. -/
  | meanVisible (total clusters : Nat)
  | packed (bytes unpacked : Nat)
deriving DecidableEq, Repr

namespace Message

def level : Message → Level
  | publishedTwice _ => .warn
  | seesItself _ => .warn
  | passagesBuilt _ => .debug
  | portalDone .. => .debug
  | flowed .. => .trace
  | _ => .info

/-- A mean as reports write it. The quotient is taken in doubles; nothing at all has the mean zero. -/
def mean (total count : Nat) : String :=
  if count = 0 then Decimal.tenths 0 else Decimal.tenths (Float.ofNat total / Float.ofNat count)

def text : Message → String
  | started clusters portals level fast =>
    let suffix := if fast then ", fast" else ""
    s!"{clusters} clusters, {portals} portals, level {level}{suffix}"
  | workersReady count => s!"running on {count} thread(s)"
  | passagesBuilt count => s!"built {count} passages"
  | meanMightSee total portals =>
    let average := mean total portals
    s!"average portal might-see: {average}"
  | flowed portal visible mightSee =>
    s!"portal {label portal}: {visible} of {mightSee} might-see clusters visible"
  | portalDone worker portal done portals visible mightSee =>
    s!"worker {worker}: portal {label portal} done ({done}/{portals}), " ++
    s!"{visible} of {mightSee} might-see visible"
  | publishedTwice portal => s!"portal {label portal} published its visbits twice"
  | seesItself cluster => s!"cluster {label cluster}: portals saw back into their own cluster"
  | statistics total => "flow statistics:\n" ++ total.text
  | meanVisible total clusters =>
    let average := mean total clusters
    s!"average clusters visible: {average}"
  | packed bytes unpacked => s!"compressed pvs: {bytes} bytes ({unpacked} uncompressed)"

end Message

end Sightline
