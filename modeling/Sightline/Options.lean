/-! How a run is to be carried out. -/

namespace Sightline

structure Options where
  threads : Nat := 1
  /-- How many kinds of separating planes narrow a chain, from none to `maxLevel`: the first two narrow
  the portal ahead, the last two the portal at the start. -/
  level : Nat := 4
  /-- Leave it at what might be seen. -/
  fast : Bool := false
  /-- Work out the passages first, to save work where they hold. -/
  passages : Bool := true
deriving DecidableEq, Repr

namespace Options

def maxLevel : Nat := 4

def withThreads (o : Options) (threads : Nat) : Options := { o with threads := max threads 1 }

def withLevel (o : Options) (level : Nat) : Options := { o with level := min level maxLevel }

def withFast (o : Options) (fast : Bool) : Options := { o with fast }

def withPassages (o : Options) (passages : Bool) : Options := { o with passages }

end Options

end Sightline
