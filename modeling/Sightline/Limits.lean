/-! How clusters and portals are numbered, and how much data is accepted. -/

namespace Sightline

abbrev ClusterId := Nat

/-- Portals are numbered from zero, in the order in which they were added. -/
abbrev PortalId := Nat

/-- How messages write the number of a cluster or a portal. -/
def label (id : Nat) : String := s!"#{id}"

def cornerLimit : Nat := 64

/-- A cluster that bounds this many portals takes no further opening. -/
def portalLimit : Nat := 128

end Sightline
