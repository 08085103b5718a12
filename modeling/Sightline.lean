import Sightline.Geometry.Cut
import Sightline.Survey
import Sightline.Proofs.ClearChain
import Sightline.Proofs.Bounds
import Sightline.Proofs.Cache
import Sightline.Proofs.Capacity
import Sightline.Proofs.Publication
import Sightline.Proofs.ClaimOrder
import Sightline.Proofs.Accounting
import Sightline.Proofs.Reuse
import Sightline.Proofs.Outline
import Sightline.Proofs.ExactScalar
import Sightline.Proofs.Crossing
import Sightline.Proofs.Convex
import Sightline.Proofs.ConvexCut
import Sightline.Proofs.Halves
import Sightline.Proofs.RootedScalar
import Sightline.Proofs.Separation
import Sightline.Proofs.SightLine
import Sightline.Proofs.Enclosure
import Sightline.Proofs.Shortcut
import Sightline.Proofs.Reach
import Sightline.Proofs.Levels
import Sightline.Proofs.Newell
import Sightline.Proofs.PassageTable
import Sightline.Proofs.Scratch
import Sightline.Proofs.Tallies
