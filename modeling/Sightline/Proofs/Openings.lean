import Mathlib.Algebra.Group.Nat.Even
import Mathlib.Logic.Relation
import Sightline.Proofs.Built
import Sightline.Proofs.Negation

/-! How openings lie in a graph. Portals come in pairs, the two sides of an opening next to each other, and
every cluster lists its portals in order. An opening that is refused leaves nothing behind, although it is
added by changing one list after the other. -/

namespace Sightline.Graph

variable {R : Type}

def check {ε α : Type} (f : Graph R → Except ε α) : ExceptT ε (StateM (Graph R)) α :=
  ExceptT.mk do return f (← get)

theorem run_check_bind {ε α β : Type} {f : Graph R → Except ε α}
    {k : α → ExceptT ε (StateM (Graph R)) β} {g : Graph R} :
    (check f >>= k).run.run g =
      match f g with
      | .ok a => (k a).run.run g
      | .error e => (.error e, g) := by
  rw [ExceptT.run_bind, check, ExceptT.run_mk, bind_assoc, StateT.run_bind, StateT.run_get, pure_bind]
  dsimp only
  rw [pure_bind]
  cases f g <;> rfl

theorem portalsOf_own {g : Graph R} {c d : ClusterId} {id : PortalId} (hc : c < g.clusters.size) :
    (g.own c id).portalsOf d = g.portalsOf d ++ if c = d then [id] else [] := by
  rw [portalsOf_eq, portalsOf_eq, own, Array.getElem?_modify]
  split
  · next hd =>
    subst hd
    rw [Array.getElem?_eq_getElem hc]
    rfl
  · rw [List.append_nil]

theorem increasing_append {l : List PortalId} {id : PortalId} {P : Prop} [Decidable P]
    (hl : l.Pairwise (· < ·)) (hlt : ∀ i ∈ l, i < id) :
    (l ++ if P then [id] else []).Pairwise (· < ·) ∧ ∀ i ∈ l ++ (if P then [id] else []), i < id + 1 := by
  split
  · rw [List.pairwise_append]
    refine ⟨⟨hl, List.pairwise_singleton _ _, ?_⟩, ?_⟩
    · intro i hi j hj
      rw [List.mem_singleton.mp hj]
      exact hlt i hi
    · intro i hi
      rcases List.mem_append.mp hi with hi | hi
      · exact Nat.lt_succ_of_lt (hlt i hi)
      · rw [List.mem_singleton.mp hi]
        exact Nat.lt_succ_self id
  · rw [List.append_nil]
    exact ⟨hl, fun i hi => Nat.lt_succ_of_lt (hlt i hi)⟩

variable [Scalar R]

/-- Adds an opening to a graph that is changed in place: each list is appended to where it stands, and what
was changed stays changed if a later step fails. -/
def addInPlace (points : List (Vec R)) (back front : ClusterId) :
    ExceptT Fault (StateM (Graph R)) Opening := do
  check (·.checkRoom back)
  check (·.checkRoom front)
  let portal ← check fun _ => portalOf points back front
  let forward := (← get).portals.size
  let backward := (← get).portals.size + 1
  modify fun g => { g with portals := g.portals.push portal }
  modify fun g => { g with portals := g.portals.push portal.reversed }
  modify (·.own back forward)
  modify (·.own front backward)
  return ⟨forward, backward⟩

/-- One call that may change a graph, whether it succeeds or not. -/
inductive Edit (g : Graph R) : Graph R → Prop
  | add (points : List (Vec R)) (back front : ClusterId) {answer : Except Fault Opening} {g' : Graph R} :
      (addInPlace points back front).run.run g = (answer, g') → Edit g g'
  | buildPassages {workers : Workers} {count : Nat} {g' : Graph R} :
      (g.buildPassages workers).result = .ok (g', count) → Edit g g'
  | noteRow {c : ClusterId} {offset : Nat} {g' : Graph R} :
      g.noteRow? c offset = some g' → Edit g g'
  | survey {o : Options} {found : Survey} {g' : Graph R} :
      (g.survey o).result = .ok (found, g') → Edit g g'

def Edited : Graph R → Graph R → Prop := Relation.ReflTransGen Edit

variable {g g' : Graph R} {points : List (Vec R)} {back front : ClusterId} {opening : Opening}
  {answer : Except Fault Opening} {count : Nat}

/-- What fails in adding an opening fails before anything is changed. -/
theorem run_addInPlace (g : Graph R) (points : List (Vec R)) (back front : ClusterId) :
    (addInPlace points back front).run.run g =
      match g.add points back front with
      | .ok (opening, g') => (.ok opening, g')
      | .error fault => (.error fault, g) := by
  rw [addInPlace, run_check_bind, add]
  cases g.checkRoom back with
  | error fault => rfl
  | ok _ =>
    dsimp only
    rw [run_check_bind]
    cases g.checkRoom front with
    | error fault => rfl
    | ok _ =>
      dsimp only
      rw [run_check_bind]
      cases portalOf points back front <;> rfl

theorem addInPlace_cases (h : (addInPlace points back front).run.run g = (answer, g')) :
    (∃ opening, answer = .ok opening ∧ g.add points back front = .ok (opening, g')) ∨
      (∃ fault, answer = .error fault) ∧ g' = g := by
  rw [run_addInPlace] at h
  cases hadd : g.add points back front with
  | ok added =>
    rw [hadd] at h
    cases h
    exact .inl ⟨added.1, rfl, rfl⟩
  | error fault =>
    rw [hadd] at h
    cases h
    exact .inr ⟨⟨fault, rfl⟩, rfl⟩

/-- A call adds an opening, or it leaves all clusters and portals alone. -/
theorem Edit.cases (h : g.Edit g') :
    Alike g g' ∨ ∃ points back front opening, g.add points back front = .ok (opening, g') := by
  cases h with
  | add points back front h =>
    rcases addInPlace_cases h with ⟨opening, -, hadd⟩ | ⟨-, rfl⟩
    · exact .inr ⟨points, back, front, opening, hadd⟩
    · exact .inl (.refl g')
  | buildPassages h => exact .inl (.buildPassages h)
  | noteRow h => exact .inl (Renoted.noteRow h).alike
  | survey h => exact .inl (.survey h)

theorem Edit.built (h : g.Edit g') (hg : g.Built) : g'.Built := by
  cases h with
  | add points back front h =>
    rcases addInPlace_cases h with ⟨opening, -, hadd⟩ | ⟨-, rfl⟩
    · exact hg.add hadd
    · exact hg
  | buildPassages h => exact hg.buildPassages h
  | noteRow h => exact hg.noteRow h
  | survey h => exact hg.survey h

theorem Edit.size (h : g.Edit g') : g'.clusters.size = g.clusters.size := by
  rcases h.cases with halike | ⟨points, back, front, opening, hadd⟩
  · exact halike.size
  · obtain ⟨-, -, portal, -, rfl⟩ := add_eq_ok hadd
    rw [size_own, size_own]

theorem Edit.portals (h : g.Edit g') : g.portals.toList <+: g'.portals.toList := by
  rcases h.cases with halike | ⟨points, back, front, opening, hadd⟩
  · exact ⟨[], by rw [List.append_nil, halike.portals]⟩
  · obtain ⟨-, -, portal, -, rfl⟩ := add_eq_ok hadd
    exact ⟨[portal, portal.reversed], by simp [own]⟩

theorem portalOf_corners {portal : Portal R} (h : portalOf points back front = .ok portal) :
    3 ≤ portal.winding.points.length ∧ portal.winding.points.length ≤ cornerLimit ∧
      portal.winding.pristine = false := by
  obtain ⟨w, hw, h⟩ := bind_eq_ok.mp h
  unfold Winding.ofPoints at hw
  split at hw
  · cases hw
  · split at hw
    · cases hw
    · cases hw
      split at h
      · cases h
        exact ⟨Nat.le_of_not_lt ‹_›, Nat.le_of_not_lt ‹_›, rfl⟩
      · cases h

/-- The order of portals: the two sides of an opening are neighbours, each is a polygon of its own, and
clusters list portals from old to new. -/
structure Regular (g : Graph R) : Prop where
  even : Even g.portals.size
  paired : ∀ k p, g.portals[2 * k]? = some p → g.portals[2 * k + 1]? = some p.reversed
  corners : ∀ p ∈ g.portals, 3 ≤ p.winding.points.length ∧ p.winding.points.length ≤ cornerLimit
  copied : ∀ p ∈ g.portals, p.winding.pristine = false
  increasing : ∀ c, (g.portalsOf c).Pairwise (· < ·)

theorem Regular.ofClusters (count : Nat) : Regular (ofClusters count : Graph R) := by
  refine ⟨⟨0, rfl⟩, ?_, ?_, ?_, ?_⟩
  · simp [Graph.ofClusters]
  · simp [Graph.ofClusters]
  · simp [Graph.ofClusters]
  · intro c
    rw [portalsOf_ofClusters]
    exact .nil

theorem Regular.alike (hg : g.Regular) (h : Alike g g') : g'.Regular := by
  refine ⟨h.portals ▸ hg.even, h.portals ▸ hg.paired, h.portals ▸ hg.corners, h.portals ▸ hg.copied, ?_⟩
  intro c
  rw [h.portalsOf]
  exact hg.increasing c

theorem Sound.id_lt (hs : g.Sound) {c : ClusterId} : ∀ id ∈ g.portalsOf c, id < g.portals.size := by
  intro id hid
  obtain ⟨q, hq, -⟩ := hs.mem_portalsOf.mp hid
  exact (Array.getElem?_eq_some_iff.mp hq).1

theorem forall_push_push {portals : Array (Portal R)} {portal : Portal R} {P : Portal R → Prop}
    (hold : ∀ p ∈ portals, P p) (hp : P portal) (hr : P portal.reversed) :
    ∀ p ∈ (portals.push portal).push portal.reversed, P p := by
  intro p hmem
  rw [Array.mem_push, Array.mem_push, or_assoc] at hmem
  rcases hmem with hmem | rfl | rfl
  · exact hold p hmem
  · exact hp
  · exact hr

theorem Regular.add (hg : g.Regular) (hs : g.Sound) (h : g.add points back front = .ok (opening, g')) :
    g'.Regular := by
  obtain ⟨hback, hfront, portal, hp, rfl⟩ := add_eq_ok h
  obtain ⟨hthree, hlimit, hcopied⟩ := portalOf_corners hp
  have hlength : portal.reversed.winding.points.length = portal.winding.points.length :=
    List.length_reverse
  refine ⟨?_, ?_, ?_, ?_, ?_⟩
  · rw [own, own, Array.size_push, Array.size_push]
    exact hg.even.add ⟨1, rfl⟩
  · intro k p hk
    apply getElem?_push_push.mpr
    rcases getElem?_push_push.mp hk with hold | ⟨hid, rfl⟩ | ⟨hid, rfl⟩
    · exact .inl (hg.paired k p hold)
    · exact .inr (.inr ⟨by rw [hid], rfl⟩)
    · -- the second side of an opening never has an even number
      obtain ⟨n, hn⟩ := hg.even
      have hodd : 2 * k = g.portals.size + 1 := hid
      omega
  · apply forall_push_push hg.corners ⟨hthree, hlimit⟩
    rw [hlength]
    exact ⟨hthree, hlimit⟩
  · exact forall_push_push hg.copied hcopied rfl
  · -- both new ids are beyond all old ones, even if one cluster gets both
    intro c
    obtain ⟨hforward, hlt⟩ := increasing_append (P := back = c) (hg.increasing c) hs.id_lt
    rw [portalsOf_own (by simpa using hfront), portalsOf_own (by exact hback)]
    exact (increasing_append hforward hlt).1

theorem Built.regular (hg : g.Built) : g.Regular :=
  hg.rule .ofClusters (fun hbuilt hg h => hg.add hbuilt.sound h) fun hg h => hg.alike h

/-- What holds of both sides of every opening that is accepted holds of all portals. -/
theorem Built.forall_portals {P : Portal R → Prop} (h : ∀ {points back front portal},
    portalOf points back front = .ok portal → P portal ∧ P portal.reversed) (hg : g.Built) :
    ∀ p ∈ g.portals, P p := by
  apply hg.rule (P := fun g => ∀ p ∈ g.portals, P p)
  · simp [Graph.ofClusters]
  · intro g g' points back front opening _ hold hadd
    obtain ⟨-, -, portal, hportal, rfl⟩ := add_eq_ok hadd
    exact forall_push_push hold (h hportal).1 (h hportal).2
  · intro g g' hold halike
    rwa [halike.portals]

theorem Edit.regular (h : g.Edit g') (hg : g.Regular) (hs : g.Sound) : g'.Regular := by
  rcases h.cases with halike | ⟨points, back, front, opening, hadd⟩
  · exact hg.alike halike
  · exact hg.add hs hadd

theorem Edited.size (h : g.Edited g') : g'.clusters.size = g.clusters.size := by
  induction h with
  | refl => rfl
  | tail _ hedit ih => rw [hedit.size, ih]

theorem Edited.portals (h : g.Edited g') : g.portals.toList <+: g'.portals.toList := by
  induction h with
  | refl => exact List.prefix_refl _
  | tail _ hedit ih => exact ih.trans hedit.portals

theorem Edited.built (h : g.Edited g') (hg : g.Built) : g'.Built := by
  induction h with
  | refl => exact hg
  | tail _ hedit ih => exact hedit.built ih

theorem Edited.regular (h : g.Edited g') (hb : g.Built) (hg : g.Regular) : g'.Regular := by
  induction h with
  | refl => exact hg
  | tail hbefore hedit ih => exact hedit.regular ih (Edited.built hbefore hb).sound

theorem reversed_reversed {p : Portal R} (h : NegCancels R) (hp : p.winding.pristine = false) :
    p.reversed.reversed = p := by
  have hwinding : p.winding.reversed.reversed = p.winding := by
    ext1
    · exact List.reverse_reverse _
    · exact hp.symm
  rw [Portal.reversed, Portal.reversed, hwinding, Plane.flipped_flipped h]

/-- Whatever is called, portals come in pairs, the second the first from the other side; all of them are
polygons between clusters that exist, and keep their places. Every cluster lists the portals that lead out of
it from old to new. An opening that is refused changes nothing. -/
theorem Edited.openings_in_order (h : (ofClusters count : Graph R).Edited g) :
    g.clusters.size = count ∧ Even g.portals.size ∧
    (∀ k, 2 * k < g.portals.size → ∃ p q, g.portals[2 * k]? = some p ∧
      g.portals[2 * k + 1]? = some q ∧ q = p.reversed ∧ (NegCancels R → p = q.reversed)) ∧
    (∀ p ∈ g.portals, p.owner < count ∧ p.target < count ∧
      3 ≤ p.winding.points.length ∧ p.winding.points.length ≤ cornerLimit) ∧
    (∀ c < count, (g.portalsOf c).Pairwise (· < ·) ∧
      ∀ id, id ∈ g.portalsOf c ↔ ∃ p, g.portals[id]? = some p ∧ p.owner = c) ∧
    (∀ g', g.Edited g' → g.portals.toList <+: g'.portals.toList) ∧
    ∀ points back front fault g',
      (addInPlace points back front).run.run g = (.error fault, g') → g' = g := by
  have hsound : g.Sound := (h.built (.ofClusters count)).sound
  have hregular : g.Regular := h.regular (.ofClusters count) (.ofClusters count)
  have hsize : g.clusters.size = count := by
    rw [h.size, Graph.ofClusters, Array.size_replicate]
  refine ⟨hsize, hregular.even, ?_, ?_, ?_, ?_, ?_⟩
  · intro k hk
    have hp : g.portals[2 * k]? = some g.portals[2 * k] := Array.getElem?_eq_getElem hk
    refine ⟨_, _, hp, hregular.paired k _ hp, rfl, ?_⟩
    intro hneg
    exact (reversed_reversed hneg (hregular.copied _ (Array.getElem_mem hk))).symm
  · intro p hp
    obtain ⟨id, hid⟩ := Array.mem_iff_getElem?.mp hp
    rw [← hsize]
    exact ⟨hsound.owner_lt hid, hsound.target_lt hid, hregular.corners p hp⟩
  · intro c _
    exact ⟨hregular.increasing c, fun id => hsound.mem_portalsOf⟩
  · intro g' h'
    exact h'.portals
  · intro points back front fault g' hrun
    rcases addInPlace_cases hrun with ⟨_, hok, -⟩ | ⟨-, hsame⟩
    · cases hok
    · exact hsame

theorem Edited.addAll {openings : List (List (Vec R) × ClusterId × ClusterId)}
    (h : g.addAll openings = .ok g') : g.Edited g' := by
  apply addAll_preserves h .refl
  intro g₁ g₂ points back front opening h₁ hadd
  have hrun := run_addInPlace g₁ points back front
  rw [hadd] at hrun
  exact h₁.tail (.add points back front hrun)

theorem crooked_edited : (ofClusters 5 : Graph Float).Edited crooked := by
  unfold crooked
  split
  · next h => exact .addAll h
  · exact .refl

/-- The second opening of the crooked way, and one to a cluster that is not there. -/
theorem crooked_openings : (ofClusters 5 : Graph Float).Edited crooked ∧
    (∃ p q, crooked.portals[2]? = some p ∧ crooked.portals[3]? = some q ∧ q = p.reversed ∧
      p = q.reversed) ∧
    (crooked.portalsOf 2).Pairwise (· < ·) ∧
    ∃ g', (addInPlace [] 9 0).run.run crooked = (.error (.clusterOutOfRange 9 5), g') ∧ g' = crooked := by
  obtain ⟨hsize, -, hpaired, -, hlists, -, hrefused⟩ := crooked_edited.openings_in_order
  obtain ⟨p, q, hp, hq, hmirror, hback⟩ := hpaired 1 (by decide +kernel)
  have hcheck : crooked.checkRoom 9 = .error (.clusterOutOfRange 9 5) := by
    rw [checkRoom, hsize]
    rfl
  have hrun : (addInPlace [] 9 0).run.run crooked = (.error (.clusterOutOfRange 9 5), crooked) := by
    rw [addInPlace, run_check_bind, hcheck]
  exact ⟨crooked_edited, ⟨p, q, hp, hq, hmirror, hback Double.negCancels⟩, (hlists 2 (by decide)).1,
    crooked, hrun, hrefused _ _ _ _ _ hrun⟩

end Sightline.Graph
