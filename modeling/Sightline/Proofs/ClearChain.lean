import Mathlib.Data.List.Chain
import Sightline.Proofs.Cut
import Sightline.Proofs.Interleaving

/-! Without separating planes nothing is lost. Where a chain of openings has corners that lie before each
other's portals, no cut along the chain takes all, so the chain is followed to its end: by the flood, by
every flow, and past every result published before. -/

namespace Sightline

variable {R : Type} [Scalar R]

structure Stop (R : Type) where
  id : PortalId
  portal : Portal R
  corner : Vec R

structure Stop.Clear (s t : Stop R) : Prop where
  reach : s.portal.mightReach t.portal
  ahead : s.portal.plane.side t.corner = .front
  behind : t.portal.plane.flipped.side s.corner = .front

instance (s t : Stop R) : Decidable (s.Clear t) :=
  decidable_of_iff (s.portal.mightReach t.portal ∧ s.portal.plane.side t.corner = .front ∧
    t.portal.plane.flipped.side s.corner = .front)
    ⟨fun ⟨h1, h2, h3⟩ => ⟨h1, h2, h3⟩, fun ⟨h1, h2, h3⟩ => ⟨h1, h2, h3⟩⟩

namespace Graph

/-- A chain of portals through distinct clusters, each stop of which has a clear view of all later ones. -/
structure Clear (g : Graph R) (stops : List (Stop R)) : Prop where
  portal : ∀ s ∈ stops, g.portals[s.id]? = some s.portal
  corner : ∀ s ∈ stops, s.corner ∈ s.portal.winding.points
  linked : stops.IsChain fun s t =>
    t.portal.owner = s.portal.target ∧ t.portal.plane.opposes s.portal.plane = false
  distinct : (stops.map (·.portal.target)).Nodup
  clear : stops.Pairwise Stop.Clear

variable {g : Graph R} {o : Options} {t : Stage} {first cur s : Stop R} {stops : List (Stop R)}

theorem Clear.tail (h : g.Clear (s :: stops)) : g.Clear stops :=
  ⟨fun t ht => h.portal t (.tail _ ht), fun t ht => h.corner t (.tail _ ht), h.linked.tail,
    (List.nodup_cons.mp h.distinct).2, h.clear.tail⟩

/-- A flood that comes to a stop of a clear chain goes on to its end, if it may pass the later stops. -/
theorem Clear.flooded (hg : g.Sound) {through barred : BitSet} {seeds : List ClusterId}
    (h : g.Clear (cur :: stops)) (hthrough : ∀ s ∈ stops, s.id ∈ through)
    (hbarred : ∀ s ∈ stops, s.portal.target ∉ barred)
    (hcur : g.Flooded through barred seeds cur.portal.target) :
    ∀ s ∈ cur :: stops, g.Flooded through barred seeds s.portal.target := by
  induction stops generalizing cur with
  | nil => exact List.forall_mem_singleton.mpr hcur
  | cons next stops ih =>
    have hp := h.portal next (.tail _ (.head _))
    have hlink := (List.isChain_cons_cons.mp h.linked).1
    have hown : next.id ∈ g.portalsOf cur.portal.target :=
      hg.mem_portalsOf.mpr ⟨next.portal, hp, hlink.1⟩
    have hnext : g.Flooded through barred seeds next.portal.target :=
      hcur.step hown (hthrough next (.head _)) hp (hbarred next (.head _))
    refine List.forall_mem_cons.mpr ⟨hcur, ?_⟩
    exact ih h.tail (fun s hs => hthrough s (.tail _ hs)) (fun s hs => hbarred s (.tail _ hs)) hnext

theorem Clear.target_mem_might (hg : g.Sound) (h : g.Clear (first :: stops)) :
    ∀ s ∈ first :: stops, s.portal.target ∈ g.might first.id := by
  obtain ⟨m, hm, -, hportals, hclusters⟩ := mightSee?_spec hg (h.portal first (.head _))
  have hreach : ∀ s ∈ stops, s.id ∈ m.portals := by
    intro s hs
    refine (hportals s.id).mpr ⟨s.portal, h.portal s (.tail _ hs), fun hid => ?_, ?_⟩
    · have hsame := h.portal s (.tail _ hs)
      rw [hid, h.portal first (.head _)] at hsame
      refine (List.nodup_cons.mp h.distinct).1 (List.mem_map.mpr ⟨s, hs, ?_⟩)
      exact congrArg Portal.target (Option.some.inj hsame).symm
    · exact ((List.pairwise_cons.mp h.clear).1 s hs).reach
  have hseed : g.Flooded m.portals (.empty g.clusters.size) [first.portal.target]
      first.portal.target := .seed (.head _) (BitSet.not_mem_empty _ _)
  have hflooded := h.flooded hg hreach (fun _ _ => BitSet.not_mem_empty _ _) hseed
  exact fun s hs => ⟨m, hm, (hclusters _).mpr (hflooded s hs)⟩

/-- At level zero a chain of links goes on through a portal if a corner of it lies before the base portal and
the last one, and a corner of the source lies behind it. -/
theorem narrowed?_of_corner (base : Portal R) {ahead : Portal R} (last : Link R) {v c : Vec R}
    (hc : c ∈ ahead.winding.points) (hbase : base.plane.side c = .front)
    (hlast : last.passPlane.side c = .front) (hv : v ∈ last.source.points)
    (hbehind : ahead.plane.flipped.side v = .front) :
    ∃ source pass, last.narrowed? 0 base ahead = some (source, pass) ∧ v ∈ source.points := by
  obtain ⟨target, ht, hct⟩ := Winding.front?_of_front (w := ahead.whole) hc hbase false
  obtain ⟨target', ht', -⟩ := Winding.front?_of_front hct hlast false
  obtain ⟨source, hs, hvs⟩ := Winding.front?_of_front hv hbehind false
  unfold Link.narrowed?
  rw [ht, Option.bind_eq_bind, Option.bind_some]
  cases last.pass with
  | none => exact ⟨_, _, rfl, hv⟩
  | some pass =>
    dsimp only
    rw [ht', Option.bind_some, hs]
    exact ⟨_, _, rfl, hvs⟩

/-- A chain of links has followed the stops of a clear chain up to `cur`, and can see the rest. -/
structure Along (o : Outlook R) (first cur : Stop R) (stops : List (Stop R)) (last : Link R)
    (rest : List (Link R)) : Prop where
  chain : o.Chain (last :: rest)
  cluster : last.cluster = cur.portal.target
  plane : last.passPlane = cur.portal.plane
  source : first.corner ∈ last.source.points
  masked : ∀ s ∈ stops, s.portal.target ∈ last.mask
  fresh : ∀ s ∈ stops, s.portal.target ∉ (last :: rest).map (·.cluster)

variable {u : Outlook R} {next : Stop R} {last : Link R} {rest : List (Link R)}

theorem Along.step (h : Along u first cur (next :: stops) last rest) (hg : u.graph.Sound)
    (hlevel : u.level = 0) (hbase : u.base = first.portal) (hclear : u.graph.Clear (cur :: next :: stops))
    (hview : first.Clear next) (htest : ∀ s ∈ next :: stops, s.portal.target ∈ u.test next.id) :
    ∃ link, Along u first next stops link (last :: rest) := by
  have hp := hclear.portal next (.tail _ (.head _))
  obtain ⟨hown, hturned⟩ := (List.isChain_cons_cons.mp hclear.linked).1
  have hsight := (List.pairwise_cons.mp hclear.clear).1 next (.head _)
  obtain ⟨source, pass, hleft, hsource⟩ := narrowed?_of_corner u.base last
    (hclear.corner next (.tail _ (.head _))) (by rw [hbase]; exact hview.ahead)
    (by rw [h.plane]; exact hsight.ahead) h.source hview.behind
  have hlink := h.chain.extend (.intro (hg.mem_portalsOf.mpr ⟨next.portal, hp, by rw [hown, h.cluster]⟩)
    hp (h.masked next (.head _)) (h.fresh next (.head _)) (by rw [h.plane]; exact hturned)
    (by rw [hlevel]; exact hleft))
  refine ⟨_, hlink, rfl, rfl, hsource, fun s hs => ?_, fun s hs => ?_⟩
  · exact ⟨h.masked s (.tail _ hs), htest s (.tail _ hs)⟩
  · rw [List.map_cons, List.mem_cons, not_or]
    refine ⟨fun hsame => ?_, h.fresh s (.tail _ hs)⟩
    have hdistinct := (List.nodup_cons.mp hclear.tail.distinct).1
    exact hdistinct (List.mem_map.mpr ⟨s, hs, hsame⟩)

theorem Along.reaches (h : Along u first cur stops last rest) (hg : u.graph.Sound)
    (hlevel : u.level = 0) (hbase : u.base = first.portal) (hclear : u.graph.Clear (cur :: stops))
    (hview : ∀ s ∈ stops, first.Clear s)
    (htest : ∀ next later, next :: later <:+ stops → ∀ s ∈ next :: later,
      s.portal.target ∈ u.test next.id) :
    ∀ s ∈ cur :: stops, s.portal.target ∈ u.sees := by
  induction stops generalizing cur last rest with
  | nil => exact List.forall_mem_singleton.mpr ⟨last, rest, h.chain, h.cluster⟩
  | cons next stops ih =>
    obtain ⟨link, hlink⟩ := h.step hg hlevel hbase hclear (hview next (.head _))
      (htest next stops (List.suffix_refl _))
    refine List.forall_mem_cons.mpr ⟨⟨last, rest, h.chain, h.cluster⟩, ?_⟩
    exact ih hlink hclear.tail (fun s hs => hview s (.tail _ hs))
      fun n later hs => htest n later (hs.trans (List.suffix_cons _ _))

/-- The result of a portal misses no stop of the clear chains that start there. -/
def Spares (g : Graph R) (id : PortalId) (v : BitSet) : Prop :=
  ∀ (first : Stop R) stops, g.Clear (first :: stops) → first.id = id →
    ∀ s ∈ first :: stops, s.portal.target ∈ v

theorem Clear.suffix {later : List (Stop R)} (h : g.Clear stops) (hs : later <:+ stops) :
    g.Clear later := by
  obtain ⟨before, rfl⟩ := hs
  induction before with
  | nil => exact h
  | cons s before ih => exact ih h.tail

theorem Along.start (hclear : g.Clear (first :: stops)) (hbase : u.base = first.portal)
    (hbound : ∀ s ∈ stops, s.portal.target ∈ u.bound) : Along u first first stops u.first [] := by
  refine ⟨.first, by rw [Outlook.first, hbase], by rw [Outlook.first, hbase], ?_, hbound, fun s hs hmem => ?_⟩
  · rw [Outlook.first, hbase]
    exact hclear.corner first (.head _)
  have hsame := List.mem_singleton.mp hmem
  rw [Outlook.first, hbase] at hsame
  exact (List.nodup_cons.mp hclear.distinct).1 (List.mem_map.mpr ⟨s, hs, hsame⟩)

def clearlySeen (g : Graph R) (id : PortalId) : Set ClusterId :=
  {c | (∃ portal, g.portals[id]? = some portal ∧ portal.target = c) ∨
    ∃ first stops, g.Clear (first :: stops) ∧ first.id = id ∧ ∃ s ∈ first :: stops, s.portal.target = c}

theorem supported_clearlySeen (hg : g.Sound) : g.Supported 0 g.clearlySeen := by
  refine ⟨fun hp => .inl ⟨_, hp, rfl⟩, fun id c hc => ?_⟩
  rcases hc with ⟨portal, hp, rfl⟩ | ⟨first, stops, hclear, rfl, s, hs, rfl⟩
  · exact target_mem_seen hp _
  · have hbound : ∀ s ∈ stops, s.portal.target ∈ g.might first.id :=
      fun s hs => hclear.target_mem_might hg s (.tail _ hs)
    -- whatever is left of the chain after a stop is a clear chain from there
    have htest : ∀ next later, next :: later <:+ stops → ∀ s ∈ next :: later,
        s.portal.target ∈ g.clearlySeen next.id :=
      fun next later hsuf s hs => .inr ⟨next, later, hclear.tail.suffix hsuf, rfl, s, hs, rfl⟩
    have hstart := Along.start (u := g.under 0 g.clearlySeen first.id first.portal) hclear rfl hbound
    exact ⟨first.portal, hclear.portal first (.head _),
      hstart.reaches hg rfl rfl hclear (List.pairwise_cons.mp hclear.clear).1 htest s hs⟩

/-- However many workers there are, at level zero they lose no stop of a clear chain. -/
theorem Shared.spares (hg : g.Sound) (hlevel : o.level = 0) {m : Moment R} (h : g.Shared o m) :
    g.Lawful g.Spares m.toStage := by
  have hlo := supported_clearlySeen hg
  rw [← hlevel] at hlo
  refine (h.orderly hg hlo).lawful.mono fun {id v} hb first stops hclear hid s hs => ?_
  exact hb.lower _ (hlo.sees id (.inr ⟨first, stops, hclear, hid, s, hs, rfl⟩))

/-- At level zero a run ends with results, and that of the first portal of a clear chain holds the targets
of the whole chain. -/
theorem clear_chain_visible (hg : g.Built) (hlevel : o.level = 0) (h : g.Run o t) (hc : t.Complete)
    (hclear : g.Clear (first :: stops)) :
    ∃ visible v, t.progress.results = .ok visible ∧ visible[first.id]? = some v ∧
      ∀ s ∈ first :: stops, s.portal.target ∈ v := by
  obtain ⟨visible, hr, hlen, hresult⟩ := (h.shared.spares hg.sound hlevel).results hc hg.sound
  have hlt : first.id < visible.length := by
    rw [hlen]
    exact (Array.getElem?_eq_some_iff.mp (hclear.portal first (.head _))).1
  have hv := List.getElem?_eq_getElem hlt
  exact ⟨visible, _, hr, hv, (hresult _ _ hv).keeps first stops hclear rfl⟩

/-- The first three openings of the crooked way are on a clear chain. -/
theorem crooked_clear : ∃ s t u : Stop Float, crooked.Clear [s, t, u] ∧ s.id = 0 ∧ u.portal.target = 3 := by
  have hcheck : (crooked.portals[0]?).any fun p => (crooked.portals[2]?).any fun q =>
      (crooked.portals[4]?).any fun r => p.winding.points.any fun a => q.winding.points.any fun b =>
      r.winding.points.any fun c =>
        p.target = 1 ∧ q.owner = 1 ∧ q.target = 2 ∧ r.owner = 2 ∧ r.target = 3 ∧
        q.plane.opposes p.plane = false ∧ r.plane.opposes q.plane = false ∧
        Stop.Clear ⟨0, p, a⟩ ⟨2, q, b⟩ ∧ Stop.Clear ⟨0, p, a⟩ ⟨4, r, c⟩ ∧
        Stop.Clear ⟨2, q, b⟩ ⟨4, r, c⟩ := by decide +kernel
  simp only [Option.any_eq_true, List.any_eq_true, decide_eq_true_eq] at hcheck
  obtain ⟨p, hp, q, hq, r, hr, a, ha, b, hb, c, hc, h1, h2, h3, h4, h5, h6, h7, h8, h9, h10⟩ := hcheck
  refine ⟨⟨0, p, a⟩, ⟨2, q, b⟩, ⟨4, r, c⟩, ⟨?_, ?_, ?_, ?_, ?_⟩, rfl, h5⟩
  · simp [hp, hq, hr]
  · simp [ha, hb, hc]
  · simp [*]
  · simp [*]
  · simp [*]

theorem crooked_clear_chain : ∃ t visible v, crooked.Run { level := 0 } t ∧ t.Complete ∧
    t.progress.results = .ok visible ∧ visible[0]? = some v ∧ 3 ∈ v := by
  obtain ⟨t, ht, hcomplete, -⟩ := exists_early_run crooked_built.sound { level := 0 }
  obtain ⟨p, q, r, hclear, hid, htarget⟩ := crooked_clear
  obtain ⟨visible, v, hvisible, hv, hall⟩ :=
    clear_chain_visible crooked_built rfl ht hcomplete hclear
  refine ⟨t, visible, v, ht, hcomplete, hvisible, hid ▸ hv, ?_⟩
  rw [← htarget]
  exact hall r (by simp)

end Graph

end Sightline
