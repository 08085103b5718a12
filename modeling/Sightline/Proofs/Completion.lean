import Sightline.Proofs.Agreement
import Sightline.Proofs.FastRun
import Sightline.Proofs.Likeness
import Sightline.Proofs.PassageTable
import Sightline.Proofs.Walk
import Sightline.Proofs.Rows

/-! Surveys come to an end with a result. In a graph that was built no id leads nowhere, the sets of a
search keep one bit for every cluster, and each portal is claimed, flowed and published once. -/

namespace Sightline

variable {R : Type} [Scalar R]

namespace Search

variable {s : Setting R} {x y : Search R} {top : Frame R} {rest : List (Frame R)} {n : Nat}
  {lo hi : PortalId → Set ClusterId}

/-- Whatever a search looks up next is there: the base portal and the clusters between which it lies, the
clusters of the chain, and the portals by which the chain may go on, with where they lead and what they are
judged by. The sets have a bit for every cluster. -/
structure InRange (s : Setting R) (x : Search R) : Prop where
  base : s.graph.portals[s.base]? = some s.portal
  owner : s.portal.owner < s.graph.clusters.size
  target : s.portal.target < s.graph.clusters.size
  size_onChain : x.onChain.size = s.graph.clusters.size
  size_visible : x.visible.size = s.graph.clusters.size
  size_mask : ∀ f ∈ x.stack, f.mask.size = s.graph.clusters.size
  cluster : ∀ f ∈ x.stack, f.cluster < s.graph.clusters.size
  todo : ∀ f ∈ x.stack, ∀ id ∈ f.todo, ∃ portal evidence, s.graph.portals[id]? = some portal ∧
    portal.target < s.graph.clusters.size ∧ s.progress.evidence? id = some evidence ∧
    evidence.set.size = s.graph.clusters.size

theorem InRange.exists_move (h : InRange s x) (hx : x.stack = top :: rest) :
    ∃ y, move s x top rest = .ok y := by
  unfold Search.move
  split
  · exact ⟨_, rfl⟩
  · next id todo ht =>
    obtain ⟨portal, evidence, hp, -, he, -⟩ := h.todo top (hx ▸ .head _) id (ht ▸ .head _)
    unfold attempt
    simp only [hp, he]
    split
    · exact ⟨_, rfl⟩
    · split
      · exact ⟨_, rfl⟩
      · split <;> exact ⟨_, rfl⟩

theorem Moves.between_valid (hready : s.Ready) (hs : s.Between lo hi) (hx : Between s lo hi x ∧ Valid s x)
    (h : Moves s n x y) : Between s lo hi y ∧ Valid s y := by
  induction h with
  | none => exact hx
  | next hstack hz _ ih =>
    obtain ⟨hb, hv⟩ := hx
    obtain ⟨z, hz', hb'⟩ := hb.move hready hs hv hstack
    cases hz.symm.trans hz'
    exact ih ⟨hb', hv.move hstack hz⟩

def after? (s : Setting R) : Nat → Search R → Option (Search R)
  | 0, x => some x
  | n + 1, x =>
    match x.stack with
    | [] => none
    | top :: rest =>
      match move s x top rest with
      | .ok y => after? s n y
      | .error _ => none

theorem moves_of_after (h : after? s n x = some y) : Moves s n x y := by
  fun_induction after? s n x with
  | case1 x =>
    cases h
    exact .none
  | case2 => cases h
  | case3 n x top rest hx z hz ih => exact .next hx hz (ih h)
  | case4 => cases h

theorem Between.inRange (hs : s.Ready) (he : Between s lo hi x) (hv : Valid s x)
    (hsize : ∀ id evidence, s.progress.evidence? id = some evidence →
      evidence.set.size = s.graph.clusters.size) : InRange s x := by
  refine ⟨hs.base, hs.sound.owner_lt hs.base, hs.sound.target_lt hs.base, hv.size_onChain, he.size, hv.size_mask,
    fun f hf => ?_, fun f hf id hid => ?_⟩
  · have hmem : f.cluster ∈ x.onChain := (hv.mem_onChain _).mpr (List.mem_map_of_mem hf)
    exact hv.size_onChain ▸ BitSet.lt_size_of_mem hmem
  · obtain ⟨portal, hp, -⟩ := hs.sound.mem_portalsOf.mp (he.todo f hf hid)
    obtain ⟨evidence, hev, -⟩ := hs.fits.own id portal hp
    exact ⟨portal, evidence, hp, hs.sound.target_lt hp, hev, hsize id evidence hev⟩

end Search

namespace Graph

variable {g g' : Graph R} {o : Options} {t : Stage} {P : PortalId → BitSet → Prop} {id : PortalId}

theorem Lawful.size_evidence (h : g.Lawful P t) (hg : g.Sound) {evidence : Evidence}
    (he : t.progress.evidence? id = some evidence) : evidence.set.size = g.clusters.size := by
  cases evidence with
  | final v => exact (h.final he).size
  | might v => exact (h.fits hg).size id v (Progress.evidence?_eq_might he)

/-- A state of the search that some run makes for one of its claimed portals. -/
def Searched (g : Graph R) (o : Options) (s : Setting R) (x : Search R) : Prop :=
  ∃ t id portal mightSee pool n, g.Run o t ∧ t.progress.status? id = some .claimed ∧
    g.portals[id]? = some portal ∧ t.progress.mightSee? id = some mightSee ∧
    s = g.setting o t.progress id portal ∧ Search.Moves s n (.start s mightSee pool) x

theorem Searched.inRange (hg : g.Sound) {s : Setting R} {x : Search R} (h : g.Searched o s x) :
    x.InRange s := by
  obtain ⟨t, id, portal, mightSee, pool, n, ht, hc, hp, hm, rfl, hx⟩ := h
  have hlaw := ht.kept hg
  have hfits := hlaw.fits hg
  have hs := ready_setting hg hfits hp hc o
  have htarget := hg.target_lt hp
  have hm' : (t.progress.setStatus id .flowing).mightSee? id = some mightSee :=
    (Progress.mightSee?_setStatus _ _ _ _).trans hm
  obtain ⟨hbetween, hvalid⟩ := hx.between_valid hs hs.between
    ⟨.start htarget hm' (hfits.size id _ hm) pool, .start htarget mightSee pool⟩
  refine hbetween.inRange hs hvalid fun i evidence he => ?_
  rw [setting, Progress.evidence?_setStatus (by simp [hc]) (by simp)] at he
  exact hlaw.size_evidence hg he

theorem Run.exists_turn (hg : g.Sound) (h : g.Run o t) (worker : Worker R) :
    ∃ turn, (g.turn? o t.progress worker).result = .ok turn := by
  unfold turn?
  split
  · exact ⟨none, rfl⟩
  · next id claimed hc =>
    have hclaim := (Progress.status?_claim hc).2
    obtain ⟨portal, f, -, hf, hprogress, -⟩ := ((h.claim hc).kept hg).exists_flow hg hclaim o worker
    have hflowing : f.progress.status? id = some .flowing := by
      rw [hprogress, Progress.status?_setStatus, hclaim, Option.map_some, if_pos rfl]
    obtain ⟨q, n, hq⟩ := Progress.exists_publish hflowing f.visible f.worker.counters
    refine ⟨some (⟨id, f.visible, f.worker, n⟩, q), Report.result_bind_eq_ok.mpr ⟨f, hf, ?_⟩⟩
    exact Report.result_bind_eq_ok.mpr ⟨(q, n), hq, rfl⟩

/-- One turn after another is taken until no portal waits, if all turns can be announced. -/
theorem Run.exists_drain (hg : g.Sound) (h : g.Run o t) {announce : Turn R → Progress → Report Unit}
    (ha : ∀ turn p, p.status? turn.portal = some .done → (announce turn p).result = .ok ())
    (worker : Worker R) : ∃ d, (g.drain o announce t.progress worker).result = .ok d := by
  induction hn : t.progress.waiting using Nat.strong_induction_on generalizing t worker with
  | _ n ih =>
    obtain ⟨turn, ht⟩ := h.exists_turn hg worker
    rw [Graph.drain]
    cases turn with
    | none => exact ⟨_, Report.result_bindWith_eq_ok.mpr ⟨none, ht, rfl⟩⟩
    | some turn =>
      obtain ⟨turn, next⟩ := turn
      obtain ⟨hrun, hwaits, hstatus⟩ := h.turn ht
      have hdone : next.status? turn.portal = some .done := by
        rw [hstatus, hwaits, Option.map_some, if_pos rfl]
      obtain ⟨d, hd⟩ := ih next.waiting (hn ▸ waiting_turn ht) hrun turn.rested rfl
      refine ⟨{ d with turns := turn :: d.turns },
        Report.result_bindWith_eq_ok.mpr ⟨some (turn, next), ht, ?_⟩⟩
      refine Report.result_bind_eq_ok.mpr ⟨(), ha turn next hdone, ?_⟩
      exact Report.result_bind_eq_ok.mpr ⟨d, hd, rfl⟩

omit [Scalar R] in
theorem announceTurn_eq_ok {worker : Nat} {turn : Turn R} {p : Progress} {s : Status}
    (h : p.status? turn.portal = some s) : (announceTurn worker turn p).result = .ok () := by
  obtain ⟨e, he, -⟩ := Option.map_eq_some_iff.mp h
  exact Report.result_bind_eq_ok.mpr ⟨e, Report.result_ofOption_eq_ok.mpr he, rfl⟩

theorem exists_flowAll (hg : g.Sound) (o : Options) {sets : List BitSet} (hs : g.mightSets? = some sets)
    (threaded : Bool) :
    ∃ p, (g.flowAll o (.ofMightSee sets threaded)).result = .ok p ∧ g.Ends o { progress := p } := by
  have hidle := Progress.idle_ofMightSee sets threaded
  unfold flowAll Ends
  split
  · next hfast =>
    obtain ⟨p, hp⟩ := (Progress.ofMightSee sets threaded).exists_settleAll
    obtain ⟨hrun, hcomplete⟩ := (FastRun.start hs).settleAll hp
    exact ⟨p, hp, hrun, hcomplete hidle⟩
  · next hfast =>
    have hstart : g.Run o { progress := .ofMightSee sets threaded } := .start hs
    obtain ⟨d, hd⟩ := hstart.exists_drain hg (fun _ _ hdone => announceTurn_eq_ok hdone) {}
    obtain ⟨hrun, hcomplete⟩ := hstart.drain hd
    exact ⟨d.progress, Report.result_bind_eq_ok.mpr ⟨d, hd, rfl⟩, hrun, hcomplete hidle⟩

theorem Sound.exists_prepared (hg : g.Sound) (o : Options) (workers : Workers) :
    ∃ g₁, (g.prepared o workers).result = .ok g₁ := by
  unfold Graph.prepared
  split
  · obtain ⟨g₁, h₁, -⟩ := hg.exists_buildPassages workers
    exact ⟨g₁, Report.result_bind_eq_ok.mpr ⟨_, h₁, rfl⟩⟩
  · exact ⟨g, rfl⟩

/-- However many workers share the portals out, they find the might-see sets. -/
theorem exists_shared_might (hg : g.Sound) (workers : Workers) :
    ∃ might, (workers.map g.portals.size g.mightSee?).mapM (fun m => m) = some might ∧
      g.mightSets? = some (might.map (·.clusters)) := by
  obtain ⟨might, hm⟩ := exists_mapM (f := g.mightSee?) (l := List.range g.portals.size) fun id hid => by
    obtain ⟨m, hm, -⟩ := mightSee?_spec hg (Array.getElem?_eq_getElem (List.mem_range.mp hid))
    exact ⟨m, hm⟩
  have hall := mapM_eq_some.mp hm
  refine ⟨might, mapM_eq_some.mpr ?_, mapM_eq_some.mpr ?_⟩
  · rw [List.map_id', Workers.map, hall]
  · have h := congrArg (List.map (Option.map (·.clusters))) hall
    simpa only [List.map_map, Function.comp_def, Option.map_some] using h

/-- A complete run has a result for every portal, and they make a table. -/
theorem Lawful.tabled (hg : g.Sound) (h : g.Lawful P t) (hc : t.Complete) : ∃ visible table g',
    (g.encodeProgress t.progress).result = .ok (visible, table, g') ∧ g.Tabled visible table ∧
      visible.length = g.portals.size ∧ ∀ (id : PortalId) v, visible[id]? = some v → g.Result P id v := by
  obtain ⟨visible, hv, hlen, hresult⟩ := h.results hc hg
  obtain ⟨table, g', hencode, htable, -⟩ := encode_spec hg hlen
  exact ⟨visible, table, g', encodeProgress_eq_ok.mpr ⟨hv, hencode⟩, htable, hlen, hresult⟩

/-- A survey ends with a result, and that is what a complete run came to. -/
theorem survey_spec (hg : g.Sound) (o : Options) : ∃ g₁ sets t visible table g₂,
    (g.prepared o (.ofThreads o.threads)).result = .ok g₁ ∧ g₁.mightSets? = some sets ∧ g₁.Ends o t ∧
      (g₁.encodeProgress t.progress).result = .ok (visible, table, g₂) ∧
      (g.survey o).result = .ok (⟨visible, sets, table, t.progress.total⟩, g₂) := by
  obtain ⟨g₁, h₁⟩ := hg.exists_prepared o (.ofThreads o.threads)
  have hg₁ := hg.prepared h₁
  obtain ⟨might, hm, hs⟩ := exists_shared_might hg₁ (.ofThreads o.threads)
  obtain ⟨p, hp, hends⟩ := exists_flowAll hg₁ o hs (1 < (Workers.ofThreads o.threads).count)
  obtain ⟨visible, table, g₂, hdone, -⟩ := (hends.lawful hg₁).tabled hg₁ hends.2
  exact ⟨g₁, _, { progress := p }, visible, table, g₂, h₁, hs, hends, hdone,
    survey_eq_ok.mpr ⟨g₁, might, p, h₁, hm, hp, hdone, rfl, rfl⟩⟩

/-- A survey of a graph that was built always has a result, and its searches look nothing up that is not
there. -/
theorem survey_completes (hg : g.Built) (o : Options) :
    (∃ found g', (g.survey o).result = .ok (found, g')) ∧
      ∀ g₁ s x, (g.prepared o (.ofThreads o.threads)).result = .ok g₁ → g₁.Searched o s x →
        x.InRange s := by
  refine ⟨?_, fun g₁ s x h₁ hx => hx.inRange (hg.sound.prepared h₁)⟩
  obtain ⟨g₁, sets, t, visible, table, g₂, -, -, -, -, h⟩ := survey_spec hg.sound o
  exact ⟨_, _, h⟩

theorem Run.claimNext (h : g.Run o t) (id : PortalId) (hc : t.progress.cheapest? = some id) :
    g.Run o { t with progress := t.progress.setStatus id .claimed } :=
  h.claim (Progress.claim?_eq_some.mpr ⟨hc, rfl⟩)

/-- The crooked way when seven of its portals are claimed, from the cheapest on. -/
def crookedClaimed : Progress :=
  [1, 6, 3, 4, 2, 5, 0].foldl (·.setStatus · .claimed) (.ofMightSee crookedSets false)

theorem Run.crookedClaimed (hs : g.mightSets? = some crookedSets) (o : Options) :
    g.Run o { progress := crookedClaimed } := by
  have h : g.Run o { progress := .ofMightSee crookedSets false } := .start hs
  have h := h.claimNext 1 (by decide +kernel)
  have h := h.claimNext 6 (by decide +kernel)
  have h := h.claimNext 3 (by decide +kernel)
  have h := h.claimNext 4 (by decide +kernel)
  have h := h.claimNext 2 (by decide +kernel)
  have h := h.claimNext 5 (by decide +kernel)
  exact h.claimNext 0 (by decide +kernel)

def crookedChain? (g : Graph Float) (o : Options) : Option (List ClusterId) := do
  let portal ← g.portals[0]?
  let mightSee ← crookedClaimed.mightSee? 0
  let s := g.setting o crookedClaimed 0 portal
  let x ← Search.after? s 4 (.start s mightSee {})
  some (x.stack.map (·.cluster))

/-- With more levels than there are and no thread asked for, and on a chain through three clusters of the crooked
way whose passages were built. -/
theorem crooked_survey_completes : ∃ found g' g₁ s x,
    (crooked.survey { level := 255, threads := 0 }).result = .ok (found, g') ∧
      (crooked.prepared { level := 1 } (.ofThreads 1)).result = .ok g₁ ∧
      g₁.Searched { level := 1 } s x ∧ x.stack.map (·.cluster) = [3, 2, 1] ∧ x.InRange s := by
  obtain ⟨⟨found, g', h⟩, -⟩ := survey_completes crooked_built { level := 255, threads := 0 }
  obtain ⟨-, hrange⟩ := survey_completes crooked_built { level := 1 }
  obtain ⟨g₁, h₁⟩ := crooked_built.sound.exists_prepared { level := 1 } (.ofThreads 1)
  have hsets : g₁.mightSets? = some crookedSets :=
    (Alike.prepared h₁).mightSets?.trans crooked_mightSets
  have hchain : (match (crooked.prepared { level := 1 } (.ofThreads 1)).result with
      | .ok g₁ => crookedChain? g₁ { level := 1 }
      | .error _ => none) = some [3, 2, 1] := by decide +kernel
  rw [h₁] at hchain
  obtain ⟨portal, hp, hchain⟩ := Option.bind_eq_some_iff.mp hchain
  obtain ⟨mightSee, hm, hchain⟩ := Option.bind_eq_some_iff.mp hchain
  obtain ⟨x, hx, hchain⟩ := Option.bind_eq_some_iff.mp hchain
  have hx : g₁.Searched { level := 1 } _ x := ⟨_, 0, portal, mightSee, {}, 4,
    .crookedClaimed hsets { level := 1 }, by decide +kernel, hp, hm, rfl, Search.moves_of_after hx⟩
  exact ⟨found, g', g₁, _, x, h, h₁, hx, Option.some.inj hchain, hrange g₁ _ x h₁ hx⟩

end Graph

end Sightline
