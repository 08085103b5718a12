import Sightline.Proofs.Bounds
import Sightline.Proofs.ClaimOrder

/-! What the first two levels take away. Their planes narrow the portal ahead and leave the portal at the start
as it is, and with no planes at all nothing depends on what is left of the portals in between. So a chain at
one of these levels is a chain at the lowest level. A run at the lowest level finds no less for any portal, and
goes by no less when it comes to the next one, since the portals are taken in the same order. -/

namespace Sightline

variable {R : Type}

section Chains

variable [Scalar R] {o : Outlook R} {last : Link R} {rest : List (Link R)} {base ahead : Portal R}
  {level : Nat} {source pass : Winding R} {met : Option (Winding R)}

/-- Without planes the same is left of the source, whatever is left of the portal passed last. -/
theorem Link.narrowed?_bare (hlevel : level ≤ 2) (hmet : met.isSome = last.pass.isSome)
    (h : last.narrowed? level base ahead = some (source, pass)) : ∃ pass',
      ({ last with pass := met } : Link R).narrowed? 0 base ahead = some (source, pass') := by
  unfold narrowed? at h ⊢
  obtain ⟨target, htarget, h⟩ := Option.bind_eq_some_iff.mp h
  rw [htarget]
  split at h
  · next hpass =>
    obtain rfl : met = none := by simpa [hpass] using hmet
    cases h
    exact ⟨_, rfl⟩
  · next hpass =>
    obtain ⟨met, rfl⟩ : ∃ w, met = some w := Option.isSome_iff_exists.mp (by rw [hmet, hpass]; rfl)
    obtain ⟨target', htarget', h⟩ := Option.bind_eq_some_iff.mp h
    obtain ⟨source', hsource', h⟩ := Option.bind_eq_some_iff.mp h
    obtain ⟨narrowed, -, h⟩ := Option.bind_eq_some_iff.mp h
    rw [Nat.sub_eq_zero_of_le hlevel, List.take_zero, List.foldlM_nil] at h
    cases h
    refine ⟨target', ?_⟩
    simp [htarget', hsource']

namespace Outlook

/-- A chain at one of the first levels is one at the lowest level, but for what is left of its portals. -/
theorem Chain.bare (h : o.Chain (last :: rest)) (hlevel : o.level ≤ 2) :
    ∃ met rest', met.isSome = last.pass.isSome ∧ rest'.map (·.cluster) = rest.map (·.cluster) ∧
      { o with level := 0 }.Chain ({ last with pass := met } :: rest') := by
  generalize hl : last :: rest = whole at h
  induction h generalizing last rest with
  | first =>
    cases hl
    exact ⟨none, [], rfl, rfl, .first⟩
  | @extend last' next rest id hc he ih =>
    cases hl
    obtain ⟨met, rest', hmet, hrest, hchain⟩ := ih rfl
    obtain ⟨owned, portal, masked, fresh, turned, left⟩ := he
    obtain ⟨pass', hleft⟩ := Link.narrowed?_bare hlevel hmet left
    refine ⟨some pass', { last' with pass := met } :: rest', rfl, ?_, ?_⟩
    · rw [List.map_cons, List.map_cons, hrest]
    · refine hchain.extend (.intro owned portal masked ?_ turned hleft)
      rw [List.map_cons, hrest]
      exact fresh

theorem sees_bare (hlevel : o.level ≤ 2) : o.sees ⊆ { o with level := 0 }.sees := by
  rintro c ⟨last, rest, hc, rfl⟩
  obtain ⟨met, rest', -, -, hchain⟩ := hc.bare hlevel
  exact ⟨_, rest', hchain, rfl⟩

end Outlook

end Chains

theorem eq_none_or_eq_some {α β : Type} {rel : α → β → Prop} {x : Option α} {y : Option β}
    (h : Option.Rel rel x y) :
    x = none ∧ y = none ∨ ∃ a b, x = some a ∧ y = some b ∧ rel a b := by
  cases h with
  | none => exact .inl ⟨rfl, rfl⟩
  | some hab => exact .inr ⟨_, _, rfl, rfl, hab⟩

/-- The two entries have come to the same point, and no result of the first goes beyond that of the second. -/
structure Entry.Below (e f : Entry) : Prop where
  status : f.status = e.status
  mightSee : f.mightSee = e.mightSee
  mightCount : f.mightCount = e.mightCount
  visible : Option.Rel (fun v w => v ⊆ w) e.visible f.visible

namespace Entry

variable {e f : Entry} {v w : BitSet} {s : Status}

theorem Below.setStatus (h : e.Below f) : { e with status := s }.Below { f with status := s } :=
  ⟨rfl, h.mightSee, h.mightCount, h.visible⟩

theorem Below.publish (h : e.Below f) (hv : v ⊆ w) : (e.publish v).Below (f.publish w) := by
  refine ⟨rfl, h.mightSee, h.mightCount, ?_⟩
  unfold Entry.publish
  dsimp only
  obtain ⟨he, hf⟩ | ⟨v', w', he, hf, hsub⟩ := eq_none_or_eq_some h.visible
  · rw [he, hf]
    exact .some hv
  · rw [he, hf]
    exact .some hsub

theorem Below.result? (h : e.Below f) : Option.Rel (fun v w => v ⊆ w) e.result? f.result? := by
  unfold Entry.result?
  rw [h.status]
  split
  · exact h.visible
  · exact .none

theorem Below.evidence (h : e.Below f) : e.evidence.set ⊆ f.evidence.set := by
  unfold Entry.evidence
  obtain ⟨he, hf⟩ | ⟨v, w, he, hf, hsub⟩ := eq_none_or_eq_some h.result?
  · rw [he, hf, h.mightSee]
    exact fun _ hc => hc
  · rw [he, hf]
    exact hsub

end Entry

namespace Progress

variable {p q p' q' : Progress} {id i : PortalId} {v w : BitSet}

def Below (p q : Progress) : Prop := ∀ i : PortalId, Option.Rel Entry.Below p.entries[i]? q.entries[i]?

theorem Below.refl (p : Progress) : p.Below p := by
  intro i
  cases p.entries[i]? with
  | none => exact .none
  | some e =>
    refine .some ⟨rfl, rfl, rfl, ?_⟩
    cases e.visible with
    | none => exact .none
    | some v => exact .some fun _ hc => hc

theorem Below.map_eq {α : Type} {k : Entry → α} (h : p.Below q) (hk : ∀ {e f : Entry}, e.Below f → k f = k e)
    (i : PortalId) : (q.entries[i]?).map k = (p.entries[i]?).map k := by
  obtain ⟨hp, hq⟩ | ⟨e, f, hp, hq, hef⟩ := eq_none_or_eq_some (h i)
  · rw [hp, hq]
  · rw [hp, hq, Option.map_some, Option.map_some, hk hef]

theorem Below.cheapest? (h : p.Below q) : q.cheapest? = p.cheapest? :=
  cheapest?_congr (h.map_eq Entry.Below.status) (h.map_eq Entry.Below.mightCount)

theorem Below.claim?_eq_none (h : p.Below q) : q.claim? = none ↔ p.claim? = none := by
  rw [claim?, claim?, Option.map_eq_none_iff, Option.map_eq_none_iff, h.cheapest?]

theorem Below.bound (h : p.Below q) : q.bound = p.bound := by
  funext i
  unfold Progress.bound mightSee?
  rw [h.map_eq Entry.Below.mightSee]

theorem Below.test (h : p.Below q) (i : PortalId) : p.test i ⊆ q.test i := by
  rintro c ⟨evidence, he, hc⟩
  obtain ⟨e, hp, rfl⟩ := Option.map_eq_some_iff.mp he
  obtain ⟨hnone, -⟩ | ⟨e', f, hp', hq, hef⟩ := eq_none_or_eq_some (h i)
  · cases hp.symm.trans hnone
  · cases hp.symm.trans hp'
    exact ⟨f.evidence, by rw [evidence?, hq, Option.map_some], hef.evidence c hc⟩

theorem Below.update {k k' : Entry → Entry} (h : p.Below q) (hk : ∀ {e f : Entry}, e.Below f → (k e).Below (k' f))
    (hp : ∀ i : PortalId, p'.entries[i]? = (p.entries[i]?).map fun e => if id = i then k e else e)
    (hq : ∀ i : PortalId, q'.entries[i]? = (q.entries[i]?).map fun f => if id = i then k' f else f) :
    p'.Below q' := by
  intro i
  rw [hp, hq]
  obtain ⟨hp, hq⟩ | ⟨e, f, hp, hq, hef⟩ := eq_none_or_eq_some (h i)
  · rw [hp, hq]
    exact .none
  · rw [hp, hq]
    refine .some ?_
    split
    · exact hk hef
    · exact hef

theorem Below.setStatus (h : p.Below q) (id : PortalId) (s : Status) :
    (p.setStatus id s).Below (q.setStatus id s) :=
  h.update Entry.Below.setStatus (p.getElem?_setStatus id · s) (q.getElem?_setStatus id · s)

theorem Below.publish {counted counted' : Counters} {n n' : Nat} (h : p.Below q) (hv : v ⊆ w)
    (hp : (p.publish id v counted).result = .ok (p', n))
    (hq : (q.publish id w counted').result = .ok (q', n')) : p'.Below q' :=
  h.update (fun hef => hef.publish hv) (getElem?_publish hp) (getElem?_publish hq)

theorem Below.results {l l' : List BitSet} (h : p.Below q) (hp : p.results = .ok l) (hq : q.results = .ok l')
    (hv : l[id]? = some v) : ∃ w, l'[id]? = some w ∧ v ⊆ w := by
  obtain ⟨e, he, hstatus, hvisible⟩ := evidence?_eq_final.mp ((getElem?_results hp id).mp hv)
  obtain ⟨hnone, -⟩ | ⟨e', f, he', hf, hef⟩ := eq_none_or_eq_some (h id)
  · cases he.symm.trans hnone
  · cases he.symm.trans he'
    obtain ⟨hnone, -⟩ | ⟨v', w, hv', hw, hsub⟩ := eq_none_or_eq_some hef.visible
    · cases hvisible.symm.trans hnone
    · cases hvisible.symm.trans hv'
      have hfinal := evidence?_eq_final.mpr ⟨f, hf, hef.status.trans hstatus, hw⟩
      exact ⟨w, (getElem?_results hq id).mpr hfinal, hsub⟩

end Progress

namespace Graph

variable [Scalar R] {g : Graph R} {o o' : Options} {t t' : Stage} {p q next next' : Progress} {id : PortalId}
  {portal : Portal R} {worker worker' : Worker R} {turn turn' : Turn R} {level : Nat}

/-- At the lowest level, and going by no less, a portal sees no less. -/
theorem sees_subset_bare (h : p.Below q) (hlevel : level ≤ 2) :
    (g.outlook level p id portal).sees ⊆ (g.outlook 0 q id portal).sees := by
  have hbare := Outlook.sees_bare (o := g.outlook level p id portal) hlevel
  have hbound : p.bound id ⊆ q.bound id := by rw [h.bound]
  exact hbare.trans (Outlook.sees_mono hbound fun i _ _ _ => h.test i)

/-- A turn at one of the first levels, and one at the lowest level from the same point, end at the same point.
The second still goes by no less. -/
theorem Run.turn_below (hg : g.Sound) (hrun : g.Run o t) (hrun' : g.Run o' t') (hlevel : o.level ≤ 2)
    (hbare : o'.level = 0) (h : t.progress.Below t'.progress)
    (ht : (g.turn? o t.progress worker).result = .ok (some (turn, next)))
    (ht' : (g.turn? o' t'.progress worker').result = .ok (some (turn', next'))) : next.Below next' := by
  obtain ⟨claimed, f, n, hc, hf, hp, -⟩ := turn?_eq_some ht
  obtain ⟨claimed', f', n', hc', hf', hp', -⟩ := turn?_eq_some ht'
  have hlaw := (hrun.claim hc).kept hg
  have hlaw' := (hrun'.claim hc').kept hg
  have hclaimed := (Progress.status?_claim hc).2
  have hclaimed' := (Progress.status?_claim hc').2
  obtain ⟨hfirst, rfl⟩ := Progress.claim?_eq_some.mp hc
  obtain ⟨hfirst', rfl⟩ := Progress.claim?_eq_some.mp hc'
  -- both claim the same portal
  rw [h.cheapest?, hfirst, Option.some_inj] at hfirst'
  rw [← hfirst'] at hlaw' hclaimed' hf' hp'
  have hbelow := h.setStatus turn.portal .claimed
  obtain ⟨portal, found, hportal, hfound, hprogress, hsees⟩ := hlaw.exists_flow hg hclaimed o worker
  obtain ⟨portal', found', hportal', hfound', hprogress', hsees'⟩ := hlaw'.exists_flow hg hclaimed' o' worker'
  cases hf.symm.trans hfound
  cases hf'.symm.trans hfound'
  cases hportal.symm.trans hportal'
  have hvisible : f.visible ⊆ f'.visible := by
    intro c hc
    rw [hsees', hbare]
    exact sees_subset_bare hbelow hlevel ((hsees c).mp hc)
  rw [hprogress] at hp
  rw [hprogress'] at hp'
  exact (hbelow.setStatus turn.portal .flowing).publish hvisible hp hp'

theorem Run.drain_below (hg : g.Sound) (hrun : g.Run o t) (hrun' : g.Run o' t') (hlevel : o.level ≤ 2)
    (hbare : o'.level = 0) (h : t.progress.Below t'.progress)
    {announce announce' : Turn R → Progress → Report Unit} {d d' : Drained R}
    (hd : (g.drain o announce t.progress worker).result = .ok d)
    (hd' : (g.drain o' announce' t'.progress worker').result = .ok d') : d.progress.Below d'.progress := by
  induction hn : t.progress.waiting using Nat.strong_induction_on generalizing t t' worker worker' d d' with
  | _ n ih =>
    obtain ⟨hend, rfl⟩ | ⟨turn, next, rest, ht, hrest, rfl⟩ := drain_eq_ok hd
    · obtain ⟨-, rfl⟩ | ⟨turn', next', -, ht', -⟩ := drain_eq_ok hd'
      · exact h
      · obtain ⟨_, _, _, hc', -⟩ := turn?_eq_some ht'
        cases hc'.symm.trans (h.claim?_eq_none.mpr (turn?_eq_none hend))
    · obtain ⟨hend', -⟩ | ⟨turn', next', rest', ht', hrest', rfl⟩ := drain_eq_ok hd'
      · obtain ⟨_, _, _, hc, -⟩ := turn?_eq_some ht
        cases hc.symm.trans (h.claim?_eq_none.mp (turn?_eq_none hend'))
      · have hnext := hrun.turn_below hg hrun' hlevel hbare h ht ht'
        have hbelow := ih next.waiting (hn ▸ waiting_turn ht) (hrun.turn ht).1 (hrun'.turn ht').1 hnext hrest
          hrest' rfl
        exact hbelow

theorem flowAll_eq_ok (hfast : o.fast = false) : (g.flowAll o p).result = .ok next ↔
    ∃ d, (g.drain o (announceTurn 0) p {}).result = .ok d ∧ d.progress = next := by
  rw [flowAll, if_neg (by simp [hfast]), Report.result_bind_eq_ok]
  simp

/-- A survey that is not fast is what one worker comes to that takes all portals in turn. -/
theorem survey_drained (hg : g.Sound) (hfast : o.fast = false) {found : Survey}
    (h : (g.survey o).result = .ok (found, g')) : ∃ ready d,
      (g.prepared o (.ofThreads o.threads)).result = .ok ready ∧ ready.mightSets? = some found.mightSee ∧
      (ready.drain o (announceTurn 0)
        (.ofMightSee found.mightSee (1 < (Workers.ofThreads o.threads).count)) {}).result = .ok d ∧
      d.progress.results = .ok found.visible ∧ found.total = d.progress.total := by
  obtain ⟨ready, might, p, hready, hmight, hp, hdone, hsets, htotal⟩ := survey_eq_ok.mp h
  obtain ⟨might', hmight', hstart⟩ := exists_shared_might (hg.prepared hready) (.ofThreads o.threads)
  obtain rfl : might = might' := Option.some.inj (hmight.symm.trans hmight')
  obtain ⟨d, hd, rfl⟩ := (flowAll_eq_ok hfast).mp hp
  rw [hsets]
  exact ⟨ready, d, hready, hstart, hd, (encodeProgress_eq_ok.mp hdone).1, htotal⟩

/-- With separating planes for the portal ahead alone, a survey finds for each portal a part of what it finds
with none, and the same that each might see. -/
theorem levels_only_remove (hg : g.Built) (o : Options) (hfast : o.fast = false) (hlevel : level ≤ 2) :
    ∃ found bare g₁ g₂, (g.survey (o.withLevel level)).result = .ok (found, g₁) ∧
      (g.survey (o.withLevel 0)).result = .ok (bare, g₂) ∧ found.mightSee = bare.mightSee ∧
      ∀ (id : PortalId) portal, g.portals[id]? = some portal → ∃ v w,
        found.visible[id]? = some v ∧ bare.visible[id]? = some w ∧ v ⊆ w := by
  have hs := hg.sound
  obtain ⟨_, _, _, _, _, g₁, -, -, -, -, hfound⟩ := survey_spec hs (o.withLevel level)
  obtain ⟨_, _, _, _, _, g₂, -, -, -, -, hbare⟩ := survey_spec hs (o.withLevel 0)
  obtain ⟨ready, d, hready, hsets, hd, hv, -⟩ := survey_drained hs (o := o.withLevel level) hfast hfound
  obtain ⟨ready', d', hready', hsets', hd', hw, -⟩ := survey_drained hs (o := o.withLevel 0) hfast hbare
  -- what comes before the searches does not look at the level
  obtain rfl : ready = ready' := Except.ok.inj (hready.symm.trans hready')
  have hmight := Option.some.inj (hsets.symm.trans hsets')
  rw [← hmight] at hd'
  have hlow : (o.withLevel level).level ≤ 2 := (Nat.min_le_left _ _).trans hlevel
  have hbelow := Run.drain_below (hs.prepared hready) (.start hsets) (.start hsets) hlow rfl
    (Progress.Below.refl _) hd hd'
  refine ⟨_, _, g₁, g₂, hfound, hbare, hmight, fun id portal hportal => ?_⟩
  obtain ⟨v, m, hvid, -⟩ := (Outcome.bounded hs (.survey hfound rfl rfl)).result hportal
  obtain ⟨w, hwid, hsub⟩ := hbelow.results hv hw hvid
  exact ⟨v, w, hvid, hwid, hsub⟩

def triangle (x y size : Float) : List (Vec Float) := [⟨x, y, 0⟩, ⟨x, y + size, 0⟩, ⟨x, y, size⟩]

/-- Three rooms in a row with a small opening into the last of them, from which two ways go on. One of these
cannot be seen from the first room. -/
def forked : Graph Float :=
  match (ofClusters 5 : Graph Float).addAll [(triangle 0 0 4, 0, 1), (triangle 4 0 1, 1, 2),
    (triangle 8 0 4, 2, 3), (triangle 8 6 2, 2, 4)] with
  | .ok g => g
  | .error _ => .ofClusters 5

theorem forked_built : forked.Built := by
  unfold forked
  split
  · next h => exact (Built.ofClusters 5).addAll h
  · exact .ofClusters 5

def forkedSets : List BitSet :=
  [[false, true, true, true, true], [true, false, false, false, false],
    [false, false, true, true, true], [true, true, false, false, false],
    [false, false, false, true, false], [true, true, true, false, false],
    [false, false, false, false, true], [true, true, true, false, false]].map .ofBools

theorem forked_mightSets : forked.mightSets? = some forkedSets :=
  mightSets?_of_within 10 (by decide +kernel)

def firstSeen? (g : Graph Float) (o : Options) (sets : List BitSet) : Option BitSet :=
  match (g.prepared o (.ofThreads o.threads)).result with
  | .error _ => none
  | .ok ready =>
    match (ready.drain o (announceTurn 0)
      (.ofMightSee sets (1 < (Workers.ofThreads o.threads).count)) {}).result with
    | .error _ => none
    | .ok d => d.progress.results.toOption.bind (·[0]?)

theorem forked_firstSeen {o : Options} (hfast : o.fast = false) {found : Survey} {g' : Graph Float}
    (h : (forked.survey o).result = .ok (found, g')) : found.visible[0]? = firstSeen? forked o forkedSets := by
  obtain ⟨ready, d, hready, hsets, hd, hresults, -⟩ := survey_drained forked_built.sound hfast h
  have hsame : found.mightSee = forkedSets :=
    Option.some.inj (hsets.symm.trans ((Alike.prepared hready).mightSets?.trans forked_mightSets))
  rw [hsame] at hd
  simp only [firstSeen?, hready, hd, hresults]
  rfl

/-- Planes through the small opening take the last room from what the first portal sees. -/
theorem forked_levels : ∃ found bare g₁ g₂,
    (forked.survey (Options.withLevel {} 2)).result = .ok (found, g₁) ∧
    (forked.survey (Options.withLevel {} 0)).result = .ok (bare, g₂) ∧ found.mightSee = bare.mightSee ∧
    ∃ v w : BitSet, found.visible[0]? = some v ∧ bare.visible[0]? = some w ∧ v ⊆ w ∧ 4 ∉ v ∧ 4 ∈ w := by
  have hsize : 0 < forked.portals.size := by decide +kernel
  obtain ⟨found, bare, g₁, g₂, hfound, hbare, hmight, hsub⟩ :=
    levels_only_remove forked_built {} rfl (show 2 ≤ 2 from Nat.le_refl 2)
  obtain ⟨v, w, hv, hw, hvw⟩ := hsub 0 _ (Array.getElem?_eq_getElem hsize)
  have hnear : firstSeen? forked (Options.withLevel {} 2) forkedSets =
      some (.ofBools [false, true, true, true, false]) := by decide +kernel
  have hfar : firstSeen? forked (Options.withLevel {} 0) forkedSets =
      some (.ofBools [false, true, true, true, true]) := by decide +kernel
  have hv' := hv.symm.trans ((forked_firstSeen rfl hfound).trans hnear)
  have hw' := hw.symm.trans ((forked_firstSeen rfl hbare).trans hfar)
  refine ⟨found, bare, g₁, g₂, hfound, hbare, hmight, v, w, hv, hw, hvw, ?_, ?_⟩
  · rw [Option.some.inj hv']
    decide
  · rw [Option.some.inj hw']
    decide

end Graph

end Sightline
