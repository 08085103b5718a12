import Sightline.Proofs.Knowledge
import Sightline.Proofs.Schedule

/-! Whether runs agree. A portal that is flowed late is judged against tighter bounds than one that is flowed
early, and may see less. All runs come to the same results just in case this makes no difference to any
portal that is flowed after all others. -/

namespace Sightline

variable {R : Type} [Scalar R]

namespace Graph

variable {g : Graph R} {o : Options} {t : Stage} {P : PortalId → BitSet → Prop} {id : PortalId}

def seesBy (g : Graph R) (level : Nat) (test : PortalId → Set ClusterId) (id : PortalId) :
    Set ClusterId :=
  {c | ∃ portal, g.portals[id]? = some portal ∧
    c ∈ (⟨g, level, portal, g.might id, test⟩ : Outlook R).sees}

/-- What a portal sees when it is flowed before any result is known. -/
def seesEarly (g : Graph R) (level : Nat) : PortalId → Set ClusterId := g.seesBy level g.might

/-- What a portal sees when it is flowed after all others, which were flowed early. -/
def seesLate (g : Graph R) (level : Nat) : PortalId → Set ClusterId :=
  g.seesBy level (g.seesEarly level)

variable {level : Nat} {test test' : PortalId → Set ClusterId}

theorem seesBy_mono {portal : Portal R} (hp : g.portals[id]? = some portal)
    (h : ∀ (i : PortalId) (ahead : Portal R), g.portals[i]? = some ahead →
      ahead.target ≠ portal.target → test i ⊆ test' i) :
    g.seesBy level test id ⊆ g.seesBy level test' id := by
  rintro c ⟨portal', hp', hc⟩
  cases hp.symm.trans hp'
  exact ⟨portal, hp, Outlook.sees_mono (o := ⟨g, level, portal, g.might id, test⟩) subset_rfl h hc⟩

theorem seesBy_subset_might (hg : g.Sound) : g.seesBy level test id ⊆ g.might id := by
  rintro c ⟨portal, hp, last, rest, hc, rfl⟩
  exact (hc.end_mem_mask hc.first_suffix (own_target_mem_might hg hp)).1

/-- What a flow finds depends on the stage only in what the portals are judged by. -/
theorem Lawful.mem_sees_iff (h : g.Lawful P t) {portal : Portal R} (hp : g.portals[id]? = some portal)
    {c : ClusterId} : c ∈ (g.outlook level t.progress id portal).sees ↔
      c ∈ g.seesBy level t.progress.test id := by
  rw [outlook, h.bound]
  constructor
  · exact fun hc => ⟨portal, hp, hc⟩
  · rintro ⟨portal', hp', hc⟩
    cases hp.symm.trans hp'
    exact hc

/-- From any stage on, a run may claim all portals that wait. -/
theorem Run.claimAll (h : g.Run o t) : ∃ t', g.Run o t' ∧ t'.held = t.held ∧
    ∀ i, t'.progress.status? i = (t.progress.status? i).map fun s =>
      if s = .waiting then .claimed else s := by
  induction hn : t.progress.waiting using Nat.strong_induction_on generalizing t with
  | _ n ih =>
    cases hc : t.progress.claim? with
    | none =>
      refine ⟨t, h, rfl, fun i => ?_⟩
      have hi := Progress.claim?_eq_none hc i
      cases hs : t.progress.status? i with
      | none => rfl
      | some s =>
        have hw : s ≠ .waiting := fun hw => hi (by rw [hs, hw])
        rw [Option.map_some, if_neg hw]
    | some claimed =>
      obtain ⟨id, p⟩ := claimed
      have hlt : p.waiting < n := by
        have hw := Progress.waiting_claim hc
        omega
      obtain ⟨t', ht', hheld, hstatus⟩ := ih p.waiting hlt (h.claim hc) rfl
      refine ⟨t', ht', hheld, fun i => ?_⟩
      obtain ⟨hw, -⟩ := Progress.status?_claim hc
      obtain ⟨-, rfl⟩ := Progress.claim?_eq_some.mp hc
      rw [hstatus, Progress.status?_setStatus, Option.map_map]
      by_cases hi : id = i
      · subst hi
        simp [hw]
      · simp [hi, Function.comp_def]

theorem exists_claimed (hg : g.Sound) (o : Options) : ∃ t, g.Run o t ∧ t.held = [] ∧
    (∀ i : PortalId, i < g.portals.size → t.progress.status? i = some .claimed) ∧
    t.progress.test = g.might := by
  obtain ⟨sets, hs⟩ := exists_mightSets hg
  have hstart : g.Run o { progress := .ofMightSee sets false } := .start hs
  obtain ⟨t, ht, hheld, hstatus⟩ := hstart.claimAll
  have hclaimed (i : PortalId) (hi : i < g.portals.size) : t.progress.status? i = some .claimed := by
    have hi : i < sets.length := by rwa [length_mightSets hs]
    rw [hstatus, Progress.status?_ofMightSee, List.getElem?_eq_getElem hi]
    rfl
  refine ⟨t, ht, hheld, hclaimed, (ht.kept hg).test_eq_might fun i hi => ?_⟩
  obtain ⟨e, he, -⟩ := Option.map_eq_some_iff.mp hi
  have hlt := (Array.getElem?_eq_some_iff.mp he).1
  rw [(ht.kept hg).size_entries hg] at hlt
  rw [hclaimed i hlt] at hi
  cases hi

theorem Run.flowClaimed (hg : g.Sound) (h : g.Run o t) (hc : t.progress.status? id = some .claimed) :
    ∃ v, g.Run o ⟨t.progress.setStatus id .flowing, (id, v) :: t.held⟩ ∧
      ∀ c, c ∈ v ↔ c ∈ g.seesBy o.level t.progress.test id := by
  have hl := h.kept hg
  obtain ⟨portal, f, hp, hf, hprogress, hv⟩ := hl.exists_flow hg hc o {}
  have hrun := h.flow hf
  rw [hprogress] at hrun
  exact ⟨f.visible, hrun, fun c => (hv c).trans (hl.mem_sees_iff hp)⟩

/-- A result that is held may be published next, and no other portal is touched. -/
theorem Run.finishHeld (hg : g.Sound) (h : g.Run o t) {v : BitSet} {held : List (PortalId × BitSet)}
    (hheld : t.held = (id, v) :: held) : ∃ p, g.Run o ⟨p, held⟩ ∧
      (∀ i : PortalId, i ≠ id → p.entries[i]? = t.progress.entries[i]?) ∧
      p.evidence? id = some (.final v) := by
  have hmem : (id, v) ∈ t.held := hheld ▸ .head _
  have hl := h.kept hg
  have hflowing := (hl.held _ hmem).1
  obtain ⟨e, he, hs⟩ := Option.map_eq_some_iff.mp hflowing
  have hnone : e.visible = none := hl.pending he (by simp [hs])
  obtain ⟨p, n, hp⟩ := Progress.exists_publish hflowing v 0
  have hget := Progress.getElem?_publish hp
  have hrun := h.finish hmem hp
  rw [hheld, List.erase_cons_head] at hrun
  refine ⟨p, hrun, fun i hi => ?_, Progress.evidence?_eq_final.mpr ⟨e.publish v, ?_, rfl, ?_⟩⟩
  · rw [hget]
    simp [Ne.symm hi]
  · rw [hget, he, Option.map_some, if_pos rfl]
  · rw [Entry.publish, hnone, Option.none_or]

/-- From any stage on, a run may flow some of the claimed portals, all before the first of them is
published, and then publish all their results. -/
theorem Run.wave (hg : g.Sound) (ids : List PortalId) (hn : ids.Nodup) (h : g.Run o t)
    (hc : ∀ id ∈ ids, t.progress.status? id = some .claimed) :
    ∃ t', g.Run o t' ∧ t'.held = t.held ∧
      (∀ i : PortalId, i ∉ ids → t'.progress.entries[i]? = t.progress.entries[i]?) ∧
      ∀ id ∈ ids, ∃ v, t'.progress.evidence? id = some (.final v) ∧
        ∀ c, c ∈ v ↔ c ∈ g.seesBy o.level t.progress.test id := by
  induction ids generalizing t with
  | nil => exact ⟨t, h, rfl, fun _ _ => rfl, by simp⟩
  | cons id ids ih =>
    obtain ⟨hid, hn⟩ := List.nodup_cons.mp hn
    have hid' := hc id (.head _)
    have hne {j : PortalId} (hj : j ∈ ids) : j ≠ id := fun he => hid (he ▸ hj)
    obtain ⟨v, h₁, hv⟩ := h.flowClaimed hg hid'
    obtain ⟨t₂, h₂, hheld, hout, hin⟩ := ih hn h₁ fun j hj => by
      rw [Progress.status?_setStatus, hc j (.tail _ hj), Option.map_some, if_neg (hne hj).symm]
    rw [Progress.test_setStatus (by simp [hid']) (by simp)] at hin
    obtain ⟨p, h₃, hout₃, hfinal⟩ := h₂.finishHeld hg hheld
    refine ⟨_, h₃, rfl, fun i hi => ?_, List.forall_mem_cons.mpr ⟨⟨v, hfinal, hv⟩, fun j hj => ?_⟩⟩
    · rw [List.mem_cons, not_or] at hi
      rw [hout₃ i hi.1, hout i hi.2, Progress.getElem?_setStatus]
      simp [Ne.symm hi.1]
    · obtain ⟨w, hw, hmem⟩ := hin j hj
      rw [Progress.evidence?, ← hout₃ j (hne hj)] at hw
      exact ⟨w, hw, hmem⟩

/-- If no portal loses anything by being flowed late, then all runs find what is seen early. -/
theorem Run.lawful_early (hg : g.Sound)
    (hl : ∀ id, g.seesEarly o.level id ⊆ g.seesLate o.level id) (h : g.Run o t) :
    g.Lawful (fun id v => ∀ c, c ∈ v ↔ c ∈ g.seesEarly o.level id) t := by
  refine h.lawful hg fun {t id portal v} ht hp hv c => ?_
  have htest (i : PortalId) :
      g.seesEarly o.level i ⊆ t.progress.test i ∧ t.progress.test i ⊆ g.might i := by
    rcases ht.test i with ⟨w, -, hw, ht⟩ | ht
    · have hset : {c | c ∈ w} = g.seesEarly o.level i := Set.ext hw.keeps
      rw [ht, hset]
      exact ⟨subset_rfl, seesBy_subset_might hg⟩
    · rw [ht]
      exact ⟨seesBy_subset_might hg, subset_rfl⟩
  rw [hv, ht.mem_sees_iff hp]
  constructor
  · exact fun hc => seesBy_mono hp (fun i _ _ _ => (htest i).2) hc
  · exact fun hc => seesBy_mono hp (fun i _ _ _ => (htest i).1) (hl id hc)

theorem exists_early_run (hg : g.Sound) (o : Options) : ∃ t, g.Run o t ∧ t.Complete ∧
    ∀ id : PortalId, id < g.portals.size → ∃ v, t.progress.evidence? id = some (.final v) ∧
      ∀ c, c ∈ v ↔ c ∈ g.seesEarly o.level id := by
  obtain ⟨t, ht, -, hclaimed, htest⟩ := exists_claimed hg o
  obtain ⟨t', ht', -, -, hin⟩ := ht.wave hg (List.range g.portals.size) List.nodup_range
    fun id hid => hclaimed id (List.mem_range.mp hid)
  rw [htest] at hin
  refine ⟨t', ht', (ht'.kept hg).complete hg fun id hid => ?_, fun id hid => ?_⟩
  · obtain ⟨v, hv, -⟩ := hin id (List.mem_range.mpr hid)
    exact ⟨v, hv⟩
  · exact hin id (List.mem_range.mpr hid)

theorem exists_late_run (hg : g.Sound) (o : Options) (hid : id < g.portals.size) :
    ∃ t, g.Run o t ∧ t.Complete ∧ ∃ v, t.progress.evidence? id = some (.final v) ∧
      ∀ c, c ∈ v → c ∈ g.seesLate o.level id := by
  obtain ⟨t, ht, -, hclaimed, htest⟩ := exists_claimed hg o
  have hnodup : (List.range g.portals.size).Nodup := List.nodup_range
  have hmem {i : PortalId} : i ∈ (List.range g.portals.size).erase id ↔ i ≠ id ∧ i < g.portals.size := by
    rw [hnodup.mem_erase_iff, List.mem_range]
  obtain ⟨t₁, ht₁, -, hout₁, hin₁⟩ := ht.wave hg _ (hnodup.erase id) fun i hi =>
    hclaimed i (hmem.mp hi).2
  rw [htest] at hin₁
  have hstatus : t₁.progress.status? id = some .claimed := by
    rw [Progress.status?, hout₁ id fun hi => (hmem.mp hi).1 rfl]
    exact hclaimed id hid
  obtain ⟨t₂, ht₂, -, hout₂, hin₂⟩ := ht₁.wave hg _ (List.nodup_singleton id)
    (List.forall_mem_singleton.mpr hstatus)
  obtain ⟨v, hv, hsees⟩ := hin₂ id (List.mem_singleton_self id)
  refine ⟨t₂, ht₂, (ht₂.kept hg).complete hg fun i hi => ?_, v, hv, fun c hc => ?_⟩
  · by_cases hne : i = id
    · subst hne
      exact ⟨v, hv⟩
    · obtain ⟨w, hw, -⟩ := hin₁ i (hmem.mpr ⟨hne, hi⟩)
      rw [Progress.evidence?, ← hout₂ i (by simpa using hne)] at hw
      exact ⟨w, hw⟩
  · refine seesBy_mono (Array.getElem?_eq_getElem hid) (fun i ahead hi hne => ?_) ((hsees c).mp hc)
    have hne : i ≠ id := by
      rintro rfl
      rw [Array.getElem?_eq_getElem hid] at hi
      cases hi
      exact hne rfl
    obtain ⟨w, hw, hw'⟩ := hin₁ i (hmem.mpr ⟨hne, (Array.getElem?_eq_some_iff.mp hi).1⟩)
    rw [Progress.test_eq hw]
    exact fun c hc => (hw' c).mp hc

/-- If a portal loses something by being flowed late, then there are runs that disagree about it. -/
theorem exists_disagreement (hg : g.Sound) {c : ClusterId} (hc : c ∈ g.seesEarly o.level id)
    (hl : c ∉ g.seesLate o.level id) : ∃ t t', g.Run o t ∧ g.Run o t' ∧ t.Complete ∧ t'.Complete ∧
      t.progress.results ≠ t'.progress.results := by
  have hid : id < g.portals.size := by
    obtain ⟨portal, hp, -⟩ := hc
    exact (Array.getElem?_eq_some_iff.mp hp).1
  obtain ⟨t, ht, hcomplete, hearly⟩ := exists_early_run hg o
  obtain ⟨t', ht', hcomplete', w, hw, hlate⟩ := exists_late_run hg o hid
  obtain ⟨v, hv, hsees⟩ := hearly id hid
  obtain ⟨l, hr, -⟩ := (ht.kept hg).results hcomplete hg
  refine ⟨t, t', ht, ht', hcomplete, hcomplete', fun hsame => hl (hlate c ?_)⟩
  have hi := (Progress.getElem?_results hr id).mpr hv
  have hi' := (Progress.getElem?_results (hsame ▸ hr) id).mpr hw
  cases hi.symm.trans hi'
  exact (hsees c).mpr hc

/-- All runs come to the same results, and so to the same table, just in case no portal loses anything by
being flowed late. -/
theorem runs_agree_iff (hg : g.Built) (o : Options) :
    (∀ t t', g.Run o t → g.Run o t' → t.Complete → t'.Complete →
      t.progress.results = t'.progress.results ∧
        g.encodeProgress t.progress = g.encodeProgress t'.progress) ↔
      ∀ id, g.seesEarly o.level id ⊆ g.seesLate o.level id := by
  constructor
  · intro h id c hc
    by_contra hl
    obtain ⟨t, t', ht, ht', hcomplete, hcomplete', hne⟩ := exists_disagreement hg.sound hc hl
    exact hne (h t t' ht ht' hcomplete hcomplete').1
  · intro h t t' ht ht' hc hc'
    obtain ⟨l, hl, hlen, hres⟩ := (ht.lawful_early hg.sound h).results hc hg.sound
    obtain ⟨l', hl', hlen', hres'⟩ := (ht'.lawful_early hg.sound h).results hc' hg.sound
    have hsame : l = l' := by
      refine List.ext_getElem (hlen.trans hlen'.symm) fun i hi hi' => ?_
      have hr := hres i _ (List.getElem?_eq_getElem hi)
      have hr' := hres' i _ (List.getElem?_eq_getElem hi')
      exact BitSet.ext (hr.size.trans hr'.size.symm) fun c => (hr.keeps c).trans (hr'.keeps c).symm
    have hresults : t.progress.results = t'.progress.results := by rw [hl, hl', hsame]
    exact ⟨hresults, by rw [encodeProgress, encodeProgress, hresults]⟩

theorem crooked_runs_agree_iff :
    (∀ t t', crooked.Run { level := 0 } t → crooked.Run { level := 0 } t' → t.Complete → t'.Complete →
      t.progress.results = t'.progress.results ∧
        crooked.encodeProgress t.progress = crooked.encodeProgress t'.progress) ↔
      ∀ id, crooked.seesEarly 0 id ⊆ crooked.seesLate 0 id :=
  runs_agree_iff crooked_built { level := 0 }

theorem Lawful.claimed {sets : List BitSet} (hs : g.mightSets? = some sets) (id : PortalId) :
    g.Lawful P { progress := (Progress.ofMightSee sets false).setStatus id .claimed } := by
  have hwaits {s : Status} (hs : s ≠ .waiting) :
      (Progress.ofMightSee sets false).status? id ≠ some s := by
    rw [Progress.status?_ofMightSee]
    cases sets[id]? <;> simp [Ne.symm hs]
  exact (Lawful.start hs false).setStatus (hwaits (by simp)) (hwaits (by simp)) (by simp)

theorem test_claimed {sets : List BitSet} (hs : g.mightSets? = some sets) (id : PortalId) :
    ((Progress.ofMightSee sets false).setStatus id .claimed).test = g.might := by
  refine (Lawful.claimed (P := fun _ _ => True) hs id).test_eq_might fun i hi => ?_
  rw [Progress.status?_setStatus, Progress.status?_ofMightSee] at hi
  cases hset : sets[i]? with
  | none => simp [hset] at hi
  | some set => by_cases hid : id = i <;> simp [hset, hid] at hi

theorem mem_seesEarly_iff (hg : g.Sound) {sets : List BitSet} (hs : g.mightSets? = some sets)
    (hid : id < g.portals.size) {v : BitSet}
    (hrun : (g.flow o ((Progress.ofMightSee sets false).setStatus id .claimed) {} id).result.map
      (·.visible) = .ok v) {c : ClusterId} : c ∈ g.seesEarly o.level id ↔ c ∈ v := by
  have hl := Lawful.claimed (P := fun _ _ => True) hs id
  have hp : g.portals[id]? = some g.portals[id] := Array.getElem?_eq_getElem hid
  have hc : ((Progress.ofMightSee sets false).setStatus id .claimed).status? id = some .claimed := by
    rw [Progress.status?_setStatus, Progress.status?_ofMightSee,
      List.getElem?_eq_getElem (by rwa [length_mightSets hs])]
    simp
  obtain ⟨f, hf, -, -, hv⟩ := flow_spec hg (hl.fits hg) hp hc o {}
  rw [hf] at hrun
  rw [← show f.visible = v from Except.ok.inj hrun, hv, hl.mem_sees_iff hp,
    test_claimed hs]
  rfl

theorem crooked_mightSets : crooked.mightSets? = some crookedSets :=
  mightSets?_of_within 10 (by decide +kernel)

theorem crookedLater_test (i : PortalId) : crooked.seesEarly 0 i ⊆ crookedLater.test i := by
  by_cases hi : i = 2
  · subst hi
    have hsize : 2 < crooked.portals.size := by decide +kernel
    have hfinal : crookedLater.evidence? 2 =
        some (.final (.ofBools [false, false, true, true, false])) := rfl
    rw [Progress.test_eq hfinal]
    intro c hc
    exact (mem_seesEarly_iff (o := { level := 0 }) crooked_built.sound crooked_mightSets hsize
      (by decide +kernel)).mp hc
  · have hsame : crookedLater.entries[i]? = crookedStart.entries[i]? := by
      rw [crookedLater, Array.getElem?_modify, if_neg (Ne.symm hi)]
    rw [Progress.test_congr hsame, crookedStart, test_claimed crooked_mightSets]
    exact seesBy_subset_might crooked_built.sound

theorem crooked_disagree : ∃ t t', crooked.Run { level := 0 } t ∧ crooked.Run { level := 0 } t' ∧
    t.Complete ∧ t'.Complete ∧ t.progress.results ≠ t'.progress.results := by
  have hg := crooked_built.sound
  have hsize : 0 < crooked.portals.size := by decide +kernel
  have hearly : 4 ∈ crooked.seesEarly 0 0 :=
    (mem_seesEarly_iff (o := { level := 0 }) hg crooked_mightSets hsize crookedStart_visible).mpr
      (by decide)
  refine exists_disagreement (o := { level := 0 }) hg hearly fun hlate => ?_
  obtain ⟨portal, hp, hc⟩ := seesBy_mono (Array.getElem?_eq_getElem hsize)
    (fun i _ _ _ => crookedLater_test i) hlate
  obtain ⟨f, hf, -, -, hv⟩ := flow_spec hg (p := crookedLater) (by decide +kernel) hp
    (by decide +kernel) { level := 0 } {}
  have hrun := crookedLater_visible
  rw [hf] at hrun
  have hbound : crookedLater.bound 0 = crooked.might 0 := by
    have hsame : crookedLater.mightSee? 0 = crookedStart.mightSee? 0 := by
      rw [Progress.mightSee?, crookedLater, Array.getElem?_modify, if_neg (by decide)]
      rfl
    rw [Progress.bound, hsame]
    exact (Lawful.claimed (P := fun _ _ => True) crooked_mightSets 0).bound 0
  rw [show f.visible = _ from Except.ok.inj hrun, outlook, hbound] at hv
  exact absurd ((hv 4).mpr hc) (by decide)

end Graph

end Sightline
