import Sightline.Proofs.Completion
import Sightline.Proofs.Twins

/-! Passages are a cache. Flows, and surveys as a whole, come to the same results and count the same,
whatever passages a graph has and whether they are used. -/

namespace Sightline

variable {R : Type} [Scalar R]

/-- What is to be seen of a flow: its result, where the run stands, and what was counted. -/
def Flow.report (f : Flow R) : BitSet × Progress × Counters := (f.visible, f.progress, f.worker.counters)

omit [Scalar R] in
theorem result_announceTurn (n : Nat) (t : Turn R) (p : Progress) :
    (announceTurn n t p).result = (Report.ofOption p.entries[t.portal]?).result.map fun _ => () := by
  unfold announceTurn
  rw [Report.result_bind]
  cases (Report.ofOption p.entries[t.portal]?).result <;> rfl

namespace Graph

variable {g g' : Graph R} {o : Options} {passages : Bool} {p : Progress} {worker worker' : Worker R}

theorem flow_twin (hg : g.Sound) (hg' : g'.Sound) (ha : g.Alike g')
    (hw : worker.counters = worker'.counters) (id : PortalId) :
    Paired (fun f f' => f.report = f'.report) (g.flow o p worker id).result
      (g'.flow (o.withPassages passages) p worker' id).result := by
  unfold flow
  simp only [Report.result_bind, ha.portals]
  refine (Paired.refl _).bind ?_
  rintro q _ - rfl
  refine (Paired.refl _).bind ?_
  rintro portal _ hp rfl
  refine (Paired.refl _).bind ?_
  rintro entry _ - rfl
  have hbase := Report.result_ofOption_eq_ok.mp hp
  have hs : Setting.Twin ⟨g, q, o.level, o.passages, id, portal⟩ g' := ⟨ha, hg, hg', hbase⟩
  by_cases h : portal.target < g.clusters.size ∧ entry.mightSee.size = g.clusters.size
  · have h' : portal.target < g'.clusters.size ∧ entry.mightSee.size = g'.clusters.size := by
      rwa [ha.size]
    rw [dif_pos h, dif_pos h']
    simp only [Report.result_bind, Report.result_lift]
    refine ((Search.Twin.start hs entry.mightSee worker.pool worker'.pool).run hs _ _).bind ?_
    intro y y' _ hy
    refine .ok ?_
    simp only [Flow.report, hy.visible, hy.tally, hw]
  · have h' : ¬(portal.target < g'.clusters.size ∧ entry.mightSee.size = g'.clusters.size) := by
      rwa [ha.size]
    rw [dif_neg h, dif_neg h']
    exact .error _

def turnReport (r : Option (Turn R × Progress)) : Option (PortalId × BitSet × Nat × Progress) :=
  r.map fun (t, p) => (t.portal, t.visible, t.done, p)

theorem turn_twin (hg : g.Sound) (hg' : g'.Sound) (ha : g.Alike g')
    (hw : worker.counters = worker'.counters) :
    Paired (fun r r' => turnReport r = turnReport r') (g.turn? o p worker).result
      (g'.turn? (o.withPassages passages) p worker').result := by
  unfold turn?
  split
  · exact .ok rfl
  · next id claimed hc =>
    simp only [Report.result_bind]
    refine (flow_twin hg hg' ha hw id).bind ?_
    rintro f f' - hf
    simp only [Flow.report, Prod.mk.injEq] at hf
    obtain ⟨hvisible, hprogress, hcounters⟩ := hf
    rw [hvisible, hprogress, hcounters]
    refine (Paired.refl _).bind ?_
    rintro q _ - rfl
    exact .ok rfl

theorem drain_twin (hg : g.Sound) (hg' : g'.Sound) (ha : g.Alike g') (n : Nat)
    (hw : worker.counters = worker'.counters) :
    Paired (fun d d' => d.progress = d'.progress) (g.drain o (announceTurn n) p worker).result
      (g'.drain (o.withPassages passages) (announceTurn n) p worker').result := by
  induction hn : p.waiting using Nat.strong_induction_on generalizing p worker worker' with
  | _ k ih =>
    rw [Graph.drain, Graph.drain]
    refine (turn_twin hg hg' ha hw).bindWith fun turn turn' ht _ hturn => ?_
    cases turn with
    | none =>
      cases turn' with
      | none => exact .ok rfl
      | some _ => cases hturn
    | some turn =>
      cases turn' with
      | none => cases hturn
      | some turn' =>
        obtain ⟨t, next⟩ := turn
        obtain ⟨t', next'⟩ := turn'
        simp only [turnReport, Option.map_some, Option.some.injEq, Prod.mk.injEq] at hturn
        obtain ⟨hportal, -, -, rfl⟩ := hturn
        -- from here on both go by the same progress; the workers differ in their pools alone
        simp only [Report.result_bind, result_announceTurn, hportal]
        refine (Paired.refl _).bind ?_
        rintro _ _ - -
        have hlt : next.waiting < k := hn ▸ waiting_turn ht
        exact Paired.bind (ih next.waiting hlt rfl rfl) fun _ _ _ hd => .ok hd

theorem flowAll_twin (hg : g.Sound) (hg' : g'.Sound) (ha : g.Alike g') (passages : Bool) :
    Paired Eq (g.flowAll o p).result (g'.flowAll (o.withPassages passages) p).result := by
  unfold flowAll
  by_cases hfast : o.fast
  · rw [if_pos hfast, if_pos (show (o.withPassages passages).fast from hfast)]
    exact .refl _
  · rw [if_neg hfast, if_neg (show ¬(o.withPassages passages).fast from hfast), Report.result_bind,
      Report.result_bind]
    exact Paired.bind (drain_twin hg hg' ha 0 rfl) fun _ _ _ hd => .ok hd

theorem survey_twin (hg : g.Sound) (hg' : g'.Sound) (ha : g.Alike g') (passages : Bool) {found : Survey}
    {g₁ : Graph R} (h : (g.survey o).result = .ok (found, g₁)) :
    ∃ g₂, (g'.survey (o.withPassages passages)).result = .ok (found, g₂) := by
  obtain ⟨q, might, p, hq, hm, hp, hdone, hsets, htotal⟩ := survey_eq_ok.mp h
  obtain ⟨q', hq'⟩ := hg'.exists_prepared (o.withPassages passages) (.ofThreads o.threads)
  have haq : q.Alike q' := ((Alike.prepared hq).symm.trans ha).trans (.prepared hq')
  have hmight : q'.mightSee? = q.mightSee? := funext haq.mightSee?
  obtain ⟨_, hp', rfl⟩ :=
    (flowAll_twin (hg.prepared hq) (hg'.prepared hq') haq passages).exists_ok hp
  obtain ⟨hv, hencode⟩ := encodeProgress_eq_ok.mp hdone
  have htable := haq.encode found.visible
  rw [hencode] at htable
  cases hencode' : (q'.encode found.visible).result with
  | error e =>
    rw [hencode'] at htable
    cases htable
  | ok encoded =>
    obtain ⟨table, g₂⟩ := encoded
    rw [hencode'] at htable
    have hsame : table = found.table := Except.ok.inj htable
    subst hsame
    refine ⟨g₂, survey_eq_ok.mpr ⟨q', might, p, hq', ?_, hp', ?_, hsets, htotal⟩⟩
    · rw [hmight, haq.portals]
      exact hm
    · exact encodeProgress_eq_ok.mpr ⟨hv, hencode'⟩

/-- Passages make no difference. A flow comes to the same result and counters over any graph with the same
portals, and whether it uses passages or not. A survey finds the same, and finds it again on the graph that
it leaves behind. -/
theorem passages_make_no_difference (hg : g.Built) (o : Options) :
    (∀ g' passages p (worker worker' : Worker R) id, g'.Built → g.Alike g' →
      worker.counters = worker'.counters →
      (g.flow o p worker id).result.map Flow.report =
        (g'.flow (o.withPassages passages) p worker' id).result.map Flow.report) ∧
    ∃ found g₁, (g.survey o).result = .ok (found, g₁) ∧
      (∃ g₂, (g₁.survey o).result = .ok (found, g₂)) ∧
      ∀ g' passages, g'.Built → g.Alike g' →
        ∃ g₂, (g'.survey (o.withPassages passages)).result = .ok (found, g₂) := by
  refine ⟨fun g' passages p worker worker' id hg' ha hw => ?_, ?_⟩
  · exact (flow_twin hg.sound hg'.sound ha hw id).map_eq fun _ _ h => h
  · obtain ⟨_, _, _, _, _, g₁, -, -, -, -, h⟩ := survey_spec hg.sound o
    refine ⟨_, g₁, h, ?_, fun g' passages hg' ha => survey_twin hg.sound hg'.sound ha passages h⟩
    exact survey_twin hg.sound (hg.sound.survey h) (.survey h) o.passages h

/-- The crooked way before and after its passages are built, surveyed with and without them. -/
theorem crooked_passages : ∃ g' count found g₁ g₂ g₃,
    (crooked.buildPassages (.ofThreads 1)).result = .ok (g', count) ∧
    (crooked.flow {} crookedStart {} 0).result.map Flow.report =
      (g'.flow { passages := false } crookedStart {} 0).result.map Flow.report ∧
    (crooked.survey {}).result = .ok (found, g₁) ∧ (g₁.survey {}).result = .ok (found, g₂) ∧
    (g'.survey { passages := false }).result = .ok (found, g₃) := by
  obtain ⟨g', hb, -⟩ := crooked_built.sound.exists_buildPassages (.ofThreads 1)
  obtain ⟨hflow, found, g₁, h, ⟨g₂, hagain⟩, hother⟩ := passages_make_no_difference crooked_built {}
  obtain ⟨g₃, hwithout⟩ := hother g' false (crooked_built.buildPassages hb) (.buildPassages hb)
  exact ⟨g', _, found, g₁, g₂, g₃, hb,
    hflow g' false crookedStart {} {} 0 (crooked_built.buildPassages hb) (.buildPassages hb) rfl,
    h, hagain, hwithout⟩

end Graph

end Sightline
