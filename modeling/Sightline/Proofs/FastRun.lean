import Sightline.Proofs.Schedule

/-! Fast runs. No portal is flowed; what it might see is published as what it sees, in whichever order the
portals are claimed, started and finished. -/

namespace Sightline

variable {R : Type} [Scalar R]

/-- The stages of fast runs. The result of a portal is held from its start on, and is its bound. -/
inductive Graph.FastRun (g : Graph R) : Stage → Prop
  | start {sets : List BitSet} {threaded : Bool} : g.mightSets? = some sets →
      g.FastRun { progress := .ofMightSee sets threaded }
  | claim {t : Stage} {id : PortalId} {p : Progress} : g.FastRun t →
      t.progress.claim? = some (id, p) → g.FastRun { t with progress := p }
  | begin {t : Stage} {id : PortalId} {p : Progress} {set : BitSet} : g.FastRun t →
      t.progress.start id = .ok p → t.progress.mightSee? id = some set →
      g.FastRun ⟨p, (id, set) :: t.held⟩
  | finish {t : Stage} {id : PortalId} {v : BitSet} {counted : Counters} {p : Progress} {n : Nat} :
      g.FastRun t → (id, v) ∈ t.held → (t.progress.publish id v counted).result = .ok (p, n) →
      g.FastRun ⟨p, t.held.erase (id, v)⟩

namespace Progress

theorem exists_settle (p : Progress) : ∃ r, p.settle?.result = .ok r := by
  unfold settle?
  split
  · exact ⟨none, rfl⟩
  · next id claimed hc =>
    obtain ⟨-, hs⟩ := status?_claim hc
    have hflowing : (claimed.setStatus id .flowing).status? id = some .flowing := by
      rw [status?_setStatus, hs, Option.map_some, if_pos rfl]
    obtain ⟨e, he, -⟩ := Option.map_eq_some_iff.mp hflowing
    obtain ⟨q, n, hq⟩ := exists_publish hflowing e.mightSee 0
    refine ⟨some q, Report.result_bind_eq_ok.mpr ⟨_, start_eq_ok.mpr ⟨hs, rfl⟩, ?_⟩⟩
    refine Report.result_bind_eq_ok.mpr ⟨e, Report.result_ofOption_eq_ok.mpr he, ?_⟩
    exact Report.result_bind_eq_ok.mpr ⟨(q, n), hq, rfl⟩

theorem exists_settleAll (p : Progress) : ∃ q, p.settleAll.result = .ok q := by
  induction hn : p.waiting using Nat.strong_induction_on generalizing p with
  | _ n ih =>
    obtain ⟨r, hr⟩ := p.exists_settle
    rw [settleAll]
    cases r with
    | none => exact ⟨p, Report.result_bindWith_eq_ok.mpr ⟨none, hr, rfl⟩⟩
    | some next =>
      obtain ⟨q, hq⟩ := ih next.waiting (hn ▸ waiting_settle hr) next rfl
      exact ⟨q, Report.result_bindWith_eq_ok.mpr ⟨some next, hr, hq⟩⟩

theorem settle?_eq_none {p : Progress} (h : p.settle?.result = .ok none) : p.claim? = none := by
  unfold settle? at h
  split at h
  · assumption
  · obtain ⟨_, -, h⟩ := Report.result_bind_eq_ok.mp h
    obtain ⟨_, -, h⟩ := Report.result_bind_eq_ok.mp h
    obtain ⟨_, -, h⟩ := Report.result_bind_eq_ok.mp h
    cases h

end Progress

namespace Graph

variable {g : Graph R} {o : Options} {t : Stage} {id : PortalId}

def Settled (g : Graph R) (id : PortalId) (v : BitSet) : Prop :=
  (g.mightSee? id).map (·.clusters) = some v

theorem settled_result (hg : g.Sound) {portal : Portal R} (hp : g.portals[id]? = some portal) {v : BitSet}
    (h : g.Settled id v) : g.Result g.Settled id v := by
  obtain ⟨m, hm, hsize, -⟩ := mightSee?_spec hg hp
  have hv := h
  rw [Settled, hm, Option.map_some, Option.some.injEq] at hv
  subst hv
  refine ⟨hsize, fun hp' => ?_, h⟩
  obtain ⟨m', hm', hc⟩ := own_target_mem_might hg hp'
  cases hm.symm.trans hm'
  exact hc

theorem FastRun.lawful (hg : g.Sound) (h : g.FastRun t) : g.Lawful g.Settled t := by
  induction h with
  | start hs => exact .start hs _
  | claim _ hc ih => exact ih.claim hc
  | begin _ hs hm ih =>
    obtain ⟨hc, rfl⟩ := Progress.start_eq_ok.mp hs
    obtain ⟨e, he, -⟩ := Option.map_eq_some_iff.mp hc
    obtain ⟨portal, hp⟩ := ih.exists_portal hg he
    rw [ih.mightSee] at hm
    exact ih.flow hc (settled_result hg hp hm)
  | finish _ hm hp ih => exact ih.finish hm hp

/-- Settling a portal is three steps of a fast run, and leaves the portal done. -/
theorem FastRun.settle (h : g.FastRun t) {next : Progress}
    (hs : t.progress.settle?.result = .ok (some next)) :
    g.FastRun { t with progress := next } ∧ ∃ id, ∀ i,
      next.status? i = (t.progress.status? i).map fun s => if id = i then .done else s := by
  unfold Progress.settle? at hs
  split at hs
  · cases hs
  · next id claimed hc =>
    obtain ⟨started, hstart, hs⟩ := Report.result_bind_eq_ok.mp hs
    obtain ⟨e, he, hs⟩ := Report.result_bind_eq_ok.mp hs
    obtain ⟨⟨p, n⟩, hp, hs⟩ := Report.result_bind_eq_ok.mp hs
    cases hs
    obtain ⟨-, rfl⟩ := Progress.start_eq_ok.mp hstart
    have hset : claimed.mightSee? id = some e.mightSee := by
      rw [← Progress.mightSee?_setStatus claimed id id .flowing, Progress.mightSee?,
        Report.result_ofOption_eq_ok.mp he, Option.map_some]
    have hrun := ((h.claim hc).begin hstart hset).finish (.head _) hp
    rw [List.erase_cons_head] at hrun
    exact ⟨hrun, id, Progress.status?_turn hc hp⟩

/-- Settling all portals is a fast run. If nobody had begun with a portal, it is complete. -/
theorem FastRun.settleAll (h : g.FastRun t) {p : Progress} (hp : t.progress.settleAll.result = .ok p) :
    g.FastRun { t with progress := p } ∧
      (t.progress.Idle → Stage.Complete { t with progress := p }) := by
  induction hn : t.progress.waiting using Nat.strong_induction_on generalizing t p with
  | _ n ih =>
    rw [Progress.settleAll] at hp
    obtain ⟨settled, hs, hp⟩ := Report.result_bindWith_eq_ok.mp hp
    cases settled with
    | none =>
      cases hp
      exact ⟨h, fun hi => hi.complete (Progress.settle?_eq_none hs)⟩
    | some next =>
      obtain ⟨hrun, id, hstatus⟩ := h.settle hs
      have hlt : next.waiting < n := by
        have hw := Progress.waiting_settle hs
        omega
      obtain ⟨hrun', hcomplete⟩ := ih next.waiting hlt hrun hp rfl
      exact ⟨hrun', fun hi => hcomplete (hi.next hstatus)⟩

def Within (g : Graph R) (id : PortalId) (v : BitSet) : Prop := ∀ c ∈ v, c ∈ g.might id

theorem Settled.within {v : BitSet} (h : g.Settled id v) : g.Within id v := by
  obtain ⟨m, hm, rfl⟩ := Option.map_eq_some_iff.mp h
  exact fun c hc => ⟨m, hm, hc⟩

theorem Run.within (hg : g.Sound) (h : g.Run o t) : g.Lawful g.Within t :=
  h.lawful hg fun ht hp hv c hc => ht.sees_subset_might hg hp o.level ((hv c).mp hc)

/-- Where runs end that are carried out as the options ask. -/
def Ends (g : Graph R) (o : Options) (t : Stage) : Prop :=
  (if o.fast then g.FastRun t else g.Run o t) ∧ t.Complete

/-- Results stay within what portals might see, and fast runs find all of it. -/
theorem Ends.lawful (hg : g.Sound) (h : g.Ends o t) :
    g.Lawful (fun id v => g.Within id v ∧ (o.fast → g.Settled id v)) t := by
  obtain ⟨hrun, -⟩ := h
  split at hrun
  · exact (hrun.lawful hg).mono fun hs => ⟨hs.within, fun _ => hs⟩
  · next hfast => exact (hrun.within hg).mono fun hw => ⟨hw, fun hf => absurd hf hfast⟩

end Graph

end Sightline
