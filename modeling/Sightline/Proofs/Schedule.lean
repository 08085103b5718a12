import Mathlib.Data.List.Nodup
import Sightline.Proofs.Exact
import Sightline.Proofs.Flood
import Sightline.Survey

/-! Runs of any schedule. Each portal is claimed, flowed and published, in this order; what happens to
different portals may be interleaved in any way. A flow is one step here, and goes by what is known when it
starts. -/

namespace Sightline

variable {R : Type}

/-- Where a run stands: its progress, and the results that were found and not published yet. -/
structure Stage where
  progress : Progress
  held : List (PortalId × BitSet) := []

def Stage.Complete (t : Stage) : Prop := ∀ e ∈ t.progress.entries, e.status = .done

def Progress.Idle (p : Progress) : Prop := ∀ i s, p.status? i = some s → s = .waiting ∨ s = .done

theorem Progress.idle_ofMightSee (sets : List BitSet) (threaded : Bool) :
    (ofMightSee sets threaded).Idle := by
  intro i s hs
  rw [status?_ofMightSee] at hs
  obtain ⟨_, -, rfl⟩ := Option.map_eq_some_iff.mp hs
  exact .inl rfl

theorem Progress.Idle.next {p q : Progress} (h : p.Idle) {id : PortalId}
    (hq : ∀ i, q.status? i = (p.status? i).map fun s => if id = i then .done else s) : q.Idle := by
  intro i s hs
  rw [hq] at hs
  obtain ⟨s', hs', rfl⟩ := Option.map_eq_some_iff.mp hs
  split
  · exact .inr rfl
  · exact h i s' hs'

theorem Progress.Idle.complete {t : Stage} (h : t.progress.Idle) (hc : t.progress.claim? = none) :
    t.Complete := by
  intro e he
  obtain ⟨i, hi⟩ := Array.mem_iff_getElem?.mp he
  have hs : t.progress.status? i = some e.status := by rw [status?, hi, Option.map_some]
  refine (h i _ hs).resolve_left fun hw => ?_
  exact claim?_eq_none hc i (by rw [hs, hw])

variable [Scalar R]

/-- The stages that runs get to. A portal flows when it is claimed, which it is once, and what is published
is what its flow found. -/
inductive Graph.Run (g : Graph R) (o : Options) : Stage → Prop
  | start {sets : List BitSet} {threaded : Bool} : g.mightSets? = some sets →
      g.Run o { progress := .ofMightSee sets threaded }
  | claim {t : Stage} {id : PortalId} {p : Progress} : g.Run o t →
      t.progress.claim? = some (id, p) → g.Run o { t with progress := p }
  | flow {t : Stage} {id : PortalId} {worker : Worker R} {f : Flow R} : g.Run o t →
      (g.flow o t.progress worker id).result = .ok f →
      g.Run o ⟨f.progress, (id, f.visible) :: t.held⟩
  | finish {t : Stage} {id : PortalId} {v : BitSet} {counted : Counters} {p : Progress} {n : Nat} :
      g.Run o t → (id, v) ∈ t.held → (t.progress.publish id v counted).result = .ok (p, n) →
      g.Run o ⟨p, t.held.erase (id, v)⟩

namespace Graph

variable {g : Graph R} {o : Options} {t : Stage} {P : PortalId → BitSet → Prop} {id i : PortalId}

def might (g : Graph R) (id : PortalId) : Set ClusterId := {c | ∃ m, g.mightSee? id = some m ∧ c ∈ m.clusters}

/-- A result of a run: a set for all clusters, with the portal's own target. -/
structure Result (g : Graph R) (P : PortalId → BitSet → Prop) (id : PortalId) (v : BitSet) : Prop where
  size : v.size = g.clusters.size
  own : ∀ {portal : Portal R}, g.portals[id]? = some portal → portal.target ∈ v
  keeps : P id v

/-- What all stages of all runs have in common, if `P` holds of all results. -/
structure Lawful (g : Graph R) (P : PortalId → BitSet → Prop) (t : Stage) : Prop where
  mightSee : ∀ id, t.progress.mightSee? id = (g.mightSee? id).map (·.clusters)
  done : ∀ {id : PortalId} {e : Entry}, t.progress.entries[id]? = some e → e.status = .done →
    ∃ v, e.visible = some v ∧ g.Result P id v
  pending : ∀ {id : PortalId} {e : Entry}, t.progress.entries[id]? = some e → e.status ≠ .done →
    e.visible = none
  held : ∀ x ∈ t.held, t.progress.status? x.1 = some .flowing ∧ g.Result P x.1 x.2
  nodup : (t.held.map Prod.fst).Nodup

theorem Lawful.mono {Q : PortalId → BitSet → Prop} (h : g.Lawful P t)
    (hpq : ∀ {id : PortalId} {v : BitSet}, P id v → Q id v) : g.Lawful Q t := by
  have hresult {id : PortalId} {v : BitSet} (hr : g.Result P id v) : g.Result Q id v :=
    ⟨hr.size, hr.own, hpq hr.keeps⟩
  refine ⟨h.mightSee, fun he hs => ?_, h.pending, fun x hx => ?_, h.nodup⟩
  · obtain ⟨v, hv, hr⟩ := h.done he hs
    exact ⟨v, hv, hresult hr⟩
  · obtain ⟨hs, hr⟩ := h.held x hx
    exact ⟨hs, hresult hr⟩

theorem Lawful.size_entries (h : g.Lawful P t) (hg : g.Sound) :
    t.progress.entries.size = g.portals.size := by
  have hiff (i : PortalId) : t.progress.entries.size ≤ i ↔ g.portals.size ≤ i := by
    have hm := h.mightSee i
    rw [← Array.getElem?_eq_none_iff, ← Array.getElem?_eq_none_iff, ← Option.map_eq_none_iff
      (f := Entry.mightSee), ← Progress.mightSee?, hm, Option.map_eq_none_iff]
    constructor
    · intro hn
      cases hp : g.portals[i]? with
      | none => rfl
      | some portal =>
        obtain ⟨m, hm, -⟩ := mightSee?_spec hg hp
        cases hn.symm.trans hm
    · intro hp
      rw [mightSee?, hp]
      rfl
  exact Nat.le_antisymm ((hiff _).mpr (Nat.le_refl _)) ((hiff _).mp (Nat.le_refl _))

theorem Lawful.exists_portal (h : g.Lawful P t) (hg : g.Sound) {e : Entry}
    (he : t.progress.entries[id]? = some e) : ∃ portal, g.portals[id]? = some portal := by
  have hlt := (Array.getElem?_eq_some_iff.mp he).1
  rw [h.size_entries hg] at hlt
  exact ⟨_, Array.getElem?_eq_getElem hlt⟩

theorem Lawful.final {v : BitSet} (h : g.Lawful P t)
    (he : t.progress.evidence? id = some (.final v)) : g.Result P id v := by
  obtain ⟨e, he, hs, hv⟩ := Progress.evidence?_eq_final.mp he
  obtain ⟨v', hv', hr⟩ := h.done he hs
  cases hv.symm.trans hv'
  exact hr

/-- A portal is judged by a result or by what it might see. -/
theorem Lawful.test (h : g.Lawful P t) (id : PortalId) :
    (∃ v, t.progress.evidence? id = some (.final v) ∧ g.Result P id v ∧
      t.progress.test id = {c | c ∈ v}) ∨ t.progress.test id = g.might id := by
  cases he : t.progress.evidence? id with
  | none =>
    right
    have hm : t.progress.mightSee? id = none := by
      rw [Progress.evidence?, Option.map_eq_none_iff] at he
      rw [Progress.mightSee?, he, Option.map_none]
    rw [h.mightSee, Option.map_eq_none_iff] at hm
    ext c
    simp [Progress.test, might, he, hm]
  | some e =>
    have ht := Progress.test_eq he
    cases e with
    | final v => exact .inl ⟨v, rfl, h.final he, ht⟩
    | might v =>
      right
      have hv := Progress.evidence?_eq_might he
      rw [h.mightSee] at hv
      obtain ⟨m, hm, rfl⟩ := Option.map_eq_some_iff.mp hv
      rw [ht]
      ext c
      simp [might, hm, Evidence.set]

/-- As long as no portal is done, all are judged by what they might see. -/
theorem Lawful.test_eq_might (h : g.Lawful P t) (hn : ∀ i, t.progress.status? i ≠ some .done) :
    t.progress.test = g.might := by
  funext i
  rcases h.test i with ⟨v, hv, -⟩ | ht
  · obtain ⟨e, he, hs, -⟩ := Progress.evidence?_eq_final.mp hv
    exact absurd (by rw [Progress.status?, he, Option.map_some, hs]) (hn i)
  · exact ht

theorem Lawful.bound (h : g.Lawful P t) (id : PortalId) : t.progress.bound id = g.might id := by
  ext c
  simp [Progress.bound, h.mightSee, might]

theorem own_target_mem_might (hg : g.Sound) {portal : Portal R} (hp : g.portals[id]? = some portal) :
    portal.target ∈ g.might id := by
  obtain ⟨m, hm, -, -, hc⟩ := mightSee?_spec hg hp
  exact ⟨m, hm, (hc _).mpr (.seed (.head _) (BitSet.not_mem_empty _ _))⟩

theorem Lawful.fits (h : g.Lawful P t) (hg : g.Sound) : t.progress.Fits g := by
  refine ⟨fun id set hs => ?_, fun id portal hp => ?_⟩
  · rw [h.mightSee] at hs
    obtain ⟨m, hm, rfl⟩ := Option.map_eq_some_iff.mp hs
    obtain ⟨portal, hp, -⟩ := Option.bind_eq_some_iff.mp hm
    obtain ⟨m', hm', hsize, -⟩ := mightSee?_spec hg hp
    cases hm.symm.trans hm'
    exact hsize
  · rcases h.test id with ⟨v, -, hv, ht⟩ | ht
    · rw [ht]
      exact hv.own hp
    · rw [ht]
      exact own_target_mem_might hg hp

theorem Lawful.exists_flow (h : g.Lawful P t) (hg : g.Sound) (hc : t.progress.status? id = some .claimed)
    (o : Options) (worker : Worker R) :
    ∃ portal f, g.portals[id]? = some portal ∧ (g.flow o t.progress worker id).result = .ok f ∧
      f.progress = t.progress.setStatus id .flowing ∧
      ∀ c, c ∈ f.visible ↔ c ∈ (g.outlook o.level t.progress id portal).sees := by
  obtain ⟨e, he, -⟩ := Option.map_eq_some_iff.mp hc
  obtain ⟨portal, hp⟩ := h.exists_portal hg he
  obtain ⟨f, hf, -, hprogress, hv⟩ := flow_spec hg (h.fits hg) hp hc o worker
  exact ⟨portal, f, hp, hf, hprogress, hv⟩

theorem Lawful.start {sets : List BitSet} (h : g.mightSets? = some sets) (threaded : Bool) :
    g.Lawful P { progress := .ofMightSee sets threaded } := by
  have hget := Progress.getElem?_ofMightSee sets threaded
  have hentry {i : PortalId} {e : Entry}
      (he : (Progress.ofMightSee sets threaded).entries[i]? = some e) :
      e.status = .waiting ∧ e.visible = none := by
    rw [hget] at he
    obtain ⟨set, -, rfl⟩ := Option.map_eq_some_iff.mp he
    exact ⟨rfl, rfl⟩
  refine ⟨fun i => ?_, fun he hs => ?_, fun he _ => (hentry he).2, by simp, .nil⟩
  · rw [Progress.mightSee?, hget, ← getElem?_mightSets h, Option.map_map]
    cases sets[i]? <;> rfl
  · rw [(hentry he).1] at hs
    cases hs

theorem Lawful.setStatus (h : g.Lawful P t) (hd : t.progress.status? id ≠ some .done)
    (hf : t.progress.status? id ≠ some .flowing) {s : Status} (hs : s ≠ .done) :
    g.Lawful P { t with progress := t.progress.setStatus id s } := by
  have hentry {i : PortalId} {e : Entry} (he : (t.progress.setStatus id s).entries[i]? = some e) :
      ∃ e', t.progress.entries[i]? = some e' ∧ e.visible = e'.visible ∧
        (e.status = .done ↔ e'.status = .done) := by
    rw [Progress.getElem?_setStatus] at he
    obtain ⟨e', he', rfl⟩ := Option.map_eq_some_iff.mp he
    refine ⟨e', he', ?_⟩
    by_cases hi : id = i
    · subst hi
      have hd' : e'.status ≠ .done := by simpa [Progress.status?, he'] using hd
      simp [hs, hd']
    · simp [hi]
  refine ⟨fun i => ?_, fun he hdone => ?_, fun he hdone => ?_, fun x hx => ?_, h.nodup⟩
  · exact (Progress.mightSee?_setStatus _ _ _ _).trans (h.mightSee i)
  · obtain ⟨e', he', hv, hiff⟩ := hentry he
    rw [hv]
    exact h.done he' (hiff.mp hdone)
  · obtain ⟨e', he', hv, hiff⟩ := hentry he
    rw [hv]
    exact h.pending he' (mt hiff.mpr hdone)
  · obtain ⟨hx', hr⟩ := h.held x hx
    refine ⟨?_, hr⟩
    have hne : id ≠ x.1 := fun he => hf (he ▸ hx')
    rw [Progress.status?_setStatus, hx', Option.map_some, if_neg hne]

/-- The result of a flowing portal may be held, if none is yet. -/
theorem Lawful.hold (h : g.Lawful P t) (hf : t.progress.status? id = some .flowing)
    (hn : id ∉ t.held.map Prod.fst) {v : BitSet} (hr : g.Result P id v) :
    g.Lawful P { t with held := (id, v) :: t.held } :=
  ⟨h.mightSee, h.done, h.pending, List.forall_mem_cons.mpr ⟨⟨hf, hr⟩, h.held⟩,
    List.nodup_cons.mpr ⟨hn, h.nodup⟩⟩

theorem Lawful.not_mem_held (h : g.Lawful P t) (hs : t.progress.status? id ≠ some .flowing) :
    id ∉ t.held.map Prod.fst := by
  intro hm
  obtain ⟨x, hx, rfl⟩ := List.mem_map.mp hm
  exact hs (h.held x hx).1

theorem Lawful.flow (h : g.Lawful P t) (hc : t.progress.status? id = some .claimed) {v : BitSet}
    (hr : g.Result P id v) :
    g.Lawful P ⟨t.progress.setStatus id .flowing, (id, v) :: t.held⟩ := by
  have hstart : g.Lawful P { t with progress := t.progress.setStatus id .flowing } :=
    h.setStatus (by simp [hc]) (by simp [hc]) (by simp)
  refine hstart.hold ?_ (h.not_mem_held (by simp [hc])) hr
  rw [Progress.status?_setStatus, hc, Option.map_some, if_pos rfl]

theorem Lawful.finish (h : g.Lawful P t) {v : BitSet} {counted : Counters} {p : Progress} {n : Nat}
    (hm : (id, v) ∈ t.held) (hp : (t.progress.publish id v counted).result = .ok (p, n)) :
    g.Lawful P ⟨p, t.held.erase (id, v)⟩ := by
  obtain ⟨hflow, hr⟩ := h.held _ hm
  obtain ⟨e₀, he₀, hs₀⟩ := Option.map_eq_some_iff.mp hflow
  have hnone : e₀.visible = none := h.pending he₀ (by simp [hs₀])
  have hget := Progress.getElem?_publish hp
  have hentry {i : PortalId} {e : Entry} (he : p.entries[i]? = some e) :
      (i = id ∧ e.status = .done ∧ e.visible = some v) ∨
        i ≠ id ∧ t.progress.entries[i]? = some e := by
    rw [hget] at he
    obtain ⟨e', he', rfl⟩ := Option.map_eq_some_iff.mp he
    by_cases hi : id = i
    · subst hi
      cases he₀.symm.trans he'
      simp [Entry.publish, hnone]
    · simp [hi, Ne.symm hi, he']
  refine ⟨fun i => ?_, fun {i e} he hs => ?_, fun {i e} he hs => ?_, fun x hx => ?_, ?_⟩
  · exact (Progress.mightSee?_publish hp i).trans (h.mightSee i)
  · rcases hentry he with ⟨rfl, -, hv⟩ | ⟨-, he⟩
    · exact ⟨v, hv, hr⟩
    · exact h.done he hs
  · rcases hentry he with ⟨rfl, hdone, -⟩ | ⟨-, he⟩
    · exact absurd hdone hs
    · exact h.pending he hs
  · obtain ⟨hx', hrx⟩ := h.held x (List.mem_of_mem_erase hx)
    refine ⟨?_, hrx⟩
    have hne : id ≠ x.1 := by
      intro he
      have hsame := List.inj_on_of_nodup_map h.nodup (List.mem_of_mem_erase hx) hm he.symm
      subst hsame
      exact (List.Nodup.of_map _ h.nodup).not_mem_erase hx
    rw [Progress.status?, hget, Option.map_map]
    obtain ⟨e, he, hs⟩ := Option.map_eq_some_iff.mp hx'
    simp [he, hne, hs]
  · exact h.nodup.sublist (List.erase_sublist.map _)

theorem flow_eq_ok {p : Progress} {worker : Worker R} {f : Flow R}
    (h : (g.flow o p worker id).result = .ok f) : p.status? id = some .claimed ∧
      f.progress = p.setStatus id .flowing ∧ ∃ portal, g.portals[id]? = some portal := by
  obtain ⟨portal, _, _, _, hp, hc, -, -, rfl⟩ := exists_run_of_flow h
  exact ⟨hc, rfl, portal, hp⟩

theorem Lawful.claim (h : g.Lawful P t) {p : Progress} (hc : t.progress.claim? = some (id, p)) :
    g.Lawful P { t with progress := p } := by
  obtain ⟨hw, -⟩ := Progress.status?_claim hc
  obtain ⟨-, rfl⟩ := Progress.claim?_eq_some.mp hc
  exact h.setStatus (by simp [hw]) (by simp [hw]) (by simp)

/-- If `P` holds of what a flow finds, provided it held of all results the flow could go by, then it holds
of the results of all runs. -/
theorem Run.lawful (hg : g.Sound)
    (hP : ∀ {t : Stage} {id : PortalId} {portal : Portal R} {v : BitSet}, g.Lawful P t →
      g.portals[id]? = some portal →
      (∀ c, c ∈ v ↔ c ∈ (g.outlook o.level t.progress id portal).sees) → P id v)
    (h : g.Run o t) : g.Lawful P t := by
  induction h with
  | start hs => exact .start hs _
  | claim _ hc ih => exact ih.claim hc
  | @flow t id worker f _ hf ih =>
    obtain ⟨hc, hprogress, portal, hp⟩ := flow_eq_ok hf
    obtain ⟨f', hf', hsize, -, hv⟩ := flow_spec hg (ih.fits hg) hp hc o worker
    cases hf.symm.trans hf'
    rw [hprogress]
    refine ih.flow hc ⟨hsize, fun hp' => ?_, hP ih hp hv⟩
    cases hp.symm.trans hp'
    exact (hv _).mpr ⟨_, [], .first, rfl⟩
  | finish _ hm hp ih => exact ih.finish hm hp

theorem Lawful.sees_subset_might (h : g.Lawful P t) (hg : g.Sound) {portal : Portal R}
    (hp : g.portals[id]? = some portal) (level : Nat) :
    (g.outlook level t.progress id portal).sees ⊆ g.might id := by
  have hbound : (g.outlook level t.progress id portal).bound = g.might id := h.bound id
  rw [← hbound]
  refine Outlook.sees_subset_bound ?_
  rw [hbound]
  exact own_target_mem_might hg hp

theorem Run.kept (hg : g.Sound) (h : g.Run o t) : g.Lawful (fun _ _ => True) t :=
  h.lawful hg fun _ _ _ => trivial

theorem Lawful.results (h : g.Lawful P t) (hc : t.Complete) (hg : g.Sound) :
    ∃ l, t.progress.results = .ok l ∧ l.length = g.portals.size ∧
      ∀ (id : PortalId) v, l[id]? = some v → g.Result P id v := by
  have hdone {i : PortalId} {e : Entry} (he : t.progress.entries[i]? = some e) :
      ∃ v, e.result? = some v ∧ g.Result P i v := by
    have hs := hc e (Array.mem_of_getElem? he)
    obtain ⟨v, hv, hr⟩ := h.done he hs
    exact ⟨v, by rw [Entry.result?, if_pos hs, hv], hr⟩
  obtain ⟨l, hl⟩ := exists_mapM (f := Entry.result?) (l := t.progress.entries.toList) fun e he => by
    obtain ⟨i, hi⟩ := Array.mem_iff_getElem?.mp (Array.mem_toList_iff.mp he)
    obtain ⟨v, hv, -⟩ := hdone hi
    exact ⟨v, hv⟩
  have hget (i : PortalId) : (t.progress.entries[i]?).map Entry.result? = (l[i]?).map some := by
    have hi := congrArg (·[i]?) (mapM_eq_some.mp hl)
    rwa [List.getElem?_map, List.getElem?_map, Array.getElem?_toList] at hi
  refine ⟨l, Progress.results_eq_ok.mpr hget, ?_, fun id v hv => ?_⟩
  · have hlen := congrArg List.length (mapM_eq_some.mp hl)
    rw [List.length_map, List.length_map, Array.length_toList] at hlen
    rw [← hlen, h.size_entries hg]
  · have hi := hget id
    rw [hv, Option.map_some] at hi
    obtain ⟨e, he, hr⟩ := Option.map_eq_some_iff.mp hi
    obtain ⟨v', hv', hresult⟩ := hdone he
    cases hr.symm.trans hv'
    exact hresult

theorem Lawful.complete (h : g.Lawful P t) (hg : g.Sound)
    (hr : ∀ id : PortalId, id < g.portals.size → ∃ v, t.progress.evidence? id = some (.final v)) :
    t.Complete := by
  intro e he
  obtain ⟨i, hi⟩ := Array.mem_iff_getElem?.mp he
  have hlt := (Array.getElem?_eq_some_iff.mp hi).1
  rw [h.size_entries hg] at hlt
  obtain ⟨v, hv⟩ := hr i hlt
  obtain ⟨e', he', hs, -⟩ := Progress.evidence?_eq_final.mp hv
  cases hi.symm.trans he'
  exact hs

theorem turn?_eq_some {p next : Progress} {worker : Worker R} {turn : Turn R}
    (h : (g.turn? o p worker).result = .ok (some (turn, next))) : ∃ claimed f n,
    p.claim? = some (turn.portal, claimed) ∧ (g.flow o claimed worker turn.portal).result = .ok f ∧
      (f.progress.publish turn.portal f.visible f.worker.counters).result = .ok (next, n) ∧
      turn = ⟨turn.portal, f.visible, f.worker, n⟩ := by
  unfold turn? at h
  split at h
  · cases h
  · next id claimed hc =>
    obtain ⟨f, hf, h⟩ := Report.result_bind_eq_ok.mp h
    obtain ⟨⟨q, n⟩, hq, h⟩ := Report.result_bind_eq_ok.mp h
    cases h
    exact ⟨claimed, f, n, hc, hf, hq, rfl⟩

theorem turn?_eq_none {p : Progress} {worker : Worker R}
    (h : (g.turn? o p worker).result = .ok none) : p.claim? = none := by
  unfold turn? at h
  split at h
  · assumption
  · obtain ⟨f, -, h⟩ := Report.result_bind_eq_ok.mp h
    obtain ⟨q, -, h⟩ := Report.result_bind_eq_ok.mp h
    cases h

/-- A worker stops when no portal waits, or takes a turn and goes on from there. -/
theorem drain_eq_ok {announce : Turn R → Progress → Report Unit} {p : Progress} {worker : Worker R}
    {d : Drained R} (h : (g.drain o announce p worker).result = .ok d) :
    (g.turn? o p worker).result = .ok none ∧ d = ⟨[], p, worker⟩ ∨
      ∃ turn next rest, (g.turn? o p worker).result = .ok (some (turn, next)) ∧
        (g.drain o announce next turn.rested).result = .ok rest ∧
        d = { rest with turns := turn :: rest.turns } := by
  rw [Graph.drain] at h
  obtain ⟨turn, ht, h⟩ := Report.result_bindWith_eq_ok.mp h
  cases turn with
  | none =>
    cases h
    exact .inl ⟨ht, rfl⟩
  | some turn =>
    obtain ⟨turn, next⟩ := turn
    obtain ⟨-, -, h⟩ := Report.result_bind_eq_ok.mp h
    obtain ⟨rest, hrest, h⟩ := Report.result_bind_eq_ok.mp h
    cases h
    exact .inr ⟨turn, next, rest, ht, hrest, rfl⟩

/-- A turn of a worker is three steps of a run, and leaves its portal done. -/
theorem Run.turn (h : g.Run o t) {worker : Worker R} {turn : Turn R} {next : Progress}
    (ht : (g.turn? o t.progress worker).result = .ok (some (turn, next))) :
    g.Run o { t with progress := next } ∧ t.progress.status? turn.portal = some .waiting ∧
      ∀ i, next.status? i = (t.progress.status? i).map fun s => if turn.portal = i then .done else s := by
  obtain ⟨claimed, f, n, hc, hf, hp, -⟩ := turn?_eq_some ht
  have hrun := ((h.claim hc).flow hf).finish (.head _) hp
  rw [List.erase_cons_head] at hrun
  rw [(flow_eq_ok hf).2.1] at hp
  exact ⟨hrun, (Progress.status?_claim hc).1, Progress.status?_turn hc hp⟩

/-- What one worker does on its own is a run. If nobody else had begun with a portal, it is complete. -/
theorem Run.drain (h : g.Run o t) {announce : Turn R → Progress → Report Unit} {worker : Worker R}
    {d : Drained R} (hd : (g.drain o announce t.progress worker).result = .ok d) :
    g.Run o { t with progress := d.progress } ∧
      (t.progress.Idle → Stage.Complete { t with progress := d.progress }) := by
  induction hn : t.progress.waiting using Nat.strong_induction_on generalizing t worker d with
  | _ n ih =>
    obtain ⟨hend, rfl⟩ | ⟨turn, next, rest, ht, hrest, rfl⟩ := drain_eq_ok hd
    · exact ⟨h, fun hi => hi.complete (turn?_eq_none hend)⟩
    · obtain ⟨hrun, -, hstatus⟩ := h.turn ht
      obtain ⟨hrun', hcomplete⟩ := ih next.waiting (hn ▸ waiting_turn ht) hrun hrest rfl
      exact ⟨hrun', fun hi => hcomplete (hi.next hstatus)⟩

end Graph

end Sightline
