import Mathlib.Algebra.Order.BigOperators.Group.Finset
import Sightline.Proofs.Bounds

/-! Several workers. Their searches go on side by side, move by move, while results are published in between, and
each move goes by what is known at that moment. The results keep to the same bounds as when every flow is one
step, and whatever the workers do next, they come to an end. -/

namespace Sightline

variable {R : Type}

/-- Where several workers stand: a stage, and the searches that are under way. -/
structure Moment (R : Type) extends Stage where
  searches : PortalId → Option (Search R) := fun _ => none

namespace Graph

variable [Scalar R]

def sight (g : Graph R) (o : Options) (p : Progress) (base : PortalId) (portal : Portal R) : Setting R :=
  ⟨g, p, o.level, o.passages, base, portal⟩

/-- What one of the workers does next. -/
inductive Step (g : Graph R) (o : Options) : Moment R → Moment R → Prop
  | claim {m : Moment R} {id : PortalId} {p : Progress} : m.progress.claim? = some (id, p) →
      g.Step o m { m with progress := p }
  | begin {m : Moment R} {id : PortalId} {portal : Portal R} {mightSee : BitSet} {p : Progress}
      (pool : Pool R) : m.progress.start id = .ok p → g.portals[id]? = some portal →
      p.mightSee? id = some mightSee →
      g.Step o m { m with
        progress := p
        searches := Function.update m.searches id (some (.start (g.sight o p id portal) mightSee pool)) }
  | move {m : Moment R} {id : PortalId} {portal : Portal R} {x y : Search R} {top : Frame R}
      {rest : List (Frame R)} : m.searches id = some x → g.portals[id]? = some portal →
      x.stack = top :: rest → x.move (g.sight o m.progress id portal) top rest = .ok y →
      g.Step o m { m with searches := Function.update m.searches id (some y) }
  | found {m : Moment R} {id : PortalId} {x : Search R} : m.searches id = some x → x.stack = [] →
      g.Step o m { m with
        held := (id, x.visible) :: m.held
        searches := Function.update m.searches id none }
  | finish {m : Moment R} {id : PortalId} {v : BitSet} {counted : Counters} {p : Progress} {n : Nat} :
      (id, v) ∈ m.held → (m.progress.publish id v counted).result = .ok (p, n) →
      g.Step o m { m with progress := p, held := m.held.erase (id, v) }

/-- The moments that several workers get to. -/
inductive Shared (g : Graph R) (o : Options) : Moment R → Prop
  | start {sets : List BitSet} {threaded : Bool} : g.mightSets? = some sets →
      g.Shared o { progress := .ofMightSee sets threaded }
  | step {m m' : Moment R} : g.Shared o m → g.Step o m m' → g.Shared o m'

/-- What chains from a portal go by if `test` is what is known of the others. -/
def under (g : Graph R) (level : Nat) (test : PortalId → Set ClusterId) (base : PortalId)
    (portal : Portal R) : Outlook R :=
  ⟨g, level, portal, g.might base, test⟩

def seen (g : Graph R) (level : Nat) (test : PortalId → Set ClusterId) (base : PortalId) : Set ClusterId :=
  {c | ∃ portal, g.portals[base]? = some portal ∧ c ∈ (g.under level test base portal).sees}

/-- Each portal sees what `lo` says of it, if the others are judged by no less than `lo` says of them. -/
structure Supported (g : Graph R) (level : Nat) (lo : PortalId → Set ClusterId) : Prop where
  own : ∀ {id : PortalId} {portal : Portal R}, g.portals[id]? = some portal → portal.target ∈ lo id
  sees : ∀ id, lo id ⊆ g.seen level lo id

/-- The result holds all that the portal sees under `lo`, and only what it sees under the might-see sets. -/
structure Between (g : Graph R) (level : Nat) (lo : PortalId → Set ClusterId) (id : PortalId) (v : BitSet) :
    Prop where
  lower : ∀ c ∈ g.seen level lo id, c ∈ v
  upper : ∀ c ∈ v, c ∈ g.seen level g.might id

variable {g : Graph R} {o : Options} {m m' : Moment R} {t : Stage} {id : PortalId} {portal : Portal R}
  {lo : PortalId → Set ClusterId} {level : Nat} {x y : Search R} {v : BitSet}

theorem seen_subset_might (hg : g.Sound) (test : PortalId → Set ClusterId) : g.seen level test id ⊆ g.might id := by
  rintro c ⟨portal, hp, hc⟩
  exact Outlook.sees_subset_bound (o := g.under level test id portal) (own_target_mem_might hg hp) hc

theorem target_mem_seen (hp : g.portals[id]? = some portal) (test : PortalId → Set ClusterId) :
    portal.target ∈ g.seen level test id := ⟨portal, hp, _, [], .first, rfl⟩

theorem Between.within (hg : g.Sound) (h : g.Between level lo id v) : g.Within id v :=
  fun c hc => seen_subset_might hg _ (h.upper c hc)

theorem Lawful.sight_under (h : g.Lawful (g.Between o.level lo) t) (test : PortalId → Set ClusterId) :
    (g.sight o t.progress id portal).under test = g.under o.level test id portal := by
  rw [Setting.under, under, ← h.bound id]
  rfl

theorem Lawful.sight_ready (hg : g.Sound) (h : g.Lawful (g.Between o.level lo) t)
    (hp : g.portals[id]? = some portal) : (g.sight o t.progress id portal).Ready :=
  ⟨hg, hp, h.fits hg⟩

/-- Whatever was published so far, evidence lies between `lo` and the might-see sets. -/
theorem Lawful.sight_between (hg : g.Sound) (hlo : g.Supported o.level lo)
    (h : g.Lawful (g.Between o.level lo) t) : (g.sight o t.progress id portal).Between lo g.might := by
  refine ⟨hlo.own, fun {i ahead} _ c hc => ?_, fun {i ahead} _ c hc => ?_⟩
  · have hseen := hlo.sees i hc
    rcases h.test i with ⟨v, -, hr, ht⟩ | ht
    · exact ht ▸ hr.keeps.lower c hseen
    · exact ht ▸ seen_subset_might hg lo hseen
  · rcases h.test i with ⟨v, -, hr, ht⟩ | ht
    · have hv : c ∈ v := by simpa [sight, ht] using hc
      exact hr.keeps.within hg c hv
    · simpa [sight, ht] using hc

omit [Scalar R] in
theorem update_eq_some {searches : PortalId → Option (Search R)} {i : PortalId} {a : Option (Search R)} :
    Function.update searches id a i = some x ↔ i = id ∧ a = some x ∨ i ≠ id ∧ searches i = some x := by
  rw [Function.update_apply]
  exact ite_eq_iff

structure Underway (g : Graph R) (o : Options) (lo : PortalId → Set ClusterId) (t : Stage) (id : PortalId)
    (x : Search R) : Prop where
  flowing : t.progress.status? id = some .flowing
  unheld : id ∉ t.held.map Prod.fst
  search : ∃ portal, g.portals[id]? = some portal ∧
    Search.Valid (g.sight o t.progress id portal) x ∧ x.Between (g.sight o t.progress id portal) lo g.might

/-- A search does not notice what happens to other portals. -/
theorem Underway.elsewhere {t' : Stage} (h : g.Underway o lo t id x) (hbound : t'.progress.bound id = t.progress.bound id)
    (hflowing : t'.progress.status? id = some .flowing) (hunheld : id ∉ t'.held.map Prod.fst) :
    g.Underway o lo t' id x := by
  obtain ⟨portal, hp, hv, hb⟩ := h.search
  have hu (test : PortalId → Set ClusterId) : (g.sight o t'.progress id portal).under test =
      (g.sight o t.progress id portal).under test := by
    simp only [Setting.under, sight, hbound]
  refine ⟨hflowing, hunheld, portal, hp, ⟨hv.size_onChain, hv.size_mask, hv.mem_onChain, hv.nodup⟩,
    ⟨fun f hf => ?_, ?_, hb.todo, hb.size, ?_, ?_⟩⟩
  · have hf := hb.intact f hf
    exact ⟨hf.source, hf.pass, hf.known⟩
  · rw [hu]
    exact hb.chain
  · rw [hu]
    exact hb.found
  · rw [hu]
    exact hb.pending

/-- What all moments have in common. A portal flows as long as its search is under way or its result is held. -/
structure Orderly (g : Graph R) (o : Options) (lo : PortalId → Set ClusterId) (m : Moment R) : Prop where
  lawful : g.Lawful (g.Between o.level lo) m.toStage
  busy : ∀ {id : PortalId} {x : Search R}, m.searches id = some x → g.Underway o lo m.toStage id x
  served : ∀ {id : PortalId}, m.progress.status? id = some .flowing → id ∉ m.held.map Prod.fst →
    ∃ x, m.searches id = some x

theorem Orderly.start {sets : List BitSet} (h : g.mightSets? = some sets) (threaded : Bool) :
    g.Orderly o lo { progress := .ofMightSee sets threaded } := by
  refine ⟨.start h threaded, fun hx => (by cases hx), fun {id} hs => ?_⟩
  rw [Progress.status?_ofMightSee] at hs
  obtain ⟨_, -, hs⟩ := Option.map_eq_some_iff.mp hs
  cases hs

theorem Orderly.claim (h : g.Orderly o lo m) {p : Progress} (hc : m.progress.claim? = some (id, p)) :
    g.Orderly o lo { m with progress := p } := by
  obtain ⟨hw, hclaimed⟩ := Progress.status?_claim hc
  have hlaw := h.lawful.claim hc
  obtain ⟨-, rfl⟩ := Progress.claim?_eq_some.mp hc
  refine ⟨hlaw, fun {i x} hx => ?_, fun {i} hs hn => ?_⟩
  · have hbusy := h.busy hx
    have hne : i ≠ id := by
      rintro rfl
      cases hw.symm.trans hbusy.flowing
    refine hbusy.elsewhere (by rw [Progress.bound_setStatus]) ?_ hbusy.unheld
    exact (Progress.status?_setStatus_of_ne _ hne _).trans hbusy.flowing
  · have hne : i ≠ id := by
      rintro rfl
      cases hclaimed.symm.trans hs
    exact h.served ((Progress.status?_setStatus_of_ne _ hne _).symm.trans hs) hn

theorem Orderly.begin (hg : g.Sound) (h : g.Orderly o lo m) {mightSee : BitSet} {p : Progress} (pool : Pool R)
    (hs : m.progress.start id = .ok p) (hp : g.portals[id]? = some portal) (hm : p.mightSee? id = some mightSee) :
    g.Orderly o lo { m with
      progress := p
      searches := Function.update m.searches id (some (.start (g.sight o p id portal) mightSee pool)) } := by
  obtain ⟨hc, rfl⟩ := Progress.start_eq_ok.mp hs
  have hlaw : g.Lawful (g.Between o.level lo) { m.toStage with progress := m.progress.setStatus id .flowing } :=
    h.lawful.setStatus (by simp [hc]) (by simp [hc]) (by simp)
  have hsize : mightSee.size = g.clusters.size := (hlaw.fits hg).size id _ hm
  have htarget : portal.target < g.clusters.size := hg.target_lt hp
  refine ⟨hlaw, fun {i x} hx => ?_, fun {i} hf hn => ?_⟩
  · rcases update_eq_some.mp hx with ⟨rfl, hx⟩ | ⟨hne, hx⟩
    · cases hx
      refine ⟨?_, h.lawful.not_mem_held (by simp [hc]), portal, hp, .start htarget mightSee pool, ?_⟩
      · rw [Progress.status?_setStatus, hc, Option.map_some, if_pos rfl]
      · exact .start htarget hm hsize pool
    · have hbusy := h.busy hx
      refine hbusy.elsewhere (by rw [Progress.bound_setStatus]) ?_ hbusy.unheld
      exact (Progress.status?_setStatus_of_ne _ hne _).trans hbusy.flowing
  · rcases eq_or_ne i id with rfl | hne
    · exact ⟨_, update_eq_some.mpr (.inl ⟨rfl, rfl⟩)⟩
    · obtain ⟨x, hx⟩ := h.served ((Progress.status?_setStatus_of_ne _ hne _).symm.trans hf) hn
      exact ⟨x, update_eq_some.mpr (.inr ⟨hne, hx⟩)⟩

theorem Orderly.move (hg : g.Sound) (hlo : g.Supported o.level lo) (h : g.Orderly o lo m)
    (hx : m.searches id = some x) (hp : g.portals[id]? = some portal) {top : Frame R} {rest : List (Frame R)}
    (hstack : x.stack = top :: rest) (hy : x.move (g.sight o m.progress id portal) top rest = .ok y) :
    g.Orderly o lo { m with searches := Function.update m.searches id (some y) } := by
  refine ⟨h.lawful, fun {i z} hz => ?_, fun {i} hf hn => ?_⟩
  · rcases update_eq_some.mp hz with ⟨rfl, hyz⟩ | ⟨hne, hz⟩
    · cases hyz
      obtain ⟨hflowing, hunheld, portal', hp', hv, hb⟩ := h.busy hx
      cases hp.symm.trans hp'
      obtain ⟨y', hy', hb'⟩ := hb.move (h.lawful.sight_ready hg hp) (h.lawful.sight_between hg hlo) hv hstack
      cases hy.symm.trans hy'
      exact ⟨hflowing, hunheld, portal, hp, hv.move hstack hy, hb'⟩
    · exact h.busy hz
  · rcases eq_or_ne i id with rfl | hne
    · exact ⟨y, update_eq_some.mpr (.inl ⟨rfl, rfl⟩)⟩
    · obtain ⟨z, hz⟩ := h.served hf hn
      exact ⟨z, update_eq_some.mpr (.inr ⟨hne, hz⟩)⟩

theorem Orderly.found (h : g.Orderly o lo m) (hx : m.searches id = some x) (hstack : x.stack = []) :
    g.Orderly o lo { m with
      held := (id, x.visible) :: m.held
      searches := Function.update m.searches id none } := by
  obtain ⟨hflowing, hunheld, portal, hp, -, hb⟩ := h.busy hx
  have hbetween : g.Between o.level lo id x.visible := by
    refine ⟨fun c hc => ?_, fun c hc => ⟨portal, hp, ?_⟩⟩
    · obtain ⟨portal', hp', hc⟩ := hc
      cases hp.symm.trans hp'
      rw [← h.lawful.sight_under] at hc
      exact hb.sees_subset hstack c hc
    · rw [← h.lawful.sight_under]
      exact hb.found c hc
  have hresult : g.Result (g.Between o.level lo) id x.visible :=
    ⟨hb.size, fun hp' => hbetween.lower _ (target_mem_seen hp' lo), hbetween⟩
  refine ⟨h.lawful.hold hflowing hunheld hresult, fun {i z} hz => ?_, fun {i} hf hn => ?_⟩
  · rcases update_eq_some.mp hz with ⟨-, hz⟩ | ⟨hne, hz⟩
    · cases hz
    · have hbusy := h.busy hz
      exact hbusy.elsewhere rfl hbusy.flowing (List.not_mem_cons_of_ne_of_not_mem hne hbusy.unheld)
  · obtain ⟨hne, hn⟩ := not_or.mp (mt List.mem_cons.mpr hn)
    obtain ⟨z, hz⟩ := h.served hf hn
    exact ⟨z, update_eq_some.mpr (.inr ⟨hne, hz⟩)⟩

theorem Orderly.finish (h : g.Orderly o lo m) {counted : Counters} {p : Progress} {n : Nat}
    (hm : (id, v) ∈ m.held) (hp : (m.progress.publish id v counted).result = .ok (p, n)) :
    g.Orderly o lo { m with progress := p, held := m.held.erase (id, v) } := by
  have hstatus := Progress.status?_publish hp
  have hheld : id ∈ m.held.map Prod.fst := List.mem_map_of_mem hm
  refine ⟨h.lawful.finish hm hp, fun {i x} hx => ?_, fun {i} hf hn => ?_⟩
  · have hbusy := h.busy hx
    have hne : id ≠ i := fun he => hbusy.unheld (he ▸ hheld)
    refine hbusy.elsewhere ?_ ?_ fun hi => hbusy.unheld ?_
    · rw [Progress.bound_publish hp]
    · rw [hstatus, hbusy.flowing, Option.map_some, if_neg hne]
    · exact (List.erase_sublist.map _).subset hi
  · have hf : p.status? i = some .flowing := hf
    rw [hstatus] at hf
    obtain ⟨s, hs, hf⟩ := Option.map_eq_some_iff.mp hf
    split at hf
    · cases hf
    · next hne =>
      refine h.served (hf ▸ hs) fun hi => hn ?_
      obtain ⟨z, hz, rfl⟩ := List.mem_map.mp hi
      have hother : z ≠ (id, v) := fun he => hne (congrArg Prod.fst he).symm
      exact List.mem_map_of_mem ((List.mem_erase_of_ne hother).mpr hz)

theorem Step.orderly (hg : g.Sound) (hlo : g.Supported o.level lo) (h : g.Orderly o lo m) (hs : g.Step o m m') :
    g.Orderly o lo m' := by
  cases hs with
  | claim hc => exact h.claim hc
  | begin pool hs hp hm => exact h.begin hg pool hs hp hm
  | move hx hp hstack hy => exact h.move hg hlo hx hp hstack hy
  | found hx hstack => exact h.found hx hstack
  | finish hm hp => exact h.finish hm hp

theorem Shared.orderly (hg : g.Sound) (hlo : g.Supported o.level lo) (h : g.Shared o m) : g.Orderly o lo m := by
  induction h with
  | start hs => exact .start hs _
  | step _ hs ih => exact hs.orderly hg hlo ih

/-- There is always something to do until all portals are done. -/
theorem Orderly.exists_step (hg : g.Sound) (hlo : g.Supported o.level lo) (h : g.Orderly o lo m)
    (hc : ¬ m.Complete) : ∃ m', g.Step o m m' := by
  obtain ⟨e, he, hs⟩ : ∃ e ∈ m.progress.entries, e.status ≠ .done := by
    simpa [Stage.Complete] using hc
  obtain ⟨id, hid⟩ := Array.mem_iff_getElem?.mp he
  have hstatus : m.progress.status? id = some e.status := by rw [Progress.status?, hid, Option.map_some]
  obtain ⟨portal, hp⟩ := h.lawful.exists_portal hg hid
  cases hs' : e.status with
  | waiting =>
    cases hclaim : m.progress.claim? with
    | none => exact absurd (hs' ▸ hstatus) (Progress.claim?_eq_none hclaim id)
    | some claimed => exact ⟨_, .claim hclaim⟩
  | claimed =>
    have hstart := Progress.start_eq_ok.mpr ⟨hs' ▸ hstatus, rfl⟩
    have hm : (m.progress.setStatus id .flowing).mightSee? id = some e.mightSee := by
      rw [Progress.mightSee?_setStatus, Progress.mightSee?, hid, Option.map_some]
    exact ⟨_, .begin {} hstart hp hm⟩
  | flowing =>
    rw [hs'] at hstatus
    by_cases hheld : id ∈ m.held.map Prod.fst
    · obtain ⟨⟨_, v⟩, hv, rfl⟩ := List.mem_map.mp hheld
      obtain ⟨p, n, hp⟩ := Progress.exists_publish hstatus v 0
      exact ⟨_, .finish hv hp⟩
    · obtain ⟨x, hx⟩ := h.served hstatus hheld
      cases hstack : x.stack with
      | nil => exact ⟨_, .found hx hstack⟩
      | cons top rest =>
        obtain ⟨-, -, portal, hp, hv, hb⟩ := h.busy hx
        obtain ⟨y, hy, -⟩ :=
          hb.move (h.lawful.sight_ready hg hp) (h.lawful.sight_between hg hlo) hv hstack
        exact ⟨_, .move hx hp hstack hy⟩
  | done => exact absurd hs' hs

def stepsLeft (g : Graph R) (m : Moment R) (id : PortalId) : Nat :=
  match m.progress.status? id with
  | none | some .done => 0
  | some .waiting => Search.cost (Search.maxDegree g) g.clusters.size + 3
  | some .claimed => Search.cost (Search.maxDegree g) g.clusters.size + 2
  | some .flowing =>
    match m.searches id with
    | some x => Search.stackCost (Search.maxDegree g) (x.onChain.size - x.onChain.count) x.stack + 2
    | none => 1

def allStepsLeft (g : Graph R) (m : Moment R) : Nat := ∑ id ∈ Finset.range g.portals.size, g.stepsLeft m id

omit [Scalar R] in
theorem allStepsLeft_lt (hp : g.portals[id]? = some portal)
    (hstatus : ∀ i ≠ id, m'.progress.status? i = m.progress.status? i)
    (hsearch : ∀ i ≠ id, m'.searches i = m.searches i)
    (hlt : g.stepsLeft m' id < g.stepsLeft m id) : g.allStepsLeft m' < g.allStepsLeft m := by
  have hlast : id < g.portals.size := (Array.getElem?_eq_some_iff.mp hp).1
  refine Finset.sum_lt_sum (fun i _ => ?_) ⟨id, Finset.mem_range.mpr hlast, hlt⟩
  rcases eq_or_ne i id with rfl | hne
  · exact Nat.le_of_lt hlt
  · unfold stepsLeft
    rw [hstatus i hne, hsearch i hne]

theorem Step.allStepsLeft_lt (hg : g.Sound) (h : g.Orderly o lo m) (hs : g.Step o m m') :
    g.allStepsLeft m' < g.allStepsLeft m := by
  have hportal {i : PortalId} {s : Status} (hs : m.progress.status? i = some s) :
      ∃ portal, g.portals[i]? = some portal := by
    obtain ⟨e, he, -⟩ := Option.map_eq_some_iff.mp hs
    exact h.lawful.exists_portal hg he
  cases hs with
  | @claim id p hc =>
    obtain ⟨hw, hclaimed⟩ := Progress.status?_claim hc
    obtain ⟨portal, hp⟩ := hportal hw
    obtain ⟨-, rfl⟩ := Progress.claim?_eq_some.mp hc
    refine Graph.allStepsLeft_lt hp (fun i hi => Progress.status?_setStatus_of_ne _ hi _) (fun _ _ => rfl) ?_
    simp only [stepsLeft, hw, hclaimed]
    omega
  | @begin id portal mightSee p pool hs hp hm =>
    obtain ⟨hc, rfl⟩ := Progress.start_eq_ok.mp hs
    refine Graph.allStepsLeft_lt hp (fun i hi => Progress.status?_setStatus_of_ne _ hi _)
      (fun i hi => Function.update_of_ne hi ..) ?_
    have hlt := Search.potential_start_lt
      (s := g.sight o (m.progress.setStatus id .flowing) id portal) (hg.target_lt hp) mightSee pool
    have hflowing : (m.progress.setStatus id .flowing).status? id = some .flowing := by
      rw [Progress.status?_setStatus, hc, Option.map_some, if_pos rfl]
    simp only [stepsLeft, hc, hflowing, Function.update_self]
    exact Nat.add_lt_add_right hlt 2
  | @move id portal x y top rest hx hp hstack hy =>
    obtain ⟨hflowing, -, portal', hp', hv, -⟩ := h.busy hx
    cases hp.symm.trans hp'
    refine Graph.allStepsLeft_lt hp (fun _ _ => rfl) (fun i hi => Function.update_of_ne hi ..) ?_
    simp only [stepsLeft, hflowing, Function.update_self, hx]
    exact Nat.add_lt_add_right (Search.potential_move hv hstack hy) 2
  | @found id x hx hstack =>
    obtain ⟨hflowing, -, portal, hp, -⟩ := h.busy hx
    refine Graph.allStepsLeft_lt hp (fun _ _ => rfl) (fun i hi => Function.update_of_ne hi ..) ?_
    simp only [stepsLeft, hflowing, Function.update_self, hx]
    omega
  | @finish id v counted p n hm hp =>
    obtain ⟨hflowing, -⟩ := h.lawful.held _ hm
    obtain ⟨portal, hportal⟩ := hportal hflowing
    have hstatus := Progress.status?_publish hp
    refine Graph.allStepsLeft_lt hportal (fun i hi => ?_) (fun _ _ => rfl) ?_
    · rw [hstatus]
      simp [hi.symm]
    · simp only [stepsLeft, hstatus, hflowing, Option.map_some, if_pos]
      split <;> omega

/-- Whatever the others are judged by, a portal sees the cluster that it leads into. -/
theorem supported_target (g : Graph R) (level : Nat) :
    g.Supported level fun id => {c | ∃ portal, g.portals[id]? = some portal ∧ portal.target = c} := by
  refine ⟨fun hp => ⟨_, hp, rfl⟩, fun id c hc => ?_⟩
  obtain ⟨portal, hp, rfl⟩ := hc
  exact target_mem_seen hp _

theorem exists_moves_of_run {s : Setting R} {hv : Search.Valid s x} (h : Search.run s x hv = .ok y) :
    ∃ n, Search.Moves s n x y ∧ y.stack = [] := by
  fun_induction Search.run s x hv with
  | case1 x hv hx =>
    cases h
    exact ⟨0, .none, hx⟩
  | case2 => cases h
  | case3 x hv top rest hx z hz ih =>
    obtain ⟨n, hmoves, hend⟩ := ih h
    exact ⟨n + 1, .next hx hz hmoves, hend⟩

/-- A search makes all its moves while nothing else happens. -/
theorem Shared.moves {n : Nat} (hp : g.portals[id]? = some portal)
    (hmoves : Search.Moves (g.sight o m.progress id portal) n x y)
    (h : g.Shared o { m with searches := Function.update m.searches id (some x) }) :
    g.Shared o { m with searches := Function.update m.searches id (some y) } := by
  induction hmoves with
  | none => exact h
  | next hx hy _ ih =>
    have hnext := h.step (.move (Function.update_self ..) hp hx hy)
    refine ih ?_
    simpa only [Function.update_idem] using hnext

/-- Runs in which each flow is one step are among those of several workers. -/
theorem Run.shared (h : g.Run o t) : g.Shared o { toStage := t } := by
  induction h with
  | start hs => exact .start hs
  | claim _ hc ih => exact ih.step (.claim hc)
  | @flow t id worker f _ hf ih =>
    obtain ⟨portal, mightSee, y, ht, hp, hc, hm, hy, rfl⟩ := exists_run_of_flow hf
    obtain ⟨n, hmoves, hend⟩ := exists_moves_of_run hy
    have hm' : (t.progress.setStatus id .flowing).mightSee? id = some mightSee :=
      (Progress.mightSee?_setStatus _ _ _ _).trans hm
    have hbegun := ih.step (.begin worker.pool (Progress.start_eq_ok.mpr ⟨hc, rfl⟩) hp hm')
    have hmoved := Shared.moves (m := { toStage := { t with progress := t.progress.setStatus id .flowing } })
      hp hmoves hbegun
    have hfound := hmoved.step (.found (Function.update_self ..) hend)
    simpa using hfound
  | finish _ hm hp ih => exact ih.step (.finish hm hp)

/-- Workers never come to a standstill before all portals are done, and each step leaves fewer to do. -/
theorem Shared.ends (hg : g.Sound) (h : g.Shared o m) :
    (∃ m', Relation.ReflTransGen (g.Step o) m m' ∧ m'.Complete) ∧
      ∀ m', g.Step o m m' → g.allStepsLeft m' < g.allStepsLeft m := by
  have hlo := g.supported_target o.level
  refine ⟨?_, fun m' hs => hs.allStepsLeft_lt hg (h.orderly hg hlo)⟩
  induction hn : g.allStepsLeft m using Nat.strong_induction_on generalizing m with
  | _ n ih =>
    by_cases hc : m.Complete
    · exact ⟨m, .refl, hc⟩
    · have horderly := h.orderly hg hlo
      obtain ⟨m₁, hs⟩ := horderly.exists_step hg hlo hc
      obtain ⟨m', hsteps, hc'⟩ := ih _ (hn ▸ hs.allStepsLeft_lt hg horderly) (h.step hs) rfl
      exact ⟨m', .head hs hsteps, hc'⟩

/-- The results of several workers make a table, with the bounds that one worker's have. -/
theorem Shared.bounded (hg : g.Sound) (hfast : o.fast = false) (h : g.Shared o m) (hc : m.Complete) :
    ∃ visible table g', (g.encodeProgress m.progress).result = .ok (visible, table, g') ∧
      g.Bounded o visible table := by
  have hlaw := (h.orderly hg (g.supported_target o.level)).lawful
  have hwithin : g.Lawful (fun id v => g.Within id v ∧ (o.fast → g.Settled id v)) m.toStage :=
    hlaw.mono fun hb => ⟨hb.within hg, fun hf => by simp [hfast] at hf⟩
  obtain ⟨visible, table, g', hok, -⟩ := hwithin.tabled hg hc
  exact ⟨visible, table, g', hok, hwithin.bounded hg hc hok⟩

end Graph

end Sightline
