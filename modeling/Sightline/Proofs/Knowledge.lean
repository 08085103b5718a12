import Sightline.Proofs.Exact

/-! Knowledge only takes away. A flow that starts from tighter bounds, or after more portals are done, sees
no cluster that it would not have seen before. -/

namespace Sightline

variable {R : Type}

namespace Progress

def publishAll (p : Progress) (results : List (PortalId × BitSet × Counters)) : Report Progress :=
  results.foldlM (fun p x => (·.1) <$> p.publish x.1 x.2.1 x.2.2) p

variable {p q : Progress} {i : PortalId} {results : List (PortalId × BitSet × Counters)}

theorem test_congr (h : q.entries[i]? = p.entries[i]?) : q.test i = p.test i := by
  unfold test evidence?
  rw [h]

/-- Publishing succeeds for portals that exist. Each entry stays or is done, with the result it had or one
of the new ones. -/
theorem publishAll_spec (h : ∀ x ∈ results, ∃ e, p.entries[x.1]? = some e) :
    ∃ q, (p.publishAll results).result = .ok q ∧ (∀ i, q.mightSee? i = p.mightSee? i) ∧
      ∀ (i : PortalId) e, p.entries[i]? = some e → ∃ e', q.entries[i]? = some e' ∧ (e' = e ∨
        ∃ x ∈ results, x.1 = i ∧ e'.status = .done ∧ e'.visible = e.visible.or (some x.2.1)) := by
  induction results generalizing p with
  | nil => exact ⟨p, rfl, fun _ => rfl, fun i e he => ⟨e, he, .inl rfl⟩⟩
  | cons x results ih =>
    obtain ⟨e₀, he₀⟩ := h x (.head _)
    obtain ⟨⟨p₁, n⟩, h₁⟩ : ∃ r, (p.publish x.1 x.2.1 x.2.2).result = .ok r :=
      ⟨_, publish_eq_ok.mpr ⟨e₀, he₀, rfl, rfl⟩⟩
    have hget := getElem?_publish h₁
    obtain ⟨q, hq, hm, hall⟩ := ih (p := p₁) fun y hy => by
      obtain ⟨e, he⟩ := h y (.tail _ hy)
      rw [hget, he]
      exact ⟨_, rfl⟩
    have hrun : (p.publishAll (x :: results)).result = .ok q := by
      rw [publishAll, List.foldlM_cons, Report.result_bind_eq_ok]
      refine ⟨p₁, ?_, hq⟩
      rw [map_eq_pure_bind, Report.result_bind_eq_ok]
      exact ⟨_, h₁, rfl⟩
    refine ⟨q, hrun, fun i => (hm i).trans (mightSee?_publish h₁ i), fun i e he => ?_⟩
    have he₁ : p₁.entries[i]? = some (if x.1 = i then e.publish x.2.1 else e) := by
      rw [hget, he, Option.map_some]
    obtain ⟨e', he', hcase⟩ := hall i _ he₁
    refine ⟨e', he', ?_⟩
    by_cases hx : x.1 = i
    · rw [if_pos hx] at hcase
      right
      rcases hcase with rfl | ⟨y, hy, -, hs, hv⟩
      · exact ⟨x, .head _, hx, rfl, rfl⟩
      · refine ⟨x, .head _, hx, hs, ?_⟩
        rw [hv, Entry.publish]
        cases e.visible <;> rfl
    · rw [if_neg hx] at hcase
      rcases hcase with rfl | ⟨y, hy, hcase⟩
      · exact .inl rfl
      · exact .inr ⟨y, .tail _ hy, hcase⟩

/-- A result that may be published before the base portal flows: that of another portal, which has none
yet, within its bound. -/
structure Admits (p : Progress) (g : Graph R) (base : PortalId) (x : PortalId × BitSet × Counters) :
    Prop where
  other : x.1 ≠ base
  within : ∃ e, p.entries[x.1]? = some e ∧ e.visible = none ∧ x.2.1 ⊆ e.mightSee
  own : ∀ portal, g.portals[x.1]? = some portal → portal.target ∈ x.2.1

theorem publishAll_tighter {g : Graph R} (hp : p.Fits g) {base : PortalId}
    (hb : p.status? base = some .claimed) (h : ∀ x ∈ results, p.Admits g base x) :
    ∃ q, (p.publishAll results).result = .ok q ∧ q.Fits g ∧ q.status? base = some .claimed ∧
      q.bound base ⊆ p.bound base ∧
      ∀ (i : PortalId) (portal : Portal R), g.portals[i]? = some portal → q.test i ⊆ p.test i := by
  obtain ⟨q, hq, hmight, hall⟩ := publishAll_spec (p := p) fun x hx => by
    obtain ⟨e, he, -⟩ := (h x hx).within
    exact ⟨e, he⟩
  have hentry {i : PortalId} {portal : Portal R} (hi : g.portals[i]? = some portal) :
      ∃ e, p.entries[i]? = some e := by
    obtain ⟨_, he, -⟩ := hp.own _ _ hi
    obtain ⟨e, he, -⟩ := Option.map_eq_some_iff.mp he
    exact ⟨e, he⟩
  have htest {i : PortalId} {portal : Portal R} (hi : g.portals[i]? = some portal) :
      portal.target ∈ q.test i ∧ q.test i ⊆ p.test i := by
    obtain ⟨e, he⟩ := hentry hi
    obtain ⟨e', he', rfl | ⟨x, hx, rfl, hs, hv⟩⟩ := hall i e he
    · rw [test_congr (he'.trans he.symm)]
      exact ⟨hp.own _ _ hi, subset_rfl⟩
    · obtain ⟨-, ⟨e₀, he₀, hnone, hsub⟩, hown⟩ := h x hx
      cases he.symm.trans he₀
      rw [hnone, Option.none_or] at hv
      refine ⟨(mem_test_of_done he' hs hv).mpr (hown portal hi), fun c hc => ?_⟩
      exact (mem_test_of_open he hnone).mpr (hsub c ((mem_test_of_done he' hs hv).mp hc))
  refine ⟨q, hq, ⟨fun i set hi => hp.size i set (by rwa [← hmight]), fun i portal hi => (htest hi).1⟩, ?_, ?_,
    fun i portal hi => (htest hi).2⟩
  · obtain ⟨e, he, hs⟩ := Option.map_eq_some_iff.mp hb
    obtain ⟨e', he', rfl | ⟨x, hx, hi, -⟩⟩ := hall base e he
    · rw [status?, he', Option.map_some, hs]
    · exact absurd hi (h x hx).other
  · intro c hc
    unfold bound at hc ⊢
    rwa [hmight] at hc

end Progress

namespace Graph

variable [Scalar R]

theorem flow_subset {g : Graph R} (hg : g.Sound) {p p' : Progress} (hp : p.Fits g) (hp' : p'.Fits g)
    {base : PortalId} {portal : Portal R} (hb : g.portals[base]? = some portal)
    (hc : p.status? base = some .claimed) (hc' : p'.status? base = some .claimed)
    (hbound : p'.bound base ⊆ p.bound base)
    (htest : ∀ (i : PortalId) (ahead : Portal R), g.portals[i]? = some ahead → p'.test i ⊆ p.test i)
    (o : Options) (worker worker' : Worker R) :
    ∃ f f', (g.flow o p worker base).result = .ok f ∧ (g.flow o p' worker' base).result = .ok f' ∧
      f'.visible ⊆ f.visible := by
  obtain ⟨f, hf, -, -, hv⟩ := flow_spec hg hp hb hc o worker
  obtain ⟨f', hf', -, -, hv'⟩ := flow_spec hg hp' hb hc' o worker'
  refine ⟨f, f', hf, hf', fun c h => (hv c).mpr ?_⟩
  exact Outlook.sees_mono (o := g.outlook o.level p' base portal) hbound
    (fun i ahead hi _ => htest i ahead hi) ((hv' c).mp h)

/-- A flow that knows more sees no more. In particular it sees no more after further portals are done. -/
theorem visible_subset {g : Graph R} (hg : g.Built) {p : Progress} (hp : p.Fits g) {base : PortalId}
    {portal : Portal R} (hb : g.portals[base]? = some portal) (hc : p.status? base = some .claimed)
    (o : Options) (worker worker' : Worker R) :
    (∀ p' : Progress, p'.Fits g → p'.status? base = some .claimed → p'.bound base ⊆ p.bound base →
      (∀ (i : PortalId) (ahead : Portal R), g.portals[i]? = some ahead → p'.test i ⊆ p.test i) →
      ∃ f f', (g.flow o p worker base).result = .ok f ∧ (g.flow o p' worker' base).result = .ok f' ∧
        f'.visible ⊆ f.visible) ∧
    ∀ results : List (PortalId × BitSet × Counters), (∀ x ∈ results, p.Admits g base x) →
      ∃ q f f', (p.publishAll results).result = .ok q ∧ (g.flow o p worker base).result = .ok f ∧
        (g.flow o q worker' base).result = .ok f' ∧ f'.visible ⊆ f.visible := by
  constructor
  · intro p' hp' hc' hbound htest
    exact flow_subset hg.sound hp hp' hb hc hc' hbound htest o worker worker'
  · intro results h
    obtain ⟨q, hq, hfits, hstatus, hbound, htest⟩ := Progress.publishAll_tighter hp hc h
    obtain ⟨f, f', hf, hf', hsub⟩ :=
      flow_subset hg.sound hp hfits hb hc hstatus hbound htest o worker worker'
    exact ⟨q, f, f', hq, hf, hf', hsub⟩

/-- The second portal of the crooked way is done, and the first one still claimed. -/
def crookedLater : Progress :=
  { crookedStart with
    entries := crookedStart.entries.modify 2 (·.publish (.ofBools [false, false, true, true, false]))
    done := 1 }

theorem crookedLater_visible :
    (crooked.flow { level := 0 } crookedLater {} 0).result.map (·.visible) =
      .ok (.ofBools [false, true, true, true, false]) := by decide +kernel

/-- It does see less on the crooked way: the last room is out of sight once it is known that the second
opening does not show it. -/
theorem crooked_visible_subset : ∃ q f f',
    (crookedStart.publishAll [(2, .ofBools [false, false, true, true, false], 0)]).result = .ok q ∧
      (crooked.flow { level := 0 } crookedStart {} 0).result = .ok f ∧
      (crooked.flow { level := 0 } q {} 0).result = .ok f' ∧
      f'.visible ⊆ f.visible ∧ 4 ∈ f.visible ∧ 4 ∉ f'.visible := by
  obtain ⟨portal, hb⟩ := crooked_portal
  have hown : (crooked.portals[2]?).all
      (·.target ∈ BitSet.ofBools [false, false, true, true, false]) := by decide +kernel
  have hadmits : crookedStart.Admits crooked 0
      (2, .ofBools [false, false, true, true, false], 0) := by
    refine ⟨by decide, ⟨_, rfl, rfl, by decide⟩, fun portal h => ?_⟩
    rw [h] at hown
    exact of_decide_eq_true hown
  obtain ⟨q, f, f', hq, hf, hf', hsub⟩ := (visible_subset crooked_built crookedStart_fits hb
    (by decide +kernel) { level := 0 } {} {}).2 _ (List.forall_mem_singleton.mpr hadmits)
  have hlater : (crookedStart.publishAll
      [(2, .ofBools [false, false, true, true, false], 0)]).result = .ok crookedLater := rfl
  cases hq.symm.trans hlater
  have hrun := crookedStart_visible
  have hrun' := crookedLater_visible
  rw [hf] at hrun
  rw [hf'] at hrun'
  refine ⟨_, f, f', hq, hf, hf', hsub, ?_, ?_⟩
  · rw [show f.visible = _ from Except.ok.inj hrun]
    decide
  · rw [show f'.visible = _ from Except.ok.inj hrun']
    decide

end Graph

end Sightline
