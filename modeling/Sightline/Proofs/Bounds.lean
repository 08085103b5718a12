import Sightline.Proofs.Completion

/-! How far results and tables may differ. Whatever order the portals are taken in, a result holds the next
cluster and nothing that the portal could not see anyway; a fast run finds all of that. -/

namespace Sightline

variable {R : Type}

namespace Graph

variable {g g' : Graph R} {visible visible' : List BitSet} {table table' : Table} {c d : ClusterId}

theorem Alike.shows (h : g.Alike g') : g'.Shows visible c d ↔ g.Shows visible c d := by
  rw [Shows, Shows, h.portals]

theorem Tabled.of_alike (ht : g'.Tabled visible table) (h : g.Alike g') : g.Tabled visible table := by
  have hsize : g'.rowSize = g.rowSize := by rw [rowSize, rowSize, h.size]
  refine ⟨?_, ?_, fun hc => ?_, ht.data, ht.offsets⟩
  · rw [← h.size, ht.rowLength]
  · rw [← h.size, ht.length_rows]
  · obtain ⟨row, hrow, hlen, hmem⟩ := ht.row (h.size ▸ hc)
    refine ⟨row, hrow, hsize ▸ hlen, fun d => ?_⟩
    rw [hmem, hsize, h.shows]

theorem Shows.mono (h : g.Shows visible c d) (hv : ∀ (id : PortalId) (v : BitSet), visible[id]? = some v →
    ∃ v', visible'[id]? = some v' ∧ v ⊆ v') : g.Shows visible' c d := by
  obtain ⟨id, portal, v, hp, hc, hid, hd⟩ := h
  obtain ⟨v', hid', hsub⟩ := hv id v hid
  exact ⟨id, portal, v', hp, hc, hid', hsub d hd⟩

variable [Scalar R] {o : Options} {t : Stage} {id : PortalId} {portal : Portal R}

inductive Outcome (g : Graph R) (o : Options) (visible : List BitSet) (table : Table) : Prop
  | run {t : Stage} {g' : Graph R} : g.Ends o t →
      (g.encodeProgress t.progress).result = .ok (visible, table, g') → Outcome g o visible table
  | survey {found : Survey} {g' : Graph R} : (g.survey o).result = .ok (found, g') →
      visible = found.visible → table = found.table → Outcome g o visible table

/-- The table belongs to results of which each has its bounds. -/
structure Bounded (g : Graph R) (o : Options) (visible : List BitSet) (table : Table) : Prop where
  tabled : g.Tabled visible table
  result : ∀ {id : PortalId} {portal : Portal R}, g.portals[id]? = some portal →
    ∃ v m, visible[id]? = some v ∧ g.mightSee? id = some m ∧ portal.target ∈ v ∧ v ⊆ m.clusters ∧
      (o.fast = true → v = m.clusters)
  exists_portal : ∀ {id : PortalId} {v : BitSet}, visible[id]? = some v →
    ∃ portal, g.portals[id]? = some portal

theorem Lawful.bounded (hg : g.Sound)
    (h : g.Lawful (fun id v => g.Within id v ∧ (o.fast → g.Settled id v)) t) (hc : t.Complete)
    (hok : (g.encodeProgress t.progress).result = .ok (visible, table, g')) :
    g.Bounded o visible table := by
  obtain ⟨_, _, _, hok', htable, hlen, hresult⟩ := h.tabled hg hc
  cases hok.symm.trans hok'
  refine ⟨htable, fun {id portal} hp => ?_, fun {id v} hv => ?_⟩
  · obtain ⟨m, hm, -⟩ := mightSee?_spec hg hp
    have hlt : id < visible.length := hlen ▸ (Array.getElem?_eq_some_iff.mp hp).1
    have hv := List.getElem?_eq_getElem hlt
    obtain ⟨-, hown, hwithin, hsettled⟩ := hresult id _ hv
    refine ⟨_, m, hv, hm, hown hp, fun c hc => ?_, fun hfast => ?_⟩
    · obtain ⟨m', hm', hc'⟩ := hwithin c hc
      cases hm.symm.trans hm'
      exact hc'
    · have hs := hsettled hfast
      rw [Settled, hm, Option.map_some, Option.some.injEq] at hs
      exact hs.symm
  · have hlt : id < g.portals.size := hlen ▸ (List.getElem?_eq_some_iff.mp hv).1
    exact ⟨_, Array.getElem?_eq_getElem hlt⟩

theorem Bounded.of_alike (hb : g'.Bounded o visible table) (h : g.Alike g') :
    g.Bounded o visible table := by
  refine ⟨hb.tabled.of_alike h, fun hp => ?_, fun hv => ?_⟩
  · rw [← h.portals] at hp
    obtain ⟨v, m, hv, hm, hbounds⟩ := hb.result hp
    exact ⟨v, m, hv, (h.mightSee? _).symm.trans hm, hbounds⟩
  · rw [← h.portals]
    exact hb.exists_portal hv

theorem Outcome.bounded (hg : g.Sound) (h : g.Outcome o visible table) : g.Bounded o visible table := by
  cases h with
  | run h hok => exact (h.lawful hg).bounded hg h.2 hok
  | survey h hv ht =>
    obtain ⟨g₁, sets, t, visible, table, g₂, h₁, -, hends, hok, hsurvey⟩ := survey_spec hg o
    cases h.symm.trans hsurvey
    subst hv ht
    have hg₁ := hg.prepared h₁
    exact ((hends.lawful hg₁).bounded hg₁ hends.2 hok).of_alike (.prepared h₁)

theorem Bounded.sees_target (hg : g.Sound) (h : g.Bounded o visible table)
    (hp : g.portals[id]? = some portal) : table.sees portal.owner portal.target = true := by
  obtain ⟨v, m, hv, -, hmem, -⟩ := h.result hp
  exact (h.tabled.sees_iff (hg.owner_lt hp) (hg.target_lt hp)).mpr
    (.inr ⟨id, portal, v, hp, rfl, hv, hmem⟩)

theorem Bounded.row_subset {o' : Options} (h : g.Bounded o visible table)
    (h' : g.Bounded o' visible' table') (hfast : o'.fast = true) (hc : c < g.clusters.size) :
    ∃ row row', table.rows[c]? = some row ∧ table'.rows[c]? = some row' ∧ row ⊆ row' := by
  obtain ⟨row, hrow, -, hmem⟩ := h.tabled.row hc
  obtain ⟨row', hrow', -, hmem'⟩ := h'.tabled.row hc
  refine ⟨row, row', hrow, hrow', fun d hd => ?_⟩
  rw [hmem']
  rcases (hmem d).mp hd with rfl | ⟨hlt, hshows⟩
  · exact .inl rfl
  -- the portal that shows `d` might see it, and the fast run shows all that a portal might see
  · refine .inr ⟨hlt, hshows.mono fun id v hv => ?_⟩
    obtain ⟨portal, hp⟩ := h.exists_portal hv
    obtain ⟨w, m, hw, hm, -, hsub, -⟩ := h.result hp
    obtain ⟨v', m', hv', hm', -, -, hall⟩ := h'.result hp
    cases hv.symm.trans hw
    cases hm.symm.trans hm'
    exact ⟨v', hv', hall hfast ▸ hsub⟩

/-- Runs and surveys find for each portal the cluster it leads into and at most what it might see, which is
what a fast run finds. So the rows of a fast run bound all others, each cluster sees itself, and the clusters
on both sides of an opening see each other. -/
theorem outcome_bounds (hg : g.Built) (o : Options) :
    (∀ t, g.Ends o t →
      ∃ visible table g', (g.encodeProgress t.progress).result = .ok (visible, table, g')) ∧
    ∀ visible table, g.Outcome o visible table →
      (∀ (id : PortalId) portal, g.portals[id]? = some portal →
        (∃ v m, visible[id]? = some v ∧ g.mightSee? id = some m ∧ portal.target ∈ v ∧
          v ⊆ m.clusters ∧ (o.fast = true → v = m.clusters)) ∧
        table.sees portal.owner portal.target = true ∧ table.sees portal.target portal.owner = true) ∧
      ∀ c < g.clusters.size, table.sees c c = true ∧
        ∀ o' visible' table', o'.fast = true → g.Outcome o' visible' table' →
          ∃ row row', table.rows[c]? = some row ∧ table'.rows[c]? = some row' ∧ row ⊆ row' := by
  have hs := hg.sound
  refine ⟨fun t ht => ?_, fun visible table h => ?_⟩
  · obtain ⟨visible, table, g', hok, -⟩ := (ht.lawful hs).tabled hs ht.2
    exact ⟨visible, table, g', hok⟩
  · have hb := h.bounded hs
    refine ⟨fun id portal hp => ⟨hb.result hp, hb.sees_target hs hp, ?_⟩, fun c hc => ⟨?_, ?_⟩⟩
    · obtain ⟨j, q, hq, howner, htarget⟩ := hg.exists_reverse hp
      rw [← howner, ← htarget]
      exact hb.sees_target hs hq
    · exact (hb.tabled.sees_iff hc hc).mpr (.inl rfl)
    · intro o' visible' table' hfast h'
      exact hb.row_subset (h'.bounded hs) hfast hc

/-- The first opening of the crooked way, in a run that searches with one kind of planes and in a fast one. -/
theorem crooked_bounds : ∃ t visible table g₁ fast g₂,
    crooked.Ends { level := 1, passages := false } t ∧
    (crooked.encodeProgress t.progress).result = .ok (visible, table, g₁) ∧
    (crooked.survey { fast := true }).result = .ok (fast, g₂) ∧
    table.sees 0 1 = true ∧ table.sees 1 0 = true ∧ fast.table.sees 0 0 = true ∧
    ∃ row row' : BitSet, table.rows[0]? = some row ∧ fast.table.rows[0]? = some row' ∧ row ⊆ row' := by
  obtain ⟨_, _, t, _, _, _, hprepared, -, hends, -, -⟩ :=
    survey_spec crooked_built.sound { level := 1, passages := false }
  obtain rfl := Except.ok.inj hprepared
  obtain ⟨_, _, _, _, _, _, -, -, -, -, hsurvey⟩ := survey_spec crooked_built.sound { fast := true }
  have hfirst : (crooked.portals[0]?).any fun p => p.owner = 0 ∧ p.target = 1 := by decide +kernel
  obtain ⟨portal, hp, hfirst⟩ := (Option.any_eq_true _ _).mp hfirst
  obtain ⟨howner, htarget⟩ := of_decide_eq_true hfirst
  have hsize : 0 < crooked.clusters.size := by decide +kernel
  obtain ⟨hresults, hbounds⟩ := outcome_bounds crooked_built { level := 1, passages := false }
  obtain ⟨visible, table, g₁, hok⟩ := hresults t hends
  obtain ⟨hopening, hrows⟩ := hbounds visible table (.run hends hok)
  have hfast := (outcome_bounds crooked_built { fast := true }).2 _ _ (.survey hsurvey rfl rfl)
  obtain ⟨-, hforth, hback⟩ := hopening 0 portal hp
  rw [howner, htarget] at hforth hback
  exact ⟨t, visible, table, g₁, _, _, hends, hok, hsurvey, hforth, hback, (hfast.2 0 hsize).1,
    (hrows 0 hsize).2 { fast := true } _ _ rfl (.survey hsurvey rfl rfl)⟩

end Graph

end Sightline
