import Sightline.Proofs.Encoding
import Sightline.Proofs.History

/-! What is published for good. The first result given for a portal is its result from then on, whatever
else is called; results are handed out when there is one for every portal, and a table is built from nothing
less. -/

namespace Sightline

theorem Graph.encodeProgress_eq_fail {R : Type} {p : Progress} {fault : Fault}
    (h : p.results = .error fault) (g : Graph R) : g.encodeProgress p = .fail (.fault fault) := by
  rw [encodeProgress, h]
  rfl

namespace Progress

theorem mapM_eq_error {ε α β : Type} {f : α → Except ε β} {l : List α} {fault : ε} :
    l.mapM f = .error fault ↔ ∃ (i : Nat) (a : α), l[i]? = some a ∧ f a = .error fault ∧
      ∀ j < i, ∀ b, l[j]? = some b → ∃ c, f b = .ok c := by
  induction l with
  | nil => simp [Pure.pure, Except.pure]
  | cons b l ih =>
    rw [List.mapM_cons]
    cases hb : f b with
    | error fault' =>
      constructor
      · intro h
        cases h
        exact ⟨0, b, rfl, hb, by simp⟩
      · rintro ⟨i, a, hi, ha, hbefore⟩
        cases i with
        | zero =>
          cases hi
          cases hb.symm.trans ha
          rfl
        | succ i =>
          obtain ⟨c, hc⟩ := hbefore 0 (Nat.succ_pos i) b rfl
          cases hb.symm.trans hc
    | ok c =>
      have hrest : (do let cs ← l.mapM f; pure (c :: cs)) = .error fault ↔ l.mapM f = .error fault := by
        cases l.mapM f <;> simp [Bind.bind, Except.bind, Pure.pure, Except.pure]
      refine hrest.trans (ih.trans ?_)
      constructor
      · rintro ⟨i, a, hi, ha, hbefore⟩
        refine ⟨i + 1, a, hi, ha, fun j hj d hd => ?_⟩
        cases j with
        | zero =>
          cases hd
          exact ⟨c, hb⟩
        | succ j => exact hbefore j (Nat.lt_of_succ_lt_succ hj) d hd
      · rintro ⟨i, a, hi, ha, hbefore⟩
        cases i with
        | zero =>
          cases hi
          cases hb.symm.trans ha
        | succ i => exact ⟨i, a, hi, ha, fun j hj d hd => hbefore (j + 1) (Nat.succ_lt_succ hj) d hd⟩

variable {p : Progress} {id : PortalId}

/-- Results are refused on account of the first portal that has none. -/
theorem results_eq_error {fault : Fault} : p.results = .error fault ↔
    ∃ id < p.entries.size, fault = .portalNotDone id ∧ p.result? id = none ∧
      ∀ j < id, p.result? j ≠ none := by
  have hget (i : PortalId) : p.entries.toList.zipIdx[i]? = (p.entries[i]?).map fun e => (e, i) := by
    rw [List.getElem?_zipIdx, Array.getElem?_toList, Nat.zero_add]
  rw [results, mapM_eq_error]
  constructor
  · rintro ⟨id, a, hid, hfault, hbefore⟩
    obtain ⟨e, he, rfl⟩ := Option.map_eq_some_iff.mp ((hget id).symm.trans hid)
    have hlt := (Array.getElem?_eq_some_iff.mp he).1
    cases hr : e.result? with
    | some set => simp [hr] at hfault
    | none =>
      simp only [hr, Except.error.injEq] at hfault
      refine ⟨id, hlt, hfault.symm, by rw [result?, he]; exact hr, fun j hj hnone => ?_⟩
      have hj' : p.entries[j]? = some p.entries[j] := Array.getElem?_eq_getElem (hj.trans hlt)
      obtain ⟨set, hset⟩ := hbefore j hj _ (by rw [hget, hj', Option.map_some])
      rw [result?, hj', Option.bind_some] at hnone
      simp [hnone] at hset
  · rintro ⟨id, hid, rfl, hnone, hbefore⟩
    have he : p.entries[id]? = some p.entries[id] := Array.getElem?_eq_getElem hid
    rw [result?, he, Option.bind_some] at hnone
    refine ⟨id, _, by rw [hget, he, Option.map_some], by simp [hnone], fun j hj b hb => ?_⟩
    obtain ⟨e, he, rfl⟩ := Option.map_eq_some_iff.mp ((hget j).symm.trans hb)
    have hsome := hbefore j hj
    rw [result?, he, Option.bind_some] at hsome
    obtain ⟨set, hset⟩ := Option.ne_none_iff_exists'.mp hsome
    exact ⟨set, by simp [hset]⟩

variable {sets : List BitSet} {threaded : Bool} {calls : List Call} {events : List Event}

theorem History.result?_eq (h : (ofMightSee sets threaded).History calls events p)
    (hid : id < sets.length) : p.result? id = firstGiven id calls := by
  obtain ⟨e, he, ht⟩ := h.exists_entry hid
  rw [result?, he, Option.bind_some, ht.result?_eq]

theorem History.results_eq_ok_iff (h : (ofMightSee sets threaded).History calls events p)
    {l : List BitSet} : p.results = .ok l ↔
      (List.range sets.length).map (firstGiven · calls) = l.map some := by
  rw [results_eq_ok, List.ext_getElem?_iff]
  refine forall_congr' fun i => ?_
  rw [List.getElem?_map, List.getElem?_map]
  by_cases hi : i < sets.length
  · obtain ⟨e, he, ht⟩ := h.exists_entry hi
    rw [he, List.getElem?_range hi, Option.map_some, Option.map_some, ht.result?_eq]
  · have hi' := Nat.le_of_not_lt hi
    rw [Array.getElem?_eq_none (h.size_entries ▸ hi'),
      List.getElem?_eq_none (l := List.range sets.length) (by rwa [List.length_range])]
    rfl

theorem History.results_eq_error_iff (h : (ofMightSee sets threaded).History calls events p)
    {fault : Fault} : p.results = .error fault ↔ ∃ id < sets.length, fault = .portalNotDone id ∧
      firstGiven id calls = none ∧ ∀ j < id, firstGiven j calls ≠ none := by
  rw [results_eq_error, h.size_entries]
  refine exists_congr fun id => and_congr_right fun hid => and_congr_right fun _ => ?_
  rw [h.result?_eq hid]
  refine and_congr_right fun _ => forall₂_congr fun j hj => ?_
  rw [h.result?_eq (hj.trans hid)]

/-- Whatever is called, a portal only moves forward, is started at most once, and keeps what it might see and
the first result that is given for it. Results are handed out when every portal has one; if not, the first
portal that has none is named, no table is built and no row is noted. -/
theorem History.lifecycle {R : Type} (h : (ofMightSee sets threaded).History calls events p) :
    (∀ call : Call, call.Valid sets.length → ∃ event q, p.Step call event q) ∧
    (∀ later events' q, p.History later events' q → ∀ id s, p.status? id = some s →
      ∃ t, q.status? id = some t ∧ s.place ≤ t.place) ∧
    (∀ id < sets.length, events.count (.started id) ≤ 1) ∧
    (∀ id < sets.length, ∀ e q, p.tryStart id = (.error e, q) → e = .fault (.reflowed id) ∧ q = p) ∧
    (∀ id, p.mightSee? id = sets[id]? ∧ p.mightCount? id = (sets[id]?).map BitSet.count) ∧
    (∀ id < sets.length, p.result? id = firstGiven id calls) ∧
    (∀ l, p.results = .ok l ↔ (List.range sets.length).map (firstGiven · calls) = l.map some) ∧
    (∀ fault, p.results = .error fault ↔ ∃ id < sets.length, fault = .portalNotDone id ∧
      firstGiven id calls = none ∧ ∀ j < id, firstGiven j calls ≠ none) ∧
    ∀ (fault : Fault) (g : Graph R), p.results = .error fault →
      g.encodeProgress p = .fail (.fault fault) ∧
        ∀ answer g', (Graph.encodeProgressInPlace p).run.run g = (answer, g') →
          answer = .error (.fault fault) ∧ g'.clusters.map (·.rowOffset) = g.clusters.map (·.rowOffset) := by
  refine ⟨fun call hcall => ?_, fun later events' q hq id s hs => hq.status_le hs, fun id hid => ?_,
    fun id hid e q hstart => ?_, h.might_eq, fun id hid => h.result?_eq hid,
    fun l => h.results_eq_ok_iff, fun fault => h.results_eq_error_iff, fun fault g hfault => ?_⟩
  · exact exists_step (h.size_entries ▸ hcall)
  · obtain ⟨e, -, ht⟩ := h.exists_entry hid
    exact ht.started_once
  · obtain ⟨entry, hentry, -⟩ := h.exists_entry hid
    rw [tryStart_eq hentry] at hstart
    split at hstart <;> cases hstart
    exact ⟨rfl, rfl⟩
  · refine ⟨Graph.encodeProgress_eq_fail hfault g, fun answer g' hrun => ?_⟩
    rw [Graph.run_encodeProgressInPlace, hfault] at hrun
    cases hrun
    exact ⟨rfl, rfl⟩

/-- The first result of portal 1 is its result, it is not started again, and there is no table for want of a
result for portal 0. -/
theorem tangled_lifecycle : (ofMightSee tangledSets false).History tangledCalls tangledEvents tangled ∧
    tangledEvents.count (.started 1) ≤ 1 ∧
    (∃ q, tangled.tryStart 1 = (.error (.fault (.reflowed 1)), q) ∧ q = tangled) ∧
    tangled.result? 1 = some (.ofBools [false, true, false]) ∧
    tangled.results = .error (.portalNotDone 0) ∧
    ∃ g', (Graph.encodeProgressInPlace tangled).run.run ((Graph.ofClusters 3 : Graph Float).noteRows [0, 4]) =
        (.error (.fault (.portalNotDone 0)), g') ∧
      g'.clusters.map (·.rowOffset) = #[some 0, some 4, none] := by
  obtain ⟨-, -, hstarted, hrefused, -, hresult, -, herror, htable⟩ := tangled_history.lifecycle (R := Float)
  have hnone : tangled.results = .error (.portalNotDone 0) :=
    (herror _).mpr ⟨0, by decide, rfl, by decide, by simp⟩
  have hagain : tangled.tryStart 1 = (.error (.fault (.reflowed 1)), tangled) := rfl
  obtain ⟨answer, hoffsets⟩ := (htable _ ((Graph.ofClusters 3).noteRows [0, 4]) hnone).2 _ _ rfl
  exact ⟨tangled_history, hstarted 1 (by decide), ⟨_, hagain, (hrefused 1 (by decide) _ _ hagain).2⟩,
    (hresult 1 (by decide)).trans (by decide), hnone, _, Prod.ext answer rfl,
    hoffsets.trans (by decide +kernel)⟩

end Progress

end Sightline
