import Mathlib.Data.Finset.Card
import Mathlib.Data.List.Induction
import Sightline.Proofs.History

/-! What is counted along a run: how large the result of a portal is, and how many results there are. Both
counts go by what was published last and how often, while the results themselves are those published first,
so they agree as long as no portal is published twice. -/

namespace Sightline.Progress

def doneCount (p : Progress) : Nat := p.entries.toList.countP (·.status = .done)

def Call.published? : Call → Option PortalId
  | .publish id _ _ => some id
  | _ => none

def publications (calls : List Call) : List PortalId := calls.filterMap Call.published?

variable {p q : Progress} {id : PortalId} {e : Entry} {v : BitSet}
variable {calls : List Call} {events : List Event} {call : Call} {event : Event}

theorem publications_snoc :
    publications (calls ++ [call]) = publications calls ++ call.published?.toList := by
  rw [publications, List.filterMap_append, publications]
  cases call <;> rfl

theorem isSome_given? : (call.given? id).isSome ↔ call.published? = some id := by
  cases call with
  | publish i v _ =>
    by_cases h : i = id <;> simp [Call.given?, Call.published?, h]
  | claim => simp [Call.given?, Call.published?]
  | start => simp [Call.given?, Call.published?]

theorem mem_publications : id ∈ publications calls ↔ ∃ call ∈ calls, (call.given? id).isSome := by
  simp only [publications, List.mem_filterMap, isSome_given?]

theorem isSome_firstGiven : (firstGiven id calls).isSome ↔ id ∈ publications calls := by
  rw [firstGiven, List.findSome?_isSome_iff, mem_publications]

theorem isSome_lastGiven : (lastGiven id calls).isSome ↔ id ∈ publications calls := by
  simp only [lastGiven, List.findSome?_isSome_iff, List.mem_reverse, mem_publications]

/-- If a portal is published once at most, then the first result given for it is the last. -/
theorem lastGiven_eq_firstGiven (h : (publications calls).Nodup) :
    lastGiven id calls = firstGiven id calls := by
  induction calls using List.reverseRecOn with
  | nil => rfl
  | append_singleton calls call ih =>
    rw [publications_snoc, List.nodup_append] at h
    obtain ⟨hbefore, -, hnew⟩ := h
    rw [lastGiven_snoc, firstGiven_snoc, ih hbefore]
    cases hg : call.given? id with
    | none => rw [Option.none_or, Option.or_none]
    | some v =>
      have hpub : call.published? = some id := isSome_given?.mp (by rw [hg]; rfl)
      have hnone : firstGiven id calls = none := by
        rw [← Option.not_isSome_iff_eq_none, isSome_firstGiven]
        exact fun hm => hnew id hm id (by rw [hpub]; exact .head _) rfl
      rw [hnone]
      rfl

theorem doneCount_modify {f : Entry → Entry} (he : p.entries[id]? = some e)
    (hq : q.entries = p.entries.modify id f) :
    q.doneCount + (if e.status = .done then 1 else 0) =
      p.doneCount + if (f e).status = .done then 1 else 0 := by
  have he' : p.entries.toList[id]? = some e := by rwa [Array.getElem?_toList]
  obtain ⟨l₁, a, l₂, hl, rfl, hmod⟩ := List.exists_of_modify f (List.getElem?_eq_some_iff.mp he').1
  rw [hl, List.getElem?_append_right (Nat.le_refl _), Nat.sub_self, List.getElem?_cons_zero,
    Option.some.injEq] at he'
  subst he'
  rw [doneCount, hq, Array.toList_modify, hmod, doneCount, hl]
  simp only [List.countP_append, List.countP_cons, decide_eq_true_eq]
  omega

theorem doneCount_setStatus {s t : Status} (hp : p.status? id = some s) (hs : s ≠ .done)
    (ht : t ≠ .done) : (p.setStatus id t).doneCount = p.doneCount := by
  obtain ⟨e, he, rfl⟩ := Option.map_eq_some_iff.mp hp
  have hcount := doneCount_modify (f := fun e => { e with status := t }) he
    (q := p.setStatus id t) rfl
  rwa [if_neg hs, if_neg ht, Nat.add_zero, Nat.add_zero] at hcount

/-- Results are counted each time, portals that are done only once. -/
structure Counted (p : Progress) (calls : List Call) : Prop where
  done : p.done = (publications calls).length
  doneCount : p.doneCount = (publications calls).toFinset.card

theorem Counted.other (h : p.Counted calls) (hcall : call.published? = none) (hdone : q.done = p.done)
    (hcount : q.doneCount = p.doneCount) : q.Counted (calls ++ [call]) := by
  have hsame : publications (calls ++ [call]) = publications calls := by
    rw [publications_snoc, hcall, Option.toList_none, List.append_nil]
  exact ⟨by rw [hdone, hsame, h.done], by rw [hcount, hsame, h.doneCount]⟩

theorem Counted.publish (h : p.Counted calls) {counted : Counters} {n : Nat}
    (hp : (p.publish id v counted).result = .ok (q, n)) (he : p.entries[id]? = some e)
    (hdone : e.status = .done ↔ id ∈ publications calls) :
    q.Counted (calls ++ [.publish id v counted]) := by
  obtain ⟨-, -, -, rfl⟩ := publish_eq_ok.mp hp
  have hmore : publications (calls ++ [.publish id v counted]) = publications calls ++ [id] :=
    publications_snoc
  have hcount := doneCount_modify (f := (·.publish v)) he (q := { p with
    entries := p.entries.modify id (·.publish v), total := p.total + counted, done := p.done + 1 }) rfl
  rw [if_pos (show (e.publish v).status = .done from rfl)] at hcount
  refine ⟨by rw [hmore, List.length_append, ← h.done]; rfl, ?_⟩
  rw [hmore, List.toFinset_append, List.toFinset_cons, List.toFinset_nil, insert_empty_eq,
    Finset.union_comm, ← Finset.insert_eq]
  -- a second result for a portal changes neither how many are done nor the set of those published
  by_cases hs : e.status = .done
  · rw [Finset.insert_eq_of_mem (List.mem_toFinset.mpr (hdone.mp hs)), ← h.doneCount]
    rw [if_pos hs] at hcount
    exact Nat.add_right_cancel hcount
  · rw [Finset.card_insert_of_notMem (mt List.mem_toFinset.mp (mt hdone.mpr hs)), ← h.doneCount]
    rwa [if_neg hs] at hcount

theorem Counted.step (h : p.Counted calls) (hstep : p.Step call event q)
    (hdone : ∀ id e, p.entries[id]? = some e → (e.status = .done ↔ id ∈ publications calls)) :
    q.Counted (calls ++ [call]) := by
  cases hstep with
  | claim id hc =>
    obtain ⟨hw, -⟩ := status?_claim hc
    obtain ⟨-, rfl⟩ := claim?_eq_some.mp hc
    exact h.other rfl rfl (doneCount_setStatus hw (by decide) (by decide))
  | start id hs =>
    obtain ⟨hc, rfl⟩ := tryStart_eq_ok.mp hs
    exact h.other rfl rfl (doneCount_setStatus hc (by decide) (by decide))
  | refuse id hs =>
    obtain ⟨-, -, -, rfl⟩ := tryStart_eq_refused.mp hs
    exact h.other rfl rfl rfl
  | publish id v counted hp =>
    obtain ⟨e, he, -⟩ := publish_eq_ok.mp hp
    exact h.publish hp he (hdone id e he)
  | exhaust => exact h.other rfl rfl rfl

variable {sets : List BitSet} {threaded : Bool}

theorem History.done_iff (h : (ofMightSee sets threaded).History calls events p)
    (he : p.entries[id]? = some e) : e.status = .done ↔ id ∈ publications calls := by
  have hid : id < sets.length := by
    rw [← h.size_entries]
    exact (Array.getElem?_eq_some_iff.mp he).1
  obtain ⟨e', he', ht⟩ := h.exists_entry hid
  cases he.symm.trans he'
  rw [ht.done, isSome_firstGiven]

theorem History.counted (h : (ofMightSee sets threaded).History calls events p) : p.Counted calls := by
  induction h with
  | nil =>
    refine ⟨rfl, ?_⟩
    simp [doneCount, ofMightSee, Entry.ofMightSee, publications]
  | snoc h hstep ih => exact ih.step hstep fun id e he => h.done_iff he

/-- What is told of a portal is the size of the last result that was given for it, while its result is the
first one. -/
theorem History.seenCount?_eq_iff (h : (ofMightSee sets threaded).History calls events p)
    (hid : id < sets.length) : p.seenCount? id = some (((p.result? id).map BitSet.count).getD 0) ↔
      (lastGiven id calls).map BitSet.count = (firstGiven id calls).map BitSet.count := by
  obtain ⟨e, he, ht⟩ := h.exists_entry hid
  rw [seenCount?, result?, he, Option.map_some, Option.bind_some, ht.result?_eq, ht.seenCount,
    Option.some.injEq]
  have hboth : (lastGiven id calls).isSome ↔ (firstGiven id calls).isSome := by
    rw [isSome_lastGiven, isSome_firstGiven]
  cases hlast : lastGiven id calls <;> cases hfirst : firstGiven id calls <;> simp_all

/-- What is told of the portals fits their results as long as the last result that was given for each is as
large as the first. The number that comes with a result counts all results so far; it is the number of
portals that are done just if none of them got a second one. -/
theorem History.accounts_iff (h : (ofMightSee sets threaded).History calls events p) :
    ((∀ id < sets.length, p.seenCount? id = some (((p.result? id).map BitSet.count).getD 0)) ↔
      ∀ id < sets.length,
        (lastGiven id calls).map BitSet.count = (firstGiven id calls).map BitSet.count) ∧
    (∀ id v counted n q, p.Step (.publish id v counted) (.published id v n) q →
      n = (publications calls).length + 1 ∧
      (n = q.doneCount ↔ (publications (calls ++ [.publish id v counted])).Nodup)) ∧
    ((publications calls).Nodup → p.done = p.doneCount ∧
      ∀ id < sets.length, p.seenCount? id = some (((p.result? id).map BitSet.count).getD 0)) := by
  refine ⟨forall₂_congr fun id hid => h.seenCount?_eq_iff hid, fun id v counted n q hstep => ?_,
    fun hnodup => ⟨?_, fun id hid => ?_⟩⟩
  · have hafter := (h.snoc hstep).counted
    cases hstep with
    | publish _ _ _ hp =>
      obtain ⟨-, -, rfl, hq⟩ := publish_eq_ok.mp hp
      have hdone : q.done = p.done + 1 := by rw [hq]
      refine ⟨by rw [h.counted.done], ?_⟩
      rw [← hdone, hafter.done, hafter.doneCount, eq_comm]
      exact Multiset.toFinset_card_eq_card_iff_nodup
  · rw [h.counted.done, h.counted.doneCount, List.toFinset_card_of_nodup hnodup]
  · rw [h.seenCount?_eq_iff hid, lastGiven_eq_firstGiven hnodup]

/-- Portal 1 got two results of different size, so not all that is told fits; another result, for a portal
that has none, is the fourth, but no fourth portal is done. -/
theorem tangled_accounts : (ofMightSee tangledSets false).History tangledCalls tangledEvents tangled ∧
    (¬ ∀ id < tangledSets.length,
      tangled.seenCount? id = some (((tangled.result? id).map BitSet.count).getD 0)) ∧
    ∀ v counted n q, tangled.Step (.publish 0 v counted) (.published 0 v n) q →
      n = 4 ∧ n ≠ q.doneCount := by
  obtain ⟨hsizes, hnumber, -⟩ := tangled_history.accounts_iff
  refine ⟨tangled_history, mt hsizes.mp (by decide), fun v counted n q hstep => ?_⟩
  obtain ⟨hn, hiff⟩ := hnumber 0 v counted n q hstep
  have hpub : publications (tangledCalls ++ [.publish 0 v counted]) = [2, 1, 1, 0] := rfl
  rw [hpub] at hiff
  exact ⟨hn, mt hiff.mp (by decide)⟩

/-- Portal 1 is done with a result of one cluster, but told to see two. Its next result is the fourth, while two
portals are done. -/
theorem tangled_miscounted :
    (ofMightSee tangledSets false).History tangledCalls tangledEvents tangled ∧
    tangled.status? 1 = some .done ∧ (tangled.result? 1).map BitSet.count = some 1 ∧
    tangled.seenCount? 1 = some 2 ∧
    ∃ q, tangled.Step (.publish 1 (.ofBools [true, false, false]) 0)
      (.published 1 (.ofBools [true, false, false]) 4) q ∧ q.doneCount = 2 :=
  ⟨tangled_history, rfl, by decide, by decide, _, .publish 1 _ 0 rfl, by decide⟩

end Sightline.Progress
