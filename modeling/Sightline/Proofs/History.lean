import Sightline.Proofs.Lifecycle

/-! Histories of a run. Claims, starts and results may come in any order and for any portal, however little
sense they make together. What a portal's entry holds is told by the calls that were about the portal. -/

namespace Sightline

/-- How far a portal has come: it waits, is claimed, flows, is done. -/
def Status.place : Status → Nat
  | .waiting => 0
  | .claimed => 1
  | .flowing => 2
  | .done => 3

theorem Status.place_le_done (s : Status) : s.place ≤ Status.done.place := by cases s <;> decide

namespace Progress

inductive Call where
  | claim
  | start (id : PortalId)
  | publish (id : PortalId) (visible : BitSet) (counted : Counters)

inductive Event where
  | claimed (id : PortalId)
  /-- No portal was left to claim. -/
  | exhausted
  | started (id : PortalId)
  | refused (id : PortalId) (fault : Fault)
  /-- A result was taken in, and the caller was told that there are `done` now. -/
  | published (id : PortalId) (visible : BitSet) (done : Nat)
deriving DecidableEq

def Call.Valid (count : Nat) : Call → Prop
  | .claim => True
  | .start id => id < count
  | .publish id _ _ => id < count

def Call.given? (id : PortalId) : Call → Option BitSet
  | .publish i visible _ => if i = id then some visible else none
  | _ => none

def firstGiven (id : PortalId) (calls : List Call) : Option BitSet := calls.findSome? (·.given? id)

def lastGiven (id : PortalId) (calls : List Call) : Option BitSet :=
  calls.reverse.findSome? (·.given? id)

/-- One call, what comes of it and what it leaves. -/
inductive Step (p : Progress) : Call → Event → Progress → Prop
  | claim (id : PortalId) {q : Progress} : p.claim? = some (id, q) → Step p .claim (.claimed id) q
  | exhaust : p.claim? = none → Step p .claim .exhausted p
  | start (id : PortalId) {q : Progress} : p.tryStart id = (.ok (), q) →
      Step p (.start id) (.started id) q
  | refuse (id : PortalId) {fault : Fault} {q : Progress} :
      p.tryStart id = (.error (.fault fault), q) → Step p (.start id) (.refused id fault) q
  | publish (id : PortalId) (v : BitSet) (counted : Counters) {q : Progress} {n : Nat} :
      (p.publish id v counted).result = .ok (q, n) →
      Step p (.publish id v counted) (.published id v n) q

/-- Any calls one after the other, with what came of each. -/
inductive History (p : Progress) : List Call → List Event → Progress → Prop
  | nil : History p [] [] p
  | snoc {calls : List Call} {events : List Event} {call : Call} {event : Event} {q r : Progress} :
      History p calls events q → q.Step call event r →
      History p (calls ++ [call]) (events ++ [event]) r

variable {p q : Progress} {id i : PortalId} {e : Entry} {set : BitSet} {s : Status}
variable {calls : List Call} {events : List Event} {call : Call} {event : Event}

@[simp] theorem firstGiven_snoc :
    firstGiven id (calls ++ [call]) = (firstGiven id calls).or (call.given? id) := by
  simp [firstGiven, List.findSome?_append]

@[simp] theorem lastGiven_snoc :
    lastGiven id (calls ++ [call]) = (call.given? id).or (lastGiven id calls) := by
  simp only [lastGiven, List.reverse_append, List.reverse_singleton, List.singleton_append,
    List.findSome?_cons]
  cases call.given? id <;> rfl

theorem tryStart_eq_ok :
    p.tryStart id = (.ok (), q) ↔ p.status? id = some .claimed ∧ q = p.setStatus id .flowing := by
  rw [status?]
  cases he : p.entries[id]? with
  | none => simp [tryStart, he]
  | some e =>
    rw [tryStart_eq he, Option.map_some]
    split
    · next hs => simp [hs, eq_comm]
    · next hs => simp [hs]

/-- A portal that is not claimed is refused, and then everything is as it was. -/
theorem tryStart_eq_refused {fault : Fault} : p.tryStart id = (.error (.fault fault), q) ↔
    id < p.entries.size ∧ p.status? id ≠ some .claimed ∧ fault = .reflowed id ∧ q = p := by
  rw [status?]
  by_cases hid : id < p.entries.size
  · have he : p.entries[id]? = some p.entries[id] := Array.getElem?_eq_getElem hid
    rw [tryStart_eq he, he, Option.map_some]
    split
    · next hs => simp [hs]
    · next hs =>
      rw [Prod.mk.injEq, Except.error.injEq, Failure.fault.injEq, eq_comm, eq_comm (a := p)]
      simp [hs, hid]
  · simp [tryStart, hid]

theorem exists_step (h : call.Valid p.entries.size) : ∃ event q, p.Step call event q := by
  cases call with
  | claim =>
    cases hc : p.claim? with
    | none => exact ⟨_, _, .exhaust hc⟩
    | some claimed => exact ⟨_, _, .claim _ hc⟩
  | start id =>
    by_cases hs : p.status? id = some .claimed
    · exact ⟨_, _, .start id (tryStart_eq_ok.mpr ⟨hs, rfl⟩)⟩
    · exact ⟨_, _, .refuse id (tryStart_eq_refused.mpr ⟨h, hs, rfl, rfl⟩)⟩
  | publish id v counted =>
    have hs : p.status? id = some p.entries[id].status := by
      rw [status?, Array.getElem?_eq_getElem h, Option.map_some]
    obtain ⟨q, n, hp⟩ := exists_publish hs v counted
    exact ⟨_, _, .publish id v counted hp⟩

theorem Step.size (h : p.Step call event q) : q.entries.size = p.entries.size := by
  cases h with
  | claim _ hc =>
    obtain ⟨-, rfl⟩ := claim?_eq_some.mp hc
    exact Array.size_modify
  | start _ hs =>
    obtain ⟨-, rfl⟩ := tryStart_eq_ok.mp hs
    exact Array.size_modify
  | refuse _ hs =>
    obtain ⟨-, -, -, rfl⟩ := tryStart_eq_refused.mp hs
    rfl
  | publish _ _ _ hp =>
    obtain ⟨-, -, -, rfl⟩ := publish_eq_ok.mp hp
    exact Array.size_modify
  | exhaust => rfl

/-- If one portal moves on and the others stay, then none falls back. -/
theorem exists_moved {j : PortalId} {u : Status}
    (hq : ∀ i, q.status? i = (p.status? i).map fun t => if j = i then u else t)
    (hj : ∀ t, p.status? j = some t → t.place ≤ u.place) (hs : p.status? id = some s) :
    ∃ t, q.status? id = some t ∧ s.place ≤ t.place := by
  refine ⟨if j = id then u else s, by rw [hq, hs, Option.map_some], ?_⟩
  split
  · next hi => exact hj s (hi ▸ hs)
  · exact Nat.le_refl _

theorem Step.status_le (h : p.Step call event q) (hs : p.status? id = some s) :
    ∃ t, q.status? id = some t ∧ s.place ≤ t.place := by
  cases h with
  | claim _ hc =>
    obtain ⟨hw, -⟩ := status?_claim hc
    obtain ⟨-, rfl⟩ := claim?_eq_some.mp hc
    refine exists_moved (fun i => status?_setStatus ..) (fun t ht => ?_) hs
    cases hw.symm.trans ht
    decide
  | start _ hok =>
    obtain ⟨hc, rfl⟩ := tryStart_eq_ok.mp hok
    refine exists_moved (fun i => status?_setStatus ..) (fun t ht => ?_) hs
    cases hc.symm.trans ht
    decide
  | refuse _ hrefused =>
    obtain ⟨-, -, -, rfl⟩ := tryStart_eq_refused.mp hrefused
    exact ⟨s, hs, Nat.le_refl _⟩
  | publish _ _ _ hp => exact exists_moved (status?_publish hp) (fun t _ => t.place_le_done) hs
  | exhaust => exact ⟨s, hs, Nat.le_refl _⟩

/-- No portal ever falls back. -/
theorem History.status_le (h : p.History calls events q) (hs : p.status? id = some s) :
    ∃ t, q.status? id = some t ∧ s.place ≤ t.place := by
  induction h with
  | nil => exact ⟨s, hs, Nat.le_refl _⟩
  | snoc _ hstep ih =>
    obtain ⟨t, ht, hle⟩ := ih
    obtain ⟨u, hu, hle'⟩ := hstep.status_le ht
    exact ⟨u, hu, hle.trans hle'⟩

theorem History.size (h : p.History calls events q) : q.entries.size = p.entries.size := by
  induction h with
  | nil => rfl
  | snoc _ hstep ih => rw [hstep.size, ih]

end Progress

/-- A portal's entry tells what was called for the portal so far, starting with its might-see set. -/
structure Entry.Tells (e : Entry) (id : PortalId) (set : BitSet) (calls : List Progress.Call)
    (events : List Progress.Event) : Prop where
  mightSee : e.mightSee = set
  mightCount : e.mightCount = set.count
  visible : e.visible = Progress.firstGiven id calls
  seenCount : e.seenCount = ((Progress.lastGiven id calls).map BitSet.count).getD 0
  done : e.status = .done ↔ (Progress.firstGiven id calls).isSome
  waiting : e.status = .waiting ↔ .claimed id ∉ events ∧ Progress.firstGiven id calls = none
  started : .started id ∈ events → Status.flowing.place ≤ e.status.place
  started_once : events.count (.started id) ≤ 1

namespace Progress

theorem tells_ofMightSee (id : PortalId) (set : BitSet) : (Entry.ofMightSee set).Tells id set [] [] := by
  refine ⟨rfl, rfl, rfl, rfl, ?_, ?_, ?_, ?_⟩ <;> simp [Entry.ofMightSee, firstGiven]

end Progress

namespace Entry

open Progress

variable {e : Entry} {id i : PortalId} {set v : BitSet} {counted : Counters} {n : Nat}
variable {calls : List Call} {events : List Event} {call : Call} {event : Event}

theorem Tells.result?_eq (h : e.Tells id set calls events) : e.result? = firstGiven id calls := by
  rw [Entry.result?]
  split
  · exact h.visible
  · next hs =>
    rw [h.done, Option.not_isSome_iff_eq_none] at hs
    exact hs.symm

theorem Tells.other (h : e.Tells id set calls events) (hcall : call.given? id = none)
    (hclaim : event ≠ .claimed id) (hstart : event ≠ .started id) :
    e.Tells id set (calls ++ [call]) (events ++ [event]) := by
  have hlast : [event].count (.started id) = 0 := by simp [hstart]
  refine ⟨h.mightSee, h.mightCount, ?_, ?_, ?_, ?_, fun hm => h.started ?_, ?_⟩
  · rw [firstGiven_snoc, hcall, Option.or_none, h.visible]
  · rw [lastGiven_snoc, hcall, Option.none_or, h.seenCount]
  · rw [firstGiven_snoc, hcall, Option.or_none, h.done]
  · rw [firstGiven_snoc, hcall, Option.or_none, h.waiting]
    simp [Ne.symm hclaim]
  · simpa [Ne.symm hstart] using hm
  · rw [List.count_append, hlast]
    exact h.started_once

theorem Tells.not_started (h : e.Tells id set calls events)
    (hs : e.status.place < Status.flowing.place) : .started id ∉ events :=
  fun hm => Nat.not_le.mpr hs (h.started hm)

/-- An entry moves on without a result when its portal is claimed, and flows when it is started. -/
theorem Tells.move (h : e.Tells id set calls events) {s : Status} (hs : s ≠ .waiting ∧ s ≠ .done)
    (hopen : firstGiven id calls = none) (hcall : call.given? id = none) (hnot : .started id ∉ events)
    (hclaimed : .claimed id ∈ events ++ [event]) (hstarted : event = .started id → s = .flowing) :
    Tells { e with status := s } id set (calls ++ [call]) (events ++ [event]) := by
  have hfirst : firstGiven id (calls ++ [call]) = none := by rw [firstGiven_snoc, hopen, hcall]; rfl
  refine ⟨h.mightSee, h.mightCount, ?_, ?_, ?_, ?_, ?_, ?_⟩
  · rw [hfirst, ← hopen, h.visible]
  · rw [lastGiven_snoc, hcall, Option.none_or]
    exact h.seenCount
  · simp [hfirst, hs.2]
  · simp [hclaimed, hs.1]
  · intro hm
    rcases List.mem_append.mp hm with hm | hm
    · exact absurd hm hnot
    · rw [hstarted (List.mem_singleton.mp hm).symm]
  · rw [List.count_append, List.count_eq_zero_of_not_mem hnot, Nat.zero_add]
    exact List.count_le_length

theorem Tells.claim (h : e.Tells id set calls events) (hw : e.status = .waiting) :
    Tells { e with status := .claimed } id set (calls ++ [Call.claim])
      (events ++ [Event.claimed id]) := by
  obtain ⟨-, hnone⟩ := h.waiting.mp hw
  exact h.move (by decide) hnone rfl (h.not_started (by rw [hw]; decide)) (by simp) (by simp)

theorem Tells.start (h : e.Tells id set calls events) (hc : e.status = .claimed) :
    Tells { e with status := .flowing } id set (calls ++ [Call.start id])
      (events ++ [Event.started id]) := by
  have hnone : firstGiven id calls = none := by
    have hdone := h.done
    rw [hc] at hdone
    simpa using hdone
  have hclaimed : .claimed id ∈ events := by
    have hwaiting := h.waiting
    rw [hc] at hwaiting
    simpa [hnone] using hwaiting
  exact h.move (by decide) hnone rfl (h.not_started (by rw [hc]; decide))
    (List.mem_append_left _ hclaimed) fun _ => rfl

theorem Tells.publish (h : e.Tells id set calls events) :
    (e.publish v).Tells id set (calls ++ [Call.publish id v counted])
      (events ++ [Event.published id v n]) := by
  have hgiven : (Call.publish id v counted).given? id = some v := if_pos rfl
  refine ⟨h.mightSee, h.mightCount, ?_, ?_, ?_, ?_, fun _ => ?_, ?_⟩
  · rw [firstGiven_snoc, hgiven, ← h.visible]
    rfl
  · rw [lastGiven_snoc, hgiven]
    rfl
  · simp [Entry.publish, hgiven]
  · simp [Entry.publish, hgiven]
  · exact Status.flowing.place_le_done
  · simpa using h.started_once

end Entry

namespace Progress

variable {p q : Progress} {id : PortalId} {e : Entry} {set : BitSet}
variable {calls : List Call} {events : List Event} {call : Call} {event : Event}

theorem Step.tells (h : p.Step call event q) (he : p.entries[id]? = some e)
    (ht : e.Tells id set calls events) :
    ∃ e', q.entries[id]? = some e' ∧ e'.Tells id set (calls ++ [call]) (events ++ [event]) := by
  cases h with
  | claim i hc =>
    obtain ⟨hw, -⟩ := status?_claim hc
    obtain ⟨-, rfl⟩ := claim?_eq_some.mp hc
    refine ⟨_, by rw [getElem?_setStatus, he, Option.map_some], ?_⟩
    split
    · next hi =>
      subst hi
      exact ht.claim (by simpa [status?, he] using hw)
    · next hi => exact ht.other rfl (by simpa using hi) (by simp)
  | start i hs =>
    obtain ⟨hc, rfl⟩ := tryStart_eq_ok.mp hs
    refine ⟨_, by rw [getElem?_setStatus, he, Option.map_some], ?_⟩
    split
    · next hi =>
      subst hi
      exact ht.start (by simpa [status?, he] using hc)
    · next hi => exact ht.other rfl (by simp) (by simpa using hi)
  | publish i _ _ hp =>
    refine ⟨_, by rw [getElem?_publish hp, he, Option.map_some], ?_⟩
    split
    · next hi =>
      subst hi
      exact ht.publish
    · next hi => exact ht.other (if_neg hi) (by simp) (by simp)
  | exhaust => exact ⟨e, he, ht.other rfl (by simp) (by simp)⟩
  | refuse _ hs =>
    obtain ⟨-, -, -, rfl⟩ := tryStart_eq_refused.mp hs
    exact ⟨e, he, ht.other rfl (by simp) (by simp)⟩

variable {sets : List BitSet} {threaded : Bool}

theorem History.size_entries (h : (ofMightSee sets threaded).History calls events p) :
    p.entries.size = sets.length := by
  rw [h.size, ofMightSee, List.size_toArray, List.length_map]

theorem History.exists_entry (h : (ofMightSee sets threaded).History calls events p)
    (hid : id < sets.length) : ∃ e, p.entries[id]? = some e ∧ e.Tells id sets[id] calls events := by
  induction h with
  | nil =>
    refine ⟨_, ?_, tells_ofMightSee id sets[id]⟩
    rw [getElem?_ofMightSee, List.getElem?_eq_getElem hid, Option.map_some]
  | snoc _ hstep ih =>
    obtain ⟨e, he, ht⟩ := ih
    exact hstep.tells he ht

/-- What portals might see is fixed from the start, and so is how much that is. -/
theorem History.might_eq (h : (ofMightSee sets threaded).History calls events p) (id : PortalId) :
    p.mightSee? id = sets[id]? ∧ p.mightCount? id = (sets[id]?).map BitSet.count := by
  rw [mightSee?, mightCount?]
  by_cases hid : id < sets.length
  · obtain ⟨e, he, ht⟩ := h.exists_entry hid
    rw [he, List.getElem?_eq_getElem hid, Option.map_some, Option.map_some, Option.map_some,
      ht.mightSee, ht.mightCount]
    exact ⟨rfl, rfl⟩
  · have hid' := Nat.le_of_not_lt hid
    rw [Array.getElem?_eq_none (h.size_entries ▸ hid'), List.getElem?_eq_none hid']
    exact ⟨rfl, rfl⟩

/-- Three portals. The cheapest is claimed, flowed and given two results, the next has a result without a
claim, and the third is claimed at last; flows are started out of turn. -/
def tangledSets : List BitSet :=
  [.ofBools [true, true, true], .ofBools [false, true, false], .ofBools [true, false, true]]

def tangledCalls : List Call :=
  [.start 0, .claim, .start 1, .publish 2 (.ofBools [true, false, false]) 0,
    .publish 1 (.ofBools [false, true, false]) 0, .publish 1 (.ofBools [true, true, false]) 0,
    .start 1, .claim, .claim]

def tangledEvents : List Event :=
  [.refused 0 (.reflowed 0), .claimed 1, .started 1, .published 2 (.ofBools [true, false, false]) 1,
    .published 1 (.ofBools [false, true, false]) 2, .published 1 (.ofBools [true, true, false]) 3,
    .refused 1 (.reflowed 1), .claimed 0, .exhausted]

def tangled : Progress :=
  let first := ((ofMightSee tangledSets false).setStatus 1 .claimed).setStatus 1 .flowing
  let entries := ((first.entries.modify 2 (·.publish (.ofBools [true, false, false]))).modify 1
    (·.publish (.ofBools [false, true, false]))).modify 1 (·.publish (.ofBools [true, true, false]))
  { first with entries, done := 3 }.setStatus 0 .claimed

theorem tangled_history :
    (ofMightSee tangledSets false).History tangledCalls tangledEvents tangled := by
  have h : (ofMightSee tangledSets false).History [] [] _ := .nil
  have h := h.snoc (.refuse 0 (tryStart_eq_refused.mpr ⟨by decide, by decide, rfl, rfl⟩))
  have h := h.snoc (.claim 1 (claim?_eq_some.mpr ⟨by decide +kernel, rfl⟩))
  have h := h.snoc (.start 1 (tryStart_eq_ok.mpr ⟨by decide, rfl⟩))
  have h := h.snoc (.publish 2 (.ofBools [true, false, false]) 0 rfl)
  have h := h.snoc (.publish 1 (.ofBools [false, true, false]) 0 rfl)
  have h := h.snoc (.publish 1 (.ofBools [true, true, false]) 0 rfl)
  have h := h.snoc (.refuse 1 (tryStart_eq_refused.mpr ⟨by decide, by decide, rfl, rfl⟩))
  have h := h.snoc (.claim 0 (claim?_eq_some.mpr ⟨by decide +kernel, rfl⟩))
  have h := h.snoc (.exhaust rfl)
  exact h

end Progress

end Sightline
