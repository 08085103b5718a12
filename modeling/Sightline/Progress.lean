import Sightline.BitSet
import Sightline.Report

/-! The progress of a run. A portal waits until it is claimed, is flowing while its search lasts, and is
done once its result is published. Portals that might see little are claimed first, since their results
help the searches that come after. -/

namespace Sightline

inductive Status where
  | waiting
  | claimed
  | flowing
  | done
deriving DecidableEq, Repr

structure Entry where
  status : Status := .waiting
  mightSee : BitSet
  mightCount : Nat
  /-- The result that was published first. -/
  visible : Option BitSet := none
  /-- The size of the result that was published last. -/
  seenCount : Nat := 0

/-- The clusters that a way through a portal may lead to. -/
inductive Evidence where
  /-- The portal's result. -/
  | final (set : BitSet)
  /-- A bound from above, while there is no result. -/
  | might (set : BitSet)

def Evidence.set : Evidence → BitSet
  | final set => set
  | might set => set

structure Progress where
  entries : Array Entry
  /-- Whether several workers claim portals. -/
  threaded : Bool
  total : Counters := 0
  /-- How many results were published. -/
  done : Nat := 0

namespace Entry

def ofMightSee (set : BitSet) : Entry := { mightSee := set, mightCount := set.count }

def result? (e : Entry) : Option BitSet := if e.status = .done then e.visible else none

def evidence (e : Entry) : Evidence :=
  match e.result? with
  | some set => .final set
  | none => .might e.mightSee

/-- Moves from one status to another, and tells whether it did. An entry that is elsewhere stays there. -/
def advance (e : Entry) (current next : Status) : Bool × Entry :=
  if e.status = current then (true, { e with status := next }) else (false, e)

/-- Takes in a result. One that was published before stays, but the size is the new one's. -/
def publish (e : Entry) (visible : BitSet) : Entry :=
  { e with status := .done, visible := e.visible.or (some visible), seenCount := visible.count }

end Entry

namespace Progress

def ofMightSee (sets : List BitSet) (threaded : Bool) : Progress :=
  ⟨(sets.map Entry.ofMightSee).toArray, threaded, 0, 0⟩

def waiting (p : Progress) : Nat := p.entries.countP (·.status = .waiting)

/-- The better of the best claim so far and an entry: a waiting one, and of those the first with the
smallest count. -/
def prefer (best : Option (Nat × PortalId)) (entry : Entry × PortalId) : Option (Nat × PortalId) :=
  if entry.1.status = .waiting ∧ best.all (entry.1.mightCount < ·.1) then
    some (entry.1.mightCount, entry.2)
  else best

def cheapest? (p : Progress) : Option PortalId :=
  (p.entries.toList.zipIdx.foldl prefer none).map (·.2)

def setStatus (p : Progress) (id : PortalId) (status : Status) : Progress :=
  { p with entries := p.entries.modify id fun e => { e with status } }

def claim? (p : Progress) : Option (PortalId × Progress) :=
  p.cheapest?.map fun id => (id, p.setStatus id .claimed)

/-- Tries to start the flow of a portal, which must be claimed. The entry is written back either way. -/
def tryStart (p : Progress) (id : PortalId) : Except Failure Unit × Progress :=
  match p.entries[id]? with
  | none => (.error .outOfBounds, p)
  | some e =>
    let (moved, e) := e.advance .claimed .flowing
    (if moved then .ok () else .error (.fault (.reflowed id)),
      { p with entries := p.entries.setIfInBounds id e })

def start (p : Progress) (id : PortalId) : Except Failure Progress :=
  (p.tryStart id).1.map fun _ => (p.tryStart id).2

def publish (p : Progress) (id : PortalId) (visible : BitSet) (counted : Counters) :
    Report (Progress × Nat) :=
  match p.entries[id]? with
  | none => .fail .outOfBounds
  | some e => do
    .tellIf e.visible.isSome (.publishedTwice id)
    let next := { p with
      entries := p.entries.modify id (·.publish visible)
      total := p.total + counted
      done := p.done + 1 }
    pure (next, next.done)

def evidence? (p : Progress) (id : PortalId) : Option Evidence := (p.entries[id]?).map (·.evidence)

def results (p : Progress) : Except Fault (List BitSet) :=
  p.entries.toList.zipIdx.mapM fun (e, id) =>
    match e.result? with
    | some set => .ok set
    | none => .error (.portalNotDone id)

theorem countP_modify_le {l : List Entry} {f : Entry → Entry} (hf : ∀ e, (f e).status ≠ .waiting)
    (i : Nat) :
    (l.modify i f).countP (·.status = .waiting) ≤ l.countP (·.status = .waiting) := by
  induction l generalizing i with
  | nil => simp
  | cons e l ih =>
    cases i with
    | zero => simp [List.countP_cons, hf]
    | succ i => simpa [List.countP_cons] using ih i

theorem countP_modify_add_one {l : List Entry} {f : Entry → Entry}
    (hf : ∀ e, (f e).status ≠ .waiting) {i : Nat} {e : Entry} (hi : l[i]? = some e)
    (he : e.status = .waiting) :
    (l.modify i f).countP (·.status = .waiting) + 1 = l.countP (·.status = .waiting) := by
  induction l generalizing i with
  | nil => simp at hi
  | cons a l ih =>
    cases i with
    | zero =>
      simp only [List.getElem?_cons_zero, Option.some.injEq] at hi
      subst hi
      simp [hf, he]
    | succ i =>
      have := ih (by simpa using hi)
      simp only [List.modify_succ_cons, List.countP_cons]
      omega

/-- The entry that claims go to is one of those looked at, and it waits. -/
theorem foldl_prefer {l : List (Entry × PortalId)} {best : Option (Nat × PortalId)} {m : Nat}
    {id : PortalId} (h : l.foldl prefer best = some (m, id)) :
    best = some (m, id) ∨ ∃ e, (e, id) ∈ l ∧ e.status = .waiting ∧ e.mightCount = m := by
  induction l generalizing best with
  | nil => exact .inl h
  | cons a l ih =>
    rcases ih h with h | ⟨e, he, hs⟩
    · unfold prefer at h
      split at h
      · next ha =>
        simp only [Option.some.injEq, Prod.mk.injEq] at h
        exact .inr ⟨a.1, by simp [← h.2], ha.1, h.1⟩
      · exact .inl h
    · exact .inr ⟨e, List.mem_cons_of_mem _ he, hs⟩

theorem cheapest?_waiting {p : Progress} {id : PortalId} (h : p.cheapest? = some id) :
    ∃ e, p.entries[id]? = some e ∧ e.status = .waiting := by
  obtain ⟨⟨m, _⟩, hb, rfl⟩ := Option.map_eq_some_iff.mp h
  rcases foldl_prefer hb with h | ⟨e, he, hs, _⟩
  · simp at h
  · exact ⟨e, by simpa [List.mem_zipIdx_iff_getElem?] using he, hs⟩

theorem waiting_setStatus_le {p : Progress} {id : PortalId} {s : Status} (hs : s ≠ .waiting) :
    (p.setStatus id s).waiting ≤ p.waiting := by
  simpa [waiting, setStatus, ← Array.countP_toList] using
    countP_modify_le (f := fun e => { e with status := s }) (fun _ => hs) id

theorem waiting_claim {p q : Progress} {id : PortalId} (h : p.claim? = some (id, q)) :
    q.waiting + 1 = p.waiting := by
  obtain ⟨_, hc, h⟩ := Option.map_eq_some_iff.mp h
  cases h
  obtain ⟨e, he, hs⟩ := cheapest?_waiting hc
  simpa [waiting, setStatus, ← Array.countP_toList] using
    countP_modify_add_one (f := fun e => { e with status := .claimed }) (by simp) (by simpa using he) hs

theorem setIfInBounds_eq_modify {entries : Array Entry} {id : PortalId} {e : Entry}
    (he : entries[id]? = some e) (f : Entry → Entry) :
    entries.setIfInBounds id (f e) = entries.modify id f := by
  refine Array.ext_getElem? fun j => ?_
  rw [Array.getElem?_setIfInBounds, Array.getElem?_modify]
  split
  · next hj => rw [if_pos (Array.getElem?_eq_some_iff.mp he).1, ← hj, he, Option.map_some]
  · rfl

/-- A portal that is claimed flows, and any other is refused and left alone. -/
theorem tryStart_eq {p : Progress} {id : PortalId} {e : Entry} (he : p.entries[id]? = some e) :
    p.tryStart id = if e.status = .claimed then (.ok (), p.setStatus id .flowing)
      else (.error (.fault (.reflowed id)), p) := by
  rw [tryStart, he]
  simp only [Entry.advance]
  split
  · rw [setStatus, ← setIfInBounds_eq_modify he]
    rfl
  · obtain ⟨hid, rfl⟩ := Array.getElem?_eq_some_iff.mp he
    rw [Array.setIfInBounds_def, dif_pos hid, Array.set_getElem_self]
    rfl

theorem waiting_start {p q : Progress} {id : PortalId} (h : p.start id = .ok q) :
    q.waiting ≤ p.waiting := by
  rw [start] at h
  cases he : p.entries[id]? with
  | none =>
    rw [tryStart, he] at h
    cases h
  | some e =>
    rw [tryStart_eq he] at h
    split at h <;> cases h
    exact waiting_setStatus_le (by simp)

theorem waiting_publish {p q : Progress} {id : PortalId} {visible : BitSet} {counted : Counters}
    {n : Nat} (h : (p.publish id visible counted).result = .ok (q, n)) : q.waiting ≤ p.waiting := by
  unfold publish at h
  split at h
  · simp at h
  · simp only [Report.result_bind, Report.result_tellIf] at h
    cases h
    simpa [waiting, ← Array.countP_toList] using
      countP_modify_le (f := (·.publish visible)) (by simp [Entry.publish]) id

end Progress

end Sightline
