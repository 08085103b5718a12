import Mathlib.Data.Set.Basic
import Sightline.Progress

/-! What the steps of a run do to the entries of its portals. Claiming and starting touch the status alone,
and nothing that is judged by; publishing touches one entry. -/

namespace Sightline.Progress

def status? (p : Progress) (id : PortalId) : Option Status := (p.entries[id]?).map (·.status)

def mightSee? (p : Progress) (id : PortalId) : Option BitSet := (p.entries[id]?).map (·.mightSee)

def mightCount? (p : Progress) (id : PortalId) : Option Nat := (p.entries[id]?).map (·.mightCount)

def seenCount? (p : Progress) (id : PortalId) : Option Nat := (p.entries[id]?).map (·.seenCount)

def result? (p : Progress) (id : PortalId) : Option BitSet := (p.entries[id]?).bind Entry.result?

/-- What a chain from the portal may reach. -/
def bound (p : Progress) (base : PortalId) : Set ClusterId :=
  {c | ∃ set, p.mightSee? base = some set ∧ c ∈ set}

/-- What is tested when a chain is to go through the portal. -/
def test (p : Progress) (id : PortalId) : Set ClusterId :=
  {c | ∃ e, p.evidence? id = some e ∧ c ∈ e.set}

variable {p q : Progress} {id i : PortalId} {e : Entry} {v : BitSet} {counted : Counters} {n : Nat}

theorem prefer_isSome {best : Option (Nat × PortalId)} {x : Entry × PortalId}
    (h : best.isSome ∨ x.1.status = .waiting) : (prefer best x).isSome := by
  unfold prefer
  split
  · rfl
  · next hx =>
    cases best with
    | some b => rfl
    | none => simp_all

theorem foldl_prefer_isSome {l : List (Entry × PortalId)} {best : Option (Nat × PortalId)}
    (h : best.isSome ∨ ∃ x ∈ l, x.1.status = .waiting) : (l.foldl prefer best).isSome := by
  induction l generalizing best with
  | nil => simpa using h
  | cons x l ih =>
    refine ih ?_
    rcases h with h | ⟨y, hy, hs⟩
    · exact .inl (prefer_isSome (.inl h))
    · rcases List.mem_cons.mp hy with rfl | hy
      · exact .inl (prefer_isSome (.inr hs))
      · exact .inr ⟨y, hy, hs⟩

/-- Claims go on as long as a portal waits. -/
theorem claim?_eq_none (h : p.claim? = none) (i : PortalId) : p.status? i ≠ some .waiting := by
  intro hi
  obtain ⟨e, he, hs⟩ := Option.map_eq_some_iff.mp hi
  rw [claim?, cheapest?, Option.map_map, Option.map_eq_none_iff] at h
  have hmem : (e, i) ∈ p.entries.toList.zipIdx := by simpa [List.mem_zipIdx_iff_getElem?] using he
  have hsome : (p.entries.toList.zipIdx.foldl prefer none).isSome :=
    foldl_prefer_isSome (.inr ⟨(e, i), hmem, hs⟩)
  rw [h] at hsome
  cases hsome

theorem claim?_eq_some : p.claim? = some (id, q) ↔ p.cheapest? = some id ∧ q = p.setStatus id .claimed := by
  rw [claim?, Option.map_eq_some_iff]
  constructor
  · rintro ⟨_, h, he⟩
    cases he
    exact ⟨h, rfl⟩
  · rintro ⟨h, rfl⟩
    exact ⟨id, h, rfl⟩

theorem start_eq_ok :
    p.start id = .ok q ↔ p.status? id = some .claimed ∧ q = p.setStatus id .flowing := by
  rw [start, status?]
  cases he : p.entries[id]? with
  | none => simp [tryStart, he, Except.map]
  | some e =>
    rw [tryStart_eq he, Option.map_some]
    split
    · next hs => simp [hs, Except.map, eq_comm]
    · next hs => simp [hs, Except.map]

theorem publish_eq_ok : (p.publish id v counted).result = .ok (q, n) ↔
    ∃ e, p.entries[id]? = some e ∧ n = p.done + 1 ∧
      q = { p with
        entries := p.entries.modify id (·.publish v), total := p.total + counted, done := p.done + 1 } := by
  unfold publish
  split
  · next h => simp [h]
  · next e h =>
    simp only [h, Report.result_bind, Report.result_tellIf, Option.some.injEq, exists_eq_left']
    constructor
    · intro h
      cases h
      exact ⟨rfl, rfl⟩
    · rintro ⟨rfl, rfl⟩
      rfl

theorem getElem?_setStatus (p : Progress) (id i : PortalId) (s : Status) :
    (p.setStatus id s).entries[i]? =
      (p.entries[i]?).map fun e => if id = i then { e with status := s } else e := by
  rw [setStatus, Array.getElem?_modify]
  split <;> simp

theorem getElem?_publish (h : (p.publish id v counted).result = .ok (q, n)) (i : PortalId) :
    q.entries[i]? = (p.entries[i]?).map fun e => if id = i then e.publish v else e := by
  obtain ⟨e, he, -, rfl⟩ := publish_eq_ok.mp h
  rw [Array.getElem?_modify]
  split <;> simp

theorem mightSee?_setStatus (p : Progress) (id i : PortalId) (s : Status) :
    (p.setStatus id s).mightSee? i = p.mightSee? i := by
  rw [mightSee?, getElem?_setStatus, mightSee?, Option.map_map]
  congr 1
  funext e
  dsimp only [Function.comp_apply]
  split <;> rfl

theorem mightSee?_publish (h : (p.publish id v counted).result = .ok (q, n)) (i : PortalId) :
    q.mightSee? i = p.mightSee? i := by
  rw [mightSee?, getElem?_publish h, mightSee?, Option.map_map]
  congr 1
  funext e
  dsimp only [Function.comp_apply]
  split <;> rfl

theorem status?_setStatus (p : Progress) (id i : PortalId) (s : Status) :
    (p.setStatus id s).status? i = (p.status? i).map fun t => if id = i then s else t := by
  rw [status?, getElem?_setStatus, status?, Option.map_map, Option.map_map]
  congr 1
  funext e
  dsimp only [Function.comp_apply]
  split <;> rfl

theorem status?_setStatus_of_ne (p : Progress) (h : i ≠ id) (s : Status) :
    (p.setStatus id s).status? i = p.status? i := by
  rw [status?_setStatus]
  simp [h.symm]

theorem status?_claim (h : p.claim? = some (id, q)) :
    p.status? id = some .waiting ∧ q.status? id = some .claimed := by
  obtain ⟨hc, rfl⟩ := claim?_eq_some.mp h
  obtain ⟨e, he, hs⟩ := cheapest?_waiting hc
  have hw : p.status? id = some .waiting := by rw [status?, he, Option.map_some, hs]
  refine ⟨hw, ?_⟩
  rw [status?_setStatus, hw, Option.map_some, if_pos rfl]

theorem exists_publish {s : Status} (h : p.status? id = some s) (v : BitSet) (counted : Counters) :
    ∃ q n, (p.publish id v counted).result = .ok (q, n) := by
  obtain ⟨e, he, -⟩ := Option.map_eq_some_iff.mp h
  exact ⟨_, _, publish_eq_ok.mpr ⟨e, he, rfl, rfl⟩⟩

theorem getElem?_ofMightSee (sets : List BitSet) (threaded : Bool) (i : PortalId) :
    (ofMightSee sets threaded).entries[i]? = (sets[i]?).map .ofMightSee := by
  rw [ofMightSee, List.getElem?_toArray, List.getElem?_map]

theorem status?_ofMightSee (sets : List BitSet) (threaded : Bool) (i : PortalId) :
    (ofMightSee sets threaded).status? i = (sets[i]?).map fun _ => .waiting := by
  rw [status?, getElem?_ofMightSee, Option.map_map]
  rfl

theorem status?_publish (h : (p.publish id v counted).result = .ok (q, n)) (i : PortalId) :
    q.status? i = (p.status? i).map fun t => if id = i then .done else t := by
  rw [status?, getElem?_publish h, status?, Option.map_map, Option.map_map]
  congr 1
  funext e
  dsimp only [Function.comp_apply]
  split <;> rfl

/-- A portal that is claimed, started and published at a stretch is done, and no other has moved. -/
theorem status?_turn {claimed : Progress} (hc : p.claim? = some (id, claimed))
    (hp : ((claimed.setStatus id .flowing).publish id v counted).result = .ok (q, n)) (i : PortalId) :
    q.status? i = (p.status? i).map fun t => if id = i then .done else t := by
  obtain ⟨-, rfl⟩ := claim?_eq_some.mp hc
  rw [status?_publish hp, status?_setStatus, status?_setStatus, Option.map_map, Option.map_map]
  congr 1
  funext t
  by_cases hi : id = i <;> simp [hi]

theorem test_eq {e : Evidence} (h : p.evidence? i = some e) : p.test i = {c | c ∈ e.set} := by
  ext c
  simp [test, h]

/-- A portal that becomes claimed or flowing was not done, so it is judged as before. -/
theorem evidence?_setStatus (hd : p.status? id ≠ some .done) {s : Status} (hs : s ≠ .done)
    (i : PortalId) : (p.setStatus id s).evidence? i = p.evidence? i := by
  rw [evidence?, getElem?_setStatus, evidence?, Option.map_map]
  by_cases h : id = i
  · subst h
    unfold status? at hd
    cases he : p.entries[id]? with
    | none => rfl
    | some e =>
      have hd : e.status ≠ .done := by simpa [he] using hd
      simp [Entry.evidence, Entry.result?, hd, hs]
  · simp [h, Function.comp_def]

theorem test_setStatus (hd : p.status? id ≠ some .done) {s : Status} (hs : s ≠ .done) :
    (p.setStatus id s).test = p.test := by
  funext i
  unfold test
  rw [evidence?_setStatus hd hs]

theorem bound_setStatus (p : Progress) (id : PortalId) (s : Status) :
    (p.setStatus id s).bound = p.bound := by
  funext i
  unfold bound
  rw [mightSee?_setStatus]

theorem bound_publish (h : (p.publish id v counted).result = .ok (q, n)) : q.bound = p.bound := by
  funext i
  unfold bound
  rw [mightSee?_publish h]

theorem mem_test_of_open (he : p.entries[i]? = some e) (hv : e.visible = none) {c : ClusterId} :
    c ∈ p.test i ↔ c ∈ e.mightSee := by
  have hr : e.result? = none := by
    unfold Entry.result?
    split
    · exact hv
    · rfl
  simp [test, evidence?, he, Entry.evidence, hr, Evidence.set]

theorem mem_test_of_done (he : p.entries[i]? = some e) (hs : e.status = .done)
    (hv : e.visible = some v) {c : ClusterId} : c ∈ p.test i ↔ c ∈ v := by
  simp [test, evidence?, he, Entry.evidence, Entry.result?, hs, hv, Evidence.set]

theorem evidence?_eq_final : p.evidence? i = some (.final v) ↔
    ∃ e, p.entries[i]? = some e ∧ e.status = .done ∧ e.visible = some v := by
  rw [evidence?, Option.map_eq_some_iff]
  refine exists_congr fun e => and_congr_right fun _ => ?_
  unfold Entry.evidence Entry.result?
  by_cases hs : e.status = .done
  · cases e.visible <;> simp [hs]
  · simp [hs]

theorem evidence?_eq_might : p.evidence? i = some (.might v) → p.mightSee? i = some v := by
  intro h
  obtain ⟨e, he, h⟩ := Option.map_eq_some_iff.mp h
  rw [mightSee?, he, Option.map_some]
  unfold Entry.evidence at h
  split at h
  · cases h
  · cases h
    rfl

theorem mapM_eq_ok {ε α β : Type} {f : α → Except ε β} {l : List α} {out : List β} :
    l.mapM f = .ok out ↔ l.map f = out.map .ok := by
  induction l generalizing out with
  | nil => cases out <;> simp [Pure.pure, Except.pure]
  | cons a l ih =>
    rw [List.mapM_cons, List.map_cons, bind_eq_ok]
    constructor
    · rintro ⟨b, hb, h⟩
      obtain ⟨rest, hr, h⟩ := bind_eq_ok.mp h
      cases h
      rw [hb, ih.mp hr, List.map_cons]
    · intro h
      cases out with
      | nil => simp at h
      | cons b out =>
        rw [List.map_cons, List.cons.injEq] at h
        exact ⟨b, h.1, bind_eq_ok.mpr ⟨out, ih.mpr h.2, rfl⟩⟩

theorem results_eq_ok {l : List BitSet} :
    p.results = .ok l ↔ ∀ i : PortalId, (p.entries[i]?).map Entry.result? = (l[i]?).map some := by
  rw [results, mapM_eq_ok, List.ext_getElem?_iff]
  refine forall_congr' fun i => ?_
  rw [List.getElem?_map, List.getElem?_zipIdx, Option.map_map, List.getElem?_map, Array.getElem?_toList]
  cases p.entries[i]? with
  | none => cases l[i]? <;> simp
  | some e => cases l[i]? <;> cases hr : e.result? <;> simp [hr]

theorem getElem?_results {l : List BitSet} (h : p.results = .ok l) (i : PortalId) :
    l[i]? = some v ↔ p.evidence? i = some (.final v) := by
  have hi := results_eq_ok.mp h i
  rw [evidence?_eq_final]
  cases he : p.entries[i]? with
  | none =>
    rw [he] at hi
    cases hl : l[i]? <;> simp_all
  | some e =>
    rw [he] at hi
    cases hl : l[i]? with
    | none => simp [hl] at hi
    | some w =>
      rw [hl, Option.map_some, Option.map_some, Option.some.injEq] at hi
      unfold Entry.result? at hi
      split at hi
      · next hs => simp [hi, hs]
      · cases hi

end Sightline.Progress
