import Mathlib.Data.Prod.Lex
import Sightline.Proofs.History

/-! The order of claims. Portals are claimed from the cheapest to the dearest, each at most once; claims end
when no portal waits, and then none was left out that has no result. -/

namespace Sightline.Progress

/-- What claims go by: how much a portal might see, and among equals its number. -/
def rank (p : Progress) (id : PortalId) : Nat ×ₗ PortalId := toLex ((p.mightCount? id).getD 0, id)

def Event.claimed? : Event → Option PortalId
  | .claimed id => some id
  | _ => none

def claims (events : List Event) : List PortalId := events.filterMap Event.claimed?

variable {p q : Progress} {id i j : PortalId} {e : Entry}
variable {calls : List Call} {events : List Event} {call : Call} {event : Event}

theorem mem_claims : id ∈ claims events ↔ .claimed id ∈ events := by
  rw [claims, List.mem_filterMap]
  constructor
  · rintro ⟨event, hm, he⟩
    cases event <;> cases he
    exact hm
  · exact fun hm => ⟨_, hm, rfl⟩

/-- The choice is at least as cheap as the best before and as the portal that was looked at. Of two that are
equally cheap the earlier stays, so the portals have to be looked at in order. -/
theorem prefer_least {best : Option (Nat × PortalId)} {x : Entry × PortalId}
    (hbest : ∀ b ∈ best, b.2 < x.2) :
    (∀ b ∈ best, ∃ c ∈ prefer best x, toLex c ≤ toLex b) ∧
      (x.1.status = .waiting → ∃ c ∈ prefer best x, toLex c ≤ toLex (x.1.mightCount, x.2)) := by
  unfold prefer
  split
  · next hx =>
    refine ⟨fun b hb => ⟨_, rfl, Prod.Lex.toLex_le_toLex.mpr (.inl ?_)⟩, fun _ => ⟨_, rfl, le_rfl⟩⟩
    simpa [Option.mem_def.mp hb] using hx.2
  · next hx =>
    refine ⟨fun b hb => ⟨b, hb, le_rfl⟩, fun hw => ?_⟩
    cases best with
    | none => simp [hw] at hx
    | some b =>
      have hle : b.1 ≤ x.1.mightCount := by simpa [hw] using hx
      refine ⟨b, rfl, Prod.Lex.toLex_le_toLex.mpr ?_⟩
      rcases hle.lt_or_eq with hlt | heq
      · exact .inl hlt
      · exact .inr ⟨heq, (hbest b rfl).le⟩

theorem foldl_prefer_least {l : List (Entry × PortalId)} {best : Option (Nat × PortalId)}
    {b : Nat × PortalId} (hl : l.Pairwise (·.2 < ·.2)) (hbest : ∀ a ∈ best, ∀ x ∈ l, a.2 < x.2)
    (h : l.foldl prefer best = some b) : (∀ a ∈ best, toLex b ≤ toLex a) ∧
      ∀ x ∈ l, x.1.status = .waiting → toLex b ≤ toLex (x.1.mightCount, x.2) := by
  induction l generalizing best with
  | nil => simp_all
  | cons x l ih =>
    obtain ⟨hx, hl⟩ := List.pairwise_cons.mp hl
    have hnext : ∀ a ∈ prefer best x, ∀ y ∈ l, a.2 < y.2 := by
      intro a ha y hy
      unfold prefer at ha
      split at ha
      · cases ha
        exact hx y hy
      · exact hbest a ha y (.tail _ hy)
    obtain ⟨hle, hrest⟩ := ih hl hnext h
    obtain ⟨hkeep, htake⟩ := prefer_least fun a ha => hbest a ha x (.head _)
    refine ⟨fun a ha => ?_, List.forall_mem_cons.mpr ⟨fun hw => ?_, hrest⟩⟩
    · obtain ⟨c, hc, hca⟩ := hkeep a ha
      exact (hle c hc).trans hca
    · obtain ⟨c, hc, hcx⟩ := htake hw
      exact (hle c hc).trans hcx

theorem rank_eq (he : p.entries[id]? = some e) : p.rank id = toLex (e.mightCount, id) := by
  rw [rank, mightCount?, he, Option.map_some, Option.getD_some]

theorem cheapest?_least (h : p.cheapest? = some id) (hj : p.status? j = some .waiting) :
    p.rank id ≤ p.rank j := by
  obtain ⟨⟨m, k⟩, hb, rfl⟩ := Option.map_eq_some_iff.mp h
  obtain ⟨e, he, hs⟩ := Option.map_eq_some_iff.mp hj
  have hsorted : p.entries.toList.zipIdx.Pairwise (·.2 < ·.2) := by
    rw [List.pairwise_iff_getElem]
    intro i k hi hk hik
    simpa using hik
  obtain ⟨-, hleast⟩ := foldl_prefer_least hsorted (by simp) hb
  rcases foldl_prefer hb with hnone | ⟨e', he', -, rfl⟩
  · cases hnone
  · have hmem : (e, j) ∈ p.entries.toList.zipIdx := by simpa [List.mem_zipIdx_iff_getElem?] using he
    have hget : p.entries[k]? = some e' := by simpa [List.mem_zipIdx_iff_getElem?] using he'
    rw [rank_eq hget, rank_eq he]
    exact hleast (e, j) hmem hs

theorem rank_injective (p : Progress) : Function.Injective p.rank :=
  fun _ _ h => congrArg (fun x => (ofLex x).2) h

theorem cheapest?_eq_some : p.cheapest? = some id ↔
    p.status? id = some .waiting ∧ ∀ j, p.status? j = some .waiting → p.rank id ≤ p.rank j := by
  constructor
  · intro h
    exact ⟨(status?_claim (claim?_eq_some.mpr ⟨h, rfl⟩)).1, fun j => cheapest?_least h⟩
  · rintro ⟨hw, hleast⟩
    obtain ⟨k, hk⟩ : ∃ k, p.cheapest? = some k := by
      rw [← Option.ne_none_iff_exists']
      intro hnone
      exact claim?_eq_none (by rw [claim?, hnone, Option.map_none]) id hw
    have hwk := (status?_claim (claim?_eq_some.mpr ⟨hk, rfl⟩)).1
    rw [hk, p.rank_injective (le_antisymm (hleast k hwk) (cheapest?_least hk hw))]

/-- Which portal is claimed next depends on nothing but who waits and how much each might see. -/
theorem cheapest?_congr (hstatus : ∀ i, q.status? i = p.status? i)
    (hcount : ∀ i, q.mightCount? i = p.mightCount? i) : q.cheapest? = p.cheapest? := by
  ext id
  simp only [cheapest?_eq_some, rank, hstatus, hcount]

theorem Step.waiting (h : p.Step call event q) (hj : q.status? j = some .waiting) :
    p.status? j = some .waiting := by
  obtain ⟨e, he, -⟩ := Option.map_eq_some_iff.mp hj
  have hlt := (Array.getElem?_eq_some_iff.mp he).1
  rw [h.size] at hlt
  have hs : p.status? j = some p.entries[j].status := by
    rw [status?, Array.getElem?_eq_getElem hlt, Option.map_some]
  obtain ⟨t, ht, hle⟩ := h.status_le hs
  cases hj.symm.trans ht
  rw [hs]
  cases hstatus : p.entries[j].status <;> simp_all [Status.place]

/-- The claims so far went from cheap to dear, and what waits is dearer than all of them. -/
structure Orderly (p : Progress) (events : List Event) : Prop where
  sorted : (claims events).Pairwise fun i j => p.rank i < p.rank j
  below : ∀ i ∈ claims events, ∀ j, p.status? j = some .waiting → p.rank i < p.rank j

theorem Orderly.step (h : p.Orderly events) (hstep : p.Step call event q) (hrank : q.rank = p.rank) :
    q.Orderly (events ++ [event]) := by
  have hwaiting {j : PortalId} (hj : q.status? j = some .waiting) : p.status? j = some .waiting :=
    hstep.waiting hj
  have hother (hnone : event.claimed? = none) : q.Orderly (events ++ [event]) := by
    have hsame : claims (events ++ [event]) = claims events := by
      rw [claims, List.filterMap_append, List.filterMap_cons_none hnone, List.filterMap_nil,
        List.append_nil, claims]
    refine ⟨by rw [hsame, hrank]; exact h.sorted, fun i hi j hj => ?_⟩
    rw [hsame] at hi
    rw [hrank]
    exact h.below i hi j (hwaiting hj)
  cases hstep with
  | claim id hc =>
    obtain ⟨hw, hclaimed⟩ := status?_claim hc
    obtain ⟨hleast, -⟩ := claim?_eq_some.mp hc
    have hmore : claims (events ++ [.claimed id]) = claims events ++ [id] := List.filterMap_append
    refine ⟨?_, fun i hi j hj => ?_⟩
    · rw [hmore, hrank, List.pairwise_append]
      refine ⟨h.sorted, List.pairwise_singleton _ _, fun i hi j hj => ?_⟩
      cases List.mem_singleton.mp hj
      exact h.below i hi id hw
    · have hj' := hwaiting hj
      rw [hrank]
      rcases List.mem_append.mp (hmore ▸ hi) with hi | hi
      · exact h.below i hi j hj'
      · cases List.mem_singleton.mp hi
        refine lt_of_le_of_ne (cheapest?_least hleast hj') fun heq => ?_
        cases p.rank_injective heq
        cases hclaimed.symm.trans hj
  | exhaust => exact hother rfl
  | start => exact hother rfl
  | refuse => exact hother rfl
  | publish => exact hother rfl

variable {sets : List BitSet} {threaded : Bool}

theorem History.rank_eq (h : (ofMightSee sets threaded).History calls events p) :
    p.rank = fun id => toLex (((sets[id]?).map BitSet.count).getD 0, id) := by
  funext id
  rw [rank, (h.might_eq id).2]

theorem History.orderly (h : (ofMightSee sets threaded).History calls events p) : p.Orderly events := by
  induction h with
  | nil => exact ⟨.nil, by simp [claims]⟩
  | snoc h hstep ih => exact ih.step hstep ((h.snoc hstep).rank_eq.trans h.rank_eq.symm)

/-- Claims go from cheap to dear, where the lower number counts as cheaper among equals, and each takes the
cheapest portal that waits. They end when none waits. By then each portal was claimed just once, or has a
result that was given without a claim. -/
theorem History.claims_in_order (h : (ofMightSee sets threaded).History calls events p) :
    (claims events).Pairwise (fun i j => p.rank i < p.rank j) ∧ (claims events).Nodup ∧
    (p.claim? = none ↔ ∀ id, p.status? id ≠ some .waiting) ∧
    (∀ id q, p.claim? = some (id, q) → p.status? id = some .waiting ∧
      ∀ j, p.status? j = some .waiting → p.rank id ≤ p.rank j) ∧
    (p.claim? = none → ∀ id < sets.length, (claims events).count id = 1 ∨
      (claims events).count id = 0 ∧ (firstGiven id calls).isSome) := by
  have hsorted := h.orderly.sorted
  have hnodup : (claims events).Nodup := hsorted.imp fun hlt heq => by
    rw [heq] at hlt
    exact lt_irrefl _ hlt
  refine ⟨hsorted, hnodup, ⟨claim?_eq_none, fun hnone => ?_⟩, fun id q hc => ?_, fun hend id hid => ?_⟩
  · cases hc : p.claim? with
    | none => rfl
    | some claimed => exact absurd (status?_claim hc).1 (hnone _)
  · exact ⟨(status?_claim hc).1, fun j hj => cheapest?_least (claim?_eq_some.mp hc).1 hj⟩
  · by_cases hm : id ∈ claims events
    · exact .inl (hnodup.count.trans (if_pos hm))
    · refine .inr ⟨List.count_eq_zero_of_not_mem hm, ?_⟩
      obtain ⟨e, he, ht⟩ := h.exists_entry hid
      have hs := claim?_eq_none hend id
      rw [status?, he, Option.map_some, ne_eq, Option.some.injEq, ht.waiting, not_and] at hs
      exact Option.isSome_iff_ne_none.mpr (hs (mt mem_claims.mpr hm))

/-- Portal 1 is claimed before portal 0, and portal 2 not at all. -/
theorem tangled_claims : (ofMightSee tangledSets false).History tangledCalls tangledEvents tangled ∧
    claims tangledEvents = [1, 0] ∧ tangled.rank 1 < tangled.rank 0 ∧ tangled.claim? = none ∧
    (claims tangledEvents).count 2 = 0 ∧ (firstGiven 2 tangledCalls).isSome := by
  obtain ⟨hsorted, -, hend, -, hall⟩ := tangled_history.claims_in_order
  have hnone : tangled.claim? = none := rfl
  have hclaims : claims tangledEvents = [1, 0] := rfl
  rw [hclaims] at hsorted
  refine ⟨tangled_history, hclaims, by simpa using hsorted, hnone, ?_⟩
  exact (hall hnone 2 (by decide)).resolve_left (by decide)

end Sightline.Progress
