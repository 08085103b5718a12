import Mathlib.Data.List.Induction
import Sightline.Proofs.Openings

/-! How many portals a cluster can get. Both sides of an opening are asked for room before either gets its
portal, so an opening between a cluster and itself takes two places where one was free. That is the only way
past the limit, and it leads no further than one place. -/

namespace Sightline.Graph

variable {R : Type} [Scalar R]

structure Request (R : Type) where
  points : List (Vec R)
  back : ClusterId
  front : ClusterId

def Request.sides (x : Request R) (c : ClusterId) : Nat := [x.back, x.front].count c

/-- The graph after an opening was asked for, accepted or not. -/
def offer (g : Graph R) (x : Request R) : Graph R := ((addInPlace x.points x.back x.front).run.run g).2

def offerAll (g : Graph R) (requests : List (Request R)) : Graph R := requests.foldl offer g

/-- The opening is accepted with both sides at a cluster that has only one place left. -/
structure Overfills (g : Graph R) (x : Request R) (c : ClusterId) : Prop where
  back : x.back = c
  front : x.front = c
  last : (g.portalsOf c).length + 1 = portalLimit
  accepted : ∃ opening g', g.add x.points x.back x.front = .ok (opening, g')

variable {g g' : Graph R} {c : ClusterId} {opening : Opening} {x : Request R}

omit [Scalar R] in
theorem Request.sides_le (x : Request R) (c : ClusterId) : x.sides c ≤ 2 := List.count_le_length

omit [Scalar R] in
theorem Request.sides_eq_two : x.sides c = 2 ↔ x.back = c ∧ x.front = c := by
  have hall : x.sides c = [x.back, x.front].length ↔ ∀ d ∈ [x.back, x.front], c = d :=
    List.count_eq_length
  simpa [eq_comm] using hall

omit [Scalar R] in
theorem Request.sides_pos (h : 0 < x.sides c) : x.back = c ∨ x.front = c := by
  have hmem : c ∈ [x.back, x.front] := List.count_pos_iff.mp h
  simpa [eq_comm] using hmem

/-- Every side of an opening that is accepted takes a place, and finds one left. -/
theorem length_portalsOf_add (h : g.add x.points x.back x.front = .ok (opening, g')) (c : ClusterId) :
    (g'.portalsOf c).length = (g.portalsOf c).length + x.sides c ∧
      (0 < x.sides c → (g.portalsOf c).length < portalLimit) := by
  constructor
  · obtain ⟨hback, hfront, portal, -, rfl⟩ := add_eq_ok h
    rw [portalsOf_own (by simpa using hfront), portalsOf_own (by exact hback), List.length_append,
      List.length_append, Nat.add_assoc]
    congr 1
    simp only [Request.sides, List.count_cons, List.count_nil, beq_iff_eq]
    split <;> split <;> rfl
  · intro hpos
    obtain ⟨_, hb, h⟩ := bind_eq_ok.mp h
    obtain ⟨_, hf, -⟩ := bind_eq_ok.mp h
    rcases Request.sides_pos hpos with rfl | rfl
    · exact (checkRoom_eq_ok hb).2
    · exact (checkRoom_eq_ok hf).2

theorem offer_cases (g : Graph R) (x : Request R) :
    (∃ opening, g.add x.points x.back x.front = .ok (opening, g.offer x)) ∨
      (¬∃ opening g', g.add x.points x.back x.front = .ok (opening, g')) ∧ g.offer x = g := by
  have hrun := run_addInPlace g x.points x.back x.front
  cases hadd : g.add x.points x.back x.front with
  | error fault =>
    rw [hadd] at hrun
    right
    refine ⟨?_, by rw [offer, hrun]⟩
    rintro ⟨opening, g', h⟩
    cases h
  | ok added =>
    rw [hadd] at hrun
    left
    exact ⟨added.1, by rw [offer, hrun]⟩

/-- A request takes a cluster past its limit only by filling it from both sides. -/
theorem limit_lt_offer_iff : portalLimit < ((g.offer x).portalsOf c).length ↔
    portalLimit < (g.portalsOf c).length ∨ g.Overfills x c := by
  rcases offer_cases g x with ⟨opening, hadd⟩ | ⟨hrefused, hsame⟩
  · obtain ⟨hlength, hroom⟩ := length_portalsOf_add hadd c
    have hsides := x.sides_le c
    have hover : g.Overfills x c ↔ x.sides c = 2 ∧ (g.portalsOf c).length + 1 = portalLimit := by
      rw [Request.sides_eq_two]
      constructor
      · intro h
        exact ⟨⟨h.back, h.front⟩, h.last⟩
      · rintro ⟨⟨hback, hfront⟩, hlast⟩
        exact ⟨hback, hfront, hlast, opening, _, hadd⟩
    rw [hover]
    omega
  · rw [hsame, or_iff_left fun h => hrefused h.accepted]

theorem length_offer_le (h : (g.portalsOf c).length ≤ portalLimit + 1) :
    ((g.offer x).portalsOf c).length ≤ portalLimit + 1 := by
  rcases offer_cases g x with ⟨opening, hadd⟩ | ⟨-, hsame⟩
  · obtain ⟨hlength, hroom⟩ := length_portalsOf_add hadd c
    have hsides := x.sides_le c
    omega
  · rw [hsame]
    exact h

theorem offerAll_snoc (g : Graph R) (requests : List (Request R)) (x : Request R) :
    g.offerAll (requests ++ [x]) = (g.offerAll requests).offer x := by
  rw [offerAll, List.foldl_append, offerAll]
  rfl

theorem limit_lt_offerAll_iff (g : Graph R) (requests : List (Request R)) (c : ClusterId) :
    portalLimit < ((g.offerAll requests).portalsOf c).length ↔
      portalLimit < (g.portalsOf c).length ∨
        ∃ before x, before ++ [x] <+: requests ∧ (g.offerAll before).Overfills x c := by
  induction requests using List.reverseRecOn with
  | nil => simp [offerAll]
  | append_singleton requests x ih =>
    rw [offerAll_snoc, limit_lt_offer_iff, ih, or_assoc]
    apply or_congr_right
    constructor
    · rintro (⟨before, y, hprefix, hover⟩ | hover)
      · exact ⟨before, y, hprefix.trans (List.prefix_append _ _), hover⟩
      · exact ⟨requests, x, List.prefix_refl _, hover⟩
    · rintro ⟨before, y, hprefix, hover⟩
      rcases List.prefix_concat_iff.mp hprefix with hlast | hearlier
      · obtain ⟨rfl, hy⟩ := List.append_inj' hlast rfl
        cases hy
        exact .inr hover
      · exact .inl ⟨before, y, hearlier, hover⟩

theorem length_offerAll_le (h : (g.portalsOf c).length ≤ portalLimit + 1) (requests : List (Request R)) :
    ((g.offerAll requests).portalsOf c).length ≤ portalLimit + 1 := by
  induction requests using List.reverseRecOn with
  | nil => exact h
  | append_singleton requests x ih =>
    rw [offerAll_snoc]
    exact length_offer_le ih

/-- Whatever openings are asked for, a cluster keeps within its limit just if none fills it from both sides
with one place left. It never gets more than one portal too many. -/
theorem within_limit_iff (count : Nat) (requests : List (Request R)) (c : ClusterId) :
    ((((ofClusters count : Graph R).offerAll requests).portalsOf c).length ≤ portalLimit ↔
      ∀ before x, before ++ [x] <+: requests →
        ¬((ofClusters count : Graph R).offerAll before).Overfills x c) ∧
    (((ofClusters count : Graph R).offerAll requests).portalsOf c).length ≤ portalLimit + 1 := by
  have hempty : ((ofClusters count : Graph R).portalsOf c).length = 0 := by
    rw [portalsOf_ofClusters, List.length_nil]
  constructor
  · have hiff := limit_lt_offerAll_iff (ofClusters count : Graph R) requests c
    rw [hempty, or_iff_right (by decide)] at hiff
    rw [← Nat.not_lt, hiff]
    push Not
    rfl
  · apply length_offerAll_le
    omega

/-- A wall between two rooms as often as there is room but once, and one that leads from the first room to
itself. -/
def loopedLast : List (Request Float) :=
  List.replicate 127 ⟨wall 4 0 4 4, 0, 1⟩ ++ [⟨wall 4 0 4 4, 0, 0⟩]

theorem loopedLast_exceeds :
    (((ofClusters 2 : Graph Float).offerAll loopedLast).portalsOf 0).length = portalLimit + 1 := by
  decide +kernel

end Sightline.Graph
