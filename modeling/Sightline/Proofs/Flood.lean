import Sightline.MightSee
import Sightline.Proofs.Built

/-! Floods reach everything that can be reached, and nothing else. In a sound graph they always come to an
end, so every portal has a might-see set. Each cluster is marked and counted once. -/

namespace Sightline.Graph

variable {R : Type}

/-- Reached from a seed along portals in `through` without entering a barred cluster. -/
inductive Flooded (g : Graph R) (through barred : BitSet) (seeds : List ClusterId) : ClusterId → Prop
  | seed {c : ClusterId} : c ∈ seeds → c ∉ barred → Flooded g through barred seeds c
  | step {c : ClusterId} {id : PortalId} {portal : Portal R} :
      Flooded g through barred seeds c → id ∈ g.portalsOf c → id ∈ through →
      g.portals[id]? = some portal → portal.target ∉ barred →
      Flooded g through barred seeds portal.target

variable {g : Graph R} {through barred : BitSet} {seeds seeds' rest next : List ClusterId}
  {c d : ClusterId}

theorem Flooded.mono (h : g.Flooded through barred seeds c)
    (hs : ∀ d ∈ seeds, d ∉ barred → d ∈ seeds') : g.Flooded through barred seeds' c := by
  induction h with
  | seed hc hb => exact .seed (hs _ hc hb) hb
  | step _ hid ht hp hb ih => exact ih.step hid ht hp hb

theorem not_flooded_nil : ¬g.Flooded through barred [] c := by
  intro h
  induction h with
  | seed hc => cases hc
  | step _ _ _ _ _ ih => exact ih

def Leads (g : Graph R) (through : BitSet) (c d : ClusterId) : Prop :=
  ∃ id portal, id ∈ g.portalsOf c ∧ id ∈ through ∧ g.portals[id]? = some portal ∧ portal.target = d

/-- A flood that has marked one more cluster goes on from that cluster's neighbours. -/
theorem flooded_insert (hc : c ∉ barred) (hlt : c < barred.size)
    (hn : ∀ d, d ∈ next ↔ g.Leads through c d) :
    d = c ∨ g.Flooded through (barred.insert c) (next ++ rest) d ↔
      g.Flooded through barred (c :: rest) d := by
  have hins {e : ClusterId} : e ∉ barred.insert c ↔ e ∉ barred ∧ e ≠ c := by
    simp [hlt]
  constructor
  · rintro (rfl | h)
    · exact .seed (.head _) hc
    · induction h with
      | seed hd hb =>
        rcases List.mem_append.mp hd with hd | hd
        · obtain ⟨id, portal, hid, ht, hp, rfl⟩ := (hn _).mp hd
          exact .step (.seed (.head _) hc) hid ht hp (hins.mp hb).1
        · exact .seed (.tail _ hd) (hins.mp hb).1
      | step _ hid ht hp hb ih => exact ih.step hid ht hp (hins.mp hb).1
  · intro h
    induction h with
    | @seed e hd hb =>
      by_cases he : e = c
      · exact .inl he
      · refine .inr (.seed (List.mem_append_right _ ?_) (hins.mpr ⟨hb, he⟩))
        exact (List.mem_cons.mp hd).resolve_left he
    | @step e id portal _ hid ht hp hb ih =>
      by_cases ht' : portal.target = c
      · exact .inl ht'
      · right
        rcases ih with rfl | ih
        · refine .seed (List.mem_append_left _ ?_) (hins.mpr ⟨hb, ht'⟩)
          exact (hn _).mpr ⟨id, portal, hid, ht, hp, rfl⟩
        · exact ih.step hid ht hp (hins.mpr ⟨hb, ht'⟩)

variable [Scalar R]

theorem neighbours?_spec (hg : g.Sound) (ht : through.size = g.portals.size)
    (hc : c < g.clusters.size) :
    ∃ next, g.neighbours? through c = some next ∧ ∀ d, d ∈ next ↔ g.Leads through c d := by
  have hcl : g.clusters[c]? = some g.clusters[c] := Array.getElem?_eq_getElem hc
  have hown : g.portalsOf c = g.clusters[c].portals := by
    rw [portalsOf_eq, hcl, Option.map_some, Option.getD_some]
  have hall : g.clusters[c].portals.all (· < through.size) := by
    rw [List.all_eq_true, ← hown]
    intro id hid
    obtain ⟨portal, hp, -⟩ := hg.mem_portalsOf.mp hid
    rw [ht]
    exact decide_eq_true (Array.getElem?_eq_some_iff.mp hp).1
  obtain ⟨next, hnext⟩ := exists_mapM (f := fun id => (g.portals[id]?).map (·.target))
    (l := g.clusters[c].portals.filter (· ∈ through)) fun id hid => by
      rw [List.mem_filter, ← hown] at hid
      obtain ⟨portal, hp, -⟩ := hg.mem_portalsOf.mp hid.1
      exact ⟨_, by rw [hp]; rfl⟩
  refine ⟨next, ?_, fun d => ?_⟩
  · rw [neighbours?, hcl]
    exact (if_pos hall).trans hnext
  · rw [mem_mapM hnext]
    constructor
    · rintro ⟨id, hid, hp⟩
      rw [List.mem_filter, ← hown] at hid
      obtain ⟨portal, hportal, rfl⟩ := Option.map_eq_some_iff.mp hp
      exact ⟨id, portal, hid.1, of_decide_eq_true hid.2, hportal, rfl⟩
    · rintro ⟨id, portal, hid, ht, hp, rfl⟩
      refine ⟨id, List.mem_filter.mpr ⟨hown ▸ hid, decide_eq_true ht⟩, ?_⟩
      rw [hp, Option.map_some]

theorem Leads.lt (hg : g.Sound) (h : g.Leads through c d) : d < g.clusters.size := by
  obtain ⟨id, portal, -, -, hp, rfl⟩ := h
  exact hg.target_lt hp

/-- A flood ends, and marks exactly what it reaches. -/
theorem flood?_spec (hg : g.Sound) (ht : through.size = g.portals.size)
    {marked : BitSet} (hm : marked.size = g.clusters.size) {pending : List ClusterId}
    (hp : ∀ c ∈ pending, c < g.clusters.size) :
    ∃ f, g.flood? through marked pending = some f ∧ f.marked.size = g.clusters.size ∧
      ∀ c, c ∈ f.marked ↔ c ∈ marked ∨ g.Flooded through marked pending c := by
  fun_induction g.flood? through marked pending with
  | case1 marked =>
    exact ⟨_, rfl, hm, fun c => ⟨.inl, fun h => h.resolve_right not_flooded_nil⟩⟩
  | case2 marked c rest hc hmem ih =>
    obtain ⟨f, hf, hsize, hmarked⟩ := ih hm fun d hd => hp d (.tail _ hd)
    refine ⟨f, hf, hsize, fun d => (hmarked d).trans (or_congr_right ⟨fun h => ?_, fun h => ?_⟩)⟩
    · exact h.mono fun e he _ => .tail _ he
    · refine h.mono fun e he hb => (List.mem_cons.mp he).resolve_left ?_
      rintro rfl
      exact hb hmem
  | case3 marked c rest hc hmem ih =>
    obtain ⟨next, hnext, hlisted⟩ := neighbours?_spec hg ht (hm ▸ hc)
    have hleads (d : ClusterId) : d ∈ next.reverse ↔ g.Leads through c d :=
      List.mem_reverse.trans (hlisted d)
    obtain ⟨f, hf, hsize, hmarked⟩ := ih next (by rw [BitSet.size_insert, hm]) fun d hd =>
      (List.mem_append.mp hd).elim (fun hd => ((hleads d).mp hd).lt hg) fun hd => hp d (.tail _ hd)
    refine ⟨{ f with count := f.count + 1 }, ?_, hsize, fun d => ?_⟩
    · rw [hnext, Option.bind_eq_bind, Option.bind_some, hf]
      rfl
    · refine (hmarked d).trans ?_
      rw [← flooded_insert hmem hc hleads, BitSet.mem_insert, or_assoc]
      simp [hc]
  | case4 marked c rest hc => exact absurd (hm ▸ hp c (.head _)) hc

omit [Scalar R] in
theorem flood?_count {marked : BitSet} {pending : List ClusterId} {f : Flood}
    (h : g.flood? through marked pending = some f) : f.count + marked.count = f.marked.count := by
  fun_induction g.flood? through marked pending generalizing f with
  | case1 marked =>
    cases h
    apply Nat.zero_add
  | case2 marked c rest hc hmem ih => exact ih h
  | case3 marked c rest hc hmem ih =>
    obtain ⟨next, -, h⟩ := Option.bind_eq_some_iff.mp h
    obtain ⟨f', hf, h⟩ := Option.bind_eq_some_iff.mp h
    cases h
    have hcount := ih next hf
    rw [BitSet.count_insert hc hmem] at hcount
    dsimp only
    omega
  | case4 => cases h

theorem mem_reach {id j : PortalId} {portal : Portal R} : j ∈ g.reach id portal ↔
    ∃ q, g.portals[j]? = some q ∧ j ≠ id ∧ portal.mightReach q := by
  rw [reach, BitSet.mem_ofBools, List.getElem?_map, List.getElem?_zipIdx, Option.map_map,
    Option.map_eq_some_iff, Array.getElem?_toList]
  simp

theorem size_reach (g : Graph R) (id : PortalId) (portal : Portal R) :
    (g.reach id portal).size = g.portals.size := by
  simp [reach, BitSet.ofBools]

/-- Every portal has a might-see set: what a flood through the portals it might reach comes to. -/
theorem mightSee?_spec (hg : g.Sound) {id : PortalId} {portal : Portal R}
    (hp : g.portals[id]? = some portal) :
    ∃ m, g.mightSee? id = some m ∧ m.clusters.size = g.clusters.size ∧
      (∀ j : PortalId, j ∈ m.portals ↔
        ∃ q, g.portals[j]? = some q ∧ j ≠ id ∧ portal.mightReach q) ∧
      ∀ c, c ∈ m.clusters ↔
        g.Flooded m.portals (.empty g.clusters.size) [portal.target] c := by
  obtain ⟨f, hf, hfsize, hmarked⟩ := flood?_spec hg (size_reach g id portal)
    (BitSet.size_empty g.clusters.size) (List.forall_mem_singleton.mpr (hg.target_lt hp))
  refine ⟨⟨_, f.marked, f.count⟩, ?_, hfsize, fun j => mem_reach, fun c => (hmarked c).trans ?_⟩
  · rw [mightSee?, hp, Option.bind_eq_bind, Option.bind_some]
    dsimp only
    rw [hf]
    rfl
  · exact or_iff_right (BitSet.not_mem_empty c _)

theorem mightSee?_count {id : PortalId} {m : MightSee} (h : g.mightSee? id = some m) :
    m.count = m.clusters.count := by
  obtain ⟨portal, -, h⟩ := Option.bind_eq_some_iff.mp h
  obtain ⟨f, hf, h⟩ := Option.bind_eq_some_iff.mp h
  cases h
  have hcount := flood?_count hf
  rw [BitSet.count_empty] at hcount
  exact hcount

def mightSets? (g : Graph R) : Option (List BitSet) :=
  (List.range g.portals.size).mapM fun id => (g.mightSee? id).map (·.clusters)

theorem exists_mightSets (hg : g.Sound) : ∃ sets, g.mightSets? = some sets := by
  refine exists_mapM fun id hid => ?_
  obtain ⟨m, hm, -⟩ := mightSee?_spec hg (Array.getElem?_eq_getElem (List.mem_range.mp hid))
  exact ⟨_, by rw [hm]; rfl⟩

theorem length_mightSets {sets : List BitSet} (h : g.mightSets? = some sets) :
    sets.length = g.portals.size := by
  have hl := congrArg List.length (mapM_eq_some.mp h)
  simpa using hl.symm

theorem getElem?_mightSets {sets : List BitSet} (h : g.mightSets? = some sets) (id : PortalId) :
    sets[id]? = (g.mightSee? id).map (·.clusters) := by
  by_cases hid : id < g.portals.size
  · have hi := congrArg (·[id]?) (mapM_eq_some.mp h)
    rw [List.getElem?_map, List.getElem?_range hid, List.getElem?_map, Option.map_some] at hi
    cases hs : sets[id]? with
    | none => simp [hs] at hi
    | some set =>
      rw [hs] at hi
      exact (Option.some.inj hi).symm
  · have hp : g.portals[id]? = none := Array.getElem?_eq_none (Nat.le_of_not_lt hid)
    rw [List.getElem?_eq_none (by rw [length_mightSets h]; exact Nat.le_of_not_lt hid), mightSee?, hp]
    rfl

/-- A flood cut short after so many steps. It evaluates by itself, and is a flood if it gets to an end. -/
def floodWithin? (g : Graph R) (through : BitSet) : Nat → BitSet → List ClusterId → Option Flood
  | 0, _, _ => none
  | _ + 1, marked, [] => some ⟨marked, 0⟩
  | steps + 1, marked, c :: rest =>
    if c < marked.size then
      if c ∈ marked then g.floodWithin? through steps marked rest
      else do
        let next ← g.neighbours? through c
        let flood ← g.floodWithin? through steps (marked.insert c) (next.reverse ++ rest)
        some { flood with count := flood.count + 1 }
    else none

omit [Scalar R] in
theorem flood?_of_within {steps : Nat} {marked : BitSet} {pending : List ClusterId} {f : Flood}
    (h : g.floodWithin? through steps marked pending = some f) :
    g.flood? through marked pending = some f := by
  induction steps generalizing marked pending f with
  | zero => cases h
  | succ steps ih =>
    cases pending with
    | nil =>
      rw [flood?]
      exact h
    | cons c rest =>
      rw [floodWithin?] at h
      rw [flood?]
      split at h
      · next hc =>
        rw [dif_pos hc]
        split at h
        · next hm =>
          rw [dif_pos hm]
          exact ih h
        · next hm =>
          rw [dif_neg hm]
          obtain ⟨next, hn, h⟩ := Option.bind_eq_some_iff.mp h
          obtain ⟨f', hf, h⟩ := Option.bind_eq_some_iff.mp h
          rw [hn, Option.bind_eq_bind, Option.bind_some, ih hf]
          exact h
      · cases h

omit [Scalar R] in
theorem length_neighbours_le (h : g.neighbours? through c = some next) :
    next.length ≤ Search.maxDegree g := by
  obtain ⟨cluster, hc, h⟩ := Option.bind_eq_some_iff.mp h
  have hdeg := Search.length_portalsOf_le g c
  rw [portalsOf_eq, hc, Option.map_some, Option.getD_some] at hdeg
  have hle : (cluster.portals.filter (· ∈ through)).length ≤ cluster.portals.length :=
    List.length_filter_le _ _
  split at h
  · have hlen := congrArg List.length (mapM_eq_some.mp h)
    rw [List.length_map, List.length_map] at hlen
    omega
  · cases h

def floodBound (g : Graph R) (marked : BitSet) (pending : List ClusterId) : Nat :=
  (marked.size - marked.count) * Search.maxDegree g + pending.length

theorem exists_floodWithin (hg : g.Sound) (ht : through.size = g.portals.size) {steps : Nat}
    {marked : BitSet} (hm : marked.size = g.clusters.size) {pending : List ClusterId}
    (hp : ∀ c ∈ pending, c < g.clusters.size) (h : g.floodBound marked pending < steps) :
    ∃ f, g.floodWithin? through steps marked pending = some f := by
  unfold floodBound at h
  induction steps generalizing marked pending with
  | zero => exact absurd h (Nat.not_lt_zero _)
  | succ steps ih =>
    cases pending with
    | nil => exact ⟨_, rfl⟩
    | cons c rest =>
      have hc : c < marked.size := hm ▸ hp c (.head _)
      have hrest : ∀ d ∈ rest, d < g.clusters.size := fun d hd => hp d (.tail _ hd)
      rw [List.length_cons] at h
      rw [floodWithin?, if_pos hc]
      split
      · apply ih hm hrest
        omega
      · next hmem =>
        obtain ⟨next, hnext, hleads⟩ := neighbours?_spec hg ht (hm ▸ hc)
        have hnear : ∀ d ∈ next.reverse ++ rest, d < g.clusters.size := by
          intro d hd
          rcases List.mem_append.mp hd with hd | hd
          · exact ((hleads d).mp (List.mem_reverse.mp hd)).lt hg
          · exact hrest d hd
        have hsize : (marked.insert c).size = g.clusters.size := by rw [BitSet.size_insert, hm]
        -- one cluster fewer is unmarked, and this pays for the neighbours
        have hpay : ((marked.insert c).size - (marked.insert c).count) * Search.maxDegree g +
            (next.reverse ++ rest).length < steps := by
          have hlen := length_neighbours_le hnext
          have hle := BitSet.count_le_size (marked.insert c)
          rw [BitSet.size_insert, BitSet.count_insert hc hmem] at *
          rw [List.length_append, List.length_reverse]
          rw [show marked.size - marked.count = marked.size - (marked.count + 1) + 1 by omega,
            Nat.add_one_mul] at h
          omega
        obtain ⟨f, hf⟩ := ih hsize hnear hpay
        refine ⟨{ f with count := f.count + 1 }, ?_⟩
        rw [hnext, Option.bind_eq_bind, Option.bind_some, hf]
        rfl

def mightWithin? (g : Graph R) (steps : Nat) (id : PortalId) : Option BitSet := do
  let portal ← g.portals[id]?
  let flood ← g.floodWithin? (g.reach id portal) steps (.empty g.clusters.size) [portal.target]
  some flood.marked

theorem mightSets?_of_within (steps : Nat) {sets : List BitSet}
    (h : (List.range g.portals.size).mapM (g.mightWithin? steps) = some sets) :
    g.mightSets? = some sets := by
  have hw {id : PortalId} {set : BitSet} (hi : g.mightWithin? steps id = some set) :
      (g.mightSee? id).map (·.clusters) = some set := by
    obtain ⟨portal, hp, hi⟩ := Option.bind_eq_some_iff.mp hi
    obtain ⟨f, hf, hi⟩ := Option.bind_eq_some_iff.mp hi
    cases hi
    rw [mightSee?, hp, Option.bind_eq_bind, Option.bind_some]
    dsimp only
    rw [flood?_of_within hf]
    rfl
  refine mapM_eq_some.mpr ?_
  rw [← mapM_eq_some.mp h]
  refine List.map_congr_left fun id hid => ?_
  obtain ⟨set, -, hi⟩ := List.mem_map.mp ((mapM_eq_some.mp h) ▸ List.mem_map_of_mem hid)
  rw [← hi, hw hi.symm]

/-- A flood from one cluster ends after a number of steps that can be told in advance. To the clusters that
were marked it adds those that can be reached around them, and tells how many these are. From no marked
cluster it comes to what a portal might see. -/
theorem flood_exact (hg : g.Built) (ht : through.size = g.portals.size) {marked : BitSet}
    (hm : marked.size = g.clusters.size) {start : ClusterId} (hs : start < g.clusters.size) :
    (∃ f, g.flood? through marked [start] = some f ∧
      g.floodWithin? through (g.floodBound marked [start] + 1) marked [start] = some f ∧
      f.marked.size = g.clusters.size ∧
      (∀ c, c ∈ f.marked ↔ c ∈ marked ∨ g.Flooded through marked [start] c) ∧
      f.count + marked.count = f.marked.count) ∧
    ∀ (id : PortalId) portal, g.portals[id]? = some portal →
      ∃ m, g.mightSee? id = some m ∧ m.clusters.size = g.clusters.size ∧
        (∀ j : PortalId, j ∈ m.portals ↔
          ∃ q, g.portals[j]? = some q ∧ j ≠ id ∧ portal.mightReach q) ∧
        (∀ c, c ∈ m.clusters ↔
          g.Flooded m.portals (.empty g.clusters.size) [portal.target] c) ∧
        m.count = m.clusters.count := by
  constructor
  · have hp : ∀ c ∈ [start], c < g.clusters.size := List.forall_mem_singleton.mpr hs
    obtain ⟨f, hf, hsize, hmarked⟩ := flood?_spec hg.sound ht hm hp
    obtain ⟨f', hf'⟩ := exists_floodWithin hg.sound ht hm hp (Nat.lt_succ_self _)
    cases hf.symm.trans (flood?_of_within hf')
    exact ⟨f, hf, hf', hsize, hmarked, flood?_count hf⟩
  · intro id portal hp
    obtain ⟨m, hm, hsize, hportals, hclusters⟩ := mightSee?_spec hg.sound hp
    exact ⟨m, hm, hsize, hportals, hclusters, mightSee?_count hm⟩

/-- Sight from the first cluster of the crooked way, where the way is barred at the third. -/
theorem crooked_barred : ∃ f,
    crooked.flood? (.ofBools (List.replicate 8 true)) (.ofBools [false, false, true, false, false]) [0]
      = some f ∧ f.count + 1 = f.marked.count ∧ ∀ c, c ∈ f.marked ↔
        c ∈ BitSet.ofBools [false, false, true, false, false] ∨
          crooked.Flooded (.ofBools (List.replicate 8 true))
            (.ofBools [false, false, true, false, false]) [0] c := by
  have ht : (BitSet.ofBools (List.replicate 8 true)).size = crooked.portals.size := by decide +kernel
  have hm : (BitSet.ofBools [false, false, true, false, false]).size = crooked.clusters.size := by
    decide +kernel
  have hs : 0 < crooked.clusters.size := by decide +kernel
  obtain ⟨⟨f, hf, -, -, hmarked, hcount⟩, -⟩ := flood_exact crooked_built ht hm hs
  exact ⟨f, hf, hcount, hmarked⟩

end Sightline.Graph
