import Sightline.Flow.Search.Basic

/-! A search ends. A chain never enters a cluster twice, so there is a bound for the moves that are left,
`potential`, and every move lowers it. -/

namespace Sightline.Search

variable {R : Type}

/-- What holds all along a search: the clusters on the stack are distinct, and the chain is their set. -/
structure Valid (s : Setting R) (x : Search R) : Prop where
  size_onChain : x.onChain.size = s.graph.clusters.size
  size_mask : ∀ f ∈ x.stack, f.mask.size = s.graph.clusters.size
  mem_onChain : ∀ c, c ∈ x.onChain ↔ c ∈ x.stack.map (·.cluster)
  nodup : (x.stack.map (·.cluster)).Nodup

def maxDegree (g : Graph R) : Nat := (g.clusters.toList.map (·.portals.length)).max?.getD 0

/-- A bound for the moves it takes to try one portal, with all that follows, when `unmarked` clusters are
not on the chain. -/
def cost (degree : Nat) : (unmarked : Nat) → Nat
  | 0 => 1
  | unmarked + 1 => 2 + degree * cost degree unmarked

def stackCost (degree : Nat) : (unmarked : Nat) → List (Frame R) → Nat
  | _, [] => 0
  | unmarked, f :: rest =>
    f.todo.length * cost degree unmarked + 1 + stackCost degree (unmarked + 1) rest

def potential (s : Setting R) (x : Search R) : Nat :=
  stackCost (maxDegree s.graph) (x.onChain.size - x.onChain.count) x.stack

theorem length_portalsOf_le (g : Graph R) (c : ClusterId) : (g.portalsOf c).length ≤ maxDegree g := by
  unfold Graph.portalsOf
  split
  · next cluster h =>
    apply List.le_max?_getD_of_mem
    exact List.mem_map.mpr ⟨cluster, by simpa using Array.mem_of_getElem? h, rfl⟩
  · exact Nat.zero_le _

theorem one_le_cost (degree unmarked : Nat) : 1 ≤ cost degree unmarked := by
  cases unmarked <;> simp [cost]; omega

theorem Valid.start {s : Setting R} (h : s.portal.target < s.graph.clusters.size)
    (mightSee : BitSet) (pool : Pool R) : Valid s (start s mightSee pool) := by
  refine ⟨?_, ?_, ?_, ?_⟩ <;> simp [Search.start, idle, descend, Pool.borrowSet_fst, h]

theorem Valid.retreat {s : Setting R} {x : Search R} (h : Valid s x) {top : Frame R}
    {rest : List (Frame R)} (hx : x.stack = top :: rest) : Valid s (x.retreat top rest) := by
  obtain ⟨hs, hm, hc, hn⟩ := h
  rw [hx] at hm hc hn
  rw [List.map_cons, List.nodup_cons] at hn
  refine ⟨by simpa [Search.retreat] using hs, fun f hf => hm f (.tail _ hf), fun c => ?_, hn.2⟩
  simp only [Search.retreat, BitSet.mem_erase, hc, List.map_cons, List.mem_cons]
  constructor
  · rintro ⟨e | hc, hne⟩
    · exact absurd e hne
    · exact hc
  · intro hc
    exact ⟨.inr hc, fun e => hn.1 (e ▸ hc)⟩

variable [Scalar R]

/-- What an attempt does to the chain: it leaves it as long as it was, or adds a frame for a cluster that
may be seen and is not on the chain. -/
theorem attempt_cases {s : Setting R} {x y : Search R} {top : Frame R} {rest : List (Frame R)}
    {id : PortalId} (h : attempt s x top rest id = .ok y) :
    (∃ known, y.stack = { top with known } :: rest ∧ y.onChain = x.onChain ∧
      y.visible = x.visible) ∨
    ∃ known child, y.stack = child :: { top with known } :: rest ∧
      y.onChain = x.onChain.insert child.cluster ∧ y.visible = x.visible.insert child.cluster ∧
      child.cluster ∈ top.mask ∧ child.cluster ∉ x.onChain ∧
      child.mask.size = s.graph.clusters.size ∧ child.todo = s.graph.portalsOf child.cluster ∧
      ∃ ahead, s.graph.portals[id]? = some ahead ∧ ahead.target = child.cluster := by
  unfold attempt at h
  simp only at h
  split at h
  · simp at h
  · next ahead hp =>
    split at h
    · cases h
      exact .inl ⟨top.known, rfl, rfl, rfl⟩
    · next hm =>
      simp only [not_or, Decidable.not_not] at hm
      split at h
      · simp at h
      · split at h
        · cases h
          exact .inl ⟨top.known, rfl, rfl, rfl⟩
        · split at h
          · cases h
            exact .inl ⟨top.known, rfl, rfl, rfl⟩
          · cases h
            unfold extend
            dsimp only
            split
            · exact .inl ⟨_, rfl, rfl, rfl⟩
            · exact .inr ⟨_, _, rfl, rfl, rfl, hm.1, hm.2, by simp [Pool.borrowSet_fst], rfl, ahead, hp,
                rfl⟩

theorem Valid.move {s : Setting R} {x y : Search R} (h : Valid s x) {top : Frame R}
    {rest : List (Frame R)} (hx : x.stack = top :: rest) (hy : move s x top rest = .ok y) :
    Valid s y := by
  unfold Search.move at hy
  split at hy
  · cases hy
    exact h.retreat hx
  · obtain ⟨hs, hm, hc, hn⟩ := h
    rw [hx] at hm hc hn
    rcases attempt_cases hy with ⟨known, h1, h2, _⟩ | ⟨known, child, h1, h2, _, _, h5, h6, _⟩
    · refine ⟨by rw [h2, hs], ?_, ?_, ?_⟩ <;> rw [h1]
      · simpa using hm
      · simpa [h2] using hc
      · simpa using hn
    · have hlt : child.cluster < x.onChain.size := by
        rw [hs, ← hm top (.head _)]
        exact BitSet.lt_size_of_mem ‹_›
      refine ⟨by simp [h2, hs], ?_, ?_, ?_⟩ <;> rw [h1]
      · simp only [List.forall_mem_cons] at hm ⊢
        exact ⟨h6, hm⟩
      · intro c
        rw [h2, BitSet.mem_insert, hc, List.map_cons, List.mem_cons, or_comm]
        simp [hlt]
      · rw [List.map_cons, List.nodup_cons]
        exact ⟨fun hmem => h5 ((hc _).mpr hmem), hn⟩

theorem potential_move {s : Setting R} {x y : Search R} (h : Valid s x) {top : Frame R}
    {rest : List (Frame R)} (hx : x.stack = top :: rest) (hy : move s x top rest = .ok y) :
    potential s y < potential s x := by
  unfold Search.move at hy
  have hdeg := length_portalsOf_le s.graph
  split at hy
  · next ht =>
    cases hy
    have := BitSet.count_erase ((h.mem_onChain top.cluster).mpr (by simp [hx]))
    have := BitSet.count_le_size x.onChain
    simp only [potential, Search.retreat, hx, stackCost, ht, BitSet.size_erase, List.length_nil]
    rw [show x.onChain.size - (x.onChain.erase top.cluster).count =
      x.onChain.size - x.onChain.count + 1 by omega]
    omega
  · next id todo ht =>
    rcases attempt_cases hy with ⟨known, h1, h2, _⟩ | ⟨known, child, h1, h2, _, h4, h5, h6, h7, _⟩
    · have := one_le_cost (maxDegree s.graph) (x.onChain.size - x.onChain.count)
      simp only [potential, h1, h2, hx, stackCost, ht, List.length_cons, Nat.add_mul]
      omega
    · have hlt : child.cluster < x.onChain.size := by
        rw [h.size_onChain, ← h.size_mask top (hx ▸ .head _)]
        exact BitSet.lt_size_of_mem h4
      have hcount := BitSet.count_insert hlt h5
      have hle := BitSet.count_le_size (x.onChain.insert child.cluster)
      rw [BitSet.size_insert] at hle
      simp only [potential, h1, h2, hx, stackCost, ht, List.length_cons, BitSet.size_insert]
      obtain ⟨u, hu⟩ : ∃ u, x.onChain.size - x.onChain.count = u + 1 :=
        ⟨x.onChain.size - x.onChain.count - 1, by omega⟩
      rw [show x.onChain.size - (x.onChain.insert child.cluster).count = u by omega, hu, h7]
      have := Nat.mul_le_mul_right (cost (maxDegree s.graph) u) (hdeg child.cluster)
      simp only [cost, Nat.add_mul]
      omega

def run (s : Setting R) (x : Search R) (h : Valid s x) : Except Failure (Search R) :=
  match hx : x.stack with
  | [] => .ok x
  | top :: rest =>
    match hy : move s x top rest with
    | .error e => .error e
    | .ok y => run s y (h.move hx hy)
termination_by potential s x
decreasing_by exact potential_move h hx hy

variable {s : Setting R} {x y : Search R} {top : Frame R} {rest : List (Frame R)}

theorem run_of_nil (hv : Valid s x) (hx : x.stack = []) : run s x hv = .ok x := by
  rw [run]
  split
  · rfl
  · next hx' => cases hx.symm.trans hx'

theorem run_of_error (hv : Valid s x) (hx : x.stack = top :: rest) {e : Failure}
    (hy : move s x top rest = .error e) : run s x hv = .error e := by
  rw [run]
  split
  · next hx' => cases hx.symm.trans hx'
  · next hx' =>
    cases hx.symm.trans hx'
    split
    · next hy' =>
      cases hy.symm.trans hy'
      rfl
    · next hy' => cases hy.symm.trans hy'

theorem run_of_ok (hv : Valid s x) (hx : x.stack = top :: rest)
    (hy : move s x top rest = .ok y) : run s x hv = run s y (hv.move hx hy) := by
  rw [run]
  split
  · next hx' => cases hx.symm.trans hx'
  · next hx' =>
    cases hx.symm.trans hx'
    split
    · next hy' => cases hy.symm.trans hy'
    · next hy' =>
      cases hy.symm.trans hy'
      rfl

end Sightline.Search
