import Mathlib.Order.Bounds.Basic
import Mathlib.Order.MinMax
import Sightline.Proofs.Recorded
import Sightline.Proofs.Walk

/-! The buffers of a worker. A search makes a buffer only when all there are are in use, and at its end it has given
all of them back. So the pool then holds as many as were in use at once, or as many as it held before if these were
more, up to the limit. -/

namespace Sightline

theorem isGreatest_foldl_max (n : Nat) (l : List Nat) : IsGreatest {m | m ∈ n :: l} (l.foldl max n) := by
  have hmax : (n :: l).max? = some (l.foldl max n) := List.max?_cons'
  obtain ⟨hmem, hle⟩ := List.max?_eq_some_iff.mp hmax
  exact ⟨hmem, fun m hm => hle m hm⟩

theorem foldl_max_add (l : List Nat) (spare lent : Nat) :
    l.foldl max (spare + lent) = max (spare + lent) (l.foldl max lent) := by
  have hmax : spare + lent = max (spare + lent) lent := (max_eq_left (Nat.le_add_left _ _)).symm
  conv_lhs => rw [hmax]
  exact List.foldl_assoc

variable {R : Type}

theorem Pool.length_oldest {α : Type} (l : List α) : (oldest l).length = min 64 l.length := by
  rw [oldest, List.length_drop, limit]
  omega

namespace Search

variable [Scalar R] {s : Setting R} {x y z : Search R} {top : Frame R} {rest : List (Frame R)} {n : Nat}

theorem exists_moves_of_nil {P : Search R → Prop} (hx : x.stack = []) : (∃ n z, Moves s n x z ∧ P z) ↔ P x := by
  refine ⟨?_, fun h => ⟨0, x, .none, h⟩⟩
  rintro ⟨n, z, hmoves, h⟩
  cases hmoves with
  | none => exact h
  | next hx' => cases hx.symm.trans hx'

/-- The states to come are this one and those to come after the next move. -/
theorem exists_moves_iff {P : Search R → Prop} (hx : x.stack = top :: rest) (hy : move s x top rest = .ok y) :
    (∃ n z, Moves s n x z ∧ P z) ↔ P x ∨ ∃ n z, Moves s n y z ∧ P z := by
  constructor
  · rintro ⟨n, z, hmoves, h⟩
    cases hmoves with
    | none => exact .inl h
    | next hx' hy' hrest =>
      cases hx.symm.trans hx'
      cases hy.symm.trans hy'
      exact .inr ⟨_, z, hrest, h⟩
  · rintro (h | ⟨n, z, hmoves, h⟩)
    · exact ⟨0, x, .none, h⟩
    · exact ⟨n + 1, z, .next hx hy hmoves, h⟩

/-- If a move makes buffers only for want of spare ones, then the search ends with as many as it had, or as many as
were lent at once. -/
theorem exists_peak (spare lent : Search R → Nat) (during : Search R → List Nat)
    (hmove : ∀ {x y top rest}, x.stack = top :: rest → Search.move s x top rest = .ok y →
      spare y + lent y = max ((during x).foldl max (spare x + lent x)) (lent y))
    (hend : ∀ {x}, x.stack = [] → lent x = 0 ∧ during x = []) (hv : Valid s x) (h : run s x hv = .ok y) :
    ∃ peak, IsGreatest {m | ∃ n z, Moves s n x z ∧ m ∈ lent z :: during z} peak ∧
      spare y = max (spare x + lent x) peak := by
  fun_induction Search.run s x hv with
  | case1 x hv hx =>
    obtain rfl : x = y := Except.ok.inj h
    obtain ⟨hlent, hduring⟩ := hend hx
    have hhere := isGreatest_foldl_max (lent x) (during x)
    rw [hlent, hduring] at hhere
    simp only [exists_moves_of_nil hx, hlent, hduring]
    exact ⟨0, hhere, (Nat.max_zero _).symm⟩
  | case2 x hv top rest hx e hy => cases h
  | case3 x hv top rest hx z hz ih =>
    obtain ⟨peak, hpeak, hspare⟩ := ih h
    have hnext : lent z ≤ peak := hpeak.2 ⟨0, z, .none, .head _⟩
    simp only [exists_moves_iff hx hz]
    refine ⟨_, (isGreatest_foldl_max (lent x) (during x)).union hpeak, ?_⟩
    rw [hspare, hmove hx hz, foldl_max_add]
    omega

/-- The lists of planes in use at a state of the search, and then each time after one is taken or given back while
the search moves on. -/
def listsInUse (s : Setting R) (x : Search R) : List Nat := listsOf x.stack :: (record s x).uses

theorem exists_peak_lists (hv : Valid s x) (h : run s x hv = .ok y) :
    ∃ peak, IsGreatest {m | ∃ n z, Moves s n x z ∧ m ∈ z.listsInUse s} peak ∧
      y.pool.planes.length = max (x.pool.planes.length + listsOf x.stack) peak := by
  refine exists_peak (fun x => x.pool.planes.length) (fun x => listsOf x.stack)
    (fun x => (record s x).uses) ?_ ?_ hv h
  · intro x y top rest hx hy
    have hlists := (accounts_move hx hy).lists
    rw [← hlists]
    exact (max_eq_left (Nat.le_add_left _ _)).symm
  · intro x hx
    simp [record, hx, listsOf]

theorem exists_peak_sets (hv : Valid s x) (h : run s x hv = .ok y) :
    ∃ peak, IsGreatest {m | ∃ n z, Moves s n x z ∧ m = z.stack.length} peak ∧
      y.pool.sets.length = max (x.pool.sets.length + x.stack.length) peak := by
  have hpeak := exists_peak (fun x => x.pool.sets.length) (fun x => x.stack.length)
    (fun _ => []) (fun hx hy => (accounts_move hx hy).sets) (fun hx => by simp [hx]) hv h
  simpa only [List.mem_singleton] using hpeak

end Search

namespace Graph

variable [Scalar R] {g : Graph R}

theorem walked_iff {p : Progress} {base : PortalId} {portal : Portal R} (hb : g.portals[base]? = some portal)
    {mightSee : BitSet} (hm : p.mightSee? base = some mightSee) {o : Options} {worker : Worker R} {n : Nat}
    {x : Search R} : g.Walked o p worker base n x ↔
      Search.Moves (g.setting o p base portal) n (.start (g.setting o p base portal) mightSee worker.pool) x := by
  refine ⟨?_, fun hmoves => ⟨portal, mightSee, hb, hm, hmoves⟩⟩
  rintro ⟨_, _, hb', hm', hmoves⟩
  cases hb.symm.trans hb'
  cases hm.symm.trans hm'
  exact hmoves

/-- A claimed portal is flowed, whatever the worker did before. Afterwards its pool holds as many sets as there were
frames on the stack at once, and as many lists of planes as were in use at once, or as many as before if these were
more, but no more than the limit. -/
theorem Built.buffers_kept (hg : g.Built) {p : Progress} (hp : p.Covers g) {base : PortalId}
    {portal : Portal R} (hb : g.portals[base]? = some portal) (hc : p.status? base = some .claimed)
    (o : Options) (worker : Worker R) : ∃ f frames lists, (g.flow o p worker base).result = .ok f ∧
      IsGreatest {m | ∃ n x, g.Walked o p worker base n x ∧ m = x.stack.length} frames ∧
      IsGreatest {m | ∃ n x, g.Walked o p worker base n x ∧ m ∈ x.listsInUse (g.setting o p base portal)} lists ∧
      f.worker.pool.sets.length = min 64 (max worker.pool.sets.length frames) ∧
      f.worker.pool.planes.length = min 64 (max worker.pool.planes.length lists) := by
  have hs := hg.covered_setting hp hc o portal
  obtain ⟨mightSee, hm, hsize⟩ := hp.exists_mightSee hb hc (by simp)
  have htarget : portal.target < g.clusters.size := hg.sound.target_lt hb
  have hstart : Search.Simple (g.setting o p base portal) _ := .start htarget mightSee worker.pool
  have hv : Search.Valid (g.setting o p base portal) _ := .start htarget mightSee worker.pool
  obtain ⟨y, -, hy, -⟩ := hstart.run hs hv
  obtain ⟨frames, hframes, hsets⟩ := Search.exists_peak_sets hv hy
  obtain ⟨lists, hlists, hplanes⟩ := Search.exists_peak_lists hv hy
  refine ⟨_, frames, lists, flow_of_run hb hc hm htarget hsize hy, ?_, ?_, ?_, ?_⟩
  · simpa only [walked_iff hb hm] using hframes
  · simpa only [walked_iff hb hm] using hlists
  · have hone : 1 ≤ frames := hframes.2 ⟨0, _, .none, rfl⟩
    have htaken := (Search.length_borrowSet worker.pool g.clusters.size).1
    have hsets' : y.pool.sets.length = max ((worker.pool.borrowSet g.clusters.size).2.sets.length + 1) frames :=
      hsets
    rw [Pool.trim, Pool.length_oldest, hsets', htaken]
    omega
  · have htaken := (Search.length_borrowSet worker.pool g.clusters.size).2
    have hplanes' : y.pool.planes.length =
      max ((worker.pool.borrowSet g.clusters.size).2.planes.length + 0) lists := hplanes
    rw [Pool.trim, Pool.length_oldest, hplanes', htaken, Nat.add_zero]

/-- A worker comes to the crooked way with a set for fewer clusters in the pool. The set is dropped, and there is one
more for it in the end. -/
theorem crooked_buffers : ∃ portal, crooked.portals[0]? = some portal ∧ ∃ f frames lists,
    (crooked.flow { level := 4 } crookedStart { pool := ⟨[[], []], [.empty 3]⟩ } 0).result = .ok f ∧
    IsGreatest {m | ∃ n x, crooked.Walked { level := 4 } crookedStart { pool := ⟨[[], []], [.empty 3]⟩ } 0 n x ∧
      m = x.stack.length} frames ∧
    IsGreatest {m | ∃ n x, crooked.Walked { level := 4 } crookedStart { pool := ⟨[[], []], [.empty 3]⟩ } 0 n x ∧
      m ∈ x.listsInUse (crooked.setting { level := 4 } crookedStart 0 portal)} lists ∧
    f.worker.pool.sets.length = min 64 (max 1 frames) ∧
    f.worker.pool.planes.length = min 64 (max 2 lists) := by
  obtain ⟨portal, hb⟩ := crooked_portal
  have hcovers : crookedStart.Covers crooked := by decide +kernel
  have hclaimed : crookedStart.status? 0 = some .claimed := by decide +kernel
  exact ⟨portal, hb, crooked_built.buffers_kept hcovers hb hclaimed { level := 4 } { pool := ⟨[[], []], [.empty 3]⟩ }⟩

end Graph

end Sightline
