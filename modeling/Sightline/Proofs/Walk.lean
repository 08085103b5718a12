import Mathlib.Data.List.Chain
import Mathlib.Data.List.Perm.Subperm
import Sightline.Proofs.Exact

/-! The way that a search takes. At any time it stands at the end of a simple chain, which is no longer than
there are clusters, and after so many moves it is back where it began. This depends on the graph alone, and
not on what the evidence says. -/

namespace Sightline

variable {R : Type}

/-- There is evidence for every portal, with a bit for every cluster. -/
def Progress.Covers (p : Progress) (g : Graph R) : Prop :=
  ∀ (id : PortalId) (portal : Portal R), g.portals[id]? = some portal →
    ∃ evidence, p.evidence? id = some evidence ∧ evidence.set.size = g.clusters.size

namespace Progress

variable {p : Progress} {g : Graph R} {id : PortalId}

theorem covers_iff : p.Covers g ↔ ∀ id ∈ List.range g.portals.size,
    (p.evidence? id).any (·.set.size = g.clusters.size) := by
  constructor
  · intro h id hid
    obtain ⟨evidence, he, hsize⟩ := h id _ (Array.getElem?_eq_getElem (List.mem_range.mp hid))
    rw [he]
    exact decide_eq_true hsize
  · intro h id portal hp
    have hid := List.mem_range.mpr (Array.getElem?_eq_some_iff.mp hp).1
    obtain ⟨evidence, he, hsize⟩ := (Option.any_eq_true _ _).mp (h id hid)
    exact ⟨evidence, he, of_decide_eq_true hsize⟩

instance (p : Progress) (g : Graph R) : Decidable (p.Covers g) := decidable_of_iff _ covers_iff.symm

theorem Covers.setStatus (h : p.Covers g) (hd : p.status? id ≠ some .done) {t : Status}
    (ht : t ≠ .done) : (p.setStatus id t).Covers g := by
  intro i portal hi
  rw [evidence?_setStatus hd ht]
  exact h i portal hi

theorem Covers.exists_mightSee (h : p.Covers g) {portal : Portal R}
    (hp : g.portals[id]? = some portal) {t : Status} (hs : p.status? id = some t) (ht : t ≠ .done) :
    ∃ mightSee, p.mightSee? id = some mightSee ∧ mightSee.size = g.clusters.size := by
  obtain ⟨evidence, he, hsize⟩ := h id portal hp
  cases evidence with
  | might mightSee => exact ⟨mightSee, evidence?_eq_might he, hsize⟩
  | final v =>
    obtain ⟨e, hi, hdone, -⟩ := evidence?_eq_final.mp he
    rw [status?, hi, Option.map_some, Option.some_inj] at hs
    exact absurd (hs.symm.trans hdone) ht

end Progress

def Graph.Joined (g : Graph R) (c d : ClusterId) : Prop :=
  ∃ id portal, id ∈ g.portalsOf c ∧ g.portals[id]? = some portal ∧ portal.target = d

namespace Search

variable {s : Setting R} {x y z : Search R} {top : Frame R} {rest : List (Frame R)} {id : PortalId}
  {n : Nat}

/-- The stack holds a simple chain, its end first, and for each cluster portals that lead on from there. -/
structure Simple (s : Setting R) (x : Search R) : Prop where
  valid : Valid s x
  todo : ∀ f ∈ x.stack, f.todo ⊆ s.graph.portalsOf f.cluster
  joined : (x.stack.map (·.cluster)).IsChain fun d c => s.graph.Joined c d

theorem Simple.start (h : s.portal.target < s.graph.clusters.size) (mightSee : BitSet) (pool : Pool R) :
    Simple s (start s mightSee pool) := by
  refine ⟨.start h mightSee pool, ?_, .singleton _⟩
  intro f hf
  cases List.mem_singleton.mp hf
  exact List.Subset.refl _

theorem Valid.length_stack_le (h : Valid s x) : x.stack.length ≤ s.graph.clusters.size := by
  have hsub : x.stack.map (·.cluster) ⊆ List.range s.graph.clusters.size := by
    intro c hc
    rw [List.mem_range, ← h.size_onChain]
    exact BitSet.lt_size_of_mem ((h.mem_onChain c).mpr hc)
  have hlen := (List.subperm_of_subset h.nodup hsub).length_le
  rwa [List.length_map, List.length_range] at hlen

theorem Valid.onChain_eq_empty (h : Valid s x) (hx : x.stack = []) :
    x.onChain = .empty s.graph.clusters.size := by
  apply BitSet.ext h.size_onChain
  intro c
  rw [h.mem_onChain, hx]
  simp

variable [Scalar R]

structure Covered (s : Setting R) : Prop where
  sound : s.graph.Sound
  covers : s.progress.Covers s.graph

theorem exists_attempt (hs : Covered s) (hid : id ∈ s.graph.portalsOf top.cluster) :
    ∃ y, attempt s x top rest id = .ok y := by
  obtain ⟨ahead, hp, -⟩ := hs.sound.mem_portalsOf.mp hid
  obtain ⟨evidence, he, -⟩ := hs.covers id ahead hp
  unfold attempt
  dsimp only
  rw [hp, he]
  dsimp only
  split_ifs <;> exact ⟨_, rfl⟩

theorem Simple.exists_move (hs : Covered s) (h : Simple s x) (hx : x.stack = top :: rest) :
    ∃ y, move s x top rest = .ok y := by
  unfold Search.move
  split
  · exact ⟨_, rfl⟩
  · next id todo ht =>
    have hid : id ∈ s.graph.portalsOf top.cluster := h.todo top (hx ▸ .head _) (ht ▸ .head _)
    exact exists_attempt hs hid

theorem Simple.move (h : Simple s x) (hx : x.stack = top :: rest) (hy : move s x top rest = .ok y) :
    Simple s y := by
  have hvalid := h.valid.move hx hy
  obtain ⟨-, htodo, hjoined⟩ := h
  rw [hx] at htodo hjoined
  obtain ⟨htop, hrest⟩ := List.forall_mem_cons.mp htodo
  unfold Search.move at hy
  split at hy
  · cases hy
    exact ⟨hvalid, hrest, hjoined.tail⟩
  · next id todo ht =>
    rw [ht] at htop
    have htop' : todo ⊆ s.graph.portalsOf top.cluster := fun i hi => htop (.tail _ hi)
    rcases attempt_cases hy with ⟨known, hstack, -⟩ |
      ⟨known, child, hstack, -, -, -, -, -, hown, ahead, hp, htarget⟩
    · refine ⟨hvalid, ?_, ?_⟩ <;> rw [hstack]
      · exact List.forall_mem_cons.mpr ⟨htop', hrest⟩
      · exact hjoined
    · refine ⟨hvalid, ?_, ?_⟩ <;> rw [hstack]
      · rw [List.forall_mem_cons, List.forall_mem_cons]
        exact ⟨by rw [hown]; exact List.Subset.refl _, htop', hrest⟩
      · exact .cons_cons ⟨id, ahead, htop (.head _), hp, htarget⟩ hjoined

inductive Moves (s : Setting R) : Nat → Search R → Search R → Prop
  | none {x : Search R} : Moves s 0 x x
  | next {n : Nat} {x y z : Search R} {top : Frame R} {rest : List (Frame R)} :
      x.stack = top :: rest → move s x top rest = .ok y → Moves s n y z → Moves s (n + 1) x z

theorem Moves.snoc (h : Moves s n x y) (hy : y.stack = top :: rest)
    (hz : Search.move s y top rest = .ok z) : Moves s (n + 1) x z := by
  induction h with
  | none => exact .next hy hz .none
  | next hstack hmove _ ih => exact .next hstack hmove (ih hy hz)

theorem Moves.simple (h : Moves s n x y) (hx : Simple s x) : Simple s y := by
  induction h with
  | none => exact hx
  | next hstack hmove _ ih => exact ih (hx.move hstack hmove)

theorem Moves.potential_le (h : Moves s n x y) (hx : Simple s x) :
    n + potential s y ≤ potential s x := by
  induction h with
  | none => exact Nat.le_of_eq (Nat.zero_add _)
  | next hstack hmove _ ih =>
    have hlower := potential_move hx.valid hstack hmove
    have hrest := ih (hx.move hstack hmove)
    omega

theorem Simple.run (hs : Covered s) (hv : Valid s x) (h : Simple s x) :
    ∃ y n, run s x hv = .ok y ∧ Moves s n x y ∧ y.stack = [] := by
  fun_induction Search.run s x hv with
  | case1 x hv hx => exact ⟨x, 0, rfl, .none, hx⟩
  | case2 x hv top rest hx e hy =>
    obtain ⟨y, hok⟩ := h.exists_move hs hx
    cases hy.symm.trans hok
  | case3 x hv top rest hx y hy ih =>
    obtain ⟨z, n, hz, hmoves, hend⟩ := ih (h.move hx hy)
    exact ⟨z, n + 1, hz, .next hx hy hmoves, hend⟩

omit [Scalar R] in
theorem potential_start_lt (h : s.portal.target < s.graph.clusters.size) (mightSee : BitSet)
    (pool : Pool R) : potential s (start s mightSee pool) <
      cost (maxDegree s.graph) s.graph.clusters.size := by
  have hcount : ((BitSet.empty s.graph.clusters.size).insert s.portal.target).count = 1 := by
    rw [BitSet.count_insert (by exact h) (BitSet.not_mem_empty _ _), BitSet.count_empty]
  simp only [potential, Search.start, idle, descend, stackCost, BitSet.size_insert, BitSet.size_empty,
    hcount]
  generalize s.graph.clusters.size = n at h
  cases n with
  | zero => exact absurd h (Nat.not_lt_zero _)
  | succ u =>
    have hdeg := Nat.mul_le_mul_right (cost (maxDegree s.graph) u)
      (length_portalsOf_le s.graph s.portal.target)
    rw [Nat.add_sub_cancel, cost]
    omega

end Search

namespace Graph

variable [Scalar R] {g : Graph R}

theorem Built.covered_setting (hg : g.Built) {p : Progress} (hp : p.Covers g) {base : PortalId}
    (hc : p.status? base = some .claimed) (o : Options) (portal : Portal R) :
    Search.Covered (g.setting o p base portal) :=
  ⟨hg.sound, hp.setStatus (by simp [hc]) (by simp)⟩

/-- A state of the search that a flow makes, after so many moves. -/
def Walked (g : Graph R) (o : Options) (p : Progress) (worker : Worker R) (base : PortalId) (n : Nat)
    (x : Search R) : Prop :=
  ∃ portal mightSee, g.portals[base]? = some portal ∧ p.mightSee? base = some mightSee ∧
    Search.Moves (g.setting o p base portal) n
      (.start (g.setting o p base portal) mightSee worker.pool) x

/-- The search of a claimed portal makes a bounded number of moves, and is back where it began then. At any
time the stack is a simple chain of clusters, `onChain` is the set of these, and the search can move on if
anything is on the stack. -/
theorem walk_spec (hg : g.Built) {p : Progress} (hp : p.Covers g) {base : PortalId} {portal : Portal R}
    (hb : g.portals[base]? = some portal) (hc : p.status? base = some .claimed) (o : Options)
    (worker : Worker R) :
    (∃ f n x, (g.flow o p worker base).result = .ok f ∧ g.Walked o p worker base n x ∧
      f.visible = x.visible ∧ x.stack = [] ∧ x.onChain = .empty g.clusters.size) ∧
    ∀ n x, g.Walked o p worker base n x →
      n < Search.cost (Search.maxDegree g) g.clusters.size ∧
      (x.stack.map (·.cluster)).Nodup ∧
      (x.stack.map (·.cluster)).IsChain (fun d c => g.Joined c d) ∧
      (∀ c, c ∈ x.onChain ↔ c ∈ x.stack.map (·.cluster)) ∧
      x.stack.length ≤ g.clusters.size ∧
      (x.stack ≠ [] → ∃ y, g.Walked o p worker base (n + 1) y) := by
  have hs := hg.covered_setting hp hc o portal
  obtain ⟨mightSee, hm, hsize⟩ := hp.exists_mightSee hb hc (by simp)
  have htarget : portal.target < g.clusters.size := hg.sound.target_lt hb
  have hstart : Search.Simple (g.setting o p base portal) _ := .start htarget mightSee worker.pool
  constructor
  · obtain ⟨x, n, hx, hmoves, hend⟩ := hstart.run hs (.start htarget mightSee worker.pool)
    exact ⟨_, n, x, flow_of_run hb hc hm htarget hsize hx, ⟨portal, mightSee, hb, hm, hmoves⟩, rfl, hend,
      (hmoves.simple hstart).valid.onChain_eq_empty hend⟩
  · rintro n x ⟨_, _, hb', hm', hmoves⟩
    cases hb.symm.trans hb'
    cases hm.symm.trans hm'
    have hsimple := hmoves.simple hstart
    have hvalid := hsimple.valid
    have hbound : n < Search.cost (Search.maxDegree g) g.clusters.size := by
      have hle := hmoves.potential_le hstart
      have hlt := Search.potential_start_lt (s := g.setting o p base portal) htarget mightSee worker.pool
      exact Nat.lt_of_le_of_lt (Nat.le_trans (Nat.le_add_right _ _) hle) hlt
    refine ⟨hbound, hvalid.nodup, hsimple.joined, hvalid.mem_onChain, hvalid.length_stack_le, fun hne => ?_⟩
    obtain ⟨top, rest, hx⟩ := List.exists_cons_of_ne_nil hne
    obtain ⟨y, hy⟩ := hsimple.exists_move hs hx
    exact ⟨y, portal, mightSee, hb, hm, hmoves.snoc hx hy⟩

theorem crooked_walk : ∃ f n x, (crooked.flow { level := 4 } crookedStart {} 0).result = .ok f ∧
    crooked.Walked { level := 4 } crookedStart {} 0 n x ∧ f.visible = x.visible ∧ x.stack = [] ∧
      x.onChain = .empty crooked.clusters.size ∧
      n < Search.cost (Search.maxDegree crooked) crooked.clusters.size := by
  obtain ⟨portal, hb⟩ := crooked_portal
  have hcovers : crookedStart.Covers crooked := by decide +kernel
  have hclaimed : crookedStart.status? 0 = some .claimed := by decide +kernel
  obtain ⟨⟨f, n, x, hf, hx, hvisible, hend, hempty⟩, hall⟩ :=
    walk_spec crooked_built hcovers hb hclaimed { level := 4 } {}
  obtain ⟨hbound, -⟩ := hall n x hx
  exact ⟨f, n, x, hf, hx, hvisible, hend, hempty, hbound⟩

end Graph

end Sightline
