import Mathlib.Algebra.Order.BigOperators.Group.List
import Mathlib.Algebra.Order.Group.Nat
import Sightline.Proofs.Levels
import Sightline.Proofs.Recorded

/-! What the counters tell about each other. Every candidate is judged by one kind of evidence, and of those whose
geometry is looked at each ends one chain or lengthens it, and never both. So the counters of a flow keep an order,
as long as no word has wrapped, and so do those of a survey, which are the sums over its flows. -/

namespace Sightline

variable {R : Type}

/-- What is counted in so many flows. Each enters the first cluster of its chains without a candidate. -/
@[mk_iff] structure Balanced (flows : Nat) (n : Tick → Nat) : Prop where
  started : flows ≤ n .chain
  settled : n .chain - flows + n (.clipped .target) + n (.clipped .source) ≤ n .check
  judged : n .check + n .nothingNew ≤ n .mightTest + n .finalTest
  passed : n .pass ≤ n .chain - flows
  targetTrims : n (.trimmed .target) ≤ n (.tested .target)
  sourceTrims : n (.trimmed .source) ≤ n (.tested .source)
  tests : n (.tested .target) + n (.tested .source) ≤ n .planeTest

instance (flows : Nat) (n : Tick → Nat) : Decidable (Balanced flows n) :=
  decidable_of_iff _ (balanced_iff flows n).symm

theorem Evidence.tick_cases (e : Evidence) : e.tick = .mightTest ∨ e.tick = .finalTest := by
  cases e
  · exact .inr rfl
  · exact .inl rfl

namespace Balanced

variable {i j : Nat} {l l' : List Tick}

theorem append (h : Balanced i (l.count ·)) (h' : Balanced j (l'.count ·)) :
    Balanced (i + j) ((l ++ l').count ·) := by
  obtain ⟨h1, h2, h3, h4, h5, h6, h7⟩ := h
  obtain ⟨h1', h2', h3', h4', h5', h6', h7'⟩ := h'
  constructor <;> simp only [List.count_append] <;> omega

theorem perm (h : Balanced i (l.count ·)) (hl : l.Perm l') : Balanced i (l'.count ·) := by
  simpa only [hl.count_eq] using h

theorem nil : Balanced 0 (([] : List Tick).count ·) := by decide

theorem flatMap {α : Type} {turns : List α} {f : α → List Tick}
    (h : ∀ t ∈ turns, Balanced 1 ((f t).count ·)) : Balanced turns.length ((turns.flatMap f).count ·) := by
  induction turns with
  | nil => exact nil
  | cons t turns ih =>
    obtain ⟨hfirst, hrest⟩ := List.forall_mem_cons.mp h
    rw [List.flatMap_cons, List.length_cons, Nat.add_comm]
    exact hfirst.append (ih hrest)

theorem first : Balanced 1 ([Tick.chain].count ·) := by decide

theorem judgedOnly (e : Evidence) : Balanced 0 ([e.tick].count ·) := by
  rcases e.tick_cases with h | h <;> rw [h] <;> decide

theorem nothingNew (e : Evidence) : Balanced 0 ([e.tick, .nothingNew].count ·) := by
  rcases e.tick_cases with h | h <;> rw [h] <;> decide

theorem goesOn (e : Evidence) : Balanced 0 ([e.tick, .check, .chain].count ·) := by
  rcases e.tick_cases with h | h <;> rw [h] <;> decide

theorem passes (e : Evidence) : Balanced 0 ([e.tick, .check, .pass, .chain].count ·) := by
  rcases e.tick_cases with h | h <;> rw [h] <;> decide

end Balanced

namespace Cuts

variable {left : Bool} {l : List Tick}

theorem count_eq_zero {k : Tick} (h : Cuts left l) (hk : k.ofCut = false) : l.count k = 0 := by
  refine List.count_eq_zero.mpr fun hmem => ?_
  rw [h.only k hmem] at hk
  cases hk

theorem balanced (h : Cuts true l) : Balanced 0 (l.count ·) := by
  have hclips := h.ended
  rw [Bool.toNat_true] at hclips
  refine ⟨Nat.zero_le _, ?_, ?_, ?_, h.trimmed .target, h.trimmed .source, h.tested⟩
  · rw [h.count_eq_zero (k := .chain) rfl]
    omega
  · rw [h.count_eq_zero (k := .check) rfl, h.count_eq_zero (k := .nothingNew) rfl]
    exact Nat.zero_le _
  · rw [h.count_eq_zero (k := .pass) rfl]
    exact Nat.zero_le _

theorem balanced_settled (h : Cuts left l) (e : Evidence) : Balanced 0 (([e.tick, .check] ++ l).count ·) := by
  have hclips := h.ended
  have htarget := h.trimmed .target
  have hsource := h.trimmed .source
  have htested := h.tested
  have hpass := h.count_eq_zero (k := .pass) rfl
  have hchain := h.count_eq_zero (k := .chain) rfl
  have hcheck := h.count_eq_zero (k := .check) rfl
  have hnothing := h.count_eq_zero (k := .nothingNew) rfl
  rcases e.tick_cases with h | h <;> rw [h] <;> constructor <;> simp [*] <;> omega

end Cuts

theorem Outcome.balanced {l : List Tick} (h : Outcome l) : Balanced 0 (l.count ·) := by
  cases h with
  | silent => exact .nil
  | nothingNew e => exact .nothingNew e
  | opposed e => exact .judgedOnly e
  | @tried e left l h =>
    rcases h with h | ⟨rfl, cuts, h, rfl⟩
    · cases left with
      | false => simpa using h.balanced_settled e
      | true =>
        have hperm : (l ++ [Tick.chain]).Perm ([Tick.chain] ++ l) := List.perm_append_comm
        exact ((Balanced.goesOn e).append h.balanced).perm (hperm.symm.append_left [e.tick, .check])
    · have hperm : (cuts ++ [Tick.pass] ++ [Tick.chain]).Perm ([Tick.pass, Tick.chain] ++ cuts) := by
        rw [List.append_assoc]
        exact List.perm_append_comm
      exact ((Balanced.passes e).append h.balanced).perm (hperm.symm.append_left [e.tick, .check])

namespace Counters

variable {l : List Tick} {k : Tick}

theorem toNat_get_ofTicks (h : l.count k < 2 ^ 64) : ((ofTicks l).get k).toNat = l.count k := by
  rw [get_ofTicks]
  exact UInt64.toNat_ofNat_of_lt' h

theorem toNat_get_add_ofTicks {c : Counters} (h : (c.get k).toNat + l.count k < 2 ^ 64) :
    ((c + ofTicks l).get k).toNat = (c.get k).toNat + l.count k := by
  have hticks := toNat_get_ofTicks (Nat.lt_of_le_of_lt (Nat.le_add_left _ _) h)
  rw [get_add, UInt64.toNat_add, hticks, Nat.mod_eq_of_lt h]

theorem foldr_ofTicks {α : Type} {turns : List α} {counters : α → Counters} {f : α → List Tick}
    (h : ∀ t ∈ turns, counters t = ofTicks (f t)) :
    (turns.map counters).foldr (· + ·) 0 = ofTicks (turns.flatMap f) := by
  induction turns with
  | nil => rfl
  | cons t turns ih =>
    obtain ⟨hfirst, hrest⟩ := List.forall_mem_cons.mp h
    rw [List.map_cons, List.foldr_cons, ih hrest, hfirst, List.flatMap_cons, ofTicks_append]

/-- If the words of the whole have not wrapped, those of the parts have not. -/
theorem toNat_get_flatMap {α : Type} {turns : List α} {counters : α → Counters} {f : α → List Tick}
    (h : ∀ t ∈ turns, counters t = ofTicks (f t)) (hword : (turns.flatMap f).count k < 2 ^ 64) :
    ((ofTicks (turns.flatMap f)).get k).toNat = (turns.map fun t => ((counters t).get k).toNat).sum := by
  rw [toNat_get_ofTicks hword]
  rw [List.count_flatMap] at hword ⊢
  refine congrArg List.sum (List.map_congr_left fun t ht => ?_)
  have hpart : (f t).count k < 2 ^ 64 :=
    Nat.lt_of_le_of_lt (List.le_sum_of_mem (List.mem_map_of_mem (f := List.count k ∘ f) ht)) hword
  rw [h t ht, toNat_get_ofTicks hpart]
  rfl

end Counters

namespace Search

variable [Scalar R] {s : Setting R} {x y : Search R} {top : Frame R} {rest : List (Frame R)}

def ticks (s : Setting R) (x : Search R) (h : Valid s x) : List Tick :=
  match hx : x.stack with
  | [] => []
  | top :: rest =>
    match hy : move s x top rest with
    | .error _ => []
    | .ok y => (record s x).ticks ++ ticks s y (h.move hx hy)
termination_by potential s x
decreasing_by exact potential_move h hx hy

theorem ticks_of_nil (hv : Valid s x) (hx : x.stack = []) : ticks s x hv = [] := by
  rw [ticks]
  split
  · rfl
  · next hx' => cases hx.symm.trans hx'

theorem ticks_of_ok (hv : Valid s x) (hx : x.stack = top :: rest) (hy : move s x top rest = .ok y) :
    ticks s x hv = (record s x).ticks ++ ticks s y (hv.move hx hy) := by
  rw [ticks]
  split
  · next hx' => cases hx.symm.trans hx'
  · next hx' =>
    cases hx.symm.trans hx'
    split
    · next hy' => cases hy.symm.trans hy'
    · next hy' =>
      cases hy.symm.trans hy'
      rfl

/-- A search counts its ticks, as far as words can tell, and these keep the order. -/
theorem tally_run (hv : Valid s x) (h : run s x hv = .ok y) :
    y.tally = x.tally + .ofTicks (ticks s x hv) ∧ Balanced 0 ((ticks s x hv).count ·) := by
  fun_induction Search.run s x hv with
  | case1 x hv hx =>
    cases h
    rw [ticks_of_nil hv hx]
    exact ⟨(Counters.add_zero _).symm, .nil⟩
  | case2 x hv top rest hx e hy => cases h
  | case3 x hv top rest hx z hz ih =>
    obtain ⟨htally, hbalanced⟩ := ih h
    have hmove := accounts_move hx hz
    rw [ticks_of_ok hv hx hz]
    refine ⟨?_, hmove.outcome.balanced.append hbalanced⟩
    rw [htally, hmove.tally, Counters.ofTicks_append, Counters.add_assoc]

end Search

namespace Graph

variable [Scalar R] {g : Graph R} {o : Options}

def flowTicks (g : Graph R) (o : Options) (p : Progress) (worker : Worker R) (id : PortalId) : List Tick :=
  match g.portals[id]?, p.mightSee? id with
  | some portal, some mightSee =>
    if h : portal.target < g.clusters.size then
      .chain :: Search.ticks (g.setting o p id portal) _ (.start h mightSee worker.pool)
    else []
  | _, _ => []

theorem counters_flow {p : Progress} {worker : Worker R} {id : PortalId} {f : Flow R}
    (h : (g.flow o p worker id).result = .ok f) :
    f.worker.counters = worker.counters + .ofTicks (g.flowTicks o p worker id) ∧
      Balanced 1 ((g.flowTicks o p worker id).count ·) := by
  obtain ⟨portal, mightSee, y, ht, hp, -, hm, hy, rfl⟩ := exists_run_of_flow h
  obtain ⟨htally, hbalanced⟩ := Search.tally_run _ hy
  rw [flowTicks, hp, hm]
  dsimp only
  rw [dif_pos ht]
  refine ⟨?_, Balanced.first.append hbalanced⟩
  have hfirst : (Search.start (g.setting o p id portal) mightSee worker.pool).tally = Tick.chain.counters :=
    Counters.zero_add _
  rw [htally, hfirst]
  rfl

def turnTicks (g : Graph R) (o : Options) (p : Progress) (worker : Worker R) : List Tick :=
  match p.claim? with
  | none => []
  | some (id, claimed) => g.flowTicks o claimed worker id

def turnsFrom (g : Graph R) (o : Options) (p : Progress) (worker : Worker R) : List (Turn R × List Tick) :=
  match _h : (g.turn? o p worker).result with
  | .ok (some (t, next)) => (t, g.turnTicks o p worker) :: g.turnsFrom o next t.rested
  | _ => []
termination_by p.waiting
decreasing_by exact waiting_turn _h

def surveyTurns (g : Graph R) (o : Options) : List (Turn R × List Tick) :=
  match (g.prepared o (.ofThreads o.threads)).result with
  | .ok g =>
    match g.mightSets? with
    | some sets => g.turnsFrom o (.ofMightSee sets (1 < (Workers.ofThreads o.threads).count)) {}
    | none => []
  | .error _ => []

variable {p next : Progress} {worker : Worker R} {turn : Turn R}

theorem turnsFrom_of_none (h : (g.turn? o p worker).result = .ok none) : g.turnsFrom o p worker = [] := by
  rw [turnsFrom]
  split
  · next h' => cases h.symm.trans h'
  · rfl

theorem turnsFrom_of_some (h : (g.turn? o p worker).result = .ok (some (turn, next))) :
    g.turnsFrom o p worker = (turn, g.turnTicks o p worker) :: g.turnsFrom o next turn.rested := by
  rw [turnsFrom]
  split
  · next h' =>
    cases h.symm.trans h'
    rfl
  · next h' => exact absurd h (h' turn next)

theorem counters_turn (hw : worker.counters = 0)
    (h : (g.turn? o p worker).result = .ok (some (turn, next))) :
    turn.worker.counters = .ofTicks (g.turnTicks o p worker) ∧
      Balanced 1 ((g.turnTicks o p worker).count ·) ∧ next.total = p.total + turn.worker.counters := by
  obtain ⟨claimed, f, n, hc, hf, hp, hturn⟩ := turn?_eq_some h
  obtain ⟨hcounters, hbalanced⟩ := counters_flow hf
  obtain ⟨-, rfl⟩ := Progress.claim?_eq_some.mp hc
  obtain ⟨-, hprogress, -⟩ := flow_eq_ok hf
  obtain ⟨_, -, -, rfl⟩ := Progress.publish_eq_ok.mp hp
  have hticks : g.turnTicks o p worker = g.flowTicks o (p.setStatus turn.portal .claimed) worker turn.portal := by
    rw [turnTicks, hc]
  rw [hticks, hprogress, hturn]
  rw [hw, Counters.zero_add] at hcounters
  exact ⟨hcounters, hbalanced, rfl⟩

/-- What a worker publishes are its turns, and each adds its ticks to the total. -/
theorem turns_of_drain {announce : Turn R → Progress → Report Unit} {d : Drained R}
    (hw : worker.counters = 0) (hd : (g.drain o announce p worker).result = .ok d) :
    d.turns = (g.turnsFrom o p worker).map (·.1) ∧
    d.progress.total = p.total + ((g.turnsFrom o p worker).map (·.1.worker.counters)).foldr (· + ·) 0 ∧
    ∀ t ∈ g.turnsFrom o p worker, t.1.worker.counters = .ofTicks t.2 ∧ Balanced 1 (t.2.count ·) := by
  induction hn : p.waiting using Nat.strong_induction_on generalizing p worker d with
  | _ n ih =>
    obtain ⟨hend, rfl⟩ | ⟨turn, next, rest, ht, hrest, rfl⟩ := drain_eq_ok hd
    · rw [turnsFrom_of_none hend]
      exact ⟨rfl, (Counters.add_zero _).symm, by simp⟩
    · obtain ⟨hcounters, hbalanced, htotal⟩ := counters_turn hw ht
      obtain ⟨hturns, hall, hevery⟩ := ih next.waiting (hn ▸ waiting_turn ht) rfl hrest rfl
      rw [turnsFrom_of_some ht]
      refine ⟨congrArg (turn :: ·) hturns, ?_, List.forall_mem_cons.mpr ⟨⟨hcounters, hbalanced⟩, hevery⟩⟩
      rw [List.map_cons, List.foldr_cons, ← Counters.add_assoc, ← htotal]
      exact hall

/-- The turns of a worker on its own are those of the portals that wait, one of each. -/
theorem Run.portals_of_drain {t : Stage} (h : g.Run o t) {announce : Turn R → Progress → Report Unit}
    {d : Drained R} (hd : (g.drain o announce t.progress worker).result = .ok d) :
    (d.turns.map (·.portal)).Nodup ∧
      ∀ i, i ∈ d.turns.map (·.portal) ↔ t.progress.status? i = some .waiting := by
  induction hn : t.progress.waiting using Nat.strong_induction_on generalizing t worker d with
  | _ n ih =>
    obtain ⟨hend, rfl⟩ | ⟨turn, next, rest, ht, hrest, rfl⟩ := drain_eq_ok hd
    · have hnone := Progress.claim?_eq_none (turn?_eq_none hend)
      exact ⟨.nil, fun i => ⟨fun hi => absurd hi List.not_mem_nil, fun hi => absurd hi (hnone i)⟩⟩
    · obtain ⟨hrun, hwaits, hstatus⟩ := h.turn ht
      obtain ⟨hnodup, hmem⟩ := ih next.waiting (hn ▸ waiting_turn ht) hrun hrest rfl
      -- the portal of the turn does not wait any more, and nothing else has changed
      have hnext (i : PortalId) : next.status? i = some .waiting ↔
          turn.portal ≠ i ∧ t.progress.status? i = some .waiting := by
        rw [hstatus, Option.map_eq_some_iff]
        by_cases hi : turn.portal = i
        · simp [hi]
        · simp [hi]
      refine ⟨List.nodup_cons.mpr ⟨fun hi => ?_, hnodup⟩, fun i => ?_⟩
      · exact ((hnext _).mp ((hmem _).mp hi)).1 rfl
      · rw [List.map_cons, List.mem_cons, hmem, hnext]
        by_cases hi : i = turn.portal
        · simp [hi, hwaits]
        · simp [hi, Ne.symm hi]

/-- A survey is put together from the turns of one worker, one for each portal. -/
theorem Built.exists_survey (hg : g.Built) (hfast : o.fast = false) : ∃ found g₁ g₂ d,
    (g.survey o).result = .ok (found, g₂) ∧ (g.prepared o (.ofThreads o.threads)).result = .ok g₁ ∧
    (g₁.drain o (announceTurn 0)
      (.ofMightSee found.mightSee (1 < (Workers.ofThreads o.threads).count)) {}).result = .ok d ∧
    d.turns = (g.surveyTurns o).map (·.1) ∧ (d.turns.map (·.portal)).Perm (List.range g.portals.size) ∧
    found.total = (d.turns.map (·.worker.counters)).foldr (· + ·) 0 ∧
    ∀ t ∈ g.surveyTurns o, t.1.worker.counters = .ofTicks t.2 ∧ Balanced 1 (t.2.count ·) := by
  have hs := hg.sound
  obtain ⟨found, g₂, hfound⟩ : ∃ found g₂, (g.survey o).result = .ok (found, g₂) := by
    obtain ⟨_, _, _, _, _, _, -, -, -, -, h⟩ := survey_spec hs o
    exact ⟨_, _, h⟩
  obtain ⟨g₁, d, h₁, hsets, hd, -, htotal⟩ := survey_drained hs hfast hfound
  have hturns : g.surveyTurns o = g₁.turnsFrom o
      (.ofMightSee found.mightSee (1 < (Workers.ofThreads o.threads).count)) {} := by
    rw [surveyTurns, h₁]
    dsimp only
    rw [hsets]
  obtain ⟨hpublished, htotals, hevery⟩ := turns_of_drain rfl hd
  obtain ⟨hnodup, hmem⟩ := Run.portals_of_drain (.start hsets) hd
  rw [← hturns] at hpublished htotals hevery
  refine ⟨found, g₁, g₂, d, hfound, h₁, hd, hpublished, ?_, ?_, hevery⟩
  · refine (List.perm_ext_iff_of_nodup hnodup List.nodup_range).mpr fun i => ?_
    have hlength : found.mightSee.length = g.portals.size := by
      rw [length_mightSets hsets, (Alike.prepared h₁).portals]
    rw [hmem, Progress.status?_ofMightSee, List.mem_range, ← hlength]
    simp [List.getElem?_eq_some_iff]
  · rw [htotal, htotals, hpublished, List.map_map]
    exact Counters.zero_add _

/-- Every candidate is counted once. The total of a survey is the sum over its turns, of which there is one for each
portal and which count their ticks. As long as no word wraps, it is the sum as numbers, and the counters keep an
order: each candidate is judged by one kind of evidence, what is looked at lengthens the chain or ends at one clip or
at none, what is trimmed was tested and what was tested met a plane. What a single flow adds keeps the same order. -/
theorem Built.counted_once (hg : g.Built) (hfast : o.fast = false) :
    (∃ found g₁ g₂ d, (g.survey o).result = .ok (found, g₂) ∧
      (g.prepared o (.ofThreads o.threads)).result = .ok g₁ ∧
      (g₁.drain o (announceTurn 0)
        (.ofMightSee found.mightSee (1 < (Workers.ofThreads o.threads).count)) {}).result = .ok d ∧
      d.turns = (g.surveyTurns o).map (·.1) ∧ (d.turns.map (·.portal)).Perm (List.range g.portals.size) ∧
      found.total = (d.turns.map (·.worker.counters)).foldr (· + ·) 0 ∧
      (∀ t ∈ g.surveyTurns o, t.1.worker.counters = .ofTicks t.2) ∧
      ((∀ k, ((g.surveyTurns o).flatMap (·.2)).count k < 2 ^ 64) →
        (∀ k, (found.total.get k).toNat = (d.turns.map fun t => (t.worker.counters.get k).toNat).sum) ∧
        Balanced g.portals.size fun k => (found.total.get k).toNat)) ∧
    ∀ p worker id f, (g.flow o p worker id).result = .ok f →
      f.worker.counters = worker.counters + .ofTicks (g.flowTicks o p worker id) ∧
      ((∀ k, (worker.counters.get k).toNat + (g.flowTicks o p worker id).count k < 2 ^ 64) →
        Balanced 1 fun k => (f.worker.counters.get k).toNat - (worker.counters.get k).toNat) := by
  refine ⟨?_, fun p worker id f hf => ?_⟩
  · obtain ⟨found, g₁, g₂, d, hfound, h₁, hd, hturns, hperm, htotal, hevery⟩ := hg.exists_survey hfast
    refine ⟨found, g₁, g₂, d, hfound, h₁, hd, hturns, hperm, htotal, fun t ht => (hevery t ht).1, ?_⟩
    intro hbound
    have hsum : found.total = .ofTicks ((g.surveyTurns o).flatMap (·.2)) := by
      rw [htotal, hturns, List.map_map]
      exact Counters.foldr_ofTicks fun t ht => (hevery t ht).1
    have hlength : (g.surveyTurns o).length = g.portals.size := by
      have hlen := hperm.length_eq
      rwa [hturns, List.map_map, List.length_map, List.length_range] at hlen
    refine ⟨fun k => ?_, ?_⟩
    · rw [hsum, hturns, List.map_map]
      exact Counters.toNat_get_flatMap (fun t ht => (hevery t ht).1) (hbound k)
    · simp only [hsum, Counters.toNat_get_ofTicks (hbound _), ← hlength]
      exact .flatMap fun t ht => (hevery t ht).2
  · obtain ⟨hcounters, hbalanced⟩ := counters_flow hf
    refine ⟨hcounters, fun hbound => ?_⟩
    have hadded (k : Tick) : (f.worker.counters.get k).toNat - (worker.counters.get k).toNat =
        (g.flowTicks o p worker id).count k := by
      rw [hcounters, Counters.toNat_get_add_ofTicks (hbound k), Nat.add_sub_cancel_left]
    simpa only [hadded] using hbalanced

/-- The last portal of the forked way is claimed, and nothing is known of the others but their bounds. -/
def forkedStart : Progress := (Progress.ofMightSee forkedSets false).setStatus 7 .claimed

/-- What a survey of the forked way counts, which is far from wrapping. -/
theorem forked_surveyTicks :
    ((forked.surveyTurns { level := 4, passages := false }).flatMap (·.2)).length < 2 ^ 64 ∧
    ((forked.surveyTurns { level := 4, passages := false }).flatMap (·.2)).count .planeTest = 30 ∧
    ((forked.surveyTurns { level := 4, passages := false }).flatMap (·.2)).count (.clipped .target) = 2 ∧
    ((forked.surveyTurns { level := 4, passages := false }).flatMap (·.2)).count (.trimmed .source) = 6 := by
  have hturns : forked.surveyTurns { level := 4, passages := false } =
      forked.turnsFrom { level := 4, passages := false } (.ofMightSee forkedSets false) {} := by
    have hready : (forked.prepared { level := 4, passages := false } (.ofThreads 1)).result = .ok forked := rfl
    rw [surveyTurns, hready]
    dsimp only
    rw [forked_mightSets]
    rfl
  rw [hturns]
  decide +kernel

/-- What a flow counts whose way on is clipped. -/
theorem forked_flowTicks : (forked.flowTicks { level := 4 } forkedStart {} 7).length < 2 ^ 64 ∧
    (forked.flowTicks { level := 4 } forkedStart {} 7).count (.clipped .target) = 1 := by decide +kernel

/-- In the forked way there are eight portals to be counted for, and planes that clip and trim. -/
theorem forked_counted :
    (∃ found g₁, (forked.survey { level := 4, passages := false }).result = .ok (found, g₁) ∧
      Balanced 8 (fun k => (found.total.get k).toNat) ∧ (found.total.get .planeTest).toNat = 30 ∧
      (found.total.get (.clipped .target)).toNat = 2 ∧ (found.total.get (.trimmed .source)).toNat = 6) ∧
    ∃ f, (forked.flow { level := 4 } forkedStart {} 7).result = .ok f ∧
      Balanced 1 (fun k => (f.worker.counters.get k).toNat) ∧
      (f.worker.counters.get (.clipped .target)).toNat = 1 := by
  obtain ⟨hbound, hmet, hclipped, htrimmed⟩ := forked_surveyTicks
  have hall (k : Tick) := Nat.lt_of_le_of_lt (List.count_le_length (a := k)) hbound
  obtain ⟨⟨found, _, g₁, d, hfound, -, -, hturns, -, htotal, hevery, hword⟩, -⟩ :=
    forked_built.counted_once (o := { level := 4, passages := false }) rfl
  have hsum : found.total = .ofTicks ((forked.surveyTurns { level := 4, passages := false }).flatMap (·.2)) := by
    rw [htotal, hturns, List.map_map]
    exact Counters.foldr_ofTicks hevery
  have hportals : forked.portals.size = 8 := by decide +kernel
  rw [hportals] at hword
  obtain ⟨hbound', hclipped'⟩ := forked_flowTicks
  have hall' (k : Tick) := Nat.lt_of_le_of_lt (List.count_le_length (a := k)) hbound'
  obtain ⟨-, hflow⟩ := forked_built.counted_once (o := { level := 4 }) rfl
  have hlast : 7 < forked.portals.size := by decide +kernel
  obtain ⟨f, hf, -⟩ := flow_spec forked_built.sound (p := forkedStart) (by decide +kernel)
    (Array.getElem?_eq_getElem hlast) (by decide +kernel) { level := 4 } {}
  obtain ⟨hcounters, hsingle⟩ := hflow forkedStart {} 7 f hf
  rw [Counters.zero_add] at hcounters
  refine ⟨⟨found, g₁, hfound, (hword hall).2, ?_, ?_, ?_⟩, f, hf, ?_, ?_⟩
  · rw [hsum, Counters.toNat_get_ofTicks (hall _), hmet]
  · rw [hsum, Counters.toNat_get_ofTicks (hall _), hclipped]
  · rw [hsum, Counters.toNat_get_ofTicks (hall _), htrimmed]
  · have hfresh (k : Tick) : (({} : Worker Float).counters.get k).toNat = 0 :=
      congrArg UInt64.toNat (Counters.get_zero k)
    simpa only [hfresh, Nat.zero_add, Nat.sub_zero, hall', forall_const, forall_true_left] using hsingle
  · rw [hcounters, Counters.toNat_get_ofTicks (hall' _), hclipped']

end Graph

end Sightline
