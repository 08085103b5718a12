import Sightline.Proofs.InPlace
import Sightline.Proofs.Twins
import Sightline.Proofs.Walk

/-! A worker can be used again. The search in its buffers goes the way that the search with new sets goes,
since every set taken from it is empty and clean. So what the worker did before makes no difference, neither
to what a flow finds nor to what it counts. -/

namespace Sightline

variable {R : Type}

/-- Two desks where the same is known, and where one was `lead` ahead in counting from the start. -/
structure Desk.Ahead (lead : Counters) (d d' : Desk R) : Prop where
  known : d.known = d'.known
  tally : d'.tally = lead + d.tally

theorem Desk.Ahead.kept (lead : Counters) : Desk.Kept (Desk.Ahead (R := R) lead) := by
  refine ⟨fun c h => ⟨h.known, ?_⟩, fun _ _ h => ⟨h.known, h.tally⟩⟩
  dsimp only
  rw [h.tally, Counters.add_assoc]

variable [Scalar R]

namespace Attempt

variable {lead : Counters}

omit [Scalar R] in
theorem ahead_learn (dir : Direction) (planes : Planes R) :
    InStep (Desk.Ahead lead) (learn dir planes) (learn dir planes) :=
  fun _ _ h => ⟨rfl, congrArg (·.set dir planes) h.known, h.tally⟩

theorem ahead_planesFor (s : Setting R) (source : Winding R) (exit : PortalId) (pass : Winding R)
    (dir : Direction) : InStep (Desk.Ahead lead) (planesFor s source exit pass dir)
      (planesFor s source exit pass dir) := by
  intro d d' h
  have hget (d : Desk R) : (get : Attempt R (Desk R)).run d = (some d, d) := rfl
  rw [planesFor, run_bind, run_bind, hget, hget]
  dsimp only
  rw [h.known]
  split
  · exact ⟨rfl, h⟩
  · split
    · exact ((ahead_learn dir _).bind fun _ => .pure _) d d' h
    · refine ((InStep.borrowPlanes (Desk.Ahead.kept lead)).bind fun _ => ?_) d d' h
      exact (ahead_learn dir _).bind fun _ => .pure _

end Attempt

namespace InPlace

variable {s : Setting R} {spare : PortalId → Nat} {lead : Counters} {x y : Sightline.Search R}
  {x' y' : Search R} {top : Frame R} {rest : List (Frame R)} {id : PortalId}

/-- The search in buffers has come as far as the other, and has counted as much on top of `lead`. -/
structure Mirrors (lead : Counters) (x : Sightline.Search R) (x' : Search R) : Prop where
  stack : x.stack = x'.stack.map Frame.plain
  onChain : x.onChain = x'.onChain.contents
  visible : x.visible = x'.visible.contents
  counters : x'.worker.counters = lead + x.tally

omit [Scalar R] in
theorem Mirrors.descend (h : Mirrors lead x x') (f : Frame R) :
    Mirrors lead (x.descend f.plain) (x'.descend f) := by
  refine ⟨congrArg (f.plain :: ·) h.stack, ?_, ?_, ?_⟩
  · exact (congrArg (·.insert f.cluster) h.onChain).trans (Stored.contents_insert _ _).symm
  · exact (congrArg (·.insert f.cluster) h.visible).trans (Stored.contents_insert _ _).symm
  · show x'.worker.counters + _ = lead + (x.tally + _)
    rw [h.counters, Counters.add_assoc]

omit [Scalar R] in
theorem Mirrors.retreat (h : Mirrors lead x x') (top : Frame R) (rest : List (Frame R)) :
    Mirrors lead (x.retreat top.plain (rest.map Frame.plain)) (x'.retreat top rest) := by
  refine ⟨rfl, ?_, h.visible, h.counters⟩
  exact (congrArg (·.erase top.cluster) h.onChain).trans (Stored.contents_erase _ _).symm

omit [Scalar R] in
theorem Mirrors.take (h : Mirrors lead x x') (pool : Pool R) (n : Nat) :
    Mirrors lead { x with pool } { x' with worker := (x'.worker.takeSet n).2 } :=
  ⟨h.stack, h.onChain, h.visible, (Worker.counters_takeSet _ n).trans h.counters⟩

omit [Scalar R] in
theorem Mirrors.start {mightSee : BitSet} (hsize : mightSee.size = s.graph.clusters.size)
    (pool : Pool R) (w : Worker R) (n : Nat) :
    Mirrors w.counters (Sightline.Search.start s mightSee pool) (.start s (.lay mightSee n) w) := by
  have hidle : Mirrors w.counters (.idle s pool)
      ⟨[], .blank s.graph.clusters.size, .blank s.graph.clusters.size, w⟩ :=
    ⟨rfl, (Stored.contents_blank _).symm, (Stored.contents_blank _).symm, (Counters.add_zero _).symm⟩
  have hmask : ((w.takeSet s.graph.clusters.size).1.copy (.lay mightSee n)).contents =
      (pool.borrowSet s.graph.clusters.size).1 ∪ mightSee := by
    rw [w.contents_copy_takeSet ((Stored.size_lay _ _).trans hsize), Stored.contents_lay,
      Pool.borrowSet_union hsize]
  unfold Sightline.Search.start Search.start
  dsimp only
  rw [← hmask]
  exact (hidle.take _ _).descend ⟨s.portal.target, s.portal.whole, none, s.portal.plane,
    (w.takeSet s.graph.clusters.size).1.copy (.lay mightSee n), {}, s.graph.portalsOf s.portal.target⟩

theorem narrow_ahead (s : Setting R) (f : Sightline.Frame R) (ahead : Portal R) :
    Attempt.InStep (Desk.Ahead lead) (narrow s f ahead) (narrow s f ahead) := by
  apply narrow_inStep (Desk.Ahead.kept lead)
  · rfl
  · rfl
  intro exit pass dir _
  exact Attempt.ahead_planesFor s f.source exit pass dir

theorem Mirrors.extend (h : Mirrors lead x x') (htop : top.mask.size = s.graph.clusters.size)
    (ahead : Portal R) {evidence : BitSet} (hsize : evidence.size = s.graph.clusters.size) (n : Nat) :
    Mirrors lead (Sightline.Search.extend s x top.plain (rest.map Frame.plain) id ahead evidence)
      (Search.extend s x' top rest id ahead (.lay evidence n)) := by
  have hstart : Desk.Ahead lead ⟨top.plain.known, x.tally + { checks := 1 }, x.pool⟩
      ((x'.worker.count { checks := 1 }).desk top.known) := by
    refine ⟨rfl, ?_⟩
    show x'.worker.counters + _ = lead + (x.tally + _)
    rw [h.counters, Counters.add_assoc]
  obtain ⟨hleft, hdesk⟩ := narrow_ahead s top.plain ahead _ _ hstart
  unfold Sightline.Search.extend Search.extend
  rcases hrun : (narrow s top.plain ahead).run ⟨top.plain.known, x.tally + { checks := 1 }, x.pool⟩
    with ⟨left, desk⟩
  rcases hrun' : (narrow s top.plain ahead).run ((x'.worker.count { checks := 1 }).desk top.known)
    with ⟨left', desk'⟩
  rw [hrun, hrun'] at hleft hdesk
  dsimp only at hleft hdesk ⊢
  rw [hrun]
  subst hleft
  have hstack : { top.plain with known := desk.known } :: rest.map Frame.plain =
      ({ top with known := desk'.known } :: rest).map Frame.plain := by
    rw [hdesk.known]
    rfl
  have hkept : Mirrors lead
      ⟨{ top.plain with known := desk.known } :: rest.map Frame.plain, x.onChain, x.visible, desk.tally,
        desk.pool⟩
      ⟨{ top with known := desk'.known } :: rest, x'.onChain, x'.visible, x'.worker.leaveDesk desk'⟩ :=
    ⟨hstack, h.onChain, h.visible, hdesk.tally⟩
  cases left with
  | none => exact hkept
  | some left =>
    obtain ⟨source, pass⟩ := left
    have hmask : (((x'.worker.leaveDesk desk').takeSet s.graph.clusters.size).1.meet top.mask
          (.lay evidence n)).contents =
        (desk.pool.borrowSet s.graph.clusters.size).1 ∪ (top.plain.mask ∩ evidence) := by
      have hinter : (top.plain.mask ∩ evidence).size = s.graph.clusters.size :=
        (Stored.size_contents _).trans htop
      rw [Worker.contents_meet_takeSet _ htop hsize, Stored.contents_lay, Pool.borrowSet_union hinter]
      rfl
    dsimp only
    rw [← hmask]
    exact (hkept.take _ _).descend ⟨ahead.target, source, some (id, pass), ahead.plane,
      ((x'.worker.leaveDesk desk').takeSet s.graph.clusters.size).1.meet top.mask (.lay evidence n), {},
      s.graph.portalsOf ahead.target⟩

omit [Scalar R] in
theorem Mirrors.count (h : Mirrors lead x x') (c : Counters) :
    Mirrors lead { x with tally := x.tally + c } { x' with worker := x'.worker.count c } := by
  refine ⟨h.stack, h.onChain, h.visible, ?_⟩
  show x'.worker.counters + c = lead + (x.tally + c)
  rw [h.counters, Counters.add_assoc]

omit [Scalar R] in
theorem Mirrors.restack (h : Mirrors lead x x') (stack : List (Frame R)) :
    Mirrors lead { x with stack := stack.map Frame.plain } { x' with stack } :=
  ⟨rfl, h.onChain, h.visible, h.counters⟩

theorem Mirrors.attempt (hs : Sightline.Search.Covered s) (h : Mirrors lead x x') (ht : Search.Tidy s x')
    (htop : top.Masked s) (id : PortalId) : Paired (Mirrors lead)
      (Sightline.Search.attempt s x top.plain (rest.map Frame.plain) id)
      (Search.attempt s spare x' top rest id) := by
  obtain ⟨hclean, hsize⟩ := htop
  have hstack := h.restack (top :: rest)
  unfold Sightline.Search.attempt Search.attempt
  dsimp only
  cases hp : s.graph.portals[id]? with
  | none => exact .error _
  | some ahead =>
    obtain ⟨evidence, he, hevidence⟩ := hs.covers id ahead hp
    have hmask : top.plain.mask = top.mask.contents := rfl
    have hplane : top.plain.passPlane = top.passPlane := rfl
    have hshows : Stored.shows top.mask (.lay evidence.set (spare id)) x'.visible = true ↔
        ¬top.mask.contents ∩ evidence.set ⊆ x.visible := by
      rw [h.visible, Stored.shows_iff hclean (hevidence.trans hsize.symm)
        (ht.visible.2.trans hsize.symm), Stored.contents_lay]
    rw [← h.onChain, he, hmask, hplane]
    dsimp only
    split
    · exact .ok hstack
    · by_cases hnew : top.mask.contents ∩ evidence.set ⊆ x.visible
      · rw [if_pos hnew, if_neg (mt hshows.mp (not_not_intro hnew))]
        exact .ok ((hstack.count _).count _)
      · rw [if_neg hnew, if_pos (hshows.mpr hnew)]
        split
        · exact .ok (hstack.count _)
        · exact .ok ((hstack.count _).extend hsize ahead hevidence (spare id))

theorem Mirrors.move (hs : Sightline.Search.Covered s) (h : Mirrors lead x x') (ht : Search.Tidy s x')
    (hx : x'.stack = top :: rest) :
    Paired (Mirrors lead) (Sightline.Search.move s x top.plain (rest.map Frame.plain))
      (Search.move s spare x' top rest) := by
  obtain ⟨htop, -⟩ := ht.of_cons hx
  unfold Sightline.Search.move Search.move
  have htodo : top.plain.todo = top.todo := rfl
  rw [htodo]
  cases top.todo with
  | nil => exact .ok (h.retreat top rest)
  | cons id todo =>
    have htop' : Frame.Masked s { top with todo } := htop
    exact h.attempt hs ht htop' id

theorem Mirrors.run (hs : Sightline.Search.Covered s) (h : Mirrors lead x x') (ht : Search.Tidy s x')
    {hv : Sightline.Search.Valid s x} (hy : Sightline.Search.run s x hv = .ok y) :
    ∃ y', Search.Ends s spare x' y' ∧ Mirrors lead y y' := by
  fun_induction Sightline.Search.run s x hv generalizing x' with
  | case1 x hv hx =>
    cases hy
    have hx' : x'.stack = [] := List.map_eq_nil_iff.mp (h.stack.symm.trans hx)
    exact ⟨x', .stop hx', h⟩
  | case2 x hv top rest hx e he => cases hy
  | case3 x hv top rest hx z hz ih =>
    obtain ⟨top', rest', hx', rfl, rfl⟩ := List.map_eq_cons_iff.mp (h.stack.symm.trans hx)
    obtain ⟨z', hz', hnext⟩ := (h.move hs ht hx').exists_ok hz
    obtain ⟨y', hends, hlast⟩ := ih hnext (ht.move hx' hz') hy
    exact ⟨y', .move hx' hz' hends, hlast⟩

/-- Whatever a worker did before, the search in its buffers ends as the search of a new worker does, and
counts the same on top of what was counted. -/
theorem exists_ends (spare : PortalId → Nat) (hs : Sightline.Search.Covered s) {mightSee : BitSet}
    (hsize : mightSee.size = s.graph.clusters.size) (pool : Pool R)
    {hv : Sightline.Search.Valid s (.start s mightSee pool)}
    (hy : Sightline.Search.run s (.start s mightSee pool) hv = .ok y) (n : Nat) {w : Worker R}
    (hw : w.Clean) : ∃ y', Search.Ends s spare (.start s (.lay mightSee n) w) y' ∧
      Mirrors w.counters y y' ∧ Search.Tidy s y' := by
  have hstart : Search.Tidy s (.start s (.lay mightSee n) w) := .start hw s _
  obtain ⟨y', hends, hlast⟩ := (Mirrors.start hsize pool w n).run hs hstart hy
  exact ⟨y', hends, hlast, hends.tidy hstart⟩

end InPlace

namespace Graph

variable {g : Graph R}

/-- What a worker did before makes no difference to a flow. With any pool, and in any buffers that earlier
flows left behind, it finds what it finds with a new worker, and adds the same to the counters, whatever
these were. -/
theorem history_makes_no_difference (hg : g.Built) {p : Progress} (hp : p.Covers g) {base : PortalId}
    {portal : Portal R} (hb : g.portals[base]? = some portal) (hc : p.status? base = some .claimed)
    (o : Options) : ∃ fresh, (g.flow o p {} base).result = .ok fresh ∧
      (∀ worker, ∃ f, (g.flow o p worker base).result = .ok f ∧ f.visible = fresh.visible ∧
        f.worker.counters = worker.counters + fresh.worker.counters) ∧
      ∀ (spare : PortalId → Nat) (w : InPlace.Worker R), w.Seasoned →
        (∃ set left, InPlace.Flows g spare o p base w set left) ∧
        ∀ set left, InPlace.Flows g spare o p base w set left →
          set.contents = fresh.visible ∧ set.Clean ∧
          left.counters = w.counters + fresh.worker.counters := by
  have hs := hg.covered_setting hp hc o portal
  obtain ⟨mightSee, hm, hsize⟩ := hp.exists_mightSee hb hc (by simp)
  have htarget : portal.target < g.clusters.size := hg.sound.target_lt hb
  have hrun (pool : Pool R) : ∃ y, Search.run (g.setting o p base portal) _
      (.start htarget mightSee pool) = .ok y := by
    have hstart : Search.Simple (g.setting o p base portal) _ := .start htarget mightSee pool
    obtain ⟨y, -, hy, -⟩ := hstart.run hs (.start htarget mightSee pool)
    exact ⟨y, hy⟩
  obtain ⟨y, hy⟩ := hrun {}
  have hcounted : (0 : Counters) + y.tally = y.tally := Counters.zero_add _
  refine ⟨_, flow_of_run hb hc hm htarget hsize hy, fun worker => ?_, fun spare w hw => ?_⟩
  · -- both searches are compared with the search in the buffers of a new worker
    obtain ⟨z, hz⟩ := hrun worker.pool
    have hnew : InPlace.Worker.Clean (R := R) {} := List.forall_mem_nil _
    obtain ⟨y', hends, hy', -⟩ := InPlace.exists_ends (fun _ => 0) hs hsize {} hy 0 hnew
    obtain ⟨z', hends', hz', -⟩ := InPlace.exists_ends (fun _ => 0) hs hsize _ hz 0 hnew
    cases hends.unique hends'
    refine ⟨_, flow_of_run hb hc hm htarget hsize hz, hz'.visible.trans hy'.visible.symm, ?_⟩
    have hsame : (0 : Counters) + z.tally = 0 + y.tally := hz'.counters.symm.trans hy'.counters
    rw [Counters.zero_add] at hsame
    exact congrArg (worker.counters + ·) hsame
  · obtain ⟨y', hends, hy', htidy⟩ :=
      InPlace.exists_ends spare hs hsize {} hy (spare base) hw.clean
    refine ⟨⟨_, _, portal, mightSee, y', hc, hb, hm, htarget, hsize, hends, rfl, rfl⟩, ?_⟩
    rintro set left ⟨_, _, x, -, hb', hm', -, -, hends', rfl, rfl⟩
    cases hb.symm.trans hb'
    cases hm.symm.trans hm'
    cases hends.unique hends'
    exact ⟨hy'.visible.symm, htidy.visible.1, hy'.counters.trans (congrArg (w.counters + ·) hcounted.symm)⟩

/-- The flow of the first portal of the crooked way is made twice in the same buffers. -/
theorem crooked_again : ∃ fresh once twice set set',
    (crooked.flow { level := 4 } crookedStart {} 0).result = .ok fresh ∧
    InPlace.Flows crooked (fun _ => 255) { level := 4 } crookedStart 0 {} set once ∧
    InPlace.Flows crooked (fun _ => 170) { level := 4 } crookedStart 0 once set' twice ∧
    set'.contents = fresh.visible ∧
    twice.counters = once.counters + fresh.worker.counters := by
  obtain ⟨portal, hb⟩ := crooked_portal
  have hcovers : crookedStart.Covers crooked := by decide +kernel
  have hclaimed : crookedStart.status? 0 = some .claimed := by decide +kernel
  obtain ⟨fresh, hfresh, -, hall⟩ :=
    history_makes_no_difference crooked_built hcovers hb hclaimed { level := 4 }
  obtain ⟨⟨set, once, hflow⟩, -⟩ := hall (fun _ => 255) {} .new
  obtain ⟨⟨set', twice, hflow'⟩, hsame⟩ := hall (fun _ => 170) once (.flown .new hflow)
  obtain ⟨hset, -, hcounters⟩ := hsame set' twice hflow'
  exact ⟨fresh, once, twice, set, set', hfresh, hflow, hflow', hset, hcounters⟩

end Graph

end Sightline
