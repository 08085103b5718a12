import Mathlib.Data.List.Forall2
import Sightline.Flow
import Sightline.Proofs.Lifecycle
import Sightline.Proofs.Narrowing

/-! The search finds the ends of all chains. It goes on from the current chain only where something new
could be seen, and cuts off whatever cannot lead to a new cluster. That loses nothing: every chain either
ends in a cluster that was reached, or goes on from the stack by a portal that was not tried yet. It loses
nothing either when the evidence changes between two moves, as far as chains go by the least there is. -/

namespace Sightline

variable {R : Type}

namespace Progress

/-- The sets have a bit for every cluster, and no portal is thought to hide its own target. -/
structure Fits (p : Progress) (g : Graph R) : Prop where
  size : ∀ (id : PortalId) (set : BitSet), p.mightSee? id = some set → set.size = g.clusters.size
  own : ∀ (id : PortalId) (portal : Portal R), g.portals[id]? = some portal →
    portal.target ∈ p.test id

theorem fits_iff {p : Progress} {g : Graph R} : p.Fits g ↔
    (∀ e ∈ p.entries, e.mightSee.size = g.clusters.size) ∧
      ∀ x ∈ g.portals.toList.zipIdx, (p.evidence? x.2).any (x.1.target ∈ ·.set) := by
  constructor
  · rintro ⟨hs, ho⟩
    refine ⟨fun e he => ?_, fun x hx => ?_⟩
    · obtain ⟨i, hi⟩ := Array.mem_iff_getElem?.mp he
      exact hs i _ (by rw [mightSee?, hi, Option.map_some])
    · obtain ⟨e, he, hc⟩ := ho x.2 x.1 (by simpa [List.mem_zipIdx_iff_getElem?] using hx)
      simpa [he] using hc
  · rintro ⟨hs, ho⟩
    refine ⟨fun id set h => ?_, fun id portal h => ?_⟩
    · obtain ⟨e, he, rfl⟩ := Option.map_eq_some_iff.mp h
      exact hs e (Array.mem_of_getElem? he)
    · have hx := ho (portal, id) (by simpa [List.mem_zipIdx_iff_getElem?] using h)
      obtain ⟨e, he, hc⟩ := (Option.any_eq_true _ _).mp hx
      exact ⟨e, he, of_decide_eq_true hc⟩

instance (p : Progress) (g : Graph R) : Decidable (p.Fits g) := decidable_of_iff _ fits_iff.symm

theorem Fits.setStatus {p : Progress} {g : Graph R} {id : PortalId} (hp : p.Fits g)
    (hd : p.status? id ≠ some .done) {s : Status} (hs : s ≠ .done) : (p.setStatus id s).Fits g := by
  refine ⟨fun i set hi => ?_, fun i portal hi => ?_⟩
  · rw [mightSee?_setStatus] at hi
    exact hp.size i set hi
  · rw [test_setStatus hd hs]
    exact hp.own i portal hi

end Progress

/-- What chains of a flow go by if `test` is what is known of the portals. -/
def Setting.under (s : Setting R) (test : PortalId → Set ClusterId) : Outlook R :=
  ⟨s.graph, s.level, s.portal, s.progress.bound s.base, test⟩

def Setting.outlook (s : Setting R) : Outlook R := s.under s.progress.test

variable [Scalar R]

structure Setting.Ready (s : Setting R) : Prop where
  sound : s.graph.Sound
  base : s.graph.portals[s.base]? = some s.portal
  fits : s.progress.Fits s.graph

/-- At this moment the portals are judged by no less than `lo` and by no more than `hi`. -/
structure Setting.Between (s : Setting R) (lo hi : PortalId → Set ClusterId) : Prop where
  own : ∀ {id : PortalId} {portal : Portal R}, s.graph.portals[id]? = some portal → portal.target ∈ lo id
  lower : ∀ {id : PortalId} {portal : Portal R}, s.graph.portals[id]? = some portal → lo id ⊆ s.progress.test id
  upper : ∀ {id : PortalId} {portal : Portal R}, s.graph.portals[id]? = some portal → s.progress.test id ⊆ hi id

theorem Setting.Ready.between {s : Setting R} (hs : s.Ready) : s.Between s.progress.test s.progress.test :=
  ⟨fun hp => hs.fits.own _ _ hp, fun _ => subset_rfl, fun _ => subset_rfl⟩

namespace Search

variable {s : Setting R} {x y : Search R} {top : Frame R} {rest : List (Frame R)} {id : PortalId}
  {lo hi : PortalId → Set ClusterId}

/-- A chain like that on the stack, but maybe with tighter masks, goes on by the given portal. -/
def GoesOn (u : Outlook R) (stack : List (Frame R)) (id : PortalId) (links : List (Link R)) : Prop :=
  ∃ last rest next, stack.Forall₂ (fun f l => l.Loosens f.link) (last :: rest) ∧
    u.Extends last rest id next ∧ next :: last :: rest <:+ links

/-- It goes on like that from a frame on the stack by a portal that was not tried yet. -/
def Pending (u : Outlook R) : List (Frame R) → List (Link R) → Prop
  | [], _ => False
  | top :: rest, links => (∃ id ∈ top.todo, GoesOn u (top :: rest) id links) ∨ Pending u rest links

omit [Scalar R] in
theorem map_cluster_eq {r : Frame R → Link R → Prop} (hr : ∀ f l, r f l → f.cluster = l.cluster)
    {stack : List (Frame R)} {links : List (Link R)} (h : stack.Forall₂ r links) :
    stack.map (·.cluster) = links.map (·.cluster) := by
  induction h with
  | nil => rfl
  | cons hfl _ ih => rw [List.map_cons, List.map_cons, hr _ _ hfl, ih]

/-- What holds all along a search whose moves go by evidence between `lo` and `hi`. It has not lost a chain
under `lo`, and all it found are ends of chains under `hi`. -/
structure Between (s : Setting R) (lo hi : PortalId → Set ClusterId) (x : Search R) : Prop where
  intact : ∀ f ∈ x.stack, f.Intact s
  chain : x.stack ≠ [] →
    ∃ links, (s.under hi).Chain links ∧ x.stack.Forall₂ (fun f l => f.link.Loosens l) links
  todo : ∀ f ∈ x.stack, f.todo ⊆ s.graph.portalsOf f.cluster
  size : x.visible.size = s.graph.clusters.size
  found : ∀ c ∈ x.visible, c ∈ (s.under hi).sees
  pending : ∀ last rest, (s.under lo).Chain (last :: rest) →
    last.cluster ∈ x.visible ∨ Pending (s.under lo) x.stack (last :: rest)

theorem exists_first_frame {mightSee : BitSet} (hb : s.progress.mightSee? s.base = some mightSee)
    (hm : mightSee.size = s.graph.clusters.size) (pool : Pool R) : ∃ f,
    (start s mightSee pool).stack = [f] ∧ f.Intact s ∧ f.todo = s.graph.portalsOf s.portal.target ∧
      ∀ test, f.link = (s.under test).first := by
  have hmask : {c | c ∈ mightSee} = s.progress.bound s.base := by
    ext c
    simp [Progress.bound, hb]
  refine ⟨_, rfl, .first s _ _ _ _, rfl, fun test => ?_⟩
  simp only [Pool.borrowSet_union hm, Frame.link, hmask]
  rfl

theorem Between.start {mightSee : BitSet} (hs : s.portal.target < s.graph.clusters.size)
    (hb : s.progress.mightSee? s.base = some mightSee) (hm : mightSee.size = s.graph.clusters.size)
    (pool : Pool R) : Between s lo hi (Search.start s mightSee pool) := by
  obtain ⟨f, hstack, hintact, htodo, hlink⟩ := exists_first_frame hb hm pool
  have hfirst : f.cluster = s.portal.target := congrArg Link.cluster (hlink hi)
  have htarget : s.portal.target ∈ (Search.start s mightSee pool).visible := by
    simp [Search.start, idle, descend, hs]
  refine ⟨?_, fun _ => ⟨[(s.under hi).first], .first, ?_⟩, ?_, ?_, fun c hc => ?_, fun last rest hc => ?_⟩
  · rw [hstack]
    exact List.forall_mem_singleton.mpr hintact
  · rw [hstack, ← hlink hi]
    exact .cons (.refl _) .nil
  · rw [hstack, List.forall_mem_singleton, htodo, hfirst]
    exact List.Subset.refl _
  · simp [Search.start, idle, descend]
  · have : c = s.portal.target := by simpa [Search.start, idle, descend, hs] using hc
    exact ⟨_, [], .first, this.symm⟩
  · rcases hc.eq_or_extends hc.first_suffix with h | ⟨id, next, hn, hsuf⟩
    · cases h
      exact .inl htarget
    · right
      rw [hstack]
      refine .inl ⟨id, htodo ▸ hn.owned, _, _, next, ?_, hn, hsuf⟩
      rw [← hlink lo]
      exact .cons (.refl _) .nil

theorem Between.retreat (h : Between s lo hi x) (hx : x.stack = top :: rest) (ht : top.todo = []) :
    Between s lo hi (x.retreat top rest) := by
  obtain ⟨hintact, hc, htodo, hsize, hf, hp⟩ := h
  rw [hx] at hintact hc htodo hp
  refine ⟨fun f hf => hintact f (.tail _ hf), fun hne => ?_, fun f hf => htodo f (.tail _ hf), hsize, hf, ?_⟩
  · obtain ⟨f, rest, rfl⟩ := List.exists_cons_of_ne_nil hne
    obtain ⟨links, hchain, hlinks⟩ := hc (by simp)
    cases hlinks with
    | cons _ hlinks =>
      cases hlinks with
      | cons hlink hlinks => exact ⟨_, hchain.tail, .cons hlink hlinks⟩
  · intro last links hl
    rcases hp last links hl with hv | ⟨id, hid, -⟩ | hrest
    · exact .inl hv
    · simp [ht] at hid
    · exact .inr hrest

/-- What becomes of the end of a chain when the geometry of a candidate is looked at. -/
theorem extend_spec (hs : s.Ready) (hi : top.Intact s) (hm : top.mask.size = s.graph.clusters.size)
    {ahead : Portal R} (hp : s.graph.portals[id]? = some ahead) (evidence : BitSet) :
    ∃ known, Frame.Intact s { top with known } ∧
      ((top.link.narrowed? s.level s.portal ahead = none ∧
        (extend s x top rest id ahead evidence).stack = { top with known } :: rest ∧
        (extend s x top rest id ahead evidence).visible = x.visible) ∨
      ∃ source pass child, top.link.narrowed? s.level s.portal ahead = some (source, pass) ∧
        (extend s x top rest id ahead evidence).stack = child :: { top with known } :: rest ∧
        (extend s x top rest id ahead evidence).visible = x.visible.insert ahead.target ∧
        child.link = ⟨ahead.target, source, some pass, ahead.plane,
          {c | c ∈ top.mask} ∩ {c | c ∈ evidence}⟩ ∧
        child.Intact s ∧ child.todo = s.graph.portalsOf ahead.target) := by
  obtain ⟨hleft, hknown⟩ := narrow_yields hs.sound hs.base hi ahead
    ⟨top.known, x.tally + { checks := 1 }, x.pool⟩ hi.known
  have hintact : Frame.Intact s { top with known :=
      ((narrow s top ahead).run ⟨top.known, x.tally + { checks := 1 }, x.pool⟩).2.known } :=
    hi.learn hknown
  refine ⟨_, hintact, ?_⟩
  cases hn : top.link.narrowed? s.level s.portal ahead with
  | none =>
    left
    rw [hn] at hleft
    refine ⟨rfl, ?_, ?_⟩ <;> simp only [extend, hleft]
  | some left =>
    obtain ⟨source, pass⟩ := left
    right
    rw [hn] at hleft
    refine ⟨source, pass, ⟨ahead.target, source, some (id, pass), ahead.plane,
      top.mask ∩ evidence, {}, s.graph.portalsOf ahead.target⟩, rfl, ?_, ?_, ?_,
      hi.child hp hn _ _ _ _, rfl⟩
    · simp only [extend, hleft, descend]
      rw [Pool.borrowSet_union (by simpa using hm)]
    · simp only [extend, hleft, descend]
    · simp only [Frame.link, Option.map_some]
      congr 1
      ext c
      simp

theorem extends_iff (hid : id ∈ s.graph.portalsOf top.cluster) {ahead : Portal R}
    (hp : s.graph.portals[id]? = some ahead) {evidence : Evidence}
    (he : s.progress.evidence? id = some evidence) (rest : List (Frame R)) (next : Link R) :
    s.outlook.Extends top.link (rest.map Frame.link) id next ↔
      (ahead.target ∈ top.mask ∧ ahead.target ∉ (top :: rest).map (·.cluster)) ∧
        ahead.plane.opposes top.passPlane = false ∧ ∃ source pass,
          top.link.narrowed? s.level s.portal ahead = some (source, pass) ∧
          next = ⟨ahead.target, source, some pass, ahead.plane,
            {c | c ∈ top.mask} ∩ {c | c ∈ evidence.set}⟩ := by
  have htest : s.outlook.test id = {c | c ∈ evidence.set} := Progress.test_eq he
  have hclusters : (top.link :: rest.map Frame.link).map (·.cluster) =
      (top :: rest).map (·.cluster) := by
    simp [Frame.link]
  constructor
  · intro h
    obtain ⟨-, hp', hmask, hfresh, hturned, hleft⟩ := h
    cases hp.symm.trans hp'
    rw [hclusters] at hfresh
    exact ⟨⟨hmask, hfresh⟩, hturned, _, _, hleft, by rw [htest]; rfl⟩
  · rintro ⟨⟨hmask, hfresh⟩, hturned, source, pass, hleft, rfl⟩
    rw [← hclusters] at hfresh
    rw [← htest]
    exact .intro hid hp hmask hfresh hturned hleft

/-- What an attempt does: the chain goes on if it may, unless nothing new could be seen. -/
theorem attempt_spec (hs : s.Ready) (hi : top.Intact s) (hm : top.mask.size = s.graph.clusters.size)
    (hv : ∀ c, c ∈ x.onChain ↔ c ∈ (top :: rest).map (·.cluster))
    (hid : id ∈ s.graph.portalsOf top.cluster) :
    ∃ y known, attempt s x top rest id = .ok y ∧ Frame.Intact s { top with known } ∧
      ((y.stack = { top with known } :: rest ∧ y.visible = x.visible ∧
        ∀ next, s.outlook.Extends top.link (rest.map Frame.link) id next →
          next.cluster ∈ next.mask ∧ ∀ c ∈ next.mask, c ∈ x.visible) ∨
      ∃ child, y.stack = child :: { top with known } :: rest ∧
        y.visible = x.visible.insert child.cluster ∧ child.Intact s ∧
        child.todo = s.graph.portalsOf child.cluster ∧
        child.cluster < s.graph.clusters.size ∧
        s.outlook.Extends top.link (rest.map Frame.link) id child.link) := by
  obtain ⟨ahead, hp, -⟩ := hs.sound.mem_portalsOf.mp hid
  obtain ⟨evidence, he, hown⟩ := hs.fits.own id ahead hp
  have hext := extends_iff hid hp he rest
  unfold attempt
  dsimp only
  rw [hp]
  dsimp only
  by_cases hcheap : ahead.target ∉ top.mask ∨ ahead.target ∈ x.onChain
  · rw [if_pos hcheap]
    refine ⟨_, top.known, rfl, hi, .inl ⟨rfl, rfl, fun next hn => ?_⟩⟩
    obtain ⟨⟨hmask, hfresh⟩, -⟩ := (hext _).mp hn
    rw [← hv] at hfresh
    exact (hcheap.elim (· hmask) hfresh).elim
  rw [if_neg hcheap, he]
  dsimp only
  simp only [not_or, Decidable.not_not] at hcheap
  by_cases hnew : top.mask ∩ evidence.set ⊆ x.visible
  · rw [if_pos hnew]
    refine ⟨_, top.known, rfl, hi, .inl ⟨rfl, rfl, fun next hn => ?_⟩⟩
    obtain ⟨⟨hmask, -⟩, -, _, _, -, rfl⟩ := (hext _).mp hn
    exact ⟨⟨hmask, hown⟩, fun c hc => hnew c (BitSet.mem_inter.mpr hc)⟩
  rw [if_neg hnew]
  by_cases hturned : ahead.plane.opposes top.passPlane
  · rw [if_pos hturned]
    refine ⟨_, top.known, rfl, hi, .inl ⟨rfl, rfl, fun next hn => ?_⟩⟩
    obtain ⟨-, h, -⟩ := (hext _).mp hn
    simp [h] at hturned
  rw [if_neg hturned]
  obtain ⟨known, hknown, ⟨hleft, hstack, hvisible⟩ |
    ⟨source, pass, child, hleft, hstack, hvisible, hlink, hchild, htodo⟩⟩ :=
    extend_spec (x := { x with stack := top :: rest, tally := x.tally + evidence.counted })
      hs hi hm hp evidence.set
  · refine ⟨_, known, rfl, hknown, .inl ⟨hstack, hvisible, fun next hn => ?_⟩⟩
    obtain ⟨-, -, _, _, h, -⟩ := (hext _).mp hn
    simp [h] at hleft
  · have hcluster : child.cluster = ahead.target := congrArg Link.cluster hlink
    refine ⟨_, known, rfl, hknown, .inr ⟨child, hstack, ?_, hchild, ?_, ?_, ?_⟩⟩
    · rw [hcluster, hvisible]
    · rw [hcluster, htodo]
    · rw [hcluster]
      exact hs.sound.target_lt hp
    · have hfresh := mt (hv _).mpr hcheap.2
      exact (hext _).mpr ⟨⟨hcheap.1, hfresh⟩, Bool.eq_false_iff.mpr hturned, source, pass, hleft, hlink⟩

/-- Once a portal is tried, a chain that is not accounted for otherwise goes on by that portal. -/
theorem Between.tried (h : Between s lo hi x) (hx : x.stack = top :: rest) {todo : List PortalId}
    (ht : top.todo = id :: todo) (known : Known R) {last : Link R} {links : List (Link R)}
    (hl : (s.under lo).Chain (last :: links)) : last.cluster ∈ x.visible ∨
      GoesOn (s.under lo) (top :: rest) id (last :: links) ∨
        Pending (s.under lo) ({ top with todo, known } :: rest) (last :: links) := by
  have hp := h.pending last links hl
  rw [hx] at hp
  rcases hp with hv | ⟨i, hi, hn⟩ | hrest
  · exact .inl hv
  · rw [ht] at hi
    rcases List.mem_cons.mp hi with rfl | hi
    · exact .inr (.inl hn)
    · obtain ⟨last₀, rest₀, next, hmatch, hnext⟩ := hn
      cases hmatch with
      | cons hlast hrest => exact .inr (.inr (.inl ⟨i, hi, last₀, rest₀, next, .cons hlast hrest, hnext⟩))
  · exact .inr (.inr (.inr hrest))

omit [Scalar R] in
theorem map_cluster_link (stack : List (Frame R)) :
    (stack.map Frame.link).map (·.cluster) = stack.map (·.cluster) := by
  rw [List.map_map]
  rfl

/-- Where a chain under `lo` goes on, one under the evidence does as well, and more may be seen there. -/
theorem GoesOn.loosen (hs : s.Between lo hi) {links : List (Link R)}
    (h : GoesOn (s.under lo) (top :: rest) id links) : ∃ last held next next',
      (top :: rest).Forall₂ (fun f l => l.Loosens f.link) (last :: held) ∧
      (s.under lo).Extends last held id next ∧ next :: last :: held <:+ links ∧ next.cluster ∈ next.mask ∧
      s.outlook.Extends top.link (rest.map Frame.link) id next' ∧ next.Loosens next' := by
  obtain ⟨last, held, next, hmatch, hnext, hsuf⟩ := h
  obtain ⟨hlast, hheld⟩ := List.forall₂_cons.mp hmatch
  obtain ⟨ahead, hp, htarget, -⟩ := hnext.exists_portal
  have hclusters : (rest.map Frame.link).map (·.cluster) = held.map (·.cluster) := by
    rw [map_cluster_link]
    exact map_cluster_eq (fun _ _ h => h.cluster) hheld
  have hown : next.cluster ∈ next.mask := by
    cases hnext with
    | intro _ hp masked => exact ⟨masked, hs.own hp⟩
  obtain ⟨next', hnext', hloose⟩ := hnext.loosen hlast hclusters (s.progress.bound s.base) (hs.lower hp)
  exact ⟨last, held, next, next', hmatch, hnext, hsuf, hown, hnext', hloose⟩

theorem Between.stay (hs : s.Between lo hi) (h : Between s lo hi x) (hx : x.stack = top :: rest)
    {todo : List PortalId} (ht : top.todo = id :: todo) {known : Known R}
    (hknown : Frame.Intact s { top with todo, known })
    (hstack : y.stack = { top with todo, known } :: rest) (hvisible : y.visible = x.visible)
    (hnone : ∀ next, s.outlook.Extends top.link (rest.map Frame.link) id next →
      next.cluster ∈ next.mask ∧ ∀ c ∈ next.mask, c ∈ x.visible) : Between s lo hi y := by
  have hintact := h.intact
  have hc := h.chain
  have htodo := h.todo
  rw [hx] at hintact hc htodo
  refine ⟨?_, fun _ => ?_, ?_, by rw [hvisible, h.size], by rw [hvisible]; exact h.found, ?_⟩
  · rw [hstack]
    exact List.forall_mem_cons.mpr ⟨hknown, (List.forall_mem_cons.mp hintact).2⟩
  · rw [hstack]
    obtain ⟨links, hchain, hlinks⟩ := hc (by simp)
    obtain ⟨l, held, hl, hheld, rfl⟩ := List.forall₂_cons_left_iff.mp hlinks
    exact ⟨_, hchain, .cons hl hheld⟩
  · rw [hstack]
    have htop := (List.forall_mem_cons.mp htodo).1
    rw [ht] at htop
    exact List.forall_mem_cons.mpr ⟨fun i hi => htop (.tail _ hi), (List.forall_mem_cons.mp htodo).2⟩
  · intro last links hl
    rw [hstack, hvisible]
    rcases h.tried hx ht known hl with hv | hn | hp
    · exact .inl hv
    · obtain ⟨_, _, next, next', -, -, hsuf, hself, hnext', hloose⟩ := hn.loosen hs
      exact .inl ((hnone next' hnext').2 _ (hloose.mask (hl.end_mem_mask hsuf hself).1))
    · exact .inr hp

theorem Between.grow (hs : s.Between lo hi) (h : Between s lo hi x) (hx : x.stack = top :: rest)
    {todo : List PortalId} (ht : top.todo = id :: todo) {known : Known R}
    (hknown : Frame.Intact s { top with todo, known }) {child : Frame R}
    (hstack : y.stack = child :: { top with todo, known } :: rest)
    (hvisible : y.visible = x.visible.insert child.cluster) (hchild : child.Intact s)
    (hown : child.todo = s.graph.portalsOf child.cluster)
    (hlt : child.cluster < s.graph.clusters.size)
    (hnext : s.outlook.Extends top.link (rest.map Frame.link) id child.link) : Between s lo hi y := by
  have hintact := h.intact
  have hc := h.chain
  have htodo := h.todo
  rw [hx] at hintact hc htodo
  obtain ⟨links, hchain, hlinks⟩ := hc (by simp)
  obtain ⟨l, held, hl, hheld, rfl⟩ := List.forall₂_cons_left_iff.mp hlinks
  obtain ⟨ahead, hp, -⟩ := hnext.exists_portal
  have hclusters : held.map (·.cluster) = (rest.map Frame.link).map (·.cluster) := by
    rw [map_cluster_link]
    exact (map_cluster_eq (fun _ _ h => h.cluster.symm) hheld).symm
  obtain ⟨l', hl', hloose⟩ := hnext.loosen hl hclusters (s.progress.bound s.base) (hs.upper hp)
  have hlonger := hchain.extend hl'
  refine ⟨?_, fun _ => ⟨_, hlonger, ?_⟩, ?_, by rw [hvisible, BitSet.size_insert, h.size], ?_, ?_⟩
  · rw [hstack]
    exact List.forall_mem_cons.mpr
      ⟨hchild, List.forall_mem_cons.mpr ⟨hknown, (List.forall_mem_cons.mp hintact).2⟩⟩
  · rw [hstack]
    exact .cons hloose (.cons hl hheld)
  · rw [hstack]
    have htop := (List.forall_mem_cons.mp htodo).1
    rw [ht] at htop
    refine List.forall_mem_cons.mpr ⟨?_, List.forall_mem_cons.mpr
      ⟨fun i hi => htop (.tail _ hi), (List.forall_mem_cons.mp htodo).2⟩⟩
    rw [hown]
    exact List.Subset.refl _
  · intro c hv
    rw [hvisible, BitSet.mem_insert] at hv
    rcases hv with hv | ⟨rfl, -⟩
    · exact h.found c hv
    · exact ⟨_, _, hlonger, hloose.cluster⟩
  · intro last links hl
    rw [hstack, hvisible]
    rcases h.tried hx ht known hl with hv | hn | hp
    · exact .inl (BitSet.mem_insert.mpr (.inl hv))
    · obtain ⟨_, _, next, next', hmatch, -, hsuf, -, hnext', hloose⟩ := hn.loosen hs
      cases hnext'.unique hnext
      have hcluster : child.cluster = next.cluster := hloose.cluster
      rcases hl.eq_or_extends hsuf with he | ⟨i, later, hlater, hsuf⟩
      · cases he
        exact .inl (BitSet.mem_insert.mpr (.inr ⟨hcluster.symm, by rw [h.size]; exact hlt⟩))
      · have hi : i ∈ child.todo := by
          rw [hown, hcluster]
          exact hlater.owned
        have hmatch' := List.forall₂_cons.mp hmatch
        exact .inr (.inl ⟨i, hi, _, _, later, .cons hloose (.cons hmatch'.1 hmatch'.2), hlater, hsuf⟩)
    · exact .inr (.inr hp)

theorem Between.move (hready : s.Ready) (hs : s.Between lo hi) (h : Between s lo hi x) (hv : Valid s x)
    (hx : x.stack = top :: rest) : ∃ y, move s x top rest = .ok y ∧ Between s lo hi y := by
  unfold Search.move
  cases ht : top.todo with
  | nil => exact ⟨_, rfl, h.retreat hx ht⟩
  | cons id todo =>
    have hintact := h.intact top (hx ▸ .head _)
    have hmask := hv.size_mask top (hx ▸ .head _)
    have hon := hv.mem_onChain
    rw [hx] at hon
    have hseen : Frame.Intact s { top with todo } := ⟨hintact.source, hintact.pass, hintact.known⟩
    have hid : id ∈ s.graph.portalsOf top.cluster := h.todo top (hx ▸ .head _) (ht ▸ .head _)
    obtain ⟨y, known, hy, hknown, hcase⟩ := attempt_spec (x := x) hready hseen hmask hon hid
    refine ⟨y, hy, ?_⟩
    rcases hcase with ⟨hstack, hvisible, hnone⟩ | ⟨child, hstack, hvisible, hchild, hown, hlt, hnext⟩
    · exact h.stay hs hx ht hknown hstack hvisible hnone
    · exact h.grow hs hx ht hknown hstack hvisible hchild hown hlt hnext

theorem Between.run (hready : s.Ready) (hs : s.Between lo hi) (hv : Valid s x) (h : Between s lo hi x) :
    ∃ y, run s x hv = .ok y ∧ Between s lo hi y ∧ y.stack = [] := by
  fun_induction Search.run s x hv with
  | case1 x hv hx => exact ⟨x, rfl, h, hx⟩
  | case2 x hv top rest hx e hy =>
    obtain ⟨y, hok, -⟩ := h.move hready hs hv hx
    cases hy.symm.trans hok
  | case3 x hv top rest hx y hy ih =>
    obtain ⟨y', hok, hy'⟩ := h.move hready hs hv hx
    cases hy.symm.trans hok
    exact ih hy'

/-- Once nothing is on the stack, all ends of chains under `lo` were reached. -/
theorem Between.sees_subset (h : Between s lo hi x) (hx : x.stack = []) :
    ∀ c ∈ (s.under lo).sees, c ∈ x.visible := by
  rintro c ⟨last, rest, hc, rfl⟩
  rcases h.pending last rest hc with hv | hp
  · exact hv
  · rw [hx] at hp
    exact hp.elim

end Search

namespace Graph

def outlook (g : Graph R) (level : Nat) (p : Progress) (base : PortalId) (portal : Portal R) :
    Outlook R :=
  ⟨g, level, portal, p.bound base, p.test⟩

def setting (g : Graph R) (o : Options) (p : Progress) (base : PortalId) (portal : Portal R) :
    Setting R :=
  ⟨g, p.setStatus base .flowing, o.level, o.passages, base, portal⟩

theorem ready_setting {g : Graph R} (hg : g.Sound) {p : Progress} (hp : p.Fits g) {base : PortalId}
    {portal : Portal R} (hb : g.portals[base]? = some portal) (hc : p.status? base = some .claimed)
    (o : Options) : (g.setting o p base portal).Ready :=
  ⟨hg, hb, hp.setStatus (by simp [hc]) (by simp)⟩

theorem flow_of_run {g : Graph R} {p : Progress} {base : PortalId} {portal : Portal R}
    (hb : g.portals[base]? = some portal) (hc : p.status? base = some .claimed) {mightSee : BitSet}
    (hm : p.mightSee? base = some mightSee) (ht : portal.target < g.clusters.size)
    (hsize : mightSee.size = g.clusters.size) {o : Options} {worker : Worker R} {y : Search R}
    (hy : Search.run (g.setting o p base portal) _ (.start ht mightSee worker.pool) = .ok y) :
    (g.flow o p worker base).result =
      .ok ⟨y.visible, p.setStatus base .flowing, ⟨worker.counters + y.tally, y.pool.trim⟩⟩ := by
  have hstart : p.start base = .ok (p.setStatus base .flowing) := Progress.start_eq_ok.mpr ⟨hc, rfl⟩
  obtain ⟨e, he, rfl⟩ := Option.map_eq_some_iff.mp hm
  have hentry : (p.setStatus base .flowing).entries[base]? = some { e with status := .flowing } := by
    rw [Progress.getElem?_setStatus, he]
    simp
  refine Report.result_bind_eq_ok.mpr ⟨_, hstart, ?_⟩
  refine Report.result_bind_eq_ok.mpr ⟨portal, Report.result_ofOption_eq_ok.mpr hb, ?_⟩
  refine Report.result_bind_eq_ok.mpr ⟨_, Report.result_ofOption_eq_ok.mpr hentry, ?_⟩
  rw [dif_pos ⟨ht, hsize⟩]
  exact Report.result_bind_eq_ok.mpr ⟨y, hy, rfl⟩

/-- The search that a flow is the result of. -/
theorem exists_run_of_flow {g : Graph R} {o : Options} {p : Progress} {worker : Worker R} {id : PortalId}
    {f : Flow R} (h : (g.flow o p worker id).result = .ok f) :
    ∃ portal mightSee y, ∃ ht : portal.target < g.clusters.size,
      g.portals[id]? = some portal ∧ p.status? id = some .claimed ∧ p.mightSee? id = some mightSee ∧
      Search.run (g.setting o p id portal) _ (.start ht mightSee worker.pool) = .ok y ∧
      f = ⟨y.visible, p.setStatus id .flowing, ⟨worker.counters + y.tally, y.pool.trim⟩⟩ := by
  obtain ⟨q, hq, h⟩ := Report.result_bind_eq_ok.mp h
  obtain ⟨portal, hp, h⟩ := Report.result_bind_eq_ok.mp h
  obtain ⟨entry, he, h⟩ := Report.result_bind_eq_ok.mp h
  obtain ⟨hc, rfl⟩ := Progress.start_eq_ok.mp hq
  have hmight : p.mightSee? id = some entry.mightSee := by
    rw [← Progress.mightSee?_setStatus p id id .flowing, Progress.mightSee?,
      Report.result_ofOption_eq_ok.mp he, Option.map_some]
  dsimp only at h
  split at h
  · next hsize =>
    obtain ⟨y, hy, h⟩ := Report.result_bind_eq_ok.mp h
    cases h
    exact ⟨portal, entry.mightSee, y, hsize.1, Report.result_ofOption_eq_ok.mp hp, hc, hmight, hy, rfl⟩
  · cases h

theorem flow_spec {g : Graph R} (hg : g.Sound) {p : Progress} (hp : p.Fits g) {base : PortalId}
    {portal : Portal R} (hb : g.portals[base]? = some portal)
    (hc : p.status? base = some .claimed) (o : Options) (worker : Worker R) :
    ∃ f, (g.flow o p worker base).result = .ok f ∧ f.visible.size = g.clusters.size ∧
      f.progress = p.setStatus base .flowing ∧
      ∀ c, c ∈ f.visible ↔ c ∈ (g.outlook o.level p base portal).sees := by
  obtain ⟨e, he, -⟩ := Option.map_eq_some_iff.mp hc
  have hmight : p.mightSee? base = some e.mightSee := by rw [Progress.mightSee?, he, Option.map_some]
  have hsize := hp.size base _ hmight
  have ho : (g.setting o p base portal).outlook = g.outlook o.level p base portal := by
    rw [Setting.outlook, Setting.under, setting, Progress.test_setStatus (by simp [hc]) (by simp),
      Progress.bound_setStatus]
    rfl
  have htarget : portal.target < g.clusters.size := hg.target_lt hb
  have hready := ready_setting hg hp hb hc o
  have hmight' := (Progress.mightSee?_setStatus p base base .flowing).trans hmight
  obtain ⟨y, hy, hbetween, hstack⟩ := Search.Between.run hready hready.between
    (.start htarget e.mightSee worker.pool) (.start htarget hmight' hsize worker.pool)
  refine ⟨_, flow_of_run hb hc hmight htarget hsize hy, hbetween.size, rfl, fun c => ?_⟩
  rw [← ho]
  exact ⟨hbetween.found c, hbetween.sees_subset hstack c⟩

/-- A flow finds exactly the clusters where chains end, whatever the worker did before. -/
theorem mem_visible_iff {g : Graph R} (hg : g.Built) {p : Progress} (hp : p.Fits g) {base : PortalId}
    {portal : Portal R} (hb : g.portals[base]? = some portal)
    (hc : p.status? base = some .claimed) (o : Options) (worker : Worker R) :
    ∃ f, (g.flow o p worker base).result = .ok f ∧ f.visible.size = g.clusters.size ∧
      ∀ c, c ∈ f.visible ↔ c ∈ (g.outlook o.level p base portal).sees := by
  obtain ⟨f, hf, hsize, -, hv⟩ := flow_spec hg.sound hp hb hc o worker
  exact ⟨f, hf, hsize, hv⟩

def crookedSets : List BitSet :=
  [[false, true, true, true, true], [true, false, false, false, false],
    [false, false, true, true, true], [true, true, false, false, false],
    [false, false, false, true, true], [true, true, true, false, false],
    [false, false, false, false, true], [true, true, true, true, false]].map .ofBools

/-- The first portal is claimed, and of the others nothing is known but their bounds. -/
def crookedStart : Progress := (Progress.ofMightSee crookedSets false).setStatus 0 .claimed

theorem crookedStart_fits : crookedStart.Fits crooked := by decide +kernel

theorem crooked_portal : ∃ portal, crooked.portals[0]? = some portal := by
  have hsize : 0 < crooked.portals.size := by decide +kernel
  exact ⟨_, Array.getElem?_eq_getElem hsize⟩

theorem crookedStart_visible :
    (crooked.flow { level := 0 } crookedStart {} 0).result.map (·.visible) =
      .ok (.ofBools [false, true, true, true, true]) := by decide +kernel

theorem crooked_sees : ∃ portal, crooked.portals[0]? = some portal ∧
    ∀ c, c ∈ (crooked.outlook 0 crookedStart 0 portal).sees ↔
      c ∈ BitSet.ofBools [false, true, true, true, true] := by
  obtain ⟨portal, hb⟩ := crooked_portal
  obtain ⟨f, hf, -, hv⟩ := mem_visible_iff crooked_built crookedStart_fits hb (by decide +kernel)
    { level := 0 } {}
  have hrun := crookedStart_visible
  rw [hf] at hrun
  rw [show f.visible = _ from Except.ok.inj hrun] at hv
  exact ⟨_, hb, fun c => (hv c).symm⟩

end Graph

end Sightline
