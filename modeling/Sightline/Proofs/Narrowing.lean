import Sightline.Proofs.Built
import Sightline.Proofs.Chain

/-! Narrowing as a function. What an attempt leaves of a chain depends on nothing that the desk holds:
buffers come out empty, counters are only added to, and planes kept from before or taken from a passage
are those that would be worked out. -/

namespace Sightline

variable {R : Type} [Scalar R]

/-- The planes at hand are those between the two polygons. -/
def Known.Right (k : Known R) (near far : List (Vec R)) : Prop :=
  ∀ (d : Direction) (planes : Planes R), k.get? d = some planes → planes.list = d.separators near far

theorem Known.right_empty (near far : List (Vec R)) : ({} : Known R).Right near far := by
  intro d planes h
  cases d <;> cases h

theorem Known.Right.set {k : Known R} {near far : List (Vec R)} (h : k.Right near far) {d : Direction}
    {planes : Planes R} (hp : planes.list = d.separators near far) :
    (k.set d planes).Right near far := by
  intro d' planes' h'
  cases d <;> cases d'
  · cases h'
    exact hp
  · exact h .backward planes' h'
  · exact h .forward planes' h'
  · cases h'
    exact hp

/-- A plane is either settled or cut by, and nothing is left if it is settled the wrong way. -/
theorem Winding.clipAll_cons_eq_some {sphere : Sphere R} {plane : Plane R} {planes : List (Plane R)}
    {w left : Winding R} : w.clipAll sphere (plane :: planes) = some left ↔
      sphere.side plane = .front ∧ w.clipAll sphere planes = some left ∨
      sphere.side plane = .on ∧ ∃ next, w.front? plane false = some next ∧
        next.clipAll sphere planes = some left := by
  rw [clipAll]
  cases sphere.side plane <;> simp [Option.bind_eq_some_iff]

theorem fst_cutByAll (role : Role) (sphere : Sphere R) (planes : List (Plane R)) (w : Winding R) :
    (cutByAll role sphere planes w).1 = w.clipAll sphere planes := by
  induction planes generalizing w with
  | nil => rfl
  | cons plane planes ih =>
    rw [cutByAll, Winding.clipAll, Winding.front?]
    cases sphere.side plane with
    | front => exact ih w
    | back => rfl
    | on => cases w.cut plane false with
      | whole w => exact ih w
      | trimmed w => exact ih w
      | gone => rfl

namespace Attempt

variable {α β : Type} {near far : List (Vec R)}

/-- Whatever is on the desk, as long as the planes there are right, `left` is what is left, and the
planes stay right. -/
def Yields (near far : List (Vec R)) (m : Attempt R α) (left : Option α) : Prop :=
  ∀ desk : Desk R, desk.known.Right near far →
    (m.run desk).1 = left ∧ (m.run desk).2.known.Right near far

theorem Yields.pure (a : α) : Yields near far (pure a : Attempt R α) (some a) := fun _ h => ⟨rfl, h⟩

theorem Yields.ofOption (a : Option α) : Yields near far (ofOption a : Attempt R α) a :=
  fun _ h => ⟨rfl, h⟩

theorem run_bind {σ : Type} (m : OptionT (StateM σ) α) (f : α → OptionT (StateM σ) β) (desk : σ) :
    (m >>= f).run desk = match m.run desk with
      | (some a, desk') => (f a).run desk'
      | (none, desk') => (none, desk') := by
  rw [OptionT.run_bind, Option.elimM]
  simp only [Bind.bind, StateT.bind]
  rcases m.run desk with ⟨_ | a, desk'⟩ <;> rfl

theorem Yields.bind {m : Attempt R α} {left : Option α} {f : α → Attempt R β} {g : α → Option β}
    (hm : Yields near far m left) (hf : ∀ a, left = some a → Yields near far (f a) (g a)) :
    Yields near far (m >>= f) (left.bind g) := by
  intro desk h
  obtain ⟨h1, h2⟩ := hm desk h
  rw [run_bind]
  rcases hr : m.run desk with ⟨a, desk'⟩
  rw [hr] at h1 h2
  cases h1
  cases a with
  | none => exact ⟨rfl, h2⟩
  | some a => exact hf a rfl desk' h2

theorem Yields.get_bind {f : Desk R → Attempt R α} {left : Option α}
    (hf : ∀ desk : Desk R, desk.known.Right near far →
      ((f desk).run desk).1 = left ∧ ((f desk).run desk).2.known.Right near far) :
    Yields near far (get >>= f) left := fun desk h => hf desk h

theorem Yields.modify {f : Desk R → Desk R}
    (hf : ∀ desk : Desk R, desk.known.Right near far → (f desk).known.Right near far) :
    Yields near far (modify f : Attempt R Unit) (some ()) := fun desk h => ⟨rfl, hf desk h⟩

theorem Yields.count (c : Counters) : Yields near far (count c : Attempt R Unit) (some ()) :=
  .modify fun _ h => h

theorem Yields.returnPlanes (planes : List (Plane R)) :
    Yields near far (returnPlanes planes) (some ()) :=
  .modify fun _ h => h

theorem Yields.learn {d : Direction} {planes : Planes R}
    (hp : planes.list = d.separators near far) : Yields near far (learn d planes) (some ()) :=
  .modify fun _ h => h.set hp

theorem Yields.borrowPlanes : Yields near far (borrowPlanes : Attempt R (List (Plane R))) (some []) :=
  fun _ h => ⟨rfl, h⟩

theorem Yields.foldlM {γ : Type} {f : α → γ → Attempt R α} {g : α → γ → Option α}
    (hfg : ∀ a c, Yields near far (f a c) (g a c)) (l : List γ) (a : α) :
    Yields near far (l.foldlM f a) (l.foldlM g a) := by
  induction l generalizing a with
  | nil => exact .pure a
  | cons c l ih =>
    rw [List.foldlM_cons, List.foldlM_cons]
    exact (hfg a c).bind fun b _ => ih b

theorem Yields.clip (role : Role) (sphere : Sphere R) (planes : List (Plane R)) (w : Winding R) :
    Yields near far (clip role sphere planes w) (w.clipAll sphere planes) := by
  rw [← fst_cutByAll role]
  exact (Yields.count _).bind fun _ _ => .ofOption _

theorem Yields.narrowSource (s : Setting R) (pass target source : Winding R) (d : Direction) :
    Yields near far (narrowSource s pass target source d)
      (source.clipAll s.portal.sphere (d.separators target.points pass.points)) := by
  rw [← fst_cutByAll .source]
  refine Yields.borrowPlanes.bind (g := fun _ => _) (fun _ h => ?_)
  cases h
  refine (Yields.count _).bind (g := fun _ => _) fun _ _ => ?_
  exact (Yields.returnPlanes _).bind fun _ _ => .ofOption _

theorem Yields.planesFor {s : Setting R} {source pass : Winding R} {exit : PortalId}
    (hs : ∀ passage d, s.passage? source exit pass = some passage →
      passage.planes d = d.separators source.points pass.points) (d : Direction) :
    Yields source.points pass.points (planesFor s source exit pass d)
      (some (d.separators source.points pass.points)) := by
  refine Yields.get_bind fun desk h => ?_
  split
  · next planes hk =>
    rw [← h d planes hk]
    exact ⟨rfl, h⟩
  · split
    · next passage hp =>
      have hplanes : (Planes.shared (passage.planes d)).list =
          d.separators source.points pass.points := hs passage d hp
      rw [← hs passage d hp]
      exact (Yields.learn hplanes).bind (fun _ _ => .pure _) desk h
    · refine Yields.borrowPlanes.bind (g := fun _ => some _) (fun _ h => ?_) desk h
      cases h
      exact (Yields.learn rfl).bind fun _ _ => .pure _

end Attempt

omit [Scalar R] in
def Frame.far (f : Frame R) : List (Vec R) :=
  match f.pass with
  | none => []
  | some (_, w) => w.points

/-- What a search keeps true of each frame: a winding that counts as a portal's is that portal's, and
the planes at hand are right. -/
structure Frame.Intact (s : Setting R) (f : Frame R) : Prop where
  source : f.source.pristine → f.source = s.portal.whole
  pass : ∀ exit w, f.pass = some (exit, w) → w.pristine →
    ∃ portal, s.graph.portals[exit]? = some portal ∧ w = portal.whole
  known : f.known.Right f.source.points f.far

omit [Scalar R] in
def Frame.link (f : Frame R) : Link R :=
  ⟨f.cluster, f.source, f.pass.map (·.2), f.passPlane, {c | c ∈ f.mask}⟩

/-- A passage that applies has the planes that would be worked out. -/
theorem Frame.Intact.passage {s : Setting R} (hg : s.graph.Sound)
    (hb : s.graph.portals[s.base]? = some s.portal) {f : Frame R} (h : f.Intact s) {exit : PortalId}
    {w : Winding R} (hf : f.pass = some (exit, w)) (passage : Passage R) (d : Direction)
    (hp : s.passage? f.source exit w = some passage) :
    passage.planes d = d.separators f.source.points w.points := by
  unfold Setting.passage? at hp
  split at hp
  · next hc =>
    simp only [Bool.and_eq_true] at hc
    obtain ⟨cluster, hcl, hfind⟩ := Option.bind_eq_some_iff.mp hp
    have hkey := List.find?_some hfind
    simp only [Bool.and_eq_true, decide_eq_true_eq] at hkey
    have hbetween := hg.between cluster (Array.mem_of_getElem? hcl) passage (List.mem_of_find?_eq_some hfind)
    rw [hkey.1, hkey.2] at hbetween
    obtain ⟨source, pass, hsource, hpass, -, -, hplanes⟩ := Graph.between?_eq_some hbetween
    obtain ⟨portal, hportal, hw⟩ := h.pass exit w hf hc.2
    rw [hb] at hsource
    rw [hportal] at hpass
    cases hsource
    cases hpass
    rw [hplanes d, h.source hc.1.2, hw]
    rfl
  · cases hp

theorem narrow_yields {s : Setting R} (hg : s.graph.Sound)
    (hb : s.graph.portals[s.base]? = some s.portal) {f : Frame R} (h : f.Intact s)
    (ahead : Portal R) :
    Attempt.Yields f.source.points f.far (narrow s f ahead)
      (f.link.narrowed? s.level s.portal ahead) := by
  unfold narrow Link.narrowed? Frame.link Frame.far
  refine (Attempt.Yields.ofOption _).bind fun target _ => ?_
  cases hf : f.pass with
  | none => exact .pure _
  | some p =>
    obtain ⟨exit, w⟩ := p
    refine (Attempt.Yields.ofOption _).bind fun target _ => ?_
    refine (Attempt.Yields.ofOption _).bind fun source _ => ?_
    refine (Attempt.Yields.foldlM (fun target d => ?_) _ _).bind fun target _ => ?_
    · refine (Attempt.Yields.planesFor (h.passage hg hb hf) d).bind (g := fun planes =>
        target.clipAll ahead.sphere planes) fun planes hp => ?_
      exact .clip _ _ _ _
    · refine (Attempt.Yields.foldlM (fun source d => ?_) _ _).bind fun source _ => ?_
      · exact .narrowSource s w target source d
      · exact (Attempt.Yields.count _).bind fun _ _ => .pure _

/-- A winding that still counts as a portal's after a cut was not cut. -/
theorem eq_of_pristine_front? {w w' : Winding R} {split : Plane R} {keepOn : Bool}
    (h : w.front? split keepOn = some w') (hw : w'.pristine) : w' = w := by
  unfold Winding.front? Winding.cut at h
  dsimp only at h
  split at h
  · cases h
    rfl
  · split at h
    · cases h
    · split at h
      · cases h
        rfl
      · split at h
        · cases h
        · cases h
          cases hw

theorem eq_of_pristine_clipAll {sphere : Sphere R} {planes : List (Plane R)} {w w' : Winding R}
    (h : w.clipAll sphere planes = some w') (hw : w'.pristine) : w' = w := by
  induction planes generalizing w with
  | nil =>
    cases h
    rfl
  | cons plane planes ih =>
    rcases Winding.clipAll_cons_eq_some.mp h with ⟨-, hrest⟩ | ⟨-, next, hnext, hrest⟩
    · exact ih hrest
    · have he := ih hrest
      subst he
      exact eq_of_pristine_front? hnext hw

omit [Scalar R] in
theorem eq_of_pristine_foldlM {f : Winding R → Direction → Option (Winding R)}
    (hf : ∀ {w d w'}, f w d = some w' → w'.pristine → w' = w) {ds : List Direction}
    {w w' : Winding R} (h : ds.foldlM f w = some w') (hw : w'.pristine) : w' = w := by
  induction ds generalizing w with
  | nil =>
    cases h
    rfl
  | cons d ds ih =>
    rw [List.foldlM_cons] at h
    obtain ⟨w₁, h₁, h⟩ := Option.bind_eq_some_iff.mp h
    have he := ih h
    subst he
    exact hf h₁ hw

theorem eq_of_pristine_narrowed? {last : Link R} {level : Nat} {base ahead : Portal R}
    {source pass : Winding R} (h : last.narrowed? level base ahead = some (source, pass)) :
    (source.pristine → source = last.source) ∧ (pass.pristine → pass = ahead.whole) := by
  unfold Link.narrowed? at h
  obtain ⟨t₁, h₁, h⟩ := Option.bind_eq_some_iff.mp h
  split at h
  · cases h
    exact ⟨fun _ => rfl, eq_of_pristine_front? h₁⟩
  · obtain ⟨t₂, h₂, h⟩ := Option.bind_eq_some_iff.mp h
    obtain ⟨s₁, hs, h⟩ := Option.bind_eq_some_iff.mp h
    obtain ⟨t₃, h₃, h⟩ := Option.bind_eq_some_iff.mp h
    obtain ⟨s₂, hs₂, h⟩ := Option.bind_eq_some_iff.mp h
    cases h
    constructor
    · intro hp
      have he := eq_of_pristine_foldlM (fun h => eq_of_pristine_clipAll h) hs₂ hp
      subst he
      exact eq_of_pristine_front? hs hp
    · intro hp
      have he := eq_of_pristine_foldlM (fun h => eq_of_pristine_clipAll h) h₃ hp
      subst he
      have he := eq_of_pristine_front? h₂ hp
      subst he
      exact eq_of_pristine_front? h₁ hp

theorem Frame.Intact.first (s : Setting R) (c : ClusterId) (plane : Plane R) (mask : BitSet)
    (todo : List PortalId) : Frame.Intact s ⟨c, s.portal.whole, none, plane, mask, {}, todo⟩ :=
  ⟨fun _ => rfl, by simp, Known.right_empty _ _⟩

theorem Frame.Intact.learn {s : Setting R} {f : Frame R} (h : f.Intact s) {known : Known R}
    (hk : known.Right f.source.points f.far) : Frame.Intact s { f with known } :=
  ⟨h.source, h.pass, hk⟩

/-- A frame that a chain goes on to keeps what its predecessor kept. -/
theorem Frame.Intact.child {s : Setting R} {f : Frame R} (h : f.Intact s) {id : PortalId}
    {ahead : Portal R} (hp : s.graph.portals[id]? = some ahead) {source pass : Winding R}
    (hn : f.link.narrowed? s.level s.portal ahead = some (source, pass)) (c : ClusterId)
    (plane : Plane R) (mask : BitSet) (todo : List PortalId) :
    Frame.Intact s ⟨c, source, some (id, pass), plane, mask, {}, todo⟩ := by
  obtain ⟨hsource, hpass⟩ := eq_of_pristine_narrowed? hn
  refine ⟨fun hw => ?_, ?_, Known.right_empty _ _⟩
  · have hsame : source = f.source := hsource hw
    dsimp only at hw ⊢
    rw [hsame] at hw ⊢
    exact h.source hw
  · rintro _ _ ⟨⟩ hw
    exact ⟨ahead, hp, hpass hw⟩

end Sightline
