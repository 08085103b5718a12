import Mathlib.Data.List.Forall2
import Sightline.Flow
import Sightline.Proofs.Narrowing

/-! Two searches side by side, over graphs that differ in their passages and with or without a use for
them. They go the same way and count the same, since neither buffers nor planes at hand make a difference
to what is left of a chain. -/

namespace Sightline

variable {R : Type}

/-- Both fail for the same reason, or both have results, and these are related. -/
inductive Paired {α β : Type} (rel : α → β → Prop) : Except Failure α → Except Failure β → Prop
  | ok {a : α} {b : β} : rel a b → Paired rel (.ok a) (.ok b)
  | error (e : Failure) : Paired rel (.error e) (.error e)

namespace Paired

variable {α β γ δ : Type} {rel : α → β → Prop} {x : Except Failure α} {y : Except Failure β}

theorem refl (x : Except Failure α) : Paired Eq x x := by
  cases x with
  | error e => exact .error e
  | ok a => exact .ok rfl

theorem bind {rel' : γ → δ → Prop} {f : α → Except Failure γ} {f' : β → Except Failure δ}
    (h : Paired rel x y) (hf : ∀ a b, x = .ok a → rel a b → Paired rel' (f a) (f' b)) :
    Paired rel' (x >>= f) (y >>= f') := by
  cases h with
  | ok h => exact hf _ _ rfl h
  | error e => exact .error e

theorem bindWith {rel' : γ → δ → Prop} {r : Report α} {r' : Report β}
    {next : (a : α) → r.result = .ok a → Report γ} {next' : (b : β) → r'.result = .ok b → Report δ}
    (h : Paired rel r.result r'.result)
    (hf : ∀ a b (ha : r.result = .ok a) (hb : r'.result = .ok b), rel a b →
      Paired rel' (next a ha).result (next' b hb).result) :
    Paired rel' (r.bindWith next).result (r'.bindWith next').result := by
  obtain ⟨x, _⟩ := r
  obtain ⟨y, _⟩ := r'
  cases h with
  | ok h => exact hf _ _ rfl rfl h
  | error e => exact .error e

theorem exists_ok {a : α} (h : Paired rel x y) (hx : x = .ok a) : ∃ b, y = .ok b ∧ rel a b := by
  subst hx
  cases h with
  | ok h => exact ⟨_, rfl, h⟩

theorem of_error {e : Failure} (h : Paired rel x y) (hx : x = .error e) : y = .error e := by
  subst hx
  cases h
  rfl

theorem map_eq {f : α → γ} {f' : β → γ} (h : Paired rel x y) (hf : ∀ a b, rel a b → f a = f' b) :
    x.map f = y.map f' := by
  cases h with
  | ok h => exact congrArg Except.ok (hf _ _ h)
  | error e => rfl

end Paired

/-- The same flow over another graph, with or without a use for its passages. -/
def Setting.over (s : Setting R) (g : Graph R) (passages : Bool) : Setting R :=
  { s with graph := g, passages }

variable [Scalar R]

structure Desk.Kept (rel : Desk R → Desk R → Prop) : Prop where
  count : ∀ {d d'} (c : Counters), rel d d' →
    rel { d with tally := d.tally + c } { d' with tally := d'.tally + c }
  pool : ∀ {d d'} (pool pool' : Pool R), rel d d' → rel { d with pool } { d' with pool := pool' }

namespace Attempt

variable {α β : Type} {rel : Desk R → Desk R → Prop}

/-- On related desks both attempts leave the same, and the desks stay related. -/
def InStep (rel : Desk R → Desk R → Prop) (m m' : Attempt R α) : Prop :=
  ∀ d d', rel d d' → (m.run d).1 = (m'.run d').1 ∧ rel (m.run d).2 (m'.run d').2

omit [Scalar R] in
theorem InStep.pure (a : α) : InStep rel (pure a) (pure a) := fun _ _ h => ⟨rfl, h⟩

omit [Scalar R] in
theorem InStep.ofOption (a : Option α) : InStep rel (ofOption a) (ofOption a) := fun _ _ h => ⟨rfl, h⟩

omit [Scalar R] in
theorem InStep.bind {m m' : Attempt R α} {f f' : α → Attempt R β} (hm : InStep rel m m')
    (hf : ∀ a, InStep rel (f a) (f' a)) : InStep rel (m >>= f) (m' >>= f') := by
  intro d d' h
  obtain ⟨hleft, hdesk⟩ := hm d d' h
  rw [run_bind, run_bind]
  rcases hr : m.run d with ⟨a, e⟩
  rcases hr' : m'.run d' with ⟨a', e'⟩
  rw [hr, hr'] at hleft hdesk
  cases hleft
  cases a with
  | none => exact ⟨rfl, hdesk⟩
  | some a => exact hf a e e' hdesk

omit [Scalar R] in
theorem InStep.foldlM {γ : Type} {f f' : α → γ → Attempt R α}
    (hf : ∀ a c, InStep rel (f a c) (f' a c)) (l : List γ) (a : α) :
    InStep rel (l.foldlM f a) (l.foldlM f' a) := by
  induction l generalizing a with
  | nil => exact .pure a
  | cons c l ih =>
    rw [List.foldlM_cons, List.foldlM_cons]
    exact (hf a c).bind ih

omit [Scalar R] in
theorem InStep.count (h : Desk.Kept rel) (c : Counters) : InStep rel (count c) (count c) :=
  fun _ _ hd => ⟨rfl, h.count c hd⟩

omit [Scalar R] in
theorem InStep.borrowPlanes (h : Desk.Kept rel) :
    InStep rel (borrowPlanes : Attempt R (List (Plane R))) borrowPlanes :=
  fun _ _ hd => ⟨rfl, h.pool _ _ hd⟩

omit [Scalar R] in
theorem InStep.returnPlanes (h : Desk.Kept rel) (planes : List (Plane R)) :
    InStep rel (returnPlanes planes) (returnPlanes planes) :=
  fun _ _ hd => ⟨rfl, h.pool _ _ hd⟩

theorem InStep.clip (h : Desk.Kept rel) (role : Role) (sphere : Sphere R) (planes : List (Plane R))
    (w : Winding R) : InStep rel (clip role sphere planes w) (clip role sphere planes w) :=
  (InStep.count h _).bind fun _ => .ofOption _

theorem InStep.narrowSource (h : Desk.Kept rel) {s s' : Setting R} (hs : s'.portal = s.portal)
    (pass target source : Winding R) (d : Direction) :
    InStep rel (narrowSource s pass target source d) (narrowSource s' pass target source d) := by
  unfold Attempt.narrowSource
  rw [hs]
  refine (InStep.borrowPlanes h).bind fun _ => (InStep.count h _).bind fun _ => ?_
  exact (InStep.returnPlanes h _).bind fun _ => .ofOption _

end Attempt

theorem narrow_known (s : Setting R) (f : Frame R) (known : Known R) (ahead : Portal R) :
    narrow s { f with known } ahead = narrow s f ahead := by
  unfold narrow
  rfl

/-- Narrowing goes in step if finding the planes does. -/
theorem narrow_inStep {rel : Desk R → Desk R → Prop} (h : Desk.Kept rel) {s s' : Setting R}
    (hportal : s'.portal = s.portal) (hlevel : s'.level = s.level) {f : Frame R}
    (hplanes : ∀ exit pass d, f.pass = some (exit, pass) → Attempt.InStep rel
      (Attempt.planesFor s f.source exit pass d) (Attempt.planesFor s' f.source exit pass d))
    (ahead : Portal R) :
    Attempt.InStep rel (narrow s f ahead) (narrow s' f ahead) := by
  unfold narrow
  rw [hportal, hlevel]
  refine (Attempt.InStep.ofOption _).bind fun target => ?_
  cases hf : f.pass with
  | none => exact .pure _
  | some p =>
    obtain ⟨exit, pass⟩ := p
    refine (Attempt.InStep.ofOption _).bind fun target => (Attempt.InStep.ofOption _).bind fun source => ?_
    refine (Attempt.InStep.foldlM (fun target d => ?_) _ _).bind fun target => ?_
    · exact (hplanes exit pass d hf).bind fun _ => .clip h _ _ _ _
    · refine (Attempt.InStep.foldlM (fun source d => ?_) _ _).bind fun source => ?_
      · exact .narrowSource h hportal pass target source d
      · exact (Attempt.InStep.count h _).bind fun _ => .pure _

/-- The planes on both desks are right, and as much was counted on one as on the other. -/
structure Desk.Twin (near far : List (Vec R)) (d d' : Desk R) : Prop where
  left : d.known.Right near far
  right : d'.known.Right near far
  tally : d.tally = d'.tally

theorem Desk.Twin.kept (near far : List (Vec R)) : Desk.Kept (Desk.Twin near far) :=
  ⟨fun c h => ⟨h.left, h.right, congrArg (· + c) h.tally⟩, fun _ _ h => ⟨h.left, h.right, h.tally⟩⟩

namespace Attempt

theorem tally_planesFor (s : Setting R) (source : Winding R) (exit : PortalId) (pass : Winding R)
    (dir : Direction) (d : Desk R) : ((planesFor s source exit pass dir).run d).2.tally = d.tally := by
  have hget : (get : Attempt R (Desk R)).run d = (some d, d) := rfl
  rw [planesFor, run_bind, hget]
  dsimp only
  split
  · rfl
  · split <;> rfl

theorem twin_planesFor {s s' : Setting R} {source pass : Winding R} {exit : PortalId}
    (hs : ∀ passage d, s.passage? source exit pass = some passage →
      passage.planes d = d.separators source.points pass.points)
    (hs' : ∀ passage d, s'.passage? source exit pass = some passage →
      passage.planes d = d.separators source.points pass.points) (dir : Direction) :
    InStep (Desk.Twin source.points pass.points) (planesFor s source exit pass dir)
      (planesFor s' source exit pass dir) := by
  intro d d' h
  obtain ⟨hleft, hright⟩ := Yields.planesFor hs dir d h.left
  obtain ⟨hleft', hright'⟩ := Yields.planesFor hs' dir d' h.right
  refine ⟨hleft.trans hleft'.symm, hright, hright', ?_⟩
  rw [tally_planesFor, tally_planesFor, h.tally]

end Attempt

variable {s : Setting R} {g : Graph R} {passages : Bool}

structure Setting.Twin (s : Setting R) (g : Graph R) : Prop where
  alike : s.graph.Alike g
  left : s.graph.Sound
  right : g.Sound
  base : s.graph.portals[s.base]? = some s.portal

structure Frame.Twin (s s' : Setting R) (f f' : Frame R) : Prop where
  same : ∃ known, f' = { f with known }
  left : f.Intact s
  right : f'.Intact s'

theorem narrow_twin (hs : s.Twin g) {f f' : Frame R} (hf : f.Twin s (s.over g passages) f')
    (ahead : Portal R) : Attempt.InStep (Desk.Twin f.source.points f.far) (narrow s f ahead)
      (narrow (s.over g passages) f' ahead) := by
  obtain ⟨⟨known, rfl⟩, hleft, hright⟩ := hf
  have hbase : g.portals[s.base]? = some s.portal := by rw [hs.alike.portals, hs.base]
  rw [narrow_known]
  apply narrow_inStep (Desk.Twin.kept _ _)
  · rfl
  · rfl
  intro exit pass d hpass
  have hfar : f.far = pass.points := by rw [Frame.far, hpass]
  rw [hfar]
  exact Attempt.twin_planesFor (hleft.passage hs.left hs.base hpass)
    (hright.passage hs.right hbase hpass) d

namespace Search

variable {x x' : Search R} {top top' : Frame R} {rest rest' : List (Frame R)} {id : PortalId}

/-- The searches have come equally far. -/
structure Twin (s s' : Setting R) (x x' : Search R) : Prop where
  stack : List.Forall₂ (Frame.Twin s s') x.stack x'.stack
  onChain : x.onChain = x'.onChain
  visible : x.visible = x'.visible
  tally : x.tally = x'.tally

theorem Twin.start (hs : s.Twin g) (mightSee : BitSet) (pool pool' : Pool R) :
    Twin s (s.over g passages) (start s mightSee pool) (start (s.over g passages) mightSee pool') := by
  have hsize : g.clusters.size = s.graph.clusters.size := hs.alike.size
  refine ⟨.cons ⟨⟨{}, ?_⟩, .first s _ _ _ _, .first (s.over g passages) _ _ _ _⟩ .nil, ?_, ?_, rfl⟩
  · simp only [Setting.over, Pool.borrowSet_fst, hsize, hs.alike.portalsOf]
  · simp only [Search.start, descend, idle, Setting.over, hsize]
  · simp only [Search.start, descend, idle, Setting.over, hsize]

theorem Twin.extend (hs : s.Twin g) (h : Twin s (s.over g passages) x x')
    (htop : top.Twin s (s.over g passages) top')
    (hrest : List.Forall₂ (Frame.Twin s (s.over g passages)) rest rest') {ahead : Portal R}
    (hp : s.graph.portals[id]? = some ahead) (evidence : BitSet) :
    Twin s (s.over g passages) (extend s x top rest id ahead evidence)
      (extend (s.over g passages) x' top' rest' id ahead evidence) := by
  have hp' : g.portals[id]? = some ahead := by rw [hs.alike.portals, hp]
  obtain ⟨⟨known, rfl⟩, hleft, hright⟩ := htop
  obtain ⟨hres, hknown, hknown', htally⟩ := narrow_twin hs ⟨⟨known, rfl⟩, hleft, hright⟩ ahead
    ⟨top.known, x.tally + { checks := 1 }, x.pool⟩ ⟨known, x'.tally + { checks := 1 }, x'.pool⟩
    ⟨hleft.known, hright.known, congrArg (· + ({ checks := 1 } : Counters)) h.tally⟩
  -- what is left is what `narrowed?` leaves, so a winding of the child that counts as whole is whole
  have hyields := (narrow_yields hs.left hs.base hleft ahead
    ⟨top.known, x.tally + { checks := 1 }, x.pool⟩ hleft.known).1
  have hstack (k k' : Known R) (hk : k.Right top.source.points top.far)
      (hk' : k'.Right top.source.points top.far) : List.Forall₂ (Frame.Twin s (s.over g passages))
        ({ top with known := k } :: rest) ({ top with known := k' } :: rest') :=
    .cons ⟨⟨k', rfl⟩, hleft.learn hk, hright.learn hk'⟩ hrest
  unfold Search.extend
  rcases hrun : (narrow s top ahead).run ⟨top.known, x.tally + { checks := 1 }, x.pool⟩ with ⟨left, desk⟩
  rcases hrun' : (narrow (s.over g passages) { top with known } ahead).run
    ⟨known, x'.tally + { checks := 1 }, x'.pool⟩ with ⟨left', desk'⟩
  rw [hrun] at hres hknown htally hyields
  rw [hrun'] at hres hknown' htally
  dsimp only at hres hknown hknown' htally hyields ⊢
  rw [hrun, hrun']
  subst hres
  cases left with
  | none => exact ⟨hstack _ _ hknown hknown', h.onChain, h.visible, htally⟩
  | some left =>
    obtain ⟨source, pass⟩ := left
    refine ⟨.cons ⟨⟨{}, ?_⟩, ?_, ?_⟩ (hstack _ _ hknown hknown'), ?_, ?_, ?_⟩
    · simp only [Setting.over, Pool.borrowSet_fst, hs.alike.size, hs.alike.portalsOf]
    · exact hleft.child hp hyields.symm _ _ _ _
    · exact hright.child hp' hyields.symm _ _ _ _
    · exact congrArg (BitSet.insert · ahead.target) h.onChain
    · exact congrArg (BitSet.insert · ahead.target) h.visible
    · exact congrArg (· + ({ chains := 1 } : Counters)) htally

theorem Twin.attempt (hs : s.Twin g) (h : Twin s (s.over g passages) x x')
    (htop : top.Twin s (s.over g passages) top')
    (hrest : List.Forall₂ (Frame.Twin s (s.over g passages)) rest rest') (id : PortalId) :
    Paired (Twin s (s.over g passages)) (attempt s x top rest id)
      (attempt (s.over g passages) x' top' rest' id) := by
  have hstack : List.Forall₂ (Frame.Twin s (s.over g passages)) (top :: rest) (top' :: rest') :=
    .cons htop hrest
  have hmask : top'.mask = top.mask := by
    obtain ⟨⟨known, rfl⟩, -⟩ := htop
    rfl
  have hplane : top'.passPlane = top.passPlane := by
    obtain ⟨⟨known, rfl⟩, -⟩ := htop
    rfl
  obtain ⟨stack', onChain', visible', tally', pool'⟩ := x'
  obtain ⟨-, rfl, rfl, rfl⟩ := h
  unfold Search.attempt
  dsimp only [Setting.over]
  rw [hs.alike.portals, hmask, hplane]
  split
  · exact .error _
  · next ahead hp =>
    split
    · exact .ok ⟨hstack, rfl, rfl, rfl⟩
    · split
      · exact .error _
      · next evidence he =>
        split
        · exact .ok ⟨hstack, rfl, rfl, rfl⟩
        · split
          · exact .ok ⟨hstack, rfl, rfl, rfl⟩
          · refine .ok (Twin.extend hs ?_ htop hrest hp evidence.set)
            exact ⟨hstack, rfl, rfl, rfl⟩

theorem Twin.move (hs : s.Twin g) (h : Twin s (s.over g passages) x x')
    (htop : top.Twin s (s.over g passages) top')
    (hrest : List.Forall₂ (Frame.Twin s (s.over g passages)) rest rest') :
    Paired (Twin s (s.over g passages)) (move s x top rest)
      (move (s.over g passages) x' top' rest') := by
  obtain ⟨⟨known, rfl⟩, hleft, hright⟩ := htop
  unfold Search.move
  dsimp only
  split
  · exact .ok ⟨hrest, congrArg (BitSet.erase · top.cluster) h.onChain, h.visible, h.tally⟩
  · next id todo ht =>
    have htop : Frame.Twin s (s.over g passages) { top with todo } { top with known, todo } :=
      ⟨⟨known, rfl⟩, ⟨hleft.source, hleft.pass, hleft.known⟩, ⟨hright.source, hright.pass, hright.known⟩⟩
    exact h.attempt hs htop hrest id

theorem Twin.run (hs : s.Twin g) (h : Twin s (s.over g passages) x x') (hv : Valid s x)
    (hv' : Valid (s.over g passages) x') :
    Paired (Twin s (s.over g passages)) (run s x hv) (run (s.over g passages) x' hv') := by
  -- the moves of the first search are followed, and the second makes the same
  fun_induction Search.run s x hv generalizing x' with
  | case1 x hv hx =>
    have hx' : x'.stack = [] := by
      have hstack := h.stack
      rw [hx] at hstack
      exact List.forall₂_nil_left_iff.mp hstack
    rw [run_of_nil hv' hx']
    exact .ok h
  | case2 x hv top rest hx e hy =>
    have hstack := h.stack
    rw [hx] at hstack
    obtain ⟨top', rest', htop, hrest, hx'⟩ := List.forall₂_cons_left_iff.mp hstack
    rw [run_of_error hv' hx' ((h.move hs htop hrest).of_error hy)]
    exact .error e
  | case3 x hv top rest hx y hy ih =>
    have hstack := h.stack
    rw [hx] at hstack
    obtain ⟨top', rest', htop, hrest, hx'⟩ := List.forall₂_cons_left_iff.mp hstack
    obtain ⟨y', hy', htwin⟩ := (h.move hs htop hrest).exists_ok hy
    rw [run_of_ok hv' hx' hy']
    exact ih htwin _

end Search

end Sightline
