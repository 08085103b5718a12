import Mathlib.Data.Set.Basic
import Sightline.Flow.Narrow

/-! Chains of portals, without the search that follows them. A chain starts at a base portal and goes on
through portal after portal as long as the cuts leave something; what a portal sees is where chains end.
How much each portal is known to see bounds what can be seen through it, and a chain under tight bounds
is one under loose bounds too. -/

namespace Sightline

variable {R : Type}

/-- A link of a chain: the cluster reached, what is left there of the first portal and of the last, and
the clusters that may still be seen. -/
structure Link (R : Type) where
  cluster : ClusterId
  source : Winding R
  pass : Option (Winding R)
  passPlane : Plane R
  mask : Set ClusterId

/-- What chains from one portal may go by. -/
structure Outlook (R : Type) where
  graph : Graph R
  level : Nat
  base : Portal R
  /-- What the base portal might see. -/
  bound : Set ClusterId
  /-- What might be seen through each portal. -/
  test : PortalId → Set ClusterId

def Outlook.first (o : Outlook R) : Link R :=
  ⟨o.base.target, o.base.whole, none, o.base.plane, o.bound⟩

/-- The same link, but there more may still be seen. -/
def Link.Loosens (l l' : Link R) : Prop := ∃ mask, l.mask ⊆ mask ∧ l' = { l with mask }

theorem Link.Loosens.refl (l : Link R) : l.Loosens l := ⟨l.mask, subset_rfl, rfl⟩

theorem Link.Loosens.cluster {l l' : Link R} (h : l.Loosens l') : l'.cluster = l.cluster := by
  obtain ⟨_, -, rfl⟩ := h
  rfl

theorem Link.Loosens.mask {l l' : Link R} (h : l.Loosens l') : l.mask ⊆ l'.mask := by
  obtain ⟨_, hsub, rfl⟩ := h
  exact hsub

variable [Scalar R]

def Winding.clipAll (sphere : Sphere R) : List (Plane R) → Winding R → Option (Winding R)
  | [], w => some w
  | plane :: planes, w =>
    match sphere.side plane with
    | .front => clipAll sphere planes w
    | .back => none
    | .on => (w.front? plane false).bind (clipAll sphere planes)

/-- What is left of the source and of the portal ahead when a chain goes on through that portal. -/
def Link.narrowed? (last : Link R) (level : Nat) (base ahead : Portal R) :
    Option (Winding R × Winding R) := do
  let target ← ahead.whole.front? base.plane false
  match last.pass with
  | none => some (last.source, target)
  | some pass =>
    let target ← target.front? last.passPlane false
    let source ← last.source.front? ahead.plane.flipped false
    let target ← (Direction.all.take level).foldlM (fun target d =>
      target.clipAll ahead.sphere (d.separators last.source.points pass.points)) target
    let source ← (Direction.all.take (level - 2)).foldlM (fun source d =>
      source.clipAll base.sphere (d.separators target.points pass.points)) source
    some (source, target)

namespace Outlook

/-- The chain that ends in `last`, before it `rest`, can go on through the portal `id` to `next`. -/
inductive Extends (o : Outlook R) (last : Link R) (rest : List (Link R)) (id : PortalId) :
    Link R → Prop
  | intro {ahead : Portal R} {source pass : Winding R}
      (owned : id ∈ o.graph.portalsOf last.cluster)
      (portal : o.graph.portals[id]? = some ahead)
      (masked : ahead.target ∈ last.mask)
      (fresh : ahead.target ∉ (last :: rest).map (·.cluster))
      (turned : ahead.plane.opposes last.passPlane = false)
      (left : last.narrowed? o.level o.base ahead = some (source, pass)) :
      Extends o last rest id ⟨ahead.target, source, some pass, ahead.plane, last.mask ∩ o.test id⟩

/-- A chain as the list of its links, the end first. -/
inductive Chain (o : Outlook R) : List (Link R) → Prop
  | first : Chain o [o.first]
  | extend {last next : Link R} {rest : List (Link R)} {id : PortalId} :
      Chain o (last :: rest) → o.Extends last rest id next → Chain o (next :: last :: rest)

/-- The clusters where chains end. -/
def sees (o : Outlook R) : Set ClusterId :=
  {c | ∃ last rest, o.Chain (last :: rest) ∧ last.cluster = c}

variable {o : Outlook R} {last next : Link R} {rest links : List (Link R)} {id : PortalId}

theorem Extends.unique {next' : Link R} (h : o.Extends last rest id next)
    (h' : o.Extends last rest id next') : next = next' := by
  obtain ⟨-, hp, -, -, -, hl⟩ := h
  obtain ⟨-, hp', -, -, -, hl'⟩ := h'
  rw [hp] at hp'
  cases hp'
  rw [hl] at hl'
  cases hl'
  rfl

/-- A chain goes on all the same if more may still be seen at its end and through the portal. -/
theorem Extends.loosen (h : o.Extends last rest id next) {last' : Link R} {rest' : List (Link R)}
    (hl : last.Loosens last') (hr : rest'.map (·.cluster) = rest.map (·.cluster)) (bound : Set ClusterId)
    {test : PortalId → Set ClusterId} (ht : o.test id ⊆ test id) :
    ∃ next', { o with bound, test }.Extends last' rest' id next' ∧ next.Loosens next' := by
  obtain ⟨mask, hmask, rfl⟩ := hl
  obtain ⟨owned, portal, masked, fresh, turned, left⟩ := h
  refine ⟨_, .intro owned portal (hmask masked) ?_ turned left, _, Set.inter_subset_inter hmask ht, rfl⟩
  rw [List.map_cons, hr]
  exact fresh

theorem Extends.exists_portal (h : o.Extends last rest id next) : ∃ ahead, o.graph.portals[id]? = some ahead ∧
    ahead.target = next.cluster ∧ ahead.target ∉ (last :: rest).map (·.cluster) := by
  obtain ⟨-, portal, -, fresh, -, -⟩ := h
  exact ⟨_, portal, rfl, fresh⟩

theorem Extends.mask_subset (h : o.Extends last rest id next) : next.mask ⊆ last.mask := by
  cases h
  exact Set.inter_subset_left

theorem Extends.owned (h : o.Extends last rest id next) : id ∈ o.graph.portalsOf last.cluster := by
  cases h
  assumption

theorem Extends.cluster_mem (h : o.Extends last rest id next) : next.cluster ∈ last.mask := by
  cases h
  assumption

theorem Chain.tail (h : o.Chain (next :: last :: rest)) : o.Chain (last :: rest) := by
  cases h
  assumption

theorem Chain.first_suffix (h : o.Chain links) : [o.first] <:+ links := by
  induction h with
  | first => exact List.suffix_refl _
  | extend _ _ ih => exact ih.trans (List.suffix_cons _ _)

/-- A chain that starts with another one either is that chain or goes on from its end. -/
theorem Chain.eq_or_extends (h : o.Chain links) (hs : last :: rest <:+ links) :
    links = last :: rest ∨
      ∃ id next, o.Extends last rest id next ∧ next :: last :: rest <:+ links := by
  induction h with
  | first =>
    left
    rcases List.suffix_cons_iff.mp hs with h | h
    · exact h.symm
    · simp at h
  | @extend last' next' rest' id' hc he ih =>
    rcases List.suffix_cons_iff.mp hs with h | h
    · exact .inl h.symm
    · right
      rcases ih h with h | ⟨id, next, hn, hsuf⟩
      · cases h
        exact ⟨id', next', he, List.suffix_refl _⟩
      · exact ⟨id, next, hn, hsuf.trans (List.suffix_cons _ _)⟩

/-- A chain never leaves the mask of one of its links. -/
theorem Chain.end_mem_mask (h : o.Chain (last :: rest)) (hs : next :: links <:+ last :: rest)
    (hn : next.cluster ∈ next.mask) : last.cluster ∈ next.mask ∧ last.mask ⊆ next.mask := by
  generalize hl : last :: rest = whole at h hs
  induction h generalizing last rest with
  | first =>
    cases hl
    rcases List.suffix_cons_iff.mp hs with h | h
    · cases h
      exact ⟨hn, subset_rfl⟩
    · simp at h
  | extend hc he ih =>
    cases hl
    rcases List.suffix_cons_iff.mp hs with h | h
    · cases h
      exact ⟨hn, subset_rfl⟩
    · obtain ⟨-, hsub⟩ := ih rfl h
      exact ⟨hsub he.cluster_mem, he.mask_subset.trans hsub⟩

theorem sees_subset_bound (h : o.base.target ∈ o.bound) : o.sees ⊆ o.bound := by
  rintro c ⟨last, rest, hc, rfl⟩
  exact (hc.end_mem_mask hc.first_suffix h).1

theorem Chain.base_target_mem (h : o.Chain links) : o.base.target ∈ links.map (·.cluster) := by
  have hmem : o.first ∈ links := h.first_suffix.subset (List.mem_singleton_self _)
  exact List.mem_map_of_mem (f := (·.cluster)) hmem

/-- A chain is still one when the bounds get looser. The portals that lead into its first cluster do
not matter, since it never goes back there. -/
theorem Chain.loosen (h : o.Chain (last :: rest)) {bound : Set ClusterId}
    {test : PortalId → Set ClusterId} (hb : o.bound ⊆ bound)
    (ht : ∀ (id : PortalId) (ahead : Portal R), o.graph.portals[id]? = some ahead →
      ahead.target ≠ o.base.target → o.test id ⊆ test id) :
    ∃ mask rest', last.mask ⊆ mask ∧ rest'.map (·.cluster) = rest.map (·.cluster) ∧
      { o with bound, test }.Chain ({ last with mask } :: rest') := by
  generalize hl : last :: rest = whole at h
  induction h generalizing last rest with
  | first =>
    cases hl
    exact ⟨bound, [], hb, rfl, .first⟩
  | @extend last' next rest id hc he ih =>
    cases hl
    obtain ⟨mask, rest', hmask, hrest, hchain⟩ := ih rfl
    obtain ⟨ahead, portal, -, fresh⟩ := he.exists_portal
    have hne : ahead.target ≠ o.base.target := fun h => fresh (h ▸ hc.base_target_mem)
    obtain ⟨_, hext, mask', hmask', rfl⟩ := he.loosen ⟨mask, hmask, rfl⟩ hrest bound (ht id ahead portal hne)
    exact ⟨mask', _, hmask', by rw [List.map_cons, List.map_cons, hrest], hchain.extend hext⟩

theorem sees_mono {bound : Set ClusterId} {test : PortalId → Set ClusterId} (hb : o.bound ⊆ bound)
    (ht : ∀ (id : PortalId) (ahead : Portal R), o.graph.portals[id]? = some ahead →
      ahead.target ≠ o.base.target → o.test id ⊆ test id) :
    o.sees ⊆ { o with bound, test }.sees := by
  rintro c ⟨last, rest, hc, rfl⟩
  obtain ⟨mask, rest', -, -, hchain⟩ := hc.loosen hb ht
  exact ⟨_, rest', hchain, rfl⟩

end Outlook

end Sightline
