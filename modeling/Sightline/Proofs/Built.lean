import Sightline.Survey

/-! The graphs that a caller can come by, and what holds of all of them: ids lead somewhere, a
cluster's list is the list of the portals it owns, and a stored passage is the one that would be built
now, however long ago it was built. -/

namespace Sightline

variable {R : Type}

/-- A graph made by adding openings, with passages built and surveys run at any time in between. -/
inductive Graph.Built [Scalar R] : Graph R → Prop
  | ofClusters (count : Nat) : Built (.ofClusters count)
  | add {g g' : Graph R} {points : List (Vec R)} {back front : ClusterId} {opening : Opening} :
      Built g → g.add points back front = .ok (opening, g') → Built g'
  | buildPassages {g g' : Graph R} {workers : Workers} {count : Nat} :
      Built g → (g.buildPassages workers).result = .ok (g', count) → Built g'
  | noteRow {g g' : Graph R} {c : ClusterId} {offset : Nat} :
      Built g → g.noteRow? c offset = some g' → Built g'
  | survey {g g' : Graph R} {o : Options} {found : Survey} :
      Built g → (g.survey o).result = .ok (found, g') → Built g'

namespace Graph

theorem portalsOf_eq (g : Graph R) (c : ClusterId) :
    g.portalsOf c = ((g.clusters[c]?).map (·.portals)).getD [] := by
  unfold portalsOf
  split <;> simp [*]

theorem portalsOf_ofClusters (count : Nat) (c : ClusterId) :
    (ofClusters count : Graph R).portalsOf c = [] := by
  rw [portalsOf_eq, ofClusters, Array.getElem?_replicate]
  split <;> rfl

@[simp] theorem size_own (g : Graph R) (c : ClusterId) (p : PortalId) :
    (g.own c p).clusters.size = g.clusters.size := by simp [own]

theorem mem_portalsOf_own {g : Graph R} {c d : ClusterId} {p id : PortalId}
    (hc : c < g.clusters.size) :
    id ∈ (g.own c p).portalsOf d ↔ id ∈ g.portalsOf d ∨ id = p ∧ c = d := by
  simp only [portalsOf_eq, own, Array.getElem?_modify]
  by_cases h : c = d
  · subst h
    simp [hc]
  · simp [h]

theorem passages_own {g : Graph R} {c : ClusterId} {p : PortalId} {cluster : Cluster R}
    (h : cluster ∈ (g.own c p).clusters) : ∃ old ∈ g.clusters, cluster.passages = old.passages := by
  obtain ⟨i, hi⟩ := Array.mem_iff_getElem?.mp h
  rw [own, Array.getElem?_modify] at hi
  split at hi
  · obtain ⟨old, ho, rfl⟩ := Option.map_eq_some_iff.mp hi
    exact ⟨old, Array.mem_of_getElem? ho, rfl⟩
  · exact ⟨cluster, Array.mem_of_getElem? hi, rfl⟩

theorem checkRoom_eq_ok {g : Graph R} {c : ClusterId} (h : g.checkRoom c = .ok ()) :
    c < g.clusters.size ∧ (g.portalsOf c).length < portalLimit := by
  unfold checkRoom at h
  split at h
  · cases h
  · split at h
    · cases h
    · exact ⟨Nat.lt_of_not_le ‹_›, Nat.lt_of_not_le ‹_›⟩

theorem getElem?_push_push {portals : Array (Portal R)} {p q portal : Portal R} {id : PortalId} :
    ((portals.push p).push q)[id]? = some portal ↔
      portals[id]? = some portal ∨ id = portals.size ∧ p = portal ∨
        id = portals.size + 1 ∧ q = portal := by
  rw [Array.getElem?_push, Array.size_push, Array.getElem?_push]
  by_cases h1 : id = portals.size + 1
  · subst h1
    simp
  · by_cases h2 : id = portals.size
    · subst h2
      simp
    · simp [h1, h2]

/-- The same clusters and portals. Passages, and where rows start, may differ. -/
structure Alike (g g' : Graph R) : Prop where
  portals : g'.portals = g.portals
  clusters : ∀ c : ClusterId, (g'.clusters[c]?).map (·.portals) = (g.clusters[c]?).map (·.portals)

theorem Alike.refl (g : Graph R) : Alike g g := ⟨rfl, fun _ => rfl⟩

theorem Alike.symm {g g' : Graph R} (h : Alike g g') : Alike g' g :=
  ⟨h.portals.symm, fun c => (h.clusters c).symm⟩

theorem Alike.trans {g g' g'' : Graph R} (h : Alike g g') (h' : Alike g' g'') : Alike g g'' :=
  ⟨h'.portals.trans h.portals, fun c => (h'.clusters c).trans (h.clusters c)⟩

theorem Alike.portalsOf {g g' : Graph R} (h : Alike g g') (c : ClusterId) :
    g'.portalsOf c = g.portalsOf c := by
  rw [portalsOf_eq, portalsOf_eq, h.clusters]

theorem Alike.size {g g' : Graph R} (h : Alike g g') : g'.clusters.size = g.clusters.size := by
  have hc (c : ClusterId) : g'.clusters.size ≤ c ↔ g.clusters.size ≤ c := by
    rw [← Array.getElem?_eq_none_iff, ← Array.getElem?_eq_none_iff, ← Option.map_eq_none_iff,
      h.clusters, Option.map_eq_none_iff]
  exact Nat.le_antisymm ((hc _).mpr (Nat.le_refl _)) ((hc _).mp (Nat.le_refl _))

structure Renoted (g g' : Graph R) : Prop where
  portals : g'.portals = g.portals
  clusters : ∀ c : ClusterId, (g'.clusters[c]?).map (fun x => (x.portals, x.passages)) =
    (g.clusters[c]?).map fun x => (x.portals, x.passages)

theorem Renoted.alike {g g' : Graph R} (h : Renoted g g') : Alike g g' := by
  refine ⟨h.portals, fun c => ?_⟩
  have hc := congrArg (·.map Prod.fst) (h.clusters c)
  simpa only [Option.map_map, Function.comp_def] using hc

theorem Renoted.noteRow {g g' : Graph R} {c : ClusterId} {offset : Nat}
    (h : g.noteRow? c offset = some g') : Renoted g g' := by
  unfold noteRow? at h
  split at h <;> cases h
  refine ⟨rfl, fun d => ?_⟩
  rw [Array.getElem?_modify]
  split <;> simp [Function.comp_def]

theorem mapM_eq_some {α β : Type} {f : α → Option β} {l : List α} {out : List β} :
    l.mapM f = some out ↔ l.map f = out.map some := by
  induction l generalizing out with
  | nil => cases out <;> simp
  | cons a l ih =>
    rw [List.mapM_cons, List.map_cons]
    cases ha : f a with
    | none => cases out <;> simp
    | some b =>
      cases out with
      | nil => cases l.mapM f <;> simp
      | cons b' out =>
        rw [List.map_cons, List.cons.injEq, Option.some.injEq, ← ih]
        cases l.mapM f <;> simp

theorem mem_mapM {α β : Type} {f : α → Option β} {l : List α} {out : List β} (h : l.mapM f = some out)
    {b : β} : b ∈ out ↔ ∃ a ∈ l, f a = some b := by
  have hb : b ∈ out ↔ some b ∈ out.map some := by simp
  rw [hb, ← mapM_eq_some.mp h, List.mem_map]

/-- What is known of each result in terms of where it came from is known of the whole list. -/
theorem map_of_mapM {α β γ : Type} {f : α → Option β} {l : List α} {out : List β} {value : β → γ}
    {source : α → γ} (h : l.mapM f = some out) (hf : ∀ a b, f a = some b → value b = source a) :
    out.map value = l.map source := by
  rw [mapM_eq_some] at h
  induction l generalizing out with
  | nil => rw [List.map_eq_nil_iff.mp h.symm, List.map_nil, List.map_nil]
  | cons a l ih =>
    cases out with
    | nil => cases h
    | cons b out =>
      obtain ⟨hb, hout⟩ := List.cons.inj h
      rw [List.map_cons, List.map_cons, hf a b hb, ih hout]

theorem exists_mapM {α β : Type} {f : α → Option β} {l : List α} (h : ∀ a ∈ l, ∃ b, f a = some b) :
    ∃ out, l.mapM f = some out := by
  induction l with
  | nil => exact ⟨[], rfl⟩
  | cons a l ih =>
    obtain ⟨b, hb⟩ := h a (.head _)
    obtain ⟨out, ho⟩ := ih fun a ha => h a (.tail _ ha)
    exact ⟨b :: out, by rw [List.mapM_cons, hb, ho]; rfl⟩

theorem length_of_mapM {α β : Type} {f : α → Report β} {l : List α} {out : List β}
    (h : (l.mapM f).result = .ok out) : out.length = l.length := by
  induction l generalizing out with
  | nil =>
    rw [List.mapM_nil] at h
    cases h
    rfl
  | cons a l ih =>
    rw [List.mapM_cons] at h
    obtain ⟨b, -, h⟩ := Report.result_bind_eq_ok.mp h
    obtain ⟨rest, hr, h⟩ := Report.result_bind_eq_ok.mp h
    cases h
    rw [List.length_cons, List.length_cons, ih hr]

theorem length_startsFrom (start : Nat) (pieces : List (List UInt8)) :
    (Table.startsFrom start pieces).length = pieces.length := by
  induction pieces generalizing start with
  | nil => rfl
  | cons piece pieces ih => rw [Table.startsFrom, List.length_cons, List.length_cons, ih]

theorem Renoted.encode {g g' : Graph R} {visible : List BitSet} {table : Table}
    (h : (g.encode visible).result = .ok (table, g')) : Renoted g g' := by
  obtain ⟨rows, hr, h⟩ := Report.result_bind_eq_ok.mp h
  cases h
  refine ⟨rfl, fun c => ?_⟩
  have hlen := length_startsFrom 0 (rows.map fun row => Packing.pack row.bytes)
  rw [List.length_map, length_of_mapM hr, List.length_range] at hlen
  rw [List.getElem?_toArray, List.getElem?_zipWith, Array.getElem?_toList]
  by_cases hc : c < g.clusters.size
  · rw [List.getElem?_eq_getElem (by rw [hlen]; exact hc), Array.getElem?_eq_getElem hc]
    rfl
  · rw [Array.getElem?_eq_none (Nat.le_of_not_lt hc)]

theorem encodeProgress_eq_ok {g g' : Graph R} {p : Progress} {visible : List BitSet} {table : Table} :
    (g.encodeProgress p).result = .ok (visible, table, g') ↔
      p.results = .ok visible ∧ (g.encode visible).result = .ok (table, g') := by
  have hlift : (Report.lift (p.results.mapError Failure.fault)).result = .ok visible ↔
      p.results = .ok visible := by
    cases p.results with
    | error fault => constructor <;> intro h <;> cases h
    | ok found => constructor <;> intro h <;> cases h <;> rfl
  rw [encodeProgress, Report.result_bind_eq_ok]
  constructor
  · rintro ⟨_, hr, h⟩
    obtain ⟨_, he, h⟩ := Report.result_bind_eq_ok.mp h
    cases h
    exact ⟨hlift.mp hr, he⟩
  · rintro ⟨hr, he⟩
    exact ⟨_, hlift.mpr hr, Report.result_bind_eq_ok.mpr ⟨_, he, rfl⟩⟩

variable [Scalar R]

structure Sound (g : Graph R) : Prop where
  owner_lt : ∀ {id : PortalId} {portal : Portal R}, g.portals[id]? = some portal →
    portal.owner < g.clusters.size
  target_lt : ∀ {id : PortalId} {portal : Portal R}, g.portals[id]? = some portal →
    portal.target < g.clusters.size
  mem_portalsOf : ∀ {c : ClusterId} {id : PortalId},
    id ∈ g.portalsOf c ↔ ∃ portal, g.portals[id]? = some portal ∧ portal.owner = c
  between : ∀ cluster ∈ g.clusters, ∀ passage ∈ cluster.passages,
    Passage.between? g passage.entry passage.exit = some passage

theorem portalOf_eq_ok {points : List (Vec R)} {back front : ClusterId} {portal : Portal R}
    (h : portalOf points back front = .ok portal) :
    portal.owner = back ∧ portal.target = front := by
  obtain ⟨w, hw, h⟩ := bind_eq_ok.mp h
  split at h <;> cases h
  exact ⟨rfl, rfl⟩

theorem add_eq_ok {g g' : Graph R} {points : List (Vec R)} {back front : ClusterId}
    {opening : Opening} (h : g.add points back front = .ok (opening, g')) :
    back < g.clusters.size ∧ front < g.clusters.size ∧ ∃ portal,
      portalOf points back front = .ok portal ∧
      g' = (({ g with portals := (g.portals.push portal).push portal.reversed }.own back
        g.portals.size).own front (g.portals.size + 1)) := by
  obtain ⟨_, hb, h⟩ := bind_eq_ok.mp h
  obtain ⟨_, hf, h⟩ := bind_eq_ok.mp h
  obtain ⟨portal, hp, h⟩ := bind_eq_ok.mp h
  cases h
  exact ⟨(checkRoom_eq_ok hb).1, (checkRoom_eq_ok hf).1, portal, hp, rfl⟩

theorem between?_eq_some {g : Graph R} {entry exit : PortalId} {passage : Passage R}
    (h : Passage.between? g entry exit = some passage) :
    ∃ source pass, g.portals[entry]? = some source ∧ g.portals[exit]? = some pass ∧
      passage.entry = entry ∧ passage.exit = exit ∧
      ∀ d, passage.planes d = d.separators source.winding.points pass.winding.points := by
  obtain ⟨source, hs, h⟩ := Option.bind_eq_some_iff.mp h
  obtain ⟨pass, hp, h⟩ := Option.bind_eq_some_iff.mp h
  cases h
  refine ⟨source, pass, hs, hp, rfl, rfl, fun d => ?_⟩
  cases d <;> rfl

theorem between?_mono {g g' : Graph R} {entry exit : PortalId} {passage : Passage R}
    (hg : ∀ (id : PortalId) portal, g.portals[id]? = some portal → g'.portals[id]? = some portal)
    (h : Passage.between? g entry exit = some passage) :
    Passage.between? g' entry exit = some passage := by
  obtain ⟨source, pass, hs, hp, -⟩ := between?_eq_some h
  rw [← h, Passage.between?, Passage.between?, hs, hp, hg _ _ hs, hg _ _ hp]

theorem Sound.ofClusters (count : Nat) : Sound (ofClusters count : Graph R) := by
  refine ⟨?_, ?_, ?_, ?_⟩
  · simp [Graph.ofClusters]
  · simp [Graph.ofClusters]
  · intro c id
    rw [portalsOf_ofClusters]
    simp [Graph.ofClusters]
  · intro cluster hc passage hp
    simp only [Graph.ofClusters, Array.mem_replicate] at hc
    rw [hc.2] at hp
    cases hp

theorem Sound.add {g g' : Graph R} (hg : g.Sound) {points : List (Vec R)} {back front : ClusterId}
    {opening : Opening} (h : g.add points back front = .ok (opening, g')) : g'.Sound := by
  obtain ⟨hback, hfront, portal, hp, rfl⟩ := add_eq_ok h
  obtain ⟨hown, htarget⟩ := portalOf_eq_ok hp
  have hmem {id : PortalId} {q : Portal R} :
      ((g.portals.push portal).push portal.reversed)[id]? = some q ↔ g.portals[id]? = some q ∨
        id = g.portals.size ∧ portal = q ∨ id = g.portals.size + 1 ∧ portal.reversed = q :=
    getElem?_push_push
  refine ⟨?_, ?_, ?_, ?_⟩
  · intro id q hq
    rw [size_own, size_own]
    rcases hmem.mp hq with hq | ⟨-, rfl⟩ | ⟨-, rfl⟩
    · exact hg.owner_lt hq
    · rwa [hown]
    · rwa [show portal.reversed.owner = portal.target from rfl, htarget]
  · intro id q hq
    rw [size_own, size_own]
    rcases hmem.mp hq with hq | ⟨-, rfl⟩ | ⟨-, rfl⟩
    · exact hg.target_lt hq
    · rwa [htarget]
    · rwa [show portal.reversed.target = portal.owner from rfl, hown]
  · intro c id
    rw [mem_portalsOf_own (by simpa using hfront), mem_portalsOf_own (by exact hback)]
    constructor
    · rintro ((hid | ⟨rfl, rfl⟩) | ⟨rfl, rfl⟩)
      · obtain ⟨q, hq, hc⟩ := hg.mem_portalsOf.mp hid
        exact ⟨q, hmem.mpr (.inl hq), hc⟩
      · exact ⟨portal, hmem.mpr (.inr (.inl ⟨rfl, rfl⟩)), hown⟩
      · exact ⟨portal.reversed, hmem.mpr (.inr (.inr ⟨rfl, rfl⟩)), htarget⟩
    · rintro ⟨q, hq, hc⟩
      rcases hmem.mp hq with hq | ⟨rfl, rfl⟩ | ⟨rfl, rfl⟩
      · exact .inl (.inl (hg.mem_portalsOf.mpr ⟨q, hq, hc⟩))
      · exact .inl (.inr ⟨rfl, hown.symm.trans hc⟩)
      · exact .inr ⟨rfl, htarget.symm.trans hc⟩
  · intro cluster hc passage hp
    obtain ⟨mid, hm, hcp⟩ := passages_own hc
    obtain ⟨old, ho, hmp⟩ := passages_own hm
    rw [hcp, hmp] at hp
    exact between?_mono (fun id q hq => hmem.mpr (.inl hq)) (hg.between old ho passage hp)

/-- In an alike graph it is left to see that the passages are right. -/
theorem Sound.of_alike {g g' : Graph R} (hg : g.Sound) (h : Alike g g')
    (hb : ∀ cluster ∈ g'.clusters, ∀ passage ∈ cluster.passages,
      Passage.between? g passage.entry passage.exit = some passage) : g'.Sound := by
  refine ⟨?_, ?_, ?_, fun cluster hc passage hp => ?_⟩
  · rw [h.portals, h.size]
    exact hg.owner_lt
  · rw [h.portals, h.size]
    exact hg.target_lt
  · intro c id
    rw [h.portalsOf, h.portals]
    exact hg.mem_portalsOf
  · refine between?_mono (fun id q hq => ?_) (hb cluster hc passage hp)
    rw [h.portals, hq]

theorem Sound.renoted {g g' : Graph R} (hg : g.Sound) (h : Renoted g g') : g'.Sound := by
  refine hg.of_alike h.alike fun cluster hc passage hp => ?_
  obtain ⟨i, hi⟩ := Array.mem_iff_getElem?.mp hc
  have hs := h.clusters i
  rw [hi, Option.map_some, eq_comm] at hs
  obtain ⟨old, ho, he⟩ := Option.map_eq_some_iff.mp hs
  rw [← (Prod.mk.inj he).2] at hp
  exact hg.between old (Array.mem_of_getElem? ho) passage hp

/-- The passages of a cluster are put together from those behind each of its portals. -/
theorem passagesFrom?_eq_some {g : Graph R} {c : ClusterId} {passages : List (Passage R)} :
    g.passagesFrom? c = some passages ↔ ∃ cluster, g.clusters[c]? = some cluster ∧
      ∃ behind : List (List (Passage R)), cluster.portals.mapM (fun entry => do
        (← g.exits? c entry).mapM (Passage.between? g entry)) = some behind ∧
      behind.flatten = passages := by
  simp only [passagesFrom?, Option.bind_eq_bind, Option.bind_eq_some_iff, Option.some.injEq]

theorem mem_passagesFrom {g : Graph R} {c : ClusterId} {passages : List (Passage R)}
    (h : g.passagesFrom? c = some passages) {passage : Passage R} (hp : passage ∈ passages) :
    Passage.between? g passage.entry passage.exit = some passage := by
  obtain ⟨cluster, -, behind, hbehind, rfl⟩ := passagesFrom?_eq_some.mp h
  obtain ⟨list, hmem, hp⟩ := List.mem_flatten.mp hp
  obtain ⟨entry, -, hentry⟩ := (mem_mapM hbehind).mp hmem
  obtain ⟨exits, -, hexits⟩ := Option.bind_eq_some_iff.mp hentry
  obtain ⟨exit, -, hbetween⟩ := (mem_mapM hexits).mp hp
  obtain ⟨_, _, _, _, he, hx, _⟩ := between?_eq_some hbetween
  rw [he, hx, hbetween]

theorem buildPassages_eq_ok {g g' : Graph R} {workers : Workers} {count : Nat} :
    (g.buildPassages workers).result = .ok (g', count) ↔ ∃ all : List (List (Passage R)),
      (List.range g.clusters.size).map g.passagesFrom? = all.map some ∧
      g' = ⟨(g.clusters.toList.zipWith (fun c passages => { c with passages }) all).toArray,
        g.portals⟩ ∧ count = all.foldl (fun n passages => n + passages.length) 0 := by
  simp only [buildPassages, Report.result_bind_eq_ok, Report.result_ofOption_eq_ok, mapM_eq_some,
    List.map_id_fun, id_eq, Workers.map, Report.result_tell, Report.result_pure, Except.ok.injEq,
    exists_const, true_and, Prod.mk.injEq, @eq_comm _ g', @eq_comm _ count]

theorem getElem?_buildPassages {g g' : Graph R} {workers : Workers} {count : Nat}
    (h : (g.buildPassages workers).result = .ok (g', count)) {c : ClusterId} {cluster : Cluster R}
    (hc : g'.clusters[c]? = some cluster) : ∃ old passages, g.clusters[c]? = some old ∧
      g.passagesFrom? c = some passages ∧ cluster = { old with passages } := by
  obtain ⟨all, hall, rfl, -⟩ := buildPassages_eq_ok.mp h
  rw [List.getElem?_toArray, List.getElem?_zipWith_eq_some, Array.getElem?_toList] at hc
  obtain ⟨old, passages, hold, hpassages, rfl⟩ := hc
  have hi := congrArg (·[c]?) hall
  simp only [List.getElem?_map, hpassages, Option.map_some,
    List.getElem?_range (Array.getElem?_eq_some_iff.mp hold).1] at hi
  exact ⟨old, passages, hold, Option.some.inj hi, rfl⟩

theorem Alike.buildPassages {g g' : Graph R} {workers : Workers} {count : Nat}
    (h : (g.buildPassages workers).result = .ok (g', count)) : Alike g g' := by
  obtain ⟨all, hall, rfl, -⟩ := buildPassages_eq_ok.mp h
  have hlen := congrArg List.length hall
  rw [List.length_map, List.length_map, List.length_range] at hlen
  refine ⟨rfl, fun c => ?_⟩
  rw [List.getElem?_toArray, List.getElem?_zipWith, Array.getElem?_toList]
  by_cases hc : c < g.clusters.size
  · rw [List.getElem?_eq_getElem (hlen ▸ hc), Array.getElem?_eq_getElem hc]
    rfl
  · rw [Array.getElem?_eq_none (Nat.le_of_not_lt hc)]

theorem Sound.buildPassages {g g' : Graph R} (hg : g.Sound) {workers : Workers} {count : Nat}
    (h : (g.buildPassages workers).result = .ok (g', count)) : g'.Sound := by
  refine hg.of_alike (.buildPassages h) fun cluster hc passage hp => ?_
  obtain ⟨i, hi⟩ := Array.mem_iff_getElem?.mp hc
  obtain ⟨old, passages, -, hpassages, rfl⟩ := getElem?_buildPassages h hi
  exact mem_passagesFrom hpassages hp

/-- Where a survey starts: the graph as it is, or with its passages built. -/
theorem prepared_eq_ok {g g' : Graph R} {o : Options} {workers : Workers}
    (h : (g.prepared o workers).result = .ok g') :
    g' = g ∨ ∃ count, (g.buildPassages workers).result = .ok (g', count) := by
  unfold prepared at h
  split at h
  · obtain ⟨⟨g₁, count⟩, hb, h⟩ := Report.result_bind_eq_ok.mp h
    cases h
    exact .inr ⟨count, hb⟩
  · cases h
    exact .inl rfl

theorem Alike.prepared {g g' : Graph R} {o : Options} {workers : Workers}
    (h : (g.prepared o workers).result = .ok g') : Alike g g' := by
  rcases prepared_eq_ok h with rfl | ⟨count, hb⟩
  · exact .refl g'
  · exact .buildPassages hb

theorem Sound.prepared {g g' : Graph R} (hg : g.Sound) {o : Options} {workers : Workers}
    (h : (g.prepared o workers).result = .ok g') : g'.Sound := by
  rcases prepared_eq_ok h with rfl | ⟨count, hb⟩
  · exact hg
  · exact hg.buildPassages hb

theorem survey_eq_ok {g g' : Graph R} {o : Options} {found : Survey} :
    (g.survey o).result = .ok (found, g') ↔ ∃ g₁ might p,
      (g.prepared o (.ofThreads o.threads)).result = .ok g₁ ∧
      ((Workers.ofThreads o.threads).map g₁.portals.size g₁.mightSee?).mapM id = some might ∧
      (g₁.flowAll o (.ofMightSee (might.map (·.clusters))
        (1 < (Workers.ofThreads o.threads).count))).result = .ok p ∧
      (g₁.encodeProgress p).result = .ok (found.visible, found.table, g') ∧
      found.mightSee = might.map (·.clusters) ∧ found.total = p.total := by
  simp only [survey, Report.result_bind_eq_ok, Report.result_tell, Report.result_tellIf,
    Report.result_ofOption_eq_ok, Report.result_pure, Except.ok.injEq, exists_const, true_and]
  constructor
  · rintro ⟨g₁, h₁, might, hm, p, hp, ⟨visible, table, g₂⟩, h₂, he⟩
    cases he
    exact ⟨g₁, might, p, h₁, hm, hp, h₂, rfl, rfl⟩
  · rintro ⟨g₁, might, p, h₁, hm, hp, h₂, hsets, ht⟩
    obtain ⟨visible, sets, table, total⟩ := found
    cases hsets
    cases ht
    exact ⟨g₁, h₁, might, hm, p, hp, _, h₂, rfl⟩

theorem Alike.survey {g g' : Graph R} {o : Options} {found : Survey}
    (h : (g.survey o).result = .ok (found, g')) : Alike g g' := by
  obtain ⟨g₁, _, _, h₁, -, -, h₂, -⟩ := survey_eq_ok.mp h
  exact (Alike.prepared h₁).trans (Renoted.encode (encodeProgress_eq_ok.mp h₂).2).alike

theorem Sound.survey {g g' : Graph R} (hg : g.Sound) {o : Options} {found : Survey}
    (h : (g.survey o).result = .ok (found, g')) : g'.Sound := by
  obtain ⟨g₁, _, _, h₁, -, -, h₂, -⟩ := survey_eq_ok.mp h
  exact (hg.prepared h₁).renoted (.encode (encodeProgress_eq_ok.mp h₂).2)

theorem Built.sound {g : Graph R} (h : g.Built) : g.Sound := by
  induction h with
  | ofClusters count => exact .ofClusters count
  | add _ h ih => exact ih.add h
  | buildPassages _ h ih => exact ih.buildPassages h
  | noteRow _ h ih => exact ih.renoted (.noteRow h)
  | survey _ h ih => exact ih.survey h

/-- What every opening keeps, and what does not depend on passages or rows, holds of all graphs. -/
theorem Built.rule {P : Graph R → Prop} (hfirst : ∀ count, P (.ofClusters count))
    (hadd : ∀ {g g' : Graph R} {points back front opening}, g.Built → P g →
      g.add points back front = .ok (opening, g') → P g')
    (halike : ∀ {g g' : Graph R}, P g → Alike g g' → P g') {g : Graph R} (hg : g.Built) : P g := by
  induction hg with
  | ofClusters count => exact hfirst count
  | add hg h ih => exact hadd hg ih h
  | buildPassages _ h ih => exact halike ih (.buildPassages h)
  | noteRow _ h ih => exact halike ih (Renoted.noteRow h).alike
  | survey _ h ih => exact halike ih (.survey h)

theorem Built.exists_reverse {g : Graph R} (hg : g.Built) {id : PortalId} {portal : Portal R}
    (hp : g.portals[id]? = some portal) : ∃ (j : PortalId) (q : Portal R), g.portals[j]? = some q ∧
      q.owner = portal.target ∧ q.target = portal.owner := by
  refine hg.rule (P := fun g => ∀ (id : PortalId) portal, g.portals[id]? = some portal →
    ∃ (j : PortalId) (q : Portal R), g.portals[j]? = some q ∧ q.owner = portal.target ∧
      q.target = portal.owner) ?_ ?_ ?_ id portal hp
  · simp [Graph.ofClusters]
  · intro g g' points back front opening _ ih h id portal hp
    obtain ⟨-, -, opened, -, rfl⟩ := add_eq_ok h
    have hmem {j : PortalId} {q : Portal R} :
        ((g.portals.push opened).push opened.reversed)[j]? = some q ↔ g.portals[j]? = some q ∨
          j = g.portals.size ∧ opened = q ∨ j = g.portals.size + 1 ∧ opened.reversed = q :=
      getElem?_push_push
    rcases hmem.mp hp with hp | ⟨-, rfl⟩ | ⟨-, rfl⟩
    · obtain ⟨j, q, hq, hends⟩ := ih id portal hp
      exact ⟨j, q, hmem.mpr (.inl hq), hends⟩
    · exact ⟨_, opened.reversed, hmem.mpr (.inr (.inr ⟨rfl, rfl⟩)), rfl, rfl⟩
    · exact ⟨_, opened, hmem.mpr (.inr (.inl ⟨rfl, rfl⟩)), rfl, rfl⟩
  · intro g g' ih halike
    rwa [halike.portals]

def addAll (g : Graph R) (openings : List (List (Vec R) × ClusterId × ClusterId)) :
    Except Fault (Graph R) :=
  openings.foldlM (fun g x => (·.2) <$> g.add x.1 x.2.1 x.2.2) g

theorem addAll_preserves {P : Graph R → Prop} {g g' : Graph R}
    {openings : List (List (Vec R) × ClusterId × ClusterId)} (h : g.addAll openings = .ok g') (hg : P g)
    (hadd : ∀ {g g' : Graph R} {points back front opening}, P g →
      g.add points back front = .ok (opening, g') → P g') : P g' := by
  induction openings generalizing g with
  | nil =>
    cases h
    exact hg
  | cons x openings ih =>
    rw [Graph.addAll, List.foldlM_cons] at h
    obtain ⟨g₁, h₁, h⟩ := bind_eq_ok.mp h
    cases ha : g.add x.1 x.2.1 x.2.2 with
    | error e =>
      rw [ha] at h₁
      cases h₁
    | ok a =>
      rw [ha] at h₁
      cases h₁
      exact ih h (hadd hg ha)

theorem Built.addAll {g g' : Graph R} {openings : List (List (Vec R) × ClusterId × ClusterId)}
    (hg : g.Built) (h : g.addAll openings = .ok g') : g'.Built :=
  addAll_preserves h hg fun hg hadd => hg.add hadd

def wall (ax ay bx b : Float) : List (Vec Float) :=
  [⟨ax, ay, 0⟩, ⟨bx, b, 0⟩, ⟨bx, b, 4⟩, ⟨ax, ay, 4⟩]

/-- Five rooms in a row. The way turns left after the second opening, and the last opening is askew. -/
def crooked : Graph Float :=
  match (ofClusters 5 : Graph Float).addAll [(wall 0 0 0 4, 0, 1), (wall 4 0 4 4, 1, 2),
    (wall 9 6 1 6, 2, 3), (wall 6 4 2 8, 3, 4)] with
  | .ok g => g
  | .error _ => .ofClusters 5

theorem crooked_built : crooked.Built := by
  unfold crooked
  split
  · next h => exact (Built.ofClusters 5).addAll h
  · exact .ofClusters 5

end Graph

end Sightline
