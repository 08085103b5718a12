import Mathlib.Data.Set.Card
import Sightline.Proofs.Openings

/-! What the passage table holds. A cluster has a passage for every way from one of its portals across the next
cluster and out of that, unless the way leads straight back, and it has each only once. So it makes no
difference whether a passage is looked for from the front or through an index of places, in which a later entry
would hide an earlier one. -/

namespace Sightline

variable {R : Type}

namespace Passage

def ends (p : Passage R) : PortalId × PortalId := (p.entry, p.exit)

/-- The place an index by ends has for two portals. It is filled from the front, and a later passage takes the
place of an earlier one with the same ends. -/
def placeOf? (passages : List (Passage R)) (entry exit : PortalId) : Option Nat :=
  passages.zipIdx.foldl (fun place p => if p.1.ends = (entry, exit) then some p.2 else place) none

theorem placeOf?_snoc (passages : List (Passage R)) (p : Passage R) (entry exit : PortalId) :
    placeOf? (passages ++ [p]) entry exit =
      if p.ends = (entry, exit) then some passages.length else placeOf? passages entry exit := by
  simp [placeOf?, List.zipIdx_append]

theorem exists_of_placeOf? {passages : List (Passage R)} {entry exit : PortalId} {place : Nat}
    (h : placeOf? passages entry exit = some place) :
    ∃ p, passages[place]? = some p ∧ p.ends = (entry, exit) := by
  induction passages using List.reverseRecOn with
  | nil => cases h
  | append_singleton passages p ih =>
    rw [placeOf?_snoc] at h
    split at h
    · next hends =>
      cases h
      exact ⟨p, List.getElem?_concat_length, hends⟩
    · obtain ⟨q, hq, hends⟩ := ih h
      exact ⟨q, List.getElem?_append_left (List.getElem?_eq_some_iff.mp hq).1 ▸ hq, hends⟩

theorem ends_ne_of_placeOf? {passages : List (Passage R)} {entry exit : PortalId}
    (h : placeOf? passages entry exit = none) : ∀ p ∈ passages, p.ends ≠ (entry, exit) := by
  induction passages using List.reverseRecOn with
  | nil => simp
  | append_singleton passages p ih =>
    rw [placeOf?_snoc] at h
    split at h
    · cases h
    · next hends =>
      intro q hq
      rcases List.mem_append.mp hq with hq | hq
      · exact ih h q hq
      · rwa [List.mem_singleton.mp hq]

end Passage

theorem Cluster.findPassage?_eq (cluster : Cluster R) (entry exit : PortalId) :
    cluster.findPassage? entry exit = cluster.passages.find? (·.ends = (entry, exit)) := by
  simp [findPassage?, Passage.ends, Prod.mk.injEq]

theorem Cluster.findPassage?_eq_some {cluster : Cluster R} (hnodup : (cluster.passages.map Passage.ends).Nodup)
    {entry exit : PortalId} {p : Passage R} :
    cluster.findPassage? entry exit = some p ↔ p ∈ cluster.passages ∧ p.ends = (entry, exit) := by
  rw [findPassage?_eq]
  constructor
  · intro h
    have hends := List.find?_some h
    exact ⟨List.mem_of_find?_eq_some h, of_decide_eq_true hends⟩
  · rintro ⟨hp, hends⟩
    cases hfound : cluster.passages.find? (·.ends = (entry, exit)) with
    | none => exact absurd (decide_eq_true hends) (List.find?_eq_none.mp hfound p hp)
    | some q =>
      have hends' := List.find?_some hfound
      have hsame : q.ends = p.ends := (of_decide_eq_true hends').trans hends.symm
      rw [List.inj_on_of_nodup_map hnodup (List.mem_of_find?_eq_some hfound) hp hsame]

/-- Where no two passages have the same ends, an index finds what a search from the front does. -/
theorem Cluster.findPassage?_eq_placeOf? {cluster : Cluster R}
    (hnodup : (cluster.passages.map Passage.ends).Nodup) (entry exit : PortalId) :
    cluster.findPassage? entry exit =
      (Passage.placeOf? cluster.passages entry exit).bind (cluster.passages[·]?) := by
  cases hplace : Passage.placeOf? cluster.passages entry exit with
  | none =>
    rw [Option.bind_none, Option.eq_none_iff_forall_not_mem]
    intro p hp
    obtain ⟨hmem, hends⟩ := (Cluster.findPassage?_eq_some hnodup).mp hp
    exact Passage.ends_ne_of_placeOf? hplace p hmem hends
  | some place =>
    obtain ⟨p, hp, hends⟩ := Passage.exists_of_placeOf? hplace
    rw [Option.bind_some, hp]
    exact (Cluster.findPassage?_eq_some hnodup).mpr ⟨List.mem_of_getElem? hp, hends⟩

namespace Graph

variable {g g' : Graph R} {c : ClusterId} {entry exit : PortalId}

/-- A way from a cluster through one of its portals, across the next cluster and out of that, and not straight
back. -/
def Way (g : Graph R) (c : ClusterId) (entry exit : PortalId) : Prop :=
  ∃ p q, g.portals[entry]? = some p ∧ g.portals[exit]? = some q ∧ p.owner = c ∧ q.owner = p.target ∧
    q.target ≠ c

def ways (g : Graph R) (c : ClusterId) : List (PortalId × PortalId) :=
  (g.portalsOf c).flatMap fun entry => ((g.exits? c entry).getD []).map (entry, ·)

def allWays (g : Graph R) : List (ClusterId × PortalId × PortalId) :=
  (List.range g.clusters.size).flatMap fun c => (g.ways c).map (c, ·)

theorem length_allWays (g : Graph R) :
    g.allWays.length = ((List.range g.clusters.size).map fun c => (g.ways c).length).sum := by
  simp [allWays, List.length_flatMap]

theorem exits?_sublist {exits : List PortalId} (h : g.exits? c entry = some exits) :
    ∃ d, exits.Sublist (g.portalsOf d) := by
  obtain ⟨portal, -, h⟩ := Option.bind_eq_some_iff.mp h
  obtain ⟨neighbour, hneighbour, h⟩ := Option.bind_eq_some_iff.mp h
  have hown : g.portalsOf portal.target = neighbour.portals := by
    rw [portalsOf_eq, hneighbour, Option.map_some, Option.getD_some]
  split at h <;> cases h
  exact ⟨portal.target, hown ▸ List.filter_sublist⟩

variable [Scalar R]

theorem Sound.exits?_spec (hg : g.Sound) {p : Portal R} (hp : g.portals[entry]? = some p) (c : ClusterId) :
    ∃ exits, g.exits? c entry = some exits ∧
      ∀ exit, exit ∈ exits ↔ ∃ q, g.portals[exit]? = some q ∧ q.owner = p.target ∧ q.target ≠ c := by
  obtain ⟨neighbour, hneighbour⟩ : ∃ neighbour, g.clusters[p.target]? = some neighbour :=
    ⟨_, Array.getElem?_eq_getElem (hg.target_lt hp)⟩
  have hown {id : PortalId} :
      id ∈ neighbour.portals ↔ ∃ q, g.portals[id]? = some q ∧ q.owner = p.target := by
    rw [← hg.mem_portalsOf, portalsOf_eq, hneighbour, Option.map_some, Option.getD_some]
  have hall : neighbour.portals.all (· < g.portals.size) := by
    rw [List.all_eq_true]
    intro id hid
    obtain ⟨q, hq, -⟩ := hown.mp hid
    exact decide_eq_true (Array.getElem?_eq_some_iff.mp hq).1
  refine ⟨neighbour.portals.filter fun exit => (g.portals[exit]?).all (·.target ≠ c), ?_, fun exit => ?_⟩
  · rw [exits?, hp, Option.bind_eq_bind, Option.bind_some, hneighbour]
    exact if_pos hall
  · rw [List.mem_filter, hown]
    constructor
    · rintro ⟨⟨q, hq, howner⟩, hback⟩
      exact ⟨q, hq, howner, by simpa [hq] using hback⟩
    · rintro ⟨q, hq, howner, hback⟩
      exact ⟨⟨q, hq, howner⟩, by simpa [hq] using hback⟩

theorem Sound.mem_ways (hg : g.Sound) : (entry, exit) ∈ g.ways c ↔ g.Way c entry exit := by
  simp only [ways, List.mem_flatMap, List.mem_map, Prod.mk.injEq, hg.mem_portalsOf]
  constructor
  · rintro ⟨_, ⟨p, hp, hown⟩, _, hexit, rfl, rfl⟩
    obtain ⟨exits, hexits, hmem⟩ := hg.exits?_spec hp c
    rw [hexits, Option.getD_some] at hexit
    obtain ⟨q, hq, hnext, hback⟩ := (hmem _).mp hexit
    exact ⟨p, q, hp, hq, hown, hnext, hback⟩
  · rintro ⟨p, q, hp, hq, hown, hnext, hback⟩
    obtain ⟨exits, hexits, hmem⟩ := hg.exits?_spec hp c
    refine ⟨entry, ⟨p, hp, hown⟩, exit, ?_, rfl, rfl⟩
    rw [hexits, Option.getD_some]
    exact (hmem _).mpr ⟨q, hq, hnext, hback⟩

/-- No way is listed twice: a cluster lists its portals in increasing order, each once. -/
theorem Regular.nodup_ways (hg : g.Regular) (c : ClusterId) : (g.ways c).Nodup := by
  have hportals (d : ClusterId) : (g.portalsOf d).Nodup := (hg.increasing d).imp fun h => h.ne
  refine List.nodup_flatMap.mpr ⟨fun entry _ => ?_, (hportals c).imp fun {a b} hne => ?_⟩
  · cases hexits : g.exits? c entry with
    | none => exact List.nodup_nil
    | some exits =>
      obtain ⟨d, hsub⟩ := exits?_sublist hexits
      exact ((hportals d).sublist hsub).map (Prod.mk_right_injective entry)
  · intro way ha hb
    obtain ⟨_, -, rfl⟩ := List.mem_map.mp ha
    obtain ⟨_, -, h⟩ := List.mem_map.mp hb
    exact hne (congrArg Prod.fst h).symm

theorem exists_between {p q : Portal R} (hp : g.portals[entry]? = some p) (hq : g.portals[exit]? = some q) :
    ∃ passage, Passage.between? g entry exit = some passage ∧ passage.ends = (entry, exit) := by
  simp [Passage.between?, hp, hq, Passage.ends]

/-- No id that is looked up for the passages of a cluster leads nowhere. -/
theorem Sound.exists_passagesFrom (hg : g.Sound) (hc : c < g.clusters.size) :
    ∃ passages, g.passagesFrom? c = some passages := by
  have hcluster : g.clusters[c]? = some g.clusters[c] := Array.getElem?_eq_getElem hc
  have hown : g.portalsOf c = g.clusters[c].portals := by
    rw [portalsOf_eq, hcluster, Option.map_some, Option.getD_some]
  obtain ⟨behind, hbehind⟩ := exists_mapM (l := g.clusters[c].portals)
    (f := fun entry => do (← g.exits? c entry).mapM (Passage.between? g entry)) fun entry hentry => by
      obtain ⟨p, hp, -⟩ := hg.mem_portalsOf.mp (hown ▸ hentry)
      obtain ⟨exits, hexits, hmem⟩ := hg.exits?_spec hp c
      obtain ⟨passages, hpassages⟩ := exists_mapM (f := Passage.between? g entry) fun exit hexit => by
        obtain ⟨q, hq, -⟩ := (hmem exit).mp hexit
        obtain ⟨passage, hpassage, -⟩ := exists_between hp hq
        exact ⟨passage, hpassage⟩
      exact ⟨passages, Option.bind_eq_some_iff.mpr ⟨exits, hexits, hpassages⟩⟩
  exact ⟨behind.flatten, passagesFrom?_eq_some.mpr ⟨_, hcluster, behind, hbehind, rfl⟩⟩

/-- Every way is given its passage, and nothing else is. -/
theorem ends_passagesFrom {passages : List (Passage R)} (h : g.passagesFrom? c = some passages) :
    passages.map Passage.ends = g.ways c := by
  obtain ⟨cluster, hcluster, behind, hbehind, rfl⟩ := passagesFrom?_eq_some.mp h
  rw [ways, portalsOf_eq, hcluster, Option.map_some, Option.getD_some, List.map_flatten,
    List.flatMap_def]
  refine congrArg List.flatten (map_of_mapM hbehind fun entry list hlist => ?_)
  obtain ⟨exits, hexits, hpassages⟩ := Option.bind_eq_some_iff.mp hlist
  rw [hexits, Option.getD_some]
  refine map_of_mapM hpassages fun exit passage hpassage => ?_
  obtain ⟨_, _, _, _, rfl, rfl, _⟩ := between?_eq_some hpassage
  rfl

theorem Sound.mem_allWays (hg : g.Sound) {w : ClusterId × PortalId × PortalId} :
    w ∈ g.allWays ↔ g.Way w.1 w.2.1 w.2.2 := by
  obtain ⟨c, entry, exit⟩ := w
  simp only [allWays, List.mem_flatMap, List.mem_range, List.mem_map, Prod.mk.injEq]
  constructor
  · rintro ⟨_, -, _, hway, rfl, rfl⟩
    exact hg.mem_ways.mp hway
  · intro hway
    obtain ⟨p, _, hp, -, hown, -⟩ := id hway
    exact ⟨c, hown ▸ hg.owner_lt hp, (entry, exit), hg.mem_ways.mpr hway, rfl, rfl⟩

theorem Regular.nodup_allWays (hg : g.Regular) : g.allWays.Nodup := by
  refine List.nodup_flatMap.mpr ⟨fun c _ => (hg.nodup_ways c).map (Prod.mk_right_injective c), ?_⟩
  refine List.nodup_range.imp fun {a b} hne => ?_
  intro way ha hb
  obtain ⟨_, -, rfl⟩ := List.mem_map.mp ha
  obtain ⟨_, -, h⟩ := List.mem_map.mp hb
  exact hne (congrArg Prod.fst h).symm

/-- Building passages never fails, leaves the portals alone and counts what it has built. -/
theorem Sound.exists_buildPassages (hg : g.Sound) (workers : Workers) :
    ∃ g', (g.buildPassages workers).result = .ok (g', g.allWays.length) ∧ g'.portals = g.portals := by
  obtain ⟨all, hall⟩ := exists_mapM (f := g.passagesFrom?) (l := List.range g.clusters.size) fun c hc =>
    hg.exists_passagesFrom (List.mem_range.mp hc)
  have hcount : g.allWays.length = all.foldl (fun n passages => n + passages.length) 0 := by
    rw [length_allWays, ← List.foldl_map (f := List.length), ← List.sum_eq_foldl]
    refine congrArg List.sum (map_of_mapM hall fun c passages hpassages => ?_).symm
    rw [← ends_passagesFrom hpassages, List.length_map]
  exact ⟨_, buildPassages_eq_ok.mpr ⟨all, mapM_eq_some.mp hall, rfl, hcount⟩, rfl⟩

variable {workers : Workers} {count : Nat}

theorem passages_of_built {cluster : Cluster R} (h : (g.buildPassages workers).result = .ok (g', count))
    (hcluster : g'.clusters[c]? = some cluster) : g.passagesFrom? c = some cluster.passages := by
  obtain ⟨old, passages, -, hpassages, rfl⟩ := getElem?_buildPassages h hcluster
  exact hpassages

theorem Built.nodup_ends {cluster : Cluster R} (hg : g.Built)
    (h : (g.buildPassages workers).result = .ok (g', count)) (hcluster : g'.clusters[c]? = some cluster) :
    (cluster.passages.map Passage.ends).Nodup := by
  rw [ends_passagesFrom (passages_of_built h hcluster)]
  exact hg.regular.nodup_ways c

theorem Sound.mem_passagesFrom_iff (hg : g.Sound) {passages : List (Passage R)}
    (h : g.passagesFrom? c = some passages) {passage : Passage R} :
    passage ∈ passages ∧ passage.ends = (entry, exit) ↔
      g.Way c entry exit ∧ Passage.between? g entry exit = some passage := by
  rw [← hg.mem_ways, ← ends_passagesFrom h]
  constructor
  · rintro ⟨hmem, hends⟩
    obtain ⟨rfl, rfl⟩ := Prod.mk.inj hends
    exact ⟨List.mem_map_of_mem hmem, mem_passagesFrom h hmem⟩
  · rintro ⟨hway, hbetween⟩
    obtain ⟨found, hmem, hends⟩ := List.mem_map.mp hway
    obtain ⟨rfl, rfl⟩ := Prod.mk.inj hends
    obtain rfl : found = passage := Option.some.inj ((mem_passagesFrom h hmem).symm.trans hbetween)
    exact ⟨hmem, rfl⟩

/-- A lookup finds a passage just if there is a way, and then the passage between the two portals. -/
theorem Built.passage?_eq_some {passage : Passage R} (hg : g.Built)
    (h : (g.buildPassages workers).result = .ok (g', count)) : g'.passage? c entry exit = some passage ↔
      g.Way c entry exit ∧ Passage.between? g entry exit = some passage := by
  rw [passage?, Option.bind_eq_some_iff]
  constructor
  · rintro ⟨cluster, hcluster, hfound⟩
    rw [← hg.sound.mem_passagesFrom_iff (passages_of_built h hcluster)]
    exact (Cluster.findPassage?_eq_some (hg.nodup_ends h hcluster)).mp hfound
  · rintro ⟨hway, hbetween⟩
    obtain ⟨p, _, hp, -, rfl, -⟩ := id hway
    obtain ⟨cluster, hcluster⟩ : ∃ cluster, g'.clusters[p.owner]? = some cluster := by
      have hlt : p.owner < g'.clusters.size := by
        rw [(Alike.buildPassages h).size]
        exact hg.sound.owner_lt hp
      exact ⟨_, Array.getElem?_eq_getElem hlt⟩
    have hfound := (hg.sound.mem_passagesFrom_iff (passages_of_built h hcluster)).mpr ⟨hway, hbetween⟩
    exact ⟨cluster, hcluster, (Cluster.findPassage?_eq_some (hg.nodup_ends h hcluster)).mpr hfound⟩

theorem Built.encard_ways (hg : g.Built) :
    {w : ClusterId × PortalId × PortalId | g.Way w.1 w.2.1 w.2.2}.encard = g.allWays.length := by
  have hset : {w : ClusterId × PortalId × PortalId | g.Way w.1 w.2.1 w.2.2} = g.allWays.toFinset := by
    ext w
    simp [hg.sound.mem_allWays]
  rw [hset, Set.encard_coe_eq_coe_finsetCard, List.toFinset_card_of_nodup hg.regular.nodup_allWays]

/-- After passages are built, and however many had been built before further openings were added, a cluster has a
passage between two portals just if a way from it leads through the first and the second and not straight back.
It is the passage one would make from the two, no cluster has two with the same ends, so that a search from the
front and an index of places find the same, and as many are counted as there are ways. -/
theorem Built.passages_complete (hg : g.Built) (workers : Workers) : ∃ g' count,
    (g.buildPassages workers).result = .ok (g', count) ∧ g'.portals = g.portals ∧
    (∀ c entry exit, (∃ passage, g'.passage? c entry exit = some passage) ↔ g.Way c entry exit) ∧
    (∀ c entry exit passage, g'.passage? c entry exit = some passage →
      Passage.between? g' entry exit = some passage) ∧
    (∀ cluster ∈ g'.clusters, (cluster.passages.map Passage.ends).Nodup ∧ ∀ entry exit,
      cluster.findPassage? entry exit =
        (Passage.placeOf? cluster.passages entry exit).bind (cluster.passages[·]?)) ∧
    {w : ClusterId × PortalId × PortalId | g.Way w.1 w.2.1 w.2.2}.encard = count := by
  obtain ⟨g', h, hportals⟩ := hg.sound.exists_buildPassages workers
  refine ⟨g', _, h, hportals, fun c entry exit => ?_, fun c entry exit passage hfound => ?_, ?_, hg.encard_ways⟩
  · simp only [hg.passage?_eq_some h, exists_and_left, and_iff_left_iff_imp]
    rintro ⟨p, q, hp, hq, -⟩
    obtain ⟨passage, hpassage, -⟩ := exists_between hp hq
    exact ⟨passage, hpassage⟩
  · obtain ⟨-, hbetween⟩ := (hg.passage?_eq_some h).mp hfound
    exact between?_mono (fun id portal hid => hportals ▸ hid) hbetween
  · intro cluster hcluster
    obtain ⟨c, hc⟩ := Array.mem_iff_getElem?.mp hcluster
    have hnodup := hg.nodup_ends h hc
    exact ⟨hnodup, cluster.findPassage?_eq_placeOf? hnodup⟩

/-- A further opening in the crooked way, after its passages were built. It leads from the last room to the first,
and a table that was built before knows nothing of the way through it. -/
theorem exists_ring : ∃ old count opening ring,
    (crooked.buildPassages (.ofThreads 1)).result = .ok (old, count) ∧
    old.add (wall 0 20 0 24) 4 0 = .ok (opening, ring) ∧ ring.passage? 4 8 0 = none ∧ (8, 0) ∈ ring.ways 4 := by
  have hring : (match (crooked.buildPassages (.ofThreads 1)).result with
      | .ok (old, _) => (match old.add (wall 0 20 0 24) 4 0 with
        | .ok (_, ring) => (ring.passage? 4 8 0).isNone && (8, 0) ∈ ring.ways 4
        | .error _ => false)
      | .error _ => false) = true := by decide +kernel
  split at hring
  · next old count hold =>
    split at hring
    · next opening ring hadd =>
      obtain ⟨hnone, hway⟩ := (Bool.and_eq_true _ _).mp hring
      exact ⟨old, count, opening, ring, hold, hadd, Option.isNone_iff_eq_none.mp hnone, of_decide_eq_true hway⟩
    · cases hring
  · cases hring

/-- The table that is built again has a passage through the opening that makes the crooked way a ring. -/
theorem ring_passages : ∃ old count opening ring table count' passage,
    (crooked.buildPassages (.ofThreads 1)).result = .ok (old, count) ∧
    old.add (wall 0 20 0 24) 4 0 = .ok (opening, ring) ∧ ring.passage? 4 8 0 = none ∧
    (ring.buildPassages (.ofThreads 4)).result = .ok (table, count') ∧
    table.passage? 4 8 0 = some passage ∧ Passage.between? table 8 0 = some passage := by
  obtain ⟨old, count, opening, ring, hold, hadd, hnone, hway⟩ := exists_ring
  have hbuilt : ring.Built := (crooked_built.buildPassages hold).add hadd
  obtain ⟨table, count', htable, -, hcomplete, hbetween, -⟩ := hbuilt.passages_complete (.ofThreads 4)
  obtain ⟨passage, hpassage⟩ := (hcomplete 4 8 0).mpr (hbuilt.sound.mem_ways.mp hway)
  exact ⟨old, count, opening, ring, table, count', passage, hold, hadd, hnone, htable, hpassage,
    hbetween 4 8 0 passage hpassage⟩

end Graph

end Sightline
