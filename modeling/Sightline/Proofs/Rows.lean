import Sightline.Proofs.Flood
import Sightline.Proofs.Lifecycle
import Sightline.Proofs.Packing

/-! What the visibility table says. A row is read back from where the graph says it starts, although
nothing in the data marks where it ends, and holds the clusters that the results show. -/

namespace Sightline

theorem Report.result_mapM {α β : Type} (f : α → Report β) (l : List α) :
    (l.mapM f).result = l.mapM fun a => (f a).result := by
  induction l with
  | nil => rfl
  | cons a l ih =>
    rw [List.mapM_cons, List.mapM_cons, result_bind]
    congr 1
    funext b
    rw [result_bind, ih]
    rfl

theorem exists_map_eq_ok {ε α β : Type} {f : α → Except ε β} {l : List α}
    (h : ∀ a ∈ l, ∃ b, f a = .ok b) : ∃ out : List β, l.map f = out.map .ok := by
  induction l with
  | nil => exact ⟨[], rfl⟩
  | cons a l ih =>
    obtain ⟨b, hb⟩ := h a (.head _)
    obtain ⟨out, ho⟩ := ih fun a ha => h a (.tail _ ha)
    exact ⟨b :: out, by rw [List.map_cons, hb, ho, List.map_cons]⟩

namespace BitSet

def bitAt (bytes : List UInt8) (i : Nat) : Bool := (bytes.getD (i / 8) 0).toNat.testBit (i % 8)

theorem bitAt_bytes (s : BitSet) (i : Nat) : bitAt s.bytes i = decide (i ∈ s) := testBit_bytes s i

theorem le_bytesFor (size : Nat) : size ≤ 8 * bytesFor size := by
  unfold bytesFor
  omega

theorem bytesFor_whole (count : Nat) : bytesFor (8 * count) = count := by
  unfold bytesFor
  omega

theorem mem_foldl_union {sets : List BitSet} {start : BitSet} {i : Nat} :
    i ∈ sets.foldl (· ∪ ·) start ↔ i ∈ start ∨ i < start.size ∧ ∃ s ∈ sets, i ∈ s := by
  induction sets generalizing start with
  | nil => simp
  | cons s sets ih =>
    rw [List.foldl_cons, ih, mem_union, size_union, or_assoc, ← and_or_left]
    simp only [List.mem_cons, exists_eq_or_imp]

theorem size_foldl_union (sets : List BitSet) (start : BitSet) :
    (sets.foldl (· ∪ ·) start).size = start.size := by
  induction sets generalizing start with
  | nil => rfl
  | cons s sets ih => rw [List.foldl_cons, ih, size_union]

end BitSet

namespace Table

theorem getElem?_startsFrom {pieces : List (List UInt8)} {i : Nat} (h : i < pieces.length)
    (start : Nat) : (startsFrom start pieces)[i]? = some (start + (pieces.take i).flatten.length) := by
  induction pieces generalizing start i with
  | nil => cases h
  | cons piece pieces ih =>
    rw [startsFrom]
    cases i with
    | zero => rfl
    | succ i =>
      rw [List.getElem?_cons_succ, ih (Nat.lt_of_succ_lt_succ h), List.take_succ_cons,
        List.flatten_cons, List.length_append, Nat.add_assoc]

/-- From the start of a piece on, the joined pieces are that piece and those after it. -/
theorem drop_flatten {pieces : List (List UInt8)} {i : Nat} (h : i < pieces.length) :
    pieces.flatten.drop (pieces.take i).flatten.length =
      pieces[i] ++ (pieces.drop (i + 1)).flatten := by
  have hsplit : pieces.flatten = (pieces.take i).flatten ++ (pieces.drop i).flatten := by
    rw [← List.flatten_append, List.take_append_drop]
  rw [hsplit, List.drop_left, List.drop_eq_getElem_cons h, List.flatten_cons]

end Table

variable {R : Type}

namespace Graph

variable {g g' : Graph R} {visible : List BitSet} {c d : ClusterId}

def Shows (g : Graph R) (visible : List BitSet) (c d : ClusterId) : Prop :=
  ∃ (id : PortalId) (portal : Portal R) (v : BitSet),
    g.portals[id]? = some portal ∧ portal.owner = c ∧ visible[id]? = some v ∧ d ∈ v

theorem lt_rowSize (h : c < g.clusters.size) : c < g.rowSize :=
  Nat.lt_of_lt_of_le h (BitSet.le_bytesFor _)

/-- What there is to know about a table that was built from the results of all portals. -/
structure Tabled (g : Graph R) (visible : List BitSet) (t : Table) : Prop where
  rowLength : t.rowLength = BitSet.bytesFor g.clusters.size
  length_rows : t.rows.length = g.clusters.size
  row : ∀ {c : ClusterId}, c < g.clusters.size → ∃ row, t.rows[c]? = some row ∧
    row.size = g.rowSize ∧ ∀ d, d ∈ row ↔ d = c ∨ d < g.rowSize ∧ g.Shows visible c d
  data : t.data = (t.rows.map fun row => Packing.pack row.bytes).flatten
  offsets : t.offsets = Table.startsFrom 0 (t.rows.map fun row => Packing.pack row.bytes)

theorem Tabled.sees_iff {t : Table} (h : g.Tabled visible t) (hc : c < g.clusters.size)
    (hd : d < g.clusters.size) : t.sees c d = true ↔ d = c ∨ g.Shows visible c d := by
  obtain ⟨row, hrow, -, hmem⟩ := h.row hc
  rw [Table.sees, hrow, Option.any_some, decide_eq_true_iff, hmem]
  exact or_congr_right (and_iff_right (lt_rowSize hd))

theorem Tabled.unpack {t : Table} (h : g.Tabled visible t) {row : BitSet} (hrow : t.rows[c]? = some row)
    (hsize : row.size = g.rowSize) : ∃ offset, t.offsets[c]? = some offset ∧
      Packing.unpack (t.data.drop offset) t.rowLength = row.bytes := by
  obtain ⟨hc, rfl⟩ := List.getElem?_eq_some_iff.mp hrow
  have hc' : c < (t.rows.map fun row => Packing.pack row.bytes).length := by rwa [List.length_map]
  refine ⟨_, by rw [h.offsets, Table.getElem?_startsFrom hc'], ?_⟩
  have hlen : t.rowLength = t.rows[c].bytes.length := by
    rw [h.rowLength, BitSet.length_bytes, hsize, rowSize, BitSet.bytesFor_whole]
  rw [h.data, Nat.zero_add, Table.drop_flatten hc', List.getElem_map, hlen, Packing.unpack_pack]

variable [Scalar R]

theorem row_spec (hg : g.Sound) (hlen : visible.length = g.portals.size) (hc : c < g.clusters.size) :
    ∃ row, (g.row visible c).result = .ok row ∧ row.size = g.rowSize ∧
      ∀ d, d ∈ row ↔ d = c ∨ d < g.rowSize ∧ g.Shows visible c d := by
  have hcl : g.clusters[c]? = some g.clusters[c] := Array.getElem?_eq_getElem hc
  have hown {id : PortalId} : id ∈ g.clusters[c].portals ↔
      ∃ portal, g.portals[id]? = some portal ∧ portal.owner = c := by
    rw [← hg.mem_portalsOf, portalsOf_eq, hcl, Option.map_some, Option.getD_some]
  obtain ⟨sets, hsets⟩ := exists_mapM (f := fun id => visible[id]?) (l := g.clusters[c].portals)
    fun id hid => by
      obtain ⟨portal, hp, -⟩ := hown.mp hid
      have hlt : id < visible.length := hlen ▸ (Array.getElem?_eq_some_iff.mp hp).1
      exact ⟨_, List.getElem?_eq_getElem hlt⟩
  have hshows {d : ClusterId} : (∃ s ∈ sets, d ∈ s) ↔ g.Shows visible c d := by
    constructor
    · rintro ⟨s, hmem, hd⟩
      obtain ⟨id, hid, hv⟩ := (mem_mapM hsets).mp hmem
      obtain ⟨portal, hp, hc⟩ := hown.mp hid
      exact ⟨id, portal, s, hp, hc, hv, hd⟩
    · rintro ⟨id, portal, v, hp, hc, hv, hd⟩
      exact ⟨v, (mem_mapM hsets).mpr ⟨id, hown.mpr ⟨portal, hp, hc⟩, hv⟩, hd⟩
  refine ⟨(sets.foldl (· ∪ ·) (.empty g.rowSize)).insert c, ?_, ?_, fun d => ?_⟩
  · refine Report.result_bind_eq_ok.mpr ⟨_, Report.result_ofOption_eq_ok.mpr hcl, ?_⟩
    refine Report.result_bind_eq_ok.mpr ⟨_, Report.result_ofOption_eq_ok.mpr hsets, ?_⟩
    exact Report.result_bind_eq_ok.mpr ⟨(), rfl, rfl⟩
  · rw [BitSet.size_insert, BitSet.size_foldl_union, BitSet.size_empty]
  · rw [BitSet.mem_insert, BitSet.size_foldl_union, BitSet.mem_foldl_union, BitSet.size_empty, hshows,
      or_iff_right (BitSet.not_mem_empty d _), and_iff_left (lt_rowSize hc), or_comm]

/-- The results of all portals make a table, and each cluster's row is noted in the graph. -/
theorem encode_spec (hg : g.Sound) (hlen : visible.length = g.portals.size) :
    ∃ t g', (g.encode visible).result = .ok (t, g') ∧ g.Tabled visible t ∧
      g'.clusters.toList.map (·.rowOffset) = t.offsets.map some := by
  obtain ⟨rows, hrows⟩ := exists_map_eq_ok (f := fun c => (g.row visible c).result)
    (l := List.range g.clusters.size) fun c hc => by
      obtain ⟨row, hrow, -⟩ := row_spec hg hlen (List.mem_range.mp hc)
      exact ⟨row, hrow⟩
  have hlength : rows.length = g.clusters.size := by
    have h := congrArg List.length hrows
    rwa [List.length_map, List.length_map, List.length_range, eq_comm] at h
  have hoffsets : (Table.startsFrom 0 (rows.map fun row => Packing.pack row.bytes)).length =
      g.clusters.toList.length := by
    rw [length_startsFrom, List.length_map, hlength, Array.length_toList]
  refine ⟨_, _, Report.result_bind_eq_ok.mpr ⟨rows, ?_, rfl⟩,
    ⟨rfl, hlength, fun {c} hc => ?_, rfl, rfl⟩, ?_⟩
  · rw [Report.result_mapM]
    exact Progress.mapM_eq_ok.mpr hrows
  · obtain ⟨row, hrow, hspec⟩ := row_spec hg hlen hc
    have hget := congrArg (·[c]?) hrows
    simp only [List.getElem?_map, List.getElem?_range hc, Option.map_some, hrow] at hget
    obtain ⟨row', hrow', he⟩ := Option.map_eq_some_iff.mp hget.symm
    cases he
    exact ⟨row, hrow', hspec⟩
  · rw [List.toList_toArray, List.map_zipWith]
    refine List.ext_getElem ?_ fun i hi hi' => ?_
    · rw [List.length_zipWith, List.length_map, hoffsets, Nat.min_self]
    · rw [List.getElem_zipWith, List.getElem_map]

/-- Reading back the row of a cluster from where the graph says it starts tells what the table tells, which
is what the results show and that the cluster sees itself. -/
theorem unpacked_iff_shows (hg : g.Built) (hlen : visible.length = g.portals.size)
    (hsize : ∀ v ∈ visible, v.size = g.clusters.size) :
    ∃ t g', (g.encode visible).result = .ok (t, g') ∧ t.rowLength = BitSet.bytesFor g.clusters.size ∧
      t.rows.length = g.clusters.size ∧
      t.data = (t.rows.map fun row => Packing.pack row.bytes).flatten ∧
      g'.clusters.toList.map (·.rowOffset) = t.offsets.map some ∧
      ∀ a < g.clusters.size, ∃ offset row, t.offsets[a]? = some offset ∧
        Packing.unpack (t.data.drop offset) t.rowLength = row ∧ row.length = t.rowLength ∧
        (∀ b < g.clusters.size, BitSet.bitAt row b = t.sees a b ∧
          (t.sees a b = true ↔ a = b ∨ g.Shows visible a b)) ∧
        ∀ b, g.clusters.size ≤ b → BitSet.bitAt row b = false := by
  obtain ⟨t, g', hok, htable, hnoted⟩ := encode_spec hg.sound hlen
  refine ⟨t, g', hok, htable.rowLength, htable.length_rows, htable.data, hnoted, fun a ha => ?_⟩
  obtain ⟨row, hrow, hrsize, hmem⟩ := htable.row ha
  obtain ⟨offset, hoffset, hunpack⟩ := htable.unpack hrow hrsize
  refine ⟨offset, row.bytes, hoffset, hunpack, ?_, fun b hb => ⟨?_, ?_⟩, fun b hb => ?_⟩
  · rw [BitSet.length_bytes, hrsize, htable.rowLength, rowSize, BitSet.bytesFor_whole]
  · rw [BitSet.bitAt_bytes, Table.sees, hrow, Option.any_some]
  · rw [htable.sees_iff ha hb, eq_comm]
  · rw [BitSet.bitAt_bytes, decide_eq_false_iff_not, hmem]
    rintro (rfl | ⟨-, id, portal, v, -, -, hv, hbv⟩)
    · omega
    · have hlt := BitSet.lt_size_of_mem hbv
      rw [hsize v (List.mem_of_getElem? hv)] at hlt
      omega

def distant : Graph Float :=
  match (ofClusters 20 : Graph Float).addAll [(wall 0 0 0 4, 0, 19)] with
  | .ok g => g
  | .error _ => .ofClusters 20

theorem distant_built : distant.Built := by
  unfold distant
  split
  · next h => exact (Built.ofClusters 20).addAll h
  · exact .ofClusters 20

def distantSets : List BitSet := [(BitSet.empty 20).insert 19, (BitSet.empty 20).insert 0]

/-- The row of the first room is three bytes with a zero between them, and rows that start with zeros follow. -/
theorem distant_unpacked : ∃ t g' offset row, (distant.encode distantSets).result = .ok (t, g') ∧
    t.offsets[0]? = some offset ∧ Packing.unpack (t.data.drop offset) t.rowLength = row ∧
    row.length = 3 ∧ BitSet.bitAt row 19 = true ∧ BitSet.bitAt row 8 = false ∧
    BitSet.bitAt row 20 = false := by
  have hclusters : distant.clusters.size = 20 := by decide +kernel
  have hportals : distantSets.length = distant.portals.size := by decide +kernel
  have hfirst : (distant.portals[0]?).any (·.owner = 0) := by decide +kernel
  obtain ⟨portal, hportal, howner⟩ := (Option.any_eq_true _ _).mp hfirst
  obtain ⟨t, g', hok, hrow, -, -, -, hall⟩ := unpacked_iff_shows distant_built hportals (by
    rw [hclusters]
    decide)
  obtain ⟨offset, row, hoffset, hunpack, hlen, hbits, hpad⟩ := hall 0 (by rw [hclusters]; decide)
  rw [hclusters] at hrow hbits hpad
  refine ⟨t, g', offset, row, hok, hoffset, hunpack, hlen.trans hrow, ?_, ?_, hpad 20 (by decide)⟩
  · obtain ⟨hbit, hsees⟩ := hbits 19 (by decide)
    rw [hbit, hsees]
    exact .inr ⟨0, portal, _, hportal, of_decide_eq_true howner, rfl, by decide⟩
  · obtain ⟨hbit, hsees⟩ := hbits 8 (by decide)
    rw [hbit, ← Bool.not_eq_true, hsees]
    rintro (h | ⟨_, _, v, -, -, hv, h8⟩)
    · cases h
    · have hnone : ∀ v ∈ distantSets, 8 ∉ v := by decide
      exact hnone v (List.mem_of_getElem? hv) h8

end Graph

end Sightline
