import Sightline.Proofs.Likeness
import Sightline.Proofs.Openings

/-! The table as it is built in place, a row at a time, with the start of each row noted in the graph before
the next row is worked out. This comes to the same table and leaves the same graph, and where results are
missing it has not touched the graph yet. -/

namespace Sightline

variable {R : Type}

theorem foldlM_range_succ {m : Type → Type} [Monad m] [LawfulMonad m] {β : Type} (f : β → Nat → m β)
    (b : β) (k : Nat) : (List.range (k + 1)).foldlM f b = (List.range k).foldlM f b >>= (f · k) := by
  simp [List.range_succ]

theorem mapM_range_succ {m : Type → Type} [Monad m] [LawfulMonad m] {β : Type} (f : Nat → m β) (k : Nat) :
    (List.range (k + 1)).mapM f = do return (← (List.range k).mapM f) ++ [← f k] := by
  simp [List.range_succ]

theorem Table.startsFrom_snoc (start : Nat) (pieces : List (List UInt8)) (piece : List UInt8) :
    startsFrom start (pieces ++ [piece]) = startsFrom start pieces ++ [start + pieces.flatten.length] := by
  induction pieces generalizing start with
  | nil => rfl
  | cons first pieces ih =>
    rw [List.cons_append, startsFrom, startsFrom, ih, List.cons_append, List.flatten_cons,
      List.length_append, Nat.add_assoc]

def Table.ofRows (rowLength : Nat) (rows : List BitSet) : Table :=
  let packed := rows.map fun row => Packing.pack row.bytes
  ⟨rows, packed.flatten, startsFrom 0 packed, rowLength⟩

theorem Table.length_offsets (rowLength : Nat) (rows : List BitSet) :
    (ofRows rowLength rows).offsets.length = rows.length := by
  rw [ofRows, Graph.length_startsFrom, List.length_map]

theorem Table.ofRows_snoc (rowLength : Nat) (rows : List BitSet) (row : BitSet) :
    let t := ofRows rowLength rows
    ofRows rowLength (rows ++ [row]) =
      { t with
        rows := t.rows ++ [row]
        data := t.data ++ Packing.pack row.bytes
        offsets := t.offsets ++ [t.data.length] } := by
  simp [ofRows, startsFrom_snoc]

namespace Graph

variable {g g' : Graph R} {visible : List BitSet} {rows : List BitSet} {offsets : List Nat}

def addRow (visible : List BitSet) (t : Table) (c : ClusterId) :
    ExceptT Failure (StateM (Graph R)) Table := do
  let row ← check fun g => (g.row visible c).result
  let noted ← check fun g => (Report.ofOption (g.noteRow? c t.data.length)).result
  set noted
  return { t with
    rows := t.rows ++ [row]
    data := t.data ++ Packing.pack row.bytes
    offsets := t.offsets ++ [t.data.length] }

def encodeInPlace (visible : List BitSet) : ExceptT Failure (StateM (Graph R)) Table := do
  let count := (← get).clusters.size
  (List.range count).foldlM (addRow visible) (.ofRows (BitSet.bytesFor count) [])

def encodeProgressInPlace (p : Progress) : ExceptT Failure (StateM (Graph R)) (List BitSet × Table) := do
  let visible ← check fun _ => p.results.mapError Failure.fault
  let table ← encodeInPlace visible
  return (visible, table)

def noteRows (g : Graph R) (offsets : List Nat) : Graph R :=
  { g with clusters := g.clusters.mapIdx fun c cluster =>
      { cluster with rowOffset := (offsets[c]?).or cluster.rowOffset } }

theorem noteRow?_noteRows (h : offsets.length < g.clusters.size) (offset : Nat) :
    (g.noteRows offsets).noteRow? offsets.length offset = some (g.noteRows (offsets ++ [offset])) := by
  have hsize : (g.noteRows offsets).clusters.size = g.clusters.size := Array.size_mapIdx
  rw [noteRow?, hsize, if_pos h, Option.some.injEq]
  refine congrArg (Graph.mk · g.portals) (Array.ext_getElem? fun c => ?_)
  rw [Array.getElem?_modify, noteRows, Array.getElem?_mapIdx, Array.getElem?_mapIdx]
  split
  · next hc => simp [← hc]
  · next hc =>
    have hc' : (offsets ++ [offset])[c]? = offsets[c]? := by
      rw [List.getElem?_append, List.getElem?_singleton]
      split
      · rfl
      · rw [if_neg (by omega), List.getElem?_eq_none (by omega)]
    rw [hc']

theorem noteRows_nil (g : Graph R) : g.noteRows [] = g := by
  refine congrArg (Graph.mk · g.portals) (Array.ext_getElem? fun c => ?_)
  rw [Array.getElem?_mapIdx]
  simp

theorem Alike.noteRows (g : Graph R) (offsets : List Nat) : Alike g (g.noteRows offsets) := by
  refine ⟨rfl, fun c => ?_⟩
  rw [Graph.noteRows, Array.getElem?_mapIdx, Option.map_map]
  rfl

theorem run_addRow (hk : rows.length < g.clusters.size) (visible : List BitSet) (rowLength : Nat) :
    (addRow visible (.ofRows rowLength rows) rows.length).run.run
        (g.noteRows (Table.ofRows rowLength rows).offsets) =
      match (g.row visible rows.length).result with
      | .ok row => (.ok (.ofRows rowLength (rows ++ [row])),
          g.noteRows (Table.ofRows rowLength (rows ++ [row])).offsets)
      | .error e => (.error e, g.noteRows (Table.ofRows rowLength rows).offsets) := by
  have hlen := Table.length_offsets rowLength rows
  have hnote := noteRow?_noteRows (hlen ▸ hk) (Table.ofRows rowLength rows).data.length
  rw [hlen] at hnote
  rw [addRow, run_check_bind, (Alike.noteRows g _).row]
  cases (g.row visible rows.length).result with
  | error e => rfl
  | ok row =>
    dsimp only
    rw [run_check_bind, hnote, Table.ofRows_snoc]
    rfl

/-- The rows of the first clusters, one after the other: the table has those there are, and they are noted
in the graph. -/
theorem run_addRows {k : Nat} (hk : k ≤ g.clusters.size) (visible : List BitSet) (rowLength : Nat) :
    ∃ g', ((List.range k).foldlM (addRow visible) (.ofRows rowLength [])).run.run g =
        (((List.range k).mapM (g.row visible)).result.map (Table.ofRows rowLength), g') ∧
      ∀ rows, ((List.range k).mapM (g.row visible)).result = .ok rows →
        g' = g.noteRows (Table.ofRows rowLength rows).offsets := by
  simp only [Report.result_mapM]
  induction k with
  | zero =>
    refine ⟨g, rfl, fun rows hrows => ?_⟩
    cases hrows
    exact (noteRows_nil g).symm
  | succ k ih =>
    obtain ⟨g', hrun, hnoted⟩ := ih (Nat.le_of_succ_le hk)
    rw [foldlM_range_succ, mapM_range_succ, ExceptT.run_bind, StateT.run_bind, hrun]
    cases hrows : (List.range k).mapM fun c => (g.row visible c).result with
    | error e =>
      refine ⟨g', rfl, fun rows h => ?_⟩
      cases h
    | ok rows =>
      obtain rfl := hnoted rows hrows
      have hlen : rows.length = k := by
        have h := congrArg List.length (Progress.mapM_eq_ok.mp hrows)
        rwa [List.length_map, List.length_map, List.length_range, eq_comm] at h
      subst hlen
      have hadd := run_addRow hk visible rowLength
      cases hrow : (g.row visible rows.length).result with
      | error e =>
        rw [hrow] at hadd
        refine ⟨_, hadd, fun rows h => ?_⟩
        cases h
      | ok row =>
        rw [hrow] at hadd
        refine ⟨_, hadd, fun rows h => ?_⟩
        cases h
        rfl

/-- The rows of all clusters are noted when as many starts are noted as there are clusters. -/
theorem noteRows_eq (h : offsets.length = g.clusters.size) : g.noteRows offsets =
    { g with clusters := (g.clusters.toList.zipWith (fun c offset => { c with rowOffset := some offset })
      offsets).toArray } := by
  refine congrArg (Graph.mk · g.portals) (Array.toList_inj.mp (List.ext_getElem? fun c => ?_))
  rw [Array.toList_mapIdx, List.getElem?_mapIdx, List.toList_toArray, List.getElem?_zipWith]
  by_cases hc : c < offsets.length
  · rw [List.getElem?_eq_getElem hc]
    cases g.clusters.toList[c]? <;> rfl
  · have hc' : g.clusters.toList.length ≤ c := by
      rw [Array.length_toList, ← h]
      exact Nat.le_of_not_lt hc
    rw [List.getElem?_eq_none hc']
    rfl

/-- In place the table is the same, and if there is one then the same graph is left. -/
theorem run_encodeInPlace (g : Graph R) (visible : List BitSet) : ∃ g',
    (encodeInPlace visible).run.run g = ((g.encode visible).result.map (·.1), g') ∧
      ∀ t noted, (g.encode visible).result = .ok (t, noted) → g' = noted := by
  obtain ⟨g', hrun, hnoted⟩ :=
    run_addRows (Nat.le_refl g.clusters.size) visible (BitSet.bytesFor g.clusters.size)
  have hresult : (g.encode visible).result.map (·.1) =
      ((List.range g.clusters.size).mapM (g.row visible)).result.map
        (Table.ofRows (BitSet.bytesFor g.clusters.size)) := by
    rw [encode, Report.result_bind]
    cases ((List.range g.clusters.size).mapM (g.row visible)).result <;> rfl
  refine ⟨g', hresult ▸ hrun, fun t noted h => ?_⟩
  obtain ⟨rows, hrows, h⟩ := Report.result_bind_eq_ok.mp h
  cases h
  have hlen : rows.length = g.clusters.size := by rw [length_of_mapM hrows, List.length_range]
  rw [hnoted rows hrows, noteRows_eq ((Table.length_offsets _ rows).trans hlen)]
  rfl

/-- In place the results are looked at before the graph is touched. -/
theorem run_encodeProgressInPlace (g : Graph R) (p : Progress) :
    (encodeProgressInPlace p).run.run g =
      match p.results with
      | .ok visible => (((g.encode visible).result.map fun made => (visible, made.1)),
          ((encodeInPlace visible).run.run g).2)
      | .error fault => (.error (.fault fault), g) := by
  rw [encodeProgressInPlace, run_check_bind]
  cases p.results with
  | error fault => rfl
  | ok visible =>
    obtain ⟨g', hrun, -⟩ := run_encodeInPlace g visible
    dsimp only [Except.mapError]
    rw [ExceptT.run_bind, StateT.run_bind, hrun]
    cases (g.encode visible).result <;> rfl

end Graph

end Sightline
