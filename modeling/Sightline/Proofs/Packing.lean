import Sightline.Table.Packing

/-! Packed rows read back. A packed row carries no length and no end mark; the reader stops because the
row is full, so whatever follows it does not matter, and data that was cut off gives less than the row. No
data that gives a whole row is shorter than the packed row. Room for a row is set aside in advance, so a size
beyond all room is refused even where there is next to no data. -/

namespace Sightline.Packing

@[simp] theorem unpack_zero (data : List UInt8) : unpack data 0 = [] := by
  cases data <;> rfl

theorem unpack_cons_of_ne {byte : UInt8} (h : byte ≠ 0) (data : List UInt8) (size : Nat) :
    unpack (byte :: data) (size + 1) = byte :: unpack data size := by
  rw [unpack.eq_def]
  exact if_pos h

/-- A written run that the row has room for is read back whole. -/
theorem unpack_zeros {run : Nat} (h : run ≤ maxRun) (data : List UInt8) (size : Nat) :
    unpack (zeros run ++ data) (run + size) = List.replicate run 0 ++ unpack data size := by
  unfold zeros
  split
  · next hrun => simp [hrun]
  · next hrun =>
    have hcount : (UInt8.ofNat run).toNat = run := by
      rw [UInt8.toNat_ofNat']
      exact Nat.mod_eq_of_lt (Nat.lt_succ_of_le h)
    obtain ⟨n, hn⟩ : ∃ n, run + size = n + 1 := ⟨run + size - 1, by omega⟩
    have hmin : min run (n + 1) = run := by omega
    rw [hn, List.cons_append, List.cons_append, List.nil_append, unpack, if_neg (by simp)]
    dsimp only
    rw [hcount, hmin, if_neg hrun, ← hn, Nat.add_sub_cancel_left]

/-- The reader takes back the zeros that were pending, then the row, and nothing of what follows. -/
theorem unpack_packAfter {run : Nat} (h : run ≤ maxRun) (row after : List UInt8) :
    unpack (packAfter run row ++ after) (run + row.length) = List.replicate run 0 ++ row := by
  induction row generalizing run with
  | nil => rw [packAfter, unpack_zeros h, List.length_nil, unpack_zero]
  | cons byte row ih =>
    rw [packAfter, List.length_cons]
    split
    · next hbyte =>
      rw [List.append_assoc, unpack_zeros h, List.cons_append, unpack_cons_of_ne hbyte]
      have hrow := ih (Nat.zero_le maxRun)
      rw [Nat.zero_add] at hrow
      rw [hrow, List.replicate_zero, List.nil_append]
    · next hbyte =>
      rw [Decidable.not_not.mp hbyte]
      split
      · next hrun =>
        rw [show run + (row.length + 1) = run + 1 + row.length by omega, ih hrun, List.replicate_succ',
          List.append_assoc, List.singleton_append]
      · rw [List.append_assoc, unpack_zeros h, Nat.add_comm row.length, ih (by decide)]
        rfl

theorem unpack_pack (row after : List UInt8) : unpack (pack row ++ after) row.length = row := by
  have h := unpack_packAfter (Nat.zero_le maxRun) row after
  rwa [Nat.zero_add, List.replicate_zero, List.nil_append] at h

theorem length_unpack_le (data : List UInt8) (size : Nat) : (unpack data size).length ≤ size := by
  fun_induction unpack data size with
  | case1 => exact Nat.zero_le _
  | case2 => exact Nat.zero_le _
  | case3 byte data size _ ih => exact Nat.succ_le_succ ih
  | case4 => exact Nat.zero_le _
  | case5 => exact Nat.zero_le _
  | case6 byte size _ count data run _ ih =>
    rw [List.length_append, List.length_replicate]
    omega

theorem unpack_prefix_append (data after : List UInt8) (size : Nat) :
    unpack data size <+: unpack (data ++ after) size := by
  fun_induction unpack data size with
  | case1 => exact List.nil_prefix
  | case2 => exact List.nil_prefix
  | case3 byte data size hbyte ih =>
    rw [List.cons_append, unpack_cons_of_ne hbyte]
    exact (List.prefix_cons_inj byte).mpr ih
  | case4 => exact List.nil_prefix
  | case5 => exact List.nil_prefix
  | case6 byte size hbyte count data run hrun ih =>
    rw [List.cons_append, List.cons_append, unpack, if_neg hbyte]
    dsimp only
    rw [if_neg hrun]
    exact (List.prefix_append_right_inj _).mpr ih

theorem pack_cons_of_ne {byte : UInt8} (h : byte ≠ 0) (row : List UInt8) :
    pack (byte :: row) = byte :: pack row := by
  rw [pack, packAfter, if_pos h]
  rfl

theorem packAfter_replicate {pending run : Nat} (h : pending + run ≤ maxRun) (row : List UInt8) :
    packAfter pending (List.replicate run 0 ++ row) = packAfter (pending + run) row := by
  induction run generalizing pending with
  | zero => rfl
  | succ run ih =>
    rw [List.replicate_succ, List.cons_append, packAfter, if_neg (by simp), if_pos (by omega),
      ih (by omega), Nat.add_right_comm, Nat.add_assoc]

theorem length_zeros (run : Nat) : (zeros run).length = if run = 0 then 0 else 2 := by
  unfold zeros
  split <;> rfl

/-- With more zeros pending the rest of the row takes no less room, and at most one more written run. -/
theorem length_packAfter_le {few many : Nat} (h : few ≤ many) (hmany : many ≤ maxRun)
    (row : List UInt8) : (packAfter few row).length ≤ (packAfter many row).length ∧
      (packAfter many row).length ≤ (packAfter few row).length + 2 := by
  induction row generalizing few many with
  | nil =>
    rw [packAfter, packAfter, length_zeros, length_zeros]
    split <;> split <;> omega
  | cons byte row ih =>
    rw [packAfter, packAfter]
    by_cases hbyte : byte ≠ 0
    · rw [if_pos hbyte, if_pos hbyte, List.length_append, List.length_append, length_zeros, length_zeros]
      split <;> split <;> omega
    · rw [if_neg hbyte, if_neg hbyte]
      rcases Nat.lt_or_eq_of_le hmany with hlt | rfl
      · rw [if_pos hlt, if_pos (Nat.lt_of_le_of_lt h hlt)]
        exact ih (Nat.succ_le_succ h) hlt
      · rcases Nat.lt_or_eq_of_le h with hlt | rfl
        · -- the longer run is full and written, so one zero is pending there and more than that here
          have hfull : (zeros maxRun).length = 2 := rfl
          have hrow := @ih 1 (few + 1) (Nat.le_add_left 1 few) hlt
          rw [if_pos hlt, if_neg (Nat.lt_irrefl _), List.length_append, hfull]
          omega
        · exact ⟨Nat.le_refl _, Nat.le_add_right _ _⟩

/-- A run of zeros in front of a row adds one written run at most. -/
theorem length_pack_replicate_le {run : Nat} (h : run ≤ maxRun) (row : List UInt8) :
    (pack (List.replicate run 0 ++ row)).length ≤ (pack row).length + 2 := by
  have hpending : 0 + run ≤ maxRun := by omega
  rw [pack, packAfter_replicate hpending]
  exact (length_packAfter_le (Nat.zero_le _) hpending row).2

/-- What was read is packed again in no more room than the data had. -/
theorem length_pack_unpack_le (data : List UInt8) (size : Nat) :
    (pack (unpack data size)).length ≤ data.length := by
  fun_induction unpack data size with
  | case1 => exact Nat.zero_le _
  | case2 => exact Nat.zero_le _
  | case3 byte data size hbyte ih =>
    rw [pack_cons_of_ne hbyte]
    exact Nat.succ_le_succ ih
  | case4 => exact Nat.zero_le _
  | case5 => exact Nat.zero_le _
  | case6 byte size hbyte count data run hrun ih =>
    have hmax : run ≤ maxRun := by
      have hcount : count.toNat < 256 := count.toNat_lt
      have hle : run ≤ count.toNat := Nat.min_le_left _ _
      unfold maxRun
      omega
    calc (pack (List.replicate run 0 ++ unpack data (size + 1 - run))).length
        ≤ (pack (unpack data (size + 1 - run))).length + 2 := length_pack_replicate_le hmax _
      _ ≤ data.length + 2 := Nat.add_le_add_right ih 2

/-- A packed row that was cut off gives a part of the row, and not all of it: less data than the packed row
has is not enough for the row. -/
theorem unpack_of_cut {row part : List UInt8} (h : part <+: pack row) (hne : part ≠ pack row) :
    unpack part row.length <+: row ∧ (unpack part row.length).length < row.length := by
  obtain ⟨rest, hrest⟩ := h
  have hpre : unpack part row.length <+: row := by
    have happend := unpack_prefix_append part rest row.length
    rwa [hrest, ← List.append_nil (pack row), unpack_pack] at happend
  refine ⟨hpre, Nat.lt_of_le_of_ne (length_unpack_le _ _) fun hlen => hne ?_⟩
  have hle := length_pack_unpack_le part row.length
  rw [hpre.eq_of_length hlen] at hle
  exact List.IsPrefix.eq_of_length_le ⟨rest, hrest⟩ hle

/-- A reader at work: the part of the row that it has, and the data that it has not looked at. -/
structure Reader where
  row : List UInt8
  rest : List UInt8

namespace Reader

/-- One turn of the reader, which works until the row is full or the data ends. Where data ends behind a
zero the run counts as empty, and an empty run is taken for the end of the data. -/
def turn? (size : Nat) (r : Reader) : Option Reader :=
  if size ≤ r.row.length then none
  else match r.rest with
    | [] => none
    | byte :: rest =>
      if byte ≠ 0 then some ⟨r.row ++ [byte], rest⟩
      else
        let run := min (rest.head?.getD 0).toNat (size - r.row.length)
        if run = 0 then none else some ⟨r.row ++ List.replicate run 0, rest.tail⟩

def start (data : List UInt8) (size : Nat) : Except Failure Reader :=
  if size ≤ capacity then .ok ⟨[], data⟩ else .error .tooLarge

inductive Turns (size : Nat) : Nat → Reader → Reader → Prop
  | none {r : Reader} : Turns size 0 r r
  | next {n : Nat} {r s t : Reader} : r.turn? size = some s → Turns size n s t → Turns size (n + 1) r t

variable {size n : Nat} {r s : Reader}

/-- A turn adds to the row, within the size asked for, what reading the rest would have put there. -/
theorem turn?_eq_some (h : r.turn? size = some s) : r.row.length < s.row.length ∧ s.row.length ≤ size ∧
    s.row ++ unpack s.rest (size - s.row.length) = r.row ++ unpack r.rest (size - r.row.length) := by
  obtain ⟨row, rest⟩ := r
  unfold turn? at h
  dsimp only at h ⊢
  split at h
  · cases h
  · next hroom =>
    obtain ⟨room, hroom⟩ : ∃ room, size - row.length = room + 1 := ⟨size - row.length - 1, by omega⟩
    rw [hroom] at h ⊢
    split at h
    · cases h
    · next byte rest =>
      split at h
      · next hbyte =>
        cases h
        have hleft : size - (row ++ [byte]).length = room := by
          rw [List.length_append, List.length_singleton]
          omega
        refine ⟨by simp, by simp; omega, ?_⟩
        rw [hleft, unpack_cons_of_ne hbyte, List.append_assoc, List.singleton_append]
      · next hbyte =>
        split at h
        · cases h
        · next hrun =>
          cases h
          cases rest with
          | nil => exact absurd (Nat.zero_min _) hrun
          | cons count rest =>
            rw [List.head?_cons, Option.getD_some] at hrun ⊢
            generalize hr : min count.toNat (room + 1) = run at hrun
            have hle : run ≤ room + 1 := hr ▸ Nat.min_le_right _ _
            have hleft : size - (row ++ List.replicate run 0).length = room + 1 - run := by
              rw [List.length_append, List.length_replicate]
              omega
            refine ⟨by simp; omega, by simp; omega, ?_⟩
            rw [hleft, unpack, if_neg hbyte]
            dsimp only
            rw [hr, if_neg hrun, List.append_assoc, List.tail_cons]

theorem turn?_eq_none (h : r.turn? size = none) : unpack r.rest (size - r.row.length) = [] := by
  obtain ⟨row, rest⟩ := r
  unfold turn? at h
  dsimp only at h ⊢
  split at h
  · next hfull => rw [Nat.sub_eq_zero_of_le hfull, unpack_zero]
  · next hroom =>
    obtain ⟨room, hroom⟩ : ∃ room, size - row.length = room + 1 := ⟨size - row.length - 1, by omega⟩
    rw [hroom] at h ⊢
    split at h
    · rfl
    · next byte rest =>
      split at h
      · cases h
      · next hbyte =>
        split at h
        · next hrun =>
          cases rest with
          | nil => exact if_neg hbyte
          | cons count rest =>
            rw [unpack, if_neg hbyte]
            exact if_pos hrun
        · cases h

/-- The reader stops after as many turns as there is room in the row, if not before, and has read then what
there is to read. -/
theorem exists_turns (size : Nat) (r : Reader) : ∃ n t, n ≤ size - r.row.length ∧ Turns size n r t ∧
    t.turn? size = none ∧ t.row = r.row ++ unpack r.rest (size - r.row.length) := by
  induction hroom : size - r.row.length using Nat.strongRecOn generalizing r with
  | ind room ih =>
    cases hs : r.turn? size with
    | none =>
      refine ⟨0, r, Nat.zero_le _, .none, hs, ?_⟩
      rw [← hroom, turn?_eq_none hs, List.append_nil]
    | some s =>
      obtain ⟨hmore, hle, heq⟩ := turn?_eq_some hs
      obtain ⟨n, t, hn, hturns, hstop, hrow⟩ := ih _ (by omega) s rfl
      exact ⟨n + 1, t, by omega, .next hs hturns, hstop, by rw [hrow, heq, hroom]⟩

end Reader

theorem read_of_le {data : List UInt8} {size : Nat} (h : size ≤ capacity) :
    read data size = .ok (unpack data size) := if_pos h

/-- If there can be room for `size` bytes, a packed row of this size is read back whatever follows it, a packed
row that was cut off gives a proper part of the row, and with any data the reader stops after as many turns at
most, with no more bytes. If there can be no such room, all data is refused. -/
theorem packed_row_readable (size : Nat) :
    (size ≤ capacity →
      (∀ row after : List UInt8, row.length = size → read (pack row ++ after) size = .ok row) ∧
      (∀ row part : List UInt8, row.length = size → part <+: pack row → part ≠ pack row →
        ∃ short, read part size = .ok short ∧ short <+: row ∧ short.length < size) ∧
      ∀ data : List UInt8, ∃ r₀ n r, Reader.start data size = .ok r₀ ∧ n ≤ size ∧ Reader.Turns size n r₀ r ∧
        r.turn? size = none ∧ read data size = .ok r.row ∧ r.row.length ≤ size) ∧
    (capacity < size →
      ∀ data : List UInt8, Reader.start data size = .error .tooLarge ∧ read data size = .error .tooLarge) := by
  refine ⟨fun hroom => ⟨?_, ?_, fun data => ?_⟩, fun hlarge data => ?_⟩
  · intro row after hsize
    subst hsize
    rw [read_of_le hroom, unpack_pack]
  · intro row part hsize hpart hne
    subst hsize
    exact ⟨_, read_of_le hroom, unpack_of_cut hpart hne⟩
  · obtain ⟨n, r, hn, hturns, hstop, hrow⟩ := Reader.exists_turns size ⟨[], data⟩
    rw [List.length_nil, Nat.sub_zero] at hn hrow
    refine ⟨_, n, r, if_pos hroom, hn, hturns, hstop, ?_, hrow ▸ length_unpack_le data size⟩
    rw [read_of_le hroom, hrow]
    rfl
  · have hnot : ¬size ≤ capacity := Nat.not_le.mpr hlarge
    exact ⟨if_neg hnot, if_neg hnot⟩

/-- A row that is cut off between a zero and its count, and one that is followed by a row of zeros. -/
theorem packed_row_read : pack [9, 0, 0, 7] = [9, 0, 2, 7] ∧
    (∃ short, read [9, 0] 4 = .ok short ∧ short <+: [9, 0, 0, 7] ∧ short.length < 4) ∧
    read (pack [9, 0] ++ pack [0, 0]) 2 = .ok [9, 0] ∧ ∃ row, read [0, 255, 3] 9 = .ok row ∧ row.length ≤ 9 := by
  obtain ⟨-, hcut, -⟩ := (packed_row_readable 4).1 (by decide)
  obtain ⟨hwhole, -⟩ := (packed_row_readable 2).1 (by decide)
  obtain ⟨-, -, hany⟩ := (packed_row_readable 9).1 (by decide)
  obtain ⟨_, _, r, -, -, -, -, hread, hlen⟩ := hany [0, 255, 3]
  exact ⟨by decide, hcut [9, 0, 0, 7] [9, 0] rfl (by decide) (by decide), hwhole [9, 0] (pack [0, 0]) rfl,
    r.row, hread, hlen⟩

/-- Room for the largest size is refused, though there is no data and so nothing to put there. -/
theorem endless_row_refused : read [] 0xFFFFFFFFFFFFFFFF = .error .tooLarge ∧
    (unpack [] 0xFFFFFFFFFFFFFFFF).length = 0 :=
  ⟨rfl, rfl⟩

/-- No data that gives a whole row is shorter than the packed row, which gives the row too. -/
theorem pack_shortest (data : List UInt8) (size : Nat) (h : (unpack data size).length = size) :
    (pack (unpack data size)).length ≤ data.length ∧
      unpack (pack (unpack data size)) size = unpack data size := by
  refine ⟨length_pack_unpack_le data size, ?_⟩
  have hread := unpack_pack (unpack data size) []
  rwa [List.append_nil, h] at hread

/-- Two runs where one would do, the second of them longer than the row. -/
theorem pack_shortest_split : (unpack [0, 3, 0, 255] 5).length = 5 ∧ pack (unpack [0, 3, 0, 255] 5) = [0, 5] ∧
    (pack (unpack [0, 3, 0, 255] 5)).length ≤ 4 :=
  ⟨by decide, by decide, (pack_shortest [0, 3, 0, 255] 5 (by decide)).1⟩

end Sightline.Packing
