import Sightline.BitSet

/-! Sets as they lie in memory. Their bits take whole bytes, so behind the numbers of a set there may be
spare bits. What is done number by number leaves these as they are. What is done byte by byte does not. -/

namespace Sightline

/-- A set in memory. The bit of a number is found at its quotient and its remainder by eight. -/
structure Stored where
  size : Nat
  memory : List (BitVec 8)
  length_memory : memory.length = BitSet.bytesFor size

namespace Stored

def bit (b : Stored) (i : Nat) : Bool := (b.memory.getD (i / 8) 0).getLsbD (i % 8)

def contents (b : Stored) : BitSet := .ofBools ((List.range b.size).map b.bit)

def Clean (b : Stored) : Prop := ∀ i, b.size ≤ i → b.bit i = false

def blank (size : Nat) : Stored := ⟨size, .replicate (BitSet.bytesFor size) 0, List.length_replicate⟩

def filled (size value : Nat) : Stored where
  size := size
  memory := (List.range (BitSet.bytesFor size)).map fun k => .ofNat 8 (value >>> (8 * k))
  length_memory := by rw [List.length_map, List.length_range]

def byteOf (f : Nat → Bool) : BitVec 8 := (BitVec.ofBoolListLE ((List.range 8).map f)).setWidth 8

/-- Writes the bits of all numbers below the size, and leaves the spare bits. -/
def write (b : Stored) (f : Nat → Bool) : Stored where
  size := b.size
  memory := b.memory.mapIdx fun k byte =>
    byteOf fun j => if 8 * k + j < b.size then f (8 * k + j) else byte.getLsbD j
  length_memory := by rw [List.length_mapIdx, b.length_memory]

def wipe (b : Stored) : Stored := b.write fun _ => false

def copy (b other : Stored) : Stored := b.write (· ∈ other.contents)

def insert (b : Stored) (i : Nat) : Stored := b.write fun j => j ∈ b.contents ∨ j = i

def erase (b : Stored) (i : Nat) : Stored := b.write fun j => j ∈ b.contents ∧ j ≠ i

/-- A set in memory, with spare bits that can be anything. -/
def lay (set : BitSet) (spare : Nat) : Stored := (filled set.size spare).write (· ∈ set)

/-- Puts the bytes that two lists share in place of the bytes of another list, as far as all of them go. -/
def meetBytes : List (BitVec 8) → List (BitVec 8) → List (BitVec 8) → List (BitVec 8)
  | _ :: bytes, x :: xs, y :: ys => (x &&& y) :: meetBytes bytes xs ys
  | bytes, _, _ => bytes

theorem length_meetBytes (bytes xs ys : List (BitVec 8)) :
    (meetBytes bytes xs ys).length = bytes.length := by
  fun_induction meetBytes with
  | case1 _ bytes x xs y ys ih => rw [List.length_cons, List.length_cons, ih]
  | case2 => rfl

def meet (b first second : Stored) : Stored :=
  ⟨b.size, meetBytes b.memory first.memory second.memory, by rw [length_meetBytes, b.length_memory]⟩

def shows (first second seen : Stored) : Bool :=
  ((first.memory.zip second.memory).zip seen.memory).any fun ((x, y), z) => x &&& y &&& ~~~z ≠ 0

variable {b first second seen other : Stored} {set : BitSet} {f : Nat → Bool} {i n : Nat}

@[simp] theorem size_contents (b : Stored) : b.contents.size = b.size := by
  simp [contents, BitSet.ofBools]

@[simp] theorem size_blank (n : Nat) : (blank n).size = n := rfl

@[simp] theorem size_write (b : Stored) (f : Nat → Bool) : (b.write f).size = b.size := rfl

@[simp] theorem size_wipe (b : Stored) : b.wipe.size = b.size := rfl

@[simp] theorem size_copy (b other : Stored) : (b.copy other).size = b.size := rfl

@[simp] theorem size_insert (b : Stored) (i : Nat) : (b.insert i).size = b.size := rfl

@[simp] theorem size_erase (b : Stored) (i : Nat) : (b.erase i).size = b.size := rfl

@[simp] theorem size_lay (set : BitSet) (spare : Nat) : (lay set spare).size = set.size := rfl

@[simp] theorem size_meet (b first second : Stored) : (b.meet first second).size = b.size := rfl

@[simp] theorem mem_contents : i ∈ b.contents ↔ i < b.size ∧ b.bit i = true := by
  rw [contents, BitSet.mem_ofBools, List.getElem?_map, Option.map_eq_some_iff]
  constructor
  · rintro ⟨j, hj, hb⟩
    obtain ⟨hi, rfl⟩ := List.getElem?_eq_some_iff.mp hj
    rw [List.length_range] at hi
    rw [List.getElem_range] at hb
    exact ⟨hi, hb⟩
  · rintro ⟨hi, hb⟩
    exact ⟨i, List.getElem?_range hi, hb⟩

theorem lt_length_of_lt (h : i < b.size) : i / 8 < b.memory.length := by
  rw [b.length_memory, BitSet.bytesFor]
  omega

theorem bit_of_length_le (h : b.memory.length ≤ i / 8) : b.bit i = false := by
  rw [bit, List.getD_eq_getElem?_getD, List.getElem?_eq_none h]
  simp

theorem getLsbD_byteOf {j : Nat} (hj : j < 8) : (byteOf f).getLsbD j = f j := by
  rw [byteOf, BitVec.getLsbD_setWidth, BitVec.getLsbD_ofBoolListLE]
  simp [hj]

theorem bit_write (b : Stored) (f : Nat → Bool) (i : Nat) :
    (b.write f).bit i = if i < b.size then f i else b.bit i := by
  have hi : 8 * (i / 8) + i % 8 = i := Nat.div_add_mod i 8
  by_cases hlen : i / 8 < b.memory.length
  · rw [bit, write, List.getD_eq_getElem?_getD, List.getElem?_mapIdx, List.getElem?_eq_getElem hlen]
    rw [Option.map_some, Option.getD_some, getLsbD_byteOf (Nat.mod_lt _ (by decide)), hi]
    rw [bit, List.getD_eq_getElem?_getD, List.getElem?_eq_getElem hlen, Option.getD_some]
  · rw [bit_of_length_le (by simpa [write] using hlen), if_neg (mt lt_length_of_lt hlen),
      bit_of_length_le (Nat.not_lt.mp hlen)]

theorem mem_write : i ∈ (b.write f).contents ↔ i < b.size ∧ f i = true := by
  rw [mem_contents, bit_write, size_write]
  refine and_congr_right fun h => ?_
  rw [if_pos h]

theorem Clean.write (h : b.Clean) (f : Nat → Bool) : (b.write f).Clean := by
  intro i hi
  rw [size_write] at hi
  rw [bit_write, if_neg (Nat.not_lt.mpr hi)]
  exact h i hi

@[simp] theorem bit_blank (n i : Nat) : (blank n).bit i = false := by
  rw [bit, blank, List.getD_eq_getElem?_getD, List.getElem?_replicate]
  split <;> simp

theorem clean_blank (n : Nat) : (blank n).Clean := fun i _ => bit_blank n i

theorem contents_blank (n : Nat) : (blank n).contents = .empty n := by
  apply BitSet.ext (size_contents _)
  simp

theorem contents_wipe (b : Stored) : b.wipe.contents = .empty b.size := by
  apply BitSet.ext (size_contents _)
  intro i
  rw [wipe, mem_write]
  simp

theorem contents_copy (h : other.size = b.size) : (b.copy other).contents = other.contents := by
  apply BitSet.ext
  · rw [size_contents, size_contents, size_copy, h]
  · intro i
    rw [copy, mem_write, ← h, decide_eq_true_iff, mem_contents, and_self_left]

theorem contents_insert (b : Stored) (i : Nat) : (b.insert i).contents = b.contents.insert i := by
  apply BitSet.ext
  · simp
  · intro j
    rw [insert, mem_write, decide_eq_true_iff, BitSet.mem_insert, size_contents, mem_contents]
    constructor
    · rintro ⟨hj, hm | rfl⟩
      · exact .inl hm
      · exact .inr ⟨rfl, hj⟩
    · rintro (hm | ⟨rfl, hj⟩)
      · exact ⟨hm.1, .inl hm⟩
      · exact ⟨hj, .inr rfl⟩

theorem contents_erase (b : Stored) (i : Nat) : (b.erase i).contents = b.contents.erase i := by
  apply BitSet.ext
  · simp
  · intro j
    rw [erase, mem_write, decide_eq_true_iff, BitSet.mem_erase, mem_contents]
    exact and_iff_right_of_imp fun h => h.1.1

theorem contents_lay (set : BitSet) (spare : Nat) : (lay set spare).contents = set := by
  apply BitSet.ext
  · simp
  · intro i
    rw [lay, mem_write, decide_eq_true_iff]
    exact and_iff_right_of_imp BitSet.lt_size_of_mem

theorem getD_meetBytes (bytes xs ys : List (BitVec 8)) (k : Nat) :
    (meetBytes bytes xs ys).getD k 0 =
      if k < bytes.length ∧ k < xs.length ∧ k < ys.length then xs.getD k 0 &&& ys.getD k 0
      else bytes.getD k 0 := by
  fun_induction meetBytes generalizing k with
  | case1 _ bytes x xs y ys ih =>
    cases k with
    | zero => simp
    | succ k => simpa using ih k
  | case2 bytes xs ys h =>
    rw [if_neg]
    rintro ⟨hb, hx, hy⟩
    obtain ⟨b, bytes, rfl⟩ := List.exists_cons_of_length_pos (Nat.zero_lt_of_lt hb)
    obtain ⟨x, xs, rfl⟩ := List.exists_cons_of_length_pos (Nat.zero_lt_of_lt hx)
    obtain ⟨y, ys, rfl⟩ := List.exists_cons_of_length_pos (Nat.zero_lt_of_lt hy)
    exact h b bytes x xs y ys rfl rfl rfl

theorem bit_meet (b first second : Stored) (i : Nat) : (b.meet first second).bit i =
    if i / 8 < b.memory.length ∧ i / 8 < first.memory.length ∧ i / 8 < second.memory.length then
      first.bit i && second.bit i
    else b.bit i := by
  rw [bit, meet, getD_meetBytes]
  split
  · exact BitVec.getLsbD_and
  · rfl

theorem contents_meet (hf : first.size = b.size) (hs : second.size = b.size) :
    (b.meet first second).contents = first.contents ∩ second.contents := by
  apply BitSet.ext
  · simp [hf]
  · intro i
    rw [BitSet.mem_inter, mem_contents, mem_contents, mem_contents, bit_meet, size_meet, hf, hs]
    by_cases hi : i < b.size
    · have hlen : i / 8 < b.memory.length ∧ i / 8 < first.memory.length ∧ i / 8 < second.memory.length :=
        ⟨lt_length_of_lt hi, lt_length_of_lt (hf ▸ hi), lt_length_of_lt (hs ▸ hi)⟩
      simp [hi, hlen]
    · simp [hi]

/-- Spare bits only come from the first set, whatever the size of the second. -/
theorem Clean.meet (hb : b.Clean) (hf : first.Clean) (hsize : first.size = b.size) (second : Stored) :
    (b.meet first second).Clean := by
  intro i hi
  rw [size_meet] at hi
  rw [bit_meet, hb i hi, hf i (hsize ▸ hi), Bool.false_and, ite_self]

theorem shows_iff_byte : shows first second seen = true ↔
    ∃ (k : Nat) (x y z : BitVec 8), first.memory[k]? = some x ∧ second.memory[k]? = some y ∧
      seen.memory[k]? = some z ∧ x &&& y &&& ~~~z ≠ 0 := by
  rw [shows, List.any_eq_true]
  constructor
  · rintro ⟨⟨⟨x, y⟩, z⟩, hmem, hne⟩
    obtain ⟨k, hk⟩ := List.mem_iff_getElem?.mp hmem
    obtain ⟨hxy, hz⟩ := List.getElem?_zip_eq_some.mp hk
    obtain ⟨hx, hy⟩ := List.getElem?_zip_eq_some.mp hxy
    exact ⟨k, x, y, z, hx, hy, hz, of_decide_eq_true hne⟩
  · rintro ⟨k, x, y, z, hx, hy, hz, hne⟩
    refine ⟨((x, y), z), List.mem_iff_getElem?.mpr ⟨k, ?_⟩, decide_eq_true hne⟩
    exact List.getElem?_zip_eq_some.mpr ⟨List.getElem?_zip_eq_some.mpr ⟨hx, hy⟩, hz⟩

theorem byte_ne_zero_iff {v : BitVec 8} : v ≠ 0 ↔ ∃ j, j < 8 ∧ v.getLsbD j = true := by
  constructor
  · intro h
    refine Classical.byContradiction fun hnone => h (BitVec.eq_of_getLsbD_eq fun j hj => ?_)
    rw [BitVec.ofNat_eq_ofNat, BitVec.getLsbD_zero, Bool.eq_false_iff]
    exact fun hb => hnone ⟨j, hj, hb⟩
  · rintro ⟨j, -, hb⟩ rfl
    simp at hb

theorem bit_of_byte {k j : Nat} {x : BitVec 8} (h : b.memory[k]? = some x) (hj : j < 8) :
    b.bit (8 * k + j) = x.getLsbD j := by
  rw [bit, List.getD_eq_getElem?_getD, show (8 * k + j) / 8 = k by omega,
    show (8 * k + j) % 8 = j by omega, h, Option.getD_some]

theorem exists_byte (h : i < b.size) :
    ∃ x, b.memory[i / 8]? = some x ∧ x.getLsbD (i % 8) = b.bit i := by
  have hlen := lt_length_of_lt h
  refine ⟨b.memory[i / 8], List.getElem?_eq_getElem hlen, ?_⟩
  rw [bit, List.getD_eq_getElem?_getD, List.getElem?_eq_getElem hlen, Option.getD_some]

/-- Bytes show just what the numbers show if the first set is clean. -/
theorem shows_iff (hf : first.Clean) (hs : second.size = first.size) (hn : seen.size = first.size) :
    shows first second seen = true ↔ ¬first.contents ∩ second.contents ⊆ seen.contents := by
  rw [shows_iff_byte, BitSet.subset_def]
  constructor
  · rintro ⟨k, x, y, z, hx, hy, hz, hne⟩ hsub
    obtain ⟨j, hj, hb⟩ := byte_ne_zero_iff.mp hne
    have hbits : first.bit (8 * k + j) = true ∧ second.bit (8 * k + j) = true ∧
        seen.bit (8 * k + j) = false := by
      rw [bit_of_byte hx hj, bit_of_byte hy hj, bit_of_byte hz hj]
      simpa [hj, and_assoc] using hb
    have hlt : 8 * k + j < first.size := by
      refine Nat.lt_of_not_le fun hle => ?_
      rw [hf _ hle] at hbits
      exact Bool.false_ne_true hbits.1
    have hmem := hsub (8 * k + j) (BitSet.mem_inter.mpr
      ⟨mem_contents.mpr ⟨hlt, hbits.1⟩, mem_contents.mpr ⟨hs ▸ hlt, hbits.2.1⟩⟩)
    rw [mem_contents, hbits.2.2] at hmem
    exact Bool.false_ne_true hmem.2
  · intro h
    obtain ⟨i, hi⟩ := Classical.not_forall.mp h
    obtain ⟨hi, hnot⟩ := Classical.not_imp.mp hi
    obtain ⟨hfi, hsi⟩ := BitSet.mem_inter.mp hi
    rw [mem_contents] at hfi hsi hnot
    obtain ⟨x, hx, hxb⟩ := exists_byte hfi.1
    obtain ⟨y, hy, hyb⟩ := exists_byte hsi.1
    obtain ⟨z, hz, hzb⟩ := exists_byte (hn ▸ hfi.1 : i < seen.size)
    refine ⟨i / 8, x, y, z, hx, hy, hz, byte_ne_zero_iff.mpr ⟨i % 8, Nat.mod_lt _ (by decide), ?_⟩⟩
    have hzi : seen.bit i = false := Bool.eq_false_iff.mpr fun hb => hnot ⟨hn ▸ hfi.1, hb⟩
    have hlt : i % 8 < 8 := Nat.mod_lt _ (by decide)
    rw [BitVec.getLsbD_and, BitVec.getLsbD_and, BitVec.getLsbD_not, hxb, hyb, hzb, hfi.2, hsi.2, hzi]
    simp [hlt]

end Stored

end Sightline
