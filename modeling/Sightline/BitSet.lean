/-! Finite sets of the numbers below a fixed size, one bit for each. Sets of different sizes may meet: a
number beyond the size of a set is never in it, and a result has the size of the set on the left. -/

namespace Sightline

structure BitSet where
  size : Nat
  bits : BitVec size
deriving DecidableEq

namespace BitSet

instance : Membership Nat BitSet := ⟨fun s i => s.bits.getLsbD i = true⟩

instance (i : Nat) (s : BitSet) : Decidable (i ∈ s) :=
  inferInstanceAs (Decidable (s.bits.getLsbD i = true))

def empty (size : Nat) : BitSet := ⟨size, BitVec.zero size⟩

def resize (s : BitSet) (size : Nat) : BitSet := ⟨size, s.bits.setWidth size⟩

/-- A number beyond the size is not added. -/
def insert (s : BitSet) (i : Nat) : BitSet :=
  if i < s.size then ⟨s.size, s.bits ||| BitVec.twoPow s.size i⟩ else s

def erase (s : BitSet) (i : Nat) : BitSet :=
  if i < s.size then ⟨s.size, s.bits &&& ~~~BitVec.twoPow s.size i⟩ else s

instance : Inter BitSet := ⟨fun s t => ⟨s.size, s.bits &&& t.bits.setWidth s.size⟩⟩

instance : Union BitSet := ⟨fun s t => ⟨s.size, s.bits ||| t.bits.setWidth s.size⟩⟩

instance : HasSubset BitSet := ⟨fun s t => ∀ i, i ∈ s → i ∈ t⟩

def count (s : BitSet) : Nat := s.bits.cpop.toNat

def ofBools (l : List Bool) : BitSet := ⟨l.length, .ofBoolListLE l⟩

def toBools (s : BitSet) : List Bool := (List.range s.size).map s.bits.getLsbD

def bytesFor (size : Nat) : Nat := (size + 7) / 8

/-- The bits in bytes, the lowest number in the lowest bit of the first byte. -/
def bytes (s : BitSet) : List UInt8 :=
  (List.range (bytesFor s.size)).map fun k => .ofNat (s.bits.toNat >>> (8 * k))

theorem mem_def {i : Nat} {s : BitSet} : i ∈ s ↔ s.bits.getLsbD i = true := Iff.rfl

theorem lt_size_of_mem {i : Nat} {s : BitSet} (h : i ∈ s) : i < s.size := BitVec.lt_of_getLsbD h

theorem ext {s t : BitSet} (hs : s.size = t.size) (h : ∀ i, i ∈ s ↔ i ∈ t) : s = t := by
  obtain ⟨n, a⟩ := s
  obtain ⟨m, b⟩ := t
  subst hs
  congr 1
  apply BitVec.eq_of_getLsbD_eq
  intro i _
  exact Bool.eq_iff_iff.mpr (h i)

@[simp] theorem size_empty (n : Nat) : (empty n).size = n := rfl

@[simp] theorem size_resize (s : BitSet) (n : Nat) : (s.resize n).size = n := rfl

@[simp] theorem size_insert (s : BitSet) (i : Nat) : (s.insert i).size = s.size := by
  unfold insert; split <;> rfl

@[simp] theorem size_erase (s : BitSet) (i : Nat) : (s.erase i).size = s.size := by
  unfold erase; split <;> rfl

@[simp] theorem size_inter (s t : BitSet) : (s ∩ t).size = s.size := rfl

@[simp] theorem size_union (s t : BitSet) : (s ∪ t).size = s.size := rfl

@[simp] theorem not_mem_empty (i n : Nat) : i ∉ empty n := by simp [mem_def, empty]

@[simp] theorem mem_resize {s : BitSet} {n i : Nat} : i ∈ s.resize n ↔ i < n ∧ i ∈ s := by
  simp [mem_def, resize, BitVec.getLsbD_setWidth]

@[simp] theorem mem_insert {s : BitSet} {i j : Nat} :
    i ∈ s.insert j ↔ i ∈ s ∨ i = j ∧ j < s.size := by
  unfold insert
  split <;> simp [mem_def, BitVec.getLsbD_or, BitVec.getLsbD_twoPow] <;> grind

@[simp] theorem mem_erase {s : BitSet} {i j : Nat} : i ∈ s.erase j ↔ i ∈ s ∧ i ≠ j := by
  have hi : i ∈ s → i < s.size := lt_size_of_mem
  unfold erase
  split <;>
    simp [mem_def, BitVec.getLsbD_and, BitVec.getLsbD_not, BitVec.getLsbD_twoPow] at * <;> grind

@[simp] theorem mem_inter {s t : BitSet} {i : Nat} : i ∈ s ∩ t ↔ i ∈ s ∧ i ∈ t := by
  have hi : i ∈ s → i < s.size := lt_size_of_mem
  simp [mem_def, Inter.inter, BitVec.getLsbD_and, BitVec.getLsbD_setWidth] at *
  grind

@[simp] theorem mem_union {s t : BitSet} {i : Nat} :
    i ∈ s ∪ t ↔ i ∈ s ∨ i < s.size ∧ i ∈ t := by
  simp [mem_def, Union.union, BitVec.getLsbD_or, BitVec.getLsbD_setWidth]

theorem subset_def {s t : BitSet} : s ⊆ t ↔ ∀ i, i ∈ s → i ∈ t := Iff.rfl

theorem subset_iff_bits {s t : BitSet} :
    s.bits &&& ~~~t.bits.setWidth s.size = BitVec.zero s.size ↔ s ⊆ t := by
  constructor
  · intro h i hi
    have hb := congrArg (·.getLsbD i) h
    have := lt_size_of_mem hi
    simp [BitVec.getLsbD_and, BitVec.getLsbD_not, BitVec.getLsbD_setWidth, mem_def] at *
    grind
  · intro h
    apply BitVec.eq_of_getLsbD_eq
    intro i hi
    have := h i
    simp [BitVec.getLsbD_and, BitVec.getLsbD_not, BitVec.getLsbD_setWidth, mem_def] at *
    grind

instance (s t : BitSet) : Decidable (s ⊆ t) := decidable_of_iff _ subset_iff_bits

theorem count_le_size (s : BitSet) : s.count ≤ s.size := BitVec.toNat_cpop_le _

@[simp] theorem count_empty (n : Nat) : (empty n).count = 0 := by
  simp only [count, empty, BitVec.zero_eq, BitVec.cpop_zero, BitVec.toNat_zero]

theorem countBits_add {w : Nat} {x y : BitVec w} {i : Nat} (hx : x.getLsbD i = false)
    (hy : ∀ j, y.getLsbD j = (x.getLsbD j || decide (j = i ∧ i < w))) (n : Nat) (hi : i < w) :
    y.cpopNatRec n 0 = x.cpopNatRec n 0 + if i < n then 1 else 0 := by
  induction n with
  | zero => simp
  | succ n ih =>
    rw [BitVec.cpopNatRec_succ, BitVec.cpopNatRec_succ, BitVec.cpopNatRec_add,
      BitVec.cpopNatRec_add, ih, hy n]
    by_cases h : n = i
    · subst h; rw [hx]; simp [hi]
    · have : (i < n + 1) = (i < n) := by simp; omega
      simp [h, this]; omega

theorem count_insert {s : BitSet} {i : Nat} (h : i < s.size) (hi : i ∉ s) :
    (s.insert i).count = s.count + 1 := by
  unfold insert
  rw [if_pos h]
  simp only [count, BitVec.toNat_cpop]
  rw [countBits_add (x := s.bits) (i := i) (by simpa [mem_def] using hi) _ _ h, if_pos h]
  intro j
  simp [BitVec.getLsbD_or, BitVec.getLsbD_twoPow, h, eq_comm]

theorem count_erase {s : BitSet} {i : Nat} (hi : i ∈ s) : (s.erase i).count + 1 = s.count := by
  have h := lt_size_of_mem hi
  have : s = (s.erase i).insert i := by
    apply ext <;> simp
    grind
  conv => rhs; rw [this]
  rw [count_insert] <;> simp [h]

theorem mem_ofBools {l : List Bool} {i : Nat} : i ∈ ofBools l ↔ l[i]? = some true := by
  rw [mem_def, ofBools, BitVec.getLsbD_ofBoolListLE, List.getD_eq_getElem?_getD]
  cases l[i]? <;> simp

@[simp] theorem length_toBools (s : BitSet) : s.toBools.length = s.size := by simp [toBools]

@[simp] theorem length_bytes (s : BitSet) : s.bytes.length = bytesFor s.size := by simp [bytes]

/-- A number is looked up in the bytes at its quotient and its remainder by eight. -/
theorem testBit_bytes (s : BitSet) (i : Nat) :
    (s.bytes.getD (i / 8) 0).toNat.testBit (i % 8) = decide (i ∈ s) := by
  have hi : i % 8 < 8 := Nat.mod_lt _ (by decide)
  rw [List.getD_eq_getElem?_getD]
  by_cases h : i / 8 < bytesFor s.size
  · simp only [bytes, List.getElem?_map, List.getElem?_range h, Option.map_some, Option.getD_some,
      UInt8.toNat_ofNat', Nat.testBit_mod_two_pow, Nat.testBit_shiftRight, Nat.div_add_mod, mem_def,
      hi, decide_true, Bool.true_and, Bool.decide_eq_true]
    rfl
  · have : i ∉ s := fun hm => h (by have := lt_size_of_mem hm; unfold bytesFor; omega)
    simp [this, Nat.le_of_not_lt h]

end BitSet

end Sightline
