import Mathlib
import Sightline.Geometry.Plane

/-! Turning a plane over twice. Negating a double changes its sign bit and nothing else, so a double that is
negated twice is the same double again, and so is a plane of doubles that is flipped twice. -/

namespace Sightline

def NegCancels (R : Type) [Neg R] : Prop := ∀ a : R, -(-a) = a

theorem Plane.flipped_flipped {R : Type} [Scalar R] (h : NegCancels R) (p : Plane R) :
    p.flipped.flipped = p := by
  simp only [flipped, Vec.neg_def, h _]

namespace Double

open Float.Model Float.Model.UnpackedFloat

variable {b : BitVec Format.binary64.numBits}

def otherSign (b : BitVec Format.binary64.numBits) : BitVec Format.binary64.numBits :=
  packComponents .binary64 (-.ofBitVec (unpackSign b)) (unpackExponent b) (unpackMantissa b)

theorem unpacked_neg_neg (u : UnpackedFloat) : u.neg.neg = u := by
  have hsign : ∀ s : Sign, - -s = s := by
    intro s
    cases s <;> rfl
  cases u <;> simp only [UnpackedFloat.neg, hsign]

theorem unpack_otherSign (b : BitVec Format.binary64.numBits) :
    UnpackedFloat.unpack .binary64 (otherSign b) = (UnpackedFloat.unpack .binary64 b).neg := by
  simp only [UnpackedFloat.unpack, otherSign, unpackSign_packComponents, unpackExponent_packComponents,
    unpackMantissa_packComponents, Sign.ofBitVec_toBitVec]
  split_ifs <;> rfl

/-- There is one double that is no number, and it has no double of the other sign. -/
theorem pack_neg_unpack (hb : Format.binary64.Valid b) :
    UnpackedFloat.pack .binary64 (UnpackedFloat.unpack .binary64 b).neg =
      if b = packedNaN .binary64 then b else otherSign b := by
  split
  · next hnan =>
    rw [hnan, unpack_packedNaN]
    rfl
  · next hnan =>
    have hvalid : Format.binary64.Valid (otherSign b) := by
      constructor
      rw [otherSign, unpackExponent_packComponents, unpackMantissa_packComponents]
      exact fun hexp hmant => absurd (hb.eq_packedNaN hexp hmant) hnan
    rw [← unpack_otherSign, pack_unpack_of_valid hvalid]

theorem negCancels : NegCancels Float := by
  rintro ⟨⟨⟨bits⟩, hb⟩⟩
  have hbits : UnpackedFloat.pack .binary64 (UnpackedFloat.unpack .binary64
      (UnpackedFloat.pack .binary64 (UnpackedFloat.unpack .binary64 bits).neg)).neg = bits := by
    have hneg := pack_neg_unpack hb
    by_cases hnan : bits = packedNaN .binary64
    · rw [if_pos hnan] at hneg
      rw [hneg, hneg]
    · rw [if_neg hnan] at hneg
      rw [hneg, unpack_otherSign, unpacked_neg_neg, pack_unpack_of_valid hb]
  change Float.ofModel ⟨⟨UnpackedFloat.pack .binary64 (UnpackedFloat.unpack .binary64
    (UnpackedFloat.pack .binary64 (UnpackedFloat.unpack .binary64 bits).neg)).neg⟩, _⟩ = _
  simp only [hbits]

end Double

end Sightline
