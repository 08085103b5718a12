import Sightline.Fault

/-! How a row of bytes is packed: bytes other than zero stand for themselves, and a run of zeros is written
as a zero and its length. -/

namespace Sightline.Packing

/-- The longest run that one count can give; a longer one is split. -/
def maxRun : Nat := 255

def zeros (run : Nat) : List UInt8 := if run = 0 then [] else [0, .ofNat run]

/-- Packs the rest of a row after `run` zeros that are still to be written. -/
def packAfter (run : Nat) : List UInt8 → List UInt8
  | [] => zeros run
  | byte :: row =>
    if byte ≠ 0 then zeros run ++ byte :: packAfter 0 row
    else if run < maxRun then packAfter (run + 1) row
    else zeros run ++ packAfter 1 row

def pack (row : List UInt8) : List UInt8 := packAfter 0 row

/-- Reads back a row of `size` bytes. Reading ends when the row is full, so other data may follow; it ends
early where the data does, or at a run of length zero. -/
def unpack : List UInt8 → (size : Nat) → List UInt8
  | [], _ => []
  | _, 0 => []
  | byte :: data, size + 1 =>
    if byte ≠ 0 then byte :: unpack data size
    else match data with
      | [] => []
      | count :: data =>
        let run := min count.toNat (size + 1)
        if run = 0 then [] else List.replicate run 0 ++ unpack data (size + 1 - run)

/-- The largest size that room can be set aside for. -/
def capacity : Nat := 0x7FFFFFFFFFFFFFFF

/-- Unpacks a row with room set aside for all of it, however little the data gives. -/
def read (data : List UInt8) (size : Nat) : Except Failure (List UInt8) :=
  if size ≤ capacity then .ok (unpack data size) else .error .tooLarge

end Sightline.Packing
