/-! Doubles written with one decimal place, from their exact value. -/

namespace Sightline.Decimal

/-- `num / den` rounded to the nearest natural number, a tie to the even one. -/
def roundDiv (num den : Nat) : Nat :=
  let quotient := num / den
  let rest := num % den
  if den < 2 * rest || 2 * rest = den && quotient % 2 = 1 then quotient + 1 else quotient

def fraction (x : Float) : Nat × Nat :=
  let bits := x.toBits.toNat
  let hidden := 1 <<< 52
  let exponent := bits / hidden % 2048
  let digits := bits % hidden
  if exponent = 0 then (digits, 1 <<< 1074)
  else if exponent < 1075 then (hidden + digits, 1 <<< (1075 - exponent))
  else ((hidden + digits) <<< (exponent - 1075), 1)

def tenths (x : Float) : String :=
  let (num, den) := fraction x
  let all := roundDiv (10 * num) den
  let whole := all / 10
  let place := all % 10
  s!"{whole}.{place}"

end Sightline.Decimal
