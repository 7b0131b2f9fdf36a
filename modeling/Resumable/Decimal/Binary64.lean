import Resumable.Decimal.Reading

/-!
# Double precision

The 64 bits of the binary floating-point number that is nearest to a decimal fraction. Ties go to
the number with an even last bit.
-/

namespace Resumable.Decimal

/-- The quotient rounded to the nearest whole number, ties to the even one. -/
def roundDiv (num den : Nat) : Nat :=
  let q := num / den
  let r := num % den
  if 2 * r < den then q
  else if den < 2 * r then q + 1
  else q + q % 2

/-- The bits of the positive number `num / den`, where `num` is not zero. The exponent `e` is
chosen such that the quotient by `2 ^ e` has 53 bits, or `e` is the least one. -/
def bitsOfQuotient (num den : Nat) : Nat :=
  -- the quotient lies between 2 ^ (guess - 1) and 2 ^ (guess + 1)
  let guess : Int := (num.log2 : Int) - den.log2
  let scale (e : Int) : Nat :=
    if 0 ≤ e then roundDiv num (den <<< e.toNat) else roundDiv (num <<< (-e).toNat) den
  let floor (e : Int) : Nat :=
    if 0 ≤ e then num / (den <<< e.toNat) else (num <<< (-e).toNat) / den
  let e : Int := guess - 52
  let e : Int := if floor e < 1 <<< 52 then e - 1 else e
  let e : Int := max e (-1074)
  let m := scale e
  -- rounding up may give one more bit
  let (m, e) : Nat × Int := if m = 1 <<< 53 then (1 <<< 52, e + 1) else (m, e)
  if 971 < e then 0x7ff <<< 52
  else if m < 1 <<< 52 then m
  else ((e + 1075).toNat <<< 52) + (m - 1 <<< 52)

/-- The bits of a decimal fraction without its sign. Numbers far beyond the range are not
multiplied out. -/
def magnitude (digits : Nat) (exponent : Int) : Nat :=
  let size : Int := exponent + (Nat.log2 digits : Int)
  if digits = 0 then 0
  else if 1100 < exponent then 0x7ff <<< 52
  else if size + 1100 < 0 then 0
  else if 0 ≤ exponent then bitsOfQuotient (digits * Nat.pow 10 exponent.toNat) 1
  else bitsOfQuotient digits (Nat.pow 10 (-exponent).toNat)

def Reading.bits : Reading → Nat
  | .finite f => (if f.negative then 1 <<< 63 else 0) + magnitude f.digits f.exponent
  | .infinite negative => (if negative then 1 <<< 63 else 0) + (0x7ff <<< 52)
  | .notANumber negative => (if negative then 1 <<< 63 else 0) + (0xfff <<< 51)

end Resumable.Decimal
