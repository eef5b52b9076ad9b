namespace DeadCode

-- The quotient rounded to the nearest whole number, and to the even one if two are equally near.
def roundDiv (numerator denominator : Nat) : Nat :=
  let quotient := numerator / denominator
  let rest := 2 * (numerator % denominator)
  if rest < denominator then quotient
  else if denominator < rest then quotient + 1
  else quotient + quotient % 2

def fractionOfBits (bits : UInt64) : Nat × Nat :=
  let exponent := (bits >>> 52 &&& 0x7FF).toNat
  let fraction := (bits &&& 0xFFFFFFFFFFFFF).toNat
  let significand := if exponent = 0 then fraction else Nat.pow 2 52 + fraction
  let shift := max exponent 1
  if 1075 ≤ shift then (significand * Nat.pow 2 (shift - 1075), 1)
  else (significand, Nat.pow 2 (1075 - shift))

def oneDecimal (x : Float) : String :=
  let (numerator, denominator) := fractionOfBits x.toBits
  let tenths := roundDiv (10 * numerator) denominator
  s!"{tenths / 10}.{tenths % 10}"

-- How many percent of `total` are `part`: their quotient first, then times a hundred.
def percentage (part total : Nat) : Float :=
  if total = 0 then 0 else Float.ofNat part / Float.ofNat total * 100

end DeadCode
