import HeaderDocs.Text.Space

/-!
# Decimal numbers

A number that is given in decimal is kept in binary, with 53 digits, and is written with the fewest
decimal digits that lead back to the same binary number.
-/
namespace HeaderDocs.Text

/-- A quotient, rounded. A half goes to the even neighbour. -/
def roundDiv (a b : Nat) : Nat :=
  let below := a / b
  match compare (2 * (a % b)) b with
  | .lt => below
  | .gt => below + 1
  | .eq => below + below % 2

/-- A power. A negative exponent counts as zero. -/
def power (base : Nat) (exponent : Int) : Nat := Nat.pow base exponent.toNat

/-- The number `mantissa * 2 ^ exponent`. -/
structure Binary where
  mantissa : Nat
  exponent : Int
deriving DecidableEq, Repr

namespace Binary

/-- The closest number to a quotient. Next to zero there are fewer digits than 53. -/
def nearest (a b : Nat) : Binary :=
  let log : Int := a.log2 - b.log2
  let log := if a * power 2 (-log) < b * power 2 log then log - 1 else log
  let exponent := max (log - 52) (-1074)
  let mantissa := roundDiv (a * power 2 (-exponent)) (b * power 2 exponent)
  if mantissa == power 2 53 then ⟨power 2 52, exponent + 1⟩ else ⟨mantissa, exponent⟩

/-- Whether the number is beyond all that can be kept. -/
def isInfinite (x : Binary) : Bool := 971 < x.exponent

end Binary

/-- The number `digits * 10 ^ exponent`. -/
structure Decimal where
  digits : Nat
  exponent : Int
deriving DecidableEq, Repr

namespace Decimal

/-- The binary number that a decimal one is kept as. -/
def toBinary (d : Decimal) : Binary :=
  .nearest (d.digits * power 10 d.exponent) (power 10 (-d.exponent))

/-- The closest of the decimals next to a quotient that lead to a binary number, with the last digit
at a power of ten. -/
def next? (x : Binary) (a b : Nat) (exponent : Int) : Option Decimal :=
  let a := a * power 10 (-exponent)
  let b := b * power 10 exponent
  let closest := roundDiv a b
  let other := 2 * (a / b) + 1 - closest
  ([closest, other].map (Decimal.mk · exponent)).find? (·.toBinary == x)

/-- The decimal with the fewest digits that leads back to a binary number. Seventeen digits do for
all of them. -/
def ofBinary (x : Binary) : Decimal :=
  let a := x.mantissa * power 2 x.exponent
  let b := power 2 (-x.exponent)
  let log : Int := (Nat.toDigits 10 a).length - (Nat.toDigits 10 b).length
  let log := if a * power 10 (-log) < b * power 10 log then log else log + 1
  let exact : Decimal :=
    ⟨x.mantissa * power 2 x.exponent * power 5 (-x.exponent), min x.exponent 0⟩
  ((List.range 17).findSome? fun n => next? x a b (log - (n + 1 : Nat))).getD exact

/-- A decimal with a point. Very large and very small ones have their power of ten behind them. -/
def shown (d : Decimal) : String :=
  let digits := Nat.toDigits 10 d.digits
  -- the value is `0.digits * 10 ^ point`
  let point : Int := digits.length + d.exponent
  let digits := dropEndWhile (· == '0') digits
  let zeros (n : Int) : List Char := List.replicate n.toNat '0'
  String.ofList <|
    if -4 < point && point ≤ 16 then
      if point ≤ 0 then ['0', '.'] ++ zeros (-point) ++ digits
      else if digits.length ≤ point then digits ++ zeros (point - digits.length) ++ ['.', '0']
      else digits.take point.toNat ++ '.' :: digits.drop point.toNat
    else
      let last := Nat.toDigits 10 (point - 1).natAbs
      let rest := if digits.length ≤ 1 then [] else '.' :: digits.drop 1
      digits.take 1 ++ rest ++ ['e', if point ≤ 0 then '-' else '+'] ++ zeros (2 - last.length) ++
        last

end Decimal

/-- The text of the number `mantissa / 10 ^ exponent`. -/
def decimalText (mantissa : Int) (exponent : Nat) : String :=
  let x := Binary.nearest mantissa.natAbs (power 10 exponent)
  let size :=
    if x.mantissa == 0 then "0.0" else if x.isInfinite then "inf" else (Decimal.ofBinary x).shown
  if mantissa < 0 then "-" ++ size else size

example : decimalText 200 2 = "2.0" ∧ decimalText (-15) 8 = "-1.5e-07" ∧
    decimalText 30000000000000004 17 = "0.30000000000000004" := by decide +kernel

end HeaderDocs.Text
