/-!
Doubles as exact numbers: what a double is worth, and which double is nearest to a quotient.
A tie goes to the neighbour with an even last bit.
-/

set_option autoImplicit false

namespace TypedCalls.Decimal

def twoTo (n : Nat) : Nat := Nat.pow 2 n

def tenTo (n : Nat) : Nat := Nat.pow 10 n

/-- A finite double is `mantissa * 2 ^ exponent`, negated if `negative`. -/
structure Dyadic where
  negative : Bool
  mantissa : Nat
  exponent : Int
  deriving DecidableEq, Repr

def minExponent : Int := -1074

def hiddenBit : Nat := twoTo 52

def infinityBits : Nat := 2047 * hiddenBit

/-- What a double is worth, unless it is infinite or no number. -/
def dyadic? (x : Float) : Option Dyadic :=
  let bits := x.toBits.toNat
  let negative := twoTo 63 ≤ bits
  let field := bits / hiddenBit % 2048
  let fraction := bits % hiddenBit
  if field = 2047 then none
  else if field = 0 then some ⟨negative, fraction, minExponent⟩
  else some ⟨negative, fraction + hiddenBit, minExponent + (field - 1 : Nat)⟩

def worth? (x : Float) : Option Rat :=
  (dyadic? x).map fun d =>
    let signed : Int := if d.negative then -d.mantissa else d.mantissa
    if 0 ≤ d.exponent then mkRat (signed * (twoTo d.exponent.toNat : Nat)) 1
    else mkRat signed (twoTo (-d.exponent).toNat)

def roundDiv (num den : Nat) : Nat :=
  let whole := num / den
  let twice := 2 * (num % den)
  if twice < den then whole
  else if den < twice then whole + 1
  else whole + whole % 2

def scaled (num den : Nat) (exponent : Int) : Nat × Nat :=
  if 0 ≤ exponent then (num, den * twoTo exponent.toNat)
  else (num * twoTo (-exponent).toNat, den)

/-- The bits of the double nearest to `num / den`; from `infinityBits` on it is out of range. -/
def nearestBits (num den : Nat) : Nat :=
  if num = 0 then 0
  else
    let guess := max ((num.log2 : Int) - den.log2 - 53) minExponent
    let first := scaled num den guess
    let exponent := if 2 * hiddenBit ≤ first.1 / first.2 then guess + 1 else guess
    let last := scaled num den exponent
    (exponent - minExponent).toNat * hiddenBit + roundDiv last.1 last.2

def nearest? (num : Int) (den : Nat) : Option Float :=
  let bits := nearestBits num.natAbs den
  if infinityBits ≤ bits then none
  else
    let x := Float.ofBits bits.toUInt64
    some (if num < 0 then -x else x)

end TypedCalls.Decimal
