import TypedCalls.Decimal.Shortest
import TypedCalls.Text.Numeral

/-!
Reading doubles, fractions and whole numbers from decimal text.
-/

set_option autoImplicit false

namespace TypedCalls.Decimal

def digitsValue (digits : List Char) : Nat :=
  digits.foldl (fun n c => 10 * n + (c.toNat - '0'.toNat)) 0

def natural? (text : List Char) : Option Nat :=
  if text.isEmpty || !text.all Char.isDigit then none else some (digitsValue text)

def unsigned (text : List Char) : Bool × List Char :=
  match text with
  | '-' :: rest => (true, rest)
  | '+' :: rest => (false, rest)
  | _ => (false, text)

def integer? (text : List Char) : Option Int :=
  let signed := unsigned text
  (natural? signed.2).map fun n => if signed.1 then -(n : Int) else n

/-- The digits and the exponent of an unsigned decimal: digits, a point and digits, then an exponent,
each of which may be left out. -/
def decimal? (text : List Char) : Option (Nat × Int) :=
  let whole := text.takeWhile Char.isDigit
  let afterWhole := text.dropWhile Char.isDigit
  let point := match afterWhole with
    | '.' :: rest => (rest.takeWhile Char.isDigit, rest.dropWhile Char.isDigit)
    | rest => ([], rest)
  let exponent? := match point.2 with
    | [] => some 0
    | c :: rest => if c = 'e' ∨ c = 'E' then integer? rest else none
  if (whole ++ point.1).isEmpty then none
  else exponent?.map fun e => (digitsValue (whole ++ point.1), e - point.1.length)

/-- The double nearest to `digits * 10 ^ exponent`. Decimals far out of range are told by their
number of digits alone. -/
def ofDecimal (digits : Nat) (exponent : Int) : Float :=
  let size : Int := exponent + (Nat.toDigits 10 digits).length
  if digits = 0 ∨ size < -400 then Float.ofBits 0
  else
    let bits :=
      if 400 < size then infinityBits
      else nearestBits (digits * tenTo exponent.toNat) (tenTo (-exponent).toNat)
    Float.ofBits (min bits infinityBits).toUInt64

def magnitude? (text : List Char) : Option Float :=
  let word := text.map Char.toLower
  if word = layout.infinity.toList ∨ word = "infinity".toList then
    some (Float.ofBits infinityBits.toUInt64)
  else if word = layout.notANumber.toList then some (0.0 / 0.0)
  else (decimal? text).map fun d => ofDecimal d.1 d.2

def real? (text : List Char) : Option Float :=
  let signed := unsigned text
  (magnitude? signed.2).map fun x => if signed.1 then -x else x

def quotient? (text : List Char) : Option (Int × Int) :=
  match text.span (· != '/') with
  | (num, _ :: den) =>
    match integer? num, integer? den with
    | some n, some d => some (n, d)
    | _, _ => none
  | (_, []) => none

def ratio? (text : List Char) : Option (Nat × Nat) :=
  match text.span (· != '/') with
  | (num, _ :: den) =>
    match natural? num, natural? den with
    | some n, some d => some (n, d)
    | _, _ => none
  | (_, []) => (decimal? text).map fun d => (d.1 * tenTo d.2.toNat, tenTo (-d.2).toNat)

def fraction? (text : List Char) : Option (Int × Nat) :=
  let signed := unsigned text
  (ratio? signed.2).map fun q => (if signed.1 then -(q.1 : Int) else q.1, q.2)

end TypedCalls.Decimal
