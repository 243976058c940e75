import TypedCalls.Decimal.Nearest

/-!
The shortest decimal that reads back as a given double, and its layout.
-/

set_option autoImplicit false

namespace TypedCalls.Decimal

/-- A positive decimal `digits * 10 ^ exponent`. -/
structure Digits where
  digits : Nat
  exponent : Int
  deriving DecidableEq, Repr

def ratio (a : Nat) (e s : Int) : Nat × Nat :=
  (a * twoTo e.toNat * tenTo s.toNat, twoTo (-e).toNat * tenTo (-s).toNat)

/-- The decimals `c * 10 ^ s` that read back as `m * 2 ^ q` lie between two bounds, which are
themselves such decimals when `m` is even. -/
def readsBack (m : Nat) (q : Int) (c : Nat) (s : Int) : Bool :=
  let low := if m = hiddenBit ∧ minExponent < q then 4 * m - 1 else 4 * m - 2
  let high := 4 * m + 2
  -- compare `c` with `bound * 2 ^ (q - 2) * 10 ^ (-s)`
  let below := ratio low (q - 2) (-s)
  let above := ratio high (q - 2) (-s)
  if m % 2 = 0 then below.1 ≤ c * below.2 && c * above.2 ≤ above.1
  else below.1 < c * below.2 && c * above.2 < above.1

/-- The greatest `e` with `10 ^ e ≤ m * 2 ^ q`. -/
def magnitude (m : Nat) (q : Int) : Int :=
  let guess := Int.fdiv (((m.log2 : Int) + q) * 1233) 4096
  let reaches (e : Int) : Bool :=
    let value := ratio m q (-e)
    value.2 ≤ value.1
  if reaches (guess + 1) then guess + 1
  else if reaches guess then guess
  else guess - 1

/-- The decimal with `n` digits nearest to `m * 2 ^ q` that reads back as it, if there is one. Halfway
between two of them the one with an even last digit counts as nearer. -/
def withDigits? (m : Nat) (q : Int) (n : Nat) : Option Digits :=
  let s := magnitude m q - n + 1
  let value := ratio m q (-s)
  let down := value.1 / value.2
  match readsBack m q down s, readsBack m q (down + 1) s with
  | true, true => some ⟨roundDiv value.1 value.2, s⟩
  | true, false => some ⟨down, s⟩
  | false, true => some ⟨down + 1, s⟩
  | false, false => none

def shortest (m : Nat) (q : Int) : Digits :=
  ((List.range 17).findSome? fun n => withDigits? m q (n + 1)).getD ⟨m, q⟩

/-- Where a decimal is written out in full and how its exponent looks otherwise. -/
structure Layout where
  leastPositional : Int
  firstExponential : Int
  exponentWidth : Nat
  infinity : String
  notANumber : String

/-- Doubles are written out in full from a ten thousandth up to sixteen digits before the point, and
always show that they are not whole numbers. -/
def layout : Layout := ⟨-4, 16, 2, "inf", "nan"⟩

def padded (width : Nat) (digits : List Char) : List Char :=
  List.replicate (width - digits.length) '0' ++ digits

def trimmed (digits : List Char) : List Char :=
  (digits.reverse.dropWhile (· == '0')).reverse

def exponentText (e : Int) : List Char :=
  'e' :: (if e < 0 then '-' else '+') ::
    padded layout.exponentWidth (Nat.toDigits 10 e.natAbs)

/-- Digits that stand for `d.ddd * 10 ^ e`, laid out. -/
def laidOut (digits : List Char) (e : Int) : List Char :=
  if e < layout.leastPositional ∨ layout.firstExponential ≤ e then
    match digits with
    | [] => []
    | [d] => d :: exponentText e
    | d :: rest => d :: '.' :: rest ++ exponentText e
  else if e < 0 then
    '0' :: '.' :: List.replicate ((-e).toNat - 1) '0' ++ digits
  else
    let before := e.toNat + 1
    let whole := digits.take before ++ List.replicate (before - digits.length) '0'
    match digits.drop before with
    | [] => whole ++ ['.', '0']
    | rest => whole ++ '.' :: rest

/-- The text of a finite double. -/
def dyadicText (d : Dyadic) : String :=
  let sign := if d.negative then ['-'] else []
  if d.mantissa = 0 then String.ofList (sign ++ ['0', '.', '0'])
  else
    let short := shortest d.mantissa d.exponent
    let digits := Nat.toDigits 10 short.digits
    let e := short.exponent + digits.length - 1
    String.ofList (sign ++ laidOut (trimmed digits) e)

def text (x : Float) : String :=
  match dyadic? x with
  | some d => dyadicText d
  | none =>
    if x.isNaN then layout.notANumber
    else if x < 0 then "-" ++ layout.infinity else layout.infinity

end TypedCalls.Decimal
