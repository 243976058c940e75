import TypedCalls.Decimal.Reader
import TypedCalls.Instance.Basic
import TypedCalls.Value.Collection

/-!
Evidence: the casts, groups and monoids that instances stand for, and what they do to payloads.
-/

set_option autoImplicit false

namespace TypedCalls

def intRange : Int × Int := (-2147483648, 2147483647)

namespace Number

def toPayload : Number → Payload
  | .int n => .int n
  | .rat q => .rat q
  | .real x => .real x

/-- A number as a double. -/
def toReal : Number → Except ValueFault Float
  | .int n => match Decimal.nearest? n 1 with
    | some x => .ok x
    | none => .error .integerTooLarge
  | .rat q => match Decimal.nearest? q.num q.den with
    | some x => .ok x
    | none => .error .quotientTooLarge
  | .real x => .ok x

def finite (wanted : NumberKind) (a : Number) : Except ValueFault Rat :=
  match a.worth?, a with
  | some q, _ => .ok q
  | none, .real x => .error (if x.isNaN then .notANumber wanted else .infinite wanted)
  | none, _ => .error (.infinite wanted)

def toInteger : Number → Except ValueFault Int
  | .int n => .ok n
  | a => (a.finite .integer).map fun q => Int.tdiv q.num q.den

def isNarrow (a : Number) : Bool :=
  a.worth?.any fun q => intRange.1 * q.den ≤ q.num && q.num ≤ intRange.2 * q.den

/-- The sum of two numbers, of the wider kind of the two. -/
def add : Number → Number → Except ValueFault Number
  | .int a, .int b => .ok (.int (a + b))
  | .int a, .rat b => .ok (.rat (a + b))
  | .rat a, .int b => .ok (.rat (a + b))
  | .rat a, .rat b => .ok (.rat (a + b))
  | a, b => do
    let x ← a.toReal
    let y ← b.toReal
    return .real (x + y)

def negate : Number → Number
  | .int n => .int (-n)
  | .rat q => .rat (-q)
  | .real x => .real (-x)

end Number

/-- A conversion of payloads. -/
inductive Cast where
  | identity
  | toInteger
  | toInt
  | toRational
  | toReal
  | toText
  | each (cast : Cast)
  | compose (first second : Cast)
  | inject (index : Int)
  | within (index : Int) (cast : Cast)
  | tagged (tag : String)
  | unusable (kind : String)
  deriving DecidableEq, Repr

namespace Payload

/-- A number of the wanted kind, from a number or from text that spells one. -/
def converted {β : Type} (wanted : NumberKind) (read : List Char → Option β)
    (ofNumber : Number → Except ValueFault β) (p : Payload) : Except ValueFault β :=
  match p, p.number? with
  | .text s, _ =>
    match (Text.numeral? s).bind read with
    | some b => .ok b
    | Option.none => .error (.unreadable wanted s)
  | _, some a => ofNumber a
  | p, Option.none => .error (.unconvertible wanted p.kind)

def toInteger : Payload → Except ValueFault Int :=
  converted .integer Decimal.integer? Number.toInteger

def toReal : Payload → Except ValueFault Float := converted .real Decimal.real? Number.toReal

def toRational (p : Payload) : Except ValueFault Rat := do
  let q ← p.converted .rational Decimal.fraction? fun a =>
    (a.finite .rational).map fun q => (q.num, q.den)
  if q.2 = 0 then throw (.zeroDenominator q.1)
  return mkRat q.1 q.2

def narrowed (p : Payload) : Except ValueFault Payload :=
  match p.number? with
  | some a => if a.isNarrow then .ok p else do throw (.literalTooLarge (← a.toInteger))
  | Option.none => .error (.incomparable p.kind)

def noSum (a b : Payload) : ValueFault :=
  match a with
  | .text _ => .noJoin a.kind b.kind
  | .list _ => .noJoin a.kind b.kind
  | a => if a.items?.isSome then .noJoin (Payload.tuple []).kind b.kind else .noSum a.kind b.kind

/-- The sum of two payloads. Numbers add up; texts, lists and tuples are put one after the other. -/
def add (a b : Payload) : Except ValueFault Payload :=
  match a, b with
  | .text s, .text t => .ok (.text (s ++ t))
  | .list xs, .list ys => .ok (.list (xs ++ ys))
  | a, b =>
    match a.number?, b.number?, a.items?, b.items? with
    | some x, some y, _, _ => (x.add y).map Number.toPayload
    | _, _, some xs, some ys => .ok (.tuple (xs ++ ys))
    | _, _, _, _ => .error (noSum a b)

def negate (a : Payload) : Except ValueFault Payload :=
  match a.number? with
  | some x => .ok x.negate.toPayload
  | Option.none => .error (.noNegative a.kind)

end Payload

/-- Convert a payload. -/
def Cast.apply : Cast → Payload → Except ValueFault Payload
  | .identity, p => .ok p
  | .toInteger, p => p.toInteger.map .int
  | .toInt, p => p.narrowed
  | .toRational, p => p.toRational.map .rat
  | .toReal, p => p.toReal.map .real
  | .toText, p => .ok (.text p.plain)
  | .each cast, p => do return .list (← (← p.parts).mapM cast.apply)
  | .compose first second, p => do second.apply (← first.apply p)
  | .inject index, p => .ok (.union index p)
  | .within index cast, p =>
    match p with
    | .union i v => if i = index then (cast.apply v).map (.union i) else .ok (.union i v)
    | p => .error (.objectWithout p.kind "map")
  | .tagged tag, p => .ok (.pair (.text tag) p)
  | .unusable kind, _ => .error (.notCallable kind)

/-- What an instance stands for. A group and a monoid add payloads, starting from their zero. -/
inductive Evidence where
  | label (text : String)
  | cast (cast : Cast)
  | group (zero : Payload)
  | monoid (zero : Payload)
  deriving Inhabited

namespace Evidence

def toCast : Evidence → Cast
  | .cast conversion => conversion
  | .label _ => .unusable "str"
  | .group _ => .unusable "Group"
  | .monoid _ => .unusable "Monoid"

def shown : Evidence → String
  | .label text => text
  | _ => "?"

def labelled (name : String) (parts : List Evidence) : Evidence :=
  .label (name ++ "(" ++ ",".intercalate (parts.map shown) ++ ")")

/-- Evidence as messages name it. The conversions between single types are types themselves. -/
def owner : Evidence → String
  | .label _ => "'str' object"
  | .cast .toInteger => "type object 'int'"
  | .cast .toRational => "type object 'Fraction'"
  | .cast .toReal => "type object 'float'"
  | .cast .toText => "type object 'str'"
  | .cast _ => "'function' object"
  | .group _ => "'Group' object"
  | .monoid _ => "'Monoid' object"

def zero : Evidence → Except ValueFault Payload
  | .group zero => .ok zero
  | .monoid zero => .ok zero
  | e => .error (.noMember e.owner "empty")

def adder : Evidence → Except ValueFault (Payload → Payload → Except ValueFault Payload)
  | .group _ => .ok Payload.add
  | .monoid _ => .ok Payload.add
  | e => .error (.noMember e.owner "combine")

def combine (e : Evidence) (a b : Payload) : Except ValueFault Payload := do (← e.adder) a b

def invert : Evidence → Payload → Except ValueFault Payload
  | .group _, a => a.negate
  | e, _ => .error (.noMember e.owner "invert")

def toMonoid (e : Evidence) : Except ValueFault Evidence := e.zero.map .monoid

def numbered (evidence : List Evidence) (k : Int) : Except ValueFault Evidence :=
  let i := if k < 0 then k + evidence.length else k
  match if i < 0 then none else evidence[i.toNat]? with
  | some e => .ok e
  | none => .error .noEvidence

end Evidence

/-- Evidence, or what went wrong in building it. -/
abbrev Built := Except ValueFault Evidence

def Built.ofParts (build : List Evidence → Built) (parts : List Built) : Built := do
  build (← parts.mapM id)

end TypedCalls
