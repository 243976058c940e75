import TypedCalls.Expr.Basic
import TypedCalls.Text.Quoted

/-!
Three texts of an expression: as it is written, as it is shown inside of other values, and what it
holds.
-/

set_option autoImplicit false

namespace TypedCalls

def fractionText (q : Rat) : String :=
  if q.den = 1 then toString q.num else toString q.num ++ "/" ++ toString q.den

def fractionShown (q : Rat) : String :=
  "Fraction(" ++ toString q.num ++ ", " ++ toString q.den ++ ")"

def tupleShown : List String → String
  | [only] => "(" ++ only ++ ",)"
  | parts => "(" ++ ", ".intercalate parts ++ ")"

namespace Expr

def kind : Expr → String
  | .atom _ => "Atom"
  | .integer _ => "Integer"
  | .decimal _ => "Decimal"
  | .rational _ => "Rational"
  | .string _ => "String"
  | .seq _ => "Seq"

def stringWritten (s : String) : String :=
  String.ofList ('"' :: s.toList.flatMap (fun c =>
    if c = '\\' ∨ c = '"' then ['\\', c] else [c]) ++ ['"'])

mutual

def written : Expr → String
  | .atom name => name
  | .integer n => toString n
  | .decimal x => Decimal.text x
  | .rational q => toString q.num ++ "/" ++ toString q.den
  | .string s => stringWritten s
  | .seq items => "(" ++ " ".intercalate (writtenAll items) ++ ")"

def writtenAll : List Expr → List String
  | [] => []
  | e :: es => e.written :: writtenAll es

end

mutual

def shown : Expr → String
  | .atom name => "Atom(name=" ++ Text.quoted name ++ ")"
  | .integer n => "Integer(value=" ++ toString n ++ ")"
  | .decimal x => "Decimal(value=" ++ Decimal.text x ++ ")"
  | .rational q => "Rational(value=" ++ fractionShown q ++ ")"
  | .string s => "String(value=" ++ Text.quoted s ++ ")"
  | .seq items => "Seq(items=" ++ tupleShown (shownAll items) ++ ")"

def shownAll : List Expr → List String
  | [] => []
  | e :: es => e.shown :: shownAll es

end

def content : Expr → String
  | .atom name => name
  | .integer n => toString n
  | .decimal x => Decimal.text x
  | .rational q => fractionText q
  | .string s => s
  | .seq items => tupleShown (shownAll items)

end Expr

end TypedCalls
