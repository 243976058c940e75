import TypedCalls.Decimal.Shortest

/-!
Expressions as the evaluator walks them. There is one compound form, used for application. An atom
with a leading colon marks a named argument when it stands among arguments.
-/

set_option autoImplicit false

namespace TypedCalls

/-- An expression. -/
inductive Expr where
  | atom (name : String)
  | integer (value : Int)
  | decimal (value : Float)
  | rational (value : Rat)
  | string (value : String)
  | seq (items : List Expr)
  deriving Inhabited

namespace Expr

def keywordMark : Char := ':'

def isKeyword (name : String) : Bool :=
  match name.toList with
  | mark :: _ :: _ => mark == keywordMark
  | _ => false

def keyword (name : String) : String := String.ofList (name.toList.drop 1)

/-- The name of the argument that an expression marks. -/
def keyword? : Expr → Option String
  | .atom name => if isKeyword name then some (keyword name) else none
  | _ => none

def listLiteral (items : List Expr) : Expr := .seq (.atom "list" :: items)

def mapLiteral (entries : List (Expr × Expr)) : Expr :=
  .seq (.atom "map" :: entries.map fun entry => .seq [.atom "pair", entry.1, entry.2])

end Expr

/-- A number of one of the three kinds. -/
inductive Number where
  | int (n : Int)
  | rat (q : Rat)
  | real (x : Float)
  deriving Inhabited

namespace Number

def worth? : Number → Option Rat
  | .int n => some n
  | .rat q => some q
  | .real x => Decimal.worth? x

def same (a b : Number) : Bool :=
  match a, b with
  | .real x, .real y => x == y
  | a, b =>
    match a.worth?, b.worth? with
    | some p, some q => p == q
    | _, _ => false

end Number

end TypedCalls
