import TypedCalls.Expr.Printer
import TypedCalls.Value.Basic

/-!
The text of a payload, how it is shown inside of other values, and the name of its kind.
-/

set_option autoImplicit false

namespace TypedCalls

namespace Payload

def boolText (b : Bool) : String := if b then "True" else "False"

mutual

/-- A payload as it is shown inside of other values. -/
def shown : Payload → String
  | .none => "None"
  | .bool b => boolText b
  | .int n => toString n
  | .rat q => fractionShown q
  | .real x => Decimal.text x
  | .text s => Text.quoted s
  | .list items => "[" ++ ", ".intercalate (shownAll items) ++ "]"
  | .tuple items => tupleShown (shownAll items)
  | .map entries => "\x7b" ++ ", ".intercalate (shownEntries entries) ++ "\x7d"
  | .set [] => "set()"
  | .set elements => "\x7b" ++ ", ".intercalate (shownAll elements) ++ "\x7d"
  | .union index v => "Union2(index=" ++ toString index ++ ", value=" ++ v.shown ++ ")"
  | .type t => t.render
  | .code e => e.shown
  | .function fn => fn.render

def shownAll : List Payload → List String
  | [] => []
  | p :: ps => p.shown :: shownAll ps

def shownEntries : List (Payload × Payload) → List String
  | [] => []
  | (k, v) :: rest => (k.shown ++ ": " ++ v.shown) :: shownEntries rest

end

def plain : Payload → String
  | .text s => s
  | .rat q => fractionText q
  | .code e => e.written
  | p => p.shown

/-- The kind of a payload, as messages name it. -/
def kind : Payload → String
  | .none => "NoneType"
  | .bool _ => "bool"
  | .int _ => "int"
  | .rat _ => "Fraction"
  | .real _ => "float"
  | .text _ => "str"
  | .list _ => "list"
  | .tuple _ => "tuple"
  | .map _ => "dict"
  | .set _ => "set"
  | .union .. => "Union2"
  | .type t => t.kind
  | .code e => e.kind
  | .function _ => "Function"

end Payload

def Value.render (value : Value) : String := value.payload.plain ++ " : " ++ value.type.render

end TypedCalls
