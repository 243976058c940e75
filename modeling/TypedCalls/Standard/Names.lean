import TypedCalls.Eval.Evaluator
import TypedCalls.Standard.Instances

/-!
The names that every program starts with.
-/

set_option autoImplicit false

namespace TypedCalls.Standard

/-- A function that takes evaluated arguments and evidence. -/
def function (name params : String) (args : List Param) (result : Term) (body : Body)
    (implicits : List Term) : Function where
  id := 0
  name := name
  typeParams := typeParams params
  params := args
  result := result
  implicits := implicits
  body := body

def variadic (name : String) (type : Term) : Param := ⟨name, type, .zeroOrMore, false⟩

def unevaluated (name : String) : Param := ⟨name, expr, .required, true⟩

/-- The standard functions. -/
def functions : List Function :=
  [function "+" "ABR" [.required "a" A, .required "b" B] R .sum
     [upcast A R, upcast B R, monoid R],
   function "list" "A" [variadic "items" (listOf A)] (listOf A) .list [],
   function "pair" "AB" [.required "first" A, .required "second" B] (pairOf A B) .pair [],
   function "map" "AB" [variadic "entries" (listOf (pairOf A B))] (mapOf A B) .map [],
   function "set" "A" [variadic "items" (listOf A)] (setOf A) .set [],
   function "define" "" [unevaluated "name", unevaluated "body"] unit .define [],
   function "quote" "" [unevaluated "expr"] expr .quote []]

def typeNames : List (String × Term) :=
  [("Nothing", nothing), ("Unit", unit), ("Boolean", boolean), ("String", string), ("Int", int),
   ("BigInt", bigInt), ("Rational", rational), ("Double", double)]

def constants : List (String × Value) :=
  typeNames.map (fun entry => (entry.1, ⟨.type entry.2, type⟩)) ++
    [("true", ⟨.bool true, boolean⟩), ("false", ⟨.bool false, boolean⟩),
     ("pi", ⟨.real 3.141592653589793, double⟩)]

/-- A store whose only scope, number zero, has the standard names. -/
def store (report : Report) : Store :=
  constants.foldl (fun store entry => store.assign 0 entry.1 entry.2)
    (functions.foldl (fun store fn => store.addFunction 0 fn) (.empty report))

end TypedCalls.Standard
