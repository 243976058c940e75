import TypedCalls.Classes.Basic
import TypedCalls.Term.Printer

/-!
The text of the classes.
-/

set_option autoImplicit false

namespace TypedCalls.Classes

def classText (members : List TypeVar) (bound : Option Term) : String :=
  let names := "[" ++ Term.varNames members ++ "]"
  match bound with
  | none => names
  | some t => names ++ " -> " ++ t.render

/-- The text of a listing of classes. -/
def listingText (listing : List (List TypeVar × Option Term)) : String :=
  "EqMap(" ++ "; ".intercalate (listing.map fun c => classText c.1 c.2) ++ ")"

def text (s : Classes) : String × Classes :=
  let listed := s.classes
  (listingText listed.1, listed.2)

/-- The text of all classes, for those who have no use for the shorter paths. -/
def render (s : Classes) : String := s.text.1

end TypedCalls.Classes
