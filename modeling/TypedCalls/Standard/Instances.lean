import TypedCalls.Eval.Coercion
import TypedCalls.Term.Nullable

/-!
The standard instances: conversions between the standard types, and sums of numbers.
-/

set_option autoImplicit false

namespace TypedCalls.Standard

def typeParams (letters : String) : List TypeVar :=
  letters.toList.map fun c => ⟨String.singleton c⟩

def A : Term := .use ⟨"A"⟩
def B : Term := .use ⟨"B"⟩
def C : Term := .use ⟨"C"⟩
def R : Term := .use ⟨"R"⟩

def conversion (params : String) (source target : Term) (cast : Cast) : Instance Built where
  rule := ⟨typeParams params, [], upcast source target⟩
  build _ := .ok (.cast cast)

def lifted (params : String) (source target : Term) (lift : Cast → Cast) : Instance Built where
  rule := ⟨typeParams params, [upcast A B], upcast source target⟩
  build := .ofParts fun parts => .ok (.cast (lift (parts.headD default).toCast))

def composition : Instance Built where
  rule := ⟨typeParams "ABC", [upcast A B, upcast B C], upcast A C⟩
  build := .ofParts fun parts =>
    .ok (.cast (.compose (parts.headD default).toCast (parts.getD 1 default).toCast))

def groupOf (t : Term) (zero : Payload) : Instance Built where
  rule := ⟨[], [], group t⟩
  build _ := .ok (.group zero)

def groupMonoid : Instance Built where
  rule := ⟨typeParams "A", [group A], monoid A⟩
  build := .ofParts fun parts => (parts.headD default).toMonoid

/-- Conversions into and between types with two alternatives. With them any two types have a common
one. -/
def unionInstances : Instances :=
  [conversion "AB" A (union2Of A B) (.inject 0),
   conversion "AB" A (union2Of B A) (.inject 1),
   lifted "ABC" (union2Of A C) (union2Of B C) (.within 0),
   lifted "ABC" (union2Of C A) (union2Of C B) (.within 1)]

/-- The standard instances, with those for types with two alternatives if `unions`. -/
def instances (unions : Bool) : Instances :=
  [conversion "A" A A .identity,
   conversion "A" nothing A .identity,
   conversion "A" A A.nullable .identity,
   conversion "" litInt bigInt .toInteger,
   conversion "" litInt int .toInt,
   conversion "" litInt rational .toRational,
   conversion "" litInt double .toReal,
   conversion "" litString string .toText,
   conversion "" int bigInt .toInteger,
   conversion "" bigInt rational .toRational,
   conversion "" rational double .toReal,
   lifted "AB" (listOf A) (listOf B) .each,
   composition,
   groupOf bigInt (.int 0),
   groupOf rational (.rat 0),
   groupOf double (.real 0.0),
   groupMonoid] ++ if unions then unionInstances else []

end TypedCalls.Standard
