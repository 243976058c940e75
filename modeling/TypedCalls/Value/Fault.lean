import TypedCalls.Text.Quoted

/-!
What goes wrong when payloads are converted, added up, taken apart or put into sets and maps, and
when evidence is used for what it is not. Payloads need not fit their types, so all of these can
happen in a program that agrees with its types.
-/

set_option autoImplicit false

namespace TypedCalls

/-- The three kinds of numbers. -/
inductive NumberKind where
  | integer
  | rational
  | real
  deriving DecidableEq, Repr

/-- What goes wrong with payloads. Kinds are named as in messages. -/
inductive ValueFault where
  | unhashable (kind : String)
  | integerTooLarge
  | quotientTooLarge
  | literalTooLarge (n : Int)
  | infinite (wanted : NumberKind)
  | notANumber (wanted : NumberKind)
  | unreadable (wanted : NumberKind) (text : String)
  | unconvertible (wanted : NumberKind) (kind : String)
  | zeroDenominator (numerator : Int)
  | incomparable (kind : String)
  | noSum (left right : String)
  | noJoin (left right : String)
  | noNegative (kind : String)
  | indivisible (kind : String)
  | noEntry (position : Nat)
  | entrySize (position size : Nat)
  | notCallable (kind : String)
  | noMember (owner member : String)
  | noEvidence
  | noArgument (name : String)
  deriving DecidableEq, Repr

namespace ValueFault

def objectWithout (kind member : String) : ValueFault := .noMember ("'" ++ kind ++ "' object") member

def quotedWithin (n : Nat) (text : String) : String :=
  String.ofList ((Text.quoted text).toList.take n)

def unreadableMessage (text : String) : NumberKind → String
  | .integer => "invalid literal for int() with base 10: " ++ quotedWithin 200 text
  | .rational => "Invalid literal for Fraction: " ++ Text.quoted text
  | .real => "could not convert string to float: " ++ Text.quoted text

def unconvertibleMessage (kind : String) : NumberKind → String
  | .integer =>
    "int() argument must be a string, a bytes-like object or a real number, not '" ++ kind ++ "'"
  | .rational => "argument should be a string or a Rational instance"
  | .real => "float() argument must be a string or a real number, not '" ++ kind ++ "'"

/-- What is said when something goes wrong with payloads. -/
def message : ValueFault → String
  | .unhashable kind => "unhashable type: '" ++ kind ++ "'"
  | .integerTooLarge => "int too large to convert to float"
  | .quotientTooLarge => "integer division result too large for a float"
  | .literalTooLarge n => "Integer literal " ++ toString n ++ " is too large for Int."
  | .infinite .integer => "cannot convert float infinity to integer"
  | .infinite _ => "cannot convert Infinity to integer ratio"
  | .notANumber .integer => "cannot convert float NaN to integer"
  | .notANumber _ => "cannot convert NaN to integer ratio"
  | .unreadable wanted text => unreadableMessage text wanted
  | .unconvertible wanted kind => unconvertibleMessage kind wanted
  | .zeroDenominator n => "Fraction(" ++ toString n ++ ", 0)"
  | .incomparable kind => "'<=' not supported between instances of 'int' and '" ++ kind ++ "'"
  | .noSum left right =>
    "unsupported operand type(s) for +: '" ++ left ++ "' and '" ++ right ++ "'"
  | .noJoin left right =>
    "can only concatenate " ++ left ++ " (not \"" ++ right ++ "\") to " ++ left
  | .noNegative kind => "bad operand type for unary -: '" ++ kind ++ "'"
  | .indivisible kind => "'" ++ kind ++ "' object is not iterable"
  | .noEntry position =>
    "cannot convert dictionary update sequence element #" ++ toString position ++
      " to a sequence"
  | .entrySize position size =>
    "dictionary update sequence element #" ++ toString position ++ " has length " ++
      toString size ++ "; 2 is required"
  | .notCallable kind => "'" ++ kind ++ "' object is not callable"
  | .noMember owner member => owner ++ " has no attribute '" ++ member ++ "'"
  | .noEvidence => "list index out of range"
  | .noArgument name => Text.quoted name

end ValueFault

end TypedCalls
