import TypedCalls.Term.Basic

/-!
The types that the evaluator and the standard instances name.
-/

set_option autoImplicit false

namespace TypedCalls.Standard

def nothing : Term := .named "Nothing"
def unit : Term := .named "Unit"
def boolean : Term := .named "Boolean"
def string : Term := .named "String"
def int : Term := .named "Int"
def bigInt : Term := .named "BigInt"
def rational : Term := .named "Rational"
def double : Term := .named "Double"

/-- The type of whole numbers in expressions, until something says what they become. -/
def litInt : Term := .named "LitInt"

def litString : Term := .named "LitString"

def expr : Term := .named "Expr"

def type : Term := .named "Type"

def listOf (element : Term) : Term := .con "List" [element]
def mapOf (key value : Term) : Term := .con "Map" [key, value]
def pairOf (first second : Term) : Term := .con "Pair" [first, second]
def setOf (element : Term) : Term := .con "Set" [element]
def union2Of (first second : Term) : Term := .con "Union2" [first, second]

/-- The goal of converting one type to another. -/
def upcast (source target : Term) : Term := .con "Upcast" [source, target]

def group (t : Term) : Term := .con "Group" [t]

def monoid (t : Term) : Term := .con "Monoid" [t]

end TypedCalls.Standard
