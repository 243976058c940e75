import TypedCalls.Term.Nullable

/-!
The text of a term. Arguments stand in square brackets, the nullable marker behind its type, and
an upcast between its two types.
-/

set_option autoImplicit false

namespace TypedCalls.Term

def operator? : String → Option String
  | "Upcast" => some "<:"
  | _ => none

def quantifierSign : Quantifier → String
  | .every => "∀"
  | .some => "∃"

def varNames (vars : List TypeVar) : String :=
  ", ".intercalate (vars.map TypeVar.name)

def kind : Term → String
  | .con .. => "Constructor"
  | .use _ => "Use"
  | .scheme .every _ _ => "Forall"
  | .scheme .some _ _ => "Exists"
  | .func .. => "Func"

def needsBrackets : Term → Bool
  | .scheme .. => true
  | .func .. => true
  | .con .. => false
  | .use _ => false

/-- The text of an applied constructor, from the texts of its arguments; `bracketed` says whether
the first argument is one that the nullable marker puts in brackets. -/
def appliedText (head : String) (bracketed : Bool) : List String → String
  | [] => head
  | [a] =>
    if head = nullableHead then (if bracketed then "(" ++ a ++ ")" else a) ++ "?"
    else head ++ "[" ++ a ++ "]"
  | [a, b] =>
    match operator? head with
    | some sign => "(" ++ a ++ " " ++ sign ++ " " ++ b ++ ")"
    | none => head ++ "[" ++ a ++ ", " ++ b ++ "]"
  | texts => head ++ "[" ++ ", ".intercalate texts ++ "]"

mutual

/-- The text of a term. -/
def render : Term → String
  | .con head args => appliedText head (args.head?.any needsBrackets) (renderAll args)
  | .use v => v.name
  | .scheme quantifier vars body =>
    quantifierSign quantifier ++ varNames vars ++ ". " ++ body.render
  | .func typeParams params result =>
    (if typeParams.isEmpty then "" else "[" ++ varNames typeParams ++ "]") ++
      "(" ++ ", ".intercalate (renderAll params) ++ ") -> " ++ result.render

def renderAll : List Term → List String
  | [] => []
  | t :: ts => t.render :: renderAll ts

end

def renderList (ts : List Term) : String := ", ".intercalate (ts.map render)

def renderOption : Option Term → String
  | none => "nothing"
  | some t => t.render

end TypedCalls.Term
