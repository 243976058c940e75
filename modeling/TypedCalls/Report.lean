/-!
A report of what happened, line by line, for those who asked to watch.
-/

set_option autoImplicit false

namespace TypedCalls

/-- Whether anybody watches, how far the next line is indented, and the lines so far. -/
structure Report where
  verbose : Bool
  indent : String := "  "
  depth : Nat := 0
  lines : Array String := #[]
  deriving Inhabited, Repr

namespace Report

def quiet : Report where
  verbose := false

def repeated (text : String) : Nat → String
  | 0 => ""
  | n + 1 => text ++ repeated text n

def tell (r : Report) (words : Unit → List String) : Report :=
  if r.verbose then
    { r with lines := r.lines.push (repeated r.indent r.depth ++ " ".intercalate (words ())) }
  else r

def nest (r : Report) : Report := { r with depth := r.depth + 1 }

def unnest (r : Report) : Report := { r with depth := r.depth - 1 }

def printed (r : Report) : List String := r.lines.toList.flatMap fun line => line.splitOn "\n"

def cleared (r : Report) : Report := { r with lines := #[] }

end Report

end TypedCalls
