import TypedCalls.Value.Fault
import TypedCalls.Value.Key
import TypedCalls.Value.Printer

/-!
The parts of payloads, and sets and maps of payloads.

Lists and tuples have items, text has its characters, a set its elements and a map its keys. A tagged
value is a tuple of its tag and its value, and code is a tuple of the one thing that it holds.
-/

set_option autoImplicit false

namespace TypedCalls

def Expr.held : Expr → Payload
  | .atom name => .text name
  | .integer n => .int n
  | .decimal x => .real x
  | .rational q => .rat q
  | .string s => .text s
  | .seq items => .tuple (items.map .code)

namespace Payload

def number? : Payload → Option Number
  | .bool b => some (.int (if b then 1 else 0))
  | .int n => some (.int n)
  | .rat q => some (.rat q)
  | .real x => some (.real x)
  | _ => .none

def items? : Payload → Option (List Payload)
  | .tuple items => some items
  | .union index v => some [.int index, v]
  | .code e => some [e.held]
  | _ => .none

def parts? : Payload → Option (List Payload)
  | .list items => some items
  | .text s => some (s.toList.map fun c => .text (String.singleton c))
  | .map entries => some (entries.map Prod.fst)
  | .set elements => some elements
  | p => p.items?

def parts (p : Payload) : Except ValueFault (List Payload) :=
  match p.parts? with
  | some parts => .ok parts
  | Option.none => .error (.indivisible p.kind)

mutual

/-- The key of a payload. Lists, maps and sets have none, nor has what holds one of them; the first
such part is named. -/
def key : Payload → Except ValueFault Key
  | .none => .ok .nothing
  | .bool b => .ok (.number (.int (if b then 1 else 0)))
  | .int n => .ok (.number (.int n))
  | .rat q => .ok (.number (.rat q))
  | .real x => .ok (.number (.real x))
  | .text s => .ok (.text s)
  | .tuple items => (keys items).map .tuple
  | .union index v => v.key.map fun k => .tuple [.number (.int index), k]
  | .type t => .ok (.type t)
  | .code e => .ok e.key
  | .function fn => .ok (.function fn.id)
  | .list items => .error (.unhashable (Payload.list items).kind)
  | .map entries => .error (.unhashable (Payload.map entries).kind)
  | .set elements => .error (.unhashable (Payload.set elements).kind)

def keys : List Payload → Except ValueFault (List Key)
  | [] => .ok []
  | p :: ps => do return (← p.key) :: (← keys ps)

end

def addElement (elements : List (Key × Payload)) (element : Key × Payload) :
    List (Key × Payload) :=
  if elements.any fun e => e.1.same element.1 then elements else elements ++ [element]

def ofElements (ps : List Payload) : Except ValueFault Payload := do
  let keyed ← ps.mapM fun p => return (← p.key, p)
  return .set ((keyed.foldl addElement []).map Prod.snd)

/-- Add an entry with the key it goes by; of the entries of one key the first stays, with the last
value. -/
def addEntry (entries : List (Key × Payload × Payload)) (entry : Key × Payload × Payload) :
    List (Key × Payload × Payload) :=
  match entries with
  | [] => [entry]
  | (k, e) :: rest =>
    if k.same entry.1 then (k, e.1, entry.2.2) :: rest else (k, e) :: addEntry rest entry

def ofKeyed (entries : List (Key × Payload × Payload)) : Payload :=
  .map ((entries.foldl addEntry []).map Prod.snd)

def ofEntries (entries : List (Payload × Payload)) : Except ValueFault Payload := do
  let keyed ← entries.mapM fun entry => return (← entry.1.key, entry)
  return ofKeyed keyed

def entryAt (position : Nat) (p : Payload) : Except ValueFault (Key × Payload × Payload) :=
  match p.parts? with
  | some [k, v] => return (← k.key, k, v)
  | some parts => .error (.entrySize position parts.length)
  | Option.none => .error (.noEntry position)

def ofPairs (ps : List Payload) : Except ValueFault Payload :=
  (ps.zipIdx.mapM fun entry => entryAt entry.2 entry.1).map ofKeyed

end Payload

end TypedCalls
