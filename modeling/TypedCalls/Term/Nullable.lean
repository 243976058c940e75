import TypedCalls.Term.Basic

/-!
The nullable marker: a one-argument constructor that is never written twice over the same type.
A quantifier does not hide it.
-/

set_option autoImplicit false

namespace TypedCalls.Term

def nullableHead : String := "?"

def isKnownNullable : Term → Bool
  | .con head _ => head == nullableHead
  | .scheme _ _ body => body.isKnownNullable
  | .use _ => false
  | .func .. => false

def withoutNullable : Term → Term
  | .con head args =>
    if head = nullableHead then args.headD (.con head args) else .con head args
  | .scheme quantifier vars body => .scheme quantifier vars body.withoutNullable
  | .use v => .use v
  | .func typeParams params result => .func typeParams params result

/-- Mark a term as nullable, inside its quantifiers, unless that would say the same thing twice. -/
def nullable : Term → Term
  | .scheme quantifier vars body => .scheme quantifier vars body.nullable
  | .con head args =>
    if head = nullableHead then .con head args else .con nullableHead [.con head args]
  | .use v => .con nullableHead [.use v]
  | .func typeParams params result => .con nullableHead [.func typeParams params result]

def applied (head : String) (args : List Term) : Term :=
  match args with
  | [a] => if head = nullableHead then a.nullable else .con head [a]
  | _ => .con head args

def WellFormedHere : Term → Prop
  | .con head args =>
    head = nullableHead → ∃ a, args = [a] ∧ a.isKnownNullable = false
  | .use _ => True
  | .scheme _ vars _ => vars ≠ [] ∧ vars.Nodup
  | .func typeParams _ _ => typeParams.Nodup

mutual

/-- Binders bind distinct names, quantifiers bind at least one, and the nullable marker stands
over exactly one type that is not yet nullable. -/
def WellFormed : Term → Prop
  | .con head args => WellFormedHere (.con head args) ∧ WellFormedAll args
  | .use _ => True
  | .scheme quantifier vars body =>
    WellFormedHere (.scheme quantifier vars body) ∧ body.WellFormed
  | .func typeParams params result =>
    WellFormedHere (.func typeParams params result) ∧ WellFormedAll params ∧ result.WellFormed

def WellFormedAll : List Term → Prop
  | [] => True
  | t :: ts => t.WellFormed ∧ WellFormedAll ts

end

theorem wellFormedAll_iff {ts : List Term} : WellFormedAll ts ↔ ∀ t ∈ ts, t.WellFormed := by
  induction ts with
  | nil => simp [WellFormedAll]
  | cons t ts ih => simp [WellFormedAll, ih]

theorem nullable_of_isKnownNullable (t : Term) (h : t.isKnownNullable = true) :
    t.nullable = t := by
  induction t using Term.induct with
  | con head args => simp_all [isKnownNullable, nullable]
  | use v => simp [isKnownNullable] at h
  | scheme quantifier vars body ih => simp [nullable, ih h]
  | func typeParams params result => simp [isKnownNullable] at h

theorem isKnownNullable_nullable (t : Term) : t.nullable.isKnownNullable = true := by
  induction t using Term.induct with
  | con head args =>
    by_cases h : head = nullableHead <;> simp [nullable, isKnownNullable, h]
  | use v => simp [nullable, isKnownNullable]
  | scheme quantifier vars body ih => exact ih
  | func typeParams params result => simp [nullable, isKnownNullable]

end TypedCalls.Term
