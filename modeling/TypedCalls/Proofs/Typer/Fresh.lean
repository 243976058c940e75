import Mathlib.Tactic.Common
import TypedCalls.Proofs.Term.Filling
import TypedCalls.Typer.Basic

/-!
Fresh names.

Made-up variables are told apart by their numbers alone, and a typer numbers them upwards; so the
variables that open a quantifier are new to everything numbered before, and each opened variable has
its own (`opening_inj`). Substituting them is a single filling (`subst_freshFor`).
-/

set_option autoImplicit false

namespace TypedCalls

namespace TypeVar

private theorem toList_name_numbered (family : Family) (n : Nat) :
    (numbered family n).name.toList = family.mark :: Nat.toDigits 10 n := by
  simp [numbered, Nat.repr]

theorem numbered_inj {family other : Family} {n m : Nat}
    (equal : numbered family n = numbered other m) : n = m := by
  have names := congrArg (fun v => v.name.toList) equal
  simp only [toList_name_numbered] at names
  injection names with _ digits
  calc
    n = Nat.ofDigitChars 10 (Nat.toDigits 10 n) 0 := Nat.ofDigitChars_ten_toDigits.symm
    _ = Nat.ofDigitChars 10 (Nat.toDigits 10 m) 0 := by rw [digits]
    _ = m := Nat.ofDigitChars_ten_toDigits

/-- The variable has the form of a made-up one. -/
def MadeUp (v : TypeVar) : Prop := ∃ family n, v = numbered family n

theorem not_madeUp_of_belongsTo {v : TypeVar} (outside : ∀ family, v.belongsTo family = false) :
    ¬MadeUp v := by
  rintro ⟨family, n, rfl⟩
  have first := outside family
  rw [belongsTo, toList_name_numbered] at first
  simp at first

def Older (c : Nat) (v : TypeVar) : Prop := ∀ family n, v = numbered family n → n ≤ c

theorem Older.mono {c d : Nat} {v : TypeVar} (older : Older c v) (le : c ≤ d) : Older d v :=
  fun family n equal => Nat.le_trans (older family n equal) le

theorem older_of_not_madeUp {v : TypeVar} (given : ¬MadeUp v) (c : Nat) : Older c v :=
  fun family n equal => absurd ⟨family, n, equal⟩ given

theorem older_numbered {c n : Nat} (family : Family) (le : n ≤ c) :
    Older c (numbered family n) := by
  intro other m equal
  have same := numbered_inj equal
  omega

theorem not_older_numbered {c n : Nat} (family : Family) (lt : c < n) :
    ¬Older c (numbered family n) := by
  intro older
  have le := older family n rfl
  omega

end TypeVar

namespace Typer

theorem freshFor_snd (typer : Typer) (family : Family) (vars : List TypeVar) :
    (typer.freshFor family vars).2 = { typer with counter := typer.counter + vars.length } := by
  induction vars generalizing typer with
  | nil => rfl
  | cons v vars ih =>
    rw [freshFor, ih, freshVar]
    simp [Nat.add_comm, Nat.add_left_comm]

theorem freshFor_twice_snd (typer : Typer) (family family' : Family) (vs ws : List TypeVar) :
    ((typer.freshFor family vs).2.freshFor family' ws).2 =
      { typer with counter := typer.counter + vs.length + ws.length } := by
  rw [freshFor_snd, freshFor_snd]

private theorem length_freshFor (typer : Typer) (family : Family) (vars : List TypeVar) :
    (typer.freshFor family vars).1.length = vars.length := by
  induction vars generalizing typer with
  | nil => rfl
  | cons v vars ih => rw [freshFor, List.length_cons, ih, List.length_cons]

theorem get?_freshFor_of_not_mem (typer : Typer) (family : Family) {vars : List TypeVar}
    {v : TypeVar} (other : v ∉ vars) :
    Term.Mapping.get? (typer.freshFor family vars).1 v = none := by
  induction vars generalizing typer with
  | nil => rfl
  | cons w vars ih =>
    obtain ⟨differs, rest⟩ := not_or.mp (mt List.mem_cons.mpr other)
    rw [freshFor, Term.Mapping.get?, ih _ rest, if_neg differs]

theorem get?_freshFor_of_mem (typer : Typer) (family : Family) {vars : List TypeVar}
    {v : TypeVar} (member : v ∈ vars) :
    ∃ n, typer.counter < n ∧ n ≤ typer.counter + vars.length ∧
      Term.Mapping.get? (typer.freshFor family vars).1 v = some (.use (.numbered family n)) := by
  induction vars generalizing typer with
  | nil => cases member
  | cons w vars ih =>
    rw [freshFor, Term.Mapping.get?, List.length_cons]
    by_cases later : v ∈ vars
    · obtain ⟨n, lower, upper, found⟩ := ih (typer.freshVar family).2 later
      have counter : (typer.freshVar family).2.counter = typer.counter + 1 := rfl
      refine ⟨n, by omega, by omega, ?_⟩
      rw [found]
    · have here : v = w := (List.mem_cons.mp member).resolve_right later
      refine ⟨typer.counter + 1, by omega, by omega, ?_⟩
      rw [get?_freshFor_of_not_mem _ _ later]
      simp [here, freshVar]

def opening (typer : Typer) (family : Family) (vars : List TypeVar) (v : TypeVar) : Term :=
  (Term.Mapping.get? (typer.freshFor family vars).1 v).getD (.use v)

theorem opening_of_not_mem (typer : Typer) (family : Family) {vars : List TypeVar}
    {v : TypeVar} (other : v ∉ vars) : typer.opening family vars v = .use v := by
  rw [opening, get?_freshFor_of_not_mem typer family other, Option.getD_none]

theorem opening_of_mem (typer : Typer) (family : Family) {vars : List TypeVar} {v : TypeVar}
    (member : v ∈ vars) : ∃ n, typer.counter < n ∧ n ≤ typer.counter + vars.length ∧
      typer.opening family vars v = .use (.numbered family n) := by
  obtain ⟨n, lower, upper, found⟩ := get?_freshFor_of_mem typer family member
  exact ⟨n, lower, upper, by rw [opening, found, Option.getD_some]⟩

private theorem opening_cons_of_mem (typer : Typer) (family : Family) {vars : List TypeVar}
    (x : TypeVar) {v : TypeVar} (member : v ∈ vars) :
    typer.opening family (x :: vars) v = (typer.freshVar family).2.opening family vars v := by
  obtain ⟨n, -, -, found⟩ := get?_freshFor_of_mem (typer.freshVar family).2 family member
  rw [opening, opening, freshFor, Term.Mapping.get?, found]

private theorem opening_cons_self (typer : Typer) (family : Family) {vars : List TypeVar}
    {v : TypeVar} (missing : v ∉ vars) :
    typer.opening family (v :: vars) v = .use (.numbered family (typer.counter + 1)) := by
  rw [opening, freshFor, Term.Mapping.get?, get?_freshFor_of_not_mem _ _ missing]
  simp [freshVar]

theorem opening_inj (typer : Typer) (family : Family) {vars : List TypeVar} {v w : TypeVar}
    (memberV : v ∈ vars) (memberW : w ∈ vars)
    (equal : typer.opening family vars v = typer.opening family vars w) : v = w := by
  induction vars generalizing typer with
  | nil => cases memberV
  | cons x vars ih =>
    have apart {u : TypeVar} (member : u ∈ vars) (missing : x ∉ vars)
        (same : typer.opening family (x :: vars) u = typer.opening family (x :: vars) x) :
        False := by
      obtain ⟨n, lower, -, found⟩ := opening_of_mem (typer.freshVar family).2 family member
      rw [opening_cons_of_mem _ _ _ member, opening_cons_self _ _ missing, found] at same
      injection same with names
      have number := TypeVar.numbered_inj names
      have counter : (typer.freshVar family).2.counter = typer.counter + 1 := rfl
      omega
    by_cases inV : v ∈ vars
    · by_cases inW : w ∈ vars
      · rw [opening_cons_of_mem _ _ _ inV, opening_cons_of_mem _ _ _ inW] at equal
        exact ih _ inV inW equal
      · obtain rfl := (List.mem_cons.mp memberW).resolve_right inW
        exact (apart inV inW equal).elim
    · obtain rfl := (List.mem_cons.mp memberV).resolve_right inV
      by_cases inW : w ∈ vars
      · exact (apart inW inV equal.symm).elim
      · exact ((List.mem_cons.mp memberW).resolve_right inW).symm

theorem opening_of_getElem? (typer : Typer) (family : Family) {vars : List TypeVar}
    (distinct : vars.Nodup) {i : Nat} {v : TypeVar} (place : vars[i]? = some v) :
    typer.opening family vars v = .use (.numbered family (typer.counter + 1 + i)) := by
  induction vars generalizing typer i with
  | nil => cases place
  | cons x vars ih =>
    obtain ⟨missing, distinct⟩ := List.nodup_cons.mp distinct
    cases i with
    | zero =>
      cases place
      exact typer.opening_cons_self family missing
    | succ i =>
      have rest : vars[i]? = some v := place
      have counter : (typer.freshVar family).2.counter = typer.counter + 1 := rfl
      rw [typer.opening_cons_of_mem family x (List.mem_of_getElem? rest), ih _ distinct rest,
        counter, Nat.add_right_comm _ 1 i, Nat.add_assoc]

/-- Fresh variables are not replaced in turn, as long as the given ones are not made up. -/
theorem subst_freshFor (typer : Typer) (family : Family) {vars : List TypeVar}
    (given : ∀ v ∈ vars, ¬v.MadeUp) (t : Term) :
    t.subst (typer.freshFor family vars).1 = t.fill (typer.opening family vars) := by
  rw [Term.subst, Term.substWithin, Term.replace_nil_eq_fill]
  apply Term.fill_congr
  intro v _
  rw [length_freshFor, opening]
  have unread (n : Nat) {w : TypeVar} (other : w ∉ vars) :
      Term.standsFor (Term.Mapping.get? (typer.freshFor family vars).1) n w = none := by
    cases n with
    | zero => rfl
    | succ n => rw [Term.standsFor, get?_freshFor_of_not_mem typer family other, Option.map_none]
  by_cases member : v ∈ vars
  · obtain ⟨k, -, -, found⟩ := get?_freshFor_of_mem typer family member
    have new : TypeVar.numbered family k ∉ vars := fun inside => given _ inside ⟨family, k, rfl⟩
    obtain ⟨n, size⟩ : ∃ n, vars.length = n + 1 :=
      ⟨vars.length - 1, by have := List.length_pos_of_mem member; omega⟩
    rw [size, Term.standsFor, found, Option.map_some, Option.getD_some, Option.getD_some,
      Term.replace_nil_eq_fill, Term.fill_use, unread n new, Option.getD_none]
  · rw [unread _ member, get?_freshFor_of_not_mem typer family member]

end Typer

end TypedCalls
