import Mathlib.Tactic.Common
import TypedCalls.Standard.Types
import TypedCalls.Term.Nullable

/-!
Which types widen to which, and by how many conversions.

Named types are on a ladder. The empty type widens to everything, what widens to a type widens to its
nullable form too, and lists widen with their elements. What widens to one type forms a chain
(`Widens.comparable`). Widening a type further costs no less (`Widens.cost_mono`), and it costs the
same only where each step is a single conversion (`Widens.direct_of_tie`).
-/

set_option autoImplicit false

namespace TypedCalls

namespace Term

private theorem withoutNullable_nullable {t : Term} (bare : t.isKnownNullable = false) :
    t.nullable.withoutNullable = t := by
  induction t using Term.induct with
  | con head args =>
    have plain : head ≠ nullableHead := by simpa [isKnownNullable] using bare
    simp [nullable, withoutNullable, plain]
  | use v => simp [nullable, withoutNullable]
  | scheme quantifier vars body ih => rw [nullable, withoutNullable, ih bare]
  | func typeParams params result => simp [nullable, withoutNullable]

private theorem nullable_inj {a b : Term} (bareA : a.isKnownNullable = false)
    (bareB : b.isKnownNullable = false) (equal : a.nullable = b.nullable) : a = b := by
  rw [← withoutNullable_nullable bareA, equal, withoutNullable_nullable bareB]

theorem nullable_ne_of_bare {a b : Term} (bare : b.isKnownNullable = false) : a.nullable ≠ b := by
  rintro rfl
  rw [isKnownNullable_nullable] at bare
  cases bare

theorem nullable_ne_named {a : Term} (bare : a.isKnownNullable = false) (s : String) :
    a.nullable ≠ .named s := by
  intro equal
  have inside := withoutNullable_nullable bare
  rw [equal, named, withoutNullable] at inside
  have same : named s = a := by simpa using inside
  exact nullable_ne_of_bare (same ▸ bare) equal

end Term

namespace Standard

def ladder : List (String × String × Nat) :=
  [("LitInt", "BigInt", 1), ("LitInt", "Int", 1), ("LitInt", "Rational", 1),
   ("LitInt", "Double", 1), ("LitString", "String", 1), ("Int", "BigInt", 1),
   ("BigInt", "Rational", 1), ("Rational", "Double", 1), ("Int", "Rational", 3),
   ("BigInt", "Double", 3), ("Int", "Double", 5)]

/-- A type widens to another by so many conversions. -/
inductive Widens : Nat → Term → Term → Prop
  | same (a : Term) : Widens 1 a a
  | ofNothing {b : Term} : b ≠ nothing → Widens 1 nothing b
  | named {n : Nat} {s t : String} : (s, t, n) ∈ ladder → Widens n (.named s) (.named t)
  | mark {a : Term} : a ≠ nothing → a.isKnownNullable = false → Widens 1 a a.nullable
  | marked {n : Nat} {a b : Term} : a ≠ nothing → a ≠ b → b.isKnownNullable = false →
      Widens n a b → Widens (n + 2) a b.nullable
  | list {n : Nat} {a b : Term} : a ≠ b → Widens n a b → Widens (n + 1) (listOf a) (listOf b)

theorem listOf_inj {a b : Term} : listOf a = listOf b ↔ a = b := by simp [listOf]

theorem named_inj {s t : String} : Term.named s = Term.named t ↔ s = t := by simp [Term.named]

theorem listOf_ne_named (a : Term) (s : String) : listOf a ≠ .named s := by simp [listOf, Term.named]

/-! The ladder. -/

theorem ladder_ne : ∀ row ∈ ladder, row.1 ≠ "Nothing" ∧ row.2.1 ≠ "Nothing" ∧ row.1 ≠ row.2.1 := by
  decide

theorem ladder_bare : ∀ row ∈ ladder, row.1 ≠ Term.nullableHead ∧ row.2.1 ≠ Term.nullableHead := by
  decide

private theorem ladder_unique :
    ∀ r ∈ ladder, ∀ q ∈ ladder, r.1 = q.1 → r.2.1 = q.2.1 → r.2.2 = q.2.2 := by
  decide

private theorem ladder_trans : ∀ r ∈ ladder, ∀ q ∈ ladder, r.2.1 = q.1 →
    ∃ u ∈ ladder, u.1 = r.1 ∧ u.2.1 = q.2.1 ∧ u.2.2 ≤ r.2.2 + q.2.2 + 1 := by
  decide

private theorem ladder_comparable : ∀ r ∈ ladder, ∀ q ∈ ladder, r.2.1 = q.2.1 → r.1 = q.1 ∨
    (∃ u ∈ ladder, u.1 = r.1 ∧ u.2.1 = q.1) ∨ ∃ u ∈ ladder, u.1 = q.1 ∧ u.2.1 = r.1 := by
  decide

private theorem ladder_mono : ∀ r ∈ ladder, ∀ q ∈ ladder, r.2.1 = q.1 →
    ∀ u ∈ ladder, u.1 = r.1 → u.2.1 = q.2.1 → r.2.2 ≤ u.2.2 := by
  decide

private theorem ladder_tie : ∀ r ∈ ladder, ∀ q ∈ ladder, r.2.1 = q.1 → q.2.2 = 1 →
    ∀ u ∈ ladder, u.1 = r.1 → u.2.1 = q.2.1 → u.2.2 = r.2.2 → r.2.2 = 1 := by
  decide

/-! How far up a type is. -/

/-- The place of a named type on the ladder. -/
def rung (name : String) : Nat :=
  match name with
  | "Nothing" => 0
  | "String" => 2
  | "Int" => 2
  | "BigInt" => 3
  | "Rational" => 4
  | "Double" => 5
  | _ => 1

def rank : Term → Nat
  | .con head [] => rung head
  | .con _ [a] => rank a + 1
  | .scheme _ _ body => rank body + 1
  | _ => 1

private theorem ladder_rung : ∀ row ∈ ladder, rung row.1 < rung row.2.1 := by decide

private theorem rank_pos {t : Term} (proper : t ≠ nothing) : 0 < rank t := by
  unfold rank
  split
  · next head =>
    have other : head ≠ "Nothing" := fun equal => proper (equal ▸ rfl)
    unfold rung
    split
    · contradiction
    all_goals exact Nat.succ_pos _
  all_goals exact Nat.succ_pos _

private theorem rank_nullable {t : Term} (bare : t.isKnownNullable = false) :
    rank t.nullable = rank t + 1 := by
  induction t using Term.induct with
  | con head args =>
    have plain : head ≠ Term.nullableHead := by simpa [Term.isKnownNullable] using bare
    rw [Term.nullable, if_neg plain, rank]
  | use v => rfl
  | scheme quantifier vars body ih => rw [Term.nullable, rank, ih bare, rank]
  | func typeParams params result => rfl

namespace Widens

variable {i j k m n : Nat} {a b c x : Term} {s : String}

private theorem rank_lt (widens : Widens n a b) : a = b ∨ rank a < rank b := by
  induction widens with
  | same a => exact .inl rfl
  | ofNothing proper => exact .inr (rank_pos proper)
  | named row => exact .inr (ladder_rung _ row)
  | mark _ bare =>
    rw [rank_nullable bare]
    exact .inr (Nat.lt_succ_self _)
  | @marked n a b _ differ bare _ ih =>
    rw [rank_nullable bare]
    exact .inr (Nat.lt_succ_of_lt (ih.resolve_left differ))
  | @list n a b differ _ ih => exact .inr (Nat.succ_lt_succ (ih.resolve_left differ))

theorem antisymm (up : Widens m a b) (down : Widens n b a) : a = b := by
  rcases up.rank_lt with equal | less
  · exact equal
  · rcases down.rank_lt with equal | greater
    · exact equal.symm
    · omega

theorem pos (widens : Widens n a b) : 0 < n := by
  cases widens with
  | same => exact Nat.one_pos
  | ofNothing => exact Nat.one_pos
  | named row =>
    have positive : ∀ row ∈ ladder, 0 < row.2.2 := by decide
    exact positive _ row
  | mark => exact Nat.one_pos
  | marked => exact Nat.succ_pos _
  | list => exact Nat.succ_pos _

/-! What widens to a type of a given form. -/

theorem to_named (widens : Widens n a (.named s)) :
    a = .named s ∧ n = 1 ∨ a = nothing ∧ n = 1 ∨ ∃ t, a = .named t ∧ (t, s, n) ∈ ladder := by
  obtain ⟨c, target⟩ : ∃ c, c = Term.named s := ⟨_, rfl⟩
  rw [← target] at widens
  cases widens with
  | same => exact .inl ⟨target, rfl⟩
  | ofNothing => exact .inr (.inl ⟨rfl, rfl⟩)
  | @named _ t u row =>
    obtain rfl := named_inj.mp target
    exact .inr (.inr ⟨t, rfl, row⟩)
  | mark _ bare => exact absurd target (Term.nullable_ne_named bare s)
  | marked _ _ bare _ => exact absurd target (Term.nullable_ne_named bare s)
  | list => exact absurd target (listOf_ne_named _ s)

private theorem to_listOf (widens : Widens n a (listOf b)) :
    a = listOf b ∧ n = 1 ∨ a = nothing ∧ n = 1 ∨
      ∃ m y, a = listOf y ∧ n = m + 1 ∧ y ≠ b ∧ Widens m y b := by
  obtain ⟨c, target⟩ : ∃ c, c = listOf b := ⟨_, rfl⟩
  rw [← target] at widens
  cases widens with
  | same => exact .inl ⟨target, rfl⟩
  | ofNothing => exact .inr (.inl ⟨rfl, rfl⟩)
  | named => exact absurd target.symm (listOf_ne_named _ _)
  | mark => exact absurd target (Term.nullable_ne_of_bare rfl)
  | marked => exact absurd target (Term.nullable_ne_of_bare rfl)
  | @list m y z differ inside =>
    obtain rfl := listOf_inj.mp target
    exact .inr (.inr ⟨m, y, rfl, rfl, differ, inside⟩)

theorem to_nullable (bare : b.isKnownNullable = false) (widens : Widens n a b.nullable) :
    a = b.nullable ∧ n = 1 ∨ a = nothing ∧ n = 1 ∨ a = b ∧ n = 1 ∨
      ∃ m, n = m + 2 ∧ a ≠ b ∧ Widens m a b := by
  obtain ⟨c, target⟩ : ∃ c, c = b.nullable := ⟨_, rfl⟩
  rw [← target] at widens
  cases widens with
  | same => exact .inl ⟨target, rfl⟩
  | ofNothing => exact .inr (.inl ⟨rfl, rfl⟩)
  | @named _ s t row => exact absurd target.symm (Term.nullable_ne_named bare t)
  | mark _ bare' => exact .inr (.inr (.inl ⟨Term.nullable_inj bare' bare target, rfl⟩))
  | @marked m a x _ differ bare' inside =>
    obtain rfl := Term.nullable_inj bare' bare target
    exact .inr (.inr (.inr ⟨m, rfl, differ, inside⟩))
  | list => exact absurd target.symm (Term.nullable_ne_of_bare rfl)

theorem to_nothing (widens : Widens n a nothing) : a = nothing := by
  rcases widens.to_named with ⟨equal, -⟩ | ⟨equal, -⟩ | ⟨t, -, row⟩
  · exact equal
  · exact equal
  · exact absurd rfl (ladder_ne _ row).2.1

theorem to_int (widens : Widens n a int) : a = nothing ∨ a = litInt ∨ a = int := by
  rcases widens.to_named with ⟨equal, -⟩ | ⟨equal, -⟩ | ⟨t, equal, row⟩
  · exact .inr (.inr equal)
  · exact .inl equal
  · have only : ∀ row ∈ ladder, row.2.1 = "Int" → row.1 = "LitInt" := by decide
    exact .inr (.inl (equal.trans (congrArg Term.named (only _ row rfl))))

private theorem cost_self (widens : Widens n a a) : n = 1 := by
  obtain ⟨b, target⟩ : ∃ b, b = a := ⟨_, rfl⟩
  nth_rewrite 2 [← target] at widens
  cases widens with
  | same => rfl
  | ofNothing => rfl
  | named row => exact absurd (named_inj.mp target.symm) (ladder_ne _ row).2.2
  | mark => rfl
  | @marked m a x _ differ bare inside =>
    have less := inside.rank_lt.resolve_left differ
    rw [← target, rank_nullable bare] at less
    omega
  | list differ => exact absurd (listOf_inj.mp target.symm) differ

private theorem cost_nothing (widens : Widens n nothing b) : n = 1 := by
  obtain ⟨a, source⟩ : ∃ a, a = nothing := ⟨_, rfl⟩
  rw [← source] at widens
  cases widens with
  | same => rfl
  | ofNothing => rfl
  | named row => exact absurd (named_inj.mp source) (ladder_ne _ row).1
  | mark => rfl
  | marked proper => exact absurd source proper
  | list => exact absurd source (listOf_ne_named _ _)

theorem cost_unique (first : Widens m a b) (second : Widens n a b) : n = m := by
  induction first generalizing n with
  | same a => exact second.cost_self
  | ofNothing proper => exact second.cost_nothing
  | @named m s t row =>
    obtain ⟨source, -, differ⟩ := ladder_ne _ row
    rcases second.to_named with ⟨equal, -⟩ | ⟨equal, -⟩ | ⟨u, equal, other⟩
    · exact absurd (named_inj.mp equal) differ
    · exact absurd (named_inj.mp equal) source
    · obtain rfl := named_inj.mp equal
      exact ladder_unique _ other _ row rfl rfl
  | @mark a proper bare =>
    rcases second.to_nullable bare with ⟨equal, -⟩ | ⟨equal, -⟩ | ⟨-, one⟩ | ⟨_, -, differ, -⟩
    · exact absurd equal.symm (Term.nullable_ne_of_bare bare)
    · exact absurd equal proper
    · exact one
    · exact absurd rfl differ
  | @marked m a b proper differ bare inside ih =>
    rcases second.to_nullable bare with ⟨rfl, -⟩ | ⟨equal, -⟩ | ⟨equal, -⟩ | ⟨k, rfl, -, other⟩
    · have less := inside.rank_lt.resolve_left differ
      rw [rank_nullable bare] at less
      omega
    · exact absurd equal proper
    · exact absurd equal differ
    · rw [ih other]
  | @list m a b differ inside ih =>
    rcases second.to_listOf with ⟨equal, -⟩ | ⟨equal, -⟩ | ⟨k, y, equal, rfl, -, other⟩
    · exact absurd (listOf_inj.mp equal) differ
    · exact absurd equal (listOf_ne_named _ _)
    · obtain rfl := listOf_inj.mp equal
      rw [ih other]

/-! Widening twice. -/

private theorem nullable (bare : b.isKnownNullable = false) (widens : Widens n a b) :
    ∃ k ≤ n + 2, Widens k a b.nullable := by
  by_cases empty : a = nothing
  · subst empty
    exact ⟨1, by omega, .ofNothing (Term.nullable_ne_of_bare rfl)⟩
  · by_cases equal : a = b
    · subst equal
      exact ⟨1, by omega, .mark empty bare⟩
    · exact ⟨n + 2, Nat.le_refl _, .marked empty equal bare widens⟩

theorem listOf (widens : Widens n a b) :
    ∃ k ≤ n + 1, Widens k (Standard.listOf a) (Standard.listOf b) := by
  by_cases equal : a = b
  · subst equal
    exact ⟨1, by omega, .same _⟩
  · exact ⟨n + 1, Nat.le_refl _, .list equal widens⟩

theorem of_nothing (b : Term) : Widens 1 nothing b := by
  by_cases equal : b = nothing
  · subst equal
    exact .same _
  · exact .ofNothing equal

theorem to_own_nullable (a : Term) : Widens 1 a a.nullable := by
  by_cases empty : a = nothing
  · subst empty
    exact of_nothing _
  · cases known : a.isKnownNullable with
    | true =>
      rw [Term.nullable_of_isKnownNullable a known]
      exact .same a
    | false => exact .mark empty known

theorem trans (first : Widens i a b) (second : Widens j b c) :
    ∃ k ≤ i + j + 1, Widens k a c := by
  induction second generalizing i a with
  | same b => exact ⟨i, by omega, first⟩
  | ofNothing proper =>
    rw [first.to_nothing]
    exact ⟨1, by omega, .ofNothing proper⟩
  | @named j s t row =>
    rcases first.to_named with ⟨rfl, -⟩ | ⟨rfl, -⟩ | ⟨u, rfl, other⟩
    · exact ⟨j, by omega, .named row⟩
    · exact ⟨1, by omega, of_nothing _⟩
    · obtain ⟨⟨_, _, k⟩, both, rfl, rfl, le⟩ := ladder_trans _ other _ row rfl
      exact ⟨k, le, .named both⟩
  | mark _ bare => exact first.nullable bare
  | @marked j b x _ _ bare _ ih =>
    obtain ⟨k, le, up⟩ := ih first
    obtain ⟨l, bound, marked⟩ := up.nullable bare
    exact ⟨l, by omega, marked⟩
  | @list j y z differ inside ih =>
    rcases first.to_listOf with ⟨rfl, -⟩ | ⟨rfl, -⟩ | ⟨l, w, rfl, rfl, -, up⟩
    · exact ⟨j + 1, by omega, .list differ inside⟩
    · exact ⟨1, by omega, of_nothing _⟩
    · obtain ⟨k, le, up⟩ := ih up
      obtain ⟨l', bound, lists⟩ := up.listOf
      exact ⟨l', by omega, lists⟩

theorem comparable (first : Widens i a c) (second : Widens j b c) :
    (∃ k, Widens k a b) ∨ ∃ k, Widens k b a := by
  induction first generalizing j b with
  | same a => exact .inr ⟨j, second⟩
  | ofNothing => exact .inl ⟨1, of_nothing b⟩
  | @named i s t row =>
    rcases second.to_named with ⟨rfl, -⟩ | ⟨rfl, -⟩ | ⟨u, rfl, other⟩
    · exact .inl ⟨i, .named row⟩
    · exact .inr ⟨1, of_nothing _⟩
    · rcases ladder_comparable _ row _ other rfl with equal | ⟨⟨_, _, k⟩, up, rfl, rfl⟩ |
        ⟨⟨_, _, k⟩, down, rfl, rfl⟩
      · obtain rfl : s = u := equal
        exact .inl ⟨1, .same _⟩
      · exact .inl ⟨k, .named up⟩
      · exact .inr ⟨k, .named down⟩
  | @mark a proper bare =>
    rcases second.to_nullable bare with ⟨rfl, -⟩ | ⟨rfl, -⟩ | ⟨rfl, -⟩ | ⟨k, -, -, down⟩
    · exact .inl ⟨1, .mark proper bare⟩
    · exact .inr ⟨1, of_nothing _⟩
    · exact .inl ⟨1, .same _⟩
    · exact .inr ⟨k, down⟩
  | @marked i a x proper differ bare inside ih =>
    rcases second.to_nullable bare with ⟨rfl, -⟩ | ⟨rfl, -⟩ | ⟨rfl, -⟩ | ⟨k, -, -, other⟩
    · exact .inl ⟨i + 2, .marked proper differ bare inside⟩
    · exact .inr ⟨1, of_nothing _⟩
    · exact .inl ⟨i, inside⟩
    · exact ih other
  | @list i y z differ inside ih =>
    rcases second.to_listOf with ⟨rfl, -⟩ | ⟨rfl, -⟩ | ⟨k, w, rfl, -, -, other⟩
    · exact .inl ⟨i + 1, .list differ inside⟩
    · exact .inr ⟨1, of_nothing _⟩
    · rcases ih other with ⟨k, up⟩ | ⟨k, down⟩
      · obtain ⟨l, -, lists⟩ := up.listOf
        exact .inl ⟨l, lists⟩
      · obtain ⟨l, -, lists⟩ := down.listOf
        exact .inr ⟨l, lists⟩

private theorem not_back (first : Widens i a b) (second : Widens j b c) (differ : b ≠ c) :
    a ≠ c := by
  rintro rfl
  exact differ (second.antisymm first)

theorem cost_mono (first : Widens i a b) (second : Widens j b c) (whole : Widens k a c) : i ≤ k := by
  induction second generalizing i k a with
  | same b => exact Nat.le_of_eq (whole.cost_unique first)
  | ofNothing proper =>
    obtain rfl := first.to_nothing
    rw [first.cost_self]
    exact whole.pos
  | @named j s t row =>
    rcases first.to_named with ⟨rfl, rfl⟩ | ⟨rfl, rfl⟩ | ⟨u, rfl, other⟩
    · exact whole.pos
    · exact whole.pos
    · obtain ⟨source, -, -⟩ := ladder_ne _ other
      rcases whole.to_named with ⟨equal, -⟩ | ⟨equal, -⟩ | ⟨v, equal, both⟩
      · exact absurd equal (first.not_back (.named row) (named_inj.not.mpr (ladder_ne _ row).2.2))
      · exact absurd (named_inj.mp equal) source
      · obtain rfl := named_inj.mp equal
        exact ladder_mono _ other _ row rfl _ both rfl rfl
  | @mark b proper bare =>
    rcases whole.to_nullable bare with ⟨equal, -⟩ | ⟨rfl, -⟩ | ⟨rfl, -⟩ | ⟨l, rfl, -, up⟩
    · exact absurd equal (first.not_back (.mark proper bare) (Term.nullable_ne_of_bare bare).symm)
    · rw [first.cost_nothing]
      exact whole.pos
    · rw [first.cost_self]
      exact whole.pos
    · have same := up.cost_unique first
      omega
  | @marked j b x proper differ bare inside ih =>
    rcases whole.to_nullable bare with ⟨equal, -⟩ | ⟨rfl, -⟩ | ⟨rfl, -⟩ | ⟨l, rfl, -, up⟩
    · have further : b ≠ x.nullable := by
        rintro rfl
        have less := inside.rank_lt.resolve_left differ
        rw [rank_nullable bare] at less
        omega
      exact absurd equal (first.not_back (.marked proper differ bare inside) further)
    · rw [first.cost_nothing]
      exact whole.pos
    · exact absurd (inside.antisymm first) differ
    · have le := ih first up
      omega
  | @list j y z differ inside ih =>
    rcases first.to_listOf with ⟨rfl, rfl⟩ | ⟨rfl, rfl⟩ | ⟨l, w, rfl, rfl, -, up⟩
    · exact whole.pos
    · exact whole.pos
    · rcases whole.to_listOf with ⟨equal, -⟩ | ⟨equal, -⟩ | ⟨l', w', equal, rfl, -, up'⟩
      · obtain rfl := listOf_inj.mp equal
        exact absurd (inside.antisymm up) differ
      · exact absurd equal (listOf_ne_named _ _)
      · obtain rfl := listOf_inj.mp equal
        exact Nat.succ_le_succ (ih up up')

/-- Where a type is as far from a second as from a third, to which the second widens at once, it widens
to both at once. -/
theorem direct_of_tie (first : Widens i a b) (second : Widens 1 b c) (whole : Widens i a c)
    (differ : b ≠ c) : i = 1 := by
  obtain ⟨one, step⟩ : ∃ one, one = 1 := ⟨_, rfl⟩
  rw [← step] at second
  cases second with
  | same => exact absurd rfl differ
  | ofNothing =>
    obtain rfl := first.to_nothing
    exact first.cost_self
  | @named _ s t row =>
    rcases first.to_named with ⟨-, direct⟩ | ⟨-, direct⟩ | ⟨u, rfl, other⟩
    · exact direct
    · exact direct
    · rcases whole.to_named with ⟨-, direct⟩ | ⟨-, direct⟩ | ⟨v, equal, both⟩
      · exact direct
      · exact direct
      · obtain rfl := named_inj.mp equal
        exact ladder_tie _ other _ row rfl step _ both rfl rfl rfl
  | @mark _ proper bare =>
    rcases whole.to_nullable bare with ⟨-, direct⟩ | ⟨-, direct⟩ | ⟨-, direct⟩ | ⟨l, rfl, -, up⟩
    · exact direct
    · exact direct
    · exact direct
    · have same := up.cost_unique first
      omega
  | marked => omega
  | list _ inside =>
    have positive := inside.pos
    omega

end Widens

end Standard

end TypedCalls
