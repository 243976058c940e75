import Mathlib.Data.Finset.Card
import Mathlib.Logic.Relation
import TypedCalls.Classes.Reading
import TypedCalls.Proofs.Classes.Laws

/-!
Classes in which no class is part of itself.

A ranking gives each class a number that is greater than those of all classes its bound term
mentions. Where there is one, there is one bounded by the number of classes (`Acyclic.bounded`), so
the walk of the occurs check is long enough to list all that a term leads to (`isClosure_reachable`).
The check is exact for any such listing (`any_same_iff_of_isClosure`), and so for this one
(`occurs_iff`). Binding a variable and joining two variables keep classes acyclic when the occurs
check allows them.
-/

set_option autoImplicit false

namespace TypedCalls.Classes

/-- One number for each class, greater than those of the classes that its bound term mentions. -/
structure Ranked (s : Classes) (rank : TypeVar → Nat) : Prop where
  same : ∀ {x y}, s.same x y = true → rank x = rank y
  falls : ∀ {x t}, s.bound? x = some t → ∀ y ∈ t.freeVars, rank y < rank x

def Acyclic (s : Classes) : Prop := ∃ rank, Ranked s rank

/-- What the first variable stands for mentions the class of the second, directly or through
bindings; a variable leads to its own class. -/
inductive LeadsTo (s : Classes) : TypeVar → TypeVar → Prop
  | same {x y : TypeVar} : s.same x y = true → LeadsTo s x y
  | through {x y z : TypeVar} {t : Term} :
      s.bound? x = some t → y ∈ t.freeVars → LeadsTo s y z → LeadsTo s x z

private theorem LeadsTo.congr_left {s : Classes} {x y z : TypeVar} (equal : s.same x y = true)
    (leads : LeadsTo s y z) : LeadsTo s x z := by
  cases leads with
  | same h => exact .same (same_trans equal h)
  | through bound free rest => exact .through ((bound?_of_same equal).trans bound) free rest

private theorem LeadsTo.iff_of_same {s : Classes} {x y z : TypeVar} (equal : s.same x y = true) :
    LeadsTo s x z ↔ LeadsTo s y z :=
  ⟨.congr_left (same_symm equal), .congr_left equal⟩

theorem LeadsTo.same_of_unbound {s : Classes} {x y : TypeVar} (unbound : s.bound? x = none)
    (leads : LeadsTo s x y) : s.same x y = true := by
  cases leads with
  | same here => exact here
  | through bound _ _ =>
    rw [unbound] at bound
    cases bound

theorem acyclic_empty : Acyclic empty := by
  refine ⟨fun _ => 0, fun _ => rfl, fun bound => ?_⟩
  simp [bound?, classOf?, entry?, empty] at bound

private theorem exists_above (rank : TypeVar → Nat) (vars : List TypeVar) :
    ∃ top, ∀ y ∈ vars, rank y < top := by
  induction vars with
  | nil => exact ⟨0, by simp⟩
  | cons v vars ih =>
    obtain ⟨top, below⟩ := ih
    refine ⟨max (rank v + 1) top, fun y member => ?_⟩
    rcases List.mem_cons.mp member with rfl | rest
    · omega
    · have := below y rest
      omega

theorem exists_classOf?_of_bound? {s : Classes} {x : TypeVar} {t : Term}
    (bound : s.bound? x = some t) : ∃ c, s.classOf? x = some c := by
  rw [bound?_eq_bind] at bound
  obtain ⟨c, found, -⟩ := Option.bind_eq_some_iff.mp bound
  exact ⟨c, found⟩

section Counting

open Classical in
private noncomputable def boundBelow (s : Classes) (rank : TypeVar → Nat) (x : TypeVar) :
    Finset Nat :=
  (Finset.range s.nodes.size).filter fun c =>
    ∃ y, s.classOf? y = some c ∧ (s.bound? y).isSome ∧ rank y < rank x

variable {s : Classes} {rank : TypeVar → Nat}

private theorem mem_boundBelow {x : TypeVar} {c : Nat} :
    c ∈ boundBelow s rank x ↔ c < s.nodes.size ∧
      ∃ y, s.classOf? y = some c ∧ (s.bound? y).isSome ∧ rank y < rank x := by
  simp only [boundBelow, Finset.mem_filter, Finset.mem_range]

private theorem boundBelow_of_same (ranked : Ranked s rank) {x y : TypeVar}
    (equal : s.same x y = true) : boundBelow s rank x = boundBelow s rank y := by
  ext c
  rw [mem_boundBelow, mem_boundBelow, ranked.same equal]

private theorem not_mem_boundBelow_self (ranked : Ranked s rank) {x : TypeVar} {c : Nat}
    (found : s.classOf? x = some c) : c ∉ boundBelow s rank x := by
  intro member
  obtain ⟨-, y, foundY, -, lower⟩ := mem_boundBelow.mp member
  have equal : s.same y x = true := (same_iff s y x).mpr (.inr ⟨c, foundY, found⟩)
  rw [ranked.same equal] at lower
  omega

private theorem card_boundBelow_lt (tidy : Tidy s) (ranked : Ranked s rank) {x y : TypeVar}
    {t : Term} (bound : s.bound? y = some t) (lower : rank y < rank x) :
    (boundBelow s rank y).card < (boundBelow s rank x).card := by
  obtain ⟨c, found⟩ := exists_classOf?_of_bound? bound
  refine Finset.card_lt_card ((Finset.ssubset_iff_of_subset fun d member => ?_).mpr
    ⟨c, ?_, not_mem_boundBelow_self ranked found⟩)
  · obtain ⟨inside, z, foundZ, boundZ, lowerZ⟩ := mem_boundBelow.mp member
    exact mem_boundBelow.mpr ⟨inside, z, foundZ, boundZ, by omega⟩
  · exact mem_boundBelow.mpr ⟨tidy.classOf?_lt found, y, found, by simp [bound], lower⟩

private theorem card_boundBelow_lt_size (tidy : Tidy s) (ranked : Ranked s rank) {x : TypeVar}
    {t : Term} (bound : s.bound? x = some t) : (boundBelow s rank x).card < s.nodes.size := by
  obtain ⟨c, found⟩ := exists_classOf?_of_bound? bound
  have inside : boundBelow s rank x ⊆ Finset.range s.nodes.size :=
    fun d member => Finset.mem_range.mpr (mem_boundBelow.mp member).1
  have fewer := Finset.card_lt_card ((Finset.ssubset_iff_of_subset inside).mpr
    ⟨c, Finset.mem_range.mpr (tidy.classOf?_lt found), not_mem_boundBelow_self ranked found⟩)
  rw [Finset.card_range] at fewer
  exact fewer

end Counting

/-- Ranks need not exceed the number of classes, and bound classes need not have rank zero. -/
theorem Acyclic.bounded {s : Classes} (tidy : Tidy s) (acyclic : Acyclic s) :
    ∃ rank, Ranked s rank ∧ (∀ x, rank x ≤ s.nodes.size) ∧
      ∀ x t, s.bound? x = some t → 0 < rank x := by
  obtain ⟨rank, ranked⟩ := acyclic
  refine ⟨fun x => if (s.bound? x).isSome then (boundBelow s rank x).card + 1 else 0,
    ⟨?_, ?_⟩, ?_, ?_⟩
  · intro x y equal
    simp only [bound?_of_same equal, boundBelow_of_same ranked equal]
  · intro x t bound y free
    have lower : rank y < rank x := ranked.falls bound y free
    simp only [bound, Option.isSome_some, if_true]
    cases boundY : s.bound? y with
    | none => simp
    | some u =>
      have fewer := card_boundBelow_lt tidy ranked boundY lower
      simp only [Option.isSome_some, if_true]
      omega
  · intro x
    dsimp only
    cases bound : s.bound? x with
    | none => simp
    | some t =>
      have fewer := card_boundBelow_lt_size tidy ranked bound
      simp only [Option.isSome_some, if_true]
      omega
  · intro x t bound
    simp [bound]

/-! The occurs check. -/

def IsClosure {α : Type} (successors : α → List α) (roots closure : List α) : Prop :=
  ∀ v, v ∈ closure ↔ ∃ r ∈ roots, Relation.ReflTransGen (fun a b => b ∈ successors a) r v

private theorem mem_successors {s : Classes} {x y : TypeVar} :
    y ∈ s.successors x ↔ ∃ t, s.bound? x = some t ∧ y ∈ t.freeVars := by
  cases bound : s.bound? x <;> simp [successors, bound]

private theorem leadsTo_iff {s : Classes} {x z : TypeVar} :
    LeadsTo s x z ↔
      ∃ w, Relation.ReflTransGen (fun a b => b ∈ s.successors a) x w ∧ s.same w z = true := by
  constructor
  · intro leads
    induction leads with
    | @same x y equal => exact ⟨x, .refl, equal⟩
    | @through x y z t bound free _ ih =>
      obtain ⟨w, passes, equal⟩ := ih
      exact ⟨w, .head (mem_successors.mpr ⟨t, bound, free⟩) passes, equal⟩
  · rintro ⟨w, passes, equal⟩
    induction passes using Relation.ReflTransGen.head_induction_on with
    | refl => exact .same equal
    | head next _ ih =>
      obtain ⟨t, bound, free⟩ := mem_successors.mp next
      exact .through bound free ih

/-- Whatever lists all that the variables of a term lead to decides the occurs check. -/
theorem any_same_iff_of_isClosure {s : Classes} {t : Term} {closure : List TypeVar}
    (closed : IsClosure s.successors t.freeVars closure) (v : TypeVar) :
    closure.any (s.same v) = true ↔ ∃ y ∈ t.freeVars, LeadsTo s y v := by
  rw [List.any_eq_true]
  constructor
  · rintro ⟨w, member, equal⟩
    obtain ⟨y, free, passes⟩ := (closed w).mp member
    exact ⟨y, free, leadsTo_iff.mpr ⟨w, passes, same_symm equal⟩⟩
  · rintro ⟨y, free, leads⟩
    obtain ⟨w, passes, equal⟩ := leadsTo_iff.mp leads
    exact ⟨w, (closed w).mpr ⟨y, free, passes⟩, same_symm equal⟩

private abbrev round (s : Classes) (seen frontier : List TypeVar) : List TypeVar :=
  ((frontier.flatMap s.successors).filter (· ∉ seen)).eraseDups

private theorem mem_round {s : Classes} {seen frontier : List TypeVar} {y : TypeVar} :
    y ∈ round s seen frontier ↔ (∃ x ∈ frontier, y ∈ s.successors x) ∧ y ∉ seen := by
  simp [round, List.mem_eraseDups]

private theorem reach_succ (s : Classes) (n : Nat) (seen frontier : List TypeVar) :
    s.reach (n + 1) seen frontier =
      if round s seen frontier = [] then seen
      else s.reach n (seen ++ round s seen frontier) (round s seen frontier) := by
  rw [reach]
  split
  · next none => rw [if_pos none]
  · next some => rw [if_neg some]

private theorem mem_reach_of_seen {s : Classes} (n : Nat) {seen frontier : List TypeVar}
    {w : TypeVar} (old : w ∈ seen) : w ∈ s.reach n seen frontier := by
  induction n generalizing seen frontier with
  | zero => exact old
  | succ n ih =>
    rw [reach_succ]
    split
    · exact old
    · exact ih (List.mem_append_left _ old)

private theorem mem_reach_of_passes {s : Classes} {rank : TypeVar → Nat} (ranked : Ranked s rank)
    (n : Nat) {seen frontier : List TypeVar}
    (closed : ∀ x ∈ seen, x ∉ frontier → ∀ y ∈ s.successors x, y ∈ seen) {x w : TypeVar}
    (start : x ∈ seen) (few : rank x ≤ n)
    (passes : Relation.ReflTransGen (fun a b => b ∈ s.successors a) x w) :
    w ∈ s.reach n seen frontier := by
  induction n generalizing seen frontier x with
  | zero =>
    rcases passes.cases_head with rfl | ⟨y, successor, -⟩
    · exact start
    · obtain ⟨t, bound, free⟩ := mem_successors.mp successor
      have lower := ranked.falls bound y free
      omega
  | succ n ih =>
    have next : ∀ x ∈ seen, ∀ y ∈ s.successors x, y ∈ seen ++ round s seen frontier := by
      intro x member y successor
      by_cases old : y ∈ seen
      · exact List.mem_append_left _ old
      · refine List.mem_append_right _ (mem_round.mpr ⟨⟨x, ?_, successor⟩, old⟩)
        by_contra behind
        exact old (closed x member behind y successor)
    rcases passes.cases_head with rfl | ⟨y, successor, rest⟩
    · exact mem_reach_of_seen (n + 1) start
    · rw [reach_succ]
      split
      · next stop =>
        rw [stop, List.append_nil] at next
        clear rest ih
        induction passes with
        | refl => exact start
        | tail _ successor ih => exact next _ ih _ successor
      · obtain ⟨t, bound, free⟩ := mem_successors.mp successor
        have lower := ranked.falls bound y free
        refine ih (fun x member old => ?_) (next _ start _ successor) (by omega) rest
        rcases List.mem_append.mp member with inside | outside
        · exact next x inside
        · exact absurd outside old

private theorem exists_passes_of_mem_reach {s : Classes} (n : Nat) {seen frontier : List TypeVar}
    {w : TypeVar} (member : w ∈ s.reach n seen frontier) :
    w ∈ seen ∨ ∃ x ∈ frontier, Relation.ReflTransGen (fun a b => b ∈ s.successors a) x w := by
  induction n generalizing seen frontier with
  | zero => exact .inl member
  | succ n ih =>
    rw [reach_succ] at member
    split at member
    · exact .inl member
    · rcases ih member with inside | ⟨y, added, passes⟩
      · rcases List.mem_append.mp inside with old | added
        · exact .inl old
        · obtain ⟨⟨x, front, successor⟩, -⟩ := mem_round.mp added
          exact .inr ⟨x, front, .single successor⟩
      · obtain ⟨⟨x, front, successor⟩, -⟩ := mem_round.mp added
        exact .inr ⟨x, front, .head successor passes⟩

theorem isClosure_reachable {s : Classes} (tidy : Tidy s) (acyclic : Acyclic s) (t : Term) :
    IsClosure s.successors t.freeVars (s.reachable t) := by
  obtain ⟨rank, ranked, bounded, -⟩ := acyclic.bounded tidy
  intro w
  constructor
  · intro member
    rcases exists_passes_of_mem_reach s.nodes.size member with free | passes
    · exact ⟨w, free, .refl⟩
    · exact passes
  · rintro ⟨y, free, passes⟩
    exact mem_reach_of_passes ranked s.nodes.size (fun x member outside => absurd member outside)
      free (bounded y) passes

theorem occurs_iff {s : Classes} (tidy : Tidy s) (acyclic : Acyclic s) (v : TypeVar) (t : Term) :
    s.occurs v t = true ↔ ∃ y ∈ t.freeVars, LeadsTo s y v :=
  any_same_iff_of_isClosure (isClosure_reachable tidy acyclic t) v

/-! Binding and joining. -/

theorem Acyclic.set {s : Classes} (tidy : Tidy s) (acyclic : Acyclic s) {v : TypeVar}
    {t : Term} (apart : ∀ y ∈ t.freeVars, ¬LeadsTo s y v) : Acyclic (s.set v (some t)) := by
  classical
  obtain ⟨rank, ranked⟩ := acyclic
  obtain ⟨top, above⟩ := exists_above rank t.freeVars
  obtain ⟨-, same, bounds, -⟩ := set_spec tidy v (some t)
  -- everything that leads to `v` moves up past the variables of `t`
  refine ⟨fun x => if LeadsTo s x v then rank x + top else rank x, ⟨?_, ?_⟩⟩
  · intro x y equal
    rw [same] at equal
    simp only [LeadsTo.iff_of_same equal, ranked.same equal]
  · intro x u bound y free
    rw [bounds] at bound
    by_cases here : s.same x v = true
    · rw [if_pos here] at bound
      cases bound
      have := above y free
      rw [if_neg (apart y free), if_pos (.same here)]
      omega
    · rw [if_neg here] at bound
      have lower := ranked.falls bound y free
      by_cases leads : LeadsTo s y v
      · rw [if_pos leads, if_pos (.through bound free leads)]
        omega
      · rw [if_neg leads]
        split <;> omega

section Joining

open Classical in
private noncomputable def raised (s : Classes) (rank : TypeVar → Nat) (v w x : TypeVar) : Nat :=
  if s.same x v = true then rank w
  else if LeadsTo s x v then rank x + rank w + 1 else rank x

variable {s : Classes} {rank : TypeVar → Nat} {v w x : TypeVar}

private theorem raised_of_not_leadsTo (off : ¬LeadsTo s x v) : raised s rank v w x = rank x :=
  (if_neg fun same => off (.same same)).trans (if_neg off)

private theorem raised_at (equal : s.same x v = true) : raised s rank v w x = rank w :=
  if_pos equal

private theorem raised_of_leadsTo (apart : ¬s.same x v = true) (leads : LeadsTo s x v) :
    raised s rank v w x = rank x + rank w + 1 :=
  (if_neg apart).trans (if_pos leads)

private theorem raised_of_same (ranked : Ranked s rank) {y : TypeVar} (equal : s.same x y = true) :
    raised s rank v w x = raised s rank v w y := by
  by_cases atV : s.same y v = true
  · rw [raised_at atV, raised_at (same_trans equal atV)]
  · have apart : ¬s.same x v = true := fun same => atV (same_trans (same_symm equal) same)
    by_cases leads : LeadsTo s y v
    · rw [raised_of_leadsTo atV leads, raised_of_leadsTo apart (.congr_left equal leads),
        ranked.same equal]
    · have off : ¬LeadsTo s x v := fun h => leads (.congr_left (same_symm equal) h)
      rw [raised_of_not_leadsTo leads, raised_of_not_leadsTo off, ranked.same equal]

theorem Acyclic.join (tidy : Tidy s) (acyclic : Acyclic s) (unbound : s.bound? v = none)
    (apart : ¬LeadsTo s w v) : Acyclic (s.join v w) := by
  obtain ⟨rank, ranked⟩ := acyclic
  obtain ⟨-, same, bounds, -⟩ := join_spec tidy w unbound
  have atW : ∀ {x}, s.same x w = true → raised s rank v w x = rank w := by
    intro x equal
    rw [raised_of_same ranked equal, raised_of_not_leadsTo apart]
  refine ⟨raised s rank v w, ⟨?_, ?_⟩⟩
  · intro x y equal
    rcases (same x y).mp equal with h | ⟨hx, hy⟩ | ⟨hx, hy⟩
    · exact raised_of_same ranked h
    · rw [raised_at hx, atW hy]
    · rw [atW hx, raised_at hy]
  · intro x u bound y free
    rw [bounds] at bound
    by_cases here : s.same x v = true ∨ s.same x w = true
    · rw [if_pos here] at bound
      have low : raised s rank v w y < rank w := by
        rw [raised_of_not_leadsTo fun leads => apart (.through bound free leads)]
        exact ranked.falls bound y free
      rcases here with hx | hx
      · rw [raised_at hx]
        exact low
      · rw [atW hx]
        exact low
    · rw [if_neg here] at bound
      have lower := ranked.falls bound y free
      have notV : ¬s.same x v = true := fun h => here (.inl h)
      by_cases equal : s.same y v = true
      · have leads : LeadsTo s x v := .through bound free (.same equal)
        rw [raised_at equal, raised_of_leadsTo notV leads]
        omega
      · by_cases leads : LeadsTo s y v
        · have leadsX : LeadsTo s x v := .through bound free leads
          rw [raised_of_leadsTo notV leadsX, raised_of_leadsTo equal leads]
          omega
        · rw [raised_of_not_leadsTo leads]
          by_cases leadsX : LeadsTo s x v
          · rw [raised_of_leadsTo notV leadsX]
            omega
          · rw [raised_of_not_leadsTo leadsX]
            exact lower

end Joining

end TypedCalls.Classes
