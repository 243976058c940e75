import TypedCalls.Proofs.Classes.Acyclic
import TypedCalls.Proofs.Term.Filling

/-!
The solutions of what classes know.

A solution gives one term to variables known to be the same, and to a bound variable what its bound
term becomes. Binding and joining each add one equation (`satisfies_set`, `satisfies_join`). Acyclic
classes have a solution through which every other one factors: read a variable through all bindings,
and put one representative for each unbound class (`satisfies_solution`, `fill_solution`).
-/

set_option autoImplicit false

namespace TypedCalls.Classes

/-- A choice of terms for the variables that agrees with everything the classes answer. -/
structure Satisfies (θ : TypeVar → Term) (s : Classes) : Prop where
  same : ∀ x y, (s.compare x y).1 = true → θ x = θ y
  bound : ∀ x t, (s.get x).1 = some t → θ x = t.fill θ

theorem satisfies_iff {θ : TypeVar → Term} {s : Classes} (tidy : Tidy s) :
    Satisfies θ s ↔ (∀ x y, s.same x y = true → θ x = θ y) ∧
      ∀ x t, s.bound? x = some t → θ x = t.fill θ := by
  constructor
  · rintro ⟨same, bound⟩
    refine ⟨fun x y equal => same x y ?_, fun x t stands => bound x t ?_⟩
    · rw [compare_fst tidy, equal]
    · rw [get_fst tidy, stands]
  · rintro ⟨same, bound⟩
    refine ⟨fun x y equal => same x y ?_, fun x t stands => bound x t ?_⟩
    · rw [← compare_fst tidy, equal]
    · rw [← get_fst tidy, stands]

theorem satisfies_set {θ : TypeVar → Term} {s : Classes} (tidy : Tidy s) {v : TypeVar}
    (unbound : s.bound? v = none) (t : Term) :
    Satisfies θ (s.set v (some t)) ↔ Satisfies θ s ∧ θ v = t.fill θ := by
  obtain ⟨tidy', same, bounds, -⟩ := set_spec tidy v (some t)
  rw [satisfies_iff tidy', satisfies_iff tidy]
  simp only [same, bounds]
  constructor
  · rintro ⟨equal, stands⟩
    refine ⟨⟨equal, fun x u bound => stands x u ?_⟩, stands v t ?_⟩
    · have other : ¬s.same x v = true := by
        intro h
        rw [bound?_of_same h, unbound] at bound
        cases bound
      rw [if_neg other, bound]
    · rw [if_pos (same_self s v)]
  · rintro ⟨⟨equal, stands⟩, equation⟩
    refine ⟨equal, fun x u bound => ?_⟩
    split at bound
    · next here =>
      cases bound
      rw [equal x v here, equation]
    · exact stands x u bound

theorem satisfies_join {θ : TypeVar → Term} {s : Classes} (tidy : Tidy s) {v : TypeVar}
    (w : TypeVar) (unbound : s.bound? v = none) :
    Satisfies θ (s.join v w) ↔ Satisfies θ s ∧ θ v = θ w := by
  obtain ⟨tidy', same, bounds, -⟩ := join_spec tidy w unbound
  rw [satisfies_iff tidy', satisfies_iff tidy]
  simp only [same, bounds]
  constructor
  · rintro ⟨equal, stands⟩
    refine ⟨⟨fun x y h => equal x y (.inl h), fun x u bound => stands x u ?_⟩,
      equal v w (.inr (.inl ⟨same_self s v, same_self s w⟩))⟩
    split
    · next here =>
      rcases here with h | h
      · rw [bound?_of_same h, unbound] at bound
        cases bound
      · rw [← bound?_of_same h, bound]
    · exact bound
  · rintro ⟨⟨equal, stands⟩, equation⟩
    constructor
    · rintro x y (h | ⟨hx, hy⟩ | ⟨hx, hy⟩)
      · exact equal x y h
      · rw [equal x v hx, equation, ← equal y w hy]
      · rw [equal x w hx, ← equation, ← equal y v hy]
    · intro x u bound
      split at bound
      · next here =>
        have first : θ x = θ w := by
          rcases here with h | h
          · rw [equal x v h, equation]
          · exact equal x w h
        rw [first]
        exact stands w u bound
      · exact stands x u bound

theorem satisfies_empty (θ : TypeVar → Term) : Satisfies θ .empty := by
  refine (satisfies_iff tidy_empty).mpr ⟨fun x y equal => ?_, fun x t bound => ?_⟩
  · rw [same_empty.mp equal]
  · rw [bound?_empty] at bound
    cases bound

theorem Satisfies.size_le {θ : TypeVar → Term} {s : Classes} (tidy : Tidy s)
    (satisfies : Satisfies θ s) (intact : ∀ x t, s.bound? x = some t → t.Intact θ)
    {x y : TypeVar} (leads : LeadsTo s x y) : (θ y).size ≤ (θ x).size := by
  obtain ⟨equal, stands⟩ := (satisfies_iff tidy).mp satisfies
  induction leads with
  | @same x y h => rw [equal x y h]
  | @through x y z t bound free _ ih =>
    have inside := (intact x t bound).size_le_size_fill free
    rw [stands x t bound]
    exact Nat.le_trans ih inside

/-! Reading through all bindings. -/

def reading (s : Classes) (v : TypeVar) : Term := s.read (.use v)

theorem read_eq_fill (s : Classes) (t : Term) : s.read t = t.fill s.reading := by
  rw [read, Term.substWithin, Term.replace_nil_eq_fill]
  apply Term.fill_congr
  intro v _
  rw [reading, read, Term.substWithin, Term.replace_nil_eq_fill, Term.fill_use]

theorem reading_of_unbound {s : Classes} {v : TypeVar} (unbound : s.bound? v = none) :
    s.reading v = .use v := by
  rw [reading, read, Term.substWithin, Term.replace_nil_eq_fill, Term.fill_use]
  cases s.nodes.size with
  | zero => rfl
  | succ n => simp [Term.standsFor, unbound]

private theorem standsFor_stable {s : Classes} {rank : TypeVar → Nat} (ranked : Ranked s rank)
    (positive : ∀ x t, s.bound? x = some t → 0 < rank x) (n m : Nat) {v : TypeVar}
    (enough : rank v ≤ n) (enough' : rank v ≤ m) :
    Term.standsFor s.bound? n v = Term.standsFor s.bound? m v := by
  induction n generalizing m v with
  | zero =>
    have unbound : s.bound? v = none := by
      by_contra some
      obtain ⟨t, bound⟩ := Option.ne_none_iff_exists'.mp some
      have := positive v t bound
      omega
    cases m with
    | zero => rfl
    | succ m => simp [Term.standsFor, unbound]
  | succ n ih =>
    cases bound : s.bound? v with
    | none => cases m <;> simp [Term.standsFor, bound]
    | some t =>
      cases m with
      | zero =>
        have := positive v t bound
        omega
      | succ m =>
        simp only [Term.standsFor, bound, Option.map_some, Option.some.injEq]
        apply Term.replace_congr
        intro w free _
        have lower := ranked.falls bound w free
        rw [ih m (by omega) (by omega)]

theorem reading_of_bound {s : Classes} (tidy : Tidy s) (acyclic : Acyclic s) {v : TypeVar}
    {t : Term} (bound : s.bound? v = some t) : s.reading v = t.fill s.reading := by
  obtain ⟨rank, ranked, bounded, positive⟩ := acyclic.bounded tidy
  have enough := bounded v
  have above := positive v t bound
  obtain ⟨n, size⟩ : ∃ n, s.nodes.size = n + 1 := ⟨s.nodes.size - 1, by omega⟩
  rw [← read_eq_fill, reading, read, read, size, Term.substWithin, Term.replace_nil_eq_fill,
    Term.fill_use]
  simp only [Term.standsFor, bound, Option.map_some, Option.getD_some, Term.substWithin]
  apply Term.replace_congr
  intro w free _
  have lower := ranked.falls bound w free
  rw [standsFor_stable ranked positive n (n + 1) (by omega) (by omega)]
  rfl

theorem Acyclic.induction {s : Classes} (acyclic : Acyclic s) {motive : TypeVar → Prop}
    (unbound : ∀ v, s.bound? v = none → motive v)
    (bound : ∀ v t, s.bound? v = some t → (∀ w ∈ t.freeVars, motive w) → motive v)
    (v : TypeVar) : motive v := by
  obtain ⟨rank, ranked⟩ := acyclic
  induction measure : rank v using Nat.strongRecOn generalizing v with
  | ind n ih =>
    cases found : s.bound? v with
    | none => exact unbound v found
    | some t =>
      refine bound v t found fun w free => ?_
      have lower := ranked.falls found w free
      exact ih (rank w) (by omega) w rfl

/-! The most general solution. -/

def representative (s : Classes) (v : TypeVar) : TypeVar := (s.membersOf v).headD v

def identify (s : Classes) (t : Term) : Term := t.fill fun v => .use (s.representative v)

def solution (s : Classes) (v : TypeVar) : Term := s.identify (s.reading v)

private theorem representative_of_same {s : Classes} (tidy : Tidy s) {x y : TypeVar}
    (equal : s.same x y = true) : s.representative x = s.representative y := by
  rcases (same_iff s x y).mp equal with rfl | ⟨c, hx, hy⟩
  · rfl
  · have members : s.membersOf x = s.membersOf y := by simp only [membersOf, hx, hy]
    have nonempty : s.membersOf x ≠ [] := by
      simp only [membersOf, hx, ne_eq, List.map_eq_nil_iff, List.filter_eq_nil_iff, not_forall]
      exact ⟨(x, c), tidy.mem_placed_iff.mpr hx, by simp⟩
    rw [representative, representative, ← members]
    cases listed : s.membersOf x with
    | nil => exact absurd listed nonempty
    | cons z rest => rfl

theorem same_representative {s : Classes} (tidy : Tidy s) (v : TypeVar) :
    s.same v (s.representative v) = true := by
  rw [representative]
  cases listed : s.membersOf v with
  | nil => exact same_self s v
  | cons z rest =>
    rw [List.headD_cons]
    cases found : s.classOf? v with
    | none =>
      simp only [membersOf, found, List.cons.injEq] at listed
      rw [listed.1]
      exact same_self s z
    | some c =>
      have member : z ∈ (s.placed.filter fun x => x.2 == c).map Prod.fst := by
        simp only [membersOf, found] at listed
        rw [listed]
        exact List.mem_cons_self
      obtain ⟨⟨z', d⟩, inside, rfl⟩ := List.mem_map.mp member
      obtain ⟨place, number⟩ := List.mem_filter.mp inside
      have here : d = c := by simpa using number
      subst here
      exact (same_iff s v z').mpr (.inr ⟨d, found, tidy.mem_placed_iff.mp place⟩)

section Plain

variable {allowed : String → Prop} {s : Classes}

theorem builtFrom_reading (tidy : Tidy s) (acyclic : Acyclic s)
    (built : ∀ x t, s.bound? x = some t → t.BuiltFrom allowed) (v : TypeVar) :
    (s.reading v).BuiltFrom allowed := by
  induction v using acyclic.induction with
  | unbound v unbound =>
    rw [reading_of_unbound unbound]
    trivial
  | bound v t bound ih =>
    rw [reading_of_bound tidy acyclic bound]
    exact Term.builtFrom_fill (built v t bound) ih

theorem builtFrom_solution (tidy : Tidy s) (acyclic : Acyclic s)
    (built : ∀ x t, s.bound? x = some t → t.BuiltFrom allowed) (v : TypeVar) :
    (s.solution v).BuiltFrom allowed :=
  Term.builtFrom_fill (builtFrom_reading tidy acyclic built v) fun _ _ => trivial

end Plain

theorem identify_read (s : Classes) {t : Term} (free : t.QuantifierFree) :
    s.identify (s.read t) = t.fill s.solution := by
  rw [read_eq_fill, identify, Term.fill_fill _ _ free]
  rfl

section QuantifierFree

variable {s : Classes} (tidy : Tidy s) (acyclic : Acyclic s)
  (plain : ∀ x t, s.bound? x = some t → t.QuantifierFree)
include tidy acyclic plain

theorem satisfies_solution : Satisfies s.solution s := by
  rw [satisfies_iff tidy]
  constructor
  · intro x y equal
    cases bound : s.bound? x with
    | none =>
      have unbound : s.bound? y = none := (bound?_of_same equal).symm.trans bound
      rw [solution, solution, reading_of_unbound bound, reading_of_unbound unbound, identify,
        identify, Term.fill_use, Term.fill_use, representative_of_same tidy equal]
    | some t =>
      have boundY : s.bound? y = some t := (bound?_of_same equal).symm.trans bound
      rw [solution, solution, reading_of_bound tidy acyclic bound,
        reading_of_bound tidy acyclic boundY]
  · intro x t bound
    rw [solution, reading_of_bound tidy acyclic bound, ← read_eq_fill]
    exact identify_read s (plain x t bound)

theorem fill_reading_of_bindings {θ : TypeVar → Term}
    (stands : ∀ x t, s.bound? x = some t → θ x = t.fill θ) (v : TypeVar) :
    (s.reading v).fill θ = θ v := by
  induction v using acyclic.induction with
  | unbound v unbound => rw [reading_of_unbound unbound, Term.fill_use]
  | bound v t bound ih =>
    rw [reading_of_bound tidy acyclic bound, Term.fill_fill _ _ (plain v t bound),
      stands v t bound]
    exact Term.fill_congr ih

private theorem fill_reading {θ : TypeVar → Term} (satisfies : Satisfies θ s) (v : TypeVar) :
    (s.reading v).fill θ = θ v :=
  fill_reading_of_bindings tidy acyclic plain ((satisfies_iff tidy).mp satisfies).2 v

theorem fill_read {θ : TypeVar → Term} (satisfies : Satisfies θ s) {t : Term}
    (free : t.QuantifierFree) : (s.read t).fill θ = t.fill θ := by
  rw [read_eq_fill, Term.fill_fill _ _ free]
  exact Term.fill_congr fun w _ => fill_reading tidy acyclic plain satisfies w

theorem fill_solution {θ : TypeVar → Term} (satisfies : Satisfies θ s) (v : TypeVar) :
    θ v = (s.solution v).fill θ := by
  obtain ⟨equal, -⟩ := (satisfies_iff tidy).mp satisfies
  have same : ∀ w, θ (s.representative w) = θ w := fun w =>
    (equal w _ (same_representative tidy w)).symm
  rw [solution, identify, Term.fill_fill _ _ (builtFrom_reading tidy acyclic plain v)]
  simp only [Term.fill_use, same]
  exact (fill_reading tidy acyclic plain satisfies v).symm

end QuantifierFree

end TypedCalls.Classes
