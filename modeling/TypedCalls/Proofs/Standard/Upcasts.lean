import Mathlib.Tactic.Common
import TypedCalls.Proofs.Instance.Cost
import TypedCalls.Proofs.Instance.Pursuit
import TypedCalls.Proofs.Standard.Widening
import TypedCalls.Standard.Instances

/-!
The standard instances derive the conversions from types to wider types, and no others.
-/

set_option autoImplicit false

namespace TypedCalls.Standard

open Term (fill)

section Filling

variable (ρ : TypeVar → Term)

theorem fill_named (s : String) : (Term.named s).fill ρ = .named s := by
  rw [Term.fill_con]
  rfl

theorem fill_upcast (s t : Term) : (upcast s t).fill ρ = upcast (s.fill ρ) (t.fill ρ) :=
  Term.fill_con_of_ne ρ (by decide) _

private theorem fill_listOf (t : Term) : (listOf t).fill ρ = listOf (t.fill ρ) :=
  Term.fill_con_of_ne ρ (by decide) _

theorem fill_nullable (t : Term) : t.nullable.fill ρ = (t.fill ρ).nullable :=
  Term.replace_nullable _ _ t

end Filling

private theorem upcast_inj {a b c d : Term} :
    upcast a b = upcast c d ↔ a = c ∧ b = d := by simp [upcast]

private theorem conversion_returns {params : String} {source target a b : Term} {cast : Cast}
    {ρ : TypeVar → Term} (returns : (conversion params source target cast).rule.returns.fill ρ =
      upcast a b) : source.fill ρ = a ∧ target.fill ρ = b :=
  upcast_inj.mp ((fill_upcast ρ source target).symm.trans returns)

private theorem widens_of_conversion {params : String} {source target a b : Term} {cast : Cast}
    {ρ : TypeVar → Term} (returns : (conversion params source target cast).rule.returns.fill ρ =
      upcast a b) (widens : Widens 1 (source.fill ρ) (target.fill ρ)) : Widens 1 a b := by
  obtain ⟨rfl, rfl⟩ := conversion_returns returns
  exact widens

private theorem widens_fill_named {s t : String} (row : (s, t, 1) ∈ ladder) (ρ : TypeVar → Term) :
    Widens 1 ((Term.named s).fill ρ) ((Term.named t).fill ρ) := by
  rw [fill_named, fill_named]
  exact .named row

private theorem returns_upcast {inst : Instance Built} (registered : inst ∈ instances false)
    {ρ : TypeVar → Term} {a b : Term} (returns : inst.rule.returns.fill ρ = upcast a b) :
    inst.rule.dependencies = [] ∧ Widens 1 a b ∨
    (∃ x y, inst.rule.dependencies.map (fill ρ) = [upcast x y] ∧ a = listOf x ∧ b = listOf y) ∨
    ∃ x, inst.rule.dependencies.map (fill ρ) = [upcast a x, upcast x b] := by
  simp only [instances, Bool.false_eq_true, if_false, List.append_nil, List.mem_cons,
    List.not_mem_nil, or_false] at registered
  rcases registered with rfl | rfl | rfl | rfl | rfl | rfl | rfl | rfl | rfl | rfl | rfl | rfl |
    rfl | rfl | rfl | rfl | rfl
  · exact .inl ⟨rfl, widens_of_conversion returns (.same _)⟩
  · exact .inl ⟨rfl, widens_of_conversion returns (fill_named ρ _ ▸ .of_nothing _)⟩
  · exact .inl ⟨rfl, widens_of_conversion returns (fill_nullable ρ A ▸ .to_own_nullable _)⟩
  iterate 8 exact .inl ⟨rfl, widens_of_conversion returns (widens_fill_named (by decide) ρ)⟩
  · obtain ⟨rfl, rfl⟩ := upcast_inj.mp ((fill_upcast ρ _ _).symm.trans returns)
    exact .inr (.inl ⟨A.fill ρ, B.fill ρ, congrArg (· :: []) (fill_upcast ρ A B),
      fill_listOf ρ A, fill_listOf ρ B⟩)
  · obtain ⟨rfl, rfl⟩ := upcast_inj.mp ((fill_upcast ρ _ _).symm.trans returns)
    refine .inr (.inr ⟨B.fill ρ, ?_⟩)
    simp only [composition, List.map_cons, List.map_nil, fill_upcast]
  all_goals
    have heads := congrArg Term.head? returns
    simp [groupOf, groupMonoid, group, monoid, upcast, Term.fill_con, Term.applied, Term.head?,
      Term.nullableHead] at heads

theorem widens_of_derivable {θ : TypeVar → Term} {n : Nat} {a b : Term}
    (derivable : Derivable (instances false) θ n (upcast a b)) : ∃ m ≤ n, Widens m a b := by
  induction n using Nat.strong_induction_on generalizing a b with
  | _ n ih =>
    obtain ⟨goal, returned⟩ : ∃ goal, goal = upcast a b := ⟨_, rfl⟩
    rw [← returned] at derivable
    cases derivable with
    | @node inst ρ n registered outside parts =>
      rcases returns_upcast registered returned with ⟨-, direct⟩ | ⟨x, y, brought, rfl, rfl⟩ |
        ⟨x, brought⟩
      · exact ⟨1, Nat.succ_le_succ (Nat.zero_le n), direct⟩
      · rw [brought] at parts
        cases parts with
        | @cons k l _ _ first none =>
          obtain ⟨m, le, widens⟩ := ih k (by omega) first
          obtain ⟨m', bound, lists⟩ := widens.listOf
          exact ⟨m', by omega, lists⟩
      · rw [brought] at parts
        cases parts with
        | @cons k l _ _ first others =>
          cases others with
          | @cons k' l' _ _ second none =>
            obtain ⟨m, le, lower⟩ := ih k (by omega) first
            obtain ⟨m', le', upper⟩ := ih k' (by omega) second
            obtain ⟨m'', bound, widens⟩ := lower.trans upper
            exact ⟨m'', by omega, widens⟩

/-! What serves a conversion to a wider type. -/

def Widenable (goal : Term) : Prop :=
  ∃ n a b, goal = upcast a b ∧ a.QuantifierFree ∧ b.QuantifierFree ∧ Widens n a b

noncomputable def wideningCost (goal : Term) : Nat :=
  sInf { n | ∃ a b, goal = upcast a b ∧ Widens n a b }

theorem wideningCost_upcast {n : Nat} {a b : Term} (widens : Widens n a b) :
    wideningCost (upcast a b) = n := by
  have only : { m | ∃ x y, upcast a b = upcast x y ∧ Widens m x y } = {n} := by
    ext m
    constructor
    · rintro ⟨x, y, equal, other⟩
      obtain ⟨rfl, rfl⟩ := upcast_inj.mp equal
      exact widens.cost_unique other
    · rintro rfl
      exact ⟨a, b, rfl, widens⟩
  rw [wideningCost, only, csInf_singleton]

theorem names_closed : ∀ inst ∈ instances false, ∀ v ∈ inst.rule.names, v ∈ inst.rule.typeParams := by
  decide +kernel

theorem intact_upcast {ρ : TypeVar → Term} {s t : Term} (source : s.Intact ρ) (target : t.Intact ρ) :
    (upcast s t).Intact ρ := by
  refine Term.intact_con.mpr ⟨fill_upcast ρ s t, fun a member => ?_⟩
  rcases List.mem_pair.mp member with rfl | rfl
  · exact source
  · exact target

private theorem intact_named (ρ : TypeVar → Term) (s : String) : (Term.named s).Intact ρ :=
  Term.intact_con.mpr ⟨fill_named ρ s, nofun⟩

private theorem intact_listOf {ρ : TypeVar → Term} {t : Term} (intact : t.Intact ρ) :
    (listOf t).Intact ρ :=
  Term.intact_con.mpr ⟨fill_listOf ρ t, fun _ member => List.mem_singleton.mp member ▸ intact⟩

private theorem nullable_eq_of_bare {t : Term} (free : t.QuantifierFree)
    (bare : t.isKnownNullable = false) : t.nullable = .con Term.nullableHead [t] := by
  cases t with
  | con head args =>
    have plain : head ≠ Term.nullableHead := by simpa [Term.isKnownNullable] using bare
    rw [Term.nullable, if_neg plain]
  | use v => rfl
  | scheme quantifier vars body => exact absurd free (by simp [Term.QuantifierFree, Term.BuiltFrom])
  | func typeParams params result => rfl

theorem quantifierFree_named (s : String) : (Term.named s).QuantifierFree :=
  Term.builtFrom_con.mpr ⟨trivial, nofun⟩

private theorem quantifierFree_of_nullable {t : Term} (free : t.nullable.QuantifierFree) :
    t.QuantifierFree := by
  cases t with
  | con head args =>
    rw [Term.nullable] at free
    split at free
    · exact free
    · exact (Term.builtFrom_con.mp free).2 _ (List.mem_singleton_self _)
  | use v => trivial
  | scheme quantifier vars body =>
    exact absurd free (by simp [Term.QuantifierFree, Term.nullable, Term.BuiltFrom])
  | func typeParams params result =>
    exact (Term.builtFrom_con.mp free).2 _ (List.mem_singleton_self _)

section Serving

variable {θ ρ : TypeVar → Term} {a b c : Term} {m n : Nat}

private theorem serves_conversion {params : String} {source target : Term} {cast : Cast}
    (registered : conversion params source target cast ∈ instances false) (left : source.Intact ρ)
    (right : target.Intact ρ) (widens : Widens 1 (source.fill ρ) (target.fill ρ)) :
    (conversion params source target cast).rule.Serves Widenable wideningCost θ ρ
      (upcast (source.fill ρ) (target.fill ρ)) where
  outside v named free := absurd (names_closed _ registered v named) free
  intact t term := by
    obtain rfl := List.mem_singleton.mp term
    exact intact_upcast left right
  returns := fill_upcast ρ source target
  dependencies := nofun
  cost := Nat.le_of_eq (wideningCost_upcast widens).symm

private theorem serves_lists (freeA : a.QuantifierFree) (freeB : b.QuantifierFree) (differ : a ≠ b)
    (widens : Widens n a b) :
    ∃ ρ, (lifted "AB" (listOf A) (listOf B) .each).rule.Serves Widenable wideningCost θ ρ
      (upcast (listOf a) (listOf b)) := by
  let ρ : TypeVar → Term := fun v => if v = ⟨"A"⟩ then a else b
  have element : (upcast A B).fill ρ = upcast a b := fill_upcast ρ A B
  refine ⟨ρ, ?_, ?_, ?_, ?_, ?_⟩
  · exact fun v named free => absurd (names_closed _ (by simp [instances]) v named) free
  · intro t term
    rcases List.mem_pair.mp term with rfl | rfl
    · exact intact_upcast (intact_listOf trivial) (intact_listOf trivial)
    · exact intact_upcast trivial trivial
  · exact (fill_upcast ρ _ _).trans (congrArg₂ upcast (fill_listOf ρ A) (fill_listOf ρ B))
  · intro d dependency
    obtain rfl := List.mem_singleton.mp dependency
    exact ⟨n, a, b, element, freeA, freeB, widens⟩
  · show wideningCost ((upcast A B).fill ρ) + 0 + 1 ≤ _
    rw [element, wideningCost_upcast widens, wideningCost_upcast (.list differ widens)]

private theorem serves_composition (freeA : a.QuantifierFree) (freeB : b.QuantifierFree)
    (freeC : c.QuantifierFree) (lower : Widens m a b) (upper : Widens n b c)
    (whole : Widens (m + n + 1) a c) :
    ∃ ρ, composition.rule.Serves Widenable wideningCost θ ρ (upcast a c) := by
  let ρ : TypeVar → Term := fun v => if v = ⟨"A"⟩ then a else if v = ⟨"B"⟩ then b else c
  have first : (upcast A B).fill ρ = upcast a b := fill_upcast ρ A B
  have second : (upcast B C).fill ρ = upcast b c := fill_upcast ρ B C
  refine ⟨ρ, ?_, ?_, fill_upcast ρ A C, ?_, ?_⟩
  · exact fun v named free => absurd (names_closed _ (by simp [instances]) v named) free
  · intro t term
    rcases List.mem_cons.mp term with rfl | dependency
    · exact intact_upcast trivial trivial
    · rcases List.mem_pair.mp dependency with rfl | rfl
      · exact intact_upcast trivial trivial
      · exact intact_upcast trivial trivial
  · intro d dependency
    rcases List.mem_pair.mp dependency with rfl | rfl
    · exact ⟨m, a, b, first, freeA, freeB, lower⟩
    · exact ⟨n, b, c, second, freeB, freeC, upper⟩
  · show wideningCost ((upcast A B).fill ρ) + (wideningCost ((upcast B C).fill ρ) + 0) + 1 ≤ _
    rw [first, second, wideningCost_upcast lower, wideningCost_upcast upper,
      wideningCost_upcast whole]
    exact Nat.le_refl _

end Serving

/-! Single conversions, in the order in which they are tried. -/

def casts : List (String × String × Cast) :=
  [("LitInt", "BigInt", .toInteger), ("LitInt", "Int", .toInt), ("LitInt", "Rational", .toRational),
   ("LitInt", "Double", .toReal), ("LitString", "String", .toText), ("Int", "BigInt", .toInteger),
   ("BigInt", "Rational", .toRational), ("Rational", "Double", .toReal)]

def castInstance (row : String × String × Cast) : Instance Built :=
  conversion "" (.named row.1) (.named row.2.1) row.2.2

def generalConversions : List (Instance Built) :=
  [conversion "A" A A .identity, conversion "A" nothing A .identity,
   conversion "A" A A.nullable .identity]

private theorem candidatesFor_upcast {goal : Term} (head : goal.head? = some "Upcast") :
    Registry.candidatesFor (instances false) goal = generalConversions ++ casts.map castInstance ++
      [lifted "AB" (listOf A) (listOf B) .each, composition] := by
  rw [Registry.candidatesFor, head]
  rfl

private theorem conversionToSame_mem :
    conversion "A" A A .identity ∈ instances false := by simp [instances]

private theorem conversionOfNothing_mem : conversion "A" nothing A .identity ∈ instances false := by
  simp [instances]

private theorem conversionToNullable_mem :
    conversion "A" A A.nullable .identity ∈ instances false := by
  simp [instances]

private theorem castInstance_mem : ∀ row ∈ casts, castInstance row ∈ instances false := by
  simp [casts, castInstance, instances, litInt, bigInt, int, rational, double, litString, string]

private theorem exists_cast :
    ∀ row ∈ ladder, row.2.2 = 1 → ∃ c ∈ casts, c.1 = row.1 ∧ c.2.1 = row.2.1 := by
  decide

private theorem casts_order : casts.Pairwise fun d c => d.1 = c.1 →
    c.2.1 = d.2.1 ∨ (c.2.1, d.2.1, 1) ∈ ladder → c.1 = "LitInt" ∧ c.2.1 = "Int" := by
  decide

private theorem ladder_split : ∀ row ∈ ladder, row.2.2 = 1 ∨ ∃ r ∈ ladder, ∃ q ∈ ladder,
    r.1 = row.1 ∧ r.2.1 = q.1 ∧ q.2.1 = row.2.1 ∧ r.2.2 + q.2.2 + 1 = row.2.2 := by
  decide

section Candidates

variable {θ : TypeVar → Term} {a b : Term} {n : Nat}

/-- What is returned leads to no type that is wider than `b` by a single step, unless `b` is the type of
narrow integers and `a` that of whole numbers in expressions. -/
def NotBeyond (a b : Term) (other : Instance Built) : Prop :=
  ∀ σ c, other.rule.returns.fill σ = upcast a c → Widens 1 b c → a = litInt ∧ b = int

def ServedFirst (θ : TypeVar → Term) (a b : Term) (candidates : List (Instance Built)) : Prop :=
  ∃ before inst after ρ, candidates = before ++ inst :: after ∧
    inst ∈ instances false ∧ inst.rule.Serves Widenable wideningCost θ ρ (upcast a b) ∧
    ∀ other ∈ before, NotBeyond a b other

private theorem notBeyond_of_source {params : String} {source target : Term} {cast : Cast}
    (differ : ∀ σ, source.fill σ ≠ a) : NotBeyond a b (conversion params source target cast) :=
  fun σ _ returns _ => absurd (conversion_returns returns).1 (differ σ)

private theorem notBeyond_identity (widens : Widens n a b) (differ : a ≠ b) :
    NotBeyond a b (conversion "A" A A .identity) := by
  intro σ c returns further
  obtain ⟨source, rfl⟩ := conversion_returns returns
  rw [source] at further
  exact absurd (widens.antisymm further) differ

private theorem notBeyond_ofNothing (proper : a ≠ nothing) :
    NotBeyond a b (conversion "A" nothing A .identity) :=
  notBeyond_of_source fun σ source => proper (source.symm.trans (fill_named σ "Nothing"))

private theorem notBeyond_nullable {s t : String} (row : (s, t, n) ∈ ladder) :
    NotBeyond (.named s) (.named t) (conversion "A" A A.nullable .identity) := by
  intro σ c returns further
  obtain ⟨-, filled, differ⟩ := ladder_ne _ row
  obtain ⟨source, rfl⟩ := conversion_returns returns
  rw [fill_nullable, source] at further
  have bare : (Term.named s).isKnownNullable = false := by
    simpa [Term.isKnownNullable] using (ladder_bare _ row).1
  rcases further.to_nullable bare with ⟨equal, -⟩ | ⟨equal, -⟩ | ⟨equal, -⟩ | ⟨m, more, -⟩
  · exact absurd equal.symm (Term.nullable_ne_named bare _)
  · exact absurd (named_inj.mp equal) filled
  · exact absurd (named_inj.mp equal.symm) differ
  · omega

private theorem notBeyond_cast {cast : String × String × Cast}
    {earlier later : List (String × String × Cast)} (order : casts = earlier ++ cast :: later)
    (row : (cast.1, cast.2.1, n) ∈ ladder) {d : String × String × Cast} (inside : d ∈ earlier) :
    NotBeyond (.named cast.1) (.named cast.2.1) (castInstance d) := by
  intro σ c returns further
  obtain ⟨source, target⟩ := conversion_returns returns
  rw [fill_named] at source target
  rw [← target] at further
  have closer : cast.2.1 = d.2.1 ∨ (cast.2.1, d.2.1, 1) ∈ ladder := by
    rcases further.to_named with ⟨equal, -⟩ | ⟨equal, -⟩ | ⟨t, equal, rung⟩
    · exact .inl (named_inj.mp equal)
    · exact absurd (named_inj.mp equal) (ladder_ne _ row).2.1
    · exact .inr (named_inj.mp equal ▸ rung)
  have ordered := casts_order
  rw [order, List.pairwise_append] at ordered
  obtain ⟨isLiteral, isInt⟩ := ordered.2.2 d inside cast (List.mem_cons_self ..)
    (named_inj.mp source) closer
  exact ⟨congrArg Term.named isLiteral, congrArg Term.named isInt⟩

private theorem servedFirst_same (rest : List (Instance Built)) :
    ServedFirst θ a a (conversion "A" A A .identity :: rest) :=
  ⟨[], _, rest, fun _ => a, rfl, conversionToSame_mem,
    serves_conversion conversionToSame_mem trivial trivial (.same _), nofun⟩

private theorem servedFirst_ofNothing (proper : b ≠ nothing) (rest : List (Instance Built)) :
    ServedFirst θ nothing b
      (conversion "A" A A .identity :: conversion "A" nothing A .identity :: rest) := by
  have serves := serves_conversion (θ := θ) (ρ := fun _ => b) conversionOfNothing_mem
    (intact_named _ "Nothing") (show A.Intact _ from trivial)
    (fill_named _ "Nothing" ▸ .ofNothing proper)
  rw [show nothing.fill _ = nothing from fill_named _ _] at serves
  exact ⟨[_], _, rest, _, rfl, conversionOfNothing_mem, serves,
    List.forall_mem_singleton.mpr (notBeyond_identity (.ofNothing proper) proper.symm)⟩

private theorem servedFirst_nullable (freeA : a.QuantifierFree) (proper : a ≠ nothing)
    (bare : a.isKnownNullable = false) (rest : List (Instance Built)) :
    ServedFirst θ a a.nullable (generalConversions ++ rest) := by
  have own : A.nullable.fill (fun _ => a) = a.nullable := fill_nullable _ A
  have intact : A.nullable.Intact fun _ => a := Term.intact_con.mpr
    ⟨own.trans (nullable_eq_of_bare freeA bare), fun _ only => List.mem_singleton.mp only ▸ trivial⟩
  have serves := serves_conversion (θ := θ) (ρ := fun _ => a) conversionToNullable_mem
    (show A.Intact _ from trivial) intact (own ▸ .mark proper bare)
  rw [own] at serves
  refine ⟨[_, _], _, rest, _, rfl, conversionToNullable_mem, serves, List.forall_mem_cons.mpr
    ⟨notBeyond_identity (.mark proper bare) fun equal => Term.nullable_ne_of_bare bare equal.symm,
      List.forall_mem_singleton.mpr (notBeyond_ofNothing proper)⟩⟩

private theorem servedFirst_named {s t : String} (row : (s, t, 1) ∈ ladder)
    (rest : List (Instance Built)) :
    ServedFirst θ (.named s) (.named t) (generalConversions ++ casts.map castInstance ++ rest) := by
  obtain ⟨cast, member, rfl, rfl⟩ := exists_cast _ row rfl
  obtain ⟨earlier, later, order⟩ := List.append_of_mem member
  have serves := serves_conversion (θ := θ) (ρ := θ) (castInstance_mem cast member)
    (intact_named _ _) (intact_named _ _) (widens_fill_named row θ)
  rw [fill_named, fill_named] at serves
  obtain ⟨proper, -, differ⟩ := ladder_ne _ row
  refine ⟨generalConversions ++ earlier.map castInstance, castInstance cast,
    later.map castInstance ++ rest, θ, by simp [order], castInstance_mem cast member, serves,
    List.forall_mem_append.mpr ⟨?_, ?_⟩⟩
  · exact List.forall_mem_cons.mpr ⟨notBeyond_identity (.named row) fun h => differ (named_inj.mp h),
      List.forall_mem_cons.mpr ⟨notBeyond_ofNothing fun h => proper (named_inj.mp h),
        List.forall_mem_singleton.mpr (notBeyond_nullable row)⟩⟩
  · exact List.forall_mem_map.mpr fun d inside => notBeyond_cast order row inside

theorem servedFirst_candidatesFor (freeA : a.QuantifierFree) (widens : Widens 1 a b) {goal : Term}
    (head : goal.head? = some "Upcast") :
    ServedFirst θ a b (Registry.candidatesFor (instances false) goal) := by
  rw [candidatesFor_upcast head]
  obtain ⟨one, step⟩ : ∃ one, one = 1 := ⟨_, rfl⟩
  rw [← step] at widens
  cases widens with
  | same => exact servedFirst_same _
  | ofNothing proper => exact servedFirst_ofNothing proper _
  | named row => exact servedFirst_named (step ▸ row) _
  | mark proper bare =>
    rw [List.append_assoc]
    exact servedFirst_nullable freeA proper bare _
  | marked => omega
  | list _ inside =>
    have positive := inside.pos
    omega

private theorem exists_serving (θ : TypeVar → Term) (freeA : a.QuantifierFree)
    (freeB : b.QuantifierFree) (widens : Widens n a b) : ∃ inst ∈ instances false, ∃ ρ,
      inst.rule.Serves Widenable wideningCost θ ρ (upcast a b) := by
  by_cases direct : n = 1
  · subst direct
    obtain ⟨_, inst, _, ρ, -, registered, serves, -⟩ :=
      servedFirst_candidatesFor (θ := θ) freeA widens (show (upcast a b).head? = some "Upcast" from rfl)
    exact ⟨inst, registered, ρ, serves⟩
  · cases widens with
    | same => exact absurd rfl direct
    | ofNothing => exact absurd rfl direct
    | @named n s t row =>
      obtain ⟨⟨_, u, i⟩, lower, ⟨_, _, j⟩, upper, rfl, rfl, rfl, rfl⟩ :=
        (ladder_split _ row).resolve_left direct
      obtain ⟨ρ, serves⟩ := serves_composition (θ := θ) freeA (quantifierFree_named u) freeB
        (.named lower) (.named upper) (.named row)
      exact ⟨composition, by simp [instances], ρ, serves⟩
    | mark => exact absurd rfl direct
    | @marked n a x proper differ bare inside =>
      obtain ⟨ρ, serves⟩ := serves_composition (θ := θ) freeA (quantifierFree_of_nullable freeB) freeB
        inside (.to_own_nullable x) (.marked proper differ bare inside)
      exact ⟨composition, by simp [instances], ρ, serves⟩
    | @list n x y differ inside =>
      obtain ⟨ρ, serves⟩ := serves_lists (θ := θ)
        ((Term.builtFrom_con.mp freeA).2 x (List.mem_singleton_self x))
        ((Term.builtFrom_con.mp freeB).2 y (List.mem_singleton_self y)) differ inside
      exact ⟨_, by simp [instances], ρ, serves⟩

end Candidates

noncomputable def wideningPlan (θ : TypeVar → Term) : Plan (instances false) θ where
  meets := Widenable
  cost := wideningCost
  starts := by
    rintro goal ⟨n, a, b, rfl, freeA, freeB, widens⟩
    exact exists_serving θ freeA freeB widens

end TypedCalls.Standard
