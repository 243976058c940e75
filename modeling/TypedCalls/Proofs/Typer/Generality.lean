import TypedCalls.Proofs.Typer.Growth
import TypedCalls.Proofs.Typer.Rigidity
import TypedCalls.Proofs.Typer.Trials

/-!
Comparing two universal schemes decides which is the more general.

With the variables of one side rigid, a comparison succeeds just if the rigid side can be obtained
from the other by replacing variables (`compareRigid_cases`). Both ways round are tried, so two
schemes unify just if one of them is an instance of the other (`unify_decides_generality`).
-/

set_option autoImplicit false

namespace TypedCalls

open Classes (Satisfies)

/-- The name opens with the letter of no family. -/
def TypeVar.Unmarked (v : TypeVar) : Prop := ∀ family, v.belongsTo family = false

namespace Term

/-- First-order, and no free variable has the name of a made-up one. -/
structure Ordinary (t : Term) : Prop where
  first : t.FirstOrder
  unmarked : ∀ v ∈ t.freeVars, v.Unmarked

def ObtainedFrom (s : Term) (vars : List TypeVar) (t : Term) : Prop :=
  ∃ θ : TypeVar → Term, (∀ v ∈ vars, (θ v).Ordinary) ∧
    s = t.fill fun v => if v ∈ vars then θ v else .use v

private theorem obtainedFrom_self {vars : List TypeVar} {t : Term} (first : t.FirstOrder)
    (unmarked : ∀ v ∈ vars, v.Unmarked) : t.ObtainedFrom vars t := by
  refine ⟨.use, fun v member => ⟨trivial, fun w free => ?_⟩, ?_⟩
  · rw [List.mem_singleton.mp free]
    exact unmarked v member
  · simp only [ite_self]
    exact first.fill_use_self.symm

private theorem Ordinary.fill {θ : TypeVar → Term} {t : Term} (first : t.FirstOrder)
    (images : ∀ v ∈ t.freeVars, (θ v).Ordinary) : (t.fill θ).Ordinary := by
  refine ⟨builtFrom_fill first fun v free => (images v free).first, fun w free => ?_⟩
  obtain ⟨v, own, inside⟩ := (mem_freeVars_fill first.quantifierFree).mp free
  exact (images v own).unmarked w inside

private theorem exists_choice {vars : List TypeVar} {g : TypeVar → TypeVar}
    (inj : ∀ v ∈ vars, ∀ w ∈ vars, g v = g w → v = w) (image other : TypeVar → Term) :
    ∃ θ : TypeVar → Term, (∀ v ∈ vars, θ (g v) = image v) ∧
      ∀ x, (∀ v ∈ vars, x ≠ g v) → θ x = other x := by
  classical
  refine ⟨fun x => if h : ∃ v ∈ vars, x = g v then image h.choose else other x, ?_, ?_⟩
  · intro v member
    have h : ∃ w ∈ vars, g v = g w := ⟨v, member, rfl⟩
    have same : h.choose = v := (inj v member _ h.choose_spec.1 h.choose_spec.2).symm
    dsimp only
    rw [dif_pos h, same]
  · intro x missed
    refine dif_neg ?_
    rintro ⟨v, member, equal⟩
    exact missed v member equal

section Opened

variable {vs ws rigid : List TypeVar} {a b : Term} {f g : TypeVar → TypeVar}

private theorem exists_fill_eq_of_obtainedFrom (firstA : a.FirstOrder) (firstB : b.FirstOrder)
    (closedA : ∀ v ∈ a.freeVars, v ∈ vs) (closedB : ∀ v ∈ b.freeVars, v ∈ ws)
    (inj : ∀ v ∈ ws, ∀ w ∈ ws, g v = g w → v = w) (apart : ∀ v ∈ vs, ∀ w ∈ ws, f v ≠ g w)
    (obtained : a.ObtainedFrom ws b) :
    ∃ θ : TypeVar → Term, (∀ x, (∀ w ∈ ws, x ≠ g w) → θ x = .use x) ∧
      (a.fill fun v => .use (f v)).fill θ = (b.fill fun v => .use (g v)).fill θ := by
  obtain ⟨η, -, equal⟩ := obtained
  obtain ⟨θ, opens, keeps⟩ := exists_choice inj (fun w => (η w).fill fun v => .use (f v)) .use
  refine ⟨θ, keeps, ?_⟩
  have left : (a.fill fun v => .use (f v)).fill θ = a.fill fun v => .use (f v) := by
    rw [fill_fill _ _ firstA.quantifierFree]
    refine fill_congr fun v free => ?_
    rw [fill_use, keeps (f v) (apart v (closedA v free))]
  have right : (b.fill fun v => .use (g v)).fill θ =
      b.fill fun w => (η w).fill fun v => .use (f v) := by
    rw [fill_fill _ _ firstB.quantifierFree]
    refine fill_congr fun w free => ?_
    rw [fill_use, opens w (closedB w free)]
  rw [left, right, equal, fill_fill _ _ firstB.quantifierFree]
  refine fill_congr fun w free => ?_
  rw [if_pos (closedB w free)]

private theorem obtainedFrom_of_fill_eq (firstA : a.FirstOrder) (firstB : b.FirstOrder)
    (closedA : ∀ v ∈ a.freeVars, v ∈ vs) (closedB : ∀ v ∈ b.freeVars, v ∈ ws)
    (unmarked : ∀ v ∈ vs, v.Unmarked) (inj : ∀ v ∈ vs, ∀ w ∈ vs, f v = f w → v = w)
    (names : ∀ v ∈ vs, f v ∈ rigid) {θ : TypeVar → Term} (first : ∀ x, (θ x).FirstOrder)
    (separates : Separates θ rigid)
    (equal : (a.fill fun v => .use (f v)).fill θ = (b.fill fun v => .use (g v)).fill θ) :
    a.ObtainedFrom ws b := by
  have images : ∀ v, ∃ x, v ∈ vs → θ (f v) = .use x := by
    intro v
    by_cases member : v ∈ vs
    · obtain ⟨x, var⟩ := separates.var (f v) (names v member)
      exact ⟨x, fun _ => var⟩
    · exact ⟨v, fun inside => absurd inside member⟩
  choose x var using images
  have back : ∀ v ∈ vs, ∀ w ∈ vs, x v = x w → v = w := by
    intro v memberV w memberW same
    refine inj v memberV w memberW
      (separates.inj _ (names v memberV) _ (names w memberW) ?_)
    rw [var v memberV, var w memberW, same]
  obtain ⟨ι, turns, others⟩ := exists_choice back .use fun _ => .named ""
  have ordinary (y : TypeVar) : (ι y).Ordinary := by
    by_cases known : ∃ v ∈ vs, y = x v
    · obtain ⟨v, member, rfl⟩ := known
      rw [turns v member]
      exact ⟨trivial, fun w free => List.mem_singleton.mp free ▸ unmarked v member⟩
    · rw [others y fun v member same => known ⟨v, member, same⟩]
      exact ⟨builtFrom_con.mpr ⟨by decide, by simp⟩, by simp [freeVars, freeVarsAll]⟩
  refine ⟨fun w => (θ (g w)).fill ι, fun w _ => .fill (first _) fun y _ => ordinary y, ?_⟩
  have left : ((a.fill fun v => .use (f v)).fill θ).fill ι = a := by
    rw [fill_fill _ _ firstA.quantifierFree, fill_fill _ _ firstA.quantifierFree]
    conv_rhs => rw [← firstA.fill_use_self]
    refine fill_congr fun v free => ?_
    rw [fill_use, var v (closedA v free), fill_use, turns v (closedA v free)]
  rw [← left, equal, fill_fill _ _ firstB.quantifierFree, fill_fill _ _ firstB.quantifierFree]
  refine fill_congr fun w free => ?_
  rw [fill_use, if_pos (closedB w free)]

end Opened

end Term

open TypeVar (numbered)

private theorem Typer.exists_names (typer : Typer) (family : Family) {vars : List TypeVar}
    (given : ∀ v ∈ vars, ¬v.MadeUp) :
    ∃ f : TypeVar → TypeVar,
      (∀ t : Term, t.subst (typer.freshFor family vars).1 = t.fill fun v => .use (f v)) ∧
      (∀ v ∈ vars, ∃ i < vars.length, f v = numbered family (typer.counter + 1 + i)) ∧
      ∀ v ∈ vars, ∀ w ∈ vars, f v = f w → v = w := by
  have images : ∀ v, ∃ w, typer.opening family vars v = .use w ∧
      (v ∈ vars → ∃ i < vars.length, w = numbered family (typer.counter + 1 + i)) := by
    intro v
    by_cases member : v ∈ vars
    · obtain ⟨i, below, found⟩ := exists_index_freshFor family member
      exact ⟨_, by rw [opening, found, Option.getD_some], fun _ => ⟨i, below, rfl⟩⟩
    · exact ⟨v, typer.opening_of_not_mem family member, fun inside => absurd inside member⟩
  choose f opens numbers using images
  refine ⟨f, fun t => ?_, numbers, fun v memberV w memberW equal => ?_⟩
  · rw [typer.subst_freshFor family given]
    exact Term.fill_congr fun v _ => opens v
  · refine typer.opening_inj family memberV memberW ?_
    rw [opens, opens, equal]

namespace Classes

private theorem spares_empty (rigid : List TypeVar) : Spares .empty rigid :=
  ⟨fun r _ => bound?_empty r, fun _ _ _ _ equal => same_empty.mp equal⟩

end Classes

namespace Typing

section Schemes

variable {vs ws : List TypeVar} {a b : Term}

private theorem depthFor_opened_le {typer : Typer} (nothing : typer.classes = .empty)
    (f g : TypeVar → TypeVar) :
    typer.depthFor (a.fill fun v => .use (f v)) (b.fill fun v => .use (g v)) ≤
      10000 + 3 * ((a.size + b.size + 1) * (a.size + b.size + 1)) := by
  have renamed (t : Term) (h : TypeVar → TypeVar) : (t.fill fun v => .use (h v)).size ≤ t.size :=
    Term.size_replace_le (fun v u image => ⟨h v, (Option.some.inj image).symm⟩) [] t
  have weight : typer.weight (a.fill fun v => .use (f v)) (b.fill fun v => .use (g v)) ≤
      a.size + b.size := by
    have one := renamed a f
    have other := renamed b g
    rw [Typer.weight, nothing]
    simp only [Classes.empty, List.length_nil, List.filterMap_nil, Term.sizeAll]
    omega
  have square := Nat.mul_le_mul (Nat.add_le_add_right weight 1) (Nat.add_le_add_right weight 1)
  rw [Typer.depthFor]
  omega

/-- With the variables of one side rigid, a typer that knows nothing finds out whether that side is
obtained from the other. -/
theorem compareRigid_cases (firstA : a.FirstOrder) (firstB : b.FirstOrder)
    (closedA : ∀ v ∈ a.freeVars, v ∈ vs) (closedB : ∀ v ∈ b.freeVars, v ∈ ws)
    (unmarkedV : ∀ v ∈ vs, v.Unmarked) (unmarkedW : ∀ v ∈ ws, v.Unmarked) {depth : Nat}
    (enough : 10000 + 3 * ((a.size + b.size + 1) * (a.size + b.size + 1)) ≤ depth) (whole : Clash)
    {z : Session} (fresh : z.typer = .fresh) :
    (∃ u, compareRigid (unifyWithin depth) [] whole vs a ws b z = .ok () u ∧ a.ObtainedFrom ws b) ∨
      ∃ clash u, compareRigid (unifyWithin depth) [] whole vs a ws b z = .error (.clash clash) u ∧
        ¬a.ObtainedFrom ws b := by
  obtain ⟨f, opensA, numbersA, injA⟩ := z.typer.exists_names .existential fun v member =>
    TypeVar.not_madeUp_of_belongsTo (unmarkedV v member)
  obtain ⟨g, opensB, numbersB, injB⟩ := (stricten z.typer vs).exists_names .existential
    fun v member => TypeVar.not_madeUp_of_belongsTo (unmarkedW v member)
  have apart : ∀ r ∈ skolemsFor z.typer vs, ∀ w ∈ ws, r ≠ g w := by
    intro r member w inside equal
    obtain ⟨i, below, rfl⟩ := (z.typer.mem_freshFor_freeVars .existential).mp member
    obtain ⟨j, -, number⟩ := numbersB w inside
    have same := TypeVar.numbered_inj (equal.trans number)
    rw [counter_stricten] at same
    omega
  have names : ∀ v ∈ vs, f v ∈ skolemsFor z.typer vs := by
    intro v member
    exact (z.typer.mem_freshFor_freeVars .existential).mpr (numbersA v member)
  let strict : Session := { z with typer := strictFor z.typer vs ws }
  have nothing : strict.typer.classes = .empty := by
    show z.typer.classes = _
    rw [fresh]
    rfl
  have rigid : strict.typer.rigid = skolemsFor z.typer vs := by
    show z.typer.rigid ++ _ = _
    rw [fresh]
    rfl
  have sound : strict.typer.Sound .firstOrder := by
    rw [Typer.Sound, nothing]
    exact Problem.sane_empty _
  have opened {t : Term} (first : t.FirstOrder) (h : TypeVar → TypeVar) :
      (t.fill fun v => .use (h v)).FirstOrder := Term.builtFrom_fill first fun _ _ => trivial
  rw [compareRigid_apply, opensA, opensB]
  rcases unifyWithin_rigid_cases sound (nothing ▸ Classes.spares_empty _) (opened firstA f)
      (opened firstB g) ((depthFor_opened_le nothing f g).trans enough) with
    ⟨u, success, θ, first, -, separates, equal⟩ | ⟨clash, u, failure, none⟩
  · rw [success]
    refine .inl ⟨_, rfl, ?_⟩
    rw [rigid] at separates
    exact Term.obtainedFrom_of_fill_eq firstA firstB closedA closedB unmarkedV injA names first
      separates equal
  · rw [failure]
    refine .inr ⟨clash, u, rfl, fun obtained => ?_⟩
    obtain ⟨θ, keeps, equal⟩ := Term.exists_fill_eq_of_obtainedFrom firstA firstB closedA closedB
      injB (fun v member => apart (f v) (names v member)) obtained
    refine none θ (nothing ▸ Classes.satisfies_empty θ) ?_ equal
    rw [rigid]
    have fixed (r : TypeVar) (member : r ∈ skolemsFor z.typer vs) := keeps r (apart r member)
    refine ⟨fun r member => ⟨r, fixed r member⟩, fun r member r' member' same => ?_⟩
    rw [fixed r member, fixed r' member'] at same
    injection same

private theorem firstOf_cases {P Q : Typing Unit} {s : Session} {p q : Prop}
    (first : ∀ z : Session, z.typer = s.typer →
      (∃ u, P z = .ok () u ∧ p) ∨ ∃ clash u, P z = .error (.clash clash) u ∧ ¬p)
    (second : ∀ z : Session, z.typer = s.typer →
      (∃ u, Q z = .ok () u ∧ q) ∨ ∃ clash u, Q z = .error (.clash clash) u ∧ ¬q) :
    (∃ u, firstOf P Q s = .ok () u ∧ (p ∨ q)) ∨
      ∃ clash u, firstOf P Q s = .error (.clash clash) u ∧ ¬(p ∨ q) := by
  unfold firstOf
  rcases first s.trial rfl with ⟨u, success, holds⟩ | ⟨clash, u, failure, fails⟩
  · rw [success]
    exact .inl ⟨_, rfl, .inl holds⟩
  · rw [failure]
    dsimp only
    rcases second (s.discard u.report).trial rfl with ⟨v, success, holds⟩ | ⟨_, v, failure', fails'⟩
    · rw [success]
      exact .inl ⟨_, rfl, .inr holds⟩
    · rw [failure']
      exact .inr ⟨clash, _, rfl, not_or.mpr ⟨fails, fails'⟩⟩

private theorem visible_fresh {a b : Term} (closedA : a.freeVars = []) (closedB : b.freeVars = []) :
    Typer.fresh.visible a b = [] := by
  refine List.eq_nil_iff_forall_not_mem.mpr fun w seen => ?_
  rw [Typer.mem_visible Classes.tidy_empty, closedA, closedB] at seen
  rcases seen with free | free | listed | ⟨x, t, bound, -⟩
  · cases free
  · cases free
  · cases listed
  · cases (Classes.bound?_empty x).symm.trans bound

private theorem mem_of_closed {vars : List TypeVar} {t : Term}
    (closed : (Term.scheme .every vars t).freeVars = []) : ∀ v ∈ t.freeVars, v ∈ vars := by
  intro v free
  by_contra unbound
  have shown : v ∈ (Term.scheme .every vars t).freeVars :=
    Term.mem_freeVars_scheme.mpr ⟨free, unbound⟩
  rw [closed] at shown
  cases shown

private theorem unify_schemes_cases (firstA : a.FirstOrder) (firstB : b.FirstOrder)
    (closedA : (Term.scheme .every vs a).freeVars = [])
    (closedB : (Term.scheme .every ws b).freeVars = []) (unmarkedV : ∀ v ∈ vs, v.Unmarked)
    (unmarkedW : ∀ v ∈ ws, v.Unmarked) (report : Report) :
    (∃ s, unify (.scheme .every vs a) (.scheme .every ws b) (.start .fresh report) = .ok () s ∧
        (a.ObtainedFrom ws b ∨ b.ObtainedFrom vs a)) ∨
      ∃ clash s, unify (.scheme .every vs a) (.scheme .every ws b) (.start .fresh report) =
          .error (.clash clash) s ∧ ¬(a.ObtainedFrom ws b ∨ b.ObtainedFrom vs a) := by
  obtain ⟨depth, deep, enough⟩ : ∃ depth,
      Typer.fresh.depthFor (.scheme .every vs a) (.scheme .every ws b) = depth + 1 ∧
        10000 + 3 * ((a.size + b.size + 1) * (a.size + b.size + 1)) ≤ depth := by
    have weight : a.size + b.size <
        Typer.fresh.weight (.scheme .every vs a) (.scheme .every ws b) := by
      rw [Typer.weight, Term.size, Term.size]
      omega
    have square := Nat.mul_lt_mul'' (Nat.add_lt_add_right weight 1) (Nat.add_lt_add_right weight 1)
    refine ⟨Typer.fresh.depthFor (.scheme .every vs a) (.scheme .every ws b) - 1, ?_, ?_⟩
    · rw [Typer.depthFor]
      omega
    · rw [Typer.depthFor]
      omega
  have run : unify (.scheme .every vs a) (.scheme .every ws b) (.start .fresh report) =
      unifyStep (unifyWithin depth) (.scheme .every vs a) (.scheme .every ws b)
        (.start .fresh report) := by
    show unifyWithin (Typer.fresh.depthFor _ _) _ _ _ = _
    rw [deep, unifyWithin]
  rw [run, unifyStep]
  by_cases equal : Term.scheme .every vs a = .scheme .every ws b
  · rw [if_pos equal]
    injection equal with _ same bodies
    subst same bodies
    exact .inl ⟨_, rfl, .inl (Term.obtainedFrom_self firstA unmarkedV)⟩
  · have tried : unifySchemes (unifyWithin depth) vs a ws b (.start .fresh report) = firstOf
        (compareRigid (unifyWithin depth) [] ⟨.escape, .scheme .every vs a, .scheme .every ws b⟩
          vs a ws b)
        (compareRigid (unifyWithin depth) [] ⟨.escape, .scheme .every vs a, .scheme .every ws b⟩
          ws b vs a) (.start .fresh report) := by
      rw [← visible_fresh closedA closedB]
      rfl
    rw [if_neg equal, tried]
    refine firstOf_cases (fun z fresh => ?_) fun z fresh => ?_
    · exact compareRigid_cases firstA firstB (mem_of_closed closedA) (mem_of_closed closedB)
        unmarkedV unmarkedW enough _ fresh
    · rw [Nat.add_comm a.size] at enough
      exact compareRigid_cases firstB firstA (mem_of_closed closedB) (mem_of_closed closedA)
        unmarkedW unmarkedV enough _ fresh

end Schemes

/-- What it means that two universal schemes are compared by their generality. -/
structure DecidesGenerality (vs : List TypeVar) (a : Term) (ws : List TypeVar) (b : Term)
    (result : EStateM.Result UnifyFailure Session Unit) : Prop where
  /-- Success says that one of the bodies is obtained from the other. -/
  succeeds : (∃ s, result = .ok () s) ↔ a.ObtainedFrom ws b ∨ b.ObtainedFrom vs a
  /-- Otherwise the schemes clash. -/
  clashes : (∃ clash s, result = .error (.clash clash) s) ↔
    ¬(a.ObtainedFrom ws b ∨ b.ObtainedFrom vs a)
  /-- After success no variable is rigid. -/
  rigid : ∀ s, result = .ok () s → s.typer.rigid = []

/-- Two closed universal schemes with ordinary bodies unify just if one is an instance of the other.
-/
theorem unify_decides_generality {vs ws : List TypeVar} {a b : Term} (ordinaryA : a.Ordinary)
    (ordinaryB : b.Ordinary) (closedA : (Term.scheme .every vs a).freeVars = [])
    (closedB : (Term.scheme .every ws b).freeVars = []) (unmarkedV : ∀ v ∈ vs, v.Unmarked)
    (unmarkedW : ∀ v ∈ ws, v.Unmarked) (report : Report) :
    DecidesGenerality vs a ws b
      (unify (.scheme .every vs a) (.scheme .every ws b) (.start .fresh report)) := by
  have learned := Typer.learned_unify (Problem.sane_empty _ : Typer.fresh.Sound .trivial)
    (.scheme .every vs a) (.scheme .every ws b) report
  rcases unify_schemes_cases ordinaryA.first ordinaryB.first closedA closedB unmarkedV unmarkedW
      report with ⟨s, success, obtained⟩ | ⟨clash, s, failure, neither⟩
  · rw [success] at learned ⊢
    refine ⟨⟨fun _ => obtained, fun _ => ⟨s, rfl⟩⟩,
      ⟨?_, fun neither => absurd obtained neither⟩, ?_⟩
    · rintro ⟨clash, s', ⟨⟩⟩
    · rintro s' ⟨⟩
      exact learned.rigid
  · rw [failure]
    refine ⟨⟨?_, fun obtained => absurd obtained neither⟩,
      ⟨fun _ => neither, fun _ => ⟨clash, s, rfl⟩⟩, ?_⟩
    · rintro ⟨s', ⟨⟩⟩
    · rintro s' ⟨⟩

/-- A function from a list to a pair is an instance of one between any two types, which is obtained
in the second way round that is tried. Two variables cannot be obtained from one. -/
theorem unify_decides_generality_functions :
    let x : TypeVar := ⟨"x"⟩
    let y : TypeVar := ⟨"y"⟩
    let general : Term := .func [] [.use x] (.use y)
    let special : Term := .func [] [.con "list" [.use x]] (.con "pair" [.use x, .use x])
    let result := unify (.scheme .every [x, y] general) (.scheme .every [x] special)
      (.start .fresh .quiet)
    general.Ordinary ∧ special.Ordinary ∧ (Term.scheme .every [x, y] general).freeVars = [] ∧
      (Term.scheme .every [x] special).freeVars = [] ∧ (∀ v ∈ [x, y], v.Unmarked) ∧
      (∀ v ∈ [x], v.Unmarked) ∧ Typer.succeeded result = true ∧
      DecidesGenerality [x, y] general [x] special result ∧
      special.ObtainedFrom [x, y] general ∧ ¬general.ObtainedFrom [x] special := by
  intro x y general special result
  have unmarked : ∀ v ∈ [x, y], v.Unmarked := by
    intro v member family
    rcases List.mem_pair.mp member with rfl | rfl <;> cases family <;> decide
  have ordinaryA : general.Ordinary := by
    refine ⟨by simp [general, Term.FirstOrder, Term.BuiltFrom, Term.BuiltFromAll], ?_⟩
    exact fun v free => unmarked v (by revert v; decide)
  have ordinaryB : special.Ordinary := by
    refine ⟨by simp [special, Term.FirstOrder, Term.BuiltFrom, Term.BuiltFromAll,
      Term.nullableHead], ?_⟩
    exact fun v free => unmarked v (by revert v; decide)
  have unmarkedX : ∀ v ∈ [x], v.Unmarked := fun v member =>
    unmarked v (List.mem_cons.mpr (.inl (List.mem_singleton.mp member)))
  have answer := unify_decides_generality ordinaryA ordinaryB (by decide) (by decide) unmarked
    unmarkedX .quiet
  have success : Typer.succeeded result = true := by decide +kernel
  have notGeneral : ¬general.ObtainedFrom [x] special := by
    rintro ⟨θ, -, equal⟩
    rw [Term.fill_func] at equal
    injection equal with _ _ results
    rw [Term.fill_con_of_ne _ (by decide : "pair" ≠ Term.nullableHead)] at results
    cases results
  have obtained : special.ObtainedFrom [x, y] general := by
    refine (answer.succeeds.mp ?_).resolve_left notGeneral
    cases ran : result with
    | ok _ s => exact ⟨s, ran⟩
    | error failure s =>
      rw [ran] at success
      cases success
  exact ⟨ordinaryA, ordinaryB, by decide, by decide, unmarked, unmarkedX, success, answer, obtained,
    notGeneral⟩

end Typing

end TypedCalls
