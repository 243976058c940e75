import TypedCalls.Proofs.Term.Alpha
import TypedCalls.Proofs.Typer.Generality
import TypedCalls.Proofs.Typer.Symmetry

/-!
Terms that differ in the names of bound variables unify, and nothing is learned from it.

Whenever two binders are opened, each name made for the first has a partner made for the second. A
run on terms that are built alike, with partners at the same places, only ever joins partners
(`unifiesAlike_unifyWithin`): no class is ever bound, of two partners at most one is rigid, and no
name gets out, because everything that can be seen from outside is older than both partners.

The one thing that stands in the way is an existential quantifier right over a variable. Opened on
one side, it leaves a variable, which is then made to stand for the scheme on the other side.
-/

set_option autoImplicit false

namespace TypedCalls

open TypeVar (Older numbered)
open Classes (Tidy)

def TypeVar.GivenOut (c : Nat) (v : TypeVar) : Prop :=
  ∃ family n, 0 < n ∧ n ≤ c ∧ v = numbered family n

private theorem TypeVar.GivenOut.older {c : Nat} {v : TypeVar} (given : v.GivenOut c) :
    Older c v := by
  obtain ⟨family, n, -, le, rfl⟩ := given
  exact older_numbered family le

private theorem TypeVar.GivenOut.mono {c d : Nat} {v : TypeVar} (given : v.GivenOut c)
    (le : c ≤ d) : v.GivenOut d := by
  obtain ⟨family, n, positive, below, equal⟩ := given
  exact ⟨family, n, positive, below.trans le, equal⟩

/-! Partners. -/

/-- Two names of one family made for the same place of two binders of `n` variables, of which the
first was opened when the last number was `c` and the second right after it. -/
def Partners (family : Family) (c n : Nat) (x y : TypeVar) : Prop :=
  ∃ i < n, x = numbered family (c + 1 + i) ∧ y = numbered family (c + n + 1 + i)

def WithPartners (R : TypeVar → TypeVar → Prop) (family : Family) (c n : Nat) (x y : TypeVar) :
    Prop :=
  R x y ∨ Partners family c n x y ∨ Partners family c n y x

/-- A variable is related to at most one other, and only names that were given out are. -/
structure Pairing (R : TypeVar → TypeVar → Prop) (c : Nat) : Prop where
  symm : ∀ {x y}, R x y → R y x
  unique : ∀ {x y z}, R x y → R x z → x ≠ y → x ≠ z → y = z
  given : ∀ {x y}, R x y → x ≠ y → x.GivenOut c

namespace Partners

variable {family : Family} {c n : Nat} {x y z : TypeVar}

private theorem not_older (partners : Partners family c n x y) : ¬Older c x ∧ ¬Older c y := by
  obtain ⟨i, -, rfl, rfl⟩ := partners
  exact ⟨TypeVar.not_older_numbered family (by omega), TypeVar.not_older_numbered family (by omega)⟩

private theorem givenOut (partners : Partners family c n x y) :
    x.GivenOut (c + n + n) ∧ y.GivenOut (c + n + n) := by
  obtain ⟨i, below, rfl, rfl⟩ := partners
  exact ⟨⟨family, _, by omega, by omega, rfl⟩, ⟨family, _, by omega, by omega, rfl⟩⟩

private theorem right_unique (first : Partners family c n x y) (second : Partners family c n x z) :
    y = z := by
  obtain ⟨i, -, rfl, rfl⟩ := first
  obtain ⟨j, -, equal, rfl⟩ := second
  have number := TypeVar.numbered_inj equal
  rw [show c + n + 1 + i = c + n + 1 + j by omega]

private theorem left_unique (first : Partners family c n y x) (second : Partners family c n z x) :
    y = z := by
  obtain ⟨i, -, rfl, rfl⟩ := first
  obtain ⟨j, -, rfl, equal⟩ := second
  have number := TypeVar.numbered_inj equal
  rw [show c + 1 + i = c + 1 + j by omega]

private theorem not_both (first : Partners family c n x y) (second : Partners family c n z x) :
    False := by
  obtain ⟨i, below, rfl, -⟩ := first
  obtain ⟨j, -, -, equal⟩ := second
  have number := TypeVar.numbered_inj equal
  omega

end Partners

section Extended

variable {R : TypeVar → TypeVar → Prop} {c : Nat}

private theorem Pairing.eq : Pairing Eq c :=
  ⟨Eq.symm, fun equal _ differ => absurd equal differ, fun equal differ => absurd equal differ⟩

private theorem WithPartners.cases {family : Family} {n : Nat} {x y : TypeVar}
    (related : WithPartners R family c n x y) :
    R x y ∨ (Partners family c n x y ∨ Partners family c n y x) ∧ ¬Older c x ∧ ¬Older c y := by
  rcases related with old | first | second
  · exact .inl old
  · exact .inr ⟨.inl first, first.not_older⟩
  · exact .inr ⟨.inr second, second.not_older.symm⟩

private theorem Pairing.withPartners (pairing : Pairing R c) (family : Family) (n : Nat) :
    Pairing (WithPartners R family c n) (c + n + n) := by
  refine ⟨fun related => ?_, fun {x y z} one other differ differ' => ?_, fun related differ => ?_⟩
  · rcases related with old | first | second
    · exact .inl (pairing.symm old)
    · exact .inr (.inr first)
    · exact .inr (.inl second)
  · rcases one.cases with old | ⟨new, notOld, -⟩
    · rcases other.cases with old' | ⟨-, notOld, -⟩
      · exact pairing.unique old old' differ differ'
      · exact absurd (pairing.given old differ).older notOld
    · rcases other.cases with old' | ⟨new', -⟩
      · exact absurd (pairing.given old' differ').older notOld
      · rcases new with first | second <;> rcases new' with first' | second'
        · exact first.right_unique first'
        · exact (first.not_both second').elim
        · exact (first'.not_both second).elim
        · exact second.left_unique second'
  · rcases related with old | first | second
    · exact (pairing.given old differ).mono (by omega)
    · exact first.givenOut.1
    · exact second.givenOut.2

end Extended

/-! What a typer knows after a run on terms that are built alike. -/

/-- Only partners were joined, nothing was bound, and of two partners at most one is rigid. -/
structure Typer.Coupled (R : TypeVar → TypeVar → Prop) (typer : Typer) : Prop where
  pairing : Pairing R typer.counter
  tidy : Tidy typer.classes
  unbound : ∀ v, typer.classes.bound? v = none
  same : ∀ {x y}, typer.classes.same x y = true → x ≠ y → R x y
  mentioned : ∀ v ∈ typer.classes.mentioned, ∃ w, R v w ∧ v ≠ w
  rigid : ∀ {x y}, R x y → x ≠ y → x ∈ typer.rigid → y ∉ typer.rigid
  older : ∀ r ∈ typer.rigid, Older typer.counter r

namespace Typer

variable {R : TypeVar → TypeVar → Prop} {typer : Typer}

private theorem coupled_fresh : Coupled Eq .fresh where
  pairing := .eq
  tidy := Classes.tidy_empty
  unbound := Classes.bound?_empty
  same equal differ := absurd (Classes.same_empty.mp equal) differ
  mentioned v listed := by cases listed
  rigid equal differ := absurd equal differ
  older r member := by cases member

namespace Coupled

private theorem givenOut_of_mentioned (coupled : Coupled R typer) {v : TypeVar}
    (listed : v ∈ typer.classes.mentioned) : v.GivenOut typer.counter := by
  obtain ⟨w, related, differ⟩ := coupled.mentioned v listed
  exact coupled.pairing.given related differ

section Partner

variable {v w : TypeVar} (related : R v w) (differ : v ≠ w)
  (apart : ¬typer.classes.same v w = true)

include related differ apart

private theorem eq_of_same (coupled : Coupled R typer) {x : TypeVar}
    (equal : typer.classes.same x v = true) : x = v := by
  by_contra other
  have equal' := Classes.same_symm equal
  have joined := coupled.same equal' (Ne.symm other)
  have partner : w = x := coupled.pairing.unique related joined differ (Ne.symm other)
  exact apart (partner ▸ equal')

private theorem isRigid_iff (coupled : Coupled R typer) :
    typer.isRigid v = true ↔ v ∈ typer.rigid := by
  rw [isRigid, List.any_eq_true]
  constructor
  · rintro ⟨r, member, equal⟩
    exact coupled.eq_of_same related differ apart (Classes.same_symm equal) ▸ member
  · exact fun member => ⟨v, member, Classes.same_self _ v⟩

private theorem not_both_rigid (coupled : Coupled R typer) :
    ¬(typer.isRigid v && typer.isRigid w) = true := by
  have apart' : ¬typer.classes.same w v = true := mt Classes.same_symm apart
  rw [Bool.and_eq_true, coupled.isRigid_iff related differ apart,
    coupled.isRigid_iff (coupled.pairing.symm related) (Ne.symm differ) apart']
  rintro ⟨first, second⟩
  exact coupled.rigid related differ first second

private theorem join (coupled : Coupled R typer) :
    Coupled R { typer with classes := typer.classes.join v w } := by
  have apart' : ¬typer.classes.same w v = true := mt Classes.same_symm apart
  have back := coupled.pairing.symm related
  have merges := Classes.merges_join coupled.tidy (coupled.unbound v) (coupled.unbound w)
  have atV {x : TypeVar} := coupled.eq_of_same related differ apart (x := x)
  have atW {x : TypeVar} := coupled.eq_of_same back (Ne.symm differ) apart' (x := x)
  refine ⟨coupled.pairing, (Classes.join_spec coupled.tidy w (coupled.unbound v)).1, fun x => ?_,
    fun {x y} equal other => ?_, fun x listed => ?_, coupled.rigid, coupled.older⟩
  · rw [merges.bound x]
    exact coupled.unbound x
  · rcases (merges.same x y).mp equal with old | ⟨one, two⟩ | ⟨one, two⟩
    · exact coupled.same old other
    · rw [atV one, atW two]
      exact related
    · rw [atW one, atV two]
      exact back
  · rcases (merges.mentioned x).mp listed with old | rfl | rfl
    · exact coupled.mentioned x old
    · exact ⟨w, related, differ⟩
    · exact ⟨v, back, Ne.symm differ⟩

end Partner

private theorem opened (coupled : Coupled R typer) (family : Family) (n : Nat)
    {rigid : List TypeVar}
    (more : ∀ r ∈ rigid, r ∈ typer.rigid ∨ ∃ i < n, r = numbered family (typer.counter + 1 + i)) :
    Coupled (WithPartners R family typer.counter n)
      { typer with counter := typer.counter + n + n, rigid := rigid } := by
  have old {r : TypeVar} (member : r ∈ rigid) (older : Older typer.counter r) :
      r ∈ typer.rigid := by
    refine (more r member).resolve_right ?_
    rintro ⟨i, -, rfl⟩
    exact TypeVar.not_older_numbered family (by omega) older
  have second {x y : TypeVar} (partners : Partners family typer.counter n x y) : y ∉ rigid := by
    intro member
    rcases more y member with inside | ⟨j, below, equal⟩
    · exact partners.not_older.2 (coupled.older y inside)
    · obtain ⟨i, -, -, rfl⟩ := partners
      have number := TypeVar.numbered_inj equal
      omega
  refine ⟨coupled.pairing.withPartners family n, coupled.tidy, coupled.unbound,
    fun equal differ => .inl (coupled.same equal differ), fun v listed => ?_,
    fun {x y} related differ member => ?_, fun r member => ?_⟩
  · obtain ⟨w, related, differ⟩ := coupled.mentioned v listed
    exact ⟨w, .inl related, differ⟩
  · rcases related with related | partners | partners
    · intro member'
      exact coupled.rigid related differ
        (old member (coupled.pairing.given related differ).older)
        (old member' (coupled.pairing.given (coupled.pairing.symm related) (Ne.symm differ)).older)
    · exact second partners
    · exact absurd member (second partners)
  · rcases more r member with inside | ⟨i, below, rfl⟩
    · exact (coupled.older r inside).mono (Nat.le_add_right_of_le (Nat.le_add_right _ n))
    · exact TypeVar.older_numbered family (show _ ≤ typer.counter + n + n by omega)

private theorem relax (coupled : Coupled R typer) {rigid : List TypeVar}
    (fewer : ∀ r ∈ rigid, r ∈ typer.rigid) : Coupled R { typer with rigid := rigid } where
  pairing := coupled.pairing
  tidy := coupled.tidy
  unbound := coupled.unbound
  same := coupled.same
  mentioned := coupled.mentioned
  rigid related differ member member' :=
    coupled.rigid related differ (fewer _ member) (fewer _ member')
  older r member := coupled.older r (fewer r member)

private theorem not_escapes (coupled : Coupled R typer) {skolems outside : List TypeVar}
    (hidden : ∀ r ∈ skolems, ∀ w ∈ outside, r ≠ w ∧ ¬R r w) :
    typer.escapes skolems outside = false := by
  refine Bool.eq_false_iff.mpr fun gotOut => ?_
  simp only [escapes, List.any_eq_true] at gotOut
  obtain ⟨w, seen, x, shown, r, member, equal⟩ := gotOut
  have reads : typer.read (.use w) = .use w := Classes.reading_of_unbound (coupled.unbound w)
  have here : x = w := by
    rw [reads] at shown
    simpa [Term.freeVars] using shown
  subst here
  obtain ⟨differ, unrelated⟩ := hidden r member x seen
  exact unrelated (coupled.same equal differ)

private theorem older_of_visible (coupled : Coupled R typer) {a b : Term}
    (olderA : ∀ v ∈ a.freeVars, Older typer.counter v)
    (olderB : ∀ v ∈ b.freeVars, Older typer.counter v) {w : TypeVar}
    (seen : w ∈ typer.visible a b) : Older typer.counter w := by
  rcases (mem_visible coupled.tidy).mp seen with free | free | listed | ⟨x, t, bound, -⟩
  · exact olderA w free
  · exact olderB w free
  · exact (coupled.givenOut_of_mentioned listed).older
  · rw [coupled.unbound x] at bound
    cases bound

end Coupled

end Typer

/-! Opening two binders of terms that are built alike. -/

/-- What is asked of terms here: they are tame, and their made-up variables were given out. -/
structure Term.TameWithin (c : Nat) (t : Term) : Prop where
  tame : t.Tame
  older : ∀ v ∈ t.freeVars, Older c v

namespace Term

variable {c d : Nat} {t : Term}

private theorem TameWithin.mono (within : t.TameWithin c) (le : c ≤ d) : t.TameWithin d :=
  ⟨within.tame, fun v free => (within.older v free).mono le⟩

private theorem TameWithin.arg {head : String} {args : List Term}
    (within : (con head args).TameWithin c) : ∀ a ∈ args, a.TameWithin c :=
  fun a member => ⟨tame_con.mp within.tame a member, fun v free =>
    within.older v (mem_freeVars_con.mpr ⟨a, member, free⟩)⟩

private theorem TameWithin.opened (typer : Typer) (family : Family) {vars : List TypeVar}
    (given : ∀ v ∈ vars, ¬v.MadeUp) (tame : t.Tame)
    (older : ∀ v ∈ t.freeVars, v ∉ vars → Older typer.counter v)
    (le : typer.counter + vars.length ≤ d) :
    (t.subst (typer.freshFor family vars).1).TameWithin d := by
  refine ⟨?_, fun w free => (typer.older_subst_freshFor family given older w free).mono le⟩
  rw [typer.subst_freshFor family given]
  exact tame.replace (Term.exists_use_of_image (typer.exists_opening_eq_use family vars))

private theorem size_subst_freshFor_le (typer : Typer) (family : Family) {vars : List TypeVar}
    (given : ∀ v ∈ vars, ¬v.MadeUp) (t : Term) :
    (t.subst (typer.freshFor family vars).1).size ≤ t.size := by
  rw [typer.subst_freshFor family given]
  exact size_replace_le (Term.exists_use_of_image (typer.exists_opening_eq_use family vars)) [] t

private theorem renames_opening_of_not_mem (typer : Typer) (family : Family) {vars : List TypeVar}
    {v : TypeVar} (unbound : v ∉ vars) :
    Renames (fun v => some (typer.opening family vars v)) [] v v := by
  refine ⟨?_, .inl rfl⟩
  show (use v).fill _ = _
  rw [fill_use, typer.opening_of_not_mem family unbound]

private theorem renames_opening_of_getElem? (typer : Typer) (family : Family) {vars : List TypeVar}
    (distinct : vars.Nodup) {i : Nat} {v : TypeVar} (place : vars[i]? = some v) :
    Renames (fun v => some (typer.opening family vars v)) [] v
      (numbered family (typer.counter + 1 + i)) := by
  refine ⟨?_, .inr ⟨family, _, rfl⟩⟩
  show (use v).fill _ = _
  rw [fill_use, typer.opening_of_getElem? family distinct place]

section Opened

variable {R : TypeVar → TypeVar → Prop} {vs ws : List TypeVar} (openV : Openable vs)
  (openW : Openable ws) (family : Family) {typer typer' : Typer}
  (next : typer'.counter = typer.counter + vs.length)

include openV openW next

private theorem AlphaUnder.opened {s t : Term} (alpha : AlphaUnder (Binding vs ws R) s t)
    (tameS : s.Tame) (tameT : t.Tame) : AlphaUnder (WithPartners R family typer.counter vs.length)
      (s.subst (typer.freshFor family vs).1) (t.subst (typer'.freshFor family ws).1) := by
  rw [typer.subst_freshFor family openV.given, typer'.subst_freshFor family openW.given]
  refine alpha.replace tameS tameT ?_
  rintro v w (⟨i, atV, atW⟩ | ⟨freeV, freeW, related⟩)
  · refine ⟨_, _, renames_opening_of_getElem? typer family openV.distinct atV,
      renames_opening_of_getElem? typer' family openW.distinct atW, .inr (.inl ⟨i, ?_, rfl, ?_⟩)⟩
    · exact (List.getElem?_eq_some_iff.mp atV).1
    · rw [next]
  · exact ⟨v, w, renames_opening_of_not_mem typer family freeV,
      renames_opening_of_not_mem typer' family freeW, .inl related⟩

private theorem forall₂_alphaUnder_opened {as bs : List Term}
    (alike : List.Forall₂ (AlphaUnder (Binding vs ws R)) as bs) (tameA : ∀ a ∈ as, a.Tame)
    (tameB : ∀ b ∈ bs, b.Tame) :
    List.Forall₂ (AlphaUnder (WithPartners R family typer.counter vs.length))
      (as.map (subst (typer.freshFor family vs).1))
      (bs.map (subst (typer'.freshFor family ws).1)) := by
  induction alike with
  | nil => exact .nil
  | cons head _ ih =>
    obtain ⟨firstA, tameA⟩ := List.forall_mem_cons.mp tameA
    obtain ⟨firstB, tameB⟩ := List.forall_mem_cons.mp tameB
    exact .cons (head.opened openV openW family next firstA firstB) (ih tameA tameB)

end Opened

end Term

namespace Typing

open Typer (Coupled)
open Term (AlphaUnder AlphaAll Binding)

def Couples (R : TypeVar → TypeVar → Prop) (s : Session)
    (result : EStateM.Result UnifyFailure Session Unit) : Prop :=
  ∃ s' R', result = .ok () s' ∧ (∀ x y, R x y → R' x y) ∧ Coupled R' s'.typer ∧
    s'.typer.rigid = s.typer.rigid ∧ s.typer.counter ≤ s'.typer.counter

def UnifiesAlike (unify : Term → Term → Typing Unit) (bound : Nat) : Prop :=
  ∀ ⦃R : TypeVar → TypeVar → Prop⦄ ⦃s : Session⦄ ⦃a b : Term⦄, Coupled R s.typer →
    a.TameWithin s.typer.counter → b.TameWithin s.typer.counter → AlphaUnder R a b →
    a.size + b.size ≤ bound → Couples R s (unify a b s)

section Steps

variable {unify : Term → Term → Typing Unit} {bound : Nat} {R : TypeVar → TypeVar → Prop}
  {s : Session}

private theorem couples_done (coupled : Coupled R s.typer) : Couples R s (.ok () s) :=
  ⟨s, R, rfl, fun _ _ related => related, coupled, rfl, Nat.le_refl _⟩

private theorem Couples.of_opened {family : Family} {n : Nat} {z : Session}
    {result : EStateM.Result UnifyFailure Session Unit}
    (couples : Couples (WithPartners R family s.typer.counter n) z result)
    (rigid : z.typer.rigid = s.typer.rigid) (le : s.typer.counter ≤ z.typer.counter) :
    Couples R s result := by
  obtain ⟨s', R', success, grows, coupled, rigid', le'⟩ := couples
  exact ⟨s', R', success, fun x y related => grows x y (.inl related), coupled,
    rigid'.trans rigid, le.trans le'⟩

private theorem couples_equate (coupled : Coupled R s.typer) {v w : TypeVar} (related : R v w)
    (differ : v ≠ w) : Couples R s (equate v w s) := by
  rw [equate_apply]
  by_cases equal : s.typer.classes.same v w = true
  · rw [if_pos equal]
    exact couples_done coupled
  · rw [if_neg equal, coupled.unbound w]
    dsimp only
    rw [if_neg (coupled.not_both_rigid related differ equal)]
    exact ⟨_, R, rfl, fun _ _ same => same, coupled.join related differ equal, rfl, Nat.le_refl _⟩

private theorem couples_unifyEach (unifies : UnifiesAlike unify bound) {as bs : List Term}
    (coupled : Coupled R s.typer) (tameA : ∀ a ∈ as, a.TameWithin s.typer.counter)
    (tameB : ∀ b ∈ bs, b.TameWithin s.typer.counter) (alike : List.Forall₂ (AlphaUnder R) as bs)
    (enough : Term.sizeAll as + Term.sizeAll bs ≤ bound) :
    Couples R s (unifyEach unify as bs s) := by
  induction as generalizing bs R s with
  | nil => exact couples_done coupled
  | cons a as ih =>
    cases alike with
    | @cons _ b _ bs head tail =>
      obtain ⟨firstA, tameA⟩ := List.forall_mem_cons.mp tameA
      obtain ⟨firstB, tameB⟩ := List.forall_mem_cons.mp tameB
      rw [Term.sizeAll, Term.sizeAll] at enough
      obtain ⟨s₁, R₁, success₁, grows₁, coupled₁, rigid₁, le₁⟩ :=
        unifies coupled firstA firstB head (by omega)
      obtain ⟨s₂, R₂, success₂, grows₂, coupled₂, rigid₂, le₂⟩ := ih coupled₁
        (fun x member => (tameA x member).mono le₁) (fun x member => (tameB x member).mono le₁)
        (tail.imp fun _ _ part => part.mono grows₁) (by omega)
      refine ⟨s₂, R₂, ?_, fun x y related => grows₂ x y (grows₁ x y related), coupled₂,
        rigid₂.trans rigid₁, le₁.trans le₂⟩
      show EStateM.bind (unify a b) (fun _ => unifyEach unify as bs) s = _
      unfold EStateM.bind
      rw [success₁]
      exact success₂

section Binders

variable {vs ws : List TypeVar} {a b : Term}

private theorem couples_unifyFunctions (unifies : UnifiesAlike unify bound) {ps qs : List Term}
    (coupled : Coupled R s.typer) (tameA : (Term.func vs ps a).TameWithin s.typer.counter)
    (tameB : (Term.func ws qs b).TameWithin s.typer.counter) (places : vs.length = ws.length)
    (alike : List.Forall₂ (AlphaUnder (Binding vs ws R)) (ps ++ [a]) (qs ++ [b]))
    (enough : Term.sizeAll (ps ++ [a]) + Term.sizeAll (qs ++ [b]) ≤ bound) :
    Couples R s (unifyFunctions unify vs ps a ws qs b s) := by
  obtain ⟨openV, partsA⟩ := Term.tame_func.mp tameA.tame
  obtain ⟨openW, partsB⟩ := Term.tame_func.mp tameB.tame
  have next : (s.typer.freshFor .unification vs).2.counter = s.typer.counter + vs.length := by
    rw [Typer.freshFor_snd]
  have sizesA := Term.sizeAll_map_le fun p (_ : p ∈ ps ++ [a]) =>
    Term.size_subst_freshFor_le s.typer .unification openV.given p
  have sizesB := Term.sizeAll_map_le fun q (_ : q ∈ qs ++ [b]) =>
    Term.size_subst_freshFor_le (s.typer.freshFor .unification vs).2 .unification openW.given q
  have opened := coupled.opened .unification vs.length fun r member => .inl member
  rw [unifyFunctions_apply, ← places]
  have run := couples_unifyEach (s := { s with typer := { s.typer with
      counter := s.typer.counter + vs.length + vs.length } }) unifies opened
    (List.forall_mem_map.mpr fun p member => ?_)
    (List.forall_mem_map.mpr fun q member => ?_)
    (Term.forall₂_alphaUnder_opened openV openW .unification next alike partsA partsB) (by omega)
  · exact run.of_opened rfl (Nat.le_add_right_of_le (Nat.le_add_right _ _))
  · refine .opened _ _ openV.given (partsA p member) (fun v free unbound => ?_)
      (Nat.le_add_right _ _)
    exact tameA.older v (Term.mem_freeVars_func_iff.mpr ⟨⟨p, member, free⟩, unbound⟩)
  · refine .opened _ _ openW.given (partsB q member) (fun v free unbound => ?_) ?_
    · rw [next]
      exact (tameB.older v (Term.mem_freeVars_func_iff.mpr ⟨⟨q, member, free⟩, unbound⟩)).mono
        (Nat.le_add_right _ _)
    · rw [next, places]

section Quantifiers

variable {quantifier : Quantifier} (unifies : UnifiesAlike unify bound)
  (tameA : (Term.scheme quantifier vs a).TameWithin s.typer.counter)
  (tameB : (Term.scheme quantifier ws b).TameWithin s.typer.counter)
  (places : vs.length = ws.length) (body : AlphaUnder (Binding vs ws R) a b)
  (enough : a.size + b.size ≤ bound)

include unifies tameA tameB places body enough

private theorem couples_opened (family : Family) {typer' : Typer}
    (next : typer'.counter = s.typer.counter + vs.length) {z : Session}
    (counter : z.typer.counter = s.typer.counter + vs.length + ws.length)
    (coupled : Coupled (WithPartners R family s.typer.counter vs.length) z.typer) :
    Couples (WithPartners R family s.typer.counter vs.length) z
      (unify (a.subst (s.typer.freshFor family vs).1) (b.subst (typer'.freshFor family ws).1)
        z) := by
  obtain ⟨openV, -, tameS⟩ := Term.tame_scheme.mp tameA.tame
  obtain ⟨openW, -, tameT⟩ := Term.tame_scheme.mp tameB.tame
  have sizeA := Term.size_subst_freshFor_le s.typer family openV.given a
  have sizeB := Term.size_subst_freshFor_le typer' family openW.given b
  refine unifies coupled ?_ ?_ (body.opened openV openW family next tameS tameT) (by omega)
  · refine .opened _ _ openV.given tameS (fun v free unbound => ?_) (by omega)
    exact tameA.older v (Term.mem_freeVars_scheme.mpr ⟨free, unbound⟩)
  · refine .opened _ _ openW.given tameT (fun v free unbound => ?_) (by omega)
    exact (tameB.older v (Term.mem_freeVars_scheme.mpr ⟨free, unbound⟩)).mono (by omega)

private theorem couples_compareRigid (coupled : Coupled R s.typer) (whole : Clash) :
    Couples R s (compareRigid unify
      (s.typer.visible (.scheme quantifier vs a) (.scheme quantifier ws b)) whole vs a ws b s) := by
  have more : ∀ r ∈ s.typer.rigid ++ skolemsFor s.typer vs, r ∈ s.typer.rigid ∨
      ∃ i < vs.length, r = numbered .existential (s.typer.counter + 1 + i) := by
    intro r member
    exact (List.mem_append.mp member).imp id (s.typer.mem_freshFor_freeVars .existential).mp
  have strict : Coupled (WithPartners R .existential s.typer.counter vs.length)
      (strictFor s.typer vs ws) := by
    rw [strictFor, ← places]
    exact coupled.opened .existential vs.length more
  obtain ⟨s', R', success, grows, coupled', rigid', le'⟩ := couples_opened unifies tameA tameB
    places body enough .existential (counter_stricten s.typer vs)
    (z := { s with typer := strictFor s.typer vs ws }) rfl strict
  have hidden : ∀ r ∈ skolemsFor s.typer vs, ∀ w ∈ s.typer.visible (.scheme quantifier vs a)
      (.scheme quantifier ws b), r ≠ w ∧ ¬R' r w := by
    intro r member w seen
    have older := coupled.older_of_visible tameA.older tameB.older seen
    have differ : r ≠ w := fun equal => not_older_of_mem_skolemsFor member (equal ▸ older)
    refine ⟨differ, fun related => ?_⟩
    obtain ⟨i, below, rfl⟩ := (s.typer.mem_freshFor_freeVars .existential).mp member
    -- the only name that this one can be joined with is its partner, which is as new
    have partners : Partners .existential s.typer.counter vs.length _ _ := ⟨i, below, rfl, rfl⟩
    have apart : numbered .existential (s.typer.counter + 1 + i) ≠
        numbered .existential (s.typer.counter + vs.length + 1 + i) := by
      intro equal
      have number := TypeVar.numbered_inj equal
      omega
    have partner := coupled'.pairing.unique (grows _ _ (.inr (.inl partners))) related apart differ
    exact partners.not_older.2 (partner ▸ older)
  rw [compareRigid_apply, success, closeRigid, coupled'.not_escapes hidden]
  refine ⟨_, R', rfl, fun x y related => grows x y (.inl related),
    coupled'.relax fun r member => ?_, rfl, ?_⟩
  · rw [rigid']
    exact List.mem_append_left _ member
  · exact Nat.le_trans (Nat.le_add_right_of_le (Nat.le_add_right _ _)) le'

end Quantifiers

private theorem couples_unifySchemes (unifies : UnifiesAlike unify bound)
    (tameA : (Term.scheme .every vs a).TameWithin s.typer.counter)
    (tameB : (Term.scheme .every ws b).TameWithin s.typer.counter) (places : vs.length = ws.length)
    (body : AlphaUnder (Binding vs ws R) a b) (enough : a.size + b.size ≤ bound)
    (coupled : Coupled R s.typer) : Couples R s (unifySchemes unify vs a ws b s) := by
  obtain ⟨s', R', success, grows, coupled', rigid', le'⟩ := couples_compareRigid (s := s.trial)
    unifies tameA tameB places body enough coupled
    ⟨.escape, .scheme .every vs a, .scheme .every ws b⟩
  change compareRigid unify (s.typer.visible _ _) _ vs a ws b s.trial = _ at success
  refine ⟨s.adopt s'.typer s'.report, R', ?_, grows, coupled', rigid', le'⟩
  show firstOf _ _ s = _
  unfold firstOf
  rw [success]

private theorem unifyStep_existential (f : Term → Term → Typing Unit) {t : Term}
    (differ : Term.scheme .some vs a ≠ t) (shape : ∀ v, t ≠ .use v) :
    unifyStep f (.scheme .some vs a) t = unifyOpened f t .some vs a := by
  cases t with
  | use v => exact absurd rfl (shape v)
  | scheme quantifier us c => simp [unifyStep, differ]
  | con head args => exact (unifyStep_scheme f .some vs a (t := .con head args) trivial).1
  | func typeParams params result =>
    exact (unifyStep_scheme f .some vs a (t := .func typeParams params result) trivial).1

private theorem unifyStep_existentials (openV : Term.Openable vs)
    (differ : Term.scheme .some vs a ≠ .scheme .some ws b) (shape : ∀ v, a ≠ .use v)
    (smaller : a.size < (Term.scheme .some ws b).size) :
    unifyStep (unifyStep unify) (.scheme .some vs a) (.scheme .some ws b) s =
      unify (a.subst (s.typer.freshFor .unification vs).1)
        (b.subst ((s.typer.freshFor .unification vs).2.freshFor .unification ws).1)
        { s with typer := { s.typer with
          counter := s.typer.counter + vs.length + ws.length } } := by
  rw [unifyStep_existential _ differ (by simp),
    ← s.typer.freshFor_twice_snd .unification .unification vs ws]
  show unifyStep unify (.scheme .some ws b) (a.subst (s.typer.freshFor .unification vs).1)
    { s with typer := (s.typer.freshFor .unification vs).2 } = _
  rw [unifyStep_existential unify (fun equal => ?_) fun v image => ?_]
  · rfl
  · have size := Term.size_subst_freshFor_le s.typer .unification openV.given a
    rw [← equal] at size
    omega
  · obtain ⟨w, isUse⟩ := Term.exists_use_of_replace image
    exact shape w isUse

private theorem couples_existentials (unifies : UnifiesAlike unify bound)
    (tameA : (Term.scheme .some vs a).TameWithin s.typer.counter)
    (tameB : (Term.scheme .some ws b).TameWithin s.typer.counter) (places : vs.length = ws.length)
    (body : AlphaUnder (Binding vs ws R) a b) (enough : a.size + b.size ≤ bound)
    (differ : Term.scheme .some vs a ≠ .scheme .some ws b) (coupled : Coupled R s.typer) :
    Couples R s (unifyStep (unifyStep unify) (.scheme .some vs a) (.scheme .some ws b) s) := by
  obtain ⟨openV, shape, -⟩ := Term.tame_scheme.mp tameA.tame
  have smaller : a.size < (Term.scheme .some ws b).size := by
    rw [Term.size, body.size_eq]
    omega
  have next : (s.typer.freshFor .unification vs).2.counter = s.typer.counter + vs.length := by
    rw [Typer.freshFor_snd]
  have opened := coupled.opened .unification vs.length fun r member => .inl member
  rw [unifyStep_existentials openV differ (shape rfl) smaller, ← places]
  have run := couples_opened unifies tameA tameB places body enough .unification next
    (z := { s with typer := { s.typer with
      counter := s.typer.counter + vs.length + vs.length } }) (by rw [places]) opened
  exact run.of_opened rfl (Nat.le_add_right_of_le (Nat.le_add_right _ _))

end Binders

end Steps

/-- A run on terms that are built alike succeeds and only joins partners, if it may go as deep as
the terms are large. -/
theorem unifiesAlike_unifyWithin (depth : Nat) : UnifiesAlike (unifyWithin depth) depth := by
  induction depth using Nat.strong_induction_on with
  | _ depth ih =>
    intro R s a b coupled tameA tameB alpha enough
    have positive : 0 < a.size := by cases a <;> simp [Term.size]
    obtain ⟨depth, rfl⟩ := Nat.exists_eq_succ_of_ne_zero (by omega : depth ≠ 0)
    rw [unifyWithin]
    by_cases equal : a = b
    · rw [← equal, unifyStep_self]
      exact couples_done coupled
    have unifies := ih depth (Nat.lt_succ_self depth)
    cases alpha with
    | @con _ head as bs parts =>
      have alike := Term.alphaAll_iff.mp parts
      rw [unifyStep, if_neg equal]
      rw [if_neg (not_not.mpr rfl), if_neg (not_not.mpr alike.length_eq)]
      rw [Term.size, Term.size] at enough
      exact couples_unifyEach unifies coupled tameA.arg tameB.arg alike (by omega)
    | @use _ v w related =>
      rw [unifyStep_use_left _ v equal, unifyVar_apply, coupled.unbound v]
      exact couples_equate coupled related fun same => equal (same ▸ rfl)
    | @func _ vs ws ps qs c d places params result =>
      have alike := List.rel_append (Term.alphaAll_iff.mp params) (.cons result .nil)
      rw [unifyStep, if_neg equal]
      rw [if_pos (Term.alphaAll_iff.mp params).length_eq]
      rw [Term.size, Term.size] at enough
      refine couples_unifyFunctions unifies coupled tameA tameB places alike ?_
      rw [Term.sizeAll_append, Term.sizeAll_append]
      simp only [Term.sizeAll]
      omega
    | @scheme _ quantifier vs ws c d places body =>
      cases quantifier with
      | every =>
        rw [Term.size, Term.size] at enough
        rw [unifyStep, if_neg equal]
        exact couples_unifySchemes unifies tameA tameB places body (by omega) coupled
      | some =>
        rw [Term.size, Term.size] at enough
        obtain ⟨depth, rfl⟩ := Nat.exists_eq_succ_of_ne_zero (by omega : depth ≠ 0)
        exact couples_existentials (ih depth (by omega)) tameA tameB places body (by omega) equal
          coupled

/-- Nothing was learned of the variables of a term. -/
structure Idle (t : Term) (typer : Typer) : Prop where
  /-- Only names that were made on the way are mentioned. -/
  made : ∀ v ∈ typer.classes.mentioned, v.GivenOut typer.counter
  /-- No class stands for a term. -/
  unbound : ∀ c ∈ typer.classes.listing, c.2 = none
  /-- The variables of the term are in no class. -/
  untouched : ∀ v ∈ t.freeVars, typer.classes.contains v = false

private theorem idle_of_coupled {R : TypeVar → TypeVar → Prop} {typer : Typer} {t : Term}
    (coupled : Coupled R typer) (given : ∀ v ∈ t.freeVars, ¬v.MadeUp) : Idle t typer := by
  refine ⟨fun v listed => coupled.givenOut_of_mentioned listed, fun c shown => ?_,
    fun v free => ?_⟩
  · rw [Classes.listing_eq, List.mem_filterMap] at shown
    obtain ⟨k, -, shown⟩ := shown
    split at shown
    · cases shown
    · next peopled =>
      cases shown
      obtain ⟨x, inside⟩ := List.exists_mem_of_ne_nil _ peopled
      have bound := coupled.unbound x
      rwa [Classes.bound?_eq_bind, (Classes.mem_group coupled.tidy).mp inside, Option.bind_some]
        at bound
  · refine Bool.eq_false_iff.mpr fun known => given v free ?_
    have listed : v ∈ typer.classes.mentioned := by
      rw [← Classes.classOf?_isSome_iff, Classes.classOf?, Option.isSome_map]
      exact known
    obtain ⟨family, n, -, -, equal⟩ := coupled.givenOut_of_mentioned listed
    exact ⟨family, n, equal⟩

/-- The names that a term adds to those of its parts open with the letter of no family. -/
def NamesUnmarked (t : Term) : Prop := ∀ v ∈ t.ownNames, v.Unmarked

private theorem unmarked_of_free {t : Term} (names : t.Throughout NamesUnmarked) :
    ∀ v ∈ t.freeVars, v.Unmarked := by
  induction t using Term.induct with
  | con head args ih =>
    intro v free
    obtain ⟨a, member, inside⟩ := Term.mem_freeVars_con.mp free
    exact ih a member ((Term.throughout_con.mp names).2 a member) v inside
  | use w => exact names
  | scheme quantifier vars body ih =>
    intro v free
    exact ih names.2 v (Term.mem_freeVars_scheme.mp free).1
  | func typeParams params result ihParams ihResult =>
    intro v free
    obtain ⟨⟨p, member, inside⟩, -⟩ := Term.mem_freeVars_func_iff.mp free
    have part := (Term.throughout_func.mp names).2 p member
    rcases List.mem_append.mp member with inParams | isResult
    · exact ihParams p inParams part v inside
    · obtain rfl := List.mem_singleton.mp isResult
      exact ihResult part v inside

private theorem tame_of_unmarked {t : Term} (wellFormed : t.WellFormed)
    (names : t.Throughout NamesUnmarked) (guarded : t.Throughout Term.Guarded) : t.Tame := by
  have openable := wellFormed.throughout.imp₂ names (R := fun u => Term.Openable u.binder)
    fun u here unmarked => ⟨here.nodup, fun v bound =>
      TypeVar.not_madeUp_of_belongsTo (unmarked v (Term.mem_ownNames_of_binder bound))⟩
  exact openable.imp₂ guarded fun u here shape => ⟨here, shape⟩

/-- Terms that differ in the names of bound variables unify and teach nothing, if no existential
quantifier stands right over a variable. -/
theorem unify_alpha {a b : Term} (wellFormedA : a.WellFormed) (wellFormedB : b.WellFormed)
    (namesA : a.Throughout NamesUnmarked) (namesB : b.Throughout NamesUnmarked)
    (alpha : a.Alpha b) (guarded : a.Throughout Term.Guarded) (report : Report) :
    ∃ s, unify a b (.start .fresh report) = .ok () s ∧ Idle a s.typer := by
  have given {t : Term} (names : t.Throughout NamesUnmarked) : ∀ v ∈ t.freeVars, ¬v.MadeUp :=
    fun v free => TypeVar.not_madeUp_of_belongsTo (unmarked_of_free names v free)
  have within {t : Term} (wellFormed : t.WellFormed) (names : t.Throughout NamesUnmarked)
      (guarded : t.Throughout Term.Guarded) : t.TameWithin Typer.fresh.counter :=
    ⟨tame_of_unmarked wellFormed names guarded, fun v free =>
      TypeVar.older_of_not_madeUp (given names v free) _⟩
  have enough : a.size + b.size ≤ Typer.fresh.depthFor a b := by
    have weight : a.size + b.size ≤ Typer.fresh.weight a b := by
      rw [Typer.weight]
      omega
    have square := Nat.le_mul_self (Typer.fresh.weight a b + 1)
    rw [Typer.depthFor]
    omega
  obtain ⟨s, R, success, -, coupled, -⟩ := unifiesAlike_unifyWithin (Typer.fresh.depthFor a b)
    (s := .start .fresh report) Typer.coupled_fresh (within wellFormedA namesA guarded)
    (within wellFormedB namesB (alpha.guarded guarded)) alpha enough
  exact ⟨s, success, idle_of_coupled coupled (given namesA)⟩

/-- Two bound names change places, under a universal and an existential quantifier over a function
with a type parameter of its own, and a free variable stays. -/
theorem unify_alpha_swapped :
    let x : TypeVar := ⟨"x"⟩
    let w : TypeVar := ⟨"w"⟩
    let p : TypeVar := ⟨"p"⟩
    let q : TypeVar := ⟨"q"⟩
    let z : TypeVar := ⟨"z"⟩
    let a : Term := .scheme .every [x] (.scheme .some [w]
      (.func [p] [.con "pair" [.use x, .use p]] (.con "map" [.use w, .use z])))
    let b : Term := .scheme .every [w] (.scheme .some [x]
      (.func [q] [.con "pair" [.use w, .use q]] (.con "map" [.use x, .use z])))
    a.WellFormed ∧ b.WellFormed ∧ a.Throughout NamesUnmarked ∧ b.Throughout NamesUnmarked ∧
      a.Alpha b ∧ a.Throughout Term.Guarded ∧ z ∈ a.freeVars ∧
      ∃ s, unify a b (.start .fresh .quiet) = .ok () s ∧ Idle a s.typer := by
  intro x w p q z a b
  have wellFormedA : a.WellFormed := by
    simp [a, Term.WellFormed, Term.WellFormedAll, Term.WellFormedHere, Term.nullableHead]
  have wellFormedB : b.WellFormed := by
    simp [b, Term.WellFormed, Term.WellFormedAll, Term.WellFormedHere, Term.nullableHead]
  have unmarked : ∀ v ∈ [x, w, p, q, z], v.Unmarked := by
    intro v member family
    cases family <;> revert v <;> decide
  simp only [List.forall_mem_cons] at unmarked
  have namesA : a.Throughout NamesUnmarked := by
    simp [a, Term.Throughout, Term.ThroughoutAll, NamesUnmarked, Term.ownNames, Term.binder,
      unmarked]
  have namesB : b.Throughout NamesUnmarked := by
    simp [b, Term.Throughout, Term.ThroughoutAll, NamesUnmarked, Term.ownNames, Term.binder,
      unmarked]
  have alpha : a.Alpha b := by
    refine .scheme rfl (.scheme rfl (.func rfl
      (.cons (.con (.cons (.use ?_) (.cons (.use ?_) .nil))) .nil)
      (.con (.cons (.use ?_) (.cons (.use ?_) .nil)))))
    · exact .inr ⟨by decide, by decide, .inr ⟨by decide, by decide, .inl ⟨0, rfl, rfl⟩⟩⟩
    · exact .inl ⟨0, rfl, rfl⟩
    · exact .inr ⟨by decide, by decide, .inl ⟨0, rfl, rfl⟩⟩
    · exact .inr ⟨by decide, by decide, .inr ⟨by decide, by decide,
        .inr ⟨by decide, by decide, rfl⟩⟩⟩
  have guarded : a.Throughout Term.Guarded := by
    simp [a, Term.Throughout, Term.ThroughoutAll, Term.Guarded]
  exact ⟨wellFormedA, wellFormedB, namesA, namesB, alpha, guarded, by decide,
    unify_alpha wellFormedA wellFormedB namesA namesB alpha guarded .quiet⟩

/-- With an existential quantifier right over a variable the rest of the run compares a variable
with an existential scheme, and a rigid variable cannot stand for that. -/
theorem unify_alpha_unguarded :
    let x : TypeVar := ⟨"x"⟩
    let y : TypeVar := ⟨"y"⟩
    let v : TypeVar := ⟨"v"⟩
    let w : TypeVar := ⟨"w"⟩
    let a : Term := .scheme .every [x] (.scheme .some [w] (.use x))
    let b : Term := .scheme .every [y] (.scheme .some [v] (.use y))
    a.WellFormed ∧ b.WellFormed ∧ a.Throughout NamesUnmarked ∧ b.Throughout NamesUnmarked ∧
      a.Alpha b ∧ failure? (unify a b (.start .fresh .quiet)) =
        some (.clash ⟨.rigid, .use (numbered .existential 1),
          .scheme .some [v] (.use (numbered .existential 2))⟩) := by
  intro x y v w a b
  have unmarked : ∀ u ∈ [x, y, v, w], u.Unmarked := by
    intro u member family
    cases family <;> revert u <;> decide
  simp only [List.forall_mem_cons] at unmarked
  refine ⟨?_, ?_, ?_, ?_, ?_, by decide +kernel⟩
  · simp [a, Term.WellFormed, Term.WellFormedHere]
  · simp [b, Term.WellFormed, Term.WellFormedHere]
  · simp [a, Term.Throughout, NamesUnmarked, Term.ownNames, Term.binder, unmarked]
  · simp [b, Term.Throughout, NamesUnmarked, Term.ownNames, Term.binder, unmarked]
  · exact .scheme rfl (.scheme rfl (.use (.inr ⟨by decide, by decide, .inl ⟨0, rfl, rfl⟩⟩)))

end Typing

end TypedCalls
