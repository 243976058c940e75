import TypedCalls.Proofs.Typer.Reduction
import TypedCalls.Typer.Unify

/-!
A run of the unifier is a run of steps on equations.

Where no variable is rigid and no term has a quantifier, unification solves the equations it is given
by steps, gets stuck on a clash, or stops at its depth (`works_unifyWithin`). In each case it has kept
everything of the typer but the classes.
-/

set_option autoImplicit false

namespace TypedCalls.Typing

open Problem
open Classes (LeadsTo)

/-- The typers differ in what they know of variables at most. -/
structure Kept (s s' : Session) : Prop where
  rigid : s'.typer.rigid = s.typer.rigid
  counter : s'.typer.counter = s.typer.counter

private theorem Kept.refl (s : Session) : Kept s s := ⟨rfl, rfl⟩

private theorem Kept.trans {s s' s'' : Session} (first : Kept s s') (second : Kept s' s'') :
    Kept s s'' :=
  ⟨second.rigid.trans first.rigid, second.counter.trans first.counter⟩

/-- How work on some equations may end: they are solved, one that is left clashes, or, if work may
stop, it stops. -/
inductive Ends (mayStop : Prop) (s : Session) (todo : List (Term × Term)) :
    EStateM.Result UnifyFailure Session Unit → Prop
  | solved {s' : Session} : Kept s s' →
      (∀ rest, Steps ⟨s.typer.classes, todo ++ rest⟩ ⟨s'.typer.classes, rest⟩) →
      Ends mayStop s todo (.ok () s')
  | clashed {clash : Clash} {s' : Session} {left : List (Term × Term)} : Kept s s' →
      (∀ rest, Steps ⟨s.typer.classes, todo ++ rest⟩ ⟨s'.typer.classes, left ++ rest⟩) →
      Clashes ⟨s'.typer.classes, left⟩ → Ends mayStop s todo (.error (.clash clash) s')
  | stopped {s' : Session} {left : List (Term × Term)} : mayStop → Kept s s' →
      (∀ rest, Steps ⟨s.typer.classes, todo ++ rest⟩ ⟨s'.typer.classes, left ++ rest⟩) →
      Ends mayStop s todo (.error .tooDeep s')

section

variable {P : Term → Prop} {Asked Below : Classes → Term × Term → Prop} {mayStop : Prop}

private theorem Ends.trans {s s' : Session} {todo todo' : List (Term × Term)}
    {r : EStateM.Result UnifyFailure Session Unit} (kept : Kept s s')
    (steps : ∀ rest, Steps ⟨s.typer.classes, todo ++ rest⟩ ⟨s'.typer.classes, todo' ++ rest⟩)
    (ends : Ends mayStop s' todo' r) : Ends mayStop s todo r := by
  cases ends with
  | solved kept' more => exact .solved (kept.trans kept') fun rest => (steps rest).trans (more rest)
  | clashed kept' more clashes =>
    exact .clashed (kept.trans kept') (fun rest => (steps rest).trans (more rest)) clashes
  | stopped may kept' more =>
    exact .stopped may (kept.trans kept') fun rest => (steps rest).trans (more rest)

private theorem Ends.head {s : Session} {e e' : Term × Term}
    {r : EStateM.Result UnifyFailure Session Unit}
    (step : ∀ rest, Step ⟨s.typer.classes, e :: rest⟩ ⟨s.typer.classes, e' :: rest⟩)
    (ends : Ends mayStop s [e'] r) : Ends mayStop s [e] r := by
  refine .trans (.refl s) (fun rest => ?_) ends
  exact .single (step rest)

private theorem Ends.clash {s : Session} {todo : List (Term × Term)} {clash : Clash}
    (clashes : Clashes ⟨s.typer.classes, todo⟩) : Ends mayStop s todo (.error (.clash clash) s) :=
  .clashed (.refl s) (fun _ => .refl) clashes

/-- A property that unification keeps of all terms it meets, and that excludes quantifiers. -/
structure Tame (P : Term → Prop) : Prop where
  hereditary : Hereditary P
  free : ∀ {t}, P t → t.QuantifierFree

theorem tame_builtFrom (allowed : String → Prop) : Tame fun t => t.BuiltFrom allowed :=
  ⟨hereditary_builtFrom allowed, Term.BuiltFrom.quantifierFree⟩

theorem tame_intact (θ : TypeVar → Term) : Tame (Term.Intact θ) :=
  ⟨hereditary_intact θ, Term.Intact.quantifierFree⟩

def Works (P : Term → Prop) (Asked : Classes → Term × Term → Prop) (mayStop : Prop)
    (work : Typing Unit) (todo : List (Term × Term)) : Prop :=
  ∀ s : Session, s.typer.rigid = [] → Sane P s.typer.classes →
    (∀ e ∈ todo, Asked s.typer.classes e) → Ends mayStop s todo (work s)

/-- Whatever comes up below an equation that may be asked, may be asked there. -/
structure Descends (P : Term → Prop) (Asked Below : Classes → Term × Term → Prop) : Prop where
  holds : ∀ {s e}, Asked s e → P e.1 ∧ P e.2
  swap : ∀ {s a b}, Asked s (a, b) → Asked s (b, a)
  look : ∀ {s v t b}, Sane P s → s.bound? v = some t → Asked s (.use v, b) → Below s (t, b)
  parts : ∀ {s a b}, Sane P s → a.SameShape b → Asked s (a, b) →
    ∀ e ∈ a.opened.zip b.opened, Below s e
  below : ∀ {s e}, Below s e → P e.1 ∧ P e.2
  later : ∀ {s s' e}, Extends s s' → Below s e → Below s' e

private theorem clashes_append {s : Classes} {left : List (Term × Term)}
    (clashes : Clashes ⟨s, left⟩) (more : List (Term × Term)) : Clashes ⟨s, left ++ more⟩ := by
  cases clashes with
  | shapes notUseA notUseB differ => exact .shapes notUseA notUseB differ
  | recursive notUse free leads => exact .recursive notUse free leads

private theorem works_seq (tame : Tame P) (descends : Descends P Asked Below)
    {first second : Typing Unit} {todo todo' : List (Term × Term)}
    (here : Works P Below mayStop first todo) (there : Works P Below mayStop second todo') :
    Works P Below mayStop (first >>= fun _ => second) (todo ++ todo') := by
  intro s rigid sane asked
  obtain ⟨early, late⟩ := List.forall_mem_append.mp asked
  have fine : Fine P ⟨s.typer.classes, todo ++ todo'⟩ :=
    ⟨sane, fun e member => descends.below (asked e member)⟩
  have ends := here s rigid sane early
  show Ends mayStop s (todo ++ todo') (EStateM.bind first (fun _ => second) s)
  unfold EStateM.bind
  generalize first s = r at ends
  cases ends with
  | @solved s' kept steps =>
    have after := Steps.fine tame.hereditary (steps todo') fine
    have extension := Steps.extends tame.hereditary (steps todo') fine
    refine .trans kept (fun rest => ?_) (there s' (kept.rigid.trans rigid) after.sane
      fun e member => descends.later extension (late e member))
    rw [List.append_assoc]
    exact steps (todo' ++ rest)
  | @clashed clash s' left kept steps clashes =>
    refine .clashed kept (fun rest => ?_) (clashes_append clashes todo')
    rw [List.append_assoc, List.append_assoc]
    exact steps (todo' ++ rest)
  | @stopped s' left may kept steps =>
    have more : ∀ rest, Steps ⟨s.typer.classes, todo ++ todo' ++ rest⟩
        ⟨s'.typer.classes, left ++ todo' ++ rest⟩ := by
      intro rest
      rw [List.append_assoc, List.append_assoc]
      exact steps (todo' ++ rest)
    exact .stopped may kept more

private theorem works_unifyEach (tame : Tame P) (descends : Descends P Asked Below)
    {unify : Term → Term → Typing Unit} (works : ∀ a b, Works P Below mayStop (unify a b) [(a, b)])
    (as bs : List Term) :
    Works P Below mayStop (unifyEach unify as bs) (as.zip bs) := by
  rw [unifyEach]
  induction as.zip bs with
  | nil => exact fun s _ _ _ => .solved (.refl s) fun _ => .refl
  | cons pair pairs ih => exact works_seq tame descends (works pair.1 pair.2) ih

theorem isRigid_eq_false {typer : Typer} (rigid : typer.rigid = []) (v : TypeVar) :
    typer.isRigid v = false := by
  simp [Typer.isRigid, rigid]

theorem permit_bind {s : Session} (rigid : s.typer.rigid = []) (v : TypeVar) (t : Term)
    (next : Typing Unit) :
    (permit v t >>= fun _ => next) s = if s.typer.classes.occurs v t = true
      then .error (.clash ⟨.recursive, .use v, t⟩) s else next s := by
  show EStateM.bind (if s.typer.isRigid v = true then clash .rigid (.use v) t
    else if s.typer.classes.occurs v t = true then clash .recursive (.use v) t
    else pure ()) (fun _ => next) s = _
  rw [isRigid_eq_false rigid, if_neg Bool.false_ne_true]
  split <;> rfl

theorem equate_apply (v w : TypeVar) (s : Session) :
    equate v w s = (if s.typer.classes.same v w = true then pure ()
      else match s.typer.classes.bound? w with
        | some target => permit v target >>= fun _ => join v w
        | none =>
          if (s.typer.isRigid v && s.typer.isRigid w) = true
            then clash .rigid (.use v) (.use w) >>= fun _ => join v w
          else join v w : Typing Unit) s :=
  rfl

private theorem ends_equate {s : Session} {v w : TypeVar} (rigid : s.typer.rigid = [])
    (sane : Sane P s.typer.classes) (unbound : s.typer.classes.bound? v = none) :
    Ends mayStop s [(.use v, .use w)] (equate v w s) := by
  have ends_join (apart : ¬LeadsTo s.typer.classes w v) :
      Ends mayStop s [(.use v, .use w)] (join v w s) :=
    .solved ⟨rfl, rfl⟩ fun _ => .single (.join unbound apart)
  rw [equate_apply]
  by_cases same : s.typer.classes.same v w = true
  · rw [if_pos same]
    exact .solved (.refl s) fun _ => .single (.skip same)
  · rw [if_neg same]
    cases bound : s.typer.classes.bound? w with
    | some target =>
      dsimp only
      have notUse := (sane.bound bound).2
      rw [permit_bind rigid]
      by_cases occurs : s.typer.classes.occurs v target = true
      · obtain ⟨y, free, leads⟩ := (Classes.occurs_iff sane.tidy sane.acyclic v target).mp occurs
        rw [if_pos occurs]
        refine .head (fun _ => .swap) (.head (fun _ => .look bound) (.head (fun _ => .swap) ?_))
        exact .clash (.recursive notUse free leads)
      · rw [if_neg occurs]
        refine ends_join fun leads => ?_
        cases leads with
        | same h => exact same (Classes.same_symm h)
        | through here free rest =>
          rw [bound] at here
          cases here
          exact occurs ((Classes.occurs_iff sane.tidy sane.acyclic v target).mpr ⟨_, free, rest⟩)
    | none =>
      dsimp only
      rw [isRigid_eq_false rigid, Bool.false_and, if_neg Bool.false_ne_true]
      refine ends_join fun leads => ?_
      cases leads with
      | same h => exact same (Classes.same_symm h)
      | through here _ _ =>
        rw [bound] at here
        cases here

private theorem ends_learn {s : Session} {v : TypeVar} {t : Term} (rigid : s.typer.rigid = [])
    (sane : Sane P s.typer.classes) (unbound : s.typer.classes.bound? v = none) :
    Ends mayStop s [(.use v, t)] (learn v t s) := by
  have ends_term (notUse : ∀ w, t ≠ .use w) :
      Ends mayStop s [(.use v, t)] ((permit v t >>= fun _ => bindTo v t) s) := by
    rw [permit_bind rigid]
    by_cases occurs : s.typer.classes.occurs v t = true
    · obtain ⟨y, free, leads⟩ := (Classes.occurs_iff sane.tidy sane.acyclic v t).mp occurs
      rw [if_pos occurs]
      exact .clash (.recursive notUse free leads)
    · rw [if_neg occurs]
      refine .solved ⟨rfl, rfl⟩ fun _ => .single (.bind unbound notUse fun y free leads => ?_)
      exact occurs ((Classes.occurs_iff sane.tidy sane.acyclic v t).mpr ⟨y, free, leads⟩)
  cases t with
  | con head args => exact ends_term nofun
  | use w => exact ends_equate rigid sane unbound
  | scheme quantifier vars body => exact ends_term nofun
  | func typeParams params result => exact ends_term nofun

theorem unifyVar_apply (unify : Term → Term → Typing Unit) (v : TypeVar) (t : Term) (s : Session) :
    unifyVar unify v t s = match s.typer.classes.bound? v with
      | some bound => unify bound t s
      | none => learn v t s := by
  show (match s.typer.classes.bound? v with
    | some bound => unify bound t
    | none => learn v t : Typing Unit) s = _
  cases s.typer.classes.bound? v <;> rfl

private theorem ends_unifyVar (descends : Descends P Asked Below)
    {unify : Term → Term → Typing Unit} (works : ∀ a b, Works P Below mayStop (unify a b) [(a, b)])
    {s : Session} {v : TypeVar} {t : Term} (rigid : s.typer.rigid = [])
    (sane : Sane P s.typer.classes) (asked : Asked s.typer.classes (.use v, t)) :
    Ends mayStop s [(.use v, t)] (unifyVar unify v t s) := by
  rw [unifyVar_apply]
  split
  · next bound here =>
    refine .head (fun _ => .look here) (works bound t s rigid sane fun e member => ?_)
    cases List.mem_singleton.mp member
    exact descends.look sane here asked
  · next unbound => exact ends_learn rigid sane unbound

theorem works_unifyStep (tame : Tame P) (descends : Descends P Asked Below)
    {unify : Term → Term → Typing Unit}
    (works : ∀ a b, Works P Below mayStop (unify a b) [(a, b)]) (a b : Term) :
    Works P Asked mayStop (unifyStep unify a b) [(a, b)] := by
  intro s rigid sane asked
  replace asked : Asked s.typer.classes (a, b) := asked _ (List.mem_singleton_self _)
  obtain ⟨left, right⟩ := descends.holds asked
  have ends_parts (shape : a.SameShape b) :
      Ends mayStop s [(a, b)] (unifyEach unify a.opened b.opened s) :=
    .trans (.refl s) (fun _ => .single (.parts shape))
      (works_unifyEach tame descends works _ _ s rigid sane (descends.parts sane shape asked))
  unfold unifyStep
  by_cases equal : a = b
  · rw [if_pos equal, equal]
    exact .solved (.refl s) fun _ => .single .drop
  · rw [if_neg equal]
    cases a with
    | use v => exact ends_unifyVar descends works rigid sane asked
    | scheme quantifier vars body =>
      exact absurd (tame.free left) (by simp [Term.QuantifierFree, Term.BuiltFrom])
    | con h as =>
      cases b with
      | use v =>
        exact .head (fun _ => .swap) (ends_unifyVar descends works rigid sane (descends.swap asked))
      | scheme quantifier vars body =>
        exact absurd (tame.free right) (by simp [Term.QuantifierFree, Term.BuiltFrom])
      | func typeParams params result =>
        exact .clash (.shapes (by simp) (by simp) (by simp [Term.SameShape]))
      | con k bs =>
        dsimp only
        by_cases heads : h = k
        · rw [if_neg (not_not.mpr heads)]
          by_cases count : as.length = bs.length
          · rw [if_neg (not_not.mpr count)]
            exact ends_parts ⟨heads, count⟩
          · rw [if_pos count]
            exact .clash (.shapes (by simp) (by simp) fun shape => count shape.2)
        · rw [if_pos heads]
          exact .clash (.shapes (by simp) (by simp) fun shape => heads shape.1)
    | func vs ps r =>
      cases b with
      | use v =>
        exact .head (fun _ => .swap) (ends_unifyVar descends works rigid sane (descends.swap asked))
      | scheme quantifier vars body =>
        exact absurd (tame.free right) (by simp [Term.QuantifierFree, Term.BuiltFrom])
      | con head args => exact .clash (.shapes (by simp) (by simp) (by simp [Term.SameShape]))
      | func ws qs t =>
        obtain ⟨rfl, -⟩ := Term.builtFrom_func.mp (tame.free left)
        obtain ⟨rfl, -⟩ := Term.builtFrom_func.mp (tame.free right)
        dsimp only
        by_cases count : ps.length = qs.length
        · rw [if_pos count]
          exact ends_parts count
        · rw [if_neg count]
          exact .clash (.shapes (by simp) (by simp) count)

end

private theorem descends_all {P : Term → Prop} (hereditary : Hereditary P) :
    Descends P (fun _ e => P e.1 ∧ P e.2) (fun _ e => P e.1 ∧ P e.2) where
  holds asked := asked
  swap asked := ⟨asked.2, asked.1⟩
  look sane bound asked := ⟨(sane.bound bound).1, asked.2⟩
  parts _ _ asked e member := by
    obtain ⟨left, right⟩ := List.of_mem_zip (show (e.1, e.2) ∈ _ from member)
    exact ⟨hereditary _ asked.1 _ left, hereditary _ asked.2 _ right⟩
  below asked := asked
  later _ asked := asked

theorem works_unifyWithin {P : Term → Prop} (tame : Tame P) (depth : Nat) (a b : Term) :
    Works P (fun _ e => P e.1 ∧ P e.2) True (unifyWithin depth a b) [(a, b)] := by
  induction depth generalizing a b with
  | zero => exact fun s _ _ _ => .stopped trivial (.refl s) fun _ => .refl
  | succ depth ih => exact works_unifyStep tame (descends_all tame.hereditary) ih a b

end TypedCalls.Typing
