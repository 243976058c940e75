import TypedCalls.Proofs.Succeeding
import TypedCalls.Proofs.Typer.Models
import TypedCalls.Value.Evidence

/-!
Which payloads belong to which types.

Nothing belongs to a variable, to a scheme or to `Nothing`, so what belongs to a type in the sense in
which its variables are empty belongs to all of its instances (`Belongs.of_empty`).
-/

set_option autoImplicit false

namespace TypedCalls

open Classes (emptySense)

/-- The payload belongs to the type. Of the functions only the known ones do, and of the types only
the named ones. -/
inductive Payload.Belongs (known : Function → Prop) (named : Term → Prop) : Payload → Term → Prop
  | litInt (n : Int) : Belongs known named (.int n) Standard.litInt
  | bigInt (n : Int) : Belongs known named (.int n) Standard.bigInt
  | int {n : Int} (low : -2147483648 ≤ n) (high : n ≤ 2147483647) :
      Belongs known named (.int n) Standard.int
  | rational (q : Rat) : Belongs known named (.rat q) Standard.rational
  | double (x : Float) : Belongs known named (.real x) Standard.double
  | litString (s : String) : Belongs known named (.text s) Standard.litString
  | string (s : String) : Belongs known named (.text s) Standard.string
  | boolean (b : Bool) : Belongs known named (.bool b) Standard.boolean
  | unit : Belongs known named .none Standard.unit
  | type {t : Term} (counts : named t) : Belongs known named (.type t) Standard.type
  | expr (e : Expr) : Belongs known named (.code e) Standard.expr
  | list {items : List Payload} {t : Term} (all : ∀ p ∈ items, Belongs known named p t) :
      Belongs known named (.list items) (Standard.listOf t)
  | set {elements : List Payload} {t : Term} (all : ∀ p ∈ elements, Belongs known named p t) :
      Belongs known named (.set elements) (Standard.setOf t)
  | map {entries : List (Payload × Payload)} {k v : Term}
      (keys : ∀ e ∈ entries, Belongs known named e.1 k)
      (values : ∀ e ∈ entries, Belongs known named e.2 v) :
      Belongs known named (.map entries) (Standard.mapOf k v)
  | pair {p q : Payload} {a b : Term} (first : Belongs known named p a)
      (second : Belongs known named q b) :
      Belongs known named (.pair p q) (Standard.pairOf a b)
  | first {p : Payload} {a b : Term} (inside : Belongs known named p a) :
      Belongs known named (.union 0 p) (Standard.union2Of a b)
  | second {p : Payload} {a b : Term} (inside : Belongs known named p b) :
      Belongs known named (.union 1 p) (Standard.union2Of a b)
  | nullable {p : Payload} {t : Term} (inside : Belongs known named p t) :
      Belongs known named p (.con Term.nullableHead [t])
  | function {fn : Function} {typeParams : List TypeVar} {params : List Term} {result : Term}
      (counts : known fn) : Belongs known named (.function fn) (.func typeParams params result)

/-- The payload belongs to every instance of the type. -/
def Payload.Inhabits (p : Payload) (t : Term) : Prop :=
  ∀ σ : TypeVar → Term, p.Belongs (fun _ => True) (fun _ => True) (t.fill σ)

private theorem Term.applied_eq_con {head : String} {args : List Term}
    (unmarked : ¬(head = nullableHead ∧ args.length = 1)) : applied head args = .con head args := by
  unfold applied
  split
  · next a => rw [if_neg fun marked => unmarked ⟨marked, rfl⟩]
  · rfl

theorem Term.con_ne {head other : String} {args others : List Term} (ne : head ≠ other) :
    Term.con head args ≠ .con other others :=
  fun same => ne (Term.con.inj same).1

namespace Payload

variable {known known' : Function → Prop} {named named' : Term → Prop} {p : Payload}
  {a b t : Term}

private theorem Belongs.imp (belongs : p.Belongs known named t)
    (functions : ∀ fn, known fn → known' fn)
    (types : ∀ t, named t → named' t) : p.Belongs known' named' t := by
  induction belongs with
  | litInt n => exact .litInt n
  | bigInt n => exact .bigInt n
  | int low high => exact .int low high
  | rational q => exact .rational q
  | double x => exact .double x
  | litString s => exact .litString s
  | string s => exact .string s
  | boolean b => exact .boolean b
  | unit => exact .unit
  | type counts => exact .type (types _ counts)
  | expr e => exact .expr e
  | list _ ih => exact .list ih
  | set _ ih => exact .set ih
  | map _ _ ihKeys ihValues => exact .map ihKeys ihValues
  | pair _ _ ihFirst ihSecond => exact .pair ihFirst ihSecond
  | first _ ih => exact .first ih
  | second _ ih => exact .second ih
  | nullable _ ih => exact .nullable ih
  | function counts => exact .function (functions _ counts)

/-! What the payloads of a type look like. Two types with different heads are told apart by them. -/

theorem not_belongs_nothing : ¬p.Belongs known named Standard.nothing := by
  intro belongs
  generalize wanted : Standard.nothing = u at belongs
  cases belongs with
  | function => cases wanted
  | _ => exact absurd wanted (Term.con_ne (by decide))

theorem Belongs.of_litInt (belongs : p.Belongs known named Standard.litInt) : ∃ n, p = .int n := by
  generalize wanted : Standard.litInt = u at belongs
  cases belongs with
  | litInt n => exact ⟨n, rfl⟩
  | function => cases wanted
  | _ => exact absurd wanted (Term.con_ne (by decide))

theorem Belongs.of_bigInt (belongs : p.Belongs known named Standard.bigInt) : ∃ n, p = .int n := by
  generalize wanted : Standard.bigInt = u at belongs
  cases belongs with
  | bigInt n => exact ⟨n, rfl⟩
  | function => cases wanted
  | _ => exact absurd wanted (Term.con_ne (by decide))

theorem Belongs.of_rational (belongs : p.Belongs known named Standard.rational) :
    ∃ q, p = .rat q := by
  generalize wanted : Standard.rational = u at belongs
  cases belongs with
  | rational q => exact ⟨q, rfl⟩
  | function => cases wanted
  | _ => exact absurd wanted (Term.con_ne (by decide))

theorem Belongs.of_double (belongs : p.Belongs known named Standard.double) : ∃ x, p = .real x := by
  generalize wanted : Standard.double = u at belongs
  cases belongs with
  | double x => exact ⟨x, rfl⟩
  | function => cases wanted
  | _ => exact absurd wanted (Term.con_ne (by decide))

theorem Belongs.of_type (belongs : p.Belongs known named Standard.type) :
    ∃ t, p = .type t ∧ named t := by
  generalize wanted : Standard.type = u at belongs
  cases belongs with
  | type counts => exact ⟨_, rfl, counts⟩
  | function => cases wanted
  | _ => exact absurd wanted (Term.con_ne (by decide))

theorem Belongs.of_listOf (belongs : p.Belongs known named (Standard.listOf t)) :
    ∃ items, p = .list items ∧ ∀ q ∈ items, q.Belongs known named t := by
  generalize wanted : Standard.listOf t = u at belongs
  cases belongs with
  | list all =>
    cases wanted
    exact ⟨_, rfl, all⟩
  | function => cases wanted
  | _ => exact absurd wanted (Term.con_ne (by decide))

private theorem Belongs.of_pairOf (belongs : p.Belongs known named (Standard.pairOf a b)) :
    ∃ x y, p = .pair x y ∧ x.Belongs known named a ∧ y.Belongs known named b := by
  generalize wanted : Standard.pairOf a b = u at belongs
  cases belongs with
  | pair first second =>
    cases wanted
    exact ⟨_, _, rfl, first, second⟩
  | function => cases wanted
  | _ => exact absurd wanted (Term.con_ne (by decide))

theorem Belongs.of_union2Of (belongs : p.Belongs known named (Standard.union2Of a b)) :
    (∃ q, p = .union 0 q ∧ q.Belongs known named a) ∨
      ∃ q, p = .union 1 q ∧ q.Belongs known named b := by
  generalize wanted : Standard.union2Of a b = u at belongs
  cases belongs with
  | first inside =>
    cases wanted
    exact .inl ⟨_, rfl, inside⟩
  | second inside =>
    cases wanted
    exact .inr ⟨_, rfl, inside⟩
  | function => cases wanted
  | _ => exact absurd wanted (Term.con_ne (by decide))

private theorem Belongs.of_con_nullableHead
    (belongs : p.Belongs known named (.con Term.nullableHead [t])) : p.Belongs known named t := by
  generalize wanted : Term.con Term.nullableHead [t] = u at belongs
  cases belongs with
  | nullable inside =>
    cases wanted
    exact inside
  | function => cases wanted
  | _ => exact absurd wanted (Term.con_ne (by decide))

theorem Belongs.known_of_function {fn : Function}
    (belongs : (Payload.function fn).Belongs known named t) : known fn := by
  generalize content : Payload.function fn = q at belongs
  induction belongs with
  | nullable _ ih => exact ih content
  | function counts =>
    cases content
    exact counts
  | _ => cases content

/-! Instances. -/

theorem belongs_nullable : p.Belongs known named t.nullable ↔ p.Belongs known named t := by
  cases t with
  | con head args =>
    rw [Term.nullable]
    split
    · rfl
    · exact ⟨Belongs.of_con_nullableHead, .nullable⟩
  | use v => exact ⟨Belongs.of_con_nullableHead, .nullable⟩
  | scheme quantifier vars body =>
    refine ⟨fun belongs => ?_, fun belongs => ?_⟩ <;> cases belongs
  | func typeParams params result => exact ⟨Belongs.of_con_nullableHead, .nullable⟩

private theorem Belongs.applied_mono {head : String} {as bs : List Term}
    (belongs : p.Belongs known named (Term.applied head as))
    (grow : List.Forall₂ (fun a b => ∀ q : Payload, q.Belongs known named a →
      q.Belongs known named b) as bs) :
    p.Belongs known named (Term.applied head bs) := by
  by_cases marked : head = Term.nullableHead ∧ as.length = 1
  · obtain ⟨rfl, single⟩ := marked
    obtain ⟨a, rfl⟩ := List.length_eq_one_iff.mp single
    obtain ⟨b, others, here, nothing, rfl⟩ := List.forall₂_cons_left_iff.mp grow
    cases nothing
    rw [Term.applied_nullableHead, belongs_nullable] at belongs ⊢
    exact here p belongs
  rw [Term.applied_eq_con marked] at belongs
  rw [Term.applied_eq_con (grow.length_eq ▸ marked)]
  have before := belongs
  cases belongs with
  | list all =>
    cases grow with
    | cons here none =>
      cases none
      exact .list fun q member => here q (all q member)
  | set all =>
    cases grow with
    | cons here none =>
      cases none
      exact .set fun q member => here q (all q member)
  | map keys values =>
    cases grow with
    | cons first rest =>
      cases rest with
      | cons second none =>
        cases none
        exact .map (fun e member => first _ (keys e member)) fun e member =>
          second _ (values e member)
  | pair one other =>
    cases grow with
    | cons first rest =>
      cases rest with
      | cons second none =>
        cases none
        exact .pair (first _ one) (second _ other)
  | first inside =>
    cases grow with
    | cons first rest =>
      cases rest with
      | cons second none =>
        cases none
        exact .first (first _ inside)
  | second inside =>
    cases grow with
    | cons first rest =>
      cases rest with
      | cons second none =>
        cases none
        exact .second (second _ inside)
  | nullable inside => exact absurd ⟨rfl, rfl⟩ marked
  | _ =>
    cases grow
    exact before

/-- What belongs to a type in which nothing belongs to a variable belongs to whatever else the type
may mean, if heads and function types are kept. -/
theorem Belongs.of_empty {meaning : Term → Term}
    (con : ∀ head args, meaning (.con head args) = Term.applied head (args.map meaning))
    (func : ∀ typeParams params result, ∃ typeParams' params' result',
      meaning (.func typeParams params result) = .func typeParams' params' result')
    (belongs : p.Belongs known named (emptySense t)) : p.Belongs known named (meaning t) := by
  induction t using Term.induct generalizing p with
  | con head args ih =>
    rw [con]
    rw [emptySense, Term.sense_con] at belongs
    refine belongs.applied_mono (List.forall₂_map_left_iff.mpr (List.forall₂_map_right_iff.mpr ?_))
    exact List.forall₂_same.mpr fun a member q inside => ih a member inside
  | use v =>
    rw [emptySense, Term.sense_use] at belongs
    exact absurd belongs not_belongs_nothing
  | scheme quantifier vars body _ =>
    rw [emptySense, Term.sense_scheme] at belongs
    cases belongs
  | func typeParams params result _ _ =>
    rw [emptySense, Term.sense_func] at belongs
    obtain ⟨typeParams', params', result', equal⟩ := func typeParams params result
    rw [equal]
    cases belongs with
    | function counts => exact .function counts

theorem Belongs.sense (belongs : p.Belongs known named (emptySense t)) (θ : TypeVar → Term) :
    p.Belongs known named (t.sense θ) :=
  belongs.of_empty (Term.sense_con θ) fun _ _ _ => ⟨_, _, _, Term.sense_func θ ..⟩

theorem Belongs.inhabits (belongs : p.Belongs known named (emptySense t)) : p.Inhabits t := by
  intro σ
  have anything := belongs.imp (fun _ _ => trivial) (fun _ _ => trivial)
  exact anything.of_empty (Term.fill_con σ) fun typeParams params result => ⟨_, _, _, rfl⟩

/-! Sets and maps. -/

private theorem mem_of_mem_addElement {elements : List (Key × Payload)} {element e : Key × Payload}
    (member : e ∈ addElement elements element) : e ∈ elements ∨ e = element := by
  unfold addElement at member
  split at member
  · exact .inl member
  · exact (List.mem_append.mp member).imp_right List.mem_singleton.mp

theorem belongs_ofElements {ps : List Payload} (all : ∀ q ∈ ps, q.Belongs known named t)
    (made : ofElements ps = .ok p) : p.Belongs known named (Standard.setOf t) := by
  obtain ⟨keyed, ran, made⟩ := Except.bind_eq_ok made
  cases made
  have each : ∀ e ∈ keyed, e.2.Belongs known named t := by
    refine forall_mem_of_forall₂ (forall₂_of_mapM_ok ran) fun q member e made => ?_
    obtain ⟨k, -, entry⟩ := Except.bind_eq_ok made
    cases entry
    exact all q member
  refine .set fun q member => ?_
  obtain ⟨e, inside, rfl⟩ := List.mem_map.mp member
  have kept : ∀ e ∈ keyed.foldl addElement [], e.2.Belongs known named t := by
    refine List.foldlRecOn (motive := fun elements => ∀ e ∈ elements, e.2.Belongs known named t)
      keyed addElement (fun _ member => absurd member List.not_mem_nil)
      fun elements old element new e member => ?_
    rcases mem_of_mem_addElement member with before | rfl
    · exact old e before
    · exact each e new
  exact kept e inside

private theorem of_mem_addEntry {P Q : Payload → Prop} {entries : List (Key × Payload × Payload)}
    {entry : Key × Payload × Payload} (old : ∀ e ∈ entries, P e.2.1 ∧ Q e.2.2)
    (new : P entry.2.1 ∧ Q entry.2.2) : ∀ e ∈ addEntry entries entry, P e.2.1 ∧ Q e.2.2 := by
  induction entries with
  | nil => exact List.forall_mem_singleton.mpr new
  | cons e rest ih =>
    obtain ⟨first, others⟩ := List.forall_mem_cons.mp old
    rw [addEntry]
    split
    · exact List.forall_mem_cons.mpr ⟨⟨first.1, new.2⟩, others⟩
    · exact List.forall_mem_cons.mpr ⟨first, ih others⟩

theorem belongs_ofPairs {ps : List Payload}
    (all : ∀ q ∈ ps, q.Belongs known named (Standard.pairOf a b)) (made : ofPairs ps = .ok p) :
    p.Belongs known named (Standard.mapOf a b) := by
  obtain ⟨keyed, ran, rfl⟩ := Except.map_eq_ok made
  have each : ∀ e ∈ keyed, e.2.1.Belongs known named a ∧ e.2.2.Belongs known named b := by
    refine forall_mem_of_forall₂ (forall₂_of_mapM_ok ran) fun q member e made => ?_
    have belongs := all q.1 (List.fst_mem_of_mem_zipIdx member)
    obtain ⟨x, y, pair, first, second⟩ := belongs.of_pairOf
    rw [entryAt, pair] at made
    obtain ⟨k, -, entry⟩ := Except.bind_eq_ok made
    cases entry
    exact ⟨first, second⟩
  have kept : ∀ e ∈ keyed.foldl addEntry [],
      e.2.1.Belongs known named a ∧ e.2.2.Belongs known named b :=
    List.foldlRecOn (motive := fun entries => ∀ e ∈ entries, e.2.1.Belongs known named a ∧
        e.2.2.Belongs known named b)
      keyed addEntry (fun _ member => absurd member List.not_mem_nil) fun entries old entry new =>
        of_mem_addEntry (P := (Belongs known named · a)) (Q := (Belongs known named · b)) old
          (each entry new)
  refine .map (fun e member => ?_) (fun e member => ?_)
  · obtain ⟨entry, inside, rfl⟩ := List.mem_map.mp member
    exact (kept entry inside).1
  · obtain ⟨entry, inside, rfl⟩ := List.mem_map.mp member
    exact (kept entry inside).2

end Payload

end TypedCalls
