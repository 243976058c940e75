import TypedCalls.Classes.Printer
import TypedCalls.Proofs.Classes.Laws

/-!
Scripts of commands to classes and to their copies, and what keeps books on them.

A `Ledger` is anything that answers queries and takes updates. A script runs on a pool, which starts
with one book and grows by a copy of one of its books at each `copy`. Two ledgers whose books stay
related under queries and updates stay related along every script (`Ledger.related_pool`), and give
the same answers if related books do (`Ledger.answers_eq`).

`Ledger.halving` is the ledger of `Classes`, in which queries shorten the paths they walk on. None of
them changes what can be read from the classes (`ask_halving`).
-/

set_option autoImplicit false

namespace TypedCalls

namespace Classes

inductive Query where
  | get (e : TypeVar)
  | compare (a b : TypeVar)
  | contains (e : TypeVar)
  | members (e : TypeVar)
  | classes
  | text
  deriving DecidableEq, Repr

inductive Update where
  | join (a b : TypeVar)
  | set (e : TypeVar) (value : Option Term)
  deriving DecidableEq, Repr

/-- A command names the book it goes to by its place in the pool. -/
inductive Command where
  | query (book : Nat) (query : Query)
  | update (book : Nat) (update : Update)
  | copy (book : Nat)
  deriving DecidableEq, Repr

inductive Answer where
  | term (bound : Option Term)
  | truth (b : Bool)
  | variables (names : List TypeVar)
  | listing (classes : List (List TypeVar × Option Term))
  | text (s : String)
  | done
  | copied (book : Nat)
  | missing
  deriving DecidableEq, Repr

/-- What a query may do to a book is part of its answering it. -/
structure Ledger (σ : Type) where
  blank : σ
  ask : Query → σ → Answer × σ
  change : Update → σ → σ

namespace Ledger

variable {σ τ : Type}

def obey (l : Ledger σ) (pool : List σ) : Command → Answer × List σ
  | .query k q =>
    match pool[k]? with
    | some book => ((l.ask q book).1, pool.set k (l.ask q book).2)
    | none => (.missing, pool)
  | .update k u =>
    match pool[k]? with
    | some book => (.done, pool.set k (l.change u book))
    | none => (.missing, pool)
  | .copy k =>
    match pool[k]? with
    | some book => (.copied pool.length, pool ++ [book])
    | none => (.missing, pool)

def poolFrom (l : Ledger σ) : List σ → List Command → List σ
  | pool, [] => pool
  | pool, c :: script => l.poolFrom (l.obey pool c).2 script

def answersFrom (l : Ledger σ) : List σ → List Command → List Answer
  | _, [] => []
  | pool, c :: script => (l.obey pool c).1 :: l.answersFrom (l.obey pool c).2 script

/-- The books after a script, from one blank book. -/
def pool (l : Ledger σ) (script : List Command) : List σ := l.poolFrom [l.blank] script

/-- The answers to the commands of a script, from one blank book. -/
def answers (l : Ledger σ) (script : List Command) : List Answer := l.answersFrom [l.blank] script

/-- Queries and updates keep the books of two ledgers related. -/
structure Related (l : Ledger σ) (l' : Ledger τ) (R : σ → τ → Prop) : Prop where
  blank : R l.blank l'.blank
  ask : ∀ q {s t}, R s t → R (l.ask q s).2 (l'.ask q t).2
  change : ∀ u {s t}, R s t → R (l.change u s) (l'.change u t)

private theorem length_answersFrom (l : Ledger σ) (pool : List σ) (script : List Command) :
    (l.answersFrom pool script).length = script.length := by
  induction script generalizing pool with
  | nil => rfl
  | cons c script ih => simp [answersFrom, ih]

private theorem answersFrom_append (l : Ledger σ) (pool : List σ) (before after : List Command) :
    l.answersFrom pool (before ++ after) =
      l.answersFrom pool before ++ l.answersFrom (l.poolFrom pool before) after := by
  induction before generalizing pool with
  | nil => rfl
  | cons c before ih => simp [answersFrom, poolFrom, ih]

section Related

variable {l : Ledger σ} {l' : Ledger τ} {R : σ → τ → Prop}

private theorem forall₂_getElem? {books : List σ} {books' : List τ}
    (pools : List.Forall₂ R books books') (k : Nat) :
    (books[k]? = none ∧ books'[k]? = none) ∨
      ∃ s t, books[k]? = some s ∧ books'[k]? = some t ∧ R s t := by
  induction pools generalizing k with
  | nil => exact .inl ⟨rfl, rfl⟩
  | cons head _ ih =>
    cases k with
    | zero => exact .inr ⟨_, _, rfl, rfl, head⟩
    | succ k => exact ih k

private theorem forall₂_set {books : List σ} {books' : List τ}
    (pools : List.Forall₂ R books books') {s : σ} {t : τ} (related : R s t) (k : Nat) :
    List.Forall₂ R (books.set k s) (books'.set k t) := by
  induction pools generalizing k with
  | nil => exact .nil
  | cons head tail ih =>
    cases k with
    | zero => exact .cons related tail
    | succ k => exact .cons head (ih k)

private theorem related_obey (related : Related l l' R) {books : List σ} {books' : List τ}
    (pools : List.Forall₂ R books books') (c : Command) :
    List.Forall₂ R (l.obey books c).2 (l'.obey books' c).2 := by
  cases c with
  | query k q =>
    rcases forall₂_getElem? pools k with ⟨here, there⟩ | ⟨s, t, here, there, both⟩
    · simpa only [obey, here, there] using pools
    · simpa only [obey, here, there] using forall₂_set pools (related.ask q both) k
  | update k u =>
    rcases forall₂_getElem? pools k with ⟨here, there⟩ | ⟨s, t, here, there, both⟩
    · simpa only [obey, here, there] using pools
    · simpa only [obey, here, there] using forall₂_set pools (related.change u both) k
  | copy k =>
    rcases forall₂_getElem? pools k with ⟨here, there⟩ | ⟨s, t, here, there, both⟩
    · simpa only [obey, here, there] using pools
    · simpa only [obey, here, there] using List.rel_append pools (.cons both .nil)

private theorem related_poolFrom (related : Related l l' R) (script : List Command) {books : List σ}
    {books' : List τ} (pools : List.Forall₂ R books books') :
    List.Forall₂ R (l.poolFrom books script) (l'.poolFrom books' script) := by
  induction script generalizing books books' with
  | nil => exact pools
  | cons c script ih => exact ih (related_obey related pools c)

theorem related_pool (related : Related l l' R) (script : List Command) :
    List.Forall₂ R (l.pool script) (l'.pool script) :=
  related_poolFrom related script (.cons related.blank .nil)

private theorem answersFrom_eq (related : Related l l' R)
    (agree : ∀ q {s t}, R s t → (l.ask q s).1 = (l'.ask q t).1) (script : List Command)
    {books : List σ} {books' : List τ} (pools : List.Forall₂ R books books') :
    l.answersFrom books script = l'.answersFrom books' script := by
  induction script generalizing books books' with
  | nil => rfl
  | cons c script ih =>
    have first : (l.obey books c).1 = (l'.obey books' c).1 := by
      cases c with
      | query k q =>
        rcases forall₂_getElem? pools k with ⟨here, there⟩ | ⟨s, t, here, there, both⟩
        · simp only [obey, here, there]
        · simpa only [obey, here, there] using agree q both
      | update k u =>
        rcases forall₂_getElem? pools k with ⟨here, there⟩ | ⟨s, t, here, there, -⟩ <;>
          simp only [obey, here, there]
      | copy k =>
        rcases forall₂_getElem? pools k with ⟨here, there⟩ | ⟨s, t, here, there, -⟩ <;>
          simp only [obey, here, there, pools.length_eq]
    rw [answersFrom, answersFrom, first, ih (related_obey related pools c)]

/-- Along every script related ledgers give the same answers, if related books do. -/
theorem answers_eq (related : Related l l' R)
    (agree : ∀ q {s t}, R s t → (l.ask q s).1 = (l'.ask q t).1) (script : List Command) :
    l.answers script = l'.answers script :=
  answersFrom_eq related agree script (.cons related.blank .nil)

end Related

theorem eraseIdx_answers (l : Ledger σ) (still : ∀ q s, (l.ask q s).2 = s)
    (before after : List Command) (k : Nat) (q : Query) :
    (l.answers (before ++ .query k q :: after)).eraseIdx before.length =
      l.answers (before ++ after) := by
  have untouched : ∀ books : List σ, (l.obey books (.query k q)).2 = books := by
    intro books
    cases here : books[k]? with
    | none => simp only [obey, here]
    | some book =>
      obtain ⟨inside, rfl⟩ := List.getElem?_eq_some_iff.mp here
      simp only [obey, here, still, List.set_getElem_self]
  rw [answers, answers, answersFrom_append, answersFrom_append, answersFrom, untouched,
    List.eraseIdx_append_of_length_le (Nat.le_of_eq (length_answersFrom l _ before)),
    length_answersFrom,
    Nat.sub_self, List.eraseIdx_cons_zero]

/-- The classes themselves, whose queries halve paths. -/
def halving : Ledger Classes where
  blank := empty
  ask
    | .get e, s => (.term (s.get e).1, (s.get e).2)
    | .compare a b, s => (.truth (s.compare a b).1, (s.compare a b).2)
    | .contains e, s => (.truth (s.contains e), s)
    | .members e, s => (.variables (s.members e).1, (s.members e).2)
    | .classes, s => (.listing s.classes.1, s.classes.2)
    | .text, s => (.text s.text.1, s.text.2)
  change
    | .join a b, s => s.join a b
    | .set e value, s => s.set e value

end Ledger

/-! What the queries answer, in terms of the functions that only read. -/

private theorem findAll_spec {s : Classes} (tidy : Tidy s) (es : List TypeVar) :
    (s.findAll es).1 = es.map (fun e => (e, s.classOf? e)) ∧
      Tidy (s.findAll es).2 ∧ Alike s (s.findAll es).2 := by
  induction es generalizing s with
  | nil => exact ⟨rfl, tidy, Alike.refl s⟩
  | cons e es ih =>
    obtain ⟨answer, tidy', alike⟩ := find_spec tidy e
    obtain ⟨answers, tidy'', alike'⟩ := ih tidy'
    simp only [alike.classOf?] at answers
    refine ⟨?_, tidy'', alike.trans alike'⟩
    rw [findAll, answer, answers, List.map_cons]

def group (s : Classes) (c : Nat) : List TypeVar :=
  (s.placed.filter fun x => x.2 == c).map Prod.fst

theorem map_classOf?_mentioned {s : Classes} (tidy : Tidy s) :
    s.mentioned.map (fun e => (e, s.classOf? e)) = s.placed.map fun x => (x.1, some x.2) := by
  rw [mentioned_eq_map_placed, List.map_map]
  apply List.map_congr_left
  intro x member
  rw [Function.comp_apply, tidy.mem_placed_iff.mp member]

private theorem filter_classOf?_mentioned {s : Classes} (tidy : Tidy s) (c : Nat) :
    ((s.mentioned.map fun e => (e, s.classOf? e)).filter fun x => x.2 == some c).map Prod.fst =
      s.group c := by
  rw [map_classOf?_mentioned tidy, List.filter_map, List.map_map]
  rfl

private theorem members_spec {s : Classes} (tidy : Tidy s) (e : TypeVar) :
    (s.members e).1 = s.membersOf e ∧ Tidy (s.members e).2 ∧ Alike s (s.members e).2 := by
  obtain ⟨answer, tidy', alike⟩ := find_spec tidy e
  cases found : s.classOf? e with
  | none => simp only [members, membersOf, answer, found, tidy', alike, and_self]
  | some c =>
    obtain ⟨answers, tidy'', alike'⟩ := findAll_spec tidy' (s.find e).2.mentioned
    simp only [members, membersOf, answer, found, answers]
    refine ⟨?_, tidy'', alike.trans alike'⟩
    rw [filter_classOf?_mentioned tidy', group, alike.placed]

theorem classes_spec {s : Classes} (tidy : Tidy s) :
    s.classes.1 = s.listing ∧ Tidy s.classes.2 ∧ Alike s s.classes.2 := by
  obtain ⟨answers, tidy', alike⟩ := findAll_spec tidy s.mentioned
  refine ⟨?_, tidy', alike⟩
  simp only [classes, answers, filter_classOf?_mentioned tidy, listing, alike.size, alike.boundAt]
  rfl

private theorem compare_snd {s : Classes} (tidy : Tidy s) (a b : TypeVar) :
    Tidy (s.compare a b).2 ∧ Alike s (s.compare a b).2 := by
  by_cases equal : a = b
  · simp only [compare, if_pos equal]
    exact ⟨tidy, Alike.refl s⟩
  · simp only [compare, if_neg equal]
    obtain ⟨-, tidy', alike⟩ := find_spec tidy a
    obtain ⟨-, tidy'', alike'⟩ := find_spec tidy' b
    exact ⟨tidy'', alike.trans alike'⟩

def answer (s : Classes) : Query → Answer
  | .get e => .term (s.bound? e)
  | .compare a b => .truth (s.same a b)
  | .contains e => .truth (s.classOf? e).isSome
  | .members e => .variables (s.membersOf e)
  | .classes => .listing s.listing
  | .text => .text (listingText s.listing)

/-- A query answers what the reading functions say, and changes nothing that they say. -/
theorem ask_halving {s : Classes} (tidy : Tidy s) (q : Query) :
    (Ledger.halving.ask q s).1 = s.answer q ∧ Tidy (Ledger.halving.ask q s).2 ∧
      Alike s (Ledger.halving.ask q s).2 := by
  cases q with
  | get e => exact ⟨congrArg Answer.term (get_fst tidy e), (find_spec tidy e).2⟩
  | compare a b => exact ⟨congrArg Answer.truth (compare_fst tidy a b), compare_snd tidy a b⟩
  | contains e =>
    refine ⟨?_, tidy, Alike.refl s⟩
    simp only [Ledger.halving, answer, contains, classOf?, Option.isSome_map]
  | members e =>
    obtain ⟨same, rest⟩ := members_spec tidy e
    exact ⟨congrArg Answer.variables same, rest⟩
  | classes =>
    obtain ⟨same, rest⟩ := classes_spec tidy
    exact ⟨congrArg Answer.listing same, rest⟩
  | text =>
    obtain ⟨same, rest⟩ := classes_spec tidy
    exact ⟨congrArg (fun listed => Answer.text (listingText listed)) same, rest⟩

end Classes

end TypedCalls
