import TypedCalls.Proofs.Classes.Ledger

/-!
Classes kept in the plainest way, and why nothing tells the two apart.

A `Table` notes each variable's class number directly, in order of first mention, and a term for each
class number. It has no pointers: two classes merge by renumbering every member of the lower one.
Whatever commands are given, classes with pointers that are halved on the way give the answers of the
table (`halving_agrees_with_table`).
-/

set_option autoImplicit false

namespace TypedCalls.Classes

structure Table where
  entries : List (TypeVar × Nat)
  made : Nat
  bound : Nat → Option Term

namespace Table

def blank : Table := ⟨[], 0, fun _ => none⟩

def classOf? (n : Table) (e : TypeVar) : Option Nat := n.entries.lookup e

def group (n : Table) (c : Nat) : List TypeVar :=
  (n.entries.filter fun x => x.2 == c).map Prod.fst

def members (n : Table) (e : TypeVar) : List TypeVar :=
  match n.classOf? e with
  | some c => n.group c
  | none => [e]

def listing (n : Table) : List (List TypeVar × Option Term) :=
  (List.range n.made).filterMap fun c =>
    if n.group c = [] then none else some (n.group c, n.bound c)

def answer (n : Table) : Query → Answer
  | .get e => .term ((n.classOf? e).bind n.bound)
  | .compare a b => .truth (a == b || ((n.classOf? a).isSome && n.classOf? a == n.classOf? b))
  | .contains e => .truth (n.classOf? e).isSome
  | .members e => .variables (n.members e)
  | .classes => .listing n.listing
  | .text => .text (listingText n.listing)

def found (n : Table) (es : List TypeVar) (value : Option Term) : Table where
  entries := n.entries ++ es.map fun e => (e, n.made)
  made := n.made + 1
  bound := Function.update n.bound n.made value

def set (n : Table) (e : TypeVar) (value : Option Term) : Table :=
  match n.classOf? e with
  | some c => { n with bound := Function.update n.bound c value }
  | none => n.found [e] value

def merge (n : Table) (low high : Nat) : Table where
  entries := n.entries.map fun x => (x.1, if x.2 = low then high else x.2)
  made := n.made
  bound := Function.update (Function.update n.bound low none) high
    ((n.bound high).or (n.bound low))

def join (n : Table) (a b : TypeVar) : Table :=
  match n.classOf? a, n.classOf? b with
  | none, none => n.found (if a = b then [a] else [a, b]) none
  | none, some c => { n with entries := n.entries ++ [(a, c)] }
  | some c, none => { n with entries := n.entries ++ [(b, c)] }
  | some c, some d => if c = d then n else n.merge (min c d) (max c d)

end Table

/-- The ledger of tables, whose queries change nothing. -/
def Ledger.naive : Ledger Table where
  blank := .blank
  ask q n := (n.answer q, n)
  change
    | .join a b, n => n.join a b
    | .set e value, n => n.set e value

/-- The table that pointers stand for. -/
structure Tabled (s : Classes) (n : Table) : Prop where
  tidy : Tidy s
  entries : n.entries = s.placed
  made : n.made = s.nodes.size
  bound : n.bound = s.boundAt

private theorem tabled_blank : Tabled empty .blank :=
  ⟨tidy_empty, rfl, rfl, funext fun c => by simp [Table.blank, boundAt, empty]⟩

private theorem Tabled.of_alike {s s' : Classes} {n : Table} (tabled : Tabled s n) (tidy : Tidy s')
    (alike : Alike s s') : Tabled s' n :=
  ⟨tidy, tabled.entries.trans alike.placed.symm, tabled.made.trans alike.size.symm,
    tabled.bound.trans (funext fun c => (alike.boundAt c).symm)⟩

section Answers

variable {s : Classes} {n : Table}

private theorem Tabled.classOf? (tabled : Tabled s n) (e : TypeVar) :
    n.classOf? e = s.classOf? e := by
  rw [Table.classOf?, tabled.entries, classOf?_eq_lookup]

private theorem Tabled.group (tabled : Tabled s n) (c : Nat) : n.group c = s.group c := by
  rw [Table.group, tabled.entries, Classes.group]

theorem listing_eq (s : Classes) :
    s.listing = (List.range s.nodes.size).filterMap fun c =>
      if s.group c = [] then none else some (s.group c, s.boundAt c) := by
  rw [listing]
  congr 1
  funext c
  rw [← group]
  cases s.group c with
  | nil => rfl
  | cons x rest => rfl

private theorem Tabled.listing (tabled : Tabled s n) : n.listing = s.listing := by
  rw [Table.listing, listing_eq, tabled.made, tabled.bound]
  simp only [tabled.group]

private theorem Tabled.answer (tabled : Tabled s n) (q : Query) : n.answer q = s.answer q := by
  cases q with
  | get e => rw [Table.answer, Classes.answer, bound?_eq_bind, tabled.classOf?, tabled.bound]
  | compare a b =>
    simp only [Table.answer, Classes.answer, tabled.classOf?, same]
    cases s.classOf? a with
    | none => rfl
    | some c =>
      simp only [Option.isSome_some, Bool.true_and, Option.any_some]
      rw [@BEq.comm _ _ _ (some c)]
  | contains e => rw [Table.answer, Classes.answer, tabled.classOf?]
  | members e =>
    simp only [Table.answer, Classes.answer, Table.members, membersOf, tabled.classOf?,
      tabled.group]
    rfl
  | classes => rw [Table.answer, Classes.answer, tabled.listing]
  | text => rw [Table.answer, Classes.answer, tabled.listing]

end Answers

/-! The table after an update is the table of the updated classes. -/

private theorem placed_of_moved {s s' : Classes} (tidy : Tidy s) (tidy' : Tidy s')
    (names : s'.mentioned = s.mentioned) (move : Nat → Nat)
    (moved : ∀ x, s'.classOf? x = (s.classOf? x).map move) :
    s'.placed = s.placed.map fun x => (x.1, move x.2) := by
  have marked : s'.placed.map (fun x => (x.1, some x.2)) =
      (s.placed.map fun x => (x.1, move x.2)).map fun x => (x.1, some x.2) := by
    rw [← map_classOf?_mentioned tidy', names, mentioned_eq_map_placed, List.map_map, List.map_map]
    apply List.map_congr_left
    intro x member
    simp only [Function.comp_apply, moved, tidy.mem_placed_iff.mp member, Option.map_some]
  refine List.map_injective_iff.mpr (fun x y equal => ?_) marked
  obtain ⟨first, second⟩ := Prod.mk.inj equal
  exact Prod.ext first (Option.some.inj second)

private theorem placed_of_still {s s' : Classes} (tidy : Tidy s) (tidy' : Tidy s')
    (names : s'.mentioned = s.mentioned) (still : ∀ x, s'.classOf? x = s.classOf? x) :
    s'.placed = s.placed := by
  have moved : ∀ x, s'.classOf? x = (s.classOf? x).map id := by
    intro x
    rw [still, Option.map_id]
    rfl
  rw [placed_of_moved tidy tidy' names id moved]
  exact List.map_id _

section Updates

variable {s : Classes} {n : Table}

private theorem Tabled.bindAt (tabled : Tabled s n) {e : TypeVar} {c : Nat}
    (found : s.classOf? e = some c) (value : Option Term) :
    Tabled (s.bindAt c value) { n with bound := Function.update n.bound c value } := by
  obtain ⟨made, classes, bounds⟩ := bindAt_spec tabled.tidy (tabled.tidy.classOf?_lt found)
    (tabled.tidy.parentIn_classOf? found) value
  refine ⟨made, ?_, ?_, ?_⟩
  · rw [placed_of_still tabled.tidy made rfl classes]
    exact tabled.entries
  · rw [Classes.bindAt, Array.size_modify]
    exact tabled.made
  · funext d
    change Function.update n.bound c value d = _
    rw [bounds, tabled.bound, Function.update_apply]

private theorem Tabled.enter (tabled : Tabled s n) {e x : TypeVar} {c : Nat}
    (new : s.classOf? e = none) (found : s.classOf? x = some c) :
    Tabled (s.enter e c) { n with entries := n.entries ++ [(e, c)] } where
  tidy := tabled.tidy.enter ((classOf?_eq_none_iff s e).mp new) (tabled.tidy.classOf?_lt found)
  entries := by rw [placed_enter s e (tabled.tidy.parentIn_classOf? found), tabled.entries]
  made := tabled.made
  bound := tabled.bound

private theorem Tabled.found (tabled : Tabled s n) {e : TypeVar} (new : s.classOf? e = none)
    (value : Option Term) :
    Tabled ((s.newClass value).enter e s.nodes.size) (n.found [e] value) := by
  obtain ⟨made, classes, bounds, fixed⟩ := newClass_spec tabled.tidy value
  have size : (s.newClass value).nodes.size = s.nodes.size + 1 := by simp [newClass]
  have absent : e ∉ (s.newClass value).mentioned := (classOf?_eq_none_iff s e).mp new
  refine ⟨made.enter absent (by omega), ?_, ?_, ?_⟩
  · rw [placed_enter _ e fixed, placed_of_still tabled.tidy made rfl classes, Table.found,
      tabled.entries, tabled.made]
    rfl
  · change n.made + 1 = (s.newClass value).nodes.size
    rw [size, tabled.made]
  · funext d
    change Function.update n.bound n.made value d = (s.newClass value).boundAt d
    rw [bounds, tabled.bound, tabled.made, Function.update_apply]

private theorem Tabled.merge (tabled : Tabled s n) {a b : TypeVar} {low high : Nat}
    (foundLow : s.classOf? a = some low) (foundHigh : s.classOf? b = some high)
    (order : low < high) : Tabled (s.merge low high) (n.merge low high) := by
  obtain ⟨made, classes, bounds⟩ := merge_spec tabled.tidy order (tabled.tidy.classOf?_lt foundHigh)
    (tabled.tidy.parentIn_classOf? foundLow) (tabled.tidy.parentIn_classOf? foundHigh)
  refine ⟨made, ?_, ?_, ?_⟩
  · rw [placed_of_moved tabled.tidy made rfl _ classes, Table.merge, tabled.entries]
  · simp only [Table.merge, Classes.merge, Array.size_modify]
    exact tabled.made
  · funext d
    simp only [bounds, Table.merge, tabled.bound, Function.update_apply]

private theorem Tabled.set (tabled : Tabled s n) (e : TypeVar) (value : Option Term) :
    Tabled (s.set e value) (n.set e value) := by
  obtain ⟨-, tidy', alike⟩ := find_spec tabled.tidy e
  have tabled' := tabled.of_alike tidy' alike
  rw [set_eq tabled.tidy, Table.set, tabled.classOf?]
  cases found : s.classOf? e with
  | none => exact tabled'.found ((alike.classOf? e).trans found) value
  | some c => exact tabled'.bindAt ((alike.classOf? e).trans found) value

private theorem Tabled.join (tabled : Tabled s n) (a b : TypeVar) :
    Tabled (s.join a b) (n.join a b) := by
  obtain ⟨t, tidy', alike, equation⟩ := join_eq tabled.tidy a b
  have tabled' := tabled.of_alike tidy' alike
  rw [equation, Table.join, tabled'.classOf?, tabled'.classOf?]
  cases foundA : t.classOf? a with
  | none =>
    cases foundB : t.classOf? b with
    | none =>
      have first := tabled'.found foundA none
      by_cases equal : a = b
      · simp only [if_pos equal]
        exact first
      · simp only [if_neg equal]
        have absent := (classOf?_eq_none_iff t a).mp foundA
        obtain ⟨-, classes, -, fixed⟩ := newClass_spec tidy' none
        have entered := classOf?_enter (t.newClass none) absent fixed
        have newB := (entered b).trans (by rw [if_neg (Ne.symm equal), classes, foundB])
        have foundA' := (entered a).trans (if_pos rfl)
        have second := first.enter newB foundA'
        simpa only [Table.found, tabled'.made, List.map_cons, List.map_nil, List.append_assoc,
          List.cons_append, List.nil_append] using second
    | some d => exact tabled'.enter foundA foundB
  | some c =>
    cases foundB : t.classOf? b with
    | none => exact tabled'.enter foundB foundA
    | some d =>
      by_cases equal : c = d
      · simp only [if_pos equal]
        exact tabled'
      · simp only [if_neg equal]
        rcases Nat.lt_or_gt_of_ne equal with order | order
        · rw [Nat.min_eq_left (by omega), Nat.max_eq_right (by omega)]
          exact tabled'.merge foundA foundB order
        · rw [Nat.min_eq_right (by omega), Nat.max_eq_left (by omega)]
          exact tabled'.merge foundB foundA order

end Updates

private theorem related_naive : Ledger.Related .halving .naive Tabled where
  blank := tabled_blank
  ask := by
    intro q s n tabled
    obtain ⟨-, tidy', alike⟩ := ask_halving tabled.tidy q
    exact tabled.of_alike tidy' alike
  change := by
    intro u s n tabled
    cases u with
    | join a b => exact tabled.join a b
    | set e value => exact tabled.set e value

private theorem ask_halving_eq_naive (q : Query) {s : Classes} {n : Table} (tabled : Tabled s n) :
    (Ledger.halving.ask q s).1 = (Ledger.naive.ask q n).1 := by
  rw [(ask_halving tabled.tidy q).1, ← tabled.answer]
  rfl

/-- Every script gets from the classes the answers it gets from tables, and leaves every copy with
the listing and the text of its table. A query put into a script adds its own answer and changes no
other. -/
theorem halving_agrees_with_table (script : List Command) :
    Ledger.halving.answers script = Ledger.naive.answers script ∧
      (Ledger.halving.pool script).map (fun s => (s.classes.1, s.render)) =
        (Ledger.naive.pool script).map (fun n => (n.listing, listingText n.listing)) ∧
      ∀ k q after,
        (Ledger.halving.answers (script ++ .query k q :: after)).eraseIdx script.length =
          Ledger.halving.answers (script ++ after) := by
  have agree := Ledger.answers_eq related_naive ask_halving_eq_naive
  refine ⟨agree script, ?_, fun k q after => ?_⟩
  · have shown : ∀ s n, Tabled s n →
        (s.classes.1, s.render) = (n.listing, listingText n.listing) := by
      intro s n tabled
      rw [render, text, (classes_spec tabled.tidy).1, tabled.listing]
    rw [← List.forall₂_eq_eq_eq, List.forall₂_map_left_iff, List.forall₂_map_right_iff]
    exact (Ledger.related_pool related_naive script).imp shown
  · rw [agree, agree]
    exact Ledger.eraseIdx_answers .naive (fun _ _ => rfl) script after k q

end TypedCalls.Classes
