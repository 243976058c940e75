import Mathlib.Data.List.Nodup
import Mathlib.Tactic.Common
import TypedCalls.Call.Matching

/-!
What one step of the matching can do.

A state is in order when every keyword left names a parameter and has a value, and no parameter has
received more than it accepts. From such a state a step ends in a proper outcome or leads to states in
order, which are explored to a smaller height (`InOrder.follows`): nothing that must never happen does
happen.
-/

set_option autoImplicit false

namespace TypedCalls

namespace Arity

def Admits (arity : Arity) (n : Nat) : Prop :=
  arity.minimum ≤ n ∧ ∀ most, arity.maximum = some most → n ≤ most

theorem consume_natCast {arity : Arity} {n : Nat}
    (room : ∀ most, arity.maximum = some most → n ≤ most) :
    ∃ left, arity.consume n = .ok left ∧ left.minimum = arity.minimum - n ∧
      left.maximum = arity.maximum.map (· - n) := by
  have natural : ¬((n : Int) < 0) := by omega
  unfold consume
  rw [if_neg natural]
  by_cases zero : n = 0
  · subst zero
    refine ⟨arity, rfl, rfl, ?_⟩
    cases arity.maximum <;> rfl
  · rw [if_neg (by omega)]
    split
    · next unbounded => exact ⟨_, rfl, by simp, by rw [unbounded]; rfl⟩
    · next most bounded =>
      have le := room most bounded
      rw [if_neg (by omega)]
      exact ⟨_, rfl, by simp, by simp [bounded]⟩

end Arity

variable {α : Type}

namespace Argument

private theorem length_leadingValues_le (arguments : List (Argument α)) :
    (leadingValues arguments).length ≤ arguments.length := by
  induction arguments with
  | nil => exact Nat.le_refl 0
  | cons a rest ih =>
    cases a with
    | value a => exact Nat.succ_le_succ ih
    | keyword name => exact Nat.zero_le _

private theorem mem_of_mem_leadingValues {arguments : List (Argument α)} {a : α}
    (member : a ∈ leadingValues arguments) : .value a ∈ arguments := by
  induction arguments with
  | nil => cases member
  | cons first rest ih =>
    cases first with
    | value b =>
      rcases List.mem_cons.mp member with rfl | later
      · exact List.mem_cons_self ..
      · exact List.mem_cons_of_mem _ (ih later)
    | keyword name => cases member

end Argument

namespace Matching

private theorem keywordsWithoutValue_drop {arguments : List (Argument α)} {n : Nat}
    (few : n ≤ (Argument.leadingValues arguments).length) :
    keywordsWithoutValue (arguments.drop n) = keywordsWithoutValue arguments := by
  induction n generalizing arguments with
  | zero => rw [List.drop_zero]
  | succ n ih =>
    match arguments, few with
    | .value a :: rest, few =>
      rw [List.drop_succ_cons, ih (Nat.le_of_succ_le_succ few), keywordsWithoutValue]

private theorem leadingValues_ne_nil {name : String} {rest : List (Argument α)}
    (valued : keywordsWithoutValue (.keyword name :: rest) = []) :
    Argument.leadingValues rest ≠ [] := by
  match rest, valued with
  | .value a :: rest, _ => exact List.cons_ne_nil _ _

private theorem keywordsWithoutValue_tail {first : Argument α} {rest : List (Argument α)}
    (valued : keywordsWithoutValue (first :: rest) = []) : keywordsWithoutValue rest = [] := by
  match first, rest, valued with
  | .value a, rest, valued => rwa [keywordsWithoutValue] at valued
  | .keyword name, .value a :: rest, valued => exact valued

end Matching

namespace Assignment

def Holds (good : α → Prop) (assignment : Assignment α) : Prop :=
  ∀ slot ∈ assignment, ∀ a ∈ slot.2, good a

variable {good : α → Prop} {assignment : Assignment α} {name : String} {values : List α}

theorem get_cons_self (name : String) (values : List α) (rest : Assignment α) :
    get ((name, values) :: rest) name = values := by
  simp [get]

theorem get_cons_of_ne {name other : String} (values : List α) (rest : Assignment α)
    (ne : other ≠ name) : get ((name, values) :: rest) other = get rest other := by
  have differ : (other == name) = false := beq_eq_false_iff_ne.mpr ne
  rw [get, List.lookup_cons, differ]
  rfl

theorem eq_map_get {slots : Assignment α} (distinct : (slots.map Prod.fst).Nodup) :
    slots = (slots.map Prod.fst).map fun name => (name, get slots name) := by
  induction slots with
  | nil => rfl
  | cons slot rest ih =>
    obtain ⟨name, values⟩ := slot
    obtain ⟨new, distinct⟩ := List.nodup_cons.mp distinct
    have others : ∀ other ∈ rest.map Prod.fst,
        (other, get ((name, values) :: rest) other) = (other, get rest other) := by
      intro other member
      have ne : other ≠ name := by
        rintro rfl
        exact new member
      rw [get_cons_of_ne values rest ne]
    rw [List.map_cons, List.map_cons, get_cons_self, List.map_congr_left others, ← ih distinct]

theorem map_fst_put : (assignment.put name values).map Prod.fst = assignment.map Prod.fst := by
  rw [put, List.map_map]
  refine List.map_congr_left fun slot _ => ?_
  by_cases here : slot.1 = name
  · simp [here]
  · simp [here]

private theorem Holds.get (holds : assignment.Holds good) : ∀ a ∈ assignment.get name, good a := by
  intro a member
  induction assignment with
  | nil => cases member
  | cons slot rest ih =>
    obtain ⟨here, there⟩ := List.forall_mem_cons.mp holds
    rw [Assignment.get, List.lookup_cons] at member
    cases same : name == slot.1 with
    | true =>
      rw [same] at member
      exact here a member
    | false =>
      rw [same] at member
      exact ih there member

private theorem holds_empty (formals : List Formal) :
    (empty formals : Assignment α).Holds good := by
  intro slot member
  obtain ⟨f, -, rfl⟩ := List.mem_map.mp member
  simp

theorem get_empty (formals : List Formal) (name : String) :
    (empty formals : Assignment α).get name = [] := by
  have holds : (empty formals : Assignment α).Holds fun _ => False := holds_empty formals
  exact List.eq_nil_iff_forall_not_mem.mpr fun a among => holds.get a among

private theorem Holds.put (holds : assignment.Holds good) (given : ∀ a ∈ values, good a) :
    (assignment.put name values).Holds good := by
  intro slot member
  obtain ⟨old, known, rfl⟩ := List.mem_map.mp member
  split
  · exact given
  · exact holds old known

end Assignment

/-- An outcome that a leaf may be: not an ambiguity, nothing that must never happen, and a success
only with values that are meant. -/
def Outcome.Proper (good : α → Prop) : Outcome α → Prop
  | .success assignment => assignment.Holds good
  | .ambiguous _ => False
  | .fault _ => False
  | _ => True

def Cursor.LeadsTo : Cursor → Cursor → Prop
  | .positional index, .positional later => index ≤ later
  | .named _, .positional _ => False
  | _, .named _ => True

namespace Cursor

private theorem leadsTo_advance {cursor later : Cursor} (leads : cursor.LeadsTo later) :
    cursor.LeadsTo later.advance := by
  cases cursor with
  | positional index =>
    cases later with
    | positional j => exact Nat.le_succ_of_le leads
    | named => trivial
  | named =>
    cases later with
    | positional j => exact leads
    | named => trivial

private theorem leadsTo_cursorAt (formals : List Formal) (name : String) (cursor : Cursor) :
    cursor.LeadsTo (MatchState.cursorAt formals name cursor) := by
  cases cursor with
  | named => trivial
  | positional index =>
    unfold MatchState.cursorAt
    dsimp only
    split
    · next before =>
      split
      · exact Nat.le_of_lt before
      · trivial
    · split
      · trivial
      · exact Nat.le_refl index

end Cursor

namespace MatchState

def height (formals : List Formal) (state : MatchState α) : Nat :=
  match state.cursor with
  | .positional index => formals.length - index + state.rest.length + 1
  | .named _ => max 1 state.rest.length

theorem height_pos (formals : List Formal) (state : MatchState α) : 0 < state.height formals := by
  unfold height
  split <;> omega

/-- Every keyword left names a parameter and has a value, and no parameter has received more than it
accepts. All values are among those that are meant. -/
structure InOrder (formals : List Formal) (good : α → Prop) (state : MatchState α) : Prop where
  declared : ∀ name, .keyword name ∈ state.rest → name ∈ formals.map Formal.name
  valued : Matching.keywordsWithoutValue state.rest = []
  slots : state.taken.map Prod.fst = formals.map Formal.name
  room : ∀ f ∈ formals, ∀ most, f.arity.maximum = some most →
    (state.taken.get f.name).length ≤ most
  offered : ∀ a, .value a ∈ state.rest → good a
  received : state.taken.Holds good

variable {formals : List Formal} {good : α → Prop} {state : MatchState α}

private theorem InOrder.take (order : state.InOrder formals good)
    (distinct : (formals.map Formal.name).Nodup) {f : Formal} (known : f ∈ formals)
    {skip count : Nat} {values : List α}
    (behind : values <+: Argument.leadingValues (state.rest.drop skip))
    (valued : Matching.keywordsWithoutValue (state.rest.drop skip) = [])
    (few : count ≤ values.length)
    (room : ∀ most, f.arity.maximum = some most →
      (state.taken.get f.name).length + count ≤ most) (cursor : Cursor) :
    InOrder formals good ⟨cursor, state.rest.drop (skip + count),
      state.taken.put f.name (state.taken.get f.name ++ values.take count)⟩ := by
  have slot : f.name ∈ state.taken.map Prod.fst := by
    rw [order.slots]
    exact List.mem_map_of_mem known
  constructor
  · intro name member
    exact order.declared name (List.mem_of_mem_drop member)
  · have enough := behind.length_le
    rw [← List.drop_drop, Matching.keywordsWithoutValue_drop (by omega), valued]
  · rw [Assignment.map_fst_put, order.slots]
  · intro g other most bounded
    by_cases same : g.name = f.name
    · have here := List.inj_on_of_nodup_map distinct other known same
      subst here
      have fits := room most bounded
      rw [Assignment.get_put_self _ slot, List.length_append, List.length_take]
      omega
    · rw [Assignment.get_put_of_ne _ same]
      exact order.room g other most bounded
  · intro a member
    exact order.offered a (List.mem_of_mem_drop member)
  · refine order.received.put fun a member => ?_
    rcases List.mem_append.mp member with old | new
    · exact order.received.get a old
    · have leading := behind.subset (List.mem_of_mem_take new)
      exact order.offered a (List.mem_of_mem_drop (Argument.mem_of_mem_leadingValues leading))

theorem taking_ok (state : MatchState α) (name : String) {effective : Arity} (cursor : Cursor)
    (skip : Nat) (values : List α) {count : Nat}
    (room : ∀ most, effective.maximum = some most → count ≤ most) :
    ∃ states, state.taking name effective cursor skip values count = .ok states ∧ states ≠ [] ∧
      ∀ next ∈ states, ∃ c, (c = cursor.advance ∨ c = cursor ∧ count ≠ 0) ∧
        next = ⟨c, state.rest.drop (skip + count),
          state.taken.put name (state.taken.get name ++ values.take count)⟩ := by
  obtain ⟨left, consumed, -, -⟩ := Arity.consume_natCast room
  unfold taking
  rw [consumed]
  refine ⟨_, rfl, ?_, ?_⟩
  · split <;> exact List.cons_ne_nil _ _
  · intro next member
    split at member
    · exact ⟨_, .inl rfl, List.mem_singleton.mp member⟩
    · next more =>
      rcases List.mem_cons.mp member with behind | stays
      · exact ⟨_, .inl rfl, behind⟩
      · exact ⟨cursor, .inr ⟨rfl, fun none => more (.inl none)⟩, List.mem_singleton.mp stays⟩

private theorem exists_mapM_ok {ε β γ : Type} {f : β → Except ε γ} {P : γ → Prop} {xs : List β}
    (each : ∀ x ∈ xs, ∃ y, f x = .ok y ∧ P y) :
    ∃ ys, xs.mapM f = .ok ys ∧ ys.length = xs.length ∧ ∀ y ∈ ys, P y := by
  induction xs with
  | nil => exact ⟨[], rfl, rfl, by simp⟩
  | cons x xs ih =>
    obtain ⟨⟨y, first, holds⟩, others⟩ := List.forall_mem_cons.mp each
    obtain ⟨ys, ran, length, all⟩ := ih others
    refine ⟨y :: ys, ?_, congrArg Nat.succ length, List.forall_mem_cons.mpr ⟨holds, all⟩⟩
    simp only [List.mapM_cons, first, ran, bind, Except.bind]
    rfl

theorem mem_counts {lo hi count : Nat} : count ∈ counts lo hi ↔ lo ≤ count ∧ count ≤ hi := by
  simp only [counts, List.mem_map, List.mem_range]
  constructor
  · rintro ⟨k, few, rfl⟩
    omega
  · intro between
    exact ⟨count - lo, by omega, by omega⟩

private theorem bounds_le {effective : Arity} {least n : Nat} (greedy : Bool) (enough : least ≤ n)
    (room : ∀ most, effective.maximum = some most → least ≤ most) :
    least ≤ (bounds effective least greedy n).1 ∧
      (bounds effective least greedy n).1 ≤ (bounds effective least greedy n).2 ∧
      (bounds effective least greedy n).2 ≤ n ∧
      ∀ most, effective.maximum = some most → (bounds effective least greedy n).2 ≤ most := by
  have ordered := effective.minimum_le
  unfold bounds
  cases bounded : effective.maximum with
  | none =>
    cases greedy <;> simp <;> omega
  | some most =>
    have fits := room most bounded
    have least_le := ordered most bounded
    cases greedy <;> simp <;> omega

def Took (formals : List Formal) (good : α → Prop) (state : MatchState α) (cursor : Cursor)
    (least skip : Nat) (values : List α) (next : MatchState α) : Prop :=
  next.InOrder formals good ∧ ∃ count, least ≤ count ∧ count ≤ values.length ∧
    (next.cursor = cursor.advance ∨ next.cursor = cursor ∧ count ≠ 0) ∧
    next.rest = state.rest.drop (skip + count)

private theorem InOrder.taking_took (order : state.InOrder formals good)
    (distinct : (formals.map Formal.name).Nodup) {f : Formal} (known : f ∈ formals)
    {effective : Arity} (left : effective.maximum =
      f.arity.maximum.map (· - (state.taken.get f.name).length)) (cursor : Cursor)
    {least skip count : Nat} {values : List α}
    (behind : values <+: Argument.leadingValues (state.rest.drop skip))
    (valued : Matching.keywordsWithoutValue (state.rest.drop skip) = [])
    (enough : least ≤ count) (few : count ≤ values.length)
    (room : ∀ most, effective.maximum = some most → count ≤ most) :
    ∃ group, state.taking f.name effective cursor skip values count = .ok group ∧ group ≠ [] ∧
      ∀ next ∈ group, Took formals good state cursor least skip values next := by
  obtain ⟨group, ran, nonempty, each⟩ := taking_ok state f.name cursor skip values room
  refine ⟨group, ran, nonempty, fun next member => ?_⟩
  obtain ⟨c, moved, rfl⟩ := each next member
  refine ⟨order.take distinct known behind valued few (fun most bounded => ?_) c,
    count, enough, few, moved, rfl⟩
  have already := order.room f known most bounded
  have more := room (most - (state.taken.get f.name).length) (by rw [left, bounded]; rfl)
  omega

private theorem InOrder.offer_cases (order : state.InOrder formals good)
    (distinct : (formals.map Formal.name).Nodup) {name : String}
    (declared : name ∈ formals.map Formal.name) (cursor : Cursor) {least skip : Nat}
    (greedy : Bool) {values : List α}
    (behind : values <+: Argument.leadingValues (state.rest.drop skip))
    (valued : Matching.keywordsWithoutValue (state.rest.drop skip) = [])
    (enough : least ≤ values.length) (modest : least ≤ 1) :
    (∃ duplicate, offer formals state cursor name least greedy skip values =
      .leaf (.tooMany name values duplicate)) ∨
    ∃ states, offer formals state cursor name least greedy skip values = .choice name states ∧
      states ≠ [] ∧ ∀ next ∈ states, Took formals good state cursor least skip values next := by
  obtain ⟨f, found⟩ : ∃ f, formals.find? (fun f => f.name == name) = some f := by
    obtain ⟨f, known, same⟩ := List.mem_map.mp declared
    exact Option.isSome_iff_exists.mp
      (List.find?_isSome.mpr ⟨f, known, beq_iff_eq.mpr same⟩)
  have known := List.mem_of_find?_eq_some found
  have named := List.find?_some found
  obtain rfl : f.name = name := beq_iff_eq.mp named
  obtain ⟨effective, consumed, -, left⟩ := Arity.consume_natCast (order.room f known)
  unfold offer
  rw [found]
  dsimp only
  rw [consumed]
  dsimp only
  split
  · exact .inl ⟨_, rfl⟩
  · next accepts =>
    right
    have some_room : ∀ most, effective.maximum = some most → least ≤ most := by
      intro most bounded
      have ne : most ≠ 0 := by
        rintro rfl
        exact accepts (by simp [Arity.isFull, bounded])
      omega
    obtain ⟨from_least, lo_le, few, fits⟩ := bounds_le greedy enough some_room
    generalize bounds effective least greedy values.length = range at from_least lo_le few fits
    have each : ∀ count ∈ counts range.1 range.2, ∃ group,
        state.taking f.name effective cursor skip values count = .ok group ∧ group ≠ [] ∧
          ∀ next ∈ group, Took formals good state cursor least skip values next := by
      intro count member
      obtain ⟨from_lo, to_hi⟩ := mem_counts.mp member
      exact order.taking_took distinct known left cursor behind valued (by omega) (by omega)
        fun most bounded => Nat.le_trans to_hi (fits most bounded)
    obtain ⟨groups, ran, length, all⟩ := exists_mapM_ok each
    rw [ran]
    refine ⟨_, rfl, ?_, ?_⟩
    · have chosen : range.1 ∈ counts range.1 range.2 := mem_counts.mpr ⟨Nat.le_refl _, lo_le⟩
      obtain ⟨group, member⟩ := List.exists_mem_of_length_pos
        (length ▸ List.length_pos_of_mem chosen)
      intro none
      exact (all group member).1 (List.flatten_eq_nil_iff.mp none group member)
    · intro next member
      obtain ⟨group, among, inside⟩ := List.mem_flatten.mp member
      exact (all group among).2 next inside

private theorem exists_filterAuxM_ok {ε β : Type} {f : β → Except ε Bool} {xs : List β}
    (each : ∀ x ∈ xs, ∃ b, f x = .ok b) (kept : List β) :
    ∃ ys, xs.filterAuxM f kept = .ok ys := by
  induction xs generalizing kept with
  | nil => exact ⟨kept, rfl⟩
  | cons x xs ih =>
    obtain ⟨⟨b, first⟩, others⟩ := List.forall_mem_cons.mp each
    obtain ⟨ys, ran⟩ := ih others (cond b (x :: kept) kept)
    refine ⟨ys, ?_⟩
    simp only [List.filterAuxM, first, bind, Except.bind]
    exact ran

private theorem InOrder.proper_finished (order : state.InOrder formals good) :
    (finished formals state.taken).Proper good := by
  have each : ∀ f ∈ formals, ∃ b, (f.arity.consume (state.taken.get f.name).length).map
      (fun left => decide (0 < left.minimum)) = .ok b := by
    intro f known
    obtain ⟨left, consumed, -, -⟩ := Arity.consume_natCast (order.room f known)
    exact ⟨_, by rw [consumed]; rfl⟩
  obtain ⟨lacking, ran⟩ := exists_filterAuxM_ok each []
  unfold finished
  simp only [List.filterM, ran, bind, Except.bind, pure, Except.pure]
  cases lacking.reverse with
  | nil => exact order.received
  | cons f rest => trivial

private theorem height_lt {next : MatchState α} (leads : state.cursor.LeadsTo next.cursor)
    (shorter : next.rest.length < state.rest.length) (long : 2 ≤ state.rest.length) :
    next.height formals < state.height formals := by
  unfold height
  cases now : state.cursor with
  | positional index =>
    cases later : next.cursor with
    | positional j =>
      rw [now, later] at leads
      have forward : index ≤ j := leads
      dsimp only
      omega
    | named =>
      dsimp only
      omega
  | named =>
    cases later : next.cursor with
    | positional j =>
      rw [now, later] at leads
      exact leads.elim
    | named =>
      dsimp only
      omega

/-- What may follow from a state in order. -/
inductive Follows (formals : List Formal) (good : α → Prop) (state : MatchState α) : Prop
  | leaf (outcome : Outcome α) (here : state.expand formals = .leaf outcome)
      (proper : outcome.Proper good)
  | onward (next : MatchState α) (here : state.expand formals = .onward next)
      (order : next.InOrder formals good) (lower : next.height formals < state.height formals)
  | choice (name : String) (states : List (MatchState α))
      (here : state.expand formals = .choice name states) (nonempty : states ≠ [])
      (order : ∀ next ∈ states, next.InOrder formals good)
      (lower : ∀ next ∈ states, next.height formals < state.height formals)

private theorem InOrder.follows_keyword (order : state.InOrder formals good)
    (distinct : (formals.map Formal.name).Nodup) {name : String} {rest : List (Argument α)}
    (ahead : state.rest = .keyword name :: rest) {cursor : Cursor}
    (leads : state.cursor.LeadsTo cursor)
    (here : state.expand formals =
      offer formals state cursor name 1 true 1 (Argument.leadingValues rest)) :
    Follows formals good state := by
  have behind : state.rest.drop 1 = rest := by rw [ahead]; rfl
  have valued := order.valued
  rw [ahead] at valued
  have leading : Argument.leadingValues rest <+: Argument.leadingValues (state.rest.drop 1) :=
    behind ▸ List.prefix_rfl
  have valued_rest : Matching.keywordsWithoutValue (state.rest.drop 1) = [] :=
    behind ▸ Matching.keywordsWithoutValue_tail valued
  have given := List.length_pos_iff.mpr (Matching.leadingValues_ne_nil valued)
  have inside := Argument.length_leadingValues_le rest
  have length : state.rest.length = rest.length + 1 := by rw [ahead]; rfl
  rcases order.offer_cases distinct (order.declared name (ahead ▸ List.mem_cons_self ..)) cursor
      true leading valued_rest given (Nat.le_refl 1) with
    ⟨duplicate, full⟩ | ⟨states, chosen, nonempty, took⟩
  · exact .leaf _ (here.trans full) trivial
  · refine .choice name states (here.trans chosen) nonempty (fun next member => (took next member).1)
      fun next member => ?_
    obtain ⟨-, count, least, few, moved, left⟩ := took next member
    refine height_lt ?_ ?_ (by omega)
    · rcases moved with moved | ⟨moved, -⟩
      · rw [moved]
        exact Cursor.leadsTo_advance leads
      · rw [moved]
        exact leads
    · rw [left, List.length_drop]
      omega

private theorem InOrder.follows_value (order : state.InOrder formals good)
    (distinct : (formals.map Formal.name).Nodup) {a : α} {rest : List (Argument α)}
    (ahead : state.rest = .value a :: rest) {index : Nat} (position : state.cursor = .positional index)
    {f : Formal} (found : formals[index]? = some f)
    (here : state.expand formals = offer formals state state.cursor f.name 0 false 0 [a]) :
    Follows formals good state := by
  have declared := List.mem_map_of_mem (f := Formal.name) (List.mem_of_getElem? found)
  have leading : [a] <+: Argument.leadingValues (state.rest.drop 0) := by
    rw [ahead]
    exact List.cons_prefix_cons.mpr ⟨rfl, List.nil_prefix⟩
  rcases order.offer_cases distinct declared state.cursor false leading order.valued
      (Nat.zero_le _) (Nat.zero_le _) with ⟨duplicate, full⟩ | ⟨states, chosen, nonempty, took⟩
  · exact .leaf _ (here.trans full) trivial
  · refine .choice f.name states (here.trans chosen) nonempty
      (fun next member => (took next member).1) fun next member => ?_
    obtain ⟨-, count, -, few, moved, left⟩ := took next member
    have inside := (List.getElem?_eq_some_iff.mp found).1
    have length : state.rest.length = rest.length + 1 := by rw [ahead]; rfl
    have shorter : next.rest.length = state.rest.length - count := by
      rw [left, List.length_drop, Nat.zero_add]
    rw [List.length_singleton] at few
    unfold height
    rcases moved with moved | ⟨moved, taken⟩
    · rw [moved, position, Cursor.advance]
      dsimp only
      omega
    · rw [moved, position]
      dsimp only
      omega

private theorem InOrder.follows_past (order : state.InOrder formals good) {index : Nat}
    (position : state.cursor = .positional index) (past : formals.length ≤ index)
    (left : state.rest ≠ [])
    (here : state.expand formals = .onward { state with cursor := .named false }) :
    Follows formals good state := by
  have nonempty := List.length_pos_iff.mpr left
  refine .onward _ here ⟨order.declared, order.valued, order.slots, order.room, order.offered,
    order.received⟩ ?_
  unfold height
  rw [position]
  dsimp only
  omega

/-- From a state in order a step ends properly or leads to states in order, of smaller height. -/
theorem InOrder.follows (order : state.InOrder formals good)
    (distinct : (formals.map Formal.name).Nodup) : Follows formals good state := by
  cases ahead : state.rest with
  | nil =>
    exact .leaf (finished formals state.taken) (by unfold expand; rw [ahead])
      order.proper_finished
  | cons first rest =>
    have left : state.rest ≠ [] := ahead ▸ List.cons_ne_nil _ _
    cases first with
    | value a =>
      cases position : state.cursor with
      | named outOfOrder =>
        exact .leaf (.stray a outOfOrder) (by unfold expand; rw [ahead, position]) trivial
      | positional index =>
        cases found : formals[index]? with
        | none =>
          exact order.follows_past position (List.getElem?_eq_none_iff.mp found) left
            (by unfold expand; rw [ahead, position]; dsimp only; rw [found])
        | some f =>
          exact order.follows_value distinct ahead position found
            (by unfold expand; rw [ahead, position]; dsimp only; rw [found])
    | keyword name =>
      cases position : state.cursor with
      | named outOfOrder =>
        have stays : state.cursor.LeadsTo state.cursor := position ▸ trivial
        exact order.follows_keyword distinct ahead stays (by unfold expand; rw [ahead, position])
      | positional index =>
        by_cases past : formals.length ≤ index
        · exact order.follows_past position past left
            (by unfold expand; rw [ahead, position]; dsimp only; rw [if_pos past])
        · exact order.follows_keyword distinct ahead
            (Cursor.leadsTo_cursorAt formals name state.cursor)
            (by unfold expand; rw [ahead, position]; dsimp only; rw [if_neg past])

theorem InOrder.onward {next : MatchState α} (order : state.InOrder formals good)
    (distinct : (formals.map Formal.name).Nodup) (here : state.expand formals = .onward next) :
    next.InOrder formals good := by
  cases order.follows distinct with
  | leaf _ there => cases here.symm.trans there
  | onward _ there order =>
    cases here.symm.trans there
    exact order
  | choice _ _ there => cases here.symm.trans there

theorem InOrder.choice {next : MatchState α} (order : state.InOrder formals good)
    (distinct : (formals.map Formal.name).Nodup) {name : String} {states : List (MatchState α)}
    (here : state.expand formals = .choice name states) (member : next ∈ states) :
    next.InOrder formals good := by
  cases order.follows distinct with
  | leaf _ there => cases here.symm.trans there
  | onward _ there => cases here.symm.trans there
  | choice _ _ there _ order =>
    cases here.symm.trans there
    exact order next member

end MatchState

namespace Matching

theorem inOrder_start {formals : List Formal} {good : α → Prop} {arguments : List (Argument α)}
    (meant : ∀ a, .value a ∈ arguments → good a)
    (declared : ∀ name, .keyword name ∈ arguments → name ∈ formals.map Formal.name)
    (valued : keywordsWithoutValue arguments = []) :
    (start formals arguments).InOrder formals good := by
  refine ⟨declared, valued, ?_, fun f _ most _ => ?_, meant, Assignment.holds_empty formals⟩
  · simp [start, Assignment.empty]
  · rw [start, Assignment.get_empty]
    exact Nat.zero_le most

end Matching

end TypedCalls
