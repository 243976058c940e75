import Mathlib.Tactic.Common
import TypedCalls.Eval.Error
import TypedCalls.Proofs.Call.Verdict

/-!
Calls that name all their values.

Such a call is a sequence of groups, each a keyword and the values behind it. A group may move the
cursor, keep it or end positional values for good, and each leaves a choice of cursor. But no value
is positional, so the parameter of a group takes all its values on every way (`Path.group`), and all
ways lead to one outcome (`Path.named`). So only what each parameter is given matters, and not the
order of the groups (`named_calls_order_free`).
-/

set_option autoImplicit false

namespace TypedCalls

variable {α : Type}

/-- The parameters that get fewer values than they need, in declared order. -/
def lacking (formals : List Formal) (received : String → List α) : List String :=
  (formals.filter fun f => (received f.name).length < f.arity.minimum).map Formal.name

/-- A keyword and the values behind it, of which there is at least one. -/
structure NamedGroup (α : Type) where
  name : String
  first : α
  more : List α
  deriving DecidableEq, Repr

namespace NamedGroup

def values (group : NamedGroup α) : List α := group.first :: group.more

def arguments (group : NamedGroup α) : List (Argument α) :=
  .keyword group.name :: group.values.map .value

/-- The group for what a parameter has received, if that is anything. -/
def of? : String × List α → Option (NamedGroup α)
  | (_, []) => none
  | (name, first :: more) => some ⟨name, first, more⟩

/-- The call that consists of groups. -/
def call (groups : List (NamedGroup α)) : List (Argument α) := groups.flatMap arguments

def named (groups : List (NamedGroup α)) (name : String) : List (NamedGroup α) :=
  groups.filter fun group => group.name = name

/-- What groups give to a parameter, in the order of the call. -/
def given (groups : List (NamedGroup α)) (name : String) : List α :=
  (named groups name).flatMap values

/-- The same groups, with those of one name in the same order. -/
def Rearranges (groups others : List (NamedGroup α)) : Prop :=
  ∀ name, named groups name = named others name

/-- Every group names a parameter, and no parameter is given more than it accepts. -/
structure Fits (formals : List Formal) (groups : List (NamedGroup α)) : Prop where
  declared : ∀ group ∈ groups, group.name ∈ formals.map Formal.name
  room : ∀ f ∈ formals, ∀ most, f.arity.maximum = some most → (given groups f.name).length ≤ most

private theorem given_cons (group : NamedGroup α) (groups : List (NamedGroup α)) (name : String) :
    given (group :: groups) name =
      (if group.name = name then group.values else []) ++ given groups name := by
  by_cases here : group.name = name
  · simp [given, named, here]
  · simp [given, named, here]

private theorem keyword_mem_call {groups : List (NamedGroup α)} {name : String} :
    .keyword name ∈ call groups ↔ ∃ group ∈ groups, group.name = name := by
  simp [call, arguments, eq_comm]

private theorem leadingValues_append (values : List α) (groups : List (NamedGroup α)) :
    Argument.leadingValues (values.map .value ++ call groups) = values := by
  induction values with
  | nil =>
    cases groups with
    | nil => rfl
    | cons group groups => rfl
  | cons a values ih => exact congrArg (a :: ·) ih

private theorem keywordsWithoutValue_call (groups : List (NamedGroup α)) :
    Matching.keywordsWithoutValue (call groups) = [] := by
  have skipped (values : List α) (rest : List (Argument α)) :
      Matching.keywordsWithoutValue (values.map .value ++ rest) =
        Matching.keywordsWithoutValue rest := by
    induction values with
    | nil => rfl
    | cons a values ih => exact ih
  induction groups with
  | nil => rfl
  | cons group groups ih => exact (skipped group.more (call groups)).trans ih

end NamedGroup

open NamedGroup

namespace MatchState

variable {formals : List Formal}

private theorem bounds_greedy {effective : Arity} {n : Nat} (some : 1 ≤ n)
    (room : ∀ most, effective.maximum = .some most → n ≤ most) :
    bounds effective 1 true n = (n, n) := by
  unfold bounds
  cases bounded : effective.maximum with
  | none => simp; omega
  | some most =>
    have fits := room most bounded
    simp
    omega

private theorem offer_all (distinct : (formals.map Formal.name).Nodup) {f : Formal}
    (known : f ∈ formals) (state : MatchState α) {values : List α} (nonempty : values ≠ [])
    (room : ∀ most, f.arity.maximum = some most →
      (state.taken.get f.name).length + values.length ≤ most) (cursor : Cursor) (skip : Nat) :
    ∃ states, state.offer formals cursor f.name 1 true skip values = .choice f.name states ∧
      ∀ next ∈ states, ∃ c, next = ⟨c, state.rest.drop (skip + values.length),
        state.taken.put f.name (state.taken.get f.name ++ values)⟩ := by
  have positive := List.length_pos_iff.mpr nonempty
  obtain ⟨effective, consumed, -, left⟩ := Arity.consume_natCast fun most bounded =>
    Nat.le_trans (Nat.le_add_right _ _) (room most bounded)
  have remains : ∀ most, effective.maximum = some most → values.length ≤ most := by
    intro most bounded
    rw [left] at bounded
    obtain ⟨k, maximum, rfl⟩ := Option.map_eq_some_iff.mp bounded
    have fits := room k maximum
    omega
  have accepts : ¬effective.isFull = true := fun full => by
    have none := remains 0 (beq_iff_eq.mp full)
    omega
  obtain ⟨states, ran, -, each⟩ := taking_ok state f.name cursor skip values remains
  rw [List.take_length] at each
  have only : counts values.length values.length = [values.length] := by simp [counts]
  refine ⟨states, ?_, fun next member => ?_⟩
  · unfold offer
    rw [find?_of_mem distinct known]
    dsimp only
    rw [consumed]
    dsimp only
    rw [if_neg accepts, bounds_greedy positive remains, only, List.mapM_cons, ran, List.mapM_nil]
    simp [bind, Except.bind, pure, Except.pure]
  · obtain ⟨c, -, rfl⟩ := each next member
    exact ⟨c, rfl⟩

private theorem finished_of_room {taken : Assignment α} (room : ∀ f ∈ formals, ∀ most,
      f.arity.maximum = some most → (taken.get f.name).length ≤ most) :
    finished formals taken =
      if lacking formals taken.get = [] then .success taken
      else .missing (lacking formals taken.get) := by
  have tested : ∀ f ∈ formals, (f.arity.consume (taken.get f.name).length).map
      (fun left => decide (0 < left.minimum)) =
        .ok (decide ((taken.get f.name).length < f.arity.minimum)) := by
    intro f known
    obtain ⟨left, consumed, least, -⟩ := Arity.consume_natCast (room f known)
    rw [consumed, Except.map, least]
    exact congrArg Except.ok (decide_eq_decide.mpr Nat.sub_pos_iff_lt)
  unfold finished lacking
  dsimp only
  rw [filterM_eq_ok tested]
  cases formals.filter fun f => decide ((taken.get f.name).length < f.arity.minimum) with
  | nil => rfl
  | cons f short => rfl

end MatchState

namespace Assignment

private theorem eq_map_formals {formals : List Formal} {slots : Assignment α}
    {received : String → List α} (distinct : (formals.map Formal.name).Nodup)
    (keys : slots.map Prod.fst = formals.map Formal.name)
    (same : ∀ f ∈ formals, slots.get f.name = received f.name) :
    slots = formals.map fun f => (f.name, received f.name) :=
  calc slots = (slots.map Prod.fst).map fun name => (name, slots.get name) :=
        eq_map_get (keys ▸ distinct)
    _ = formals.map fun f => (f.name, slots.get f.name) := by
        rw [keys, List.map_map]
        rfl
    _ = formals.map fun f => (f.name, received f.name) :=
        List.map_congr_left fun f known => by rw [same f known]

def deliver (taken : Assignment α) (groups : List (NamedGroup α)) : Assignment α :=
  groups.foldl
    (fun taken group => taken.put group.name (taken.get group.name ++ group.values)) taken

private theorem map_fst_deliver (taken : Assignment α) (groups : List (NamedGroup α)) :
    (taken.deliver groups).map Prod.fst = taken.map Prod.fst := by
  induction groups generalizing taken with
  | nil => rfl
  | cons group groups ih => exact (ih _).trans map_fst_put

private theorem get_deliver {taken : Assignment α} {groups : List (NamedGroup α)}
    (declared : ∀ group ∈ groups, group.name ∈ taken.map Prod.fst) (name : String) :
    (taken.deliver groups).get name = taken.get name ++ given groups name := by
  induction groups generalizing taken with
  | nil => simp [deliver, given, named]
  | cons group groups ih =>
    obtain ⟨here, later⟩ := List.forall_mem_cons.mp declared
    refine (ih (by simpa only [map_fst_put] using later)).trans ?_
    rw [given_cons]
    by_cases same : group.name = name
    · subst same
      rw [get_put_self _ here, if_pos rfl, List.append_assoc]
    · rw [get_put_of_ne _ (Ne.symm same), if_neg same, List.nil_append]

end Assignment

namespace Matching

variable {formals : List Formal}

private theorem offer_group (distinct : (formals.map Formal.name).Nodup) (cursor after : Cursor)
    {group : NamedGroup α} {groups : List (NamedGroup α)} {taken : Assignment α}
    (declared : group.name ∈ formals.map Formal.name)
    (room : ∀ f ∈ formals, ∀ most, f.arity.maximum = some most →
      (taken.get f.name).length + (given (group :: groups) f.name).length ≤ most) :
    ∃ states, (⟨cursor, call (group :: groups), taken⟩ : MatchState α).offer formals after
        group.name 1 true 1 (Argument.leadingValues (group.values.map .value ++ call groups)) =
        .choice group.name states ∧
      ∀ next ∈ states, ∃ c, next = ⟨c, call groups,
        taken.put group.name (taken.get group.name ++ group.values)⟩ := by
  obtain ⟨f, known, named⟩ := List.mem_map.mp declared
  have fits : ∀ most, f.arity.maximum = some most →
      (taken.get f.name).length + group.values.length ≤ most := by
    intro most bounded
    have all := room f known most bounded
    rw [given_cons, if_pos named.symm, List.length_append] at all
    omega
  obtain ⟨states, offered, each⟩ := MatchState.offer_all distinct known
    ⟨cursor, call (group :: groups), taken⟩ (List.cons_ne_nil group.first group.more) fits after 1
  have behind : (call (group :: groups)).drop (1 + group.values.length) = call groups := by
    simp [call, arguments, Nat.add_comm 1]
  rw [leadingValues_append, ← named]
  refine ⟨states, offered, fun next member => ?_⟩
  obtain ⟨c, rfl⟩ := each next member
  exact ⟨c, by rw [← behind]; rfl⟩

theorem Path.group (distinct : (formals.map Formal.name).Nodup) {cursor : Cursor}
    {group : NamedGroup α} {groups : List (NamedGroup α)} {taken : Assignment α}
    (declared : group.name ∈ formals.map Formal.name)
    (room : ∀ f ∈ formals, ∀ most, f.arity.maximum = some most →
      (taken.get f.name).length + (given (group :: groups) f.name).length ≤ most) {o : Outcome α}
    (path : Path formals ⟨cursor, call (group :: groups), taken⟩ o) :
    ∃ c, Path formals
      ⟨c, call groups, taken.put group.name (taken.get group.name ++ group.values)⟩ o := by
  have offered {before after : Cursor}
      (path : Path formals ⟨before, call (group :: groups), taken⟩ o)
      (step : (⟨before, call (group :: groups), taken⟩ : MatchState α).expand formals =
        (⟨before, call (group :: groups), taken⟩ : MatchState α).offer formals after group.name 1
          true 1 (Argument.leadingValues (group.values.map .value ++ call groups))) :
      ∃ c, Path formals
        ⟨c, call groups, taken.put group.name (taken.get group.name ++ group.values)⟩ o := by
    obtain ⟨states, offered, each⟩ := offer_group distinct before after declared room
    rw [path_iff_reaches, step, offered] at path
    obtain ⟨next, member, rest⟩ := path
    obtain ⟨c, rfl⟩ := each next member
    exact ⟨c, rest⟩
  cases cursor with
  | named outOfOrder => exact offered path rfl
  | positional index =>
    by_cases past : formals.length ≤ index
    · have step : (⟨.positional index, call (group :: groups), taken⟩ : MatchState α).expand
          formals = .onward ⟨.named false, call (group :: groups), taken⟩ := if_pos past
      rw [path_iff_reaches, step] at path
      exact offered path rfl
    · exact offered path (if_neg past)

/-- All ways from a state with groups ahead lead to the outcome of delivering them. -/
theorem Path.named (distinct : (formals.map Formal.name).Nodup) {cursor : Cursor}
    {groups : List (NamedGroup α)} {taken : Assignment α}
    (slots : taken.map Prod.fst = formals.map Formal.name)
    (declared : ∀ group ∈ groups, group.name ∈ formals.map Formal.name)
    (room : ∀ f ∈ formals, ∀ most, f.arity.maximum = some most →
      (taken.get f.name).length + (given groups f.name).length ≤ most) {o : Outcome α}
    (path : Path formals ⟨cursor, call groups, taken⟩ o) :
    o = MatchState.finished formals (taken.deliver groups) := by
  induction groups generalizing cursor taken with
  | nil => exact path_iff_reaches.mp path
  | cons group groups ih =>
    obtain ⟨here, later⟩ := List.forall_mem_cons.mp declared
    obtain ⟨c, rest⟩ := path.group distinct here room
    refine ih (Assignment.map_fst_put.trans slots) later ?_ rest
    intro f known most bounded
    have all := room f known most bounded
    rw [given_cons, List.length_append] at all
    by_cases same : group.name = f.name
    · rw [if_pos same] at all
      rw [← same, Assignment.get_put_self _ (slots ▸ here), List.length_append, same]
      omega
    · rw [if_neg same] at all
      rw [Assignment.get_put_of_ne _ (Ne.symm same)]
      simpa using all

end Matching

namespace NamedGroup

variable {formals : List Formal}

private theorem get_deliver_empty {groups : List (NamedGroup α)}
    (declared : ∀ group ∈ groups, group.name ∈ formals.map Formal.name) :
    ((Assignment.empty formals).deliver groups).get = given groups := by
  funext name
  rw [Assignment.get_deliver (by simpa [Assignment.empty] using declared), Assignment.get_empty,
    List.nil_append]

private theorem matchArguments_call [BEq α] [ReflBEq α] (distinct : (formals.map Formal.name).Nodup)
    {groups : List (NamedGroup α)} (fits : Fits formals groups) :
    matchArguments formals (call groups) =
      if lacking formals (given groups) = [] then
        .ok (formals.map fun f => (f.name, given groups f.name))
      else .error (.missing (lacking formals (given groups))) := by
  have keywords : ∀ name, .keyword name ∈ call groups → name ∈ formals.map Formal.name := by
    intro name member
    obtain ⟨group, among, rfl⟩ := keyword_mem_call.mp member
    exact fits.declared group among
  obtain ⟨o, answered, verdict⟩ :=
    exists_verdict distinct keywords (keywordsWithoutValue_call groups)
  have received := get_deliver_empty fits.declared
  have slots : (Assignment.empty formals).deliver groups =
      formals.map fun f => (f.name, given groups f.name) := by
    refine Assignment.eq_map_formals distinct ?_ fun f _ => by rw [received]
    rw [Assignment.map_fst_deliver]
    simp [Assignment.empty]
  have room : ∀ f ∈ formals, ∀ most, f.arity.maximum = some most →
      ((Assignment.empty formals : Assignment α).get f.name).length +
        (given groups f.name).length ≤ most := by
    intro f known most bounded
    rw [Assignment.get_empty, List.length_nil, Nat.zero_add]
    exact fits.room f known most bounded
  have same : o = MatchState.finished formals ((Assignment.empty formals).deliver groups) :=
    verdict.of_unanimous
      (fun x path => path.named distinct (by simp [Assignment.empty]) fits.declared room)
      fun a _ => beq_self_eq_true a
  rw [answered, same, MatchState.finished_of_room (by rw [received]; exact fits.room), received,
    slots]
  split
  · rfl
  · rfl

private theorem Fits.rearranged {groups others : List (NamedGroup α)} (fits : Fits formals groups)
    (rearranges : Rearranges groups others) : Fits formals others := by
  refine ⟨fun group member => ?_, fun f known most bounded => ?_⟩
  · have among : group ∈ named groups group.name := by
      rw [rearranges]
      exact List.mem_filter.mpr ⟨member, decide_eq_true rfl⟩
    exact fits.declared group (List.mem_filter.mp among).1
  · have room := fits.room f known most bounded
    rwa [given, rearranges] at room

private theorem given_filterMap_cons (slot : String × List α) (rest : Assignment α)
    (name : String) : given ((slot :: rest).filterMap of?) name =
      (if slot.1 = name then slot.2 else []) ++ given (rest.filterMap of?) name := by
  obtain ⟨key, values⟩ := slot
  cases values with
  | nil => simp [List.filterMap_cons, of?]
  | cons first more => simp [of?, given_cons, values]

private theorem given_of_not_mem {slots : Assignment α} {name : String}
    (other : name ∉ slots.map Prod.fst) : given (slots.filterMap of?) name = [] := by
  induction slots with
  | nil => rfl
  | cons slot rest ih =>
    obtain ⟨ne, others⟩ := List.ne_and_not_mem_of_not_mem_cons other
    rw [given_filterMap_cons, if_neg (Ne.symm ne), ih others, List.nil_append]

private theorem given_of_mem {slots : Assignment α} (distinct : (slots.map Prod.fst).Nodup)
    {name : String} {values : List α} (member : (name, values) ∈ slots) :
    given (slots.filterMap of?) name = values := by
  induction slots with
  | nil => cases member
  | cons slot rest ih =>
    obtain ⟨new, distinct⟩ := List.nodup_cons.mp distinct
    rw [given_filterMap_cons]
    rcases List.mem_cons.mp member with rfl | later
    · rw [if_pos rfl, given_of_not_mem new, List.append_nil]
    · have ne : slot.1 ≠ name := by
        rintro rfl
        exact new (List.mem_map.mpr ⟨_, later, rfl⟩)
      rw [if_neg ne, ih distinct later, List.nil_append]

end NamedGroup

private theorem admits_of_matchArguments [BEq α] {formals : List Formal}
    {arguments : List (Argument α)} {slots : Assignment α}
    (matched : matchArguments formals arguments = .ok slots) :
    slots.map Prod.fst = formals.map Formal.name ∧
      ∀ f ∈ formals, f.arity.Admits (slots.get f.name).length := by
  obtain ⟨distinct, declared, valued, won⟩ := explore_of_matchArguments matched
  obtain ⟨last, order, leaf⟩ := Matching.search_eq_success
    (P := fun state => state.InOrder formals fun _ => True)
    (fun order here => order.onward distinct here)
    (fun order here _ member => order.choice distinct here member)
    (Matching.inOrder_start (fun _ _ => trivial) declared valued) won
  obtain ⟨-, finished⟩ := Matching.finished_of_expand leaf
  obtain rfl := Matching.eq_of_finished finished
  refine ⟨order.slots, fun f known => ?_⟩
  exact ⟨Matching.minimum_le_of_finished finished known, order.room f known⟩

private theorem matchArguments_renamed [BEq α] [ReflBEq α] {formals : List Formal}
    {arguments : List (Argument α)} {slots order : Assignment α}
    (matched : matchArguments formals arguments = .ok slots) (reordered : order.Perm slots) :
    matchArguments formals (call (order.filterMap of?)) = .ok slots := by
  obtain ⟨distinct, -, -, -⟩ := explore_of_matchArguments matched
  obtain ⟨keys, admits⟩ := admits_of_matchArguments matched
  have listed : slots = formals.map fun f => (f.name, slots.get f.name) :=
    Assignment.eq_map_formals distinct keys fun _ _ => rfl
  have distinctOrder : (order.map Prod.fst).Nodup :=
    (reordered.map Prod.fst).nodup_iff.mpr (keys ▸ distinct)
  have received (f : Formal) (known : f ∈ formals) :
      given (order.filterMap of?) f.name = slots.get f.name := by
    refine given_of_mem distinctOrder (reordered.mem_iff.mpr ?_)
    have among : (f.name, slots.get f.name) ∈ formals.map fun f => (f.name, slots.get f.name) :=
      List.mem_map.mpr ⟨f, known, rfl⟩
    rwa [← listed] at among
  have fits : Fits formals (order.filterMap of?) := by
    refine ⟨fun group member => ?_, fun f known most bounded => ?_⟩
    · obtain ⟨⟨name, values⟩, among, made⟩ := List.mem_filterMap.mp member
      cases values with
      | nil => cases made
      | cons first more =>
        cases made
        rw [← keys]
        exact List.mem_map_of_mem (reordered.mem_iff.mp among)
    · rw [received f known]
      exact (admits f known).2 most bounded
  have enough : lacking formals (given (order.filterMap of?)) = [] := by
    refine List.map_eq_nil_iff.mpr (List.filter_eq_nil_iff.mpr fun f known short => ?_)
    have least := (admits f known).1
    rw [received f known] at short
    have few := of_decide_eq_true short
    omega
  rw [matchArguments_call distinct fits, if_pos enough]
  refine congrArg _ (Assignment.eq_map_formals distinct keys fun f known => ?_).symm
  exact (received f known).symm

/-- Calls that name all their values do not depend on the order of parameters. If no parameter is
given more than it accepts, each gets the values of its groups in the order of the call, or those
that get too few are missing, in declared order. A rearrangement that keeps the groups of one name
in order is answered alike. And what any call assigns is assigned again if it is named, in whatever
order the parameters are. -/
theorem named_calls_order_free [BEq α] [ReflBEq α] {formals : List Formal}
    (distinct : (formals.map Formal.name).Nodup) :
    (∀ groups : List (NamedGroup α), Fits formals groups →
      matchArguments formals (call groups) =
        if lacking formals (given groups) = [] then
          .ok (formals.map fun f => (f.name, given groups f.name))
        else .error (.missing (lacking formals (given groups)))) ∧
    (∀ groups others : List (NamedGroup α), Fits formals groups → Rearranges groups others →
      matchArguments formals (call others) = matchArguments formals (call groups)) ∧
    ∀ (arguments : List (Argument α)) (slots order : Assignment α),
      matchArguments formals arguments = .ok slots → order.Perm slots →
      matchArguments formals (call (order.filterMap of?)) = .ok slots := by
  refine ⟨fun groups fits => matchArguments_call distinct fits, ?_,
    fun arguments slots order => matchArguments_renamed⟩
  intro groups others fits rearranges
  have same : given others = given groups := by
    funext name
    rw [given, given, rearranges]
  rw [matchArguments_call distinct fits, matchArguments_call distinct (fits.rearranged rearranges),
    same]

/-- An argument is the same as itself. -/
instance : ReflBEq Actual where
  rfl := by simp [BEq.beq]

/-- The groups of a name that comes twice may stand apart. With but one of them the parameter is
missing, and a call with a positional value is named again back to front. -/
theorem named_calls_order_free_twice :
    let formals : List Formal :=
      [⟨"front", .oneOrMore⟩, ⟨"middle", .optional⟩, ⟨"back", ⟨2, some 3, by simp⟩⟩]
    let actual (position : Nat) : Actual := ⟨position, .atom "x"⟩
    let groups : List (NamedGroup Actual) :=
      [⟨"back", actual 1, []⟩, ⟨"front", actual 3, [actual 4]⟩, ⟨"back", actual 6, []⟩]
    let others : List (NamedGroup Actual) :=
      [⟨"front", actual 3, [actual 4]⟩, ⟨"back", actual 1, []⟩, ⟨"back", actual 6, []⟩]
    let slots : Assignment Actual :=
      [("front", [actual 3, actual 4]), ("middle", []), ("back", [actual 1, actual 6])]
    let positional : List (Argument Actual) :=
      [.value (actual 0), .keyword "back", .value (actual 2), .value (actual 3)]
    let received : Assignment Actual :=
      [("front", [actual 0]), ("middle", []), ("back", [actual 2, actual 3])]
    (formals.map Formal.name).Nodup ∧ Fits formals groups ∧ Rearranges groups others ∧
      matchArguments formals (call groups) = .ok slots ∧
      matchArguments formals (call others) = matchArguments formals (call groups) ∧
      matchArguments formals (call (groups.take 2)) = .error (.missing ["back"]) ∧
      matchArguments formals positional = .ok received ∧
      matchArguments formals (call (received.reverse.filterMap of?)) = .ok received := by
  intro formals actual groups others slots positional received
  have distinct : (formals.map Formal.name).Nodup := by decide
  have fits : Fits formals groups := by
    constructor
    · simp [formals, groups]
    · simp [formals, groups, given, named, values, Arity.oneOrMore, Arity.optional]
  have rearranges : Rearranges groups others := by
    intro name
    by_cases front : "front" = name
    · simp [groups, others, named, ← front]
    · simp [groups, others, named, List.filter_cons, front]
  have few : Fits formals (groups.take 2) := by
    constructor
    · simp [formals, groups]
    · simp [formals, groups, given, named, values, Arity.oneOrMore, Arity.optional]
  obtain ⟨answer, order, again⟩ := named_calls_order_free (α := Actual) distinct
  have matched : matchArguments formals positional = .ok received := by
    with_unfolding_all rfl
  exact ⟨distinct, fits, rearranges, (answer groups fits).trans rfl,
    order groups others fits rearranges, (answer _ few).trans rfl, matched,
    again _ _ _ matched (List.reverse_perm received)⟩

end TypedCalls
