import TypedCalls.Proofs.Call.Success

/-!
Where the values of a call go.

A successful matching sends every value to one parameter. Each parameter receives the values that
are sent to it, in the order of the call and within its arity, and a value behind a keyword goes to
the parameter that the keyword names (`matchArguments_delivers`).

The search keeps a record of what was sent so far. One step adds to it the arguments that a
parameter took (`Underway.take`), whatever cursor it leaves behind.
-/

set_option autoImplicit false

namespace TypedCalls

variable {α : Type}

namespace Argument

def value? : Argument α → Option α
  | .value a => some a
  | .keyword _ => none

private theorem take_eq_map_leadingValues {arguments : List (Argument α)} {n : Nat}
    (few : n ≤ (leadingValues arguments).length) :
    arguments.take n = ((leadingValues arguments).take n).map .value := by
  induction arguments generalizing n with
  | nil => simp [leadingValues]
  | cons first rest ih =>
    cases n with
    | zero => simp
    | succ n =>
      cases first with
      | value a =>
        rw [leadingValues, List.length_cons] at few
        rw [List.take_succ_cons, ih (by omega), leadingValues, List.take_succ_cons, List.map_cons]
      | keyword name => simp [leadingValues] at few

end Argument

/-- The values at those positions of a call that are sent to a parameter, in the order of the call.
-/
def valuesSentTo (arguments : List (Argument α)) (destination : Nat → String) (name : String) :
    List α :=
  arguments.zipIdx.filterMap fun entry =>
    if destination entry.2 = name then entry.1.value? else none

/-- An assignment is what comes of sending the value at each position of a call to the parameter of
that destination. -/
structure Delivers (formals : List Formal) (arguments : List (Argument α))
    (destination : Nat → String) (slots : Assignment α) : Prop where
  /-- Every value is sent to a parameter. -/
  declared : ∀ i a, arguments[i]? = some (.value a) → destination i ∈ formals.map Formal.name
  /-- The parameters are those declared, in order, and have received what was sent to them. -/
  received : slots = formals.map fun f => (f.name, valuesSentTo arguments destination f.name)
  /-- What was sent to a parameter is as much as it asks for. -/
  admitted : ∀ f ∈ formals, f.arity.Admits (valuesSentTo arguments destination f.name).length
  /-- Behind a keyword there is a value, which is sent to the parameter of that name. -/
  named : ∀ i name, arguments[i]? = some (.keyword name) →
    ∃ a, arguments[i + 1]? = some (.value a) ∧ destination (i + 1) = name

namespace Matching

def received (sent : List (Argument α × String)) (name : String) : List α :=
  sent.filterMap fun entry => if entry.2 = name then entry.1.value? else none

def destinationIn (sent : List (Argument α × String)) (i : Nat) : String :=
  (sent[i]?.map Prod.snd).getD ""

private theorem received_append (sent more : List (Argument α × String)) (name : String) :
    received (sent ++ more) name = received sent name ++ received more name :=
  List.filterMap_append

private theorem received_values (values : List α) (name other : String) :
    received ((values.map Argument.value).map (·, name)) other =
      if name = other then values else [] := by
  by_cases same : name = other
  · simp [received, same, Function.comp_def, Argument.value?]
  · simp [received, same]

private theorem valuesSentTo_destinationIn (sent : List (Argument α × String)) (name : String) :
    valuesSentTo (sent.map Prod.fst) (destinationIn sent) name = received sent name := by
  have place : ∀ entry ∈ sent.zipIdx,
      (if destinationIn sent entry.2 = name then entry.1.1.value? else none) =
        if entry.1.2 = name then entry.1.1.value? else none := by
    intro entry member
    have here : sent[entry.2]? = some entry.1 := List.mk_mem_zipIdx_iff_getElem?.mp member
    rw [destinationIn, here, Option.map_some, Option.getD_some]
  rw [valuesSentTo, List.zipIdx_map, List.filterMap_map]
  calc
    _ = sent.zipIdx.filterMap fun entry =>
          if entry.1.2 = name then entry.1.1.value? else none := List.filterMap_congr place
    _ = (sent.zipIdx.map Prod.fst).filterMap fun entry =>
          if entry.2 = name then entry.1.value? else none := by
        rw [List.filterMap_map]
        rfl
    _ = received sent name := by
        rw [List.zipIdx_map_fst]
        rfl

/-- What was sent while a state was reached: the arguments that are behind, each with the parameter
that was looked at. A keyword stands beside the parameter it names. -/
structure Underway (formals : List Formal) (arguments : List (Argument α)) (state : MatchState α)
    (sent : List (Argument α × String)) : Prop where
  whole : sent.map Prod.fst ++ state.rest = arguments
  declared : ∀ entry ∈ sent, entry.2 ∈ formals.map Formal.name
  received : ∀ name, state.taken.get name = received sent name
  named : ∀ i name dest, sent[i]? = some (.keyword name, dest) →
    ∃ a, sent[i + 1]? = some (.value a, name)

variable {formals : List Formal} {arguments : List (Argument α)} {state : MatchState α}
  {sent : List (Argument α × String)}

/-- What a parameter takes at once: some values, behind the keyword that names it or not. -/
inductive Portion (name : String) : List (Argument α) → List α → Prop
  | plain (values : List α) : Portion name (values.map .value) values
  | named (a : α) (values : List α) :
      Portion name (.keyword name :: .value a :: values.map .value) (a :: values)

namespace Portion

variable {name : String} {portion : List (Argument α)} {values : List α}

private theorem received_map (taken : Portion name portion values) (other : String) :
    Matching.received (portion.map (·, name)) other = if name = other then values else [] := by
  cases taken with
  | plain => exact received_values values name other
  | named a values =>
    have rest := received_values (a :: values) name other
    rw [← rest]
    exact List.filterMap_cons_none (by simp [Argument.value?])

private theorem named_map (taken : Portion name portion values) {i : Nat} {keyword dest : String}
    (here : (portion.map (·, name))[i]? = some (.keyword keyword, dest)) :
    ∃ a, (portion.map (·, name))[i + 1]? = some (.value a, keyword) := by
  have values_only (xs : List α) (j : Nat) :
      ((xs.map Argument.value).map (·, name))[j]? ≠ some (.keyword keyword, dest) := by
    intro found
    have member := List.mem_of_getElem? found
    simp at member
  cases taken with
  | plain => exact absurd here (values_only values i)
  | named a values =>
    cases i with
    | zero =>
      cases here
      exact ⟨a, rfl⟩
    | succ i => exact absurd here (values_only (a :: values) i)

end Portion

theorem Underway.take (underway : Underway formals arguments state sent) {name : String}
    (declared : name ∈ formals.map Formal.name) (slot : name ∈ state.taken.map Prod.fst)
    {portion : List (Argument α)} {values : List α} (taken : Portion name portion values)
    {cursor : Cursor} {rest : List (Argument α)} (ahead : state.rest = portion ++ rest) :
    Underway formals arguments ⟨cursor, rest, state.taken.put name (state.taken.get name ++ values)⟩
      (sent ++ portion.map (·, name)) := by
  constructor
  · rw [← underway.whole, ahead]
    simp [Function.comp_def]
  · exact List.forall_mem_append.mpr
      ⟨underway.declared, List.forall_mem_map.mpr fun _ _ => declared⟩
  · intro other
    rw [received_append, taken.received_map]
    by_cases same : name = other
    · subst same
      rw [Assignment.get_put_self _ slot, if_pos rfl, underway.received]
    · rw [Assignment.get_put_of_ne _ (Ne.symm same), if_neg same, List.append_nil,
        underway.received]
  · intro i keyword dest here
    by_cases before : i < sent.length
    · rw [List.getElem?_append_left before] at here
      obtain ⟨a, next⟩ := underway.named i keyword dest here
      have inside := (List.getElem?_eq_some_iff.mp next).1
      exact ⟨a, by rw [List.getElem?_append_left inside, next]⟩
    · rw [List.getElem?_append_right (by omega)] at here
      obtain ⟨a, next⟩ := taken.named_map here
      refine ⟨a, ?_⟩
      rw [List.getElem?_append_right (by omega), Nat.sub_add_comm (by omega)]
      exact next

end Matching

namespace MatchState

private theorem bounds_within (effective : Arity) (least : Nat) (greedy : Bool) (n : Nat) :
    least ≤ (bounds effective least greedy n).1 ∧ (bounds effective least greedy n).2 ≤ n := by
  unfold bounds
  constructor
  · cases greedy with
    | false => exact Nat.le_max_left _ _
    | true => exact Nat.le_trans (Nat.le_max_left _ _) (Nat.le_max_left _ _)
  · cases effective.maximum with
    | none => exact Nat.le_refl n
    | some most => exact Nat.min_le_right most n

private theorem mem_offer {formals : List Formal} {state next : MatchState α} {cursor : Cursor}
    {name around : String} {least skip : Nat} {greedy : Bool} {values : List α}
    {states : List (MatchState α)}
    (chosen : state.offer formals cursor name least greedy skip values = .choice around states)
    (member : next ∈ states) :
    ∃ count, least ≤ count ∧ count ≤ values.length ∧
      next = ⟨next.cursor, state.rest.drop (skip + count),
        state.taken.put name (state.taken.get name ++ values.take count)⟩ := by
  unfold offer at chosen
  split at chosen
  · cases chosen
  split at chosen
  · cases chosen
  next effective _ =>
  split at chosen
  · cases chosen
  dsimp only at chosen
  split at chosen
  · cases chosen
  next groups ran =>
  cases chosen
  have each : ∀ group ∈ groups, ∃ count, least ≤ count ∧ count ≤ values.length ∧
      state.taking name effective cursor skip values count = .ok group := by
    refine forall_mem_of_forall₂ (forall₂_of_mapM_ok ran) fun count counted group taking => ?_
    obtain ⟨from_low, to_high⟩ := mem_counts.mp counted
    obtain ⟨low, high⟩ := bounds_within effective least greedy values.length
    exact ⟨count, by omega, by omega, taking⟩
  obtain ⟨group, among, inside⟩ := List.mem_flatten.mp member
  obtain ⟨count, enough, few, taking⟩ := each group among
  refine ⟨count, enough, few, ?_⟩
  obtain ⟨left, -, returned⟩ := Except.bind_eq_ok taking
  cases returned
  split at inside
  · obtain rfl := List.mem_singleton.mp inside
    rfl
  · rcases List.mem_cons.mp inside with rfl | stays
    · rfl
    · obtain rfl := List.mem_singleton.mp stays
      rfl

private theorem offer_ne_onward {formals : List Formal} {state next : MatchState α}
    {cursor : Cursor} {name : String} {least skip : Nat} {greedy : Bool} {values : List α} :
    state.offer formals cursor name least greedy skip values ≠ .onward next := by
  intro onward
  unfold offer at onward
  split at onward
  · cases onward
  split at onward
  · cases onward
  split at onward
  · cases onward
  · dsimp only at onward
    split at onward <;> cases onward

private theorem eq_of_expand_onward {formals : List Formal} {state next : MatchState α}
    (here : state.expand formals = .onward next) :
    next = { state with cursor := .named false } := by
  unfold expand at here
  split at here
  · cases here
  · split at here
    · cases here
    · split at here
      · cases here
        rfl
      · exact absurd here offer_ne_onward
  · split at here
    · split at here
      · cases here
        rfl
      · exact absurd here offer_ne_onward
    · exact absurd here offer_ne_onward

end MatchState

namespace Matching

variable {formals : List Formal} {arguments : List (Argument α)} {state next : MatchState α}
  {sent : List (Argument α × String)}

private theorem Underway.choice (underway : Underway formals arguments state sent)
    (order : state.InOrder formals fun _ => True) {around : String} {states : List (MatchState α)}
    (here : state.expand formals = .choice around states) (member : next ∈ states) :
    ∃ sent', Underway formals arguments next sent' := by
  have offered {cursor : Cursor} {name : String} {least skip : Nat} {greedy : Bool}
      {values : List α} (declared : name ∈ formals.map Formal.name)
      (offer : state.offer formals cursor name least greedy skip values = .choice around states)
      (portions : ∀ count, least ≤ count → count ≤ values.length →
        Portion name (state.rest.take (skip + count)) (values.take count)) :
      ∃ sent', Underway formals arguments next sent' := by
    obtain ⟨count, enough, few, taken⟩ := MatchState.mem_offer offer member
    rw [taken]
    exact ⟨_, underway.take declared (order.slots ▸ declared) (portions count enough few)
      (List.take_append_drop _ _).symm⟩
  unfold MatchState.expand at here
  split at here
  · cases here
  · next a rest ahead =>
    split at here
    · cases here
    · split at here
      · cases here
      · next f found =>
        refine offered (List.mem_map_of_mem (List.mem_of_getElem? found)) here fun count _ few => ?_
        have portion : state.rest.take (0 + count) = ([a].take count).map .value := by
          rw [ahead, Nat.zero_add]
          cases count with
          | zero => rfl
          | succ count =>
            obtain rfl : count = 0 := by simpa using few
            rfl
        rw [portion]
        exact .plain _
  · next name rest ahead =>
    have declared := order.declared name (ahead ▸ List.mem_cons_self ..)
    have portions (count : Nat) (enough : 1 ≤ count)
        (few : count ≤ (Argument.leadingValues rest).length) :
        Portion name (state.rest.take (1 + count)) ((Argument.leadingValues rest).take count) := by
      rw [ahead, Nat.add_comm, List.take_succ_cons, Argument.take_eq_map_leadingValues few]
      obtain ⟨a, values, split⟩ := List.exists_cons_of_length_pos
        (l := (Argument.leadingValues rest).take count) (by rw [List.length_take]; omega)
      rw [split]
      exact .named a values
    split at here
    · split at here
      · cases here
      · exact offered declared here portions
    · exact offered declared here portions

private theorem Underway.onward (underway : Underway formals arguments state sent)
    (here : state.expand formals = .onward next) : Underway formals arguments next sent := by
  rw [MatchState.eq_of_expand_onward here]
  exact ⟨underway.whole, underway.declared, underway.received, underway.named⟩

private theorem underway_start (formals : List Formal) (arguments : List (Argument α)) :
    Underway formals arguments (start formals arguments) [] where
  whole := rfl
  declared := by simp
  received := Assignment.get_empty formals
  named := by simp

end Matching

/-- The values of a call that is matched are each sent to one parameter, and nothing else is
received. -/
theorem matchArguments_delivers [BEq α] {formals : List Formal} {arguments : List (Argument α)}
    {slots : Assignment α} (matched : matchArguments formals arguments = .ok slots) :
    (formals.map Formal.name).Nodup ∧
      ∃ destination, Delivers formals arguments destination slots := by
  obtain ⟨distinct, declared, valued, won⟩ := explore_of_matchArguments matched
  obtain ⟨last, ⟨order, sent, underway⟩, leaf⟩ := Matching.search_eq_success
    (P := fun state => state.InOrder formals (fun _ => True) ∧
      ∃ sent, Matching.Underway formals arguments state sent)
    (by
      rintro state next ⟨order, sent, underway⟩ here
      exact ⟨order.onward distinct here, sent, underway.onward here⟩)
    (by
      rintro state name states ⟨order, sent, underway⟩ here next member
      exact ⟨order.choice distinct here member, underway.choice order here member⟩)
    ⟨Matching.inOrder_start (fun _ _ => trivial) declared valued, [],
      Matching.underway_start formals arguments⟩ won
  obtain ⟨done, finished⟩ := Matching.finished_of_expand leaf
  obtain rfl := Matching.eq_of_finished finished
  have whole : sent.map Prod.fst = arguments := by
    have all := underway.whole
    rwa [done, List.append_nil] at all
  have sentTo (name : String) : valuesSentTo arguments (Matching.destinationIn sent) name =
      last.taken.get name := by
    rw [← whole, Matching.valuesSentTo_destinationIn, underway.received]
  refine ⟨distinct, Matching.destinationIn sent, ?_, ?_, ?_, ?_⟩
  · intro i a here
    rw [← whole, List.getElem?_map] at here
    obtain ⟨entry, at_i, -⟩ := Option.map_eq_some_iff.mp here
    rw [Matching.destinationIn, at_i]
    exact underway.declared entry (List.mem_of_getElem? at_i)
  · have keys : last.taken = _ := Assignment.eq_map_get (order.slots ▸ distinct)
    rw [order.slots, List.map_map] at keys
    simp only [sentTo]
    exact keys
  · intro f known
    rw [sentTo]
    exact ⟨Matching.minimum_le_of_finished finished known, order.room f known⟩
  · intro i name here
    rw [← whole, List.getElem?_map] at here
    obtain ⟨⟨argument, dest⟩, at_i, rfl⟩ := Option.map_eq_some_iff.mp here
    obtain ⟨a, next⟩ := underway.named i name dest at_i
    refine ⟨a, ?_, ?_⟩
    · rw [← whole, List.getElem?_map, next]
      rfl
    · rw [Matching.destinationIn, next]
      rfl

/-- A named parameter takes one value, the two behind it go to the next parameter, and a last one is
named again. -/
theorem matchArguments_delivers_leftovers :
    let formals : List Formal :=
      [⟨"first", .required⟩, ⟨"middle", .zeroOrMore⟩, ⟨"last", .optional⟩]
    let arguments : List (Argument Nat) :=
      [.keyword "first", .value 1, .value 2, .value 3, .keyword "last", .value 4]
    let slots : Assignment Nat := [("first", [1]), ("middle", [2, 3]), ("last", [4])]
    matchArguments formals arguments = .ok slots ∧
      ∃ destination, Delivers formals arguments destination slots := by
  intro formals arguments slots
  have matched : matchArguments formals arguments = .ok slots := by decide +kernel
  exact ⟨matched, (matchArguments_delivers matched).2⟩

end TypedCalls
