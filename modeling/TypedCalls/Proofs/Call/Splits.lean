import Mathlib.Tactic.Common
import TypedCalls.Proofs.Call.Delivery
import TypedCalls.Proofs.Call.Exhaustive

/-!
Calls without keywords.

Values alone are matched by cutting them into consecutive segments, one for each parameter in
declared order (`Split`). The search takes one value at a time and may leave a parameter too early,
but what it completes are the ways to cut (`path_start_iff`). So it returns the cut if there is but
one, up to equal values, and else an ambiguity or another error (`matchArguments_answers_splits`).
-/

set_option autoImplicit false

namespace TypedCalls

variable {α : Type}

def Arity.HasRoom (arity : Arity) (n : Nat) : Prop :=
  ∀ most, arity.maximum = some most → n < most

/-- A way to cut values into consecutive segments, one for each parameter in declared order, each as
long as the parameter admits. -/
inductive Split : List Formal → List α → Assignment α → Prop
  | nil : Split [] [] []
  | cons {f : Formal} {formals : List Formal} {segment values : List α} {slots : Assignment α}
      (admits : f.arity.Admits segment.length) (rest : Split formals values slots) :
      Split (f :: formals) (segment ++ values) ((f.name, segment) :: slots)

private theorem split_empty {formals : List Formal} (admits : ∀ f ∈ formals, f.arity.Admits 0) :
    Split formals ([] : List α) (.empty formals) := by
  induction formals with
  | nil => exact .nil
  | cons f formals ih =>
    obtain ⟨here, others⟩ := List.forall_mem_cons.mp admits
    have split : Split (f :: formals) ([] ++ ([] : List α))
        ((f.name, []) :: Assignment.empty formals) := .cons here (ih others)
    exact split

namespace Matching

/-- A way on from a state to an outcome. -/
inductive Path (formals : List Formal) : MatchState α → Outcome α → Prop
  | leaf {state : MatchState α} {outcome : Outcome α}
      (here : state.expand formals = .leaf outcome) : Path formals state outcome
  | onward {state next : MatchState α} {outcome : Outcome α}
      (here : state.expand formals = .onward next) (rest : Path formals next outcome) :
      Path formals state outcome
  | choice {state next : MatchState α} {name : String} {states : List (MatchState α)}
      {outcome : Outcome α} (here : state.expand formals = .choice name states)
      (member : next ∈ states) (rest : Path formals next outcome) : Path formals state outcome

def Reaches (formals : List Formal) : Expansion α → Outcome α → Prop
  | .leaf outcome, o => o = outcome
  | .onward next, o => Path formals next o
  | .choice _ states, o => ∃ next ∈ states, Path formals next o

theorem path_iff_reaches {formals : List Formal} {state : MatchState α} {o : Outcome α} :
    Path formals state o ↔ Reaches formals (state.expand formals) o := by
  constructor
  · intro path
    cases path with
    | leaf here => rw [here, Reaches]
    | onward here rest => rwa [here, Reaches]
    | choice here member rest =>
      rw [here]
      exact ⟨_, member, rest⟩
  · intro reaches
    cases here : state.expand formals with
    | leaf outcome =>
      rw [here] at reaches
      obtain rfl : o = outcome := reaches
      exact .leaf here
    | onward next =>
      rw [here] at reaches
      exact .onward here reaches
    | choice name states =>
      rw [here] at reaches
      obtain ⟨next, member, rest⟩ := reaches
      exact .choice here member rest

mutual

theorem Leaves.mem_iff {formals : List Formal} {state : MatchState α} {leaves : List (Outcome α)}
    {outcome : Outcome α} :
    Leaves formals state leaves → (outcome ∈ leaves ↔ Path formals state outcome)
  | .leaf here => by
    rw [path_iff_reaches, here, List.mem_singleton, Reaches]
  | .onward here below => by
    rw [path_iff_reaches, here, below.mem_iff, Reaches]
  | .choice here below => by
    rw [path_iff_reaches, here, below.mem_iff, Reaches]

theorem LeavesAll.mem_iff {formals : List Formal} {states : List (MatchState α)}
    {leaves : List (Outcome α)} {outcome : Outcome α} :
    LeavesAll formals states leaves →
      (outcome ∈ leaves ↔ ∃ state ∈ states, Path formals state outcome)
  | .nil => by simp
  | .cons first rest => by
    rw [List.mem_append, first.mem_iff, rest.mem_iff]
    simp

end

end Matching

namespace MatchState

variable {formals : List Formal} {state : MatchState α}

theorem find?_of_mem (distinct : (formals.map Formal.name).Nodup) {f : Formal}
    (known : f ∈ formals) : formals.find? (fun g => g.name == f.name) = some f := by
  have found : (formals.find? fun g => g.name == f.name).isSome = true :=
    List.find?_isSome.mpr ⟨f, known, beq_self_eq_true _⟩
  obtain ⟨g, here⟩ := Option.isSome_iff_exists.mp found
  have named := List.find?_some here
  have same := List.inj_on_of_nodup_map distinct (List.mem_of_find?_eq_some here) known
    (beq_iff_eq.mp named)
  rw [here, same]

private theorem taking_none (state : MatchState α) (name : String) (effective : Arity)
    (cursor : Cursor) (values : List α) :
    state.taking name effective cursor 0 values 0 =
      .ok [⟨cursor.advance, state.rest, state.taken.put name (state.taken.get name)⟩] := by
  simp [taking, Arity.consume, bind, Except.bind, pure, Except.pure]

private theorem taking_one (state : MatchState α) (name : String) {effective left : Arity}
    (consumed : effective.consume 1 = .ok left) (cursor : Cursor) (a : α) :
    state.taking name effective cursor 0 [a] 1 =
      .ok (⟨cursor.advance, state.rest.drop 1,
          state.taken.put name (state.taken.get name ++ [a])⟩ ::
        if left.isFull then []
        else [⟨cursor, state.rest.drop 1,
          state.taken.put name (state.taken.get name ++ [a])⟩]) := by
  cases full : left.isFull with
  | true => simp [taking, consumed, full, bind, Except.bind, pure, Except.pure]
  | false => simp [taking, consumed, full, bind, Except.bind, pure, Except.pure]

private theorem consume_of_hasRoom {arity : Arity} {n : Nat} (room : arity.HasRoom n) :
    ∃ effective left, arity.consume n = .ok effective ∧ effective.consume 1 = .ok left ∧
      ¬effective.isFull = true ∧ bounds effective 0 false 1 = (min (arity.minimum - n) 1, 1) ∧
      (left.isFull = true ↔ ¬arity.HasRoom (n + 1)) := by
  obtain ⟨effective, consumed, least, most⟩ :=
    Arity.consume_natCast fun most bounded => Nat.le_of_lt (room most bounded)
  have remains : ∀ m, effective.maximum = some m → 1 ≤ m := by
    intro m bounded
    rw [most] at bounded
    obtain ⟨k, maximum, rfl⟩ := Option.map_eq_some_iff.mp bounded
    have := room k maximum
    omega
  obtain ⟨left, consumed', -, most'⟩ := Arity.consume_natCast remains
  refine ⟨effective, left, consumed, consumed', fun full => ?_, ?_, ?_⟩
  · have none := remains 0 (beq_iff_eq.mp full)
    omega
  · rw [bounds, ← least]
    cases bounded : effective.maximum with
    | none => simp
    | some m => simp [remains m bounded]
  · rw [Arity.isFull, beq_iff_eq, most', most, Arity.HasRoom]
    cases bounded : arity.maximum with
    | none => simp
    | some k =>
      have := room k bounded
      simp
      omega

private theorem offer_one (distinct : (formals.map Formal.name).Nodup) {f : Formal}
    (known : f ∈ formals) {got : List α} (has : state.taken.get f.name = got)
    (room : f.arity.HasRoom got.length) (cursor : Cursor) (a : α) :
    ∃ states, state.offer formals cursor f.name 0 false 0 [a] = .choice f.name states ∧
      ∀ next, next ∈ states ↔
        (f.arity.minimum ≤ got.length ∧
          next = ⟨cursor.advance, state.rest, state.taken.put f.name got⟩) ∨
        next = ⟨cursor.advance, state.rest.drop 1, state.taken.put f.name (got ++ [a])⟩ ∨
        (f.arity.HasRoom (got.length + 1) ∧
          next = ⟨cursor, state.rest.drop 1, state.taken.put f.name (got ++ [a])⟩) := by
  subst has
  obtain ⟨effective, left, consumed, consumed', accepts, range, full⟩ := consume_of_hasRoom room
  have one := taking_one state f.name consumed' cursor a
  have none := taking_none state f.name effective cursor [a]
  have stays (next : MatchState α) {stay : MatchState α} :
      (next ∈ if left.isFull = true then [] else [stay]) ↔
        f.arity.HasRoom ((state.taken.get f.name).length + 1) ∧ next = stay := by
    by_cases more : left.isFull = true
    · simp [more, full.mp more]
    · simp [more, not_not.mp (mt full.mpr more)]
  unfold offer
  rw [find?_of_mem distinct known]
  dsimp only
  rw [consumed]
  dsimp only
  rw [if_neg accepts, List.length_singleton, range]
  by_cases enough : f.arity.minimum ≤ (state.taken.get f.name).length
  · have choices :
        counts (min (f.arity.minimum - (state.taken.get f.name).length) 1) 1 = [0, 1] := by
      rw [Nat.sub_eq_zero_of_le enough]
      rfl
    rw [choices, List.mapM_cons, none, List.mapM_cons, one, List.mapM_nil]
    exact ⟨_, rfl, fun next => by simp [enough, stays next]⟩
  · have choices : counts (min (f.arity.minimum - (state.taken.get f.name).length) 1) 1 = [1] := by
      rw [Nat.min_eq_right (by omega)]
      rfl
    rw [choices, List.mapM_cons, one, List.mapM_nil]
    exact ⟨_, rfl, fun next => by simp [enough, stays next]⟩

end MatchState

namespace Assignment

variable {fronts later : Assignment α} {name : String}

private theorem get_append_of_not_mem (other : name ∉ fronts.map Prod.fst) :
    (fronts ++ later).get name = later.get name := by
  induction fronts with
  | nil => rfl
  | cons slot fronts ih =>
    obtain ⟨ne, others⟩ := List.ne_and_not_mem_of_not_mem_cons other
    exact (get_cons_of_ne slot.2 _ ne).trans (ih others)

private theorem get_append_of_mem (among : name ∈ fronts.map Prod.fst) :
    (fronts ++ later).get name = fronts.get name := by
  induction fronts with
  | nil => cases among
  | cons slot fronts ih =>
    by_cases same : name = slot.1
    · subst same
      exact (get_cons_self slot.1 slot.2 _).trans (get_cons_self slot.1 slot.2 _).symm
    · have among := (List.mem_cons.mp among).resolve_left same
      exact ((get_cons_of_ne slot.2 _ same).trans (ih among)).trans
        (get_cons_of_ne slot.2 _ same).symm

private theorem get_middle (other : name ∉ fronts.map Prod.fst) (values : List α) :
    (fronts ++ (name, values) :: later).get name = values :=
  (get_append_of_not_mem other).trans (get_cons_self name values later)

private theorem put_of_not_mem (other : name ∉ fronts.map Prod.fst) (values : List α) :
    fronts.put name values = fronts := by
  have same : ∀ slot ∈ fronts, (if slot.1 = name then (name, values) else slot) = id slot := by
    intro slot member
    refine if_neg ?_
    rintro rfl
    exact other (List.mem_map_of_mem member)
  rw [put, List.map_congr_left same, List.map_id]

private theorem put_middle (before : name ∉ fronts.map Prod.fst)
    (behind : name ∉ later.map Prod.fst) (old values : List α) :
    (fronts ++ (name, old) :: later).put name values = fronts ++ (name, values) :: later := by
  have front := put_of_not_mem before values
  have back := put_of_not_mem behind values
  unfold put at front back ⊢
  rw [List.map_append, List.map_cons, front, back, if_pos rfl]

end Assignment

namespace Matching

def between (fronts : Assignment α) (back : List Formal) (values : List α) : MatchState α :=
  ⟨.positional fronts.length, values.map .value, fronts ++ .empty back⟩

def within (fronts : Assignment α) (f : Formal) (got : List α) (back : List Formal)
    (values : List α) : MatchState α :=
  ⟨.positional fronts.length, values.map .value, fronts ++ (f.name, got) :: Assignment.empty back⟩

section

variable {front back : List Formal} {f : Formal} {fronts : Assignment α} {got values : List α}

private theorem not_mem_fronts (distinct : ((front ++ f :: back).map Formal.name).Nodup)
    (keys : fronts.map Prod.fst = front.map Formal.name) :
    f.name ∉ fronts.map Prod.fst ∧ f.name ∉ back.map Formal.name := by
  rw [List.map_append, List.map_cons, List.nodup_middle, List.nodup_cons, List.mem_append,
    not_or] at distinct
  rw [keys]
  exact distinct.1

private theorem not_mem_fronts_of_mem (distinct : ((front ++ f :: back).map Formal.name).Nodup)
    (keys : fronts.map Prod.fst = front.map Formal.name) {g : Formal} (known : g ∈ back) :
    g.name ∉ (fronts ++ [(f.name, got)]).map Prod.fst := by
  rw [List.append_cons, List.map_append] at distinct
  have apart := List.disjoint_of_nodup_append distinct
  intro member
  rw [List.map_append, keys] at member
  exact apart (by simpa using member) (List.mem_map_of_mem known)

theorem expand_within (distinct : ((front ++ f :: back).map Formal.name).Nodup)
    (keys : fronts.map Prod.fst = front.map Formal.name) (room : f.arity.HasRoom got.length)
    (a : α) (values : List α) :
    ∃ states, (within fronts f got back (a :: values)).expand (front ++ f :: back) =
        .choice f.name states ∧
      ∀ next, next ∈ states ↔
        (f.arity.minimum ≤ got.length ∧
          next = between (fronts ++ [(f.name, got)]) back (a :: values)) ∨
        next = between (fronts ++ [(f.name, got ++ [a])]) back values ∨
        (f.arity.HasRoom (got.length + 1) ∧ next = within fronts f (got ++ [a]) back values) := by
  obtain ⟨before, behind⟩ := not_mem_fronts distinct keys
  have behind : f.name ∉ (Assignment.empty back : Assignment α).map Prod.fst := by
    simpa [Assignment.empty] using behind
  have place : (front ++ f :: back)[fronts.length]? = some f := by
    have length := congrArg List.length keys
    rw [List.length_map, List.length_map] at length
    simp [length]
  have has : (within fronts f got back (a :: values)).taken.get f.name = got :=
    Assignment.get_middle before got
  obtain ⟨states, offered, members⟩ := MatchState.offer_one distinct (by simp) has room
    (.positional fronts.length) a
  have step : (within fronts f got back (a :: values)).expand (front ++ f :: back) =
      .choice f.name states := by
    rw [← offered]
    unfold MatchState.expand within
    rw [List.map_cons]
    dsimp only
    rw [place]
  refine ⟨states, step, fun next => ?_⟩
  rw [members]
  simp only [within, between, Assignment.put_middle before behind, Cursor.advance]
  simp

private theorem Path.minimum_le {formals : List Formal} {state : MatchState α}
    {slots : Assignment α} (path : Path formals state (.success slots)) {g : Formal}
    (known : g ∈ formals) :
    g.arity.minimum ≤ (slots.get g.name).length := by
  generalize won : Outcome.success slots = outcome at path
  induction path with
  | leaf here =>
    subst won
    exact minimum_le_of_finished (finished_of_expand here).2 known
  | onward _ _ ih => exact ih won
  | choice _ _ _ ih => exact ih won

theorem expand_past {formals : List Formal} (all : formals.length = fronts.length) (a : α)
    (values : List α) :
    (between fronts [] (a :: values)).expand formals =
      .onward ⟨.named false, .value a :: values.map .value, fronts ++ .empty []⟩ := by
  have missing : formals[fronts.length]? = none := List.getElem?_eq_none (Nat.le_of_eq all)
  unfold MatchState.expand between
  rw [List.map_cons]
  dsimp only
  rw [missing]

private theorem Path.past {formals : List Formal} {slots : Assignment α}
    (all : formals.length = fronts.length)
    (path : Path formals (between fronts [] values) (.success slots)) :
    values = [] ∧ slots = fronts := by
  cases values with
  | nil =>
    cases path with
    | leaf here =>
      have same := eq_of_finished (finished_of_expand here).2
      exact ⟨rfl, same.trans (List.append_nil fronts)⟩
    | onward here => cases here
    | choice here => cases here
  | cons a values =>
    have step := expand_past all a values
    cases path with
    | leaf here => cases step.symm.trans here
    | choice here => cases step.symm.trans here
    | onward here rest =>
      cases step.symm.trans here
      cases rest with
      | leaf there => cases there
      | onward there => cases there
      | choice there => cases there

/-- What is completed from a state cuts the values left, among the parameters from the one that it
is within: that one receives a segment behind what it has got. -/
def Cuts (formals : List Formal) (state : MatchState α) (slots : Assignment α) : Prop :=
  ∀ (front : List Formal) (f : Formal) (back : List Formal) (fronts : Assignment α)
    (got values : List α), formals = front ++ f :: back →
    fronts.map Prod.fst = front.map Formal.name → f.arity.HasRoom got.length →
    state = within fronts f got back values →
    ∃ segment rest later, values = segment ++ rest ∧ f.arity.Admits (got ++ segment).length ∧
      Split back rest later ∧ slots = fronts ++ (f.name, got ++ segment) :: later

private theorem Cuts.leave {formals : List Formal} {slots : Assignment α}
    (distinct : (formals.map Formal.name).Nodup) (rooms : ∀ g ∈ formals, g.arity.HasRoom 0)
    (parts : formals = front ++ f :: back) (keys : fronts.map Prod.fst = front.map Formal.name)
    {had rest : List α}
    (path : Path formals (between (fronts ++ [(f.name, had)]) back rest) (.success slots))
    (cuts : Cuts formals (between (fronts ++ [(f.name, had)]) back rest) slots) :
    f.arity.minimum ≤ had.length ∧
      ∃ later, Split back rest later ∧ slots = fronts ++ (f.name, had) :: later := by
  have length : fronts.length = front.length := by simpa using congrArg List.length keys
  have later : ∃ later, Split back rest later ∧ slots = fronts ++ (f.name, had) :: later := by
    cases back with
    | nil =>
      obtain ⟨rfl, rfl⟩ := path.past (by simp [parts, length])
      exact ⟨[], .nil, rfl⟩
    | cons g back =>
      obtain ⟨segment, rest, later, rfl, admits, split, rfl⟩ := cuts (front ++ [f]) g back
        (fronts ++ [(f.name, had)]) [] rest (by simp [parts]) (by simp [keys])
        (rooms g (by simp [parts])) rfl
      exact ⟨_, .cons admits split, by simp⟩
  refine ⟨?_, later⟩
  obtain ⟨later, -, rfl⟩ := later
  have enough := path.minimum_le (g := f) (by simp [parts])
  rwa [Assignment.get_middle (not_mem_fronts (parts ▸ distinct) keys).1] at enough

private theorem Path.cuts {formals : List Formal} {state : MatchState α} {slots : Assignment α}
    (distinct : (formals.map Formal.name).Nodup) (rooms : ∀ g ∈ formals, g.arity.HasRoom 0)
    (path : Path formals state (.success slots)) : Cuts formals state slots := by
  generalize won : Outcome.success slots = outcome at path
  induction path with
  | leaf here =>
    subst won
    rintro front f back fronts got values parts keys room rfl
    obtain ⟨done, finished⟩ := finished_of_expand here
    obtain rfl : values = [] := List.map_eq_nil_iff.mp done
    change MatchState.finished _ (fronts ++ (f.name, got) :: Assignment.empty back) = _ at finished
    obtain rfl := eq_of_finished finished
    subst parts
    have enough := minimum_le_of_finished finished (f := f) (by simp)
    rw [Assignment.get_middle (not_mem_fronts distinct keys).1] at enough
    have others : ∀ g ∈ back, g.arity.Admits 0 := by
      intro g known
      have none := minimum_le_of_finished finished (f := g) (by simp [known])
      rw [List.append_cons, Assignment.get_append_of_not_mem
        (not_mem_fronts_of_mem distinct keys known), Assignment.get_empty] at none
      exact ⟨none, fun most _ => Nat.zero_le most⟩
    refine ⟨[], [], .empty back, rfl, ?_, split_empty others, by simp⟩
    rw [List.append_nil]
    exact ⟨enough, fun most bounded => Nat.le_of_lt (room most bounded)⟩
  | onward here rest ih =>
    rintro front f back fronts got values rfl keys room rfl
    cases values with
    | nil => cases here
    | cons a values =>
      obtain ⟨states, there, -⟩ := expand_within distinct keys room a values
      cases there.symm.trans here
  | choice here member rest ih =>
    subst won
    rintro front f back fronts got values rfl keys room rfl
    cases values with
    | nil => cases here
    | cons a values =>
      obtain ⟨states, there, members⟩ := expand_within distinct keys room a values
      cases there.symm.trans here
      rcases (members _).mp member with ⟨-, rfl⟩ | rfl | ⟨more, rfl⟩
      · obtain ⟨enough, later, split, rfl⟩ := Cuts.leave distinct rooms rfl keys rest (ih rfl)
        have admits : f.arity.Admits (got ++ []).length := by
          simpa using ⟨enough, fun most bounded => Nat.le_of_lt (room most bounded)⟩
        exact ⟨[], a :: values, later, rfl, admits, split, by simp⟩
      · obtain ⟨enough, later, split, rfl⟩ := Cuts.leave distinct rooms rfl keys rest (ih rfl)
        have admits : f.arity.Admits (got ++ [a]).length := by
          refine ⟨enough, fun most bounded => ?_⟩
          rw [List.length_append]
          exact room most bounded
        exact ⟨[a], values, later, rfl, admits, split, rfl⟩
      · obtain ⟨segment, others, later, rfl, admits, split, rfl⟩ := ih rfl front f back fronts
          (got ++ [a]) values rfl keys (by simpa using more) rfl
        exact ⟨a :: segment, others, later, rfl, by simpa using admits, split, by simp⟩

private theorem finished_of_admits {formals : List Formal} {taken : Assignment α}
    (admits : ∀ g ∈ formals, g.arity.Admits (taken.get g.name).length) :
    MatchState.finished formals taken = .success taken := by
  have lacks : formals.filterM (fun g => (g.arity.consume (taken.get g.name).length).map
      fun left => decide (0 < left.minimum)) = .ok [] := by
    rw [List.filterM, filterAuxM_of_forall]
    · rfl
    · intro g known
      obtain ⟨enough, few⟩ := admits g known
      obtain ⟨left, consumed, least, -⟩ := Arity.consume_natCast few
      rw [consumed, Except.map, least]
      simp [enough]
  unfold MatchState.finished
  dsimp only
  rw [lacks]

private theorem Path.of_done {formals : List Formal} {cursor later : Cursor} {taken : Assignment α}
    {outcome : Outcome α} (path : Path formals ⟨cursor, [], taken⟩ outcome) :
    Path formals ⟨later, [], taken⟩ outcome := by
  cases path with
  | leaf here => exact .leaf here
  | onward here => cases here
  | choice here => cases here

private theorem path_within (distinct : ((front ++ f :: back).map Formal.name).Nodup)
    (keys : fronts.map Prod.fst = front.map Formal.name) (room : f.arity.HasRoom got.length)
    {segment rest : List α} (admits : f.arity.Admits (got ++ segment).length) {outcome : Outcome α}
    (leave : Path (front ++ f :: back) (between (fronts ++ [(f.name, got ++ segment)]) back rest)
      outcome) :
    Path (front ++ f :: back) (within fronts f got back (segment ++ rest)) outcome := by
  induction segment generalizing got with
  | nil =>
    rw [List.append_nil] at admits leave
    cases rest with
    | nil =>
      rw [between, List.append_assoc] at leave
      exact leave.of_done
    | cons a rest =>
      obtain ⟨states, step, members⟩ := expand_within distinct keys room a rest
      exact .choice step ((members _).mpr (.inl ⟨admits.1, rfl⟩)) leave
  | cons a segment ih =>
    obtain ⟨states, step, members⟩ := expand_within distinct keys room a (segment ++ rest)
    rw [List.append_cons got] at admits leave
    cases segment with
    | nil =>
      rw [List.append_nil] at leave
      exact .choice step ((members _).mpr (.inr (.inl rfl))) leave
    | cons b segment =>
      have more : f.arity.HasRoom (got ++ [a]).length := by
        intro most bounded
        have few := admits.2 most bounded
        simp only [List.length_append, List.length_cons, List.length_nil] at few ⊢
        omega
      refine .choice step ((members _).mpr (.inr (.inr ⟨?_, rfl⟩))) (ih more admits leave)
      simpa using more

private theorem path_of_split {slots : Assignment α} (split : Split back values slots)
    (distinct : ((front ++ back).map Formal.name).Nodup) (rooms : ∀ g ∈ back, g.arity.HasRoom 0)
    (keys : fronts.map Prod.fst = front.map Formal.name)
    (settled : ∀ g ∈ front, g.arity.Admits (fronts.get g.name).length) :
    Path (front ++ back) (between fronts back values) (.success (fronts ++ slots)) := by
  induction split generalizing front fronts with
  | nil =>
    refine .leaf ?_
    change Expansion.leaf (MatchState.finished (front ++ []) (fronts ++ [])) = _
    rw [List.append_nil, List.append_nil, finished_of_admits settled]
  | @cons f back segment values slots admits rest ih =>
    obtain ⟨room, others⟩ := List.forall_mem_cons.mp rooms
    have room : f.arity.HasRoom ([] : List α).length := room
    refine path_within distinct keys room admits ?_
    have now : ∀ g ∈ front ++ [f],
        g.arity.Admits ((fronts ++ [(f.name, segment)]).get g.name).length := by
      refine List.forall_mem_append.mpr ⟨fun g known => ?_, List.forall_mem_singleton.mpr ?_⟩
      · rw [Assignment.get_append_of_mem (keys ▸ List.mem_map_of_mem known)]
        exact settled g known
      · rw [Assignment.get_middle (not_mem_fronts distinct keys).1]
        exact admits
    rw [List.append_cons] at distinct
    simpa using ih distinct others (by simp [keys]) now

theorem path_start_iff {formals : List Formal} (distinct : (formals.map Formal.name).Nodup)
    (rooms : ∀ g ∈ formals, g.arity.HasRoom 0) {slots : Assignment α} :
    Path formals (start formals (values.map .value)) (.success slots) ↔
      Split formals values slots := by
  constructor
  · intro path
    cases formals with
    | nil =>
      change Path [] (between [] [] values) _ at path
      obtain ⟨rfl, rfl⟩ := path.past rfl
      exact .nil
    | cons f back =>
      obtain ⟨segment, rest, later, rfl, admits, split, rfl⟩ := path.cuts distinct rooms [] f back
        [] [] values rfl rfl (rooms f (List.mem_cons_self ..)) rfl
      exact .cons admits split
  · intro split
    change Path ([] ++ formals) (between [] formals values) (.success ([] ++ slots))
    exact path_of_split split distinct rooms rfl (by simp)

end

theorem mem_complete {leaves : List (Outcome α)} {slots : Assignment α} :
    slots ∈ complete leaves ↔ .success slots ∈ leaves := by
  rw [complete, List.mem_filterMap]
  constructor
  · rintro ⟨outcome, member, assigned⟩
    cases outcome with
    | success => cases assigned; exact member
    | missing | tooMany | stray | ambiguous | fault => cases assigned
  · intro member
    exact ⟨_, member, rfl⟩

end Matching

/-- What matching answers, given the ways to cut the values. -/
structure AnswersSplits [BEq α] (formals : List Formal) (values : List α)
    (answer : Except (MatchError α) (Assignment α)) : Prop where
  /-- What is returned is a way to cut the values. -/
  split : ∀ slots, answer = .ok slots → Split formals values slots
  /-- Something is returned if there is a way, and but one up to equal values. -/
  returns : (∃ slots, answer = .ok slots) ↔
    (∃ slots, Split formals values slots) ∧
      ∀ a b, Split formals values a → Split formals values b → (a == b) = true
  /-- Two ways that differ are an ambiguity. -/
  ambiguous : (∃ name, answer = .error (.ambiguous name)) ↔
    ∃ a b, Split formals values a ∧ Split formals values b ∧ (a == b) = false
  /-- Any other error says that there is no way. -/
  fails : (∃ e, answer = .error e ∧ ∀ name, e ≠ .ambiguous name) ↔
    ∀ slots, ¬Split formals values slots

private theorem Matching.AnswersLeaves.answersSplits [BEq α] {good : α → Prop}
    (equality : EqualityOn good) {leaves : List (Outcome α)} (proper : ∀ x ∈ leaves, x.Proper good)
    {formals : List Formal} {values : List α} {answer : Except (MatchError α) (Assignment α)}
    (answers : AnswersLeaves good leaves answer)
    (same : ∀ slots, slots ∈ complete leaves ↔ Split formals values slots) :
    AnswersSplits formals values answer := by
  have returned (a : Assignment α) (member : a ∈ complete leaves)
      (equal : ∀ a ∈ complete leaves, ∀ b ∈ complete leaves, (a == b) = true) :
      ∃ slots, answer = .ok slots := by
    obtain ⟨b, ok, -⟩ := (answers.returns_equal a (holds_of_mem_complete proper member)).mpr
      ⟨List.ne_nil_of_mem member, fun b other => equal b other a member⟩
    exact ⟨b, ok⟩
  have ambiguous : (∃ name, answer = .error (.ambiguous name)) ↔
      ∃ a b, Split formals values a ∧ Split formals values b ∧ (a == b) = false := by
    rw [answers.ambiguous]
    simp only [same]
    constructor
    · rintro ⟨a, one, b, other, differ⟩
      exact ⟨a, b, one, other, differ⟩
    · rintro ⟨a, b, one, other, differ⟩
      exact ⟨a, one, b, other, differ⟩
  constructor
  · intro slots ok
    exact (same slots).mp (List.mem_of_head? ((answers.returns slots).mp ok).1)
  · constructor
    · rintro ⟨slots, ok⟩
      obtain ⟨head, equal⟩ := (answers.returns slots).mp ok
      have member := List.mem_of_head? head
      refine ⟨⟨slots, (same slots).mp member⟩, fun a b one other => ?_⟩
      have one := (same a).mpr one
      have other := (same b).mpr other
      exact equal_of_equal equality proper (holds_of_mem_complete proper member) one other
        (equal a one) (equal b other)
    · rintro ⟨⟨slots, split⟩, equal⟩
      exact returned slots ((same slots).mpr split) fun a one b other =>
        equal a b ((same a).mp one) ((same b).mp other)
  · exact ambiguous
  · constructor
    · rintro ⟨e, failed, other⟩ slots split
      by_cases equal : ∀ a ∈ complete leaves, ∀ b ∈ complete leaves, (a == b) = true
      · obtain ⟨a, ok⟩ := returned slots ((same slots).mpr split) equal
        cases failed.symm.trans ok
      · push Not at equal
        obtain ⟨a, one, b, two, differ⟩ := equal
        obtain ⟨name, around⟩ := answers.ambiguous.mpr
          ⟨a, one, b, two, Bool.eq_false_iff.mpr differ⟩
        exact other name (Except.error.inj (failed.symm.trans around))
    · intro nothing
      have none : complete leaves = [] :=
        List.eq_nil_iff_forall_not_mem.mpr fun slots member =>
          nothing slots ((same slots).mp member)
      obtain ⟨o, worst, rfl⟩ := answers.fails none
      exact toExcept_of_failure (assignment?_eq_none none worst.mem) (proper o worst.mem)

theorem Matching.keywordsWithoutValue_values (values : List α) :
    keywordsWithoutValue (values.map .value) = [] := by
  induction values with
  | nil => rfl
  | cons a values ih => exact ih

/-- Values alone are matched by cutting them: the answer is the way to do so if there is but one.
The parameters have distinct names, and each accepts a value. -/
theorem matchArguments_answers_splits [BEq α] {good : α → Prop} (equality : EqualityOn good)
    {formals : List Formal} (distinct : (formals.map Formal.name).Nodup)
    (accepting : ∀ f ∈ formals, f.arity.maximum ≠ some 0) {values : List α}
    (meant : ∀ a ∈ values, good a) :
    AnswersSplits formals values (matchArguments formals (values.map .value)) := by
  have rooms : ∀ f ∈ formals, f.arity.HasRoom 0 := by
    intro f known most bounded
    refine Nat.pos_of_ne_zero ?_
    rintro rfl
    exact accepting f known bounded
  have declared : ∀ name, Argument.keyword name ∈ values.map Argument.value →
      name ∈ formals.map Formal.name := by simp
  have valued := Matching.keywordsWithoutValue_values values
  have order : (Matching.start formals (values.map .value)).InOrder formals good :=
    Matching.inOrder_start (by simpa using meant) declared valued
  obtain ⟨leaves, below, proper, sums⟩ := Matching.summed_search distinct
    (formals.length + (values.map Argument.value).length + 1) order
    (by simp [MatchState.height, Matching.start])
  rw [matchArguments_eq_explore distinct declared valued]
  refine (sums.answersLeaves equality proper).answersSplits equality proper fun slots => ?_
  rw [Matching.mem_complete, below.mem_iff, Matching.path_start_iff distinct rooms]

/-- Two parameters that want two values each, around one that takes any number, share four values in
but one way. -/
theorem matchArguments_answers_splits_tight :
    let formals : List Formal :=
      [⟨"front", ⟨2, some 3, by simp⟩⟩, ⟨"middle", .zeroOrMore⟩, ⟨"back", ⟨2, none, by simp⟩⟩]
    let slots : Assignment Nat := [("front", [1, 2]), ("middle", []), ("back", [3, 4])]
    EqualityOn (fun _ : Nat => True) ∧ (formals.map Formal.name).Nodup ∧
      (∀ f ∈ formals, f.arity.maximum ≠ some 0) ∧
      matchArguments formals ([1, 2, 3, 4].map .value) = .ok slots ∧
      Split formals [1, 2, 3, 4] slots ∧
      (∀ other, Split formals [1, 2, 3, 4] other → (other == slots) = true) := by
  intro formals slots
  have equality := EqualityOn.of_lawful Nat
  have distinct : (formals.map Formal.name).Nodup := by decide
  have accepting : ∀ f ∈ formals, f.arity.maximum ≠ some 0 := by decide
  have answer : matchArguments formals ([1, 2, 3, 4].map .value) = .ok slots := by decide +kernel
  have answers : AnswersSplits formals [1, 2, 3, 4] _ :=
    matchArguments_answers_splits equality distinct accepting fun _ _ => trivial
  have split := answers.split slots answer
  refine ⟨equality, distinct, accepting, answer, split, fun other another => ?_⟩
  exact (answers.returns.mp ⟨slots, answer⟩).2 other slots another split

end TypedCalls
