import Mathlib.Algebra.GroupWithZero.Nat
import Mathlib.Tactic.Common
import TypedCalls.Proofs.Call.Verdict

/-!
Which mistake is reported for values alone that cannot be cut among the parameters.

A parameter that needs values may be left with fewer than it needs, once it has taken one. So a way
ends with a value left over as soon as there are more values than parameters that need any
(`exists_path_leftover`, `Path.ending`), and a value left over is reported rather than parameters
that lack values. The report is then that there are too many values, even where all of them are too
few for the parameters (`positional_failures`).
-/

set_option autoImplicit false

namespace TypedCalls

variable {α : Type}

/-- How many parameters cannot be left out. -/
def requiredCount (formals : List Formal) : Nat := formals.countP fun f => !f.arity.isNullable

/-- The fewest values that parameters need together. -/
def minimumTotal (formals : List Formal) : Nat := (formals.map fun f => f.arity.minimum).sum

/-- The most values that bounded parameters accept together. -/
def maximumTotal (formals : List Formal) : Nat := (formals.map fun f => f.arity.maximum.getD 0).sum

private theorem requiredCount_cons (f : Formal) (formals : List Formal) :
    requiredCount (f :: formals) =
      requiredCount formals + if f.arity.minimum = 0 then 0 else 1 := by
  by_cases nullable : f.arity.minimum = 0
  · simp [requiredCount, Arity.isNullable, nullable]
  · simp [requiredCount, Arity.isNullable, nullable]

private theorem minimumTotal_eq_requiredCount {formals : List Formal}
    (single : ∀ f ∈ formals, f.arity.minimum ≤ 1) :
    minimumTotal formals = requiredCount formals := by
  induction formals with
  | nil => rfl
  | cons f formals ih =>
    obtain ⟨here, others⟩ := List.forall_mem_cons.mp single
    have rest := ih others
    rw [requiredCount_cons, ← rest]
    simp only [minimumTotal, List.map_cons, List.sum_cons]
    split <;> omega

private theorem requiredCount_le_maximumTotal {formals : List Formal}
    (accepting : ∀ f ∈ formals, f.arity.maximum ≠ some 0)
    (bounded : ∀ f ∈ formals, f.arity.maximum.isSome) :
    requiredCount formals ≤ maximumTotal formals := by
  induction formals with
  | nil => exact Nat.le_refl 0
  | cons f formals ih =>
    obtain ⟨here, others⟩ := List.forall_mem_cons.mp accepting
    obtain ⟨limit, limits⟩ := List.forall_mem_cons.mp bounded
    obtain ⟨k, top⟩ := Option.isSome_iff_exists.mp limit
    have rest := ih others limits
    have positive : k ≠ 0 := by
      rintro rfl
      exact here top
    rw [requiredCount_cons]
    simp only [maximumTotal, List.map_cons, List.sum_cons, top, Option.getD_some] at rest ⊢
    split <;> omega

private theorem Split.minimumTotal_le {formals : List Formal} {values : List α}
    {slots : Assignment α}
    (split : Split formals values slots) : minimumTotal formals ≤ values.length := by
  induction split with
  | nil => exact Nat.le_refl 0
  | cons admits _ ih =>
    have enough := admits.1
    simp only [minimumTotal, List.map_cons, List.sum_cons, List.length_append] at ih ⊢
    omega

private theorem Split.le_maximumTotal {formals : List Formal} {values : List α}
    {slots : Assignment α} (split : Split formals values slots)
    (bounded : ∀ f ∈ formals, f.arity.maximum.isSome) :
    values.length ≤ maximumTotal formals := by
  induction split with
  | nil => exact Nat.le_refl 0
  | cons admits _ ih =>
    obtain ⟨limit, limits⟩ := List.forall_mem_cons.mp bounded
    obtain ⟨k, top⟩ := Option.isSome_iff_exists.mp limit
    have rest := ih limits
    have few := admits.2 k top
    simp only [maximumTotal, List.map_cons, List.sum_cons, List.length_append, top,
      Option.getD_some] at rest ⊢
    omega

namespace Matching

/-- How a way on ends with so many values ahead, if parameters that need so many must be passed: all
values are assigned, or one is left over. -/
inductive Ending (formals : List Formal) (needed count : Nat) : Outcome α → Prop
  | finished (taken : Assignment α) :
      Ending formals needed count (MatchState.finished formals taken)
  | leftover (a : α) (more : needed < count) : Ending formals needed count (.stray a false)

private theorem Ending.mono {formals : List Formal} {needed count needed' count' : Nat}
    {o : Outcome α} (ending : Ending formals needed count o)
    (more : needed < count → needed' < count') :
    Ending formals needed' count' o := by
  cases ending with
  | finished taken => exact .finished taken
  | leftover a fewer => exact .leftover a (more fewer)

section

variable {front back : List Formal} {f : Formal} {fronts : Assignment α} {got values : List α}
  {o : Outcome α}

private theorem path_past_iff {formals : List Formal} (all : formals.length = fronts.length)
    (a : α) : Path formals (between fronts [] (a :: values)) o ↔ o = .stray a false := by
  rw [path_iff_reaches, expand_past all a values]
  exact path_iff_reaches

private theorem Path.ending_within (distinct : ((front ++ f :: back).map Formal.name).Nodup)
    (keys : fronts.map Prod.fst = front.map Formal.name)
    (leave : ∀ had rest,
      Path (front ++ f :: back) (between (fronts ++ [(f.name, had)]) back rest) o →
        Ending (front ++ f :: back) (requiredCount back) rest.length o)
    (room : f.arity.HasRoom got.length)
    (path : Path (front ++ f :: back) (within fronts f got back values) o) :
    Ending (front ++ f :: back) (requiredCount back + if f.arity.minimum ≤ got.length then 0 else 1)
      values.length o := by
  induction values generalizing got with
  | nil =>
    obtain rfl := path_iff_reaches.mp path
    exact .finished _
  | cons a values ih =>
    obtain ⟨states, step, members⟩ := expand_within distinct keys room a values
    rw [path_iff_reaches, step] at path
    obtain ⟨next, member, rest⟩ := path
    rw [List.length_cons]
    rcases (members next).mp member with ⟨enough, rfl⟩ | rfl | ⟨more, rfl⟩
    · rw [if_pos enough]
      exact leave got (a :: values) rest
    · refine (leave (got ++ [a]) values rest).mono fun fewer => ?_
      split <;> omega
    · refine (ih (by simpa using more) rest).mono fun fewer => ?_
      split <;> omega

/-- A value is left over only if there are more than parameters that cannot be left out. -/
theorem Path.ending (distinct : ((front ++ back).map Formal.name).Nodup)
    (rooms : ∀ g ∈ back, g.arity.HasRoom 0) (keys : fronts.map Prod.fst = front.map Formal.name)
    (path : Path (front ++ back) (between fronts back values) o) :
    Ending (front ++ back) (requiredCount back) values.length o := by
  induction back generalizing front fronts values with
  | nil =>
    cases values with
    | nil =>
      obtain rfl := path_iff_reaches.mp path
      exact .finished _
    | cons a values =>
      have all : (front ++ []).length = fronts.length := by
        simpa using (congrArg List.length keys).symm
      obtain rfl := (path_past_iff all a).mp path
      exact .leftover a (Nat.succ_pos _)
  | cons f back ih =>
    obtain ⟨here, others⟩ := List.forall_mem_cons.mp rooms
    have leave (had rest : List α)
        (later : Path (front ++ f :: back) (between (fronts ++ [(f.name, had)]) back rest) o) :
        Ending (front ++ f :: back) (requiredCount back) rest.length o := by
      rw [List.append_cons] at later distinct ⊢
      exact ih distinct others (by simp [keys]) later
    have first : Path (front ++ f :: back) (within fronts f [] back values) o := path
    have room : f.arity.HasRoom ([] : List α).length := here
    rw [requiredCount_cons]
    simpa using first.ending_within distinct keys leave room

/-- With more values than parameters that cannot be left out, a way ends with a value left over:
each of those parameters takes one value, and the others take none. -/
theorem exists_path_leftover (distinct : ((front ++ back).map Formal.name).Nodup)
    (rooms : ∀ g ∈ back, g.arity.HasRoom 0) (keys : fronts.map Prod.fst = front.map Formal.name)
    (more : requiredCount back < values.length) :
    ∃ a, Path (front ++ back) (between fronts back values) (.stray a false) := by
  induction back generalizing front fronts values with
  | nil =>
    obtain ⟨a, values, rfl⟩ := List.exists_cons_of_length_pos more
    have all : (front ++ []).length = fronts.length := by
      simpa using (congrArg List.length keys).symm
    exact ⟨a, (path_past_iff all a).mpr rfl⟩
  | cons f back ih =>
    obtain ⟨here, others⟩ := List.forall_mem_cons.mp rooms
    obtain ⟨a, values, rfl⟩ := List.exists_cons_of_length_pos (Nat.zero_lt_of_lt more)
    have room : f.arity.HasRoom ([] : List α).length := here
    obtain ⟨states, step, members⟩ := expand_within distinct keys room a values
    rw [requiredCount_cons, List.length_cons] at more
    have onward (had rest : List α) (more : requiredCount back < rest.length) :
        ∃ a, Path (front ++ f :: back) (between (fronts ++ [(f.name, had)]) back rest)
          (.stray a false) := by
      rw [List.append_cons] at distinct ⊢
      exact ih distinct others (by simp [keys]) more
    by_cases nullable : f.arity.minimum = 0
    · obtain ⟨b, rest⟩ := onward [] (a :: values) (by simpa [nullable] using more)
      have member := (members _).mpr (.inl ⟨Nat.le_of_eq nullable, rfl⟩)
      exact ⟨b, .choice step member rest⟩
    · obtain ⟨b, rest⟩ := onward [a] values (by simpa [nullable] using more)
      have member := (members _).mpr (.inr (.inl rfl))
      exact ⟨b, .choice step member rest⟩

end

private theorem eq_missing_of_finished {formals : List Formal} {taken : Assignment α}
    {good : α → Prop} (proper : (MatchState.finished formals taken).Proper good)
    (failed : ∀ slots, MatchState.finished formals taken ≠ .success slots) :
    ∃ names, MatchState.finished formals taken = .missing names := by
  cases outcome : MatchState.finished formals taken with
  | success slots => exact absurd outcome (failed slots)
  | missing names => exact ⟨names, rfl⟩
  | fault broken =>
    rw [outcome] at proper
    exact proper.elim
  | tooMany | stray | ambiguous =>
    unfold MatchState.finished at outcome
    dsimp only at outcome
    split at outcome <;> cases outcome

end Matching

private theorem matchArguments_of_no_split [BEq α] {formals : List Formal}
    (distinct : (formals.map Formal.name).Nodup)
    (accepting : ∀ f ∈ formals, f.arity.maximum ≠ some 0) {values : List α}
    (uncut : ∀ slots, ¬Split formals values slots) :
    (values.length ≤ requiredCount formals →
      ∃ names, matchArguments formals (values.map .value) = .error (.missing names)) ∧
    (requiredCount formals < values.length →
      ∃ extra, matchArguments formals (values.map .value) = .error (.tooMany extra)) := by
  have rooms : ∀ f ∈ formals, f.arity.HasRoom 0 := by
    intro f known most bounded
    refine Nat.pos_of_ne_zero ?_
    rintro rfl
    exact accepting f known bounded
  have valued := Matching.keywordsWithoutValue_values values
  have declared : ∀ name, .keyword name ∈ values.map (Argument.value (α := α)) →
      name ∈ formals.map Formal.name := by simp
  obtain ⟨o, answered, verdict⟩ := exists_verdict distinct declared valued
  have nothing : ∀ slots, ¬Matching.Path formals (Matching.start formals (values.map .value))
      (.success slots) := fun slots path =>
    uncut slots ((Matching.path_start_iff distinct rooms).mp path)
  obtain ⟨way, worst⟩ := verdict.of_failing nothing
  have proper : o.Proper fun _ => True :=
    way.proper distinct (Matching.inOrder_start (fun _ _ => trivial) declared valued)
  have ending : Matching.Ending formals (requiredCount formals) values.length o := by
    change Matching.Path ([] ++ formals) (Matching.between [] formals values) o at way
    refine Matching.Path.ending ?_ rooms ?_ way
    · exact distinct
    · rfl
  rw [answered]
  constructor
  · intro few
    cases ending with
    | leftover a more => omega
    | finished taken =>
      obtain ⟨names, lacks⟩ :=
        Matching.eq_missing_of_finished proper fun slots won => nothing slots (won ▸ way)
      exact ⟨names, congrArg Outcome.toExcept lacks⟩
  · intro more
    cases ending with
    | leftover a => exact ⟨[a], rfl⟩
    | finished taken =>
      obtain ⟨a, other⟩ : ∃ a, Matching.Path ([] ++ formals)
          (Matching.between [] formals values) (.stray a false) := by
        refine Matching.exists_path_leftover ?_ rooms ?_ more
        · exact distinct
        · rfl
      obtain ⟨names, lacks⟩ :=
        Matching.eq_missing_of_finished proper fun slots won => nothing slots (won ▸ way)
      have severe := worst _ other
      rw [lacks] at severe
      simp [Outcome.severity] at severe

/-- The mistake that is reported for values alone, if the parameters have distinct names and each
accepts a value. Where there are fewer values than the parameters need, values are missing as long
as there are no more of them than parameters that cannot be left out; with more, too many values are
reported. That never happens if no parameter needs more than one value. More values than bounded
parameters accept are too many. -/
theorem positional_failures [BEq α] {formals : List Formal}
    (distinct : (formals.map Formal.name).Nodup)
    (accepting : ∀ f ∈ formals, f.arity.maximum ≠ some 0) (values : List α) :
    (values.length < minimumTotal formals →
      (values.length ≤ requiredCount formals →
        ∃ names, matchArguments formals (values.map .value) = .error (.missing names)) ∧
      (requiredCount formals < values.length →
        ∃ extra, matchArguments formals (values.map .value) = .error (.tooMany extra))) ∧
    ((∀ f ∈ formals, f.arity.minimum ≤ 1) → values.length < minimumTotal formals →
      ∃ names, matchArguments formals (values.map .value) = .error (.missing names)) ∧
    ((∀ f ∈ formals, f.arity.maximum.isSome) → maximumTotal formals < values.length →
      ∃ extra, matchArguments formals (values.map .value) = .error (.tooMany extra)) := by
  have short (few : values.length < minimumTotal formals) :=
    matchArguments_of_no_split distinct accepting fun slots split =>
      absurd split.minimumTotal_le (Nat.not_le_of_lt few)
  refine ⟨short, fun single few => ?_, fun bounded many => ?_⟩
  · refine (short few).1 ?_
    rw [minimumTotal_eq_requiredCount single] at few
    exact Nat.le_of_lt few
  · have long := matchArguments_of_no_split distinct accepting fun slots split =>
      absurd (split.le_maximumTotal bounded) (Nat.not_le_of_lt many)
    exact long.2 (Nat.lt_of_le_of_lt (requiredCount_le_maximumTotal accepting bounded) many)

/-- Two or three values for one parameter and at most one for another: a single value is too few,
and five are too many. -/
theorem positional_failures_two :
    let formals : List Formal := [⟨"front", ⟨2, some 3, by simp⟩⟩, ⟨"back", .optional⟩]
    (formals.map Formal.name).Nodup ∧ (∀ f ∈ formals, f.arity.maximum ≠ some 0) ∧
      [1].length < minimumTotal formals ∧ [1].length ≤ requiredCount formals ∧
      (∀ f ∈ formals, f.arity.maximum.isSome) ∧ maximumTotal formals < [1, 2, 3, 4, 5].length ∧
      (∃ names, matchArguments formals ([1].map .value) = .error (.missing names)) ∧
      ∃ extra, matchArguments formals ([1, 2, 3, 4, 5].map .value) = .error (.tooMany extra) := by
  intro formals
  have distinct : (formals.map Formal.name).Nodup := by decide
  have accepting : ∀ f ∈ formals, f.arity.maximum ≠ some 0 := by decide
  have few : [1].length < minimumTotal formals := by decide
  have one : [1].length ≤ requiredCount formals := by decide
  have bounded : ∀ f ∈ formals, f.arity.maximum.isSome := by decide
  have many : maximumTotal formals < [1, 2, 3, 4, 5].length := by decide
  exact ⟨distinct, accepting, few, one, bounded, many,
    ((positional_failures distinct accepting [1]).1 few).1 one,
    (positional_failures distinct accepting [1, 2, 3, 4, 5]).2.2 bounded many⟩

/-- Two values for a parameter that needs three are reported as too many. -/
theorem positional_shortage_reported_as_excess :
    let formals : List Formal :=
      [⟨"a", ⟨3, some 3, fun _ same => Nat.le_of_eq (Option.some.inj same)⟩⟩]
    ["x", "y"].length < minimumTotal formals ∧
      matchArguments formals (["x", "y"].map .value) = .error (.tooMany ["y"]) := by
  decide +kernel

end TypedCalls
