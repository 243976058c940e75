import Mathlib.Logic.Relation
import TypedCalls.Proofs.Classes.Table

/-!
What classes show of the updates they were given.

`Ledger.diary` keeps nothing but the updates themselves, so that each copy of the classes can be held
against its own past. Whatever commands are given, pointers rise and walks along them end, only
survivors are bound, no survivor is empty, two variables compare equal when a chain of joins connects
them, and the listing shows every variable of an update once, beside those it compares equal to
(`pool_faithful_to_history`).
-/

set_option autoImplicit false

namespace TypedCalls.Classes

/-- The walk that points every second class at its grandparent and stops at a survivor, with no
bound on its length. -/
inductive Walks : Array ClassNode → Nat → Nat × Array ClassNode → Prop
  | stop {nodes : Array ClassNode} {c : Nat} : parentIn nodes c = c → Walks nodes c (c, nodes)
  | step {nodes : Array ClassNode} {c : Nat} {walked : Nat × Array ClassNode} :
      parentIn nodes c ≠ c →
      Walks (nodes.modify c fun node =>
          { node with parent := parentIn nodes (parentIn nodes c) })
        (parentIn nodes (parentIn nodes c)) walked →
      Walks nodes c walked

private theorem walks_halve (n : Nat) {nodes : Array ClassNode} (rising : Rising nodes) (c : Nat)
    (enough : nodes.size ≤ n + c) : Walks nodes c (halve n nodes c) := by
  induction n generalizing nodes c with
  | zero => exact .stop (parentIn_of_size_le (show nodes.size ≤ c by omega))
  | succ n ih =>
    by_cases fixed : parentIn nodes c = c
    · rw [halve, if_pos fixed]
      exact .stop fixed
    · have first : c ≤ parentIn nodes c := rising.le_parentIn c
      have second : parentIn nodes c ≤ parentIn nodes (parentIn nodes c) := rising.le_parentIn _
      rw [halve, if_neg fixed]
      refine .step fixed (ih (climb_skip rising fixed).1 _ ?_)
      rw [Array.size_modify]
      omega

/-- The ledger that keeps the updates themselves. -/
def Ledger.diary : Ledger (List Update) where
  blank := []
  ask _ history := (.done, history)
  change u history := history ++ [u]

def Update.mentions : Update → List TypeVar
  | .join a b => [a, b]
  | .set e _ => [e]

def Connected (history : List Update) : TypeVar → TypeVar → Prop :=
  Relation.EqvGen fun a b => .join a b ∈ history

/-- What can be read from classes that were given these updates. -/
structure Faithful (s : Classes) (history : List Update) : Prop where
  pointers : ∀ c, c < s.nodes.size → c ≤ parentIn s.nodes c ∧ parentIn s.nodes c < s.nodes.size
  walks : ∀ c, Walks s.nodes c (halve s.nodes.size s.nodes c)
  bound : ∀ c t, s.boundAt c = some t → c < s.nodes.size ∧ parentIn s.nodes c = c
  peopled : ∀ c, c < s.nodes.size → parentIn s.nodes c = c → ∃ x, s.classOf? x = some c
  compared : ∀ a b, (s.compare a b).1 = true ↔ Connected history a b
  distinct : (s.classes.1.flatMap Prod.fst).Nodup
  listed : ∀ x, x ∈ s.classes.1.flatMap Prod.fst ↔ ∃ u ∈ history, x ∈ u.mentions
  together : ∀ x ∈ s.classes.1.flatMap Prod.fst, ∀ y,
    (∃ group ∈ s.classes.1, x ∈ group.1 ∧ y ∈ group.1) ↔ (s.compare x y).1 = true

/-! The listing, by the classes of the variables. -/

section Listing

variable {s : Classes}

theorem mem_group (tidy : Tidy s) {x : TypeVar} {c : Nat} :
    x ∈ s.group c ↔ s.classOf? x = some c := by
  rw [group, List.mem_map]
  constructor
  · rintro ⟨⟨y, d⟩, member, rfl⟩
    obtain ⟨placed, here⟩ := List.mem_filter.mp member
    rw [← tidy.mem_placed_iff, ← show d = c by simpa using here]
    exact placed
  · intro found
    exact ⟨(x, c), List.mem_filter.mpr ⟨tidy.mem_placed_iff.mpr found, by simp⟩, rfl⟩

private theorem flatMap_listing (s : Classes) :
    s.listing.flatMap Prod.fst = (List.range s.nodes.size).flatMap s.group := by
  rw [listing_eq]
  induction List.range s.nodes.size with
  | nil => rfl
  | cons c rest ih =>
    by_cases empty : s.group c = []
    · rw [List.filterMap_cons, if_pos empty, List.flatMap_cons, empty, List.nil_append]
      exact ih
    · rw [List.filterMap_cons, if_neg empty, List.flatMap_cons, List.flatMap_cons, ih]

theorem mem_flatMap_listing (tidy : Tidy s) (x : TypeVar) :
    x ∈ s.listing.flatMap Prod.fst ↔ x ∈ s.mentioned := by
  simp only [flatMap_listing, List.mem_flatMap, List.mem_range, mem_group tidy]
  rw [← classOf?_isSome_iff, Option.isSome_iff_exists]
  constructor
  · rintro ⟨c, -, found⟩
    exact ⟨c, found⟩
  · rintro ⟨c, found⟩
    exact ⟨c, tidy.classOf?_lt found, found⟩

private theorem nodup_flatMap_listing (tidy : Tidy s) : (s.listing.flatMap Prod.fst).Nodup := by
  rw [flatMap_listing, List.nodup_flatMap]
  constructor
  · intro c _
    have names : (s.placed.map Prod.fst).Nodup := mentioned_eq_map_placed s ▸ tidy.distinct
    exact names.sublist (List.filter_sublist.map Prod.fst)
  · refine List.nodup_range.imp ?_
    intro c d apart x here there
    rw [mem_group tidy] at here there
    exact apart (Option.some.inj (here.symm.trans there))

private theorem exists_mem_listing_iff (tidy : Tidy s) {x : TypeVar} (listed : x ∈ s.mentioned)
    (y : TypeVar) : (∃ group ∈ s.listing, x ∈ group.1 ∧ y ∈ group.1) ↔ s.same x y = true := by
  rw [same_iff]
  constructor
  · rintro ⟨group, member, here, there⟩
    rw [listing_eq, List.mem_filterMap] at member
    obtain ⟨c, -, shown⟩ := member
    split at shown
    · cases shown
    · cases shown
      exact .inr ⟨c, (mem_group tidy).mp here, (mem_group tidy).mp there⟩
  · intro alike
    obtain ⟨c, found⟩ := Option.isSome_iff_exists.mp ((classOf?_isSome_iff s x).mpr listed)
    have here : x ∈ s.group c := (mem_group tidy).mpr found
    have there : y ∈ s.group c := by
      rcases alike with rfl | ⟨d, hx, hy⟩
      · exact here
      · rw [mem_group tidy, hy, ← hx, found]
    have shown : s.group c ≠ [] := List.ne_nil_of_mem here
    refine ⟨(s.group c, s.boundAt c), ?_, here, there⟩
    rw [listing_eq, List.mem_filterMap]
    exact ⟨c, List.mem_range.mpr (tidy.classOf?_lt found), if_neg shown⟩

end Listing

/-! Every update keeps the survivors peopled and the equalities connected. -/

def Peopled (s : Classes) : Prop :=
  ∀ c, c < s.nodes.size → parentIn s.nodes c = c → ∃ x, s.classOf? x = some c

theorem peopled_empty : Peopled empty := by
  intro c inside
  simp [empty] at inside

private theorem parentIn_eq_iff_root_eq {s : Classes} (tidy : Tidy s) (c : Nat) :
    parentIn s.nodes c = c ↔ s.root c = c := by
  refine ⟨root_of_fixed, fun survives => ?_⟩
  have fixed := tidy.parentIn_root c
  rwa [survives] at fixed

private theorem Peopled.of_alike {s t : Classes} (peopled : Peopled s) (tidy : Tidy s)
    (tidy' : Tidy t) (alike : Alike s t) : Peopled t := by
  intro c inside survives
  rw [parentIn_eq_iff_root_eq tidy', alike.root, ← parentIn_eq_iff_root_eq tidy] at survives
  rw [alike.size] at inside
  obtain ⟨x, found⟩ := peopled c inside survives
  exact ⟨x, (alike.classOf? x).trans found⟩

private theorem peopled_enter {s : Classes} {e : TypeVar} {c : Nat} (new : s.classOf? e = none)
    (fixed : parentIn s.nodes c = c)
    (others : ∀ d, d < s.nodes.size → parentIn s.nodes d = d → d ≠ c →
      ∃ x, s.classOf? x = some d) : Peopled (s.enter e c) := by
  have entered := classOf?_enter s ((classOf?_eq_none_iff s e).mp new) fixed
  intro d inside survives
  by_cases here : d = c
  · subst here
    exact ⟨e, (entered e).trans (if_pos rfl)⟩
  · obtain ⟨x, found⟩ := others d inside survives here
    have other : x ≠ e := by
      rintro rfl
      rw [new] at found
      cases found
    exact ⟨x, by rw [entered, if_neg other, found]⟩

private theorem peopled_newClass_enter {s : Classes} (tidy : Tidy s) (peopled : Peopled s)
    {e : TypeVar} (new : s.classOf? e = none) (value : Option Term) :
    Peopled ((s.newClass value).enter e s.nodes.size) := by
  obtain ⟨-, classes, -, fixed⟩ := newClass_spec tidy value
  refine peopled_enter ((classes e).trans new) fixed ?_
  intro d inside survives other
  have size : (s.newClass value).nodes.size = s.nodes.size + 1 := by simp [newClass]
  rw [parentIn_newClass] at survives
  obtain ⟨x, found⟩ := peopled d (by omega) survives
  exact ⟨x, (classes x).trans found⟩

private theorem peopled_bindAt {s : Classes} (tidy : Tidy s) (peopled : Peopled s) {e : TypeVar}
    {c : Nat}
    (found : s.classOf? e = some c) (value : Option Term) : Peopled (s.bindAt c value) := by
  obtain ⟨-, classes, -⟩ :=
    bindAt_spec tidy (tidy.classOf?_lt found) (tidy.parentIn_classOf? found) value
  intro d inside survives
  have size : (s.bindAt c value).nodes.size = s.nodes.size := by simp [bindAt]
  rw [parentIn_bindAt] at survives
  obtain ⟨x, here⟩ := peopled d (by omega) survives
  exact ⟨x, (classes x).trans here⟩

private theorem peopled_merge {s : Classes} (tidy : Tidy s) (peopled : Peopled s)
    {loser winner : Nat} (order : loser < winner) (inside : winner < s.nodes.size)
    (fixedLoser : parentIn s.nodes loser = loser) (fixedWinner : parentIn s.nodes winner = winner) :
    Peopled (s.merge loser winner) := by
  obtain ⟨-, classes, -⟩ := merge_spec tidy order inside fixedLoser fixedWinner
  intro d within survives
  have size : (s.merge loser winner).nodes.size = s.nodes.size := by simp [merge]
  rw [parentIn_merge order inside] at survives
  have survived : d ≠ loser := by
    rintro rfl
    rw [if_pos rfl] at survives
    omega
  rw [if_neg survived] at survives
  obtain ⟨x, found⟩ := peopled d (by omega) survives
  exact ⟨x, by rw [classes, found, Option.map_some, if_neg survived]⟩

theorem Peopled.set {s : Classes} (tidy : Tidy s) (peopled : Peopled s) (e : TypeVar)
    (value : Option Term) : Peopled (s.set e value) := by
  obtain ⟨-, tidy', alike⟩ := find_spec tidy e
  have peopled' := peopled.of_alike tidy tidy' alike
  rw [set_eq tidy, ← alike.classOf?]
  cases found : (s.find e).2.classOf? e with
  | none => exact peopled_newClass_enter tidy' peopled' found value
  | some c => exact peopled_bindAt tidy' peopled' found value

theorem Peopled.join {s : Classes} (tidy : Tidy s) (peopled : Peopled s) (a b : TypeVar) :
    Peopled (s.join a b) := by
  obtain ⟨t, tidy', alike, equation⟩ := join_eq tidy a b
  have peopled' := peopled.of_alike tidy tidy' alike
  have entered : ∀ {x y c}, t.classOf? x = none → t.classOf? y = some c →
      Peopled (t.enter x c) := by
    intro x y c new found
    exact peopled_enter new (tidy'.parentIn_classOf? found) fun d inside survives _ =>
      peopled' d inside survives
  rw [equation]
  cases foundA : t.classOf? a with
  | none =>
    cases foundB : t.classOf? b with
    | none =>
      have first := peopled_newClass_enter tidy' peopled' foundA none
      by_cases equal : a = b
      · simp only [if_pos equal]
        exact first
      · simp only [if_neg equal]
        obtain ⟨-, classes, -, fixed⟩ := newClass_spec tidy' none
        have newB : ((t.newClass none).enter a t.nodes.size).classOf? b = none := by
          rw [classOf?_enter (t.newClass none) ((classOf?_eq_none_iff t a).mp foundA) fixed,
            if_neg (Ne.symm equal), classes, foundB]
        exact peopled_enter newB fixed fun d inside survives _ => first d inside survives
    | some d => exact entered foundA foundB
  | some c =>
    cases foundB : t.classOf? b with
    | none => exact entered foundB foundA
    | some d =>
      by_cases equal : c = d
      · simp only [if_pos equal]
        exact peopled'
      · simp only [if_neg equal]
        have insideA := tidy'.classOf?_lt foundA
        have insideB := tidy'.classOf?_lt foundB
        have fixed : ∀ e, e = c ∨ e = d → parentIn t.nodes e = e := by
          rintro e (rfl | rfl)
          · exact tidy'.parentIn_classOf? foundA
          · exact tidy'.parentIn_classOf? foundB
        exact peopled_merge tidy' peopled' (by omega) (by omega) (fixed _ (by omega))
          (fixed _ (by omega))

/-- The facts about classes and their past that every command keeps. -/
structure Remembers (s : Classes) (history : List Update) : Prop where
  tidy : Tidy s
  peopled : Peopled s
  connected : ∀ a b, s.same a b = true ↔ Connected history a b
  mentioned : ∀ x, x ∈ s.mentioned ↔ ∃ u ∈ history, x ∈ u.mentions

private theorem remembers_empty : Remembers empty [] where
  tidy := tidy_empty
  peopled := peopled_empty
  connected := by
    intro a b
    constructor
    · intro same
      rcases (same_iff empty a b).mp same with rfl | ⟨c, found, -⟩
      · exact .refl a
      · cases found
    · intro connected
      induction connected with
      | rel a b joined => cases joined
      | refl a => exact same_self empty a
      | symm a b _ ih => exact same_symm ih
      | trans a b c _ _ ab bc => exact same_trans ab bc
  mentioned := by simp [Classes.mentioned, empty]

private theorem Remembers.of_alike {s s' : Classes} {history : List Update}
    (remembers : Remembers s history) (tidy : Tidy s') (alike : Alike s s') :
    Remembers s' history where
  tidy := tidy
  peopled := remembers.peopled.of_alike remembers.tidy tidy alike
  connected := by
    intro a b
    rw [alike.same]
    exact remembers.connected a b
  mentioned := by
    intro x
    rw [alike.mentioned]
    exact remembers.mentioned x

private theorem Connected.mono {history later : List Update} (sub : history ⊆ later) {a b : TypeVar}
    (connected : Connected history a b) : Connected later a b :=
  Relation.EqvGen.mono (fun _ _ joined => sub joined) a b connected

private theorem connected_append_set {history : List Update} {e : TypeVar} {value : Option Term} :
    Connected (history ++ [.set e value]) = Connected history := by
  simp [Connected]

private theorem Remembers.set {s : Classes} {history : List Update}
    (remembers : Remembers s history) (e : TypeVar) (value : Option Term) :
    Remembers (s.set e value) (history ++ [.set e value]) := by
  obtain ⟨tidy, same, -, mention⟩ := set_spec remembers.tidy e value
  refine ⟨tidy, remembers.peopled.set remembers.tidy e value, fun a b => ?_, fun x => ?_⟩
  · rw [same, connected_append_set]
    exact remembers.connected a b
  · rw [mention, remembers.mentioned]
    simp [or_and_right, exists_or, Update.mentions]

private theorem Remembers.join {s : Classes} {history : List Update}
    (remembers : Remembers s history)
    (a b : TypeVar) : Remembers (s.join a b) (history ++ [.join a b]) := by
  obtain ⟨m, value, joined, -⟩ := joined_join remembers.tidy a b
  have earlier : ∀ {x y}, s.same x y = true → Connected (history ++ [.join a b]) x y := by
    intro x y same
    exact ((remembers.connected x y).mp same).mono (List.subset_append_left _ _)
  have latest : Connected (history ++ [.join a b]) a b := .rel a b (by simp)
  refine ⟨joined.tidy, remembers.peopled.join remembers.tidy a b, fun x y => ⟨?_, ?_⟩, fun x => ?_⟩
  · intro same
    rcases (joined.same x y).mp same with old | ⟨xa, yb⟩ | ⟨xb, ya⟩
    · exact earlier old
    · exact .trans _ _ _ (earlier xa) (.trans _ _ _ latest (earlier (same_symm yb)))
    · exact .trans _ _ _ (earlier xb)
        (.trans _ _ _ (.symm _ _ latest) (earlier (same_symm ya)))
  · intro connected
    induction connected with
    | rel x y pair =>
      rw [joined.same]
      rcases List.mem_append.mp pair with old | last
      · exact .inl ((remembers.connected x y).mpr (.rel x y old))
      · cases List.mem_singleton.mp last
        exact .inr (.inl ⟨same_self s a, same_self s b⟩)
    | refl x => exact same_self _ x
    | symm x y _ ih => exact same_symm ih
    | trans x y z _ _ xy yz => exact same_trans xy yz
  · rw [joined.mention, remembers.mentioned]
    simp [or_and_right, exists_or, Update.mentions]

private theorem related_diary : Ledger.Related .halving .diary Remembers where
  blank := remembers_empty
  ask := by
    intro q s history remembers
    obtain ⟨-, tidy', alike⟩ := ask_halving remembers.tidy q
    exact remembers.of_alike tidy' alike
  change := by
    intro u s history remembers
    cases u with
    | join a b => exact remembers.join a b
    | set e value => exact remembers.set e value

theorem lt_size_of_boundAt {s : Classes} {c : Nat} {t : Term} (bound : s.boundAt c = some t) :
    c < s.nodes.size := by
  by_contra outside
  rw [boundAt, Array.getElem?_eq_none (by omega)] at bound
  cases bound

private theorem Remembers.faithful {s : Classes} {history : List Update}
    (remembers : Remembers s history) : Faithful s history := by
  obtain ⟨tidy, peopled, connected, mentioned⟩ := remembers
  have listing := (classes_spec tidy).1
  refine ⟨tidy.rising, fun c => walks_halve _ tidy.rising c (by omega), fun c t bound => ?_,
    peopled, fun a b => ?_, ?_, fun x => ?_, fun x listed y => ?_⟩
  · exact ⟨lt_size_of_boundAt bound, tidy.survivor c t bound⟩
  · rw [compare_fst tidy]
    exact connected a b
  · rw [listing]
    exact nodup_flatMap_listing tidy
  · rw [listing, mem_flatMap_listing tidy]
    exact mentioned x
  · rw [listing] at listed ⊢
    rw [compare_fst tidy]
    exact exists_mem_listing_iff tidy ((mem_flatMap_listing tidy x).mp listed) y

/-- Along every script, each copy of the classes is faithful to the updates it was given and to those
its original was given before it was copied. -/
theorem pool_faithful_to_history (script : List Command) :
    List.Forall₂ Faithful (Ledger.halving.pool script) (Ledger.diary.pool script) :=
  (Ledger.related_pool related_diary script).imp fun _ _ => Remembers.faithful

end TypedCalls.Classes
