import Mathlib.Data.List.Nodup
import TypedCalls.Proofs.Classes.Roots

/-!
What the operations on classes do to the answers that classes give.

`Tidy` holds of no classes at all and is kept by `find`, `set` and `join`. Looking a variable up
changes no answer (`find_spec`). Binding a variable binds its class and nothing else (`set_spec`), and
joining two variables adds exactly the equalities that follow from theirs (`join_spec`).
-/

set_option autoImplicit false

namespace TypedCalls.Classes

/-- Pointers rise, every variable is entered once and in a class that exists, and only surviving
classes are bound. -/
structure Tidy (s : Classes) : Prop where
  rising : Rising s.nodes
  inside : ∀ entry ∈ s.entries, entry.2 < s.nodes.size
  distinct : s.mentioned.Nodup
  survivor : ∀ c t, s.boundAt c = some t → parentIn s.nodes c = c

/-- The second classes give every answer that the first give. -/
structure Alike (s s' : Classes) : Prop where
  size : s'.nodes.size = s.nodes.size
  root : ∀ c, s'.root c = s.root c
  placed : s'.placed = s.placed
  boundAt : ∀ c, s'.boundAt c = s.boundAt c

theorem Alike.refl (s : Classes) : Alike s s := ⟨rfl, fun _ => rfl, rfl, fun _ => rfl⟩

theorem Alike.trans {s s' s'' : Classes} (first : Alike s s') (second : Alike s' s'') :
    Alike s s'' :=
  ⟨second.size.trans first.size, fun c => (second.root c).trans (first.root c),
    second.placed.trans first.placed, fun c => (second.boundAt c).trans (first.boundAt c)⟩

theorem tidy_empty : Tidy empty where
  rising := by simp [Rising, empty]
  inside := by simp [empty]
  distinct := by simp [mentioned, empty]
  survivor := by simp [boundAt, empty]

private theorem lookup_map_snd (f : Nat → Nat) (e : TypeVar) (entries : List (TypeVar × Nat)) :
    (entries.map fun entry => (entry.1, f entry.2)).lookup e = (entries.lookup e).map f := by
  induction entries with
  | nil => rfl
  | cons entry rest ih =>
    obtain ⟨x, c⟩ := entry
    simp only [List.map_cons, List.lookup_cons]
    cases e == x with
    | true => rfl
    | false => exact ih

theorem classOf?_eq_lookup (s : Classes) (e : TypeVar) : s.classOf? e = s.placed.lookup e := by
  rw [classOf?, entry?, placed, lookup_map_snd]

theorem mentioned_eq_map_placed (s : Classes) : s.mentioned = s.placed.map Prod.fst := by
  simp [mentioned, placed, Function.comp_def]

theorem Alike.classOf? {s s' : Classes} (alike : Alike s s') (e : TypeVar) :
    s'.classOf? e = s.classOf? e := by
  rw [classOf?_eq_lookup, classOf?_eq_lookup, alike.placed]

theorem Alike.mentioned {s s' : Classes} (alike : Alike s s') : s'.mentioned = s.mentioned := by
  rw [mentioned_eq_map_placed, mentioned_eq_map_placed, alike.placed]

private theorem Tidy.entry_mem {s : Classes} {e : TypeVar} {c : Nat} (found : s.entry? e = some c) :
    (e, c) ∈ s.entries := by
  obtain ⟨before, after, split, _⟩ := List.lookup_eq_some_iff.mp found
  rw [split]
  simp

theorem Tidy.classOf?_lt {s : Classes} (tidy : Tidy s) {e : TypeVar} {c : Nat}
    (found : s.classOf? e = some c) : c < s.nodes.size := by
  obtain ⟨d, entry, rfl⟩ := Option.map_eq_some_iff.mp found
  exact climb_lt_size tidy.rising _ (tidy.inside _ (Tidy.entry_mem entry))

theorem Tidy.parentIn_root {s : Classes} (tidy : Tidy s) (c : Nat) :
    parentIn s.nodes (s.root c) = s.root c :=
  parentIn_climb tidy.rising _ c (by omega)

theorem Tidy.parentIn_classOf? {s : Classes} (tidy : Tidy s) {e : TypeVar} {c : Nat}
    (found : s.classOf? e = some c) : parentIn s.nodes c = c := by
  obtain ⟨d, -, rfl⟩ := Option.map_eq_some_iff.mp found
  exact tidy.parentIn_root d

theorem root_of_fixed {s : Classes} {c : Nat} (fixed : parentIn s.nodes c = c) : s.root c = c :=
  climb_of_fixed fixed _

theorem classOf?_isSome_iff (s : Classes) (e : TypeVar) :
    (s.classOf? e).isSome ↔ e ∈ s.mentioned := by
  simp only [classOf?, Option.isSome_map, entry?, mentioned, List.lookup_isSome_iff,
    List.mem_map, beq_iff_eq]
  constructor
  · rintro ⟨entry, member, rfl⟩
    exact ⟨entry, member, rfl⟩
  · rintro ⟨entry, member, rfl⟩
    exact ⟨entry, member, rfl⟩

theorem classOf?_eq_none_iff (s : Classes) (e : TypeVar) :
    s.classOf? e = none ↔ e ∉ s.mentioned := by
  rw [← classOf?_isSome_iff, Option.not_isSome_iff_eq_none]

theorem Tidy.mem_placed_iff {s : Classes} (tidy : Tidy s) {x : TypeVar} {c : Nat} :
    (x, c) ∈ s.placed ↔ s.classOf? x = some c := by
  have distinct : (s.placed.map Prod.fst).Nodup := mentioned_eq_map_placed s ▸ tidy.distinct
  have listed : ∀ {d}, s.placed.lookup x = some d → (x, d) ∈ s.placed := by
    intro d found
    obtain ⟨before, after, split, -⟩ := List.lookup_eq_some_iff.mp found
    rw [split]
    simp
  rw [classOf?_eq_lookup]
  refine ⟨fun member => ?_, listed⟩
  cases found : s.placed.lookup x with
  | none => simpa using List.lookup_eq_none_iff.mp found (x, c) member
  | some d =>
    have equal := List.inj_on_of_nodup_map distinct (listed found) member rfl
    cases equal
    rfl

private theorem placed_relabel {s : Classes} (distinct : s.mentioned.Nodup) {e : TypeVar} {c : Nat}
    (found : s.entry? e = some c) {f : Nat → Nat} {r : Nat} (reads : f r = f c) :
    ((relabel s.entries e r).map fun entry => (entry.1, f entry.2)) =
      s.entries.map fun entry => (entry.1, f entry.2) := by
  rw [relabel, List.map_map]
  apply List.map_congr_left
  intro entry member
  by_cases here : entry.1 = e
  · have only : entry = (e, c) := List.inj_on_of_nodup_map distinct member (Tidy.entry_mem found) here
    simp [only, reads]
  · simp [here]

theorem find_spec {s : Classes} (tidy : Tidy s) (e : TypeVar) :
    (s.find e).1 = s.classOf? e ∧ Tidy (s.find e).2 ∧ Alike s (s.find e).2 := by
  cases found : s.entry? e with
  | none => simp [find, classOf?, found, tidy, Alike.refl]
  | some c =>
    have halved := halve_spec s.nodes.size tidy.rising c (by omega)
    generalize walk : halve s.nodes.size s.nodes c = walked at halved
    have roots : ∀ d, climb walked.2 walked.2.size d = climb s.nodes s.nodes.size d := by
      intro d
      rw [halved.size, halved.climb]
    have twice : climb s.nodes s.nodes.size walked.1 = climb s.nodes s.nodes.size c := by
      rw [halved.survivor]
      exact climb_of_fixed (parentIn_climb tidy.rising _ c (by omega)) _
    have entries : ∀ list, (list = s.entries ∨ list = relabel s.entries e walked.1) →
        list.map Prod.fst = s.entries.map Prod.fst ∧
          (list.map fun entry => (entry.1, s.root entry.2)) = s.placed := by
      rintro list (rfl | rfl)
      · exact ⟨rfl, rfl⟩
      · refine ⟨?_, placed_relabel tidy.distinct found twice⟩
        rw [relabel, List.map_map]
        apply List.map_congr_left
        intro entry _
        by_cases here : entry.1 = e <;> simp [here]
    have answer : s.find e = (some walked.1,
        { entries := if walked.1 = c then s.entries else relabel s.entries e walked.1
          nodes := walked.2 }) := by
      simp [find, found, walk]
    rw [answer]
    generalize made : (if walked.1 = c then s.entries else relabel s.entries e walked.1) = list
    have which : list = s.entries ∨ list = relabel s.entries e walked.1 := by
      rw [← made]
      split <;> simp
    obtain ⟨names, places⟩ := entries list which
    refine ⟨?_, ⟨halved.rising, ?_, ?_, ?_⟩, ⟨halved.size, roots, ?_, halved.bound _⟩⟩
    · simp [classOf?, found, root, halved.survivor]
    · intro entry member
      rw [halved.size]
      rcases which with rfl | rfl
      · exact tidy.inside entry member
      · obtain ⟨old, oldMember, rfl⟩ := List.mem_map.mp member
        split
        · rw [halved.survivor]
          exact climb_lt_size tidy.rising _ (tidy.inside _ (Tidy.entry_mem found))
        · exact tidy.inside old oldMember
    · rw [Classes.mentioned, names]
      exact tidy.distinct
    · intro d t bound
      rw [halved.parent]
      exact tidy.survivor d t ((halved.bound _ d).symm.trans bound)
    · rw [Classes.placed]
      simp only [root, roots]
      exact places

theorem same_iff (s : Classes) (a b : TypeVar) :
    s.same a b = true ↔ a = b ∨ ∃ c, s.classOf? a = some c ∧ s.classOf? b = some c := by
  simp [same, Option.any_eq_true]

theorem same_self (s : Classes) (a : TypeVar) : s.same a a = true := by simp [same]

theorem same_symm {s : Classes} {a b : TypeVar} (h : s.same a b = true) : s.same b a = true := by
  rw [same_iff] at h ⊢
  rcases h with rfl | ⟨c, ha, hb⟩
  · exact .inl rfl
  · exact .inr ⟨c, hb, ha⟩

theorem same_trans {s : Classes} {a b c : TypeVar} (ab : s.same a b = true)
    (bc : s.same b c = true) : s.same a c = true := by
  rw [same_iff] at ab bc ⊢
  rcases ab with rfl | ⟨n, ha, hb⟩
  · exact bc
  · rcases bc with rfl | ⟨m, hb', hc⟩
    · exact .inr ⟨n, ha, hb⟩
    · have : n = m := Option.some.inj (hb.symm.trans hb')
      subst this
      exact .inr ⟨n, ha, hc⟩

theorem bound?_eq_bind (s : Classes) (e : TypeVar) :
    s.bound? e = (s.classOf? e).bind s.boundAt := by
  cases found : s.classOf? e <;> simp [bound?, found]

theorem bound?_of_same {s : Classes} {a b : TypeVar} (h : s.same a b = true) :
    s.bound? a = s.bound? b := by
  rcases (same_iff s a b).mp h with rfl | ⟨c, ha, hb⟩
  · rfl
  · rw [bound?_eq_bind, bound?_eq_bind, ha, hb]

theorem same_empty {x y : TypeVar} : empty.same x y = true ↔ x = y := by
  rw [same_iff]
  refine or_iff_left ?_
  rintro ⟨c, found, -⟩
  simp [classOf?, entry?, empty] at found

theorem bound?_empty (x : TypeVar) : empty.bound? x = none := by
  simp [bound?, classOf?, entry?, empty]

theorem Alike.same {s s' : Classes} (alike : Alike s s') (a b : TypeVar) :
    s'.same a b = s.same a b := by
  simp [Classes.same, alike.classOf?]

private theorem Alike.bound? {s s' : Classes} (alike : Alike s s') (e : TypeVar) :
    s'.bound? e = s.bound? e := by
  rw [bound?_eq_bind, bound?_eq_bind, alike.classOf?]
  cases s.classOf? e with
  | none => rfl
  | some c => exact alike.boundAt c

theorem get_fst {s : Classes} (tidy : Tidy s) (e : TypeVar) : (s.get e).1 = s.bound? e := by
  obtain ⟨answer, -, alike⟩ := find_spec tidy e
  rw [get, bound?_eq_bind, answer]
  cases s.classOf? e with
  | none => rfl
  | some c => exact alike.boundAt c

theorem compare_fst {s : Classes} (tidy : Tidy s) (a b : TypeVar) :
    (s.compare a b).1 = s.same a b := by
  by_cases equal : a = b
  · simp [compare, same, equal]
  · obtain ⟨first, tidy', alike⟩ := find_spec tidy a
    obtain ⟨second, -, -⟩ := find_spec tidy' b
    rw [alike.classOf?] at second
    simp only [compare, equal, if_false, first, second, same]
    cases s.classOf? a with
    | none => simp [equal]
    | some c =>
      have unequal : (a == b) = false := by simpa using equal
      rw [unequal, Option.isSome_some, Bool.true_and, Option.any_some, Bool.false_or,
        Bool.eq_iff_iff, beq_iff_eq, beq_iff_eq]
      exact eq_comm

/-! Making a class, entering a variable, binding a class and merging two classes. -/

private theorem mem_mentioned_enter (s : Classes) (e : TypeVar) (c : Nat) (x : TypeVar) :
    x ∈ (s.enter e c).mentioned ↔ x ∈ s.mentioned ∨ x = e := by
  simp [enter, mentioned]

theorem Tidy.enter {s : Classes} (tidy : Tidy s) {e : TypeVar} {c : Nat}
    (new : e ∉ s.mentioned) (inside : c < s.nodes.size) : Tidy (s.enter e c) where
  rising := tidy.rising
  inside := by
    intro entry member
    rcases List.mem_append.mp member with old | here
    · exact tidy.inside entry old
    · rw [List.mem_singleton.mp here]
      exact inside
  distinct := by
    have names : (s.enter e c).mentioned = s.mentioned ++ [e] := by
      simp [Classes.enter, mentioned]
    rw [names]
    refine List.nodup_append.mpr ⟨tidy.distinct, by simp, ?_⟩
    intro x hx y hy equal
    rw [List.mem_singleton.mp hy] at equal
    exact new (equal ▸ hx)
  survivor := tidy.survivor

theorem placed_enter (s : Classes) (e : TypeVar) {c : Nat} (fixed : parentIn s.nodes c = c) :
    (s.enter e c).placed = s.placed ++ [(e, c)] := by
  have old : (s.enter e c).placed = (s.entries ++ [(e, c)]).map fun entry =>
      (entry.1, s.root entry.2) := rfl
  rw [old, List.map_append, List.map_cons, root_of_fixed fixed]
  rfl

theorem classOf?_enter (s : Classes) {e : TypeVar} {c : Nat} (new : e ∉ s.mentioned)
    (fixed : parentIn s.nodes c = c) (x : TypeVar) :
    (s.enter e c).classOf? x = if x = e then some c else s.classOf? x := by
  rw [classOf?_eq_lookup, placed_enter s e fixed, List.lookup_append, ← classOf?_eq_lookup]
  by_cases here : x = e
  · subst here
    rw [(classOf?_eq_none_iff s x).mpr new]
    simp
  · have other : (x == e) = false := by simpa using here
    rw [if_neg here, List.lookup_cons, other, List.lookup_nil, Option.or_none]

private theorem Tidy.moved {s s' : Classes} (tidy : Tidy s) (entries : s'.entries = s.entries)
    (grows : s.nodes.size ≤ s'.nodes.size) (rising : Rising s'.nodes)
    (survivor : ∀ c t, s'.boundAt c = some t → parentIn s'.nodes c = c) (move : Nat → Nat)
    (roots : ∀ c, s'.root c = move (s.root c)) :
    Tidy s' ∧ ∀ x, s'.classOf? x = (s.classOf? x).map move := by
  refine ⟨⟨rising, ?_, ?_, survivor⟩, fun x => ?_⟩
  · intro entry member
    rw [entries] at member
    have old := tidy.inside entry member
    omega
  · rw [mentioned, entries]
    exact tidy.distinct
  · rw [classOf?, classOf?, entry?, entries, ← entry?, Option.map_map]
    cases s.entry? x with
    | none => rfl
    | some c => exact congrArg some (roots c)

private theorem Tidy.of_pointers {s s' : Classes} (tidy : Tidy s) (entries : s'.entries = s.entries)
    (grows : s.nodes.size ≤ s'.nodes.size) (rising : Rising s'.nodes)
    (pointers : ∀ c, parentIn s'.nodes c = parentIn s.nodes c)
    (survivor : ∀ c t, s'.boundAt c = some t → parentIn s.nodes c = c) :
    Tidy s' ∧ ∀ x, s'.classOf? x = s.classOf? x := by
  have roots : ∀ c, s'.root c = id (s.root c) := by
    refine climb_unique rising s.root (fun c fixed => ?_) (fun c => ?_)
    · rw [pointers] at fixed
      exact root_of_fixed fixed
    · rw [pointers]
      exact climb_parentIn tidy.rising c
  obtain ⟨still, classes⟩ := tidy.moved entries grows rising
    (fun c t bound => (pointers c).trans (survivor c t bound)) id roots
  refine ⟨still, fun x => ?_⟩
  rw [classes, Option.map_id]
  rfl

/-- What putting an item at the end of an array has to do: the item takes the next index, and all
else stays in its place. -/
structure Allocated {α : Type} (items : Array α) (item : α) (items' : Array α) : Prop where
  size : items'.size = items.size + 1
  get : ∀ i, items'[i]? = if i = items.size then some item else items[i]?

private theorem allocated_push {α : Type} (items : Array α) (item : α) :
    Allocated items item (items.push item) :=
  ⟨Array.size_push item, fun _ => Array.getElem?_push⟩

section Allocation

variable {s s' : Classes} {value : Option Term}

private theorem parentIn_of_allocated (made : Allocated s.nodes ⟨s.nodes.size, value⟩ s'.nodes)
    (c : Nat) : parentIn s'.nodes c = parentIn s.nodes c := by
  simp only [parentIn, made.get]
  by_cases last : c = s.nodes.size
  · simp [last]
  · simp [last]

private theorem boundAt_of_allocated (made : Allocated s.nodes ⟨s.nodes.size, value⟩ s'.nodes)
    (c : Nat) : s'.boundAt c = if c = s.nodes.size then value else s.boundAt c := by
  simp only [boundAt, made.get]
  by_cases last : c = s.nodes.size
  · simp [last]
  · simp [last]

private theorem spec_of_allocated (tidy : Tidy s) (entries : s'.entries = s.entries)
    (made : Allocated s.nodes ⟨s.nodes.size, value⟩ s'.nodes) :
    Tidy s' ∧ (∀ x, s'.classOf? x = s.classOf? x) ∧
      (∀ c, s'.boundAt c = if c = s.nodes.size then value else s.boundAt c) ∧
      parentIn s'.nodes s.nodes.size = s.nodes.size := by
  have pointers := parentIn_of_allocated made
  have bounds := boundAt_of_allocated made
  have size := made.size
  have rising : Rising s'.nodes := by
    intro c hc
    rw [size] at hc ⊢
    rw [pointers]
    by_cases last : c = s.nodes.size
    · rw [parentIn_of_size_le (by omega)]
      omega
    · have := tidy.rising c (by omega)
      omega
  have survivor : ∀ c t, s'.boundAt c = some t → parentIn s.nodes c = c := by
    intro c t bound
    rw [bounds] at bound
    split at bound
    · exact parentIn_of_size_le (by omega)
    · exact tidy.survivor c t bound
  obtain ⟨still, classes⟩ := tidy.of_pointers entries (by omega) rising pointers survivor
  refine ⟨still, classes, bounds, ?_⟩
  rw [pointers, parentIn_of_size_le (by omega)]

theorem parentIn_newClass (s : Classes) (value : Option Term) (c : Nat) :
    parentIn (s.newClass value).nodes c = parentIn s.nodes c :=
  parentIn_of_allocated (allocated_push s.nodes _) c

theorem newClass_spec (tidy : Tidy s) (value : Option Term) :
    Tidy (s.newClass value) ∧ (∀ x, (s.newClass value).classOf? x = s.classOf? x) ∧
      (∀ c, (s.newClass value).boundAt c = if c = s.nodes.size then value else s.boundAt c) ∧
      parentIn (s.newClass value).nodes s.nodes.size = s.nodes.size :=
  spec_of_allocated tidy rfl (allocated_push s.nodes _)

end Allocation

theorem parentIn_bindAt (s : Classes) (c : Nat) (value : Option Term) (d : Nat) :
    parentIn (s.bindAt c value).nodes d = parentIn s.nodes d := by
  simp only [parentIn, bindAt, Array.getElem?_modify]
  by_cases here : c = d
  · subst here
    cases s.nodes[c]? with
    | none => simp
    | some node => simp
  · rw [if_neg here]

theorem bindAt_spec {s : Classes} (tidy : Tidy s) {c : Nat} (inside : c < s.nodes.size)
    (fixed : parentIn s.nodes c = c) (value : Option Term) :
    Tidy (s.bindAt c value) ∧ (∀ x, (s.bindAt c value).classOf? x = s.classOf? x) ∧
      ∀ d, (s.bindAt c value).boundAt d = if d = c then value else s.boundAt d := by
  have pointers := parentIn_bindAt s c value
  have bounds : ∀ d, (s.bindAt c value).boundAt d = if d = c then value else s.boundAt d := by
    intro d
    simp only [boundAt, bindAt, Array.getElem?_modify]
    by_cases here : c = d
    · subst here
      rw [if_pos rfl, if_pos rfl, Array.getElem?_eq_getElem inside]
      rfl
    · rw [if_neg here, if_neg (Ne.symm here)]
  have size : (s.bindAt c value).nodes.size = s.nodes.size := by simp [bindAt]
  have rising : Rising (s.bindAt c value).nodes := by
    intro d hd
    rw [size] at hd ⊢
    rw [pointers]
    exact tidy.rising d hd
  have survivor : ∀ d t, (s.bindAt c value).boundAt d = some t → parentIn s.nodes d = d := by
    intro d t bound
    rw [bounds] at bound
    split at bound
    · next here => rw [here, fixed]
    · exact tidy.survivor d t bound
  have entries : (s.bindAt c value).entries = s.entries := rfl
  obtain ⟨still, classes⟩ := tidy.of_pointers entries (by omega) rising pointers survivor
  exact ⟨still, classes, bounds⟩

section Merging

variable {s : Classes} {loser winner : Nat}

private theorem getElem?_merge (order : loser < winner) (d : Nat) :
    (s.merge loser winner).nodes[d]? =
      if d = winner then
        s.nodes[d]?.map fun node =>
          { node with bound := (s.boundAt winner).or (s.boundAt loser) }
      else if d = loser then s.nodes[d]?.map fun _ => ⟨winner, none⟩
      else s.nodes[d]? := by
  simp only [merge, Array.getElem?_modify]
  by_cases atWinner : d = winner
  · subst atWinner
    rw [if_pos rfl, if_pos rfl, if_neg (by omega)]
  · rw [if_neg (Ne.symm atWinner), if_neg atWinner]
    by_cases atLoser : d = loser
    · subst atLoser
      simp
    · rw [if_neg (Ne.symm atLoser), if_neg atLoser]

theorem parentIn_merge (order : loser < winner) (inside : winner < s.nodes.size) (d : Nat) :
    parentIn (s.merge loser winner).nodes d =
      if d = loser then winner else parentIn s.nodes d := by
  simp only [parentIn, getElem?_merge order]
  by_cases atWinner : d = winner
  · subst atWinner
    rw [if_pos rfl, if_neg (by omega), Array.getElem?_eq_getElem inside]
    rfl
  · rw [if_neg atWinner]
    by_cases atLoser : d = loser
    · subst atLoser
      rw [if_pos rfl, if_pos rfl, Array.getElem?_eq_getElem (by omega)]
      rfl
    · rw [if_neg atLoser, if_neg atLoser]

private theorem boundAt_merge (order : loser < winner) (inside : winner < s.nodes.size) (d : Nat) :
    (s.merge loser winner).boundAt d =
      if d = winner then (s.boundAt winner).or (s.boundAt loser)
      else if d = loser then none else s.boundAt d := by
  simp only [boundAt, getElem?_merge order]
  by_cases atWinner : d = winner
  · subst atWinner
    rw [if_pos rfl, if_pos rfl, Array.getElem?_eq_getElem inside]
    rfl
  · rw [if_neg atWinner, if_neg atWinner]
    by_cases atLoser : d = loser
    · subst atLoser
      rw [if_pos rfl, if_pos rfl, Array.getElem?_eq_getElem (by omega)]
      rfl
    · rw [if_neg atLoser, if_neg atLoser]

private theorem root_merge (tidy : Tidy s) (order : loser < winner) (inside : winner < s.nodes.size)
    (fixedLoser : parentIn s.nodes loser = loser) (fixedWinner : parentIn s.nodes winner = winner)
    (rising : Rising (s.merge loser winner).nodes) (d : Nat) :
    (s.merge loser winner).root d = if s.root d = loser then winner else s.root d := by
  refine climb_unique rising (fun d => if s.root d = loser then winner else s.root d)
    (fun d same => ?_) (fun d => ?_) d
  · rw [parentIn_merge order inside] at same
    by_cases atLoser : d = loser
    · rw [if_pos atLoser] at same
      omega
    · rw [if_neg atLoser] at same
      simp [root_of_fixed same, atLoser]
  · rw [parentIn_merge order inside]
    by_cases atLoser : d = loser
    · subst atLoser
      have ne : winner ≠ d := by omega
      simp [root_of_fixed fixedLoser, root_of_fixed fixedWinner, ne]
    · rw [if_neg atLoser]
      have step : s.root (parentIn s.nodes d) = s.root d := climb_parentIn tidy.rising d
      simp only [step]

theorem merge_spec (tidy : Tidy s) (order : loser < winner)
    (inside : winner < s.nodes.size) (fixedLoser : parentIn s.nodes loser = loser)
    (fixedWinner : parentIn s.nodes winner = winner) :
    Tidy (s.merge loser winner) ∧
      (∀ x, (s.merge loser winner).classOf? x =
        (s.classOf? x).map fun c => if c = loser then winner else c) ∧
      ∀ d, (s.merge loser winner).boundAt d =
        if d = winner then (s.boundAt winner).or (s.boundAt loser)
        else if d = loser then none else s.boundAt d := by
  have size : (s.merge loser winner).nodes.size = s.nodes.size := by simp [merge]
  have rising : Rising (s.merge loser winner).nodes := by
    intro d hd
    rw [size] at hd ⊢
    rw [parentIn_merge order inside]
    split
    · omega
    · exact tidy.rising d hd
  have survivor : ∀ d t, (s.merge loser winner).boundAt d = some t →
      parentIn (s.merge loser winner).nodes d = d := by
    intro d t bound
    rw [parentIn_merge order inside]
    rw [boundAt_merge order inside] at bound
    by_cases atWinner : d = winner
    · subst atWinner
      rw [if_neg (by omega), fixedWinner]
    · rw [if_neg atWinner] at bound
      by_cases atLoser : d = loser
      · rw [if_pos atLoser] at bound
        cases bound
      · rw [if_neg atLoser] at bound ⊢
        exact tidy.survivor d t bound
  have entries : (s.merge loser winner).entries = s.entries := rfl
  obtain ⟨still, classes⟩ := tidy.moved entries (by omega) rising survivor
    (fun c => if c = loser then winner else c)
    (root_merge tidy order inside fixedLoser fixedWinner rising)
  exact ⟨still, classes, boundAt_merge order inside⟩

end Merging

/-! Binding a variable and joining two variables. -/

private theorem set_of_new {s : Classes} (tidy : Tidy s) {e : TypeVar} (new : e ∉ s.mentioned)
    (value : Option Term) :
    Tidy ((s.newClass value).enter e s.nodes.size) ∧
      (∀ x, ((s.newClass value).enter e s.nodes.size).classOf? x =
        if x = e then some s.nodes.size else s.classOf? x) ∧
      ∀ x, ((s.newClass value).enter e s.nodes.size).bound? x =
        if x = e then value else s.bound? x := by
  obtain ⟨made, classes, bounds, fixed⟩ := newClass_spec tidy value
  have size : (s.newClass value).nodes.size = s.nodes.size + 1 := by simp [newClass]
  have entered : ∀ x, ((s.newClass value).enter e s.nodes.size).classOf? x =
      if x = e then some s.nodes.size else s.classOf? x := by
    intro x
    rw [classOf?_enter (s.newClass value) new fixed, classes]
  refine ⟨made.enter new (by omega), entered, fun x => ?_⟩
  have sameBounds : ((s.newClass value).enter e s.nodes.size).boundAt =
      (s.newClass value).boundAt := rfl
  rw [bound?_eq_bind, entered, sameBounds]
  by_cases here : x = e
  · simp [here, bounds]
  · rw [if_neg here, if_neg here, bound?_eq_bind]
    cases found : s.classOf? x with
    | none => rfl
    | some c =>
      have inside : c < s.nodes.size := tidy.classOf?_lt found
      simp only [Option.bind_some, bounds]
      rw [if_neg (by omega)]

private theorem same_iff_of_found {t : Classes} {a : TypeVar} {c : Nat}
    (found : t.classOf? a = some c) (x : TypeVar) :
    t.same x a = true ↔ t.classOf? x = some c := by
  rw [same_iff, found]
  constructor
  · rintro (rfl | ⟨d, hx, hd⟩)
    · exact found
    · rw [hx, hd]
  · intro hx
    exact .inr ⟨c, hx, rfl⟩

private theorem same_iff_of_new {t : Classes} {a : TypeVar} (new : t.classOf? a = none)
    (x : TypeVar) : t.same x a = true ↔ x = a := by
  rw [same_iff, new]
  simp

private theorem mem_mentioned_of_found {t : Classes} {a : TypeVar} {c : Nat}
    (found : t.classOf? a = some c) : a ∈ t.mentioned := by
  rw [← classOf?_isSome_iff, found]
  rfl

private theorem same_of_new {s s' : Classes} {e : TypeVar} {n : Nat} (new : s.classOf? e = none)
    (unused : ∀ x, s.classOf? x ≠ some n)
    (classes : ∀ x, s'.classOf? x = if x = e then some n else s.classOf? x) (x y : TypeVar) :
    s'.same x y = s.same x y := by
  rw [Bool.eq_iff_iff, same_iff, same_iff, classes, classes]
  by_cases hx : x = e
  · by_cases hy : y = e
    · simp [hx, hy]
    · simp [hx, hy, Ne.symm hy, new, unused]
  · by_cases hy : y = e
    · simp [hx, hy, new, unused]
    · simp [hx, hy]

theorem set_eq {s : Classes} (tidy : Tidy s) (e : TypeVar) (value : Option Term) :
    s.set e value = match s.classOf? e with
      | some c => (s.find e).2.bindAt c value
      | none => ((s.find e).2.newClass value).enter e (s.find e).2.nodes.size := by
  obtain ⟨answer, -, -⟩ := find_spec tidy e
  rw [set, answer]
  rfl

/-- Binding a variable binds its class, and changes no other class and no equality. -/
theorem set_spec {s : Classes} (tidy : Tidy s) (e : TypeVar) (value : Option Term) :
    Tidy (s.set e value) ∧ (∀ x y, (s.set e value).same x y = s.same x y) ∧
      (∀ x, (s.set e value).bound? x = if s.same x e = true then value else s.bound? x) ∧
      ∀ x, x ∈ (s.set e value).mentioned ↔ x ∈ s.mentioned ∨ x = e := by
  obtain ⟨-, tidy', alike⟩ := find_spec tidy e
  rw [set_eq tidy e value]
  simp only [← alike.same, ← alike.bound?, ← alike.mentioned, ← alike.classOf?]
  generalize (s.find e).2 = t at *
  cases found : t.classOf? e with
  | none =>
    have new := (classOf?_eq_none_iff t e).mp found
    obtain ⟨made, classes, bounds⟩ := set_of_new tidy' new value
    refine ⟨made, ?_, fun x => ?_, fun x => mem_mentioned_enter (t.newClass value) e _ x⟩
    · refine same_of_new found (fun x at_size => ?_) classes
      have := tidy'.classOf?_lt at_size
      omega
    · simp only [same_iff_of_new found]
      exact bounds x
  | some c =>
    obtain ⟨made, classes, bounds⟩ :=
      bindAt_spec tidy' (tidy'.classOf?_lt found) (tidy'.parentIn_classOf? found) value
    refine ⟨made, fun x y => ?_, fun x => ?_, fun x => ?_⟩
    · simp only [same, classes]
    · rw [bound?_eq_bind, classes]
      by_cases here : t.same x e = true
      · have place := (same_iff_of_found found x).mp here
        rw [if_pos here, place, Option.bind_some, bounds, if_pos rfl]
      · rw [if_neg here, bound?_eq_bind]
        cases place : t.classOf? x with
        | none => rfl
        | some d =>
          have other : d ≠ c := by
            rintro rfl
            exact here ((same_iff_of_found found x).mpr place)
          rw [Option.bind_some, Option.bind_some, bounds, if_neg other]
    · change x ∈ t.mentioned ↔ _
      constructor
      · exact .inl
      · rintro (old | rfl)
        · exact old
        · exact mem_mentioned_of_found found

-- Joining has five cases, by which of the two variables were mentioned. Each is shown to leave the
-- same facts, from which the answers are read off.

/-- What joining two variables leaves: both are in class `m`, which holds what was known to be the
same as either of them and stands for `value`. -/
structure Joined (s : Classes) (a b : TypeVar) (m : Nat) (value : Option Term)
    (s' : Classes) : Prop where
  tidy : Tidy s'
  classes : ∀ x, s'.classOf? x =
    if s.same x a = true ∨ s.same x b = true then some m else s.classOf? x
  within : ∀ x, s.classOf? x = some m → s.same x a = true ∨ s.same x b = true
  bound : s'.boundAt m = value
  others : ∀ x c, s.classOf? x = some c → ¬(s.same x a = true ∨ s.same x b = true) →
    s'.boundAt c = s.boundAt c
  mention : ∀ x, x ∈ s'.mentioned ↔ x ∈ s.mentioned ∨ x = a ∨ x = b

theorem Joined.same {s s' : Classes} {a b : TypeVar} {m : Nat} {value : Option Term}
    (joined : Joined s a b m value s') (x y : TypeVar) :
    s'.same x y = true ↔ s.same x y = true ∨ (s.same x a = true ∧ s.same y b = true) ∨
      (s.same x b = true ∧ s.same y a = true) := by
  rw [same_iff, joined.classes, joined.classes]
  by_cases hx : s.same x a = true ∨ s.same x b = true
  · by_cases hy : s.same y a = true ∨ s.same y b = true
    · rw [if_pos hx, if_pos hy]
      refine iff_of_true (.inr ⟨m, rfl, rfl⟩) ?_
      rcases hx with hx | hx <;> rcases hy with hy | hy
      · exact .inl (same_trans hx (same_symm hy))
      · exact .inr (.inl ⟨hx, hy⟩)
      · exact .inr (.inr ⟨hx, hy⟩)
      · exact .inl (same_trans hx (same_symm hy))
    · rw [if_pos hx, if_neg hy]
      refine iff_of_false ?_ ?_
      · rintro (rfl | ⟨c, hm, hc⟩)
        · exact hy hx
        · cases hm
          exact hy (joined.within y hc)
      · rintro (h | ⟨-, h⟩ | ⟨-, h⟩)
        · rcases hx with hx | hx
          · exact hy (.inl (same_trans (same_symm h) hx))
          · exact hy (.inr (same_trans (same_symm h) hx))
        · exact hy (.inr h)
        · exact hy (.inl h)
  · rw [if_neg hx]
    by_cases hy : s.same y a = true ∨ s.same y b = true
    · rw [if_pos hy]
      refine iff_of_false ?_ ?_
      · rintro (rfl | ⟨c, hc, hm⟩)
        · exact hx hy
        · cases hm
          exact hx (joined.within x hc)
      · rintro (h | ⟨h, -⟩ | ⟨h, -⟩)
        · rcases hy with hy | hy
          · exact hx (.inl (same_trans h hy))
          · exact hx (.inr (same_trans h hy))
        · exact hx (.inl h)
        · exact hx (.inr h)
    · rw [if_neg hy, ← same_iff]
      refine ⟨.inl, ?_⟩
      rintro (h | ⟨h, -⟩ | ⟨h, -⟩)
      · exact h
      · exact absurd (.inl h) hx
      · exact absurd (.inr h) hx

private theorem Joined.bound? {s s' : Classes} {a b : TypeVar} {m : Nat} {value : Option Term}
    (joined : Joined s a b m value s') (x : TypeVar) :
    s'.bound? x = if s.same x a = true ∨ s.same x b = true then value else s.bound? x := by
  rw [bound?_eq_bind, joined.classes]
  by_cases hx : s.same x a = true ∨ s.same x b = true
  · rw [if_pos hx, if_pos hx, Option.bind_some, joined.bound]
  · rw [if_neg hx, if_neg hx, bound?_eq_bind]
    cases found : s.classOf? x with
    | none => rfl
    | some c =>
      rw [Option.bind_some, Option.bind_some, joined.others x c found hx]

theorem join_eq {s : Classes} (tidy : Tidy s) (a b : TypeVar) :
    ∃ t, Tidy t ∧ Alike s t ∧ s.join a b = match t.classOf? a, t.classOf? b with
      | none, none =>
        if a = b then (t.newClass none).enter a t.nodes.size
        else ((t.newClass none).enter a t.nodes.size).enter b t.nodes.size
      | none, some c => t.enter a c
      | some c, none => t.enter b c
      | some c, some d => if c = d then t else t.merge (min c d) (max c d) := by
  obtain ⟨first, tidy₁, alike₁⟩ := find_spec tidy a
  obtain ⟨second, tidy₂, alike₂⟩ := find_spec tidy₁ b
  refine ⟨((s.find a).2.find b).2, tidy₂, alike₁.trans alike₂, ?_⟩
  rw [join, first, second]
  simp only [(alike₁.trans alike₂).classOf?, alike₁.classOf?]
  rfl

private theorem joined_enter {t : Classes} (tidy : Tidy t) {a b : TypeVar} {c : Nat}
    (new : t.classOf? a = none) (found : t.classOf? b = some c) :
    Joined t a b c (t.bound? b) (t.enter a c) := by
  have absent := (classOf?_eq_none_iff t a).mp new
  have fixed := tidy.parentIn_classOf? found
  have alone := same_iff_of_new new
  have inClass := same_iff_of_found found
  refine ⟨tidy.enter absent (tidy.classOf?_lt found), fun x => ?_, fun x hx => ?_, ?_,
    fun _ _ _ _ => rfl, fun x => ?_⟩
  · rw [classOf?_enter t absent fixed]
    simp only [alone, inClass]
    by_cases hx : x = a
    · simp [hx]
    · by_cases hc : t.classOf? x = some c
      · simp [hx, hc]
      · simp [hx, hc]
  · exact .inr ((inClass x).mpr hx)
  · rw [bound?_eq_bind, found]
    rfl
  · rw [mem_mentioned_enter]
    constructor
    · rintro (h | h)
      · exact .inl h
      · exact .inr (.inl h)
    · rintro (h | h | rfl)
      · exact .inl h
      · exact .inr h
      · exact .inl (mem_mentioned_of_found found)

private theorem Joined.swap {s s' : Classes} {a b : TypeVar} {m : Nat} {value : Option Term}
    (joined : Joined s a b m value s') : Joined s b a m value s' where
  tidy := joined.tidy
  classes := by
    intro x
    rw [joined.classes]
    simp only [or_comm]
  within := fun x hx => (joined.within x hx).symm
  bound := joined.bound
  others := fun x c hx apart => joined.others x c hx fun h => apart h.symm
  mention := by
    intro x
    rw [joined.mention]
    simp only [or_comm]

private theorem joined_new {t : Classes} (tidy : Tidy t) {a b : TypeVar}
    (newA : t.classOf? a = none) (newB : t.classOf? b = none) :
    Joined t a b t.nodes.size none
      (if a = b then (t.newClass none).enter a t.nodes.size
        else ((t.newClass none).enter a t.nodes.size).enter b t.nodes.size) := by
  have absentA := (classOf?_eq_none_iff t a).mp newA
  have absentB := (classOf?_eq_none_iff t b).mp newB
  obtain ⟨made, classes, bounds⟩ := set_of_new tidy absentA none
  obtain ⟨-, -, newBounds, fixed⟩ := newClass_spec tidy none
  have aloneA := same_iff_of_new newA
  have aloneB := same_iff_of_new newB
  have unused : ∀ x, t.classOf? x ≠ some t.nodes.size := by
    intro x hx
    have := tidy.classOf?_lt hx
    omega
  have old : ∀ x c, t.classOf? x = some c → (t.newClass none).boundAt c = t.boundAt c := by
    intro x c hx
    have := tidy.classOf?_lt hx
    rw [newBounds, if_neg (by omega)]
  by_cases equal : a = b
  · subst equal
    rw [if_pos rfl]
    refine ⟨made, fun x => ?_, fun x hx => absurd hx (unused x), ?_,
      fun x c hx _ => old x c hx, fun x => ?_⟩
    · rw [classes]
      simp only [aloneA, or_self]
    · change (t.newClass none).boundAt t.nodes.size = none
      rw [newBounds, if_pos rfl]
    · rw [mem_mentioned_enter]
      simp only [or_self]
      rfl
  · rw [if_neg equal]
    have absent : b ∉ ((t.newClass none).enter a t.nodes.size).mentioned := by
      rw [mem_mentioned_enter]
      rintro (h | rfl)
      · exact absentB h
      · exact equal rfl
    have size : (t.newClass none).nodes.size = t.nodes.size + 1 := by simp [newClass]
    refine ⟨made.enter absent (show t.nodes.size < (t.newClass none).nodes.size by omega),
      fun x => ?_, fun x hx => absurd hx (unused x), ?_, fun x c hx _ => old x c hx, fun x => ?_⟩
    · rw [classOf?_enter _ absent fixed, classes]
      simp only [aloneA, aloneB]
      by_cases hb : x = b
      · simp [hb]
      · by_cases ha : x = a
        · simp [ha]
        · simp [ha, hb]
    · change (t.newClass none).boundAt t.nodes.size = none
      rw [newBounds, if_pos rfl]
    · rw [mem_mentioned_enter, mem_mentioned_enter, or_assoc]
      rfl

private theorem mentioned_iff_of_found {t : Classes} {a b : TypeVar} {c d : Nat}
    (foundA : t.classOf? a = some c) (foundB : t.classOf? b = some d) (x : TypeVar) :
    x ∈ t.mentioned ↔ x ∈ t.mentioned ∨ x = a ∨ x = b := by
  refine ⟨.inl, ?_⟩
  rintro (h | rfl | rfl)
  · exact h
  · exact mem_mentioned_of_found foundA
  · exact mem_mentioned_of_found foundB

private theorem joined_same {t : Classes} (tidy : Tidy t) {a b : TypeVar} {c : Nat}
    (foundA : t.classOf? a = some c) (foundB : t.classOf? b = some c) :
    Joined t a b c (t.bound? b) t := by
  refine ⟨tidy, fun x => ?_, fun x hx => .inl ((same_iff_of_found foundA x).mpr hx), ?_,
    fun _ _ _ _ => rfl, mentioned_iff_of_found foundA foundB⟩
  · simp only [same_iff_of_found foundA, same_iff_of_found foundB, or_self]
    by_cases hx : t.classOf? x = some c
    · rw [if_pos hx, hx]
    · rw [if_neg hx]
  · rw [bound?_eq_bind, foundB]
    rfl

private theorem joined_merge {t : Classes} (tidy : Tidy t) {a b : TypeVar} {c d : Nat}
    (foundA : t.classOf? a = some c) (foundB : t.classOf? b = some d) (apart : c ≠ d) :
    Joined t a b (max c d) ((t.boundAt (max c d)).or (t.boundAt (min c d)))
      (t.merge (min c d) (max c d)) := by
  have insideA := tidy.classOf?_lt foundA
  have insideB := tidy.classOf?_lt foundB
  have fixed : ∀ e, e = c ∨ e = d → parentIn t.nodes e = e := by
    rintro e (rfl | rfl)
    · exact tidy.parentIn_classOf? foundA
    · exact tidy.parentIn_classOf? foundB
  obtain ⟨made, classes, bounds⟩ := merge_spec tidy (show min c d < max c d by omega)
    (by omega) (fixed _ (by omega)) (fixed _ (by omega))
  have either : ∀ x, (t.same x a = true ∨ t.same x b = true) ↔
      t.classOf? x = some (min c d) ∨ t.classOf? x = some (max c d) := by
    intro x
    rw [same_iff_of_found foundA, same_iff_of_found foundB]
    rcases Nat.lt_or_gt_of_ne apart with order | order
    · rw [Nat.min_eq_left (by omega), Nat.max_eq_right (by omega)]
    · rw [Nat.min_eq_right (by omega), Nat.max_eq_left (by omega)]
      exact or_comm
  refine ⟨made, fun x => ?_, fun x hx => (either x).mpr (.inr hx), ?_, fun x e hx other => ?_,
    fun x => mentioned_iff_of_found foundA foundB x⟩
  · rw [classes]
    simp only [either]
    cases found : t.classOf? x with
    | none => simp
    | some e =>
      by_cases loses : e = min c d
      · simp [loses]
      · by_cases wins : e = max c d
        · simp [wins]
        · simp [loses, wins]
  · rw [bounds, if_pos rfl]
  · rw [either, hx] at other
    have neither : e ≠ max c d ∧ e ≠ min c d :=
      ⟨fun h => other (.inr (congrArg some h)), fun h => other (.inl (congrArg some h))⟩
    rw [bounds, if_neg neither.1, if_neg neither.2]

private theorem Joined.of_alike {s t s' : Classes} {a b : TypeVar} {m : Nat} {value : Option Term}
    (alike : Alike s t) (joined : Joined t a b m value s') : Joined s a b m value s' where
  tidy := joined.tidy
  classes := by
    intro x
    rw [joined.classes, alike.classOf?, alike.same, alike.same]
  within := by
    intro x hx
    rw [← alike.classOf?] at hx
    rw [← alike.same, ← alike.same]
    exact joined.within x hx
  bound := joined.bound
  others := by
    intro x c hx apart
    rw [← alike.classOf?] at hx
    rw [← alike.same, ← alike.same] at apart
    rw [joined.others x c hx apart, alike.boundAt]
  mention := by
    intro x
    rw [joined.mention, alike.mentioned]

theorem joined_join {s : Classes} (tidy : Tidy s) (a b : TypeVar) :
    ∃ m value, Joined s a b m value (s.join a b) ∧ (s.bound? a = none → value = s.bound? b) := by
  obtain ⟨t, tidy', alike, equation⟩ := join_eq tidy a b
  suffices joined : ∃ m value, Joined t a b m value (s.join a b) ∧
      (t.bound? a = none → value = t.bound? b) by
    obtain ⟨m, value, joined, known⟩ := joined
    rw [alike.bound?, alike.bound?] at known
    exact ⟨m, value, joined.of_alike alike, known⟩
  rw [equation]
  cases foundA : t.classOf? a with
  | none =>
    cases foundB : t.classOf? b with
    | none =>
      refine ⟨_, _, joined_new tidy' foundA foundB, fun _ => ?_⟩
      rw [bound?_eq_bind, foundB]
      rfl
    | some d => exact ⟨d, _, joined_enter tidy' foundA foundB, fun _ => rfl⟩
  | some c =>
    cases foundB : t.classOf? b with
    | none =>
      refine ⟨c, _, (joined_enter tidy' foundB foundA).swap, fun unbound => ?_⟩
      rw [unbound, bound?_eq_bind, foundB]
      rfl
    | some d =>
      by_cases equal : c = d
      · subst equal
        simp only [if_pos]
        exact ⟨c, _, joined_same tidy' foundA foundB, fun _ => rfl⟩
      · simp only [if_neg equal]
        refine ⟨_, _, joined_merge tidy' foundA foundB equal, fun unbound => ?_⟩
        have unboundAt : t.boundAt c = none := by
          rw [bound?_eq_bind, foundA] at unbound
          exact unbound
        have bound : t.bound? b = t.boundAt d := by rw [bound?_eq_bind, foundB]; rfl
        rw [bound]
        rcases Nat.lt_or_gt_of_ne equal with order | order
        · rw [Nat.min_eq_left (by omega), Nat.max_eq_right (by omega), unboundAt, Option.or_none]
        · rw [Nat.min_eq_right (by omega), Nat.max_eq_left (by omega), unboundAt, Option.none_or]

/-- Joining two variables, the first of them unbound, adds the equalities that follow from theirs;
what the second stands for, both stand for. -/
theorem join_spec {s : Classes} (tidy : Tidy s) {a : TypeVar} (b : TypeVar)
    (unbound : s.bound? a = none) :
    Tidy (s.join a b) ∧
      (∀ x y, (s.join a b).same x y = true ↔ s.same x y = true ∨
        (s.same x a = true ∧ s.same y b = true) ∨ (s.same x b = true ∧ s.same y a = true)) ∧
      (∀ x, (s.join a b).bound? x =
        if s.same x a = true ∨ s.same x b = true then s.bound? b else s.bound? x) ∧
      ∀ x, x ∈ (s.join a b).mentioned ↔ x ∈ s.mentioned ∨ x = a ∨ x = b := by
  obtain ⟨m, value, joined, known⟩ := joined_join tidy a b
  rw [← known unbound]
  exact ⟨joined.tidy, joined.same, joined.bound?, joined.mention⟩

end TypedCalls.Classes
