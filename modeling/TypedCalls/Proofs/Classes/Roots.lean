import Mathlib.Tactic.Common
import TypedCalls.Classes.Basic

/-!
The surviving class of a numbered class.

Pointers rise and stay among the classes, so a walk of as many steps as there are classes ends at a
class that points at itself. `climb_unique` says that nothing else can be meant by the surviving
class: a function that is constant along pointers and keeps the classes that point at themselves is
the walk. Halving a path, pointing one survivor at another and making a class are each read off it.
-/

set_option autoImplicit false

namespace TypedCalls.Classes

def Rising (nodes : Array ClassNode) : Prop :=
  ∀ c, c < nodes.size → c ≤ parentIn nodes c ∧ parentIn nodes c < nodes.size

theorem parentIn_of_size_le {nodes : Array ClassNode} {c : Nat} (outside : nodes.size ≤ c) :
    parentIn nodes c = c := by
  simp [parentIn, Array.getElem?_eq_none outside]

theorem Rising.le_parentIn {nodes : Array ClassNode} (rising : Rising nodes) (c : Nat) :
    c ≤ parentIn nodes c := by
  by_cases inside : c < nodes.size
  · exact (rising c inside).1
  · have outside : parentIn nodes c = c := parentIn_of_size_le (by omega)
    omega

private theorem Rising.lt_size_of_ne {nodes : Array ClassNode} {c : Nat}
    (moved : parentIn nodes c ≠ c) : c < nodes.size := by
  by_contra outside
  exact moved (parentIn_of_size_le (by omega))

theorem climb_of_fixed {nodes : Array ClassNode} {c : Nat} (fixed : parentIn nodes c = c)
    (n : Nat) : climb nodes n c = c := by
  cases n with
  | zero => rfl
  | succ n => simp [climb, fixed]

theorem parentIn_climb {nodes : Array ClassNode} (rising : Rising nodes) (n c : Nat)
    (enough : nodes.size ≤ n + c) : parentIn nodes (climb nodes n c) = climb nodes n c := by
  induction n generalizing c with
  | zero => exact parentIn_of_size_le (show nodes.size ≤ c by omega)
  | succ n ih =>
    by_cases fixed : parentIn nodes c = c
    · rw [climb_of_fixed fixed, fixed]
    · have above : c ≤ parentIn nodes c := rising.le_parentIn c
      rw [climb, if_neg fixed]
      exact ih (parentIn nodes c) (by omega)

private theorem apply_climb {nodes : Array ClassNode} {survivor : Nat → Nat}
    (along : ∀ c, survivor (parentIn nodes c) = survivor c) (n c : Nat) :
    survivor (climb nodes n c) = survivor c := by
  induction n generalizing c with
  | zero => rfl
  | succ n ih =>
    by_cases fixed : parentIn nodes c = c
    · rw [climb_of_fixed fixed]
    · rw [climb, if_neg fixed, ih, along]

/-- The survivor is determined by being constant along pointers and kept at fixed classes. -/
theorem climb_unique {nodes : Array ClassNode} (rising : Rising nodes) (survivor : Nat → Nat)
    (kept : ∀ c, parentIn nodes c = c → survivor c = c)
    (along : ∀ c, survivor (parentIn nodes c) = survivor c) (c : Nat) :
    climb nodes nodes.size c = survivor c := by
  have ended := parentIn_climb rising nodes.size c (by omega)
  rw [← apply_climb along nodes.size c, kept _ ended]

private theorem climb_succ {nodes : Array ClassNode} (rising : Rising nodes) (n c : Nat)
    (enough : nodes.size ≤ n + c) : climb nodes (n + 1) c = climb nodes n c := by
  induction n generalizing c with
  | zero => rw [climb_of_fixed (parentIn_of_size_le (by omega)), climb]
  | succ n ih =>
    by_cases fixed : parentIn nodes c = c
    · rw [climb_of_fixed fixed, climb_of_fixed fixed]
    · have above : c ≤ parentIn nodes c := rising.le_parentIn c
      have longer : climb nodes (n + 1 + 1) c = climb nodes (n + 1) (parentIn nodes c) := by
        rw [climb, if_neg fixed]
      have shorter : climb nodes (n + 1) c = climb nodes n (parentIn nodes c) := by
        rw [climb, if_neg fixed]
      rw [longer, shorter]
      exact ih (parentIn nodes c) (by omega)

theorem climb_parentIn {nodes : Array ClassNode} (rising : Rising nodes) (c : Nat) :
    climb nodes nodes.size (parentIn nodes c) = climb nodes nodes.size c := by
  by_cases fixed : parentIn nodes c = c
  · rw [fixed]
  · have inside : c < nodes.size := Rising.lt_size_of_ne fixed
    have above : c ≤ parentIn nodes c := rising.le_parentIn c
    obtain ⟨n, size⟩ : ∃ n, nodes.size = n + 1 := ⟨nodes.size - 1, by omega⟩
    have walk : climb nodes (n + 1) c = climb nodes n (parentIn nodes c) := by
      rw [climb, if_neg fixed]
    rw [size, walk]
    exact climb_succ rising n _ (by omega)

theorem climb_lt_size {nodes : Array ClassNode} (rising : Rising nodes) (n : Nat) {c : Nat}
    (inside : c < nodes.size) : climb nodes n c < nodes.size := by
  induction n generalizing c with
  | zero => exact inside
  | succ n ih =>
    by_cases fixed : parentIn nodes c = c
    · rw [climb_of_fixed fixed]
      exact inside
    · rw [climb, if_neg fixed]
      exact ih (rising c inside).2

private theorem parentIn_setParent (nodes : Array ClassNode) {c : Nat} (inside : c < nodes.size)
    (up d : Nat) :
    parentIn (nodes.modify c fun node => { node with parent := up }) d =
      if d = c then up else parentIn nodes d := by
  by_cases here : d = c
  · subst here
    rw [parentIn, Array.getElem?_modify, if_pos rfl, Array.getElem?_eq_getElem inside]
    simp
  · simp [parentIn, Array.getElem?_modify, here, Ne.symm here]

theorem climb_skip {nodes : Array ClassNode} (rising : Rising nodes) {c : Nat}
    (moved : parentIn nodes c ≠ c) :
    Rising (nodes.modify c fun node =>
        { node with parent := parentIn nodes (parentIn nodes c) }) ∧
      ∀ d, climb (nodes.modify c fun node =>
        { node with parent := parentIn nodes (parentIn nodes c) }) nodes.size d =
          climb nodes nodes.size d := by
  have inside : c < nodes.size := Rising.lt_size_of_ne moved
  obtain ⟨first, within⟩ := rising c inside
  obtain ⟨second, beyond⟩ := rising _ within
  have pointers := parentIn_setParent nodes inside (parentIn nodes (parentIn nodes c))
  have still : Rising (nodes.modify c fun node =>
      { node with parent := parentIn nodes (parentIn nodes c) }) := by
    intro d hd
    rw [Array.size_modify] at hd ⊢
    rw [pointers d]
    split
    · omega
    · exact rising d hd
  refine ⟨still, fun d => ?_⟩
  have unique := climb_unique still (climb nodes nodes.size)
    (fun d fixed => ?_) (fun d => ?_) d
  · simpa only [Array.size_modify] using unique
  · rw [pointers d] at fixed
    split at fixed
    · omega
    · exact climb_of_fixed fixed _
  · rw [pointers d]
    split
    · next here => rw [here, climb_parentIn rising, climb_parentIn rising]
    · exact climb_parentIn rising d

private theorem boundAt_skip (nodes : Array ClassNode) (entries : List (TypeVar × Nat))
    (c up d : Nat) : boundAt ⟨entries, nodes.modify c fun node => { node with parent := up }⟩ d =
      boundAt ⟨entries, nodes⟩ d := by
  simp only [boundAt, Array.getElem?_modify]
  by_cases here : c = d
  · subst here
    cases nodes[c]? <;> simp
  · simp [here]

/-- What halving a path leaves: the survivor it ends at, and the same survivors and bound terms. -/
structure Halved (nodes : Array ClassNode) (c : Nat) (walked : Nat × Array ClassNode) : Prop where
  survivor : walked.1 = climb nodes nodes.size c
  size : walked.2.size = nodes.size
  rising : Rising walked.2
  climb : ∀ d, climb walked.2 nodes.size d = climb nodes nodes.size d
  bound : ∀ entries d, boundAt ⟨entries, walked.2⟩ d = boundAt ⟨entries, nodes⟩ d
  parent : ∀ d, parentIn walked.2 d = d ↔ parentIn nodes d = d

theorem halve_spec (n : Nat) {nodes : Array ClassNode} (rising : Rising nodes) (c : Nat)
    (enough : nodes.size ≤ n + c) : Halved nodes c (halve n nodes c) := by
  induction n generalizing nodes c with
  | zero =>
    have fixed : parentIn nodes c = c := parentIn_of_size_le (by simpa using enough)
    exact ⟨(climb_of_fixed fixed _).symm, rfl, rising, fun _ => rfl, fun _ _ => rfl,
      fun _ => Iff.rfl⟩
  | succ n ih =>
    by_cases fixed : parentIn nodes c = c
    · have stays : halve (n + 1) nodes c = (c, nodes) := by simp [halve, fixed]
      rw [stays]
      exact ⟨(climb_of_fixed fixed _).symm, rfl, rising, fun _ => rfl, fun _ _ => rfl,
        fun _ => Iff.rfl⟩
    · have inside : c < nodes.size := Rising.lt_size_of_ne fixed
      obtain ⟨still, same⟩ := climb_skip rising fixed
      have first : c ≤ parentIn nodes c := rising.le_parentIn c
      have second : parentIn nodes c ≤ parentIn nodes (parentIn nodes c) :=
        rising.le_parentIn _
      have rest := ih still (parentIn nodes (parentIn nodes c))
        (by rw [Array.size_modify]; omega)
      rw [halve, if_neg fixed]
      refine ⟨?_, ?_, rest.rising, fun d => ?_, fun entries d => ?_, fun d => ?_⟩
      · rw [rest.survivor, Array.size_modify, same, climb_parentIn rising, climb_parentIn rising]
      · rw [rest.size, Array.size_modify]
      · have kept := rest.climb d
        rw [Array.size_modify] at kept
        rw [kept, same]
      · rw [rest.bound, boundAt_skip]
      · rw [rest.parent, parentIn_setParent nodes inside]
        split
        · next here =>
          subst here
          constructor
          · intro back
            omega
          · intro back
            exact absurd back fixed
        · exact Iff.rfl

end TypedCalls.Classes
