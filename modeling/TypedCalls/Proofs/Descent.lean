import Mathlib.Data.Finset.Card
import Mathlib.Logic.Relation

/-!
Relations in which nothing leads back to itself.

Where a rank falls with every step there is no cycle (`acyclic_of_rank`). Where there is no cycle, and
only the elements of a list have steps, there is such a rank that is no greater than the list is long
(`exists_rank_of_acyclic`).
-/

set_option autoImplicit false

namespace TypedCalls

variable {α : Type} {R : α → α → Prop}

theorem acyclic_of_rank (rank : α → Nat) (falls : ∀ a b, R a b → rank b < rank a) (a : α) :
    ¬Relation.TransGen R a a := by
  have down {b : α} (leads : Relation.TransGen R a b) : rank b < rank a := by
    induction leads with
    | single step => exact falls _ _ step
    | tail _ step ih => exact Nat.lt_trans (falls _ _ step) ih
  exact fun back => Nat.lt_irrefl _ (down back)

/-- The rank counts the elements of the list that an element leads to, itself among them. -/
theorem exists_rank_of_acyclic [DecidableEq α] {keys : List α} (keyed : ∀ a b, R a b → a ∈ keys)
    (acyclic : ∀ a, ¬Relation.TransGen R a a) :
    ∃ rank : α → Nat, (∀ a, rank a ≤ keys.length) ∧ (∀ a ∈ keys, 0 < rank a) ∧
      ∀ a b, R a b → rank b < rank a := by
  classical
  let ahead (a : α) : Finset α := keys.toFinset.filter (Relation.ReflTransGen R a)
  have self : ∀ a ∈ keys, a ∈ ahead a := fun a key =>
    Finset.mem_filter.mpr ⟨List.mem_toFinset.mpr key, .refl⟩
  refine ⟨fun a => (ahead a).card, fun a => ?_, fun a key => ?_, fun a b step => ?_⟩
  · exact (Finset.card_filter_le _ _).trans (List.toFinset_card_le keys)
  · exact Finset.card_pos.mpr ⟨a, self a key⟩
  · have within : ahead b ⊆ ahead a := by
      intro x after
      obtain ⟨key, reached⟩ := Finset.mem_filter.mp after
      exact Finset.mem_filter.mpr ⟨key, .head step reached⟩
    -- a step leaves its start behind for good
    have left : a ∉ ahead b := fun back => acyclic a (.head' step (Finset.mem_filter.mp back).2)
    exact Finset.card_lt_card
      ((Finset.ssubset_iff_of_subset within).mpr ⟨a, self a (keyed a b step), left⟩)

end TypedCalls
