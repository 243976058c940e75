/-!
Stable sorting of short lists by a count. The elements come out in ascending order of their keys
(`pairwise_sortedBy`), and those with one key come out in the order they came in
(`filter_sortedBy`).
-/

set_option autoImplicit false

namespace TypedCalls

variable {α : Type}

def insertBy (key : α → Nat) (x : α) : List α → List α
  | [] => [x]
  | y :: ys => if key x ≤ key y then x :: y :: ys else y :: insertBy key x ys

def sortedBy (key : α → Nat) : List α → List α
  | [] => []
  | x :: xs => insertBy key x (sortedBy key xs)

private theorem mem_insertBy (key : α → Nat) (x z : α) (ys : List α) :
    z ∈ insertBy key x ys ↔ z = x ∨ z ∈ ys := by
  induction ys with
  | nil => simp [insertBy]
  | cons y ys ih =>
    by_cases h : key x ≤ key y
    · simp [insertBy, h]
    · simp only [insertBy, h, if_false, List.mem_cons, ih]
      constructor
      · rintro (h | h | h) <;> simp [h]
      · rintro (h | h | h) <;> simp [h]

theorem mem_sortedBy (key : α → Nat) (z : α) (xs : List α) : z ∈ sortedBy key xs ↔ z ∈ xs := by
  induction xs with
  | nil => simp [sortedBy]
  | cons x xs ih => simp [sortedBy, mem_insertBy, ih]

private theorem pairwise_insertBy (key : α → Nat) (x : α) {ys : List α}
    (sorted : ys.Pairwise fun a b => key a ≤ key b) :
    (insertBy key x ys).Pairwise fun a b => key a ≤ key b := by
  induction ys with
  | nil => simp [insertBy]
  | cons y ys ih =>
    obtain ⟨first, rest⟩ := List.pairwise_cons.mp sorted
    by_cases h : key x ≤ key y
    · rw [insertBy, if_pos h]
      refine List.pairwise_cons.mpr ⟨?_, sorted⟩
      intro z hz
      rcases List.mem_cons.mp hz with rfl | hz
      · exact h
      · exact Nat.le_trans h (first z hz)
    · rw [insertBy, if_neg h]
      refine List.pairwise_cons.mpr ⟨?_, ih rest⟩
      intro z hz
      rcases (mem_insertBy key x z ys).mp hz with rfl | hz
      · omega
      · exact first z hz

theorem pairwise_sortedBy (key : α → Nat) (xs : List α) :
    (sortedBy key xs).Pairwise fun a b => key a ≤ key b := by
  induction xs with
  | nil => exact .nil
  | cons x xs ih => exact pairwise_insertBy key x ih

private theorem filter_insertBy (key : α → Nat) (k : Nat) (x : α) (ys : List α) :
    (insertBy key x ys).filter (key · == k) = (x :: ys).filter (key · == k) := by
  induction ys with
  | nil => rfl
  | cons y ys ih =>
    by_cases h : key x ≤ key y
    · rw [insertBy, if_pos h]
    · rw [insertBy, if_neg h]
      by_cases hx : key x = k
      · have hy : key y ≠ k := by omega
        simp_all
      · simp only [List.filter_cons, ih]
        simp [hx]

theorem filter_sortedBy (key : α → Nat) (k : Nat) (xs : List α) :
    (sortedBy key xs).filter (key · == k) = xs.filter (key · == k) := by
  induction xs with
  | nil => rfl
  | cons x xs ih => rw [sortedBy, filter_insertBy, List.filter_cons, List.filter_cons, ih]

end TypedCalls
