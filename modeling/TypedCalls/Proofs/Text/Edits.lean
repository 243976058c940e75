import Mathlib.Order.Bounds.Basic
import Mathlib.Order.MinMax
import TypedCalls.Text.Distance

/-!
The edit distance counts edits.

An `Edit` inserts, deletes or replaces one letter anywhere in a word. The table of `fewest` has the
least number of edits between the ends of two words (`isLeast_fewest`); no edit brings a word nearer
to a third one by more than one step, which is why no shorter way exists. The rows that are computed
one after the other are rows of that table (`lastRow_eq`), so the distance is the least number of
edits, and it is a metric (`distance_counts_edits`).
-/

set_option autoImplicit false

namespace TypedCalls.Text

variable {α : Type}

/-- One letter of a word is inserted, deleted or replaced. -/
inductive Edit : List α → List α → Prop
  | insert (before after : List α) (x : α) : Edit (before ++ after) (before ++ x :: after)
  | delete (before after : List α) (x : α) : Edit (before ++ x :: after) (before ++ after)
  | replace (before after : List α) (x y : α) :
      Edit (before ++ x :: after) (before ++ y :: after)

private theorem Edit.symm {as bs : List α} (edit : Edit as bs) : Edit bs as := by
  cases edit with
  | insert before after x => exact .delete before after x
  | delete before after x => exact .insert before after x
  | replace before after x y => exact .replace before after y x

private theorem Edit.cons (z : α) {as bs : List α} (edit : Edit as bs) :
    Edit (z :: as) (z :: bs) := by
  cases edit with
  | insert before after x => exact .insert (z :: before) after x
  | delete before after x => exact .delete (z :: before) after x
  | replace before after x y => exact .replace (z :: before) after x y

private theorem Edit.reverse {as bs : List α} (edit : Edit as bs) : Edit as.reverse bs.reverse := by
  cases edit with
  | insert before after x => simpa using Edit.insert after.reverse before.reverse x
  | delete before after x => simpa using Edit.delete after.reverse before.reverse x
  | replace before after x y => simpa using Edit.replace after.reverse before.reverse x y

/-- One word turns into another by so many edits. -/
inductive Edits : Nat → List α → List α → Prop
  | refl (as : List α) : Edits 0 as as
  | head {n : Nat} {as bs cs : List α} : Edit as bs → Edits n bs cs → Edits (n + 1) as cs

namespace Edits

variable {n m : Nat} {as bs cs : List α}

private theorem single (edit : Edit as bs) : Edits 1 as bs := .head edit (.refl bs)

private theorem trans (first : Edits n as bs) (second : Edits m bs cs) : Edits (n + m) as cs := by
  induction first with
  | refl as => rwa [Nat.zero_add]
  | head edit _ ih =>
    rw [Nat.add_right_comm]
    exact .head edit (ih second)

private theorem symm (edits : Edits n as bs) : Edits n bs as := by
  induction edits with
  | refl as => exact .refl as
  | head edit _ ih => exact ih.trans (.single edit.symm)

private theorem cons (z : α) (edits : Edits n as bs) : Edits n (z :: as) (z :: bs) := by
  induction edits with
  | refl as => exact .refl (z :: as)
  | head edit _ ih => exact .head (edit.cons z) ih

private theorem reverse (edits : Edits n as bs) : Edits n as.reverse bs.reverse := by
  induction edits with
  | refl as => exact .refl as.reverse
  | head edit _ ih => exact .head edit.reverse ih

private theorem zero_iff : Edits 0 as bs ↔ as = bs := by
  constructor
  · intro edits
    cases edits
    rfl
  · rintro rfl
    exact .refl as

private theorem build (bs : List α) : Edits bs.length [] bs := by
  induction bs with
  | nil => exact .refl []
  | cons y bs ih => exact ih.trans (.single (.insert [] bs y))

end Edits

section Table

variable [DecidableEq α]

/-- The table of the distances between two words, by what is done to their first letters: the first
is deleted, the second inserted, or the one replaced by the other unless they agree. -/
def fewest : List α → List α → Nat
  | [], bs => bs.length
  | x :: as, [] => (x :: as).length
  | x :: as, y :: bs =>
    min (min (fewest as (y :: bs) + 1) (fewest (x :: as) bs + 1))
      (fewest as bs + if x = y then 0 else 1)
termination_by as bs => as.length + bs.length

private theorem fewest_nil_left (bs : List α) : fewest [] bs = bs.length := by rw [fewest]

private theorem fewest_nil_right (as : List α) : fewest as [] = as.length := by
  cases as with
  | nil => rw [fewest]
  | cons x as => rw [fewest]

private theorem fewest_cons_cons (x y : α) (as bs : List α) :
    fewest (x :: as) (y :: bs) =
      min (min (fewest as (y :: bs) + 1) (fewest (x :: as) bs + 1))
        (fewest as bs + if x = y then 0 else 1) := by
  rw [fewest]

private theorem fewest_self (as : List α) : fewest as as = 0 := by
  induction as with
  | nil => rw [fewest_nil_left, List.length_nil]
  | cons x as ih =>
    rw [fewest_cons_cons, ih, if_pos rfl]
    omega

private theorem edits_fewest (as bs : List α) : Edits (fewest as bs) as bs := by
  fun_induction fewest as bs with
  | case1 bs => exact .build bs
  | case2 x as => exact (Edits.build (x :: as)).symm
  | case3 x as y bs deleted inserted replaced =>
    have viaDelete : Edits (fewest as (y :: bs) + 1) (x :: as) (y :: bs) :=
      .head (.delete [] as x) deleted
    have viaInsert : Edits (fewest (x :: as) bs + 1) (x :: as) (y :: bs) :=
      inserted.trans (.single (.insert [] bs y))
    have viaReplace : Edits (fewest as bs + if x = y then 0 else 1) (x :: as) (y :: bs) := by
      split
      · next same =>
        subst same
        exact replaced.cons x
      · exact .head (.replace [] as x y) (replaced.cons y)
    rcases min_choice (min (fewest as (y :: bs) + 1) (fewest (x :: as) bs + 1))
      (fewest as bs + if x = y then 0 else 1) with least | least
    · rw [least]
      rcases min_choice (fewest as (y :: bs) + 1) (fewest (x :: as) bs + 1) with least | least
      · rwa [least]
      · rwa [least]
    · rwa [least]

private theorem fewest_cons_left_le (x : α) (as bs : List α) :
    fewest (x :: as) bs ≤ fewest as bs + 1 := by
  cases bs with
  | nil => simp [fewest_nil_right]
  | cons y bs =>
    rw [fewest_cons_cons]
    omega

private theorem fewest_cons_right_le (y : α) (as bs : List α) :
    fewest as (y :: bs) ≤ fewest as bs + 1 := by
  cases as with
  | nil => simp [fewest_nil_left]
  | cons x as =>
    rw [fewest_cons_cons]
    omega

private theorem fewest_le_cons_left (x : α) (as bs : List α) :
    fewest as bs ≤ fewest (x :: as) bs + 1 := by
  induction bs with
  | nil =>
    rw [fewest_nil_right, fewest_nil_right, List.length_cons]
    omega
  | cons y bs ih =>
    have longer := fewest_cons_right_le y as bs
    rw [fewest_cons_cons]
    omega

private theorem fewest_replace_le (x z : α) (as bs : List α) :
    fewest (x :: as) bs ≤ fewest (z :: as) bs + 1 := by
  induction bs with
  | nil =>
    rw [fewest_nil_right, fewest_nil_right, List.length_cons, List.length_cons]
    omega
  | cons y bs ih =>
    rw [fewest_cons_cons, fewest_cons_cons]
    split <;> split <;> omega

private theorem fewest_cons_le_of_near {as bs : List α}
    (near : ∀ cs, fewest as cs ≤ fewest bs cs + 1)
    (x : α) (cs : List α) : fewest (x :: as) cs ≤ fewest (x :: bs) cs + 1 := by
  induction cs with
  | nil =>
    have ends := near []
    rw [fewest_nil_right, fewest_nil_right] at ends
    rw [fewest_nil_right, fewest_nil_right, List.length_cons, List.length_cons]
    omega
  | cons y cs ih =>
    have whole := near (y :: cs)
    have rest := near cs
    rw [fewest_cons_cons, fewest_cons_cons]
    omega

private theorem fewest_le_of_edit {as bs : List α} (edit : Edit as bs) (cs : List α) :
    fewest as cs ≤ fewest bs cs + 1 := by
  have inside (before : List α) {us vs : List α}
      (near : ∀ cs, fewest us cs ≤ fewest vs cs + 1) :
      ∀ cs, fewest (before ++ us) cs ≤ fewest (before ++ vs) cs + 1 := by
    induction before with
    | nil => exact near
    | cons z before ih => exact fewest_cons_le_of_near ih z
  cases edit with
  | insert before after x => exact inside before (fewest_le_cons_left x after) cs
  | delete before after x => exact inside before (fewest_cons_left_le x after) cs
  | replace before after x y => exact inside before (fewest_replace_le x y after) cs

private theorem fewest_le_of_edits {n : Nat} {as bs : List α} (edits : Edits n as bs) :
    fewest as bs ≤ n := by
  induction edits with
  | refl as => exact (fewest_self as).le
  | head edit _ ih =>
    have step := fewest_le_of_edit edit
    exact (step _).trans (Nat.add_le_add_right ih 1)

theorem isLeast_fewest (as bs : List α) : IsLeast {n | Edits n as bs} (fewest as bs) :=
  ⟨edits_fewest as bs, fun _ edits => fewest_le_of_edits edits⟩

/-! The rows. Words are read from their start, so the table is entered with what was read,
reversed. -/

def entries (as read : List α) : List α → List Nat
  | [] => []
  | y :: bs => fewest as (y :: read) :: entries as (y :: read) bs

def tableRow (bs as : List α) : List Nat := fewest as [] :: entries as [] bs

private theorem rowTail_entries (x : α) (as read bs : List α) :
    rowTail x (fewest as read) (fewest (x :: as) read) bs (entries as read bs) =
      entries (x :: as) read bs := by
  induction bs generalizing read with
  | nil => rfl
  | cons y bs ih =>
    rw [entries, rowTail, ← fewest_cons_cons, entries]
    exact congrArg (List.cons _) (ih (y :: read))

private theorem nextRow_tableRow (bs as : List α) (x : α) :
    nextRow bs (tableRow bs as) x (as.length + 1) = tableRow bs (x :: as) := by
  have start : as.length + 1 = fewest (x :: as) [] := by
    rw [fewest_nil_right, List.length_cons]
  rw [tableRow, nextRow, start, rowTail_entries, tableRow]

theorem lastRow_eq (bs as before : List α) :
    lastRow bs as before.length (tableRow bs before) = tableRow bs (as.reverse ++ before) := by
  induction as generalizing before with
  | nil => rfl
  | cons x as ih =>
    rw [lastRow, nextRow_tableRow, List.reverse_cons, List.append_assoc]
    exact ih (x :: before)

private theorem entries_nil (read bs : List α) :
    entries [] read bs = List.range' (read.length + 1) bs.length := by
  induction bs generalizing read with
  | nil => rfl
  | cons y bs ih =>
    rw [entries, ih, fewest_nil_left, List.length_cons, List.length_cons, List.range'_succ]

private theorem range_eq_tableRow (bs : List α) : List.range (bs.length + 1) = tableRow bs [] := by
  rw [tableRow, fewest_nil_left, entries_nil, List.range_eq_range', List.range'_succ]
  rfl

private theorem getLastD_entries (as read bs : List α) :
    (entries as read bs).getLastD (fewest as read) = fewest as (bs.reverse ++ read) := by
  induction bs generalizing read with
  | nil => rfl
  | cons y bs ih =>
    rw [entries, List.getLastD_cons, ih, List.reverse_cons, List.append_assoc]
    rfl

private theorem getLastD_lastRow (as bs : List α) :
    (lastRow bs as 0 (List.range (bs.length + 1))).getLastD 0 = fewest as.reverse bs.reverse := by
  have rows := lastRow_eq bs as []
  rw [List.length_nil, ← range_eq_tableRow, List.append_nil] at rows
  rw [rows, tableRow, List.getLastD_cons, getLastD_entries, List.append_nil]

private theorem isLeast_listDistance (as bs : List α) :
    IsLeast {n | Edits n as bs} (listDistance as bs) := by
  have turned : {n | Edits n as.reverse bs.reverse} = {n | Edits n as bs} := by
    ext n
    exact ⟨fun edits => by simpa using edits.reverse, fun edits => edits.reverse⟩
  have swapped : {n | Edits n bs.reverse as.reverse} = {n | Edits n as.reverse bs.reverse} := by
    ext n
    exact ⟨fun edits => edits.symm, fun edits => edits.symm⟩
  have least := isLeast_fewest as.reverse bs.reverse
  have least' := isLeast_fewest bs.reverse as.reverse
  rw [turned] at least
  rw [swapped, turned] at least'
  unfold listDistance
  by_cases longer : as.length < bs.length
  · simp only [if_pos longer, getLastD_lastRow]
    exact least'
  · simp only [if_neg longer, getLastD_lastRow]
    exact least

end Table

/-- The distance between two words is the least number of edits that turn one into the other. So it
does not matter which of them is the longer one, only equal words have distance zero, and a detour
over a third word is never shorter. -/
theorem distance_counts_edits (a b : String) :
    IsLeast {n | Edits n a.toList b.toList} (distance a b) ∧
      distance a b = distance b a ∧ (distance a b = 0 ↔ a = b) ∧
      ∀ c, distance a c ≤ distance a b + distance b c := by
  have least (a b : String) : IsLeast {n | Edits n a.toList b.toList} (distance a b) :=
    isLeast_listDistance a.toList b.toList
  refine ⟨least a b, ?_, ?_, fun c => ?_⟩
  · apply le_antisymm
    · exact (least a b).2 (least b a).1.symm
    · exact (least b a).2 (least a b).1.symm
  · constructor
    · intro zero
      have unchanged : Edits 0 a.toList b.toList := zero ▸ (least a b).1
      exact String.toList_inj.mp (Edits.zero_iff.mp unchanged)
    · rintro rfl
      exact Nat.le_zero.mp ((least a a).2 (Edits.refl a.toList))
  · exact (least a c).2 ((least a b).1.trans (least b c).1)

end TypedCalls.Text
