import TypedCalls.Proofs.Eval.Frame
import TypedCalls.Proofs.Eval.Soundness
import TypedCalls.Proofs.Term.Normal

/-!
The types of values as programs come by them.

A neat value is a good one whose type is normal. Names and the types of known functions are normal,
and so is whatever is read (`persistent_normal`). So evaluation keeps all bound values neat, and they
are neat in every store that was reached from the standard one (`Store.Reached.neat`).
-/

set_option autoImplicit false

namespace TypedCalls

abbrev Value.Neat (value : Value) : Prop := value.GoodAt Term.Normal

private theorem Term.IsNamed.normal {t : Term} (named : t.IsNamed) : t.Normal := by
  obtain ⟨head, rfl⟩ := named
  exact Term.normal_con.mpr ⟨rfl, fun a member => absurd member List.not_mem_nil⟩

private theorem Function.Known.normal_type {fn : Function} (known : fn.Known) : fn.type.Normal := by
  cases known with
  | @standard fn member id =>
    have signatures : ∀ fn ∈ Standard.functions, fn.type.Normal := by decide +kernel
    exact signatures fn member
  | defined defined =>
    refine Term.normal_func.mpr (List.forall_mem_append.mpr ⟨?_, ?_⟩)
    · exact List.forall_mem_map.mpr fun param member => (defined.params param member).2.normal
    · exact List.forall_mem_singleton.mpr defined.result.normal

theorem persistent_normal : Persistent Term.Normal where
  named head := Term.IsNamed.normal ⟨head, rfl⟩
  function known := known.normal_type
  read s t := s.normal_read t
  listOf here := (Term.normal_con_of_ne (by decide)).mpr (List.forall_mem_singleton.mpr here)

/-- Stores that come from the standard one by evaluating expressions in any of their scopes, with or
without success, and by making scopes inside of others. -/
inductive Store.Reached (unions : Bool) : Store → Prop
  | standard (report : Report) : Reached unions (Standard.store report)
  | child {store : Store} (parent : Nat) : Reached unions store →
      Reached unions (store.child parent).2
  | evaluated {store : Store} (depth : Nat) (e : Expr) (scope : Nat) : Reached unions store →
      Reached unions
        ((evaluateWithin (Standard.instances unions) depth e scope).left store)

theorem Store.Reached.neat {unions : Bool} {store : Store} (reached : store.Reached unions) :
    store.All Value.Neat := by
  induction reached with
  | standard report => exact persistent_normal.all_store report
  | child parent _ ih => exact ih.child parent
  | @evaluated store depth e scope _ ih =>
    have landed := safe_evaluateWithin (Standard.trusted_instances unions) persistent_normal depth e
      scope store ih
    unfold Evaluating.left
    generalize evaluateWithin (Standard.instances unions) depth e scope store = result at landed
    cases landed with
    | ok _ all => exact all
    | error all => exact all

end TypedCalls
