import TypedCalls.Call.Arity
import TypedCalls.Call.Matching
import TypedCalls.Call.Param
import TypedCalls.Classes.Basic
import TypedCalls.Classes.Printer
import TypedCalls.Classes.Reading
import TypedCalls.Decimal.Nearest
import TypedCalls.Decimal.Reader
import TypedCalls.Decimal.Shortest
import TypedCalls.Eval.Coercion
import TypedCalls.Eval.Error
import TypedCalls.Eval.Evaluator
import TypedCalls.Eval.Store
import TypedCalls.Expr.Basic
import TypedCalls.Expr.Printer
import TypedCalls.Instance.Basic
import TypedCalls.Instance.Resolution
import TypedCalls.Proofs.Call.Exhaustive
import TypedCalls.Proofs.Call.Leaves
import TypedCalls.Proofs.Call.Steps
import TypedCalls.Proofs.Call.Success
import TypedCalls.Proofs.Classes.Acyclic
import TypedCalls.Proofs.Classes.History
import TypedCalls.Proofs.Classes.Laws
import TypedCalls.Proofs.Classes.Ledger
import TypedCalls.Proofs.Classes.Roots
import TypedCalls.Proofs.Classes.Solutions
import TypedCalls.Proofs.Classes.Table
import TypedCalls.Proofs.Eval.Coercion
import TypedCalls.Proofs.Eval.Frame
import TypedCalls.Proofs.Eval.Neatness
import TypedCalls.Proofs.Eval.Pairing
import TypedCalls.Proofs.Eval.Polymorphism
import TypedCalls.Proofs.Eval.Safety
import TypedCalls.Proofs.Eval.Soundness
import TypedCalls.Proofs.Instance.Completeness
import TypedCalls.Proofs.Instance.Cost
import TypedCalls.Proofs.Instance.Derivation
import TypedCalls.Proofs.Instance.Opening
import TypedCalls.Proofs.Instance.Progress
import TypedCalls.Proofs.Instance.Renewal
import TypedCalls.Proofs.Instance.Search
import TypedCalls.Proofs.Instance.Senses
import TypedCalls.Proofs.Instance.Soundness
import TypedCalls.Proofs.Standard.Bulk
import TypedCalls.Proofs.Standard.Conversions
import TypedCalls.Proofs.Standard.Functions
import TypedCalls.Proofs.Succeeding
import TypedCalls.Proofs.Term.Filling
import TypedCalls.Proofs.Term.Normal
import TypedCalls.Proofs.Term.Renaming
import TypedCalls.Proofs.Term.Sense
import TypedCalls.Proofs.Typer.Acyclicity
import TypedCalls.Proofs.Typer.Deepening
import TypedCalls.Proofs.Typer.Depth
import TypedCalls.Proofs.Typer.Fresh
import TypedCalls.Proofs.Typer.Growth
import TypedCalls.Proofs.Typer.Lessons
import TypedCalls.Proofs.Typer.Mirror
import TypedCalls.Proofs.Typer.Models
import TypedCalls.Proofs.Typer.Reduction
import TypedCalls.Proofs.Typer.Runs
import TypedCalls.Proofs.Typer.Symmetry
import TypedCalls.Proofs.Typer.Trials
import TypedCalls.Proofs.Typer.Twins
import TypedCalls.Proofs.Typer.Unification
import TypedCalls.Proofs.Value.Inhabitation
import TypedCalls.Report
import TypedCalls.SortedBy
import TypedCalls.Standard.Instances
import TypedCalls.Standard.Names
import TypedCalls.Standard.Types
import TypedCalls.Term.Basic
import TypedCalls.Term.Malformed
import TypedCalls.Term.Nullable
import TypedCalls.Term.Printer
import TypedCalls.Term.Substitution
import TypedCalls.Text.Distance
import TypedCalls.Text.Numeral
import TypedCalls.Text.Quoted
import TypedCalls.Typer.Basic
import TypedCalls.Typer.Clash
import TypedCalls.Typer.Unify
import TypedCalls.Typer.Workshop
import TypedCalls.Value.Basic
import TypedCalls.Value.Collection
import TypedCalls.Value.Evidence
import TypedCalls.Value.Fault
import TypedCalls.Value.Key
import TypedCalls.Value.Printer
import TypedCalls.Proofs.Call.Delivery
import TypedCalls.Proofs.Call.Splits
import TypedCalls.Proofs.Typer.Rigidity
import TypedCalls.Proofs.Typer.Generality
import TypedCalls.Proofs.Term.Alpha
import TypedCalls.Proofs.Typer.Alpha
import TypedCalls.Proofs.Term.Capture
import TypedCalls.Proofs.Call.Verdict
import TypedCalls.Proofs.Call.Named
import TypedCalls.Proofs.Call.Shortage
import TypedCalls.Proofs.Eval.Agreement
import TypedCalls.Proofs.Call.Integrity
import TypedCalls.Proofs.Descent
import TypedCalls.Proofs.Term.Resolved
import TypedCalls.Proofs.Instance.Building
import TypedCalls.Proofs.Instance.Pursuit
import TypedCalls.Proofs.Standard.Upcasts
import TypedCalls.Proofs.Instance.Accounts
import TypedCalls.Proofs.Instance.Precedence
import TypedCalls.Proofs.Standard.CommonType
import TypedCalls.Proofs.Eval.Lifting
import TypedCalls.Proofs.Text.Edits
import TypedCalls.Proofs.Typer.Rereading
import TypedCalls.Proofs.Instance.Visits
import TypedCalls.Proofs.Eval.FreshNames
