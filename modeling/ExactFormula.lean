import ExactFormula.Workspace.Run
import ExactFormula.Proofs.Formula.Relabelling
import ExactFormula.Proofs.Rewrite.Relabelling
import ExactFormula.Proofs.Formula.Coherence
import ExactFormula.Proofs.Formula.Gather
import ExactFormula.Proofs.Rewrite.Context
import ExactFormula.Proofs.Rewrite.Outputs
import ExactFormula.Proofs.Rewrite.Termination
import ExactFormula.Proofs.Rewrite.Value
import ExactFormula.Proofs.Formula.WellFormed
import ExactFormula.Proofs.Store.Session
import ExactFormula.Proofs.Display.Checked
import ExactFormula.Proofs.Rewrite.Checked
import ExactFormula.Proofs.Rewrite.Structure
import ExactFormula.Proofs.Store.Identity
import ExactFormula.Proofs.Number.Multiplicity
import ExactFormula.Proofs.Rewrite.FixedPoint
import ExactFormula.Proofs.Text.Digits
import ExactFormula.Proofs.Text.Blank
import ExactFormula.Proofs.Number.Places
import ExactFormula.Proofs.Json.Quoted
import ExactFormula.Proofs.Number.ExactText
import ExactFormula.Proofs.Formula.Term
import ExactFormula.Proofs.Display.Written
import ExactFormula.Proofs.Display.Unambiguous
import ExactFormula.Proofs.Workspace.Session
import ExactFormula.Proofs.Number.Grammar
import ExactFormula.Proofs.Derivation.Order
import ExactFormula.Proofs.Derivation.Names
import ExactFormula.Proofs.Store.Ledger
import ExactFormula.Proofs.Rewrite.NormalForm
import ExactFormula.Proofs.Rewrite.Position
import ExactFormula.Proofs.Formula.Evaluation
import ExactFormula.Proofs.Workspace.Independence
import ExactFormula.Proofs.Formula.Chain
import ExactFormula.Proofs.Rewrite.Contents
import ExactFormula.Proofs.Rewrite.Erased
import ExactFormula.Proofs.Number.Rounding
import ExactFormula.Proofs.Number.Power
import ExactFormula.Proofs.Rewrite.Log
import ExactFormula.Proofs.Binary64.Rounding
import ExactFormula.Proofs.Binary64.Power
import ExactFormula.Proofs.Decimal.Accuracy
import ExactFormula.Proofs.Number.Binary
import ExactFormula.Proofs.Number.Significant
