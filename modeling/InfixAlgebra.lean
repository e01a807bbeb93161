import InfixAlgebra.Workspace
import InfixAlgebra.Proofs.Evaluation.Editing
import InfixAlgebra.Proofs.Evaluation.Flattening
import InfixAlgebra.Proofs.Evaluation.Pruning
import InfixAlgebra.Proofs.Evaluation.Records
import InfixAlgebra.Proofs.Evaluation.Substitution
import InfixAlgebra.Proofs.Expr.Regrouping
import InfixAlgebra.Proofs.Parse.Blanks
import InfixAlgebra.Proofs.Parse.Composition
import InfixAlgebra.Proofs.Parse.Contents
import InfixAlgebra.Proofs.Parse.Parentheses
import InfixAlgebra.Proofs.Parse.RoundTrip
import InfixAlgebra.Proofs.Workspace.Session
import InfixAlgebra.Proofs.Expr.Readability
import InfixAlgebra.Proofs.Parse.Factors
import InfixAlgebra.Proofs.Parse.Injectivity
import InfixAlgebra.Proofs.Machine.Reducers
import InfixAlgebra.Proofs.Parse.Refusals
import InfixAlgebra.Proofs.Parse.Symbols
import InfixAlgebra.Proofs.Expr.Congruence
import InfixAlgebra.Proofs.Parse.Names
import InfixAlgebra.Proofs.Parse.Trace
import InfixAlgebra.Proofs.Workspace.Operands
