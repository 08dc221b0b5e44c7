import HornLogic.Family
import HornLogic.Main
import HornLogic.Proofs.Bindings.Cycles
import HornLogic.Proofs.Bindings.Rollback
import HornLogic.Proofs.Candidates
import HornLogic.Proofs.Names.Requests
import HornLogic.Proofs.Names.Variant
import HornLogic.Proofs.Search.ChoicePoints
import HornLogic.Proofs.Search.ClauseOrder
import HornLogic.Proofs.Search.Completeness
import HornLogic.Proofs.Search.Conjunction
import HornLogic.Proofs.Search.Excess
import HornLogic.Proofs.Search.FewerClauses
import HornLogic.Proofs.Search.Forests
import HornLogic.Proofs.Search.GoalOrder
import HornLogic.Proofs.Search.InPlay
import HornLogic.Proofs.Search.Index
import HornLogic.Proofs.Search.Log
import HornLogic.Proofs.Search.Nesting
import HornLogic.Proofs.Search.ResolvedAnswers
import HornLogic.Proofs.Search.Specialization
import HornLogic.Proofs.Search.Termination
import HornLogic.Proofs.Search.VariableNames
import HornLogic.Proofs.Terms.Equality
import HornLogic.Proofs.Terms.Text
import HornLogic.Proofs.Terms.Variables
import HornLogic.Proofs.Unification.EarlyOrLate
import HornLogic.Proofs.Unification.EquationOrder
import HornLogic.Proofs.Unification.NewEntries
import HornLogic.Proofs.Unification.Outcome
