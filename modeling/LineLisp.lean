import LineLisp.Completion
import LineLisp.Highlight
import LineLisp.Main
import LineLisp.Proofs.Outcome
import LineLisp.Proofs.Coupling
import LineLisp.Proofs.Simulation
import LineLisp.Proofs.Evolution
import LineLisp.Proofs.WriteConfinement
import LineLisp.Proofs.CallBound
import LineLisp.Proofs.Nesting
import LineLisp.Proofs.Reachable
import LineLisp.Proofs.Termination
import LineLisp.Proofs.DepthLimit
import LineLisp.Proofs.LineRun
import LineLisp.Proofs.SinkCut
import LineLisp.Proofs.Balance
import LineLisp.Proofs.Numeral
import LineLisp.Proofs.Printing
import LineLisp.Proofs.LexicalScope
import LineLisp.Proofs.Repetition
import LineLisp.Proofs.Highlighting
import LineLisp.Proofs.TreeByTree
import LineLisp.Proofs.Concatenation
import LineLisp.Proofs.LineJoin
import LineLisp.Proofs.Sessions
import LineLisp.Proofs.BigStep
import LineLisp.Proofs.Adequacy
import LineLisp.Proofs.Moments
import LineLisp.Proofs.CallDepth
import LineLisp.Proofs.ScopeLinks
import LineLisp.Proofs.Underline
import LineLisp.Proofs.Discipline
import LineLisp.Proofs.Interference
import LineLisp.Proofs.Provenance
import LineLisp.Proofs.SetScope
import LineLisp.Proofs.Succession
import LineLisp.Proofs.SetWarnings
import LineLisp.Proofs.Segmentation
import LineLisp.Proofs.Expressions
import LineLisp.Proofs.Literal
import LineLisp.Proofs.ExactArithmetic
import LineLisp.Proofs.ArithmeticLaws
import LineLisp.Proofs.Magnitude
import LineLisp.Proofs.Binding
import LineLisp.Proofs.Iteration
import LineLisp.Proofs.Visibility
import LineLisp.Proofs.Colouring
import LineLisp.Proofs.Echo
import LineLisp.Proofs.ByteOrder
import LineLisp.Proofs.Completions
import LineLisp.Proofs.ErrorPlaces
import LineLisp.Proofs.SettingTexts
import LineLisp.Proofs.Identity
import LineLisp.Proofs.Equality
