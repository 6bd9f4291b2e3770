import LinearTemporal.Formula.Junction
import LinearTemporal.Formula.Measure
import LinearTemporal.Formula.Validity
import LinearTemporal.Word.Enumeration
import LinearTemporal.Rule.Basic
import LinearTemporal.Rule.Entailment
import LinearTemporal.Rule.Propositional
import LinearTemporal.Rule.Modal
import LinearTemporal.Rule.Subsumption
import LinearTemporal.Rule.NextFloating
import LinearTemporal.Strategy
import LinearTemporal.Simplification.Run
import LinearTemporal.Surface.Grammar
import LinearTemporal.Surface.Routine
import LinearTemporal.Decimal.Layout
import LinearTemporal.Json.Printer
import LinearTemporal.Formula.Document
import LinearTemporal.Word.Document
import LinearTemporal.Report.Batch
import LinearTemporal.Report.Comparison
import LinearTemporal.Settings
import LinearTemporal.CommandLine.Program
import LinearTemporal.CommandLine.Surroundings
import LinearTemporal.Main
import LinearTemporal.Proofs.CanonicalOrder
import LinearTemporal.Proofs.Parts
import LinearTemporal.Proofs.CanonicalShape
import LinearTemporal.Proofs.OrderLaws
import LinearTemporal.Proofs.WrappingTerms
import LinearTemporal.Proofs.Satisfaction
import LinearTemporal.Proofs.LassoWord
import LinearTemporal.Proofs.LassoFixpoint
import LinearTemporal.Proofs.LassoEvaluation
import LinearTemporal.Proofs.Equivalence
import LinearTemporal.Proofs.SuffixInvariance
import LinearTemporal.Proofs.OperandSets
import LinearTemporal.Proofs.RelevantNames
import LinearTemporal.Proofs.Entailment
import LinearTemporal.Proofs.RuleStep
import LinearTemporal.Proofs.RuleSoundness
import LinearTemporal.Proofs.Measures
import LinearTemporal.Proofs.Bulk
import LinearTemporal.Proofs.Reduction
import LinearTemporal.Proofs.RuleShape
import LinearTemporal.Proofs.EntailmentOrder
import LinearTemporal.Proofs.RuleTermination
import LinearTemporal.Proofs.NormalForm
import LinearTemporal.Proofs.PassLimit
import LinearTemporal.Proofs.FiringLimit
import LinearTemporal.Proofs.BottomUp
import LinearTemporal.Proofs.NegationNormal
import LinearTemporal.Proofs.Strands
import LinearTemporal.Proofs.Flattening
import LinearTemporal.Proofs.Presimplification
import LinearTemporal.Proofs.Duality
import LinearTemporal.Proofs.SubsumptionLast
import LinearTemporal.Proofs.Gathered
import LinearTemporal.Proofs.TemporalSubsumption
import LinearTemporal.Proofs.Extents
import LinearTemporal.Proofs.SizeBound
import LinearTemporal.Proofs.PropositionalFirst
import LinearTemporal.Proofs.StrongerStrategies
import LinearTemporal.Proofs.NextDepth
import LinearTemporal.Proofs.NextErasure
import LinearTemporal.Proofs.ExcludedMiddle
import LinearTemporal.Proofs.DescentOrder
import LinearTemporal.Proofs.SurfaceMeaning
import LinearTemporal.Proofs.ParserSoundness
import LinearTemporal.Proofs.ParserCompleteness
import LinearTemporal.Proofs.Lexing
import LinearTemporal.Proofs.TermPrinting
import LinearTemporal.Proofs.Printable
import LinearTemporal.Proofs.RoundTrip
import LinearTemporal.Proofs.Rereading
import LinearTemporal.Proofs.Documents
import LinearTemporal.Proofs.ShapeInvariant
import LinearTemporal.Proofs.BoundedWords
import LinearTemporal.Proofs.BoundedVerification
import LinearTemporal.Proofs.BoundedEquivalence
import LinearTemporal.Proofs.RunMetrics
import LinearTemporal.Proofs.BatchRecords
import LinearTemporal.Proofs.ReaderErrors
import LinearTemporal.Proofs.ErrorPlaces
import LinearTemporal.Proofs.LassoIteration
import LinearTemporal.Proofs.TokenLayout
import LinearTemporal.Proofs.NestingErrors
import LinearTemporal.Proofs.DecimalText
import LinearTemporal.Proofs.ScriptRuns
import LinearTemporal.Proofs.StandardOutput
import LinearTemporal.Proofs.Bookkeeping
