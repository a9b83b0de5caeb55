import Vetting.Double.Arith
import Vetting.Double.Decimal
import Vetting.Double.Shortest
import Vetting.Engine.Validate
import Vetting.Module.Builtin
import Vetting.Outcome
import Vetting.Pattern.Basic
import Vetting.Rule.Binding
import Vetting.Rule.Canonical
import Vetting.Rule.Decode
import Vetting.Rule.Describe
import Vetting.Rule.Equality
import Vetting.Rule.FormOptions
import Vetting.Template
import Vetting.Validator.Builtin
import Vetting.Value.Loose
import Vetting.Value.Reader
import Vetting.Value.Writer
import Vetting.Proofs.RunConduct
import Vetting.Proofs.BuiltinModules
import Vetting.Proofs.Evaluation
import Vetting.Proofs.NestedRules
import Vetting.Proofs.CallerState
import Vetting.Proofs.RunJournal
import Vetting.Proofs.WellFormedRules
import Vetting.Proofs.OutcomeVerdict
import Vetting.Proofs.RepeatedEvaluation
import Vetting.Proofs.AbandonedValidators
import Vetting.Proofs.DependencyCycles
import Vetting.Proofs.ForcedReports
import Vetting.Proofs.DecidedOutcomes
import Vetting.Proofs.ModuleLocality
import Vetting.Proofs.RecordsAtRest
import Vetting.Proofs.RulesFromData
import Vetting.Proofs.Revalidation
import Vetting.Proofs.SettlingRules
import Vetting.Proofs.FieldClosure
import Vetting.Proofs.RunFrame
import Vetting.Proofs.RecordFindings
import Vetting.Proofs.TopologicalOrder
import Vetting.Proofs.SimpleCoercions
import Vetting.Proofs.DeclarationOrder
import Vetting.Proofs.StrictAndLenient
import Vetting.Proofs.EngineExtension
import Vetting.Proofs.OutcomeBranches
import Vetting.Proofs.PatternLanguage
import Vetting.Proofs.RoundingToNearest
import Vetting.Proofs.NearestDouble
import Vetting.Proofs.ShortestDigits
import Vetting.Proofs.NumberText
import Vetting.Proofs.Numerals
import Vetting.Proofs.FormatRules
import Vetting.Proofs.RuleGrammar
import Vetting.Proofs.RuleEncoding
import Vetting.Proofs.CanonicalForms
import Vetting.Proofs.FormTranslation
import Vetting.Proofs.WholeValue
import Vetting.Proofs.FieldsInProgress
import Vetting.Proofs.ValueLikeness
import Vetting.Proofs.UnknownValidators
import Vetting.Proofs.LikeValidators
import Vetting.Proofs.LikeRules
import Vetting.Proofs.LikeModules
import Vetting.Proofs.EqualRules
import Vetting.Proofs.ReportAssembly
import Vetting.Proofs.IntegerCoercion
import Vetting.Proofs.FloatCoercion
import Vetting.Proofs.RepeatedCoercion
import Vetting.Proofs.TemplatePlaceholders
import Vetting.Proofs.ValueComparison
import Vetting.Proofs.NumericText
import Vetting.Proofs.NamedPatterns
import Vetting.Proofs.FormatInclusions
import Vetting.Proofs.CallArguments
