import PrimeForm.Formula.Equivalence
import PrimeForm.Main
import PrimeForm.Proofs.Implicant
import PrimeForm.Proofs.MergeRounds
import PrimeForm.Proofs.Cubes
import PrimeForm.Proofs.AllPairs
import PrimeForm.Proofs.RoundLevels
import PrimeForm.Proofs.TermText
import PrimeForm.Proofs.Formula.Value
import PrimeForm.Proofs.Formula.Evaluation
import PrimeForm.Proofs.TruthTable
import PrimeForm.Proofs.SumOfProducts
import PrimeForm.Proofs.CoveredRows
import PrimeForm.Proofs.Simplification
import PrimeForm.Proofs.Analysis
import PrimeForm.Proofs.Parity
import PrimeForm.Proofs.CompactText
import PrimeForm.Proofs.CanonicalForm
import PrimeForm.Proofs.Grammar.Derivation
import PrimeForm.Proofs.Grammar.Reading
import PrimeForm.Proofs.Grammar.Refusal
import PrimeForm.Proofs.Grammar.Printing
import PrimeForm.Proofs.Grammar.ShortestText
import PrimeForm.Proofs.Grammar.Depth
import PrimeForm.Proofs.ParseableText
import PrimeForm.Proofs.Renderings
import PrimeForm.Proofs.Grammar.ExplicitPrinting
import PrimeForm.Proofs.Formula.Equivalence
import PrimeForm.Proofs.Tabulation
import PrimeForm.Proofs.AnalysisFailure
