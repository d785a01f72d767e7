import ManyValued.Main
import ManyValued.RandomFormula
import ManyValued.Proofs.Scale.Least
import ManyValued.Proofs.Network
import ManyValued.Proofs.Network.Failure
import ManyValued.Proofs.Network.DeadNeuron
import ManyValued.Proofs.Network.IdentityLayer
import ManyValued.Proofs.Evaluation
import ManyValued.Proofs.Expansion
import ManyValued.Proofs.Cache.Entries
import ManyValued.Proofs.Network.Integral
import ManyValued.Proofs.Synthesis.Descent
import ManyValued.Proofs.Synthesis.Termination
import ManyValued.Proofs.Synthesis.Folding
import ManyValued.Proofs.Synthesis.Vocabulary
import ManyValued.Proofs.Substitution
import ManyValued.Proofs.Cache.Accounting
import ManyValued.Proofs.Cache.Depths
import ManyValued.Proofs.Evaluation.Failure
import ManyValued.Proofs.Formula.Levels
import ManyValued.Proofs.Evaluation.Range
import ManyValued.Proofs.RandomFormula
import ManyValued.Proofs.Evaluation.Derived
import ManyValued.Proofs.Evaluation.Crisp
import ManyValued.Proofs.Substitution.Twice
import ManyValued.Proofs.Formula.Decomposition
