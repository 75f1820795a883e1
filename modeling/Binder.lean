import Binder.Main
import Binder.Proofs.Constant.Division
import Binder.Proofs.Constant.Signs
import Binder.Proofs.Document.RoundTrip
import Binder.Proofs.Inference.Again
import Binder.Proofs.Inference.Cascade
import Binder.Proofs.Inference.FanIn
import Binder.Proofs.Inference.Schedule
import Binder.Proofs.Module.Calls
import Binder.Proofs.Module.Choices
import Binder.Proofs.Module.Independence
import Binder.Proofs.Module.Inventory
import Binder.Proofs.Module.LexicalBuild
import Binder.Proofs.Module.Moments
import Binder.Proofs.Module.Omission
import Binder.Proofs.Prelude.Ambiguity
import Binder.Proofs.Scope.Merging
import Binder.Proofs.TypeGraph.Equivalence
import Binder.Proofs.Unify.Comparison
import Binder.Proofs.Unify.Repetition
import Binder.Tree.Text
