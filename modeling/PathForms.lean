import PathForms.Buffer.Program
import PathForms.Path.Program
import PathForms.Proofs.Ancestors
import PathForms.Proofs.BufferRuns
import PathForms.Proofs.CanonicalIdempotent
import PathForms.Proofs.EqualPaths
import PathForms.Proofs.Equivalence
import PathForms.Proofs.Extensions
import PathForms.Proofs.JoinCanonical
import PathForms.Proofs.PathOrder
import PathForms.Proofs.PathRuns
import PathForms.Proofs.Popping
import PathForms.Proofs.Pushing
import PathForms.Proofs.Rebuilding
import PathForms.Proofs.Resolution
import PathForms.Proofs.ResolutionOutcome
import PathForms.Proofs.RootRules
import PathForms.Proofs.RootStability
import PathForms.Proofs.SeparatorRuns
import PathForms.Proofs.SeparatorSpelling
import PathForms.Proofs.StorageRuns
import PathForms.Proofs.TrailingSeparator
import PathForms.Proofs.ValidRuns
import PathForms.Proofs.Walks
import PathForms.Proofs.WideText
import PathForms.Proofs.Widening
