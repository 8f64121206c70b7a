import Relatedness.LinkProbability.Estimator
import Relatedness.Percentile.Normalizer
import Relatedness.Proofs.Disk.Interrupted
import Relatedness.Proofs.KeyValue.Recovery
import Relatedness.Proofs.KeyValue.Salvage
import Relatedness.Proofs.LinkProbability.Apart
import Relatedness.Proofs.LinkProbability.Failure
import Relatedness.Proofs.LinkProbability.Statistics
import Relatedness.Proofs.LinkProbability.Subphrases
import Relatedness.Proofs.Matrix.Bounds
import Relatedness.Proofs.Matrix.Exact
import Relatedness.Proofs.Matrix.Rejected
import Relatedness.Proofs.Matrix.Transaction
import Relatedness.Proofs.Percentile.Bracket
import Relatedness.Proofs.Percentile.Invariant
import Relatedness.Proofs.Percentile.Normalize
import Relatedness.Proofs.Percentile.Reloaded
import Relatedness.Proofs.Percentile.Unordered
import Relatedness.Proofs.Saved
import Relatedness.Proofs.Selection
import Relatedness.Proofs.Similarity.Comparison
import Relatedness.Proofs.Similarity.Mismatch
import Relatedness.Proofs.Similarity.Reread
import Relatedness.Proofs.Unsaved
import Relatedness.Similarity.Engine
