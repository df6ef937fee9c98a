import BranchBound.Proofs.Search.Session
import BranchBound.Proofs.Search.Tree
import BranchBound.Proofs.Wire.Acceptance
import BranchBound.Workspace.Task
import BranchBound.Proofs.Wire.Truncation
import BranchBound.Proofs.Binary64.Distance
import BranchBound.Proofs.Column.Agreement
import BranchBound.Proofs.Wire.Queue
import BranchBound.Proofs.Invariant
import BranchBound.Proofs.Weights.Cache
import BranchBound.Proofs.Weights.Hashing
import BranchBound.Proofs.Workspace.Evolution
import BranchBound.Proofs.Workspace.History
import BranchBound.Proofs.Column.Binary
import BranchBound.Proofs.Column.Fixing
import BranchBound.Proofs.Column.Learning
import BranchBound.Proofs.Row.Construction
import BranchBound.Proofs.Row.Lookup
import BranchBound.Proofs.Row.Order
import BranchBound.Proofs.Wire.Wrapping
import BranchBound.Proofs.Wire.Codes
import BranchBound.Proofs.Wire.Atomicity
import BranchBound.Proofs.Wire.Utf8
import BranchBound.Proofs.Wire.Framing
import BranchBound.Proofs.Weights.Reseeding
import BranchBound.Proofs.Workspace.Reseeding
import BranchBound.Proofs.Binary64.Squash
import BranchBound.Proofs.Row.Scale
import BranchBound.Proofs.Search.Scale
import BranchBound.Proofs.Workspace.Upkeep
import BranchBound.Proofs.Workspace.Ownership
import BranchBound.Proofs.Entity.Integers
import BranchBound.Proofs.Entity.Gap
import BranchBound.Proofs.Column.Stepping
import BranchBound.Proofs.Search.Settling
import BranchBound.Proofs.Exact
import BranchBound.Proofs.Row.NormalForm
import BranchBound.Proofs.Row.Ranking
import BranchBound.Proofs.Column.Averages
import BranchBound.Proofs.Solution.Selection
import BranchBound.Proofs.Workspace.Retrieval
import BranchBound.Proofs.Wire.Integrity
import BranchBound.Proofs.Datum.Tables
