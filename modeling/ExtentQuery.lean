import ExtentQuery.Backend.Memory
import ExtentQuery.Backend.Restricted
import ExtentQuery.Backend.Unfaithful
import ExtentQuery.Inspect
import ExtentQuery.Metadata.Schema
import ExtentQuery.Proofs.Evaluation.Remembering
import ExtentQuery.Proofs.Evaluation.Subtypes
import ExtentQuery.Proofs.Rewriting.Fixpoint
import ExtentQuery.Query.DepthAlarm
import ExtentQuery.Selection.Algebra
import ExtentQuery.Settings.Document
import ExtentQuery.Proofs.Evaluation.Joining
import ExtentQuery.Proofs.Caching.Serving
import ExtentQuery.Proofs.Sorting.Runs
import ExtentQuery.Proofs.Sorting.StableSort
import ExtentQuery.Proofs.Sorting.Keys
import ExtentQuery.Proofs.Evaluation.SortedQueries
import ExtentQuery.Proofs.Evaluation.Splicing
import ExtentQuery.Proofs.Evaluation.Concatenation
import ExtentQuery.Proofs.Evaluation.KeepingOrder
import ExtentQuery.Proofs.Evaluation.SortSteps
import ExtentQuery.Proofs.Evaluation.SortedListings
import ExtentQuery.Proofs.Evaluation.SortedExtents
import ExtentQuery.Proofs.Evaluation.SortPaths
import ExtentQuery.Proofs.Caching.SuppliedKeys
import ExtentQuery.Proofs.Evaluation.Shortcut
import ExtentQuery.Proofs.Evaluation.Filtering
import ExtentQuery.Proofs.Evaluation.LinkSorts
import ExtentQuery.Proofs.Rewriting.Ranges
import ExtentQuery.Proofs.Rewriting.Charges
import ExtentQuery.Proofs.Rewriting.Exchanges
import ExtentQuery.Proofs.Rewriting.Shape
import ExtentQuery.Proofs.Sorting.StableOrder
import ExtentQuery.Proofs.Metadata.Distances
import ExtentQuery.Proofs.Sorting.Interleaving
import ExtentQuery.Proofs.Caching.Recency
import ExtentQuery.Proofs.Backend.Runs
import ExtentQuery.Proofs.Metadata.Inheritance
import ExtentQuery.Proofs.Caching.Equality
import ExtentQuery.Proofs.Caching.Asking
import ExtentQuery.Proofs.Evaluation.Composition
import ExtentQuery.Proofs.Evaluation.Outcomes
import ExtentQuery.Proofs.Evaluation.FirstReads
import ExtentQuery.Proofs.Evaluation.Interruptions
import ExtentQuery.Proofs.Rewriting.Nesting
import ExtentQuery.Proofs.Evaluation.Uniting
import ExtentQuery.Proofs.Rewriting.Congruence
