import EntityGraph.Calendar
import EntityGraph.Config
import EntityGraph.Decimal.Number
import EntityGraph.Decimal.Reader
import EntityGraph.Decimal.Shortest
import EntityGraph.Definition
import EntityGraph.Description
import EntityGraph.Dispatch
import EntityGraph.Endpoint
import EntityGraph.Fault
import EntityGraph.Moment
import EntityGraph.Moment.Reader
import EntityGraph.Mutation.Behaviour
import EntityGraph.Mutation.Executor
import EntityGraph.Mutation.Materialize
import EntityGraph.ObjectId
import EntityGraph.Proofs.Action
import EntityGraph.Proofs.Acyclicity
import EntityGraph.Proofs.Admission
import EntityGraph.Proofs.Answers
import EntityGraph.Proofs.Assembly
import EntityGraph.Proofs.Atomicity
import EntityGraph.Proofs.CallAtomicity
import EntityGraph.Proofs.Coercion
import EntityGraph.Proofs.CommitCount
import EntityGraph.Proofs.Compilation
import EntityGraph.Proofs.Completion
import EntityGraph.Proofs.Composition
import EntityGraph.Proofs.Conformance
import EntityGraph.Proofs.Conjunction
import EntityGraph.Proofs.Documents
import EntityGraph.Proofs.EmbeddedChanges
import EntityGraph.Proofs.EndpointTable
import EntityGraph.Proofs.Entries
import EntityGraph.Proofs.EqualityTerms
import EntityGraph.Proofs.Exposure
import EntityGraph.Proofs.FailedFinalizing
import EntityGraph.Proofs.FilterMeaning
import EntityGraph.Proofs.FinalShapes
import EntityGraph.Proofs.HookEdits
import EntityGraph.Proofs.Identity
import EntityGraph.Proofs.Interleaving
import EntityGraph.Proofs.Isolation
import EntityGraph.Proofs.JoinLabels
import EntityGraph.Proofs.Links
import EntityGraph.Proofs.Listing
import EntityGraph.Proofs.Members
import EntityGraph.Proofs.MiddlewareChain
import EntityGraph.Proofs.Negation
import EntityGraph.Proofs.Nulls
import EntityGraph.Proofs.Offers
import EntityGraph.Proofs.Overlap
import EntityGraph.Proofs.Paging
import EntityGraph.Proofs.PathUpdates
import EntityGraph.Proofs.Paths
import EntityGraph.Proofs.Patterns
import EntityGraph.Proofs.Pipeline
import EntityGraph.Proofs.Planting
import EntityGraph.Proofs.RangeCalls
import EntityGraph.Proofs.Ranges
import EntityGraph.Proofs.ReadableDocuments
import EntityGraph.Proofs.ReadyStore
import EntityGraph.Proofs.Recording
import EntityGraph.Proofs.Refusals
import EntityGraph.Proofs.Renaming
import EntityGraph.Proofs.Replay
import EntityGraph.Proofs.RequiredValues
import EntityGraph.Proofs.Requirements
import EntityGraph.Proofs.RetakenWrites
import EntityGraph.Proofs.Retakes
import EntityGraph.Proofs.Retry
import EntityGraph.Proofs.Revisions
import EntityGraph.Proofs.Schedules
import EntityGraph.Proofs.Schemas
import EntityGraph.Proofs.Scoping
import EntityGraph.Proofs.Session
import EntityGraph.Proofs.ShapeNames
import EntityGraph.Proofs.Shapes
import EntityGraph.Proofs.SortPaths
import EntityGraph.Proofs.Sorting
import EntityGraph.Proofs.SoundStore
import EntityGraph.Proofs.Spots
import EntityGraph.Proofs.StateTree
import EntityGraph.Proofs.States
import EntityGraph.Proofs.StoreSteps
import EntityGraph.Proofs.StoredForms
import EntityGraph.Proofs.Tours
import EntityGraph.Proofs.Transition
import EntityGraph.Proofs.Transparency
import EntityGraph.Proofs.Tree
import EntityGraph.Proofs.UniquePaths
import EntityGraph.Proofs.Uniqueness
import EntityGraph.Proofs.Updates
import EntityGraph.Proofs.Upkeep
import EntityGraph.Proofs.ValidatedCalls
import EntityGraph.Proofs.Validation
import EntityGraph.Query.Compile
import EntityGraph.Query.Condition
import EntityGraph.Query.Term
import EntityGraph.Reason
import EntityGraph.Record
import EntityGraph.Registry
import EntityGraph.Registry.Finalize
import EntityGraph.Schema.Document
import EntityGraph.Schema.Entity
import EntityGraph.Schema.Scalar
import EntityGraph.Schema.Storage
import EntityGraph.Shape
import EntityGraph.Shape.Check
import EntityGraph.Simulation.Journal
import EntityGraph.Simulation.Reader
import EntityGraph.Simulation.Script
import EntityGraph.Simulation.Service
import EntityGraph.Simulation.Wire
import EntityGraph.Store.Aggregate
import EntityGraph.Store.Contract
import EntityGraph.Store.Match
import EntityGraph.Store.Memory
import EntityGraph.Store.Path
import EntityGraph.Store.Remote
import EntityGraph.Text.Digit
import EntityGraph.Text.LetterCase
import EntityGraph.Text.Name
import EntityGraph.Text.Pattern
import EntityGraph.Text.Printable
import EntityGraph.Text.Quoted
import EntityGraph.Text.Split
import EntityGraph.Transaction
import EntityGraph.Value
import EntityGraph.Value.Text
import EntityGraph.Yaml.Reader
import EntityGraph.Yaml.Scalar
import EntityGraph.Yaml.Writer
