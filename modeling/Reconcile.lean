import Reconcile.Declaration
import Reconcile.Declaration.Identity
import Reconcile.Declaration.Compatibility
import Reconcile.Declaration.Category
import Reconcile.Forest
import Reconcile.Forest.Edit
import Reconcile.Forest.Outline
import Reconcile.Forest.Visit
import Reconcile.Forest.Ancestry
import Reconcile.Forest.Graft
import Reconcile.Index
import Reconcile.Merge.Event
import Reconcile.Merge
import Reconcile.Merge.Fold
import Reconcile.Layout
import Reconcile.Layout.Phrase
import Reconcile.Layout.Render
import Reconcile.Layout.Output
import Reconcile.Json.Numeral
import Reconcile.Json.Value
import Reconcile.Json.Token
import Reconcile.Json.Parser
import Reconcile.Json.Writer
import Reconcile.Json.Record
import Reconcile.Document
import Reconcile.Document.Writer
import Reconcile.Document.Reader
import Reconcile.Document.Build
import Reconcile.Normal.Nesting
import Reconcile.Normal.Order
import Reconcile.Normal
import Reconcile.Report
import Reconcile.Settings
import Reconcile.Command.Arguments
import Reconcile.Command.Path
import Reconcile.Command.Storage
import Reconcile.Command.Session
import Reconcile.Command.Run
import Reconcile.Main
import Reconcile.Proofs.Forest.Lookup
import Reconcile.Proofs.Forest.Subtree
import Reconcile.Proofs.Forest.Frame
import Reconcile.Proofs.Forest.Holds
import Reconcile.Proofs.Forest.WellFormed
import Reconcile.Proofs.Forest.Census
import Reconcile.Proofs.Declaration.Growth
import Reconcile.Proofs.Declaration.Agreement
import Reconcile.Proofs.Merge.Draft
import Reconcile.Proofs.Merge.Valid
import Reconcile.Proofs.Merge.Progress
import Reconcile.Proofs.Forest.Patch
import Reconcile.Proofs.Merge.Effect
import Reconcile.Proofs.Merge.Depiction
import Reconcile.Proofs.Forest.Move
import Reconcile.Proofs.Merge.Run
import Reconcile.Proofs.Merge.Coalescing
import Reconcile.Proofs.Forest.Visiting
import Reconcile.Proofs.Forest.Contest
import Reconcile.Proofs.Merge.Coalesced
import Reconcile.Proofs.Merge.Lasting
import Reconcile.Proofs.Merge.Outcome
import Reconcile.Proofs.Merge.Correspondence
import Reconcile.Proofs.Forest.Amend
import Reconcile.Proofs.Merge.View
import Reconcile.Proofs.Merge.Accord
import Reconcile.Proofs.Merge.Resolution
import Reconcile.Proofs.Merge.Retention
import Reconcile.Proofs.Merge.Conservation
import Reconcile.Proofs.Normal.Rework
import Reconcile.Proofs.Normal.Rules
import Reconcile.Proofs.Normal.Sorting
import Reconcile.Proofs.Normal.Stability
import Reconcile.Proofs.Normal.Upward
import Reconcile.Proofs.Forest.Gather
import Reconcile.Proofs.Normal.Nesting
import Reconcile.Proofs.Normal.Regrouping
import Reconcile.Proofs.Normal.Reordering
import Reconcile.Proofs.Normal.Idempotence
import Reconcile.Proofs.Forest.Flattening
import Reconcile.Proofs.Merge.Copying
import Reconcile.Proofs.Merge.Detection
import Reconcile.Proofs.Merge.Repetition
import Reconcile.Proofs.Merge.Symmetry
import Reconcile.Proofs.Forest.Cover
import Reconcile.Proofs.Merge.Itinerary
import Reconcile.Proofs.Merge.Overriding
import Reconcile.Proofs.Merge.Precedence
import Reconcile.Proofs.Merge.Registry
import Reconcile.Proofs.Merge.Sides
import Reconcile.Proofs.Merge.Stance
import Reconcile.Proofs.Merge.Meeting
import Reconcile.Proofs.Layout.Piece
import Reconcile.Proofs.Layout.Reading
import Reconcile.Proofs.Normal.Arrangement
import Reconcile.Proofs.Normal.Bodies
import Reconcile.Proofs.Normal.Inventory
import Reconcile.Proofs.Document.Planting
import Reconcile.Proofs.Normal.Visibility
import Reconcile.Proofs.Texts
import Reconcile.Proofs.Json.Lexing
import Reconcile.Proofs.Json.Parsing
import Reconcile.Proofs.Document.RoundTrip
import Reconcile.Proofs.Layout.Unbroken
import Reconcile.Proofs.Forest.Choosing
import Reconcile.Proofs.Layout.Resolving
import Reconcile.Proofs.Forest.Ranking
import Reconcile.Proofs.Forest.Relocation
import Reconcile.Proofs.Forest.Wrapping
import Reconcile.Proofs.Forest.Grafting
import Reconcile.Proofs.Normal.Upkeep
import Reconcile.Proofs.Merge.Upkeep
import Reconcile.Proofs.Forest.Tending
import Reconcile.Proofs.Merge.Integrity
import Reconcile.Proofs.Merge.Endurance
import Reconcile.Proofs.Normal.Roster
import Reconcile.Proofs.Normal.Attendance
import Reconcile.Proofs.Normal.Rearrangement
import Reconcile.Proofs.Merge.Concatenation
import Reconcile.Proofs.Declaration.Signatures
import Reconcile.Proofs.Merge.Settlement
import Reconcile.Proofs.Merge.Absorption
import Reconcile.Proofs.Merge.Remerging
import Reconcile.Proofs.Merge.Mirror
import Reconcile.Proofs.Merge.Restart
import Reconcile.Proofs.Normal.Shape
import Reconcile.Proofs.Normal.NormalForm
import Reconcile.Proofs.Normal.Permuting
import Reconcile.Proofs.Normal.Locations
import Reconcile.Proofs.Merge.Ledger
import Reconcile.Proofs.Merge.Equivalence
import Reconcile.Proofs.Merge.Commutation
import Reconcile.Proofs.Command.Directories
import Reconcile.Proofs.Command.Logging
import Reconcile.Proofs.Command.Loading
import Reconcile.Proofs.Forest.Duplication
import Reconcile.Proofs.Merge.Carrying
import Reconcile.Proofs.Merge.Leading
import Reconcile.Proofs.Merge.Provenance
import Reconcile.Proofs.Document.Building
import Reconcile.Proofs.Merge.Neutrality
import Reconcile.Proofs.Merge.Extension
import Reconcile.Proofs.Sequencing
import Reconcile.Proofs.Command.Paths
import Reconcile.Proofs.Command.Saving
import Reconcile.Proofs.Command.Listing
import Reconcile.Proofs.Command.Reporting
import Reconcile.Proofs.Command.Options
import Reconcile.Proofs.Command.Diagnostics
import Reconcile.Proofs.Json.Rewording
import Reconcile.Proofs.Document.Rewording
import Reconcile.Proofs.Settings
import Reconcile.Proofs.Layout.Indentation
import Reconcile.Proofs.Layout.Press
import Reconcile.Proofs.Merge.Regions
import Reconcile.Proofs.Layout.Comments
import Reconcile.Proofs.Layout.Likeness
import Reconcile.Proofs.Merge.Indexing
import Reconcile.Proofs.Normal.StableSort
import Reconcile.Proofs.Forest.DeepCopy
import Reconcile.Proofs.Forest.Replacement
import Reconcile.Proofs.Forest.Operation
import Reconcile.Proofs.Declaration.Slots
import Reconcile.Proofs.Forest.Denotation
import Reconcile.Proofs.Layout.Spacing
