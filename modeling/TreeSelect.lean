import TreeSelect.Text.Quoted
import TreeSelect.Path.Spacing.Ink
import TreeSelect.Path.Reader
import TreeSelect.Path.Printer
import TreeSelect.Hierarchy.Nearest
import TreeSelect.Document.Select
import TreeSelect.Forest.Text
import TreeSelect.Forest.Blueprint
import TreeSelect.Forest.Workshop
import TreeSelect.Arena
import TreeSelect.Proofs.Text.Words
import TreeSelect.Proofs.Path.Acceptance
import TreeSelect.Proofs.Path.Spacing.Rest
import TreeSelect.Proofs.Document.Chain
import TreeSelect.Proofs.Path.RoundTrip
import TreeSelect.Proofs.Path.Spacing.Gaps
import TreeSelect.Proofs.Path.Spacing.Groups
import TreeSelect.Proofs.Path.Spacing.Parting
import TreeSelect.Proofs.Path.Spacing.Settled
import TreeSelect.Proofs.Hierarchy.Tree
import TreeSelect.Proofs.Hierarchy.Order
import TreeSelect.Proofs.Document.Selected
import TreeSelect.Proofs.Document.Steps
import TreeSelect.Proofs.Path.Expressible
import TreeSelect.Proofs.Path.Padding
import TreeSelect.Proofs.Forest.Index
import TreeSelect.Proofs.Document.Lookup
import TreeSelect.Proofs.Document.Faults
import TreeSelect.Proofs.Document.Filters
import TreeSelect.Proofs.Document.Position
import TreeSelect.Proofs.Forest.Workshop
import TreeSelect.Proofs.Path.Spacing.Alike
import TreeSelect.Proofs.Path.Squeezed
import TreeSelect.Proofs.Path.Spacing.Apart
import TreeSelect.Proofs.Path.Sequence
import TreeSelect.Proofs.Hierarchy.Walks
import TreeSelect.Proofs.Hierarchy.Beside
import TreeSelect.Proofs.Hierarchy.Search
import TreeSelect.Proofs.Path.Spacing.Stuck
import TreeSelect.Proofs.Path.Glued
import TreeSelect.Proofs.Document.Stages
import TreeSelect.Proofs.Document.Alternation
import TreeSelect.Proofs.Path.Normal
import TreeSelect.Proofs.Path.Spacing.Untouched
import TreeSelect.Proofs.Hierarchy.Siblings
import TreeSelect.Proofs.Hierarchy.Branches
import TreeSelect.Proofs.Hierarchy.Closest
import TreeSelect.Proofs.Hierarchy.Collected
import TreeSelect.Proofs.Hierarchy.Boundary
import TreeSelect.Proofs.Hierarchy.Links
import TreeSelect.Proofs.Forest.Parents
import TreeSelect.Proofs.Forest.Settings
