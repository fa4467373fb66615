import UILayout.Proofs.Namespace.Independent
import UILayout.Proofs.Namespace.Trace
import UILayout.Proofs.Namespace.WellFormed
import UILayout.Proofs.Workspace.Transparent
import UILayout.Schema.Standard
import UILayout.Text.Lines
import UILayout.Proofs.Markup.Reading
import UILayout.Proofs.Workspace.Paths
import UILayout.Proofs.Markup.Places
import UILayout.Proofs.Namespace.Kind
import UILayout.Proofs.Selector.Exact
import UILayout.Proofs.Markup.Offsets
import UILayout.Proofs.Namespace.Restore
import UILayout.Proofs.Check.Template
import UILayout.Proofs.Workspace.Checked
import UILayout.Proofs.Workspace.Again
import UILayout.Proofs.Workspace.Children
import UILayout.Proofs.Hierarchy.Closure
import UILayout.Proofs.Hierarchy.Merge
import UILayout.Proofs.Hierarchy.Defaults
import UILayout.Proofs.Workspace.Nodes
import UILayout.Proofs.Check.FileLink
import UILayout.Proofs.Check.Wildcards
import UILayout.Proofs.Check.Redeclared
import UILayout.Proofs.Outline.Steps
import UILayout.Proofs.Workspace.Scopes
import UILayout.Proofs.Namespace.Chain
import UILayout.Proofs.Selector.Local
import UILayout.Proofs.Selector.Placement
import UILayout.Proofs.Selector.Property
import UILayout.Proofs.Selector.Forms
import UILayout.Proofs.Markup.Innermost
import UILayout.Proofs.Schema.Marks
import UILayout.Proofs.Schema.Provenance
import UILayout.Proofs.Schema.Ending
import UILayout.Proofs.Schema.Repeated
import UILayout.Proofs.Schema.Integers
import UILayout.Proofs.Schema.Circles
import UILayout.Proofs.Workspace.Frames
import UILayout.Proofs.Text.Lines
import UILayout.Proofs.Namespace.Roles
import UILayout.Proofs.Outline.Document
import UILayout.Proofs.Schema.Coherent
import UILayout.Proofs.Selector.Longest
import UILayout.Proofs.Workspace.Forest
