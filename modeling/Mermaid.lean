import Mermaid.Main
import Mermaid.Proofs.Token.Leading
import Mermaid.Proofs.Token.Link
import Mermaid.Proofs.Token.Piece
import Mermaid.Proofs.Token.PieceLeading
import Mermaid.Proofs.Token.Line
import Mermaid.Proofs.Token.Kinds
import Mermaid.Proofs.Token.Tiling
import Mermaid.Proofs.Token.Order
import Mermaid.Proofs.Token.Breaks
import Mermaid.Proofs.Grammar.Running
import Mermaid.Proofs.Grammar.Steady
import Mermaid.Proofs.Grammar.Progress
import Mermaid.Proofs.Grammar.Safety
import Mermaid.Proofs.Token.Phrase
import Mermaid.Proofs.Token.Part
import Mermaid.Proofs.Token.Rounds
import Mermaid.Proofs.Flowchart.Statement
import Mermaid.Proofs.Flowchart.Meaning
import Mermaid.Proofs.Flowchart.Reading
import Mermaid.Proofs.Flowchart.Document
import Mermaid.Proofs.Flowchart.Progress
import Mermaid.Proofs.ClassDiagram.Statement
import Mermaid.Proofs.ClassDiagram.Meaning
import Mermaid.Proofs.ClassDiagram.MemberReading
import Mermaid.Proofs.ClassDiagram.Reading
import Mermaid.Proofs.ClassDiagram.Document
import Mermaid.Proofs.ClassDiagram.Progress
import Mermaid.Proofs.Diagram.Safety
import Mermaid.Proofs.Registry
import Mermaid.Proofs.Grammar.Writing
import Mermaid.Proofs.Grammar.Reporting
import Mermaid.Proofs.Grammar.Staying
import Mermaid.Proofs.Flowchart.Integrity
import Mermaid.Proofs.Flowchart.Writing
import Mermaid.Proofs.Flowchart.Reporting
import Mermaid.Proofs.Flowchart.Lines
import Mermaid.Proofs.Flowchart.BareLink
import Mermaid.Proofs.ClassDiagram.Integrity
import Mermaid.Proofs.ClassDiagram.Reporting
import Mermaid.Proofs.ClassDiagram.Lines
import Mermaid.Proofs.ClassDiagram.Body
import Mermaid.Proofs.ClassDiagram.Unclosed
import Mermaid.Proofs.ClassDiagram.Glyphs
import Mermaid.Proofs.ClassDiagram.Parameters
import Mermaid.Proofs.ClassDiagram.Methods
import Mermaid.Proofs.ClassDiagram.Production
import Mermaid.Proofs.Diagram.Integrity
import Mermaid.Proofs.Diagram.Diagnostics
import Mermaid.Proofs.Diagram.Lines
import Mermaid.Proofs.Token.Adjacent
import Mermaid.Proofs.Token.Comments
import Mermaid.Proofs.Grammar.Commenting
import Mermaid.Proofs.Flowchart.Commenting
import Mermaid.Proofs.Flowchart.Comments
import Mermaid.Proofs.ClassDiagram.TypeWords
import Mermaid.Proofs.ClassDiagram.Commenting
import Mermaid.Proofs.ClassDiagram.Comments
import Mermaid.Proofs.Grammar.Tracing
import Mermaid.Proofs.Grammar.Composing
import Mermaid.Proofs.Grammar.Missing
import Mermaid.Proofs.Flowchart.Arrows
import Mermaid.Proofs.Flowchart.Definition
import Mermaid.Proofs.Flowchart.Drawing
import Mermaid.Proofs.ClassDiagram.Writing
import Mermaid.Proofs.ClassDiagram.Composing
import Mermaid.Proofs.ClassDiagram.Drawing
import Mermaid.Proofs.Flowchart.Composing
import Mermaid.Proofs.Flowchart.Missing
import Mermaid.Proofs.Flowchart.Balance
import Mermaid.Proofs.Flowchart.Outline
import Mermaid.Proofs.Flowchart.Nesting
import Mermaid.Proofs.Flowchart.Subgraphs
import Mermaid.Proofs.Flowchart.Preorder
import Mermaid.Proofs.Flowchart.Traversal
import Mermaid.Proofs.Flowchart.NodeText
import Mermaid.Proofs.Grammar.Curtailing
import Mermaid.Proofs.Flowchart.Curtailing
import Mermaid.Proofs.Flowchart.Depth
import Mermaid.Proofs.Flowchart.Overflow
import Mermaid.Proofs.Flowchart.Abandoned
import Mermaid.Proofs.ClassDiagram.Missing
import Mermaid.Proofs.Diagram.Overflow
import Mermaid.Proofs.Diagram.Faults
import Mermaid.Proofs.Flowchart.Gap
import Mermaid.Proofs.Flowchart.Headless
import Mermaid.Proofs.Sighting
import Mermaid.Proofs.Grammar.Anchoring
import Mermaid.Proofs.Flowchart.Sightings
import Mermaid.Proofs.ClassDiagram.Sightings
import Mermaid.Proofs.Diagram.Sightings
import Mermaid.Proofs.Flowchart.Membership
import Mermaid.Proofs.Graph.Topological
import Mermaid.Proofs.Graph.Generations
import Mermaid.Proofs.Diagram.Topology
import Mermaid.Proofs.Graph.Arcs
import Mermaid.Proofs.Diagram.Graph
import Mermaid.Proofs.Diagram.Groups
import Mermaid.Proofs.Text.LineBreak
import Mermaid.Proofs.Token.Places
import Mermaid.Proofs.Token.Unified
import Mermaid.Proofs.Token.Joining
import Mermaid.Proofs.Diagram.LineBreaks
import Mermaid.Proofs.Diagram.Spacing
import Mermaid.Proofs.Json.Reader
import Mermaid.Proofs.Json.RoundTrip
import Mermaid.Proofs.Json.Ascii
import Mermaid.Proofs.Diagram.Record
import Mermaid.Proofs.Diagram.Output
import Mermaid.Proofs.Text.Graphic
import Mermaid.Proofs.Diagram.Summary
import Mermaid.Proofs.CommandLine.Options
import Mermaid.Proofs.CommandLine.Workspace
import Mermaid.Proofs.CommandLine.Run
import Mermaid.Proofs.Token.Route
import Mermaid.Proofs.Token.Words
import Mermaid.Proofs.Token.Longest
import Mermaid.Proofs.Token.Source
import Mermaid.Proofs.Token.Restoring
import Mermaid.Proofs.Diagram.Stores
import Mermaid.Proofs.ClassDiagram.Titles
import Mermaid.Proofs.Diagram.Tally
import Mermaid.Proofs.Grammar.Looping
import Mermaid.Proofs.Diagram.Recovery
