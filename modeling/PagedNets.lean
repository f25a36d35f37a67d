import PagedNets.CommandLine.FileSystem
import PagedNets.CommandLine.Options
import PagedNets.CommandLine.Run
import PagedNets.CommandLine.Session
import PagedNets.CommandLine.Word
import PagedNets.Decimal.Digits
import PagedNets.Decimal.Nearest
import PagedNets.Decimal.Reading
import PagedNets.Decimal.Shortest
import PagedNets.Decimal.Style
import PagedNets.Document.Admission
import PagedNets.Document.Basic
import PagedNets.Document.Change
import PagedNets.Document.Event
import PagedNets.Document.Forest
import PagedNets.Dot
import PagedNets.Json.Element
import PagedNets.Json.Number
import PagedNets.Json.Printer
import PagedNets.Json.Reader
import PagedNets.Json.Value
import PagedNets.Layered.Chain
import PagedNets.Layered.Coordinates
import PagedNets.Layered.Drawing
import PagedNets.Layered.Error
import PagedNets.Layered.Graph
import PagedNets.Layered.Order
import PagedNets.Layered.Rank
import PagedNets.Layered.Search
import PagedNets.Layout.Page
import PagedNets.Layout.Settings
import PagedNets.Main
import PagedNets.Net.Element
import PagedNets.Net.Error
import PagedNets.Net.Format
import PagedNets.Net.Id
import PagedNets.Net.Object
import PagedNets.Net.Page
import PagedNets.Pnml.Reader
import PagedNets.Pnml.Script
import PagedNets.Pnml.Writer
import PagedNets.Proofs.Decides
import PagedNets.Proofs.Decimal.Bits
import PagedNets.Proofs.Decimal.Nearest
import PagedNets.Proofs.Decimal.Positional
import PagedNets.Proofs.Decimal.RoundTrip
import PagedNets.Proofs.Decimal.Shortest
import PagedNets.Proofs.Document.Adjacency
import PagedNets.Proofs.Document.Admission
import PagedNets.Proofs.Document.Alias
import PagedNets.Proofs.Document.AppendOnly
import PagedNets.Proofs.Document.Atomicity
import PagedNets.Proofs.Document.Bookkeeping
import PagedNets.Proofs.Document.Children
import PagedNets.Proofs.Document.Clone
import PagedNets.Proofs.Document.Containment
import PagedNets.Proofs.Document.Copy
import PagedNets.Proofs.Document.Fitting
import PagedNets.Proofs.Document.FullCopy
import PagedNets.Proofs.Document.Geometry
import PagedNets.Proofs.Document.Linking
import PagedNets.Proofs.Document.NameLookup
import PagedNets.Proofs.Document.Naming
import PagedNets.Proofs.Document.Nesting
import PagedNets.Proofs.Document.PageOrder
import PagedNets.Proofs.Document.Preorder
import PagedNets.Proofs.Document.Referent
import PagedNets.Proofs.Document.Relinking
import PagedNets.Proofs.Document.Renaming
import PagedNets.Proofs.Document.Reproduction
import PagedNets.Proofs.Document.Rules
import PagedNets.Proofs.Document.Run
import PagedNets.Proofs.Document.Scope
import PagedNets.Proofs.Document.Verdict
import PagedNets.Proofs.Document.View
import PagedNets.Proofs.Dot.Clusters
import PagedNets.Proofs.Dot.Reading
import PagedNets.Proofs.IdSet
import PagedNets.Proofs.InPlace
import PagedNets.Proofs.Layered.Bends
import PagedNets.Proofs.Layered.Chains
import PagedNets.Proofs.Layered.Clearance
import PagedNets.Proofs.Layered.Cycles
import PagedNets.Proofs.Layered.InPlace
import PagedNets.Proofs.Layered.Keys
import PagedNets.Proofs.Layered.LongestPath
import PagedNets.Proofs.Layered.Neighbours
import PagedNets.Proofs.Layered.Ordering
import PagedNets.Proofs.Layered.Placement
import PagedNets.Proofs.Layered.Ranks
import PagedNets.Proofs.Layered.Redrawing
import PagedNets.Proofs.Layered.Refusal
import PagedNets.Proofs.Layered.Search
import PagedNets.Proofs.Layered.Stages
import PagedNets.Proofs.Layered.Turns
import PagedNets.Proofs.Layout.Alike
import PagedNets.Proofs.Layout.Export
import PagedNets.Proofs.Layout.Locality
import PagedNets.Proofs.Layout.PageLoop
import PagedNets.Proofs.Layout.PageWalks
import PagedNets.Proofs.Layout.Refusal
import PagedNets.Proofs.Layout.Relayout
import PagedNets.Proofs.Layout.Spacing
import PagedNets.Proofs.Layout.WriteBack
import PagedNets.Proofs.Listwise
import PagedNets.Proofs.Pnml.Acceptance
import PagedNets.Proofs.Pnml.Appending
import PagedNets.Proofs.Pnml.Beside
import PagedNets.Proofs.Pnml.CoordinateLines
import PagedNets.Proofs.Pnml.Elements
import PagedNets.Proofs.Pnml.ForwardLinks
import PagedNets.Proofs.Pnml.Interleaving
import PagedNets.Proofs.Pnml.LaidOut
import PagedNets.Proofs.Pnml.LateLinks
import PagedNets.Proofs.Pnml.Legality
import PagedNets.Proofs.Pnml.Links
import PagedNets.Proofs.Pnml.NormalForm
import PagedNets.Proofs.Pnml.Order
import PagedNets.Proofs.Pnml.PageElements
import PagedNets.Proofs.Pnml.Progress
import PagedNets.Proofs.Pnml.Readable
import PagedNets.Proofs.Pnml.ReferenceOrder
import PagedNets.Proofs.Pnml.Replay
import PagedNets.Proofs.Pnml.Rereading
import PagedNets.Proofs.Pnml.RoundTrip
import PagedNets.Proofs.Pnml.Stopping
import PagedNets.Proofs.Pnml.Validity
import PagedNets.Proofs.Pnml.Visits
import PagedNets.Proofs.Pnml.WellFormed
import PagedNets.Proofs.Pnml.Writing
import PagedNets.Proofs.Report.AliasClass
import PagedNets.Proofs.Report.Connectivity
import PagedNets.Proofs.Report.Totals
import PagedNets.Proofs.Span
import PagedNets.Proofs.Table
import PagedNets.Proofs.Xml.Building
import PagedNets.Proofs.Xml.Characters
import PagedNets.Proofs.Xml.Decoding
import PagedNets.Proofs.Xml.Escape
import PagedNets.Proofs.Xml.Lexing
import PagedNets.Proofs.Xml.Lines
import PagedNets.Proofs.Xml.Markup
import PagedNets.Proofs.Xml.Strings
import PagedNets.Report.Diagnosis
import PagedNets.Report.Stats
import PagedNets.Settings
import PagedNets.Table
import PagedNets.Text.Blank
import PagedNets.Text.Hex
import PagedNets.Text.Quoted
import PagedNets.Text.Unprintable
import PagedNets.Toml.Field
import PagedNets.Toml.Number
import PagedNets.Toml.Reader
import PagedNets.Toml.Text
import PagedNets.Toml.Value
import PagedNets.Xml.Character
import PagedNets.Xml.Markup
import PagedNets.Xml.Node
import PagedNets.Xml.Reference
import PagedNets.Xml.Token
import PagedNets.Xml.Tree
