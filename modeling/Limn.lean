import Limn.Canvas
import Limn.Command.Line
import Limn.Command.Run
import Limn.Command.Switch
import Limn.Document
import Limn.Error
import Limn.Feature
import Limn.Files
import Limn.Grammar
import Limn.Highlight
import Limn.Json.Reader
import Limn.Json.Writer
import Limn.Main
import Limn.Notice
import Limn.Outline
import Limn.Parser
import Limn.Pattern
import Limn.Proofs.Canvas
import Limn.Proofs.Matching
import Limn.Proofs.Offsets
import Limn.Proofs.Painting
import Limn.Proofs.Snapshot.Live
import Limn.Proofs.Snapshot.RoundTrip
import Limn.Proofs.Strokes
import Limn.Proofs.Switching
import Limn.Proofs.Walk
import Limn.Service
import Limn.Session
import Limn.Settings
import Limn.Snapshot
import Limn.Snapshot.Text
import Limn.Toml.Reader
import Limn.Tree
import Limn.Value
import Limn.Yaml.Reader
import Limn.Yaml.Writer
import Limn.Proofs.History
import Limn.Proofs.Line
import Limn.Proofs.Access
import Limn.Proofs.Agreement
import Limn.Proofs.Snapshot.Refusal
import Limn.Proofs.Claims
import Limn.Proofs.Nesting
import Limn.Proofs.Printing
import Limn.Proofs.Reporting
import Limn.Proofs.Unindexed
import Limn.Proofs.Headings
import Limn.Proofs.Snapshot.Reading
import Limn.Proofs.Snapshot.FirstFault
import Limn.Proofs.Snapshot.Rereading
import Limn.Proofs.Regions
import Limn.Proofs.Counting
import Limn.Proofs.Characters
import Limn.Proofs.Demands
import Limn.Proofs.HeadingLines
import Limn.Proofs.Listing
import Limn.Proofs.Traversal
import Limn.Proofs.Precedence
import Limn.Proofs.Components
import Limn.Source
import Limn.Text.Wording
import Limn.Proofs.Except
import Limn.Proofs.Answering
