import TripleSlash.Main
import TripleSlash.Proofs.Document.Again
import TripleSlash.Proofs.Document.Applied
import TripleSlash.Proofs.Scan.Placement
import TripleSlash.Proofs.Scan.Wrapped
import TripleSlash.Proofs.Settings.Warnings
import TripleSlash.Proofs.Scan.Gating
import TripleSlash.Proofs.Declaration.Recognized
import TripleSlash.Proofs.Declaration.Modifiers
import TripleSlash.Proofs.Document.Crlf
import TripleSlash.Proofs.Document.FirstBreak
import TripleSlash.Proofs.Scan.Attributes
import TripleSlash.Proofs.Scan.Marker
import TripleSlash.Proofs.Scan.Locality
import TripleSlash.Proofs.Document.Indented
import TripleSlash.Proofs.CommandLine.Outputs
import TripleSlash.Proofs.CommandLine.SaveHook
import TripleSlash.Proofs.Parameter.Initialized
import TripleSlash.Proofs.Document.Reference
import TripleSlash.Proofs.Declaration.Followed
import TripleSlash.Proofs.Scan.Cancelled
import TripleSlash.Proofs.Scan.Retemplated
import TripleSlash.Proofs.Document.Stacked
import TripleSlash.Proofs.CommandLine.Inputs
import TripleSlash.Proofs.Parens.Chunked
import TripleSlash.Proofs.Parameter.Rejoined
import TripleSlash.Proofs.Template.Simultaneous
import TripleSlash.Proofs.Toml.Quoted
import TripleSlash.Proofs.Toml.Lines
import TripleSlash.Proofs.Toml.Sheet
import TripleSlash.Proofs.Settings.Groups
import TripleSlash.Proofs.Files.Stored
import TripleSlash.Proofs.Settings.Keys
import TripleSlash.Proofs.Settings.Saved
import TripleSlash.Proofs.Document.Spans
import TripleSlash.Proofs.Declaration.Parts
