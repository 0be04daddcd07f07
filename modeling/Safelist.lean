import Safelist.Text.Blank
import Safelist.Document.Printer
import Safelist.Document.Reading
import Safelist.Document.Registrable
import Safelist.Signature.Engine
import Safelist.Signature.Digest
import Safelist.Json.Layout
import Safelist.Json.Shape
import Safelist.Client.Typename
import Safelist.Client.Erasure
import Safelist.Log.Event
import Safelist.Log.Scope
import Safelist.Log.Account
import Safelist.Log.Timestamp
import Safelist.Files.Tree
import Safelist.Machine.Simulated
import Safelist.Manifest.Extraction
import Safelist.Client.Bundle
import Safelist.Client.Discovery
import Safelist.Command.Program
import Safelist.Main
import Safelist.Proofs.Outcome
import Safelist.Proofs.Lexical.Numeral
import Safelist.Proofs.Lexical.Stepping
import Safelist.Proofs.Lexical.StringSpelling
import Safelist.Proofs.Lexical.Quotation
import Safelist.Proofs.Lexical.Spelling
import Safelist.Proofs.Lexical.LongestNumber
import Safelist.Proofs.Lexical.Written
import Safelist.Proofs.Lexical.Offsets
import Safelist.Proofs.Lexical.Places
import Safelist.Proofs.Lexical.Consumption
import Safelist.Proofs.Document.Parts
import Safelist.Proofs.Document.Equality
import Safelist.Proofs.Document.Map
import Safelist.Proofs.Document.WellFormed
import Safelist.Proofs.Document.Writing
import Safelist.Proofs.Document.Recognition
import Safelist.Proofs.Document.Soundness
import Safelist.Proofs.Document.Descent
import Safelist.Proofs.Document.Lookahead
import Safelist.Proofs.Document.Pacing
import Safelist.Proofs.Document.Phrases
import Safelist.Proofs.Document.Ending
import Safelist.Proofs.Document.RoundTrip
import Safelist.Proofs.Document.Holding
import Safelist.Proofs.Document.Keywords
import Safelist.Proofs.Document.Completion
import Safelist.Proofs.Document.Heads
import Safelist.Proofs.Document.Without
import Safelist.Proofs.Signature.Order
import Safelist.Proofs.Signature.Sorted
import Safelist.Proofs.Document.Reachability
import Safelist.Proofs.Document.Registration
import Safelist.Proofs.Document.Addresses
import Safelist.Proofs.Document.BreadthFirst
import Safelist.Proofs.Document.Layers
import Safelist.Proofs.Document.Verdict
import Safelist.Proofs.Document.Reordering
import Safelist.Proofs.Document.SameText
import Safelist.Proofs.Signature.Literals
import Safelist.Proofs.Signature.Dropping
import Safelist.Proofs.Manifest.Literals
import Safelist.Proofs.Document.Editing
import Safelist.Proofs.Client.Editing
import Safelist.Proofs.Client.Provenance
import Safelist.Proofs.Manifest.FixedPoint
import Safelist.Proofs.Signature.Rearrangement
import Safelist.Proofs.Manifest.Reordering
import Safelist.Proofs.Signature.NormalForm
import Safelist.Proofs.Signature.Passes
import Safelist.Proofs.Signature.WellFormed
import Safelist.Proofs.Signature.Injectivity
import Safelist.Proofs.Client.Collection
import Safelist.Proofs.Client.Bundling
import Safelist.Proofs.Client.Erasing
import Safelist.Proofs.Client.Rounds
import Safelist.Proofs.Client.Vanishing
import Safelist.Proofs.Client.Merging
import Safelist.Proofs.Client.Shuffling
import Safelist.Proofs.Client.Conflicts
import Safelist.Proofs.Client.Lossless
import Safelist.Proofs.Client.Annotations
import Safelist.Proofs.Log.Line
import Safelist.Proofs.Log.Stages
import Safelist.Proofs.Machine.Work
import Safelist.Proofs.Machine.Reporting
import Safelist.Proofs.Machine.SideBySide
import Safelist.Proofs.Manifest.Extraction
import Safelist.Proofs.Manifest.Independence
import Safelist.Proofs.Json.Grammar
import Safelist.Proofs.Json.Unambiguous
import Safelist.Proofs.Json.Layout
import Safelist.Proofs.Json.Taking
import Safelist.Proofs.Json.Reading
import Safelist.Proofs.Manifest.Codec
import Safelist.Proofs.Manifest.Placeholder
import Safelist.Proofs.Files.Walking
import Safelist.Proofs.Files.Sibling
import Safelist.Proofs.Files.Entry
import Safelist.Proofs.Files.Listing
import Safelist.Proofs.Client.Searching
import Safelist.Proofs.Client.Discovery
import Safelist.Proofs.Manifest.Replacement
import Safelist.Proofs.Manifest.Footprint
import Safelist.Proofs.Command.Plan
import Safelist.Proofs.Command.AllOrNothing
import Safelist.Proofs.Command.Timings
import Safelist.Proofs.Lexical.Appending
import Safelist.Proofs.Client.AskingTypes
import Safelist.Proofs.Text.Indentation
import Safelist.Proofs.Document.Reduction
import Safelist.Proofs.Signature.SelfContained
import Safelist.Proofs.Manifest.Building
import Safelist.Proofs.Machine.Scopes
import Safelist.Proofs.Document.Hooks
import Safelist.Proofs.Document.Overriding
import Safelist.Proofs.Client.Untouched
