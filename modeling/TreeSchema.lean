import TreeSchema.Log.Trace
import TreeSchema.Main
import TreeSchema.Validation.Session
import TreeSchema.Proofs.Derivation
import TreeSchema.Proofs.FirstTerminals
import TreeSchema.Proofs.Outcome
import TreeSchema.Proofs.Validator
import TreeSchema.Proofs.Reading
import TreeSchema.Proofs.RoundTrip
import TreeSchema.Proofs.EndToEnd
import TreeSchema.Proofs.Elements
import TreeSchema.Proofs.Run
import TreeSchema.Proofs.Allowance
import TreeSchema.Proofs.Soundness
import TreeSchema.Proofs.Termination
import TreeSchema.Proofs.Reachability
import TreeSchema.Proofs.Editing
import TreeSchema.Proofs.Reordering
import TreeSchema.Proofs.Pruning
import TreeSchema.Proofs.Extension
import TreeSchema.Proofs.Naming
import TreeSchema.Proofs.ByteOrder
import TreeSchema.Proofs.Linearization
import TreeSchema.Proofs.LineGrammar
import TreeSchema.Proofs.Layout
import TreeSchema.Proofs.GrammarForm
import TreeSchema.Proofs.Cursor
import TreeSchema.Proofs.Saturation
import TreeSchema.Proofs.CommandRun
import TreeSchema.Proofs.CommandLine
import TreeSchema.Proofs.Presentation
import TreeSchema.Proofs.AnyName
import TreeSchema.Proofs.Checking
import TreeSchema.Proofs.SymbolTable
import TreeSchema.Proofs.Legality
import TreeSchema.Proofs.TokenPlaces
import TreeSchema.Proofs.FaultLines
import TreeSchema.Proofs.ElementPaths
import TreeSchema.Proofs.NormalPath
import TreeSchema.Proofs.DocumentFormats
import TreeSchema.Proofs.Placeholders
import TreeSchema.Proofs.TextDifference
import TreeSchema.Proofs.ElementEnds
import TreeSchema.Proofs.TokenLayout
