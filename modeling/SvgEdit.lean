import SvgEdit.Main
import SvgEdit.Proofs.Selection
import SvgEdit.Proofs.Application
import SvgEdit.Proofs.Identifiers
import SvgEdit.Proofs.Attributes
import SvgEdit.Proofs.Tags
import SvgEdit.Proofs.Parsing
import SvgEdit.Proofs.RoundTrip
import SvgEdit.Proofs.Acceptance
import SvgEdit.Proofs.References
import SvgEdit.Proofs.Spelled
import SvgEdit.Proofs.Shrinking
import SvgEdit.Proofs.Rereading
import SvgEdit.Proofs.Stepwise
import SvgEdit.Proofs.SelectionFrame
import SvgEdit.Proofs.Reselection
import SvgEdit.Proofs.PieceSources
import SvgEdit.Proofs.Cleaning
import SvgEdit.Proofs.ReadTags
import SvgEdit.Proofs.ReadAgain
import SvgEdit.Proofs.Rounding
import SvgEdit.Proofs.RoundedDocuments
import SvgEdit.Proofs.PrefixScopes
import SvgEdit.Proofs.ShrunkPrefixes
import SvgEdit.Proofs.BuiltElements
import SvgEdit.Proofs.TransformFrame
import SvgEdit.Proofs.RequestOrder
import SvgEdit.Proofs.JobOrder
import SvgEdit.Proofs.Faults
import SvgEdit.Proofs.Outcomes
import SvgEdit.Proofs.Fragments
import SvgEdit.Proofs.NearestNumbers
import SvgEdit.Proofs.BlanksAgain
import SvgEdit.Proofs.RoundingAgain
import SvgEdit.Proofs.PassCounts
import SvgEdit.Proofs.ShrinkingAgain
import SvgEdit.Proofs.FewestBlanks
import SvgEdit.Proofs.JoinedRuns
import SvgEdit.Proofs.CollapsedGroups
import SvgEdit.Proofs.RemovedComments
import SvgEdit.Proofs.RemovedMetadata
import SvgEdit.Proofs.RequestRuns
import SvgEdit.Proofs.DoubledProperties
import SvgEdit.Proofs.SavedBytes
import SvgEdit.Proofs.CanonicalQueries
import SvgEdit.Proofs.DocumentOrder
import SvgEdit.Proofs.OneElement
import SvgEdit.Proofs.PlainNumbers
import SvgEdit.Proofs.WrittenOperations
import SvgEdit.Proofs.BracketedText
import SvgEdit.Proofs.SeparateOutputs
import SvgEdit.Proofs.FaultPositions
import SvgEdit.Proofs.AttributeHistory
import SvgEdit.Proofs.ScannedMarks
import SvgEdit.Proofs.DecimalCuts
