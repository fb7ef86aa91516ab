import Sigil.Config
import Sigil.Main
import Sigil.Session
import Sigil.Proofs.Judgement
import Sigil.Proofs.Transition
import Sigil.Proofs.Frames
import Sigil.Proofs.Fuel
import Sigil.Proofs.DepthLimit
import Sigil.Proofs.BuiltinFrame
import Sigil.Proofs.ReadOnly
import Sigil.Proofs.Unmentioned
import Sigil.Proofs.BracketFaults
import Sigil.Proofs.WindingDown
import Sigil.Proofs.Sequencing
import Sigil.Proofs.WellFormed
import Sigil.Proofs.Leaves
import Sigil.Proofs.DoubleFormat
import Sigil.Proofs.NumberText
import Sigil.Proofs.Segmentation
import Sigil.Proofs.ReadBack
import Sigil.Proofs.PlainFrames
import Sigil.Proofs.Calls
import Sigil.Proofs.Termination
import Sigil.Proofs.Points
import Sigil.Proofs.Surroundings
import Sigil.Proofs.OneKind
import Sigil.Proofs.Provenance
import Sigil.Proofs.RefusedLines
import Sigil.Proofs.Reports
import Sigil.Proofs.Shapes
import Sigil.Proofs.Likeness
import Sigil.Proofs.ControlCharacters
import Sigil.Proofs.NumeralGrammar
import Sigil.Proofs.SelfEquality
import Sigil.Proofs.TreeText
import Sigil.Proofs.BlankLines
import Sigil.Proofs.Enclosure
import Sigil.Proofs.DroppedPairs
import Sigil.Proofs.Folds
import Sigil.Proofs.Characters
import Sigil.Proofs.DroppedFrame
import Sigil.Proofs.ByteOrder
import Sigil.Proofs.Chains
import Sigil.Proofs.Heights
import Sigil.Proofs.MappingLiterals
import Sigil.Proofs.Quotations
import Sigil.Proofs.Progress
import Sigil.Proofs.Arithmetic
