import Jack.Code.Listing
import Jack.Compile
import Jack.Options.Json
import Jack.Parser.Advance
import Jack.Proofs.Acceptance
import Jack.Proofs.Annotation
import Jack.Proofs.Declarations
import Jack.Proofs.ErrorSpan
import Jack.Proofs.Events
import Jack.Proofs.ExpressionValue
import Jack.Proofs.Grammar
import Jack.Proofs.Independence
import Jack.Proofs.IntegerConstants
import Jack.Proofs.IntegerPushes
import Jack.Proofs.JoinedLines
import Jack.Proofs.JsonReading
import Jack.Proofs.JsonRecord
import Jack.Proofs.JsonText
import Jack.Proofs.LabelShift
import Jack.Proofs.Labels
import Jack.Proofs.Layout
import Jack.Proofs.LexedPieces
import Jack.Proofs.LexemePlace
import Jack.Proofs.LexicalGrammar
import Jack.Proofs.LexicalScope
import Jack.Proofs.Limits
import Jack.Proofs.LinePlaces
import Jack.Proofs.Locality
import Jack.Proofs.Lookahead
import Jack.Proofs.Lowerable
import Jack.Proofs.Machine
import Jack.Proofs.NameMap
import Jack.Proofs.NameUses
import Jack.Proofs.Node
import Jack.Proofs.NodeSlice
import Jack.Proofs.NodeTokens
import Jack.Proofs.OperandRange
import Jack.Proofs.Operands
import Jack.Proofs.OptionsText
import Jack.Proofs.ParsedNames
import Jack.Proofs.ParsedNodes
import Jack.Proofs.ParsedTree
import Jack.Proofs.Phrases
import Jack.Proofs.Position
import Jack.Proofs.Readback
import Jack.Proofs.Renaming
import Jack.Proofs.RepeatedScan
import Jack.Proofs.Resolution
import Jack.Proofs.ResolutionRuns
import Jack.Proofs.Routine
import Jack.Proofs.ScopeRuns
import Jack.Proofs.Semantics
import Jack.Proofs.Sentence
import Jack.Proofs.Simulation
import Jack.Proofs.Site
import Jack.Proofs.StackDepth
import Jack.Proofs.Terminals
import Jack.Proofs.Unplaced
import Jack.Proofs.ViablePrefix
import Jack.Proofs.VmLines
import Jack.Proofs.WrittenTokens
