import LineGrammar.ErrorLimit
import LineGrammar.Pattern
import LineGrammar.Session
import LineGrammar.Proofs.Blanks
import LineGrammar.Proofs.Collapse
import LineGrammar.Proofs.IndexLog
import LineGrammar.Proofs.Recognition
import LineGrammar.Proofs.Sequences
import LineGrammar.Proofs.Obligations
import LineGrammar.Proofs.Owed
import LineGrammar.Proofs.Registration
import LineGrammar.Proofs.FunctionText
import LineGrammar.Proofs.LineRegistration
import LineGrammar.Proofs.Shapes
import LineGrammar.Proofs.Bookkeeping
import LineGrammar.Proofs.Consistency
import LineGrammar.Proofs.Reindent
import LineGrammar.Proofs.Content
import LineGrammar.Proofs.LaidOut
import LineGrammar.Proofs.NameLists
import LineGrammar.Proofs.Parameters
import LineGrammar.Proofs.IndexContent
import LineGrammar.Proofs.PragmaContent
import LineGrammar.Proofs.TokenValues
import LineGrammar.Proofs.TokenText
import LineGrammar.Proofs.RuleBodies
import LineGrammar.Proofs.RuleText
import LineGrammar.Proofs.TokenContent
import LineGrammar.Proofs.RuleContent
import LineGrammar.Proofs.PragmaLine
import LineGrammar.Proofs.BlockNameContent
import LineGrammar.Proofs.LineContent
import LineGrammar.Proofs.AnalysisContent
import LineGrammar.Proofs.StepContent
import LineGrammar.Proofs.BlockContent
import LineGrammar.Proofs.Segments
import LineGrammar.Proofs.CleanRun
import LineGrammar.Proofs.Formatting
import LineGrammar.Proofs.Problems
import LineGrammar.Proofs.Sequels
import LineGrammar.Proofs.Coherence
import LineGrammar.Proofs.Turns
import LineGrammar.Proofs.Runs
import LineGrammar.Proofs.Halts
import LineGrammar.Proofs.Remarks
import LineGrammar.Proofs.Reports
import LineGrammar.Proofs.Slots
import LineGrammar.Proofs.Partition
import LineGrammar.Proofs.History
import LineGrammar.Proofs.Complaints
import LineGrammar.Proofs.MissingBlocks
import LineGrammar.Proofs.Openings
import LineGrammar.Proofs.BlockOwners
import LineGrammar.Proofs.BlockLines
import LineGrammar.Proofs.TooManyErrors
import LineGrammar.Proofs.Truncation
import LineGrammar.Proofs.Redaction
import LineGrammar.Proofs.OpaqueBlocks
import LineGrammar.Proofs.Places
import LineGrammar.Proofs.LineParts
import LineGrammar.Proofs.Origins
import LineGrammar.Proofs.Lexemes
import LineGrammar.Proofs.Positions
import LineGrammar.Proofs.Signatures
import LineGrammar.Proofs.Undefined
import LineGrammar.Proofs.Occurrences
import LineGrammar.Proofs.Rewriting
import LineGrammar.Proofs.RewrittenParts
import LineGrammar.Proofs.RenamedIndex
import LineGrammar.Proofs.RenamedLines
import LineGrammar.Proofs.RenamedPragmas
import LineGrammar.Proofs.RenamedReadings
import LineGrammar.Proofs.RenamedRuns
import LineGrammar.Proofs.TextEdits
import LineGrammar.Proofs.BodyNames
import LineGrammar.Proofs.Declarations
import LineGrammar.Proofs.ExternalWalkers
import LineGrammar.Proofs.SafeRenaming
import LineGrammar.Proofs.RuleRenaming
import LineGrammar.Proofs.Rows
import LineGrammar.Proofs.HighlightOrder
import LineGrammar.Proofs.DeclaredNames
import LineGrammar.Proofs.Recast
import LineGrammar.Proofs.RecastNodes
import LineGrammar.Proofs.ShiftedParts
import LineGrammar.Proofs.Relocation
import LineGrammar.Proofs.RecastAnalysis
import LineGrammar.Proofs.RelocatedRuns
import LineGrammar.Proofs.LayoutInvariance
import LineGrammar.Proofs.Shares
import LineGrammar.Proofs.LineOrder
import LineGrammar.Proofs.DefinitionLines
import LineGrammar.Proofs.IndexRefinement
import LineGrammar.Proofs.CompletionContexts
import LineGrammar.Proofs.OutlineNesting
import LineGrammar.Proofs.FunctionKeys
import LineGrammar.Proofs.PatternMatches
import LineGrammar.Proofs.RepeatedMatches
import LineGrammar.Proofs.ByteOffsets
import LineGrammar.Proofs.Repetitions
