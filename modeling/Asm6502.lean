import Asm6502.Assembly.Run
import Asm6502.Disassembly.Listing
import Asm6502.Command.Run
import Asm6502.Proofs.Layout
import Asm6502.Proofs.Selected
import Asm6502.Proofs.StatementLayout
import Asm6502.Proofs.LaidOut
import Asm6502.Proofs.TwoPass
import Asm6502.Proofs.FixupInvariant
import Asm6502.Proofs.Atomicity
import Asm6502.Proofs.Numerals
import Asm6502.Proofs.Lexing
import Asm6502.Proofs.Lines
import Asm6502.Proofs.Written
import Asm6502.Proofs.Sweep
import Asm6502.Proofs.PrintedLines
import Asm6502.Proofs.Reassembly
import Asm6502.Proofs.RoundTrip
import Asm6502.Proofs.LineLocality
import Asm6502.Proofs.LineGrammar
import Asm6502.Proofs.Rows
import Asm6502.Proofs.GrammarFaults
import Asm6502.Proofs.Turns
import Asm6502.Proofs.Acceptance
import Asm6502.Proofs.Parallel
import Asm6502.Proofs.TokenChanges
import Asm6502.Proofs.Relocation
import Asm6502.Proofs.FailedLines
import Asm6502.Proofs.Recovery
import Asm6502.Proofs.SymbolHistory
import Asm6502.Proofs.SymbolListings
import Asm6502.Proofs.Decoding
import Asm6502.Proofs.AddressSpace
import Asm6502.Proofs.Listable
import Asm6502.Proofs.FillerIndependence
import Asm6502.Proofs.Listings
import Asm6502.Proofs.SourceOrder
import Asm6502.Proofs.References
import Asm6502.Proofs.UndefinedReports
import Asm6502.Proofs.LetterCase
import Asm6502.Proofs.SmallLetters
import Asm6502.Proofs.CaseInsensitivity
import Asm6502.Proofs.ModeSelection
import Asm6502.Proofs.LabelIndependence
import Asm6502.Proofs.Parentheses
import Asm6502.Proofs.StringRuns
import Asm6502.Proofs.PrintedNames
import Asm6502.Proofs.PrintedSymbols
import Asm6502.Proofs.OwnLines
import Asm6502.Proofs.StandAlone
import Asm6502.Proofs.Pieces
import Asm6502.Proofs.SourceSpans
import Asm6502.Proofs.NumberLiterals
import Asm6502.Proofs.Padding
import Asm6502.Proofs.SymbolPositions
import Asm6502.Proofs.Utf8Decoding
import Asm6502.Proofs.StringLiterals
import Asm6502.Proofs.Cancellation
import Asm6502.Proofs.DataText
import Asm6502.Proofs.Partition
import Asm6502.Proofs.Progress
