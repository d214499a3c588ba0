import UsageGrammar.CommandLine.Configuration
import UsageGrammar.Main
import UsageGrammar.Proofs.Enumeration
import UsageGrammar.Proofs.Equivalence
import UsageGrammar.Proofs.Grammar
import UsageGrammar.Proofs.LexerAgreement
import UsageGrammar.Proofs.Meaning
import UsageGrammar.Proofs.Offences
import UsageGrammar.Proofs.Rereading
import UsageGrammar.Proofs.Listening
import UsageGrammar.Proofs.Tiling
import UsageGrammar.Proofs.Spelling
import UsageGrammar.Proofs.RoundTrip
import UsageGrammar.Proofs.Formatting
import UsageGrammar.Proofs.Checking
import UsageGrammar.Proofs.NormalExpansion
import UsageGrammar.Proofs.Remembering
import UsageGrammar.Proofs.Deduplication
import UsageGrammar.Proofs.Boundaries
import UsageGrammar.Proofs.Vocabulary
import UsageGrammar.Proofs.BreakingOff
import UsageGrammar.Proofs.Ellipses
import UsageGrammar.Proofs.ExpansionOrder
import UsageGrammar.Proofs.Size
import UsageGrammar.Proofs.Cursor
import UsageGrammar.Proofs.Display
import UsageGrammar.Proofs.Quoting
import UsageGrammar.Proofs.Outlines
