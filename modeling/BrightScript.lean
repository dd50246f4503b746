import BrightScript.Main
import BrightScript.Proofs.Config.Covers
import BrightScript.Proofs.Config.Encode
import BrightScript.Proofs.Config.Override
import BrightScript.Proofs.Copy.RoundTrip
import BrightScript.Proofs.Emit.Closed
import BrightScript.Proofs.Emit.Compose
import BrightScript.Proofs.Emit.Folded
import BrightScript.Proofs.Emit.Indented
import BrightScript.Proofs.Parser.Bookkeeping
import BrightScript.Proofs.Parser.Contents
import BrightScript.Proofs.Parser.EndOfFile
import BrightScript.Proofs.Parser.Lines
import BrightScript.Proofs.Parser.Nesting
import BrightScript.Proofs.Parser.Precedence
import BrightScript.Proofs.Parser.Reserved
import BrightScript.Proofs.Parser.Unplaced
import BrightScript.Proofs.Parser.Unsupported
import BrightScript.Proofs.Parser.Verbatim
import BrightScript.Proofs.Program.FullPaths
import BrightScript.Proofs.Program.Staging
import BrightScript.Proofs.Token.Alone
import BrightScript.Proofs.Token.Numeral
import BrightScript.Proofs.Ty.Consistency
