import Restyle.Main
import Restyle.Proofs.Addresses
import Restyle.Proofs.Answers
import Restyle.Proofs.ClosingBraces
import Restyle.Proofs.Commands
import Restyle.Proofs.Containment
import Restyle.Proofs.CutEdits
import Restyle.Proofs.DefaultFile
import Restyle.Proofs.Discovery
import Restyle.Proofs.FileLocks
import Restyle.Proofs.JoinedSpans
import Restyle.Proofs.LineBreaks
import Restyle.Proofs.Literals
import Restyle.Proofs.Messages
import Restyle.Proofs.OuterEdits
import Restyle.Proofs.PrintedSpans
import Restyle.Proofs.ProblemSearch
import Restyle.Proofs.Reordering
import Restyle.Proofs.Repeating
import Restyle.Proofs.Requests
import Restyle.Proofs.StringValues
import Restyle.Proofs.TidiedPaths
import Restyle.Proofs.Troubles
import Restyle.Proofs.UpdateAccepted
import Restyle.Proofs.UpdateAll
import Restyle.Proofs.UpdateInTurn
import Restyle.Proofs.UpdateOutcome
import Restyle.Proofs.UpdatedFiles
import Restyle.Proofs.Visits
import Restyle.Proofs.WriteBack
